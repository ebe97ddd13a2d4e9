import AtpEngine.AcyclicUnification
import AtpEngine.Renaming

/-!
Binary resolution and factoring of infer/resolution.cc. Both rules unify two
atoms and apply the unifier to the literals that stay; `Inferred` is that common
step. Each rule is sound, and complete for the instances of its premises: a
ground inference between instances is an instance of what the rule returns.
-/
namespace AtpEngine

open Fuelled ClauseLogic

def resolve (order : VariableOrder) (uconfig : UnificationConfig) (fuel : Nat) (c1 : Clause)
    (litIdx1 : Nat) (c2 : Clause) (litIdx2 : Nat) (env : Env) :
    Except Fault (Option Clause × Env) := do
  let lit1 ← c1.literalAt litIdx1
  let lit2 ← c2.literalAt litIdx2
  if lit1.isPositive = lit2.isPositive then pure (none, env)
  else
    let (c2r, env) ← renameVariables order fuel c2 env
    let lit2r ← c2r.literalAt litIdx2
    let (unified, subst) ← unify env.bank uconfig fuel lit1.atom lit2r.atom {}
    if unified then
      let (left, bank) ← applyLiterals subst fuel (c1.literals.eraseIdx litIdx1) env.bank
      let (right, bank) ← applyLiterals subst fuel (c2r.literals.eraseIdx litIdx2) bank
      pure (some { literals := left ++ right, rule := .kResolution, parent1 := c1.id,
                   parent2 := c2.id }, { env with bank })
    else pure (none, env)

/-- The index pairs at which `allResolvents` calls `resolve`, in loop order. -/
def complementaryPairs (c1 c2 : Clause) : List (Nat × Nat) :=
  (List.range c1.size ×ˢ List.range c2.size).filter fun p =>
    c1.literals[p.1]?.map (·.isPositive) != c2.literals[p.2]?.map (·.isPositive)

def allResolvents (order : VariableOrder) (uconfig : UnificationConfig) (fuel : Nat)
    (c1 c2 : Clause) (env : Env) : Except Fault (List Clause × Env) := do
  let (results, env) ← mapAccum (fun p => resolve order uconfig fuel c1 p.1 c2 p.2)
    (complementaryPairs c1 c2) env
  pure (results.reduceOption, env)

/-- The body of the loops of `factor`: merge literal `j` into literal `i`. -/
def factorPair (uconfig : UnificationConfig) (fuel : Nat) (c : Clause) (i j : Nat) (env : Env) :
    Except Fault (Option Clause × Env) := do
  let litI ← c.literalAt i
  let litJ ← c.literalAt j
  if litI.isPositive ≠ litJ.isPositive then pure (none, env)
  else
    let (unified, subst) ← unify env.bank uconfig fuel litI.atom litJ.atom {}
    if unified then
      let (literals, bank) ← applyLiterals subst fuel (c.literals.eraseIdx j) env.bank
      pure (some { literals, rule := .kFactoring, parent1 := c.id }, { env with bank })
    else pure (none, env)

def orderedPairs (c : Clause) : List (Nat × Nat) :=
  (List.range c.size ×ˢ List.range c.size).filter fun p => p.1 < p.2

theorem mem_orderedPairs {c : Clause} {i j : Nat} :
    (i, j) ∈ orderedPairs c ↔ i < j ∧ j < c.size := by
  simp only [orderedPairs, List.mem_filter, List.mem_product, List.mem_range, decide_eq_true_eq]
  omega

def factor (uconfig : UnificationConfig) (fuel : Nat) (c : Clause) (env : Env) :
    Except Fault (List Clause × Env) := do
  let (results, env) ← mapAccum (fun p => factorPair uconfig fuel c p.1 p.2) (orderedPairs c) env
  pure (results.reduceOption, env)

/-- A call of the inference layer on given premises and literal indices. -/
inductive Inference where
  | resolve (c1 : Clause) (litIdx1 : Nat) (c2 : Clause) (litIdx2 : Nat)
  | factor (c : Clause) (i j : Nat)
  deriving DecidableEq, Repr

namespace Inference

def perform (order : VariableOrder) (uconfig : UnificationConfig) (fuel : Nat) :
    Inference → Env → Except Fault (Option Clause × Env)
  | .resolve c1 litIdx1 c2 litIdx2 => AtpEngine.resolve order uconfig fuel c1 litIdx1 c2 litIdx2
  | .factor c i j => factorPair uconfig fuel c i j

def premises : Inference → List Clause
  | .resolve c1 _ c2 _ => [c1, c2]
  | .factor c _ _ => [c]

def conclusion : Inference → List Literal → Clause
  | .resolve c1 _ c2 _, literals =>
      { literals, rule := .kResolution, parent1 := c1.id, parent2 := c2.id }
  | .factor c _ _, literals => { literals, rule := .kFactoring, parent1 := c.id }

/-- The two literals the inference works on exist; the rule merges a later
literal of a clause into an earlier one, or resolves opposite literals. -/
def InRange : Inference → Prop
  | .resolve c1 litIdx1 c2 litIdx2 => litIdx1 < c1.size ∧ litIdx2 < c2.size
  | .factor c i j => i < j ∧ j < c.size

def ValidIn (bank : TermBank) (inf : Inference) : Prop := ∀ c ∈ inf.premises, c.ValidIn bank

end Inference

open TermTree Triangular

/-- Unify two atoms and apply the result to other literals. -/
inductive Inferred (uconfig : UnificationConfig) (bank : TermBank) (atom1 atom2 : Nat)
    (rest : List Literal) : Option (List Literal) → TermBank → Prop where
  | fails {fuel : Nat} {subst : Substitution} :
      unify bank uconfig fuel atom1 atom2 {} = .ok (false, subst) →
      Inferred uconfig bank atom1 atom2 rest none bank
  | succeeds {fuel : Nat} {subst : Substitution} {lits : List Literal} {bank' : TermBank} :
      unify bank uconfig fuel atom1 atom2 {} = .ok (true, subst) → subst.ValidIn bank →
      LiteralsAppliedTo subst bank rest lits bank' →
      Inferred uconfig bank atom1 atom2 rest (some lits) bank'

/-- Bindings that the configuration can make have solutions in the algebra:
the occurs check excludes cycles, or cycles have solutions too. -/
def Solver {D : Type*} (uconfig : UnificationConfig) (func : Nat → List D → D) : Prop :=
  uconfig.enableOccursCheck = true ∨ SolvesCycles Nat func

/-- The unification of the inference closes a cycle of bindings. Only literals of
opposite polarity are unified in a resolution, and of the same in a factoring. -/
inductive Inference.ClosesCycle (order : VariableOrder) (uconfig : UnificationConfig) :
    Inference → Env → Prop where
  | resolve {c1 c2 c2r : Clause} {i j fuel : Nat} {lit1 lit2 lit2r : Literal} {env mid : Env} :
      c1.literals[i]? = some lit1 → c2.literals[j]? = some lit2 →
      lit1.isPositive ≠ lit2.isPositive → renameVariables order fuel c2 env = .ok (c2r, mid) →
      c2r.literals[j]? = some lit2r →
      AtpEngine.ClosesCycle mid.bank uconfig lit1.atom lit2r.atom {} →
      ClosesCycle order uconfig (.resolve c1 i c2 j) env
  | factor {c : Clause} {i j : Nat} {litI litJ : Literal} {env : Env} :
      c.literals[i]? = some litI → c.literals[j]? = some litJ →
      litI.isPositive = litJ.isPositive →
      AtpEngine.ClosesCycle env.bank uconfig litI.atom litJ.atom {} →
      ClosesCycle order uconfig (.factor c i j) env

section Inferred

variable {uconfig : UnificationConfig} {bank bank' : TermBank} {atom1 atom2 : Nat}
  {rest : List Literal} {out : Option (List Literal)}

theorem unify_empty_valid (wf : bank.WellFormed) {fuel : Nat} {unified : Bool}
    {subst : Substitution}
    (run : unify bank uconfig fuel atom1 atom2 {} = .ok (unified, subst)) : subst.ValidIn bank :=
  (unify_keeps wf (empty_validIn bank) run).valid

theorem Inferred.grows (inferred : Inferred uconfig bank atom1 atom2 rest out bank') :
    bank.Grows bank' ∧ bank'.symbols = bank.symbols ∧
      ∀ lits, out = some lits → ∀ lit ∈ lits, lit.atom < bank'.size := by
  cases inferred with
  | fails _ => exact ⟨.refl bank, rfl, fun _ h => by cases h⟩
  | succeeds _ _ applied =>
      refine ⟨applied.grows, applied.symbols, fun lits same => ?_⟩
      rcases Option.some.inj same with rfl
      exact applied.valid

/-- Some assignment makes the two atoms equal and gives the kept literals the
values that the returned literals have. -/
theorem Inferred.sound (wf : bank.WellFormed) (small : bank.ArityBounded) {D : Type*}
    {I : Interpretation Nat D} (inside1 : atom1 < bank.size) (inside2 : atom2 < bank.size)
    (solver : Solver uconfig I.func ∨ ¬ ClosesCycle bank uconfig atom1 atom2 {})
    {lits : List Literal} (inferred : Inferred uconfig bank atom1 atom2 rest (some lits) bank')
    (assign : Nat → D) :
    ∃ assign', eval I.func assign' (bank.tree atom1) = eval I.func assign' (bank.tree atom2) ∧
      (I.Satisfies assign' (bank.read rest) ↔ I.Satisfies assign (bank'.read lits)) := by
  cases inferred with
  | @succeeds fuel subst _ _ run valid applied =>
      have solved : ∃ assign', Solves I.func assign' (subst.trees bank) ∧
          ∀ x, subst.trees bank x = none → assign' x = assign x := by
        have acyclic : uconfig.enableOccursCheck = true ∨
            ¬ AtpEngine.ClosesCycle bank uconfig atom1 atom2 {} →
            WellFounded (Feeds (subst.trees bank)) := fun safe =>
          unify_acyclic wf (empty_validIn bank) (empty_wellFounded bank) inside1 inside2 safe run
        rcases solver with (enabled | cycles) | never
        · exact acyclic_solvable (acyclic (Or.inl enabled)) assign
        · exact cycles _ assign (Substitution.bound_finite subst bank)
        · exact acyclic_solvable (acyclic (Or.inr never)) assign
      rcases solved with ⟨assign', solves, agree⟩
      exact ⟨assign', unify_sound wf small (empty_validIn bank) run solves,
        applied.applied.satisfies solves agree⟩

/-- Every assignment that makes the two atoms equal gives the returned literals the
values of the kept ones. -/
theorem Inferred.complete {D : Type*} {func : Nat → List D → D} (wf : bank.WellFormed)
    (complete : CompleteIn uconfig func)
    (inferred : Inferred uconfig bank atom1 atom2 rest out bank') {assign : Nat → D}
    (equal : eval func assign (bank.tree atom1) = eval func assign (bank.tree atom2)) :
    ∃ lits, out = some lits ∧
      values func assign (bank'.read lits) = values func assign (bank.read rest) := by
  have nothing : Solves func assign (({} : Substitution).trees bank) :=
    fun _ _ bound => by cases bound
  cases inferred with
  | fails run =>
      have found := (unify_complete wf complete (empty_validIn bank) run nothing equal).1
      cases found
  | @succeeds fuel subst lits _ run valid applied =>
      have solves := (unify_complete wf complete (empty_validIn bank) run nothing equal).2
      exact ⟨lits, rfl, (applied.applied.values_eq func solves).symm⟩

theorem inferred_of_run (wf : bank.WellFormed) {fuel : Nat}
    (inside : ∀ lit ∈ rest, lit.atom < bank.size) {unified : Bool} {subst : Substitution}
    (run : unify bank uconfig fuel atom1 atom2 {} = .ok (unified, subst)) :
    (unified = false → Inferred uconfig bank atom1 atom2 rest none bank) ∧
    (unified = true → ∀ lits bank', applyLiterals subst fuel rest bank = .ok (lits, bank') →
      Inferred uconfig bank atom1 atom2 rest (some lits) bank') := by
  have valid := unify_empty_valid wf run
  refine ⟨?_, ?_⟩
  · rintro rfl
    exact .fails run
  · rintro rfl lits bank' applied
    exact .succeeds run valid (applyLiterals_spec wf valid inside applied)

end Inferred

section Outcomes

variable {order : VariableOrder} {uconfig : UnificationConfig} {fuel : Nat} {env env' : Env}
  {out : Option Clause}

/-- What a returning call of `resolve` has done. -/
inductive ResolveOutcome (order : VariableOrder) (uconfig : UnificationConfig) (c1 : Clause)
    (i : Nat) (c2 : Clause) (j : Nat) (env : Env) : Option Clause → Env → Prop where
  | samePolarity {lit1 lit2 : Literal} : c1.literals[i]? = some lit1 →
      c2.literals[j]? = some lit2 →
      lit1.isPositive = lit2.isPositive → ResolveOutcome order uconfig c1 i c2 j env none env
  | opposite {lit1 lit2 : Literal} {c2r : Clause} {mid : Env} {atom2 fuel : Nat}
      {lits : Option (List Literal)} {bank' : TermBank} :
      c1.literals[i]? = some lit1 → c2.literals[j]? = some lit2 →
      lit1.isPositive ≠ lit2.isPositive → renameVariables order fuel c2 env = .ok (c2r, mid) →
      Renamed env c2 c2r mid →
      c2r.literals[j]? = some ⟨atom2, lit2.isPositive⟩ →
      Inferred uconfig mid.bank lit1.atom atom2 (c1.literals.eraseIdx i ++ c2r.literals.eraseIdx j)
        lits bank' →
      ResolveOutcome order uconfig c1 i c2 j env (lits.map (Inference.resolve c1 i c2 j).conclusion)
        { mid with bank := bank' }

/-- What a returning call of `factorPair` has done. -/
inductive FactorOutcome (uconfig : UnificationConfig) (c : Clause) (i j : Nat) (env : Env) :
    Option Clause → Env → Prop where
  | opposite {litI litJ : Literal} : c.literals[i]? = some litI → c.literals[j]? = some litJ →
      litI.isPositive ≠ litJ.isPositive → FactorOutcome uconfig c i j env none env
  | samePolarity {litI litJ : Literal} {lits : Option (List Literal)} {bank' : TermBank} :
      c.literals[i]? = some litI → c.literals[j]? = some litJ →
      litI.isPositive = litJ.isPositive →
      Inferred uconfig env.bank litI.atom litJ.atom (c.literals.eraseIdx j) lits bank' →
      FactorOutcome uconfig c i j env (lits.map (Inference.factor c i j).conclusion)
        { env with bank := bank' }

theorem Renamed.literal {c c' : Clause} (renamed : Renamed env c c' env') {j : Nat}
    {lit lit' : Literal} (at_j : c.literals[j]? = some lit) (at_j' : c'.literals[j]? = some lit') :
    lit'.isPositive = lit.isPositive := by
  rcases renamed.copy with ⟨σ, copy⟩
  rcases List.getElem?_eq_some_iff.mp at_j with ⟨hj, rfl⟩
  rcases List.getElem?_eq_some_iff.mp at_j' with ⟨hj', rfl⟩
  have same := (List.Forall₂.get copy (by simpa using hj) (by simpa using hj')).1
  simpa [TermBank.read] using same

theorem Renamed.size {c c' : Clause} (renamed : Renamed env c c' env') : c'.size = c.size := by
  rcases renamed.copy with ⟨σ, copy⟩
  have same := copy.length_eq
  rw [TermBank.read_length, TermBank.read_length] at same
  exact same.symm

theorem resolve_outcome {c1 c2 : Clause} {i j : Nat} (wf : env.bank.WellFormed)
    (valid1 : c1.ValidIn env.bank) (valid2 : c2.ValidIn env.bank)
    (run : resolve order uconfig fuel c1 i c2 j env = .ok (out, env')) :
    ResolveOutcome order uconfig c1 i c2 j env out env' := by
  simp only [resolve, bind_ok_iff] at run
  rcases run with ⟨lit1, read1, lit2, read2, run⟩
  have at_i := Clause.literalAt_ok.mp read1
  have at_j := Clause.literalAt_ok.mp read2
  split at run
  · next same =>
      rcases Prod.mk.inj (pure_ok_iff.mp run) with ⟨rfl, rfl⟩
      exact .samePolarity at_i at_j same
  · next differ =>
      simp only [bind_ok_iff, Prod.exists] at run
      rcases run with
        ⟨c2r, mid, rename, ⟨atom2, polarity⟩, read2r, unified, subst, unify, run⟩
      have renamed := renameVariables_spec wf valid2 rename
      have at_j' := Clause.literalAt_ok.mp read2r
      have polarity' : polarity = lit2.isPositive := renamed.literal at_j at_j'
      subst polarity'
      have wfMid := renamed.grows.bank.wf wf
      have inside1 : ∀ lit ∈ c1.literals.eraseIdx i, lit.atom < mid.bank.size :=
        fun lit member =>
        valid1.mono renamed.grows.bank.grows lit (List.eraseIdx_subset member)
      have inside2 : ∀ lit ∈ c2r.literals.eraseIdx j, lit.atom < mid.bank.size :=
        fun lit member =>
        renamed.valid lit (List.eraseIdx_subset member)
      have answer := inferred_of_run wfMid
        (fun lit member => (List.mem_append.mp member).elim (inside1 lit) (inside2 lit)) unify
      cases unified with
      | false =>
          rcases Prod.mk.inj (pure_ok_iff.mp run) with ⟨rfl, rfl⟩
          exact .opposite at_i at_j differ rename renamed at_j' (answer.1 rfl)
      | true =>
          simp only [if_true, bind_ok_iff, Prod.exists] at run
          rcases run with ⟨left, bankL, first, right, bankR, second, run⟩
          rcases Prod.mk.inj (pure_ok_iff.mp run) with ⟨rfl, rfl⟩
          exact .opposite at_i at_j differ rename renamed at_j'
            (answer.2 rfl _ _ (mapAccum_append first second))

theorem factorPair_outcome {c : Clause} {i j : Nat} (wf : env.bank.WellFormed)
    (valid : c.ValidIn env.bank) (run : factorPair uconfig fuel c i j env = .ok (out, env')) :
    FactorOutcome uconfig c i j env out env' := by
  simp only [factorPair, bind_ok_iff] at run
  rcases run with ⟨litI, readI, litJ, readJ, run⟩
  have at_i := Clause.literalAt_ok.mp readI
  have at_j := Clause.literalAt_ok.mp readJ
  split at run
  · next differ =>
      rcases Prod.mk.inj (pure_ok_iff.mp run) with ⟨rfl, rfl⟩
      exact .opposite at_i at_j differ
  · next same =>
      simp only [bind_ok_iff, Prod.exists] at run
      rcases run with ⟨unified, subst, unify, run⟩
      have inside : ∀ lit ∈ c.literals.eraseIdx j, lit.atom < env.bank.size :=
        fun lit member => valid lit (List.eraseIdx_subset member)
      have answer := inferred_of_run wf inside unify
      cases unified with
      | false =>
          rcases Prod.mk.inj (pure_ok_iff.mp run) with ⟨rfl, rfl⟩
          exact .samePolarity at_i at_j (not_not.mp same) (answer.1 rfl)
      | true =>
          simp only [if_true, bind_ok_iff, Prod.exists] at run
          rcases run with ⟨lits, bank', applied, run⟩
          rcases Prod.mk.inj (pure_ok_iff.mp run) with ⟨rfl, rfl⟩
          exact .samePolarity at_i at_j (not_not.mp same) (answer.2 rfl _ _ applied)

end Outcomes

section Inferences

variable {order : VariableOrder} {uconfig : UnificationConfig} {fuel : Nat} {env env' : Env}
  {out : Option Clause}

theorem Inferred.envGrows {mid : Env} {atom1 atom2 : Nat} {rest : List Literal}
    {lits : Option (List Literal)} {bank' : TermBank}
    (inferred : Inferred uconfig mid.bank atom1 atom2 rest lits bank') :
    mid.Grows { mid with bank := bank' } := by
  rcases inferred.grows with ⟨grown, symbols, _⟩
  exact Env.grows_of_symbols grown symbols

/-- A returned clause carries the provenance of its inference and stays inside
the pool, which only grew. -/
structure Performed (env : Env) (inf : Inference) (out : Option Clause) (env' : Env) : Prop where
  grows : env.Grows env'
  built : ∀ r, out = some r → ∃ lits, r = inf.conclusion lits ∧ r.ValidIn env'.bank

theorem Inference.conclusion_literals (inf : Inference) (lits : List Literal) :
    (inf.conclusion lits).literals = lits := by
  cases inf <;> rfl

theorem performed_of_inferred {mid : Env} {inf : Inference} {atom1 atom2 : Nat}
    {rest : List Literal} {lits : Option (List Literal)} {bank' : TermBank} (before : env.Grows mid)
    (inferred : Inferred uconfig mid.bank atom1 atom2 rest lits bank') :
    Performed env inf (lits.map inf.conclusion) { mid with bank := bank' } := by
  refine ⟨before.trans inferred.envGrows, fun r same => ?_⟩
  rcases Option.map_eq_some_iff.mp same with ⟨found, isFound, rfl⟩
  refine ⟨found, rfl, fun lit member => ?_⟩
  rw [inf.conclusion_literals] at member
  exact inferred.grows.2.2 found isFound lit member

theorem perform_performed {inf : Inference} (wf : env.bank.WellFormed)
    (valid : inf.ValidIn env.bank) (run : inf.perform order uconfig fuel env = .ok (out, env')) :
    Performed env inf out env' := by
  have unchanged : Performed env inf none env := ⟨.refl env, fun _ h => by cases h⟩
  cases inf with
  | resolve c1 i c2 j =>
      cases resolve_outcome wf (valid c1 (by simp [Inference.premises]))
        (valid c2 (by simp [Inference.premises])) run with
      | samePolarity _ _ _ => exact unchanged
      | opposite _ _ _ _ renamed _ inferred => exact performed_of_inferred renamed.grows inferred
  | factor c i j =>
      cases factorPair_outcome wf (valid c (by simp [Inference.premises])) run with
      | opposite _ _ _ => exact unchanged
      | samePolarity _ _ _ inferred => exact performed_of_inferred (.refl env) inferred

section Soundness

variable {D : Type*} {I : Interpretation Nat D}

theorem satisfies_split {bank : TermBank} {assign : Nat → D} {lits : List Literal}
    (holds : I.Satisfies assign (bank.read lits)) (i : Nat) :
    I.Satisfies assign (bank.read (lits.eraseIdx i)) ∨ ∃ lit, lits[i]? = some lit ∧
      LitHolds I.holds (eval I.func assign (bank.tree lit.atom), lit.isPositive) := by
  rcases holds with ⟨_, member, value⟩
  rcases List.mem_map.mp member with ⟨lit, inside, rfl⟩
  rcases List.getElem?_of_mem inside with ⟨k, at_k⟩
  by_cases same : k = i
  · subst same
    exact Or.inr ⟨lit, at_k, value⟩
  · exact Or.inl
      ⟨_, List.mem_map.mpr ⟨lit, List.mem_eraseIdx_iff_getElem?.mpr ⟨k, same, at_k⟩, rfl⟩,
      value⟩

theorem satisfies_append {bank : TermBank} {assign : Nat → D} {left right : List Literal}
    (holds : I.Satisfies assign (bank.read left) ∨ I.Satisfies assign (bank.read right)) :
    I.Satisfies assign (bank.read (left ++ right)) := by
  rw [TermBank.read_append]
  rcases holds with ⟨lit, member, value⟩ | ⟨lit, member, value⟩
  · exact ⟨lit, List.mem_append_left _ member, value⟩
  · exact ⟨lit, List.mem_append_right _ member, value⟩

theorem resolve_sound {c1 c2 : Clause} {i j : Nat} (wf : env.bank.WellFormed)
    (small : env.bank.ArityBounded) (valid1 : c1.ValidIn env.bank)
    (solver : Solver uconfig I.func ∨
      ¬ Inference.ClosesCycle order uconfig (.resolve c1 i c2 j) env)
    (models1 : I.Models (env.bank.read c1.literals))
    (models2 : I.Models (env.bank.read c2.literals)) {r : Clause}
    (outcome : ResolveOutcome order uconfig c1 i c2 j env (some r) env') :
    I.Models (env'.bank.read r.literals) := by
  generalize same : some r = out at outcome
  cases outcome with
  | samePolarity _ _ _ => cases same
  | @opposite lit1 lit2 c2r mid atom2 _ lits bank' at_i at_j differ rename renamed at_j' inferred =>
      rcases Option.map_eq_some_iff.mp same.symm with ⟨found, rfl, rfl⟩
      intro assign
      have wfMid := renamed.grows.bank.wf wf
      have inside1 := valid1.mono renamed.grows.bank.grows _ (List.mem_of_getElem? at_i)
      have inside2 := renamed.valid _ (List.mem_of_getElem? at_j')
      rcases inferred.sound wfMid (renamed.grows.bank.small small) inside1 inside2
        (solver.imp_right fun never cycle => never (.resolve at_i at_j differ rename at_j' cycle))
        assign with ⟨assign', equal, value⟩
      rw [Inference.conclusion_literals, ← value]
      apply satisfies_append
      have holds1 := models1 assign'
      rw [← TermBank.read_extends wf wfMid renamed.grows.bank.grows valid1] at holds1
      rcases renamed.copy with ⟨σ, copy⟩
      have holds2 := copy.models models2 assign'
      rcases satisfies_split holds1 i with kept | ⟨l1, at1, true1⟩
      · exact Or.inl kept
      rcases satisfies_split holds2 j with kept | ⟨l2, at2, true2⟩
      · exact Or.inr kept
      -- the two resolved literals are opposite and cannot both hold
      rcases Option.some.inj (at_i.symm.trans at1) with rfl
      rcases Option.some.inj (at_j'.symm.trans at2) with rfl
      rw [LitHolds, equal] at true1
      rw [LitHolds] at true2
      exact absurd (Bool.eq_iff_iff.mpr (true1.trans true2.symm)) differ

theorem factor_sound {c : Clause} {i j : Nat} (before : i < j) (wf : env.bank.WellFormed)
    (small : env.bank.ArityBounded) (valid : c.ValidIn env.bank)
    (solver : Solver uconfig I.func ∨ ¬ Inference.ClosesCycle order uconfig (.factor c i j) env)
    (models : I.Models (env.bank.read c.literals)) {r : Clause}
    (outcome : FactorOutcome uconfig c i j env (some r) env') :
    I.Models (env'.bank.read r.literals) := by
  generalize same : some r = out at outcome
  cases outcome with
  | opposite _ _ _ => cases same
  | @samePolarity litI litJ lits bank' at_i at_j agree inferred =>
      rcases Option.map_eq_some_iff.mp same.symm with ⟨found, rfl, rfl⟩
      intro assign
      rcases inferred.sound wf small (valid _ (List.mem_of_getElem? at_i))
        (valid _ (List.mem_of_getElem? at_j))
        (solver.imp_right fun never cycle => never (.factor at_i at_j agree cycle)) assign with
        ⟨assign', equal, value⟩
      rw [Inference.conclusion_literals, ← value]
      rcases satisfies_split (models assign') j with kept | ⟨l, at_l, holds⟩
      · exact kept
      -- the merged literal has the value of the one that stays
      rcases Option.some.inj (at_j.symm.trans at_l) with rfl
      refine ⟨(env.bank.tree litI.atom, litI.isPositive),
        List.mem_map.mpr ⟨litI, ?_, rfl⟩, ?_⟩
      · exact List.mem_eraseIdx_iff_getElem?.mpr ⟨i, by omega, at_i⟩
      · rw [LitHolds] at holds ⊢
        simpa [equal, agree] using holds

theorem perform_sound {inf : Inference} (wf : env.bank.WellFormed) (small : env.bank.ArityBounded)
    (solver : Solver uconfig I.func ∨ ¬ inf.ClosesCycle order uconfig env)
    (valid : inf.ValidIn env.bank) (inRange : inf.InRange)
    (models : ∀ c ∈ inf.premises, I.Models (env.bank.read c.literals)) {r : Clause}
    (run : inf.perform order uconfig fuel env = .ok (some r, env')) :
    I.Models (env'.bank.read r.literals) := by
  cases inf with
  | resolve c1 i c2 j =>
      have valid1 := valid c1 (by simp [Inference.premises])
      have valid2 := valid c2 (by simp [Inference.premises])
      exact resolve_sound wf small valid1 solver (models c1 (by simp [Inference.premises]))
        (models c2 (by simp [Inference.premises])) (resolve_outcome wf valid1 valid2 run)
  | factor c i j =>
      have valid' := valid c (by simp [Inference.premises])
      exact factor_sound inRange.1 wf small valid' solver (models c (by simp [Inference.premises]))
        (factorPair_outcome wf valid' run)

end Soundness

section Completeness

variable {D : Type*} {func : Nat → List D → D}

/-- Lifting of resolution: opposite literals whose atoms can be made equal resolve,
and the ground resolvent of the values is a value of the result. -/
theorem resolve_complete {c1 c2 : Clause} {i j : Nat} (wf : env.bank.WellFormed)
    (complete : CompleteIn uconfig func) (fresh : env.Fresh) (valid1 : c1.ValidIn env.bank)
    (outcome : ResolveOutcome order uconfig c1 i c2 j env out env') {lit1 lit2 : Literal}
    (at_i : c1.literals[i]? = some lit1) (at_j : c2.literals[j]? = some lit2)
    (differ : lit1.isPositive ≠ lit2.isPositive) {assign1 assign2 : Nat → D}
    (equal : eval func assign1 (env.bank.tree lit1.atom) =
      eval func assign2 (env.bank.tree lit2.atom)) :
    ∃ r, out = some r ∧ ∃ assign, values func assign (env'.bank.read r.literals) =
      values func assign1 (env.bank.read (c1.literals.eraseIdx i)) ++
        values func assign2 (env.bank.read (c2.literals.eraseIdx j)) := by
  classical
  cases outcome with
  | samePolarity at1 at2 same =>
      rcases Option.some.inj (at_i.symm.trans at1) with rfl
      rcases Option.some.inj (at_j.symm.trans at2) with rfl
      exact absurd same differ
  | @opposite l1 l2 c2r mid atom2 _ lits bank' at1 at2 _ _ renamed at_j' inferred =>
      rcases Option.some.inj (at_i.symm.trans at1) with rfl
      rcases Option.some.inj (at_j.symm.trans at2) with rfl
      have wfMid := renamed.grows.bank.wf wf
      rcases renamed.apart fresh with ⟨ρ, inj, above, copy⟩
      -- one assignment acts as assign1 on the old variables and as assign2 on the copies
      let assign : Nat → D := fun y =>
        if h : ∃ x, VarOf x (env.bank.read c2.literals) ∧ ρ x = y then assign2 h.choose
        else assign1 y
      have onOld : ∀ x, x < env.bank.size → assign x = assign1 x := by
        intro x old
        refine dif_neg ?_
        rintro ⟨z, occurs, rfl⟩
        have := above z occurs
        omega
      have onNew : ∀ x, VarOf x (env.bank.read c2.literals) → assign (ρ x) = assign2 x := by
        intro x occurs
        have found : ∃ z, VarOf z (env.bank.read c2.literals) ∧ ρ z = ρ x :=
          ⟨x, occurs, rfl⟩
        rw [show assign (ρ x) = assign2 found.choose from dif_pos found,
          inj _ _ found.choose_spec.1 occurs found.choose_spec.2]
      have left : values func assign (mid.bank.read c1.literals) =
          values func assign1 (env.bank.read c1.literals) := by
        rw [TermBank.read_extends wf wfMid renamed.grows.bank.grows valid1]
        exact values_congr func fun x occurs =>
          onOld x (TermBank.isVar_lt (varOf_lt wf valid1 occurs))
      have right : values func assign (mid.bank.read c2r.literals) =
          values func assign2 (env.bank.read c2.literals) := by
        rw [copy, values_inst]
        exact values_congr func fun x occurs => by simpa using onNew x occurs
      have atomLeft : eval func assign (mid.bank.tree lit1.atom) =
          eval func assign1 (env.bank.tree lit1.atom) := by
        have := congrArg (·[i]?) left
        simpa [values, TermBank.read, at_i] using this
      have atomRight : eval func assign (mid.bank.tree atom2) =
          eval func assign2 (env.bank.tree lit2.atom) := by
        have := congrArg (·[j]?) right
        simpa [values, TermBank.read, at_j, at_j'] using this
      rcases inferred.complete wfMid complete (atomLeft.trans (equal.trans atomRight.symm)) with
        ⟨found, rfl, same⟩
      refine ⟨_, rfl, assign, ?_⟩
      rw [Inference.conclusion_literals, same, TermBank.read_append, values_append]
      simp only [TermBank.read_eraseIdx, values_eraseIdx, left, right]

theorem factor_complete {c : Clause} {i j : Nat} (wf : env.bank.WellFormed)
    (complete : CompleteIn uconfig func) (outcome : FactorOutcome uconfig c i j env out env')
    {litI litJ : Literal} (at_i : c.literals[i]? = some litI) (at_j : c.literals[j]? = some litJ)
    (same : litI.isPositive = litJ.isPositive) {assign : Nat → D}
    (equal : eval func assign (env.bank.tree litI.atom) =
      eval func assign (env.bank.tree litJ.atom)) :
    ∃ r, out = some r ∧ values func assign (env'.bank.read r.literals) =
      values func assign (env.bank.read (c.literals.eraseIdx j)) := by
  cases outcome with
  | opposite at1 at2 differ =>
      rcases Option.some.inj (at_i.symm.trans at1) with rfl
      rcases Option.some.inj (at_j.symm.trans at2) with rfl
      exact absurd same differ
  | samePolarity at1 at2 _ inferred =>
      rcases Option.some.inj (at_i.symm.trans at1) with rfl
      rcases Option.some.inj (at_j.symm.trans at2) with rfl
      rcases inferred.complete wf complete equal with ⟨found, rfl, kept⟩
      exact ⟨_, rfl, by rw [Inference.conclusion_literals, kept]⟩

end Completeness

end Inferences

end AtpEngine
