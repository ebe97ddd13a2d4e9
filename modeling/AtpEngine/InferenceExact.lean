import AtpEngine.InferenceReturns
import AtpEngine.MostGeneralUnifier
import Mathlib.Data.List.ReduceOption

/-!
Resolution and factoring with the occurs check on, read over trees. A rule
answers exactly when instances of its premises allow the ground inference; its
clause is the conclusion of such instances, and the conclusions of all others
are instances of it.
-/
namespace AtpEngine

open Fuelled ClauseLogic Triangular TermTree Substitution

variable {W : Type}

/-- The instances of literal `i` of `c1` and of literal `j` of `c2` are complementary. -/
def Complementary (bank : TermBank) (c1 : Clause) (i : Nat) (c2 : Clause) (j : Nat)
    (θ1 θ2 : Nat → TermTree Nat W) : Prop :=
  ∃ lit1 lit2, c1.literals[i]? = some lit1 ∧ c2.literals[j]? = some lit2 ∧
    lit1.isPositive ≠ lit2.isPositive ∧
    TermTree.subst θ1 (bank.tree lit1.atom) = TermTree.subst θ2 (bank.tree lit2.atom)

def instanceResolvent (bank : TermBank) (c1 : Clause) (i : Nat) (c2 : Clause) (j : Nat)
    (θ1 θ2 : Nat → TermTree Nat W) : Literals Nat W :=
  inst θ1 (bank.read (c1.literals.eraseIdx i)) ++ inst θ2 (bank.read (c2.literals.eraseIdx j))

/-- The instance of the clause makes literal `j` a copy of literal `i`. -/
def Merges (bank : TermBank) (c : Clause) (i j : Nat) (θ : Nat → TermTree Nat W) : Prop :=
  ∃ litI litJ, c.literals[i]? = some litI ∧ c.literals[j]? = some litJ ∧
    litI.isPositive = litJ.isPositive ∧
    TermTree.subst θ (bank.tree litI.atom) = TermTree.subst θ (bank.tree litJ.atom)

structure MostGeneralResolvent (bank bank' : TermBank) (c1 : Clause) (i : Nat) (c2 : Clause)
    (j : Nat) (r : Clause) : Prop where
  rule : r.rule = .kResolution
  parent1 : r.parent1 = c1.id
  parent2 : r.parent2 = c2.id
  resolvent : ∃ θ1 θ2 : Nat → TermTree Nat Nat, Complementary bank c1 i c2 j θ1 θ2 ∧
    bank'.read r.literals = instanceResolvent bank c1 i c2 j θ1 θ2
  general : ∀ (W : Type) (θ1 θ2 : Nat → TermTree Nat W),
    Complementary bank c1 i c2 j θ1 θ2 → ∃ ρ : Nat → TermTree Nat W,
      inst ρ (bank'.read r.literals) = instanceResolvent bank c1 i c2 j θ1 θ2

structure MostGeneralFactor (bank bank' : TermBank) (c : Clause) (i j : Nat) (r : Clause) :
    Prop where
  rule : r.rule = .kFactoring
  parent1 : r.parent1 = c.id
  parent2 : r.parent2 = kInvalidId
  factor : ∃ θ : Nat → TermTree Nat Nat, Merges bank c i j θ ∧
    bank'.read r.literals = inst θ (bank.read (c.literals.eraseIdx j))
  general : ∀ (W : Type) (θ : Nat → TermTree Nat W), Merges bank c i j θ →
    ∃ ρ : Nat → TermTree Nat W,
      inst ρ (bank'.read r.literals) = inst θ (bank.read (c.literals.eraseIdx j))

section Inferred

variable {uconfig : UnificationConfig} {bank bank' : TermBank} {atom1 atom2 : Nat}
  {rest lits : List Literal}

theorem Inferred.isInstance (wf : bank.WellFormed) (small : bank.ArityBounded)
    (enabled : uconfig.enableOccursCheck = true) (inside1 : atom1 < bank.size)
    (inside2 : atom2 < bank.size)
    (inferred : Inferred uconfig bank atom1 atom2 rest (some lits) bank') :
    ∃ θ : Nat → TermTree Nat Nat,
      TermTree.subst θ (bank.tree atom1) = TermTree.subst θ (bank.tree atom2) ∧
      bank'.read lits = inst θ (bank.read rest) := by
  cases inferred with
  | @succeeds fuel subst _ _ run valid applied =>
      have acyclic := unify_acyclic wf (empty_validIn bank) (empty_wellFounded bank) inside1 inside2
        (Or.inl enabled) run
      have solves := acyclic_solves acyclic
      refine ⟨_, unify_sound wf small (empty_validIn bank) run solves, ?_⟩
      have value : ∀ t τ, Applied (subst.trees bank) t τ →
          TermTree.subst (solution .node (subst.trees bank) .var) t = TermTree.subst .var τ :=
        fun t τ done => solution_applied done
      exact ((applied.applied.map_eq value).trans (inst_var _)).symm

end Inferred

section Resolvents

variable {order : VariableOrder} {uconfig : UnificationConfig} {env env' : Env} {c1 c2 : Clause}
  {i j : Nat}

theorem atom_of_inst_eq {bank bank' : TermBank} {lits lits' : List Literal}
    {θ θ' : Nat → TermTree Nat W}
    (same : inst θ (bank.read lits) = inst θ' (bank'.read lits')) {k : Nat} {lit lit' : Literal}
    (at_k : lits[k]? = some lit) (at_k' : lits'[k]? = some lit') :
    TermTree.subst θ (bank.tree lit.atom) = TermTree.subst θ' (bank'.tree lit'.atom) := by
  have atPlace := congrArg (·[k]?) same
  simp only [inst, TermBank.read, List.getElem?_map, at_k, at_k', Option.map_some,
    Option.some.injEq, Prod.mk.injEq] at atPlace
  exact atPlace.1

theorem resolve_isInstance (wf : env.bank.WellFormed) (small : env.bank.ArityBounded)
    (enabled : uconfig.enableOccursCheck = true) (fresh : env.Fresh) (valid1 : c1.ValidIn env.bank)
    {r : Clause} (outcome : ResolveOutcome order uconfig c1 i c2 j env (some r) env') :
    ∃ θ1 θ2 : Nat → TermTree Nat Nat, Complementary env.bank c1 i c2 j θ1 θ2 ∧
      env'.bank.read r.literals = instanceResolvent env.bank c1 i c2 j θ1 θ2 := by
  generalize same : some r = out at outcome
  cases outcome with
  | samePolarity _ _ _ => cases same
  | @opposite lit1 lit2 c2r mid atom2 _ lits bank' at_i at_j differ rename renamed at_j' inferred =>
      rcases Option.map_eq_some_iff.mp same.symm with ⟨found, rfl, rfl⟩
      have wfMid := renamed.grows.bank.wf wf
      have grown := renamed.grows.bank.grows
      rcases inferred.isInstance wfMid (renamed.grows.bank.small small) enabled
        (valid1.mono grown _ (List.mem_of_getElem? at_i))
        (renamed.valid _ (List.mem_of_getElem? at_j')) with ⟨θ, equal, reads⟩
      -- the second premise is read through its renamed copy
      rcases renamed.apart fresh with ⟨ρ, _, _, copy⟩
      have left : inst θ (mid.bank.read c1.literals) = inst θ (env.bank.read c1.literals) := by
        rw [TermBank.read_extends wf wfMid grown valid1]
      have right : inst θ (mid.bank.read c2r.literals) =
          inst (fun x => θ (ρ x)) (env.bank.read c2.literals) := by
        rw [copy, inst_inst]
        exact inst_congr fun x _ => by simp
      refine ⟨θ, fun x => θ (ρ x), ⟨lit1, lit2, at_i, at_j, differ, ?_⟩, ?_⟩
      · rw [← atom_of_inst_eq left at_i at_i, equal, atom_of_inst_eq right at_j' at_j]
      · rw [Inference.conclusion_literals, reads, instanceResolvent, TermBank.read_append,
          inst_append]
        simp only [TermBank.read_eraseIdx, inst_eraseIdx, left, right]

/-- A call of `resolve` returns, and its clause is most general; without one no
instances of the two literals are complementary. -/
theorem resolve_mostGeneral (order : VariableOrder) (wf : env.bank.WellFormed)
    (small : env.bank.ArityBounded) (enabled : uconfig.enableOccursCheck = true) (fresh : env.Fresh)
    (valid1 : c1.ValidIn env.bank) (valid2 : c2.ValidIn env.bank) (inRange1 : i < c1.size)
    (inRange2 : j < c2.size) :
    ∃ out env', Returns (fun fuel => resolve order uconfig fuel c1 i c2 j env) (out, env') ∧
      (∀ r, out = some r → MostGeneralResolvent env.bank env'.bank c1 i c2 j r) ∧
      (out = none → ∀ (W : Type) (θ1 θ2 : Nat → TermTree Nat W),
        ¬ Complementary env.bank c1 i c2 j θ1 θ2) := by
  rcases resolve_answers wf valid1 valid2 inRange1 inRange2 (fun _ _ _ => fresh.namesFree _)
    (Or.inl enabled) with ⟨out, env', done⟩
  rcases done.exists with ⟨fuel, run⟩
  have outcome := resolve_outcome wf valid1 valid2 run
  have complete : ∀ (W : Type) (θ1 θ2 : Nat → TermTree Nat W),
      Complementary env.bank c1 i c2 j θ1 θ2 → ∃ r, out = some r ∧ ∃ ρ,
        inst ρ (env'.bank.read r.literals) = instanceResolvent env.bank c1 i c2 j θ1 θ2 := by
    rintro W θ1 θ2 ⟨lit1, lit2, at_i, at_j, differ, equal⟩
    exact resolve_complete wf (node_completeIn _) fresh valid1 outcome at_i at_j differ equal
  refine ⟨out, env', done, ?_, ?_⟩
  · rintro r rfl
    have answered : (Inference.resolve c1 i c2 j).perform order uconfig fuel env =
        .ok (some r, env') := run
    have valid : (Inference.resolve c1 i c2 j).ValidIn env.bank := by
      simp [Inference.ValidIn, Inference.premises, valid1, valid2]
    rcases (perform_performed wf valid answered).built r rfl with ⟨lits, rfl, _⟩
    constructor
    case rule => rfl
    case parent1 => rfl
    case parent2 => rfl
    case resolvent => exact resolve_isInstance wf small enabled fresh valid1 outcome
    case general =>
      intro W θ1 θ2 complementary
      rcases complete W θ1 θ2 complementary with ⟨r, same, instances⟩
      rcases Option.some.inj same with rfl
      exact instances
  · rintro rfl W θ1 θ2 complementary
    rcases complete W θ1 θ2 complementary with ⟨r, same, _⟩
    cases same

theorem Env.fresh_of_reserved (table : env.bank.symbols.WellFormed)
    (reserved : ∀ info ∈ env.bank.symbols.infos, ∀ k, info.name = freshName k →
      info.kind = .kVariable ∧ k < env.varCounter) : env.Fresh :=
  Env.fresh_of_below table fun info member k same => (reserved info member k same).2

/-- `resolve` answers exactly when the two literals have complementary instances,
and then with a most general resolvent. -/
theorem resolve_exact (order : VariableOrder) (wf : env.bank.WellFormed)
    (small : env.bank.ArityBounded) (enabled : uconfig.enableOccursCheck = true)
    (reserved : ∀ info ∈ env.bank.symbols.infos, ∀ k, info.name = freshName k →
      info.kind = .kVariable ∧ k < env.varCounter)
    (valid1 : c1.ValidIn env.bank) (valid2 : c2.ValidIn env.bank) (inRange1 : i < c1.size)
    (inRange2 : j < c2.size) :
    ∃ out env', Returns (fun fuel => resolve order uconfig fuel c1 i c2 j env) (out, env') ∧
      (out.isSome = true ↔
        ∃ θ1 θ2 : Nat → TermTree Nat Nat, Complementary env.bank c1 i c2 j θ1 θ2) ∧
      ∀ r, out = some r → MostGeneralResolvent env.bank env'.bank c1 i c2 j r := by
  have fresh := Env.fresh_of_reserved wf.table reserved
  rcases resolve_mostGeneral order wf small enabled fresh valid1 valid2 inRange1 inRange2 with
    ⟨out, env', done, found, nothing⟩
  refine ⟨out, env', done, ?_, found⟩
  cases out with
  | none => simpa using nothing rfl Nat
  | some r =>
      rcases (found r rfl).resolvent with ⟨θ1, θ2, complementary, _⟩
      simpa using ⟨θ1, θ2, complementary⟩

def resolventInput : Text :=
  "cnf(a,axiom,p(X,f(Y))|q(Y)). cnf(b,axiom,~p(g(X),Z)|r(Z,X)).".toList

theorem resolvent_pool :
    ∃ (c1 c2 : Clause) (env : Env), readInput resolventInput = .ok ([c1, c2], env) ∧
    env.bank.WellFormed ∧ env.bank.ArityBounded ∧ c1.ValidIn env.bank ∧
    c2.ValidIn env.bank ∧ 0 < c1.size ∧ 0 < c2.size ∧
    (∀ info ∈ env.bank.symbols.infos, ∀ k, info.name ≠ freshName k) ∧
    ∃ θ1 θ2 : Nat → TermTree Nat Nat, Complementary env.bank c1 0 c2 0 θ1 θ2 := by
  have facts :
      (fun out => (out.1.map Clause.size, out.2.bank.terms.all fun t => t.args.length ≤ 65535,
      out.2.bank.symbols.infos.all fun info => info.name.head? != some '_')) <$>
      readInput resolventInput = .ok ([2, 2], true, true) := by decide +kernel
  have answer : (readInput resolventInput >>= fun out => (fun r => r.1.isSome) <$>
      resolve .insertion ⟨true⟩ 50 (out.1.getD 0 { literals := [] }) 0
        (out.1.getD 1 { literals := [] }) 0 out.2) = .ok true := by decide +kernel
  rcases bind_ok_iff.mp answer with ⟨⟨clauses, env⟩, read, resolves⟩
  rcases map_ok_iff.mp facts with ⟨out, read', known⟩
  rcases Except.ok.inj (read.symm.trans read') with rfl
  rcases Prod.mk.inj known with ⟨sizes, known⟩
  rcases Prod.mk.inj known with ⟨few, plain⟩
  rcases List.map_eq_cons_iff.mp sizes with ⟨c1, rest, rfl, size1, sizes⟩
  rcases List.map_eq_cons_iff.mp sizes with ⟨c2, rest, rfl, size2, sizes⟩
  rcases List.map_eq_nil_iff.mp sizes with rfl
  rcases map_ok_iff.mp resolves with ⟨⟨found, env'⟩, run, isSome⟩
  rcases Option.isSome_iff_exists.mp isSome with ⟨r, rfl⟩
  have ready := (readInput_ready read).1
  have valid1 := ready.valid c1 (by simp)
  have valid2 := ready.valid c2 (by simp)
  have small : env.bank.ArityBounded := fun id t found => by
    simpa using List.all_eq_true.mp few t (List.mem_of_getElem? found)
  have names : ∀ info ∈ env.bank.symbols.infos, ∀ k, info.name ≠ freshName k := by
    intro info member k same
    have other := List.all_eq_true.mp plain info member
    simp [same, freshName] at other
  have enabled : (⟨true⟩ : UnificationConfig).enableOccursCheck = true := rfl
  rcases resolve_isInstance ready.wf small enabled (Env.fresh_of_names ready.wf.table names) valid1
    (resolve_outcome ready.wf valid1 valid2 run) with ⟨θ1, θ2, complementary, _⟩
  exact ⟨c1, c2, env, read, ready.wf, small, valid1, valid2, by omega, by omega, names, θ1, θ2,
    complementary⟩

theorem resolve_exact_sample : ∃ (c1 c2 r : Clause) (env env' : Env),
    readInput resolventInput = .ok ([c1, c2], env) ∧
    Returns (fun fuel => resolve .insertion ⟨true⟩ fuel c1 0 c2 0 env) (some r, env') ∧
    MostGeneralResolvent env.bank env'.bank c1 0 c2 0 r := by
  rcases resolvent_pool with
    ⟨c1, c2, env, read, wf, small, valid1, valid2, some1, some2, plain, complementary⟩
  have enabled : (⟨true⟩ : UnificationConfig).enableOccursCheck = true := rfl
  rcases resolve_exact .insertion wf small enabled (fun info member k same =>
    absurd same (plain info member k)) valid1 valid2 some1 some2 with
      ⟨out, env', done, found, exact⟩
  rcases Option.isSome_iff_exists.mp (found.mpr complementary) with ⟨r, rfl⟩
  exact ⟨c1, c2, r, env, env', read, done, exact r rfl⟩

end Resolvents

section Factors

variable {uconfig : UnificationConfig} {env env' : Env} {c : Clause} {i j : Nat}

/-- The answer for one pair: a most general factor, or none where nothing merges. -/
structure PairFactored (bank bank' : TermBank) (c : Clause) (p : Nat × Nat) (out : Option Clause) :
    Prop where
  found : ∀ r, out = some r → MostGeneralFactor bank bank' c p.1 p.2 r ∧ r.ValidIn bank'
  nothing : out = none → ∀ (W : Type) (θ : Nat → TermTree Nat W), ¬ Merges bank c p.1 p.2 θ

theorem factorPair_mostGeneral (wf : env.bank.WellFormed) (small : env.bank.ArityBounded)
    (enabled : uconfig.enableOccursCheck = true) (valid : c.ValidIn env.bank) {fuel : Nat}
    {out : Option Clause} (run : factorPair uconfig fuel c i j env = .ok (out, env')) :
    PairFactored env.bank env'.bank c (i, j) out := by
  have outcome := factorPair_outcome wf valid run
  have complete : ∀ (W : Type) (θ : Nat → TermTree Nat W), Merges env.bank c i j θ →
      ∃ r, out = some r ∧ inst θ (env'.bank.read r.literals) =
        inst θ (env.bank.read (c.literals.eraseIdx j)) := by
    rintro W θ ⟨litI, litJ, at_i, at_j, same, equal⟩
    exact factor_complete wf (node_completeIn _) outcome at_i at_j same equal
  constructor
  case nothing =>
    rintro rfl W θ merges
    rcases complete W θ merges with ⟨r, same, _⟩
    cases same
  case found =>
    rintro r rfl
    have answered : (Inference.factor c i j).perform .insertion uconfig fuel env =
        .ok (some r, env') := run
    have premise : (Inference.factor c i j).ValidIn env.bank := by
      simp [Inference.ValidIn, Inference.premises, valid]
    rcases (perform_performed wf premise answered).built r rfl with ⟨lits, rfl, inside⟩
    refine ⟨?_, inside⟩
    constructor
    case rule => rfl
    case parent1 => rfl
    case parent2 => rfl
    case general =>
      intro W θ merges
      rcases complete W θ merges with ⟨r, same, instances⟩
      rcases Option.some.inj same with rfl
      exact ⟨θ, instances⟩
    case factor =>
      generalize same : some ((Inference.factor c i j).conclusion lits) = answer at outcome
      cases outcome with
      | opposite _ _ _ => cases same
      | @samePolarity litI litJ found bank' at_i at_j agree inferred =>
          rcases Option.map_eq_some_iff.mp same.symm with ⟨lits', rfl, built⟩
          rw [← built, Inference.conclusion_literals]
          rcases inferred.isInstance wf small enabled (valid _ (List.mem_of_getElem? at_i))
            (valid _ (List.mem_of_getElem? at_j)) with ⟨θ, equal, reads⟩
          exact ⟨θ, ⟨litI, litJ, at_i, at_j, agree, equal⟩, reads⟩

theorem merges_of_reads {bank first : TermBank}
    (premise : bank.read c.literals = first.read c.literals) {θ : Nat → TermTree Nat W}
    (merges : Merges bank c i j θ) : Merges first c i j θ := by
  have atoms : ∀ {k : Nat} {lit : Literal}, c.literals[k]? = some lit →
      TermTree.subst θ (bank.tree lit.atom) = TermTree.subst θ (first.tree lit.atom) :=
    fun at_k => atom_of_inst_eq (congrArg (inst θ) premise) at_k at_k
  rcases merges with ⟨litI, litJ, at_i, at_j, same, equal⟩
  exact ⟨litI, litJ, at_i, at_j, same, by rw [← atoms at_i, equal, atoms at_j]⟩

theorem MostGeneralFactor.of_reads {bank bank' first last : TermBank} {r : Clause}
    (exact : MostGeneralFactor bank bank' c i j r)
    (premise : bank.read c.literals = first.read c.literals)
    (result : last.read r.literals = bank'.read r.literals) :
    MostGeneralFactor first last c i j r := by
  have rest : bank.read (c.literals.eraseIdx j) = first.read (c.literals.eraseIdx j) := by
    rw [TermBank.read_eraseIdx, TermBank.read_eraseIdx, premise]
  constructor
  case rule => exact exact.rule
  case parent1 => exact exact.parent1
  case parent2 => exact exact.parent2
  case factor =>
    rcases exact.factor with ⟨θ, merged, reads⟩
    exact ⟨θ, merges_of_reads premise merged, by rw [result, reads, rest]⟩
  case general =>
    intro W θ merged
    rcases exact.general W θ (merges_of_reads premise.symm merged) with ⟨ρ, instances⟩
    exact ⟨ρ, by rw [result, instances, rest]⟩

theorem factor_loop (wf : env.bank.WellFormed) (small : env.bank.ArityBounded)
    (enabled : uconfig.enableOccursCheck = true) (valid : c.ValidIn env.bank) :
    ∃ outs env', Returns (fun fuel => mapAccum (fun p => factorPair uconfig fuel c p.1 p.2)
        (orderedPairs c) env) (outs, env') ∧
      List.Forall₂ (PairFactored env.bank env'.bank c) (orderedPairs c) outs := by
  have inRange : ∀ p ∈ orderedPairs c, (Inference.factor c p.1 p.2).InRange := by
    rintro ⟨a, b⟩ member
    exact mem_orderedPairs.mp member
  have premise : ∀ {e : Env} (p : Nat × Nat), env.Grows e →
      (Inference.factor c p.1 p.2).ValidIn e.bank := by
    intro e p grown
    simpa [Inference.ValidIn, Inference.premises] using valid.mono grown.bank.grows
  have returns := mapAccum_returns (f := fun fuel p => factorPair uconfig fuel c p.1 p.2)
    (l := orderedPairs c) (s := env) (fun e => env.Grows e) (fun _ => True)
    (fun p member e grown => by
      have wfE := grown.bank.wf wf
      have safe : uconfig.enableOccursCheck = true ∨
          ¬ (Inference.factor c p.1 p.2).ClosesCycle .insertion uconfig e := Or.inl enabled
      rcases perform_returns wfE (premise p grown) (inRange p member) trivial safe
        with ⟨out, e', done⟩
      rcases done.exists with ⟨fuel, run⟩
      exact ⟨out, e', done, grown.trans (perform_performed wfE (premise p grown) run).grows,
        trivial⟩)
    (.refl env)
  rcases returns with ⟨outs, env', done, _⟩
  rcases done.exists with ⟨fuel, run⟩
  refine ⟨outs, env', done, ?_⟩
  -- an answer is about the pool of its own call; later calls read both clauses the same way
  have loop := mapAccum_rule (fun e => env.Grows e) (fun e e' => e.Grows e')
    (fun e p out => e.bank.WellFormed ∧ PairFactored env.bank e.bank c p out)
    Env.Grows.refl Env.Grows.trans
    (fun grows exact => by
      have wfLater := grows.bank.wf exact.1
      refine ⟨wfLater, ?_, exact.2.nothing⟩
      intro r found
      rcases exact.2.found r found with ⟨factored, inside⟩
      have reads := TermBank.read_extends exact.1 wfLater grows.bank.grows inside
      exact ⟨factored.of_reads rfl reads, inside.mono grows.bank.grows⟩)
    (fun p member e out e' grown call => by
      have wfE := grown.bank.wf wf
      have answered : (Inference.factor c p.1 p.2).perform .insertion uconfig fuel e =
          .ok (out, e') := call
      have grows := (perform_performed wfE (premise p grown) answered).grows
      have exact := factorPair_mostGeneral wfE (grown.bank.small small) enabled
        (valid.mono grown.bank.grows) call
      have reads := TermBank.read_extends wf wfE grown.bank.grows valid
      refine ⟨grown.trans grows, grows, grows.bank.wf wfE, ?_, ?_⟩
      · intro r found
        rcases exact.found r found with ⟨factored, inside⟩
        exact ⟨factored.of_reads reads rfl, inside⟩
      · intro none W θ merges
        exact exact.nothing none W θ (merges_of_reads reads.symm merges))
    (.refl env) run
  exact loop.2.2.imp fun p out exact => exact.2

theorem forall₂_reduceOption {α β : Type} {R : α → Option β → Prop} {l : List α}
    {outs : List (Option β)} (all : List.Forall₂ R l outs) (has : α → Bool)
    (found : ∀ a b, R a (some b) → has a = true) (nothing : ∀ a, R a none → has a = false) :
    List.Forall₂ (fun a b => R a (some b)) (l.filter has) outs.reduceOption := by
  induction all with
  | nil => exact .nil
  | @cons a out _ _ first _ ih =>
      cases out with
      | none =>
          rw [List.reduceOption_cons_of_none, List.filter_cons_of_neg (by simp [nothing a first])]
          exact ih
      | some b =>
          rw [List.reduceOption_cons_of_some, List.filter_cons_of_pos (found a b first)]
          exact .cons first ih

theorem orderedPairs_sorted (c : Clause) :
    (orderedPairs c).Pairwise (Prod.Lex (· < ·) (· < ·)) := by
  apply List.Pairwise.filter
  show List.Pairwise _ ((List.range c.size).flatMap fun i => (List.range c.size).map (Prod.mk i))
  rw [List.pairwise_flatMap]
  constructor
  · intro i _
    rw [List.pairwise_map]
    exact List.pairwise_lt_range.imp fun less => Prod.Lex.right i less
  · refine List.pairwise_lt_range.imp fun less x member y member' => ?_
    rcases List.mem_map.mp member with ⟨_, _, rfl⟩
    rcases List.mem_map.mp member' with ⟨_, _, rfl⟩
    exact Prod.Lex.left _ _ less

/-- `factor` returns one most general factor for each pair of literals that some
substitution merges, in the order of the pairs. -/
theorem factor_exact (wf : env.bank.WellFormed) (small : env.bank.ArityBounded)
    (enabled : uconfig.enableOccursCheck = true) (valid : c.ValidIn env.bank) :
    ∃ results env', Returns (fun fuel => factor uconfig fuel c env) (results, env') ∧
      ∃ pairs : List (Nat × Nat), pairs.Pairwise (Prod.Lex (· < ·) (· < ·)) ∧
        (∀ i j, (i, j) ∈ pairs ↔ i < j ∧ j < c.size ∧
          ∃ θ : Nat → TermTree Nat Nat, Merges env.bank c i j θ) ∧
        List.Forall₂ (fun p r => MostGeneralFactor env.bank env'.bank c p.1 p.2 r)
          pairs results := by
  classical
  rcases factor_loop wf small enabled valid with ⟨outs, env', done, each⟩
  let merged : Nat × Nat → Bool := fun p =>
    decide (∃ θ : Nat → TermTree Nat Nat, Merges env.bank c p.1 p.2 θ)
  refine ⟨outs.reduceOption, env', done.bind (.const _), (orderedPairs c).filter merged,
    ?_, ?_, ?_⟩
  · exact (orderedPairs_sorted c).filter _
  · intro i j
    simp only [List.mem_filter, mem_orderedPairs, merged, decide_eq_true_eq, and_assoc]
  · have kept := forall₂_reduceOption each merged
      (fun p r exact => by
        rcases (exact.found r rfl).1.factor with ⟨θ, merges, _⟩
        exact decide_eq_true ⟨θ, merges⟩)
      (fun p exact => by
        apply decide_eq_false
        rintro ⟨θ, merges⟩
        exact exact.nothing rfl Nat θ merges)
    exact kept.imp fun p r exact => (exact.found r rfl).1

def factorInput : Text := "cnf(a,axiom,p(X)|p(f(Y))|q(X,Y)).".toList

theorem factor_exact_sample : ∃ (c : Clause) (env env' : Env) (results : List Clause),
    readInput factorInput = .ok ([c], env) ∧
    Returns (fun fuel => factor ⟨true⟩ fuel c env) (results, env') ∧
    ∃ r ∈ results, MostGeneralFactor env.bank env'.bank c 0 1 r := by
  have facts :
      (fun out => (out.1.map Clause.size, out.2.bank.terms.all fun t => t.args.length ≤ 65535)) <$>
      readInput factorInput = .ok ([3], true) := by decide +kernel
  have answer : (readInput factorInput >>= fun out => (fun r => r.1.isSome) <$>
      factorPair ⟨true⟩ 50 (out.1.getD 0 { literals := [] }) 0 1 out.2) = .ok true := by
    decide +kernel
  rcases bind_ok_iff.mp answer with ⟨⟨clauses, env⟩, read, merges⟩
  rcases map_ok_iff.mp facts with ⟨out, read', known⟩
  rcases Except.ok.inj (read.symm.trans read') with rfl
  rcases Prod.mk.inj known with ⟨sizes, few⟩
  rcases List.map_eq_cons_iff.mp sizes with ⟨c, rest, rfl, size, none⟩
  rcases List.map_eq_nil_iff.mp none with rfl
  rcases map_ok_iff.mp merges with ⟨⟨found, last⟩, run, isSome⟩
  rcases Option.isSome_iff_exists.mp isSome with ⟨r, rfl⟩
  have ready := (readInput_ready read).1
  have valid := ready.valid c (by simp)
  have small : env.bank.ArityBounded := fun id t found => by
    simpa using List.all_eq_true.mp few t (List.mem_of_getElem? found)
  have enabled : (⟨true⟩ : UnificationConfig).enableOccursCheck = true := rfl
  rcases ((factorPair_mostGeneral ready.wf small enabled valid run).found r rfl).1.factor with
    ⟨θ, merged, _⟩
  rcases factor_exact ready.wf small enabled valid with
    ⟨results, env', done, pairs, _, members, each⟩
  have listed : (0, 1) ∈ pairs := (members 0 1).mpr ⟨by decide, by omega, θ, merged⟩
  rcases forall₂_mem_right each.flip listed with ⟨r, member, exact⟩
  exact ⟨c, env, env', results, read, done, r, member, exact⟩

end Factors

end AtpEngine
