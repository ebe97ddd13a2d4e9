import AtpEngine.SaturationClosed

/-!
Completeness of the saturation verdict. In an algebra where the unifier misses no
solution, the values of the processed clauses are a saturated set of ground clauses:
an inference between values lifts to one the loop has made, and what it returned is
covered. The model of that set makes every initial clause true. A clause is never
resolved with itself: the ground argument only resolves a positive clause with one
that has a negative literal.
-/
namespace AtpEngine

open Fuelled ClauseLogic TermTree

universe u

variable {D : Type u} {func : Nat → List D → D}

variable (func) in
/-- The values of the processed clauses under all assignments. -/
def Prover.valuations (p : Prover) : Set (List (D × Bool)) :=
  {lits | ∃ pid ∈ p.processed, ∃ c, p.store.find pid = some c ∧
    ∃ assign : Nat → D, lits = values func assign (p.env.bank.read c.literals)}

section Covering

variable {p : Prover} {log : List (Inference × Option Clause)}

theorem Prover.Accounted.covered {c : Clause} (accounted : p.Accounted c)
    (done : p.unprocessed = []) (assign : Nat → D) :
    Covered (p.valuations func) (values func assign (p.env.bank.read c.literals)) := by
  rcases accounted with tautology | waiting | ⟨pid, member, pc, found, hit⟩
  · exact Or.inl ((isTautology_read tautology p.env.bank).map _)
  · rw [done] at waiting
    cases waiting
  · rcases subsumes_iff.mp hit with ⟨short, sub⟩
    refine Or.inr ⟨_, ⟨pid, member, pc, found, assign, rfl⟩,
      values_subset func assign (TermBank.read_subset _ sub), ?_⟩
    simpa [Clause.size] using short

theorem Prover.Settled.covered {inf : Inference} {r : Clause} (settled : p.Settled log inf)
    (logged : (inf, some r) ∈ log) (done : p.unprocessed = []) (assign : Nat → D) :
    Covered (p.valuations func) (values func assign (p.env.bank.read r.literals)) := by
  cases isTaut : isTautology r with
  | true => exact Or.inl ((isTautology_read isTaut p.env.bank).map _)
  | false =>
      rcases settled.kept r logged isTaut with ⟨c, _, same, accounted⟩
      have literals : r.literals = c.literals := by rw [same]
      rw [literals]
      exact accounted.covered done assign

theorem values_getElem? {bank : TermBank} {lits : List Literal} {assign : Nat → D} {i : Nat}
    {a : D} {polarity : Bool}
    (at_i : (values func assign (bank.read lits))[i]? = some (a, polarity)) :
    ∃ lit, lits[i]? = some lit ∧ eval func assign (bank.tree lit.atom) = a ∧
      lit.isPositive = polarity := by
  rw [values, List.getElem?_map, TermBank.read_getElem?] at at_i
  cases found : lits[i]? with
  | none => simp [found] at at_i
  | some lit =>
      simp only [found, Option.map_some, Option.some.injEq, Prod.mk.injEq] at at_i
      exact ⟨lit, rfl, at_i⟩

variable {runtime : Runtime} {config : ProverConfig} {fuel : Nat} {first : Env}

section Lifting

variable (complete : CompleteIn config.uconfig func) (wf : first.bank.WellFormed)
  (fresh : first.Fresh) (done : p.unprocessed = [])
  (called : ∀ call ∈ log,
    Called runtime config fuel first p.env p.store p.store.size call.1 call.2)

include complete wf done called

theorem Prover.Settled.factors {c : Clause} {i j : Nat} {assign : Nat → D} {lit : D × Bool}
    (settled : p.Settled log (.factor c i j))
    (at_i : (values func assign (p.env.bank.read c.literals))[i]? = some lit)
    (at_j : (values func assign (p.env.bank.read c.literals))[j]? = some lit) :
    Covered (p.valuations func)
      ((values func assign (p.env.bank.read c.literals)).eraseIdx j) := by
  rcases settled.made with ⟨out, logged⟩
  rcases (called _ logged).reads wf with ⟨env, env', _, wfEnv, validInf, run, same, same'⟩
  have premise : c ∈ (Inference.factor c i j).premises := by simp [Inference.premises]
  have valid := validInf c premise
  rw [same c premise] at at_i at_j ⊢
  rcases values_getElem? at_i with ⟨litI, entryI, atomI, polarityI⟩
  rcases values_getElem? at_j with ⟨litJ, entryJ, atomJ, polarityJ⟩
  rcases factor_complete wfEnv complete (factorPair_outcome wfEnv valid run) entryI entryJ
    (polarityI.trans polarityJ.symm) (atomI.trans atomJ.symm) with ⟨r, rfl, kept⟩
  have covered : Covered (p.valuations func) _ := settled.covered logged done assign
  rw [same' r rfl, kept] at covered
  rwa [← values_eraseIdx, ← TermBank.read_eraseIdx]

include fresh

/-- A resolution of opposite literals lifts to a call of `resolve`. -/
theorem Prover.Settled.resolvents {c1 c2 : Clause} {i j : Nat} {assign1 assign2 : Nat → D} {a : D}
    (settled : p.Settled log (.resolve c1 i c2 j))
    (at_i : (values func assign1 (p.env.bank.read c1.literals))[i]? = some (a, true))
    (at_j : (values func assign2 (p.env.bank.read c2.literals))[j]? = some (a, false)) :
    Covered (p.valuations func)
      ((values func assign1 (p.env.bank.read c1.literals)).eraseIdx i ++
        (values func assign2 (p.env.bank.read c2.literals)).eraseIdx j) := by
  rcases settled.made with ⟨out, logged⟩
  rcases (called _ logged).reads wf with ⟨env, env', before, wfEnv, validInf, run, same, same'⟩
  have premise1 : c1 ∈ (Inference.resolve c1 i c2 j).premises := by simp [Inference.premises]
  have premise2 : c2 ∈ (Inference.resolve c1 i c2 j).premises := by simp [Inference.premises]
  have valid1 := validInf c1 premise1
  have valid2 := validInf c2 premise2
  rw [same c1 premise1] at at_i ⊢
  rw [same c2 premise2] at at_j ⊢
  rcases values_getElem? at_i with ⟨lit1, entry1, atom1, polarity1⟩
  rcases values_getElem? at_j with ⟨lit2, entry2, atom2, polarity2⟩
  rcases resolve_complete wfEnv complete (before.fresh fresh) valid1
    (resolve_outcome wfEnv valid1 valid2 run) entry1 entry2
    (by rw [polarity1, polarity2]; decide) (atom1.trans atom2.symm) with ⟨r, rfl, assign, kept⟩
  have covered : Covered (p.valuations func) _ := settled.covered logged done assign
  rw [same' r rfl, kept] at covered
  rwa [← values_eraseIdx, ← values_eraseIdx, ← TermBank.read_eraseIdx,
    ← TermBank.read_eraseIdx]

theorem Prover.Closed.saturated (closed : p.Closed log) : Saturated (p.valuations func) := by
  constructor
  case no_empty =>
    rintro ⟨pid, member, c, found, assign, empty⟩
    rcases closed.nonempty pid member with ⟨c', found', nonempty⟩
    rcases Option.some.inj (found.symm.trans found') with rfl
    exact nonempty (by simpa [values, TermBank.read] using empty.symm)
  case factors =>
    rintro _ ⟨pid, member, c, found, assign, rfl⟩ i j lit before at_i at_j
    have inside : j < c.size := by
      simpa [Clause.size] using (List.getElem?_eq_some_iff.mp at_j).1
    exact (closed.factored pid member c found i j before inside).factors complete wf done called
      at_i at_j
  case resolvents =>
    rintro _ ⟨pid1, member1, c1, found1, assign1, rfl⟩ _
      ⟨pid2, member2, c2, found2, assign2, rfl⟩ positive a i j at_i at_j
    rcases values_getElem? at_i with ⟨lit1, entry1, _, polarity1⟩
    rcases values_getElem? at_j with ⟨lit2, entry2, _, polarity2⟩
    have differ : lit1.isPositive ≠ lit2.isPositive := by rw [polarity1, polarity2]; decide
    -- the left clause is positive, the right one is not, so they are two clauses
    have apart : pid1 ≠ pid2 := by
      rintro rfl
      rcases Option.some.inj (found1.symm.trans found2) with rfl
      have inside : (p.env.bank.tree lit2.atom, lit2.isPositive) ∈
          p.env.bank.read c1.literals :=
        List.mem_map.mpr ⟨lit2, List.mem_of_getElem? entry2, rfl⟩
      exact absurd ((positive _ (mem_values func inside)).symm.trans polarity2) (by decide)
    exact (closed.resolved pid1 member1 pid2 member2 apart c1 c2 found1 found2 i j lit1 lit2
      entry1 entry2 differ).resolvents complete wf fresh done called at_i at_j

end Lifting

theorem Prover.Accounted.models {c : Clause} (accounted : p.Accounted c)
    (done : p.unprocessed = []) {truth : D → Prop}
    (holds : ∀ lits ∈ p.valuations func, ∃ lit ∈ lits, LitHolds truth lit) :
    (⟨func, truth⟩ : Interpretation Nat D).Models (p.env.bank.read c.literals) := by
  refine models_of_values func fun assign => ?_
  rcases accounted.covered done assign with tautology | ⟨lits, member, sub, _⟩
  · exact tautology_holds tautology truth
  · rcases holds lits member with ⟨lit, inside, value⟩
    exact ⟨lit, sub inside, value⟩

end Covering

/-- Refutational completeness: a first call of `prove` that answers `kSaturation`
was given a satisfiable set of clauses. -/
theorem saturation_satisfiable (runtime : Runtime) (config : ProverConfig) (first : Env)
    (wf : first.bank.WellFormed) (fresh : first.Fresh) (initial : List Clause)
    (valid : ∀ c ∈ initial, c.ValidIn first.bank) {fuel : Nat} {p p' : Prover}
    (added : Prover.addClauses runtime config initial { env := first } = .ok p)
    (run : Prover.prove runtime config fuel p = .ok (.kSaturation, p')) :
    Satisfiable.{0} (first.bank.readAll {c | c ∈ initial}) := by
  rcases StoreInv.init added with ⟨structured, _, _, store, _⟩
  have start : RunInv runtime config fuel initial first p := RunInv.init valid added
  rcases prove_saturation run with ⟨_, _, head, done⟩
  have closed := (saturation_closed runtime config first initial added fuel).1 _ _ _ head
  have called := head.called wf structured start
  have grown := (head.runInv wf structured start).grows.bank
  rcases saturated_model (closed.saturated (node_completeIn _) wf fresh done called) with
    ⟨truth, holds⟩
  refine ⟨TermTree Nat Nat, ⟨.var 0⟩, ⟨.node, truth⟩, ?_⟩
  rintro _ ⟨c0, member, rfl⟩
  rcases storedFrom_of_mem member 0 with ⟨c, stored, literals⟩
  rw [← store] at stored
  have kept : c ∈ p'.store.clauses := (head.store_grows structured).subset stored
  have models := (closed.accounted c kept).models done holds
  rwa [literals, TermBank.read_extends wf (grown.wf wf) grown.grows (valid c0 member)] at models

theorem saturation_satisfiable_sample : ∃ (clauses : List Clause) (env : Env),
    readInput satisfiableInput = .ok (clauses, env) ∧
      Satisfiable.{0} (env.bank.readAll {c | c ∈ clauses}) := by
  rcases satisfiable_saturates with ⟨clauses, env, p, p', read, fresh, added, proved⟩
  rcases readInput_ready read with ⟨ready, _⟩
  exact ⟨clauses, env, read,
    saturation_satisfiable .plain {} env ready.wf fresh clauses ready.valid added proved⟩

end AtpEngine
