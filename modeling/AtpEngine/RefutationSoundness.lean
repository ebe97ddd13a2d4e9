import AtpEngine.MainProgram
import AtpEngine.ProofOrder

/-!
Soundness of a refutation. Every clause of a run is true in each interpretation
that makes the inputs of its derivation true, provided the bindings made on the
way can be solved there; an empty clause then refutes the inputs that
extractProof lists for it.
-/
namespace AtpEngine

open Fuelled ClauseLogic DepthFirst

universe u

variable {runtime : Runtime} {config : ProverConfig} {fuel : Nat} {initial : List Clause}
  {first : Env} {p : Prover}

theorem premise_parent {inf : Inference} (lits : List Literal) {prem : Clause}
    (member : prem ∈ inf.premises) :
    prem.id = (inf.conclusion lits).parent1 ∨ prem.id = (inf.conclusion lits).parent2 := by
  cases inf with
  | resolve c1 i c2 j =>
      simp only [Inference.premises, List.mem_cons, List.not_mem_nil, or_false] at member
      rcases member with rfl | rfl
      · exact Or.inl rfl
      · exact Or.inr rfl
  | factor c i j =>
      rw [List.mem_singleton.mp member]
      exact Or.inl rfl

theorem conclusion_not_input (inf : Inference) (lits : List Literal) :
    (inf.conclusion lits).rule ≠ .kInput := by
  cases inf <;> simp [Inference.conclusion]

theorem Called.models {D : Type u} {I : Interpretation Nat D} (wf : first.bank.WellFormed)
    (small : first.bank.ArityBounded) (solver : Solver config.uconfig I.func) {k : Nat}
    {inf : Inference} {r : Clause}
    (call : Called runtime config fuel first p.env p.store k inf (some r))
    (premises : ∀ (j : Nat) prem, j < k → p.store.clauses[j]? = some prem →
      prem.id = r.parent1 ∨ prem.id = r.parent2 → I.Models (p.env.bank.read prem.literals)) :
    I.Models (p.env.bank.read r.literals) := by
  have parent : ∀ prem ∈ inf.premises, prem.id = r.parent1 ∨ prem.id = r.parent2 := by
    rcases call with ⟨_, _, _, _, run⟩
    rcases perform_conclusion run with ⟨lits, rfl⟩
    exact fun prem member => premise_parent lits member
  exact call.rule wf (fun before wfEnv valid inRange models run =>
      perform_sound wfEnv (before.bank.small small) (Or.inl solver) valid inRange models run)
    fun j prem below _ entry member => premises j prem below entry (parent prem member)

theorem stored_models {D : Type u} {I : Interpretation Nat D} (wf : first.bank.WellFormed)
    (small : first.bank.ArityBounded) (solver : Solver config.uconfig I.func)
    (inputs : ∀ c ∈ initial, c.IsInput) (structured : StoreInv initial p)
    (inv : RunInv runtime config fuel initial first p) (k : Nat) {c : Clause}
    (found : p.store.clauses[k]? = some c)
    (listed : ∀ id d, p.store.Reaches (some k) id → p.store.find id = some d →
      d.rule = .kInput → I.Models (p.env.bank.read d.literals)) :
    I.Models (p.env.bank.read c.literals) := by
  induction k using Nat.strong_induction_on generalizing c with
  | _ k ih =>
    cases inv.origin k c found with
    | @initial c0 member same =>
        refine listed (some k) c .refl found ?_
        rw [same]
        exact (inputs c0 member).rule
    | @derived inf r call same =>
        have literals : c.literals = r.literals := by rw [same]
        rw [literals]
        refine call.models wf small solver fun j prem below entry parent => ?_
        refine ih j below entry fun id d path => listed id d (.head ?_ path)
        refine mem_parents.mpr ⟨c, found, by simp [kInvalidId], ?_⟩
        rw [same, ← structured.ids j prem entry]
        exact parent

def ClauseStore.listedInputs (store : ClauseStore) (proof : List ProofStep) : Set Clause :=
  {c | ∃ step ∈ proof, step.rule = .kInput ∧ store.find step.clauseId = some c}

/-- The atoms of a proof's inputs are read in the bank of the run's end. -/
def Prover.listed (p : Prover) (proof : List ProofStep) : Set (Literals Nat Nat) :=
  p.env.bank.readAll (p.store.listedInputs proof)

/-- No interpretation in which bindings have solutions makes the inputs that are
listed for the empty clause true, nor the initial clauses. -/
theorem prove_refutes (wf : first.bank.WellFormed) (small : first.bank.ArityBounded)
    (valid : ∀ c ∈ initial, c.ValidIn first.bank) (inputs : ∀ c ∈ initial, c.IsInput)
    {p' : Prover} (added : Prover.addClauses runtime config initial { env := first } = .ok p)
    (run : Prover.prove runtime config fuel p = .ok (.kTheorem, p')) :
    ∃ root c proof, p'.getEmptyClauseId = some root ∧ p'.store.find root = some c ∧
      c.literals = [] ∧ Returns (fun fuel => extractProof fuel p'.store root) proof ∧
      (∀ lits ∈ p'.listed proof, lits ∈ first.bank.readAll {c | c ∈ initial}) ∧
      ∀ {D : Type u} [Nonempty D] (I : Interpretation Nat D), Solver config.uconfig I.func →
        ¬ ∀ lits ∈ p'.listed proof, I.Models lits := by
  rcases prove_runInv wf valid added run with ⟨inv, derived, empty⟩
  rcases empty rfl with ⟨root, c, isRoot, found, literals⟩
  rcases extractProof_returns (inv.parentsInRange inputs) ⟨c, found⟩ with ⟨proof, done⟩
  rcases done.exists with ⟨fuel', extract⟩
  rcases extractProof_explored (stored_ne_invalid found) extract with ⟨records, explored⟩
  rcases explored.root with ⟨members, _, _⟩
  refine ⟨root, c, proof, isRoot, found, literals, done, ?_, ?_⟩
  · rintro lits ⟨d, ⟨step, member, rule, entry⟩, rfl⟩
    rcases records step member with ⟨d', entry', sameRule, _⟩
    rcases Option.some.inj (entry.symm.trans entry') with rfl
    rcases ClauseStore.find_iff.mp entry with ⟨k, _, stored⟩
    cases derived.origin k d stored with
    | @initial c0 member0 same =>
        refine ⟨c0, member0, ?_⟩
        rw [same]
        exact TermBank.read_extends wf (derived.grows.bank.wf wf) derived.grows.bank.grows
          (valid c0 member0)
    | @derived inf r call same =>
        rcases call with ⟨_, _, _, _, run⟩
        rcases perform_conclusion run with ⟨lits, isConclusion⟩
        rw [rule, same, isConclusion] at sameRule
        exact absurd sameRule.symm (conclusion_not_input inf lits)
  · intro D _ I solver models
    rcases ClauseStore.find_iff.mp found with ⟨k, rfl, stored⟩
    have holds :=
      stored_models wf small solver inputs inv derived k stored fun id d path entry rule => by
      have listed : id ∈ proof.map (·.clauseId) := (members id).mpr path
      rcases List.mem_map.mp listed with ⟨step, member, rfl⟩
      rcases records step member with ⟨d', entry', sameRule, _⟩
      rcases Option.some.inj (entry.symm.trans entry') with rfl
      exact models _ ⟨d, ⟨step, member, sameRule.trans rule, entry⟩, rfl⟩
    rw [literals] at holds
    exact I.not_models_nil holds

/-- Refutation soundness, with the occurs check on. -/
theorem refutation_sound (runtime : Runtime) (config : ProverConfig)
    (enabled : config.enableOccursCheck = true) (first : Env) (wf : first.bank.WellFormed)
    (small : first.bank.ArityBounded) (initial : List Clause)
    (valid : ∀ c ∈ initial, c.ValidIn first.bank) (inputs : ∀ c ∈ initial, c.IsInput)
    {fuel : Nat} {p p' : Prover}
    (added : Prover.addClauses runtime config initial { env := first } = .ok p)
    (run : Prover.prove runtime config fuel p = .ok (.kTheorem, p')) :
    ∃ root c proof, p'.getEmptyClauseId = some root ∧ p'.store.find root = some c ∧
      c.literals = [] ∧ Returns (fun fuel => extractProof fuel p'.store root) proof ∧
      ¬ Satisfiable.{u} (p'.listed proof) ∧
      ¬ Satisfiable.{u} (first.bank.readAll {c | c ∈ initial}) := by
  rcases prove_refutes.{u} wf small valid inputs added run with
    ⟨root, c, proof, isRoot, found, literals, done, among, refuted⟩
  have solver : ∀ {D : Type u} (func : Nat → List D → D), Solver config.uconfig func :=
    fun _ => Or.inl enabled
  refine ⟨root, c, proof, isRoot, found, literals, done, ?_, ?_⟩
  · rintro ⟨D, nonempty, I, models⟩
    exact refuted I (solver I.func) models
  · rintro ⟨D, nonempty, I, models⟩
    exact refuted I (solver I.func) fun lits member => models lits (among lits member)

def refutableInput : Text := "cnf(a,axiom,p(a)|q). cnf(b,axiom,~p(X)). cnf(c,axiom,~q).".toList

theorem refutation_sound_sample :
    ∃ (clauses : List Clause) (env : Env) (p' : Prover) (root : ClauseId) (c : Clause)
      (proof : List ProofStep), readInput refutableInput = .ok (clauses, env) ∧
      p'.getEmptyClauseId = some root ∧ p'.store.find root = some c ∧ c.literals = [] ∧
      Returns (fun fuel => extractProof fuel p'.store root) proof ∧
      ¬ Satisfiable.{0} (p'.listed proof) ∧
      ¬ Satisfiable.{0} (env.bank.readAll {c | c ∈ clauses}) := by
  have answer : (Prod.fst <$> proveInput .plain { enableOccursCheck := true } 50 refutableInput) =
      .ok .kTheorem := by decide +kernel
  rcases map_ok_iff.mp answer with ⟨⟨_, p'⟩, run, rfl⟩
  rcases proveInput_ok.mp run with ⟨clauses, env, p, read, added, proved⟩
  rcases readInput_ready read with ⟨ready, small, _⟩
  rcases refutation_sound.{0} .plain { enableOccursCheck := true } rfl env ready.wf
    (small fun _ renders => renders.bounded (by decide +kernel)) clauses ready.valid
    ready.inputs added proved with ⟨root, c, proof, certificate⟩
  exact ⟨clauses, env, p', root, c, proof, read, certificate⟩

end AtpEngine
