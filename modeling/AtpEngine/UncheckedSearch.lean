import AtpEngine.CallHistories
import AtpEngine.InfiniteTrees

/-!
What a search without the occurs check decides, which is how the command-line
program runs. Its unifier is exact in every algebra that is free and has
solutions for cyclic bindings, so its verdicts are those about infinite trees:
the clauses have no model over them, or they have one. Neither is a verdict about
all domains; a cyclic binding can refute clauses that the numbers satisfy.
-/
namespace AtpEngine

open Fuelled ClauseLogic Triangular TermTree Substitution

variable {D : Type} {func : Nat → List D → D}

section Verdicts

variable {runtime : Runtime} {config : ProverConfig} {fuel : Nat} {first : Env}
  {log : List (Inference × Option Clause)} {given : List Clause} {results : List ProverResult}
  {p : Prover}

theorem HistoryInv.no_model_cycles [Nonempty D] (cycles : SolvesCycles Nat func)
    (wf : first.bank.WellFormed) (small : first.bank.ArityBounded)
    (inv : HistoryInv runtime config first fuel log given results p)
    (answered : .kTheorem ∈ results) (truth : D → Prop) :
    ¬ ∀ lits ∈ p.env.bank.readAll {c | c ∈ given},
      Interpretation.Models ⟨func, truth⟩ lits := by
  intro models
  rcases inv.refuted answered with ⟨id, c, _, found, literals⟩
  rcases ClauseStore.find_iff.mp found with ⟨k, _, entry⟩
  have holds := inv.run.models (I := ⟨func, truth⟩) wf small (Or.inr cycles)
    (fun c0 member => models _ ⟨c0, member, rfl⟩) k entry
  rw [literals] at holds
  exact Interpretation.not_models_nil _ holds

end Verdicts

/-- The clauses are true of infinite trees, for some choice of the true atoms. -/
def TreeModelled (clauses : Set (Literals Nat Nat)) : Prop :=
  ∃ truth : InfiniteTree Nat → Prop, ∀ lits ∈ clauses,
    Interpretation.Models ⟨InfiniteTree.node, truth⟩ lits

/-- The verdicts of a prover without the occurs check are about infinite trees:
kTheorem means that the clauses added so far have no model over them, and kSaturation
that they have one, as long as no earlier call answered kTheorem. -/
theorem unchecked_verdicts (runtime : Runtime) (config : ProverConfig)
    (off : config.enableOccursCheck = false) (first : Env) (wf : first.bank.WellFormed)
    {given : List Clause} {results : List ProverResult} {p p' : Prover}
    (history : History runtime config first given results p) {fuel : Nat} {result : ProverResult}
    (run : Prover.prove runtime config fuel p = .ok (result, p')) :
    (result = .kTheorem → first.bank.ArityBounded →
      ¬ TreeModelled (p'.env.bank.readAll {c | c ∈ given})) ∧
    (result = .kSaturation → .kTheorem ∉ results → first.Fresh →
      TreeModelled (p'.env.bank.readAll {c | c ∈ given})) := by
  rcases (history.proved run).inv wf with ⟨budget, log, inv⟩
  constructor
  · rintro rfl small ⟨truth, models⟩
    exact inv.no_model_cycles InfiniteTree.node_solvesCycles wf small (by simp) truth models
  · rintro rfl unanswered fresh
    exact inv.modelled (.unchecked off InfiniteTree.node_free) wf fresh (by simp [unanswered])
      (saturation_done run)

/-- p(X,X) and no p(Y,f(Y)), which the numbers satisfy, are not true of infinite trees. -/
theorem unchecked_verdicts_sample : ∃ (clauses : List Clause) (env : Env),
    readInput equalityInput = .ok (clauses, env) ∧
      ¬ TreeModelled (env.bank.readAll {c | c ∈ clauses}) := by
  have answer : Prod.fst <$> proveInput .plain {} 50 equalityInput = .ok .kTheorem := by
    decide +kernel
  rcases map_ok_iff.mp answer with ⟨⟨_, p'⟩, run, rfl⟩
  rcases proveInput_ok.mp run with ⟨clauses, env, p, read, added, proved⟩
  rcases readInput_ready read with ⟨ready, small, _⟩
  have history : History .plain {} env clauses [] p := .added .fresh ready.valid added
  have verdict := (unchecked_verdicts .plain {} rfl env ready.wf history proved).1 rfl
    (small fun _ renders => renders.bounded (by decide +kernel))
  rcases (history.proved proved).inv ready.wf with ⟨_, _, inv⟩
  exact ⟨clauses, env, read, by rwa [inv.run.readAll ready.wf ready.valid] at verdict⟩

end AtpEngine
