import AtpEngine.Interruption
import AtpEngine.Irredundant
import AtpEngine.SaturationClosed

/-!
Verdicts of later calls. When `prove` answers kTheorem, the empty clause waits in
no queue and the new clauses behind it are dropped, while the given clause counts
as processed. A later call that drains the queue then calls the same clauses
saturated. It cannot where a refutation is left to it: where every set of clauses
in which the loop could come to rest has the empty clause.
-/
namespace AtpEngine

open Fuelled

section Resting

variable (runtime : Runtime) (config : ProverConfig)

def Env.Infers (env env' : Env) : Prop :=
  ∃ fuel inf out, Inference.perform runtime.order config.uconfig fuel inf env = .ok (out, env')

/-- The call returns this in a pool on the way from `first` to `last`. -/
def Inference.Yields (first last : Env) (inf : Inference) (out : Option Clause) : Prop :=
  ∃ fuel env env', Relation.ReflTransGen (Env.Infers runtime config) first env ∧
    inf.perform runtime.order config.uconfig fuel env = .ok (out, env') ∧
    Relation.ReflTransGen (Env.Infers runtime config) env' last

def CoveredBy (clauses : Set Clause) (c : Clause) : Prop :=
  isTautology c = true ∨ ∃ other ∈ clauses, subsumes other c = true

def Prover.HasProcessed (p : Prover) (c : Clause) : Prop :=
  ∃ pid ∈ p.processed, p.store.find pid = some c

/-- The loop could come to rest in these clauses while the pool grows to `last`:
they cover what waits and what is processed, and what is inferred from them, but
for the inferences among the clauses processed before, which are not made again. -/
structure Prover.RestsIn (p : Prover) (last : Env) (clauses : Set Clause) : Prop where
  held : ∀ c, c ∈ p.unprocessed ∨ p.HasProcessed c → CoveredBy clauses c
  resolved : ∀ c1 ∈ clauses, ∀ c2 ∈ clauses, c1 ≠ c2 →
    ¬ (p.HasProcessed c1 ∧ p.HasProcessed c2) →
    ∀ a b, (a, b) ∈ complementaryPairs c1 c2 → ∃ out,
      Inference.Yields runtime config p.env last (.resolve c1 a c2 b) out ∧
      ∀ r, out = some r → CoveredBy clauses r
  factored : ∀ c ∈ clauses, ¬ p.HasProcessed c → ∀ a b, (a, b) ∈ orderedPairs c →
    ∃ out, Inference.Yields runtime config p.env last (.factor c a b) out ∧
    ∀ r, out = some r → CoveredBy clauses r

/-- A refutation is left: the loop cannot come to rest without the empty clause. -/
def Prover.Refutable (p : Prover) : Prop :=
  ∀ last clauses, p.RestsIn runtime config last clauses → ∃ c ∈ clauses, c.literals = []

def Prover.Limited (p : Prover) : Prop :=
  config.maxIterations < p.unprocessed.length ∨ p.unprocessed ≠ [] ∧
  config.maxClauses ≤ p.store.size

/-- A call cannot drain the queue without a refutation. -/
def Prover.Carries (p : Prover) : Prop := p.Limited config ∨ p.Refutable runtime config

end Resting

section Draining

variable {runtime : Runtime} {config : ProverConfig} {fuel : Nat} {initial : List Clause}
  {start p : Prover} {iterations : Nat} {log : List (Inference × Option Clause)}

theorem Inference.Yields.later {first last last' : Env} {inf : Inference} {out : Option Clause}
    (yields : inf.Yields runtime config first last out)
    (later : Relation.ReflTransGen (Env.Infers runtime config) last last') :
    inf.Yields runtime config first last' out := by
  rcases yields with ⟨fuel, env, env', before, call, after⟩
  exact ⟨fuel, env, env', before, call, after.trans later⟩

theorem Iterated.yields {given : Clause} {p' : Prover} {result : Option ProverResult} {first : Env}
    {calls : List (Inference × Option Clause)}
    (iterated : Iterated runtime config fuel given p (result, p') calls)
    (before : Relation.ReflTransGen (Env.Infers runtime config) first p.env) :
    Relation.ReflTransGen (Env.Infers runtime config) p.env p'.env ∧
      ∀ inf out, (inf, out) ∈ calls → inf.Yields runtime config first p'.env out := by
  rcases iterated.outcome with ⟨_, rfl, rfl⟩ |
    ⟨_, _, _, _, _, _, _, generates, run, process, rfl, rfl⟩
  · exact ⟨.refl, by simp⟩
  · rcases mapAccum_rule (Relation.ReflTransGen (Env.Infers runtime config) first)
      (Relation.ReflTransGen (Env.Infers runtime config))
      (fun last inf out => inf.Yields runtime config first last out) (fun _ => .refl)
      (fun first second => first.trans second) (fun later yields => yields.later later)
      (fun inf _ env out env'' reached call =>
        have one : Env.Infers runtime config env env'' := ⟨fuel, inf, out, call⟩
        ⟨reached.tail one, .single one, fuel, env, env'', reached, call, .refl⟩)
        before run with
      ⟨_, reached, each⟩
    dsimp only
    rw [(processNewClauses_frame process).1]
    exact ⟨reached, fun inf out logged => (List.forall₂_iff_zip.mp each).2 logged⟩

theorem LoopHead.yields (head : LoopHead runtime config fuel start iterations log p) :
    Relation.ReflTransGen (Env.Infers runtime config) start.env p.env ∧
      ∀ inf out, (inf, out) ∈ log → inf.Yields runtime config start.env p.env out := by
  induction head with
  | start => exact ⟨.refl, by simp⟩
  | turn _ _ _ _ iterated ih =>
      rcases iterated.yields ih.1 with ⟨reached, each⟩
      refine ⟨ih.1.trans reached, fun inf out logged => ?_⟩
      rcases List.mem_append.mp logged with old | new
      · exact (ih.2 inf out old).later reached
      · exact each inf out new

theorem processNewClauses_length {news : List Clause} {after : Option ClauseId × Prover}
    (run : Prover.processNewClauses runtime config news p = .ok after) :
    p.unprocessed.length ≤ after.2.unprocessed.length := by
  refine (processNewClauses_rule (fun q => p.unprocessed.length ≤ q.unprocessed.length)
    (fun _ _ => True)
    (fun nc _ q d q' longer absorbed => ⟨?_, trivial, fun _ h => h⟩) (Nat.le_refl _) run).1
  cases absorbed with
  | empty _ => exact longer
  | tautology _ _ => exact longer
  | subsumed _ _ _ _ _ _ => exact longer
  | waiting _ _ _ _ =>
      rw [(runtime.queue.push_perm _ _ _).length_eq]
      exact Nat.le_succ_of_le longer

/-- A call drains the queue with at least as many selections as clauses waited, so
within its limits. -/
theorem LoopHead.drains (structured : StoreInv initial start)
    (head : LoopHead runtime config fuel start iterations log p) :
    iterations ≤ config.maxIterations ∧
      start.unprocessed.length ≤ p.unprocessed.length + iterations ∧
      (p = start ∨ start.store.size < config.maxClauses) := by
  induction head with
  | start => exact ⟨Nat.zero_le _, Nat.le_refl _, Or.inl rfl⟩
  | @turn iterations log calls q p' given unprocessed before popped within _ iterated ih =>
      simp only [Prover.hitResourceLimit, Bool.or_eq_false_iff, decide_eq_false_iff_not] at within
      have grows := (before.store_grows structured).length_le
      have taken := (runtime.queue.pop_perm _ _ _ _ popped).length_eq
      have longer : unprocessed.length ≤ p'.unprocessed.length := by
        rcases iterated.continues with ⟨rfl, _, _⟩ | ⟨_, _, _, _, _, _, process, _⟩
        · exact Nat.le_refl _
        · exact processNewClauses_length process
      rw [List.length_cons] at taken
      change start.store.size ≤ q.store.size at grows
      exact ⟨by omega, by omega, Or.inr (by omega)⟩

theorem CoveredBy.of_literals {clauses : Set Clause} {r c : Clause} (covered : CoveredBy clauses c)
    (same : c = { r with id := c.id, depth := c.depth }) : CoveredBy clauses r := by
  rw [same] at covered
  exact covered

theorem Prover.Accounted.coveredBy {c : Clause} (accounted : p.Accounted c)
    (done : p.unprocessed = []) :
    CoveredBy {c | p.HasProcessed c} c := by
  rcases accounted with tautology | waiting | ⟨pid, member, pc, found, hit⟩
  · exact Or.inl tautology
  · rw [done] at waiting
    cases waiting
  · exact Or.inr ⟨pc, ⟨pid, member, found⟩, hit⟩

theorem Irredundant.compared (irredundant : Irredundant start) :
    start.Compared start.processed [] :=
  ⟨fun _ hi _ hj _ new => absurd hj (new.resolve_left fun h => h hi),
    fun _ hi new => absurd hi new,
    fun i hi => (irredundant.proper i hi).imp fun _ h => ⟨h.1, h.2.2⟩⟩

theorem LoopHead.restsIn (structured : StoreInv initial start) (irredundant : Irredundant start)
    (head : LoopHead runtime config fuel start iterations log p) (done : p.unprocessed = []) :
    start.RestsIn runtime config p.env {c | p.HasProcessed c} := by
  have accounts := head.accounts structured
  have compared := head.compared structured irredundant.compared
  have covered : ∀ inf out, (inf, out) ∈ log → ∀ r, out = some r →
      CoveredBy {c | p.HasProcessed c} r := by
    rintro inf _ logged r rfl
    cases isTaut : isTautology r with
    | true => exact Or.inl isTaut
    | false =>
        rcases accounts.returned inf r logged isTaut with ⟨c, _, same, accounted⟩
        exact (accounted.coveredBy done).of_literals same
  have before : ∀ {i : ClauseId} {c : Clause}, i ∈ start.processed →
      p.store.find i = some c → start.HasProcessed c := by
    intro i c member found
    rcases structured.processed i member with ⟨c', found'⟩
    rcases Option.some.inj (found.symm.trans (ClauseStore.find_prefix accounts.grows found'))
      with rfl
    exact ⟨i, member, found'⟩
  constructor
  case held =>
    rintro c (waits | ⟨pid, member, found⟩)
    · exact (accounts.kept c (Or.inr (Or.inl waits))).coveredBy done
    · have own : start.Accounted c := Or.inr (Or.inr ⟨pid, member, c, found, subsumes_refl c⟩)
      exact (accounts.kept c own).coveredBy done
  case resolved =>
    rintro c1 ⟨i, hi, found1⟩ c2 ⟨j, hj, found2⟩ differ new a b pair
    have apart : i ≠ j := by
      rintro rfl
      exact differ (Option.some.inj (found1.symm.trans found2))
    have late : i ∉ start.processed ∨ j ∉ start.processed := by
      by_contra both
      push Not at both
      exact new ⟨before both.1 found1, before both.2 found2⟩
    rcases compared.resolved i hi j hj apart late c1 c2 found1 found2 a b pair with
      ⟨out, logged⟩
    exact ⟨out, head.yields.2 _ _ logged, covered _ _ logged⟩
  case factored =>
    rintro c ⟨i, hi, found⟩ new a b pair
    have late : i ∉ start.processed := fun old => new (before old found)
    rcases compared.factored i hi late c found a b pair with ⟨out, logged⟩
    exact ⟨out, head.yields.2 _ _ logged, covered _ _ logged⟩

/-- A call that answers kSaturation was not ended by its limits, and came to rest
without the empty clause. -/
theorem saturation_rests (inOrder : start.InOrder)
    (run : Prover.prove runtime config fuel start = .ok (.kSaturation, p)) :
    ¬ start.Carries runtime config := by
  rcases inOrder with ⟨⟨initial, structured⟩, irredundant⟩
  rcases prove_saturation run with ⟨_, _, head, done⟩
  rcases head.drains structured with ⟨within, selections, room⟩
  rw [done, List.length_nil] at selections
  rintro ((many | ⟨waits, full⟩) | refutable)
  · omega
  · rcases room with rfl | room
    · exact waits done
    · omega
  · rcases refutable _ _ (head.restsIn structured irredundant done) with
      ⟨c, ⟨pid, member, found⟩, empty⟩
    have compared := head.compared structured irredundant.compared
    rcases compared.nonempty pid member with ⟨c', found', nonempty⟩
    rcases Option.some.inj (found.symm.trans found') with rfl
    exact nonempty empty

end Draining

section Histories

variable (runtime : Runtime) (config : ProverConfig)

/-- The provers of a client with the verdicts that `prove` has given, the latest
last. Calls of `prove` may end by an exception, and others may add terms to the
pool. A call that gives a verdict after a kTheorem starts in a prover that `meets`
a condition. -/
inductive Verdicts (meets : Prover → Prop) : List ProverResult → Prover → Prop where
  | fresh (env : Env) : Verdicts meets [] { env }
  | added {results : List ProverResult} {clauses : List Clause} {p p' : Prover} :
      Verdicts meets results p →
      Prover.addClauses runtime config clauses p = .ok p' → Verdicts meets results p'
  | proved {results : List ProverResult} {fuel : Nat} {result : ProverResult} {p p' : Prover} :
      Verdicts meets results p → (.kTheorem ∈ results → meets p) →
      Prover.prove runtime config fuel p = .ok (result, p') →
      Verdicts meets (results ++ [result]) p'
  | thrown {results : List ProverResult} {fuel n : Nat} {log : List (Inference × Option Clause)}
      {p q q' : Prover} {given : Clause} {unprocessed : List Clause} {fault : Fault} (env : Env) :
      Verdicts meets results p → LoopHead runtime config fuel p n log q →
      runtime.queue.pop config.comparator q.unprocessed = some (given, unprocessed) →
      Prover.applyBackwardSubsumption { q with unprocessed } given = .ok q' →
      q'.generateNewClauses runtime config fuel given = .error fault →
      Verdicts meets results { q' with env }
  | shared {results : List ProverResult} {p : Prover} (env : Env) : Verdicts meets results p →
      Verdicts meets results { p with env }

def VerdictsAgree (results : List ProverResult) : Prop :=
  results.Pairwise fun earlier later => earlier = .kTheorem → later ≠ .kSaturation

instance (results : List ProverResult) : Decidable (VerdictsAgree results) :=
  inferInstanceAs (Decidable (results.Pairwise _))

variable {runtime config}

theorem Verdicts.inOrder {meets : Prover → Prop} {results : List ProverResult} {p : Prover}
    (verdicts : Verdicts runtime config meets results p) : p.InOrder := by
  induction verdicts with
  | fresh env => exact .fresh env
  | added _ run ih => exact ih.added run
  | proved _ _ run ih => exact ih.proved run
  | thrown env _ head popped erased _ ih => exact (ih.thrown head popped erased).shared env
  | shared env _ ih => exact ih.shared env

/-- The verdicts agree in every history in which the calls after a kTheorem find a
refutation left to them, or are ended by the limits. -/
theorem verdicts_agree {results : List ProverResult} {p : Prover}
    (verdicts : Verdicts runtime config (Prover.Carries runtime config) results p) :
    VerdictsAgree results := by
  induction verdicts with
  | fresh env => exact .nil
  | added _ _ ih => exact ih
  | @proved results fuel result p p' before met run ih =>
      refine List.pairwise_append.mpr ⟨ih, List.pairwise_singleton _ _, ?_⟩
      rintro earlier member later last rfl rfl
      rcases List.mem_singleton.mp last with rfl
      exact saturation_rests before.inOrder run (met member)
  | thrown _ _ _ _ _ _ ih => exact ih
  | shared _ _ ih => exact ih

/-- p(a), p(b), no p(X), and q(a), which still waits when the others are refuted. -/
def batchInput : Text :=
  "cnf(a,axiom,p(a)). cnf(b,axiom,p(b)). cnf(c,axiom,~p(X)). cnf(d,axiom,q(a)).".toList

/-- The first empty clause ends the call before the second one of its batch is stored;
it is the fifth clause, so that the limit ends the next call before q(a) is selected. -/
theorem verdicts_agree_sample : ∃ (clauses : List Clause) (env : Env) (p : Prover),
    readInput batchInput = .ok (clauses, env) ∧
    Verdicts .plain { enableOccursCheck := true, maxClauses := 5 }
      (Prover.Carries .plain { enableOccursCheck := true, maxClauses := 5 })
      [.kTheorem, .kTimeout] p ∧
    VerdictsAgree [.kTheorem, .kTimeout] := by
  have answers : (do
      let (first, p) ← proveInput .plain { enableOccursCheck := true, maxClauses := 5 }
          30 batchInput
      let (second, _) ← Prover.prove .plain { enableOccursCheck := true, maxClauses := 5 } 30 p
      pure (first, p.unprocessed.length, p.store.size, second)) =
      Except.ok (ε := Fault) (.kTheorem, 1, 5, .kTimeout) := by decide +kernel
  simp only [bind_ok_iff, Prod.exists] at answers
  rcases answers with ⟨first, p1, run, second, p2, run2, same⟩
  simp only [pure_ok_iff, Prod.mk.injEq] at same
  rcases same with ⟨rfl, waiting, stored, rfl⟩
  rcases proveInput_ok.mp run with ⟨clauses, env, p, read, added, run1⟩
  have waits : p1.unprocessed ≠ [] := fun empty => by simp [empty] at waiting
  have left : p1.Carries .plain { enableOccursCheck := true, maxClauses := 5 } :=
    Or.inl (Or.inr ⟨waits, stored.ge⟩)
  have verdicts : Verdicts .plain { enableOccursCheck := true, maxClauses := 5 }
      (Prover.Carries .plain { enableOccursCheck := true, maxClauses := 5 })
      [.kTheorem, .kTimeout] p2 :=
    .proved (.proved (.added (.fresh env) added) (by simp) run1) (fun _ => left) run2
  exact ⟨clauses, env, p2, read, verdicts, verdicts_agree verdicts⟩

/-- p(a) against its negation: the first call derives the empty clause, which the
second one no longer has. -/
theorem second_call_saturates : ∃ (clauses : List Clause) (env : Env) (p : Prover),
    readInput groundInput = .ok (clauses, env) ∧
    Verdicts .plain { enableOccursCheck := true } (fun _ => True) [.kTheorem, .kSaturation] p ∧
    ¬ VerdictsAgree [.kTheorem, .kSaturation] := by
  have answers : (do
      let (first, p) ← proveInput .plain { enableOccursCheck := true } 20 groundInput
      let second ← Prover.prove .plain { enableOccursCheck := true } 20 p
      pure (first, second.1)) = Except.ok (ε := Fault) (.kTheorem, .kSaturation) := by
        decide +kernel
  simp only [bind_ok_iff, Prod.exists] at answers
  rcases answers with ⟨first, p1, run, second, p2, run2, same⟩
  rcases Prod.mk.inj (pure_ok_iff.mp same) with ⟨rfl, rfl⟩
  rcases proveInput_ok.mp run with ⟨clauses, env, p, read, added, run1⟩
  refine ⟨clauses, env, p2, read, ?_, by decide⟩
  exact .proved (.proved (.added (.fresh env) added) (fun _ => trivial) run1)
    (fun _ => trivial) run2

end Histories

end AtpEngine
