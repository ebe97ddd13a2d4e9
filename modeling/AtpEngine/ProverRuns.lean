import AtpEngine.Prover
import Mathlib.Data.List.ReduceOption

/-!
Runs of the given-clause loop. `Iterated` and `Absorbed` say once what a turn of
the loop and the processing of one new clause can do; `LoopHead` lists the states
at the head of the loop, together with every call of the inference layer made on
the way and what it returned.
-/
namespace AtpEngine

open Fuelled

/-- What the loop asks of `resolve` for a given and a processed clause. -/
def inferencesWith (given pc : Clause) : List Inference :=
  (complementaryPairs given pc).map (fun p => .resolve given p.1 pc p.2) ++
    (complementaryPairs pc given).map fun p => .resolve pc p.1 given p.2

def factorings (c : Clause) : List Inference :=
  (orderedPairs c).map fun p => .factor c p.1 p.2

def inferences (given : Clause) (pcs : List Clause) : List Inference :=
  pcs.flatMap (inferencesWith given) ++ factorings given

def ClauseStore.Holds (store : ClauseStore) (ids : List ClauseId) (clauses : List Clause) : Prop :=
  List.Forall₂ (fun id c => store.find id = some c) ids clauses

section Generation

variable {runtime : Runtime} {config : ProverConfig} {fuel : Nat}

theorem allResolvents_calls {order : VariableOrder} {uconfig : UnificationConfig} {c1 c2 : Clause}
    {env env' : Env} {results : List Clause}
    (run : allResolvents order uconfig fuel c1 c2 env = .ok (results, env')) :
    ∃ outs, mapAccum (Inference.perform order uconfig fuel)
      ((complementaryPairs c1 c2).map fun p => .resolve c1 p.1 c2 p.2) env = .ok (outs, env') ∧
      results = outs.reduceOption := by
  rw [allResolvents, bind_ok_iff] at run
  rcases run with ⟨⟨outs, last⟩, calls, run⟩
  rcases Prod.mk.inj (pure_ok_iff.mp run) with ⟨rfl, rfl⟩
  exact ⟨outs, by rw [mapAccum_map]; exact calls, rfl⟩

theorem factor_calls (order : VariableOrder) {uconfig : UnificationConfig} {c : Clause}
    {env env' : Env} {results : List Clause}
    (run : factor uconfig fuel c env = .ok (results, env')) :
    ∃ outs, mapAccum (Inference.perform order uconfig fuel) (factorings c) env =
      .ok (outs, env') ∧ results = outs.reduceOption := by
  rw [factor, bind_ok_iff] at run
  rcases run with ⟨⟨outs, last⟩, calls, run⟩
  rcases Prod.mk.inj (pure_ok_iff.mp run) with ⟨rfl, rfl⟩
  exact ⟨outs, by rw [factorings, mapAccum_map]; exact calls, rfl⟩

theorem resolventsWith_calls {store : ClauseStore} {given : Clause} {pid : ClauseId}
    {env env' : Env} {results : List Clause}
    (run : Prover.resolventsWith runtime config fuel store given pid env = .ok (results, env')) :
    ∃ pc outs, store.find pid = some pc ∧
      mapAccum (Inference.perform runtime.order config.uconfig fuel) (inferencesWith given pc) env =
        .ok (outs, env') ∧ results = outs.reduceOption := by
  simp only [Prover.resolventsWith, bind_ok_iff, Prod.exists] at run
  rcases run with ⟨pc, read, r1, mid, first, r2, last, second, run⟩
  rcases Prod.mk.inj (pure_ok_iff.mp run) with ⟨rfl, rfl⟩
  rcases allResolvents_calls first with ⟨outs1, calls1, rfl⟩
  rcases allResolvents_calls second with ⟨outs2, calls2, rfl⟩
  exact ⟨pc, outs1 ++ outs2, ClauseStore.getClause_ok.mp read, mapAccum_append calls1 calls2,
    (List.reduceOption_append _ _).symm⟩

/-- The nested loops of a generation are one traversal of its inferences. -/
theorem generateNewClauses_calls {p : Prover} {given : Clause} {news : List Clause} {env' : Env}
    (run : p.generateNewClauses runtime config fuel given = .ok (news, env')) :
    ∃ pcs outs, p.store.Holds p.processed pcs ∧
      mapAccum (Inference.perform runtime.order config.uconfig fuel) (inferences given pcs) p.env =
        .ok (outs, env') ∧ news = outs.reduceOption := by
  have loop : ∀ (ids : List ClauseId) {env last : Env} {rss : List (List Clause)},
      mapAccum (Prover.resolventsWith runtime config fuel p.store given) ids env =
      .ok (rss, last) → ∃ pcs outs, p.store.Holds ids pcs ∧
        mapAccum (Inference.perform runtime.order config.uconfig fuel)
          (pcs.flatMap (inferencesWith given)) env = .ok (outs, last) ∧
        rss.flatten = outs.reduceOption := by
    intro ids
    induction ids with
    | nil =>
        intro env last rss run
        rcases Prod.mk.inj (Except.ok.inj run) with ⟨rfl, rfl⟩
        exact ⟨[], [], .nil, rfl, rfl⟩
    | cons pid rest ih =>
        intro env last rss run
        rcases mapAccum_cons_ok.mp run with ⟨rs, mid, tail, first, later, rfl⟩
        rcases resolventsWith_calls first with ⟨pc, outs, entry, calls, rfl⟩
        rcases ih later with ⟨pcs, outs', held, calls', flat⟩
        refine ⟨pc :: pcs, outs ++ outs', .cons entry held, ?_, ?_⟩
        · rw [List.flatMap_cons]
          exact mapAccum_append calls calls'
        · rw [List.flatten_cons, flat, List.reduceOption_append]
  simp only [Prover.generateNewClauses, bind_ok_iff, Prod.exists] at run
  rcases run with ⟨rss, mid, first, factors, last, second, run⟩
  rcases Prod.mk.inj (pure_ok_iff.mp run) with ⟨rfl, rfl⟩
  rcases loop _ first with ⟨pcs, outs, held, calls, flat⟩
  rcases factor_calls runtime.order second with ⟨outs', calls', rfl⟩
  exact ⟨pcs, outs ++ outs', held, mapAccum_append calls calls', by
    rw [flat, List.reduceOption_append]⟩

theorem allResolvents_of_calls {order : VariableOrder} {uconfig : UnificationConfig}
    {c1 c2 : Clause} {env env' : Env} {outs : List (Option Clause)}
    (calls : mapAccum (Inference.perform order uconfig fuel)
      ((complementaryPairs c1 c2).map fun p => .resolve c1 p.1 c2 p.2) env = .ok (outs, env')) :
    allResolvents order uconfig fuel c1 c2 env = .ok (outs.reduceOption, env') := by
  rw [mapAccum_map] at calls
  exact bind_ok_iff.mpr ⟨_, calls, rfl⟩

theorem generateNewClauses_of_calls {p : Prover} {given : Clause} {pcs : List Clause}
    {outs : List (Option Clause)} {env' : Env} (held : p.store.Holds p.processed pcs)
    (calls : mapAccum (Inference.perform runtime.order config.uconfig fuel) (inferences given pcs)
      p.env = .ok (outs, env')) :
    p.generateNewClauses runtime config fuel given = .ok (outs.reduceOption, env') := by
  have loop : ∀ {ids : List ClauseId} {pcs : List Clause}, p.store.Holds ids pcs →
      ∀ {env last : Env} {outs : List (Option Clause)},
      mapAccum (Inference.perform runtime.order config.uconfig fuel)
        (pcs.flatMap (inferencesWith given)) env = .ok (outs, last) →
      ∃ rss, mapAccum (Prover.resolventsWith runtime config fuel p.store given) ids env =
        .ok (rss, last) ∧ rss.flatten = outs.reduceOption := by
    intro ids pcs held
    induction held with
    | nil =>
        intro env last outs calls
        rcases Prod.mk.inj (Except.ok.inj calls) with ⟨rfl, rfl⟩
        exact ⟨[], rfl, rfl⟩
    | cons entry _ ih =>
        intro env last outs calls
        rw [List.flatMap_cons] at calls
        rcases mapAccum_append_ok calls with ⟨outs1, mid, outs2, first, later, rfl⟩
        rcases mapAccum_append_ok first with ⟨left, between, right, given1, given2, rfl⟩
        rcases ih later with ⟨rss, tail, flat⟩
        refine ⟨(left ++ right).reduceOption :: rss,
          mapAccum_cons_ok.mpr ⟨_, mid, rss, ?_, tail, rfl⟩, ?_⟩
        · simp only [Prover.resolventsWith, ClauseStore.getClause_ok.mpr entry, bind_ok,
            allResolvents_of_calls given1, allResolvents_of_calls given2, List.reduceOption_append]
          rfl
        · rw [List.flatten_cons, flat, List.reduceOption_append (left ++ right)]
  rcases mapAccum_append_ok calls with ⟨outs1, mid, outs2, first, second, rfl⟩
  rcases loop held first with ⟨rss, resolvents, flat⟩
  rw [factorings, mapAccum_map] at second
  have factors : factor config.uconfig fuel given mid = .ok (outs2.reduceOption, env') :=
    bind_ok_iff.mpr ⟨_, second, rfl⟩
  simp only [Prover.generateNewClauses, resolvents, factors, bind_ok, flat,
    List.reduceOption_append]
  rfl

end Generation

section Turns

variable (runtime : Runtime) (config : ProverConfig) (fuel : Nat)

/-- What `processNewClauses` does with one new clause. -/
inductive Absorbed (nc : Clause) (p : Prover) : Option ClauseId → Prover → Prop where
  | empty : nc.literals = [] →
      Absorbed nc p (some (some p.store.size)) { p with store := (p.store.addClause nc).2 }
  | tautology : nc.literals ≠ [] → isTautology nc = true → Absorbed nc p none p
  | subsumed {depth : Nat} {pid : ClauseId} {pc : Clause} : nc.literals ≠ [] →
      isTautology nc = false → p.computeDepth nc = .ok depth → pid ∈ p.processed →
      (p.store.addClause { nc with depth }).2.find pid = some pc →
      subsumes pc { nc with depth, id := some p.store.size } = true →
      Absorbed nc p none { p with store := (p.store.addClause { nc with depth }).2 }
  | waiting {depth : Nat} : nc.literals ≠ [] → isTautology nc = false →
      p.computeDepth nc = .ok depth →
      (∀ pid ∈ p.processed, ∃ pc,
        (p.store.addClause { nc with depth }).2.find pid = some pc ∧
        subsumes pc { nc with depth, id := some p.store.size } = false) →
      Absorbed nc p none
        { p with store := (p.store.addClause { nc with depth }).2
                 unprocessed := runtime.queue.push config.comparator p.unprocessed
                   { nc with depth, id := some p.store.size } }

/-- The turn of the loop that generates clauses leaves by the derived empty
clause or goes on. -/
def afterNewClauses : Option ClauseId × Prover → Option ProverResult × Prover
  | (none, p) => (none, p)
  | (some id, p) => (some .kTheorem, { p with emptyClauseId := some id })

/-- A turn with this clause infers: it is not skipped, and these ids and clauses
are the processed ones that it does not subsume. -/
structure Generates (p : Prover) (given : Clause) (kept : List ClauseId) (pcs : List Clause) :
    Prop where
  literals : given.literals ≠ []
  proper : isTautology given = false
  unsubsumed : ∀ pid ∈ p.processed, ∃ pc, p.store.find pid = some pc ∧
    subsumes pc given = false
  sub : kept.Sublist p.processed
  clean : ∀ pid ∈ kept, ∃ pc, p.store.find pid = some pc ∧ subsumes given pc = false
  answered : ∀ pid ∈ p.processed, pid ∈ kept ∨
    ∃ pc, p.store.find pid = some pc ∧ subsumes given pc = true
  held : p.store.Holds kept pcs

/-- What a turn of the loop does with a popped clause, and the calls it makes. -/
inductive Iterated (given : Clause) (p : Prover) :
    Option ProverResult × Prover → List (Inference × Option Clause) → Prop where
  | empty : given.literals = [] →
      Iterated given p (some .kTheorem, { p with emptyClauseId := some given.id }) []
  | tautology : given.literals ≠ [] → isTautology given = true → Iterated given p (none, p) []
  | subsumed {pid : ClauseId} {pc : Clause} : given.literals ≠ [] →
      isTautology given = false →
      pid ∈ p.processed → p.store.find pid = some pc → subsumes pc given = true →
      Iterated given p (none, p) []
  | generated {kept : List ClauseId} {pcs : List Clause} {outs : List (Option Clause)} {env' : Env}
      {after : Option ClauseId × Prover} : Generates p given kept pcs →
      mapAccum (Inference.perform runtime.order config.uconfig fuel) (inferences given pcs) p.env =
        .ok (outs, env') →
      Prover.processNewClauses runtime config outs.reduceOption
        { p with env := env', processed := kept ++ [given.id] } = .ok after →
      Iterated given p (afterNewClauses after) ((inferences given pcs).zip outs)

end Turns

section Cases

variable {runtime : Runtime} {config : ProverConfig} {fuel : Nat}

theorem forwardSubsumed_ok {p : Prover} {clause : Clause} {found : Bool}
    (run : p.isForwardSubsumedByProcessed clause = .ok found) :
    (found = true → ∃ pid ∈ p.processed, ∃ pc, p.store.find pid = some pc ∧
      subsumes pc clause = true) ∧
    (found = false → ∀ pid ∈ p.processed, ∃ pc, p.store.find pid = some pc ∧
      subsumes pc clause = false) := by
  have tested : ∀ {pid : ClauseId} {hit : Bool},
      (do let pc ← p.store.getClause pid; pure (subsumes pc clause)) =
      Except.ok (ε := Fault) hit →
      ∃ pc, p.store.find pid = some pc ∧ subsumes pc clause = hit := by
    intro pid hit test
    rcases bind_ok_iff.mp test with ⟨pc, read, answer⟩
    exact ⟨pc, ClauseStore.getClause_ok.mp read, pure_ok_iff.mp answer⟩
  rcases anyM_ok run with ⟨yes, no⟩
  constructor
  · intro hit
    rcases yes hit with ⟨pid, member, test⟩
    exact ⟨pid, member, tested test⟩
  · exact fun miss pid member => tested (no miss pid member)

theorem backward_ok {p p' : Prover} {given : Clause}
    (run : p.applyBackwardSubsumption given = .ok p') :
    ∃ kept, p' = { p with processed := kept } ∧ kept.Sublist p.processed ∧
      (∀ pid ∈ kept, ∃ pc, p.store.find pid = some pc ∧ subsumes given pc = false) ∧
      ∀ pid ∈ p.processed, pid ∈ kept ∨
        ∃ pc, p.store.find pid = some pc ∧ subsumes given pc = true := by
  rcases bind_ok_iff.mp run with ⟨kept, erased, run⟩
  rcases pure_ok_iff.mp run with rfl
  rcases eraseIf_ok erased with ⟨sub, clean, answered⟩
  have tested : ∀ {pid : ClauseId} {hit : Bool},
      (do let pc ← p.store.getClause pid; pure (subsumes given pc)) =
      Except.ok (ε := Fault) hit →
      ∃ pc, p.store.find pid = some pc ∧ subsumes given pc = hit := by
    intro pid hit test
    rcases bind_ok_iff.mp test with ⟨pc, read, answer⟩
    exact ⟨pc, ClauseStore.getClause_ok.mp read, pure_ok_iff.mp answer⟩
  refine ⟨kept, rfl, sub, fun pid member => tested (clean pid member), fun pid member => ?_⟩
  rcases answered pid member with hit | miss
  · exact Or.inr (tested hit)
  · exact Or.inl miss.2

theorem isEmpty_false {c : Clause} (nonempty : ¬ c.isEmpty = true) : c.literals ≠ [] := by
  simpa [Clause.isEmpty] using nonempty

theorem processNewClauses_cons {nc : Clause} {rest : List Clause} {p : Prover}
    {after : Option ClauseId × Prover}
    (run : Prover.processNewClauses runtime config (nc :: rest) p = .ok after) :
    (∃ id p', Absorbed runtime config nc p (some id) p' ∧ after = (some id, p')) ∨
    ∃ p', Absorbed runtime config nc p none p' ∧
      Prover.processNewClauses runtime config rest p' = .ok after := by
  rw [Prover.processNewClauses] at run
  split at run
  · next empty =>
      rcases Except.ok.inj run with rfl
      exact Or.inl ⟨_, _, .empty (List.isEmpty_iff.mp empty), rfl⟩
  · next nonempty =>
      have literals := isEmpty_false nonempty
      split at run
      · next tautology => exact Or.inr ⟨p, .tautology literals tautology, run⟩
      · next notTautology =>
          rw [Bool.not_eq_true] at notTautology
          rcases bind_ok_iff.mp run with ⟨depth, computed, run⟩
          rcases bind_ok_iff.mp run with ⟨storedNc, read, run⟩
          rcases bind_ok_iff.mp run with ⟨found, test, run⟩
          have entry := ClauseStore.getClause_ok.mp read
          rcases Option.some.inj ((p.store.addClause_new { nc with depth }).symm.trans entry)
            with rfl
          rcases forwardSubsumed_ok test with ⟨yes, no⟩
          cases found with
          | true =>
              rcases yes rfl with ⟨pid, member, pc, held, hit⟩
              exact Or.inr ⟨_, .subsumed literals notTautology computed member held hit, run⟩
          | false => exact Or.inr ⟨_, .waiting literals notTautology computed (no rfl), run⟩

/-- The rule for the processing loop: `P` is about the state, `Q` about a clause
that has been processed. -/
theorem processNewClauses_rule (P : Prover → Prop) (Q : Clause → Prover → Prop)
    {news : List Clause}
    (step : ∀ nc ∈ news, ∀ p d p', P p → Absorbed runtime config nc p d p' →
      P p' ∧ Q nc p' ∧ ∀ other, Q other p → Q other p') {p : Prover}
    {after : Option ClauseId × Prover} (start : P p)
    (run : Prover.processNewClauses runtime config news p = .ok after) :
    P after.2 ∧ (∀ other, Q other p → Q other after.2) ∧
      (after.1 = none → ∀ nc ∈ news, Q nc after.2) ∧
      ∀ id, after.1 = some id → ∃ nc ∈ news, nc.literals = [] ∧
        after.2.store.find id = some { nc with id } := by
  induction news generalizing p with
  | nil =>
      rcases Except.ok.inj run with rfl
      exact ⟨start, fun _ h => h, by simp, by simp⟩
  | cons nc rest ih =>
      rcases processNewClauses_cons run with ⟨id, p', absorbed, rfl⟩ | ⟨p', absorbed, run⟩
      · rcases step nc List.mem_cons_self p _ p' start absorbed with ⟨stepP, _, keep⟩
        refine ⟨stepP, keep, by simp, fun id' same => ?_⟩
        rcases Option.some.inj same with rfl
        cases absorbed with
        | empty literals =>
            exact ⟨nc, List.mem_cons_self, literals, p.store.addClause_new nc⟩
      · rcases step nc List.mem_cons_self p _ p' start absorbed with ⟨stepP, stepQ, keep⟩
        rcases ih (fun c member => step c (List.mem_cons_of_mem nc member)) stepP run with
          ⟨lastP, kept, all, derived⟩
        refine ⟨lastP, fun other h => kept other (keep other h), fun done c member => ?_, ?_⟩
        · rcases List.mem_cons.mp member with rfl | later
          · exact kept c stepQ
          · exact all done c later
        · intro id same
          rcases derived id same with ⟨c, member, found⟩
          exact ⟨c, List.mem_cons_of_mem nc member, found⟩

theorem iteration_cases {given : Clause} {p : Prover} {after : Option ProverResult × Prover}
    (run : Prover.iteration runtime config fuel given p = .ok after) :
    ∃ calls, Iterated runtime config fuel given p after calls := by
  rw [Prover.iteration] at run
  split at run
  · next empty =>
      rcases Except.ok.inj run with rfl
      exact ⟨_, .empty (List.isEmpty_iff.mp empty)⟩
  · next nonempty =>
      have literals := isEmpty_false nonempty
      rcases bind_ok_iff.mp run with ⟨skip, test, run⟩
      rw [Prover.shouldSkipGiven] at test
      split at test
      · next tautology =>
          rcases pure_ok_iff.mp test with rfl
          rcases pure_ok_iff.mp run with rfl
          exact ⟨_, .tautology literals tautology⟩
      · next notTautology =>
          rw [Bool.not_eq_true] at notTautology
          rcases forwardSubsumed_ok test with ⟨yes, no⟩
          cases skip with
          | true =>
              rcases yes rfl with ⟨pid, member, pc, held, hit⟩
              rcases pure_ok_iff.mp run with rfl
              exact ⟨_, .subsumed literals notTautology member held hit⟩
          | false =>
              simp only [Bool.false_eq_true, if_false, bind_ok_iff, Prod.exists] at run
              rcases run with ⟨q, erased, news, env', generate, derived, p', process, run⟩
              rcases backward_ok erased with ⟨kept, rfl, sub, clean, answered⟩
              rcases generateNewClauses_calls generate with ⟨pcs, outs, held, calls, rfl⟩
              have done : after = afterNewClauses (derived, p') := by
                cases derived <;> exact (pure_ok_iff.mp run).symm
              subst done
              exact ⟨_, .generated ⟨literals, notTautology, no rfl, sub, clean, answered,
                held⟩ calls process⟩

variable (runtime config fuel) in
/-- How a round of the loop goes: the queue is empty, a limit is hit, or a clause is
taken, after which the loop has a result or goes on. -/
inductive Round (turns iterations : Nat) (p : Prover) : ProverResult × Nat × Prover → Prop where
  | saturation : runtime.queue.pop config.comparator p.unprocessed = none →
      Round turns iterations p (.kSaturation, iterations, p)
  | timeout {taken : Clause × List Clause} :
      runtime.queue.pop config.comparator p.unprocessed = some taken →
      p.hitResourceLimit config iterations = true →
      Round turns iterations p (.kTimeout, iterations, p)
  | result {given : Clause} {unprocessed : List Clause} {result : ProverResult} {p' : Prover} :
      runtime.queue.pop config.comparator p.unprocessed = some (given, unprocessed) →
      p.hitResourceLimit config iterations = false →
      Prover.iteration runtime config fuel given { p with unprocessed } = .ok (some result, p') →
      Round turns iterations p (result, iterations + 1, p')
  | turn {given : Clause} {unprocessed : List Clause} {p' : Prover}
      {out : ProverResult × Nat × Prover} :
      runtime.queue.pop config.comparator p.unprocessed = some (given, unprocessed) →
      p.hitResourceLimit config iterations = false →
      Prover.iteration runtime config fuel given { p with unprocessed } = .ok (none, p') →
      Prover.proveLoop runtime config fuel turns (iterations + 1) p' = .ok out →
      Round turns iterations p out

theorem proveLoop_cases {turns iterations : Nat} {p : Prover} {out : ProverResult × Nat × Prover}
    (run : Prover.proveLoop runtime config fuel (turns + 1) iterations p = .ok out) :
    Round runtime config fuel turns iterations p out := by
  rw [Prover.proveLoop] at run
  cases popped : runtime.queue.pop config.comparator p.unprocessed with
  | none =>
      simp only [popped] at run
      rcases Except.ok.inj run with rfl
      exact .saturation popped
  | some taken =>
      simp only [popped] at run
      split at run
      · next limit =>
          rcases Except.ok.inj run with rfl
          exact .timeout popped limit
      · next within =>
          rw [Bool.not_eq_true] at within
          rcases bind_ok_iff.mp run with ⟨⟨answer, p'⟩, body, run⟩
          cases answer with
          | none => exact .turn popped within body run
          | some result =>
              rcases pure_ok_iff.mp run with rfl
              exact .result popped within body

end Cases

section Heads

variable (runtime : Runtime) (config : ProverConfig) (fuel : Nat) (start : Prover)

/-- The states at the head of the loop of one call of `prove`: the number of
selections so far, the calls made so far with their results, and the state. -/
inductive LoopHead : Nat → List (Inference × Option Clause) → Prover → Prop where
  | start : LoopHead 0 [] start
  | turn {iterations : Nat} {log calls : List (Inference × Option Clause)} {p p' : Prover}
      {given : Clause} {unprocessed : List Clause} : LoopHead iterations log p →
      runtime.queue.pop config.comparator p.unprocessed = some (given, unprocessed) →
      p.hitResourceLimit config iterations = false →
      Prover.iteration runtime config fuel given { p with unprocessed } = .ok (none, p') →
      Iterated runtime config fuel given { p with unprocessed } (none, p') calls →
      LoopHead (iterations + 1) (log ++ calls) p'

/-- The inferences that a call of `prove` makes, returning or not, each with the
state it is made in: those of the generating turns, up to the first that does
not return. -/
inductive CallMade (inf : Inference) (env : Env) : Prop where
  | made {fuel iterations : Nat} {log : List (Inference × Option Clause)} {p : Prover}
      {given : Clause} {unprocessed : List Clause} {kept : List ClauseId} {pcs : List Clause} :
      LoopHead runtime config fuel start iterations log p →
      runtime.queue.pop config.comparator p.unprocessed = some (given, unprocessed) →
      p.hitResourceLimit config iterations = false →
      Generates { p with unprocessed } given kept pcs →
      Visited (Inference.perform runtime.order config.uconfig fuel) (inferences given pcs)
      p.env inf env → CallMade inf env

inductive ProveReturns :
    ProverResult → Nat → List (Inference × Option Clause) → Prover → Prop where
  | saturation {iterations : Nat} {log : List (Inference × Option Clause)} {p : Prover} :
      LoopHead runtime config fuel start iterations log p → p.unprocessed = [] →
      ProveReturns .kSaturation iterations log p
  | timeout {iterations : Nat} {log : List (Inference × Option Clause)} {p : Prover} :
      LoopHead runtime config fuel start iterations log p → p.unprocessed ≠ [] →
      p.hitResourceLimit config iterations = true → ProveReturns .kTimeout iterations log p
  | result {iterations : Nat} {log calls : List (Inference × Option Clause)} {p p' : Prover}
      {given : Clause} {unprocessed : List Clause} {result : ProverResult} :
      LoopHead runtime config fuel start iterations log p →
      runtime.queue.pop config.comparator p.unprocessed = some (given, unprocessed) →
      p.hitResourceLimit config iterations = false →
      Iterated runtime config fuel given { p with unprocessed } (some result, p') calls →
      ProveReturns result (iterations + 1) (log ++ calls) p'

/-- The states at the heads of the loop, and the state in which a turn leaves it,
with the number of selections made. -/
inductive Reached : Nat → Prover → Prop where
  | head {iterations : Nat} {log : List (Inference × Option Clause)} {p : Prover} :
      LoopHead runtime config fuel start iterations log p → Reached iterations p
  | stopped {iterations : Nat} {log : List (Inference × Option Clause)} {p p' : Prover}
      {given : Clause} {unprocessed : List Clause} {result : ProverResult} :
      LoopHead runtime config fuel start iterations log p →
      runtime.queue.pop config.comparator p.unprocessed = some (given, unprocessed) →
      p.hitResourceLimit config iterations = false →
      Prover.iteration runtime config fuel given { p with unprocessed } = .ok (some result, p') →
      Reached (iterations + 1) p'

variable {runtime config fuel start}

theorem proveLoop_returns {turns iterations last : Nat} {log : List (Inference × Option Clause)}
    {p p' : Prover} {result : ProverResult}
    (head : LoopHead runtime config fuel start iterations log p)
    (run : Prover.proveLoop runtime config fuel turns iterations p = .ok (result, last, p')) :
    ∃ log', ProveReturns runtime config fuel start result last log' p' := by
  induction turns generalizing iterations log p with
  | zero => cases run
  | succ turns ih =>
      cases proveLoop_cases run with
      | saturation popped =>
          exact ⟨log, .saturation head ((runtime.queue.pop_none _ _).mp popped)⟩
      | timeout popped limit =>
          refine ⟨log, .timeout head (fun empty => ?_) limit⟩
          rw [(runtime.queue.pop_none _ _).mpr empty] at popped
          cases popped
      | result popped within body =>
          rcases iteration_cases body with ⟨calls, iterated⟩
          exact ⟨_, .result head popped within iterated⟩
      | turn popped within body run =>
          rcases iteration_cases body with ⟨calls, iterated⟩
          exact ih (.turn head popped within body iterated) run

theorem prove_returns {result : ProverResult} {p' : Prover}
    (run : Prover.prove runtime config fuel start = .ok (result, p')) :
    ∃ last log, ProveReturns runtime config fuel start result last log p' := by
  rcases bind_ok_iff.mp run with ⟨⟨result', last, q⟩, loop, run⟩
  rcases Prod.mk.inj (pure_ok_iff.mp run) with ⟨rfl, rfl⟩
  exact ⟨last, proveLoop_returns .start loop⟩

theorem Iterated.theorem_of_some {given : Clause} {p p' : Prover} {result : ProverResult}
    {calls : List (Inference × Option Clause)}
    (iterated : Iterated runtime config fuel given p (some result, p') calls) :
    result = .kTheorem := by
  generalize same : (some result, p') = after at iterated
  cases iterated with
  | empty _ => exact Option.some.inj (Prod.mk.inj same).1
  | tautology _ _ => cases same
  | subsumed _ _ _ _ _ => cases same
  | @generated _ _ _ _ after _ _ _ =>
      rcases after with ⟨_ | id, q⟩
      · cases same
      · exact Option.some.inj (Prod.mk.inj same).1

theorem prove_saturation {p : Prover}
    (run : Prover.prove runtime config fuel start = .ok (.kSaturation, p)) :
    ∃ iterations log, LoopHead runtime config fuel start iterations log p ∧
      p.unprocessed = [] := by
  rcases prove_returns run with ⟨iterations, log, returns⟩
  generalize isSaturation : ProverResult.kSaturation = result at returns
  cases returns with
  | saturation head done => exact ⟨iterations, log, head, done⟩
  | timeout _ _ _ => cases isSaturation
  | result _ _ _ iterated =>
      rcases iterated.theorem_of_some with rfl
      cases isSaturation

theorem saturation_done {p : Prover}
    (run : Prover.prove runtime config fuel start = .ok (.kSaturation, p)) :
    p.unprocessed = [] := by
  rcases prove_saturation run with ⟨_, _, _, done⟩
  exact done

/-- A turn leaves the state as it is, but for the name of the empty clause, or it
infers and processes what it inferred. -/
theorem Iterated.outcome {given : Clause} {p p' : Prover} {result : Option ProverResult}
    {calls : List (Inference × Option Clause)}
    (iterated : Iterated runtime config fuel given p (result, p') calls) :
    (∃ root, p' = { p with emptyClauseId := root } ∧ calls = []) ∨
    ∃ kept pcs outs env' derived q root, Generates p given kept pcs ∧
      mapAccum (Inference.perform runtime.order config.uconfig fuel) (inferences given pcs) p.env =
        .ok (outs, env') ∧
      Prover.processNewClauses runtime config outs.reduceOption
        { p with env := env', processed := kept ++ [given.id] } = .ok (derived, q) ∧
      p' = { q with emptyClauseId := root } ∧ calls = (inferences given pcs).zip outs := by
  generalize same : (result, p') = after at iterated
  cases iterated with
  | empty _ => exact Or.inl ⟨_, (Prod.mk.inj same).2, rfl⟩
  | tautology _ _ => exact Or.inl ⟨_, (Prod.mk.inj same).2, rfl⟩
  | subsumed _ _ _ _ _ => exact Or.inl ⟨_, (Prod.mk.inj same).2, rfl⟩
  | @generated kept pcs outs env' after generates run process =>
      rcases after with ⟨derived, q⟩
      refine Or.inr ⟨kept, pcs, outs, env', derived, q, p'.emptyClauseId, generates, run,
        process, ?_, rfl⟩
      cases derived <;> rcases Prod.mk.inj same with ⟨_, rfl⟩ <;> rfl

/-- A turn after which the loop goes on drops the clause, or infers and finds no
empty clause. -/
theorem Iterated.continues {given : Clause} {p p' : Prover}
    {calls : List (Inference × Option Clause)}
    (iterated : Iterated runtime config fuel given p (none, p') calls) :
    (p' = p ∧ calls = [] ∧ (isTautology given = true ∨
      ∃ pid ∈ p.processed, ∃ pc, p.store.find pid = some pc ∧ subsumes pc given = true)) ∨
    ∃ kept pcs outs env', Generates p given kept pcs ∧
      mapAccum (Inference.perform runtime.order config.uconfig fuel) (inferences given pcs) p.env =
        .ok (outs, env') ∧
      Prover.processNewClauses runtime config outs.reduceOption
        { p with env := env', processed := kept ++ [given.id] } = .ok (none, p') ∧
      calls = (inferences given pcs).zip outs := by
  generalize same : (none, p') = after at iterated
  cases iterated with
  | empty _ => cases same
  | tautology _ isTaut => exact Or.inl ⟨(Prod.mk.inj same).2, rfl, Or.inl isTaut⟩
  | subsumed _ _ member found hit =>
      exact Or.inl ⟨(Prod.mk.inj same).2, rfl, Or.inr ⟨_, member, _, found, hit⟩⟩
  | @generated kept pcs outs env' after generates run process =>
      rcases after with ⟨_ | id, last⟩
      · rcases Prod.mk.inj same with ⟨_, rfl⟩
        exact Or.inr ⟨kept, pcs, outs, env', generates, run, process, rfl⟩
      · cases same

theorem LoopHead.functional {iterations : Nat} {log log' : List (Inference × Option Clause)}
    {p p' : Prover} (head : LoopHead runtime config fuel start iterations log p)
    (head' : LoopHead runtime config fuel start iterations log' p') : p = p' := by
  induction head generalizing log' p' with
  | start =>
      cases head' with
      | start => rfl
  | turn _ popped _ run _ ih =>
      cases head' with
      | turn before' popped' _ run' _ =>
          rcases ih before' with rfl
          rcases Prod.mk.inj (Option.some.inj (popped.symm.trans popped')) with ⟨rfl, rfl⟩
          exact (Prod.mk.inj (Except.ok.inj (run.symm.trans run'))).2

/-- The invariant rule of the loop, for the heads and the state it is left in. -/
theorem Reached.invariant (P : Prover → Prop) (init : P start)
    (step : ∀ {iterations log p given unprocessed result p' calls},
      LoopHead runtime config fuel start iterations log p →
      runtime.queue.pop config.comparator p.unprocessed = some (given, unprocessed) →
      p.hitResourceLimit config iterations = false →
      Iterated runtime config fuel given { p with unprocessed } (result, p') calls → P p → P p')
    {n : Nat} {q : Prover} (reached : Reached runtime config fuel start n q) : P q := by
  have heads : ∀ {n log q}, LoopHead runtime config fuel start n log q → P q := by
    intro n log q head
    induction head with
    | start => exact init
    | turn before popped within _ iterated ih => exact step before popped within iterated ih
  cases reached with
  | head at_n => exact heads at_n
  | stopped before popped within run =>
      rcases iteration_cases run with ⟨calls, iterated⟩
      exact step before popped within iterated (heads before)

theorem LoopHead.turned {k : Nat} {log : List (Inference × Option Clause)} {q : Prover}
    (head : LoopHead runtime config fuel start k log q) {n : Nat} (before : n < k) :
    ∃ log p given unprocessed p', LoopHead runtime config fuel start n log p ∧
      runtime.queue.pop config.comparator p.unprocessed = some (given, unprocessed) ∧
      Prover.iteration runtime config fuel given { p with unprocessed } = .ok (none, p') := by
  induction head with
  | start => omega
  | @turn k _ _ _ _ _ _ earlier popped _ run _ ih =>
      by_cases same : n = k
      · subst same
        exact ⟨_, _, _, _, _, earlier, popped, run⟩
      · exact ih (by omega)

theorem LoopHead.stuck {n : Nat} {log : List (Inference × Option Clause)} {p p' : Prover}
    {given : Clause} {unprocessed : List Clause} {result : ProverResult}
    (head : LoopHead runtime config fuel start n log p)
    (popped : runtime.queue.pop config.comparator p.unprocessed = some (given, unprocessed))
    (run : Prover.iteration runtime config fuel given { p with unprocessed } =
      .ok (some result, p')) {k : Nat} (after : n < k) {log' : List (Inference × Option Clause)}
    {q : Prover} :
    ¬ LoopHead runtime config fuel start k log' q := by
  intro later
  rcases later.turned after with ⟨_, p2, given2, unprocessed2, _, head2, popped2, run2⟩
  rcases head.functional head2 with rfl
  rcases Prod.mk.inj (Option.some.inj (popped.symm.trans popped2)) with ⟨rfl, rfl⟩
  cases Except.ok.inj (run.symm.trans run2)

theorem Reached.stretch (R : Prover → Prover → Prop) (refl : ∀ p, R p p)
    (step : ∀ {iterations log calls p q q' given unprocessed result},
      LoopHead runtime config fuel start iterations log q →
      runtime.queue.pop config.comparator q.unprocessed = some (given, unprocessed) →
      Iterated runtime config fuel given { q with unprocessed } (result, q') calls →
      R p q → R p q') {m n : Nat} {q q' : Prover}
    (earlier : Reached runtime config fuel start m q)
    (later : Reached runtime config fuel start n q') (le : m ≤ n) : R q q' := by
  have heads : ∀ {m n log log' q q'}, LoopHead runtime config fuel start m log q →
      LoopHead runtime config fuel start n log' q' → m ≤ n → R q q' := by
    intro m n log log' q q' head later le
    induction later with
    | start =>
        rcases Nat.le_zero.mp le with rfl
        rw [head.functional .start]
        exact refl _
    | @turn n _ _ _ _ _ _ before popped within run iterated ih =>
        by_cases same : m = n + 1
        · subst same
          rw [head.functional (.turn before popped within run iterated)]
          exact refl _
        · exact step before popped iterated (ih (by omega))
  cases earlier with
  | head at_m =>
      cases later with
      | head at_n => exact heads at_m at_n le
      | @stopped n _ _ _ _ _ _ before popped _ run =>
          rcases iteration_cases run with ⟨calls, iterated⟩
          by_cases same : m = n + 1
          · subst same
            exact absurd at_m (before.stuck popped run (Nat.lt_succ_self n))
          · exact step before popped iterated (heads at_m before (by omega))
  | @stopped m _ p _ _ _ _ before popped _ run =>
      cases later with
      | head at_n => exact absurd at_n (before.stuck popped run (by omega))
      | @stopped n _ _ _ _ _ _ before' popped' _ run' =>
          by_cases same : m = n
          · subst same
            rcases before.functional before' with rfl
            rcases Prod.mk.inj (Option.some.inj (popped.symm.trans popped')) with ⟨rfl, rfl⟩
            rcases Prod.mk.inj (Except.ok.inj (run.symm.trans run')) with ⟨_, rfl⟩
            exact refl _
          · exact absurd before' (before.stuck popped run (by omega))

theorem proveLoop_reached {turns iterations last : Nat} {log : List (Inference × Option Clause)}
    {p p' : Prover} {result : ProverResult}
    (head : LoopHead runtime config fuel start iterations log p)
    (run : Prover.proveLoop runtime config fuel turns iterations p = .ok (result, last, p')) :
    Reached runtime config fuel start last p' := by
  induction turns generalizing iterations log p with
  | zero => cases run
  | succ turns ih =>
      cases proveLoop_cases run with
      | saturation _ => exact .head head
      | timeout _ _ => exact .head head
      | result popped within body => exact .stopped head popped within body
      | turn popped within body run =>
          rcases iteration_cases body with ⟨calls, iterated⟩
          exact ih (.turn head popped within body iterated) run

theorem prove_reached {result : ProverResult} {p' : Prover}
    (run : Prover.prove runtime config fuel start = .ok (result, p')) :
    ∃ n, Reached runtime config fuel start n p' := by
  rcases bind_ok_iff.mp run with ⟨⟨_, last, q⟩, loop, run⟩
  rcases Prod.mk.inj (pure_ok_iff.mp run) with ⟨_, rfl⟩
  exact ⟨last, proveLoop_reached .start loop⟩

theorem LoopHead.invariant (P : Prover → Prop) (init : P start)
    (step : ∀ p given unprocessed p' calls, P p →
      runtime.queue.pop config.comparator p.unprocessed = some (given, unprocessed) →
      Iterated runtime config fuel given { p with unprocessed } (none, p') calls → P p')
    {iterations : Nat} {log : List (Inference × Option Clause)} {p : Prover}
    (head : LoopHead runtime config fuel start iterations log p) : P p := by
  induction head with
  | start => exact init
  | turn _ popped _ _ iterated ih => exact step _ _ _ _ _ ih popped iterated

end Heads

end AtpEngine
