import AtpEngine.MainProgram
import AtpEngine.Provenance

/-!
The history of the clause store. A stored clause is an initial clause, a
resolvent that `resolve` returned for two older stored clauses, or a factor that
`factor` returned for an older stored clause, and the call that returned it was
made by the run. Nothing is asked of the term bank.
-/
namespace AtpEngine

open Fuelled

section Sources

variable (runtime : Runtime) (config : ProverConfig) (fuel : Nat) (initial : List Clause)
  (start : Prover)

structure ResolventOf (store : ClauseStore) (j1 j2 : Nat) (r : Clause) : Prop where
  call : ∃ c1 c2 i1 i2 lit1 lit2 env env', store.clauses[j1]? = some c1 ∧
    store.clauses[j2]? = some c2 ∧
    c1.literals[i1]? = some lit1 ∧ c2.literals[i2]? = some lit2 ∧
    lit1.isPositive ≠ lit2.isPositive ∧
    CallMade runtime config start (.resolve c1 i1 c2 i2) env ∧
    resolve runtime.order config.uconfig fuel c1 i1 c2 i2 env = .ok (some r, env')
  rule : r.rule = .kResolution
  parents : r.parent1 = some j1 ∧ r.parent2 = some j2

structure FactorOf (store : ClauseStore) (j1 : Nat) (r : Clause) : Prop where
  call : ∃ c i j env mid results env', store.clauses[j1]? = some c ∧
    CallMade runtime config start (.factor c i j) mid ∧
    Visited (fun p => factorPair config.uconfig fuel c p.1 p.2) (orderedPairs c) env (i, j) mid ∧
    factor config.uconfig fuel c env = .ok (results, env') ∧ r ∈ results
  rule : r.rule = .kFactoring
  parents : r.parent1 = some j1 ∧ r.parent2 = kInvalidId

/-- Where the clause at index `k` comes from. -/
inductive Sourced (store : ClauseStore) (k : Nat) (c : Clause) : Prop where
  | initial {c0 : Clause} : c0 ∈ initial → c = { c0 with id := c.id, depth := c.depth } →
      Sourced store k c
  | resolution {j1 j2 : Nat} {r : Clause} : j1 < k → j2 < k →
      ResolventOf runtime config fuel start store j1 j2 r →
      c = { r with id := c.id, depth := c.depth } → Sourced store k c
  | factoring {j1 : Nat} {r : Clause} : j1 < k → FactorOf runtime config fuel start store j1 r →
      c = { r with id := c.id, depth := c.depth } → Sourced store k c

end Sources

section Turns

variable {runtime : Runtime} {config : ProverConfig} {fuel : Nat} {initial : List Clause}
  {start : Prover}

theorem ResolventOf.mono {store store' : ClauseStore} {j1 j2 : Nat} {r : Clause}
    (resolvent : ResolventOf runtime config fuel start store j1 j2 r)
    (grows : store.clauses <+: store'.clauses) :
    ResolventOf runtime config fuel start store' j1 j2 r := by
  rcases resolvent with
    ⟨⟨c1, c2, i1, i2, lit1, lit2, env, env', held1, held2, call⟩, rule, parents⟩
  exact ⟨⟨c1, c2, i1, i2, lit1, lit2, env, env', prefix_getElem? grows held1,
    prefix_getElem? grows held2, call⟩, rule, parents⟩

theorem FactorOf.mono {store store' : ClauseStore} {j1 : Nat} {r : Clause}
    (factored : FactorOf runtime config fuel start store j1 r)
    (grows : store.clauses <+: store'.clauses) :
    FactorOf runtime config fuel start store' j1 r := by
  rcases factored with ⟨⟨c, i, j, env, mid, results, env', held, call⟩, rule, parents⟩
  exact ⟨⟨c, i, j, env, mid, results, env', prefix_getElem? grows held, call⟩,
    rule, parents⟩

/-- A new clause of the run: what `Sourced` says of it once it is stored. -/
def Derived (runtime : Runtime) (config : ProverConfig) (fuel : Nat) (start : Prover)
    (store : ClauseStore) (r : Clause) : Prop :=
  (∃ j1 < store.size, ∃ j2 < store.size,
    ResolventOf runtime config fuel start store j1 j2 r) ∨
    ∃ j1 < store.size, FactorOf runtime config fuel start store j1 r

theorem Derived.mono {store store' : ClauseStore} {r : Clause}
    (derived : Derived runtime config fuel start store r)
    (grows : store.clauses <+: store'.clauses) : Derived runtime config fuel start store' r := by
  have le : store.size ≤ store'.size := grows.length_le
  rcases derived with ⟨j1, old1, j2, old2, resolvent⟩ | ⟨j1, old1, factored⟩
  · exact Or.inl ⟨j1, Nat.lt_of_lt_of_le old1 le, j2, Nat.lt_of_lt_of_le old2 le,
      resolvent.mono grows⟩
  · exact Or.inr ⟨j1, Nat.lt_of_lt_of_le old1 le, factored.mono grows⟩

theorem Sourced.mono {store store' : ClauseStore} {k : Nat} {c : Clause}
    (sourced : Sourced runtime config fuel initial start store k c)
    (grows : store.clauses <+: store'.clauses) :
    Sourced runtime config fuel initial start store' k c := by
  cases sourced with
  | initial member same => exact .initial member same
  | resolution old1 old2 resolvent same => exact .resolution old1 old2 (resolvent.mono grows) same
  | factoring old factored same => exact .factoring old (factored.mono grows) same

theorem LoopHead.derives {iterations : Nat} {log : List (Inference × Option Clause)} {p : Prover}
    {given : Clause} {unprocessed : List Clause} {kept : List ClauseId} {pcs : List Clause}
    {outs : List (Option Clause)} {env' : Env}
    (head : LoopHead runtime config fuel start iterations log p)
    (popped : runtime.queue.pop config.comparator p.unprocessed = some (given, unprocessed))
    (within : p.hitResourceLimit config iterations = false) (structured : StoreInv initial p)
    (generates : Generates { p with unprocessed } given kept pcs)
    (run : mapAccum (Inference.perform runtime.order config.uconfig fuel) (inferences given pcs)
      p.env = .ok (outs, env')) :
    ∀ r ∈ outs.reduceOption, Derived runtime config fuel start p.store r := by
  intro r member
  rcases (structured.pop popped).2 with given_held
  have stored : ∀ {inf : Inference}, inf ∈ inferences given pcs → ∀ prem ∈ inf.premises,
      ∃ k < p.store.size, prem.id = some k ∧ p.store.clauses[k]? = some prem :=
    structured.premises given_held generates.held
  have made : ∀ {inf : Inference} {env : Env},
      Visited (Inference.perform runtime.order config.uconfig fuel) (inferences given pcs)
      p.env inf env →
      CallMade runtime config start inf env := fun visit => .made head popped within generates visit
  -- the resolvents come first, the factors of the given clause behind them
  rcases mapAccum_append_ok run with ⟨outs1, mid, outs2, resolvents, factors, rfl⟩
  rcases List.mem_append.mp (List.reduceOption_mem_iff.mp member) with inFirst | inSecond
  · rcases result_visited resolvents inFirst with ⟨inf, inside, env, after, visit, call⟩
    have listed : inf ∈ inferences given pcs := List.mem_append_left _ inside
    have isMade := made (visit.left (factorings given))
    rcases List.mem_flatMap.mp inside with ⟨pc, _, inside⟩
    have pair : ∃ c1 i c2 j, (i, j) ∈ complementaryPairs c1 c2 ∧
        inf = .resolve c1 i c2 j := by
      rcases mem_inferencesWith.mp inside with ⟨i, j, pair, same⟩ | ⟨i, j, pair, same⟩
      · exact ⟨given, i, pc, j, pair, same⟩
      · exact ⟨pc, i, given, j, pair, same⟩
    rcases pair with ⟨c1, i, c2, j, pair, rfl⟩
    rcases mem_complementaryPairs.mp pair with ⟨lit1, lit2, at_i, at_j, differ⟩
    rcases stored listed c1 (by simp [Inference.premises]) with ⟨j1, old1, id1, held1⟩
    rcases stored listed c2 (by simp [Inference.premises]) with ⟨j2, old2, id2, held2⟩
    rcases perform_conclusion call with ⟨lits, rfl⟩
    exact Or.inl
      ⟨j1, old1, j2, old2, ⟨c1, c2, i, j, lit1, lit2, env, after, held1, held2, at_i, at_j,
      differ, isMade, call⟩, rfl, id1, id2⟩
  · rcases result_visited factors inSecond with ⟨inf, inside, env, after, visit, call⟩
    have listed : inf ∈ inferences given pcs := List.mem_append_right _ inside
    have isMade := made (visit.right resolvents)
    rcases visit.of_map with ⟨⟨i, j⟩, rfl, traversed⟩
    rcases stored listed given (by simp [Inference.premises]) with ⟨j1, old1, id1, held1⟩
    rcases perform_conclusion call with ⟨lits, same⟩
    rw [factorings, mapAccum_map] at factors
    have factored : factor config.uconfig fuel given mid = .ok (outs2.reduceOption, env') :=
      bind_ok_iff.mpr ⟨_, factors, rfl⟩
    refine Or.inr
      ⟨j1, old1, ⟨given, i, j, mid, env, _, env', held1, isMade, traversed, factored,
      List.reduceOption_mem_iff.mpr inSecond⟩, ?_, ?_⟩
    · rw [same]
      rfl
    · rw [same]
      exact ⟨id1, rfl⟩

def AllSourced (runtime : Runtime) (config : ProverConfig) (fuel : Nat) (initial : List Clause)
    (start : Prover) (store : ClauseStore) : Prop :=
  ∀ (k : Nat) (c : Clause), store.clauses[k]? = some c →
    Sourced runtime config fuel initial start store k c

theorem Absorbed.sourced {p p' : Prover} {nc : Clause} {d : Option ClauseId}
    (absorbed : Absorbed runtime config nc p d p')
    (derived : Derived runtime config fuel start p.store nc)
    (inv : AllSourced runtime config fuel initial start p.store) :
    AllSourced runtime config fuel initial start p'.store := by
  have stored : ∀ depth, AllSourced runtime config fuel initial start
      (p.store.addClause { nc with depth }).2 := by
    intro depth k c found
    have grows : p.store.clauses <+: (p.store.addClause { nc with depth }).2.clauses :=
      List.prefix_append _ _
    rcases ClauseStore.addClause_cases found with old | ⟨rfl, rfl⟩
    · exact (inv k c old).mono grows
    · rcases derived with ⟨j1, old1, j2, old2, resolvent⟩ | ⟨j1, old1, factored⟩
      · exact .resolution old1 old2 (resolvent.mono grows) rfl
      · exact .factoring old1 (factored.mono grows) rfl
  cases absorbed with
  | empty _ => exact stored nc.depth
  | tautology _ _ => exact inv
  | @subsumed depth _ _ _ _ _ _ _ _ => exact stored depth
  | @waiting depth _ _ _ _ => exact stored depth

theorem processNewClauses_sourced {news : List Clause} {p : Prover}
    {after : Option ClauseId × Prover}
    (run : Prover.processNewClauses runtime config news p = .ok after)
    (derives : ∀ nc ∈ news, Derived runtime config fuel start p.store nc)
    (inv : AllSourced runtime config fuel initial start p.store) :
    AllSourced runtime config fuel initial start after.2.store := by
  refine (processNewClauses_rule
    (fun q => AllSourced runtime config fuel initial start q.store ∧
      p.store.clauses <+: q.store.clauses) (fun _ _ => True)
    (fun nc member q d q' before absorbed => ?_) ⟨inv, List.prefix_rfl⟩ run).1.1
  rcases before with ⟨sourced, grown⟩
  exact ⟨⟨absorbed.sourced ((derives nc member).mono grown) sourced,
    grown.trans absorbed.frame.2.2⟩, trivial, fun _ _ => trivial⟩

theorem Iterated.sourced {iterations : Nat} {log calls : List (Inference × Option Clause)}
    {p p' : Prover} {given : Clause} {unprocessed : List Clause} {result : Option ProverResult}
    (head : LoopHead runtime config fuel start iterations log p)
    (popped : runtime.queue.pop config.comparator p.unprocessed = some (given, unprocessed))
    (within : p.hitResourceLimit config iterations = false) (structured : StoreInv initial p)
    (iterated : Iterated runtime config fuel given { p with unprocessed } (result, p') calls)
    (inv : AllSourced runtime config fuel initial start p.store) :
    AllSourced runtime config fuel initial start p'.store := by
  rcases iterated.outcome with ⟨_, rfl, _⟩ |
    ⟨_, _, _, _, _, _, _, generates, run, process, rfl, _⟩
  · exact inv
  · have derives := head.derives popped within structured generates run
    exact processNewClauses_sourced process derives inv

theorem Reached.storeInv {n : Nat} {q : Prover} (init : StoreInv initial start)
    (reached : Reached runtime config fuel start n q) : StoreInv initial q := by
  refine reached.invariant (StoreInv initial) init fun _ popped _ iterated inv => ?_
  rcases inv.pop popped with ⟨invPopped, held⟩
  exact (invPopped.iterated held iterated).1

theorem Reached.sourced {n : Nat} {q : Prover} (structured : StoreInv initial start)
    (init : AllSourced runtime config fuel initial start start.store)
    (reached : Reached runtime config fuel start n q) :
    AllSourced runtime config fuel initial start q.store :=
  reached.invariant (fun q => AllSourced runtime config fuel initial start q.store) init
    fun head popped within iterated inv =>
      iterated.sourced head popped within (head.storeInv structured) inv

theorem Reached.store_grows {m n : Nat} {q q' : Prover} (init : StoreInv initial start)
    (earlier : Reached runtime config fuel start m q)
    (later : Reached runtime config fuel start n q') (le : m ≤ n) :
    q.store.clauses <+: q'.store.clauses := by
  refine earlier.stretch (fun q q' => q.store.clauses <+: q'.store.clauses)
    (fun _ => List.prefix_rfl) (fun head popped iterated grown => ?_) later le
  rcases (head.storeInv init).pop popped with ⟨invPopped, held⟩
  exact grown.trans (invPopped.iterated held iterated).2.1

end Turns

/-- At every head of the loop and at return: ids are indices, every clause has
its source among the initial clauses or the inferences of the run, and the queue
holds copies of stored clauses. The store only grows from state to state. -/
theorem store_provenance (runtime : Runtime) (config : ProverConfig) (first : Env)
    (initial : List Clause) {p : Prover}
    (added : Prover.addClauses runtime config initial { env := first } = .ok p) (fuel : Nat) :
    (∀ n q, Reached runtime config fuel p n q →
      (∀ (k : Nat) (c : Clause), q.store.clauses[k]? = some c → c.id = some k ∧
        Sourced runtime config fuel initial p q.store k c) ∧
      ∀ c ∈ q.unprocessed, q.store.find c.id = some c) ∧
    (∀ m n q q', m ≤ n → Reached runtime config fuel p m q →
      Reached runtime config fuel p n q' → q.store.clauses <+: q'.store.clauses) ∧
    ∀ result q, Prover.prove runtime config fuel p = .ok (result, q) →
      ∃ n, Reached runtime config fuel p n q := by
  rcases StoreInv.init added with ⟨structured, _, _, store, _⟩
  have init : AllSourced runtime config fuel initial p p.store := by
    intro k c found
    rw [store] at found
    rcases mem_storedFrom (List.mem_of_getElem? found) with ⟨c0, member, same⟩
    exact .initial member same
  refine ⟨fun n q reached => ?_, fun m n q q' le earlier later => ?_, fun result q run => ?_⟩
  · have inv := reached.storeInv structured
    exact ⟨fun k c found => ⟨inv.ids k c found, reached.sourced structured init k c found⟩,
      inv.queued⟩
  · exact earlier.store_grows structured later le
  · exact prove_reached run

def chainInput : Text := "cnf(a,axiom,p(a)). cnf(b,axiom,~p(X)|q(X)).".toList

theorem store_provenance_sample : ∃ (initial : List Clause) (p q : Prover) (n : Nat),
    Reached .plain {} 50 p n q ∧ initial.length = 2 ∧ q.store.size = 4 ∧
      ∀ (k : Nat) (c : Clause), q.store.clauses[k]? = some c → c.id = some k ∧
        Sourced .plain {} 50 initial p q.store k c := by
  have answer : (fun out => out.2.store.size) <$> proveInput .plain {} 50 chainInput = .ok 4 := by
    decide +kernel
  have two : (fun out => out.1.length) <$> readInput chainInput = .ok 2 := by decide +kernel
  rcases map_ok_iff.mp answer with ⟨⟨result, q⟩, run, size⟩
  rcases map_ok_iff.mp two with ⟨⟨initial, first⟩, read, length⟩
  rcases proveInput_ok.mp run with ⟨clauses, env, p, read', added, proved⟩
  rcases Prod.mk.inj (Except.ok.inj (read.symm.trans read')) with ⟨rfl, rfl⟩
  rcases store_provenance .plain {} first initial added 50 with ⟨sourced, _, returned⟩
  rcases returned result q proved with ⟨n, reached⟩
  exact ⟨initial, p, q, n, reached, length, size, (sourced n q reached).1⟩

end AtpEngine
