import AtpEngine.ProverRuns

/-!
Where the clauses of a run come from. `StoreInv` holds at every head of the loop
and at return, whatever the bank holds: the store is append-only and indexed by
clause id, the queue holds copies of stored clauses, and parents are older than
their children. Over a well-formed bank `RunInv` adds that every stored clause is
an initial clause or was returned by an inference from older stored clauses.
-/
namespace AtpEngine

open Fuelled

def storedFrom : Nat → List Clause → List Clause
  | _, [] => []
  | id, c :: rest => { c with id := some id, depth := 0 } :: storedFrom (id + 1) rest

theorem mem_storedFrom {c : Clause} {clauses : List Clause} {first : Nat} :
    c ∈ storedFrom first clauses → ∃ c0 ∈ clauses,
      c = { c0 with id := c.id, depth := c.depth } := by
  induction clauses generalizing first with
  | nil => simp [storedFrom]
  | cons head rest ih =>
      intro member
      rcases List.mem_cons.mp member with rfl | later
      · exact ⟨head, List.mem_cons_self, rfl⟩
      · rcases ih later with ⟨c0, inside, same⟩
        exact ⟨c0, List.mem_cons_of_mem head inside, same⟩

theorem storedFrom_of_mem {c0 : Clause} {clauses : List Clause} (member : c0 ∈ clauses)
    (first : Nat) : ∃ c ∈ storedFrom first clauses, c.literals = c0.literals := by
  induction clauses generalizing first with
  | nil => cases member
  | cons head rest ih =>
      rcases List.mem_cons.mp member with rfl | later
      · exact ⟨_, List.mem_cons_self, rfl⟩
      · rcases ih later (first + 1) with ⟨c, inside, same⟩
        exact ⟨c, List.mem_cons_of_mem _ inside, same⟩

theorem storedFrom_id {clauses : List Clause} {first k : Nat} {c : Clause}
    (found : (storedFrom first clauses)[k]? = some c) : c.id = some (first + k) := by
  induction clauses generalizing first k with
  | nil => simp [storedFrom] at found
  | cons head rest ih =>
      cases k with
      | zero =>
          rcases Option.some.inj found with rfl
          rfl
      | succ k =>
          rw [ih found]
          congr 1
          omega

theorem storedFrom_length (first : Nat) (clauses : List Clause) :
    (storedFrom first clauses).length = clauses.length := by
  induction clauses generalizing first with
  | nil => rfl
  | cons c rest ih => rw [storedFrom, List.length_cons, List.length_cons, ih]

theorem storedFrom_depth {c : Clause} {clauses : List Clause} {first : Nat}
    (member : c ∈ storedFrom first clauses) : c.depth = 0 := by
  induction clauses generalizing first with
  | nil => cases member
  | cons head rest ih =>
      rcases List.mem_cons.mp member with rfl | later
      · rfl
      · exact ih later

theorem storedFrom_cons (first : Nat) (c : Clause) (rest : List Clause) (known : List Clause) :
    known ++ storedFrom first (c :: rest) =
      (known ++ [{ c with id := some first, depth := 0 }]) ++ storedFrom (first + 1) rest := by
  simp [storedFrom]

theorem addClauses_spec (runtime : Runtime) (config : ProverConfig) (clauses : List Clause)
    (p : Prover) : ∃ p', Prover.addClauses runtime config clauses p = .ok p' ∧
      p'.env = p.env ∧ p'.processed = p.processed ∧ p'.emptyClauseId = p.emptyClauseId ∧
      p'.store.clauses = p.store.clauses ++ storedFrom p.store.size clauses ∧
      p'.unprocessed.Perm (p.unprocessed ++ storedFrom p.store.size clauses) := by
  induction clauses generalizing p with
  | nil => exact ⟨p, rfl, rfl, rfl, rfl, by simp [storedFrom], by simp [storedFrom]⟩
  | cons c rest ih =>
      have entry := p.store.addClause_new { c with depth := 0 }
      rw [← ClauseStore.find_some] at entry
      have read := ClauseStore.getClause_ok.mpr entry
      rcases ih { p with
        store := (p.store.addClause { c with depth := 0 }).2
        unprocessed := runtime.queue.push config.comparator p.unprocessed
          { c with id := some p.store.size, depth := 0 } } with
        ⟨p', run, env, processed, empty, store, queue⟩
      have size : (p.store.addClause { c with depth := 0 }).2.size = p.store.size + 1 := by
        simp [ClauseStore.addClause, ClauseStore.size]
      refine ⟨p', ?_, env, processed, empty, ?_, ?_⟩
      · rw [Prover.addClauses]
        simp only [show (p.store.addClause { c with depth := 0 }).1 = some p.store.size from rfl,
          read, bind_ok]
        exact run
      · rw [storedFrom_cons, store, size]
        rfl
      · rw [storedFrom_cons]
        rw [size] at queue
        refine queue.trans (List.Perm.append_right _ ?_)
        exact (runtime.queue.push_perm _ _ _).trans (List.perm_append_singleton _ _).symm

section Inferences

theorem mem_complementaryPairs {c1 c2 : Clause} {i j : Nat} :
    (i, j) ∈ complementaryPairs c1 c2 ↔ ∃ lit1 lit2, c1.literals[i]? = some lit1 ∧
      c2.literals[j]? = some lit2 ∧ lit1.isPositive ≠ lit2.isPositive := by
  simp only [complementaryPairs, List.mem_filter, List.mem_product, List.mem_range, bne_iff_ne]
  constructor
  · rintro ⟨⟨hi, hj⟩, differ⟩
    refine ⟨c1.literals[i], c2.literals[j], List.getElem?_eq_getElem hi,
      List.getElem?_eq_getElem hj, ?_⟩
    rw [List.getElem?_eq_getElem hi, List.getElem?_eq_getElem hj] at differ
    simpa using differ
  · rintro ⟨lit1, lit2, at_i, at_j, differ⟩
    refine ⟨⟨(List.getElem?_eq_some_iff.mp at_i).1, (List.getElem?_eq_some_iff.mp at_j).1⟩,
      ?_⟩
    simpa [at_i, at_j] using differ

theorem mem_inferencesWith {given pc : Clause} {inf : Inference} :
    inf ∈ inferencesWith given pc ↔
      (∃ i j, (i, j) ∈ complementaryPairs given pc ∧ inf = .resolve given i pc j) ∨
      ∃ i j, (i, j) ∈ complementaryPairs pc given ∧ inf = .resolve pc i given j := by
  simp only [inferencesWith, List.mem_append, List.mem_map, Prod.exists, eq_comm (a := inf)]

theorem mem_inferences {given : Clause} {pcs : List Clause} {inf : Inference} :
    inf ∈ inferences given pcs ↔
      (∃ pc ∈ pcs, inf ∈ inferencesWith given pc) ∨
      ∃ i j, (i, j) ∈ orderedPairs given ∧ inf = .factor given i j := by
  simp only [inferences, factorings, List.mem_append, List.mem_flatMap, List.mem_map, Prod.exists,
    eq_comm (a := inf)]

theorem inferences_inRange {given : Clause} {pcs : List Clause} {inf : Inference}
    (member : inf ∈ inferences given pcs) :
    inf.InRange ∧ ∀ prem ∈ inf.premises, prem = given ∨ prem ∈ pcs := by
  have range : ∀ {c1 c2 : Clause} {i j : Nat}, (i, j) ∈ complementaryPairs c1 c2 →
      i < c1.size ∧ j < c2.size := by
    intro c1 c2 i j pair
    rcases mem_complementaryPairs.mp pair with ⟨_, _, at_i, at_j, _⟩
    exact ⟨(List.getElem?_eq_some_iff.mp at_i).1, (List.getElem?_eq_some_iff.mp at_j).1⟩
  rcases mem_inferences.mp member with ⟨pc, inside, call⟩ | ⟨i, j, pair, rfl⟩
  · rcases mem_inferencesWith.mp call with ⟨i, j, pair, rfl⟩ | ⟨i, j, pair, rfl⟩
    · refine ⟨range pair, fun prem h => ?_⟩
      simp only [Inference.premises, List.mem_cons, List.not_mem_nil, or_false] at h
      exact h.imp_right fun same => by rwa [same]
    · refine ⟨range pair, fun prem h => ?_⟩
      simp only [Inference.premises, List.mem_cons, List.not_mem_nil, or_false] at h
      exact h.symm.imp_right fun same => by rwa [same]
  · refine ⟨mem_orderedPairs.mp pair, fun prem h => ?_⟩
    exact Or.inl (List.mem_singleton.mp h)

end Inferences

section Structure

variable {runtime : Runtime} {config : ProverConfig} {fuel : Nat} {initial : List Clause}

theorem Absorbed.frame {p p' : Prover} {nc : Clause} {derived : Option ClauseId}
    (absorbed : Absorbed runtime config nc p derived p') : p'.env = p.env ∧
      p'.processed = p.processed ∧ p.store.clauses <+: p'.store.clauses := by
  cases absorbed with
  | empty _ => exact ⟨rfl, rfl, List.prefix_append _ _⟩
  | tautology _ _ => exact ⟨rfl, rfl, List.prefix_rfl⟩
  | subsumed _ _ _ _ _ _ => exact ⟨rfl, rfl, List.prefix_append _ _⟩
  | waiting _ _ _ _ => exact ⟨rfl, rfl, List.prefix_append _ _⟩

theorem processNewClauses_frame {news : List Clause} {p : Prover}
    {after : Option ClauseId × Prover}
    (run : Prover.processNewClauses runtime config news p = .ok after) :
    after.2.env = p.env ∧ after.2.processed = p.processed ∧
      p.store.clauses <+: after.2.store.clauses := by
  refine (processNewClauses_rule
    (fun q => q.env = p.env ∧ q.processed = p.processed ∧ p.store.clauses <+: q.store.clauses)
    (fun _ _ => True) (fun nc _ q d q' before absorbed => ?_) ⟨rfl, rfl, List.prefix_rfl⟩ run).1
  rcases absorbed.frame with ⟨env, processed, store⟩
  rcases before with ⟨env', processed', store'⟩
  exact ⟨⟨env.trans env', processed.trans processed', store'.trans store⟩, trivial,
    fun _ _ => trivial⟩

theorem ClauseStore.find_prefix {store store' : ClauseStore}
    (grows : store.clauses <+: store'.clauses) {id : ClauseId} {c : Clause}
    (found : store.find id = some c) : store'.find id = some c := by
  rcases ClauseStore.find_iff.mp found with ⟨k, rfl, entry⟩
  exact prefix_getElem? grows entry

/-- Both parents are missing or older than `bound`. -/
def Clause.LinkedBelow (bound : Nat) (c : Clause) : Prop :=
  ∀ parent, parent = c.parent1 ∨ parent = c.parent2 →
    parent = kInvalidId ∨ ∃ j < bound, parent = some j

theorem Clause.LinkedBelow.mono {bound bound' : Nat} {c : Clause} (linked : c.LinkedBelow bound)
    (le : bound ≤ bound') : c.LinkedBelow bound' := fun parent is =>
  (linked parent is).imp_right fun ⟨j, below, same⟩ =>
    ⟨j, Nat.lt_of_lt_of_le below le, same⟩

theorem perform_conclusion {order : VariableOrder} {uconfig : UnificationConfig} {inf : Inference}
    {env env' : Env} {r : Clause}
    (run : inf.perform order uconfig fuel env = .ok (some r, env')) :
    ∃ lits, r = inf.conclusion lits := by
  cases inf with
  | resolve c1 i c2 j =>
      simp only [Inference.perform, resolve, bind_ok_iff] at run
      rcases run with ⟨lit1, _, lit2, _, run⟩
      split at run
      · cases (pure_ok_iff.mp run)
      · simp only [bind_ok_iff, Prod.exists] at run
        rcases run with ⟨c2r, mid, _, lit2r, _, unified, subst, _, run⟩
        cases unified with
        | false => cases (pure_ok_iff.mp run)
        | true =>
            simp only [if_true, bind_ok_iff, Prod.exists] at run
            rcases run with ⟨left, bankL, _, right, bankR, _, run⟩
            rcases Prod.mk.inj (pure_ok_iff.mp run) with ⟨same, _⟩
            exact ⟨left ++ right, (Option.some.inj same).symm⟩
  | factor c i j =>
      simp only [Inference.perform, factorPair, bind_ok_iff] at run
      rcases run with ⟨litI, _, litJ, _, run⟩
      split at run
      · cases (pure_ok_iff.mp run)
      · simp only [bind_ok_iff, Prod.exists] at run
        rcases run with ⟨unified, subst, _, run⟩
        cases unified with
        | false => cases (pure_ok_iff.mp run)
        | true =>
            simp only [if_true, bind_ok_iff, Prod.exists] at run
            rcases run with ⟨lits, bank', _, run⟩
            rcases Prod.mk.inj (pure_ok_iff.mp run) with ⟨same, _⟩
            exact ⟨lits, (Option.some.inj same).symm⟩

theorem conclusion_linked {inf : Inference} {lits : List Literal} {bound : Nat}
    (premises : ∀ prem ∈ inf.premises, ∃ k < bound, prem.id = some k) :
    (inf.conclusion lits).LinkedBelow bound := by
  cases inf with
  | resolve c1 i c2 j =>
      rintro parent (rfl | rfl)
      · exact Or.inr (premises c1 (by simp [Inference.premises]))
      · exact Or.inr (premises c2 (by simp [Inference.premises]))
  | factor c i j =>
      rintro parent (rfl | rfl)
      · exact Or.inr (premises c (by simp [Inference.premises]))
      · exact Or.inl rfl

variable (initial) in
/-- What holds of the store, the queue and the processed ids in every run. -/
structure StoreInv (p : Prover) : Prop where
  ids : ∀ (k : Nat) (c : Clause), p.store.clauses[k]? = some c → c.id = some k
  queued : ∀ c ∈ p.unprocessed, p.store.find c.id = some c
  processed : ∀ pid ∈ p.processed, ∃ c, p.store.find pid = some c
  linked : ∀ (k : Nat) (c : Clause), p.store.clauses[k]? = some c →
    (∃ c0 ∈ initial, c = { c0 with id := c.id, depth := c.depth }) ∨ c.LinkedBelow k

theorem StoreInv.found {p : Prover} (inv : StoreInv initial p) {id : ClauseId} {c : Clause}
    (found : p.store.find id = some c) :
    ∃ k < p.store.size, id = some k ∧ c.id = some k ∧ p.store.clauses[k]? = some c := by
  rcases ClauseStore.find_iff.mp found with ⟨k, rfl, entry⟩
  exact ⟨k, (List.getElem?_eq_some_iff.mp entry).1, rfl, inv.ids k c entry, entry⟩

theorem StoreInv.store {p : Prover} (inv : StoreInv initial p) {c : Clause}
    (linked : c.LinkedBelow p.store.size) :
    StoreInv initial { p with store := (p.store.addClause c).2 } := by
  have grows : p.store.clauses <+: (p.store.addClause c).2.clauses := List.prefix_append _ _
  refine ⟨?_, fun d member => ClauseStore.find_prefix grows (inv.queued d member), ?_, ?_⟩
  · intro k d found
    rcases ClauseStore.addClause_cases found with old | ⟨rfl, rfl⟩
    · exact inv.ids k d old
    · rfl
  · intro pid member
    rcases inv.processed pid member with ⟨d, found⟩
    exact ⟨d, ClauseStore.find_prefix grows found⟩
  · intro k d found
    rcases ClauseStore.addClause_cases found with old | ⟨rfl, rfl⟩
    · exact inv.linked k d old
    · exact Or.inr linked

theorem StoreInv.push {p : Prover} (inv : StoreInv initial p) {c : Clause}
    (held : p.store.find c.id = some c) : StoreInv initial
      { p with unprocessed := runtime.queue.push config.comparator p.unprocessed c } := by
  refine ⟨inv.ids, fun d member => ?_, inv.processed, inv.linked⟩
  rcases List.mem_cons.mp ((runtime.queue.push_perm _ _ _).mem_iff.mp member) with rfl | old
  · exact held
  · exact inv.queued d old

theorem StoreInv.pop {p : Prover} (inv : StoreInv initial p) {given : Clause}
    {unprocessed : List Clause}
    (popped : runtime.queue.pop config.comparator p.unprocessed = some (given, unprocessed)) :
    StoreInv initial { p with unprocessed } ∧ p.store.find given.id = some given := by
  have perm := runtime.queue.pop_perm _ _ _ _ popped
  constructor
  · exact ⟨inv.ids, fun d member =>
      inv.queued d (perm.mem_iff.mpr (List.mem_cons_of_mem _ member)), inv.processed, inv.linked⟩
  · exact inv.queued given (perm.mem_iff.mpr List.mem_cons_self)

theorem StoreInv.absorbed {p p' : Prover} {nc : Clause} {derived : Option ClauseId}
    (inv : StoreInv initial p) (linked : nc.LinkedBelow p.store.size)
    (absorbed : Absorbed runtime config nc p derived p') : StoreInv initial p' := by
  cases absorbed with
  | empty _ => exact inv.store linked
  | tautology _ _ => exact inv
  | subsumed _ _ _ _ _ _ => exact inv.store linked
  | @waiting depth _ _ _ _ =>
      have stored : StoreInv initial { p with store := (p.store.addClause { nc with depth }).2 } :=
        inv.store linked
      exact stored.push (p.store.addClause_new { nc with depth })

theorem StoreInv.premises {p : Prover} (inv : StoreInv initial p) {given : Clause}
    {kept : List ClauseId} {pcs : List Clause} (given_held : p.store.find given.id = some given)
    (held : p.store.Holds kept pcs) {inf : Inference} (member : inf ∈ inferences given pcs) :
    ∀ prem ∈ inf.premises, ∃ k < p.store.size, prem.id = some k ∧
      p.store.clauses[k]? = some prem := by
  intro prem inside
  have known : ∃ id, p.store.find id = some prem := by
    rcases (inferences_inRange member).2 prem inside with rfl | listed
    · exact ⟨_, given_held⟩
    · rcases List.getElem_of_mem listed with ⟨i, hi, rfl⟩
      have same := held.length_eq
      exact ⟨_, List.Forall₂.get held (by omega) hi⟩
  rcases known with ⟨id, found⟩
  rcases inv.found found with ⟨k, below, _, own, entry⟩
  exact ⟨k, below, own, entry⟩

theorem StoreInv.generation {p : Prover} (inv : StoreInv initial p) {given : Clause}
    {kept : List ClauseId} {pcs : List Clause} {outs : List (Option Clause)} {env' : Env}
    (given_held : p.store.find given.id = some given) (held : p.store.Holds kept pcs)
    (calls : mapAccum (Inference.perform runtime.order config.uconfig fuel) (inferences given pcs)
      p.env = .ok (outs, env')) : ∀ r ∈ outs.reduceOption, r.LinkedBelow p.store.size := by
  intro r member
  rcases result_visited calls (List.reduceOption_mem_iff.mp member) with
    ⟨inf, inside, _, _, _, run⟩
  rcases perform_conclusion run with ⟨lits, rfl⟩
  refine conclusion_linked fun prem isPrem => ?_
  rcases inv.premises given_held held inside prem isPrem with ⟨k, below, own, _⟩
  exact ⟨k, below, own⟩

theorem StoreInv.begun {p : Prover} (inv : StoreInv initial p) {given : Clause}
    {kept : List ClauseId} (given_held : p.store.find given.id = some given)
    (sub : kept.Sublist p.processed) (env' : Env) :
    StoreInv initial { p with env := env', processed := kept ++ [given.id] } := by
  refine ⟨inv.ids, inv.queued, fun pid member => ?_, inv.linked⟩
  rcases List.mem_append.mp member with old | new
  · exact inv.processed pid (sub.subset old)
  · rw [List.mem_singleton.mp new]
    exact ⟨given, given_held⟩

/-- The id of a derived empty clause names a stored clause without literals. -/
def EmptyStored (p : Prover) : Prop :=
  ∃ id c, p.emptyClauseId = some id ∧ p.store.find id = some c ∧ c.literals = []

theorem StoreInv.iterated {p p' : Prover} {given : Clause} {result : Option ProverResult}
    {calls : List (Inference × Option Clause)} (inv : StoreInv initial p)
    (given_held : p.store.find given.id = some given)
    (iterated : Iterated runtime config fuel given p (result, p') calls) :
    StoreInv initial p' ∧ p.store.clauses <+: p'.store.clauses ∧
      (result = some .kTheorem → EmptyStored p') := by
  generalize same : (result, p') = after at iterated
  cases iterated with
  | empty literals =>
      rcases Prod.mk.inj same with ⟨rfl, rfl⟩
      exact ⟨⟨inv.ids, inv.queued, inv.processed, inv.linked⟩, List.prefix_rfl,
        fun _ => ⟨_, _, rfl, given_held, literals⟩⟩
  | tautology _ _ =>
      rcases Prod.mk.inj same with ⟨rfl, rfl⟩
      exact ⟨inv, List.prefix_rfl, fun h => by cases h⟩
  | subsumed _ _ _ _ _ =>
      rcases Prod.mk.inj same with ⟨rfl, rfl⟩
      exact ⟨inv, List.prefix_rfl, fun h => by cases h⟩
  | @generated kept pcs outs env' last generates run process =>
      have linked := inv.generation given_held generates.held run
      have rule := processNewClauses_rule
        (fun q => StoreInv initial q ∧ p.store.clauses <+: q.store.clauses) (fun _ _ => True)
        (fun nc member q d q' start absorbed => by
          rcases start with ⟨invQ, grown⟩
          exact ⟨⟨invQ.absorbed ((linked nc member).mono grown.length_le) absorbed,
            grown.trans absorbed.frame.2.2⟩, trivial, fun _ _ => trivial⟩)
        ⟨inv.begun given_held generates.sub env', List.prefix_rfl⟩ process
      rcases rule with ⟨⟨invLast, grown⟩, _, _, derived⟩
      rcases last with ⟨_ | id, q⟩
      · rcases Prod.mk.inj same with ⟨rfl, rfl⟩
        exact ⟨invLast, grown, fun h => by cases h⟩
      · rcases Prod.mk.inj same with ⟨rfl, rfl⟩
        rcases derived id rfl with ⟨nc, _, literals, found⟩
        exact ⟨⟨invLast.ids, invLast.queued, invLast.processed, invLast.linked⟩, grown,
          fun _ => ⟨id, _, rfl, found, literals⟩⟩

theorem StoreInv.fresh (first : Env) : StoreInv [] { env := first } := by
  constructor <;> simp

theorem StoreInv.added {clauses : List Clause} {p p' : Prover} (inv : StoreInv initial p)
    (run : Prover.addClauses runtime config clauses p = .ok p') :
    StoreInv (initial ++ clauses) p' := by
  rcases addClauses_spec runtime config clauses p with ⟨q, run', _, processed, _, store, queue⟩
  rcases Except.ok.inj (run.symm.trans run') with rfl
  have grows : p.store.clauses <+: p'.store.clauses := ⟨_, store.symm⟩
  have entry : ∀ (k : Nat) (c : Clause), p'.store.clauses[k]? = some c →
      p.store.clauses[k]? = some c ∨ c ∈ storedFrom p.store.size clauses ∧ c.id = some k := by
    intro k c found
    rw [store] at found
    rcases Nat.lt_or_ge k p.store.clauses.length with old | new
    · exact Or.inl ((List.getElem?_append_left old).symm.trans found)
    · rw [List.getElem?_append_right new] at found
      refine Or.inr ⟨List.mem_of_getElem? found, ?_⟩
      rw [storedFrom_id found, ClauseStore.size, Nat.add_sub_cancel' new]
  have ids : ∀ (k : Nat) (c : Clause), p'.store.clauses[k]? = some c → c.id = some k := by
    intro k c found
    rcases entry k c found with old | ⟨_, id⟩
    · exact inv.ids k c old
    · exact id
  refine ⟨ids, ?_, ?_, ?_⟩
  · intro c member
    rcases List.mem_append.mp (queue.mem_iff.mp member) with old | new
    · exact ClauseStore.find_prefix grows (inv.queued c old)
    · have stored : c ∈ p'.store.clauses := store ▸ List.mem_append_right _ new
      rcases List.getElem?_of_mem stored with ⟨k, found⟩
      rw [ids k c found, ClauseStore.find_some, found]
  · intro pid member
    rw [processed] at member
    rcases inv.processed pid member with ⟨c, found⟩
    exact ⟨c, ClauseStore.find_prefix grows found⟩
  · intro k c found
    rcases entry k c found with old | ⟨new, _⟩
    · refine (inv.linked k c old).imp_left ?_
      rintro ⟨c0, member, same⟩
      exact ⟨c0, List.mem_append_left _ member, same⟩
    · rcases mem_storedFrom new with ⟨c0, member, same⟩
      exact Or.inl ⟨c0, List.mem_append_right _ member, same⟩

theorem StoreInv.init {first : Env} {p : Prover}
    (run : Prover.addClauses runtime config initial { env := first } = .ok p) :
    StoreInv initial p ∧ p.env = first ∧ p.processed = [] ∧
      p.store.clauses = storedFrom 0 initial ∧ p.unprocessed.Perm p.store.clauses := by
  rcases addClauses_spec runtime config initial { env := first } with
    ⟨p', run', env, processed, empty, store, queue⟩
  rcases Except.ok.inj (run.symm.trans run') with rfl
  simp only [ClauseStore.size, List.length_nil, List.nil_append] at store queue
  rw [← store] at queue
  exact ⟨(StoreInv.fresh first).added run, env, processed, store, queue⟩

variable {start : Prover} {iterations : Nat} {log : List (Inference × Option Clause)}

theorem LoopHead.storeInv (init : StoreInv initial start) {p : Prover}
    (head : LoopHead runtime config fuel start iterations log p) : StoreInv initial p := by
  refine head.invariant _ init fun p given unprocessed p' calls inv popped iterated => ?_
  rcases inv.pop popped with ⟨invPopped, held⟩
  exact (invPopped.iterated held iterated).1

theorem LoopHead.store_grows (init : StoreInv initial start) {p : Prover}
    (head : LoopHead runtime config fuel start iterations log p) :
    start.store.clauses <+: p.store.clauses := by
  induction head with
  | start => exact List.prefix_rfl
  | turn before popped _ _ iterated ih =>
      rcases (before.storeInv init).pop popped with ⟨popped, held⟩
      exact ih.trans (popped.iterated held iterated).2.1

/-- The invariant holds at return, and `kTheorem` comes with a stored empty clause. -/
theorem ProveReturns.storeInv (init : StoreInv initial start) {p : Prover} {result : ProverResult}
    (returns : ProveReturns runtime config fuel start result iterations log p) :
    StoreInv initial p ∧ (result = .kTheorem → EmptyStored p) := by
  cases returns with
  | saturation head _ => exact ⟨head.storeInv init, fun h => by cases h⟩
  | timeout head _ _ => exact ⟨head.storeInv init, fun h => by cases h⟩
  | result head popped _ iterated =>
      rcases (head.storeInv init).pop popped with ⟨invPopped, held⟩
      rcases invPopped.iterated held iterated with ⟨inv, _, empty⟩
      rcases iterated.theorem_of_some with rfl
      exact ⟨inv, fun _ => empty rfl⟩

end Structure

section Invariant

variable (runtime : Runtime) (config : ProverConfig) (fuel : Nat) (initial : List Clause)
  (first : Env)

/-- A returning call of the inference layer on stored clauses with ids below `bound`. -/
inductive Called (last : Env) (store : ClauseStore) (bound : Nat) (inf : Inference)
    (out : Option Clause) : Prop where
  | made {env env' : Env} : inf.InRange →
      (∀ prem ∈ inf.premises, ∃ k < bound, prem.id = some k ∧
        store.clauses[k]? = some prem ∧ prem.ValidIn env.bank) →
      first.Grows env → env'.Grows last →
      inf.perform runtime.order config.uconfig fuel env = .ok (out, env') →
      Called last store bound inf out

/-- Where a stored clause comes from; only its id and depth are set by the store. -/
inductive Origin (last : Env) (store : ClauseStore) (k : Nat) (c : Clause) : Prop where
  | initial {c0 : Clause} : c0 ∈ initial → c = { c0 with id := c.id, depth := c.depth } →
      Origin last store k c
  | derived {inf : Inference} {r : Clause} :
      Called runtime config fuel first last store k inf (some r) →
      c = { r with id := c.id, depth := c.depth } → Origin last store k c

/-- What a well-formed bank adds to `StoreInv`. -/
structure RunInv (p : Prover) : Prop where
  grows : first.Grows p.env
  valid : ∀ (k : Nat) (c : Clause), p.store.clauses[k]? = some c → c.ValidIn p.env.bank
  origin : ∀ (k : Nat) (c : Clause), p.store.clauses[k]? = some c →
    Origin runtime config fuel initial first p.env p.store k c

variable {runtime config fuel initial first}

theorem Called.mono {last last' : Env} {store store' : ClauseStore} {bound bound' : Nat}
    {inf : Inference} {out : Option Clause}
    (call : Called runtime config fuel first last store bound inf out)
    (grows : last.Grows last') (kept : store.clauses <+: store'.clauses) (le : bound ≤ bound') :
    Called runtime config fuel first last' store' bound' inf out := by
  rcases call with ⟨inRange, premises, before, after, run⟩
  refine .made inRange (fun prem member => ?_) before (after.trans grows) run
  rcases premises prem member with ⟨k, below, id, held, valid⟩
  exact ⟨k, Nat.lt_of_lt_of_le below le, id, prefix_getElem? kept held, valid⟩

theorem Called.valid {last : Env} {store : ClauseStore} {bound : Nat} {inf : Inference} {r : Clause}
    (wf : first.bank.WellFormed)
    (call : Called runtime config fuel first last store bound inf (some r)) :
    r.ValidIn last.bank := by
  rcases call with ⟨_, premises, before, after, run⟩
  have inside : inf.ValidIn _ := fun prem member => (premises prem member).elim fun _ h => h.2.2.2
  rcases (perform_performed (before.bank.wf wf) inside run).built r rfl with ⟨_, _, valid⟩
  exact valid.mono after.bank.grows

theorem Origin.mono {last last' : Env} {store store' : ClauseStore} {k : Nat} {c : Clause}
    (origin : Origin runtime config fuel initial first last store k c) (grows : last.Grows last')
    (kept : store.clauses <+: store'.clauses) :
    Origin runtime config fuel initial first last' store' k c := by
  cases origin with
  | initial member same => exact .initial member same
  | derived new same => exact .derived (new.mono grows kept (Nat.le_refl _)) same

theorem RunInv.store {p : Prover} (inv : RunInv runtime config fuel initial first p) {c : Clause}
    (valid : c.ValidIn p.env.bank)
    (origin : Origin runtime config fuel initial first p.env p.store p.store.size
      { c with id := some p.store.size }) (unprocessed : List Clause) :
    RunInv runtime config fuel initial first
      { p with store := (p.store.addClause c).2, unprocessed } := by
  have kept : p.store.clauses <+: (p.store.addClause c).2.clauses := List.prefix_append _ _
  refine ⟨inv.grows, ?_, ?_⟩
  · intro k d found
    rcases ClauseStore.addClause_cases found with old | ⟨rfl, rfl⟩
    · exact inv.valid k d old
    · exact valid
  · intro k d found
    rcases ClauseStore.addClause_cases found with old | ⟨rfl, rfl⟩
    · exact (inv.origin k d old).mono (.refl _) kept
    · exact origin.mono (.refl _) kept

theorem RunInv.absorbed {p p' : Prover} {nc : Clause} {derived : Option ClauseId} {size : Nat}
    {inf : Inference} (wf : first.bank.WellFormed)
    (inv : RunInv runtime config fuel initial first p)
    (new : Called runtime config fuel first p.env p.store size inf (some nc))
    (le : size ≤ p.store.size) (absorbed : Absorbed runtime config nc p derived p') :
    RunInv runtime config fuel initial first p' := by
  have valid := new.valid wf
  have origin : ∀ depth, Origin runtime config fuel initial first p.env p.store p.store.size
      { nc with depth, id := some p.store.size } := fun depth =>
    .derived (new.mono (.refl _) List.prefix_rfl le) rfl
  cases absorbed with
  | empty _ => exact inv.store valid (origin nc.depth) _
  | tautology _ _ => exact inv
  | @subsumed depth _ _ _ _ _ _ _ _ =>
      exact inv.store (c := { nc with depth }) valid (origin depth) _
  | @waiting depth _ _ _ _ => exact inv.store (c := { nc with depth }) valid (origin depth) _

theorem RunInv.generation {p : Prover} (wf : first.bank.WellFormed)
    (structured : StoreInv initial p) (inv : RunInv runtime config fuel initial first p)
    {given : Clause} {kept : List ClauseId} {pcs : List Clause} {outs : List (Option Clause)}
    {env' : Env} (given_held : p.store.find given.id = some given) (held : p.store.Holds kept pcs)
    (calls : mapAccum (Inference.perform runtime.order config.uconfig fuel) (inferences given pcs)
      p.env = .ok (outs, env')) :
    p.env.Grows env' ∧ List.Forall₂ (Called runtime config fuel first env' p.store p.store.size)
      (inferences given pcs) outs := by
  have loop := mapAccum_rule (fun env => p.env.Grows env)
    (fun env env' => env.bank.WellFormed → env.Grows env')
    (fun env inf out => p.env.Grows env ∧
      Called runtime config fuel first env p.store p.store.size inf out)
    (fun env _ => .refl env) (fun ab bc wf => (ab wf).trans (bc ((ab wf).bank.wf wf)))
    (fun {env env' inf out} grows done => by
      have grown := grows (done.1.bank.wf (inv.grows.bank.wf wf))
      exact ⟨done.1.trans grown, done.2.mono grown List.prefix_rfl (Nat.le_refl _)⟩)
    (fun inf member env out after before run => by
      have wfEnv := before.bank.wf (inv.grows.bank.wf wf)
      have premises : ∀ prem ∈ inf.premises, ∃ k < p.store.size, prem.id = some k ∧
          p.store.clauses[k]? = some prem ∧ prem.ValidIn env.bank := fun prem inside => by
        rcases structured.premises given_held held member prem inside with
          ⟨k, below, own, entry⟩
        exact ⟨k, below, own, entry, (inv.valid _ _ entry).mono before.bank.grows⟩
      have performed := perform_performed wfEnv
        (fun prem inside => (premises prem inside).elim fun _ h => h.2.2.2) run
      exact ⟨before.trans performed.grows, fun _ => performed.grows,
        before.trans performed.grows,
        .made (inferences_inRange member).1 premises (inv.grows.trans before) (.refl _) run⟩)
    (.refl p.env) calls
  rcases loop with ⟨grown, _, each⟩
  exact ⟨grown, each.imp fun _ _ done => done.2⟩

theorem RunInv.pop {p : Prover} (inv : RunInv runtime config fuel initial first p)
    (unprocessed : List Clause) :
    RunInv runtime config fuel initial first { p with unprocessed } :=
  ⟨inv.grows, inv.valid, inv.origin⟩

theorem RunInv.iterated {p p' : Prover} {given : Clause} {result : Option ProverResult}
    {calls : List (Inference × Option Clause)} (wf : first.bank.WellFormed)
    (structured : StoreInv initial p) (inv : RunInv runtime config fuel initial first p)
    (given_held : p.store.find given.id = some given)
    (iterated : Iterated runtime config fuel given p (result, p') calls) :
    RunInv runtime config fuel initial first p' ∧ p.env.Grows p'.env ∧
      ∀ call ∈ calls, Called runtime config fuel first p'.env p'.store p'.store.size
        call.1 call.2 := by
  rcases iterated.outcome with ⟨_, rfl, rfl⟩ |
    ⟨kept, pcs, outs, env', _, q, _, generates, run, process, rfl, rfl⟩
  · exact ⟨⟨inv.grows, inv.valid, inv.origin⟩, .refl _, by simp⟩
  · rcases inv.generation wf structured given_held generates.held run with ⟨grown, made⟩
    have begun : RunInv runtime config fuel initial first
        { p with env := env', processed := kept ++ [given.id] } :=
      ⟨inv.grows.trans grown, fun k c found => (inv.valid k c found).mono grown.bank.grows,
        fun k c found => (inv.origin k c found).mono grown List.prefix_rfl⟩
    have rule := processNewClauses_rule
      (fun q => RunInv runtime config fuel initial first q ∧ q.env = env' ∧
        p.store.clauses <+: q.store.clauses) (fun _ _ => True)
      (fun nc member q d q' start absorbed => by
        rcases start with ⟨invQ, envQ, grownQ⟩
        rcases absorbed.frame with ⟨env, _, store⟩
        rcases forall₂_mem_right made (List.reduceOption_mem_iff.mp member) with
          ⟨inf, _, new⟩
        refine ⟨⟨?_, env.trans envQ, grownQ.trans store⟩, trivial, fun _ _ => trivial⟩
        have known := new.mono (.refl env') grownQ (Nat.le_refl _)
        rw [← envQ] at known
        exact invQ.absorbed wf known grownQ.length_le absorbed)
      ⟨begun, rfl, List.prefix_rfl⟩ process
    rcases rule with ⟨⟨invLast, envLast, grows⟩, _⟩
    have logged : ∀ call ∈ (inferences given pcs).zip outs,
        Called runtime config fuel first q.env q.store q.store.size
          call.1 call.2 := by
      intro call member
      rw [envLast]
      exact ((List.forall₂_iff_zip.mp made).2 member).mono (.refl _) grows grows.length_le
    exact ⟨⟨invLast.grows, invLast.valid, invLast.origin⟩, envLast ▸ grown, logged⟩

theorem RunInv.found {p : Prover} (inv : RunInv runtime config fuel initial first p)
    {id : ClauseId} {c : Clause} (found : p.store.find id = some c) : c.ValidIn p.env.bank := by
  rcases ClauseStore.find_iff.mp found with ⟨k, _, stored⟩
  exact inv.valid k c stored

section Rule

variable {P : ClauseLogic.Literals Nat Nat → Prop}

/-- The premises of a call, and the clause it returned, read the same in the bank of the
run's end. -/
theorem Called.reads {last : Env} {store : ClauseStore} {bound : Nat} {inf : Inference}
    {out : Option Clause} (wf : first.bank.WellFormed)
    (call : Called runtime config fuel first last store bound inf out) :
    ∃ env env', first.Grows env ∧ env.bank.WellFormed ∧ inf.ValidIn env.bank ∧
      inf.perform runtime.order config.uconfig fuel env = .ok (out, env') ∧
      (∀ prem ∈ inf.premises, last.bank.read prem.literals = env.bank.read prem.literals) ∧
      ∀ r, out = some r → last.bank.read r.literals = env'.bank.read r.literals := by
  rcases call with @⟨env, env', _, stored, before, after, run⟩
  have wfEnv := before.bank.wf wf
  have valid : inf.ValidIn env.bank := fun prem member =>
    (stored prem member).elim fun _ h => h.2.2.2
  have performed := perform_performed wfEnv valid run
  have wfEnv' := performed.grows.bank.wf wfEnv
  have wfLast := after.bank.wf wfEnv'
  have grown := (performed.grows.trans after).bank.grows
  refine ⟨env, env', before, wfEnv, valid, run, fun prem member => ?_, fun r same => ?_⟩
  · exact TermBank.read_extends wfEnv wfLast grown (valid prem member)
  · have inside := (performed.built r same).elim fun _ h => h.2
    exact TermBank.read_extends wfEnv' wfLast after.bank.grows inside

/-- What the inferences carry over from their premises holds of the clause a call
returned, once it holds of the premises; all are read in the bank of the run's end. -/
theorem Called.rule {last : Env} {store : ClauseStore} {bound : Nat} {inf : Inference} {r : Clause}
    (wf : first.bank.WellFormed)
    (step : ∀ {env env' : Env}, first.Grows env → env.bank.WellFormed →
      inf.ValidIn env.bank → inf.InRange →
      (∀ prem ∈ inf.premises, P (env.bank.read prem.literals)) →
      inf.perform runtime.order config.uconfig fuel env = .ok (some r, env') →
      P (env'.bank.read r.literals))
    (call : Called runtime config fuel first last store bound inf (some r))
    (premises : ∀ (j : Nat) prem, j < bound → prem.id = some j →
      store.clauses[j]? = some prem → prem ∈ inf.premises →
      P (last.bank.read prem.literals)) :
    P (last.bank.read r.literals) := by
  rcases call.reads wf with ⟨env, env', before, wfEnv, valid, run, same, same'⟩
  rcases call with ⟨inRange, stored, _, _, _⟩
  rw [same' r rfl]
  refine step before wfEnv valid inRange (fun prem member => ?_) run
  rcases stored prem member with ⟨j, below, own, entry, _⟩
  rw [← same prem member]
  exact premises j prem below own entry member

/-- The rule for stored clauses: it holds of the initial ones, and inferences carry it over. -/
theorem RunInv.rule {p : Prover} (wf : first.bank.WellFormed)
    (inv : RunInv runtime config fuel initial first p)
    (inputs : ∀ c0 ∈ initial, P (p.env.bank.read c0.literals))
    (step : ∀ {inf : Inference} {r : Clause} {env env' : Env}, first.Grows env →
      env.bank.WellFormed → inf.ValidIn env.bank → inf.InRange →
      (∀ prem ∈ inf.premises, P (env.bank.read prem.literals)) →
      inf.perform runtime.order config.uconfig fuel env = .ok (some r, env') →
      P (env'.bank.read r.literals)) (k : Nat) {c : Clause}
    (found : p.store.clauses[k]? = some c) : P (p.env.bank.read c.literals) := by
  induction k using Nat.strong_induction_on generalizing c with
  | _ k ih =>
    cases inv.origin k c found with
    | @initial c0 member same =>
        rw [same]
        exact inputs c0 member
    | @derived _ r call same =>
        have literals : c.literals = r.literals := by rw [same]
        rw [literals]
        exact call.rule wf step fun j prem below _ entry _ => ih j below entry

end Rule

theorem RunInv.init (valid : ∀ c ∈ initial, c.ValidIn first.bank) {p : Prover}
    (run : Prover.addClauses runtime config initial { env := first } = .ok p) :
    RunInv runtime config fuel initial first p := by
  rcases StoreInv.init run with ⟨_, env, _, store, _⟩
  have from_initial : ∀ (k : Nat) (c : Clause), p.store.clauses[k]? = some c →
      ∃ c0 ∈ initial, c = { c0 with id := c.id, depth := c.depth } := by
    intro k c found
    rw [store] at found
    exact mem_storedFrom (List.mem_of_getElem? found)
  refine ⟨by rw [env]; exact .refl _, fun k c found => ?_, fun k c found => ?_⟩
  · rcases from_initial k c found with ⟨c0, member, same⟩
    rw [same, env]
    exact valid c0 member
  · rcases from_initial k c found with ⟨c0, member, same⟩
    exact .initial member same

variable {start : Prover} {iterations : Nat} {log : List (Inference × Option Clause)}

theorem LoopHead.runInv (wf : first.bank.WellFormed) (structured : StoreInv initial start)
    (init : RunInv runtime config fuel initial first start) {p : Prover}
    (head : LoopHead runtime config fuel start iterations log p) :
    RunInv runtime config fuel initial first p := by
  refine (head.invariant (fun p => StoreInv initial p ∧
    RunInv runtime config fuel initial first p)
    ⟨structured, init⟩ fun p given unprocessed p' calls inv popped iterated => ?_).2
  rcases inv.1.pop popped with ⟨popStore, held⟩
  exact ⟨(popStore.iterated held iterated).1,
    ((inv.2.pop unprocessed).iterated wf popStore held iterated).1⟩

theorem LoopHead.called (wf : first.bank.WellFormed) (structured : StoreInv initial start)
    (init : RunInv runtime config fuel initial first start) {p : Prover}
    (head : LoopHead runtime config fuel start iterations log p) :
    ∀ call ∈ log, Called runtime config fuel first p.env p.store p.store.size
      call.1 call.2 := by
  induction head with
  | start => simp
  | @turn _ log calls p p' given unprocessed before popped _ _ iterated ih =>
      have inv := before.runInv wf structured init
      rcases (before.storeInv structured).pop popped with ⟨popStore, held⟩
      rcases (inv.pop unprocessed).iterated wf popStore held iterated with ⟨_, grows, new⟩
      have kept := (popStore.iterated held iterated).2.1
      intro call member
      rcases List.mem_append.mp member with old | made
      · exact (ih call old).mono grows kept kept.length_le
      · exact new call made

theorem ProveReturns.runInv (wf : first.bank.WellFormed) (structured : StoreInv initial start)
    (init : RunInv runtime config fuel initial first start) {p : Prover} {result : ProverResult}
    (returns : ProveReturns runtime config fuel start result iterations log p) :
    RunInv runtime config fuel initial first p := by
  cases returns with
  | saturation head _ => exact head.runInv wf structured init
  | timeout head _ _ => exact head.runInv wf structured init
  | @result _ _ _ q _ _ unprocessed _ head popped _ iterated =>
      have inv := head.runInv wf structured init
      rcases (head.storeInv structured).pop popped with ⟨popStore, held⟩
      exact ((inv.pop unprocessed).iterated wf popStore held iterated).1

/-- What a first call of `prove()` leaves: every stored clause has an origin, and
`kTheorem` comes with a stored empty clause. -/
theorem prove_runInv (wf : first.bank.WellFormed) (valid : ∀ c ∈ initial, c.ValidIn first.bank)
    (added : Prover.addClauses runtime config initial { env := first } = .ok start) {p : Prover}
    {result : ProverResult} (run : Prover.prove runtime config fuel start = .ok (result, p)) :
    StoreInv initial p ∧ RunInv runtime config fuel initial first p ∧
      (result = .kTheorem → EmptyStored p) := by
  rcases prove_returns run with ⟨last, log, returns⟩
  rcases StoreInv.init added with ⟨structured, _⟩
  rcases returns.storeInv structured with ⟨inv, empty⟩
  exact ⟨inv, returns.runInv wf structured (RunInv.init valid added), empty⟩

end Invariant

end AtpEngine
