import AtpEngine.StoreHistory

/-!
Breadth-first selection. With `bfsCompare` the queue holds two neighbouring
levels of depth at most, whichever of several shallowest clauses it hands out,
and every clause derived in a turn is one deeper than the given clause. The
depths are exact as long as the 16-bit field does not wrap.
-/
namespace AtpEngine

open Fuelled

theorem bfsCompare_order : StrictWeakOrder bfsCompare := by
  constructor
  · intro a
    simp [bfsCompare]
  · intro a b c
    simp only [bfsCompare, decide_eq_true_eq]
    omega
  · intro a b c
    simp only [bfsCompare, decide_eq_true_eq]
    omega

def ClauseStore.Shallow (store : ClauseStore) : Prop := ∀ c ∈ store.clauses, c.depth < 65535

theorem ClauseStore.Shallow.mono {store store' : ClauseStore} (shallow : store'.Shallow)
    (grows : store.clauses <+: store'.clauses) : store.Shallow :=
  fun c member => shallow c (grows.subset member)

/-- The depth of a clause is one more than the larger depth of its stored parents. -/
def ClauseStore.DepthExact (store : ClauseStore) (c : Clause) : Prop :=
  ∃ c1, store.find c.parent1 = some c1 ∧
    ((c.parent2 = kInvalidId ∧ c.depth = c1.depth + 1) ∨
      ∃ c2, store.find c.parent2 = some c2 ∧ c.depth = max c1.depth c2.depth + 1)

def ClauseStore.ParentsAt (store : ClauseStore) (level : Nat) (c : Clause) : Prop :=
  ∃ c1, store.find c.parent1 = some c1 ∧
    ((c.parent2 = kInvalidId ∧ c1.depth = level) ∨
      ∃ c2, store.find c.parent2 = some c2 ∧ max c1.depth c2.depth = level)

section Depths

variable {store store' : ClauseStore} {level : Nat} {c : Clause}

theorem ClauseStore.DepthExact.mono (exact : store.DepthExact c)
    (grows : store.clauses <+: store'.clauses) : store'.DepthExact c := by
  rcases exact with ⟨c1, found1, ⟨alone, depth⟩ | ⟨c2, found2, depth⟩⟩
  · exact ⟨c1, find_prefix grows found1, Or.inl ⟨alone, depth⟩⟩
  · exact ⟨c1, find_prefix grows found1, Or.inr ⟨c2, find_prefix grows found2, depth⟩⟩

theorem ClauseStore.ParentsAt.mono (parents : store.ParentsAt level c)
    (grows : store.clauses <+: store'.clauses) : store'.ParentsAt level c := by
  rcases parents with ⟨c1, found1, ⟨alone, depth⟩ | ⟨c2, found2, depth⟩⟩
  · exact ⟨c1, find_prefix grows found1, Or.inl ⟨alone, depth⟩⟩
  · exact ⟨c1, find_prefix grows found1, Or.inr ⟨c2, find_prefix grows found2, depth⟩⟩

theorem parentDepth_found {parent : ClauseId} {d : Clause} (found : store.find parent = some d) :
    Prover.parentDepth store parent = .ok d.depth := by
  have real : parent ≠ kInvalidId := by
    rintro rfl
    cases found
  rw [Prover.parentDepth, if_pos real, ClauseStore.getClause_ok.mpr found]
  rfl

theorem parentDepth_invalid : Prover.parentDepth store kInvalidId = .ok 0 := rfl

theorem ClauseStore.ParentsAt.computeDepth {p : Prover} (parents : p.store.ParentsAt level c)
    (room : level < 65535) : p.computeDepth c = .ok (level + 1) := by
  have exact : toUInt16 (level + 1) = level + 1 := Nat.mod_eq_of_lt (by omega)
  rcases parents with ⟨c1, found1, ⟨alone, depth⟩ | ⟨c2, found2, depth⟩⟩
  · simp only [Prover.computeDepth, parentDepth_found found1, alone, parentDepth_invalid, bind_ok,
      pure_eq_ok, Nat.max_zero, depth, exact]
  · simp only [Prover.computeDepth, parentDepth_found found1, parentDepth_found found2, bind_ok,
      pure_eq_ok, depth, exact]

theorem ClauseStore.ParentsAt.depthExact (parents : store.ParentsAt level c) (id : ClauseId) :
    store.DepthExact { c with id, depth := level + 1 } := by
  rcases parents with ⟨c1, found1, ⟨alone, depth⟩ | ⟨c2, found2, depth⟩⟩
  · exact ⟨c1, found1, Or.inl ⟨alone, by rw [depth]⟩⟩
  · exact ⟨c1, found1, Or.inr ⟨c2, found2, by rw [depth]⟩⟩

end Depths

section Levels

variable {runtime : Runtime} {config : ProverConfig} {fuel : Nat} {initial : List Clause}
  {start : Prover}

variable (runtime config) in
/-- The queue holds clauses of two neighbouring depths, and the processed
clauses are not deeper than the first of them. -/
structure Levels (level : Nat) (p : Prover) : Prop where
  heap : runtime.queue.Heap config.comparator p.unprocessed
  waiting : ∀ c ∈ p.unprocessed, c.depth = level ∨ c.depth = level + 1
  processed : ∀ pid ∈ p.processed, ∀ c, p.store.find pid = some c → c.depth ≤ level

variable (initial) in
def DepthsExact (store : ClauseStore) : Prop :=
  ∀ (k : Nat) (c : Clause), initial.length ≤ k → store.clauses[k]? = some c →
    c.literals ≠ [] → store.DepthExact c

theorem addClauses_heap (order : StrictWeakOrder config.comparator) {clauses : List Clause}
    {p p' : Prover} (heap : runtime.queue.Heap config.comparator p.unprocessed)
    (run : Prover.addClauses runtime config clauses p = .ok p') :
    runtime.queue.Heap config.comparator p'.unprocessed := by
  induction clauses generalizing p with
  | nil =>
      rcases Except.ok.inj run with rfl
      exact heap
  | cons c rest ih =>
      rw [Prover.addClauses] at run
      rcases bind_ok_iff.mp run with ⟨stored, _, run⟩
      refine ih ?_ run
      exact runtime.queue.push_heap _ _ _ order heap

theorem Levels.pop (bfs : config.comparator = bfsCompare) {level : Nat} {p : Prover}
    {given : Clause} {unprocessed : List Clause} (levels : Levels runtime config level p)
    (popped : runtime.queue.pop config.comparator p.unprocessed = some (given, unprocessed)) :
    Levels runtime config given.depth p ∧
    Levels runtime config given.depth { p with unprocessed } := by
  have order : StrictWeakOrder config.comparator := by
    rw [bfs]
    exact bfsCompare_order
  have perm := runtime.queue.pop_perm _ _ _ _ popped
  have first := levels.waiting given (perm.mem_iff.mpr List.mem_cons_self)
  have least : ∀ c ∈ unprocessed, given.depth ≤ c.depth := by
    intro c member
    have top := runtime.queue.pop_max _ _ _ _ order levels.heap popped c member
    simp only [bfs, bfsCompare, decide_eq_false_iff_not] at top
    omega
  have waiting : ∀ c ∈ unprocessed, c.depth = given.depth ∨ c.depth = given.depth + 1 := by
    intro c member
    have above := least c member
    have within := levels.waiting c (perm.mem_iff.mpr (List.mem_cons_of_mem _ member))
    omega
  have processed : ∀ pid ∈ p.processed, ∀ c, p.store.find pid = some c →
      c.depth ≤ given.depth := by
    intro pid member c found
    have below := levels.processed pid member c found
    omega
  constructor
  · refine ⟨levels.heap, fun c member => ?_, processed⟩
    rcases List.mem_cons.mp (perm.mem_iff.mp member) with rfl | rest
    · exact Or.inl rfl
    · exact waiting c rest
  · exact ⟨runtime.queue.pop_heap _ _ _ _ order levels.heap popped, waiting, processed⟩

/-- The deeper parent of a generated clause is the given clause, or as deep. -/
theorem StoreInv.parentsAt {p : Prover} (inv : StoreInv initial p) {given : Clause}
    {kept : List ClauseId} {pcs : List Clause} {outs : List (Option Clause)} {env' : Env}
    (given_held : p.store.find given.id = some given) (held : p.store.Holds kept pcs)
    (below : ∀ pid ∈ kept, ∀ c, p.store.find pid = some c → c.depth ≤ given.depth)
    (calls : mapAccum (Inference.perform runtime.order config.uconfig fuel) (inferences given pcs)
      p.env = .ok (outs, env')) : ∀ r ∈ outs.reduceOption, p.store.ParentsAt given.depth r := by
  intro r member
  rcases result_visited calls (List.reduceOption_mem_iff.mp member) with
    ⟨inf, inside, _, _, _, run⟩
  rcases perform_conclusion run with ⟨lits, rfl⟩
  have known : ∀ pc ∈ pcs, p.store.find pc.id = some pc ∧ pc.depth ≤ given.depth := by
    intro pc listed
    rcases forall₂_mem_right held listed with ⟨pid, member, found⟩
    rcases inv.found found with ⟨k, _, isId, own, _⟩
    rw [own, ← isId]
    exact ⟨found, below pid member pc found⟩
  rcases mem_inferences.mp inside with ⟨pc, listed, call⟩ | ⟨i, j, _, rfl⟩
  · rcases known pc listed with ⟨found, depth⟩
    rcases mem_inferencesWith.mp call with ⟨i, j, _, rfl⟩ | ⟨i, j, _, rfl⟩
    · exact ⟨given, given_held, Or.inr ⟨pc, found, Nat.max_eq_left depth⟩⟩
    · exact ⟨pc, found, Or.inr ⟨given, given_held, Nat.max_eq_right depth⟩⟩
  · exact ⟨given, given_held, Or.inl ⟨rfl, rfl⟩⟩

theorem Absorbed.levels (order : StrictWeakOrder config.comparator) {level : Nat} {nc : Clause}
    {p p' : Prover} {d : Option ClauseId} (absorbed : Absorbed runtime config nc p d p')
    (parents : p.store.ParentsAt level nc) (room : level < 65535)
    (heap : runtime.queue.Heap config.comparator p.unprocessed)
    (waiting : ∀ c ∈ p.unprocessed, c.depth = level ∨ c.depth = level + 1)
    (exact : DepthsExact initial p.store) :
    runtime.queue.Heap config.comparator p'.unprocessed ∧
      (∀ c ∈ p'.unprocessed, c.depth = level ∨ c.depth = level + 1) ∧
        DepthsExact initial p'.store := by
  have stored : ∀ depth, (nc.literals = [] ∨ depth = level + 1) →
      DepthsExact initial (p.store.addClause { nc with depth }).2 := by
    intro depth known k c late found nonempty
    have grows : p.store.clauses <+: (p.store.addClause { nc with depth }).2.clauses :=
      List.prefix_append _ _
    rcases ClauseStore.addClause_cases found with old | ⟨rfl, rfl⟩
    · exact (exact k c late old nonempty).mono grows
    · rcases known with empty | rfl
      · exact absurd empty nonempty
      · exact (parents.depthExact _).mono grows
  have depth_eq : ∀ {depth}, p.computeDepth nc = .ok depth → depth = level + 1 := by
    intro depth computed
    exact Except.ok.inj (computed.symm.trans (parents.computeDepth room))
  cases absorbed with
  | empty literals => exact ⟨heap, waiting, stored nc.depth (Or.inl literals)⟩
  | tautology _ _ => exact ⟨heap, waiting, exact⟩
  | subsumed _ _ computed _ _ _ => exact ⟨heap, waiting, stored _ (Or.inr (depth_eq computed))⟩
  | waiting _ _ computed _ =>
      refine ⟨runtime.queue.push_heap _ _ _ order heap, fun c member => ?_,
        stored _ (Or.inr (depth_eq computed))⟩
      rcases List.mem_cons.mp ((runtime.queue.push_perm _ _ _).mem_iff.mp member) with rfl | old
      · exact Or.inr (depth_eq computed)
      · exact waiting c old

theorem processNewClauses_levels (order : StrictWeakOrder config.comparator) {level : Nat}
    {news : List Clause} {p : Prover} {after : Option ClauseId × Prover}
    (run : Prover.processNewClauses runtime config news p = .ok after)
    (parents : ∀ nc ∈ news, p.store.ParentsAt level nc) (room : level < 65535)
    (heap : runtime.queue.Heap config.comparator p.unprocessed)
    (waiting : ∀ c ∈ p.unprocessed, c.depth = level ∨ c.depth = level + 1)
    (exact : DepthsExact initial p.store) :
    runtime.queue.Heap config.comparator after.2.unprocessed ∧
      (∀ c ∈ after.2.unprocessed, c.depth = level ∨ c.depth = level + 1) ∧
      DepthsExact initial after.2.store := by
  refine (processNewClauses_rule
    (fun q => (runtime.queue.Heap config.comparator q.unprocessed ∧
      (∀ c ∈ q.unprocessed, c.depth = level ∨ c.depth = level + 1) ∧
      DepthsExact initial q.store) ∧ p.store.clauses <+: q.store.clauses) (fun _ _ => True)
    (fun nc member q d q' before absorbed => ?_) ⟨⟨heap, waiting, exact⟩, List.prefix_rfl⟩
      run).1.1
  rcases before with ⟨⟨heapQ, waitingQ, exactQ⟩, grown⟩
  exact ⟨⟨absorbed.levels order ((parents nc member).mono grown) room heapQ waitingQ exactQ,
    grown.trans absorbed.frame.2.2⟩, trivial, fun _ _ => trivial⟩

theorem Levels.iterated (bfs : config.comparator = bfsCompare) {level : Nat} {p p' : Prover}
    {given : Clause} {unprocessed : List Clause} {result : Option ProverResult}
    {calls : List (Inference × Option Clause)} (structured : StoreInv initial p)
    (levels : Levels runtime config level p) (exact : DepthsExact initial p.store)
    (popped : runtime.queue.pop config.comparator p.unprocessed = some (given, unprocessed))
    (iterated : Iterated runtime config fuel given { p with unprocessed } (result, p') calls)
    (shallow : p.store.Shallow) :
    Levels runtime config given.depth p' ∧ DepthsExact initial p'.store := by
  rcases structured.pop popped with ⟨popStore, given_held⟩
  have taken := (levels.pop bfs popped).2
  rcases iterated.outcome with ⟨_, rfl, _⟩ |
    ⟨kept, _, _, _, _, q, _, generates, run, process, rfl, _⟩
  · exact ⟨⟨taken.heap, taken.waiting, taken.processed⟩, exact⟩
  · have order : StrictWeakOrder config.comparator := by
      rw [bfs]
      exact bfsCompare_order
    -- the depth field is 16 bits wide, and the children lie one level down
    have room : given.depth < 65535 := by
      rcases structured.found given_held with ⟨k, _, _, _, entry⟩
      exact shallow given (List.mem_of_getElem? entry)
    have parents := popStore.parentsAt given_held generates.held
      (fun pid member => taken.processed pid (generates.sub.subset member)) run
    rcases processNewClauses_levels order process parents room taken.heap taken.waiting exact with
      ⟨heap, waiting, exact'⟩
    rcases processNewClauses_frame process with ⟨_, processed, grows⟩
    -- the processed clauses are those of before and the given clause itself
    have below : ∀ pid ∈ q.processed, ∀ c, q.store.find pid = some c →
        c.depth ≤ given.depth := by
      intro pid member c found
      rw [processed] at member
      have earlier : ∀ c', p.store.find pid = some c' → c' = c := fun c' old =>
        Option.some.inj ((ClauseStore.find_prefix grows old).symm.trans found)
      rcases List.mem_append.mp member with old | new
      · rcases structured.processed pid (generates.sub.subset old) with ⟨c', held⟩
        rcases earlier c' held with rfl
        exact taken.processed pid (generates.sub.subset old) c' held
      · rcases List.mem_singleton.mp new with rfl
        rw [earlier given given_held]
    exact ⟨⟨heap, waiting, below⟩, exact'⟩

theorem Reached.levels (bfs : config.comparator = bfsCompare) (structured : StoreInv initial start)
    (init : Levels runtime config 0 start) (exact : DepthsExact initial start.store) {n : Nat}
    {q : Prover} (reached : Reached runtime config fuel start n q) (shallow : q.store.Shallow) :
    (∃ level, Levels runtime config level q) ∧ DepthsExact initial q.store := by
  revert shallow
  refine reached.invariant (fun q => q.store.Shallow →
    (∃ level, Levels runtime config level q) ∧ DepthsExact initial q.store)
    (fun _ => ⟨⟨0, init⟩, exact⟩) fun head popped _ iterated before shallow => ?_
  have inv := head.storeInv structured
  rcases inv.pop popped with ⟨popStore, held⟩
  have earlier := shallow.mono (popStore.iterated held iterated).2.1
  rcases before earlier with ⟨⟨level, levels⟩, exact⟩
  rcases levels.iterated bfs inv exact popped iterated earlier with ⟨levels', exact'⟩
  exact ⟨⟨_, levels'⟩, exact'⟩

theorem LoopHead.depths_monotone (bfs : config.comparator = bfsCompare)
    (structured : StoreInv initial start) (init : Levels runtime config 0 start)
    (exact : DepthsExact initial start.store) {m n : Nat}
    {log log' : List (Inference × Option Clause)} {q q' : Prover}
    (earlier : LoopHead runtime config fuel start m log q)
    (later : LoopHead runtime config fuel start n log' q') (le : m ≤ n)
    (shallow : q'.store.Shallow) {d : Nat} (least : ∀ c ∈ q.unprocessed, d ≤ c.depth) :
    ∀ c ∈ q'.unprocessed, d ≤ c.depth := by
  have stretch := (Reached.head earlier).stretch
    (fun q q' => q'.store.Shallow → ∀ d, (∀ c ∈ q.unprocessed, d ≤ c.depth) →
      ∀ c ∈ q'.unprocessed, d ≤ c.depth)
    (fun _ _ _ least => least) ?_ (.head later) le
  · exact stretch shallow d least
  · intro n log calls p q q' given unprocessed result head popped iterated before shallow
      d least c member
    have inv := head.storeInv structured
    rcases inv.pop popped with ⟨popStore, held⟩
    have shallowQ := shallow.mono (popStore.iterated held iterated).2.1
    rcases (Reached.head head).levels bfs structured init exact shallowQ with
      ⟨⟨level, levels⟩, exactQ⟩
    have next := (levels.iterated bfs inv exactQ popped iterated shallowQ).1
    have perm := runtime.queue.pop_perm _ _ _ _ popped
    have first := before shallowQ d least given (perm.mem_iff.mpr List.mem_cons_self)
    rcases next.waiting c member with same | deeper <;> omega

end Levels

/-- Breadth-first runs go level by level while the depth field does not wrap. -/
theorem breadth_first (runtime : Runtime) (config : ProverConfig)
    (bfs : config.comparator = bfsCompare) (first : Env) (initial : List Clause) {p : Prover}
    (added : Prover.addClauses runtime config initial { env := first } = .ok p) (fuel : Nat) :
    (∀ n log q given rest, LoopHead runtime config fuel p n log q → q.store.Shallow →
      runtime.queue.pop config.comparator q.unprocessed = some (given, rest) →
      (∀ c ∈ q.unprocessed, c.depth = given.depth ∨ c.depth = given.depth + 1) ∧
      (∀ pid ∈ q.processed, ∀ c, q.store.find pid = some c → c.depth ≤ given.depth) ∧
      ∀ m log' q' given' rest', m ≤ n → LoopHead runtime config fuel p m log' q' →
        runtime.queue.pop config.comparator q'.unprocessed = some (given', rest') →
        given'.depth ≤ given.depth) ∧
    ∀ n q, Reached runtime config fuel p n q → q.store.Shallow →
      ∀ (k : Nat) (c : Clause), initial.length ≤ k → q.store.clauses[k]? = some c →
        c.literals ≠ [] → q.store.DepthExact c := by
  rcases StoreInv.init added with ⟨structured, _, processed, store, queue⟩
  have order : StrictWeakOrder config.comparator := by
    rw [bfs]
    exact bfsCompare_order
  have init : Levels runtime config 0 p := by
    refine ⟨addClauses_heap order (runtime.queue.heap_nil _) added, fun c member =>
      ?_, by simp [processed]⟩
    have stored := queue.mem_iff.mp member
    rw [store] at stored
    exact Or.inl (storedFrom_depth stored)
  have exact : DepthsExact initial p.store := by
    intro k c late found _
    have short := (List.getElem?_eq_some_iff.mp found).1
    rw [store, storedFrom_length] at short
    omega
  constructor
  · intro n log q given rest head shallow popped
    rcases (Reached.head head).levels bfs structured init exact shallow with
      ⟨⟨level, levels⟩, _⟩
    have at_given := (levels.pop bfs popped).1
    refine ⟨at_given.waiting, at_given.processed, ?_⟩
    intro m log' q' given' rest' le head' popped'
    have earlier := shallow.mono ((Reached.head head').store_grows structured (.head head) le)
    rcases (Reached.head head').levels bfs structured init exact earlier with
      ⟨⟨level', levels'⟩, _⟩
    have least : ∀ c ∈ q'.unprocessed, given'.depth ≤ c.depth := by
      intro c member
      rcases (levels'.pop bfs popped').1.waiting c member with same | deeper <;> omega
    exact head'.depths_monotone bfs structured init exact head le shallow least given
      ((runtime.queue.pop_perm _ _ _ _ popped).mem_iff.mpr List.mem_cons_self)
  · intro n q reached shallow
    exact (reached.levels bfs structured init exact shallow).2

theorem breadth_first_sample : ∃ (p q : Prover) (n : Nat) (c : Clause),
    Reached .plain {} 50 p n q ∧ q.store.clauses[2]? = some c ∧ c.literals = [⟨5, true⟩] ∧
      q.store.DepthExact c := by
  have answer : (fun out => (out.2.store.clauses.all fun c => c.depth < 65535,
      out.2.store.clauses[2]?.map (·.literals))) <$> proveInput .plain {} 50 chainInput =
      .ok (true, some [⟨5, true⟩]) := by decide +kernel
  have two : (fun out => out.1.length) <$> readInput chainInput = .ok 2 := by decide +kernel
  rcases map_ok_iff.mp answer with ⟨⟨result, q⟩, run, checked⟩
  rcases Prod.mk.inj checked with ⟨shallow, found⟩
  rcases map_ok_iff.mp two with ⟨⟨initial, first⟩, read, length⟩
  rcases proveInput_ok.mp run with ⟨clauses, env, p, read', added, proved⟩
  rcases Prod.mk.inj (Except.ok.inj (read.symm.trans read')) with ⟨rfl, rfl⟩
  rcases prove_reached proved with ⟨n, reached⟩
  rcases Option.map_eq_some_iff.mp found with ⟨c, at_two, literals⟩
  have isShallow : q.store.Shallow := fun c member =>
    of_decide_eq_true (List.all_eq_true.mp shallow c member)
  refine ⟨p, q, n, c, reached, at_two, literals, ?_⟩
  exact (breadth_first .plain {} rfl first initial added 50).2 n q reached isShallow 2 c
    (Nat.le_of_eq length) at_two (by simp [literals])

end AtpEngine
