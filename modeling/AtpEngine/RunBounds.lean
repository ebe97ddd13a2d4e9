import AtpEngine.CheckedAccess
import AtpEngine.SearchReturns

/-!
Bounds over whole runs. `Passed` lists the states of a run with the new clauses
that still wait to be processed, `Stands` the substitutions of a unification,
returning or not. All ids in them are valid, so no assertion of the bank or the
store fails, whatever the budget.
-/
namespace AtpEngine

open Fuelled Triangular Substitution

section Substitutions

/-- The substitutions at hand while a call of `unify` runs. -/
inductive Stands (bank : TermBank) (config : UnificationConfig) :
    Nat → Nat → Substitution → Substitution → Prop where
  | start {t1 t2 : Nat} {subst : Substitution} : Stands bank config t1 t2 subst subst
  | answered {t1 t2 fuel : Nat} {subst subst' : Substitution} {unified : Bool} :
      unify bank config fuel t1 t2 subst = .ok (unified, subst') →
      Stands bank config t1 t2 subst subst'
  | args {t1 t2 r1 r2 a b fuel : Nat} {term1 term2 : Term} {before after : List (Nat × Nat)}
      {subst mid last : Substitution} : Walk subst bank t1 r1 → Walk subst bank t2 r2 →
      bank.isVar r1 = false → bank.isVar r2 = false → bank.terms[r1]? = some term1 →
      bank.terms[r2]? = some term2 → argPairs term1 term2 = before ++ (a, b) :: after →
      unifyArgs (unify bank config fuel) before subst = .ok (true, mid) →
      Stands bank config a b mid last → Stands bank config t1 t2 subst last

theorem Stands.validIn {bank : TermBank} {config : UnificationConfig} {t1 t2 : Nat}
    {subst last : Substitution} (wf : bank.WellFormed) (valid : subst.ValidIn bank)
    (stands : Stands bank config t1 t2 subst last) : last.ValidIn bank := by
  induction stands with
  | start => exact valid
  | answered run => exact (unify_keeps wf valid run).valid
  | args _ _ _ _ _ _ _ run _ ih => exact ih (unifyArgs_keeps wf valid run).valid

/-- The call of `unify` that an inference makes, and the pool it is made in. -/
inductive Inference.Unification (order : VariableOrder) :
    Inference → Env → TermBank → Nat → Nat → Prop where
  | resolve {c1 c2 c2r : Clause} {i j fuel : Nat} {lit1 lit2r : Literal} {env mid : Env} :
      c1.literals[i]? = some lit1 → renameVariables order fuel c2 env = .ok (c2r, mid) →
      c2r.literals[j]? = some lit2r →
      Unification order (.resolve c1 i c2 j) env mid.bank lit1.atom lit2r.atom
  | factor {c : Clause} {i j : Nat} {litI litJ : Literal} {env : Env} :
      c.literals[i]? = some litI → c.literals[j]? = some litJ →
      Unification order (.factor c i j) env env.bank litI.atom litJ.atom

/-- The ids an inference works with: its premises and literal indices, the
bindings of its renaming as they grow, and those of its unification. -/
structure Inference.InBounds (runtime : Runtime) (config : ProverConfig) (inf : Inference)
    (env : Env) : Prop where
  premises : inf.ValidIn env.bank
  indices : inf.InRange
  renames : ∀ c ∈ inf.premises, ∀ fuel varSet, c.literals.foldlM
    (fun seen lit => collectVariables env.bank fuel lit.atom seen) [] = .ok varSet →
    ∀ before, before <+: runtime.order.enumerate env varSet → ∀ subst env',
      bindFresh before {} env = .ok (subst, env') → subst.ValidIn env'.bank
  unifies : ∀ bank t1 t2, inf.Unification runtime.order env bank t1 t2 →
    t1 < bank.size ∧ t2 < bank.size ∧
    ∀ subst, Stands bank config.uconfig t1 t2 {} subst → subst.ValidIn bank

theorem Inference.inBounds (runtime : Runtime) (config : ProverConfig) {inf : Inference} {env : Env}
    (wf : env.bank.WellFormed) (valid : inf.ValidIn env.bank) (inRange : inf.InRange) :
    inf.InBounds runtime config env := by
  constructor
  case premises => exact valid
  case indices => exact inRange
  case renames =>
    intro c premise fuel varSet collected before isPrefix subst env' bound
    rcases varSet_spec wf collected with ⟨members, nodup⟩
    have perm := runtime.order.perm env varSet
    have listed : ∀ x ∈ before, env.bank.isVar x = true := fun x member =>
      varOf_lt wf (valid c premise) ((members x).mp (perm.mem_iff.mp (isPrefix.subset member)))
    exact (bindFresh_spec wf (empty_validIn env.bank)
      (isPrefix.sublist.nodup (perm.nodup_iff.mpr nodup)) listed (fun _ _ => rfl) bound).valid
  case unifies =>
    intro bank t1 t2 call
    cases call with
    | @resolve c1 c2 _ _ _ _ _ _ _ _ at_i rename at_j =>
        have valid1 := valid c1 (by simp [Inference.premises])
        have renamed := renameVariables_spec wf (valid c2 (by simp [Inference.premises])) rename
        exact ⟨valid1.mono renamed.grows.bank.grows _ (List.mem_of_getElem? at_i),
          renamed.valid _ (List.mem_of_getElem? at_j),
          fun subst stands => stands.validIn (renamed.grows.bank.wf wf) (empty_validIn _)⟩
    | @factor c _ _ _ _ _ at_i at_j =>
        have valid' := valid c (by simp [Inference.premises])
        exact ⟨valid' _ (List.mem_of_getElem? at_i), valid' _ (List.mem_of_getElem? at_j),
          fun subst stands => stands.validIn wf (empty_validIn _)⟩

end Substitutions

section Turns

variable {runtime : Runtime} {config : ProverConfig} {fuel : Nat} {initial : List Clause}
  {p : Prover}

theorem allResolvents_safe {c1 c2 : Clause} {env : Env} (wf : env.bank.WellFormed)
    (ready : Performable ((complementaryPairs c1 c2).map fun q => .resolve c1 q.1 c2 q.2) env) :
    Safe (allResolvents runtime.order config.uconfig fuel c1 c2 env) := by
  have calls : Safe (mapAccum (Inference.perform runtime.order config.uconfig fuel)
      ((complementaryPairs c1 c2).map fun q => .resolve c1 q.1 c2 q.2) env) :=
    performAll_safe wf ready fuel
  rw [mapAccum_map] at calls
  exact calls.bind fun _ _ => Safe.pure _

theorem factor_safe {c : Clause} {env : Env} (wf : env.bank.WellFormed)
    (ready : Performable (factorings c) env) : Safe (factor config.uconfig fuel c env) := by
  have calls :
      Safe (mapAccum (Inference.perform .insertion config.uconfig fuel) (factorings c) env) :=
    performAll_safe wf ready fuel
  rw [factorings, mapAccum_map] at calls
  exact calls.bind fun _ _ => Safe.pure _

theorem inferences_performable {env : Env} {given : Clause} {pcs : List Clause}
    (valid : given.ValidIn env.bank) (others : ∀ pc ∈ pcs, pc.ValidIn env.bank) :
    Performable (inferences given pcs) env := by
  intro inf member
  rcases inferences_inRange member with ⟨inRange, premises⟩
  refine ⟨inRange, fun c premise => ?_⟩
  rcases premises c premise with rfl | listed
  · exact valid
  · exact others c listed

theorem Performable.sub {infs infs' : List Inference} {env : Env} (ready : Performable infs env)
    (sub : infs' ⊆ infs) : Performable infs' env := fun inf member => ready inf (sub member)

theorem inferencesWith_performable {given pc : Clause} {env : Env} (valid : given.ValidIn env.bank)
    (other : pc.ValidIn env.bank) : Performable (inferencesWith given pc) env := by
  have ready : Performable (inferences given [pc]) env :=
    inferences_performable valid fun c member => List.mem_singleton.mp member ▸ other
  exact ready.sub fun inf member =>
    mem_inferences.mpr (Or.inl ⟨pc, List.mem_singleton_self pc, member⟩)

theorem resolventsWith_safe {store : ClauseStore} {given pc : Clause} {pid : ClauseId} {env : Env}
    (wf : env.bank.WellFormed) (found : store.find pid = some pc) (valid : given.ValidIn env.bank)
    (other : pc.ValidIn env.bank) :
    Safe (Prover.resolventsWith runtime config fuel store given pid env) := by
  have ready := inferencesWith_performable valid other
  have first := ready.sub (List.subset_append_left _ _)
  rw [Prover.resolventsWith, ClauseStore.getClause_ok.mpr found, bind_ok]
  refine (allResolvents_safe wf first).bind fun out call => ?_
  rcases allResolvents_calls call with ⟨outs, calls, _⟩
  have grown := performAll_grows wf first calls
  exact (allResolvents_safe (grown.bank.wf wf)
    ((ready.sub (List.subset_append_right _ _)).mono grown)).bind fun _ _ => Safe.pure _

theorem resolventsWith_grows {store : ClauseStore} {given pc : Clause} {pid : ClauseId}
    {env env' : Env} {results : List Clause} (wf : env.bank.WellFormed)
    (found : store.find pid = some pc) (valid : given.ValidIn env.bank)
    (other : pc.ValidIn env.bank)
    (run : Prover.resolventsWith runtime config fuel store given pid env = .ok (results, env')) :
    env.Grows env' := by
  rcases resolventsWith_calls run with ⟨pc', outs, found', calls, _⟩
  rcases Option.some.inj (found.symm.trans found') with rfl
  exact performAll_grows wf (inferencesWith_performable valid other) calls

theorem generateNewClauses_safe (wf : p.env.bank.WellFormed) {given : Clause}
    (valid : given.ValidIn p.env.bank)
    (held : ∀ pid ∈ p.processed, ∃ pc, p.store.find pid = some pc ∧ pc.ValidIn p.env.bank) :
    Safe (p.generateNewClauses runtime config fuel given) := by
  have keep : ∀ pid ∈ p.processed, ∀ env results env', p.env.Grows env →
      Prover.resolventsWith runtime config fuel p.store given pid env = .ok (results, env') →
      p.env.Grows env' := by
    intro pid member env results env' grown call
    rcases held pid member with ⟨pc, found, other⟩
    exact grown.trans (resolventsWith_grows (grown.bank.wf wf) found (valid.mono grown.bank.grows)
      (other.mono grown.bank.grows) call)
  rw [Prover.generateNewClauses]
  refine Safe.bind (Safe.mapAccum (fun env => p.env.Grows env) ?_ keep (.refl p.env)) ?_
  · intro pid member env grown
    rcases held pid member with ⟨pc, found, other⟩
    exact resolventsWith_safe (grown.bank.wf wf) found (valid.mono grown.bank.grows)
      (other.mono grown.bank.grows)
  · intro out calls
    have grown := (mapAccum_rule (fun env => p.env.Grows env) (fun _ _ => True) (fun _ _ _ => True)
      (fun _ => trivial) (fun _ _ => trivial) (fun _ _ => trivial)
      (fun pid member env results env' grown call =>
        ⟨keep pid member env results env' grown call, trivial, trivial⟩) (.refl p.env) calls).1
    refine (factor_safe (grown.bank.wf wf) ?_).bind fun _ _ => Safe.pure _
    have all : Performable (inferences given []) p.env := inferences_performable valid (by simp)
    exact (all.sub fun inf member => by simpa [inferences] using member).mono grown

theorem iteration_safe (structured : StoreInv initial p) {given : Clause}
    (held : p.store.find given.id = some given) (wf : p.env.bank.WellFormed)
    (valid : ∀ (k : Nat) (c : Clause), p.store.clauses[k]? = some c → c.ValidIn p.env.bank) :
    Safe (Prover.iteration runtime config fuel given p) := by
  have stored : ∀ {id : ClauseId} {c : Clause}, p.store.find id = some c →
      c.ValidIn p.env.bank :=
    fun found => by
      rcases structured.found found with ⟨k, _, _, _, entry⟩
      exact valid k _ entry
  rw [Prover.iteration]
  split
  · exact Safe.ok _
  have skips : Safe (p.shouldSkipGiven given) := by
    rw [Prover.shouldSkipGiven]
    split
    · exact Safe.pure _
    · exact Safe.of_ok (structured.forwardSubsumed_total given).choose_spec
  refine skips.bind fun skip _ => ?_
  cases skip with
  | true => exact Safe.pure _
  | false =>
      rcases structured.backward_total given with ⟨q, erased⟩
      rcases backward_ok erased with ⟨kept, rfl, sub, _⟩
      rw [if_neg Bool.false_ne_true, erased, bind_ok]
      -- the given clause and the partners left are stored, so every premise has valid ids
      have generates : Safe (Prover.generateNewClauses runtime config fuel
          { p with processed := kept } given) := by
        refine generateNewClauses_safe (p := { p with processed := kept }) wf (stored held)
          fun pid member => ?_
        rcases structured.processed pid (sub.subset member) with ⟨pc, found⟩
        exact ⟨pc, found, stored found⟩
      refine generates.bind fun out generated => ?_
      rcases generateNewClauses_calls generated with ⟨pcs, outs, entries, calls, news⟩
      have linked := structured.generation held entries calls
      rw [← news] at linked
      rcases processNewClauses_total runtime config (structured.begun held sub out.2) linked with
        ⟨after, process⟩
      refine (Safe.of_ok process).bind fun result _ => ?_
      rcases result with ⟨_ | id, q⟩
      · exact Safe.pure _
      · exact Safe.pure _

end Turns

section Runs

/-- The states of a run, each with the new clauses that are still to be processed:
the heads of the loop and the state it ends in, and within a turn those after the
pop, after backward subsumption, after the inferences and after each new clause. -/
inductive Passed (runtime : Runtime) (config : ProverConfig) (fuel : Nat) (start : Prover) :
    List Clause → Prover → Prop where
  | reached {n : Nat} {p : Prover} : Reached runtime config fuel start n p →
      Passed runtime config fuel start [] p
  | popped {n : Nat} {log : List (Inference × Option Clause)} {p : Prover} {given : Clause}
      {unprocessed : List Clause} : LoopHead runtime config fuel start n log p →
      p.hitResourceLimit config n = false →
      runtime.queue.pop config.comparator p.unprocessed = some (given, unprocessed) →
      Passed runtime config fuel start [] { p with unprocessed }
  | thinned {n : Nat} {log : List (Inference × Option Clause)} {p q : Prover} {given : Clause}
      {unprocessed : List Clause} : LoopHead runtime config fuel start n log p →
      p.hitResourceLimit config n = false →
      runtime.queue.pop config.comparator p.unprocessed = some (given, unprocessed) →
      given.isEmpty = false → Prover.shouldSkipGiven { p with unprocessed } given = .ok false →
      Prover.applyBackwardSubsumption { p with unprocessed } given = .ok q →
      Passed runtime config fuel start [] q
  | generated {n : Nat} {log : List (Inference × Option Clause)} {p q : Prover} {given : Clause}
      {unprocessed news : List Clause} {env : Env} : LoopHead runtime config fuel start n log p →
      p.hitResourceLimit config n = false →
      runtime.queue.pop config.comparator p.unprocessed = some (given, unprocessed) →
      given.isEmpty = false → Prover.shouldSkipGiven { p with unprocessed } given = .ok false →
      Prover.applyBackwardSubsumption { p with unprocessed } given = .ok q →
      q.generateNewClauses runtime config fuel given = .ok (news, env) →
      Passed runtime config fuel start news { q with env, processed := q.processed ++ [given.id] }
  | absorbed {nc : Clause} {rest : List Clause} {q q' : Prover} {derived : Option ClauseId} :
      Passed runtime config fuel start (nc :: rest) q →
      Prover.processNewClauses runtime config [nc] q = .ok (derived, q') →
      Passed runtime config fuel start rest q'

structure Prover.InBounds (p : Prover) (news : List Clause) : Prop where
  stored : ∀ c ∈ p.store.clauses, c.ValidIn p.env.bank
  waiting : ∀ c ∈ p.unprocessed, c.ValidIn p.env.bank
  pending : ∀ c ∈ news, c.ValidIn p.env.bank
  processed : ∀ id ∈ p.processed, ∃ c, p.store.getClause id = .ok c
  parents : ∀ c, c ∈ p.store.clauses ∨ c ∈ p.unprocessed ∨ c ∈ news →
    ∀ parent, parent = c.parent1 ∨ parent = c.parent2 →
      parent = kInvalidId ∨ ∃ c', p.store.getClause parent = .ok c'

variable {runtime : Runtime} {config : ProverConfig} {fuel : Nat} {initial : List Clause}
  {first : Env} {start : Prover}

variable (runtime config fuel initial first) in
/-- What all states of a run satisfy: a new clause was returned by a call on
stored clauses. -/
structure PassedInv (news : List Clause) (q : Prover) : Prop where
  store : StoreInv initial q
  run : RunInv runtime config fuel initial first q
  linked : ∀ nc ∈ news, nc.LinkedBelow q.store.size
  called : ∀ nc ∈ news, ∃ inf,
    Called runtime config fuel first q.env q.store q.store.size inf (some nc)

theorem PassedInv.idle {q : Prover} (store : StoreInv initial q)
    (run : RunInv runtime config fuel initial first q) :
    PassedInv runtime config fuel initial first [] q :=
  ⟨store, run, by simp, by simp⟩

theorem Reached.runInv (wf : first.bank.WellFormed) (structured : StoreInv initial start)
    (init : RunInv runtime config fuel initial first start) {n : Nat} {q : Prover}
    (reached : Reached runtime config fuel start n q) :
    StoreInv initial q ∧ RunInv runtime config fuel initial first q := by
  refine reached.invariant
    (fun q => StoreInv initial q ∧ RunInv runtime config fuel initial first q)
    ⟨structured, init⟩ ?_
  rintro iterations log p given unprocessed result p' calls _ popped _ iterated ⟨store, run⟩
  rcases store.pop popped with ⟨popStore, held⟩
  exact ⟨(popStore.iterated held iterated).1,
    ((run.pop unprocessed).iterated wf popStore held iterated).1⟩

theorem PassedInv.absorbed (wf : first.bank.WellFormed) {nc : Clause} {rest : List Clause}
    {q q' : Prover} {derived : Option ClauseId}
    (inv : PassedInv runtime config fuel initial first (nc :: rest) q)
    (run : Prover.processNewClauses runtime config [nc] q = .ok (derived, q')) :
    PassedInv runtime config fuel initial first rest q' := by
  have step : ∃ d, Absorbed runtime config nc q d q' := by
    rcases processNewClauses_cons run with
      ⟨id, last, absorbed, same⟩ | ⟨last, absorbed, done⟩
    · rcases Prod.mk.inj same with ⟨_, rfl⟩
      exact ⟨_, absorbed⟩
    · rcases Prod.mk.inj (Except.ok.inj done) with ⟨_, rfl⟩
      exact ⟨_, absorbed⟩
  rcases step with ⟨d, absorbed⟩
  rcases absorbed.frame with ⟨env, _, grows⟩
  rcases inv.called nc List.mem_cons_self with ⟨inf, new⟩
  constructor
  case store => exact inv.store.absorbed (inv.linked nc List.mem_cons_self) absorbed
  case run => exact inv.run.absorbed wf new (Nat.le_refl _) absorbed
  case linked =>
    exact fun c member => (inv.linked c (List.mem_cons_of_mem nc member)).mono grows.length_le
  case called =>
    intro c member
    rcases inv.called c (List.mem_cons_of_mem nc member) with ⟨inf, call⟩
    rw [env]
    exact ⟨inf, call.mono (.refl _) grows grows.length_le⟩

theorem Passed.invariant (wf : first.bank.WellFormed) (structured : StoreInv initial start)
    (init : RunInv runtime config fuel initial first start) {news : List Clause} {q : Prover}
    (passed : Passed runtime config fuel start news q) :
    PassedInv runtime config fuel initial first news q := by
  have taken : ∀ {n log} {p : Prover} {given unprocessed},
      LoopHead runtime config fuel start n log p →
      runtime.queue.pop config.comparator p.unprocessed = some (given, unprocessed) →
      StoreInv initial { p with unprocessed } ∧ p.store.find given.id = some given ∧
      RunInv runtime config fuel initial first { p with unprocessed } := by
    intro n log p given unprocessed head popped
    have inv := head.runInv wf structured init
    rcases (head.storeInv structured).pop popped with ⟨popStore, held⟩
    exact ⟨popStore, held, inv.grows, inv.valid, inv.origin⟩
  -- a turn starts from a loop head, whose invariants are known; inside it only the
  -- absorbing of a new clause repeats
  induction passed with
  | reached at_n =>
      rcases at_n.runInv wf structured init with ⟨store, run⟩
      exact .idle store run
  | popped head _ popped =>
      rcases taken head popped with ⟨store, _, run⟩
      exact .idle store run
  | thinned head _ popped _ _ erased =>
      rcases taken head popped with ⟨store, _, run⟩
      rcases backward_ok erased with ⟨kept, rfl, sub, _⟩
      refine .idle ⟨store.ids, store.queued, fun pid member => ?_, store.linked⟩
        ⟨run.grows, run.valid, run.origin⟩
      exact store.processed pid (sub.subset member)
  | @generated _ _ p _ given unprocessed news env head _ popped _ _ erased generate =>
      rcases taken head popped with ⟨store, held, run⟩
      rcases backward_ok erased with ⟨kept, rfl, sub, _⟩
      rcases generateNewClauses_calls generate with ⟨pcs, outs, entries, calls, rfl⟩
      rcases run.generation wf store held entries calls with ⟨grown, made⟩
      constructor
      case store => exact store.begun held sub env
      case run =>
        exact ⟨run.grows.trans grown, fun k c found =>
          (run.valid k c found).mono grown.bank.grows,
          fun k c found => (run.origin k c found).mono grown List.prefix_rfl⟩
      case linked => exact store.generation held entries calls
      case called =>
        intro nc member
        rcases forall₂_mem_right made (List.reduceOption_mem_iff.mp member) with
          ⟨inf, _, call⟩
        exact ⟨inf, call⟩
  | absorbed _ run ih => exact ih.absorbed wf run

theorem PassedInv.inBounds (wf : first.bank.WellFormed) (inputs : ∀ c ∈ initial, c.IsInput)
    {news : List Clause} {q : Prover} (inv : PassedInv runtime config fuel initial first news q) :
    q.InBounds news := by
  have waits : ∀ c ∈ q.unprocessed, ∃ k : Nat, q.store.clauses[k]? = some c := by
    intro c member
    rcases inv.store.found (inv.store.queued c member) with ⟨k, _, _, _, entry⟩
    exact ⟨k, entry⟩
  have linked : ∀ c : Clause, c.LinkedBelow q.store.size → ∀ parent, parent = c.parent1 ∨
      parent = c.parent2 → parent = kInvalidId ∨ ∃ c', q.store.getClause parent = .ok c' := by
    intro c links parent isParent
    rcases links parent isParent with missing | ⟨j, below, rfl⟩
    · exact Or.inl missing
    · have found : q.store.find (some j) = some q.store.clauses[j] :=
        List.getElem?_eq_getElem below
      exact Or.inr ⟨_, ClauseStore.getClause_ok.mpr found⟩
  have storedParents : ∀ (k : Nat) c, q.store.clauses[k]? = some c →
      c.LinkedBelow q.store.size := by
    intro k c entry
    rcases inv.store.linked k c entry with ⟨c0, member, same⟩ | links
    · -- an input has no parents
      rw [same]
      rintro parent (rfl | rfl)
      · exact Or.inl (inputs c0 member).parent1
      · exact Or.inl (inputs c0 member).parent2
    · exact links.mono (Nat.le_of_lt (List.getElem?_eq_some_iff.mp entry).1)
  constructor
  case stored =>
    intro c member
    rcases List.getElem?_of_mem member with ⟨k, entry⟩
    exact inv.run.valid k c entry
  case waiting =>
    intro c member
    rcases waits c member with ⟨k, entry⟩
    exact inv.run.valid k c entry
  case pending =>
    intro c member
    rcases inv.called c member with ⟨inf, call⟩
    exact call.valid wf
  case processed =>
    intro id member
    exact inv.store.read member
  case parents =>
    rintro c (member | member | member)
    · rcases List.getElem?_of_mem member with ⟨k, entry⟩
      exact linked c (storedParents k c entry)
    · rcases waits c member with ⟨k, entry⟩
      exact linked c (storedParents k c entry)
    · exact linked c (inv.linked c member)

theorem proveLoop_safe (wf : first.bank.WellFormed) (structured : StoreInv initial start)
    (init : RunInv runtime config fuel initial first start) (turns : Nat) {iterations : Nat}
    {log : List (Inference × Option Clause)} {p : Prover}
    (head : LoopHead runtime config fuel start iterations log p) :
    Safe (Prover.proveLoop runtime config fuel turns iterations p) := by
  induction turns generalizing iterations log p with
  | zero => exact Safe.outOfFuel
  | succ turns ih =>
      rw [Prover.proveLoop]
      cases popped : runtime.queue.pop config.comparator p.unprocessed with
      | none => exact Safe.ok _
      | some taken =>
          rcases taken with ⟨given, unprocessed⟩
          cases limit : p.hitResourceLimit config iterations with
          | true => exact Safe.ok _
          | false =>
              have inv := head.runInv wf structured init
              rcases (head.storeInv structured).pop popped with ⟨popStore, held⟩
              refine Safe.bind (iteration_safe popStore held (inv.grows.bank.wf wf) inv.valid) ?_
              rintro ⟨_ | result, next⟩ run
              · rcases iteration_cases run with ⟨calls, iterated⟩
                exact ih (.turn head popped limit run iterated)
              · exact Safe.pure _

/-- A run on parsed input keeps every id in bounds, in each state it passes and in
each inference it makes, and no read of the bank, the store or a clause fails. -/
theorem prove_inBounds (runtime : Runtime) (config : ProverConfig) {input : Text}
    {clauses : List Clause} {env : Env} (read : readInput input = .ok (clauses, env)) {p : Prover}
    (added : Prover.addClauses runtime config clauses { env } = .ok p) (fuel : Nat) :
    (∀ news q, Passed runtime config fuel p news q → q.InBounds news) ∧
    (∀ inf e, CallMade runtime config p inf e → inf.InBounds runtime config e) ∧
    Prover.prove runtime config fuel p ≠ .error .outOfBounds := by
  have ready := (readInput_ready read).1
  have structured := (StoreInv.init added).1
  have init : ∀ fuel, RunInv runtime config fuel clauses env p := fun _ =>
    RunInv.init ready.valid added
  refine ⟨fun news q passed => ?_, fun inf e call => ?_, ?_⟩
  · exact (passed.invariant ready.wf structured (init fuel)).inBounds ready.wf ready.inputs
  · rcases call.ready ready.wf structured init with ⟨_, wf, valid, inRange⟩
    exact Inference.inBounds runtime config wf valid inRange
  · exact (proveLoop_safe ready.wf structured (init fuel) fuel .start).bind fun _ _ => Safe.pure _

/-- The state in which a run stops, with the clauses that it has derived. -/
theorem prove_inBounds_sample : ∃ (clauses : List Clause) (env : Env) (p p' : Prover),
    readInput flatInput = .ok (clauses, env) ∧
    Prover.addClauses .plain {} clauses { env } = .ok p ∧
    Prover.prove .plain {} 50 p = .ok (.kSaturation, p') ∧
    clauses.length < p'.store.size ∧ p'.InBounds [] := by
  have answer : (fun out => (out.1, out.2.store.size)) <$> proveInput .plain {} 50 flatInput =
      .ok (.kSaturation, 13) := by decide +kernel
  have three : (fun out => out.1.length) <$> readInput flatInput = .ok 3 := by decide +kernel
  rcases map_ok_iff.mp answer with ⟨⟨result, p'⟩, run, known⟩
  rcases Prod.mk.inj known with ⟨rfl, grown⟩
  rcases proveInput_ok.mp run with ⟨clauses, env, p, read, added, proved⟩
  rcases map_ok_iff.mp three with ⟨_, read', count⟩
  rcases Except.ok.inj (read.symm.trans read') with rfl
  rcases prove_reached proved with ⟨n, last⟩
  have states := (prove_inBounds .plain {} read added 50).1
  exact ⟨clauses, env, p, p', read, added, proved, by simp only [count, grown]; decide,
    states [] p' (.reached last)⟩

end Runs

end AtpEngine
