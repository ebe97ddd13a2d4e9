import AtpEngine.Completeness
import AtpEngine.Interruption

/-!
Histories of calls on one prover: clauses are added and `prove` is called, in any
order and any number of times. The clauses that are still active mean the same as
all clauses added so far, whatever was deleted as redundant, and each verdict is
about these. A kTheorem drops new clauses, so saturation is accounted for only up
to the first one.
-/
namespace AtpEngine

open Fuelled ClauseLogic

universe u

section Histories

variable (runtime : Runtime) (config : ProverConfig) (first : Env)

/-- The provers of a client, with the clauses it has added and the verdicts it got. -/
inductive History : List Clause → List ProverResult → Prover → Prop where
  | fresh : History [] [] { env := first }
  | added {given clauses : List Clause} {results : List ProverResult} {p p' : Prover} :
      History given results p → (∀ c ∈ clauses, c.ValidIn p.env.bank) →
      Prover.addClauses runtime config clauses p = .ok p' → History (given ++ clauses) results p'
  | proved {given : List Clause} {results : List ProverResult} {fuel : Nat} {result : ProverResult}
      {p p' : Prover} : History given results p →
      Prover.prove runtime config fuel p = .ok (result, p') →
      History given (results ++ [result]) p'

/-- The clauses the prover still works with, the derived empty clause included. -/
def Prover.active (p : Prover) : Set Clause :=
  {c | c ∈ p.unprocessed ∨ (∃ pid ∈ p.processed, p.store.find pid = some c) ∨
    ∃ id, p.getEmptyClauseId = some id ∧ p.store.find id = some c}

/-- What holds between the calls, for a log of the inferences made so far. -/
structure HistoryInv (fuel : Nat) (log : List (Inference × Option Clause)) (given : List Clause)
    (results : List ProverResult) (p : Prover) : Prop where
  structured : StoreInv given p
  run : RunInv runtime config fuel given first p
  called : ∀ call ∈ log,
    Called runtime config fuel first p.env p.store p.store.size call.1 call.2
  kept : ∀ c0 ∈ given, ∃ c ∈ p.store.clauses, c.literals = c0.literals
  refuted : .kTheorem ∈ results → EmptyStored p
  closed : .kTheorem ∉ results → ClosedInv log p

end Histories

section Budgets

variable {runtime : Runtime} {config : ProverConfig} {fuel large : Nat} {first : Env}
  {initial : List Clause}

theorem Called.more {last : Env} {store : ClauseStore} {bound : Nat} {inf : Inference}
    {out : Option Clause} (call : Called runtime config fuel first last store bound inf out)
    (le : fuel ≤ large) : Called runtime config large first last store bound inf out := by
  rcases call with ⟨inRange, premises, before, after, run⟩
  exact .made inRange premises before after
    ((Persists.le (fun fuel => perform_persists runtime.order config.uconfig fuel inf _) le).answer
      run)

theorem RunInv.more {initial' : List Clause} {p : Prover}
    (inv : RunInv runtime config fuel initial first p) (le : fuel ≤ large)
    (sub : initial ⊆ initial') :
    RunInv runtime config large initial' first p := by
  refine ⟨inv.grows, inv.valid, fun k c found => ?_⟩
  cases inv.origin k c found with
  | initial member same => exact .initial (sub member) same
  | derived call same => exact .derived (call.more le) same

end Budgets

section Steps

variable {runtime : Runtime} {config : ProverConfig} {fuel : Nat} {first : Env}
  {log : List (Inference × Option Clause)} {given : List Clause} {results : List ProverResult}
  {p p' : Prover}

theorem EmptyStored.grown (empty : EmptyStored p) (same : p'.emptyClauseId = p.emptyClauseId)
    (grows : p.store.clauses <+: p'.store.clauses) : EmptyStored p' := by
  rcases empty with ⟨id, c, isId, found, literals⟩
  exact ⟨id, c, same.trans isId, ClauseStore.find_prefix grows found, literals⟩

theorem processNewClauses_emptyClauseId {news : List Clause} {after : Option ClauseId × Prover}
    (run : Prover.processNewClauses runtime config news p = .ok after) :
    after.2.emptyClauseId = p.emptyClauseId := by
  refine (processNewClauses_rule (fun q => q.emptyClauseId = p.emptyClauseId) (fun _ _ => True)
    (fun nc _ q d q' same absorbed => ⟨?_, trivial, fun _ h => h⟩) rfl run).1
  cases absorbed <;> exact same

theorem Iterated.emptyClauseId {c : Clause} {calls : List (Inference × Option Clause)}
    (iterated : Iterated runtime config fuel c p (none, p') calls) :
    p'.emptyClauseId = p.emptyClauseId := by
  rcases iterated.continues with ⟨rfl, _, _⟩ | ⟨_, _, _, _, _, _, process, _⟩
  · rfl
  · exact processNewClauses_emptyClauseId process

theorem LoopHead.emptyClauseId {start : Prover} {n : Nat}
    (head : LoopHead runtime config fuel start n log p) : p.emptyClauseId = start.emptyClauseId :=
  head.invariant (fun p => p.emptyClauseId = start.emptyClauseId) rfl
    fun _ _ _ _ _ same _ iterated => iterated.emptyClauseId.trans same

theorem StoreInv.find_before {initial : List Clause} (inv : StoreInv initial p)
    {store : ClauseStore} (grows : p.store.clauses <+: store.clauses) {pid : ClauseId}
    (member : pid ∈ p.processed) {c : Clause} (found : store.find pid = some c) :
    p.store.find pid = some c := by
  rcases inv.processed pid member with ⟨c', found'⟩
  rwa [Option.some.inj (found.symm.trans (ClauseStore.find_prefix grows found'))]

theorem ClosedInv.added {clauses : List Clause} (inv : ClosedInv log p)
    (structured : StoreInv given p) (run : Prover.addClauses runtime config clauses p = .ok p') :
    ClosedInv log p' := by
  rcases addClauses_spec runtime config clauses p with
    ⟨q, run', env, processed, _, store, queue⟩
  rcases Except.ok.inj (run.symm.trans run') with rfl
  have grows : p.store.clauses <+: p'.store.clauses := store ▸ List.prefix_append _ _
  have find : ∀ {pid c}, pid ∈ p'.processed → p'.store.find pid = some c →
      pid ∈ p.processed ∧ p.store.find pid = some c := fun member found =>
    have old := processed ▸ member
    ⟨old, structured.find_before grows old found⟩
  refine ⟨fun c member => ?_, fun inf r logged notTautology => ?_, ?_, ?_, ?_⟩
  · rw [store] at member
    rcases List.mem_append.mp member with old | new
    · exact (inv.accounted c old).mono
        (fun d waits => queue.mem_iff.mpr (List.mem_append_left _ waits)) processed grows
    · exact Or.inr (Or.inl (queue.mem_iff.mpr (List.mem_append_right _ new)))
  · rcases inv.returned inf r logged notTautology with ⟨c, stored, same⟩
    exact ⟨c, grows.subset stored, same⟩
  · intro i hi j hj apart ci cj atI atJ
    rcases find hi atI with ⟨oldI, atI⟩
    rcases find hj atJ with ⟨oldJ, atJ⟩
    exact inv.resolved i oldI j oldJ apart ci cj atI atJ
  · intro i hi c atI
    rcases find hi atI with ⟨oldI, atI⟩
    exact inv.factored i oldI c atI
  · intro i hi
    rcases inv.nonempty i (processed ▸ hi) with ⟨c, found, nonempty⟩
    exact ⟨c, ClauseStore.find_prefix grows found, nonempty⟩

theorem ClosedInv.turned {calls : List (Inference × Option Clause)} {n : Nat}
    (inv : ClosedInv log p) (structured : StoreInv given p)
    (head : LoopHead runtime config fuel p n calls p') :
    ClosedInv (log ++ calls) p' := by
  have accounts := head.accounts structured
  have compared : p'.Compared p.processed calls := head.compared structured
    ⟨fun i hi j hj _ new => absurd hj (new.resolve_left fun h => h hi),
      fun i hi new => absurd hi new, inv.nonempty⟩
  refine ⟨fun c member => ?_, fun inf r logged notTautology => ?_, ?_, ?_, compared.nonempty⟩
  · exact (accounts.stored c member).elim (fun old => accounts.kept c (inv.accounted c old)) id
  · rcases List.mem_append.mp logged with old | new
    · rcases inv.returned inf r old notTautology with ⟨c, stored, same⟩
      exact ⟨c, accounts.grows.subset stored, same⟩
    · rcases accounts.returned inf r new notTautology with ⟨c, stored, same, _⟩
      exact ⟨c, stored, same⟩
  · intro i hi j hj apart ci cj atI atJ a b pair
    by_cases old : i ∈ p.processed ∧ j ∈ p.processed
    · rcases inv.resolved i old.1 j old.2 apart ci cj
        (structured.find_before accounts.grows old.1 atI)
        (structured.find_before accounts.grows old.2 atJ) a b pair with ⟨out, logged⟩
      exact ⟨out, List.mem_append_left _ logged⟩
    · rcases compared.resolved i hi j hj apart (not_and_or.mp old) ci cj atI atJ a b pair with
        ⟨out, logged⟩
      exact ⟨out, List.mem_append_right _ logged⟩
  · intro i hi c atI a b pair
    by_cases old : i ∈ p.processed
    · rcases inv.factored i old c (structured.find_before accounts.grows old atI) a b pair with
        ⟨out, logged⟩
      exact ⟨out, List.mem_append_left _ logged⟩
    · rcases compared.factored i hi old c atI a b pair with ⟨out, logged⟩
      exact ⟨out, List.mem_append_right _ logged⟩

theorem LoopHead.env_grows {start : Prover} {n : Nat} (wf : first.bank.WellFormed)
    (structured : StoreInv given start) (init : RunInv runtime config fuel given first start)
    (head : LoopHead runtime config fuel start n log p) : start.env.Grows p.env := by
  induction head with
  | start => exact .refl _
  | @turn _ _ _ p _ _ unprocessed before popped _ _ iterated ih =>
      have inv := before.runInv wf structured init
      rcases (before.storeInv structured).pop popped with ⟨popStore, held⟩
      exact ih.trans ((inv.pop unprocessed).iterated wf popStore held iterated).2.1

theorem HistoryInv.added {clauses : List Clause}
    (inv : HistoryInv runtime config first fuel log given results p)
    (valid : ∀ c ∈ clauses, c.ValidIn p.env.bank)
    (run : Prover.addClauses runtime config clauses p = .ok p') :
    HistoryInv runtime config first fuel log (given ++ clauses) results p' := by
  rcases addClauses_spec runtime config clauses p with
    ⟨q, run', env, _, emptyClauseId, store, _⟩
  rcases Except.ok.inj (run.symm.trans run') with rfl
  have grows : p.store.clauses <+: p'.store.clauses := store ▸ List.prefix_append _ _
  have same : p.env.Grows p'.env := by rw [env]; exact .refl _
  have old := inv.run.more (Nat.le_refl fuel) (List.subset_append_left given clauses)
  have source : ∀ (k : Nat) (c : Clause), p'.store.clauses[k]? = some c →
      p.store.clauses[k]? = some c ∨
      ∃ c0 ∈ clauses, c = { c0 with id := c.id, depth := c.depth } := by
    intro k c found
    rw [store] at found
    by_cases inside : k < p.store.clauses.length
    · exact Or.inl (by rwa [List.getElem?_append_left inside] at found)
    · rw [List.getElem?_append_right (Nat.le_of_not_lt inside)] at found
      exact Or.inr (mem_storedFrom (List.mem_of_getElem? found))
  constructor
  case structured => exact inv.structured.added run
  case run =>
    refine ⟨old.grows.trans same, fun k c found => ?_, fun k c found => ?_⟩
    · rcases source k c found with before | ⟨c0, member, isNew⟩
      · rw [env]
        exact old.valid k c before
      · rw [env, isNew]
        exact valid c0 member
    · rcases source k c found with before | ⟨c0, member, isNew⟩
      · exact (old.origin k c before).mono same grows
      · exact .initial (List.mem_append_right _ member) isNew
  case called => exact fun call logged => (inv.called call logged).mono same grows grows.length_le
  case kept =>
    intro c0 member
    rcases List.mem_append.mp member with before | new
    · rcases inv.kept c0 before with ⟨c, stored, literals⟩
      exact ⟨c, grows.subset stored, literals⟩
    · rcases storedFrom_of_mem new p.store.size with ⟨c, stored, literals⟩
      exact ⟨c, by rw [store]; exact List.mem_append_right _ stored, literals⟩
  case refuted => exact fun answered => (inv.refuted answered).grown emptyClauseId grows
  case closed => exact fun open_ => (inv.closed open_).added inv.structured run

theorem HistoryInv.proved {result : ProverResult} (wf : first.bank.WellFormed)
    (inv : HistoryInv runtime config first fuel log given results p)
    (run : Prover.prove runtime config fuel p = .ok (result, p')) :
    ∃ log', HistoryInv runtime config first fuel log' given (results ++ [result]) p' := by
  rcases prove_returns run with ⟨last, calls, returns⟩
  rcases returns.storeInv inv.structured with ⟨structured, empty⟩
  have runInv := returns.runInv wf inv.structured inv.run
  -- a call that gives another verdict leaves the prover at a head of its loop
  have stops : ∀ {last calls}, LoopHead runtime config fuel p last calls p' →
      result ≠ .kTheorem →
      HistoryInv runtime config first fuel (log ++ calls) given (results ++ [result]) p' := by
    intro last calls head verdict
    have grows := head.store_grows inv.structured
    have called := head.called wf inv.structured inv.run
    have answered : .kTheorem ∈ results ++ [result] ↔ .kTheorem ∈ results := by
      simp [Ne.symm verdict]
    constructor
    case structured => exact structured
    case run => exact runInv
    case called =>
      intro call logged
      rcases List.mem_append.mp logged with old | new
      · exact (inv.called call old).mono (head.env_grows wf inv.structured inv.run) grows
          grows.length_le
      · exact called call new
    case kept =>
      intro c0 member
      rcases inv.kept c0 member with ⟨c, stored, literals⟩
      exact ⟨c, grows.subset stored, literals⟩
    case refuted => exact fun h => (inv.refuted (answered.mp h)).grown head.emptyClauseId grows
    case closed => exact fun h =>
      (inv.closed fun h' => h (answered.mpr h')).turned inv.structured head
  cases returns with
  | saturation head _ => exact ⟨_, stops head (by simp)⟩
  | timeout head _ _ => exact ⟨_, stops head (by simp)⟩
  | result head popped within iterated =>
      rcases iterated.theorem_of_some with rfl
      have grows := (head.store_grows inv.structured).trans
        ((((head.storeInv inv.structured).pop popped).1.iterated
          ((head.storeInv inv.structured).pop popped).2 iterated).2.1)
      refine ⟨[], structured, runInv, by simp, fun c0 member => ?_, fun _ => empty rfl,
        fun h => absurd (List.mem_append_right _ (List.mem_singleton_self _)) h⟩
      rcases inv.kept c0 member with ⟨c, stored, literals⟩
      exact ⟨c, grows.subset stored, literals⟩

theorem HistoryInv.more {large : Nat}
    (inv : HistoryInv runtime config first fuel log given results p) (le : fuel ≤ large) :
    HistoryInv runtime config first large log given results p :=
  ⟨inv.structured, inv.run.more le (List.Subset.refl _), fun call logged =>
    (inv.called call logged).more le, inv.kept, inv.refuted, inv.closed⟩

/-- Every history has its log, and one budget with which all its calls answer. -/
theorem History.inv (wf : first.bank.WellFormed)
    (history : History runtime config first given results p) :
    ∃ fuel log, HistoryInv runtime config first fuel log given results p := by
  induction history with
  | fresh =>
      refine ⟨0, [], .fresh first, ⟨.refl first, by simp, by simp⟩, by simp, by simp, by simp,
        fun _ => ?_⟩
      constructor <;> simp
  | added _ valid run ih =>
      rcases ih with ⟨fuel, log, inv⟩
      exact ⟨fuel, log, inv.added valid run⟩
  | @proved _ _ fuel _ _ _ _ run ih =>
      rcases ih with ⟨before, log, inv⟩
      have run' :=
        (Persists.le (fun fuel => prove_persists fuel _) (Nat.le_max_right before fuel)).answer run
      exact ⟨max before fuel, (inv.more (Nat.le_max_left before fuel)).proved wf run'⟩

end Steps

section Meaning

variable {runtime : Runtime} {config : ProverConfig} {fuel : Nat} {first : Env}
  {log : List (Inference × Option Clause)} {given : List Clause} {results : List ProverResult}
  {p p' : Prover} {D : Type u} {I : Interpretation Nat D}

theorem RunInv.models (wf : first.bank.WellFormed) (small : first.bank.ArityBounded)
    (solver : Solver config.uconfig I.func) (inv : RunInv runtime config fuel given first p)
    (models : ∀ c0 ∈ given, I.Models (p.env.bank.read c0.literals)) (k : Nat) {c : Clause}
    (found : p.store.clauses[k]? = some c) : I.Models (p.env.bank.read c.literals) :=
  inv.rule wf models (fun before wfEnv valid inRange premises run =>
    perform_sound wfEnv (before.bank.small small) (Or.inl solver) valid inRange premises run)
      k found

theorem RunInv.readAll (wf : first.bank.WellFormed) (inv : RunInv runtime config fuel given first p)
    {clauses : List Clause} (valid : ∀ c ∈ clauses, c.ValidIn first.bank) :
    p.env.bank.readAll {c | c ∈ clauses} = first.bank.readAll {c | c ∈ clauses} := by
  have grown := inv.grows.bank
  have reads : ∀ c ∈ clauses, p.env.bank.read c.literals = first.bank.read c.literals :=
    fun c member => TermBank.read_extends wf (grown.wf wf) grown.grows (valid c member)
  ext lits
  constructor <;> rintro ⟨c, member, rfl⟩
  · exact ⟨c, member, reads c member⟩
  · exact ⟨c, member, (reads c member).symm⟩

theorem subsumes_models {bank : TermBank} {general specific : Clause}
    (hit : subsumes general specific = true) (models : I.Models (bank.read general.literals)) :
    I.Models (bank.read specific.literals) := by
  intro assign
  rcases models assign with ⟨lit, member, holds⟩
  exact ⟨lit, TermBank.read_subset bank (subsumes_iff.mp hit).2 member, holds⟩

theorem Prover.Accounted.follows {c : Clause} (accounted : p.Accounted c)
    (models : ∀ lits ∈ p.env.bank.readAll p.active, I.Models lits) :
    I.Models (p.env.bank.read c.literals) := by
  rcases accounted with tautology | waiting | ⟨pid, member, pc, found, hit⟩
  · exact fun assign => tautology_holds (isTautology_read tautology p.env.bank) _
  · exact models _ ⟨c, Or.inl waiting, rfl⟩
  · exact subsumes_models hit (models _ ⟨pc, Or.inr (Or.inl ⟨pid, member, found⟩), rfl⟩)

theorem EmptyStored.refutes [Nonempty D] (empty : EmptyStored p) :
    ¬ ∀ lits ∈ p.env.bank.readAll p.active, I.Models lits := by
  rcases empty with ⟨id, c, isId, found, literals⟩
  intro models
  have holds := models _ ⟨c, Or.inr (Or.inr ⟨id, isId, found⟩), rfl⟩
  rw [literals] at holds
  exact I.not_models_nil holds

theorem HistoryInv.unsatisfiable (wf : first.bank.WellFormed) (small : first.bank.ArityBounded)
    (enabled : config.enableOccursCheck = true)
    (inv : HistoryInv runtime config first fuel log given results p)
    (answered : .kTheorem ∈ results) :
    ¬ Satisfiable.{u} (p.env.bank.readAll {c | c ∈ given}) := by
  rintro ⟨D, _, I, models⟩
  rcases inv.refuted answered with ⟨id, c, _, found, literals⟩
  rcases ClauseStore.find_iff.mp found with ⟨k, _, entry⟩
  have holds :=
    inv.run.models wf small (Or.inl enabled) (fun c0 member => models _ ⟨c0, member, rfl⟩) k
    entry
  rw [literals] at holds
  exact I.not_models_nil holds

/-- A saturated search has a model in every algebra where the unifier misses nothing. -/
theorem HistoryInv.modelled {D : Type u} {func : Nat → List D → D}
    (complete : CompleteIn config.uconfig func) (wf : first.bank.WellFormed) (fresh : first.Fresh)
    (inv : HistoryInv runtime config first fuel log given results p)
    (unanswered : .kTheorem ∉ results) (done : p.unprocessed = []) :
    ∃ truth : D → Prop, ∀ lits ∈ p.env.bank.readAll {c | c ∈ given},
      Interpretation.Models ⟨func, truth⟩ lits := by
  have closed := (inv.closed unanswered).closed
  rcases saturated_model (closed.saturated complete wf fresh done inv.called) with
    ⟨truth, holds⟩
  refine ⟨truth, ?_⟩
  rintro _ ⟨c0, member, rfl⟩
  rcases inv.kept c0 member with ⟨c, stored, literals⟩
  rw [← literals]
  exact (closed.accounted c stored).models done holds

theorem HistoryInv.satisfiable (wf : first.bank.WellFormed) (fresh : first.Fresh)
    (inv : HistoryInv runtime config first fuel log given results p)
    (unanswered : .kTheorem ∉ results) (done : p.unprocessed = []) :
    Satisfiable.{0} (p.env.bank.readAll {c | c ∈ given}) := by
  rcases inv.modelled (node_completeIn (W := Nat) _) wf fresh unanswered done with
    ⟨truth, models⟩
  exact ⟨TermTree Nat Nat, ⟨.var 0⟩, ⟨.node, truth⟩, models⟩

variable (runtime config)

/-- Deleting redundant clauses loses nothing: between the calls and at every head of
the loop, the active clauses have the same models as all clauses added so far. -/
theorem active_equivalent (enabled : config.enableOccursCheck = true) (first : Env)
    (wf : first.bank.WellFormed) (small : first.bank.ArityBounded) {given : List Clause}
    {results : List ProverResult} {p : Prover}
    (history : History runtime config first given results p) {fuel n : Nat}
    {log : List (Inference × Option Clause)} {q : Prover}
    (head : LoopHead runtime config fuel p n log q) {D : Type u} [Nonempty D]
    (I : Interpretation Nat D) :
    (∀ lits ∈ q.env.bank.readAll q.active, I.Models lits) ↔
      ∀ lits ∈ q.env.bank.readAll {c | c ∈ given}, I.Models lits := by
  rcases history.inv wf with ⟨before, log', inv⟩
  rcases head.more (Nat.le_max_right before fuel) with ⟨calls, head⟩
  replace inv := inv.more (Nat.le_max_left before fuel)
  have structured := head.storeInv inv.structured
  have run := head.runInv wf inv.structured inv.run
  have grows := head.store_grows inv.structured
  constructor
  · rintro models _ ⟨c0, member, rfl⟩
    rcases inv.kept c0 member with ⟨c, stored, literals⟩
    by_cases answered : .kTheorem ∈ results
    · have empty := (inv.refuted answered).grown head.emptyClauseId grows
      exact absurd models empty.refutes
    · have closed := (inv.closed answered).turned inv.structured head
      rw [← literals]
      exact (closed.accounted c (grows.subset stored)).follows models
  · rintro models _ ⟨c, isActive, rfl⟩
    have stored : ∃ id, q.store.find id = some c := by
      rcases isActive with waiting | ⟨pid, _, found⟩ | ⟨id, _, found⟩
      · exact ⟨c.id, structured.queued c waiting⟩
      · exact ⟨pid, found⟩
      · exact ⟨id, found⟩
    rcases stored with ⟨id, found⟩
    rcases ClauseStore.find_iff.mp found with ⟨k, _, entry⟩
    exact run.models wf small (Or.inl enabled) (fun c0 member => models _ ⟨c0, member, rfl⟩)
      k entry

/-- After the run on `satisfiableInput`, three of the four stored clauses are active. -/
theorem active_equivalent_sample : ∃ (clauses : List Clause) (p : Prover), p.store.size = 4 ∧
    p.processed.length = 3 ∧ p.unprocessed = [] ∧ ∀ I : Interpretation Nat Nat,
      (∀ lits ∈ p.env.bank.readAll p.active, I.Models lits) ↔
        ∀ lits ∈ p.env.bank.readAll {c | c ∈ clauses}, I.Models lits := by
  have answer :
      (fun out => (out.2.store.size, out.2.processed.length, out.2.unprocessed.length)) <$>
      proveInput .plain { enableOccursCheck := true } 50 satisfiableInput = .ok (4, 3, 0) := by
    decide +kernel
  rcases map_ok_iff.mp answer with ⟨⟨_, p'⟩, run, sizes⟩
  rcases proveInput_ok.mp run with ⟨clauses, env, p, read, added, proved⟩
  rcases readInput_ready read with ⟨ready, small, _⟩
  have history : History .plain { enableOccursCheck := true } env clauses [_] p' :=
    .proved (.added .fresh ready.valid added) proved
  simp only [Prod.mk.injEq] at sizes
  exact ⟨clauses, p', sizes.1, sizes.2.1, List.length_eq_zero_iff.mp sizes.2.2,
    active_equivalent .plain { enableOccursCheck := true } rfl env ready.wf
      (small fun _ renders => renders.bounded (by decide +kernel)) history
      (LoopHead.start : LoopHead .plain _ 0 p' 0 [] p')⟩

/-- The verdicts of a history: kTheorem is always right about the clauses added so
far, and kSaturation is as long as no earlier call answered kTheorem. An arity that
`Term::arity` cuts off could refute too much, and a taken name join two variables. -/
theorem history_verdicts (first : Env) (wf : first.bank.WellFormed) {given : List Clause}
    {results : List ProverResult} {p p' : Prover}
    (history : History runtime config first given results p) {fuel : Nat} {result : ProverResult}
    (run : Prover.prove runtime config fuel p = .ok (result, p')) :
    (result = .kTheorem → config.enableOccursCheck = true → first.bank.ArityBounded →
      ¬ Satisfiable.{u} (p'.env.bank.readAll {c | c ∈ given})) ∧
    (result = .kSaturation → .kTheorem ∉ results → first.Fresh →
      Satisfiable.{0} (p'.env.bank.readAll {c | c ∈ given})) := by
  rcases (history.proved run).inv wf with ⟨budget, log, inv⟩
  constructor
  · rintro rfl enabled small
    exact inv.unsatisfiable wf small enabled (by simp)
  · rintro rfl unanswered fresh
    exact inv.satisfiable wf fresh (by simp [unanswered]) (saturation_done run)

theorem history_verdicts_sample : ∃ (clauses : List Clause) (p p' : Prover),
    History .plain {} p.env clauses [] p ∧
    Prover.prove .plain {} 50 p = .ok (.kSaturation, p') ∧
    Satisfiable.{0} (p'.env.bank.readAll {c | c ∈ clauses}) := by
  rcases satisfiable_saturates with ⟨clauses, env, p, p', read, fresh, added, proved⟩
  have ready := (readInput_ready read).1
  rcases StoreInv.init added with ⟨_, rfl, _⟩
  have history : History .plain {} p.env clauses [] p := .added .fresh ready.valid added
  exact ⟨clauses, p, p', history, proved, (history_verdicts.{0} .plain {} p.env ready.wf history
    proved).2 rfl (by simp) fresh⟩

end Meaning

end AtpEngine
