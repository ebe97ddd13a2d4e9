import AtpEngine.FunctionFree
import AtpEngine.MainProgram

/-!
Termination of the search. The limits bound the number of turns, and a turn
returns when each inference it makes does.
-/
namespace AtpEngine

open Fuelled Triangular

section Stores

variable {runtime : Runtime} {config : ProverConfig} {fuel : Nat} {initial : List Clause}
  {p : Prover}

theorem StoreInv.read (inv : StoreInv initial p) {pid : ClauseId} (member : pid ∈ p.processed) :
    ∃ pc, p.store.getClause pid = .ok pc := by
  rcases inv.processed pid member with ⟨pc, found⟩
  exact ⟨pc, ClauseStore.getClause_ok.mpr found⟩

theorem StoreInv.forwardSubsumed_total (inv : StoreInv initial p) (clause : Clause) :
    ∃ found, p.isForwardSubsumedByProcessed clause = .ok found :=
  anyM_total fun pid member => by
    rcases inv.read member with ⟨pc, read⟩
    exact ⟨subsumes pc clause, by rw [read]; rfl⟩

theorem StoreInv.backward_total (inv : StoreInv initial p) (given : Clause) :
    ∃ p', p.applyBackwardSubsumption given = .ok p' := by
  rcases eraseIf_total (l := p.processed) (p := fun pid => do
    let pc ← p.store.getClause pid
    pure (subsumes given pc)) (fun pid member => by
      rcases inv.read member with ⟨pc, read⟩
      exact ⟨subsumes given pc, by rw [read]; rfl⟩) with ⟨kept, erased⟩
  exact ⟨{ p with processed := kept }, by rw [Prover.applyBackwardSubsumption, erased]; rfl⟩

theorem StoreInv.holds (inv : StoreInv initial p) {ids : List ClauseId}
    (sub : ids ⊆ p.processed) : ∃ pcs, p.store.Holds ids pcs := by
  induction ids with
  | nil => exact ⟨[], .nil⟩
  | cons pid rest ih =>
      rcases inv.processed pid (sub List.mem_cons_self) with ⟨pc, found⟩
      rcases ih fun id member => sub (List.mem_cons_of_mem pid member) with ⟨pcs, held⟩
      exact ⟨pc :: pcs, .cons found held⟩

theorem parentDepth_total {store : ClauseStore} {parent : ClauseId}
    (linked : parent = kInvalidId ∨ ∃ j < store.size, parent = some j) :
    ∃ depth, Prover.parentDepth store parent = .ok depth := by
  rcases linked with rfl | ⟨j, below, rfl⟩
  · exact ⟨0, rfl⟩
  · have found : store.find (some j) = some store.clauses[j] := List.getElem?_eq_getElem below
    exact ⟨_, by rw [Prover.parentDepth, ClauseStore.getClause_ok.mpr found]; rfl⟩

theorem computeDepth_total {nc : Clause} (linked : nc.LinkedBelow p.store.size) :
    ∃ depth, p.computeDepth nc = .ok depth := by
  rcases parentDepth_total (linked nc.parent1 (Or.inl rfl)) with ⟨d1, first⟩
  rcases parentDepth_total (linked nc.parent2 (Or.inr rfl)) with ⟨d2, second⟩
  exact ⟨_, by rw [Prover.computeDepth, first, bind_ok, second]; rfl⟩

theorem processNewClauses_total (runtime : Runtime) (config : ProverConfig) {news : List Clause}
    (inv : StoreInv initial p) (linked : ∀ nc ∈ news, nc.LinkedBelow p.store.size) :
    ∃ after, Prover.processNewClauses runtime config news p = .ok after := by
  induction news generalizing p with
  | nil => exact ⟨_, rfl⟩
  | cons nc rest ih =>
      have own := linked nc List.mem_cons_self
      have others : ∀ {store : ClauseStore}, p.store.clauses <+: store.clauses →
          ∀ c ∈ rest, c.LinkedBelow store.size := fun grows c member =>
        (linked c (List.mem_cons_of_mem nc member)).mono grows.length_le
      rw [Prover.processNewClauses]
      split
      · exact ⟨_, rfl⟩
      split
      · exact ih inv (others List.prefix_rfl)
      rcases computeDepth_total own with ⟨depth, computed⟩
      have stored : StoreInv initial { p with store := (p.store.addClause { nc with depth }).2 } :=
        inv.store own
      have entry := p.store.addClause_new { nc with depth }
      have read : (p.store.addClause { nc with depth }).2.getClause
          (p.store.addClause { nc with depth }).1 = _ := ClauseStore.getClause_ok.mpr entry
      have grows : p.store.clauses <+: (p.store.addClause { nc with depth }).2.clauses :=
        List.prefix_append _ _
      rcases stored.forwardSubsumed_total { nc with depth, id := some p.store.size } with
        ⟨found, test⟩
      simp only [computed, bind_ok, read, test]
      cases found with
      | true => exact ih stored (others grows)
      | false => exact ih (stored.push entry) (others grows)

end Stores

section Calls

variable {runtime : Runtime} {config : ProverConfig} {start : Prover} {initial : List Clause}
  {first : Env} {inf : Inference} {env : Env}

theorem CallMade.stored (wf : first.bank.WellFormed) (structured : StoreInv initial start)
    (init : ∀ fuel, RunInv runtime config fuel initial first start)
    (call : CallMade runtime config start inf env) :
    ∃ fuel p, RunInv runtime config fuel initial first p ∧ p.env.Grows env ∧ inf.InRange ∧
      ∀ prem ∈ inf.premises, ∃ k : Nat, p.store.clauses[k]? = some prem := by
  rcases call with
    @⟨fuel, _, _, p, given, unprocessed, kept, pcs, head, popped, _, generates, visit⟩
  have inv := head.runInv wf structured (init fuel)
  rcases (head.storeInv structured).pop popped with ⟨popStore, givenHeld⟩
  have stored : ∀ inf ∈ inferences given pcs, ∀ prem ∈ inf.premises,
      ∃ k : Nat, p.store.clauses[k]? = some prem := by
    intro inf member prem isPrem
    rcases popStore.premises givenHeld generates.held member prem isPrem with ⟨k, _, _, entry⟩
    exact ⟨k, entry⟩
  have grown : p.env.Grows env := visit.invariant (fun e => p.env.Grows e)
    (fun inf e out e' visit grown run => by
      have wfE := grown.bank.wf (inv.grows.bank.wf wf)
      refine grown.trans (perform_performed wfE (fun prem isPrem => ?_) run).grows
      rcases stored inf visit.mem prem isPrem with ⟨k, entry⟩
      exact (inv.valid k prem entry).mono grown.bank.grows) (.refl _)
  exact ⟨fuel, p, inv, grown, (inferences_inRange visit.mem).1, stored inf visit.mem⟩

theorem CallMade.ready (wf : first.bank.WellFormed) (structured : StoreInv initial start)
    (init : ∀ fuel, RunInv runtime config fuel initial first start)
    (call : CallMade runtime config start inf env) :
    first.Grows env ∧ env.bank.WellFormed ∧ inf.ValidIn env.bank ∧ inf.InRange := by
  rcases call.stored wf structured init with ⟨fuel, p, inv, grown, inRange, stored⟩
  have grownAll := inv.grows.trans grown
  refine ⟨grownAll, grownAll.bank.wf wf, fun prem isPrem => ?_, inRange⟩
  rcases stored prem isPrem with ⟨k, entry⟩
  exact (inv.valid k prem entry).mono grown.bank.grows

theorem CallMade.safe_of_functionFree (wf : first.bank.WellFormed) (fresh : first.Fresh)
    (valid : ∀ c ∈ initial, c.ValidIn first.bank)
    (flat : ∀ c ∈ initial, FunctionFree (first.bank.read c.literals))
    (structured : StoreInv initial start)
    (init : ∀ fuel, RunInv runtime config fuel initial first start)
    (call : CallMade runtime config start inf env) :
    ¬ inf.ClosesCycle runtime.order config.uconfig env := by
  rcases call.ready wf structured init with ⟨grownAll, wfEnv, validInf, _⟩
  rcases call.stored wf structured init with ⟨fuel, p, inv, grown, _, stored⟩
  have wfP := inv.grows.bank.wf wf
  refine Inference.ClosesCycle.not_functionFree wfEnv (grownAll.fresh fresh) validInf ?_
  intro prem isPrem
  rcases stored prem isPrem with ⟨k, entry⟩
  rw [TermBank.read_extends wfP wfEnv grown.bank.grows (inv.valid k prem entry)]
  refine inv.rule wf (fun c0 member => ?_) (fun before wfE validE _ flat run =>
    perform_functionFree wfE (before.fresh fresh) validE flat run) k entry
  rw [TermBank.read_extends wf wfP inv.grows.bank.grows (valid c0 member)]
  exact flat c0 member

theorem CallMade.namesFree (wf : first.bank.WellFormed) (fresh : first.Fresh)
    (structured : StoreInv initial start)
    (init : ∀ fuel, RunInv runtime config fuel initial first start)
    (call : CallMade runtime config start inf env) : inf.NamesFree env := by
  have later : env.Fresh := (call.ready wf structured init).1.fresh fresh
  cases inf with
  | resolve c1 i c2 j => exact fun _ vars _ => later.namesFree vars.length
  | factor c i j => trivial

end Calls

section Turns

variable {runtime : Runtime} {config : ProverConfig} {initial : List Clause} {p : Prover}

theorem iteration_returns (runtime : Runtime) (config : ProverConfig) (inv : StoreInv initial p)
    {given : Clause} (held : p.store.find given.id = some given)
    (answers : ∀ kept pcs inf env, Generates p given kept pcs →
      (∀ᶠ fuel in Filter.atTop, Visited (Inference.perform runtime.order config.uconfig fuel)
      (inferences given pcs) p.env inf env) → ∃ out env',
      Returns (fun fuel => inf.perform runtime.order config.uconfig fuel env) (out, env')) :
    ∃ result p', Returns (fun fuel => Prover.iteration runtime config fuel given p)
      (result, p') := by
  simp only [Prover.iteration]
  split
  · exact ⟨_, _, .const _⟩
  next nonempty =>
    rw [Prover.shouldSkipGiven]
    split
    · exact ⟨none, p, .const _⟩
    next proper =>
    rcases inv.forwardSubsumed_total given with ⟨skip, test⟩
    simp only [test, bind_ok]
    cases skip with
    | true => exact ⟨none, p, .const _⟩
    | false =>
        rcases inv.backward_total given with ⟨q, erased⟩
        rcases backward_ok erased with ⟨kept, rfl, sub, clean, answered⟩
        rcases inv.holds sub.subset with ⟨pcs, entries⟩
        have generates : Generates p given kept pcs :=
          ⟨isEmpty_false nonempty, by simpa using proper, (forwardSubsumed_ok test).2 rfl,
            sub, clean, answered, entries⟩
        rcases mapAccum_returns_visited
          (f := fun fuel => Inference.perform runtime.order config.uconfig fuel) (fun _ => True)
          (l := inferences given pcs) (s := p.env)
          (fun inf env visit _ => by
            rcases answers kept pcs inf env generates visit with ⟨out, env', done⟩
            exact ⟨out, env', done, trivial⟩)
          trivial with ⟨outs, env', calls, _⟩
        rcases calls.exists with ⟨fuel, run⟩
        have begun := inv.begun held sub env'
        rcases processNewClauses_total runtime config begun
          (inv.generation held entries run) with ⟨⟨derived, p'⟩, process⟩
        have generation : Returns (fun fuel =>
            Prover.generateNewClauses runtime config fuel { p with processed := kept } given)
            (outs.reduceOption, env') := calls.mono fun fuel h =>
              generateNewClauses_of_calls entries h
        refine ⟨(afterNewClauses (derived, p')).1, (afterNewClauses (derived, p')).2, ?_⟩
        filter_upwards [generation] with fuel h
        simp only [Bool.false_eq_true, if_false, erased, h, process, bind_ok]
        cases derived <;> rfl

end Turns

section Runs

variable {runtime : Runtime} {config : ProverConfig} {initial : List Clause} {start : Prover}

/-- From a head of the loop on, the run ends within the iterations left. -/
theorem proveLoop_ends (structured : StoreInv initial start)
    (answers : ∀ inf env, CallMade runtime config start inf env → ∃ out env',
      Returns (fun fuel => inf.perform runtime.order config.uconfig fuel env) (out, env'))
    {iterations : Nat} {p : Prover} (within : iterations ≤ config.maxIterations)
    (head : ∀ᶠ fuel in Filter.atTop, ∃ log,
      LoopHead runtime config fuel start iterations log p) :
    ∃ result last p' turns, last ≤ config.maxIterations ∧
      ∀ᶠ fuel in Filter.atTop, ∀ more,
      Prover.proveLoop runtime config fuel (turns + more) iterations p =
        .ok (result, last, p') := by
  -- each turn that leaves the loop running uses up one iteration
  induction left : config.maxIterations - iterations using Nat.strong_induction_on
    generalizing iterations p with
  | _ left ih =>
    rcases head.exists with ⟨fuel, log, atHead⟩
    have inv := atHead.storeInv structured
    cases popped : runtime.queue.pop config.comparator p.unprocessed with
    | none =>
        refine ⟨.kSaturation, iterations, p, 1, within, .of_forall fun fuel more => ?_⟩
        rw [Nat.add_comm, Prover.proveLoop, popped]
    | some taken =>
        rcases taken with ⟨given, unprocessed⟩
        cases limit : p.hitResourceLimit config iterations with
        | true =>
            refine ⟨.kTimeout, iterations, p, 1, within, .of_forall fun fuel more => ?_⟩
            rw [Nat.add_comm, Prover.proveLoop, popped]
            exact if_pos limit
        | false =>
            have room : iterations < config.maxIterations := by
              simp only [Prover.hitResourceLimit, Bool.or_eq_false_iff,
                decide_eq_false_iff_not] at limit
              omega
            -- the turn returns, as each inference it calls for does
            rcases inv.pop popped with ⟨popStore, held⟩
            rcases iteration_returns runtime config popStore held
              (fun kept pcs inf env generates visit => by
                rcases (head.and visit).exists with ⟨fuel, ⟨log, atHead⟩, visit⟩
                exact answers inf env (.made atHead popped limit generates visit)) with
                  ⟨result, p', turn⟩
            have step : ∀ fuel, Prover.iteration runtime config fuel given
                { p with unprocessed } =
                .ok (result, p') → ∀ more,
                  Prover.proveLoop runtime config fuel (more + 1) iterations p =
                  result.elim (Prover.proveLoop runtime config fuel more (iterations + 1) p')
                    fun result => .ok (result, iterations + 1, p') := by
              intro fuel run more
              rw [Prover.proveLoop, popped]
              simp only [limit, Bool.false_eq_true, if_false, run, bind_ok]
              cases result <;> rfl
            cases result with
            | some result =>
                refine ⟨result, iterations + 1, p', 1, room, turn.mono fun fuel run more => ?_⟩
                rw [Nat.add_comm, step fuel run more, Option.elim]
            | none =>
                have next : ∀ᶠ fuel in Filter.atTop, ∃ log,
                    LoopHead runtime config fuel start (iterations + 1) log p' := by
                  filter_upwards [head, turn] with fuel h run
                  rcases h with ⟨log, atHead⟩
                  rcases iteration_cases run with ⟨calls, iterated⟩
                  exact ⟨_, .turn atHead popped limit run iterated⟩
                rcases ih (config.maxIterations - (iterations + 1)) (by omega) room next rfl with
                  ⟨result, last, q, turns, bound, done⟩
                refine ⟨result, last, q, turns + 1, bound, ?_⟩
                filter_upwards [turn, done] with fuel run h more
                rw [Nat.add_right_comm, step fuel run (turns + more)]
                exact h more

theorem search_ends (structured : StoreInv initial start)
    (answers : ∀ inf env, CallMade runtime config start inf env → ∃ out env',
      Returns (fun fuel => inf.perform runtime.order config.uconfig fuel env) (out, env')) :
    ∃ result iterations p', iterations ≤ config.maxIterations ∧
      Returns (fun fuel => Prover.proveLoop runtime config fuel fuel 0 start)
        (result, iterations, p') := by
  rcases proveLoop_ends structured answers (Nat.zero_le _)
    (.of_forall fun _ => ⟨[], .start⟩) with ⟨result, last, p', turns, bound, done⟩
  refine ⟨result, last, p', bound, ?_⟩
  filter_upwards [done, Filter.eventually_ge_atTop turns] with fuel h large
  have := h (fuel - turns)
  rwa [Nat.add_sub_cancel' large] at this

theorem prove_ends (structured : StoreInv initial start)
    (answers : ∀ inf env, CallMade runtime config start inf env → ∃ out env',
      Returns (fun fuel => inf.perform runtime.order config.uconfig fuel env) (out, env')) :
    ∃ result p', Returns (fun fuel => Prover.prove runtime config fuel start) (result, p') := by
  rcases search_ends structured answers with ⟨result, _, p', _, loop⟩
  exact ⟨result, p', loop.bind (.const _)⟩

theorem CallMade.returns {first : Env} (wf : first.bank.WellFormed)
    (valid : ∀ c ∈ initial, c.ValidIn first.bank)
    (added : Prover.addClauses runtime config initial { env := first } = .ok start)
    {inf : Inference} {env : Env} (call : CallMade runtime config start inf env)
    (names : inf.NamesFree env)
    (safe : config.enableOccursCheck = true ∨
      ¬ inf.ClosesCycle runtime.order config.uconfig env) :
    ∃ out env',
      Returns (fun fuel => inf.perform runtime.order config.uconfig fuel env) (out, env') := by
  rcases StoreInv.init added with ⟨structured, _⟩
  rcases call.ready wf structured (fun _ => RunInv.init valid added) with
    ⟨_, wfEnv, validInf, inRange⟩
  exact perform_returns wfEnv validInf inRange names safe

theorem fresh_search_returns (enabled : config.enableOccursCheck = true) {first : Env}
    (wf : first.bank.WellFormed) (valid : ∀ c ∈ initial, c.ValidIn first.bank)
    (fresh : first.Fresh)
    (added : Prover.addClauses runtime config initial { env := first } = .ok start) :
    ∃ result p', Returns (fun fuel => Prover.prove runtime config fuel start) (result, p') := by
  rcases StoreInv.init added with ⟨structured, _⟩
  exact prove_ends structured fun inf env call => call.returns wf valid added
    (call.namesFree wf fresh structured fun _ => RunInv.init valid added) (Or.inl enabled)

/-- The search returns: each inference it makes does, and the loop ends within
`max_iterations_` selections. The two conditions are that no fresh name is taken
and that no unification closes a cycle of bindings. -/
theorem search_returns (runtime : Runtime) (config : ProverConfig) (first : Env)
    (wf : first.bank.WellFormed) (initial : List Clause)
    (valid : ∀ c ∈ initial, c.ValidIn first.bank) {p : Prover}
    (added : Prover.addClauses runtime config initial { env := first } = .ok p)
    (names : ∀ inf env, CallMade runtime config p inf env → inf.NamesFree env)
    (safe : config.enableOccursCheck = true ∨ ∀ inf env, CallMade runtime config p inf env →
      ¬ inf.ClosesCycle runtime.order config.uconfig env) :
    (∀ inf env, CallMade runtime config p inf env → ∃ out env',
      Returns (fun fuel => inf.perform runtime.order config.uconfig fuel env) (out, env')) ∧
    ∃ result iterations p', iterations ≤ config.maxIterations ∧
      Returns (fun fuel => Prover.proveLoop runtime config fuel fuel 0 p)
      (result, iterations, p') ∧
      Returns (fun fuel => Prover.prove runtime config fuel p) (result, p') := by
  rcases StoreInv.init added with ⟨structured, _⟩
  have answers : ∀ inf env, CallMade runtime config p inf env → ∃ out env',
      Returns (fun fuel => inf.perform runtime.order config.uconfig fuel env) (out, env') :=
    fun inf env call => call.returns wf valid added (names inf env call)
      (safe.imp_right fun never => never inf env call)
  refine ⟨answers, ?_⟩
  rcases search_ends structured answers with ⟨result, last, p', bound, loop⟩
  exact ⟨result, last, p', bound, loop, loop.bind (.const _)⟩

/-- Names without a leading underscore and atoms without function symbols, as a test. -/
def isFunctionFree (read : List Clause × Env) : Bool :=
  (read.2.bank.symbols.infos.all fun info => info.name.head? != some '_') &&
    read.1.all fun c => c.literals.all fun lit => read.2.bank.flat lit.atom

theorem functionFree_of_test {input : Text} {clauses : List Clause} {env : Env}
    (read : readInput input = .ok (clauses, env))
    (test : isFunctionFree <$> readInput input = .ok true) :
    env.Fresh ∧ ∀ c ∈ clauses, FunctionFree (env.bank.read c.literals) := by
  rcases map_ok_iff.mp test with ⟨_, read', passed⟩
  rcases Except.ok.inj (read.symm.trans read') with rfl
  rcases (Bool.and_eq_true _ _).mp passed with ⟨noUnderscore, flat⟩
  have wf := (readInput_ready read).1.wf
  refine ⟨Env.fresh_of_noUnderscore wf.table noUnderscore, fun c member lit inside => ?_⟩
  rcases List.mem_map.mp inside with ⟨l, isLit, rfl⟩
  exact TermBank.flat_tree wf (List.all_eq_true.mp (List.all_eq_true.mp flat c member) l isLit)

def flatInput : Text :=
  "cnf(a,axiom,p(X)|q(X)). cnf(b,axiom,~p(a)). cnf(c,axiom,~q(Y)|r(Y)).".toList

theorem search_returns_sample : ∃ (clauses : List Clause) (env : Env) (p p' : Prover)
    (result : ProverResult) (iterations : Nat), readInput flatInput = .ok (clauses, env) ∧
    Prover.addClauses .plain {} clauses { env } = .ok p ∧ iterations ≤ 500000 ∧
    Returns (fun fuel => Prover.proveLoop .plain {} fuel fuel 0 p) (result, iterations, p') := by
  have test : isFunctionFree <$> readInput flatInput = .ok true := by decide +kernel
  rcases map_ok_iff.mp test with ⟨⟨clauses, env⟩, read, _⟩
  rcases functionFree_of_test read test with ⟨fresh, flat⟩
  have ready := (readInput_ready read).1
  rcases addClauses_spec .plain {} clauses { env } with ⟨p, added, _⟩
  rcases StoreInv.init added with ⟨structured, _⟩
  have init : ∀ fuel, RunInv .plain {} fuel clauses env p :=
    fun _ => RunInv.init ready.valid added
  rcases (search_returns .plain {} env ready.wf clauses ready.valid added
    (fun inf e call => call.namesFree ready.wf fresh structured init)
    (Or.inr fun inf e call => call.safe_of_functionFree ready.wf fresh ready.valid flat structured
      init)).2 with ⟨result, iterations, p', bound, loop, _⟩
  exact ⟨clauses, env, p, p', result, iterations, read, added, bound, loop⟩

end Runs

section Divergence

def cyclicInput : Text := "cnf(a,axiom,p(X,X)|p(Y,f(Y))).".toList

/-- The bank after reading `cyclicInput`: X, p(X,X), Y, f(Y) and p(Y,f(Y)). -/
def cyclicBank : TermBank where
  symbols := {
    infos :=
      [⟨['X'], .kVariable, 0, 0⟩, ⟨['p'], .kFunction, 2, 0⟩, ⟨['Y'], .kVariable, 0, 0⟩,
      ⟨['f'], .kFunction, 1, 0⟩]
    nameToId := [(['f'], 3), (['Y'], 2), (['p'], 1), (['X'], 0)] }
  terms := [⟨0, []⟩, ⟨1, [0, 0]⟩, ⟨2, []⟩, ⟨3, [2]⟩, ⟨1, [2, 3]⟩]
  termToId := [(⟨1, [2, 3]⟩, 4), (⟨3, [2]⟩, 3), (⟨2, []⟩, 2), (⟨1, [0, 0]⟩, 1),
    (⟨0, []⟩, 0)]

def cyclicClause : Clause := { literals := [⟨1, true⟩, ⟨4, true⟩] }

theorem cyclic_unify : unify cyclicBank {} 10 1 4 {} = .ok (true, ⟨[(2, 3), (0, 2)]⟩) := by
  decide +kernel

theorem cyclic_read : readInput cyclicInput = .ok ([cyclicClause], { bank := cyclicBank }) := by
  decide +kernel

/-- p(X,X) has no resolved form then, so the application cannot return. -/
theorem cyclic_factor_diverges {c : Clause} (literals : c.literals = cyclicClause.literals)
    (fuel : Nat) (out : Option Clause) (env' : Env) :
    factorPair {} fuel c 0 1 ⟨cyclicBank, 0⟩ ≠ .ok (out, env') := by
  intro run
  have ready := (readInput_ready cyclic_read).1
  have valid : c.ValidIn cyclicBank := fun lit member =>
    ready.valid cyclicClause List.mem_cons_self lit (literals ▸ member)
  have unifier : ∀ {fuel unified subst}, unify cyclicBank {} fuel 1 4 {} =
      .ok (unified, subst) → unified = true ∧ subst = ⟨[(2, 3), (0, 2)]⟩ := by
    intro fuel unified subst run
    have grows := fun fuel => unify_persists cyclicBank {} fuel 1 4 {}
    exact Prod.mk.inj ((Returns.of_persists grows run).unique (.of_persists grows cyclic_unify))
  cases factorPair_outcome ready.wf valid run with
  | opposite at_i at_j differ =>
      rw [literals] at at_i at_j
      rcases Option.some.inj at_i with rfl
      rcases Option.some.inj at_j with rfl
      exact differ rfl
  | samePolarity at_i at_j _ inferred =>
      rw [literals] at at_i at_j
      rcases Option.some.inj at_i with rfl
      rcases Option.some.inj at_j with rfl
      cases inferred with
      | fails unifies => cases (unifier unifies).1
      | succeeds unifies _ applied =>
          rcases (unifier unifies).2 with rfl
          have resolved := applied.applied
          rw [literals] at resolved
          rcases List.forall₂_cons_left_iff.mp resolved with ⟨_, _, head, _⟩
          -- X leads to Y, and Y is bound to f(Y)
          have loop : Feeds (Substitution.trees ⟨[(2, 3), (0, 2)]⟩ cyclicBank) 2 2 :=
            ⟨.node 3 [.var 2], rfl, .node List.mem_cons_self .var⟩
          have step : Feeds (Substitution.trees ⟨[(2, 3), (0, 2)]⟩ cyclicBank) 2 0 :=
            ⟨.var 2, rfl, .var⟩
          exact not_applied_of_loop ⟨0, .node List.mem_cons_self .var, .single step⟩ loop head.2

/-- With the default configuration the first turn never ends. -/
theorem search_diverges : ∃ (clauses : List Clause) (env : Env) (p : Prover),
    readInput cyclicInput = .ok (clauses, env) ∧
    Prover.addClauses .plain {} clauses { env } = .ok p ∧
    ∀ fuel out, Prover.prove .plain {} fuel p ≠ .ok out := by
  let stored : Clause := { cyclicClause with id := some 0, depth := 0 }
  refine ⟨[cyclicClause], ⟨cyclicBank, 0⟩,
    ⟨⟨cyclicBank, 0⟩, ⟨[stored]⟩, [stored], [], none⟩, cyclic_read,
    rfl, fun fuel out run => ?_⟩
  rcases bind_ok_iff.mp run with ⟨after, loop, _⟩
  cases fuel with
  | zero => cases loop
  | succ fuel =>
      -- the only clause is taken, and the turn asks for its only factor
      rcases bind_ok_iff.mp loop with ⟨turn, body, _⟩
      rcases iteration_cases body with ⟨calls, iterated⟩
      cases iterated with
      | empty literals => cases literals
      | tautology _ found => cases found
      | subsumed _ _ member _ _ => cases member
      | generated generates run _ =>
          have held := generates.held
          rcases List.sublist_nil.mp generates.sub with rfl
          cases held
          rcases mapAccum_cons_ok.mp run with ⟨made, env', _, call, _⟩
          exact cyclic_factor_diverges (c := stored) rfl _ made env' call

end Divergence

end AtpEngine
