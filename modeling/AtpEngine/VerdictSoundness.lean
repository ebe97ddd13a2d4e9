import AtpEngine.RefutationSoundness
import AtpEngine.SearchReturns

/-!
Soundness of the verdict of the command-line program. The default configuration
unifies without the occurs check, and a cycle of bindings can pass for a unifier.
Where no unification of the run closes a cycle, every stored clause is true in
the models of the input, and a derived empty clause refutes it.
-/
namespace AtpEngine

open Fuelled ClauseLogic

universe u

variable {runtime : Runtime} {config : ProverConfig} {fuel : Nat} {initial : List Clause}
  {first : Env} {start : Prover}

def Prover.Modelled {D : Type u} (I : Interpretation Nat D) (p : Prover) : Prop :=
  ∀ (k : Nat) (c : Clause), p.store.clauses[k]? = some c → I.Models (p.env.bank.read c.literals)

theorem Prover.Modelled.store {D : Type u} {I : Interpretation Nat D} {p : Prover}
    (modelled : p.Modelled I) {c : Clause} (models : I.Models (p.env.bank.read c.literals))
    (unprocessed : List Clause) :
    Prover.Modelled I { p with store := (p.store.addClause c).2, unprocessed } := by
  intro k d found
  rcases ClauseStore.addClause_cases found with old | ⟨_, rfl⟩
  · exact modelled k d old
  · exact models

theorem Absorbed.modelled {D : Type u} {I : Interpretation Nat D} {p p' : Prover} {nc : Clause}
    {derived : Option ClauseId} (modelled : p.Modelled I)
    (models : I.Models (p.env.bank.read nc.literals))
    (absorbed : Absorbed runtime config nc p derived p') : p'.Modelled I := by
  cases absorbed with
  | empty _ => exact modelled.store models _
  | tautology _ _ => exact modelled
  | @subsumed depth _ _ _ _ _ _ _ _ => exact modelled.store (c := { nc with depth }) models _
  | @waiting depth _ _ _ _ => exact modelled.store (c := { nc with depth }) models _

theorem Iterated.modelled {D : Type u} {I : Interpretation Nat D} {p p' : Prover} {given : Clause}
    {result : Option ProverResult} {calls : List (Inference × Option Clause)}
    (wf : first.bank.WellFormed) (small : first.bank.ArityBounded) (structured : StoreInv initial p)
    (inv : RunInv runtime config fuel initial first p) (held : p.store.find given.id = some given)
    (safe : ∀ kept pcs, Generates p given kept pcs → ∀ inf env,
      Visited (Inference.perform runtime.order config.uconfig fuel) (inferences given pcs) p.env inf
      env → ¬ inf.ClosesCycle runtime.order config.uconfig env) (modelled : p.Modelled I)
    (iterated : Iterated runtime config fuel given p (result, p') calls) :
    p'.Modelled I := by
  rcases iterated.outcome with ⟨_, rfl, _⟩ |
    ⟨kept, pcs, _, env', _, _, _, generates, run, process, rfl, _⟩
  · exact modelled
  · have wfP := inv.grows.bank.wf wf
    -- each call keeps the pool and concludes a clause that is true there
    have loop := mapAccum_rule_visited (fun env => p.env.Grows env)
      (fun env env' => env.bank.WellFormed → env.Grows env')
      (fun env inf out => p.env.Grows env ∧ ∀ r, out = some r →
        r.ValidIn env.bank ∧ I.Models (env.bank.read r.literals))
      (fun env _ => .refl env) (fun ab bc wf => (ab wf).trans (bc ((ab wf).bank.wf wf)))
      (fun {env env' inf out} grows done => by
        have wfEnv := done.1.bank.wf wfP
        have grown := grows wfEnv
        refine ⟨done.1.trans grown, fun r same => ?_⟩
        rcases done.2 r same with ⟨valid, models⟩
        refine ⟨valid.mono grown.bank.grows, ?_⟩
        rwa [TermBank.read_extends wfEnv (grown.bank.wf wfEnv) grown.bank.grows valid])
      (fun inf env out after visit before call => by
        have wfEnv := before.bank.wf wfP
        have premises : ∀ prem ∈ inf.premises, prem.ValidIn env.bank ∧
            I.Models (env.bank.read prem.literals) := fun prem inside => by
          rcases structured.premises held generates.held visit.mem prem inside with
            ⟨k, _, _, entry⟩
          have valid := inv.valid k prem entry
          refine ⟨valid.mono before.bank.grows, ?_⟩
          rw [TermBank.read_extends wfP wfEnv before.bank.grows valid]
          exact modelled k prem entry
        have performed :=
          perform_performed wfEnv (fun prem inside => (premises prem inside).1) call
        refine ⟨before.trans performed.grows, fun _ => performed.grows,
          before.trans performed.grows, fun r same => ?_⟩
        subst same
        refine ⟨(performed.built r rfl).elim fun _ h => h.2, ?_⟩
        exact perform_sound wfEnv ((inv.grows.trans before).bank.small small)
          (Or.inr (safe kept pcs generates inf env visit))
          (fun prem inside => (premises prem inside).1) (inferences_inRange visit.mem).1
          (fun prem inside => (premises prem inside).2) call)
      (.refl p.env) run
    rcases loop with ⟨grown, _, each⟩
    -- the stored clauses read the same in the grown pool
    have begun : Prover.Modelled I { p with env := env', processed := kept ++ [given.id] } := by
      intro k c found
      rw [TermBank.read_extends wfP (grown.bank.wf wfP) grown.bank.grows (inv.valid k c found)]
      exact modelled k c found
    have rule := processNewClauses_rule (fun q => q.Modelled I ∧ q.env = env') (fun _ _ => True)
      (fun nc member q d q' before absorbed => by
        rcases before with ⟨modelledQ, envQ⟩
        rcases forall₂_mem_right each (List.reduceOption_mem_iff.mp member) with
          ⟨inf, _, _, made⟩
        have models := (made nc rfl).2
        rw [← envQ] at models
        exact ⟨⟨absorbed.modelled modelledQ models, absorbed.frame.1.trans envQ⟩, trivial,
          fun _ _ => trivial⟩)
      ⟨begun, rfl⟩ process
    exact rule.1.1

variable {iterations : Nat} {log : List (Inference × Option Clause)}

theorem LoopHead.modelled {D : Type u} {I : Interpretation Nat D} (wf : first.bank.WellFormed)
    (small : first.bank.ArityBounded) (structured : StoreInv initial start)
    (init : RunInv runtime config fuel initial first start)
    (safe : ∀ inf env, CallMade runtime config start inf env →
      ¬ inf.ClosesCycle runtime.order config.uconfig env)
    (modelled : start.Modelled I) {p : Prover}
    (head : LoopHead runtime config fuel start iterations log p) : p.Modelled I := by
  induction head with
  | start => exact modelled
  | @turn _ _ _ p p' given unprocessed before popped limit _ iterated ih =>
      have inv := before.runInv wf structured init
      rcases (before.storeInv structured).pop popped with ⟨popStore, held⟩
      exact iterated.modelled wf small popStore (inv.pop unprocessed) held
        (fun kept pcs generates inf env visit =>
          safe inf env (.made before popped limit generates visit)) ih

theorem ProveReturns.modelled {D : Type u} {I : Interpretation Nat D} (wf : first.bank.WellFormed)
    (small : first.bank.ArityBounded) (structured : StoreInv initial start)
    (init : RunInv runtime config fuel initial first start)
    (safe : ∀ inf env, CallMade runtime config start inf env →
      ¬ inf.ClosesCycle runtime.order config.uconfig env)
    (modelled : start.Modelled I) {p : Prover} {result : ProverResult}
    (returns : ProveReturns runtime config fuel start result iterations log p) : p.Modelled I := by
  cases returns with
  | saturation head _ => exact head.modelled wf small structured init safe modelled
  | timeout head _ _ => exact head.modelled wf small structured init safe modelled
  | @result _ _ _ q _ given unprocessed _ head popped limit iterated =>
      have inv := head.runInv wf structured init
      rcases (head.storeInv structured).pop popped with ⟨popStore, held⟩
      exact iterated.modelled wf small popStore (inv.pop unprocessed) held
        (fun kept pcs generates inf env visit =>
          safe inf env (.made head popped limit generates visit))
        (head.modelled wf small structured init safe modelled)

theorem acyclic_search_refutes (wf : first.bank.WellFormed) (small : first.bank.ArityBounded)
    (valid : ∀ c ∈ initial, c.ValidIn first.bank)
    (added : Prover.addClauses runtime config initial { env := first } = .ok start)
    (safe : ∀ inf env, CallMade runtime config start inf env →
      ¬ inf.ClosesCycle runtime.order config.uconfig env) {p : Prover}
    (run : Prover.prove runtime config fuel start = .ok (.kTheorem, p)) :
    ¬ Satisfiable.{u} (first.bank.readAll {c | c ∈ initial}) := by
  rintro ⟨D, nonempty, I, models⟩
  rcases StoreInv.init added with ⟨structured, env, _, store, _⟩
  have modelled : start.Modelled I := by
    intro k c found
    rw [store] at found
    rcases mem_storedFrom (List.mem_of_getElem? found) with ⟨c0, member, same⟩
    rw [same, env]
    exact models _ ⟨c0, member, rfl⟩
  rcases prove_returns run with ⟨last, log, returns⟩
  rcases (returns.storeInv structured).2 rfl with ⟨id, c, _, found, literals⟩
  rcases ClauseStore.find_iff.mp found with ⟨k, rfl, entry⟩
  have holds := returns.modelled wf small structured (RunInv.init valid added) safe modelled
    k c entry
  rw [literals] at holds
  exact I.not_models_nil holds

/-- The verdict of the command-line program: if it is `kTheorem`, the input is
unsatisfiable, unless a unification of the run closes a cycle of bindings. -/
theorem verdict_sound (runtime : Runtime) {input : Text} (few : FewArguments input) {fuel : Nat}
    {p' : Prover} (run : proveInput runtime {} fuel input = .ok (.kTheorem, p')) :
    ∃ clauses first p, readInput input = .ok (clauses, first) ∧
      Prover.addClauses runtime {} clauses { env := first } = .ok p ∧
      ((∀ inf env, CallMade runtime {} p inf env → ¬ inf.ClosesCycle runtime.order {} env) →
        ¬ Satisfiable.{u} (first.bank.readAll {c | c ∈ clauses})) := by
  rcases proveInput_ok.mp run with ⟨clauses, first, p, read, added, proved⟩
  rcases readInput_ready read with ⟨ready, small, _⟩
  exact ⟨clauses, first, p, read, added, fun safe =>
    acyclic_search_refutes ready.wf (small few) ready.valid added safe proved⟩

/-- p(X) or q(X), not p(a), not q(Y): refuted by bindings of variables. -/
def refutedInput : Text := "cnf(a,axiom,p(X)|q(X)). cnf(b,axiom,~p(a)). cnf(c,axiom,~q(Y)).".toList

theorem verdict_sound_sample : ∃ (clauses : List Clause) (first : Env),
    readInput refutedInput = .ok (clauses, first) ∧
      ¬ Satisfiable.{0} (first.bank.readAll {c | c ∈ clauses}) := by
  have answer : (Prod.fst <$> proveInput .plain {} 50 refutedInput) = .ok .kTheorem := by
    decide +kernel
  have test : isFunctionFree <$> readInput refutedInput = .ok true := by decide +kernel
  rcases map_ok_iff.mp answer with ⟨⟨_, p'⟩, run, rfl⟩
  rcases verdict_sound.{0} .plain (fun _ renders => renders.bounded (by decide +kernel)) run with
    ⟨clauses, first, p, read, added, refutes⟩
  rcases functionFree_of_test read test with ⟨fresh, flat⟩
  have ready := (readInput_ready read).1
  exact ⟨clauses, first, read, refutes fun inf env call =>
    call.safe_of_functionFree ready.wf fresh ready.valid flat (StoreInv.init added).1
      fun _ => RunInv.init ready.valid added⟩

def equalityInput : Text := "cnf(a,axiom,p(X,X)). cnf(b,axiom,~p(Y,f(Y))).".toList

/-- Equality of numbers and their successor. -/
def successorModel : Interpretation Nat Nat where
  func := fun symbol args =>
    if symbol = 1 then if args[0]? = args[1]? then 1 else 0 else args.headD 0 + 1
  holds := fun value => value = 1

theorem equality_satisfiable :
    Satisfiable.{0} (cyclicBank.readAll
      {c | c ∈ [({ literals := [⟨1, true⟩] } : Clause), { literals := [⟨4, false⟩] }]}) := by
  refine ⟨Nat, ⟨0⟩, successorModel, ?_⟩
  rintro _ ⟨c, member, rfl⟩ assign
  rcases List.mem_pair.mp member with rfl | rfl
  · have reflexive : TermTree.eval successorModel.func assign (cyclicBank.tree 1) = 1 := by
      rw [show cyclicBank.tree 1 = .node 1 [.var 0, .var 0] from rfl]
      simp [successorModel]
    exact ⟨_, List.mem_cons_self, litHolds_pos.mpr reflexive⟩
  · have different : TermTree.eval successorModel.func assign (cyclicBank.tree 4) = 0 := by
      rw [show cyclicBank.tree 4 = .node 1 [.var 2, .node 3 [.var 2]] from rfl]
      simp [successorModel]
    refine ⟨_, List.mem_cons_self, litHolds_neg.mpr fun holds => ?_⟩
    exact absurd (different.symm.trans holds) (by decide)

/-- Y and f(Y) pass for unified, and the satisfiable input gets the verdict `kTheorem`. -/
theorem verdict_unsound : FewArguments equalityInput ∧
    (Prod.fst <$> proveInput .plain {} 50 equalityInput) = .ok .kTheorem ∧
    ∃ clauses first, readInput equalityInput = .ok (clauses, first) ∧
      Satisfiable.{0} (first.bank.readAll {c | c ∈ clauses}) := by
  have read : readInput equalityInput = .ok
      ([{ literals := [⟨1, true⟩] }, { literals := [⟨4, false⟩] }],
        { bank := cyclicBank }) := by
    decide +kernel
  exact ⟨fun _ renders => renders.bounded (by decide +kernel), by decide +kernel, _, _, read,
    equality_satisfiable⟩

end AtpEngine
