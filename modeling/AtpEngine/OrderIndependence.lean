import AtpEngine.CoupledInference
import AtpEngine.ProofExtraction
import AtpEngine.ProofOrder
import AtpEngine.SearchReturns

/-!
Two runs of the given-clause loop that enumerate variable sets in different
orders and count fresh variables from different numbers. The runs stay coupled:
in every turn both select, delete, infer and store corresponding clauses, so that
they end alike and print the same proof.
-/
namespace AtpEngine

open Fuelled LockStep

namespace Coupling

variable {w later : Coupling} {c c' d d' : Clause}

section Redundancy

theorem sameLiteral_biUnique (w : Coupling) : Relator.BiUnique w.SameLiteral := by
  have equal : ∀ {a b : Literal}, a.atom = b.atom → a.isPositive = b.isPositive → a = b := by
    rintro ⟨⟩ ⟨⟩ ⟨⟩ ⟨⟩
    rfl
  constructor
  · intro a b c first second
    have atoms : a.atom = b.atom := w.same_biUnique.1 first.atom second.atom
    exact equal atoms (first.isPositive.trans second.isPositive.symm)
  · intro a b c first second
    have atoms : b.atom = c.atom := w.same_biUnique.2 first.atom second.atom
    exact equal atoms (first.isPositive.symm.trans second.isPositive)

theorem SameClause.swap (same : w.SameClause c c') : w.swap.SameClause c' c :=
  ⟨same.id.symm, same.rule.symm, same.parent1.symm, same.parent2.symm, same.depth.symm,
    List.Forall₂.flip (same.literals.imp fun _ _ lit =>
      ⟨lit.atom.swap, lit.isPositive.symm⟩)⟩

theorem SameClause.isEmpty (same : w.SameClause c c') : c.isEmpty = c'.isEmpty := by
  rw [Bool.eq_iff_iff, Clause.isEmpty, Clause.isEmpty, List.isEmpty_iff_length_eq_zero,
    List.isEmpty_iff_length_eq_zero, same.literals.length_eq]

theorem SameClause.subsumes (general : w.SameClause c c') (specific : w.SameClause d d') :
    subsumes c d = subsumes c' d' := by
  rw [Bool.eq_iff_iff, subsumes_iff, subsumes_iff, general.size, specific.size,
    forall₂_subset w.sameLiteral_biUnique general.literals specific.literals]

theorem SameClause.tautology (same : w.SameClause c c') (found : isTautology c = true) :
    isTautology c' = true := by
  rcases (isTautology_iff c).mp found with ⟨a, pos, neg⟩
  rcases forall₂_mem_left same.literals pos with ⟨⟨b, _⟩, pos, atom, rfl⟩
  rcases forall₂_mem_left same.literals neg with ⟨⟨b', _⟩, neg, atom', rfl⟩
  rcases w.same_biUnique.2 atom atom' with rfl
  exact (isTautology_iff c').mpr ⟨b, pos, neg⟩

theorem SameClause.isTautology (same : w.SameClause c c') : isTautology c = isTautology c' :=
  Bool.eq_iff_iff.mpr ⟨same.tautology, same.swap.tautology⟩

end Redundancy

/-- Provers that hold corresponding clauses in the same places. -/
structure SameProver (w : Coupling) (p p' : Prover) : Prop where
  envs : w.Envs p.env p'.env
  store : List.Forall₂ w.SameClause p.store.clauses p'.store.clauses
  unprocessed : List.Forall₂ w.SameClause p.unprocessed p'.unprocessed
  processed : p.processed = p'.processed
  emptyClauseId : p.emptyClauseId = p'.emptyClauseId

section Store

variable {store store' : ClauseStore} {p p' : Prover}

theorem find_same (stores : List.Forall₂ w.SameClause store.clauses store'.clauses)
    (id : ClauseId) :
    Option.Rel w.SameClause (store.find id) (store'.find id) := by
  cases id with
  | none => exact .none
  | some k => exact forall₂_getElem? stores k

theorem getClause_alike (stores : List.Forall₂ w.SameClause store.clauses store'.clauses)
    (id : ClauseId) :
    Alike w.SameClause (store.getClause id) (store'.getClause id) := by
  have found := find_same stores id
  rw [ClauseStore.getClause, ClauseStore.getClause]
  revert found
  cases store.find id <;> cases store'.find id <;> intro found <;> cases found
  · exact .error _
  · next same => exact .ok same

theorem addClause_same (stores : List.Forall₂ w.SameClause store.clauses store'.clauses)
    (same : w.SameClause c c') : (store.addClause c).1 = (store'.addClause c').1 ∧
      List.Forall₂ w.SameClause (store.addClause c).2.clauses
        (store'.addClause c').2.clauses := by
  simp only [ClauseStore.addClause, stores.length_eq]
  exact ⟨trivial, List.rel_append stores (.cons { same with id := rfl } .nil)⟩

theorem computeDepth_alike (same : w.SameProver p p') (clause : w.SameClause c c') :
    Alike Eq (p.computeDepth c) (p'.computeDepth c') := by
  have parent : ∀ id,
      Alike Eq (Prover.parentDepth p.store id) (Prover.parentDepth p'.store id) := by
    intro id
    rw [Prover.parentDepth, Prover.parentDepth]
    split
    · apply (getClause_alike same.store id).bind
      intro d d' stored
      exact .pure stored.depth
    · exact .pure rfl
  rw [Prover.computeDepth, Prover.computeDepth, clause.parent1, clause.parent2]
  apply (parent _).bind
  rintro d1 _ rfl
  apply (parent _).bind
  rintro d2 _ rfl
  exact .pure rfl

theorem forwardSubsumed_alike (same : w.SameProver p p') (clause : w.SameClause c c') :
    Alike Eq (p.isForwardSubsumedByProcessed c) (p'.isForwardSubsumedByProcessed c') := by
  rw [Prover.isForwardSubsumedByProcessed, Prover.isForwardSubsumedByProcessed, same.processed]
  apply Alike.anyM (R := Eq) _ (List.forall₂_refl _)
  rintro pid _ rfl
  apply (getClause_alike same.store pid).bind
  intro pc pc' stored
  exact .pure (stored.subsumes clause)

theorem shouldSkipGiven_alike (same : w.SameProver p p') (clause : w.SameClause c c') :
    Alike Eq (p.shouldSkipGiven c) (p'.shouldSkipGiven c') := by
  rw [Prover.shouldSkipGiven, Prover.shouldSkipGiven, clause.isTautology]
  split
  · exact .pure rfl
  · exact forwardSubsumed_alike same clause

theorem backwardSubsumption_alike (same : w.SameProver p p') (clause : w.SameClause c c') :
    Alike w.SameProver (p.applyBackwardSubsumption c) (p'.applyBackwardSubsumption c') := by
  rw [Prover.applyBackwardSubsumption, Prover.applyBackwardSubsumption, same.processed]
  have erased : Alike Eq
      (eraseIf (fun pid => do
        let pc ← p.store.getClause pid
        pure (subsumes c pc)) p'.processed)
      (eraseIf (fun pid => do
        let pc ← p'.store.getClause pid
        pure (subsumes c' pc)) p'.processed) := by
    apply Alike.eraseIf
    intro pid _
    apply (getClause_alike same.store pid).bind
    intro pc pc' stored
    exact .pure (clause.subsumes stored)
  apply erased.bind
  rintro kept _ rfl
  exact .pure { same with processed := rfl }

end Store

section Loop

variable {config : ProverConfig} {order order' : VariableOrder} {queue : PriorityQueueOps}
  {p p' : Prover}

theorem compare_agree
    (compare : config.comparator = bfsCompare ∨ config.comparator = weightCompare)
    (c c' d d' : Clause) (first : w.SameClause c c') (second : w.SameClause d d') :
    config.comparator c d = config.comparator c' d' := by
  rcases compare with bfs | weight
  · rw [bfs, bfsCompare, bfsCompare, first.depth, second.depth]
  · rw [weight, weightCompare, weightCompare, first.literals.length_eq, second.literals.length_eq]

theorem addClauses_alike
    (compare : config.comparator = bfsCompare ∨ config.comparator = weightCompare)
    {clauses clauses' : List Clause} (all : List.Forall₂ w.SameClause clauses clauses')
    (same : w.SameProver p p') : Alike w.SameProver
      (Prover.addClauses ⟨order, queue⟩ config clauses p)
      (Prover.addClauses ⟨order', queue⟩ config clauses' p') := by
  induction all generalizing p p' with
  | nil => exact .ok same
  | @cons c c' _ _ head _ ih =>
      have input : w.SameClause { c with depth := 0 } { c' with depth := 0 } :=
        { head with depth := rfl }
      have added := addClause_same same.store input
      rw [Prover.addClauses, Prover.addClauses]
      simp only [added.1]
      apply (getClause_alike added.2 _).bind
      intro stored stored' clause
      exact ih { same with
        store := added.2
        unprocessed := queue.push_parametric (compare_agree compare) same.unprocessed clause }

theorem resolventsWith_follows (fuel : Nat) {store store' : ClauseStore} {env env' : Env}
    (stores : List.Forall₂ w.SameClause store.clauses store'.clauses) {given given' : Clause}
    (clause : w.SameClause given given') (pid : ClauseId) (envs : w.Envs env env') :
    Follows Envs (fun later => List.Forall₂ later.SameClause) w
      (Prover.resolventsWith ⟨order, queue⟩ config fuel store given pid env)
      (Prover.resolventsWith ⟨order', queue⟩ config fuel store' given' pid env') := by
  rw [Prover.resolventsWith, Prover.resolventsWith]
  apply (getClause_alike stores pid).bind
  intro pc pc' stored
  apply (allResolvents_follows order order' config.uconfig fuel envs clause stored).bind
  intro mid left left' e e' above envs lefts
  apply (allResolvents_follows order order' config.uconfig fuel envs (stored.mono above)
    (clause.mono above)).bind
  intro last right right' e e' above envs rights
  exact Follows.pure le_rfl envs (List.rel_append (lefts.imp fun _ _ c => c.mono above) rights)

theorem generateNewClauses_follows (fuel : Nat) (same : w.SameProver p p') {given given' : Clause}
    (clause : w.SameClause given given') :
    Follows Envs (fun later => List.Forall₂ later.SameClause) w
      (Prover.generateNewClauses ⟨order, queue⟩ config fuel p given)
      (Prover.generateNewClauses ⟨order', queue⟩ config fuel p' given') := by
  rw [Prover.generateNewClauses, Prover.generateNewClauses, same.processed]
  have loop : Follows Envs (fun later => List.Forall₂ (List.Forall₂ later.SameClause)) w
      (mapAccum (Prover.resolventsWith ⟨order, queue⟩ config fuel p.store given)
        p'.processed p.env)
      (mapAccum (Prover.resolventsWith ⟨order', queue⟩ config fuel p'.store given') p'.processed
        p'.env) := by
    apply Follows.mapAccum (R := fun _ => Eq) (Q := fun later => List.Forall₂ later.SameClause)
      (fun _ same => same) (fun above all => all.imp fun _ _ c => c.mono above) _
      (List.forall₂_refl _) same.envs
    rintro later pid _ e e' above rfl envs
    exact resolventsWith_follows fuel (same.store.imp fun _ _ c => c.mono above)
      (clause.mono above) pid envs
  apply loop.bind
  intro mid resolvents resolvents' e e' above envs results
  apply (factor_follows config.uconfig fuel envs (clause.mono above)).bind
  intro last factors factors' e e' above envs factored
  have resolved := List.rel_flatten results
  exact Follows.pure le_rfl envs (List.rel_append (resolved.imp fun _ _ c => c.mono above) factored)

theorem processNewClauses_alike
    (compare : config.comparator = bfsCompare ∨ config.comparator = weightCompare)
    {news news' : List Clause} (all : List.Forall₂ w.SameClause news news')
    (same : w.SameProver p p') :
    Alike (fun out out' => out.1 = out'.1 ∧ w.SameProver out.2 out'.2)
      (Prover.processNewClauses ⟨order, queue⟩ config news p)
      (Prover.processNewClauses ⟨order', queue⟩ config news' p') := by
  induction all generalizing p p' with
  | nil => exact .ok ⟨rfl, same⟩
  | @cons nc nc' _ _ head _ ih =>
      rw [Prover.processNewClauses, Prover.processNewClauses, head.isEmpty]
      split
      · have added := addClause_same same.store head
        exact .ok ⟨congrArg some added.1, { same with store := added.2 }⟩
      rw [head.isTautology]
      split
      · exact ih same
      apply (computeDepth_alike same head).bind
      rintro depth _ rfl
      have derived : w.SameClause { nc with depth } { nc' with depth } := { head with depth := rfl }
      have added := addClause_same same.store derived
      simp only [added.1]
      apply (getClause_alike added.2 _).bind
      intro stored stored' clause
      have grown : w.SameProver { p with store := (p.store.addClause { nc with depth }).2 }
          { p' with store := (p'.store.addClause { nc' with depth }).2 } :=
        { same with store := added.2 }
      apply (forwardSubsumed_alike grown clause).bind
      rintro subsumed _ rfl
      cases subsumed with
      | true => exact ih grown
      | false =>
          exact ih { grown with
            unprocessed := queue.push_parametric (compare_agree compare) same.unprocessed clause }

theorem SameProver.mono (same : w.SameProver p p') (above : w ≤ later) {env env' : Env}
    (envs : later.Envs env env') : later.SameProver { p with env } { p' with env := env' } where
  envs := envs
  store := same.store.imp fun _ _ c => c.mono above
  unprocessed := same.unprocessed.imp fun _ _ c => c.mono above
  processed := same.processed
  emptyClauseId := same.emptyClauseId

theorem iteration_follows
    (compare : config.comparator = bfsCompare ∨ config.comparator = weightCompare) (fuel : Nat)
    (same : w.SameProver p p') {given given' : Clause} (clause : w.SameClause given given') :
    Follows SameProver (fun _ => Eq) w (Prover.iteration ⟨order, queue⟩ config fuel given p)
      (Prover.iteration ⟨order', queue⟩ config fuel given' p') := by
  rw [Prover.iteration, Prover.iteration, clause.isEmpty]
  split
  · exact Follows.pure le_rfl { same with emptyClauseId := congrArg some clause.id } rfl
  apply (shouldSkipGiven_alike same clause).bind
  rintro skipped _ rfl
  cases skipped with
  | true => exact Follows.pure le_rfl same rfl
  | false =>
      apply (backwardSubsumption_alike same clause).bind
      intro q q' same
      apply (generateNewClauses_follows fuel same clause).bind
      intro mid news news' env env' above envs news
      have ready : mid.SameProver { q with env, processed := q.processed ++ [given.id] }
          { q' with env := env', processed := q'.processed ++ [given'.id] } :=
        { same.mono above envs with processed := by simp only [same.processed, clause.id] }
      apply (processNewClauses_alike compare news ready).bind
      rintro ⟨derivedEmpty, r⟩ ⟨_, r'⟩ ⟨rfl, same⟩
      cases derivedEmpty with
      | none => exact Follows.pure le_rfl same rfl
      | some id => exact Follows.pure le_rfl { same with emptyClauseId := rfl } rfl

theorem hitResourceLimit_same (same : w.SameProver p p') (iterations : Nat) :
    Prover.hitResourceLimit config p iterations = Prover.hitResourceLimit config p' iterations := by
  have size : p.store.size = p'.store.size := same.store.length_eq
  rw [Prover.hitResourceLimit, Prover.hitResourceLimit, size]

theorem proveLoop_alike
    (compare : config.comparator = bfsCompare ∨ config.comparator = weightCompare)
    (fuel turns iterations : Nat) (same : w.SameProver p p') :
    Alike (fun out out' => out.1 = out'.1 ∧ ∃ later, SameProver later out.2.2 out'.2.2)
      (Prover.proveLoop ⟨order, queue⟩ config fuel turns iterations p)
      (Prover.proveLoop ⟨order', queue⟩ config fuel turns iterations p') := by
  induction turns generalizing w iterations p p' with
  | zero => exact .error _
  | succ turns ih =>
      have popped := queue.pop_parametric (compare_agree compare) same.unprocessed
      rw [Prover.proveLoop, Prover.proveLoop]
      revert popped
      cases queue.pop config.comparator p.unprocessed <;>
        cases queue.pop config.comparator p'.unprocessed <;> intro popped <;> cases popped
      · exact .ok ⟨rfl, w, same⟩
      next out out' taken =>
        rw [hitResourceLimit_same same]
        simp only
        split
        · exact .ok ⟨rfl, w, same⟩
        have left : w.SameProver { p with unprocessed := out.2 }
            { p' with unprocessed := out'.2 } :=
          { same with unprocessed := taken.2 }
        apply Alike.bind (iteration_follows compare fuel left taken.1)
        rintro ⟨result, q⟩ ⟨_, q'⟩ ⟨mid, _, same, rfl⟩
        cases result with
        | none => exact ih (iterations + 1) same
        | some result => exact .pure ⟨rfl, mid, same⟩

theorem prove_alike (compare : config.comparator = bfsCompare ∨ config.comparator = weightCompare)
    (fuel : Nat) (same : w.SameProver p p') :
    Alike (fun out out' => out.1 = out'.1 ∧ ∃ later, SameProver later out.2 out'.2)
      (Prover.prove ⟨order, queue⟩ config fuel p)
      (Prover.prove ⟨order', queue⟩ config fuel p') := by
  apply (proveLoop_alike compare fuel fuel 0 same).bind
  rintro ⟨result, count, q⟩ ⟨_, count', q'⟩ ⟨rfl, later, same⟩
  exact .pure ⟨rfl, later, same⟩

end Loop

section Printing

variable {bank bank' : TermBank}

def SameNames (w : Coupling) (varMap varMap' : VarMap) : Prop :=
  List.Forall₂ (fun entry entry' => w.paired entry.1 entry'.1 ∧ entry.2 = entry'.2)
    varMap varMap'

theorem SameNames.lookup {varMap varMap' : VarMap} (names : w.SameNames varMap varMap') {x y : Nat}
    (pair : w.paired x y) : varMap.lookup x = varMap'.lookup y := by
  induction names with
  | nil => rfl
  | @cons entry entry' _ _ head _ ih =>
      have key : x = entry.1 ↔ y = entry'.1 := Relator.rel_eq w.oneToOne pair head.1
      rw [List.lookup_cons, List.lookup_cons, ih, head.2]
      by_cases own : x = entry.1
      · rw [beq_iff_eq.mpr own, beq_iff_eq.mpr (key.mp own)]
      · rw [beq_eq_false_iff_ne.mpr own, beq_eq_false_iff_ne.mpr (mt key.mpr own)]

theorem termToPretty_alike (fuel : Nat) {a b : Nat} (same : w.Same a b) {varMap varMap' : VarMap}
    (names : w.SameNames varMap varMap') :
    Alike (fun out out' => out.1 = out'.1 ∧ w.SameNames out.2 out'.2)
      (termToPretty w.left fuel a varMap) (termToPretty w.right fuel b varMap') := by
  induction fuel generalizing a b varMap varMap' with
  | zero => exact .error _
  | succ fuel ih =>
      rw [termToPretty, termToPretty]
      rcases same.shape with
        ⟨pair, left, right⟩ | ⟨f, args, args', left, right, entry, entry', symbol, all⟩
      · simp only [left, right, bind_ok, if_true, names.lookup pair]
        split
        · exact .pure ⟨rfl, names⟩
        · exact .pure
            ⟨by rw [names.length_eq], .cons ⟨pair, by rw [names.length_eq]⟩ names⟩
      rcases symbol with ⟨info, known, known', _⟩
      simp only [left, right, bind_ok, Bool.false_eq_true, if_false, TermBank.getTerm_ok.mpr entry,
        TermBank.getTerm_ok.mpr entry', SymbolTable.getName, SymbolTable.getInfo, known, known',
        pure_eq_ok]
      have empty : args'.isEmpty = args.isEmpty := by cases all <;> rfl
      rw [empty]
      split
      · exact .ok ⟨rfl, names⟩
      have loop : Follows (fun _ : Unit => w.SameNames) (fun _ => List.Forall₂ Eq) ()
          (mapAccum (termToPretty w.left fuel) args varMap)
          (mapAccum (termToPretty w.right fuel) args' varMap') := by
        apply Follows.mapAccum (W := Unit) (R := fun _ => w.Same) (Q := fun _ => Eq)
          (fun _ same => same) (fun _ same => same) _ all names
        intro _ arg arg' names names' _ same related
        exact (ih same related).mono fun out out' printed => ⟨(), le_rfl, printed.2, printed.1⟩
      apply Alike.bind loop
      rintro ⟨texts, names⟩ ⟨_, names'⟩ ⟨_, _, related, texts⟩
      rw [List.forall₂_eq_eq_eq] at texts
      subst texts
      exact .ok ⟨rfl, related⟩

theorem clauseToString_alike (fuel : Nat) (same : w.SameClause c c') :
    Alike Eq (clauseToString fuel c w.left) (clauseToString fuel c' w.right) := by
  rw [clauseToString, clauseToString, same.isEmpty]
  split
  · exact .ok rfl
  have loop : Follows (fun _ : Unit => w.SameNames) (fun _ => List.Forall₂ Eq) ()
      (mapAccum (literalToString w.left fuel) c.literals [])
      (mapAccum (literalToString w.right fuel) c'.literals []) := by
    apply Follows.mapAccum (W := Unit) (R := fun _ => w.SameLiteral) (Q := fun _ => Eq)
      (fun _ same => same) (fun _ same => same) _ same.literals .nil
    intro _ lit lit' names names' _ same related
    rw [literalToString, literalToString, same.isPositive]
    apply (termToPretty_alike fuel same.atom related).bind
    rintro ⟨atom, names⟩ ⟨_, names'⟩ ⟨rfl, related⟩
    exact Follows.pure le_rfl related rfl
  apply Alike.bind loop
  rintro ⟨lits, names⟩ ⟨_, names'⟩ ⟨_, _, _, lits⟩
  rw [List.forall₂_eq_eq_eq] at lits
  subst lits
  exact .pure rfl

theorem extractLoop_alike {store store' : ClauseStore}
    (stores : List.Forall₂ w.SameClause store.clauses store'.clauses) (fuel : Nat)
    (worklist visited : List ClauseId) (steps : List ProofStep) :
    Alike Eq (extractLoop store fuel worklist visited steps)
      (extractLoop store' fuel worklist visited steps) := by
  induction fuel generalizing worklist visited steps with
  | zero => exact .error _
  | succ fuel ih =>
      cases worklist with
      | nil => exact .ok rfl
      | cons cid rest =>
          rw [extractLoop, extractLoop]
          split
          · exact ih rest visited steps
          split
          · exact ih rest visited steps
          apply (getClause_alike stores cid).bind
          intro c c' same
          rw [same.rule, same.parent1, same.parent2]
          exact ih _ _ _

theorem formatProof_alike {store store' : ClauseStore}
    (stores : List.Forall₂ w.SameClause store.clauses store'.clauses) (fuel : Nat)
    (proof : List ProofStep) :
    Alike Eq (formatProof fuel proof store w.left) (formatProof fuel proof store' w.right) := by
  have lines : Alike (List.Forall₂ Eq)
      ((proof.zipIdx 1).mapM (stepToString fuel (stepNumbers proof) store w.left))
      ((proof.zipIdx 1).mapM (stepToString fuel (stepNumbers proof) store' w.right)) := by
    apply Alike.mapM (R := Eq) _ (List.forall₂_refl _)
    rintro ⟨step, number⟩ _ rfl
    rw [stepToString, stepToString]
    apply (getClause_alike stores step.clauseId).bind
    intro c c' same
    apply (clauseToString_alike fuel same).bind
    rintro text _ rfl
    exact .pure rfl
  rw [formatProof, formatProof]
  apply lines.bind
  intro texts texts' all
  rw [List.forall₂_eq_eq_eq] at all
  subst all
  exact .pure rfl

end Printing

section Renamings

/-- The pairs of variables belong to a renaming that confuses no two variables. -/
theorem exists_renaming (w : Coupling) :
    ∃ ρ : Nat → Nat, Function.Injective ρ ∧ ∀ x y, w.paired x y → ρ x = y := by
  classical
  have partner : ∀ x, (∃ y, w.paired x y) ∨ ¬ ∃ y, w.paired x y := fun x => Classical.em _
  -- variables without a partner go past the ids of the other bank
  let ρ : Nat → Nat := fun x => if h : ∃ y, w.paired x y then h.choose else w.right.size + x
  have pairs : ∀ x y, w.paired x y → ρ x = y := by
    intro x y pair
    have known : ∃ y, w.paired x y := ⟨y, pair⟩
    simp only [ρ, dif_pos known]
    exact w.oneToOne.2 known.choose_spec pair
  have rest : ∀ x, (¬ ∃ y, w.paired x y) → ρ x = w.right.size + x :=
    fun x none => dif_neg none
  refine ⟨ρ, ?_, pairs⟩
  intro x x' same
  rcases partner x with ⟨y, pair⟩ | none <;> rcases partner x' with ⟨y', pair'⟩ | none'
  · rw [pairs x y pair, pairs x' y' pair'] at same
    subst same
    exact w.oneToOne.1 pair pair'
  · rw [pairs x y pair, rest x' none'] at same
    have := TermBank.isVar_lt (w.rightVar pair)
    omega
  · rw [rest x none, pairs x' y' pair'] at same
    have := TermBank.isVar_lt (w.rightVar pair')
    omega
  · rw [rest x none, rest x' none'] at same
    exact Nat.add_left_cancel same

theorem Same.tree {ρ : Nat → Nat} (pairs : ∀ x y, w.paired x y → ρ x = y) {a b : Nat}
    (same : w.Same a b) : w.right.tree b = (w.left.tree a).rename ρ := by
  induction same with
  | var pair =>
      rw [TermBank.tree_var (w.leftVar pair), TermBank.tree_var (w.rightVar pair)]
      simp only [TermTree.eval_var, pairs _ _ pair]
  | @node a b f args args' left right symbol lengths _ ih =>
      have leftKind : w.left.isVar a = false := by rw [TermBank.isVar_term left, symbol.left]
      have rightKind : w.right.isVar b = false := by rw [TermBank.isVar_term right, symbol.right]
      rw [TermBank.tree_node w.leftWf left leftKind, TermBank.tree_node w.rightWf right rightKind]
      simp only [TermTree.eval_node, List.map_map]
      congr 1
      apply List.ext_getElem
      · simp [lengths]
      intro i inside inside'
      simp only [List.length_map] at inside inside'
      rw [List.getElem_map, List.getElem_map]
      apply ih (args[i], args'[i])
      exact List.mem_of_getElem? (i := i) (by simp [inside, inside'])

theorem SameClause.read {ρ : Nat → Nat} (pairs : ∀ x y, w.paired x y → ρ x = y)
    (same : w.SameClause c c') :
    w.right.read c'.literals = ClauseLogic.inst (fun x => .var (ρ x))
      (w.left.read c.literals) := by
  rw [TermBank.read, TermBank.read, ClauseLogic.inst, List.map_map]
  have all : List.Forall₂ Eq
      (c.literals.map ((fun lit => (TermTree.subst (fun x => .var (ρ x)) lit.1, lit.2)) ∘
        fun lit => (w.left.tree lit.atom, lit.isPositive)))
      (c'.literals.map fun lit => (w.right.tree lit.atom, lit.isPositive)) := by
    rw [List.forall₂_map_left_iff, List.forall₂_map_right_iff]
    exact same.literals.imp fun lit lit' lits =>
      Prod.ext (lits.atom.tree pairs).symm lits.isPositive
  rw [List.forall₂_eq_eq_eq] at all
  exact all.symm

end Renamings

end Coupling

/-- What main prints for a stored clause: the proof that leads to it. -/
def printProof (fuel : Nat) (p : Prover) (id : ClauseId) : Except Fault Text := do
  let proof ← extractProof fuel p.store id
  formatProof fuel proof p.store p.env.bank

/-- Stores that differ by one renaming of variables. -/
structure RenamedStores (ρ : Nat → Nat) (p p' : Prover) : Prop where
  injective : Function.Injective ρ
  size : p.store.size = p'.store.size
  stored : ∀ id c c', p.store.find id = some c → p'.store.find id = some c' →
    c.rule = c'.rule ∧ c.parent1 = c'.parent1 ∧ c.parent2 = c'.parent2 ∧
      c.depth = c'.depth ∧
      p'.env.bank.read c'.literals =
        ClauseLogic.inst (fun x => .var (ρ x)) (p.env.bank.read c.literals)

namespace Coupling

variable {w : Coupling} {p p' : Prover}

theorem SameProver.renamed (same : w.SameProver p p') : ∃ ρ, RenamedStores ρ p p' := by
  rcases w.exists_renaming with ⟨ρ, injective, pairs⟩
  refine ⟨ρ, injective, same.store.length_eq, ?_⟩
  intro id c c' found found'
  have both := find_same same.store id
  rw [found, found'] at both
  cases both with
  | some clause =>
      refine ⟨clause.rule, clause.parent1, clause.parent2, clause.depth, ?_⟩
      rw [same.envs.left, same.envs.right]
      exact clause.read pairs

theorem SameProver.printProof (same : w.SameProver p p') (fuel : Nat) (id : ClauseId) :
    printProof fuel p id = printProof fuel p' id := by
  have extracted : Alike Eq (extractProof fuel p.store id) (extractProof fuel p'.store id) := by
    apply (extractLoop_alike same.store fuel [id] [] []).bind
    rintro steps _ rfl
    exact .pure rfl
  apply Alike.eq
  apply extracted.bind
  rintro proof _ rfl
  rw [same.envs.left, same.envs.right]
  exact formatProof_alike same.store fuel proof

end Coupling

section Runs

variable {config : ProverConfig} {bank : TermBank} {clauses : List Clause}

theorem refutation_prints (runtime : Runtime) (wf : bank.WellFormed)
    (valid : ∀ c ∈ clauses, c.ValidIn bank) (inputs : ∀ c ∈ clauses, c.IsInput)
    {n fuel : Nat} {p p' : Prover}
    (added : Prover.addClauses runtime config clauses { env := ⟨bank, n⟩ } = .ok p)
    (run : Prover.prove runtime config fuel p = .ok (.kTheorem, p')) :
    ∃ id text, p'.getEmptyClauseId = some id ∧
      Returns (fun fuel => printProof fuel p' id) text := by
  rcases prove_runInv wf valid added run with ⟨inv, derived, empty⟩
  rcases empty rfl with ⟨id, c, isRoot, found, _⟩
  rcases extractProof_returns (inv.parentsInRange inputs) ⟨c, found⟩ with ⟨proof, extracts⟩
  rcases extracts.exists with ⟨fuel', extract⟩
  rcases extractProof_explored (stored_ne_invalid found) extract with ⟨records, explored⟩
  rcases explored.root with ⟨members, _⟩
  have inBank : ∀ id c, p'.store.find id = some c → c.ValidIn p'.env.bank :=
    fun _ _ entry => derived.found entry
  rcases formatProof_returns (derived.grows.bank.wf wf) inBank records
    (parents_listed records members) with ⟨lines, prints, _⟩
  exact ⟨id, _, isRoot, extracts.bind prints⟩

/-- Two searches on the same clauses go in step, the second one in a bank that may have
grown, with another order of enumeration and another counter. -/
theorem searches_alike {queue : PriorityQueueOps} {order order' : VariableOrder} {env later : Env}
    (compare : config.comparator = bfsCompare ∨ config.comparator = weightCompare)
    (wf : env.bank.WellFormed) (shared : env.bank.HashConsed)
    (valid : ∀ c ∈ clauses, c.ValidIn env.bank) (fresh : env.Fresh) (wf' : later.bank.WellFormed)
    (shared' : later.bank.HashConsed) (fresh' : later.Fresh)
    (grows : env.bank.Extends later.bank) {p p' : Prover}
    (added : Prover.addClauses ⟨order, queue⟩ config clauses { env } = .ok p)
    (added' : Prover.addClauses ⟨order', queue⟩ config clauses { env := later } = .ok p')
    (fuel : Nat) :
    Alike (fun out out' => out.1 = out'.1 ∧ ∃ w : Coupling, w.SameProver out.2 out'.2)
      (Prover.prove ⟨order, queue⟩ config fuel p)
      (Prover.prove ⟨order', queue⟩ config fuel p') := by
  let first := Coupling.inclusion wf shared wf' shared' grows
  have inputs : List.Forall₂ first.SameClause clauses clauses := by
    apply List.forall₂_same.mpr
    intro c member
    refine ⟨rfl, rfl, rfl, rfl, rfl, List.forall₂_same.mpr fun lit inside => ⟨?_, rfl⟩⟩
    exact Coupling.inclusion_same wf shared wf' shared' grows (valid c member lit inside)
  have start : first.SameProver { env } { env := later } :=
    ⟨⟨rfl, rfl, fresh, fresh'⟩, .nil, .nil, rfl, rfl⟩
  have loaded : Alike first.SameProver (Prover.addClauses ⟨order, queue⟩ config clauses { env })
      (Prover.addClauses ⟨order', queue⟩ config clauses { env := later }) :=
    Coupling.addClauses_alike compare inputs start
  rw [added, added'] at loaded
  cases loaded with
  | ok coupled => exact Coupling.prove_alike compare fuel coupled

/-- The outcome of a search does not depend on the order in which variable sets
are enumerated, nor on the number the fresh names start from. -/
theorem prove_orderIndependent (queue : PriorityQueueOps) (order order' : VariableOrder)
    (compare : config.comparator = bfsCompare ∨ config.comparator = weightCompare)
    (enabled : config.enableOccursCheck = true) (wf : bank.WellFormed) (shared : bank.HashConsed)
    (valid : ∀ c ∈ clauses, c.ValidIn bank) {n n' : Nat} (fresh : Env.Fresh ⟨bank, n⟩)
    (fresh' : Env.Fresh ⟨bank, n'⟩) :
    ∃ p p' result last last',
      Prover.addClauses ⟨order, queue⟩ config clauses { env := ⟨bank, n⟩ } = .ok p ∧
      Prover.addClauses ⟨order', queue⟩ config clauses { env := ⟨bank, n'⟩ } = .ok p' ∧
      Returns (fun fuel => Prover.prove ⟨order, queue⟩ config fuel p) (result, last) ∧
      Returns (fun fuel => Prover.prove ⟨order', queue⟩ config fuel p') (result, last') ∧
      last.store.size = last'.store.size ∧ last.getEmptyClauseId = last'.getEmptyClauseId ∧
      (∃ ρ, RenamedStores ρ last last') ∧
      (∀ id, last.getEmptyClauseId = some id → ∀ fuel,
        printProof fuel last id = printProof fuel last' id) ∧
      (result = .kTheorem → (∀ c ∈ clauses, c.IsInput) → ∃ id text,
        last.getEmptyClauseId = some id ∧ Returns (fun fuel => printProof fuel last id) text ∧
        Returns (fun fuel => printProof fuel last' id) text) := by
  rcases addClauses_spec ⟨order, queue⟩ config clauses { env := ⟨bank, n⟩ } with
    ⟨p, added, _⟩
  rcases addClauses_spec ⟨order', queue⟩ config clauses { env := ⟨bank, n'⟩ } with
    ⟨p', added', _⟩
  rcases fresh_search_returns enabled wf valid fresh added with ⟨result, last, run⟩
  rcases fresh_search_returns enabled wf valid fresh' added' with ⟨result', last', run'⟩
  rcases (run.and run').exists with ⟨fuel, out, out'⟩
  have ended := searches_alike compare wf shared valid fresh wf shared fresh' (.refl bank) added
    added' fuel
  rcases ended.answer out with ⟨other, again, coupled⟩
  rcases Except.ok.inj (again.symm.trans out') with rfl
  rcases coupled with ⟨rfl, w, coupled⟩
  have same := coupled.printProof
  refine ⟨p, p', result, last, last', added, added', run, run', coupled.store.length_eq,
    coupled.emptyClauseId, coupled.renamed, fun id _ fuel => same fuel id, ?_⟩
  rintro rfl inputs
  rcases refutation_prints _ wf valid inputs added out with ⟨id, text, isRoot, prints⟩
  exact ⟨id, text, isRoot, prints, .congr (fun fuel => (same fuel id).symm) prints⟩

def VariableOrder.reversed : VariableOrder where
  enumerate := fun _ vars => vars.reverse
  perm := fun _ vars => List.reverse_perm vars

def twoVariablesInput : Text := "cnf(a,axiom,p(X,Y)).cnf(b,axiom,~p(f(X),Y)).".toList

theorem prove_orderIndependent_sample :
    ∃ (clauses : List Clause) (env : Env) (p p' last last' : Prover)
    (result : ProverResult),
    readInput twoVariablesInput = .ok (clauses, env) ∧
    Prover.addClauses .plain { enableOccursCheck := true } clauses { env := ⟨env.bank, 0⟩ } =
    .ok p ∧ Prover.addClauses ⟨.reversed, .linear⟩ { enableOccursCheck := true } clauses
      { env := ⟨env.bank, 7⟩ } = .ok p' ∧
    Returns (fun fuel => Prover.prove .plain { enableOccursCheck := true } fuel p)
    (result, last) ∧
    Returns (fun fuel => Prover.prove ⟨.reversed, .linear⟩
      { enableOccursCheck := true } fuel p')
      (result, last') ∧ last.getEmptyClauseId = last'.getEmptyClauseId := by
  have names : (fun out => out.2.bank.symbols.infos.all fun info => info.name.head? != some '_') <$>
      readInput twoVariablesInput = .ok true := by decide +kernel
  rcases map_ok_iff.mp names with ⟨⟨clauses, env⟩, read, noUnderscore⟩
  rcases readInput_ready read with ⟨ready, _⟩
  have free : ∀ n, Env.Fresh ⟨env.bank, n⟩ := fun n =>
    Env.fresh_of_noUnderscore ready.wf.table noUnderscore
  have compare : ({ enableOccursCheck := true } : ProverConfig).comparator = bfsCompare ∨
      ({ enableOccursCheck := true } : ProverConfig).comparator = weightCompare := Or.inl rfl
  rcases prove_orderIndependent .linear .insertion .reversed compare rfl ready.wf ready.shared
    ready.valid (free 0) (free 7) with
    ⟨p, p', result, last, last', added, added', run, run', _, ids, _⟩
  exact ⟨clauses, env, p, p', last, last', result, read, added, added', run, run', ids⟩

end Runs

end AtpEngine
