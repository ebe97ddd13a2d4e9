import AtpEngine.MostGeneralUnifier

/-!
The two paths of `unify`, with and without the occurs check, run in step. A call
that succeeds with the check makes the same bindings without it. The other way
round the final bindings decide: bindings are never undone, so a cycle closed by
a nested call is still there at the end.
-/
namespace AtpEngine

open Fuelled Triangular TermTree Substitution

theorem acyclic_of_extends {σ σ' : Bindings Nat Nat} (grows : Extends σ σ')
    (acyclic : Acyclic σ') : Acyclic σ := by
  have feeds : ∀ y z, Feeds σ y z → Feeds σ' y z := by
    rintro y z ⟨t, bound, occurs⟩
    exact ⟨t, grows z t bound, occurs⟩
  intro x loop
  exact acyclic x (Relation.TransGen.mono feeds x x loop)

variable {bank : TermBank}

section Dropping

theorem bindVariable_unchecked {fuel x term : Nat} {subst subst' : Substitution}
    (run : bindVariable bank ⟨true⟩ fuel subst x term = .ok (true, subst')) :
    bindVariable bank ⟨false⟩ fuel subst x term = .ok (true, subst') := by
  simp only [bindVariable, if_true, bind_ok_iff] at run
  rcases run with ⟨occurs, _, run⟩
  cases occurs with
  | false => exact run
  | true => cases run

theorem unifyArgs_unchecked {fuel : Nat} {pairs : List (Nat × Nat)} {subst subst' : Substitution}
    (each : ∀ a b subst subst', unify bank ⟨true⟩ fuel a b subst = .ok (true, subst') →
      unify bank ⟨false⟩ fuel a b subst = .ok (true, subst'))
    (run : unifyArgs (unify bank ⟨true⟩ fuel) pairs subst = .ok (true, subst')) :
    unifyArgs (unify bank ⟨false⟩ fuel) pairs subst = .ok (true, subst') := by
  induction pairs generalizing subst with
  | nil => exact run
  | cons pair rest ih =>
      rcases pair with ⟨a, b⟩
      rw [unifyArgs, bind_ok_iff] at run
      rcases run with ⟨⟨first, mid⟩, call, run⟩
      cases first with
      | false => cases run
      | true =>
          rw [unifyArgs, each a b subst mid call, bind_ok]
          exact ih run

theorem unify_unchecked {fuel t1 t2 : Nat} {subst subst' : Substitution}
    (run : unify bank ⟨true⟩ fuel t1 t2 subst = .ok (true, subst')) :
    unify bank ⟨false⟩ fuel t1 t2 subst = .ok (true, subst') := by
  induction fuel generalizing t1 t2 subst subst' with
  | zero => cases run
  | succ fuel ih =>
      rw [unify, bind_ok_iff] at run
      rcases run with ⟨r1, walked1, run⟩
      rw [bind_ok_iff] at run
      rcases run with ⟨r2, walked2, run⟩
      rw [unify, walked1, bind_ok, walked2, bind_ok]
      by_cases same : r1 = r2
      · rw [if_pos same] at run ⊢
        exact run
      rw [if_neg same, bind_ok_iff] at run
      rw [if_neg same]
      rcases run with ⟨kind1, read1, run⟩
      rw [read1, bind_ok]
      cases kind1 with
      | true => exact bindVariable_unchecked run
      | false =>
          simp only [Bool.false_eq_true, if_false, bind_ok_iff] at run ⊢
          rcases run with ⟨kind2, read2, run⟩
          refine ⟨kind2, read2, ?_⟩
          cases kind2 with
          | true => exact bindVariable_unchecked run
          | false =>
              simp only [Bool.false_eq_true, if_false, bind_ok_iff] at run ⊢
              rcases run with ⟨term1, got1, term2, got2, run⟩
              refine ⟨term1, got1, term2, got2, ?_⟩
              split at run
              · cases run
              · next agree =>
                  rw [if_neg agree]
                  exact unifyArgs_unchecked (fun a b subst subst' call => ih call) run

end Dropping

section Adding

theorem bindVariable_checked (wf : bank.WellFormed) {fuel x r : Nat}
    {subst subst' : Substitution} {unified : Bool} (isVar : bank.isVar x = true)
    (free : subst.find x = none) (acyclic : Acyclic ((subst.bind x r).2.trees bank))
    (run : bindVariable bank ⟨true⟩ fuel subst x r = .ok (unified, subst')) :
    unified = true ∧ subst' = (subst.bind x r).2 := by
  rcases bindVariable_cases wf isVar free run with ⟨rfl, rfl, _⟩ | ⟨_, _, _, occurs⟩
  · exact ⟨rfl, rfl⟩
  · rw [trees_bind free] at acyclic
    exact absurd acyclic (bind_cyclic (trees_none.mpr free) occurs)

theorem unifyArgs_checked (wf : bank.WellFormed) {fuel : Nat} {pairs : List (Nat × Nat)}
    {subst last subst' : Substitution} {unified : Bool} (valid : subst.ValidIn bank)
    (each : ∀ a b subst last unified subst', subst.ValidIn bank → Acyclic (last.trees bank) →
      unify bank ⟨false⟩ fuel a b subst = .ok (true, last) →
      unify bank ⟨true⟩ fuel a b subst = .ok (unified, subst') → unified = true ∧
      subst' = last) (acyclic : Acyclic (last.trees bank))
    (off : unifyArgs (unify bank ⟨false⟩ fuel) pairs subst = .ok (true, last))
    (on : unifyArgs (unify bank ⟨true⟩ fuel) pairs subst = .ok (unified, subst')) :
    unified = true ∧ subst' = last := by
  induction pairs generalizing subst with
  | nil =>
      rcases Prod.mk.inj (Except.ok.inj off) with ⟨_, rfl⟩
      rcases Prod.mk.inj (Except.ok.inj on) with ⟨rfl, rfl⟩
      exact ⟨rfl, rfl⟩
  | cons pair rest ih =>
      rcases pair with ⟨a, b⟩
      rw [unifyArgs, bind_ok_iff] at off on
      rcases off with ⟨⟨first, mid⟩, offCall, off⟩
      rcases on with ⟨⟨first', mid'⟩, onCall, on⟩
      cases first with
      | false => cases off
      | true =>
          have keeps := unify_keeps wf valid offCall
          have later := unifyArgs_keeps wf keeps.valid off
          -- what this pair bound is still bound in the end
          rcases each a b subst mid first' mid' valid
            (acyclic_of_extends later.grows acyclic) offCall onCall with ⟨rfl, rfl⟩
          exact ih keeps.valid off on

/-- Two returning calls on one budget agree when the unchecked one succeeds
without leaving a cycle. -/
theorem unify_checked (wf : bank.WellFormed) {fuel t1 t2 : Nat}
    {subst last subst' : Substitution} {unified : Bool} (valid : subst.ValidIn bank)
    (acyclic : Acyclic (last.trees bank))
    (off : unify bank ⟨false⟩ fuel t1 t2 subst = .ok (true, last))
    (on : unify bank ⟨true⟩ fuel t1 t2 subst = .ok (unified, subst')) :
    unified = true ∧ subst' = last := by
  induction fuel generalizing t1 t2 subst last unified subst' with
  | zero => cases off
  | succ fuel ih =>
      rw [unify, bind_ok_iff] at off on
      -- both runs start from one substitution, so the walks give the same two terms
      rcases off with ⟨r1, walked1, off⟩
      rcases on with ⟨r1', walked1', on⟩
      rcases Except.ok.inj (walked1.symm.trans walked1') with rfl
      rw [bind_ok_iff] at off on
      rcases off with ⟨r2, walked2, off⟩
      rcases on with ⟨r2', walked2', on⟩
      rcases Except.ok.inj (walked2.symm.trans walked2') with rfl
      have walk1 := resolve_walk walked1
      have walk2 := resolve_walk walked2
      by_cases same : r1 = r2
      · rw [if_pos same] at off on
        rcases Prod.mk.inj (pure_ok_iff.mp off) with ⟨_, rfl⟩
        rcases Prod.mk.inj (pure_ok_iff.mp on) with ⟨rfl, rfl⟩
        exact ⟨rfl, rfl⟩
      rw [if_neg same, TermBank.isVariable_eq wf walk1.valid, bind_ok] at off on
      cases var1 : bank.isVar r1 with
      | true =>
          rw [var1, if_pos rfl] at off on
          rcases Prod.mk.inj (pure_ok_iff.mp off) with ⟨_, rfl⟩
          exact bindVariable_checked wf var1 (walk1.free var1) acyclic on
      | false =>
          rw [var1, if_neg Bool.false_ne_true, TermBank.isVariable_eq wf walk2.valid,
            bind_ok] at off on
          cases var2 : bank.isVar r2 with
          | true =>
              rw [var2, if_pos rfl] at off on
              rcases Prod.mk.inj (pure_ok_iff.mp off) with ⟨_, rfl⟩
              exact bindVariable_checked wf var2 (walk2.free var2) acyclic on
          | false =>
              rw [var2, if_neg Bool.false_ne_true, bind_ok_iff] at off on
              rcases off with ⟨term1, got1, off⟩
              rcases on with ⟨term1', got1', on⟩
              rcases Except.ok.inj (got1.symm.trans got1') with rfl
              rw [bind_ok_iff] at off on
              rcases off with ⟨term2, got2, off⟩
              rcases on with ⟨term2', got2', on⟩
              rcases Except.ok.inj (got2.symm.trans got2') with rfl
              split at off
              · cases off
              · next agree =>
                  rw [if_neg agree] at on
                  exact unifyArgs_checked wf valid
                    (fun a b subst last unified subst' v acyc off on => ih v acyc off on)
                    acyclic off on

end Adding

/-- The unchecked path returns what a success of the checked path returns, and
the other way round when no cycle was closed. -/
theorem unify_paths_agree (wf : bank.WellFormed) {t1 t2 : Nat} (inside1 : t1 < bank.size)
    (inside2 : t2 < bank.size) {subst : Substitution} (valid : subst.ValidIn bank)
    (acyclic : Acyclic (subst.trees bank)) :
    (∀ subst', Returns (fun fuel => unify bank ⟨true⟩ fuel t1 t2 subst) (true, subst') →
      Returns (fun fuel => unify bank ⟨false⟩ fuel t1 t2 subst) (true, subst')) ∧
    (∀ subst', Returns (fun fuel => unify bank ⟨false⟩ fuel t1 t2 subst) (true, subst') →
      Acyclic (subst'.trees bank) →
      Returns (fun fuel => unify bank ⟨true⟩ fuel t1 t2 subst) (true, subst')) := by
  constructor
  · intro subst' on
    exact on.mono fun fuel run => unify_unchecked run
  · intro subst' off final
    have start := wellFounded_of_acyclic (bound_finite subst bank) acyclic
    -- the checked path returns as well, so some budget is enough for both
    have checked : (⟨true⟩ : UnificationConfig).enableOccursCheck = true := rfl
    rcases unify_returns wf valid start inside1 inside2 (Or.inl checked) with
      ⟨unified, last, on, _⟩
    rcases (off.and on).exists with ⟨fuel, offRun, onRun⟩
    rcases unify_checked wf valid final offRun onRun with ⟨rfl, rfl⟩
    exact on

theorem unify_paths_agree_sample : ∃ (clauses : List Clause) (env : Env),
    readInput nestedInput = .ok (clauses, env) ∧
    Returns (fun fuel => unify env.bank ⟨false⟩ fuel 3 6 {}) (true, nestedBindings) := by
  rcases nested_pool with ⟨clauses, env, read, wf, _, _, size, _, on⟩
  have inside1 : 3 < env.bank.size := by rw [size]; decide
  have inside2 : 6 < env.bank.size := by rw [size]; decide
  exact ⟨clauses, env, read, (unify_paths_agree wf inside1 inside2 (empty_validIn _)
    (acyclic_of_wellFounded (empty_wellFounded _))).1 nestedBindings on⟩

end AtpEngine
