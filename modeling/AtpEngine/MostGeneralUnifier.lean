import AtpEngine.AcyclicUnification
import AtpEngine.MainProgram

/-!
What `unify` decides with the occurs check on. A unifier puts trees over any
variables for the variables of the pool and respects the bindings at hand. The
call tells whether one exists, and each of them factors through the bindings
that the call leaves.
-/
namespace AtpEngine

open Fuelled Triangular TermTree Substitution

/-- `θ` gives every bound variable the value of its term and makes both terms
equal. -/
structure Unifies {W : Type} (bank : TermBank) (subst : Substitution) (t1 t2 : Nat)
    (θ : Nat → TermTree Nat W) : Prop where
  respects : Solves .node θ (subst.trees bank)
  equal : TermTree.subst θ (bank.tree t1) = TermTree.subst θ (bank.tree t2)

/-- Bindings that keep the old ones, have no cycle, and lead both terms to one id. -/
structure Unifier (bank : TermBank) (subst subst' : Substitution) (t1 t2 : Nat) : Prop where
  keeps : ∀ x t, subst.find x = some t → subst'.find x = some t
  acyclic : Acyclic (subst'.trees bank)
  same : ∃ id bank1 bank2,
    Returns (fun fuel => applySubstitution subst' fuel t1 bank) (id, bank1) ∧
    Returns (fun fuel => applySubstitution subst' fuel t2 bank1) (id, bank2)

section Applying

variable {bank : TermBank} {config : UnificationConfig}

theorem acyclic_solves {σ : Bindings Nat Nat} (acyclic : WellFounded (Feeds σ)) :
    Solves TermTree.node (solution TermTree.node σ TermTree.var) σ :=
  solution_solves TermTree.var fun x => applied_total acyclic (.var x)

/-- Both terms resolve to one tree under the bindings of a successful call. -/
theorem unify_applied (wf : bank.WellFormed) (small : bank.ArityBounded) {fuel t1 t2 : Nat}
    {subst subst' : Substitution} (valid : subst.ValidIn bank)
    (run : unify bank config fuel t1 t2 subst = .ok (true, subst'))
    (acyclic : WellFounded (Feeds (subst'.trees bank))) {τ1 τ2 : TermTree Nat Nat}
    (left : Applied (subst'.trees bank) (bank.tree t1) τ1)
    (right : Applied (subst'.trees bank) (bank.tree t2) τ2) : τ1 = τ2 := by
  -- the bindings' own solution gives each term the value of its resolved tree
  have solves := acyclic_solves acyclic
  calc τ1 = TermTree.subst .var τ1 := (subst_var τ1).symm
    _ = TermTree.subst _ (bank.tree t1) := (solution_applied left).symm
    _ = TermTree.subst _ (bank.tree t2) := unify_sound wf small valid run solves
    _ = TermTree.subst .var τ2 := solution_applied right
    _ = τ2 := subst_var τ2

theorem apply_reads {subst : Substitution} (wf : bank.WellFormed) (valid : subst.ValidIn bank)
    (acyclic : WellFounded (Feeds (subst.trees bank))) {term : Nat} (inside : term < bank.size) :
    ∃ id bank', Returns (fun fuel => applySubstitution subst fuel term bank) (id, bank') ∧
      AppliedTo subst bank term id bank' := by
  rcases applySubstitution_returns wf valid acyclic inside with ⟨id, bank', done⟩
  rcases done.exists with ⟨fuel, run⟩
  exact ⟨id, bank', done, applySubstitution_spec wf valid run⟩

theorem apply_same {subst : Substitution} (wf : bank.WellFormed) (shared : bank.HashConsed)
    (valid : subst.ValidIn bank) (acyclic : WellFounded (Feeds (subst.trees bank))) {t1 t2 : Nat}
    (inside1 : t1 < bank.size) (inside2 : t2 < bank.size)
    (equal : ∀ τ1 τ2, Applied (subst.trees bank) (bank.tree t1) τ1 →
      Applied (subst.trees bank) (bank.tree t2) τ2 → τ1 = τ2) :
    ∃ id bank1 bank2, Returns (fun fuel => applySubstitution subst fuel t1 bank) (id, bank1) ∧
      Returns (fun fuel => applySubstitution subst fuel t2 bank1) (id, bank2) := by
  rcases apply_reads wf valid acyclic inside1 with ⟨id1, bank1, first, step1⟩
  have wf1 := step1.grows.wf wf
  have trees := trees_extends valid wf wf1 step1.grows.grows
  have old := Nat.lt_of_lt_of_le inside2 step1.grows.grows.size_le
  rcases apply_reads wf1 (valid.mono wf step1.grows.grows) (trees ▸ acyclic) old with
    ⟨id2, bank2, second, step2⟩
  have wf2 := step2.grows.wf wf1
  have later := Nat.lt_of_lt_of_le step1.valid step2.grows.grows.size_le
  have resolved := step2.tree
  rw [trees, TermBank.tree_extends wf wf1 step1.grows.grows inside2] at resolved
  have reads : bank2.tree id1 = bank2.tree id2 := by
    rw [TermBank.tree_extends wf1 wf2 step2.grows.grows step1.valid]
    exact equal _ _ step1.tree resolved
  have sameId := TermBank.tree_inj wf2 (step2.grows.shared (step1.grows.shared shared)) later
    step2.valid reads
  exact ⟨id1, bank1, bank2, first, sameId ▸ second⟩

end Applying

/-- `unify` with the occurs check returns. It answers true exactly when a
unifier exists, its bindings then unify the terms, and they are most general. -/
theorem unify_decides {bank : TermBank} (wf : bank.WellFormed) (shared : bank.HashConsed)
    (small : bank.ArityBounded) {config : UnificationConfig}
    (enabled : config.enableOccursCheck = true) {t1 t2 : Nat} (inside1 : t1 < bank.size)
    (inside2 : t2 < bank.size) {subst : Substitution} (valid : subst.ValidIn bank)
    (acyclic : Acyclic (subst.trees bank)) :
    ∃ unified subst', Returns (fun fuel => unify bank config fuel t1 t2 subst)
      (unified, subst') ∧ (unified = true → Unifier bank subst subst' t1 t2) ∧
      (∀ (W : Type) (θ : Nat → TermTree Nat W), Unifies bank subst t1 t2 θ →
        unified = true ∧ ∀ x, bank.isVar x = true → ∃ id bank',
          Returns (fun fuel => applySubstitution subst' fuel x bank) (id, bank') ∧
          θ x = TermTree.subst θ (bank'.tree id)) ∧
      (unified = false ↔ ¬ ∃ θ : Nat → TermTree Nat Nat, Unifies bank subst t1 t2 θ) := by
  have start := wellFounded_of_acyclic (bound_finite subst bank) acyclic
  rcases unify_returns wf valid start inside1 inside2 (Or.inl enabled) with
    ⟨unified, subst', done, keeps, final⟩
  rcases done.exists with ⟨fuel, run⟩
  have complete : ∀ {W : Type} {θ : Nat → TermTree Nat W}, Unifies bank subst t1 t2 θ →
      unified = true ∧ Solves .node θ (subst'.trees bank) := fun unifies =>
    unify_complete wf (node_completeIn config) valid run unifies.respects unifies.equal
  refine ⟨unified, subst', done, ?_, ?_, ?_⟩
  · rintro rfl
    constructor
    · exact fun x t => keeps.find wf shared valid
    · exact acyclic_of_wellFounded final
    · exact apply_same wf shared keeps.valid final inside1 inside2
        fun τ1 τ2 => unify_applied wf small valid run final
  · intro W θ unifies
    refine ⟨(complete unifies).1, fun x isVar => ?_⟩
    rcases apply_reads wf keeps.valid final (TermBank.isVar_lt isVar) with
      ⟨id, bank', applied, step⟩
    have value := (complete unifies).2.applied step.tree
    rw [TermBank.tree_var isVar, eval_var] at value
    exact ⟨id, bank', applied, value⟩
  · constructor
    · rintro rfl ⟨θ, unifies⟩
      cases (complete unifies).1
    · intro none
      by_contra notFalse
      rcases Bool.eq_true_of_not_eq_false notFalse with rfl
      have solves := acyclic_solves final
      exact none ⟨_, keeps.grows.solves solves, unify_sound wf small valid run solves⟩

/-- A clause whose first two atoms need a binding under a binding. -/
def nestedInput : Text := "cnf(a,axiom,p(X,f(Y))|p(g(Z),Z)|q(Y)|q(h)).".toList

/-- The bindings of their unifier: `X` to `g(Z)`, and `Z` to `f(Y)`. -/
def nestedBindings : Substitution := ⟨[(4, 2), (0, 5)]⟩

theorem nested_pool : ∃ (clauses : List Clause) (env : Env),
    readInput nestedInput = .ok (clauses, env) ∧ env.bank.WellFormed ∧ env.bank.HashConsed ∧
    env.bank.ArityBounded ∧ env.bank.size = 10 ∧ env.bank.isVar 1 = true ∧
    Returns (fun fuel => unify env.bank ⟨true⟩ fuel 3 6 {}) (true, nestedBindings) := by
  have facts : (fun out => (out.2.bank.size, out.2.bank.isVar 1,
      out.2.bank.terms.all fun t => t.args.length ≤ 65535)) <$> readInput nestedInput =
      .ok (10, true, true) := by decide +kernel
  have answer : (readInput nestedInput >>= fun out =>
      unify out.2.bank ⟨true⟩ 20 3 6 {}) = .ok (true, nestedBindings) := by decide +kernel
  rcases bind_ok_iff.mp answer with ⟨⟨clauses, env⟩, read, run⟩
  rcases map_ok_iff.mp facts with ⟨out, read', known⟩
  rcases Except.ok.inj (read.symm.trans read') with rfl
  simp only [Prod.mk.injEq] at known
  rcases known with ⟨size, isVar, few⟩
  have ready := (readInput_ready read).1
  have small : env.bank.ArityBounded := fun id t found => by
    simpa using List.all_eq_true.mp few t (List.mem_of_getElem? found)
  exact ⟨clauses, env, read, ready.wf, ready.shared, small, size, isVar,
    Returns.of_persists (fun fuel => unify_persists _ _ fuel 3 6 {}) run⟩

theorem unify_starts {bank : TermBank} (wf : bank.WellFormed) {config : UnificationConfig}
    (enabled : config.enableOccursCheck = true) {t1 t2 : Nat} (inside1 : t1 < bank.size)
    (inside2 : t2 < bank.size) {subst : Substitution}
    (done : Returns (fun fuel => unify bank config fuel t1 t2 {}) (true, subst)) :
    subst.ValidIn bank ∧ Acyclic (subst.trees bank) := by
  rcases done.exists with ⟨fuel, run⟩
  have valid := empty_validIn bank
  have final := unify_acyclic wf valid (empty_wellFounded bank) inside1 inside2 (Or.inl enabled) run
  exact ⟨(unify_keeps wf valid run).valid, acyclic_of_wellFounded final⟩

/-- From the nested bindings, `q(Y)` and `q(h)` still unify, while `Y` and `g(Z)`
do not, since `Z` stands for `f(Y)`. -/
theorem unify_decides_sample : ∃ (clauses : List Clause) (env : Env) (subst : Substitution),
    readInput nestedInput = .ok (clauses, env) ∧
    Returns (fun fuel => unify env.bank ⟨true⟩ fuel 7 9 nestedBindings) (true, subst) ∧
    Unifier env.bank nestedBindings subst 7 9 ∧
    ¬ ∃ θ : Nat → TermTree Nat Nat, Unifies env.bank nestedBindings 1 5 θ := by
  have answers : (readInput nestedInput >>= fun out => do
      let first ← unify out.2.bank ⟨true⟩ 20 7 9 nestedBindings
      let second ← unify out.2.bank ⟨true⟩ 20 1 5 nestedBindings
      return (first.1, second.1)) = .ok (true, false) := by decide +kernel
  rcases nested_pool with ⟨clauses, env, read, wf, shared, small, size, _, done⟩
  rcases bind_ok_iff.mp answers with ⟨out, read', runs⟩
  rcases Except.ok.inj (read.symm.trans read') with rfl
  rcases bind_ok_iff.mp runs with ⟨⟨_, subst⟩, first, rest⟩
  rcases bind_ok_iff.mp rest with ⟨⟨_, after⟩, second, same⟩
  rcases Prod.mk.inj (Except.ok.inj same) with ⟨rfl, rfl⟩
  have inside : ∀ id, id < 10 → id < env.bank.size := fun id below => size ▸ below
  have enabled : (⟨true⟩ : UnificationConfig).enableOccursCheck = true := rfl
  rcases unify_starts wf enabled (inside 3 (by decide)) (inside 6 (by decide)) done with
    ⟨valid, acyclic⟩
  have returned : ∀ {t1 t2 : Nat} {out : Bool × Substitution},
      unify env.bank ⟨true⟩ 20 t1 t2 nestedBindings = .ok out →
      Returns (fun fuel => unify env.bank ⟨true⟩ fuel t1 t2 nestedBindings) out := fun run =>
    .of_persists (fun fuel => unify_persists _ _ fuel _ _ _) run
  rcases unify_decides wf shared small enabled (inside 7 (by decide)) (inside 9 (by decide)) valid
    acyclic with ⟨_, _, found, unifier, _⟩
  rcases unify_decides wf shared small enabled (inside 1 (by decide)) (inside 5 (by decide)) valid
    acyclic with ⟨_, _, missed, _, _, none⟩
  rcases Prod.mk.inj ((returned first).unique found) with ⟨rfl, rfl⟩
  rcases Prod.mk.inj ((returned second).unique missed) with ⟨rfl, rfl⟩
  exact ⟨clauses, env, subst, read, found, unifier rfl, none.mp rfl⟩

end AtpEngine
