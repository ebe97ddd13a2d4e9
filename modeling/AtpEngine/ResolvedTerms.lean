import AtpEngine.MostGeneralUnifier

/-!
What the operations of a substitution compute. Under bindings without a cycle
every term has one fully resolved tree. `apply` of infer/substitution.cc and
`applySubstitution` of infer/unification.cc both return the id of that tree and
leave the same pool, a second application changes nothing, and `occursIn` tells
whether a variable stands in it.
-/
namespace AtpEngine

open Fuelled Triangular TermTree

/-- `Substitution::apply`, which rebuilds a term only where an argument changed. -/
def Substitution.apply (subst : Substitution) :
    Nat → Nat → TermBank → Except Fault (Nat × TermBank)
  | 0, _, _ => .error .outOfFuel
  | fuel + 1, term, bank => do
      let term ← subst.resolve bank fuel term
      if ← bank.isVariable term then pure (term, bank)
      else
        let t ← bank.getTerm term
        if t.args.isEmpty then pure (term, bank)
        else
          let (newArgs, bank) ← mapAccum (subst.apply fuel) t.args bank
          let changed := (t.args.zip newArgs).any fun p => p.2 != p.1
          if changed then pure (bank.makeTerm t.symbolId newArgs) else pure (term, bank)

/-- The tree of a term with every variable replaced by its resolved binding. -/
noncomputable def Substitution.resolvedTree (subst : Substitution) (bank : TermBank) (term : Nat) :
    TermTree Nat Nat :=
  TermTree.subst (resolved (subst.trees bank)) (bank.tree term)

open Substitution

section Resolving

variable {bank : TermBank} {subst : Substitution}

theorem applied_resolvedTree (acyclic : WellFounded (Feeds (subst.trees bank))) (term : Nat) :
    Applied (subst.trees bank) (bank.tree term) (subst.resolvedTree bank term) := by
  rcases applied_total acyclic (bank.tree term) with ⟨τ, applied⟩
  have values : solution TermTree.node (subst.trees bank) .var = resolved (subst.trees bank) :=
    funext fun x => subst_var _
  have same : subst.resolvedTree bank term = τ := by
    have value : TermTree.subst (solution TermTree.node (subst.trees bank) .var) (bank.tree term) =
        TermTree.subst .var τ := solution_applied applied
    rw [values] at value
    exact value.trans (subst_var τ)
  rw [same]
  exact applied

theorem occurs_resolvedTree (acyclic : WellFounded (Feeds (subst.trees bank))) {x : Nat}
    (free : subst.find x = none) (term : Nat) :
    Occurs x (subst.resolvedTree bank term) ↔ OccursUnder (subst.trees bank) x (bank.tree term) :=
  occurs_applied (trees_none.mpr free) (applied_resolvedTree acyclic term)

end Resolving

section Applying

variable {subst : Substitution}

theorem changed_iff {old new : List Nat} (widths : new.length = old.length) :
    (old.zip new).any (fun p => p.2 != p.1) = false ↔ new = old := by
  induction old generalizing new with
  | nil => simp [List.eq_nil_of_length_eq_zero widths]
  | cons a rest ih =>
      rcases new with _ | ⟨b, tail⟩
      · cases widths
      · rw [List.zip_cons_cons, List.any_cons, Bool.or_eq_false_iff, ih (Nat.succ.inj widths)]
        simp

theorem apply_eq_applySubstitution {bank : TermBank} (wf : bank.WellFormed)
    (shared : bank.HashConsed) (valid : subst.ValidIn bank) (fuel term : Nat) :
    subst.apply fuel term bank = applySubstitution subst fuel term bank := by
  induction fuel generalizing term bank with
  | zero => rfl
  | succ fuel ih =>
      rw [Substitution.apply, applySubstitution]
      cases walked : subst.resolve bank fuel term with
      | error e => rfl
      | ok last =>
          have inside := (resolve_walk walked).valid
          rw [bind_ok, bind_ok, TermBank.isVariable_eq wf inside, bind_ok, bind_ok]
          rcases TermBank.tree_cases wf inside with ⟨isVar, _⟩ | ⟨t, entry, isVar, below, _⟩
          · rw [isVar]
            rfl
          rw [isVar, TermBank.getTerm_ok.mpr entry, if_neg Bool.false_ne_true,
            if_neg Bool.false_ne_true, bind_ok, bind_ok]
          have keep : ∀ a ∈ t.args, ∀ b new b',
              (b.WellFormed ∧ b.HashConsed ∧ bank.Extends b) →
              applySubstitution subst fuel a b = .ok (new, b') →
              b'.WellFormed ∧ b'.HashConsed ∧ bank.Extends b' := by
            rintro a _ b new b' ⟨bWf, bShared, grown⟩ call
            have step := applySubstitution_spec bWf (valid.mono wf grown) call
            exact ⟨step.grows.wf bWf, step.grows.shared bShared, grown.trans step.grows.grows⟩
          have loops : mapAccum (subst.apply fuel) t.args bank =
              mapAccum (applySubstitution subst fuel) t.args bank :=
            mapAccum_congr (fun b => b.WellFormed ∧ b.HashConsed ∧ bank.Extends b)
              ⟨wf, shared, .refl bank⟩
              (fun a _ b h => ih h.1 h.2.1 (valid.mono wf h.2.2) a) keep
          by_cases constant : t.args.isEmpty = true
          · -- a constant is found again under its key
            rw [if_pos constant]
            rw [List.isEmpty_iff] at constant
            have rebuilt := shared.makeTerm entry
            rw [constant] at rebuilt ⊢
            rw [mapAccum, bind_ok]
            exact (congrArg pure rebuilt).symm
          · rw [if_neg constant, loops]
            cases loop : mapAccum (applySubstitution subst fuel) t.args bank with
            | error e => rfl
            | ok out =>
                rcases out with ⟨newArgs, mid⟩
                rcases mapAccum_rule (fun b => b.WellFormed ∧ b.HashConsed ∧ bank.Extends b)
                  (fun _ _ => True) (fun _ _ _ => True) (fun _ => trivial) (fun _ _ => trivial)
                  (fun _ _ => trivial)
                  (fun a member b new b' h call =>
                    ⟨keep a member b new b' h call, trivial, trivial⟩)
                  ⟨wf, shared, .refl bank⟩ loop with ⟨⟨_, midShared, grown⟩, _⟩
                simp only [bind_ok]
                cases changed : (t.args.zip newArgs).any (fun p => p.2 != p.1) with
                | true => rfl
                | false =>
                    rcases (changed_iff (mapAccum_length loop)).mp changed with rfl
                    rw [midShared.makeTerm (grown.term entry)]
                    rfl

/-- The two appliers of a substitution agree: on the id, on the pool they leave,
and on the tree. -/
theorem appliers_agree {bank : TermBank} (wf : bank.WellFormed) (shared : bank.HashConsed)
    (valid : subst.ValidIn bank) (acyclic : Acyclic (subst.trees bank)) {term : Nat}
    (inside : term < bank.size) :
    ∃ id bank', Returns (fun fuel => subst.apply fuel term bank) (id, bank') ∧
      Returns (fun fuel => applySubstitution subst fuel term bank) (id, bank') ∧
      id < bank'.size ∧ ∀ i < bank'.size, bank'.tree i = subst.resolvedTree bank term ↔
        i = id := by
  have start := wellFounded_of_acyclic (bound_finite subst bank) acyclic
  rcases apply_reads wf valid start inside with ⟨id, bank', done, step⟩
  have reads : bank'.tree id = subst.resolvedTree bank term :=
    applied_unique step.tree (applied_resolvedTree start term)
  refine ⟨id, bank',
    .congr (fun fuel => apply_eq_applySubstitution wf shared valid fuel term) done,
    done, step.valid, fun i below => ?_⟩
  constructor
  · intro same
    exact TermBank.tree_inj (step.grows.wf wf) (step.grows.shared shared) below step.valid
      (same.trans reads.symm)
  · rintro rfl
    exact reads

theorem appliers_agree_sample :
    ∃ (clauses : List Clause) (env : Env) (id : Nat) (bank' : TermBank),
    readInput nestedInput = .ok (clauses, env) ∧
    Returns (fun fuel => unify env.bank ⟨true⟩ fuel 3 6 {}) (true, nestedBindings) ∧
    Returns (fun fuel => nestedBindings.apply fuel 3 env.bank) (id, bank') ∧
    Returns (fun fuel => applySubstitution nestedBindings fuel 3 env.bank) (id, bank') := by
  rcases nested_pool with ⟨clauses, env, read, wf, shared, _, size, _, done⟩
  have inside1 : 3 < env.bank.size := by rw [size]; decide
  have inside2 : 6 < env.bank.size := by rw [size]; decide
  rcases unify_starts wf rfl inside1 inside2 done with ⟨valid, acyclic⟩
  rcases appliers_agree wf shared valid acyclic inside1 with ⟨id, bank', left, right, _⟩
  exact ⟨clauses, env, id, bank', read, done, left, right⟩

end Applying

section Occurring

variable {bank : TermBank} {subst : Substitution}

/-- The occurs check decides whether the variable stands in the resolved tree, and
with it whether binding the variable to the term closes a cycle. -/
theorem occursIn_exact (wf : bank.WellFormed) (valid : subst.ValidIn bank)
    (acyclic : Acyclic (subst.trees bank)) {v t : Nat} (isVar : bank.isVar v = true)
    (free : subst.find v = none) (inside : t < bank.size) :
    ∃ found, Returns (fun fuel => subst.occursIn bank fuel v t) found ∧
      (found = true ↔ Occurs v (subst.resolvedTree bank t)) ∧
      (Acyclic ((subst.bind v t).2.trees bank) ↔ found = false) := by
  have start := wellFounded_of_acyclic (bound_finite subst bank) acyclic
  rcases occursIn_returns wf valid start v inside with ⟨found, done⟩
  rcases done.exists with ⟨fuel, run⟩
  have exact := occursIn_iff wf isVar free run
  refine ⟨found, done, exact.trans (occurs_resolvedTree start free t).symm, ?_⟩
  rw [trees_bind free]
  cases found with
  | true => simpa using bind_cyclic (trees_none.mpr free) (exact.mp rfl)
  | false =>
      have absent : ¬ OccursUnder (subst.trees bank) v (bank.tree t) := fun occurs => by
        cases exact.mpr occurs
      exact ⟨fun _ => rfl, fun _ => acyclic_of_wellFounded (bind_wellFounded start absent)⟩

/-- `Y` stands in `g(Z)` under the bindings, though not in the term itself. -/
theorem occursIn_exact_sample : ∃ (clauses : List Clause) (env : Env),
    readInput nestedInput = .ok (clauses, env) ∧
    Returns (fun fuel => nestedBindings.occursIn env.bank fuel 1 5) true ∧
    Occurs 1 (nestedBindings.resolvedTree env.bank 5) ∧
    ¬ Acyclic ((nestedBindings.bind 1 5).2.trees env.bank) := by
  have answer : (readInput nestedInput >>= fun out =>
      nestedBindings.occursIn out.2.bank 20 1 5) = .ok true := by decide +kernel
  rcases nested_pool with ⟨clauses, env, read, wf, _, _, size, isVar, unified⟩
  rcases bind_ok_iff.mp answer with ⟨out, read', run⟩
  rcases Except.ok.inj (read.symm.trans read') with rfl
  have inside : ∀ id, id < 10 → id < env.bank.size := fun id below => size ▸ below
  rcases unify_starts wf rfl (inside 3 (by decide)) (inside 6 (by decide)) unified with
    ⟨valid, acyclic⟩
  rcases occursIn_exact wf valid acyclic isVar (by decide) (inside 5 (by decide)) with
    ⟨found, done, occurs, binds⟩
  rcases done.unique (.of_persists (fun fuel => occursIn_persists fuel 1 5) run) with rfl
  exact ⟨clauses, env, read, done, occurs.mp rfl, fun closed => nomatch binds.mp closed⟩

end Occurring

section Idempotence

variable {bank bank' : TermBank} {subst : Substitution}

/-- The index keeps its answers while the pool grows. -/
structure TermBank.Indexes (bank bank' : TermBank) : Prop where
  grows : bank.Extends bank'
  keys : ∀ key id, bank.termToId.lookup key = some id → bank'.termToId.lookup key = some id

theorem TermBank.Indexes.refl (bank : TermBank) : bank.Indexes bank :=
  ⟨.refl bank, fun _ _ h => h⟩

theorem TermBank.Indexes.trans {a b c : TermBank} (first : a.Indexes b) (second : b.Indexes c) :
    a.Indexes c :=
  ⟨first.grows.trans second.grows, fun key id h => second.keys key id (first.keys key id h)⟩

theorem TermBank.makeTerm_indexes (bank : TermBank) (symbol : Nat) (args : List Nat) :
    bank.Indexes (bank.makeTerm symbol args).2 ∧
      (bank.makeTerm symbol args).2.termToId.lookup ⟨symbol, args⟩ =
        some (bank.makeTerm symbol args).1 := by
  have grows := makeTerm_extends bank symbol args
  rcases makeTerm_cases bank symbol args with ⟨id, found, run⟩ | ⟨absent, run⟩
  · rw [run]
    exact ⟨.refl bank, found⟩
  · rw [run] at grows ⊢
    refine ⟨⟨grows, fun key id known => ?_⟩, by simp⟩
    have other : (key == (⟨symbol, args⟩ : Term)) = false := by
      rw [beq_eq_false_iff_ne]
      rintro rfl
      rw [absent] at known
      cases known
    simpa [List.lookup_cons, other] using known

/-- A term that application returns as it is: a free variable, or a term that the
index knows over such arguments. -/
inductive Settled (subst : Substitution) (bank : TermBank) : Nat → Prop where
  | var {id : Nat} : bank.isVar id = true → subst.find id = none → Settled subst bank id
  | node {id : Nat} {t : Term} : bank.terms[id]? = some t → bank.isVar id = false →
      bank.termToId.lookup t = some id → (∀ a ∈ t.args, Settled subst bank a) →
        Settled subst bank id

theorem Settled.mono (wf : bank.WellFormed) (grows : bank.Indexes bank') {id : Nat}
    (settled : Settled subst bank id) : Settled subst bank' id := by
  induction settled with
  | var isVar free =>
      exact .var ((grows.grows.isVar_eq wf (TermBank.isVar_lt isVar)).trans isVar) free
  | node entry isVar known _ ih =>
      have inside := (List.getElem?_eq_some_iff.mp entry).1
      exact .node (grows.grows.term entry) ((grows.grows.isVar_eq wf inside).trans isVar)
        (grows.keys _ _ known) ih

theorem Settled.apply (wf : bank.WellFormed) {id : Nat} (settled : Settled subst bank id) :
    Returns (fun fuel => applySubstitution subst fuel id bank) (id, bank) := by
  have stays : ∀ {id : Nat}, id < bank.size →
      (bank.isVar id = true → subst.find id = none) →
      ∀ fuel, subst.resolve bank (fuel + 1) id = .ok id := by
    intro id inside free fuel
    rw [Substitution.resolve, TermBank.isVariable_eq wf inside, bind_ok]
    split
    · next isVar => rw [free isVar]; rfl
    · rfl
  induction settled with
  | @var id isVar free =>
      have inside := TermBank.isVar_lt isVar
      refine .succ (.succ (.congr (fun fuel => ?_) (.const _)))
      rw [applySubstitution, stays inside (fun _ => free), bind_ok,
        TermBank.isVariable_eq wf inside, bind_ok, isVar]
      rfl
  | @node id t entry isVar known _ ih =>
      have inside := (List.getElem?_eq_some_iff.mp entry).1
      have found : bank.makeTerm t.symbolId t.args = (id, bank) := by
        simp [TermBank.makeTerm, known]
      have walked : Returns (fun fuel => subst.resolve bank fuel id) id :=
        .succ (.congr (stays inside fun h => by rw [isVar] at h; cases h) (.const id))
      refine .succ (.congr (fun _ => rfl) (walked.bind ?_))
      simp only [TermBank.isVariable_eq wf inside, isVar, TermBank.getTerm_ok.mpr entry, bind_ok,
        Bool.false_eq_true, if_false]
      refine (mapAccum_fixed ih).bind ?_
      rw [← found]
      exact .const _

/-- What application returns is settled: its arguments are, and `makeTerm` has
just found or added it. -/
theorem applySubstitution_settled (wf : bank.WellFormed) (valid : subst.ValidIn bank)
    {fuel term term' : Nat} (run : applySubstitution subst fuel term bank = .ok (term', bank')) :
    bank.Indexes bank' ∧ Settled subst bank' term' := by
  induction fuel generalizing term term' bank bank' with
  | zero => cases run
  | succ fuel ih =>
      rw [applySubstitution, bind_ok_iff] at run
      rcases run with ⟨last, walked, run⟩
      have walk := resolve_walk walked
      rw [TermBank.isVariable_eq wf walk.valid, bind_ok] at run
      rcases TermBank.tree_cases wf walk.valid with ⟨isVar, _⟩ | ⟨t, entry, isVar, below, _⟩
      · rw [isVar] at run
        rcases Prod.mk.inj (pure_ok_iff.mp run) with ⟨rfl, rfl⟩
        exact ⟨.refl bank, .var isVar (walk.free isVar)⟩
      · rw [isVar, if_neg Bool.false_ne_true, TermBank.getTerm_ok.mpr entry, bind_ok,
          bind_ok_iff] at run
        rcases run with ⟨⟨newArgs, mid⟩, loop, run⟩
        rcases mapAccum_rule (fun b => b.WellFormed ∧ bank.Extends b ∧ b.symbols = bank.symbols)
          (fun b b' => b.WellFormed → b'.WellFormed ∧ b.Indexes b')
          (fun b _ new => b.WellFormed ∧ new < b.size ∧ Settled subst b new)
          (fun b h => ⟨h, .refl b⟩)
          (fun first second h =>
            ⟨(second (first h).1).1, (first h).2.trans (second (first h).1).2⟩)
          (fun grows h => ⟨(grows h.1).1, Nat.lt_of_lt_of_le h.2.1 (grows h.1).2.grows.size_le,
            h.2.2.mono h.1 (grows h.1).2⟩)
          (fun a member b new b' start call => by
            rcases start with ⟨bWf, grown, symbols⟩
            have validB := valid.mono wf grown
            have step := applySubstitution_spec bWf validB call
            have bWf' := step.grows.wf bWf
            rcases ih bWf validB call with ⟨indexes, settled⟩
            exact ⟨⟨bWf', grown.trans step.grows.grows, step.symbols.trans symbols⟩,
              fun _ => ⟨bWf', indexes⟩, bWf', step.valid, settled⟩)
          ⟨wf, .refl bank, rfl⟩ loop with ⟨⟨midWf, grown, symbols⟩, grows, settled⟩
        have kinds : mid.symbols.isVar t.symbolId = false := by
          rw [symbols, ← TermBank.isVar_term entry, isVar]
        have news : ∀ a ∈ newArgs, a < mid.size ∧ Settled subst mid a := by
          intro a member
          rcases forall₂_mem_right settled member with ⟨_, _, _, inside, done⟩
          exact ⟨inside, done⟩
        rcases TermBank.makeTerm_indexes mid t.symbolId newArgs with ⟨added, known⟩
        have entry' := TermBank.makeTerm_term midWf.toIndexSound t.symbolId newArgs
        have symbols' := TermBank.makeTerm_symbols mid t.symbolId newArgs
        have out : mid.makeTerm t.symbolId newArgs = (term', bank') := pure_ok_iff.mp run
        rw [out] at added known entry' symbols'
        refine ⟨(grows wf).2.trans added, .node entry' ?_ known fun a member => ?_⟩
        · rw [TermBank.isVar_term entry', symbols', kinds]
        · exact (news a member).2.mono midWf added

/-- Under bindings without a cycle the result of an application has no bound
variable, and applying again returns it and leaves the pool. -/
theorem apply_twice (wf : bank.WellFormed) (valid : subst.ValidIn bank)
    (acyclic : WellFounded (Feeds (subst.trees bank))) {term : Nat} (inside : term < bank.size) :
    ∃ id bank', Returns (fun fuel => applySubstitution subst fuel term bank) (id, bank') ∧
      (∀ x, Occurs x (bank'.tree id) → subst.find x = none) ∧
      Returns (fun fuel => applySubstitution subst fuel id bank') (id, bank') := by
  rcases apply_reads wf valid acyclic inside with ⟨id, bank', done, step⟩
  rcases done.exists with ⟨fuel, run⟩
  refine ⟨id, bank', done, fun x occurs => ?_, ?_⟩
  · exact trees_none.mp (applied_free step.tree occurs)
  · exact (applySubstitution_settled wf valid run).2.apply (step.grows.wf wf)

theorem unify_inside {config : UnificationConfig} {fuel t1 t2 : Nat} {out : Bool × Substitution}
    (run : unify bank config fuel t1 t2 subst = .ok out) : t1 < bank.size ∧ t2 < bank.size := by
  have start : ∀ {id last : Nat}, Walk subst bank id last → id < bank.size := by
    intro id last walk
    cases walk with
    | stop inside _ => exact inside
    | step isVar _ _ => exact TermBank.isVar_lt isVar
  cases fuel with
  | zero => cases run
  | succ fuel =>
      rw [unify, bind_ok_iff] at run
      rcases run with ⟨r1, walked1, run⟩
      rcases bind_ok_iff.mp run with ⟨r2, walked2, _⟩
      exact ⟨start (resolve_walk walked1), start (resolve_walk walked2)⟩

/-- The unifiers that `unify` computes with the occurs check on are idempotent. -/
theorem unifier_idempotent (wf : bank.WellFormed) {config : UnificationConfig}
    (enabled : config.enableOccursCheck = true) {t1 t2 : Nat}
    (run : Returns (fun fuel => unify bank config fuel t1 t2 {}) (true, subst)) {term : Nat}
    (inside : term < bank.size) :
    ∃ id bank', Returns (fun fuel => applySubstitution subst fuel term bank) (id, bank') ∧
      (∀ x, Occurs x (bank'.tree id) → subst.find x = none) ∧
      Returns (fun fuel => applySubstitution subst fuel id bank') (id, bank') := by
  rcases run.exists with ⟨fuel, call⟩
  have terms := unify_inside call
  have valid := (unify_keeps wf (empty_validIn bank) call).valid
  exact apply_twice wf valid (unify_acyclic wf (empty_validIn bank) (empty_wellFounded bank) terms.1
    terms.2 (Or.inl enabled) call) inside

theorem unifier_idempotent_sample : ∃ (clauses : List Clause) (env : Env) (id : Nat)
    (bank' : TermBank), readInput nestedInput = .ok (clauses, env) ∧
    Returns (fun fuel => unify env.bank ⟨true⟩ fuel 3 6 {}) (true, nestedBindings) ∧
    Returns (fun fuel => applySubstitution nestedBindings fuel 3 env.bank) (id, bank') ∧
    Returns (fun fuel => applySubstitution nestedBindings fuel id bank') (id, bank') := by
  rcases nested_pool with ⟨clauses, env, read, wf, _, _, size, _, done⟩
  have inside : 3 < env.bank.size := by rw [size]; decide
  have enabled : (⟨true⟩ : UnificationConfig).enableOccursCheck = true := rfl
  rcases unifier_idempotent wf enabled done inside with ⟨id, bank', first, _, second⟩
  exact ⟨clauses, env, id, bank', read, done, first, second⟩

end Idempotence

end AtpEngine
