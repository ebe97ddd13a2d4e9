import AtpEngine.Unification

/-!
Termination of unification and of substitution application. Both follow bindings
without a bound, so they return as long as no variable reaches itself through
the bindings. `ClosesCycle` says which calls of `unify` break that; with the
occurs check on none does.
-/
namespace AtpEngine

open Fuelled Triangular TermTree Substitution

section Following

variable {subst : Substitution} {bank : TermBank}

theorem resolve_persists (fuel id : Nat) :
    Persists .outOfFuel (subst.resolve bank fuel id) (subst.resolve bank (fuel + 1) id) := by
  induction fuel generalizing id with
  | zero => exact .error _ _
  | succ fuel ih =>
      rw [Substitution.resolve, Substitution.resolve]
      refine (Persists.refl _).bind fun isVar => ?_
      cases isVar with
      | false => exact .refl _
      | true =>
          cases subst.find id with
          | none => exact .refl _
          | some next => exact ih next

theorem occursIn_persists (fuel var term : Nat) :
    Persists .outOfFuel (subst.occursIn bank fuel var term)
      (subst.occursIn bank (fuel + 1) var term) := by
  induction fuel generalizing term with
  | zero => exact .error _ _
  | succ fuel ih =>
      rw [Substitution.occursIn, Substitution.occursIn]
      refine (resolve_persists fuel term).bind fun last => ?_
      split
      · exact .refl _
      · refine (Persists.refl _).bind fun isVar => ?_
        cases isVar with
        | true => exact .refl _
        | false => exact (Persists.refl _).bind fun t => .anyM ih t.args

theorem resolve_returns (wf : bank.WellFormed) (valid : subst.ValidIn bank)
    (acyclic : WellFounded (Feeds (subst.trees bank))) {id : Nat} (inside : id < bank.size) :
    ∃ last, Returns (fun fuel => subst.resolve bank fuel id) last ∧
      Walk subst bank id last := by
  suffices ∃ last, Returns (fun fuel => subst.resolve bank fuel id) last by
    rcases this with ⟨last, done⟩
    rcases done.exists with ⟨fuel, run⟩
    exact ⟨last, done, resolve_walk run⟩
  induction id using acyclic.induction with
  | _ id ih =>
    have unfolded : ∀ fuel, subst.resolve bank (fuel + 1) id =
        if bank.isVar id = true then
          (subst.find id).elim (.ok id) (subst.resolve bank fuel)
        else .ok id := fun fuel => by
      rw [Substitution.resolve, TermBank.isVariable_eq wf inside, bind_ok]
      cases subst.find id <;> rfl
    cases isVar : bank.isVar id with
    | false =>
        exact ⟨id,
          .succ (.congr (fun fuel => (unfolded fuel).trans (by simp [isVar])) (.const id))⟩
    | true =>
        cases found : subst.find id with
        | none =>
            exact ⟨id, .succ (.congr (fun fuel => (unfolded fuel).trans (by simp [found]))
              (.const id))⟩
        | some next =>
            have nextInside := (valid id next found).2
            have step : ∀ fuel, subst.resolve bank (fuel + 1) id = subst.resolve bank fuel next :=
              fun fuel => (unfolded fuel).trans (by simp [isVar, found])
            cases nextVar : bank.isVar next with
            | true =>
                rcases ih next
                  ⟨_, trees_some found, by rw [TermBank.tree_var nextVar]; exact .var⟩
                  nextInside with ⟨last, done⟩
                exact ⟨last, .succ (.congr step done)⟩
            | false =>
                -- a term that is no variable is its own end
                have stops : ∀ fuel, subst.resolve bank (fuel + 1) next = .ok next :=
                  fun fuel => by
                  rw [Substitution.resolve, TermBank.isVariable_eq wf nextInside, nextVar]
                  rfl
                exact ⟨next, .succ (.congr step (.succ (.congr stops (.const next))))⟩

theorem applied_args {subst : Substitution} {bank : TermBank} (wf : bank.WellFormed) {id : Nat}
    {t : Term} (entry : bank.terms[id]? = some t) (isVar : bank.isVar id = false)
    {τ : TermTree Nat Nat} (applied : Applied (subst.trees bank) (bank.tree id) τ) :
    ∀ arg ∈ t.args, ∃ δ, Applied (subst.trees bank) (bank.tree arg) δ ∧
      size δ < size τ := by
  intro arg member
  rw [TermBank.tree_node wf entry isVar] at applied
  cases applied with
  | @node _ _ ds width inner =>
      rcases mem_zip_of_mem_left width (List.mem_map_of_mem member) with ⟨δ, child, pair⟩
      exact ⟨δ, inner _ _ pair, size_child_lt child⟩

theorem occursIn_returns (wf : bank.WellFormed) (valid : subst.ValidIn bank)
    (acyclic : WellFounded (Feeds (subst.trees bank))) (var : Nat) {term : Nat}
    (inside : term < bank.size) :
    ∃ found, Returns (fun fuel => subst.occursIn bank fuel var term) found := by
  rcases applied_total acyclic (bank.tree term) with ⟨τ, applied⟩
  -- by induction on the size of the resolved tree
  induction measure : size τ using Nat.strong_induction_on generalizing term τ with
  | _ m ih =>
    subst measure
    rcases resolve_returns wf valid acyclic inside with ⟨last, resolved, walk⟩
    have lastApplied := walk.applied_iff.mp applied
    suffices ∃ found, Returns (fun fuel =>
        if var = last then pure true
        else do
          if ← bank.isVariable last then pure false
          else
            let t ← bank.getTerm last
            t.args.anyM fun arg => subst.occursIn bank fuel var arg) found by
      rcases this with ⟨found, done⟩
      exact ⟨found, .succ (.congr (fun _ => rfl) (resolved.bind done))⟩
    by_cases same : var = last
    · exact ⟨true, .congr (fun _ => if_pos same) (.const true)⟩
    · simp only [if_neg same, TermBank.isVariable_eq wf walk.valid, bind_ok]
      rcases TermBank.tree_cases wf walk.valid with ⟨isVar, _⟩ | ⟨t, entry, isVar, below, _⟩
      · exact ⟨false, .congr (fun _ => by simp [isVar]; rfl) (.const false)⟩
      · have parts := applied_args wf entry isVar lastApplied
        simp only [isVar, Bool.false_eq_true, if_false, TermBank.getTerm_ok.mpr entry, bind_ok]
        refine anyM_returns fun arg member => ?_
        rcases parts arg member with ⟨δ, argApplied, smaller⟩
        exact ih (size δ) smaller (Nat.lt_trans (below arg member) walk.valid) δ argApplied rfl

theorem applySubstitution_returns (wf : bank.WellFormed) (valid : subst.ValidIn bank)
    (acyclic : WellFounded (Feeds (subst.trees bank))) {term : Nat} (inside : term < bank.size) :
    ∃ term' bank', Returns (fun fuel => applySubstitution subst fuel term bank)
      (term', bank') := by
  rcases applied_total acyclic (bank.tree term) with ⟨τ, applied⟩
  induction measure : size τ using Nat.strong_induction_on generalizing bank term τ with
  | _ m ih =>
    subst measure
    rcases resolve_returns wf valid acyclic inside with ⟨last, resolved, walk⟩
    have lastApplied := walk.applied_iff.mp applied
    suffices ∃ term' bank', Returns (fun fuel => do
        if ← bank.isVariable last then pure (last, bank)
        else
          let t ← bank.getTerm last
          let out ← mapAccum (applySubstitution subst fuel) t.args bank
          pure (out.2.makeTerm t.symbolId out.1)) (term', bank') by
      rcases this with ⟨term', bank', done⟩
      exact ⟨term', bank', .succ (.congr (fun _ => rfl) (resolved.bind done))⟩
    simp only [TermBank.isVariable_eq wf walk.valid, bind_ok]
    rcases TermBank.tree_cases wf walk.valid with ⟨isVar, _⟩ | ⟨t, entry, isVar, below, _⟩
    · exact ⟨last, bank, .congr (fun _ => by rw [isVar]; rfl) (.const _)⟩
    · have parts := applied_args wf entry isVar lastApplied
      simp only [isVar, Bool.false_eq_true, if_false, TermBank.getTerm_ok.mpr entry, bind_ok]
      -- each argument is resolved in a larger pool that reads it as before
      rcases mapAccum_returns (f := fun fuel => applySubstitution subst fuel)
        (fun b => b.WellFormed ∧ bank.Extends b) (fun _ => True) (l := t.args) (s := bank)
        (fun arg member b start => by
          rcases start with ⟨bWf, grown⟩
          rcases parts arg member with ⟨δ, argApplied, smaller⟩
          have old := Nat.lt_trans (below arg member) walk.valid
          have trees := trees_extends valid wf bWf grown
          rw [← trees, ← TermBank.tree_extends wf bWf grown old] at argApplied
          have validB := valid.mono wf grown
          rcases ih (size δ) smaller bWf validB (trees ▸ acyclic)
            (Nat.lt_of_lt_of_le old grown.size_le) δ argApplied rfl with ⟨new, b', done⟩
          rcases done.exists with ⟨fuel, run⟩
          have step := applySubstitution_spec bWf validB run
          exact ⟨new, b', done, ⟨step.grows.wf bWf, grown.trans step.grows.grows⟩, trivial⟩)
        ⟨wf, .refl bank⟩ with ⟨newArgs, mid, loop, _, _⟩
      exact ⟨_, _, loop.bind (.const _)⟩

end Following

section Unifying

variable {bank : TermBank} {config : UnificationConfig}

variable (bank config) in
/-- A call of `unify`, or one of the calls it makes, is about to bind a variable
to a term in which it stands under the bindings made so far. -/
inductive ClosesCycle : Nat → Nat → Substitution → Prop where
  | bind {t1 t2 x r : Nat} {subst : Substitution} :
      (Walk subst bank t1 x ∧ Walk subst bank t2 r ∨ Walk subst bank t1 r ∧
        Walk subst bank t2 x) →
      x ≠ r → bank.isVar x = true → OccursUnder (subst.trees bank) x (bank.tree r) →
      ClosesCycle t1 t2 subst
  | args {t1 t2 r1 r2 a b fuel : Nat} {term1 term2 : Term} {before after : List (Nat × Nat)}
      {subst mid : Substitution} : Walk subst bank t1 r1 → Walk subst bank t2 r2 →
      bank.isVar r1 = false → bank.isVar r2 = false → bank.terms[r1]? = some term1 →
      bank.terms[r2]? = some term2 → term1.symbolId = term2.symbolId →
      term1.arity = term2.arity → argPairs term1 term2 = before ++ (a, b) :: after →
      unifyArgs (unify bank config fuel) before subst = .ok (true, mid) → ClosesCycle a b mid →
      ClosesCycle t1 t2 subst

theorem unifyArgs_persists
    {pair pair' : Nat → Nat → Substitution → Except Fault (Bool × Substitution)}
    (each : ∀ a b subst, Persists .outOfFuel (pair a b subst) (pair' a b subst))
    (pairs : List (Nat × Nat)) (subst : Substitution) :
    Persists .outOfFuel (unifyArgs pair pairs subst) (unifyArgs pair' pairs subst) := by
  induction pairs generalizing subst with
  | nil => exact .refl _
  | cons p rest ih =>
      refine (each p.1 p.2 subst).bind fun answer => ?_
      rcases answer with ⟨_ | _, mid⟩
      · exact .refl _
      · exact ih mid

theorem unify_persists (bank : TermBank) (config : UnificationConfig) (fuel t1 t2 : Nat)
    (subst : Substitution) :
    Persists .outOfFuel (unify bank config fuel t1 t2 subst)
      (unify bank config (fuel + 1) t1 t2 subst) := by
  have bindPersists : ∀ fuel subst x term,
      Persists .outOfFuel (bindVariable bank config fuel subst x term)
      (bindVariable bank config (fuel + 1) subst x term) := by
    intro fuel subst x term
    unfold bindVariable
    split
    · exact (occursIn_persists fuel x term).bind fun _ => .refl _
    · exact .refl _
  induction fuel generalizing t1 t2 subst with
  | zero => exact .error _ _
  | succ fuel ih =>
      rw [unify, unify]
      refine (resolve_persists fuel t1).bind fun r1 => (resolve_persists fuel t2).bind fun r2 => ?_
      split
      · exact .refl _
      refine (Persists.refl _).bind fun var1 => ?_
      cases var1 with
      | true => exact bindPersists fuel subst r1 r2
      | false =>
          refine (Persists.refl _).bind fun var2 => ?_
          cases var2 with
          | true => exact bindPersists fuel subst r2 r1
          | false =>
              refine (Persists.refl _).bind fun term1 => (Persists.refl _).bind fun term2 => ?_
              split
              · exact .refl _
              · exact unifyArgs_persists ih _ subst

def freeVariables (bank : TermBank) (subst : Substitution) : Finset Nat :=
  (Finset.range bank.size).filter fun x => subst.find x = none

theorem UnifyKeeps.free_lt {subst subst' : Substitution} (keeps : UnifyKeeps bank subst subst') :
    (freeVariables bank subst').card < (freeVariables bank subst).card ∨
      freeVariables bank subst' = freeVariables bank subst ∧
        subst'.trees bank = subst.trees bank := by
  have sub : freeVariables bank subst' ⊆ freeVariables bank subst := by
    intro x free
    rcases Finset.mem_filter.mp free with ⟨inside, absent⟩
    refine Finset.mem_filter.mpr ⟨inside, ?_⟩
    cases found : subst.find x with
    | none => rfl
    | some t =>
        have kept := keeps.grows x _ (trees_some found)
        rw [trees_none.mpr absent] at kept
        cases kept
  rcases eq_or_ssubset_of_subset sub with same | fewer
  · refine Or.inr ⟨same, funext fun x => ?_⟩
    cases found : subst.find x with
    | some t => rw [trees_some found, keeps.grows x _ (trees_some found)]
    | none =>
        rw [trees_none.mpr found, trees_none]
        cases found' : subst'.find x with
        | none => rfl
        | some t =>
            have inside := TermBank.isVar_lt (keeps.valid x t found').1
            have free : x ∈ freeVariables bank subst :=
              Finset.mem_filter.mpr ⟨Finset.mem_range.mpr inside, found⟩
            rw [← same] at free
            rw [(Finset.mem_filter.mp free).2] at found'
            cases found'
  · exact Or.inl (Finset.card_lt_card fewer)

variable (bank config) in
def UnifiesAcyclically (t1 t2 : Nat) (subst : Substitution) : Prop :=
  ∃ unified subst', Returns (fun fuel => unify bank config fuel t1 t2 subst) (unified, subst') ∧
    UnifyKeeps bank subst subst' ∧ WellFounded (Feeds (subst'.trees bank))

theorem bindVariable_returns (wf : bank.WellFormed) {subst : Substitution} {x r : Nat}
    (valid : subst.ValidIn bank) (acyclic : WellFounded (Feeds (subst.trees bank)))
    (isVar : bank.isVar x = true) (free : subst.find x = none) (inside : r < bank.size)
    (safe : config.enableOccursCheck = true ∨ ¬ OccursUnder (subst.trees bank) x (bank.tree r)) :
    ∃ unified subst', Returns (fun fuel => bindVariable bank config fuel subst x r)
        (unified, subst') ∧ UnifyKeeps bank subst subst' ∧
        WellFounded (Feeds (subst'.trees bank)) := by
  have answers : ∃ unified subst', Returns (fun fuel => bindVariable bank config fuel subst x r)
      (unified, subst') := by
    cases enabled : config.enableOccursCheck with
    | false => exact ⟨true, _, .congr (fun _ => by rw [bindVariable, enabled]; rfl) (.const _)⟩
    | true =>
        rcases occursIn_returns wf valid acyclic x inside with ⟨occurs, checked⟩
        cases occurs with
        | false =>
            exact ⟨true, _, .congr (fun _ => by rw [bindVariable, enabled]; rfl)
              (checked.bind (.const (true, (subst.bind x r).2)))⟩
        | true =>
            exact ⟨false, subst, .congr (fun _ => by rw [bindVariable, enabled]; rfl)
              (checked.bind (.const (false, subst)))⟩
  rcases answers with ⟨unified, subst', done⟩
  rcases done.exists with ⟨fuel, run⟩
  rcases bindVariable_cases wf isVar free run with ⟨_, rfl, passed⟩ | ⟨_, rfl, _⟩
  · refine ⟨unified, _, done, ⟨bind_validIn valid free isVar inside, bind_extends free r⟩,
      ?_⟩
    rw [trees_bind free]
    exact bind_wellFounded acyclic (safe.elim passed id)
  · exact ⟨unified, _, done, .refl valid, acyclic⟩

theorem unifyArgs_returns {subst : Substitution} {pairs : List (Nat × Nat)}
    (valid : subst.ValidIn bank) (acyclic : WellFounded (Feeds (subst.trees bank)))
    (safe : config.enableOccursCheck = true ∨ ∀ before a b after fuel mid,
      pairs = before ++ (a, b) :: after →
      unifyArgs (unify bank config fuel) before subst = .ok (true, mid) →
      ¬ ClosesCycle bank config a b mid)
    (each : ∀ a b, (a, b) ∈ pairs → ∀ mid, UnifyKeeps bank subst mid →
      WellFounded (Feeds (mid.trees bank)) →
      (config.enableOccursCheck = true ∨ ¬ ClosesCycle bank config a b mid) →
      UnifiesAcyclically bank config a b mid) :
    ∃ unified subst', Returns (fun fuel => unifyArgs (unify bank config fuel) pairs subst)
        (unified, subst') ∧ UnifyKeeps bank subst subst' ∧
        WellFounded (Feeds (subst'.trees bank)) := by
  induction pairs generalizing subst with
  | nil => exact ⟨true, subst, .const _, .refl valid, acyclic⟩
  | cons pair rest ih =>
      rcases pair with ⟨a, b⟩
      have safeHead := safe.imp_right fun never => never [] a b rest 0 subst rfl rfl
      rcases each a b List.mem_cons_self subst (.refl valid) acyclic safeHead with
        ⟨unified, mid, first, keeps, midAcyclic⟩
      cases unified with
      | false => exact ⟨false, mid, first.bind (.const _), keeps, midAcyclic⟩
      | true =>
          rcases ih keeps.valid midAcyclic
            (safe.imp_right fun never before c d after fuel last split run => by
              subst split
              -- with fuel for both parts the longer loop reaches the same bindings
              have later :=
                Returns.of_persists (fun fuel =>
                  unifyArgs_persists (unify_persists _ _ fuel) before mid) run
              have reach :
                  Returns (fun fuel => unifyArgs (unify bank config fuel) ((a, b) :: before) subst)
                  (true, last) := first.bind later
              rcases reach.exists with ⟨enough, longer⟩
              exact never ((a, b) :: before) c d after enough last rfl longer)
            (fun c d member last kept => each c d (List.mem_cons_of_mem _ member) last
              (keeps.trans kept)) with ⟨unified, last, tail, kept, lastAcyclic⟩
          exact ⟨unified, last, first.bind tail, keeps.trans kept, lastAcyclic⟩

/-- Without a cycle of bindings a call returns: each binding uses up a free
variable, and between bindings the resolved terms get smaller. -/
theorem unify_returns (wf : bank.WellFormed) {t1 t2 : Nat} {subst : Substitution}
    (valid : subst.ValidIn bank) (acyclic : WellFounded (Feeds (subst.trees bank)))
    (inside1 : t1 < bank.size) (inside2 : t2 < bank.size)
    (safe : config.enableOccursCheck = true ∨ ¬ ClosesCycle bank config t1 t2 subst) :
    UnifiesAcyclically bank config t1 t2 subst := by
  rcases applied_total acyclic (bank.tree t1) with ⟨τ, applied⟩
  -- each call binds a variable or goes down in the resolved tree of its first term
  induction count : (freeVariables bank subst).card using Nat.strong_induction_on
    generalizing t1 t2 subst τ with
  | _ n outer =>
    induction measure : size τ using Nat.strong_induction_on generalizing t1 t2 subst τ with
    | _ m inner =>
      subst measure
      rcases resolve_returns wf valid acyclic inside1 with ⟨r1, resolved1, walk1⟩
      rcases resolve_returns wf valid acyclic inside2 with ⟨r2, resolved2, walk2⟩
      have lastApplied := walk1.applied_iff.mp applied
      suffices ∃ unified subst', Returns (fun fuel => do
          if r1 = r2 then pure (true, subst)
          else if ← bank.isVariable r1 then bindVariable bank config fuel subst r1 r2
          else if ← bank.isVariable r2 then bindVariable bank config fuel subst r2 r1
          else
            let term1 ← bank.getTerm r1
            let term2 ← bank.getTerm r2
            if term1.symbolId ≠ term2.symbolId ∨
              term1.arity ≠ term2.arity then pure (false, subst)
            else unifyArgs (unify bank config fuel) (argPairs term1 term2) subst)
              (unified, subst') ∧
          UnifyKeeps bank subst subst' ∧ WellFounded (Feeds (subst'.trees bank)) by
        rcases this with ⟨unified, subst', done, facts⟩
        exact ⟨unified, subst',
          .succ (.congr (fun _ => rfl) (resolved1.bind (resolved2.bind done))), facts⟩
      by_cases same : r1 = r2
      · exact ⟨true, subst, .congr (fun _ => if_pos same) (.const _), .refl valid, acyclic⟩
      simp only [if_neg same, TermBank.isVariable_eq wf walk1.valid,
        TermBank.isVariable_eq wf walk2.valid, bind_ok]
      rcases TermBank.tree_cases wf walk1.valid with
        ⟨var1, _⟩ | ⟨term1, entry1, var1, below1, _⟩
      · simp only [var1, if_true]
        exact bindVariable_returns wf valid acyclic var1 (walk1.free var1) walk2.valid
          (safe.imp_right fun never occurs =>
            never (.bind (Or.inl ⟨walk1, walk2⟩) same var1 occurs))
      simp only [var1, Bool.false_eq_true, if_false]
      rcases TermBank.tree_cases wf walk2.valid with
        ⟨var2, _⟩ | ⟨term2, entry2, var2, below2, _⟩
      · simp only [var2, if_true]
        exact bindVariable_returns wf valid acyclic var2 (walk2.free var2) walk1.valid
          (safe.imp_right fun never occurs =>
            never (.bind (Or.inr ⟨walk1, walk2⟩) (Ne.symm same) var2 occurs))
      simp only [var2, Bool.false_eq_true, if_false, TermBank.getTerm_ok.mpr entry1,
        TermBank.getTerm_ok.mpr entry2, bind_ok]
      split
      · exact ⟨false, subst, .const _, .refl valid, acyclic⟩
      next agree =>
      push Not at agree
      refine unifyArgs_returns valid acyclic
        (safe.imp_right fun never before a b after fuel mid split run cycle =>
          never (.args walk1 walk2 var1 var2 entry1 entry2 agree.1 agree.2 split run cycle)) ?_
      intro a b member mid keeps midAcyclic safeMid
      have inArgs : a ∈ term1.args ∧ b ∈ term2.args :=
        ⟨List.mem_of_mem_take (List.of_mem_zip member).1,
          List.mem_of_mem_take (List.of_mem_zip member).2⟩
      have insideA := Nat.lt_trans (below1 a inArgs.1) walk1.valid
      have insideB := Nat.lt_trans (below2 b inArgs.2) walk2.valid
      rcases keeps.free_lt with fewer | ⟨sameFree, sameTrees⟩
      · rcases applied_total midAcyclic (bank.tree a) with ⟨δ, applied⟩
        exact outer _ (count ▸ fewer) keeps.valid midAcyclic insideA insideB
          safeMid δ applied rfl
      · -- no variable was bound since, and the argument resolves to a smaller tree
        rcases applied_args wf entry1 var1 lastApplied a inArgs.1 with ⟨δ, applied, smaller⟩
        rw [← sameTrees] at applied
        exact inner (size δ) smaller keeps.valid midAcyclic insideA insideB safeMid δ applied
          (sameFree ▸ count) rfl

theorem unify_acyclic (wf : bank.WellFormed) {fuel t1 t2 : Nat} {subst subst' : Substitution}
    {unified : Bool} (valid : subst.ValidIn bank) (acyclic : WellFounded (Feeds (subst.trees bank)))
    (inside1 : t1 < bank.size) (inside2 : t2 < bank.size)
    (safe : config.enableOccursCheck = true ∨ ¬ ClosesCycle bank config t1 t2 subst)
    (run : unify bank config fuel t1 t2 subst = .ok (unified, subst')) :
    WellFounded (Feeds (subst'.trees bank)) := by
  rcases unify_returns wf valid acyclic inside1 inside2 safe with ⟨_, _, done, _, last⟩
  have same :=
    done.unique (Returns.of_persists (fun fuel => unify_persists _ _ fuel t1 t2 subst) run)
  rcases Prod.mk.inj same with ⟨_, rfl⟩
  exact last

end Unifying

end AtpEngine
