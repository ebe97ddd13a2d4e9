import AtpEngine.Resolution

/-!
Termination of renaming, resolution and factoring. A renaming throws only when
one of its fresh names is already a symbol of another kind; an inference goes on
forever only when its unification closes a cycle of bindings.
-/
namespace AtpEngine

open Fuelled Triangular TermTree Substitution

section Renaming

theorem collectVariables_returns {bank : TermBank} (wf : bank.WellFormed) {term : Nat}
    (inside : term < bank.size) (seen : List Nat) :
    ∃ out, Returns (fun fuel => collectVariables bank fuel term seen) out := by
  induction term using Nat.strong_induction_on generalizing seen with
  | _ term ih =>
    suffices ∃ out, Returns (fun fuel => do
        if ← bank.isVariable term then pure (seen.insert term)
        else
          let t ← bank.getTerm term
          t.args.foldlM (fun seen arg => collectVariables bank fuel arg seen) seen) out by
      rcases this with ⟨out, done⟩
      exact ⟨out, .succ (.congr (fun _ => rfl) done)⟩
    simp only [TermBank.isVariable_eq wf inside, bind_ok]
    rcases TermBank.tree_cases wf inside with ⟨isVar, _⟩ | ⟨t, entry, isVar, below, _⟩
    · exact ⟨_, .congr (fun _ => if_pos isVar) (.const _)⟩
    · simp only [isVar, Bool.false_eq_true, if_false, TermBank.getTerm_ok.mpr entry, bind_ok]
      rcases foldlM_returns (fun _ => True) (l := t.args)
        (f := fun fuel seen arg => collectVariables bank fuel arg seen) (b := seen)
        (fun arg member seen _ => by
          have smaller := below arg member
          rcases ih arg smaller (Nat.lt_trans smaller inside) seen with ⟨out, done⟩
          exact ⟨out, done, trivial⟩) trivial with ⟨out, done, _⟩
      exact ⟨out, done⟩

theorem varSet_returns {bank : TermBank} (wf : bank.WellFormed) {c : Clause}
    (valid : c.ValidIn bank) :
    ∃ varSet, Returns (fun fuel => c.literals.foldlM
      (fun seen lit => collectVariables bank fuel lit.atom seen) []) varSet := by
  rcases foldlM_returns (fun _ => True) (l := c.literals)
    (f := fun fuel seen lit => collectVariables bank fuel lit.atom seen) (b := [])
    (fun lit member seen _ => by
      rcases collectVariables_returns wf (valid lit member) seen with ⟨out, done⟩
      exact ⟨out, done, trivial⟩) trivial with ⟨varSet, done, _⟩
  exact ⟨varSet, done⟩

theorem freshVariable_ok {env : Env} {n : Nat} (names : env.NamesFree (n + 1)) :
    ∃ y env', freshVariable env = .ok (y, env') := by
  have absent := names env.varCounter (Nat.le_refl _) (by omega)
  simp only [freshVariable, SymbolTable.intern, absent, bind_ok]
  exact ⟨_, _, rfl⟩

theorem bindFresh_ok {vars : List Nat} {env : Env} (wf : env.bank.WellFormed)
    (names : env.NamesFree vars.length) (subst : Substitution) :
    ∃ subst' env', bindFresh vars subst env = .ok (subst', env') := by
  induction vars generalizing env subst with
  | nil => exact ⟨subst, env, rfl⟩
  | cons v rest ih =>
      rcases freshVariable_ok names with ⟨y, mid, first⟩
      rcases freshVariable_spec wf first with ⟨grown, _, next⟩
      rcases ih (grown.bank.wf wf) (next rest.length names).2.2 (subst.bind v y).2 with
        ⟨subst', env', later⟩
      exact ⟨subst', env', by rw [bindFresh, first, bind_ok]; exact later⟩

theorem FreshBindings.acyclic {vars : List Nat} {subst : Substitution} {env env' : Env}
    (bindings : FreshBindings vars {} env subst env') (names : env.NamesFree vars.length)
    (areVars : ∀ v ∈ vars, env.bank.isVar v = true) :
    WellFounded (Feeds (subst.trees env'.bank)) := by
  have fresh : ∀ y x, Feeds (subst.trees env'.bank) y x → x ∈ vars ∧
      env.bank.size ≤ y := by
    rintro y x ⟨t, bound, occurs⟩
    rcases Option.map_eq_some_iff.mp bound with ⟨z, found, rfl⟩
    rw [TermBank.tree_var (bindings.isVar found), occurs_var] at occurs
    exact ⟨bindings.listed found, occurs ▸ bindings.new names found⟩
  have leaf : ∀ y, env.bank.size ≤ y → Acc (Feeds (subst.trees env'.bank)) y := by
    intro y new
    apply Acc.intro y
    intro z feeds
    have old := TermBank.isVar_lt (areVars y (fresh z y feeds).1)
    exact absurd old (Nat.not_lt_of_le new)
  exact ⟨fun x => Acc.intro x fun y feeds => leaf y (fresh y x feeds).2⟩

theorem applyLiterals_returns {subst : Substitution} {lits : List Literal} {bank : TermBank}
    (wf : bank.WellFormed) (valid : subst.ValidIn bank)
    (acyclic : WellFounded (Feeds (subst.trees bank)))
    (inside : ∀ lit ∈ lits, lit.atom < bank.size) :
    ∃ lits' bank', Returns (fun fuel => applyLiterals subst fuel lits bank) (lits', bank') := by
  rcases mapAccum_returns (l := lits) (s := bank)
    (f := fun fuel lit bank => do
      let out ← applySubstitution subst fuel lit.atom bank
      pure ((⟨out.1, lit.isPositive⟩ : Literal), out.2))
    (fun b => b.WellFormed ∧ bank.Extends b) (fun _ => True)
    (fun lit member b start => by
      rcases start with ⟨bWf, grown⟩
      have trees := trees_extends valid wf bWf grown
      have old := Nat.lt_of_lt_of_le (inside lit member) grown.size_le
      rcases applySubstitution_returns bWf (valid.mono wf grown) (trees ▸ acyclic) old with
        ⟨atom, b', done⟩
      rcases done.exists with ⟨fuel, run⟩
      have step := applySubstitution_spec bWf (valid.mono wf grown) run
      exact ⟨_, b', done.bind (.const _), ⟨step.grows.wf bWf, grown.trans step.grows.grows⟩,
        trivial⟩)
    ⟨wf, .refl bank⟩ with ⟨lits', bank', done, _⟩
  exact ⟨lits', bank', done⟩

/-- The fresh names a renaming of the clause is going to intern are all free. -/
def Env.CanRename (env : Env) (c : Clause) : Prop :=
  ∀ fuel vars,
    c.literals.foldlM (fun seen lit => collectVariables env.bank fuel lit.atom seen) [] =
      .ok vars →
    env.NamesFree vars.length

theorem renameVariables_returns (order : VariableOrder) {c : Clause} {env : Env}
    (wf : env.bank.WellFormed) (valid : c.ValidIn env.bank) (names : env.CanRename c) :
    ∃ c' env', Returns (fun fuel => renameVariables order fuel c env) (c', env') := by
  rcases varSet_returns wf valid with ⟨varSet, collected⟩
  rcases collected.exists with ⟨fuel, run⟩
  rcases varSet_spec wf run with ⟨members, nodup⟩
  cases empty : varSet.isEmpty with
  | true => exact ⟨c, env, collected.bind (.congr (fun _ => by rw [empty]; rfl) (.const _))⟩
  | false =>
      have perm := order.perm env varSet
      have listed : ∀ x, x ∈ order.enumerate env varSet ↔
          ClauseLogic.VarOf x (env.bank.read c.literals) :=
        fun x => perm.mem_iff.trans (members x)
      have areVars : ∀ x, x ∈ order.enumerate env varSet → env.bank.isVar x = true :=
        fun x member => varOf_lt wf valid ((listed x).mp member)
      have free : env.NamesFree (order.enumerate env varSet).length := by
        rw [perm.length_eq]
        exact names fuel varSet run
      rcases bindFresh_ok wf free {} with ⟨subst, mid, bound⟩
      have bindings := bindFresh_spec wf (empty_validIn env.bank) (perm.nodup_iff.mpr nodup) areVars
        (fun _ _ => rfl) bound
      rcases applyLiterals_returns (bindings.grows.bank.wf wf) bindings.valid
        (bindings.acyclic free areVars)
        (fun lit member => valid.mono bindings.grows.bank.grows lit member) with
          ⟨lits, bank, done⟩
      refine ⟨{ c with literals := lits }, { mid with bank }, collected.bind ?_⟩
      refine done.mono fun fuel applied => ?_
      simp only [empty, Bool.false_eq_true, if_false, bound, bind_ok, applied]
      rfl

end Renaming

section Inferences

variable {order : VariableOrder} {uconfig : UnificationConfig}

def Inference.NamesFree : Inference → Env → Prop
  | .resolve _ _ c2 _, env => env.CanRename c2
  | .factor _ _ _, _ => True

theorem inferred_returns {bank : TermBank} (wf : bank.WellFormed) {atom1 atom2 : Nat}
    (inside1 : atom1 < bank.size) (inside2 : atom2 < bank.size)
    (safe : uconfig.enableOccursCheck = true ∨
      ¬ AtpEngine.ClosesCycle bank uconfig atom1 atom2 {}) :
    ∃ unified subst, Returns (fun fuel => unify bank uconfig fuel atom1 atom2 {})
      (unified, subst) ∧
      ∀ lits, (∀ lit ∈ lits, lit.atom < bank.size) → ∀ bank', bank.Grows bank' →
        bank'.WellFormed → ∃ lits' last,
          Returns (fun fuel => applyLiterals subst fuel lits bank') (lits', last) ∧
            bank'.Grows last := by
  rcases unify_returns wf (empty_validIn bank) (empty_wellFounded bank) inside1 inside2 safe with
    ⟨unified, subst, done, keeps, acyclic⟩
  refine ⟨unified, subst, done, fun lits inside bank' grown wf' => ?_⟩
  have trees := trees_extends keeps.valid wf wf' grown.grows
  have valid := keeps.valid.mono wf grown.grows
  have inside' : ∀ lit ∈ lits, lit.atom < bank'.size := fun lit member =>
    Nat.lt_of_lt_of_le (inside lit member) grown.grows.size_le
  rcases applyLiterals_returns wf' valid (trees ▸ acyclic) inside' with ⟨lits', last, applied⟩
  rcases applied.exists with ⟨fuel, run⟩
  exact ⟨lits', last, applied, (applyLiterals_spec wf' valid inside' run).grows⟩

theorem Clause.literal_inside {c : Clause} {bank : TermBank} (valid : c.ValidIn bank) {i : Nat}
    (inRange : i < c.size) : ∃ lit, c.literals[i]? = some lit ∧ lit.atom < bank.size :=
  ⟨c.literals.get ⟨i, inRange⟩, List.getElem?_eq_getElem inRange,
    valid _ (List.get_mem _ _)⟩

theorem resolve_answers {c1 c2 : Clause} {i j : Nat} {env : Env} (wf : env.bank.WellFormed)
    (valid1 : c1.ValidIn env.bank) (valid2 : c2.ValidIn env.bank) (inRange1 : i < c1.size)
    (inRange2 : j < c2.size) (names : env.CanRename c2) (safe : uconfig.enableOccursCheck = true ∨
      ¬ Inference.ClosesCycle order uconfig (.resolve c1 i c2 j) env) :
    ∃ out env', Returns (fun fuel => resolve order uconfig fuel c1 i c2 j env) (out, env') := by
  rcases c1.literal_inside valid1 inRange1 with ⟨lit1, at_i, inside1⟩
  rcases c2.literal_inside valid2 inRange2 with ⟨lit2, at_j, _⟩
  simp only [resolve, Clause.literalAt_ok.mpr at_i, Clause.literalAt_ok.mpr at_j, bind_ok]
  split
  · exact ⟨none, env, .const _⟩
  next differ =>
  rcases renameVariables_returns order wf valid2 names with ⟨c2r, mid, renames⟩
  rcases renames.exists with ⟨fuel, rename⟩
  have renamed := renameVariables_spec wf valid2 rename
  have wfMid := renamed.grows.bank.wf wf
  have grown := renamed.grows.bank.grows
  have width : j < c2r.size := renamed.size ▸ inRange2
  rcases c2r.literal_inside renamed.valid width with ⟨lit2r, at_j', inside2⟩
  rcases inferred_returns wfMid (Nat.lt_of_lt_of_le inside1 grown.size_le) inside2
    (safe.imp_right fun never cycle => never (.resolve at_i at_j differ rename at_j' cycle)) with
    ⟨unified, subst, unifies, applies⟩
  cases unified with
  | false =>
      refine ⟨none, mid, ?_⟩
      filter_upwards [renames, unifies] with fuel h1 h2
      simp only [h1, h2, Clause.literalAt_ok.mpr at_j', bind_ok]
      rfl
  | true =>
      have left : ∀ lit ∈ c1.literals.eraseIdx i, lit.atom < mid.bank.size := fun lit member =>
        valid1.mono grown lit (List.eraseIdx_subset member)
      have right : ∀ lit ∈ c2r.literals.eraseIdx j, lit.atom < mid.bank.size :=
        fun lit member =>
        renamed.valid lit (List.eraseIdx_subset member)
      rcases applies _ left mid.bank (.refl _) wfMid with ⟨lits1, bank1, first, grown1⟩
      rcases applies _ right bank1 grown1 (grown1.wf wfMid) with ⟨lits2, bank2, second, _⟩
      refine ⟨some ((Inference.resolve c1 i c2 j).conclusion (lits1 ++ lits2)),
        { mid with bank := bank2 }, ?_⟩
      filter_upwards [renames, unifies, first, second] with fuel h1 h2 h3 h4
      simp only [h1, h2, h3, h4, Clause.literalAt_ok.mpr at_j', bind_ok]
      rfl

theorem factorPair_answers {c : Clause} {i j : Nat} {env : Env} (wf : env.bank.WellFormed)
    (valid : c.ValidIn env.bank) (inRange1 : i < c.size) (inRange2 : j < c.size)
    (safe : uconfig.enableOccursCheck = true ∨
      ¬ Inference.ClosesCycle order uconfig (.factor c i j) env) :
    ∃ out env', Returns (fun fuel => factorPair uconfig fuel c i j env) (out, env') := by
  rcases c.literal_inside valid inRange1 with ⟨litI, at_i, inside1⟩
  rcases c.literal_inside valid inRange2 with ⟨litJ, at_j, inside2⟩
  simp only [factorPair, Clause.literalAt_ok.mpr at_i, Clause.literalAt_ok.mpr at_j, bind_ok]
  split
  · exact ⟨none, env, .const _⟩
  next agree =>
  rcases inferred_returns wf inside1 inside2
    (safe.imp_right fun never cycle => never (.factor at_i at_j (not_not.mp agree) cycle)) with
    ⟨unified, subst, unifies, applies⟩
  cases unified with
  | false =>
      refine ⟨none, env, ?_⟩
      filter_upwards [unifies] with fuel h
      simp only [h, bind_ok]
      rfl
  | true =>
      have rest : ∀ lit ∈ c.literals.eraseIdx j, lit.atom < env.bank.size := fun lit member =>
        valid lit (List.eraseIdx_subset member)
      rcases applies _ rest env.bank (.refl _) wf with ⟨lits, bank, applied, _⟩
      refine ⟨some ((Inference.factor c i j).conclusion lits), { env with bank }, ?_⟩
      filter_upwards [unifies, applied] with fuel h1 h2
      simp only [h1, h2, bind_ok]
      rfl

/-- An inference on stored clauses returns unless one of the two accidents happens. -/
theorem perform_returns {inf : Inference} {env : Env} (wf : env.bank.WellFormed)
    (valid : inf.ValidIn env.bank) (inRange : inf.InRange) (names : inf.NamesFree env)
    (safe : uconfig.enableOccursCheck = true ∨ ¬ inf.ClosesCycle order uconfig env) :
    ∃ out env', Returns (fun fuel => inf.perform order uconfig fuel env) (out, env') := by
  cases inf with
  | resolve c1 i c2 j =>
      exact resolve_answers wf (valid c1 (by simp [Inference.premises]))
        (valid c2 (by simp [Inference.premises])) inRange.1 inRange.2 names safe
  | factor c i j =>
      exact factorPair_answers wf (valid c (by simp [Inference.premises]))
        (Nat.lt_trans inRange.1 inRange.2) inRange.2 safe

end Inferences

end AtpEngine
