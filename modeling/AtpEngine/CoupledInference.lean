import AtpEngine.Coupling
import AtpEngine.InferenceReturns

/-!
Renaming, resolution and factoring on two coupled banks. The two sides may
enumerate a variable set in different orders and count from different numbers:
each fresh variable is then paired with the fresh variable that stands for the
same old one on the other side, and the inferences go on in lock step.
-/
namespace AtpEngine

open Fuelled LockStep

namespace Coupling

variable {w later : Coupling}

structure SameLiteral (w : Coupling) (lit lit' : Literal) : Prop where
  atom : w.Same lit.atom lit'.atom
  isPositive : lit.isPositive = lit'.isPositive

/-- Clauses that differ in the ids of their atoms only. -/
structure SameClause (w : Coupling) (c c' : Clause) : Prop where
  id : c.id = c'.id
  rule : c.rule = c'.rule
  parent1 : c.parent1 = c'.parent1
  parent2 : c.parent2 = c'.parent2
  depth : c.depth = c'.depth
  literals : List.Forall₂ w.SameLiteral c.literals c'.literals

/-- The environments of the two sides, whose counters meet free names only. -/
structure Envs (w : Coupling) (env env' : Env) : Prop where
  left : env.bank = w.left
  right : env'.bank = w.right
  fresh : env.Fresh
  fresh' : env'.Fresh

theorem Envs.fresh_left {env env' : Env} (envs : w.Envs env env') :
    Env.Fresh ⟨w.left, env.varCounter⟩ := fun k ahead => by
  simpa only [envs.left] using envs.fresh k ahead

theorem Envs.fresh_right {env env' : Env} (envs : w.Envs env env') :
    Env.Fresh ⟨w.right, env'.varCounter⟩ := fun k ahead => by
  simpa only [envs.right] using envs.fresh' k ahead

theorem SameLiteral.mono {lit lit' : Literal} (same : w.SameLiteral lit lit')
    (above : w ≤ later) :
    later.SameLiteral lit lit' := ⟨same.atom.mono above, same.isPositive⟩

theorem SameClause.mono {c c' : Clause} (same : w.SameClause c c') (above : w ≤ later) :
    later.SameClause c c' :=
  { same with literals := same.literals.imp fun _ _ lits => lits.mono above }

theorem SameClause.size {c c' : Clause} (same : w.SameClause c c') : c.size = c'.size :=
  same.literals.length_eq

theorem SameClause.literalAt {c c' : Clause} (same : w.SameClause c c') (i : Nat) :
    Alike w.SameLiteral (c.literalAt i) (c'.literalAt i) := by
  have at_i := forall₂_getElem? same.literals i
  rw [Clause.literalAt, Clause.literalAt]
  cases found : c.literals[i]? with
  | none =>
      cases found' : c'.literals[i]? with
      | none => exact .error _
      | some _ => rw [found, found'] at at_i; cases at_i
  | some lit =>
      cases found' : c'.literals[i]? with
      | none => rw [found, found'] at at_i; cases at_i
      | some lit' =>
          rw [found, found'] at at_i
          cases at_i with
          | some same => exact .ok same

section Renaming

theorem collectVariables_alike (fuel : Nat) {a b : Nat} (same : w.Same a b) {seen seen' : List Nat}
    (all : List.Forall₂ w.paired seen seen') :
    Alike (List.Forall₂ w.paired) (collectVariables w.left fuel a seen)
      (collectVariables w.right fuel b seen') := by
  induction fuel generalizing a b seen seen' with
  | zero => exact .error _
  | succ fuel ih =>
      rw [collectVariables, collectVariables]
      rcases same.shape with
        ⟨pair, left, right⟩ | ⟨_, _, _, left, right, entry, entry', _, args⟩
      · simp only [left, right, bind_ok, if_true]
        have known : a ∈ seen ↔ b ∈ seen' := List.rel_mem w.oneToOne pair all
        by_cases member : a ∈ seen
        · rw [List.insert_of_mem member, List.insert_of_mem (known.mp member)]
          exact .pure all
        · rw [List.insert_of_not_mem member, List.insert_of_not_mem (mt known.mpr member)]
          exact .pure (.cons pair all)
      · simp only [left, right, bind_ok, Bool.false_eq_true, if_false,
          TermBank.getTerm_ok.mpr entry, TermBank.getTerm_ok.mpr entry']
        exact Alike.foldlM (R := w.Same) (fun _ _ _ _ same all => ih same all) args all

theorem varSet_alike (fuel : Nat) {lits lits' : List Literal}
    (all : List.Forall₂ w.SameLiteral lits lits') : Alike (List.Forall₂ w.paired)
      (lits.foldlM (fun seen lit => collectVariables w.left fuel lit.atom seen) [])
      (lits'.foldlM (fun seen lit => collectVariables w.right fuel lit.atom seen) []) :=
  Alike.foldlM (R := w.SameLiteral)
    (fun _ _ _ _ same vars => collectVariables_alike fuel same.atom vars) all .nil

theorem bindFresh_follows {env env' : Env} (envs : w.Envs env env') {vars vars' : List Nat}
    (all : List.Forall₂ w.paired vars vars') (nodup : vars.Nodup) (nodup' : vars'.Nodup)
    {listed listed' : List Nat} (perm : listed.Perm vars) (perm' : listed'.Perm vars') :
    Follows Envs SameBindings w (bindFresh listed {} env) (bindFresh listed' {} env') := by
  rcases envs with ⟨left, right, fresh, fresh'⟩
  have wf : env.bank.WellFormed := left ▸ w.leftWf
  have wf' : env'.bank.WellFormed := right ▸ w.rightWf
  have names := fresh.namesFree listed.length
  have names' := fresh'.namesFree listed'.length
  rcases bindFresh_ok wf names {} with ⟨subst, mid, run⟩
  rcases bindFresh_ok wf' names' {} with ⟨subst', mid', run'⟩
  have areVars : ∀ v ∈ listed, env.bank.isVar v = true := fun v member => by
    rcases forall₂_mem_left all (perm.mem_iff.mp member)
      with ⟨_, _, pair⟩
    exact left ▸ w.leftVar pair
  have areVars' : ∀ v ∈ listed', env'.bank.isVar v = true := fun v member => by
    rcases forall₂_mem_right all (perm'.mem_iff.mp member) with ⟨_, _, pair⟩
    exact right ▸ w.rightVar pair
  have bindings := bindFresh_spec wf (empty_validIn env.bank) (perm.nodup_iff.mpr nodup) areVars
    (fun _ _ => rfl) run
  have bindings' :=
    bindFresh_spec wf' (empty_validIn env'.bank) (perm'.nodup_iff.mpr nodup') areVars'
    (fun _ _ => rfl) run'
  -- fresh variables are paired when they stand for paired old ones
  have more : w.Extension mid.bank mid'.bank fun x y =>
      ∃ v u, w.paired v u ∧ subst.find v = some x ∧ subst'.find u = some y :=
    { left := left ▸ bindings.grows.bank.grows
      right := right ▸ bindings'.grows.bank.grows
      leftWf := bindings.grows.bank.wf wf
      rightWf := bindings'.grows.bank.wf wf'
      leftShared := bindings.grows.bank.shared (left ▸ w.leftShared)
      rightShared := bindings'.grows.bank.shared (right ▸ w.rightShared)
      leftNew := fun ⟨_, _, _, found, _⟩ =>
        ⟨left ▸ bindings.new names found, bindings.isVar found⟩
      rightNew := fun ⟨_, _, _, _, found⟩ =>
        ⟨right ▸ bindings'.new names' found, bindings'.isVar found⟩
      oneToOne := by
        constructor
        · rintro x y z ⟨v, u, pair, found, same⟩ ⟨v', u', pair', found', same'⟩
          rcases bindings'.inj names' same same' with rfl
          rcases w.oneToOne.1 pair pair' with rfl
          exact Option.some.inj (found.symm.trans found')
        · rintro x y z ⟨v, u, pair, found, same⟩ ⟨v', u', pair', found', same'⟩
          rcases bindings.inj names found found' with rfl
          rcases w.oneToOne.2 pair pair' with rfl
          exact Option.some.inj (same.symm.trans same') }
  rw [run, run']
  apply Alike.ok
  refine ⟨w.extend more, extend_above more,
    ⟨rfl, rfl, bindings.grows.fresh fresh, bindings'.grows.fresh fresh'⟩, ?_, ?_⟩
  · intro x t found
    rcases forall₂_mem_left all (perm.mem_iff.mp (bindings.listed found)) with
      ⟨y, member, pair⟩
    rcases bindings'.bound y (perm'.mem_iff.mpr member) with ⟨u, found', _⟩
    exact ⟨y, u, Or.inl pair, found', .var (Or.inr ⟨x, y, pair, found, found'⟩)⟩
  · intro y u found'
    rcases forall₂_mem_right all (perm'.mem_iff.mp (bindings'.listed found')) with
      ⟨x, member, pair⟩
    rcases bindings.bound x (perm.mem_iff.mpr member) with ⟨t, found, _⟩
    exact ⟨x, t, Or.inl pair, found, .var (Or.inr ⟨x, y, pair, found, found'⟩)⟩

theorem applyLiterals_follows {subst subst' : Substitution} (bindings : w.SameBindings subst subst')
    (fuel : Nat) {lits lits' : List Literal} (all : List.Forall₂ w.SameLiteral lits lits') :
    Follows Banks (fun later => List.Forall₂ later.SameLiteral) w
      (applyLiterals subst fuel lits w.left) (applyLiterals subst' fuel lits' w.right) := by
  apply Follows.mapAccum (fun above same => same.mono above) (fun above same => same.mono above)
    _ all ⟨rfl, rfl⟩
  rintro later lit lit' _ _ above same ⟨rfl, rfl⟩
  apply (applySubstitution_follows (bindings.mono above) fuel same.atom).bind
  intro last atom atom' bank bank' _ banks atoms
  exact Follows.pure le_rfl banks ⟨atoms, same.isPositive⟩

def Counted (n n' : Nat) (w : Coupling) (bank bank' : TermBank) : Prop :=
  w.Envs ⟨bank, n⟩ ⟨bank', n'⟩

theorem applyLiterals_counted {subst subst' : Substitution} (bindings : w.SameBindings subst subst')
    (fuel : Nat) {lits lits' : List Literal} (all : List.Forall₂ w.SameLiteral lits lits')
    {n n' : Nat} {bank bank' : TermBank} (state : Counted n n' w bank bank') :
    Follows (Counted n n') (fun later => List.Forall₂ later.SameLiteral) w
      (applyLiterals subst fuel lits bank) (applyLiterals subst' fuel lits' bank') := by
  rcases state with ⟨left, right, fresh, fresh'⟩
  simp only at left right
  subst left right
  apply (applyLiterals_follows bindings fuel all).known.mono
  rintro ⟨news, bank⟩ ⟨news', bank'⟩
    ⟨⟨later, above, ⟨rfl, rfl⟩, related⟩, run, run'⟩
  have inside : ∀ lit ∈ lits, lit.atom < w.left.size := fun lit member => by
    rcases forall₂_mem_left all member with ⟨_, _, same⟩
    exact same.atom.left_lt
  have inside' : ∀ lit ∈ lits', lit.atom < w.right.size := fun lit member => by
    rcases forall₂_mem_right all member with ⟨_, _, same⟩
    exact same.atom.right_lt
  have symbols := (applyLiterals_spec w.leftWf bindings.leftValid inside run).symbols
  have symbols' := (applyLiterals_spec w.rightWf bindings.rightValid inside' run').symbols
  refine ⟨later, above, ⟨rfl, rfl, ?_, ?_⟩, related⟩
  · exact fun k ahead => by simpa only [symbols] using fresh k ahead
  · exact fun k ahead => by simpa only [symbols'] using fresh' k ahead

theorem renameVariables_follows (order order' : VariableOrder) (fuel : Nat) {env env' : Env}
    (envs : w.Envs env env') {c c' : Clause} (same : w.SameClause c c') :
    Follows Envs SameClause w (renameVariables order fuel c env)
      (renameVariables order' fuel c' env') := by
  rw [renameVariables, renameVariables, envs.left, envs.right]
  apply (varSet_alike fuel same.literals).known.bind
  rintro vars vars' ⟨all, run, run'⟩
  have nodup := (varSet_spec w.leftWf run).2
  have nodup' := (varSet_spec w.rightWf run').2
  have empty : vars'.isEmpty = vars.isEmpty := by cases all <;> rfl
  rw [empty]
  split
  · exact Follows.pure le_rfl envs same
  apply (bindFresh_follows envs all nodup nodup' (order.perm env vars)
    (order'.perm env' vars')).bind
  intro mid subst subst' e e' above envs bindings
  have lits := same.literals.imp fun _ _ lit => SameLiteral.mono lit above
  apply (applyLiterals_counted bindings fuel lits envs).bind
  intro later news news' bank bank' above' envs lits
  have header := (same.mono above).mono above'
  exact Follows.pure le_rfl envs { header with literals := lits }

end Renaming

section Inferring

theorem sameResult_mono {result result' : Option Clause}
    (same : Option.Rel w.SameClause result result') (above : w ≤ later) :
    Option.Rel later.SameClause result result' := by
  cases same with
  | some same => exact .some (same.mono above)
  | none => exact .none

theorem sameLiterals_eraseIdx {lits lits' : List Literal}
    (all : List.Forall₂ w.SameLiteral lits lits') (i : Nat) :
    List.Forall₂ w.SameLiteral (lits.eraseIdx i) (lits'.eraseIdx i) := by
  rw [List.eraseIdx_eq_take_drop_succ, List.eraseIdx_eq_take_drop_succ]
  exact List.rel_append (List.forall₂_take i all) (List.forall₂_drop (i + 1) all)

theorem resolve_follows (order order' : VariableOrder) (uconfig : UnificationConfig) (fuel : Nat)
    {env env' : Env} (envs : w.Envs env env') {c1 c1' c2 c2' : Clause} (first : w.SameClause c1 c1')
    (second : w.SameClause c2 c2') (i j : Nat) :
    Follows Envs (fun later => Option.Rel later.SameClause) w
      (resolve order uconfig fuel c1 i c2 j env)
      (resolve order' uconfig fuel c1' i c2' j env') := by
  rw [resolve, resolve]
  apply (first.literalAt i).bind
  intro lit1 lit1' same1
  apply (second.literalAt j).bind
  intro lit2 lit2' same2
  rw [same1.isPositive, same2.isPositive]
  split
  · exact Follows.pure le_rfl envs .none
  apply (renameVariables_follows order order' fuel envs second).bind
  intro mid c2r c2r' e e' above envs renamed
  apply (renamed.literalAt j).bind
  intro lit2r lit2r' same2r
  rw [envs.left, envs.right]
  apply (unify_alike (.empty mid) fuel (same1.atom.mono above) same2r.atom).bind
  rintro ⟨unified, subst⟩ ⟨_, subst'⟩ ⟨rfl, bindings⟩
  cases unified with
  | false => exact Follows.pure le_rfl envs .none
  | true =>
      have rest := (sameLiterals_eraseIdx first.literals i).imp fun _ _ lit => lit.mono above
      apply (applyLiterals_counted bindings fuel rest
        ⟨rfl, rfl, envs.fresh_left, envs.fresh_right⟩).bind
      intro mid2 left left' bank bank' above2 envs lefts
      have rest := (sameLiterals_eraseIdx renamed.literals j).imp fun _ _ lit =>
        SameLiteral.mono lit above2
      apply (applyLiterals_counted (bindings.mono above2) fuel rest envs).bind
      intro last right right' bank bank' above3 envs rights
      have state : last.Envs ⟨bank, e.varCounter⟩ ⟨bank', e'.varCounter⟩ := envs
      exact Follows.pure le_rfl state (.some ⟨rfl, rfl, first.id, second.id, rfl,
        List.rel_append (lefts.imp fun _ _ lit => lit.mono above3) rights⟩)

theorem factorPair_follows (uconfig : UnificationConfig) (fuel : Nat) {env env' : Env}
    (envs : w.Envs env env') {c c' : Clause} (same : w.SameClause c c') (i j : Nat) :
    Follows Envs (fun later => Option.Rel later.SameClause) w
      (factorPair uconfig fuel c i j env) (factorPair uconfig fuel c' i j env') := by
  rw [factorPair, factorPair]
  apply (same.literalAt i).bind
  intro litI litI' sameI
  apply (same.literalAt j).bind
  intro litJ litJ' sameJ
  rw [sameI.isPositive, sameJ.isPositive]
  split
  · exact Follows.pure le_rfl envs .none
  rw [envs.left, envs.right]
  apply (unify_alike (.empty w) fuel sameI.atom sameJ.atom).bind
  rintro ⟨unified, subst⟩ ⟨_, subst'⟩ ⟨rfl, bindings⟩
  cases unified with
  | false => exact Follows.pure le_rfl envs .none
  | true =>
      have rest := sameLiterals_eraseIdx same.literals j
      apply (applyLiterals_counted bindings fuel rest
        ⟨rfl, rfl, envs.fresh_left, envs.fresh_right⟩).bind
      intro last news news' bank bank' above envs lits
      have state : last.Envs ⟨bank, env.varCounter⟩ ⟨bank', env'.varCounter⟩ := envs
      exact Follows.pure le_rfl state (.some ⟨rfl, rfl, same.id, rfl, rfl, lits⟩)

theorem complementaryPairs_same {c1 c1' c2 c2' : Clause} (first : w.SameClause c1 c1')
    (second : w.SameClause c2 c2') : complementaryPairs c1' c2' = complementaryPairs c1 c2 := by
  have signs : ∀ {c c' : Clause}, w.SameClause c c' →
      c'.literals.map (·.isPositive) = c.literals.map (·.isPositive) := by
    intro c c' same
    have all := List.rel_map (R := w.SameLiteral) (P := Eq) (fun _ _ lit => lit.isPositive)
      same.literals
    rw [List.forall₂_eq_eq_eq] at all
    exact all.symm
  have at_i : ∀ {c c' : Clause}, w.SameClause c c' → ∀ i : Nat,
      c'.literals[i]?.map (·.isPositive) = c.literals[i]?.map (·.isPositive) := by
    intro c c' same i
    rw [← List.getElem?_map, ← List.getElem?_map, signs same]
  simp only [complementaryPairs, first.size, second.size, at_i first, at_i second]

theorem results_same {results results' : List (Option Clause)}
    (all : List.Forall₂ (Option.Rel w.SameClause) results results') :
    List.Forall₂ w.SameClause results.reduceOption results'.reduceOption :=
  List.rel_filterMap (fun _ _ same => same) all

theorem allResolvents_follows (order order' : VariableOrder) (uconfig : UnificationConfig)
    (fuel : Nat) {env env' : Env} (envs : w.Envs env env') {c1 c1' c2 c2' : Clause}
    (first : w.SameClause c1 c1') (second : w.SameClause c2 c2') :
    Follows Envs (fun later => List.Forall₂ later.SameClause) w
      (allResolvents order uconfig fuel c1 c2 env)
      (allResolvents order' uconfig fuel c1' c2' env') := by
  rw [allResolvents, allResolvents, complementaryPairs_same first second]
  have loop : Follows Envs (fun later => List.Forall₂ (Option.Rel later.SameClause)) w
      (mapAccum (fun p => resolve order uconfig fuel c1 p.1 c2 p.2) (complementaryPairs c1 c2) env)
      (mapAccum (fun p => resolve order' uconfig fuel c1' p.1 c2' p.2)
        (complementaryPairs c1 c2) env') := by
    apply Follows.mapAccum (R := fun _ => Eq) (Q := fun later => Option.Rel later.SameClause)
      (fun _ same => same) (fun above same => sameResult_mono same above) _
        (List.forall₂_refl _) envs
    rintro later p _ e e' above rfl envs
    exact resolve_follows order order' uconfig fuel envs (first.mono above)
      (second.mono above) p.1 p.2
  apply loop.bind
  intro later results results' e e' _ envs all
  exact Follows.pure le_rfl envs (results_same all)

theorem factor_follows (uconfig : UnificationConfig) (fuel : Nat) {env env' : Env}
    (envs : w.Envs env env') {c c' : Clause} (same : w.SameClause c c') :
    Follows Envs (fun later => List.Forall₂ later.SameClause) w
      (factor uconfig fuel c env) (factor uconfig fuel c' env') := by
  have pairs : orderedPairs c' = orderedPairs c := by simp only [orderedPairs, same.size]
  rw [factor, factor, pairs]
  have loop : Follows Envs (fun later => List.Forall₂ (Option.Rel later.SameClause)) w
      (mapAccum (fun p => factorPair uconfig fuel c p.1 p.2) (orderedPairs c) env)
      (mapAccum (fun p => factorPair uconfig fuel c' p.1 p.2) (orderedPairs c) env') := by
    apply Follows.mapAccum (R := fun _ => Eq) (Q := fun later => Option.Rel later.SameClause)
      (fun _ same => same) (fun above same => sameResult_mono same above) _
        (List.forall₂_refl _) envs
    rintro later p _ e e' above rfl envs
    exact factorPair_follows uconfig fuel envs (same.mono above) p.1 p.2
  apply loop.bind
  intro later results results' e e' _ envs all
  exact Follows.pure le_rfl envs (results_same all)

end Inferring

end Coupling

end AtpEngine
