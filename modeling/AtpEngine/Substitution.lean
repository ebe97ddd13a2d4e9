import AtpEngine.TermBank
import AtpEngine.TriangularSubstitution

/-!
The binding map of infer/substitution.cc. Bindings are triangular: `resolve`
walks a chain of bound variables and `occursIn` follows bindings lazily. Both
run on a budget, since a cycle of bindings would keep them going forever.
-/
namespace AtpEngine

open Fuelled Triangular

structure Substitution where
  bindings : List (Nat × Nat) := []
  deriving DecidableEq, Repr

namespace Substitution

def find (subst : Substitution) (var : Nat) : Option Nat := subst.bindings.lookup var

def bind (subst : Substitution) (var term : Nat) : Bool × Substitution :=
  match subst.find var with
  | some bound => (bound == term, subst)
  | none => (true, { bindings := (var, term) :: subst.bindings })

def resolve (subst : Substitution) (bank : TermBank) : Nat → Nat → Except Fault Nat
  | 0, _ => .error .outOfFuel
  | fuel + 1, id => do
      if ← bank.isVariable id then
        match subst.find id with
        | none => pure id
        | some next => subst.resolve bank fuel next
      else pure id

def occursIn (subst : Substitution) (bank : TermBank) : Nat → Nat → Nat → Except Fault Bool
  | 0, _, _ => .error .outOfFuel
  | fuel + 1, var, term => do
      let term ← subst.resolve bank fuel term
      if var = term then pure true
      else if ← bank.isVariable term then pure false
      else
        let t ← bank.getTerm term
        t.args.anyM fun arg => subst.occursIn bank fuel var arg

/-- The bindings read as trees. -/
def trees (subst : Substitution) (bank : TermBank) : Bindings Nat Nat :=
  fun x => (subst.find x).map bank.tree

/-- Only variables are bound, and to terms of the pool. -/
def ValidIn (bank : TermBank) (subst : Substitution) : Prop :=
  ∀ x t, subst.find x = some t → bank.isVar x = true ∧ t < bank.size

open TermTree

theorem find_bind {subst : Substitution} {x : Nat} (free : subst.find x = none) (t y : Nat) :
    (subst.bind x t).2.find y = if y = x then some t else subst.find y := by
  have bound : (subst.bind x t).2 = { bindings := (x, t) :: subst.bindings } := by
    simp [bind, free]
  rw [bound]
  by_cases same : y = x
  · simp [find, same]
  · simp [find, List.lookup_cons, beq_eq_false_iff_ne.mpr same, same]

theorem trees_none {subst : Substitution} {bank : TermBank} {x : Nat} :
    subst.trees bank x = none ↔ subst.find x = none := by simp [trees]

theorem trees_some {subst : Substitution} {bank : TermBank} {x t : Nat}
    (found : subst.find x = some t) : subst.trees bank x = some (bank.tree t) := by
  simp [trees, found]

theorem trees_bind {subst : Substitution} {bank : TermBank} {x : Nat} (free : subst.find x = none)
    (t : Nat) : (subst.bind x t).2.trees bank =
      Function.update (subst.trees bank) x (some (bank.tree t)) := by
  funext y
  by_cases same : y = x <;> simp [trees, find_bind free, same]

theorem bind_extends {subst : Substitution} {bank : TermBank} {x : Nat}
    (free : subst.find x = none) (t : Nat) :
    Extends (subst.trees bank) ((subst.bind x t).2.trees bank) := by
  intro y u bound
  have other : y ≠ x := by
    rintro rfl
    rw [trees_none.mpr free] at bound
    cases bound
  rw [trees_bind free, Function.update_of_ne other, bound]

theorem bind_validIn {subst : Substitution} {bank : TermBank} (valid : subst.ValidIn bank)
    {x t : Nat} (free : subst.find x = none) (isVar : bank.isVar x = true)
    (inside : t < bank.size) : (subst.bind x t).2.ValidIn bank := by
  intro y u found
  rw [find_bind free] at found
  split at found
  · next same => rw [same, ← Option.some.inj found]; exact ⟨isVar, inside⟩
  · exact valid y u found

theorem bound_finite (subst : Substitution) (bank : TermBank) :
    (Bound (subst.trees bank)).Finite := by
  apply Set.Finite.subset (List.finite_toSet (subst.bindings.map Prod.fst))
  intro x bound
  cases found : subst.find x with
  | none => simp [Bound, trees, found] at bound
  | some t => exact List.mem_map.mpr ⟨(x, t), lookup_some_mem found, rfl⟩

theorem ValidIn.mono {subst : Substitution} {bank bank' : TermBank} (valid : subst.ValidIn bank)
    (wf : bank.WellFormed) (grows : bank.Extends bank') : subst.ValidIn bank' := by
  intro x t found
  rcases valid x t found with ⟨isVar, inside⟩
  rw [grows.isVar_eq wf (TermBank.isVar_lt isVar)]
  exact ⟨isVar, Nat.lt_of_lt_of_le inside grows.size_le⟩

theorem trees_extends {subst : Substitution} {bank bank' : TermBank} (valid : subst.ValidIn bank)
    (wf : bank.WellFormed) (wf' : bank'.WellFormed) (grows : bank.Extends bank') :
    subst.trees bank' = subst.trees bank := by
  funext x
  cases found : subst.find x with
  | none => simp [trees, found]
  | some t => simp [trees, found, TermBank.tree_extends wf wf' grows (valid x t found).2]

section Walking

/-- A chain of bound variables ends at a non-variable or a free variable. -/
inductive Walk (subst : Substitution) (bank : TermBank) : Nat → Nat → Prop where
  | stop {id : Nat} : id < bank.size → (bank.isVar id = true → subst.find id = none) →
      Walk subst bank id id
  | step {id next last : Nat} : bank.isVar id = true → subst.find id = some next →
      Walk subst bank next last → Walk subst bank id last

variable {subst : Substitution} {bank : TermBank}

theorem resolve_walk {fuel id last : Nat} (run : subst.resolve bank fuel id = .ok last) :
    Walk subst bank id last := by
  induction fuel generalizing id with
  | zero => cases run
  | succ fuel ih =>
      rw [resolve, bind_ok_iff] at run
      rcases run with ⟨var, kind, run⟩
      rcases TermBank.isVariable_ok kind with ⟨inside, isVar⟩
      cases var with
      | false =>
          rcases pure_ok_iff.mp run with rfl
          exact .stop inside fun h => by rw [isVar] at h; cases h
      | true =>
          simp only [if_true] at run
          cases found : subst.find id with
          | none =>
              simp only [found] at run
              rcases pure_ok_iff.mp run with rfl
              exact .stop inside fun _ => found
          | some next =>
              simp only [found] at run
              exact .step isVar found (ih run)

theorem Walk.valid {id last : Nat} (walk : Walk subst bank id last) : last < bank.size := by
  induction walk with
  | stop inside _ => exact inside
  | step _ _ _ ih => exact ih

theorem Walk.free {id last : Nat} (walk : Walk subst bank id last)
    (isVar : bank.isVar last = true) : subst.find last = none := by
  induction walk with
  | stop _ free => exact free isVar
  | step _ _ _ ih => exact ih isVar

theorem Walk.solves {id last : Nat} (walk : Walk subst bank id last) {D : Type*}
    {func : Nat → List D → D} {assign : Nat → D}
    (solves : Solves func assign (subst.trees bank)) :
    eval func assign (bank.tree id) = eval func assign (bank.tree last) := by
  induction walk with
  | stop _ _ => rfl
  | step isVar found _ ih =>
      rw [TermBank.tree_var isVar, eval_var, solves _ _ (trees_some found), ih]

theorem Walk.applied {id last : Nat} (walk : Walk subst bank id last) {τ : TermTree Nat Nat}
    (done : Applied (subst.trees bank) (bank.tree last) τ) :
    Applied (subst.trees bank) (bank.tree id) τ := by
  induction walk with
  | stop _ _ => exact done
  | step isVar found _ ih =>
      rw [TermBank.tree_var isVar]
      exact .bound (trees_some found) (ih done)

theorem Walk.applied_iff {id last : Nat} (walk : Walk subst bank id last) {τ : TermTree Nat Nat} :
    Applied (subst.trees bank) (bank.tree id) τ ↔
    Applied (subst.trees bank) (bank.tree last) τ := by
  refine ⟨fun done => ?_, walk.applied⟩
  induction walk with
  | stop _ _ => exact done
  | step isVar found _ ih =>
      rw [TermBank.tree_var isVar] at done
      cases done with
      | bound known inner =>
          rcases Option.some.inj ((trees_some found).symm.trans known) with rfl
          exact ih inner
      | free absent => rw [trees_some found] at absent; cases absent

theorem Walk.occurs {id last x : Nat} (walk : Walk subst bank id last)
    (free : subst.find x = none) : OccursUnder (subst.trees bank) x (bank.tree id) ↔
      OccursUnder (subst.trees bank) x (bank.tree last) := by
  induction walk with
  | stop _ _ => rfl
  | @step id next last isVar found walk ih =>
      rw [← ih, TermBank.tree_var isVar]
      constructor
      · rintro ⟨y, occurs, path⟩
        rw [occurs_var] at occurs
        subst occurs
        rcases Relation.ReflTransGen.cases_tail path with same | ⟨z, before, t, bound, inner⟩
        · subst same
          rw [free] at found
          cases found
        · rw [trees_some found] at bound
          rcases Option.some.inj bound with rfl
          exact ⟨z, inner, before⟩
      · rintro ⟨y, occurs, path⟩
        exact ⟨id, .var, path.tail ⟨_, trees_some found, occurs⟩⟩

theorem occursUnder_free {x y : Nat} (free : subst.find y = none) :
    OccursUnder (subst.trees bank) x (.var y) ↔ x = y := by
  constructor
  · rintro ⟨z, occurs, path⟩
    rw [occurs_var] at occurs
    subst occurs
    rcases Relation.ReflTransGen.cases_tail path with same | ⟨w, _, t, bound, _⟩
    · exact same.symm
    · rw [trees_none.mpr free] at bound
      cases bound
  · rintro rfl
    exact ⟨_, .var, .refl⟩

/-- A returning occurs check tells whether the free variable stands in the term
under the bindings. -/
theorem occursIn_iff (wf : bank.WellFormed) {var : Nat} (isVar : bank.isVar var = true)
    (free : subst.find var = none) {fuel term : Nat} {found : Bool}
    (run : subst.occursIn bank fuel var term = .ok found) :
    found = true ↔ OccursUnder (subst.trees bank) var (bank.tree term) := by
  induction fuel generalizing term found with
  | zero => cases run
  | succ fuel ih =>
      rw [occursIn, bind_ok_iff] at run
      rcases run with ⟨last, walked, run⟩
      have walk := resolve_walk walked
      rw [walk.occurs free]
      by_cases same : var = last
      · rw [if_pos same] at run
        rcases pure_ok_iff.mp run with rfl
        subst same
        rw [TermBank.tree_var isVar]
        exact ⟨fun _ => ⟨var, .var, .refl⟩, fun _ => rfl⟩
      · rw [if_neg same, bind_ok_iff] at run
        rcases run with ⟨kind, read, run⟩
        rcases TermBank.isVariable_ok read with ⟨inside, lastVar⟩
        cases kind with
        | true =>
            rcases pure_ok_iff.mp run with rfl
            rw [TermBank.tree_var lastVar, occursUnder_free (walk.free lastVar)]
            simp [same]
        | false =>
            simp only [Bool.false_eq_true, if_false, bind_ok_iff] at run
            rcases run with ⟨t, got, run⟩
            have entry := TermBank.getTerm_ok.mp got
            have children : OccursUnder (subst.trees bank) var (bank.tree last) ↔
                ∃ arg ∈ t.args, OccursUnder (subst.trees bank) var (bank.tree arg) := by
              rw [TermBank.tree_node wf entry lastVar]
              constructor
              · rintro ⟨y, occurs, path⟩
                rcases occurs_node.mp occurs with ⟨_, member, inner⟩
                rcases List.mem_map.mp member with ⟨arg, argIn, rfl⟩
                exact ⟨arg, argIn, y, inner, path⟩
              · rintro ⟨arg, argIn, y, inner, path⟩
                exact ⟨y, .node (List.mem_map.mpr ⟨arg, argIn, rfl⟩) inner, path⟩
            rw [children]
            rcases anyM_ok run with ⟨yes, no⟩
            cases found with
            | true =>
                rcases yes rfl with ⟨arg, member, hit⟩
                exact ⟨fun _ => ⟨arg, member, (ih hit).mp rfl⟩, fun _ => rfl⟩
            | false =>
                refine ⟨fun h => (by cases h), ?_⟩
                rintro ⟨arg, member, occurs⟩
                exact (ih (no rfl arg member)).mpr occurs

end Walking

end Substitution

end AtpEngine
