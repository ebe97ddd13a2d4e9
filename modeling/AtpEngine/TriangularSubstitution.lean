import AtpEngine.TermTree
import Mathlib.Data.Fintype.EquivFin
import Mathlib.Data.List.Forall2
import Mathlib.Data.Set.Finite.Basic
import Mathlib.Order.WellFounded

/-!
Bindings in triangular form: the tree bound to a variable may mention other
bound variables. `Applied` is the fully resolved result of applying such
bindings, without assuming that one exists; a cycle of bindings has none.
An assignment solves the bindings when every bound variable has the value of
the tree it is bound to.
-/
namespace AtpEngine.Triangular

open TermTree

variable {F V W : Type} {D : Type*}

abbrev Bindings (F V : Type) := V → Option (TermTree F V)

/-- `y` stands in the tree that `x` is bound to. -/
def Feeds (σ : Bindings F V) (y x : V) : Prop := ∃ t, σ x = some t ∧ Occurs y t

/-- No variable reaches itself through the bindings. -/
def Acyclic (σ : Bindings F V) : Prop := ∀ x, ¬ Relation.TransGen (Feeds σ) x x

def Bound (σ : Bindings F V) : Set V := {x | (σ x).isSome}

def Extends (σ σ' : Bindings F V) : Prop := ∀ x t, σ x = some t → σ' x = some t

/-- `x` stands in `t` once bound variables are followed. -/
def OccursUnder (σ : Bindings F V) (x : V) (t : TermTree F V) : Prop :=
  ∃ y, Occurs y t ∧ Relation.ReflTransGen (Feeds σ) x y

def Solves (func : F → List D → D) (assign : V → D) (σ : Bindings F V) : Prop :=
  ∀ x t, σ x = some t → assign x = eval func assign t

inductive Applied (σ : Bindings F V) : TermTree F V → TermTree F V → Prop where
  | bound {x : V} {t τ : TermTree F V} : σ x = some t → Applied σ t τ →
      Applied σ (.var x) τ
  | free {x : V} : σ x = none → Applied σ (.var x) (.var x)
  | node {f : F} {cs ds : List (TermTree F V)} : cs.length = ds.length →
      (∀ c d, (c, d) ∈ cs.zip ds → Applied σ c d) → Applied σ (.node f cs) (.node f ds)

theorem Extends.solves {σ σ' : Bindings F V} (grows : Extends σ σ') {func : F → List D → D}
    {assign : V → D} (solves : Solves func assign σ') : Solves func assign σ :=
  fun x t bound => solves x t (grows x t bound)

section Order

theorem acyclic_of_wellFounded {σ : Bindings F V} (wf : WellFounded (Feeds σ)) : Acyclic σ :=
  fun x loop => wf.transGen.irrefl.irrefl x loop

/-- Finitely many bindings without a cycle can be followed to the end. -/
theorem wellFounded_of_acyclic {σ : Bindings F V} (finite : (Bound σ).Finite)
    (acyclic : Acyclic σ) : WellFounded (Feeds σ) := by
  have : Finite (Bound σ) := finite
  let below : Bound σ → Bound σ → Prop := fun y x => Relation.TransGen (Feeds σ) y x
  have : IsTrans (Bound σ) below := ⟨fun _ _ _ => Relation.TransGen.trans⟩
  have : Std.Irrefl below := ⟨fun x => acyclic x⟩
  have belowWf : WellFounded below := Finite.wellFounded_of_trans_of_irrefl below
  have accBound : ∀ x : Bound σ, Acc (Feeds σ) x.1 := by
    intro x
    induction x using belowWf.induction with
    | _ x ih =>
      refine Acc.intro _ fun y feeds => ?_
      by_cases hy : (σ y).isSome
      · exact ih ⟨y, hy⟩ (.single feeds)
      · refine Acc.intro _ ?_
        rintro z ⟨t, bound, _⟩
        simp [bound] at hy
  refine ⟨fun x => ?_⟩
  by_cases hx : (σ x).isSome
  · exact accBound ⟨x, hx⟩
  · refine Acc.intro _ ?_
    rintro z ⟨t, bound, _⟩
    simp [bound] at hx

theorem feeds_update [DecidableEq V] {σ : Bindings F V} {x y z : V} {t : TermTree F V}
    (other : y ≠ x) : Feeds (Function.update σ x (some t)) z y ↔ Feeds σ z y := by
  simp [Feeds, Function.update_of_ne other]

theorem feeds_update_self [DecidableEq V] {σ : Bindings F V} {x z : V} {t : TermTree F V} :
    Feeds (Function.update σ x (some t)) z x ↔ Occurs z t := by
  simp [Feeds]

/-- A new binding keeps the order well founded unless its variable stands in
its own tree under the bindings so far. -/
theorem bind_wellFounded [DecidableEq V] {σ : Bindings F V} (wf : WellFounded (Feeds σ)) {x : V}
    {t : TermTree F V} (absent : ¬ OccursUnder σ x t) :
    WellFounded (Feeds (Function.update σ x (some t))) := by
  have away : ∀ y, ¬ Relation.ReflTransGen (Feeds σ) x y →
      Acc (Feeds (Function.update σ x (some t))) y := by
    intro y
    induction y using wf.induction with
    | _ y ih =>
      intro unreached
      have other : y ≠ x := by rintro rfl; exact unreached .refl
      refine Acc.intro _ fun z feeds => ?_
      have old := (feeds_update other).mp feeds
      exact ih z old fun reached => unreached (reached.tail old)
  have at_x : Acc (Feeds (Function.update σ x (some t))) x := by
    refine Acc.intro _ fun z feeds => away z fun reached => absent ⟨z, ?_, reached⟩
    exact feeds_update_self.mp feeds
  refine ⟨fun y => ?_⟩
  induction y using wf.induction with
  | _ y ih =>
    by_cases same : y = x
    · subst same; exact at_x
    · exact Acc.intro _ fun z feeds => ih z ((feeds_update same).mp feeds)

/-- Conversely, binding a free variable to a different tree that contains it
under the bindings closes a cycle. -/
theorem bind_cyclic [DecidableEq V] {σ : Bindings F V} {x : V} (free : σ x = none)
    {t : TermTree F V} (present : OccursUnder σ x t) :
    ¬ Acyclic (Function.update σ x (some t)) := by
  rcases present with ⟨y, occurs, path⟩
  have grow : ∀ {y}, Relation.ReflTransGen (Feeds σ) x y →
      Relation.ReflTransGen (Feeds (Function.update σ x (some t))) x y := by
    intro y path
    induction path with
    | refl => exact .refl
    | tail _ feeds ih =>
        refine ih.tail ((feeds_update ?_).mpr feeds)
        rintro rfl
        rcases feeds with ⟨u, bound, _⟩
        simp [free] at bound
  exact fun acyclic => acyclic x (.tail' (grow path) (feeds_update_self.mpr occurs))

end Order

section Application

theorem applied_unique {σ : Bindings F V} {t τ τ' : TermTree F V} (left : Applied σ t τ)
    (right : Applied σ t τ') : τ = τ' := by
  induction left generalizing τ' with
  | bound found _ ih =>
      cases right with
      | bound found' inner =>
          rcases Option.some.inj (found.symm.trans found') with rfl
          exact ih inner
      | free absent => simp [found] at absent
  | free absent =>
      cases right with
      | bound found _ => simp [found] at absent
      | free _ => rfl
  | @node f cs ds width inner ih =>
      cases right with
      | @node _ _ es width' inner' =>
          congr 1
          apply List.ext_getElem (width.symm.trans width')
          intro i hd he
          have hc : i < cs.length := width ▸ hd
          have left_i : (cs[i], ds[i]) ∈ cs.zip ds :=
            List.mem_iff_getElem.mpr ⟨i, by simp [hc, hd], by simp⟩
          have right_i : (cs[i], es[i]) ∈ cs.zip es :=
            List.mem_iff_getElem.mpr ⟨i, by simp [hc, he], by simp⟩
          exact ih _ _ left_i (inner' _ _ right_i)

theorem Applied.node_forall₂ {σ : Bindings F V} {f : F} {cs ds : List (TermTree F V)}
    (inner : List.Forall₂ (Applied σ) cs ds) : Applied σ (.node f cs) (.node f ds) :=
  .node inner.length_eq fun _ _ member => (List.forall₂_iff_zip.mp inner).2 member

theorem applied_free {σ : Bindings F V} {t τ : TermTree F V} (applied : Applied σ t τ) {x : V}
    (occurs : Occurs x τ) : σ x = none := by
  induction applied with
  | bound _ _ ih => exact ih occurs
  | free absent => rwa [occurs_var.mp occurs]
  | @node f cs ds width _ ih =>
      rcases occurs_node.mp occurs with ⟨d, member, inner⟩
      rcases mem_zip_of_mem_right width member with ⟨c, _, pair⟩
      exact ih c d pair inner

theorem occurs_applied {σ : Bindings F V} {t τ : TermTree F V} {x : V} (free : σ x = none)
    (applied : Applied σ t τ) : Occurs x τ ↔ OccursUnder σ x t := by
  induction applied with
  | @bound y t _ found _ ih =>
      rw [ih]
      constructor
      · rintro ⟨z, occurs, path⟩
        exact ⟨y, .var, path.tail ⟨t, found, occurs⟩⟩
      · rintro ⟨z, occurs, path⟩
        rcases occurs_var.mp occurs with rfl
        rcases Relation.ReflTransGen.cases_tail path with rfl | ⟨w, before, u, bound, inner⟩
        · rw [free] at found
          cases found
        · rcases Option.some.inj (found.symm.trans bound) with rfl
          exact ⟨w, inner, before⟩
  | @free y absent =>
      constructor
      · intro occurs
        exact ⟨x, occurs, .refl⟩
      · rintro ⟨z, occurs, path⟩
        rcases occurs_var.mp occurs with rfl
        rcases Relation.ReflTransGen.cases_tail path with rfl | ⟨w, _, u, bound, _⟩
        · exact .var
        · rw [absent] at bound
          cases bound
  | @node f cs ds width _ ih =>
      rw [occurs_node]
      constructor
      · rintro ⟨d, member, occurs⟩
        rcases mem_zip_of_mem_right width member with ⟨c, child, pair⟩
        rcases (ih c d pair).mp occurs with ⟨y, inner, path⟩
        exact ⟨y, .node child inner, path⟩
      · rintro ⟨y, occurs, path⟩
        rcases occurs_node.mp occurs with ⟨c, member, inner⟩
        rcases mem_zip_of_mem_left width member with ⟨d, child, pair⟩
        exact ⟨d, child, (ih c d pair).mpr ⟨y, inner, path⟩⟩

theorem applied_self {σ : Bindings F V} (t : TermTree F V)
    (free : ∀ x, Occurs x t → σ x = none) :
    Applied σ t t := by
  induction t using induct with
  | var x => exact .free (free x .var)
  | node f children ih =>
      apply Applied.node_forall₂
      exact List.forall₂_same.mpr fun child member =>
        ih child member fun x occurs => free x (.node member occurs)

theorem Applied.acc {σ : Bindings F V} {t τ : TermTree F V} (applied : Applied σ t τ) {x : V}
    (occurs : Occurs x t) : Acc (Feeds σ) x := by
  induction applied generalizing x with
  | @bound y t _ found _ ih =>
      rw [occurs_var.mp occurs]
      refine Acc.intro y fun z feeds => ?_
      rcases feeds with ⟨t', found', inner⟩
      rcases Option.some.inj (found.symm.trans found') with rfl
      exact ih inner
  | @free y absent =>
      rw [occurs_var.mp occurs]
      refine Acc.intro y fun z feeds => ?_
      rcases feeds with ⟨t, found, _⟩
      rw [absent] at found
      cases found
  | @node f cs ds width _ ih =>
      rcases occurs_node.mp occurs with ⟨c, member, inner⟩
      rcases mem_zip_of_mem_left width member with ⟨d, _, pair⟩
      exact ih c d pair inner

/-- A tree that leads to a variable bound to a tree with itself has no result. -/
theorem not_applied_of_loop {σ : Bindings F V} {t τ : TermTree F V} {x : V}
    (under : OccursUnder σ x t) (loop : Feeds σ x x) : ¬ Applied σ t τ := by
  intro applied
  rcases under with ⟨y, occurs, path⟩
  have reached : Acc (Feeds σ) x := by
    clear loop
    induction path using Relation.ReflTransGen.head_induction_on with
    | refl => exact applied.acc occurs
    | head feeds _ ih => exact ih.inv feeds
  have descends : ∀ y, Acc (Feeds σ) y → ¬ Feeds σ y y := by
    intro y acc
    induction acc with
    | intro y _ ih => exact fun self => ih y self self
  exact descends x reached loop

theorem applied_total {σ : Bindings F V} (wf : WellFounded (Feeds σ)) (t : TermTree F V) :
    ∃ τ, Applied σ t τ := by
  have ofVars : ∀ t : TermTree F V, (∀ x, Occurs x t → ∃ τ, Applied σ (.var x) τ) →
      ∃ τ, Applied σ t τ := by
    intro t
    induction t using induct with
    | var x => exact fun vars => vars x .var
    | node f children ih =>
        intro vars
        have each : ∀ child ∈ children, ∃ τ, Applied σ child τ := fun child member =>
          ih child member fun x occurs => vars x (.node member occurs)
        have resolved : ∃ ds, List.Forall₂ (Applied σ) children ds := by
          clear ih vars
          induction children with
          | nil => exact ⟨[], .nil⟩
          | cons child rest ihl =>
              rcases each child List.mem_cons_self with ⟨d, first⟩
              rcases ihl fun c member => each c (List.mem_cons_of_mem child member) with
                ⟨ds, tail⟩
              exact ⟨d :: ds, .cons first tail⟩
        rcases resolved with ⟨ds, done⟩
        exact ⟨.node f ds, .node_forall₂ done⟩
  have onVars : ∀ x, ∃ τ, Applied σ (.var x) τ := by
    intro x
    induction x using wf.induction with
    | _ x ih =>
      cases found : σ x with
      | none => exact ⟨_, .free found⟩
      | some u =>
          rcases ofVars u fun y occurs => ih y ⟨u, found, occurs⟩ with ⟨τ, applied⟩
          exact ⟨τ, .bound found applied⟩
  exact ofVars t fun x _ => onVars x

theorem Solves.applied {σ : Bindings F V} {func : F → List D → D} {assign : V → D}
    (solves : Solves func assign σ) {t τ : TermTree F V} (applied : Applied σ t τ) :
    eval func assign t = eval func assign τ := by
  induction applied with
  | bound found _ ih => rw [eval_var, solves _ _ found, ih]
  | free _ => rfl
  | @node f cs ds width _ ih =>
      rw [eval_node, eval_node]
      exact congrArg _ (map_eq_of_zip width fun p pair => ih p.1 p.2 pair)

end Application

section Solutions

open Classical in
/-- The resolved tree of a variable, or the variable itself on a cycle. -/
noncomputable def resolved (σ : Bindings F V) (x : V) : TermTree F V :=
  if h : ∃ τ, Applied σ (.var x) τ then h.choose else .var x

theorem resolved_eq {σ : Bindings F V} {x : V} {τ : TermTree F V}
    (applied : Applied σ (.var x) τ) :
    resolved σ x = τ := by
  have h : ∃ τ, Applied σ (.var x) τ := ⟨τ, applied⟩
  rw [resolved, dif_pos h]
  exact applied_unique h.choose_spec applied

/-- Free variables keep their values; bound ones take those of their resolved trees. -/
noncomputable def solution (func : F → List D → D) (σ : Bindings F V) (assign : V → D) :
    V → D :=
  fun x => eval func assign (resolved σ x)

theorem solution_free {func : F → List D → D} {σ : Bindings F V} {assign : V → D} {x : V}
    (free : σ x = none) : solution func σ assign x = assign x := by
  simp [solution, resolved_eq (Applied.free free)]

theorem solution_applied {func : F → List D → D} {σ : Bindings F V} {assign : V → D}
    {t τ : TermTree F V} (applied : Applied σ t τ) :
    eval func (solution func σ assign) t = eval func assign τ := by
  induction applied with
  | bound found inner _ => simp [solution, resolved_eq (Applied.bound found inner)]
  | free absent => simp [solution_free absent]
  | @node f cs ds width _ ih =>
      rw [eval_node, eval_node]
      exact congrArg _ (map_eq_of_zip width fun p pair => ih p.1 p.2 pair)

theorem solution_solves {func : F → List D → D} {σ : Bindings F V} (assign : V → D)
    (total : ∀ x, ∃ τ, Applied σ (.var x) τ) : Solves func (solution func σ assign) σ := by
  intro x t found
  rcases total x with ⟨τ, applied⟩
  cases applied with
  | bound found' inner =>
      rcases Option.some.inj (found.symm.trans found') with rfl
      rw [solution_applied inner, solution, resolved_eq (Applied.bound found inner)]
  | free absent => simp [found] at absent

/-- An algebra in which every finite system of bindings, cyclic ones included,
has a solution for all values of its free variables. -/
def SolvesCycles (V : Type) (func : F → List D → D) : Prop :=
  ∀ (σ : Bindings F V) (assign : V → D), (Bound σ).Finite →
    ∃ assign', Solves func assign' σ ∧ ∀ x, σ x = none → assign' x = assign x

theorem acyclic_solvable {func : F → List D → D} {σ : Bindings F V}
    (wf : WellFounded (Feeds σ)) (assign : V → D) :
    ∃ assign', Solves func assign' σ ∧ ∀ x, σ x = none → assign' x = assign x :=
  ⟨solution func σ assign, solution_solves assign fun x => applied_total wf (.var x),
    fun _ free => solution_free free⟩

end Solutions

section TreeSolutions

theorem size_le_of_reach {σ : Bindings F V} {θ : V → TermTree F W} (solves : Solves .node θ σ)
    {x y : V} (path : Relation.ReflTransGen (Feeds σ) x y) : size (θ x) ≤ size (θ y) := by
  induction path with
  | refl => exact le_rfl
  | tail _ feeds ih =>
      rcases feeds with ⟨t, bound, occurs⟩
      rw [solves _ _ bound]
      exact le_trans ih (size_le_of_occurs occurs θ)

/-- No value is a part of itself: a variable standing inside a node under bindings
that hold cannot take the value of that node. -/
def PartsDiffer (V : Type) (func : F → List D → D) : Prop :=
  ∀ (σ : Bindings F V) (assign : V → D) (x : V) (f : F) (children : List (TermTree F V)),
    Solves func assign σ → OccursUnder σ x (.node f children) →
    assign x ≠ eval func assign (.node f children)

theorem node_partsDiffer : PartsDiffer V (node (F := F) (V := W)) := by
  intro σ θ x f children solves occurs same
  rcases occurs with ⟨y, inner, path⟩
  rcases occurs_node.mp inner with ⟨child, member, deep⟩
  have below := le_trans (size_le_of_reach solves path) (size_le_of_occurs deep θ)
  have above := size_subst_child_lt (θ := θ) (f := f) member
  rw [same] at below
  exact absurd (lt_of_lt_of_le above below) (lt_irrefl _)

end TreeSolutions

end AtpEngine.Triangular
