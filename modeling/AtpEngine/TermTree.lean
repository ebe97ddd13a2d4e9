import Mathlib.Algebra.Order.BigOperators.Group.List
import Mathlib.Algebra.Order.Group.Nat
import Mathlib.Algebra.Order.Ring.Nat
import Mathlib.Logic.Relation

/-!
First-order terms as finite trees: variables at some leaves, a symbol with its
ordered children elsewhere. A symbol may head nodes of any width. Evaluation is
taken in an arbitrary algebra; substitution and renaming are evaluation in the
algebra of trees itself, so their laws are cases of the evaluation laws.
-/
namespace AtpEngine

inductive TermTree (F V : Type) where
  | var (x : V)
  | node (f : F) (children : List (TermTree F V))

namespace TermTree

variable {F V W : Type} {D : Type*}

theorem induct {P : TermTree F V → Prop} (var : ∀ x, P (.var x))
    (node : ∀ f children, (∀ child ∈ children, P child) → P (.node f children)) : ∀ t, P t
  | .var x => var x
  | .node f children => node f children fun child _ => induct var node child

def eval (func : F → List D → D) (assign : V → D) : TermTree F V → D
  | .var x => assign x
  | .node f children => func f (children.map (eval func assign))

@[simp] theorem eval_var (func : F → List D → D) (assign : V → D) (x : V) :
    eval func assign (.var x) = assign x := by rw [eval]

@[simp] theorem eval_node (func : F → List D → D) (assign : V → D) (f : F)
    (children : List (TermTree F V)) :
    eval func assign (.node f children) = func f (children.map (eval func assign)) := by rw [eval]

/-- Equal values are built by the same symbol from the same arguments. -/
def Free (func : F → List D → D) : Prop :=
  ∀ f g cs ds, func f cs = func g ds → f = g ∧ cs = ds

theorem free_node : Free (node (F := F) (V := V)) := fun _ _ _ _ => node.inj

/-- The tree built by putting `θ x` at every variable `x`. -/
abbrev subst (θ : V → TermTree F W) (t : TermTree F V) : TermTree F W := eval .node θ t

abbrev rename (ρ : V → W) (t : TermTree F V) : TermTree F W := subst (fun x => .var (ρ x)) t

inductive Occurs (x : V) : TermTree F V → Prop where
  | var : Occurs x (.var x)
  | node {f : F} {children : List (TermTree F V)} {child : TermTree F V} :
      child ∈ children → Occurs x child → Occurs x (.node f children)

@[simp] theorem occurs_var {x y : V} : Occurs x (.var y : TermTree F V) ↔ x = y := by
  constructor
  · intro h; cases h; rfl
  · rintro rfl; exact .var

@[simp] theorem occurs_node {x : V} {f : F} {children : List (TermTree F V)} :
    Occurs x (.node f children) ↔ ∃ child ∈ children, Occurs x child := by
  constructor
  · intro h
    cases h with
    | node member inner => exact ⟨_, member, inner⟩
  · rintro ⟨child, member, inner⟩
    exact .node member inner

inductive Nodes (P : F → Prop) : TermTree F V → Prop where
  | var (x : V) : Nodes P (.var x)
  | node {f : F} {children : List (TermTree F V)} : P f →
      (∀ child ∈ children, Nodes P child) → Nodes P (.node f children)

theorem Nodes.mono {P Q : F → Prop} (weaker : ∀ f, P f → Q f) {t : TermTree F V}
    (nodes : t.Nodes P) :
    t.Nodes Q := by
  induction nodes with
  | var x => exact .var x
  | node known _ ih => exact .node (weaker _ known) ih

def leaves : TermTree F V → List V := eval (fun _ args => args.flatten) fun x => [x]

theorem eval_congr (func : F → List D → D) {left right : V → D} (t : TermTree F V)
    (same : ∀ x, Occurs x t → left x = right x) : eval func left t = eval func right t := by
  induction t using induct with
  | var x => simpa using same x .var
  | node f children ih =>
      have inner : children.map (eval func left) = children.map (eval func right) :=
        List.map_congr_left fun child member =>
          ih child member fun x occurs => same x (.node member occurs)
      simp [inner]

@[simp] theorem subst_var (t : TermTree F V) : subst .var t = t := by
  induction t using induct with
  | var x => simp
  | node f children ih =>
      simp only [eval_node, node.injEq, true_and]
      exact (List.map_congr_left ih).trans (List.map_id' children)

theorem occurs_subst {y : W} {θ : V → TermTree F W} {t : TermTree F V} :
    Occurs y (subst θ t) ↔ ∃ x, Occurs x t ∧ Occurs y (θ x) := by
  induction t using induct with
  | var x => simp
  | node f children ih =>
      simp only [eval_node, occurs_node, List.mem_map]
      constructor
      · rintro ⟨_, ⟨child, member, rfl⟩, inner⟩
        rcases (ih child member).mp inner with ⟨x, occurs, image⟩
        exact ⟨x, ⟨child, member, occurs⟩, image⟩
      · rintro ⟨x, ⟨child, member, occurs⟩, image⟩
        exact ⟨_, ⟨child, member, rfl⟩, (ih child member).mpr ⟨x, occurs, image⟩⟩

theorem eval_subst (func : F → List D → D) (assign : W → D) (θ : V → TermTree F W)
    (t : TermTree F V) :
    eval func assign (subst θ t) = eval func (fun x => eval func assign (θ x)) t := by
  induction t using induct with
  | var x => simp
  | node f children ih =>
      have inner : (children.map (subst θ)).map (eval func assign) =
          children.map (eval func fun x => eval func assign (θ x)) := by
        rw [List.map_map]
        exact List.map_congr_left fun child member => ih child member
      simpa using congrArg (func f) inner

theorem mem_leaves {x : V} {t : TermTree F V} : x ∈ leaves t ↔ Occurs x t := by
  induction t using induct with
  | var y => simp [leaves]
  | node f children ih =>
      simp only [leaves, eval_node, List.mem_flatten, List.mem_map, occurs_node,
        exists_exists_and_eq_and] at ih ⊢
      exact exists_congr fun child => and_congr_right (ih child)

theorem leaves_rename (ρ : V → W) (t : TermTree F V) :
    leaves (rename ρ t) = (leaves t).map ρ := by
  rw [leaves, eval_subst, leaves]
  induction t using induct with
  | var x => simp
  | node f children ih =>
      rw [eval_node, eval_node, List.map_flatten, List.map_map]
      exact congrArg List.flatten (List.map_congr_left ih)

section Size

def size : TermTree F V → Nat
  | .var _ => 1
  | .node _ children => 1 + (children.map size).sum

@[simp] theorem size_var (x : V) : size (.var x : TermTree F V) = 1 := by rw [size]

@[simp] theorem size_node (f : F) (children : List (TermTree F V)) :
    size (.node f children) = 1 + (children.map size).sum := by rw [size]

theorem size_child_lt {f : F} {children : List (TermTree F V)} {child : TermTree F V}
    (member : child ∈ children) : size child < size (.node f children) := by
  have part : size child ≤ (children.map size).sum :=
    List.le_sum_of_mem (List.mem_map.mpr ⟨child, member, rfl⟩)
  rw [size_node]
  omega

theorem size_subst_child_lt {θ : V → TermTree F W} {f : F} {children : List (TermTree F V)}
    {child : TermTree F V} (member : child ∈ children) :
    size (subst θ child) < size (subst θ (.node f children)) := by
  simp only [eval_node]
  exact size_child_lt (List.mem_map.mpr ⟨child, member, rfl⟩)

theorem size_le_of_occurs {x : V} {t : TermTree F V} (occurs : Occurs x t)
    (θ : V → TermTree F W) : size (θ x) ≤ size (subst θ t) := by
  induction occurs with
  | var => simp
  | node member _ ih =>
      refine le_trans ih (le_of_lt ?_)
      exact size_subst_child_lt member

end Size

end TermTree

section Pairs

variable {α β γ : Type*} {l : List α} {l' : List β}

theorem mem_zip_of_mem_left (widths : l.length = l'.length) {a : α} (member : a ∈ l) :
    ∃ b ∈ l', (a, b) ∈ l.zip l' := by
  rw [← List.map_fst_zip (Nat.le_of_eq widths)] at member
  rcases List.mem_map.mp member with ⟨⟨_, b⟩, pair, rfl⟩
  exact ⟨b, (List.of_mem_zip pair).2, pair⟩

theorem mem_zip_of_mem_right (widths : l.length = l'.length) {b : β} (member : b ∈ l') :
    ∃ a ∈ l, (a, b) ∈ l.zip l' := by
  rw [← List.map_snd_zip (Nat.le_of_eq widths.symm)] at member
  rcases List.mem_map.mp member with ⟨⟨a, _⟩, pair, rfl⟩
  exact ⟨a, (List.of_mem_zip pair).1, pair⟩

theorem map_eq_of_zip {f : α → γ} {g : β → γ} (widths : l.length = l'.length)
    (pairs : ∀ p ∈ l.zip l', f p.1 = g p.2) : l.map f = l'.map g := by
  induction l generalizing l' with
  | nil => cases l' with
    | nil => rfl
    | cons _ _ => cases widths
  | cons a rest ih => cases l' with
    | nil => cases widths
    | cons b tail =>
        have first := pairs (a, b) List.mem_cons_self
        have later := ih (Nat.succ.inj widths) fun p member =>
          pairs p (List.mem_cons_of_mem _ member)
        simp only [List.map_cons, later, first]

end Pairs

end AtpEngine
