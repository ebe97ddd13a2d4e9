import AtpEngine.TriangularSubstitution

/-!
Finite and infinite trees over ordered symbols. A tree is given by its labels: at
each position it may have a symbol together with the number of its children, and
a position without one is a hole. Bindings of variables to trees have a solution
here even when they run in a circle, as the limit of what is forced after any
number of unfoldings; in finite trees they would have none.
-/
namespace AtpEngine

structure InfiniteTree (F : Type) where
  label : List Nat → Option (F × Nat)
  inner : ∀ path i, (label (path ++ [i])).isSome → ∃ f n, label path = some (f, n) ∧ i < n

namespace InfiniteTree

open TermTree Triangular

variable {F V : Type}

theorem ext {s t : InfiniteTree F}
    (same : ∀ path l, s.label path = some l ↔ t.label path = some l) :
    s = t := by
  rcases s with ⟨s, _⟩
  rcases t with ⟨t, _⟩
  have labels : s = t := funext fun path => Option.ext (same path)
  subst labels
  rfl

def hole : InfiniteTree F where
  label _ := none
  inner _ _ known := by cases known

instance : Nonempty (InfiniteTree F) := ⟨hole⟩

def labelBelow (f : F) (children : List (InfiniteTree F)) : List Nat → Option (F × Nat)
  | [] => some (f, children.length)
  | i :: path => children[i]?.bind fun child => child.label path

def node (f : F) (children : List (InfiniteTree F)) : InfiniteTree F where
  label := labelBelow f children
  inner path i known := by
    cases path with
    | nil =>
        refine ⟨f, children.length, rfl, ?_⟩
        rcases Option.isSome_iff_exists.mp known with ⟨l, at_i⟩
        rcases Option.bind_eq_some_iff.mp at_i with ⟨child, found, _⟩
        exact (List.getElem?_eq_some_iff.mp found).1
    | cons k path =>
        rcases Option.isSome_iff_exists.mp known with ⟨l, at_i⟩
        rcases Option.bind_eq_some_iff.mp at_i with ⟨child, found, label⟩
        rcases child.inner path i (Option.isSome_iff_exists.mpr ⟨l, label⟩) with
          ⟨g, n, at_path, below⟩
        exact ⟨g, n, Option.bind_eq_some_iff.mpr ⟨child, found, at_path⟩, below⟩

@[simp] theorem node_label_nil (f : F) (children : List (InfiniteTree F)) :
    (node f children).label [] = some (f, children.length) := rfl

@[simp] theorem node_label_cons (f : F) (children : List (InfiniteTree F)) (i : Nat)
    (path : List Nat) :
    (node f children).label (i :: path) = children[i]?.bind fun child => child.label path := rfl

theorem node_free : Free (node (F := F)) := by
  intro f g cs ds same
  have labels := congrArg label same
  have roots := congrFun labels []
  rw [node_label_nil, node_label_nil, Option.some.injEq, Prod.mk.injEq] at roots
  refine ⟨roots.1, List.ext_getElem roots.2 fun i left right => ext fun path l => ?_⟩
  have at_i := congrFun labels (i :: path)
  rw [node_label_cons, node_label_cons, List.getElem?_eq_getElem left,
    List.getElem?_eq_getElem right] at at_i
  rw [show cs[i].label path = ds[i].label path from at_i]

section Limits

/-- What the one tree says about its labels, the other says too. -/
def Below (s t : InfiniteTree F) : Prop :=
  ∀ path l, s.label path = some l → t.label path = some l

theorem eval_below {a b : V → InfiniteTree F} (below : ∀ x, Below (a x) (b x))
    (t : TermTree F V) :
    Below (eval node a t) (eval node b t) := by
  induction t using TermTree.induct with
  | var x => simpa using below x
  | node f children ih =>
      intro path l known
      rw [eval_node] at known ⊢
      cases path with
      | nil => simpa using known
      | cons i path =>
          simp only [node_label_cons, List.getElem?_map, Option.bind_map, Option.bind_eq_some_iff]
            at known ⊢
          rcases known with ⟨child, found, label⟩
          exact ⟨child, found, ih child (List.mem_of_getElem? found) path l label⟩

/-- A sequence of trees of which each says more than the one before. -/
structure Rising (F : Type) where
  tree : Nat → InfiniteTree F
  rise : ∀ n, Below (tree n) (tree (n + 1))

theorem Rising.le (c : Rising F) {m n : Nat} (le : m ≤ n) : Below (c.tree m) (c.tree n) := by
  induction le with
  | refl => exact fun _ _ known => known
  | step _ ih => exact fun path l known => c.rise _ path l (ih path l known)

open Classical in
/-- A label of the limit, where some tree of the sequence has one. -/
noncomputable def Rising.limitLabel (c : Rising F) (path : List Nat) : Option (F × Nat) :=
  if known : ∃ n l, (c.tree n).label path = some l then some known.choose_spec.choose else none

theorem Rising.limitLabel_iff {c : Rising F} {path : List Nat} {l : F × Nat} :
    c.limitLabel path = some l ↔ ∃ n, (c.tree n).label path = some l := by
  rw [limitLabel]
  split
  · next known =>
    have chosen := known.choose_spec.choose_spec
    refine ⟨fun same => ⟨_, chosen.trans same⟩, fun ⟨n, found⟩ => ?_⟩
    have left := c.le (Nat.le_max_left n known.choose) path _ found
    exact (c.le (Nat.le_max_right n known.choose) path _ chosen).symm.trans left
  · next unknown =>
    refine ⟨fun same => ?_, fun ⟨n, found⟩ => absurd ⟨n, l, found⟩ unknown⟩
    cases same

noncomputable def Rising.limit (c : Rising F) : InfiniteTree F where
  label := c.limitLabel
  inner path i known := by
    rcases Option.isSome_iff_exists.mp known with ⟨l, found⟩
    rcases Rising.limitLabel_iff.mp found with ⟨n, at_n⟩
    rcases (c.tree n).inner path i (Option.isSome_iff_exists.mpr ⟨l, at_n⟩) with
      ⟨f, k, at_path, below⟩
    exact ⟨f, k, Rising.limitLabel_iff.mpr ⟨n, at_path⟩, below⟩

theorem Rising.limit_iff {c : Rising F} {path : List Nat} {l : F × Nat} :
    c.limit.label path = some l ↔ ∃ n, (c.tree n).label path = some l := limitLabel_iff

theorem eval_limit {a : V → Rising F} (t : TermTree F V) (path : List Nat) (l : F × Nat) :
    (eval node (fun x => (a x).limit) t).label path = some l ↔
      ∃ n, (eval node (fun x => (a x).tree n) t).label path = some l := by
  induction t using TermTree.induct generalizing path with
  | var x => simpa using Rising.limit_iff
  | node f children ih =>
      simp only [eval_node]
      cases path with
      | nil => simp
      | cons i path =>
          simp only [node_label_cons, List.getElem?_map, Option.bind_map, Option.bind_eq_some_iff]
          constructor
          · rintro ⟨child, found, label⟩
            rcases (ih child (List.mem_of_getElem? found) path).mp label with ⟨n, at_n⟩
            exact ⟨n, child, found, at_n⟩
          · rintro ⟨n, child, found, at_n⟩
            exact ⟨child, found, (ih child (List.mem_of_getElem? found) path).mpr ⟨n, at_n⟩⟩

end Limits

section Solutions

variable (σ : Bindings F V) (assign : V → InfiniteTree F)

/-- What is forced at a variable after `n` unfoldings of the bindings. -/
def unfolded : Nat → V → InfiniteTree F
  | 0, x => if (σ x).isSome then hole else assign x
  | n + 1, x => match σ x with
    | none => assign x
    | some t => eval node (unfolded n) t

theorem unfolded_rises (n : Nat) :
    ∀ x, Below (unfolded σ assign n x) (unfolded σ assign (n + 1) x) := by
  induction n with
  | zero =>
      intro x path l known
      rw [unfolded] at known
      rw [unfolded]
      cases bound : σ x with
      | none => simpa [bound] using known
      | some t => simp [bound, hole] at known
  | succ n ih =>
      intro x
      rw [unfolded, unfolded]
      cases σ x with
      | none => exact fun _ _ known => known
      | some t => exact eval_below ih t

def unfolding (x : V) : Rising F where
  tree n := unfolded σ assign n x
  rise n := unfolded_rises σ assign n x

/-- Bindings have a solution among the infinite trees, whatever cycles they close. -/
theorem node_solvesCycles : SolvesCycles V (node (F := F)) := by
  intro σ assign _
  refine ⟨fun x => (unfolding σ assign x).limit, fun x t bound => ext fun path l =>
    ?_, fun x free =>
    ext fun path l => ?_⟩
  · rw [Rising.limit_iff, eval_limit]
    constructor
    · rintro ⟨n, known⟩
      have next := unfolded_rises σ assign n x path l known
      rw [unfolded, bound] at next
      exact ⟨n, next⟩
    · rintro ⟨n, known⟩
      refine ⟨n + 1, show (unfolded σ assign (n + 1) x).label path = some l from ?_⟩
      rw [unfolded, bound]
      exact known
  · rw [Rising.limit_iff]
    have constant : ∀ n, unfolded σ assign n x = assign x := by
      intro n
      cases n <;> simp [unfolded, free]
    simp [unfolding, constant]

end Solutions

end InfiniteTree

end AtpEngine
