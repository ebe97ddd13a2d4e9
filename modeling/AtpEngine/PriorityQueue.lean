import Mathlib.Data.List.Basic
import Mathlib.Data.List.Forall2
import Mathlib.Data.List.Perm.Basic

/-!
Priority queues as a container adapter over a list. The behaviour is the
documented one: elements are neither lost nor invented, the element taken out is
not below any other, and elements are only moved and compared. Which of several
top elements is taken out is left open, so an implementation is a parameter.
-/
namespace AtpEngine

/-- The comparison of the queue: `less a b` puts `b` above `a`. -/
structure StrictWeakOrder {α : Type} (less : α → α → Bool) : Prop where
  irrefl : ∀ a, less a a = false
  trans : ∀ a b c, less a b = true → less b c = true → less a c = true
  cotrans : ∀ a b c, less a c = true → less a b = true ∨ less b c = true

structure PriorityQueueOps where
  push : {α : Type} → (α → α → Bool) → List α → α → List α
  /-- `top` and `pop` in one. -/
  pop : {α : Type} → (α → α → Bool) → List α → Option (α × List α)
  /-- The layout of the elements that `push` and `pop` keep. -/
  Heap : {α : Type} → (α → α → Bool) → List α → Prop
  push_perm : ∀ {α : Type} (less : α → α → Bool) (q : List α) (a : α),
    (push less q a).Perm (a :: q)
  pop_none : ∀ {α : Type} (less : α → α → Bool) (q : List α), pop less q = none ↔ q = []
  pop_perm : ∀ {α : Type} (less : α → α → Bool) (q : List α) (a : α) (rest : List α),
    pop less q = some (a, rest) → q.Perm (a :: rest)
  heap_nil : ∀ {α : Type} (less : α → α → Bool), Heap less []
  push_heap : ∀ {α : Type} (less : α → α → Bool) (q : List α) (a : α),
    StrictWeakOrder less → Heap less q → Heap less (push less q a)
  pop_heap : ∀ {α : Type} (less : α → α → Bool) (q : List α) (a : α) (rest : List α),
    StrictWeakOrder less → Heap less q → pop less q = some (a, rest) → Heap less rest
  pop_max : ∀ {α : Type} (less : α → α → Bool) (q : List α) (a : α) (rest : List α),
    StrictWeakOrder less → Heap less q → pop less q = some (a, rest) → ∀ b ∈ rest,
      less a b = false
  push_map : ∀ {α β : Type} (f : α → β) (less : β → β → Bool) (q : List α) (a : α),
    push less (q.map f) (f a) = (push (fun x y => less (f x) (f y)) q a).map f
  pop_map : ∀ {α β : Type} (f : α → β) (less : β → β → Bool) (q : List α),
    pop less (q.map f) =
      (pop (fun x y => less (f x) (f y)) q).map fun p => (f p.1, p.2.map f)

namespace PriorityQueueOps

variable {α β : Type}

section Parametric

variable {R : α → β → Prop} {less : α → α → Bool} {less' : β → β → Bool}
  {q : List α} {q' : List β}

/-- Pointwise related lists are the two sides of a list of related pairs. -/
theorem exists_pairs (all : List.Forall₂ R q q') : ∃ pairs : List {p : α × β // R p.1 p.2},
    pairs.map (fun p => p.1.1) = q ∧ pairs.map (fun p => p.1.2) = q' := by
  induction all with
  | nil => exact ⟨[], rfl, rfl⟩
  | cons head _ ih =>
      rcases ih with ⟨pairs, rfl, rfl⟩
      exact ⟨⟨(_, _), head⟩ :: pairs, rfl, rfl⟩

theorem forall₂_pairs (pairs : List {p : α × β // R p.1 p.2}) :
    List.Forall₂ R (pairs.map fun p => p.1.1) (pairs.map fun p => p.1.2) := by
  rw [List.forall₂_map_left_iff, List.forall₂_map_right_iff]
  exact List.forall₂_same.mpr fun p _ => p.2

theorem push_parametric (queue : PriorityQueueOps)
    (agree : ∀ a b a' b', R a b → R a' b' → less a a' = less' b b')
    (all : List.Forall₂ R q q') {a : α} {b : β} (related : R a b) :
    List.Forall₂ R (queue.push less q a) (queue.push less' q' b) := by
  rcases exists_pairs all with ⟨pairs, rfl, rfl⟩
  have left := queue.push_map (fun p : {p : α × β // R p.1 p.2} => p.1.1) less pairs
    ⟨(a, b), related⟩
  have right := queue.push_map (fun p : {p : α × β // R p.1 p.2} => p.1.2) less' pairs
    ⟨(a, b), related⟩
  have same : (fun x y : {p : α × β // R p.1 p.2} => less x.1.1 y.1.1) =
      fun x y => less' x.1.2 y.1.2 := by
    funext x y
    exact agree _ _ _ _ x.2 y.2
  rw [left, right, same]
  exact forall₂_pairs _

theorem pop_parametric (queue : PriorityQueueOps)
    (agree : ∀ a b a' b', R a b → R a' b' → less a a' = less' b b')
    (all : List.Forall₂ R q q') :
    Option.Rel (fun out out' => R out.1 out'.1 ∧ List.Forall₂ R out.2 out'.2)
      (queue.pop less q) (queue.pop less' q') := by
  rcases exists_pairs all with ⟨pairs, rfl, rfl⟩
  have same : (fun x y : {p : α × β // R p.1 p.2} => less x.1.1 y.1.1) =
      fun x y => less' x.1.2 y.1.2 := by
    funext x y
    exact agree _ _ _ _ x.2 y.2
  rw [queue.pop_map, queue.pop_map, same]
  cases queue.pop (fun x y : {p : α × β // R p.1 p.2} => less' x.1.2 y.1.2) pairs with
  | none => exact .none
  | some taken => exact .some ⟨taken.1.2, forall₂_pairs taken.2⟩

end Parametric

/-- Take out the first element that no later one is above. -/
def extractMax (less : α → α → Bool) : α → List α → α × List α
  | best, [] => (best, [])
  | best, b :: rest =>
      if less best b then ((extractMax less b rest).1, best :: (extractMax less b rest).2)
      else ((extractMax less best rest).1, b :: (extractMax less best rest).2)

def popFirst (less : α → α → Bool) : List α → Option (α × List α)
  | [] => none
  | a :: rest => some (extractMax less a rest)

theorem extractMax_perm (less : α → α → Bool) (best : α) (l : List α) :
    (best :: l).Perm ((extractMax less best l).1 :: (extractMax less best l).2) := by
  induction l generalizing best with
  | nil => exact .refl _
  | cons b rest ih =>
      unfold extractMax
      split
      · exact ((ih b).cons best).trans (.swap _ _ _)
      · exact (List.Perm.swap b best rest).trans (((ih best).cons b).trans (.swap _ _ _))

theorem extractMax_above {less : α → α → Bool} (order : StrictWeakOrder less) (best : α)
    (l : List α) :
    less (extractMax less best l).1 best = false ∧
      ∀ b ∈ (extractMax less best l).2, less (extractMax less best l).1 b = false := by
  induction l generalizing best with
  | nil => exact ⟨order.irrefl best, by simp [extractMax]⟩
  | cons b rest ih =>
      unfold extractMax
      split
      · next below =>
          rcases ih b with ⟨top, others⟩
          -- the new candidate is above the old one, so the top is above both
          have old : less (extractMax less b rest).1 best = false := by
            by_contra above
            rw [Bool.not_eq_false] at above
            have := order.trans _ _ _ above below
            rw [top] at this
            cases this
          exact ⟨old, fun c member => (List.mem_cons.mp member).elim (fun h => h ▸ old)
            (others c)⟩
      · next notBelow =>
          rcases ih best with ⟨top, others⟩
          refine ⟨top, fun c member => (List.mem_cons.mp member).elim (fun h => ?_) (others c)⟩
          rw [h]
          by_contra above
          rw [Bool.not_eq_false] at above
          rcases order.cotrans _ best _ above with h1 | h2
          · rw [top] at h1
            cases h1
          · exact notBelow h2

theorem extractMax_map (f : α → β) (less : β → β → Bool) (best : α) (l : List α) :
    extractMax less (f best) (l.map f) =
      (f (extractMax (fun x y => less (f x) (f y)) best l).1,
        (extractMax (fun x y => less (f x) (f y)) best l).2.map f) := by
  induction l generalizing best with
  | nil => rfl
  | cons b rest ih =>
      simp only [List.map_cons, extractMax, ih]
      split <;> rfl

/-- An unsorted list searched from the front. -/
def linear : PriorityQueueOps where
  push := fun _ q a => q ++ [a]
  pop := popFirst
  Heap := fun _ _ => True
  push_perm := fun _ q a => List.perm_append_singleton a q
  pop_none := fun _ q => by cases q <;> simp [popFirst]
  pop_perm := fun less q a rest taken => by
    cases q with
    | nil => cases taken
    | cons b l =>
        have perm := extractMax_perm less b l
        rw [Option.some.inj taken] at perm
        exact perm
  heap_nil := fun _ => trivial
  push_heap := fun _ _ _ _ _ => trivial
  pop_heap := fun _ _ _ _ _ _ _ => trivial
  pop_max := fun less q a rest order _ taken => by
    cases q with
    | nil => cases taken
    | cons b l =>
        have above := (extractMax_above order b l).2
        rw [Option.some.inj taken] at above
        exact above
  push_map := fun f less q a => by simp
  pop_map := fun f less q => by
    cases q with
    | nil => rfl
    | cons b l => simp [popFirst, extractMax_map]

end PriorityQueueOps

end AtpEngine
