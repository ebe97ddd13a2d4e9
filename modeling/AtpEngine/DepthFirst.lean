import Mathlib.Data.List.Infix
import Mathlib.Logic.Relation

/-!
Depth-first search that marks a node when it is taken from the stack. The list
of visited nodes is kept newest first. Besides the nodes that a search collects,
this develops when that list is in topological order: children of a node stand
before it exactly if no two children of a visited node share a descendant,
unless the second one is itself below the first.
-/
namespace AtpEngine.DepthFirst

variable {α : Type} (next : α → List α)

def Edge (u v : α) : Prop := v ∈ next u

def Reach : α → α → Prop := Relation.ReflTransGen (Edge next)

/-- `Explored stack seen seen'`: working off the stack, top first, turns the
visited nodes `seen` into `seen'`. -/
inductive Explored : List α → List α → List α → Prop where
  | nil (seen : List α) : Explored [] seen seen
  | skip {k : α} {rest seen seen' : List α} : k ∈ seen → Explored rest seen seen' →
      Explored (k :: rest) seen seen'
  | visit {k : α} {rest seen mid seen' : List α} : k ∉ seen →
      Explored (next k) (k :: seen) mid →
      Explored rest mid seen' → Explored (k :: rest) seen seen'

/-- Newer nodes only: no child of a node is the node itself or older than it. -/
def Ordered (seen : List α) : Prop :=
  ∀ u older, (u :: older) <:+ seen → ∀ v ∈ next u, v ∉ u :: older

variable {next}

section Collected

theorem Explored.append {stack rest seen seen' : List α}
    (explored : Explored next (stack ++ rest) seen seen') :
    ∃ mid, Explored next stack seen mid ∧ Explored next rest mid seen' := by
  induction stack generalizing seen with
  | nil => exact ⟨seen, .nil seen, explored⟩
  | cons k tail ih =>
      cases explored with
      | skip member later =>
          rcases ih later with ⟨mid, first, second⟩
          exact ⟨mid, .skip member first, second⟩
      | visit absent inner later =>
          rcases ih later with ⟨mid, first, second⟩
          exact ⟨mid, .visit absent inner first, second⟩

theorem Explored.suffix {stack seen seen' : List α} (explored : Explored next stack seen seen') :
    seen <:+ seen' := by
  induction explored with
  | nil => exact List.suffix_rfl
  | skip _ _ ih => exact ih
  | visit _ _ _ inner later => exact (List.suffix_cons _ _).trans (inner.trans later)

theorem Explored.nodup {stack seen seen' : List α} (explored : Explored next stack seen seen')
    (nodup : seen.Nodup) : seen'.Nodup := by
  induction explored with
  | nil => exact nodup
  | skip _ _ ih => exact ih nodup
  | visit absent _ _ inner later => exact later (inner (List.nodup_cons.mpr ⟨absent, nodup⟩))

theorem Explored.covers {stack seen seen' : List α} (explored : Explored next stack seen seen') :
    ∀ k ∈ stack, k ∈ seen' := by
  induction explored with
  | nil => simp
  | skip member later ih =>
      intro k inside
      rcases List.mem_cons.mp inside with rfl | tail
      · exact later.suffix.subset member
      · exact ih k tail
  | visit _ inner later _ ih =>
      intro k inside
      rcases List.mem_cons.mp inside with rfl | tail
      · exact later.suffix.subset (inner.suffix.subset List.mem_cons_self)
      · exact ih k tail

theorem Explored.reached {stack seen seen' : List α} (explored : Explored next stack seen seen') :
    ∀ x ∈ seen', x ∈ seen ∨ ∃ k ∈ stack, Reach next k x := by
  induction explored with
  | nil => exact fun x member => Or.inl member
  | @skip k rest _ _ _ _ ih =>
      intro x member
      refine (ih x member).imp_right ?_
      rintro ⟨r, inside, path⟩
      exact ⟨r, List.mem_cons_of_mem k inside, path⟩
  | @visit k rest seen mid _ _ _ _ inner later =>
      intro x member
      rcases later x member with old | ⟨r, inside, path⟩
      · rcases inner x old with older | ⟨c, child, path⟩
        · rcases List.mem_cons.mp older with rfl | oldest
          · exact Or.inr ⟨x, List.mem_cons_self, .refl⟩
          · exact Or.inl oldest
        · exact Or.inr ⟨k, List.mem_cons_self, .head child path⟩
      · exact Or.inr ⟨r, List.mem_cons_of_mem k inside, path⟩

theorem Explored.closed {stack seen seen' : List α} (explored : Explored next stack seen seen') :
    ∀ x ∈ seen', x ∉ seen → ∀ y ∈ next x, y ∈ seen' := by
  induction explored with
  | nil => exact fun x member absent => absurd member absent
  | skip _ _ ih => exact ih
  | @visit k rest seen mid _ _ innerRun laterRun inner later =>
      intro x member absent y child
      by_cases early : x ∈ mid
      · refine laterRun.suffix.subset ?_
        by_cases same : x = k
        · subst same
          exact innerRun.covers y child
        · exact inner x early (by simp [same, absent]) y child
      · exact later x member early y child

/-- A search from one node visits exactly its descendants, each once, itself first. -/
theorem Explored.root {r : α} {seen : List α} (explored : Explored next [r] [] seen) :
    (∀ x, x ∈ seen ↔ Reach next r x) ∧ seen.Nodup ∧ ∃ newer, seen = newer ++ [r] := by
  have covered := explored.covers r List.mem_cons_self
  refine ⟨fun x => ⟨fun member => ?_, fun path => ?_⟩, explored.nodup List.nodup_nil, ?_⟩
  · rcases explored.reached x member with old | ⟨k, inside, path⟩
    · cases old
    · rwa [List.mem_singleton.mp inside] at path
  · induction path with
    | refl => exact covered
    | tail _ edge ih => exact explored.closed _ ih (by simp) _ edge
  · cases explored with
    | skip member _ => cases member
    | visit _ inner later =>
        rcases inner.suffix.trans later.suffix with ⟨newer, same⟩
        exact ⟨newer, same.symm⟩

end Collected

section Order

/-- Of two suffixes that a duplicate-free list has, the one that starts with a
node outside the other is the longer one. -/
theorem suffix_of_not_mem {seen older part : List α} {u : α} (nodup : seen.Nodup)
    (whole : (u :: older) <:+ seen) (suffix : part <:+ seen) :
    (u ∉ part → part <:+ older) ∧ (u ∈ part → (u :: older) <:+ part) := by
  rcases List.suffix_or_suffix_of_suffix suffix whole with shorter | longer
  · rcases List.suffix_cons_iff.mp shorter with rfl | inside
    · exact ⟨fun absent => absurd List.mem_cons_self absent, fun _ => List.suffix_rfl⟩
    · refine ⟨fun _ => inside, fun member => ?_⟩
      have twice := List.nodup_cons.mp (nodup.sublist whole.sublist)
      exact absurd (inside.subset member) twice.1
  · exact ⟨fun absent => absurd (longer.subset List.mem_cons_self) absent, fun _ => longer⟩

/-- In a list with its children in order, the nodes newly visited below a new
node are exactly its descendants. -/
theorem Explored.descendants {seen seen' whole : List α} {a : α}
    (explored : Explored next [a] seen seen') (suffix : seen' <:+ whole) (nodup : whole.Nodup)
    (ordered : Ordered next whole) (absent : a ∉ seen) {x : α} (path : Reach next a x) :
    x ∈ seen' ∧ x ∉ seen := by
  induction path with
  | refl => exact ⟨explored.covers a List.mem_cons_self, absent⟩
  | @tail y z _ edge ih =>
      rcases ih with ⟨member, new⟩
      refine ⟨explored.closed y member new z edge, fun old => ?_⟩
      rcases List.append_of_mem member with ⟨newer, older, split⟩
      have at_y : (y :: older) <:+ seen' := ⟨newer, split.symm⟩
      have below := (suffix_of_not_mem (nodup.sublist suffix.sublist) at_y explored.suffix).1 new
      exact ordered y older (at_y.trans suffix) z edge (List.mem_cons_of_mem y (below.subset old))

theorem Explored.visited_at {stack seen seen' : List α} (explored : Explored next stack seen seen')
    {x : α} (member : x ∈ seen') (new : x ∉ seen) :
    ∃ before after, Explored next (next x) (x :: before) after ∧ x ∉ before ∧
      after <:+ seen' := by
  induction explored with
  | nil => exact absurd member new
  | skip _ _ ih => exact ih member new
  | @visit k rest seen mid _ absent innerRun laterRun inner later =>
      by_cases early : x ∈ mid
      · by_cases same : x = k
        · subst same
          exact ⟨seen, mid, innerRun, absent, laterRun.suffix⟩
        · rcases inner early (by simp [same, new]) with ⟨before, after, run, fresh, suffix⟩
          exact ⟨before, after, run, fresh, suffix.trans laterRun.suffix⟩
      · exact later member early

def Acyclic (next : α → List α) : Prop := ∀ u v, v ∈ next u → ¬ Reach next v u

/-- The second child is below the first, or they share no descendant. -/
def Apart (next : α → List α) (a b : α) : Prop :=
  Reach next a b ∨ ∀ x, ¬ (Reach next a x ∧ Reach next b x)

theorem Explored.ordered (acyclic : Acyclic next) {stack seen seen' : List α}
    (explored : Explored next stack seen seen') (nodup : seen.Nodup)
    (pairs : stack.Pairwise (Apart next))
    (below : ∀ k ∈ stack, ∀ x, Reach next k x → (next x).Pairwise (Apart next))
    (outside : ∀ k ∈ stack, k ∈ seen ∨ ∀ x, Reach next k x → x ∉ seen) {u : α}
    {older : List α} (whole : (u :: older) <:+ seen') (new : u ∉ seen) :
    ∀ v ∈ next u, v ∉ u :: older := by
  induction explored with
  | nil => exact absurd (whole.subset List.mem_cons_self) new
  | @skip k rest seen _ _ _ ih =>
      exact ih nodup (List.pairwise_cons.mp pairs).2
        (fun r member => below r (List.mem_cons_of_mem k member))
        (fun r member => outside r (List.mem_cons_of_mem k member)) whole new
  | @visit k rest seen mid seen' absent innerRun laterRun inner later =>
      have nodupCons : (k :: seen).Nodup := List.nodup_cons.mpr ⟨absent, nodup⟩
      have nodupMid := innerRun.nodup nodupCons
      have clear : ∀ x, Reach next k x → x ∉ seen :=
        (outside k List.mem_cons_self).resolve_left absent
      -- nothing below a child of k is k itself or was seen before
      have childClear : ∀ c ∈ next k, ∀ x, Reach next c x → x ∉ k :: seen := by
        intro c child x path old
        rcases List.mem_cons.mp old with rfl | older
        · exact acyclic x c child path
        · exact clear x (.head child path) older
      -- `u` was met at or below `k`, or after it
      by_cases early : u ∈ mid
      · have inMid := (suffix_of_not_mem (laterRun.nodup nodupMid) whole laterRun.suffix).2 early
        by_cases same : u = k
        · subst same
          have at_u := (suffix_of_not_mem nodupMid inMid innerRun.suffix).2 List.mem_cons_self
          have tail : older = seen := by
            rcases List.suffix_cons_iff.mp at_u with same | inside
            · exact (List.cons.inj same).2
            · exact absurd (inside.subset List.mem_cons_self) absent
          intro v child
          rw [tail]
          exact childClear v child v .refl
        · refine inner nodupCons (below k List.mem_cons_self k .refl) ?_ ?_ inMid
            (by simp [same, new])
          · exact fun c child x path => below k List.mem_cons_self x (.head child path)
          · exact fun c child => Or.inr (childClear c child)
      · refine later nodupMid (List.pairwise_cons.mp pairs).2
          (fun r member => below r (List.mem_cons_of_mem k member)) ?_ whole early
        intro r member
        -- all that `k` reaches has been visited when the rest of the stack starts
        have inMid : ∀ x, Reach next k x → x ∈ mid := by
          intro x path
          induction path with
          | refl => exact innerRun.suffix.subset List.mem_cons_self
          | @tail y z before edge ih =>
              by_cases same : y = k
              · subst same
                exact innerRun.covers z edge
              · exact innerRun.closed y ih (by simp [same, clear y before]) z edge
        rcases (List.pairwise_cons.mp pairs).1 r member with path | disjoint
        · exact Or.inl (inMid r path)
        rcases outside r (List.mem_cons_of_mem k member) with old | clearR
        · exact Or.inl (innerRun.suffix.subset (List.mem_cons_of_mem k old))
        · refine Or.inr fun x path visited => ?_
          rcases innerRun.reached x visited with older | ⟨c, child, pathC⟩
          · rcases List.mem_cons.mp older with rfl | oldest
            · exact disjoint x ⟨.refl, path⟩
            · exact clearR x path oldest
          · exact disjoint x ⟨.head child pathC, path⟩

/-- Conversely, a search in order over nodes with at most two children finds the
children of each visited node apart. -/
theorem Explored.apart (few : ∀ u, (next u).length ≤ 2) {stack seen : List α}
    (explored : Explored next stack [] seen) (ordered : Ordered next seen) {x : α}
    (member : x ∈ seen) :
    (next x).Pairwise (Apart next) := by
  have nodup := explored.nodup List.nodup_nil
  rcases explored.visited_at member List.not_mem_nil with ⟨before, after, run, _, suffix⟩
  have outside := ordered x before (run.suffix.trans suffix)
  cases same : next x with
  | nil => exact .nil
  | cons a rest =>
      cases rest with
      | nil => exact List.pairwise_singleton _ _
      | cons b rest =>
          have short := few x
          rw [same, List.length_cons, List.length_cons] at short
          have none_left : rest = [] := List.length_eq_zero_iff.mp (by omega)
          subst none_left
          rw [same] at run
          have newA : a ∉ x :: before := outside a (by simp [same])
          have newB : b ∉ x :: before := outside b (by simp [same])
          have both : Explored next ([a] ++ [b]) (x :: before) after := run
          rcases both.append with ⟨mid, first, second⟩
          refine List.pairwise_pair.mpr ?_
          by_cases early : b ∈ mid
          · rcases first.reached b early with old | ⟨c, isA, path⟩
            · exact absurd old newB
            · rw [List.mem_singleton.mp isA] at path
              exact Or.inl path
          · refine Or.inr fun y paths => ?_
            have inMid := first.descendants (second.suffix.trans suffix) nodup ordered newA paths.1
            exact (second.descendants suffix nodup ordered early paths.2).2 inMid.1

/-- A search from one node is in order exactly if the children of every node
below it are apart. -/
theorem Explored.ordered_iff (acyclic : Acyclic next) (few : ∀ u, (next u).length ≤ 2) {r : α}
    {seen : List α} (explored : Explored next [r] [] seen) :
    Ordered next seen ↔ ∀ x, Reach next r x → (next x).Pairwise (Apart next) := by
  constructor
  · exact fun ordered x path => explored.apart few ordered ((explored.root.1 x).mpr path)
  · intro apart u older whole
    refine explored.ordered acyclic List.nodup_nil (List.pairwise_singleton _ _) ?_ ?_ whole
      List.not_mem_nil
    · intro k inside x path
      rw [List.mem_singleton.mp inside] at path
      exact apart x path
    · exact fun _ _ => Or.inr fun _ _ => List.not_mem_nil

end Order

end AtpEngine.DepthFirst
