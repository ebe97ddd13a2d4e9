import AtpEngine.Fuelled
import Mathlib.Order.Basic

/-!
Two computations in lock step. `Alike` relates their outcomes: they fail alike,
or answer with related results. `Follows` does so for computations that thread a
state each: a world says how the two states correspond, and a step may only
extend it, so that what was related before a step is related after it.
-/
namespace AtpEngine.LockStep

open Fuelled

variable {ε α α' β β' σ σ' : Type}

/-- The two outcomes are the same fault or related results. -/
inductive Alike (R : α → α' → Prop) : Except ε α → Except ε α' → Prop where
  | ok {a : α} {a' : α'} : R a a' → Alike R (.ok a) (.ok a')
  | error (e : ε) : Alike R (.error e) (.error e)

theorem Alike.pure {R : α → α' → Prop} {a : α} {a' : α'} (related : R a a') :
    Alike R (Pure.pure a : Except ε α) (Pure.pure a') := .ok related

theorem Alike.bind {R : α → α' → Prop} {S : β → β' → Prop} {x : Except ε α}
    {x' : Except ε α'} {f : α → Except ε β} {f' : α' → Except ε β'}
    (first : Alike R x x') (second : ∀ a a', R a a' → Alike S (f a) (f' a')) :
    Alike S (x >>= f) (x' >>= f') := by
  cases first with
  | ok related => exact second _ _ related
  | error e => exact .error e

theorem Alike.mono {R S : α → α' → Prop} {x : Except ε α} {x' : Except ε α'}
    (alike : Alike R x x') (weaker : ∀ a a', R a a' → S a a') : Alike S x x' := by
  cases alike with
  | ok related => exact .ok (weaker _ _ related)
  | error e => exact .error e

theorem Alike.eq {x x' : Except ε α} (alike : Alike Eq x x') : x = x' := by
  cases alike with
  | ok related => rw [related]
  | error e => rfl

theorem Alike.answer {R : α → α' → Prop} {x : Except ε α} {x' : Except ε α'} {a : α}
    (alike : Alike R x x') (run : x = .ok a) : ∃ a', x' = .ok a' ∧ R a a' := by
  cases alike with
  | ok related =>
      rcases Except.ok.inj run with rfl
      exact ⟨_, rfl, related⟩
  | error e => cases run

theorem Alike.known {R : α → α' → Prop} {x : Except ε α} {x' : Except ε α'}
    (alike : Alike R x x') :
    Alike (fun a a' => R a a' ∧ x = .ok a ∧ x' = .ok a') x x' := by
  cases alike with
  | ok related => exact .ok ⟨related, rfl, rfl⟩
  | error e => exact .error e

theorem Alike.anyM {R : α → α' → Prop} {p : α → Except ε Bool}
    {p' : α' → Except ε Bool} (each : ∀ a a', R a a' → Alike Eq (p a) (p' a')) {l : List α}
    {l' : List α'} (all : List.Forall₂ R l l') : Alike Eq (l.anyM p) (l'.anyM p') := by
  induction all with
  | nil => exact .pure rfl
  | cons head _ ih =>
      apply (each _ _ head).bind
      rintro found _ rfl
      cases found with
      | true => exact .pure rfl
      | false => exact ih

theorem Alike.foldlM {R : α → α' → Prop} {S : σ → σ' → Prop}
    {f : σ → α → Except ε σ} {f' : σ' → α' → Except ε σ'}
    (each : ∀ a a' s s', R a a' → S s s' → Alike S (f s a) (f' s' a')) {l : List α}
    {l' : List α'} (all : List.Forall₂ R l l') {s : σ} {s' : σ'} (start : S s s') :
    Alike S (l.foldlM f s) (l'.foldlM f' s') := by
  induction all generalizing s s' with
  | nil => exact .pure start
  | cons head _ ih =>
      rw [List.foldlM_cons, List.foldlM_cons]
      exact (each _ _ s s' head start).bind fun _ _ next => ih next

theorem Alike.mapM {R : α → α' → Prop} {S : β → β' → Prop} {f : α → Except ε β}
    {f' : α' → Except ε β'} (each : ∀ a a', R a a' → Alike S (f a) (f' a')) {l : List α}
    {l' : List α'} (all : List.Forall₂ R l l') :
    Alike (List.Forall₂ S) (l.mapM f) (l'.mapM f') := by
  induction all with
  | nil => simpa only [List.mapM_nil] using Alike.pure .nil
  | cons head _ ih =>
      rw [List.mapM_cons, List.mapM_cons]
      exact (each _ _ head).bind fun _ _ first => ih.bind fun _ _ rest => .pure (.cons first rest)

theorem Alike.eraseIf {p p' : α → Except ε Bool} {l : List α}
    (each : ∀ a ∈ l, Alike Eq (p a) (p' a)) : Alike Eq (eraseIf p l) (eraseIf p' l) := by
  induction l with
  | nil => exact .ok rfl
  | cons a rest ih =>
      apply (each a List.mem_cons_self).bind
      rintro hit _ rfl
      apply (ih fun b member => each b (List.mem_cons_of_mem a member)).bind
      rintro kept _ rfl
      exact .pure rfl

section Pointwise

theorem forall₂_getElem? {R : α → α' → Prop} {l : List α} {l' : List α'}
    (all : List.Forall₂ R l l') (i : Nat) : Option.Rel R l[i]? l'[i]? := by
  induction all generalizing i with
  | nil => simp
  | cons head _ ih =>
      cases i with
      | zero => exact .some head
      | succ i => simpa using ih i

theorem forall₂_subset {R : α → α' → Prop} (unique : Relator.BiUnique R) {l m : List α}
    {l' m' : List α'} (first : List.Forall₂ R l l') (second : List.Forall₂ R m m') :
    l ⊆ m ↔ l' ⊆ m' := by
  constructor
  · intro sub a' member
    rcases forall₂_mem_right first member with ⟨a, inside, related⟩
    exact (List.rel_mem unique related second).mp (sub inside)
  · intro sub a member
    rcases forall₂_mem_left first member with ⟨a', inside, related⟩
    exact (List.rel_mem unique related second).mpr (sub inside)

theorem forall₂_zip_zip {R : α → α' → Prop} {S : β → β' → Prop} {l : List α}
    {l' : List α'} {m : List β} {m' : List β'} (first : List.Forall₂ R l l')
    (second : List.Forall₂ S m m') :
    List.Forall₂ (fun p p' => R p.1 p'.1 ∧ S p.2 p'.2) (l.zip m) (l'.zip m') := by
  induction first generalizing m m' with
  | nil => exact .nil
  | cons head _ ih =>
      cases second with
      | nil => exact .nil
      | cons head' tail' => exact .cons ⟨head, head'⟩ (ih tail')

end Pointwise

section Worlds

variable {W : Type} [Preorder W] {St : W → σ → σ' → Prop}

/-- From the world `w` two computations reach corresponding states, and results
related in some world that extends `w`. -/
def Follows (St : W → σ → σ' → Prop) (Q : W → β → β' → Prop) (w : W)
    (x : Except ε (β × σ)) (x' : Except ε (β' × σ')) : Prop :=
  Alike (fun out out' => ∃ later, w ≤ later ∧ St later out.2 out'.2 ∧ Q later out.1 out'.1)
    x x'

theorem Follows.pure {Q : W → β → β' → Prop} {w later : W} {b : β} {b' : β'} {s : σ}
    {s' : σ'} (above : w ≤ later) (state : St later s s') (related : Q later b b') :
    Follows St Q w (Pure.pure (b, s) : Except ε (β × σ)) (Pure.pure (b', s')) :=
  Alike.pure ⟨later, above, state, related⟩

/-- A continuation runs in the world that the first computation has reached. -/
theorem Follows.bind {γ γ' τ τ' : Type} {Q : W → β → β' → Prop}
    {St' : W → τ → τ' → Prop} {Q' : W → γ → γ' → Prop} {w : W}
    {x : Except ε (β × σ)} {x' : Except ε (β' × σ')} {f : β × σ → Except ε (γ × τ)}
    {f' : β' × σ' → Except ε (γ' × τ')} (first : Follows St Q w x x')
    (second : ∀ later b b' s s', w ≤ later → St later s s' → Q later b b' →
      Follows St' Q' later (f (b, s)) (f' (b', s'))) : Follows St' Q' w (x >>= f) (x' >>= f') := by
  apply Alike.bind first
  rintro ⟨b, s⟩ ⟨b', s'⟩ ⟨later, above, state, related⟩
  apply Alike.mono (second later b b' s s' above state related)
  rintro out out' ⟨last, further, state, related⟩
  exact ⟨last, above.trans further, state, related⟩

/-- Traversals of corresponding lists keep in step if each pair of calls does. -/
theorem Follows.mapAccum {R : W → α → α' → Prop} {Q : W → β → β' → Prop}
    (keepR : ∀ {w later a a'}, w ≤ later → R w a a' → R later a a')
    (keepQ : ∀ {w later b b'}, w ≤ later → Q w b b' → Q later b b')
    {f : α → σ → Except ε (β × σ)} {f' : α' → σ' → Except ε (β' × σ')} {w : W}
    (step : ∀ later a a' s s', w ≤ later → R later a a' → St later s s' →
      Follows St Q later (f a s) (f' a' s')) {l : List α} {l' : List α'} {s : σ} {s' : σ'}
    (all : List.Forall₂ (R w) l l') (state : St w s s') :
    Follows St (fun later => List.Forall₂ (Q later)) w (mapAccum f l s) (mapAccum f' l' s') := by
  induction l generalizing w l' s s' with
  | nil =>
      cases all
      exact Follows.pure le_rfl state .nil
  | cons a rest ih =>
      rcases List.forall₂_cons_left_iff.mp all with ⟨a', rest', head, tail, rfl⟩
      apply (step w a a' s s' le_rfl head state).bind
      intro mid b b' s1 s1' above state1 first
      have remaining := tail.imp fun _ _ => keepR above
      apply (ih (fun later a a' s s' further => step later a a' s s' (above.trans further))
        remaining state1).bind
      intro last bs bs' s2 s2' further state2 results
      exact Follows.pure le_rfl state2 (.cons (keepQ further first) results)

end Worlds

end AtpEngine.LockStep
