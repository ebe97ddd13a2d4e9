import Mathlib.Order.Filter.AtTopBot.Basic
import Mathlib.Data.List.Forall2

/-!
Fuelled computations and state threading. A loop or recursion of the source
that may fail to end takes a fuel argument; its runs answer in `Except`, and
`Returns` says that every sufficiently large budget gives the same answer.
`mapAccum` threads a mutable state through a list of calls, and `Visited`
names the calls such a traversal really makes.
-/
namespace AtpEngine.Fuelled

variable {ε α β γ σ τ : Type}

theorem bind_ok_iff {x : Except ε α} {f : α → Except ε β} {b : β} :
    (x >>= f) = .ok b ↔ ∃ a, x = .ok a ∧ f a = .ok b := by
  cases x with
  | error e => simp [bind, Except.bind]
  | ok a => simp [bind, Except.bind]

theorem map_ok_iff {x : Except ε α} {f : α → β} {b : β} :
    (f <$> x) = .ok b ↔ ∃ a, x = .ok a ∧ f a = b := by
  cases x with
  | error e => simp [Functor.map, Except.map]
  | ok a => simp [Functor.map, Except.map]

theorem pure_ok_iff {a b : α} : (pure a : Except ε α) = .ok b ↔ a = b := by
  simp [pure, Except.pure]

theorem bind_ok (a : α) (f : α → Except ε β) : (Except.ok a >>= f) = f a := rfl

theorem bind_error (e : ε) (f : α → Except ε β) :
    ((Except.error e : Except ε α) >>= f) = .error e := rfl

theorem pure_eq_ok (a : α) : (pure a : Except ε α) = .ok a := rfl

theorem anyM_ok {p : α → Except ε Bool} {l : List α} {found : Bool}
    (run : l.anyM p = .ok found) :
    (found = true → ∃ a ∈ l, p a = .ok true) ∧
    (found = false → ∀ a ∈ l, p a = .ok false) := by
  induction l with
  | nil =>
      rw [List.anyM, pure_ok_iff] at run
      subst run
      simp
  | cons a rest ih =>
      rw [List.anyM, bind_ok_iff] at run
      rcases run with ⟨first, call, run⟩
      cases first with
      | true =>
          rcases pure_ok_iff.mp run with rfl
          exact ⟨fun _ => ⟨a, List.mem_cons_self, call⟩, fun h => by cases h⟩
      | false =>
          rcases ih run with ⟨yes, no⟩
          constructor
          · intro h
            rcases yes h with ⟨b, member, hit⟩
            exact ⟨b, List.mem_cons_of_mem a member, hit⟩
          · intro h b member
            rcases List.mem_cons.mp member with rfl | later
            · exact call
            · exact no h b later

theorem anyM_total {p : α → Except ε Bool} {l : List α}
    (each : ∀ a ∈ l, ∃ found, p a = .ok found) :
    ∃ found, l.anyM p = .ok found := by
  induction l with
  | nil => exact ⟨false, rfl⟩
  | cons a rest ih =>
      rcases each a List.mem_cons_self with ⟨first, head⟩
      simp only [List.anyM, head, bind_ok]
      cases first with
      | true => exact ⟨true, rfl⟩
      | false => exact ih fun b member => each b (List.mem_cons_of_mem a member)

/-- Remove the elements that a fallible test holds of, as `std::erase_if` does. -/
def eraseIf (p : α → Except ε Bool) : List α → Except ε (List α)
  | [] => .ok []
  | a :: rest => do
      let hit ← p a
      let kept ← eraseIf p rest
      pure (if hit then kept else a :: kept)

theorem eraseIf_ok {p : α → Except ε Bool} {l kept : List α} (run : eraseIf p l = .ok kept) :
    kept.Sublist l ∧ (∀ a ∈ kept, p a = .ok false) ∧
      ∀ a ∈ l, p a = .ok true ∨ p a = .ok false ∧ a ∈ kept := by
  induction l generalizing kept with
  | nil =>
      rcases Except.ok.inj run with rfl
      simp
  | cons a rest ih =>
      rw [eraseIf, bind_ok_iff] at run
      rcases run with ⟨hit, test, run⟩
      rcases bind_ok_iff.mp run with ⟨tail, later, run⟩
      rcases pure_ok_iff.mp run with rfl
      rcases ih later with ⟨sub, clean, answered⟩
      cases hit with
      | true =>
          refine ⟨sub.cons a, clean, fun b member => ?_⟩
          rcases List.mem_cons.mp member with rfl | inside
          · exact Or.inl test
          · exact answered b inside
      | false =>
          refine ⟨sub.cons_cons a, fun b member => ?_, fun b member => ?_⟩
          · rcases List.mem_cons.mp member with rfl | inside
            · exact test
            · exact clean b inside
          · rcases List.mem_cons.mp member with rfl | inside
            · exact Or.inr ⟨test, List.mem_cons_self⟩
            · exact (answered b inside).imp_right fun h => ⟨h.1, List.mem_cons_of_mem a h.2⟩

theorem eraseIf_total {p : α → Except ε Bool} {l : List α}
    (each : ∀ a ∈ l, ∃ hit, p a = .ok hit) :
    ∃ kept, eraseIf p l = .ok kept := by
  induction l with
  | nil => exact ⟨[], rfl⟩
  | cons a rest ih =>
      rcases each a List.mem_cons_self with ⟨hit, head⟩
      rcases ih fun b member => each b (List.mem_cons_of_mem a member) with ⟨kept, tail⟩
      simp only [eraseIf, head, tail, bind_ok]
      exact ⟨_, rfl⟩

section Returning

/-- Every large enough budget ends the run with the same answer. -/
def Returns (run : Nat → Except ε α) (a : α) : Prop :=
  ∀ᶠ fuel in Filter.atTop, run fuel = .ok a

theorem Returns.const (a : α) : Returns (fun _ => (.ok a : Except ε α)) a :=
  Filter.Eventually.of_forall fun _ => rfl

theorem Returns.congr {run run' : Nat → Except ε α} {a : α}
    (same : ∀ fuel, run fuel = run' fuel) (done : Returns run' a) : Returns run a :=
  done.mono fun fuel h => (same fuel).trans h

theorem Returns.bind {run : Nat → Except ε α} {next : Nat → α → Except ε β} {a : α}
    {b : β} (first : Returns run a) (second : Returns (fun fuel => next fuel a) b) :
    Returns (fun fuel => run fuel >>= next fuel) b := by
  filter_upwards [first, second] with fuel h h'
  rw [h, bind_ok, h']

/-- A function that spends one unit before it calls `run`. -/
theorem Returns.succ {run : Nat → Except ε α} {a : α}
    (step : Returns (fun fuel => run (fuel + 1)) a) : Returns run a := by
  rcases Filter.eventually_atTop.mp step with ⟨bound, enough⟩
  refine Filter.eventually_atTop.mpr ⟨bound + 1, fun fuel large => ?_⟩
  rcases Nat.exists_eq_add_of_le' (Nat.le_of_add_left_le large) with ⟨rest, rfl⟩
  exact enough rest (by omega)

theorem Returns.unique {run : Nat → Except ε α} {a b : α}
    (left : Returns run a) (right : Returns run b) : a = b := by
  rcases (left.and right).exists with ⟨fuel, h, h'⟩
  exact Except.ok.inj (h.symm.trans h')

theorem Returns.exists {run : Nat → Except ε α} {a : α} (done : Returns run a) :
    ∃ fuel, run fuel = .ok a :=
  Filter.Eventually.exists done

/-- The first run ends its budget with the fault `out`, or both runs end alike. -/
def Persists (out : ε) (x y : Except ε α) : Prop := x = .error out ∨ x = y

section Persisting

variable {out : ε}

theorem Persists.refl (x : Except ε α) : Persists out x x := Or.inr rfl

theorem Persists.error (out : ε) (y : Except ε α) : Persists out (.error out) y := Or.inl rfl

theorem Persists.trans {x y z : Except ε α} (first : Persists out x y)
    (second : Persists out y z) : Persists out x z := by
  rcases first with ended | rfl
  · exact Or.inl ended
  · exact second

theorem Persists.answer {x y : Except ε α} (persists : Persists out x y) {a : α}
    (done : x = .ok a) : y = .ok a := by
  rcases persists with ended | same
  · rw [ended] at done
    cases done
  · exact same.symm.trans done

theorem Persists.bind {x y : Except ε α} {f g : α → Except ε β} (first : Persists out x y)
    (second : ∀ a, Persists out (f a) (g a)) : Persists out (x >>= f) (y >>= g) := by
  rcases first with rfl | rfl
  · exact Or.inl rfl
  · cases x with
    | error e => exact .refl _
    | ok a => exact second a

theorem Persists.anyM {p q : α → Except ε Bool} (each : ∀ a, Persists out (p a) (q a))
    (l : List α) : Persists out (l.anyM p) (l.anyM q) := by
  induction l with
  | nil => exact .refl _
  | cons a rest ih =>
      refine (each a).bind fun found => ?_
      cases found with
      | true => exact .refl _
      | false => exact ih

theorem Persists.foldlM {f g : β → α → Except ε β}
    (each : ∀ b a, Persists out (f b a) (g b a)) (l : List α) (b : β) :
    Persists out (l.foldlM f b) (l.foldlM g b) := by
  induction l generalizing b with
  | nil => exact .refl _
  | cons a rest ih => exact (each b a).bind ih

theorem Persists.mapM {f g : α → Except ε β} (each : ∀ a, Persists out (f a) (g a))
    (l : List α) : Persists out (l.mapM f) (l.mapM g) := by
  induction l with
  | nil => exact .refl _
  | cons a rest ih =>
      rw [List.mapM_cons, List.mapM_cons]
      exact (each a).bind fun _ => ih.bind fun _ => .refl _

variable {run : Nat → Except ε α} (grows : ∀ fuel, Persists out (run fuel) (run (fuel + 1)))
include grows

theorem Persists.le {fuel large : Nat} (le : fuel ≤ large) :
    Persists out (run fuel) (run large) := by
  induction large, le using Nat.le_induction with
  | base => exact .refl _
  | succ large _ ih => exact ih.trans (grows large)

/-- An answer that more fuel cannot change is returned. -/
theorem Returns.of_persists {fuel : Nat} {a : α} (done : run fuel = .ok a) : Returns run a :=
  Filter.eventually_atTop.mpr ⟨fuel, fun _ le => (Persists.le grows le).answer done⟩

/-- A run that more fuel cannot change returns its answer or ends its budget. -/
theorem Returns.at_fuel {a : α} (done : Returns run a) (fuel : Nat) :
    run fuel = .error out ∨ run fuel = .ok a := by
  rcases Filter.eventually_atTop.mp done with ⟨bound, enough⟩
  refine (Persists.le grows (Nat.le_max_left fuel bound)).imp_right fun same => ?_
  exact same.trans (enough _ (Nat.le_max_right fuel bound))

end Persisting

theorem anyM_returns {p : Nat → α → Except ε Bool} {l : List α}
    (each : ∀ a ∈ l, ∃ found, Returns (fun fuel => p fuel a) found) :
    ∃ found, Returns (fun fuel => l.anyM (p fuel)) found := by
  induction l with
  | nil => exact ⟨false, .const _⟩
  | cons a rest ih =>
      rcases each a List.mem_cons_self with ⟨first, head⟩
      rcases ih fun b member => each b (List.mem_cons_of_mem a member) with ⟨found, tail⟩
      cases first with
      | true =>
          refine ⟨true, head.mono fun fuel h => ?_⟩
          simp only [List.anyM, h]
          rfl
      | false =>
          refine ⟨found, (head.and tail).mono fun fuel h => ?_⟩
          simp only [List.anyM, h.1]
          exact h.2

theorem foldlM_returns {f : Nat → β → α → Except ε β} (P : β → Prop) {l : List α}
    (each : ∀ a ∈ l, ∀ b, P b → ∃ b', Returns (fun fuel => f fuel b a) b' ∧ P b')
    {b : β} (start : P b) : ∃ b', Returns (fun fuel => l.foldlM (f fuel) b) b' ∧ P b' := by
  induction l generalizing b with
  | nil => exact ⟨b, .const b, start⟩
  | cons a rest ih =>
      rcases each a List.mem_cons_self b start with ⟨mid, head, midP⟩
      rcases ih (fun x member => each x (List.mem_cons_of_mem a member)) midP with
        ⟨last, tail, lastP⟩
      exact ⟨last, .congr (fun _ => List.foldlM_cons) (head.bind tail), lastP⟩

end Returning

theorem forall₂_mem_right {R : α → β → Prop} {l : List α} {l' : List β}
    (all : List.Forall₂ R l l') {b : β} (member : b ∈ l') : ∃ a ∈ l, R a b := by
  induction all with
  | nil => cases member
  | @cons a _ _ _ head _ ih =>
      rcases List.mem_cons.mp member with rfl | later
      · exact ⟨a, List.mem_cons_self, head⟩
      · rcases ih later with ⟨a', inside, holds⟩
        exact ⟨a', List.mem_cons_of_mem a inside, holds⟩

theorem forall₂_mem_left {R : α → β → Prop} {l : List α} {l' : List β}
    (all : List.Forall₂ R l l') {a : α} (member : a ∈ l) : ∃ b ∈ l', R a b :=
  forall₂_mem_right (List.Forall₂.flip (R := flip R) all) member

section Threading

/-- Call `f` on each element in turn, passing the state from call to call. -/
def mapAccum (f : α → σ → Except ε (β × σ)) : List α → σ → Except ε (List β × σ)
  | [], s => .ok ([], s)
  | a :: rest, s => do
      let (b, s) ← f a s
      let (bs, s) ← mapAccum f rest s
      pure (b :: bs, s)

/-- The calls `f x sx` made while `mapAccum f` runs down a list from a state. -/
inductive Visited (f : α → σ → Except ε (β × σ)) :
    List α → σ → α → σ → Prop where
  | here (a : α) (rest : List α) (s : σ) : Visited f (a :: rest) s a s
  | later {a : α} {b : β} {rest : List α} {s s' sx : σ} {x : α} :
      f a s = .ok (b, s') → Visited f rest s' x sx → Visited f (a :: rest) s x sx

theorem mapAccum_cons_ok {f : α → σ → Except ε (β × σ)} {a : α} {rest : List α}
    {s s' : σ} {out : List β} :
    mapAccum f (a :: rest) s = .ok (out, s') ↔
      ∃ b mid bs, f a s = .ok (b, mid) ∧ mapAccum f rest mid = .ok (bs, s') ∧
        out = b :: bs := by
  simp only [mapAccum, bind_ok_iff, pure_ok_iff, Prod.exists, Prod.mk.injEq]
  constructor
  · rintro ⟨b, mid, first, bs, last, tail, rfl, rfl⟩
    exact ⟨b, mid, bs, first, tail, rfl⟩
  · rintro ⟨b, mid, bs, first, tail, rfl⟩
    exact ⟨b, mid, first, bs, s', tail, rfl, rfl⟩

theorem Persists.mapAccum {out : ε} {f g : α → σ → Except ε (β × σ)}
    (each : ∀ a s, Persists out (f a s) (g a s)) (l : List α) (s : σ) :
    Persists out (mapAccum f l s) (mapAccum g l s) := by
  induction l generalizing s with
  | nil => exact .refl _
  | cons a rest ih => exact (each a s).bind fun made => (ih made.2).bind fun _ => .refl _

theorem mapAccum_length {f : α → σ → Except ε (β × σ)} {l : List α} {s s' : σ}
    {bs : List β} (run : mapAccum f l s = .ok (bs, s')) : bs.length = l.length := by
  induction l generalizing s bs with
  | nil =>
      rcases Prod.mk.inj (Except.ok.inj run) with ⟨rfl, rfl⟩
      rfl
  | cons a rest ih =>
      rcases mapAccum_cons_ok.mp run with ⟨b, mid, tail, _, later, rfl⟩
      rw [List.length_cons, List.length_cons, ih later]

theorem mapAccum_congr {f g : α → σ → Except ε (β × σ)} (P : σ → Prop) {l : List α}
    {s : σ} (start : P s) (same : ∀ a ∈ l, ∀ s, P s → f a s = g a s)
    (keep : ∀ a ∈ l, ∀ s b s', P s → g a s = .ok (b, s') → P s') :
    mapAccum f l s = mapAccum g l s := by
  induction l generalizing s with
  | nil => rfl
  | cons a rest ih =>
      rw [mapAccum, mapAccum, same a List.mem_cons_self s start]
      cases call : g a s with
      | error e => rfl
      | ok out =>
          rcases out with ⟨b, mid⟩
          have later := ih (keep a List.mem_cons_self s b mid start call)
            (fun x member => same x (List.mem_cons_of_mem a member))
            (fun x member => keep x (List.mem_cons_of_mem a member))
          simp only [bind_ok, later]

theorem mapAccum_fixed {f : Nat → α → σ → Except ε (α × σ)} {l : List α} {s : σ}
    (each : ∀ a ∈ l, Returns (fun fuel => f fuel a s) (a, s)) :
    Returns (fun fuel => mapAccum (f fuel) l s) (l, s) := by
  induction l with
  | nil => exact .const _
  | cons a rest ih =>
      have tail := ih fun x member => each x (List.mem_cons_of_mem a member)
      exact (each a List.mem_cons_self).bind (tail.bind (.const _))

theorem mapAccum_append {f : α → σ → Except ε (β × σ)} {left right : List α}
    {s mid last : σ} {bs cs : List β} (first : mapAccum f left s = .ok (bs, mid))
    (second : mapAccum f right mid = .ok (cs, last)) :
    mapAccum f (left ++ right) s = .ok (bs ++ cs, last) := by
  induction left generalizing s bs with
  | nil =>
      rcases Prod.mk.inj (Except.ok.inj first) with ⟨rfl, rfl⟩
      exact second
  | cons a rest ih =>
      rcases mapAccum_cons_ok.mp first with ⟨b, after, tail, head, later, rfl⟩
      exact mapAccum_cons_ok.mpr ⟨b, after, tail ++ cs, head, ih later, rfl⟩

theorem mapAccum_append_ok {f : α → σ → Except ε (β × σ)} {left right : List α}
    {s last : σ} {out : List β} (run : mapAccum f (left ++ right) s = .ok (out, last)) :
    ∃ bs mid cs, mapAccum f left s = .ok (bs, mid) ∧ mapAccum f right mid = .ok (cs, last) ∧
      out = bs ++ cs := by
  induction left generalizing s out with
  | nil => exact ⟨[], s, out, rfl, run, rfl⟩
  | cons a rest ih =>
      rcases mapAccum_cons_ok.mp run with ⟨b, after, tail, head, later, rfl⟩
      rcases ih later with ⟨bs, mid, cs, first, second, rfl⟩
      exact ⟨b :: bs, mid, cs, mapAccum_cons_ok.mpr ⟨b, after, bs, head, first, rfl⟩,
        second, rfl⟩

theorem mapAccum_map {δ : Type} (f : α → σ → Except ε (β × σ)) (g : δ → α)
    (l : List δ) (s : σ) :
    mapAccum f (l.map g) s = mapAccum (fun d => f (g d)) l s := by
  induction l generalizing s with
  | nil => rfl
  | cons d rest ih => simp only [List.map_cons, mapAccum, ih]

/-- The threading rule: `P` is carried through the states, `R` relates each
state to the ones before it, and a result property `Q` survives later calls. -/
theorem mapAccum_rule_visited {f : α → σ → Except ε (β × σ)} (P : σ → Prop)
    (R : σ → σ → Prop) (Q : σ → α → β → Prop) (refl : ∀ s, R s s)
    (trans : ∀ {a b c}, R a b → R b c → R a c)
    (keep : ∀ {s s' a b}, R s s' → Q s a b → Q s' a b) {l : List α} {s s' : σ}
    (step : ∀ a sa b sb, Visited f l s a sa → P sa → f a sa = .ok (b, sb) → P sb ∧
      R sa sb ∧ Q sb a b) {bs : List β} (start : P s) (run : mapAccum f l s = .ok (bs, s')) :
    P s' ∧ R s s' ∧ List.Forall₂ (Q s') l bs := by
  induction l generalizing s bs with
  | nil =>
      simp only [mapAccum, Except.ok.injEq, Prod.mk.injEq] at run
      rcases run with ⟨rfl, rfl⟩
      exact ⟨start, refl s, .nil⟩
  | cons a rest ih =>
      rcases mapAccum_cons_ok.mp run with ⟨b, mid, bs, first, tail, rfl⟩
      rcases step a s b mid (.here a rest s) start first with ⟨midP, midR, midQ⟩
      rcases ih (fun x sx c sc visit => step x sx c sc (.later first visit)) midP tail with
        ⟨lastP, lastR, lastQ⟩
      exact ⟨lastP, trans midR lastR, .cons (keep lastR midQ) lastQ⟩

theorem Visited.mem {f : α → σ → Except ε (β × σ)} {l : List α} {s sx : σ} {x : α}
    (visit : Visited f l s x sx) : x ∈ l := by
  induction visit with
  | here a rest s => exact List.mem_cons_self
  | later _ _ ih => exact List.mem_cons_of_mem _ ih

theorem Visited.left {f : α → σ → Except ε (β × σ)} {l : List α} {s sx : σ} {x : α}
    (visit : Visited f l s x sx) (right : List α) : Visited f (l ++ right) s x sx := by
  induction visit with
  | here a rest _ => exact .here a (rest ++ right) _
  | later call _ ih => exact .later call ih

theorem Visited.right {f : α → σ → Except ε (β × σ)} {left l : List α} {s mid sx : σ}
    {x : α} {bs : List β} (first : mapAccum f left s = .ok (bs, mid))
    (visit : Visited f l mid x sx) :
    Visited f (left ++ l) s x sx := by
  induction left generalizing s bs with
  | nil =>
      rcases Prod.mk.inj (Except.ok.inj first) with ⟨_, rfl⟩
      exact visit
  | cons a rest ih =>
      rcases mapAccum_cons_ok.mp first with ⟨b, after, tail, head, later, _⟩
      exact .later head (ih later)

theorem Visited.of_map {δ : Type} {f : α → σ → Except ε (β × σ)} {g : δ → α}
    {l : List δ} {s sx : σ} {x : α} (visit : Visited f (l.map g) s x sx) :
    ∃ d, x = g d ∧ Visited (fun d => f (g d)) l s d sx := by
  induction l generalizing s with
  | nil => cases visit
  | cons d rest ih =>
      cases visit with
      | here _ _ _ => exact ⟨d, rfl, .here d rest _⟩
      | later call visit =>
          rcases ih visit with ⟨d', same, visit⟩
          exact ⟨d', same, .later call visit⟩

theorem mapAccum_rule {f : α → σ → Except ε (β × σ)} (P : σ → Prop)
    (R : σ → σ → Prop) (Q : σ → α → β → Prop) (refl : ∀ s, R s s)
    (trans : ∀ {a b c}, R a b → R b c → R a c)
    (keep : ∀ {s s' a b}, R s s' → Q s a b → Q s' a b) {l : List α}
    (step : ∀ a ∈ l, ∀ s b s', P s → f a s = .ok (b, s') → P s' ∧ R s s' ∧ Q s' a b)
    {s s' : σ} {bs : List β} (start : P s) (run : mapAccum f l s = .ok (bs, s')) :
    P s' ∧ R s s' ∧ List.Forall₂ (Q s') l bs :=
  mapAccum_rule_visited P R Q refl trans keep
    (fun a sa b sb visit before call => step a visit.mem sa b sb before call) start run

theorem result_visited {f : α → σ → Except ε (β × σ)} {l : List α} {s s' : σ}
    {bs : List β} (run : mapAccum f l s = .ok (bs, s')) {b : β} (member : b ∈ bs) :
    ∃ x ∈ l, ∃ sx after, Visited f l s x sx ∧ f x sx = .ok (b, after) := by
  induction l generalizing s bs with
  | nil =>
      simp only [mapAccum, Except.ok.injEq, Prod.mk.injEq] at run
      rcases run with ⟨rfl, rfl⟩
      cases member
  | cons a rest ih =>
      rcases mapAccum_cons_ok.mp run with ⟨b', mid, bs, first, tail, rfl⟩
      rcases List.mem_cons.mp member with rfl | later
      · exact ⟨a, List.mem_cons_self, s, mid, .here a rest s, first⟩
      · rcases ih tail later with ⟨x, inside, sx, after, visit, call⟩
        exact ⟨x, List.mem_cons_of_mem a inside, sx, after, .later first visit, call⟩

/-- The states a traversal visits satisfy a property that its calls preserve. -/
theorem Visited.invariant {f : α → σ → Except ε (β × σ)} (P : σ → Prop) {l : List α}
    {s sx : σ} {x : α}
    (step : ∀ a sa b sb, Visited f l s a sa → P sa → f a sa = .ok (b, sb) → P sb)
    (visit : Visited f l s x sx) (start : P s) : P sx := by
  induction visit with
  | here a rest s => exact start
  | @later a b rest s s' sx x call _ ih =>
      have mid := step a s b s' (.here a rest s) start call
      exact ih (fun y sy c sc visit => step y sy c sc (.later call visit)) mid

/-- A traversal ends when each call it really makes does. -/
theorem mapAccum_returns_visited {f : Nat → α → σ → Except ε (β × σ)} (P : σ → Prop)
    {l : List α} {s : σ}
    (step : ∀ a sa, (∀ᶠ fuel in Filter.atTop, Visited (f fuel) l s a sa) → P sa →
      ∃ b s', Returns (fun fuel => f fuel a sa) (b, s') ∧ P s') (start : P s) :
    ∃ bs s', Returns (fun fuel => mapAccum (f fuel) l s) (bs, s') ∧ P s' := by
  induction l generalizing s with
  | nil => exact ⟨[], s, .const _, start⟩
  | cons a rest ih =>
      rcases step a s (.of_forall fun _ => .here a rest s) start with ⟨b, mid, first, midP⟩
      have later : ∀ x sx, (∀ᶠ fuel in Filter.atTop, Visited (f fuel) rest mid x sx) →
          P sx → ∃ b s', Returns (fun fuel => f fuel x sx) (b, s') ∧ P s' := fun x sx visit =>
        step x sx ((first.and visit).mono fun _ h => .later h.1 h.2)
      rcases ih later midP with ⟨bs, s', tail, lastP⟩
      exact ⟨b :: bs, s', first.bind (tail.bind (.const _)), lastP⟩

theorem mapAccum_returns {f : Nat → α → σ → Except ε (β × σ)} (P : σ → Prop)
    (Q : β → Prop) {l : List α}
    (step : ∀ a ∈ l, ∀ s, P s → ∃ b s', Returns (fun fuel => f fuel a s) (b, s') ∧
      P s' ∧ Q b) {s : σ} (start : P s) :
    ∃ bs s', Returns (fun fuel => mapAccum (f fuel) l s) (bs, s') ∧ P s' ∧
      ∀ b ∈ bs, Q b := by
  induction l generalizing s with
  | nil => exact ⟨[], s, Returns.const _, start, by simp⟩
  | cons a rest ih =>
      rcases step a List.mem_cons_self s start with ⟨b, mid, first, midP, headQ⟩
      rcases ih (fun x member => step x (List.mem_cons_of_mem a member)) midP with
        ⟨bs, s', tail, lastP, tailQ⟩
      refine ⟨b :: bs, s', first.bind (tail.bind (.const _)), lastP, fun c member => ?_⟩
      rcases List.mem_cons.mp member with rfl | later
      · exact headQ
      · exact tailQ c later

theorem mapM_returns {f : Nat → α → Except ε β} (Q : α → β → Prop) {l : List α}
    (each : ∀ a ∈ l, ∃ b, Returns (fun fuel => f fuel a) b ∧ Q a b) :
    ∃ bs, Returns (fun fuel => l.mapM (f fuel)) bs ∧ List.Forall₂ Q l bs := by
  induction l with
  | nil => exact ⟨[], .congr (fun _ => List.mapM_nil) (.const _), .nil⟩
  | cons a rest ih =>
      rcases each a List.mem_cons_self with ⟨b, first, holds⟩
      rcases ih fun x member => each x (List.mem_cons_of_mem a member) with ⟨bs, tail, others⟩
      exact ⟨b :: bs, .congr (fun _ => List.mapM_cons) (first.bind (tail.bind (.const _))),
        .cons holds others⟩

end Threading

end AtpEngine.Fuelled
