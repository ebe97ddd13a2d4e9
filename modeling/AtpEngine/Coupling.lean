import AtpEngine.Unification
import AtpEngine.LockStep
import Mathlib.Data.List.Zip

/-!
Two term banks that hold the same terms under other ids. Variables correspond
one to one, and all other terms correspond when their symbols are the same and
their arguments do. Since both banks are hash-consed, corresponding ids are equal
on one side when they are on the other, which is all that unification, subsumption
and printing ask about ids; so these run in lock step on both sides.
-/
namespace AtpEngine

open Fuelled LockStep

structure Coupling where
  left : TermBank
  right : TermBank
  paired : Nat → Nat → Prop
  leftWf : left.WellFormed
  rightWf : right.WellFormed
  leftShared : left.HashConsed
  rightShared : right.HashConsed
  leftVar : ∀ {x y : Nat}, paired x y → left.isVar x = true
  rightVar : ∀ {x y : Nat}, paired x y → right.isVar y = true
  oneToOne : Relator.BiUnique paired

namespace Coupling

def Symbol (w : Coupling) (f : Nat) : Prop :=
  ∃ info, w.left.symbols.infos[f]? = some info ∧ w.right.symbols.infos[f]? = some info ∧
    info.kind ≠ .kVariable

/-- The term `a` on the left is the term `b` on the right. -/
inductive Same (w : Coupling) : Nat → Nat → Prop where
  | var {x y : Nat} : w.paired x y → Same w x y
  | node {a b f : Nat} {args args' : List Nat} : w.left.terms[a]? = some ⟨f, args⟩ →
      w.right.terms[b]? = some ⟨f, args'⟩ → w.Symbol f → args.length = args'.length →
      (∀ p ∈ args.zip args', Same w p.1 p.2) → Same w a b

structure Below (w later : Coupling) : Prop where
  left : w.left.Extends later.left
  right : w.right.Extends later.right
  paired : ∀ {x y : Nat}, w.paired x y → later.paired x y

instance : Preorder Coupling where
  le := Below
  le_refl := fun w => ⟨.refl _, .refl _, id⟩
  le_trans := fun _ _ _ first second =>
    ⟨first.left.trans second.left, first.right.trans second.right,
      second.paired ∘ first.paired⟩

def swap (w : Coupling) : Coupling where
  left := w.right
  right := w.left
  paired := fun x y => w.paired y x
  leftWf := w.rightWf
  rightWf := w.leftWf
  leftShared := w.rightShared
  rightShared := w.leftShared
  leftVar := w.rightVar
  rightVar := w.leftVar
  oneToOne := ⟨fun _ _ _ h h' => w.oneToOne.2 h h', fun _ _ _ h h' => w.oneToOne.1 h h'⟩

variable {w later : Coupling} {a b : Nat}

theorem Symbol.mono {f : Nat} (symbol : w.Symbol f) (above : w ≤ later) : later.Symbol f := by
  rcases symbol with ⟨info, left, right, kind⟩
  exact ⟨info, prefix_getElem? above.left.infos left, prefix_getElem? above.right.infos right,
    kind⟩

theorem Symbol.left {f : Nat} (symbol : w.Symbol f) : w.left.symbols.isVar f = false := by
  rcases symbol with ⟨info, left, _, kind⟩
  simpa [SymbolTable.isVar, left] using kind

theorem Symbol.left_lt {f : Nat} (symbol : w.Symbol f) : f < w.left.symbols.size := by
  rcases symbol with ⟨info, left, _, _⟩
  exact (List.getElem?_eq_some_iff.mp left).1

theorem Symbol.right {f : Nat} (symbol : w.Symbol f) : w.right.symbols.isVar f = false := by
  rcases symbol with ⟨info, _, right, kind⟩
  simpa [SymbolTable.isVar, right] using kind

theorem Symbol.swap {f : Nat} (symbol : w.Symbol f) : w.swap.Symbol f := by
  rcases symbol with ⟨info, left, right, kind⟩
  exact ⟨info, right, left, kind⟩

namespace Same

theorem args {args args' : List Nat} (lengths : args.length = args'.length)
    (each : ∀ p ∈ args.zip args', w.Same p.1 p.2) : List.Forall₂ w.Same args args' :=
  List.forall₂_iff_zip.mpr ⟨lengths, fun member => each _ member⟩

theorem app {f : Nat} {args args' : List Nat} (left : w.left.terms[a]? = some ⟨f, args⟩)
    (right : w.right.terms[b]? = some ⟨f, args'⟩) (symbol : w.Symbol f)
    (all : List.Forall₂ w.Same args args') : w.Same a b :=
  .node left right symbol all.length_eq fun _ member => List.forall₂_zip all member

theorem swap (same : w.Same a b) : w.swap.Same b a := by
  induction same with
  | var pair => exact .var pair
  | node left right symbol lengths _ ih =>
      apply node right left symbol.swap lengths.symm
      rintro ⟨q, p⟩ member
      apply ih (p, q)
      rw [← List.zip_swap]
      exact List.mem_map_of_mem member

theorem mono (same : w.Same a b) (above : w ≤ later) : later.Same a b := by
  induction same with
  | var pair => exact .var (above.paired pair)
  | node left right symbol lengths _ ih =>
      exact .node (above.left.term left) (above.right.term right) (symbol.mono above) lengths ih

theorem left_lt (same : w.Same a b) : a < w.left.size := by
  cases same with
  | var pair => exact TermBank.isVar_lt (w.leftVar pair)
  | node left _ _ _ _ => exact (List.getElem?_eq_some_iff.mp left).1

theorem right_lt (same : w.Same a b) : b < w.right.size := same.swap.left_lt

theorem shape (same : w.Same a b) :
    (w.paired a b ∧ w.left.isVariable a = .ok true ∧ w.right.isVariable b = .ok true) ∨
    ∃ f args args', w.left.isVariable a = .ok false ∧ w.right.isVariable b = .ok false ∧
      w.left.terms[a]? = some ⟨f, args⟩ ∧ w.right.terms[b]? = some ⟨f, args'⟩ ∧
      w.Symbol f ∧ List.Forall₂ w.Same args args' := by
  have leftKind := TermBank.isVariable_eq w.leftWf same.left_lt
  have rightKind := TermBank.isVariable_eq w.rightWf same.right_lt
  cases same with
  | var pair =>
      rw [w.leftVar pair] at leftKind
      rw [w.rightVar pair] at rightKind
      exact Or.inl ⟨pair, leftKind, rightKind⟩
  | node left right symbol lengths each =>
      rw [TermBank.isVar_term left, symbol.left] at leftKind
      rw [TermBank.isVar_term right, symbol.right] at rightKind
      exact Or.inr ⟨_, _, _, leftKind, rightKind, left, right, symbol, args lengths each⟩

theorem right_unique (same : w.Same a b) {c : Nat} (other : w.Same a c) : b = c := by
  induction same generalizing c with
  | var pair =>
      cases other with
      | var pair' => exact w.oneToOne.2 pair pair'
      | node left _ symbol _ _ =>
          have isVar := w.leftVar pair
          rw [TermBank.isVar_term left, symbol.left] at isVar
          cases isVar
  | @node _ _ f args args' left right symbol lengths _ ih =>
      cases other with
      | var pair =>
          have isVar := w.leftVar pair
          rw [TermBank.isVar_term left, symbol.left] at isVar
          cases isVar
      | @node _ _ _ _ args'' left' right' _ lengths' each =>
          rcases Term.mk.inj (Option.some.inj (left.symm.trans left')) with ⟨rfl, rfl⟩
          have equal : args' = args'' := by
            apply List.ext_getElem (lengths.symm.trans lengths')
            intro i inside inside'
            have first : i < args.length := lengths ▸ inside
            apply ih (args[i], args'[i])
            · exact List.mem_of_getElem? (i := i) (by simp [first, inside])
            · exact each (args[i], args''[i])
                (List.mem_of_getElem? (i := i) (by simp [first, inside']))
          rw [equal] at right
          exact w.rightShared.inj right right'

end Same

theorem same_biUnique (w : Coupling) : Relator.BiUnique w.Same :=
  ⟨fun _ _ _ first second => first.swap.right_unique second.swap,
    fun _ _ _ first second => first.right_unique second⟩

theorem Same.eq_iff {a' b' : Nat} (first : w.Same a b) (second : w.Same a' b') :
    a = a' ↔ b = b' :=
  Relator.rel_eq w.same_biUnique first second

section Inclusion

variable {bank big : TermBank}

theorem isVar_kept {x y : Nat} (pair : x = y ∧ bank.isVar x = true) : bank.isVar x = true :=
  pair.2

theorem isVar_grown (wf : bank.WellFormed) (grows : bank.Extends big) {x y : Nat}
    (pair : x = y ∧ bank.isVar x = true) : big.isVar y = true := by
  rw [← pair.1, grows.isVar_eq wf (TermBank.isVar_lt pair.2), pair.2]

theorem variables_oneToOne (bank : TermBank) :
    Relator.BiUnique fun x y => x = y ∧ bank.isVar x = true :=
  ⟨fun _ _ _ h h' => h.1.trans h'.1.symm, fun _ _ _ h h' => h.1.symm.trans h'.1⟩

def inclusion (wf : bank.WellFormed) (shared : bank.HashConsed) (wf' : big.WellFormed)
    (shared' : big.HashConsed) (grows : bank.Extends big) : Coupling where
  left := bank
  right := big
  paired := fun x y => x = y ∧ bank.isVar x = true
  leftWf := wf
  rightWf := wf'
  leftShared := shared
  rightShared := shared'
  leftVar := @isVar_kept bank
  rightVar := @isVar_grown bank big wf grows
  oneToOne := variables_oneToOne bank

theorem inclusion_same (wf : bank.WellFormed) (shared : bank.HashConsed) (wf' : big.WellFormed)
    (shared' : big.HashConsed) (grows : bank.Extends big) {id : Nat} (valid : id < bank.size) :
    (inclusion wf shared wf' shared' grows).Same id id := by
  induction id using Nat.strong_induction_on with
  | _ id ih =>
    rcases TermBank.tree_cases wf valid with ⟨isVar, _⟩ | ⟨t, found, isVar, below, _⟩
    · exact .var ⟨rfl, isVar⟩
    · have known : ∃ info, bank.symbols.infos[t.symbolId]? = some info :=
        ⟨_, List.getElem?_eq_getElem (wf.symbol_valid found)⟩
      rcases known with ⟨info, entry⟩
      have symbol : (inclusion wf shared wf' shared' grows).Symbol t.symbolId := by
        refine ⟨_, entry, prefix_getElem? grows.infos entry, fun isVariable => ?_⟩
        rw [TermBank.isVar_term found, SymbolTable.isVar, entry] at isVar
        simp [isVariable] at isVar
      exact .app found (grows.term found) symbol (List.forall₂_same.mpr fun a member =>
        ih a (below a member) (Nat.lt_trans (below a member) valid))

end Inclusion

section Unifying

/-- Corresponding variables are bound to corresponding terms, and no other is bound. -/
structure SameBindings (w : Coupling) (subst subst' : Substitution) : Prop where
  left : ∀ {x t}, subst.find x = some t →
    ∃ y u, w.paired x y ∧ subst'.find y = some u ∧ w.Same t u
  right : ∀ {y u}, subst'.find y = some u →
    ∃ x t, w.paired x y ∧ subst.find x = some t ∧ w.Same t u

variable {subst subst' : Substitution} {config : UnificationConfig}

theorem SameBindings.empty (w : Coupling) : w.SameBindings {} {} :=
  ⟨fun found => (by cases found), fun found => (by cases found)⟩

theorem SameBindings.mono (same : w.SameBindings subst subst') (above : w ≤ later) :
    later.SameBindings subst subst' := by
  constructor
  · intro x t found
    rcases same.left found with ⟨y, u, pair, found', terms⟩
    exact ⟨y, u, above.paired pair, found', terms.mono above⟩
  · intro y u found
    rcases same.right found with ⟨x, t, pair, found', terms⟩
    exact ⟨x, t, above.paired pair, found', terms.mono above⟩

theorem SameBindings.leftValid (same : w.SameBindings subst subst') : subst.ValidIn w.left := by
  intro x t found
  rcases same.left found with ⟨_, _, pair, _, terms⟩
  exact ⟨w.leftVar pair, terms.left_lt⟩

theorem SameBindings.rightValid (same : w.SameBindings subst subst') : subst'.ValidIn w.right := by
  intro y u found
  rcases same.right found with ⟨_, _, pair, _, terms⟩
  exact ⟨w.rightVar pair, terms.right_lt⟩

theorem SameBindings.find (same : w.SameBindings subst subst') {x y : Nat} (pair : w.paired x y) :
    Option.Rel w.Same (subst.find x) (subst'.find y) := by
  cases found : subst.find x with
  | some t =>
      rcases same.left found with ⟨y', u, pair', found', terms⟩
      rcases w.oneToOne.2 pair pair' with rfl
      rw [found']
      exact .some terms
  | none =>
      cases found' : subst'.find y with
      | none => exact .none
      | some u =>
          rcases same.right found' with ⟨x', t, pair', found'', _⟩
          rcases w.oneToOne.1 pair pair' with rfl
          rw [found] at found''
          cases found''

theorem SameBindings.bind (same : w.SameBindings subst subst') {x y t u : Nat}
    (pair : w.paired x y) (terms : w.Same t u) :
    w.SameBindings (subst.bind x t).2 (subst'.bind y u).2 := by
  have reads := same.find pair
  cases found : subst.find x with
  | some old =>
      rw [found] at reads
      cases found' : subst'.find y with
      | none => rw [found'] at reads; cases reads
      | some old' => simpa [Substitution.bind, found, found'] using same
  | none =>
      rw [found] at reads
      cases found' : subst'.find y with
      | some old' => rw [found'] at reads; cases reads
      | none =>
          constructor
          · intro z r at_z
            rw [Substitution.find_bind found] at at_z
            split at at_z
            · next own =>
                rcases Option.some.inj at_z with rfl
                exact ⟨y, u, own ▸ pair, by rw [Substitution.find_bind found', if_pos rfl],
                  terms⟩
            · next other =>
                rcases same.left at_z with ⟨z', r', pair', at_z', inner⟩
                have other' : z' ≠ y :=
                  fun h => other ((Relator.rel_eq w.oneToOne pair' pair).mpr h)
                exact ⟨z', r', pair', by rw [Substitution.find_bind found', if_neg other', at_z'],
                  inner⟩
          · intro z r at_z
            rw [Substitution.find_bind found'] at at_z
            split at at_z
            · next own =>
                rcases Option.some.inj at_z with rfl
                exact ⟨x, t, own ▸ pair, by rw [Substitution.find_bind found, if_pos rfl],
                  terms⟩
            · next other =>
                rcases same.right at_z with ⟨z', r', pair', at_z', inner⟩
                have other' : z' ≠ x :=
                  fun h => other ((Relator.rel_eq w.oneToOne pair' pair).mp h)
                exact ⟨z', r', pair', by rw [Substitution.find_bind found, if_neg other', at_z'],
                  inner⟩

theorem resolve_alike (bindings : w.SameBindings subst subst') (fuel : Nat) (same : w.Same a b) :
    Alike w.Same (subst.resolve w.left fuel a) (subst'.resolve w.right fuel b) := by
  induction fuel generalizing a b with
  | zero => exact .error _
  | succ fuel ih =>
      rcases same.shape with ⟨pair, left, right⟩ | ⟨_, _, _, left, right, _⟩
      · simp only [Substitution.resolve, left, right, bind_ok, if_true]
        have reads := bindings.find pair
        cases found : subst.find a with
        | none =>
            rw [found] at reads
            cases found' : subst'.find b with
            | none => exact .pure same
            | some u => rw [found'] at reads; cases reads
        | some t =>
            rw [found] at reads
            cases found' : subst'.find b with
            | none => rw [found'] at reads; cases reads
            | some u =>
                rw [found'] at reads
                cases reads with
                | some terms => exact ih terms
      · simp only [Substitution.resolve, left, right, bind_ok]
        exact .pure same

theorem occursIn_alike (bindings : w.SameBindings subst subst') (fuel : Nat) {x y : Nat}
    (vars : w.Same x y) (same : w.Same a b) :
    Alike Eq (subst.occursIn w.left fuel x a) (subst'.occursIn w.right fuel y b) := by
  induction fuel generalizing a b with
  | zero => exact .error _
  | succ fuel ih =>
      rw [Substitution.occursIn, Substitution.occursIn]
      apply (resolve_alike bindings fuel same).bind
      intro t u same
      by_cases hit : x = t
      · rw [if_pos hit, if_pos ((vars.eq_iff same).mp hit)]
        exact .pure rfl
      · rw [if_neg hit, if_neg (fun h => hit ((vars.eq_iff same).mpr h))]
        rcases same.shape with
          ⟨_, left, right⟩ | ⟨_, _, _, left, right, entry, entry', _, all⟩
        · simp only [left, right, bind_ok, if_true]
          exact .pure rfl
        · simp only [left, right, bind_ok, TermBank.getTerm_ok.mpr entry,
            TermBank.getTerm_ok.mpr entry']
          exact Alike.anyM (fun _ _ same => ih same) all

def SameUnified (w : Coupling) (out out' : Bool × Substitution) : Prop :=
  out.1 = out'.1 ∧ w.SameBindings out.2 out'.2

theorem bindVariable_alike (bindings : w.SameBindings subst subst') (fuel : Nat) {x y : Nat}
    (pair : w.paired x y) (same : w.Same a b) :
    Alike w.SameUnified (bindVariable w.left config fuel subst x a)
      (bindVariable w.right config fuel subst' y b) := by
  rw [bindVariable, bindVariable]
  split
  · apply (occursIn_alike bindings fuel (.var pair) same).bind
    rintro occurs _ rfl
    cases occurs with
    | true => exact .pure ⟨rfl, bindings⟩
    | false => exact .pure ⟨rfl, bindings.bind pair same⟩
  · exact .pure ⟨rfl, bindings.bind pair same⟩

theorem unifyArgs_alike
    {unifyPair unifyPair' : Nat → Nat → Substitution → Except Fault (Bool × Substitution)}
    (each : ∀ {a1 a2 b1 b2 s s'}, w.Same a1 b1 → w.Same a2 b2 → w.SameBindings s s' →
      Alike w.SameUnified (unifyPair a1 a2 s) (unifyPair' b1 b2 s'))
    {pairs pairs' : List (Nat × Nat)}
    (all : List.Forall₂ (fun p p' => w.Same p.1 p'.1 ∧ w.Same p.2 p'.2) pairs pairs')
    (bindings : w.SameBindings subst subst') :
    Alike w.SameUnified (unifyArgs unifyPair pairs subst) (unifyArgs unifyPair' pairs' subst') := by
  induction all generalizing subst subst' with
  | nil => exact .ok ⟨rfl, bindings⟩
  | cons head _ ih =>
      rw [unifyArgs, unifyArgs]
      apply (each head.1 head.2 bindings).bind
      rintro ⟨unified, s⟩ ⟨_, s'⟩ ⟨rfl, bindings⟩
      cases unified with
      | true => exact ih bindings
      | false => exact .pure ⟨rfl, bindings⟩

theorem argPairs_same {f g : Nat} {args1 args2 args1' args2' : List Nat}
    (first : List.Forall₂ w.Same args1 args1') (second : List.Forall₂ w.Same args2 args2') :
    List.Forall₂ (fun p p' => w.Same p.1 p'.1 ∧ w.Same p.2 p'.2)
      (argPairs ⟨f, args1⟩ ⟨g, args2⟩) (argPairs ⟨f, args1'⟩ ⟨g, args2'⟩) := by
  have arity : Term.arity ⟨f, args1'⟩ = Term.arity ⟨f, args1⟩ := by
    simp only [Term.arity, first.length_eq]
  rw [argPairs, argPairs, arity]
  exact forall₂_zip_zip (List.forall₂_take _ first) (List.forall₂_take _ second)

theorem unify_alike (bindings : w.SameBindings subst subst') (fuel : Nat) {a' b' : Nat}
    (first : w.Same a b) (second : w.Same a' b') :
    Alike w.SameUnified (unify w.left config fuel a a' subst)
      (unify w.right config fuel b b' subst') := by
  induction fuel generalizing a b a' b' subst subst' with
  | zero => exact .error _
  | succ fuel ih =>
      rw [unify, unify]
      apply (resolve_alike bindings fuel first).bind
      intro t1 u1 first
      apply (resolve_alike bindings fuel second).bind
      intro t2 u2 second
      by_cases equal : t1 = t2
      · rw [if_pos equal, if_pos ((first.eq_iff second).mp equal)]
        exact .pure ⟨rfl, bindings⟩
      rw [if_neg equal, if_neg fun h => equal ((first.eq_iff second).mpr h)]
      rcases first.shape with
        ⟨pair, left, right⟩ | ⟨f, args1, args1', left, right, entry1, entry1', _, all1⟩
      · simp only [left, right, bind_ok, if_true]
        exact bindVariable_alike bindings fuel pair second
      simp only [left, right, bind_ok, Bool.false_eq_true, if_false]
      rcases second.shape with
        ⟨pair, left, right⟩ | ⟨g, args2, args2', left, right, entry2, entry2', _, all2⟩
      · simp only [left, right, bind_ok, if_true]
        exact bindVariable_alike bindings fuel pair first
      simp only [left, right, bind_ok, Bool.false_eq_true, if_false, TermBank.getTerm_ok.mpr entry1,
        TermBank.getTerm_ok.mpr entry1', TermBank.getTerm_ok.mpr entry2,
        TermBank.getTerm_ok.mpr entry2']
      have arity1 : Term.arity ⟨f, args1'⟩ = Term.arity ⟨f, args1⟩ := by
        simp only [Term.arity, all1.length_eq]
      have arity2 : Term.arity ⟨g, args2'⟩ = Term.arity ⟨g, args2⟩ := by
        simp only [Term.arity, all2.length_eq]
      rw [arity1, arity2]
      split
      · exact .pure ⟨rfl, bindings⟩
      · exact unifyArgs_alike (fun first second bindings => ih bindings first second)
          (argPairs_same all1 all2) bindings

end Unifying

section Building

def Banks (w : Coupling) (bank bank' : TermBank) : Prop := bank = w.left ∧ bank' = w.right

/-- Banks that continue the two sides, and pairs of variables new to both. -/
structure Extension (w : Coupling) (bank bank' : TermBank) (extra : Nat → Nat → Prop) :
    Prop where
  left : w.left.Extends bank
  right : w.right.Extends bank'
  leftWf : bank.WellFormed
  rightWf : bank'.WellFormed
  leftShared : bank.HashConsed
  rightShared : bank'.HashConsed
  leftNew : ∀ {x y : Nat}, extra x y → w.left.size ≤ x ∧ bank.isVar x = true
  rightNew : ∀ {x y : Nat}, extra x y → w.right.size ≤ y ∧ bank'.isVar y = true
  oneToOne : Relator.BiUnique extra

def extend (w : Coupling) {bank bank' : TermBank} {extra : Nat → Nat → Prop}
    (more : w.Extension bank bank' extra) : Coupling where
  left := bank
  right := bank'
  paired := fun x y => w.paired x y ∨ extra x y
  leftWf := more.leftWf
  rightWf := more.rightWf
  leftShared := more.leftShared
  rightShared := more.rightShared
  leftVar := by
    rintro x y (old | new)
    · rw [more.left.isVar_eq w.leftWf (TermBank.isVar_lt (w.leftVar old)), w.leftVar old]
    · exact (more.leftNew new).2
  rightVar := by
    rintro x y (old | new)
    · rw [more.right.isVar_eq w.rightWf (TermBank.isVar_lt (w.rightVar old)), w.rightVar old]
    · exact (more.rightNew new).2
  oneToOne := by
    constructor
    · rintro x y z (old | new) (old' | new')
      · exact w.oneToOne.1 old old'
      · exact absurd (TermBank.isVar_lt (w.rightVar old)) (Nat.not_lt_of_le (more.rightNew new').1)
      · exact absurd (TermBank.isVar_lt (w.rightVar old')) (Nat.not_lt_of_le (more.rightNew new).1)
      · exact more.oneToOne.1 new new'
    · rintro x y z (old | new) (old' | new')
      · exact w.oneToOne.2 old old'
      · exact absurd (TermBank.isVar_lt (w.leftVar old)) (Nat.not_lt_of_le (more.leftNew new').1)
      · exact absurd (TermBank.isVar_lt (w.leftVar old')) (Nat.not_lt_of_le (more.leftNew new).1)
      · exact more.oneToOne.2 new new'

theorem extend_above {bank bank' : TermBank} {extra : Nat → Nat → Prop}
    (more : w.Extension bank bank' extra) : w ≤ w.extend more :=
  ⟨more.left, more.right, Or.inl⟩

theorem makeTerm_follows {f : Nat} {args args' : List Nat} (symbol : w.Symbol f)
    (all : List.Forall₂ w.Same args args') :
    Follows (ε := Fault) Banks Same w (pure (w.left.makeTerm f args))
      (pure (w.right.makeTerm f args')) := by
  have inside : ∀ arg ∈ args, arg < w.left.size := fun arg member => by
    rcases forall₂_mem_left all member with ⟨_, _, same⟩
    exact same.left_lt
  have inside' : ∀ arg ∈ args', arg < w.right.size := fun arg member => by
    rcases forall₂_mem_right all member with ⟨_, _, same⟩
    exact same.right_lt
  have more :
      w.Extension (w.left.makeTerm f args).2 (w.right.makeTerm f args').2 fun _ _ => False :=
    { left := TermBank.makeTerm_extends w.left f args
      right := TermBank.makeTerm_extends w.right f args'
      leftWf := TermBank.makeTerm_wellFormed w.leftWf f args symbol.left_lt inside
        fun isVar => by rw [symbol.left] at isVar; cases isVar
      rightWf := TermBank.makeTerm_wellFormed w.rightWf f args' symbol.swap.left_lt inside'
        fun isVar => by rw [symbol.right] at isVar; cases isVar
      leftShared := TermBank.makeTerm_hashConsed w.leftShared f args
      rightShared := TermBank.makeTerm_hashConsed w.rightShared f args'
      leftNew := False.elim
      rightNew := False.elim
      oneToOne := ⟨fun _ _ _ => False.elim, fun _ _ _ => False.elim⟩ }
  have above := extend_above more
  exact .pure above ⟨rfl, rfl⟩ (.app (TermBank.makeTerm_term w.leftWf.toIndexSound f args)
    (TermBank.makeTerm_term w.rightWf.toIndexSound f args') (symbol.mono above)
    (all.imp fun _ _ same => same.mono above))

theorem applySubstitution_follows {subst subst' : Substitution}
    (bindings : w.SameBindings subst subst') (fuel : Nat) (same : w.Same a b) :
    Follows Banks Same w (applySubstitution subst fuel a w.left)
      (applySubstitution subst' fuel b w.right) := by
  induction fuel generalizing w a b with
  | zero => exact .error _
  | succ fuel ih =>
      rw [applySubstitution, applySubstitution]
      apply (resolve_alike bindings fuel same).bind
      intro t u same
      rcases same.shape with
        ⟨_, left, right⟩ | ⟨f, args, args', left, right, entry, entry', symbol, all⟩
      · simp only [left, right, bind_ok, if_true]
        exact Follows.pure le_rfl ⟨rfl, rfl⟩ same
      simp only [left, right, bind_ok, Bool.false_eq_true, if_false, TermBank.getTerm_ok.mpr entry,
        TermBank.getTerm_ok.mpr entry']
      have loop : Follows Banks (fun later => List.Forall₂ later.Same) w
          (mapAccum (applySubstitution subst fuel) args w.left)
          (mapAccum (applySubstitution subst' fuel) args' w.right) := by
        apply Follows.mapAccum (fun above same => same.mono above)
          (fun above same => same.mono above)
          _ all ⟨rfl, rfl⟩
        rintro later arg arg' _ _ above same ⟨rfl, rfl⟩
        exact ih (bindings.mono above) same
      apply loop.bind
      rintro later news news' _ _ above ⟨rfl, rfl⟩ all
      exact makeTerm_follows (symbol.mono above) all

end Building

end Coupling

end AtpEngine
