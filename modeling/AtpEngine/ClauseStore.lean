import AtpEngine.ClauseLogic
import AtpEngine.TermBank

/-!
Literals, clauses and the clause store of core/literal.h, core/clause.h and
core/clause_store.cc, with the two redundancy tests of simplify/. A stored
clause is read as the first-order clause of its atoms' trees.
-/
namespace AtpEngine

open Fuelled ClauseLogic

structure Literal where
  atom : Nat
  isPositive : Bool
  deriving DecidableEq, Repr

structure Clause where
  id : ClauseId := kInvalidId
  literals : List Literal := []
  rule : InferenceRule := .kInput
  parent1 : ClauseId := kInvalidId
  parent2 : ClauseId := kInvalidId
  depth : Nat := 0
  deriving DecidableEq, Repr

namespace Clause

def isEmpty (c : Clause) : Bool := c.literals.isEmpty

def size (c : Clause) : Nat := c.literals.length

def literalAt (c : Clause) (i : Nat) : Except Fault Literal :=
  match c.literals[i]? with
  | some lit => .ok lit
  | none => .error .outOfBounds

theorem literalAt_ok {c : Clause} {i : Nat} {lit : Literal} :
    c.literalAt i = .ok lit ↔ c.literals[i]? = some lit := by
  cases found : c.literals[i]? <;> simp [literalAt, found]

/-- As prepareForProving leaves a clause. -/
structure IsInput (c : Clause) : Prop where
  rule : c.rule = .kInput
  parent1 : c.parent1 = kInvalidId
  parent2 : c.parent2 = kInvalidId

def ValidIn (bank : TermBank) (c : Clause) : Prop := ∀ lit ∈ c.literals, lit.atom < bank.size

theorem ValidIn.mono {bank bank' : TermBank} {c : Clause} (valid : c.ValidIn bank)
    (grows : bank.Extends bank') : c.ValidIn bank' :=
  fun lit member => Nat.lt_of_lt_of_le (valid lit member) grows.size_le

end Clause

/-- The first-order reading of a literal list. -/
def TermBank.read (bank : TermBank) (lits : List Literal) : Literals Nat Nat :=
  lits.map fun lit => (bank.tree lit.atom, lit.isPositive)

def TermBank.readAll (bank : TermBank) (clauses : Set Clause) : Set (Literals Nat Nat) :=
  {lits | ∃ c ∈ clauses, lits = bank.read c.literals}

namespace TermBank

theorem read_append (bank : TermBank) (left right : List Literal) :
    bank.read (left ++ right) = bank.read left ++ bank.read right := by simp [read]

@[simp] theorem read_length (bank : TermBank) (lits : List Literal) :
    (bank.read lits).length = lits.length := by simp [read]

theorem read_eraseIdx (bank : TermBank) (lits : List Literal) (i : Nat) :
    bank.read (lits.eraseIdx i) = (bank.read lits).eraseIdx i := by
  simp [read, List.eraseIdx_map]

theorem read_getElem? (bank : TermBank) (lits : List Literal) (i : Nat) :
    (bank.read lits)[i]? = lits[i]?.map fun lit => (bank.tree lit.atom, lit.isPositive) := by
  simp [read]

theorem read_subset (bank : TermBank) {left right : List Literal} (sub : left ⊆ right) :
    bank.read left ⊆ bank.read right := List.map_subset _ sub

theorem read_extends {bank bank' : TermBank} (wf : bank.WellFormed) (wf' : bank'.WellFormed)
    (grows : bank.Extends bank') {lits : List Literal}
    (valid : ∀ lit ∈ lits, lit.atom < bank.size) :
    bank'.read lits = bank.read lits :=
  List.map_congr_left fun lit member => by
    rw [tree_extends wf wf' grows (valid lit member)]

end TermBank

structure ClauseStore where
  clauses : List Clause := []
  deriving DecidableEq, Repr

namespace ClauseStore

def size (store : ClauseStore) : Nat := store.clauses.length

def addClause (store : ClauseStore) (clause : Clause) : ClauseId × ClauseStore :=
  let newId : ClauseId := some store.clauses.length
  (newId, { clauses := store.clauses ++ [{ clause with id := newId }] })

def find (store : ClauseStore) (id : ClauseId) : Option Clause := id.bind (store.clauses[·]?)

def getClause (store : ClauseStore) (id : ClauseId) : Except Fault Clause :=
  match store.find id with
  | some c => .ok c
  | none => .error .outOfBounds

@[simp] theorem find_some (store : ClauseStore) (k : Nat) :
    store.find (some k) = store.clauses[k]? := rfl

theorem find_iff {store : ClauseStore} {id : ClauseId} {c : Clause} :
    store.find id = some c ↔ ∃ k, id = some k ∧ store.clauses[k]? = some c := by
  cases id <;> simp [find]

theorem getClause_ok {store : ClauseStore} {id : ClauseId} {c : Clause} :
    store.getClause id = .ok c ↔ store.find id = some c := by
  cases found : store.find id <;> simp [getClause, found]

theorem addClause_new (store : ClauseStore) (clause : Clause) :
    (store.addClause clause).2.clauses[store.size]? =
      some { clause with id := some store.size } := by
  simp [addClause, size]

theorem addClause_cases {store : ClauseStore} {clause : Clause} {id : Nat} {c : Clause}
    (found : (store.addClause clause).2.clauses[id]? = some c) :
    store.clauses[id]? = some c ∨
    (id = store.size ∧ c = { clause with id := some store.size }) :=
  TermBank.getElem?_append_singleton found

end ClauseStore

section Simplify

def subsumes (general specific : Clause) : Bool :=
  if general.size > specific.size then false
  else general.literals.all fun litG => specific.literals.any fun litS =>
    litG.atom == litS.atom && litG.isPositive == litS.isPositive

theorem subsumes_iff {general specific : Clause} :
    subsumes general specific = true ↔
      general.size ≤ specific.size ∧ general.literals ⊆ specific.literals := by
  have equal : ∀ g s : Literal,
      (g.atom == s.atom && g.isPositive == s.isPositive) = true ↔ s = g := by
    rintro ⟨a, p⟩ ⟨b, q⟩
    simp only [Bool.and_eq_true, beq_iff_eq, Literal.mk.injEq]
    exact and_congr eq_comm eq_comm
  unfold subsumes
  split
  · next longer => simp [Nat.not_le_of_lt longer]
  · next short =>
      simp only [List.all_eq_true, List.any_eq_true, equal, exists_eq_right]
      exact ⟨fun sub => ⟨Nat.le_of_not_lt short, fun _ h => sub _ h⟩, fun h _ hm => h.2 hm⟩

theorem subsumes_refl (c : Clause) : subsumes c c = true :=
  subsumes_iff.mpr ⟨Nat.le_refl _, List.Subset.refl _⟩

theorem subsumes_trans {a b c : Clause} (left : subsumes a b = true) (right : subsumes b c = true) :
    subsumes a c = true := by
  rcases subsumes_iff.mp left with ⟨short, sub⟩
  rcases subsumes_iff.mp right with ⟨short', sub'⟩
  exact subsumes_iff.mpr ⟨Nat.le_trans short short', List.Subset.trans sub sub'⟩

/-- The two index loops of isTautology: a literal against all later ones. -/
def isTautologyFrom : List Literal → Bool
  | [] => false
  | lit :: rest =>
      rest.any (fun other => lit.atom == other.atom && lit.isPositive != other.isPositive) ||
        isTautologyFrom rest

def isTautology (clause : Clause) : Bool := isTautologyFrom clause.literals

theorem isTautologyFrom_iff (lits : List Literal) :
    isTautologyFrom lits = true ↔ ∃ a, ⟨a, true⟩ ∈ lits ∧ ⟨a, false⟩ ∈ lits := by
  induction lits with
  | nil => simp [isTautologyFrom]
  | cons lit rest ih =>
      rcases lit with ⟨atom, polarity⟩
      simp only [isTautologyFrom, Bool.or_eq_true, List.any_eq_true, ih, Bool.and_eq_true,
        beq_iff_eq, bne_iff_ne, List.mem_cons, Literal.mk.injEq]
      constructor
      · rintro (⟨⟨b, q⟩, member, rfl, differ⟩ | ⟨a, pos, neg⟩)
        · cases polarity with
          | true =>
              have negative : q = false := by simpa using differ
              subst negative
              exact ⟨atom, Or.inl ⟨rfl, rfl⟩, Or.inr member⟩
          | false =>
              have positive : q = true := by simpa using differ
              subst positive
              exact ⟨atom, Or.inr member, Or.inl ⟨rfl, rfl⟩⟩
        · exact ⟨a, Or.inr pos, Or.inr neg⟩
      · rintro ⟨a, ⟨rfl, rfl⟩ | pos, neg⟩
        · rcases neg with ⟨_, h⟩ | neg
          · cases h
          · exact Or.inl ⟨_, neg, rfl, by simp⟩
        · rcases neg with ⟨rfl, rfl⟩ | neg
          · exact Or.inl ⟨_, pos, rfl, by simp⟩
          · exact Or.inr ⟨a, pos, neg⟩

theorem isTautology_iff (clause : Clause) :
    isTautology clause = true ↔ ∃ a, ⟨a, true⟩ ∈ clause.literals ∧
      ⟨a, false⟩ ∈ clause.literals :=
  isTautologyFrom_iff clause.literals

theorem isTautology_read {clause : Clause} (found : isTautology clause = true) (bank : TermBank) :
    Tautology (bank.read clause.literals) := by
  rcases (isTautology_iff clause).mp found with ⟨a, pos, neg⟩
  exact ⟨bank.tree a, List.mem_map.mpr ⟨_, pos, rfl⟩, List.mem_map.mpr ⟨_, neg, rfl⟩⟩

end Simplify

end AtpEngine
