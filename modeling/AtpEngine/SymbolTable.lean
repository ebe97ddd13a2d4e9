import AtpEngine.Fuelled
import Mathlib.Data.List.Lookmap
import Mathlib.Data.Nat.Digits.Defs

/-!
Core types and the symbol table of core/types.h and core/symbol_table.cc.
SymbolId, TermId and SortId are `Nat`: ids are array indices, and the 32-bit
casts of the source are exact as long as a table holds fewer than 2^32 - 1
entries, which is the range modelled. In that range the sentinel UINT32_MAX is
no index, so a ClauseId, the one id that may be the sentinel, is an index or
`none`. The 16-bit casts are explicit (`toUInt16`). Text is a list of characters; a byte of
the source is a character below 256. The unordered map of names is a list of
entries of which lookups see the first.
-/
namespace AtpEngine

open Fuelled

abbrev Text := List Char

abbrev ClauseId := Option Nat

/-- UINT32_MAX, the id of no clause. -/
def kInvalidId : ClauseId := none

/-- The 32-bit value of an id. -/
def idNumber (id : ClauseId) : Nat := id.getD 4294967295

def kUnsorted : Nat := 0

def toUInt16 (n : Nat) : Nat := n % 65536

/-- The decimal digits of a number, as std::to_string writes them. -/
def digits (n : Nat) : Text := Nat.toDigits 10 n

theorem digits_inj {m n : Nat} (same : digits m = digits n) : m = n := by
  have value := congrArg (Nat.ofDigitChars 10 · 0) same
  simpa [digits] using value

theorem lookup_some_mem {α β : Type} [BEq α] [LawfulBEq α] {l : List (α × β)} {a : α}
    {b : β} (found : l.lookup a = some b) : (a, b) ∈ l := by
  rcases List.lookup_eq_some_iff.mp found with ⟨before, after, rfl, _⟩
  simp

theorem prefix_getElem? {α : Type} {l l' : List α} (grows : l <+: l') {k : Nat} {a : α}
    (found : l[k]? = some a) : l'[k]? = some a := by
  rcases grows with ⟨rest, rfl⟩
  rw [List.getElem?_append_left (List.getElem?_eq_some_iff.mp found).1, found]

inductive SymbolKind where
  | kVariable | kConstant | kFunction | kPredicate | kSkolem
  deriving DecidableEq, Repr

inductive InferenceRule where
  | kInput | kResolution | kFactoring
  | kParamodulation | kDemodulation | kEqualityResolution | kEqualityFactoring
  | kSubsumption | kTautologyElim | kPureLiteralElim
  | kTheoryResolution | kTheoryRewrite
  deriving DecidableEq, Repr

/-- How a modelled call can fail to return: its budget runs out, an index is out
of bounds (an assertion, or undefined behaviour without it), or it throws. -/
inductive Fault where
  | outOfFuel
  | outOfBounds
  | runtimeError (what : Text)
  deriving DecidableEq, Repr

structure SymbolInfo where
  name : Text
  kind : SymbolKind := .kFunction
  arity : Nat := 0
  sort : Nat := kUnsorted
  deriving DecidableEq, Repr

structure SymbolTable where
  infos : List SymbolInfo := []
  nameToId : List (Text × Nat) := []
  deriving DecidableEq, Repr

namespace SymbolTable

def size (table : SymbolTable) : Nat := table.infos.length

def getInfo (table : SymbolTable) (id : Nat) : Except Fault SymbolInfo :=
  match table.infos[id]? with
  | some info => .ok info
  | none => .error .outOfBounds

def getName (table : SymbolTable) (id : Nat) : Except Fault Text := do
  let info ← table.getInfo id
  pure info.name

def isVariable (table : SymbolTable) (id : Nat) : Except Fault Bool := do
  let info ← table.getInfo id
  pure (info.kind == .kVariable)

def intern (table : SymbolTable) (name : Text) (kind : SymbolKind) (arity : Nat := 0)
    (sort : Nat := kUnsorted) : Except Fault (Nat × SymbolTable) :=
  match table.nameToId.lookup name with
  | some id => do
      let info ← table.getInfo id
      if info.kind ≠ kind ∨ info.arity ≠ arity then
        .error (.runtimeError ("Symbol kind or arity mismatch for: ".toList ++ name))
      else
        pure (id, table)
  | none =>
      let newId := table.infos.length
      .ok (newId, { infos := table.infos ++ [⟨name, kind, arity, sort⟩]
                    nameToId := (name, newId) :: table.nameToId })

/-- The kind test as a total function; ids outside the table are no variables. -/
def isVar (table : SymbolTable) (id : Nat) : Bool :=
  match table.infos[id]? with
  | some info => info.kind == .kVariable
  | none => false

theorem isVariable_eq {table : SymbolTable} {id : Nat} (valid : id < table.size) :
    table.isVariable id = .ok (table.isVar id) := by
  have inside : table.infos[id]? = some table.infos[id] := List.getElem?_eq_getElem valid
  simp [isVariable, isVar, getInfo, inside, bind, Except.bind, pure, Except.pure]

theorem isVariable_ok {table : SymbolTable} {id : Nat} {b : Bool}
    (run : table.isVariable id = .ok b) : id < table.size ∧ table.isVar id = b := by
  cases found : table.infos[id]? with
  | none => simp [isVariable, getInfo, found, bind, Except.bind] at run
  | some info =>
      have valid : id < table.size := (List.getElem?_eq_some_iff.mp found).1
      refine ⟨valid, ?_⟩
      rw [isVariable_eq valid] at run
      exact Except.ok.inj run

/-- The name index and the array of infos describe the same table. -/
structure WellFormed (table : SymbolTable) : Prop where
  sound : ∀ name id, table.nameToId.lookup name = some id →
    ∃ info, table.infos[id]? = some info ∧ info.name = name
  complete : ∀ id info, table.infos[id]? = some info → table.nameToId.lookup info.name = some id

theorem empty_wellFormed : WellFormed {} := by
  constructor <;> simp

/-- What a returning call of `intern` does: it finds a symbol of the same name,
kind and arity, or it appends one. -/
theorem intern_cases {table table' : SymbolTable} {name : Text} {kind : SymbolKind} {arity : Nat}
    {sort : Nat} {id : Nat} (run : table.intern name kind arity sort = .ok (id, table')) :
    (∃ info, table.nameToId.lookup name = some id ∧ table.infos[id]? = some info ∧
      info.kind = kind ∧ info.arity = arity ∧ table' = table) ∨
    (table.nameToId.lookup name = none ∧ id = table.infos.length ∧
      table' = { infos := table.infos ++ [⟨name, kind, arity, sort⟩]
                 nameToId := (name, id) :: table.nameToId }) := by
  cases found : table.nameToId.lookup name with
  | none =>
      simp only [intern, found, Except.ok.injEq, Prod.mk.injEq] at run
      rcases run with ⟨rfl, rfl⟩
      exact Or.inr ⟨rfl, rfl, rfl⟩
  | some known =>
      simp only [intern, found, bind_ok_iff] at run
      rcases run with ⟨info, read, run⟩
      split at run
      · cases run
      · next same =>
          simp only [pure_ok_iff, Prod.mk.injEq] at run
          rcases run with ⟨rfl, rfl⟩
          push Not at same
          cases entry : table.infos[known]? with
          | none => simp [getInfo, entry] at read
          | some info' =>
              simp only [getInfo, entry, Except.ok.injEq] at read
              subst read
              exact Or.inl ⟨info', rfl, rfl, same.1, same.2, rfl⟩

theorem intern_prefix {table table' : SymbolTable} {name : Text} {kind : SymbolKind} {arity : Nat}
    {sort : Nat} {id : Nat} (run : table.intern name kind arity sort = .ok (id, table')) :
    table.infos <+: table'.infos := by
  rcases intern_cases run with ⟨_, _, _, _, _, rfl⟩ | ⟨_, _, rfl⟩
  · exact List.prefix_rfl
  · exact List.prefix_append _ _

theorem intern_info {table table' : SymbolTable} {name : Text} {kind : SymbolKind} {arity : Nat}
    {sort : Nat} {id : Nat} (run : table.intern name kind arity sort = .ok (id, table')) :
    ∃ info, table'.infos[id]? = some info ∧ info.kind = kind ∧ info.arity = arity := by
  rcases intern_cases run with ⟨info, _, found, sameKind, sameArity, rfl⟩ | ⟨_, rfl, rfl⟩
  · exact ⟨info, found, sameKind, sameArity⟩
  · exact ⟨⟨name, kind, arity, sort⟩, by simp, rfl, rfl⟩

theorem intern_named {table table' : SymbolTable} {name : Text} {kind : SymbolKind} {arity : Nat}
    {sort : Nat} {id : Nat} (wf : table.WellFormed)
    (run : table.intern name kind arity sort = .ok (id, table')) :
    table'.nameToId.lookup name = some id ∧ ∀ info, table'.infos[id]? = some info →
      info.name = name := by
  rcases intern_cases run with ⟨info, found, entry, _, _, rfl⟩ | ⟨_, rfl, rfl⟩
  · refine ⟨found, fun info' entry' => ?_⟩
    rcases wf.sound name id found with ⟨named, entry'', same⟩
    rw [Option.some.inj (entry'.symm.trans entry''), same]
  · refine ⟨by simp, fun info entry => ?_⟩
    simp only [List.getElem?_append_right (Nat.le_refl _), Nat.sub_self, List.getElem?_cons_zero,
      Option.some.injEq] at entry
    rw [← entry]

theorem intern_lookup {table table' : SymbolTable} {name : Text} {kind : SymbolKind} {arity : Nat}
    {sort : Nat} {id : Nat} (run : table.intern name kind arity sort = .ok (id, table'))
    {other : Text} {known : Nat} (found : table.nameToId.lookup other = some known) :
    table'.nameToId.lookup other = some known := by
  rcases intern_cases run with ⟨_, _, _, _, _, rfl⟩ | ⟨absent, _, rfl⟩
  · exact found
  · have differ : (other == name) = false := by
      rw [beq_eq_false_iff_ne]
      rintro rfl
      rw [absent] at found
      cases found
    simp only [List.lookup_cons, differ, found]

theorem mem_intern_infos {table table' : SymbolTable} {name : Text} {kind : SymbolKind}
    {arity : Nat} {sort : Nat} {id : Nat}
    (run : table.intern name kind arity sort = .ok (id, table')) {info : SymbolInfo}
    (member : info ∈ table'.infos) :
    info ∈ table.infos ∨ info = ⟨name, kind, arity, sort⟩ := by
  rcases intern_cases run with ⟨_, _, _, _, _, rfl⟩ | ⟨_, _, rfl⟩
  · exact Or.inl member
  · simpa using member

theorem intern_wellFormed {table table' : SymbolTable} {name : Text} {kind : SymbolKind}
    {arity : Nat} {sort : Nat} {id : Nat} (wf : table.WellFormed)
    (run : table.intern name kind arity sort = .ok (id, table')) : table'.WellFormed := by
  rcases intern_cases run with ⟨_, _, _, _, _, rfl⟩ | ⟨absent, rfl, rfl⟩
  · exact wf
  constructor
  · intro other id' found
    simp only [List.lookup_cons] at found
    split at found
    · next same =>
        rcases found with ⟨⟩
        exact ⟨⟨name, kind, arity, sort⟩, by simp, (beq_iff_eq.mp same).symm⟩
    · rcases wf.sound other id' found with ⟨info, entry, rfl⟩
      have inside := (List.getElem?_eq_some_iff.mp entry).1
      exact ⟨info, by rwa [List.getElem?_append_left inside], rfl⟩
  · intro id' info entry
    rw [List.getElem?_append] at entry
    split at entry
    · have known := wf.complete id' info entry
      have other : (info.name == name) = false := by
        rw [beq_eq_false_iff_ne]
        rintro same
        rw [same, absent] at known
        cases known
      simpa [List.lookup_cons, other] using known
    · next outside =>
        have last : id' = table.infos.length := by
          have inside : id' - table.infos.length < 1 := (List.getElem?_eq_some_iff.mp entry).1
          omega
        subst last
        simp only [Nat.sub_self, List.getElem?_cons_zero, Option.some.injEq] at entry
        subst entry
        simp

theorem isVar_of_prefix {table table' : SymbolTable} (grows : table.infos <+: table'.infos)
    {id : Nat} (valid : id < table.size) : table'.isVar id = table.isVar id := by
  have same : table'.infos[id]? = table.infos[id]? := by
    rcases grows with ⟨rest, eq⟩
    rw [← eq, List.getElem?_append_left valid]
  simp [isVar, same]

end SymbolTable

end AtpEngine
