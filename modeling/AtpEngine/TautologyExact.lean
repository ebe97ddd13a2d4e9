import AtpEngine.ClauseStore

/-!
isTautology of simplify/tautology.cc compares ids. On every pool that the
operations of the table and the pool can build this is the test for validity.
-/
namespace AtpEngine

open ClauseLogic

universe u

/-- The pools that calls with valid ids build, a variable being given no arguments. -/
inductive TermBank.Built : TermBank → Prop where
  | empty : Built {}
  | intern {bank : TermBank} {name : Text} {kind : SymbolKind} {arity sort id : Nat}
      {symbols : SymbolTable} : Built bank →
      bank.symbols.intern name kind arity sort = .ok (id, symbols) → Built { bank with symbols }
  | makeTerm {bank : TermBank} {symbol : Nat} {args : List Nat} : Built bank →
      symbol < bank.symbols.size → (∀ a ∈ args, a < bank.size) →
      (bank.symbols.isVar symbol = true → args = []) → Built (bank.makeTerm symbol args).2
  | makeVar {bank : TermBank} {varSymbol : Nat} : Built bank → varSymbol < bank.symbols.size →
      Built (bank.makeVar varSymbol).2

namespace TermBank

theorem Built.sound {bank : TermBank} (built : bank.Built) :
    bank.WellFormed ∧ bank.HashConsed := by
  induction built with
  | empty => exact ⟨empty_wellFormed, empty_hashConsed⟩
  | intern _ run ih =>
      have grows := intern_grows run
      exact ⟨grows.wf ih.1, grows.shared ih.2⟩
  | makeTerm _ known valid vars ih =>
      exact ⟨makeTerm_wellFormed ih.1 _ _ known valid vars, makeTerm_hashConsed ih.2 _ _⟩
  | makeVar _ known ih =>
      have wf := makeTerm_wellFormed ih.1 _ [] known (fun _ member => by cases member) fun _ => rfl
      exact ⟨wf, makeTerm_hashConsed ih.2 _ []⟩

end TermBank

theorem isTautology_read_iff {bank : TermBank} (wf : bank.WellFormed) (shared : bank.HashConsed)
    {clause : Clause} (valid : clause.ValidIn bank) :
    isTautology clause = true ↔ Tautology (bank.read clause.literals) := by
  refine ⟨fun found => isTautology_read found bank, ?_⟩
  rintro ⟨a, pos, neg⟩
  rcases List.mem_map.mp pos with ⟨⟨i, p⟩, left, eq⟩
  rcases List.mem_map.mp neg with ⟨⟨j, q⟩, right, eq'⟩
  rcases Prod.mk.inj eq with ⟨rfl, rfl⟩
  rcases Prod.mk.inj eq' with ⟨same, rfl⟩
  have ids : j = i := TermBank.tree_inj wf shared (valid _ right) (valid _ left) same
  rw [ids] at right
  exact (isTautology_iff clause).mpr ⟨i, left, right⟩

/-- isTautology finds exactly the clauses that hold in every interpretation. -/
theorem isTautology_exact {bank : TermBank} (built : bank.Built) {clause : Clause}
    (valid : clause.ValidIn bank) :
    isTautology clause = true ↔ ∀ (D : Type u) [Nonempty D] (I : Interpretation Nat D),
      I.Models (bank.read clause.literals) := by
  rw [isTautology_read_iff built.sound.1 built.sound.2 valid, valid_iff_tautology]

/-- The symbols X and p, and no term. -/
def unaryTable : SymbolTable where
  infos := [⟨"X".toList, .kVariable, 0, 0⟩, ⟨"p".toList, .kPredicate, 1, 0⟩]
  nameToId := [("p".toList, 1), ("X".toList, 0)]

theorem unaryTable_built : TermBank.Built { symbols := unaryTable } := by
  have var : SymbolTable.intern {} "X".toList .kVariable =
      .ok (0, ⟨[⟨"X".toList, .kVariable, 0, 0⟩], [("X".toList, 0)]⟩) := rfl
  have predicate : SymbolTable.intern ⟨[⟨"X".toList, .kVariable, 0, 0⟩], [("X".toList, 0)]⟩
      "p".toList .kPredicate 1 = .ok (1, unaryTable) := rfl
  exact .intern (.intern .empty var) predicate

/-- p(X) built twice is one term, so that p(X) or not p(X) is found valid. -/
theorem isTautology_exact_sample : ∃ (bank : TermBank) (clause : Clause), bank.Built ∧
    isTautology clause = true ∧ (∀ (D : Type) [Nonempty D] (I : Interpretation Nat D),
      I.Models (bank.read clause.literals)) := by
  have var := unaryTable_built.makeVar (show 0 < 2 by decide)
  have atom := var.makeTerm (show 1 < 2 by decide) (show ∀ a ∈ [0], a < 1 by decide) (by decide)
  have again := atom.makeTerm (show 1 < 2 by decide) (show ∀ a ∈ [0], a < 2 by decide)
    (by decide)
  let pool : TermBank := (({ symbols := unaryTable } : TermBank).makeVar 0).2
  let clause : Clause := { literals := [⟨1, true⟩, ⟨1, false⟩] }
  have inside : clause.ValidIn ((pool.makeTerm 1 [0]).2.makeTerm 1 [0]).2 := by
    unfold Clause.ValidIn
    decide
  exact ⟨_, clause, again, rfl, (isTautology_exact again inside).mp rfl⟩

end AtpEngine
