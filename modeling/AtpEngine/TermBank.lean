import AtpEngine.SymbolTable
import AtpEngine.TermTree

/-!
The hash-consing term pool of core/term_bank.cc. A term is its symbol and the
ids of its arguments; the pool is an array of terms with an index from term
keys to ids. `tree` reads an id back as the first-order tree it denotes, a
variable being named by its own id.
-/
namespace AtpEngine

open Fuelled

structure Term where
  symbolId : Nat
  args : List Nat
  deriving DecidableEq, Repr

def Term.arity (t : Term) : Nat := toUInt16 t.args.length

/-- `termToId` is keyed by the symbol and arguments, the fields of `Term`. -/
structure TermBank where
  symbols : SymbolTable := {}
  terms : List Term := []
  termToId : List (Term × Nat) := []
  deriving DecidableEq, Repr

namespace TermBank

def size (bank : TermBank) : Nat := bank.terms.length

def makeTerm (bank : TermBank) (symbol : Nat) (args : List Nat) : Nat × TermBank :=
  let key : Term := ⟨symbol, args⟩
  match bank.termToId.lookup key with
  | some id => (id, bank)
  | none =>
      let newId := bank.terms.length
      (newId, { bank with terms := bank.terms ++ [key]
                          termToId := (key, newId) :: bank.termToId })

def makeVar (bank : TermBank) (varSymbol : Nat) : Nat × TermBank := bank.makeTerm varSymbol []

def getTerm (bank : TermBank) (id : Nat) : Except Fault Term :=
  match bank.terms[id]? with
  | some t => .ok t
  | none => .error .outOfBounds

def isVariable (bank : TermBank) (id : Nat) : Except Fault Bool := do
  let t ← bank.getTerm id
  bank.symbols.isVariable t.symbolId

/-- The variable test as a total function; ids outside the pool are no variables. -/
def isVar (bank : TermBank) (id : Nat) : Bool :=
  match bank.terms[id]? with
  | some t => bank.symbols.isVar t.symbolId
  | none => false

def treeAux (bank : TermBank) : Nat → Nat → TermTree Nat Nat
  | 0, id => .var id
  | fuel + 1, id =>
      match bank.terms[id]? with
      | none => .var id
      | some t =>
          if bank.symbols.isVar t.symbolId then .var id
          else .node t.symbolId (t.args.map (bank.treeAux fuel))

def tree (bank : TermBank) (id : Nat) : TermTree Nat Nat := bank.treeAux (id + 1) id

/-- Names and terms are found again: the index only names terms that are there. -/
structure IndexSound (bank : TermBank) : Prop where
  table : bank.symbols.WellFormed
  keys_sound : ∀ {key : Term} {id : Nat},
    bank.termToId.lookup key = some id → bank.terms[id]? = some key

/-- Symbols are interned and arguments are smaller than the term's own id,
whatever symbols head the terms. -/
structure Indexed (bank : TermBank) : Prop extends IndexSound bank where
  symbol_valid : ∀ {id : Nat} {t : Term}, bank.terms[id]? = some t →
    t.symbolId < bank.symbols.size
  args_lt : ∀ {id : Nat} {t : Term}, bank.terms[id]? = some t → ∀ a ∈ t.args, a < id

/-- A pool in which variables have no arguments. -/
structure WellFormed (bank : TermBank) : Prop extends Indexed bank where
  var_args : ∀ {id : Nat} {t : Term}, bank.terms[id]? = some t →
    bank.symbols.isVar t.symbolId = true → t.args = []

/-- No two ids hold the same symbol and arguments, and the index knows all. -/
def HashConsed (bank : TermBank) : Prop :=
  ∀ (id : Nat) (t : Term), bank.terms[id]? = some t → bank.termToId.lookup t = some id

/-- At most 65535 arguments, the range of `Term::arity`. -/
def ArityBounded (bank : TermBank) : Prop :=
  ∀ (id : Nat) (t : Term), bank.terms[id]? = some t → t.args.length ≤ 65535

theorem empty_wellFormed : WellFormed {} := by
  refine ⟨⟨⟨SymbolTable.empty_wellFormed, ?_⟩, ?_, ?_⟩, ?_⟩ <;> simp

theorem empty_hashConsed : HashConsed {} := by
  intro id t found
  simp at found

/-- Pools only grow: old terms and symbols stay where they are. -/
structure Extends (bank bank' : TermBank) : Prop where
  terms : bank.terms <+: bank'.terms
  infos : bank.symbols.infos <+: bank'.symbols.infos

section Growth

theorem Extends.refl (bank : TermBank) : bank.Extends bank :=
  ⟨List.prefix_rfl, List.prefix_rfl⟩

theorem Extends.trans {a b c : TermBank} (first : a.Extends b) (second : b.Extends c) :
    a.Extends c :=
  ⟨first.terms.trans second.terms, first.infos.trans second.infos⟩

theorem Extends.size_le {bank bank' : TermBank} (grows : bank.Extends bank') :
    bank.size ≤ bank'.size := grows.terms.length_le

theorem Extends.symbols_le {bank bank' : TermBank} (grows : bank.Extends bank') :
    bank.symbols.size ≤ bank'.symbols.size := grows.infos.length_le

theorem Extends.term {bank bank' : TermBank} (grows : bank.Extends bank') {id : Nat} {t : Term}
    (found : bank.terms[id]? = some t) : bank'.terms[id]? = some t :=
  prefix_getElem? grows.terms found

theorem Extends.isVar_eq {bank bank' : TermBank} (grows : bank.Extends bank') (wf : bank.WellFormed)
    {id : Nat} (valid : id < bank.size) : bank'.isVar id = bank.isVar id := by
  have found : bank.terms[id]? = some bank.terms[id] := List.getElem?_eq_getElem valid
  have same := SymbolTable.isVar_of_prefix grows.infos (wf.symbol_valid found)
  simp [isVar, grows.term found, found, same]

end Growth

section Reading

theorem getTerm_ok {bank : TermBank} {id : Nat} {t : Term} :
    bank.getTerm id = .ok t ↔ bank.terms[id]? = some t := by
  cases found : bank.terms[id]? <;> simp [getTerm, found]

theorem isVariable_eq {bank : TermBank} (wf : bank.WellFormed) {id : Nat} (valid : id < bank.size) :
    bank.isVariable id = .ok (bank.isVar id) := by
  have found : bank.terms[id]? = some bank.terms[id] := List.getElem?_eq_getElem valid
  have known := SymbolTable.isVariable_eq (wf.symbol_valid found)
  simp only [isVariable, getTerm_ok.mpr found, bind_ok, known, isVar, found]

theorem isVariable_ok {bank : TermBank} {id : Nat} {b : Bool} (run : bank.isVariable id = .ok b) :
    id < bank.size ∧ bank.isVar id = b := by
  rcases bind_ok_iff.mp run with ⟨t, read, kind⟩
  have found := getTerm_ok.mp read
  have same := (SymbolTable.isVariable_ok kind).2
  exact ⟨(List.getElem?_eq_some_iff.mp found).1, by simpa [isVar, found] using same⟩

theorem isVar_lt {bank : TermBank} {id : Nat} (isVar : bank.isVar id = true) : id < bank.size := by
  by_contra outside
  have absent : bank.terms[id]? = none := List.getElem?_eq_none (Nat.le_of_not_lt outside)
  simp [TermBank.isVar, absent] at isVar

theorem isVar_term {bank : TermBank} {id : Nat} {t : Term} (found : bank.terms[id]? = some t) :
    bank.isVar id = bank.symbols.isVar t.symbolId := by
  simp [isVar, found]

end Reading

section Trees

theorem treeAux_stable {bank : TermBank} (wf : bank.WellFormed) (id : Nat) {m n : Nat}
    (hm : id < m) (hn : id < n) : bank.treeAux m id = bank.treeAux n id := by
  induction id using Nat.strong_induction_on generalizing m n with
  | _ id ih =>
    rcases m with _ | m
    · omega
    rcases n with _ | n
    · omega
    cases found : bank.terms[id]? with
    | none => simp [treeAux, found]
    | some t =>
        have inner : t.args.map (bank.treeAux m) = t.args.map (bank.treeAux n) :=
          List.map_congr_left fun a member => by
            have below := wf.args_lt found a member
            exact ih a below (by omega) (by omega)
        simp [treeAux, found, inner]

theorem tree_var {bank : TermBank} {id : Nat} (isVar : bank.isVar id = true) :
    bank.tree id = .var id := by
  cases found : bank.terms[id]? with
  | none => simp [TermBank.isVar, found] at isVar
  | some t =>
      rw [isVar_term found] at isVar
      simp [tree, treeAux, found, isVar]

theorem tree_node {bank : TermBank} (wf : bank.WellFormed) {id : Nat} {t : Term}
    (found : bank.terms[id]? = some t) (applied : bank.isVar id = false) :
    bank.tree id = .node t.symbolId (t.args.map bank.tree) := by
  rw [isVar_term found] at applied
  have inner : t.args.map (bank.treeAux id) = t.args.map bank.tree :=
    List.map_congr_left fun a member =>
      treeAux_stable wf a (wf.args_lt found a member) (Nat.lt_succ_self a)
  simp [tree, treeAux, found, applied, inner]

/-- Every id of a well-formed pool is a variable or a node over smaller ids. -/
theorem tree_cases {bank : TermBank} (wf : bank.WellFormed) {id : Nat} (valid : id < bank.size) :
    (bank.isVar id = true ∧ bank.tree id = .var id) ∨
    ∃ t, bank.terms[id]? = some t ∧ bank.isVar id = false ∧ (∀ a ∈ t.args, a < id) ∧
      bank.tree id = .node t.symbolId (t.args.map bank.tree) := by
  cases isVar : bank.isVar id with
  | true => exact Or.inl ⟨rfl, tree_var isVar⟩
  | false =>
      have found : bank.terms[id]? = some bank.terms[id] := List.getElem?_eq_getElem valid
      exact Or.inr ⟨_, found, rfl, wf.args_lt found, tree_node wf found isVar⟩

theorem tree_extends {bank bank' : TermBank} (wf : bank.WellFormed) (wf' : bank'.WellFormed)
    (grows : bank.Extends bank') {id : Nat} (valid : id < bank.size) :
    bank'.tree id = bank.tree id := by
  induction id using Nat.strong_induction_on with
  | _ id ih =>
    have sameVar := grows.isVar_eq wf valid
    rcases tree_cases wf valid with ⟨isVar, atom⟩ | ⟨t, found, isVar, below, applied⟩
    · rw [atom, tree_var (sameVar.trans isVar)]
    · rw [applied, tree_node wf' (grows.term found) (sameVar.trans isVar)]
      congr 1
      exact List.map_congr_left fun a member =>
        ih a (below a member) (Nat.lt_trans (below a member) valid)

theorem occurs_tree {bank : TermBank} (wf : bank.WellFormed) {id x : Nat} (valid : id < bank.size)
    (occurs : TermTree.Occurs x (bank.tree id)) : bank.isVar x = true ∧ x ≤ id := by
  induction id using Nat.strong_induction_on with
  | _ id ih =>
    rcases tree_cases wf valid with ⟨isVar, atom⟩ | ⟨t, found, isVar, below, applied⟩
    · rw [atom, TermTree.occurs_var] at occurs
      subst occurs
      exact ⟨isVar, Nat.le_refl _⟩
    · rw [applied, TermTree.occurs_node] at occurs
      rcases occurs with ⟨_, member, inner⟩
      rcases List.mem_map.mp member with ⟨a, arg, rfl⟩
      have smaller := below a arg
      have found := ih a smaller (Nat.lt_trans smaller valid) inner
      exact ⟨found.1, by omega⟩

end Trees

section MakeTerm

/-- `makeTerm` finds the key in the index or appends it. -/
theorem makeTerm_cases (bank : TermBank) (symbol : Nat) (args : List Nat) :
    (∃ id, bank.termToId.lookup ⟨symbol, args⟩ = some id ∧
      bank.makeTerm symbol args = (id, bank)) ∨
    (bank.termToId.lookup ⟨symbol, args⟩ = none ∧
      bank.makeTerm symbol args = (bank.size,
        { bank with terms := bank.terms ++ [⟨symbol, args⟩]
                    termToId := (⟨symbol, args⟩, bank.size) :: bank.termToId })) := by
  cases found : bank.termToId.lookup ⟨symbol, args⟩ with
  | some id => exact Or.inl ⟨id, rfl, by simp [makeTerm, found]⟩
  | none => exact Or.inr ⟨rfl, by simp [makeTerm, found, size]⟩

theorem makeTerm_symbols (bank : TermBank) (symbol : Nat) (args : List Nat) :
    (bank.makeTerm symbol args).2.symbols = bank.symbols := by
  rcases makeTerm_cases bank symbol args with ⟨id, _, run⟩ | ⟨_, run⟩ <;> simp [run]

theorem makeTerm_extends (bank : TermBank) (symbol : Nat) (args : List Nat) :
    bank.Extends (bank.makeTerm symbol args).2 := by
  rcases makeTerm_cases bank symbol args with ⟨id, _, run⟩ | ⟨_, run⟩
  · rw [run]; exact Extends.refl bank
  · rw [run]; exact ⟨List.prefix_append _ _, List.prefix_rfl⟩

theorem makeTerm_term {bank : TermBank} (sound : bank.IndexSound) (symbol : Nat) (args : List Nat) :
    (bank.makeTerm symbol args).2.terms[(bank.makeTerm symbol args).1]? =
      some ⟨symbol, args⟩ := by
  rcases makeTerm_cases bank symbol args with ⟨id, found, run⟩ | ⟨_, run⟩
  · rw [run]; exact sound.keys_sound found
  · rw [run]; simp [size]

theorem getElem?_append_singleton {α : Type} {l : List α} {a b : α} {i : Nat}
    (found : (l ++ [a])[i]? = some b) : l[i]? = some b ∨ (i = l.length ∧ b = a) := by
  rw [List.getElem?_append] at found
  split at found
  · exact Or.inl found
  · next outside =>
      have last : i - l.length < 1 := (List.getElem?_eq_some_iff.mp found).1
      have at_end : i = l.length := by omega
      subst at_end
      simp only [Nat.sub_self, List.getElem?_cons_zero, Option.some.injEq] at found
      exact Or.inr ⟨rfl, found.symm⟩

theorem makeTerm_indexSound {bank : TermBank} (sound : bank.IndexSound) (symbol : Nat)
    (args : List Nat) : (bank.makeTerm symbol args).2.IndexSound := by
  rcases makeTerm_cases bank symbol args with ⟨id, _, run⟩ | ⟨_, run⟩
  · rw [run]; exact sound
  rw [run]
  refine ⟨sound.table, ?_⟩
  intro key id found
  simp only [List.lookup_cons] at found
  split at found
  · next same =>
      rcases found with ⟨⟩
      rw [beq_iff_eq.mp same]
      simp [size]
  · have old := sound.keys_sound found
    rwa [List.getElem?_append_left (List.getElem?_eq_some_iff.mp old).1]

theorem makeTerm_indexed {bank : TermBank} (indexed : bank.Indexed) (symbol : Nat)
    (args : List Nat) (known : symbol < bank.symbols.size) (valid : ∀ a ∈ args, a < bank.size) :
    (bank.makeTerm symbol args).2.Indexed := by
  refine ⟨makeTerm_indexSound indexed.toIndexSound symbol args, ?_, ?_⟩ <;>
    rcases makeTerm_cases bank symbol args with ⟨id, _, run⟩ | ⟨_, run⟩ <;> rw [run] <;>
    intro id t found
  · exact indexed.symbol_valid found
  · rcases getElem?_append_singleton found with old | ⟨_, rfl⟩
    · exact indexed.symbol_valid old
    · exact known
  · exact indexed.args_lt found
  · rcases getElem?_append_singleton found with old | ⟨rfl, rfl⟩
    · exact indexed.args_lt old
    · exact valid

theorem makeTerm_wellFormed {bank : TermBank} (wf : bank.WellFormed) (symbol : Nat)
    (args : List Nat) (known : symbol < bank.symbols.size) (valid : ∀ a ∈ args, a < bank.size)
    (vars : bank.symbols.isVar symbol = true → args = []) :
    (bank.makeTerm symbol args).2.WellFormed := by
  refine ⟨makeTerm_indexed wf.toIndexed symbol args known valid, ?_⟩
  rcases makeTerm_cases bank symbol args with ⟨id, _, run⟩ | ⟨_, run⟩
  · rw [run]; exact wf.var_args
  rw [run]
  intro id t found
  rcases getElem?_append_singleton found with old | ⟨_, rfl⟩
  · exact wf.var_args old
  · exact vars

theorem makeTerm_hashConsed {bank : TermBank} (shared : bank.HashConsed) (symbol : Nat)
    (args : List Nat) : (bank.makeTerm symbol args).2.HashConsed := by
  rcases makeTerm_cases bank symbol args with ⟨id, _, run⟩ | ⟨absent, run⟩
  · rw [run]; exact shared
  rw [run]
  intro id t found
  rcases getElem?_append_singleton found with old | ⟨rfl, rfl⟩
  · have known := shared id t old
    have other : (t == ⟨symbol, args⟩) = false := by
      rw [beq_eq_false_iff_ne]
      intro same
      rw [same, absent] at known
      cases known
    simpa [List.lookup_cons, other] using known
  · simp [size]

theorem makeTerm_arityBounded {bank : TermBank} (small : bank.ArityBounded) (symbol : Nat)
    (args : List Nat) (few : args.length ≤ 65535) :
    (bank.makeTerm symbol args).2.ArityBounded := by
  rcases makeTerm_cases bank symbol args with ⟨id, _, run⟩ | ⟨_, run⟩
  · rw [run]; exact small
  rw [run]
  intro id t found
  rcases getElem?_append_singleton found with old | ⟨_, rfl⟩
  · exact small id t old
  · exact few

theorem HashConsed.inj {bank : TermBank} (shared : bank.HashConsed) {i j : Nat} {t : Term}
    (left : bank.terms[i]? = some t) (right : bank.terms[j]? = some t) : i = j :=
  Option.some.inj ((shared i t left).symm.trans (shared j t right))

theorem HashConsed.makeTerm {bank : TermBank} (shared : bank.HashConsed) {id : Nat} {t : Term}
    (found : bank.terms[id]? = some t) : bank.makeTerm t.symbolId t.args = (id, bank) := by
  have known := shared id t found
  simp [TermBank.makeTerm, known]

/-- Hash consing makes identity of ids equality of trees. -/
theorem tree_inj {bank : TermBank} (wf : bank.WellFormed) (shared : bank.HashConsed) {i j : Nat}
    (hi : i < bank.size) (hj : j < bank.size) (same : bank.tree i = bank.tree j) : i = j := by
  induction i using Nat.strong_induction_on generalizing j with
  | _ i ih =>
    rcases tree_cases wf hi with ⟨_, atom⟩ | ⟨t, found, _, below, applied⟩ <;>
      rcases tree_cases wf hj with ⟨_, atom'⟩ | ⟨t', found', _, below', applied'⟩
    · rw [atom, atom'] at same
      exact TermTree.var.inj same
    · rw [atom, applied'] at same
      cases same
    · rw [applied, atom'] at same
      cases same
    · rw [applied, applied'] at same
      rcases TermTree.node.inj same with ⟨symbols, children⟩
      have widths : t.args.length = t'.args.length := by simpa using congrArg List.length children
      have args : t.args = t'.args := by
        apply List.ext_getElem widths
        intro k hk hk'
        have at_k : bank.tree t.args[k] = bank.tree t'.args[k] := by
          simpa [hk, hk'] using congrArg (·[k]?) children
        have small := below _ (List.getElem_mem hk)
        have small' := below' _ (List.getElem_mem hk')
        exact ih _ small (Nat.lt_trans small hi) (Nat.lt_trans small' hj) at_k
      have equal : t = t' := by
        cases t; cases t'
        simp_all
      exact shared.inj found (equal ▸ found')

/-- What every pool operation of the prover keeps, beside growing. -/
structure Grows (bank bank' : TermBank) : Prop where
  grows : bank.Extends bank'
  wf : bank.WellFormed → bank'.WellFormed
  shared : bank.HashConsed → bank'.HashConsed
  small : bank.ArityBounded → bank'.ArityBounded

theorem Grows.refl (bank : TermBank) : bank.Grows bank := ⟨Extends.refl bank, id, id, id⟩

theorem Grows.trans {a b c : TermBank} (first : a.Grows b) (second : b.Grows c) : a.Grows c :=
  ⟨first.grows.trans second.grows, second.wf ∘ first.wf, second.shared ∘ first.shared,
    second.small ∘ first.small⟩

theorem makeTerm_grows {bank : TermBank} {symbol : Nat} {args : List Nat}
    (wf : bank.WellFormed → (bank.makeTerm symbol args).2.WellFormed)
    (few : bank.ArityBounded → args.length ≤ 65535) :
    bank.Grows (bank.makeTerm symbol args).2 :=
  ⟨makeTerm_extends bank symbol args, wf, fun shared => makeTerm_hashConsed shared symbol args,
    fun small => makeTerm_arityBounded small _ _ (few small)⟩

theorem intern_indexSound {bank : TermBank} (sound : bank.IndexSound) {symbols : SymbolTable}
    {name : Text} {kind : SymbolKind} {arity sort id : Nat}
    (run : bank.symbols.intern name kind arity sort = .ok (id, symbols)) :
    ({ bank with symbols } : TermBank).IndexSound :=
  ⟨SymbolTable.intern_wellFormed sound.table run, sound.keys_sound⟩

theorem intern_indexed {bank : TermBank} (indexed : bank.Indexed) {symbols : SymbolTable}
    {name : Text} {kind : SymbolKind} {arity sort id : Nat}
    (run : bank.symbols.intern name kind arity sort = .ok (id, symbols)) :
    ({ bank with symbols } : TermBank).Indexed := by
  have infos := SymbolTable.intern_prefix run
  refine ⟨intern_indexSound indexed.toIndexSound run, ?_, indexed.args_lt⟩
  intro id t found
  exact Nat.lt_of_lt_of_le (indexed.symbol_valid found) infos.length_le

theorem intern_grows {bank : TermBank} {symbols : SymbolTable} {name : Text} {kind : SymbolKind}
    {arity sort id : Nat} (run : bank.symbols.intern name kind arity sort = .ok (id, symbols)) :
    bank.Grows { bank with symbols } := by
  have infos := SymbolTable.intern_prefix run
  refine ⟨⟨List.prefix_rfl, infos⟩, fun wf => ?_, fun shared => shared, fun small => small⟩
  refine ⟨intern_indexed wf.toIndexed run, ?_⟩
  intro id t found isVar
  rw [SymbolTable.isVar_of_prefix infos (wf.symbol_valid found)] at isVar
  exact wf.var_args found isVar

end MakeTerm

end TermBank

end AtpEngine
