import AtpEngine.TermBank

/-!
Sequences of calls of intern, makeTerm and makeVar whose ids earlier calls have
returned. Nothing else is asked of a call: the symbol of a variable may head a
term with arguments, and an intern may throw. An id is read back as the tree
labelled by the names of its symbols.
-/
namespace AtpEngine

open Fuelled

namespace TermBank

def nameOf (bank : TermBank) (symbol : Nat) : Text :=
  match bank.symbols.infos[symbol]? with
  | some info => info.name
  | none => []

def labelledAux (bank : TermBank) : Nat → Nat → TermTree Text Empty
  | 0, _ => .node [] []
  | fuel + 1, id =>
      match bank.terms[id]? with
      | none => .node [] []
      | some t => .node (bank.nameOf t.symbolId) (t.args.map (bank.labelledAux fuel))

def labelled (bank : TermBank) (id : Nat) : TermTree Text Empty := bank.labelledAux (id + 1) id

variable {bank bank' : TermBank}

section Labels

theorem labelledAux_stable (indexed : bank.Indexed) (id : Nat) {m n : Nat} (hm : id < m)
    (hn : id < n) : bank.labelledAux m id = bank.labelledAux n id := by
  induction id using Nat.strong_induction_on generalizing m n with
  | _ id ih =>
    rcases m with _ | m
    · omega
    rcases n with _ | n
    · omega
    cases found : bank.terms[id]? with
    | none => simp [labelledAux, found]
    | some t =>
        have inner : t.args.map (bank.labelledAux m) = t.args.map (bank.labelledAux n) :=
          List.map_congr_left fun a member => by
            have below := indexed.args_lt found a member
            exact ih a below (by omega) (by omega)
        simp [labelledAux, found, inner]

theorem labelled_node (indexed : bank.Indexed) {id : Nat} {t : Term}
    (found : bank.terms[id]? = some t) :
    bank.labelled id = .node (bank.nameOf t.symbolId) (t.args.map bank.labelled) := by
  have inner : t.args.map (bank.labelledAux id) = t.args.map bank.labelled :=
    List.map_congr_left fun a member =>
      labelledAux_stable indexed a (indexed.args_lt found a member) (Nat.lt_succ_self a)
  simp [labelled, labelledAux, found, inner]

theorem nameOf_inj (table : bank.symbols.WellFormed) {left right : Nat}
    (hl : left < bank.symbols.size) (hr : right < bank.symbols.size)
    (same : bank.nameOf left = bank.nameOf right) : left = right := by
  have atLeft : bank.symbols.infos[left]? = some bank.symbols.infos[left] :=
    List.getElem?_eq_getElem hl
  have atRight : bank.symbols.infos[right]? = some bank.symbols.infos[right] :=
    List.getElem?_eq_getElem hr
  simp only [nameOf, atLeft, atRight] at same
  have known := table.complete left _ atLeft
  rw [same, table.complete right _ atRight] at known
  exact (Option.some.inj known).symm

theorem labelled_inj (indexed : bank.Indexed) (shared : bank.HashConsed) {i j : Nat}
    (hi : i < bank.size) (hj : j < bank.size) (same : bank.labelled i = bank.labelled j) :
    i = j := by
  induction i using Nat.strong_induction_on generalizing j with
  | _ i ih =>
    have atI : bank.terms[i]? = some bank.terms[i] := List.getElem?_eq_getElem hi
    have atJ : bank.terms[j]? = some bank.terms[j] := List.getElem?_eq_getElem hj
    rw [labelled_node indexed atI, labelled_node indexed atJ] at same
    rcases TermTree.node.inj same with ⟨names, children⟩
    have symbols := nameOf_inj indexed.table (indexed.symbol_valid atI)
      (indexed.symbol_valid atJ) names
    have widths : bank.terms[i].args.length = bank.terms[j].args.length := by
      simpa using congrArg List.length children
    have args : bank.terms[i].args = bank.terms[j].args := by
      apply List.ext_getElem widths
      intro k hk hk'
      have at_k : bank.labelled bank.terms[i].args[k] = bank.labelled bank.terms[j].args[k] := by
        simpa [hk, hk'] using congrArg (·[k]?) children
      have small := indexed.args_lt atI _ (List.getElem_mem hk)
      have small' := indexed.args_lt atJ _ (List.getElem_mem hk')
      exact ih _ small (Nat.lt_trans small hi) (Nat.lt_trans small' hj) at_k
    have equal : bank.terms[i] = bank.terms[j] := by
      cases left : bank.terms[i] with
      | mk _ _ =>
          cases right : bank.terms[j] with
          | mk _ _ =>
              rw [left, right] at symbols args
              exact congr (congrArg Term.mk symbols) args
    exact shared.inj atI (equal ▸ atJ)

theorem nameOf_extends (grows : bank.Extends bank') {symbol : Nat}
    (valid : symbol < bank.symbols.size) : bank'.nameOf symbol = bank.nameOf symbol := by
  rcases grows.infos with ⟨rest, eq⟩
  have kept : bank'.symbols.infos[symbol]? = bank.symbols.infos[symbol]? := by
    rw [← eq, List.getElem?_append_left valid]
  simp only [nameOf, kept]

theorem labelled_extends (indexed : bank.Indexed) (indexed' : bank'.Indexed)
    (grows : bank.Extends bank') {id : Nat} (valid : id < bank.size) :
    bank'.labelled id = bank.labelled id := by
  induction id using Nat.strong_induction_on with
  | _ id ih =>
    have found : bank.terms[id]? = some bank.terms[id] := List.getElem?_eq_getElem valid
    rw [labelled_node indexed' (grows.term found), labelled_node indexed found,
      nameOf_extends grows (indexed.symbol_valid found)]
    congr 1
    exact List.map_congr_left fun a member => by
      have below := indexed.args_lt found a member
      exact ih a below (Nat.lt_trans below valid)

end Labels

end TermBank

inductive Call where
  | intern (name : Text) (kind : SymbolKind) (arity sort : Nat)
  | makeTerm (symbol : Nat) (args : List Nat)
  | makeVar (varSymbol : Nat)
  deriving DecidableEq, Repr

/-- A pool with the ids that calls on it have returned. -/
structure Session where
  bank : TermBank := {}
  symbolIds : List Nat := []
  termIds : List Nat := []
  deriving DecidableEq, Repr

namespace Session

def Knows (s : Session) : Call → Prop
  | .intern _ _ _ _ => True
  | .makeTerm symbol args => symbol ∈ s.symbolIds ∧ ∀ a ∈ args, a ∈ s.termIds
  | .makeVar varSymbol => varSymbol ∈ s.symbolIds

instance (s : Session) (call : Call) : Decidable (s.Knows call) := by
  cases call <;> unfold Knows <;> infer_instance

/-- A call that throws does so before it touches the table. -/
def perform (s : Session) : Call → Session
  | .intern name kind arity sort =>
      match s.bank.symbols.intern name kind arity sort with
      | .ok (id, symbols) =>
          { s with bank := { s.bank with symbols }, symbolIds := id :: s.symbolIds }
      | .error _ => s
  | .makeTerm symbol args =>
      let (id, bank) := s.bank.makeTerm symbol args
      { s with bank, termIds := id :: s.termIds }
  | .makeVar varSymbol =>
      let (id, bank) := s.bank.makeVar varSymbol
      { s with bank, termIds := id :: s.termIds }

def performAll (s : Session) (calls : List Call) : Session := calls.foldl perform s

def Allows : Session → List Call → Prop
  | _, [] => True
  | s, call :: rest => s.Knows call ∧ (s.perform call).Allows rest

instance decidableAllows : (s : Session) → (calls : List Call) → Decidable (s.Allows calls)
  | _, [] => .isTrue trivial
  | s, call :: rest =>
      have : Decidable ((s.perform call).Allows rest) := decidableAllows (s.perform call) rest
      inferInstanceAs (Decidable (s.Knows call ∧ (s.perform call).Allows rest))

/-- The table and the index are in order, and returned ids are indices. -/
structure Sound (s : Session) : Prop where
  indexed : s.bank.Indexed
  shared : s.bank.HashConsed
  symbols : ∀ id ∈ s.symbolIds, id < s.bank.symbols.size
  terms : ∀ id ∈ s.termIds, id < s.bank.size

theorem empty_sound : Sound {} := by
  constructor
  case indexed => exact TermBank.empty_wellFormed.toIndexed
  case shared => exact TermBank.empty_hashConsed
  case symbols => simp
  case terms => simp

theorem Sound.makeTerm {s : Session} (sound : s.Sound) {symbol : Nat} {args : List Nat}
    (known : symbol ∈ s.symbolIds) (valid : ∀ a ∈ args, a ∈ s.termIds) {id : Nat}
    {bank : TermBank} (made : s.bank.makeTerm symbol args = (id, bank)) :
    Sound { s with bank, termIds := id :: s.termIds } ∧ s.bank.Extends bank := by
  have indexed := TermBank.makeTerm_indexed sound.indexed symbol args (sound.symbols symbol known)
    fun a member => sound.terms a (valid a member)
  have shared := TermBank.makeTerm_hashConsed sound.shared symbol args
  have grows := TermBank.makeTerm_extends s.bank symbol args
  have fixed := TermBank.makeTerm_symbols s.bank symbol args
  have inside : id < bank.size := by
    rcases TermBank.makeTerm_cases s.bank symbol args with ⟨old, found, run⟩ | ⟨_, run⟩
    · rcases Prod.mk.inj (made.symm.trans run) with ⟨rfl, rfl⟩
      exact (List.getElem?_eq_some_iff.mp (sound.indexed.keys_sound found)).1
    · rcases Prod.mk.inj (made.symm.trans run) with ⟨rfl, rfl⟩
      simp [TermBank.size]
  rw [made] at indexed shared grows fixed
  constructor
  · constructor
    case indexed => exact indexed
    case shared => exact shared
    case symbols =>
      intro known member
      exact Nat.lt_of_lt_of_le (sound.symbols known member) grows.symbols_le
    case terms =>
      intro known member
      rcases List.mem_cons.mp member with rfl | old
      · exact inside
      · exact Nat.lt_of_lt_of_le (sound.terms known old) grows.size_le
  · exact grows

theorem Sound.perform {s : Session} (sound : s.Sound) {call : Call} (knows : s.Knows call) :
    (s.perform call).Sound ∧ s.bank.Extends (s.perform call).bank := by
  cases call with
  | makeTerm symbol args => exact sound.makeTerm knows.1 knows.2 rfl
  | makeVar varSymbol => exact sound.makeTerm knows (fun _ member => by cases member) rfl
  | intern name kind arity sort =>
      cases run : s.bank.symbols.intern name kind arity sort with
      | error fault =>
          simpa only [Session.perform, run] using ⟨sound, TermBank.Extends.refl s.bank⟩
      | ok out =>
          rcases out with ⟨id, symbols⟩
          have grows := (TermBank.intern_grows run).grows
          simp only [Session.perform, run]
          constructor
          · constructor
            case indexed => exact TermBank.intern_indexed sound.indexed run
            case shared => exact sound.shared
            case terms => exact sound.terms
            case symbols =>
              intro known member
              rcases List.mem_cons.mp member with rfl | old
              · rcases SymbolTable.intern_info run with ⟨info, entry, _⟩
                exact (List.getElem?_eq_some_iff.mp entry).1
              · exact Nat.lt_of_lt_of_le (sound.symbols known old) grows.symbols_le
          · exact grows

theorem Sound.performAll {s : Session} (sound : s.Sound) {calls : List Call}
    (allowed : s.Allows calls) :
    (s.performAll calls).Sound ∧ s.bank.Extends (s.performAll calls).bank := by
  induction calls generalizing s with
  | nil => exact ⟨sound, .refl s.bank⟩
  | cons call rest ih =>
      rcases sound.perform allowed.1 with ⟨next, kept⟩
      rcases ih next allowed.2 with ⟨last, later⟩
      exact ⟨last, kept.trans later⟩

theorem performAll_append (s : Session) (before after : List Call) :
    s.performAll (before ++ after) = (s.performAll before).performAll after :=
  List.foldl_append

theorem allows_append {s : Session} {before after : List Call}
    (allowed : s.Allows (before ++ after)) :
    s.Allows before ∧ (s.performAll before).Allows after := by
  induction before generalizing s with
  | nil => exact ⟨trivial, allowed⟩
  | cons call rest ih =>
      rcases ih allowed.2 with ⟨first, second⟩
      exact ⟨⟨allowed.1, first⟩, second⟩

theorem Sound.reads {s : Session} (sound : s.Sound) :
    (∀ id ∈ s.symbolIds, ∃ info, s.bank.symbols.getInfo id = .ok info) ∧
    ∀ id ∈ s.termIds, ∃ t, s.bank.getTerm id = .ok t ∧
      s.bank.isVariable id = .ok (s.bank.symbols.isVar t.symbolId) ∧
      ∀ a ∈ t.args, a < id := by
  constructor
  · intro id member
    have inside := List.getElem?_eq_getElem (sound.symbols id member)
    exact ⟨_, by rw [SymbolTable.getInfo, inside]⟩
  · intro id member
    have found := List.getElem?_eq_getElem (sound.terms id member)
    have read := TermBank.getTerm_ok.mpr found
    refine ⟨_, read, ?_, sound.indexed.args_lt found⟩
    rw [TermBank.isVariable, read, bind_ok,
      SymbolTable.isVariable_eq (sound.indexed.symbol_valid found)]

end Session

/-- After any calls that use returned ids: ids are equal exactly when their
labelled trees are, arguments are smaller than their term, every later call
leaves the symbols and trees of earlier ids alone, and a call that throws
changes nothing. -/
theorem hashConsing_exact (calls : List Call) (allowed : Session.Allows {} calls) :
    let s := Session.performAll {} calls
    (∀ i ∈ s.termIds, ∀ j ∈ s.termIds, i = j ↔ s.bank.labelled i = s.bank.labelled j) ∧
    (∀ i ∈ s.termIds, ∃ t, s.bank.getTerm i = .ok t ∧ ∀ a ∈ t.args, a < i) ∧
    (∀ before after, calls = before ++ after →
      let earlier := Session.performAll {} before
      (∀ i ∈ earlier.termIds, ∃ t kind, earlier.bank.getTerm i = .ok t ∧
        s.bank.getTerm i = .ok t ∧
        earlier.bank.isVariable i = .ok kind ∧ s.bank.isVariable i = .ok kind ∧
        s.bank.labelled i = earlier.bank.labelled i) ∧
      ∀ id ∈ earlier.symbolIds, ∃ info, earlier.bank.symbols.getInfo id = .ok info ∧
        s.bank.symbols.getInfo id = .ok info) ∧
    ∀ before name kind arity sort after,
      calls = before ++ .intern name kind arity sort :: after →
      ∀ fault, (Session.performAll {} before).bank.symbols.intern name kind arity sort =
        .error fault → Session.performAll {} (before ++ [.intern name kind arity sort]) =
          Session.performAll {} before := by
  have sound := (Session.empty_sound.performAll allowed).1
  refine ⟨fun i hi j hj => ?_, fun i hi => ?_, ?_, ?_⟩
  · constructor
    · rintro rfl
      rfl
    · exact TermBank.labelled_inj sound.indexed sound.shared (sound.terms i hi) (sound.terms j hj)
  · rcases sound.reads.2 i hi with ⟨t, read, _, below⟩
    exact ⟨t, read, below⟩
  · rintro before after rfl
    -- the rest of the session only extends the pool that the first part built
    rcases Session.allows_append allowed with ⟨allowedBefore, allowedAfter⟩
    have soundBefore := (Session.empty_sound.performAll allowedBefore).1
    have grows := (soundBefore.performAll allowedAfter).2
    rw [← Session.performAll_append] at grows
    constructor
    · intro i hi
      rcases soundBefore.reads.2 i hi with ⟨t, read, kind, _⟩
      have entry := TermBank.getTerm_ok.mp read
      have later := grows.term entry
      have valid := soundBefore.indexed.symbol_valid entry
      refine ⟨t, _, read, TermBank.getTerm_ok.mpr later, kind, ?_, ?_⟩
      · rw [TermBank.isVariable, TermBank.getTerm_ok.mpr later, bind_ok,
          SymbolTable.isVariable_eq (Nat.lt_of_lt_of_le valid grows.symbols_le),
          SymbolTable.isVar_of_prefix grows.infos valid]
      · exact TermBank.labelled_extends soundBefore.indexed sound.indexed grows
          (soundBefore.terms i hi)
    · intro id hid
      rcases soundBefore.reads.1 id hid with ⟨info, read⟩
      refine ⟨info, read, ?_⟩
      rcases grows.infos with ⟨rest, same⟩
      rw [SymbolTable.getInfo, ← same, List.getElem?_append_left (soundBefore.symbols id hid)]
      exact read
  · intro before name kind arity sort after _ fault throws
    rw [Session.performAll_append]
    simp only [Session.performAll, List.foldl_cons, List.foldl_nil, Session.perform]
    simp only [Session.performAll] at throws
    rw [throws]

/-- f(a) built twice, with a symbol asked for at the wrong arity in between. -/
def sharedCalls : List Call :=
  [.intern "f".toList .kFunction 1 0, .intern "a".toList .kConstant 0 0, .makeTerm 1 [],
   .makeTerm 0 [0], .intern "f".toList .kFunction 2 0, .makeTerm 1 [], .makeTerm 0 [0]]

theorem hashConsing_exact_sample :
    (Session.performAll {} sharedCalls).termIds = [1, 0, 1, 0] ∧
    (Session.performAll {} sharedCalls).bank.labelled 0 ≠
      (Session.performAll {} sharedCalls).bank.labelled 1 := by
  have ids : (Session.performAll {} sharedCalls).termIds = [1, 0, 1, 0] := by decide +kernel
  have allowed : Session.Allows {} sharedCalls := by decide +kernel
  rcases hashConsing_exact sharedCalls allowed with ⟨identity, _⟩
  refine ⟨ids, fun same => ?_⟩
  have equal := (identity 0 (by rw [ids]; decide) 1 (by rw [ids]; decide)).mpr same
  cases equal

end AtpEngine
