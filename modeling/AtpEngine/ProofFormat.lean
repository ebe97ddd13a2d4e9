import AtpEngine.ProofTrace

/-!
Printing of clauses and proofs, the second half of proof/proof_trace.cc. A
variable is printed under a name chosen by its first occurrence in the clause,
and a proof step under its position in the proof.
-/
namespace AtpEngine

open Fuelled

/-- The letter of `prettyVarName`, by the index modulo six. -/
def baseLetter : Nat → Char
  | 0 => 'X'
  | 1 => 'Y'
  | 2 => 'Z'
  | 3 => 'W'
  | 4 => 'V'
  | 5 => 'U'
  | _ => 'X'

def prettyVarName (index : Nat) : Text :=
  let base := baseLetter (index % 6)
  let suffix := index / 6
  if suffix = 0 then [base] else base :: digits suffix

abbrev VarMap := List (Nat × Text)

def termToPretty (bank : TermBank) : Nat → Nat → VarMap → Except Fault (Text × VarMap)
  | 0, _, _ => .error .outOfFuel
  | fuel + 1, id, varMap => do
      if ← bank.isVariable id then
        match varMap.lookup id with
        | some name => pure (name, varMap)
        | none =>
            let name := prettyVarName varMap.length
            pure (name, (id, name) :: varMap)
      else
        let t ← bank.getTerm id
        let name ← bank.symbols.getName t.symbolId
        if t.args.isEmpty then pure (name, varMap)
        else
          let (args, varMap) ← mapAccum (termToPretty bank fuel) t.args varMap
          pure (name ++ "(".toList ++ List.intercalate ",".toList args ++ ")".toList, varMap)

def ruleToString : InferenceRule → Text
  | .kInput => "input".toList
  | .kResolution => "resolution".toList
  | .kFactoring => "factoring".toList
  | _ => "unknown".toList

def literalToString (bank : TermBank) (fuel : Nat) (lit : Literal) (varMap : VarMap) :
    Except Fault (Text × VarMap) := do
  let (atom, varMap) ← termToPretty bank fuel lit.atom varMap
  pure (if lit.isPositive then atom else '¬' :: atom, varMap)

def clauseToString (fuel : Nat) (clause : Clause) (bank : TermBank) : Except Fault Text :=
  if clause.isEmpty then .ok ['□']
  else do
    let (lits, _) ← mapAccum (literalToString bank fuel) clause.literals []
    pure (List.intercalate " ∨ ".toList lits)

/-- `id_to_step`: a later step with the same id overrides an earlier one. -/
def stepNumbers (proof : List ProofStep) : List (ClauseId × Nat) :=
  ((proof.zipIdx 1).map fun p => (p.1.clauseId, p.2)).reverse

def localName (idToStep : List (ClauseId × Nat)) (cid : ClauseId) : Text :=
  match idToStep.lookup cid with
  | some number => digits number
  | none => '?' :: digits (idNumber cid)

def parentsToString (idToStep : List (ClauseId × Nat)) (step : ProofStep) : Text :=
  if step.parent1 ≠ kInvalidId then
    "  [".toList ++ localName idToStep step.parent1 ++
      (if step.parent2 ≠ kInvalidId then ", ".toList ++ localName idToStep step.parent2
        else []) ++
      "]".toList
  else []

/-- The line of a step, without its newline. -/
def stepToString (fuel : Nat) (idToStep : List (ClauseId × Nat)) (store : ClauseStore)
    (bank : TermBank) (numbered : ProofStep × Nat) : Except Fault Text := do
  let (step, number) := numbered
  let c ← store.getClause step.clauseId
  let clause ← clauseToString fuel c bank
  pure (digits number ++ ". ".toList ++ ("[".toList ++ ruleToString step.rule ++ "] ".toList) ++
    clause ++ parentsToString idToStep step)

def formatProof (fuel : Nat) (proof : List ProofStep) (store : ClauseStore) (bank : TermBank) :
    Except Fault Text := do
  let lines ← (proof.zipIdx 1).mapM (stepToString fuel (stepNumbers proof) store bank)
  pure (lines.flatMap fun line => line ++ ['\n'])

section Totality

def OneLine (text : Text) : Prop := '\n' ∉ text

instance (text : Text) : Decidable (OneLine text) := inferInstanceAs (Decidable ('\n' ∉ text))

theorem OneLine.append {left right : Text} (l : OneLine left) (r : OneLine right) :
    OneLine (left ++ right) := fun h => (List.mem_append.mp h).elim l r

theorem OneLine.intercalate {sep : Text} (s : OneLine sep) :
    ∀ parts : List Text, (∀ part ∈ parts, OneLine part) →
      OneLine (List.intercalate sep parts)
  | [], _ => by simp [List.intercalate, OneLine]
  | [part], all => by simpa [List.intercalate] using all part List.mem_cons_self
  | part :: next :: rest, all => by
      have tail := OneLine.intercalate s (next :: rest)
        fun p member => all p (List.mem_cons_of_mem part member)
      have here := all part List.mem_cons_self
      rw [List.intercalate, List.intersperse_cons_cons, List.flatten_cons, List.flatten_cons]
      exact here.append (s.append tail)

theorem digits_oneLine (n : Nat) : OneLine (digits n) := by
  intro member
  have digit := Nat.isDigit_of_mem_toDigits (by omega) (by omega) member
  revert digit
  decide

theorem OneLine.cons {c : Char} {rest : Text} (other : c ≠ '\n') (line : OneLine rest) :
    OneLine (c :: rest) :=
  fun member => (List.mem_cons.mp member).elim (fun h => other h.symm) line

theorem prettyVarName_oneLine (index : Nat) : OneLine (prettyVarName index) := by
  have letter : baseLetter (index % 6) ≠ '\n' := by
    unfold baseLetter
    split <;> decide
  rw [prettyVarName]
  split
  · exact .cons letter (by simp [OneLine])
  · exact .cons letter (digits_oneLine _)

def SymbolTable.OneLineNames (table : SymbolTable) : Prop :=
  ∀ info ∈ table.infos, OneLine info.name

def VarMap.OneLineNames (varMap : VarMap) : Prop := ∀ entry ∈ varMap, OneLine entry.2

section Printing

variable {bank : TermBank}

theorem termToPretty_returns (wf : bank.WellFormed) (id : Nat) (valid : id < bank.size)
    (varMap : VarMap) (named : bank.symbols.OneLineNames → varMap.OneLineNames) :
    ∃ text varMap',
      Returns (fun fuel => termToPretty bank fuel id varMap) (text, varMap') ∧
        (bank.symbols.OneLineNames → varMap'.OneLineNames) ∧
        (bank.symbols.OneLineNames → OneLine text) := by
  induction id using Nat.strong_induction_on generalizing varMap with
  | _ id ih =>
    have kind := TermBank.isVariable_eq wf valid
    rcases TermBank.tree_cases wf valid with ⟨isVar, _⟩ | ⟨t, entry, isVar, below, _⟩
    · rw [isVar] at kind
      cases known : varMap.lookup id with
      | some name =>
          refine ⟨name, varMap, .succ (.congr (fun fuel => ?_) (.const _)), named,
            fun names => named names _ (lookup_some_mem known)⟩
          simp [termToPretty, kind, known, bind_ok, pure_eq_ok]
      | none =>
          refine ⟨prettyVarName varMap.length, (id, prettyVarName varMap.length) :: varMap,
            .succ (.congr (fun fuel => ?_) (.const _)), fun names e member => ?_,
            fun _ => prettyVarName_oneLine _⟩
          · simp [termToPretty, kind, known, bind_ok, pure_eq_ok]
          · rcases List.mem_cons.mp member with rfl | old
            · exact prettyVarName_oneLine _
            · exact named names e old
    · rw [isVar] at kind
      have got := TermBank.getTerm_ok.mpr entry
      have symbol := wf.symbol_valid entry
      have info : bank.symbols.infos[t.symbolId]? = some bank.symbols.infos[t.symbolId] :=
        List.getElem?_eq_getElem symbol
      have name : bank.symbols.getName t.symbolId = .ok bank.symbols.infos[t.symbolId].name := by
        simp [SymbolTable.getName, SymbolTable.getInfo, info, bind_ok, pure_eq_ok]
      have line : bank.symbols.OneLineNames → OneLine bank.symbols.infos[t.symbolId].name :=
        fun names => names _ (List.getElem_mem symbol)
      by_cases constant : t.args.isEmpty
      · refine ⟨_, varMap, .succ (.congr (fun fuel => ?_) (.const _)), named, line⟩
        simp only [termToPretty, kind, got, name, constant, bind_ok, pure_eq_ok, if_true,
          Bool.false_eq_true, if_false]
      · rcases mapAccum_returns (f := fun fuel => termToPretty bank fuel)
          (fun varMap => bank.symbols.OneLineNames → varMap.OneLineNames)
          (fun text => bank.symbols.OneLineNames → OneLine text)
          (fun a member varMap named =>
            ih a (below a member) (Nat.lt_trans (below a member) valid) varMap named) named with
          ⟨args, varMap', done, named', lines⟩
        have unfolded : ∀ fuel, termToPretty bank (fuel + 1) id varMap =
            (mapAccum (termToPretty bank fuel) t.args varMap >>= fun out =>
              .ok (bank.symbols.infos[t.symbolId].name ++ "(".toList ++
                List.intercalate ",".toList out.1 ++ ")".toList, out.2)) := fun fuel => by
          simp only [termToPretty, kind, got, name, constant, bind_ok, Bool.false_eq_true, if_false]
          rfl
        refine ⟨_, varMap', .succ (.congr unfolded (done.bind (.const _))), named',
          fun names => ?_⟩
        have inner : ∀ part ∈ args, OneLine part := fun part member => lines part member names
        refine (((line names).append ?_).append (OneLine.intercalate ?_ _ inner)).append ?_ <;>
          simp [OneLine]

theorem literalToString_returns (wf : bank.WellFormed) {lit : Literal}
    (valid : lit.atom < bank.size) (varMap : VarMap)
    (named : bank.symbols.OneLineNames → varMap.OneLineNames) : ∃ text varMap',
      Returns (fun fuel => literalToString bank fuel lit varMap) (text, varMap') ∧
        (bank.symbols.OneLineNames → varMap'.OneLineNames) ∧
        (bank.symbols.OneLineNames → OneLine text) := by
  rcases termToPretty_returns wf lit.atom valid varMap named with
    ⟨atom, varMap', done, named', line⟩
  refine ⟨if lit.isPositive then atom else '¬' :: atom, varMap', done.bind (.const _), named',
    fun names => ?_⟩
  split
  · exact line names
  · exact .cons (by decide) (line names)

theorem clauseToString_returns (wf : bank.WellFormed) {clause : Clause}
    (valid : clause.ValidIn bank) :
    ∃ text, Returns (fun fuel => clauseToString fuel clause bank) text ∧
      (bank.symbols.OneLineNames → OneLine text) := by
  by_cases empty : clause.isEmpty
  · exact ⟨_, .congr (fun _ => by rw [clauseToString, if_pos empty])
      (.const _), by simp [OneLine]⟩
  · rcases mapAccum_returns (f := fun fuel => literalToString bank fuel)
      (fun varMap => bank.symbols.OneLineNames → varMap.OneLineNames)
      (fun text => bank.symbols.OneLineNames → OneLine text)
      (fun lit member varMap named => literalToString_returns wf (valid lit member) varMap named)
      (s := []) (by simp [VarMap.OneLineNames]) with ⟨lits, varMap', done, _, lines⟩
    have unfolded : ∀ fuel, clauseToString fuel clause bank =
        (mapAccum (literalToString bank fuel) clause.literals [] >>= fun out =>
          .ok (List.intercalate " ∨ ".toList out.1)) := fun fuel => by
      rw [clauseToString, if_neg empty]
      rfl
    refine ⟨_, .congr unfolded (done.bind (.const _)), fun names => ?_⟩
    exact OneLine.intercalate (by simp [OneLine]) _ fun part member => lines part member names

end Printing

end Totality

end AtpEngine
