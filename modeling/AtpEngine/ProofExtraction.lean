import AtpEngine.ProofFormat

/-!
What extractProof and formatProof deliver. The extracted list is exactly the
derivation of the root, over any parent graph; its order is topological exactly
when the parents of each of its clauses are apart.
-/
namespace AtpEngine

open Fuelled DepthFirst

section Formatting

/-- What a line says about the parents of its step: nothing, or the line numbers
of the steps of these clauses. -/
inductive ParentRefs (proof : List ProofStep) (step : ProofStep) : Text → Prop where
  | none : step.parent1 = kInvalidId → ParentRefs proof step []
  | one {j : Nat} {first : ProofStep} : step.parent2 = kInvalidId →
      proof[j]? = some first → first.clauseId = step.parent1 →
      ParentRefs proof step ("  [".toList ++ digits (j + 1) ++ "]".toList)
  | two {j k : Nat} {first second : ProofStep} :
      proof[j]? = some first → first.clauseId = step.parent1 →
      proof[k]? = some second → second.clauseId = step.parent2 →
      ParentRefs proof step
        ("  [".toList ++ digits (j + 1) ++ (", ".toList ++ digits (k + 1)) ++ "]".toList)

structure FormattedLine (store : ClauseStore) (bank : TermBank) (proof : List ProofStep) (i : Nat)
    (step : ProofStep) (line : Text) : Prop where
  oneLine : OneLine line
  shape : ∃ c clause refs, store.find step.clauseId = some c ∧
    Returns (fun fuel => clauseToString fuel c bank) clause ∧ ParentRefs proof step refs ∧
    line = digits (i + 1) ++ ". ".toList ++ ("[".toList ++ ruleToString step.rule ++ "] ".toList) ++
      clause ++ refs

theorem lookup_of_mem_keys {α β : Type} [BEq α] [LawfulBEq α] {l : List (α × β)} {a : α}
    (member : a ∈ l.map Prod.fst) : ∃ b, l.lookup a = some b := by
  cases found : l.lookup a with
  | some b => exact ⟨b, rfl⟩
  | none =>
      rcases List.mem_map.mp member with ⟨⟨a', b⟩, inside, rfl⟩
      have := List.lookup_eq_none_iff.mp found _ inside
      simp at this

theorem localName_listed {proof : List ProofStep} {id : ClauseId}
    (listed : id ∈ proof.map (·.clauseId)) : ∃ (j : Nat) (step : ProofStep),
      proof[j]? = some step ∧ step.clauseId = id ∧
        localName (stepNumbers proof) id = digits (j + 1) := by
  have key : id ∈ (stepNumbers proof).map Prod.fst := by
    rcases List.mem_map.mp listed with ⟨step, member, rfl⟩
    rcases List.getElem?_of_mem member with ⟨j, at_j⟩
    simp only [stepNumbers, List.map_reverse, List.mem_reverse, List.map_map, List.mem_map]
    exact ⟨(step, 1 + j),
      List.mem_zipIdx_iff_le_and_getElem?_sub.mpr ⟨by simp, by simpa using at_j⟩, rfl⟩
  rcases lookup_of_mem_keys key with ⟨number, found⟩
  have entry := lookup_some_mem found
  simp only [stepNumbers, List.mem_reverse, List.mem_map, Prod.mk.injEq] at entry
  rcases entry with ⟨⟨step, n⟩, member, rfl, rfl⟩
  rcases List.mem_zipIdx_iff_le_and_getElem?_sub.mp member with ⟨low, at_j⟩
  refine ⟨n - 1, step, at_j, rfl, ?_⟩
  simp only [localName, found]
  rw [show n - 1 + 1 = n from Nat.succ_pred_eq_of_pos low]

theorem parentsToString_refs {proof : List ProofStep} {step : ProofStep}
    (listed : ∀ parent, parent = step.parent1 ∨ parent = step.parent2 →
      parent ≠ kInvalidId → parent ∈ proof.map (·.clauseId)) :
    ParentRefs proof step (parentsToString (stepNumbers proof) step) ∧
      OneLine (parentsToString (stepNumbers proof) step) := by
  by_cases first : step.parent1 = kInvalidId
  · rw [parentsToString, if_neg (not_not.mpr first)]
    exact ⟨.none first, by simp [OneLine]⟩
  rcases localName_listed (listed _ (Or.inl rfl) first) with ⟨j, left, at_j, same, name⟩
  rw [parentsToString, if_pos first, name]
  by_cases second : step.parent2 = kInvalidId
  · rw [if_neg (not_not.mpr second), List.append_nil]
    refine ⟨.one second at_j same, ((OneLine.append ?_ (digits_oneLine _)).append ?_)⟩ <;>
      simp [OneLine]
  · rcases localName_listed (listed _ (Or.inr rfl) second) with ⟨k, right, at_k, same', name'⟩
    rw [if_pos second, name']
    refine ⟨.two at_j same at_k same', ((OneLine.append ?_ (digits_oneLine _)).append
      (OneLine.append ?_ (digits_oneLine _))).append ?_⟩ <;> simp [OneLine]

theorem ruleToString_oneLine (rule : InferenceRule) : OneLine (ruleToString rule) := by
  cases rule <;> decide

theorem stepToString_returns {store : ClauseStore} {bank : TermBank} (wf : bank.WellFormed)
    {proof : List ProofStep} {step : ProofStep} {c : Clause}
    (found : store.find step.clauseId = some c) (valid : c.ValidIn bank)
    (listed : ∀ parent, parent = step.parent1 ∨ parent = step.parent2 →
      parent ≠ kInvalidId → parent ∈ proof.map (·.clauseId)) (i : Nat) :
    ∃ line, Returns (fun fuel => stepToString fuel (stepNumbers proof) store bank (step, i + 1))
      line ∧ (bank.symbols.OneLineNames → FormattedLine store bank proof i step line) := by
  rcases clauseToString_returns wf valid with ⟨clause, done, clauseLine⟩
  rcases parentsToString_refs listed with ⟨refs, refsLine⟩
  have unfolded : ∀ fuel, stepToString fuel (stepNumbers proof) store bank (step, i + 1) =
      (clauseToString fuel c bank >>= fun clause =>
        .ok (digits (i + 1) ++ ". ".toList ++
          ("[".toList ++ ruleToString step.rule ++ "] ".toList) ++
          clause ++ parentsToString (stepNumbers proof) step)) := fun fuel => by
    simp only [stepToString, ClauseStore.getClause_ok.mpr found, bind_ok]
    rfl
  refine ⟨_, .congr unfolded (done.bind (.const _)), fun names =>
    ⟨?_, c, clause, _, found, done, refs, rfl⟩⟩
  refine ((((digits_oneLine _).append ?_).append (OneLine.append (OneLine.append ?_
    (ruleToString_oneLine _)) ?_)).append (clauseLine names)).append refsLine <;> simp [OneLine]

theorem formatProof_returns {store : ClauseStore} {bank : TermBank} (wf : bank.WellFormed)
    (valid : ∀ id c, store.find id = some c → c.ValidIn bank) {proof : List ProofStep}
    (records : ∀ step ∈ proof, store.Records step)
    (listed : ∀ step ∈ proof, ∀ parent, parent = step.parent1 ∨ parent = step.parent2 →
      parent ≠ kInvalidId → parent ∈ proof.map (·.clauseId)) :
    ∃ lines : List Text,
      Returns (fun fuel => formatProof fuel proof store bank)
        (lines.flatMap fun line => line ++ ['\n']) ∧
      lines.length = proof.length ∧ (bank.symbols.OneLineNames → ∀ (i : Nat) step line,
        proof[i]? = some step → lines[i]? = some line →
        FormattedLine store bank proof i step line) := by
  rcases mapM_returns (f := fun fuel => stepToString fuel (stepNumbers proof) store bank)
    (fun numbered line => ∃ i, numbered.2 = i + 1 ∧
      (bank.symbols.OneLineNames → FormattedLine store bank proof i numbered.1 line))
    (l := proof.zipIdx 1) (fun numbered member => by
      rcases numbered with ⟨step, number⟩
      rcases List.mem_zipIdx_iff_le_and_getElem?_sub.mp member with ⟨low, at_i⟩
      have inside := List.mem_of_getElem? at_i
      rcases records step inside with ⟨c, found, _⟩
      rcases stepToString_returns wf found (valid _ _ found) (listed step inside) (number - 1) with
        ⟨line, done, formatted⟩
      have same : number - 1 + 1 = number := Nat.succ_pred_eq_of_pos low
      rw [same] at done
      exact ⟨line, done, number - 1, same.symm, formatted⟩) with ⟨lines, done, each⟩
  refine ⟨lines, done.bind (.const _), by simpa using each.length_eq.symm, ?_⟩
  intro names i step line at_i at_line
  rcases List.getElem?_eq_some_iff.mp at_i with ⟨hi, rfl⟩
  rcases List.getElem?_eq_some_iff.mp at_line with ⟨hl, rfl⟩
  rcases List.Forall₂.get each (by simpa using hi) hl with ⟨n, number, formatted⟩
  simp only [List.get_eq_getElem, List.getElem_zipIdx] at number formatted
  rw [show n = i by omega] at formatted
  exact formatted names

end Formatting

section Exactness

theorem parents_listed {store : ClauseStore} {root : ClauseId} {proof : List ProofStep}
    (records : ∀ step ∈ proof, store.Records step)
    (members : ∀ id, id ∈ proof.map (·.clauseId) ↔ store.Reaches root id) :
    ∀ step ∈ proof, ∀ parent, parent = step.parent1 ∨ parent = step.parent2 →
      parent ≠ kInvalidId → parent ∈ proof.map (·.clauseId) := by
  intro step member parent is real
  rcases records step member with ⟨d, found, _, first, second⟩
  have edge : parent ∈ store.parents step.clauseId :=
    mem_parents.mpr ⟨d, found, real, by rw [← first, ← second]; exact is⟩
  have from_root := (members step.clauseId).mp (List.mem_map.mpr ⟨step, member, rfl⟩)
  exact (members parent).mpr (from_root.tail edge)

/-- Over any parent graph, cyclic ones included, extraction returns exactly the
derivation of the root, the root last, and the formatted proof numbers its lines
and its parent references by the positions in that list. -/
theorem extractProof_exact {store : ClauseStore} (inRange : store.ParentsInRange) {root : ClauseId}
    (stored : ∃ c, store.find root = some c) :
    ∃ proof, Returns (fun fuel => extractProof fuel store root) proof ∧
      (proof.map (·.clauseId)).Nodup ∧
      (∀ id, id ∈ proof.map (·.clauseId) ↔ store.Reaches root id) ∧
      (∀ step ∈ proof, store.Records step) ∧
      (∃ earlier last, proof = earlier ++ [last] ∧ last.clauseId = root) ∧
      ∀ bank : TermBank, bank.WellFormed → bank.symbols.OneLineNames →
        (∀ id c, store.find id = some c → c.ValidIn bank) →
        ∃ lines : List Text,
          Returns (fun fuel => formatProof fuel proof store bank)
            (lines.flatMap fun line => line ++ ['\n']) ∧
          lines.length = proof.length ∧ ∀ (i : Nat) step line, proof[i]? = some step →
            lines[i]? = some line → FormattedLine store bank proof i step line := by
  rcases extractProof_returns inRange stored with ⟨proof, done⟩
  rcases stored with ⟨c, found⟩
  rcases done.exists with ⟨fuel, run⟩
  rcases extractProof_explored (stored_ne_invalid found) run with ⟨records, explored⟩
  rcases explored.root with ⟨members, nodup, newer, split⟩
  refine ⟨proof, done, nodup, members, records, ?_, fun bank wf names valid => ?_⟩
  · rcases List.map_eq_append_iff.mp split with ⟨earlier, rest, same, _, tail⟩
    rcases List.map_eq_singleton_iff.mp tail with ⟨last, isLast, own⟩
    exact ⟨earlier, last, by rw [same, isLast], own⟩
  · rcases formatProof_returns wf valid records (parents_listed records members) with
      ⟨lines, printed, lengths, formatted⟩
    exact ⟨lines, printed, lengths, formatted names⟩

def cyclicStore : ClauseStore where
  clauses := [{ id := some 0, rule := .kResolution, parent1 := some 1, parent2 := some 0 },
    { id := some 1, rule := .kFactoring, parent1 := some 0 }]

theorem extractProof_exact_cyclic : ∃ proof,
    Returns (fun fuel => extractProof fuel cyclicStore (some 1)) proof ∧
      (proof.map (·.clauseId)).Nodup ∧
      (∀ id, id ∈ proof.map (·.clauseId) ↔ cyclicStore.Reaches (some 1) id) ∧
      ∃ lines : List Text, Returns (fun fuel => formatProof fuel proof cyclicStore {})
        (lines.flatMap fun line => line ++ ['\n']) ∧ lines.length = proof.length := by
  have stored : ∀ id c, cyclicStore.find id = some c → c ∈ cyclicStore.clauses := by
    intro id c found
    rcases ClauseStore.find_iff.mp found with ⟨k, _, entry⟩
    exact List.mem_of_getElem? entry
  have inRange : cyclicStore.ParentsInRange := by
    intro id c found
    have listed : ∀ c ∈ cyclicStore.clauses, ∀ parent ∈ [c.parent1, c.parent2],
        parent = kInvalidId ∨ (cyclicStore.find parent).isSome := by decide
    intro parent is
    refine (listed c (stored id c found) parent (by simpa using is)).imp_right ?_
    exact Option.isSome_iff_exists.mp
  have isStored : ∃ c, cyclicStore.find (some 1) = some c := ⟨_, rfl⟩
  rcases extractProof_exact inRange isStored with
    ⟨proof, done, nodup, members, _, _, formats⟩
  have valid : ∀ id c, cyclicStore.find id = some c → c.ValidIn {} := by
    intro id c found lit member
    have bare : ∀ c ∈ cyclicStore.clauses, c.literals = [] := by decide
    rw [bare c (stored id c found)] at member
    cases member
  rcases formats {} TermBank.empty_wellFormed (by simp [SymbolTable.OneLineNames]) valid with
    ⟨lines, printed, lengths, _⟩
  exact ⟨proof, done, nodup, members, lines, printed, lengths⟩

end Exactness

end AtpEngine
