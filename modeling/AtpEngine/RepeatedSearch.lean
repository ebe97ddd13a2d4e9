import AtpEngine.OrderIndependence
import AtpEngine.TextVerdicts

/-!
Searches one after the other in the same process. A search leaves its symbols, its
terms and the counter of its fresh names behind; the next search on the same text
finds the old ids again and runs in step with the first one, since the bank is only
asked about the terms of the clauses at hand.
-/
namespace AtpEngine

open Fuelled LockStep

section Repeating

variable {queue : PriorityQueueOps} {order order' : VariableOrder} {config : ProverConfig}
  {env later : Env} {clauses : List Clause} {p last : Prover} {fuel : Nat} {result : ProverResult}

theorem search_in_step
    (compare : config.comparator = bfsCompare ∨ config.comparator = weightCompare)
    (wf : env.bank.WellFormed) (shared : env.bank.HashConsed)
    (valid : ∀ c ∈ clauses, c.ValidIn env.bank) (fresh : env.Fresh) (grown : env.Grows later)
    (added : Prover.addClauses ⟨order, queue⟩ config clauses { env } = .ok p)
    (run : Prover.prove ⟨order, queue⟩ config fuel p = .ok (result, last)) :
    ∃ p' last', Prover.addClauses ⟨order', queue⟩ config clauses { env := later } = .ok p' ∧
      Prover.prove ⟨order', queue⟩ config fuel p' = .ok (result, last') ∧
      ∃ w : Coupling, w.SameProver last last' := by
  have fresh' : later.Fresh := fun k ahead =>
    grown.freshName_free ahead (fresh k (Nat.le_trans grown.counter ahead))
  rcases addClauses_spec ⟨order', queue⟩ config clauses { env := later } with
    ⟨p', added', _⟩
  have ended := searches_alike compare wf shared valid fresh (grown.bank.wf wf)
    (grown.bank.shared shared) fresh' grown.bank.grows added added' fuel
  rcases ended.answer run with ⟨⟨_, last'⟩, run', rfl, w, same⟩
  exact ⟨p', last', added', run', w, same⟩

/-- Searching the same text again, after this search and whatever others have made of
the bank and the counter since, reads the same clauses, leaves the bank to the search
as it is, comes to the same verdict with the same store up to the names of variables,
and prints the same proofs. -/
theorem search_repeats {input : Text} {formulas : List SyntaxFormula}
    (renders : Renders formulas input) (unreserved : Unreserved formulas)
    (compare : config.comparator = bfsCompare ∨ config.comparator = weightCompare)
    (run : proveInput ⟨order, queue⟩ config fuel input = .ok (result, last))
    (grown : last.env.Grows later) :
    ∃ problem p' last', parseTptpString input later.bank = .ok (problem, later.bank) ∧
      Prover.addClauses ⟨order', queue⟩ config (prepareForProving problem) { env := later } =
      .ok p' ∧ Prover.prove ⟨order', queue⟩ config fuel p' = .ok (result, last') ∧
      (∃ ρ, RenamedStores ρ last last') ∧ last.getEmptyClauseId = last'.getEmptyClauseId ∧
      ∀ fuel id, printProof fuel last id = printProof fuel last' id := by
  rcases proveInput_ok.mp run with ⟨clauses, env, p, read, added, proves⟩
  rcases search_grows run with ⟨_, env', read', grows⟩
  rcases Prod.mk.inj (Except.ok.inj (read.symm.trans read')) with ⟨rfl, rfl⟩
  rcases readInput_ready read with ⟨ready, _⟩
  have fresh := unreserved_fresh read renders unreserved
  have whole := grows.trans grown
  rcases bind_ok_iff.mp read with ⟨⟨problem, bank⟩, parsed, same⟩
  rcases Prod.mk.inj (pure_ok_iff.mp same) with ⟨rfl, rfl⟩
  rcases parseProblem_again TermBank.empty_wellFormed parsed whole.bank.grows
    (whole.bank.wf ready.wf) (whole.bank.shared ready.shared) with ⟨q, isBank, found⟩
  rcases search_in_step compare ready.wf ready.shared ready.valid fresh
    whole added proves with ⟨p', last', added', proves', w, coupled⟩
  refine ⟨problem, p', last', ?_, added', proves', coupled.renamed, coupled.emptyClauseId,
    fun fuel id => coupled.printProof fuel id⟩
  rw [parseTptpString, found, bind_ok, ← isBank]
  rfl

/-- The second search starts with the names that the first one has made, and
enumerates variables from the other end. -/
theorem search_repeats_sample : ∃ (last : Prover) (problem : ParsedProblem) (p' last' : Prover),
    proveInput .plain {} 50 strongText = .ok (.kTheorem, last) ∧ 0 < last.env.varCounter ∧
    parseTptpString strongText last.env.bank = .ok (problem, last.env.bank) ∧
    Prover.addClauses ⟨.reversed, .linear⟩ {} (prepareForProving problem) { env := last.env } =
    .ok p' ∧ Prover.prove ⟨.reversed, .linear⟩ {} 50 p' = .ok (.kTheorem, last') := by
  have answer : (fun out => (out.1, decide (0 < out.2.env.varCounter))) <$> proveInput .plain
      {} 50 strongText = .ok (.kTheorem, true) := by decide +kernel
  rcases map_ok_iff.mp answer with ⟨⟨_, last⟩, run, facts⟩
  rcases Prod.mk.inj facts with ⟨rfl, renamed⟩
  rcases search_repeats
    (strongText_eq ▸ problemText_renders strongFormulas_proper) strongFormulas_unreserved
    (Or.inl rfl) run (.refl last.env) with ⟨problem, p', last', again, added, proves, _⟩
  exact ⟨last, problem, p', last', run, of_decide_eq_true renamed, again, added, proves⟩

end Repeating

end AtpEngine
