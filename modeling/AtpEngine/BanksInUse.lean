import AtpEngine.ParserRuns

/-!
The parser on a bank that is in use. The bank may hold the symbols and terms of other
inputs, and those that a search has made; an input is accepted when its entries
agree with each other and with the symbols that are there.
-/
namespace AtpEngine

open Fuelled TptpParser

def SymbolTable.uses (table : SymbolTable) : List Use :=
  table.infos.map fun info => ⟨info.name, info.kind, info.arity⟩

/-- A bank of terms with at most 65535 arguments, as parsing and search leave it when
no longer list is read. -/
structure TermBank.Usable (bank : TermBank) : Prop where
  wf : bank.WellFormed
  shared : bank.HashConsed
  small : bank.ArityBounded
  arities : ∀ info ∈ bank.symbols.infos, info.arity < 65536

section InUse

variable {bank bank' : TermBank} {input : Text} {problem : ParsedProblem}
  {formulas : List SyntaxFormula} {uses : List Use} {p : TptpParser}

theorem toUInt16_small {n : Nat} (small : n < 65536) : toUInt16 n = n := Nat.mod_eq_of_lt small

theorem usable_built (usable : bank.Usable) :
    Built bank.symbols.uses (TptpParser.new input bank) where
  wf := usable.wf
  shared := usable.shared
  known := by
    intro u member
    rcases List.mem_map.mp member with ⟨info, inside, rfl⟩
    rcases List.getElem?_of_mem inside with ⟨sym, entry⟩
    exact ⟨sym, usable.wf.table.complete sym info entry, info, entry, rfl, rfl,
      (toUInt16_small (usable.arities info inside)).symm⟩
  named := fun info inside => ⟨_, List.mem_map.mpr ⟨info, inside, rfl⟩, rfl⟩
  small := fun _ => usable.small
  cached := by
    intro name id found
    cases found

theorem Built.mem_uses (built : Built uses p) (few : ∀ u ∈ uses, u.count < 65536) {u : Use} :
    u ∈ p.bank.symbols.uses ↔ u ∈ uses := by
  constructor
  · intro recorded
    rcases List.mem_map.mp recorded with ⟨info, inside, rfl⟩
    rcases built.named info inside with ⟨v, member, name⟩
    rcases built.known v member with ⟨sym, found, info', entry, _, kind, arity⟩
    rcases List.getElem?_of_mem inside with ⟨id, at_id⟩
    have own := built.wf.table.complete id info at_id
    rw [← name, found] at own
    rcases Option.some.inj own with rfl
    rcases Option.some.inj (entry.symm.trans at_id) with rfl
    rw [toUInt16_small (few v member)] at arity
    rwa [kind, arity, ← name]
  · intro member
    rcases built.known u member with ⟨sym, _, info, entry, name, kind, arity⟩
    refine List.mem_map.mpr ⟨info, List.mem_of_getElem? entry, ?_⟩
    rw [name, kind, arity, toUInt16_small (few u member)]

theorem Built.usable (built : Built uses p) (few : ∀ u ∈ uses, u.count < 65536) :
    p.bank.Usable :=
  ⟨built.wf, built.shared, built.small few, fun info inside =>
    few _ ((built.mem_uses few).mp (List.mem_map.mpr ⟨info, inside, rfl⟩))⟩

/-- Parsing into a bank in use is exact. It returns on the renderings of entries that
are consistent with each other and with the table, and records just their uses. -/
theorem parse_used_exact (usable : bank.Usable) (input : Text) (few : FewArguments input) :
    (∀ fault, parseTptpString input bank = .error fault → ∃ what,
      fault = .runtimeError what) ∧
    ((∃ out, parseTptpString input bank = .ok out) ↔ ∃ formulas, Renders formulas input ∧
      Consistent (bank.symbols.uses ++ formulas.flatMap SyntaxFormula.uses)) ∧
    ∀ problem bank' formulas, parseTptpString input bank = .ok (problem, bank') →
      Renders formulas input →
      problem.ReadsAs bank' formulas ∧ bank.Extends bank' ∧ bank'.Usable ∧
        ∀ u, u ∈ bank'.symbols.uses ↔ u ∈ bank.symbols.uses ∨ ∃ f ∈ formulas,
          u ∈ f.uses := by
  have start : Built bank.symbols.uses (TptpParser.new input bank) := usable_built usable
  have sound := parse_into_sound start
  have counts : ∀ formulas, Renders formulas input →
      ∀ u ∈ bank.symbols.uses ++ formulas.flatMap SyntaxFormula.uses, u.count < 65536 := by
    intro formulas renders u member
    rcases List.mem_append.mp member with recorded | new
    · rcases List.mem_map.mp recorded with ⟨info, inside, rfl⟩
      exact usable.arities info inside
    · rcases List.mem_flatMap.mp new with ⟨f, inside, use⟩
      exact few formulas renders f inside u use
  refine ⟨fun fault run => ?_, ⟨?_, ?_⟩, fun problem bank' formulas run renders => ?_⟩
  · rw [run] at sound
    exact sound
  · rintro ⟨out, run⟩
    rw [run] at sound
    rcases sound with ⟨formulas, renders, _, p, _, built, _⟩
    exact ⟨formulas, renders, built.agree.consistent (counts formulas renders)⟩
  · rintro ⟨formulas, renders, consistent⟩
    rcases parse_into_complete (usable_built usable) renders consistent.agree with
      ⟨problem, bank', run, _⟩
    exact ⟨_, run⟩
  · rw [run] at sound
    rcases sound with ⟨formulas', renders', grows, p, rfl, built, reads⟩
    rcases renders.unique renders' with rfl
    refine ⟨reads, grows, built.usable (counts formulas renders), fun u => ?_⟩
    rw [built.mem_uses (counts formulas renders), List.mem_append, List.mem_flatMap]

theorem search_usable {runtime : Runtime} {config : ProverConfig} {fuel : Nat}
    {result : ProverResult} {p : Prover} (few : FewArguments input)
    (run : proveInput runtime config fuel input = .ok (result, p))
    (arities : ∀ info ∈ p.env.bank.symbols.infos, info.arity < 65536) : p.env.bank.Usable := by
  rcases search_grows run with ⟨clauses, env, read, grows⟩
  rcases readInput_ready read with ⟨ready, small, _⟩
  exact ⟨grows.bank.wf ready.wf, grows.bank.shared ready.shared, grows.bank.small (small few),
    arities⟩

def takenNameInput : Text := "cnf(d,axiom,p(_R0)).".toList

theorem parse_used_exact_sample :
    ∃ p : Prover, proveInput .plain {} 50 refutableInput = .ok (.kTheorem, p) ∧
    (∃ out, parseTptpString takenNameInput {} = .ok out) ∧
    ¬ ∃ formulas, Renders formulas takenNameInput ∧
      Consistent (p.env.bank.symbols.uses ++ formulas.flatMap SyntaxFormula.uses) := by
  have answer : (proveInput .plain {} 50 refutableInput >>= fun out => pure (out.1,
      out.2.env.bank.symbols.infos.all (fun info => info.arity < 65536),
      (parseTptpString takenNameInput out.2.env.bank).isOk)) = .ok (.kTheorem, true, false) := by
    decide +kernel
  have alone : (fun _ => ()) <$> parseTptpString takenNameInput {} = .ok () := by decide +kernel
  rcases bind_ok_iff.mp answer with ⟨⟨_, p⟩, run, facts⟩
  simp only [pure_ok_iff, Prod.mk.injEq] at facts
  rcases facts with ⟨rfl, arities, rejected⟩
  rcases map_ok_iff.mp alone with ⟨out, read, _⟩
  have usable := search_usable (fun _ renders => renders.bounded (by decide +kernel)) run
    fun info member => by simpa using List.all_eq_true.mp arities info member
  have exact := parse_used_exact usable takenNameInput fun _ renders =>
    renders.bounded (by decide +kernel)
  refine ⟨p, run, ⟨out, read⟩, fun consistent => ?_⟩
  rcases exact.2.1.mpr consistent with ⟨out', accepted⟩
  rw [accepted] at rejected
  cases rejected

end InUse

end AtpEngine
