import AtpEngine.ParserExact
import AtpEngine.Prover

/-!
The steps of main.cc up to its verdict: read the input into an empty bank,
prepare the clauses, and run a fresh prover on them. What the parser leaves
behind is what the search relies on.
-/
namespace AtpEngine

open Fuelled

/-- Parsing and prepareForProving, in a process that has renamed nothing yet. -/
def readInput (input : Text) : Except Fault (List Clause × Env) := do
  let (problem, bank) ← parseTptpString input
  pure (prepareForProving problem, { bank })

/-- main without its output. -/
def proveInput (runtime : Runtime) (config : ProverConfig) (fuel : Nat) (input : Text) :
    Except Fault (ProverResult × Prover) := do
  let (clauses, env) ← readInput input
  let p ← Prover.addClauses runtime config clauses { env }
  Prover.prove runtime config fuel p

theorem proveInput_ok {runtime : Runtime} {config : ProverConfig} {fuel : Nat} {input : Text}
    {out : ProverResult × Prover} :
    proveInput runtime config fuel input = .ok out ↔ ∃ clauses env p,
      readInput input = .ok (clauses, env) ∧
      Prover.addClauses runtime config clauses { env } = .ok p ∧
      Prover.prove runtime config fuel p = .ok out := by
  simp only [proveInput, bind_ok_iff, Prod.exists]
  constructor
  · rintro ⟨clauses, env, read, p, added, run⟩
    exact ⟨clauses, env, p, read, added, run⟩
  · rintro ⟨clauses, env, p, read, added, run⟩
    exact ⟨clauses, env, read, p, added, run⟩

/-- The clauses and the bank that the front end hands to the prover. -/
structure Ready (clauses : List Clause) (env : Env) : Prop where
  wf : env.bank.WellFormed
  shared : env.bank.HashConsed
  valid : ∀ c ∈ clauses, c.ValidIn env.bank
  inputs : ∀ c ∈ clauses, c.IsInput

theorem mem_prepareForProving {problem : ParsedProblem} {c : Clause}
    (member : c ∈ prepareForProving problem) : c.IsInput ∧
      ∃ af ∈ problem.formulas, ∃ c0 ∈ af.clauses, c.literals = c0.literals := by
  simp only [prepareForProving, List.mem_flatMap, List.mem_filter, List.mem_map] at member
  rcases member with ⟨af, ⟨inside, _⟩, c0, member0, rfl⟩
  exact ⟨⟨rfl, rfl, rfl⟩, af, inside, c0, member0, rfl⟩

theorem readInput_ready {input : Text} {clauses : List Clause} {env : Env}
    (run : readInput input = .ok (clauses, env)) :
    Ready clauses env ∧ (FewArguments input → env.bank.ArityBounded) ∧ ∃ formulas,
      Renders formulas input ∧
      ∀ info ∈ env.bank.symbols.infos, ∃ u ∈ formulas.flatMap SyntaxFormula.uses,
        u.name = info.name ∧ u.kind = info.kind := by
  rcases bind_ok_iff.mp run with ⟨⟨problem, bank⟩, parsed, run⟩
  rcases Prod.mk.inj (pure_ok_iff.mp run) with ⟨rfl, rfl⟩
  have sound := parseTptpString_sound input
  rw [parsed] at sound
  rcases sound with ⟨formulas, renders, p, rfl, built, reads⟩
  refine ⟨⟨built.wf, built.shared, fun c member lit inside => ?_,
    fun c member => (mem_prepareForProving member).1⟩, fun few => built.small fun u member => ?_,
    formulas, renders, fun info member => built.kinds member⟩
  swap
  · rcases List.mem_flatMap.mp member with ⟨f, inside, use⟩
    exact few formulas renders f inside u use
  rcases (mem_prepareForProving member).2 with ⟨af, isFormula, c0, isClause, literals⟩
  rcases forall₂_mem_right reads isFormula with ⟨f, _, read⟩
  rcases read.clause with ⟨lits, clauses, each⟩
  rw [clauses] at isClause
  rcases List.mem_singleton.mp isClause with rfl
  rw [literals] at inside
  rcases forall₂_mem_right each inside with ⟨l, _, readLit⟩
  exact readLit.atom.lt

/-- Symbols are named by words, and variables by those that start with an upper-case letter. -/
theorem readInput_names {input : Text} {clauses : List Clause} {env : Env}
    (run : readInput input = .ok (clauses, env)) {info : SymbolInfo}
    (member : info ∈ env.bank.symbols.infos) :
    IsWord info.name ∧ (info.name.head?.any Char.isUpper = true ↔ info.kind = .kVariable) := by
  rcases readInput_ready run with ⟨_, _, formulas, renders, named⟩
  rcases named info member with ⟨u, use, same, kind⟩
  rcases List.mem_flatMap.mp use with ⟨f, isFormula, use⟩
  rcases List.mem_flatMap.mp use with ⟨lit, isLiteral, use⟩
  rw [← same, ← kind]
  exact ((renders.proper f isFormula).literals lit isLiteral).use use

theorem readInput_freshName {input : Text} {clauses : List Clause} {env : Env}
    (run : readInput input = .ok (clauses, env)) {info : SymbolInfo}
    (member : info ∈ env.bank.symbols.infos) {k : Nat} (name : info.name = freshName k) :
    info.kind ≠ .kVariable := by
  intro isVariable
  have upper := (readInput_names run member).2.mpr isVariable
  rw [name] at upper
  cases upper

end AtpEngine
