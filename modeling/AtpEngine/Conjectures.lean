import AtpEngine.ParserExact

/-!
What prepareForProving makes of conjectures. It collects the clauses of every
entry whatever its role, so a conjecture is added and not negated. The prepared
clauses then decide whether the conjecture follows only where that is no matter:
from contradictory premises, or when the conjecture is independent of them.
-/
namespace AtpEngine

open Fuelled ClauseLogic

universe u

variable {D : Type u}

def AnnotatedFormula.Holds (af : AnnotatedFormula) (bank : TermBank) (I : Interpretation Nat D) :
    Prop :=
  ∀ c ∈ af.clauses, I.Models (bank.read c.literals)

namespace ParsedProblem

variable (problem : ParsedProblem) (bank : TermBank)

def PremisesHold (I : Interpretation Nat D) : Prop :=
  ∀ af ∈ problem.formulas, af.role ≠ .kConjecture → af.Holds bank I

def ConjecturesHold (I : Interpretation Nat D) : Prop :=
  ∀ af ∈ problem.formulas, af.role = .kConjecture → af.Holds bank I

def Entailed : Prop :=
  ∀ (D : Type u) [Nonempty D] (I : Interpretation Nat D),
    problem.PremisesHold bank I → problem.ConjecturesHold bank I

def Contradictory : Prop :=
  ∀ (D : Type u) [Nonempty D] (I : Interpretation Nat D), ¬ problem.PremisesHold bank I

/-- The conjectures are true in some models of the other entries, and false in some. -/
def Independent : Prop :=
  (∃ (D : Type u) (_ : Nonempty D) (I : Interpretation Nat D),
    problem.PremisesHold bank I ∧ problem.ConjecturesHold bank I) ∧
  ∃ (D : Type u) (_ : Nonempty D) (I : Interpretation Nat D),
    problem.PremisesHold bank I ∧ ¬ problem.ConjecturesHold bank I

variable {problem bank}

theorem prepared_models (cnf : ∀ af ∈ problem.formulas, af.isCnf = true)
    (I : Interpretation Nat D) :
    (∀ lits ∈ bank.readAll {c | c ∈ prepareForProving problem}, I.Models lits) ↔
      problem.PremisesHold bank I ∧ problem.ConjecturesHold bank I := by
  have all : (∀ lits ∈ bank.readAll {c | c ∈ prepareForProving problem}, I.Models lits) ↔
      ∀ af ∈ problem.formulas, af.Holds bank I := by
    constructor
    · intro models af inside c member
      refine models _ ⟨_,
        List.mem_flatMap.mpr ⟨af, List.mem_filter.mpr ⟨inside, cnf af inside⟩,
        List.mem_map.mpr ⟨c, member, rfl⟩⟩, rfl⟩
    · rintro holds _ ⟨_, prepared, rfl⟩
      rcases List.mem_flatMap.mp prepared with ⟨af, inside, member⟩
      rcases List.mem_map.mp member with ⟨c, clause, rfl⟩
      exact holds af (List.mem_filter.mp inside).1 c clause
  rw [all]
  constructor
  · exact fun holds => ⟨fun af inside _ => holds af inside, fun af inside _ => holds af inside⟩
  · rintro ⟨premises, conjectures⟩ af inside
    by_cases role : af.role = .kConjecture
    · exact conjectures af inside role
    · exact premises af inside role

theorem prepared_satisfiable (cnf : ∀ af ∈ problem.formulas, af.isCnf = true) :
    Satisfiable.{u} (bank.readAll {c | c ∈ prepareForProving problem}) ↔
      ∃ (D : Type u) (_ : Nonempty D) (I : Interpretation Nat D),
        problem.PremisesHold bank I ∧ problem.ConjecturesHold bank I := by
  constructor
  · rintro ⟨D, inhabited, I, models⟩
    exact ⟨D, inhabited, I, (prepared_models cnf I).mp models⟩
  · rintro ⟨D, inhabited, I, holds⟩
    exact ⟨D, inhabited, I, (prepared_models cnf I).mpr holds⟩

end ParsedProblem

/-- The parser accepts cnf entries only. -/
theorem parseTptpString_cnf {input : Text} {problem : ParsedProblem} {bank : TermBank}
    (run : parseTptpString input = .ok (problem, bank)) :
    ∀ af ∈ problem.formulas, af.isCnf = true := by
  have sound := parseTptpString_sound input
  rw [run] at sound
  rcases sound with ⟨formulas, _, _, _, _, reads⟩
  intro af inside
  rcases forall₂_mem_right reads inside with ⟨f, _, read⟩
  exact read.isCnf

/-- The prepared clauses are unsatisfiable exactly when the conjectures follow, if
and only if the premises are contradictory or leave the conjectures open. -/
theorem prepare_exact {input : Text} {problem : ParsedProblem} {bank : TermBank}
    (run : parseTptpString input = .ok (problem, bank)) :
    (¬ Satisfiable.{u} (bank.readAll {c | c ∈ prepareForProving problem}) ↔
        ParsedProblem.Entailed.{u} problem bank) ↔
      ParsedProblem.Contradictory.{u} problem bank ∨
      ParsedProblem.Independent.{u} problem bank := by
  rw [ParsedProblem.prepared_satisfiable (parseTptpString_cnf run)]
  constructor
  · intro same
    by_cases satisfied : ∃ (D : Type u) (_ : Nonempty D) (I : Interpretation Nat D),
        problem.PremisesHold bank I ∧ problem.ConjecturesHold bank I
    · -- some model has the conjectures true, so they may not follow
      have notEntailed : ¬ ParsedProblem.Entailed.{u} problem bank := fun entailed =>
        same.mpr entailed satisfied
      simp only [ParsedProblem.Entailed, not_forall] at notEntailed
      rcases notEntailed with ⟨D, inhabited, I, premises, fails⟩
      exact Or.inr ⟨satisfied, D, inhabited, I, premises, fails⟩
    · -- no model has the premises and the conjectures, and these follow
      refine Or.inl fun D inhabited I premises => ?_
      exact satisfied ⟨D, inhabited, I, premises, same.mp satisfied D I premises⟩
  · rintro (contradictory | ⟨satisfied, D, inhabited, I, premises, fails⟩)
    · constructor
      · exact fun _ D inhabited I premises => absurd premises (contradictory D I)
      · rintro _ ⟨D, inhabited, I, premises, _⟩
        exact contradictory D I premises
    · constructor
      · exact fun unsatisfied => absurd satisfied unsatisfied
      · exact fun entailed => absurd (entailed D I premises) fails

def conjectureInput : Text := "cnf(a,axiom,p(a)). cnf(c,conjecture,p(a)).".toList

def conjectureBank : TermBank where
  symbols := {
    infos := [⟨['a'], .kConstant, 0, 0⟩, ⟨['p'], .kFunction, 1, 0⟩]
    nameToId := [(['p'], 1), (['a'], 0)] }
  terms := [⟨0, []⟩, ⟨1, [0]⟩]
  termToId := [(⟨1, [0]⟩, 1), (⟨0, []⟩, 0)]

def conjectureProblem : ParsedProblem where
  formulas := [⟨['a'], .kAxiom, [{ literals := [⟨1, true⟩] }], true⟩,
    ⟨['c'], .kConjecture, [{ literals := [⟨1, true⟩] }], true⟩]

theorem conjecture_read :
    parseTptpString conjectureInput = .ok (conjectureProblem, conjectureBank) := by
  decide +kernel

/-- The conjecture follows, and the prepared clauses have a model. -/
theorem conjecture_not_negated :
    parseTptpString conjectureInput = .ok (conjectureProblem, conjectureBank) ∧
    (∃ af ∈ conjectureProblem.formulas, af.role = .kConjecture) ∧
    ¬ (¬ Satisfiable.{0}
      (conjectureBank.readAll {c | c ∈ prepareForProving conjectureProblem}) ↔
      ParsedProblem.Entailed.{0} conjectureProblem conjectureBank) := by
  refine ⟨conjecture_read, ⟨_, List.mem_cons_of_mem _ List.mem_cons_self, rfl⟩,
    fun same => ?_⟩
  have entailed : ParsedProblem.Entailed.{0} conjectureProblem conjectureBank := by
    intro D _ I premises af inside role c member
    rcases List.mem_pair.mp inside with rfl | rfl
    · cases role
    · exact premises _ List.mem_cons_self (by decide) c member
  refine same.mpr entailed ⟨Unit, ⟨()⟩, ⟨fun _ _ => (), fun _ => True⟩, ?_⟩
  rintro _ ⟨c, prepared, rfl⟩ assign
  have literals : c.literals = [⟨1, true⟩] := by
    rcases List.mem_pair.mp prepared with rfl | rfl <;> rfl
  rw [literals]
  exact ⟨_, List.mem_cons_self, litHolds_pos.mpr trivial⟩

def openInput : Text := "cnf(a,axiom,p). cnf(c,conjecture,q).".toList

def openBank : TermBank where
  symbols := {
    infos := [⟨['p'], .kConstant, 0, 0⟩, ⟨['q'], .kConstant, 0, 0⟩]
    nameToId := [(['q'], 1), (['p'], 0)] }
  terms := [⟨0, []⟩, ⟨1, []⟩]
  termToId := [(⟨1, []⟩, 1), (⟨0, []⟩, 0)]

def openProblem : ParsedProblem where
  formulas := [⟨['a'], .kAxiom, [{ literals := [⟨0, true⟩] }], true⟩,
    ⟨['c'], .kConjecture, [{ literals := [⟨1, true⟩] }], true⟩]

/-- The symbols as their own values, with some of them true. -/
def symbolModel (truth : Nat → Prop) : Interpretation Nat Nat :=
  ⟨fun symbol _ => symbol, truth⟩

theorem openProblem_holds (truth : Nat → Prop) :
    (openProblem.PremisesHold openBank (symbolModel truth) ↔ truth 0) ∧
    (openProblem.ConjecturesHold openBank (symbolModel truth) ↔ truth 1) := by
  have atom : ∀ id symbol, openBank.tree id = .node symbol [] →
      ((symbolModel truth).Models (openBank.read [⟨id, true⟩]) ↔ truth symbol) := by
    intro id symbol tree
    simp [Interpretation.Models, Interpretation.Satisfies, TermBank.read, LitHolds,
      tree, symbolModel]
  rw [← atom 0 0 rfl, ← atom 1 1 rfl]
  simp [ParsedProblem.PremisesHold, ParsedProblem.ConjecturesHold, openProblem,
    AnnotatedFormula.Holds]

theorem prepare_exact_sample :
    parseTptpString openInput = .ok (openProblem, openBank) ∧
    (¬ Satisfiable.{0} (openBank.readAll {c | c ∈ prepareForProving openProblem}) ↔
      ParsedProblem.Entailed.{0} openProblem openBank) := by
  have read : parseTptpString openInput = .ok (openProblem, openBank) := by decide +kernel
  refine ⟨read, (prepare_exact read).mpr (Or.inr ⟨?_, ?_⟩)⟩
  · rcases openProblem_holds fun _ => True with ⟨premises, conjectures⟩
    exact ⟨Nat, ⟨0⟩, _, premises.mpr trivial, conjectures.mpr trivial⟩
  · rcases openProblem_holds fun symbol => symbol = 0 with ⟨premises, conjectures⟩
    refine ⟨Nat, ⟨0⟩, _, premises.mpr rfl, fun holds => ?_⟩
    exact absurd (conjectures.mp holds) Nat.one_ne_zero

end AtpEngine
