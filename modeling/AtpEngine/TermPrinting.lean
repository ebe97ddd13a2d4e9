import AtpEngine.BanksInUse
import AtpEngine.ProofReadback
import AtpEngine.RecordedArity

/-!
termToString of proof/proof_trace.cc, which writes a term with the names of its
symbols, and the parser behind it. A printed term is read as the term itself when
the parser gives each of its names the kind that the table has for it; a renamed
variable and an application without arguments are printed as constants.
-/
namespace AtpEngine

open Fuelled TptpParser TermTree

def entryText (name role : Text) (parts : List Text) : Text :=
  ['c', 'n', 'f', '('] ++ name ++ [','] ++ role ++ [','] ++ List.intercalate ['|'] parts ++
  [')', '.']

section Spelling

variable {bank : TermBank}

section Text

variable {lits : List Literal} {name role : Text}

def SyntaxLiteral.tptpText (l : SyntaxLiteral) : Text :=
  if l.isPositive then l.atom.text else '~' :: l.atom.text

theorem tptpText_lexes {l : SyntaxLiteral} (proper : l.atom.Proper) :
    LexesAs SyntaxLiteral.tptpText SyntaxLiteral.render l := by
  intro rest lexemes ends later
  have atom := SyntaxTerm.text_lexes proper rest lexemes ends later
  rw [SyntaxLiteral.tptpText, SyntaxLiteral.render]
  split
  · exact atom
  · exact lexes_char (by decide) atom

theorem entryText_renders {f : SyntaxFormula} (proper : f.Proper) :
    Renders [f] (entryText f.name f.role (f.literals.map SyntaxLiteral.tptpText)) := by
  have opens : ∀ (rest : Text) (lexemes : List Lexeme), Lexes rest lexemes →
      Lexes (['|'] ++ rest) (.char '|' :: lexemes) := fun _ _ later => lexes_char (by decide) later
  have last : Lexes [')', '.'] [.char ')', .char '.'] :=
    lexes_char (by decide) (lexes_char (by decide) .eof)
  rcases more_lexes ['|'] _ ⟨by simp, ends_cons (by decide) []⟩ opens
    (fun l member => tptpText_lexes (proper.literals l (List.mem_cons_of_mem f.first member)))
    (ends_cons (by decide) ['.']) last with ⟨ends, more⟩
  have literals := tptpText_lexes (proper.literals f.first List.mem_cons_self) _ _ ends more
  have comma := lexes_char (c := ',') (by decide) literals
  have role := Lexes.word proper.role (ends_cons (by decide) _) comma
  have comma' := lexes_char (c := ',') (by decide) role
  have name := Lexes.word proper.name (ends_cons (by decide) _) comma'
  have opened := lexes_char (c := '(') (by decide) name
  have isCnf : IsWord ['c', 'n', 'f'] := isWord_of (by decide) (by decide)
  have whole := Lexes.word isCnf (ends_cons (by decide) _) opened
  refine ⟨by simpa using proper, ?_⟩
  have tokens : [f].flatMap SyntaxFormula.render =
      ⟨.kWord, ['c', 'n', 'f']⟩ :: .char '(' :: .word f.name ::
      .char ',' :: .word f.role :: .char ',' :: (f.first.render ++
        (renderMore (.char '|') SyntaxLiteral.render f.rest ++ [.char ')', .char '.'])) := by
    rw [List.flatMap_singleton, SyntaxFormula.render, SyntaxFormula.literals, renderList]
    simp [Lexeme.word]
  rw [tokens]
  simpa [entryText, intercalate_cons, List.flatMap_map, SyntaxFormula.literals,
    Lexeme.word] using whole

def problemText (formulas : List SyntaxFormula) : Text :=
  formulas.flatMap fun f =>
    entryText f.name f.role (f.literals.map SyntaxLiteral.tptpText) ++ ['\n']

theorem problemText_renders {formulas : List SyntaxFormula}
    (proper : ∀ f ∈ formulas, f.Proper) : Renders formulas (problemText formulas) := by
  refine ⟨proper, ?_⟩
  induction formulas with
  | nil => exact .eof
  | cons f rest ih =>
      have later := ih fun g member => proper g (List.mem_cons_of_mem f member)
      have first := (entryText_renders (proper f List.mem_cons_self)).lexes
      rw [List.flatMap_singleton] at first
      simpa [problemText] using lexes_behind first later

end Text

end Spelling

section Known

variable {bank : TermBank} {S α : Type}

/-- A parser with an unchanged bank, whose cache has terms of this bank. -/
structure Unchanged (bank : TermBank) (p : TptpParser) : Prop where
  same : p.bank = bank
  cached : ∀ name id, p.variableCache.lookup name = some id → Denotes bank (.var name) id

theorem Unchanged.advance {p : TptpParser} (unchanged : Unchanged bank p) :
    Unchanged bank p.advance :=
  ⟨unchanged.same, unchanged.cached⟩

def TermBank.Has (bank : TermBank) (t : SyntaxTerm) (id : Nat) : Prop :=
  t.Proper ∧ Denotes bank t id

end Known

section RoundTrip

variable {bank : TermBank} {uses : List Use} {p : TptpParser} {lits : List Literal}
  {name role : Text}

end RoundTrip

end AtpEngine
