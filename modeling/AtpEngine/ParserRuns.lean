import AtpEngine.ParserExact
import AtpEngine.RefutationSoundness
import AtpEngine.TautologyExact

/-!
How runs of the parser compose. A run sees the input only through its tokens and the
bank only through the symbols and terms it asks for; so two parsers stay in step that
are in front of the same tokens and get the same ids. Inputs with the same tokens are
read alike, an input behind another one is read into the bank that the first one
left, and a bank that holds an input already is not changed by it.
-/
namespace AtpEngine

open Fuelled TptpParser

section Inversion

variable {fuel : Nat} {p p' : TptpParser}

theorem expect_ok {type : TokenType} :
    p.expect type = .ok p' ↔ p.currentToken.type = type ∧ p.advance = p' := by
  rw [expect]
  split
  · next other => simp [other]
  · next same => simp [not_not.mp same]

theorem moreAfter_ok {α : Type} {sep : TokenType}
    {item : TptpParser → Except Fault (α × TptpParser)} {items : List α} :
    moreAfter sep item (fuel + 1) p = .ok (items, p') ↔
      (p.currentToken.type = sep ∧ ∃ a m rest, item p.advance = .ok (a, m) ∧
        moreAfter sep item fuel m = .ok (rest, p') ∧ items = a :: rest) ∨
      (p.currentToken.type ≠ sep ∧ items = [] ∧ p' = p) := by
  rw [moreAfter]
  by_cases more : p.currentToken.type = sep
  · simp only [more, if_true, bind_ok_iff, Prod.exists, pure_ok_iff, Prod.mk.injEq,
      true_and, ne_eq, not_true_eq_false, false_and, or_false]
    constructor
    · rintro ⟨a, m, first, rest, _, later, rfl, rfl⟩
      exact ⟨a, m, rest, first, later, rfl⟩
    · rintro ⟨a, m, rest, first, later, rfl⟩
      exact ⟨a, m, first, rest, _, later, rfl, rfl⟩
  · simp only [more, if_false, pure_ok_iff, Prod.mk.injEq, false_and, ne_eq,
      not_false_eq_true, true_and, false_or]
    exact ⟨fun h => ⟨h.1.symm, h.2.symm⟩, fun h => ⟨h.1.symm, h.2.symm⟩⟩

/-- What a returning call of `parseTerm` has done, by the branches of the source. -/
inductive TermRun (fuel : Nat) (p : TptpParser) (id : Nat) (p' : TptpParser) : Prop where
  | var : p.currentToken.type = .kWord → p.currentToken.value.head?.any Char.isUpper = true →
      p.advance.makeVariable p.currentToken.value = .ok (id, p') → TermRun fuel p id p'
  | application {first : Nat} {rest : List Nat} {m q : TptpParser} :
      p.currentToken.type = .kWord →
      p.currentToken.value.head?.any Char.isUpper = false →
      p.advance.currentToken.type = .kLParen →
      p.advance.advance.currentToken.type ≠ .kRParen →
      parseTerm fuel p.advance.advance = .ok (first, m) →
      moreAfter .kComma (parseTerm fuel) fuel m = .ok (rest, q) →
      q.currentToken.type = .kRParen →
      q.advance.makeSymbolTerm p.currentToken.value .kFunction (first :: rest) = .ok (id, p') →
      TermRun fuel p id p'
  | nullary : p.currentToken.type = .kWord →
      p.currentToken.value.head?.any Char.isUpper = false →
      p.advance.currentToken.type = .kLParen → p.advance.advance.currentToken.type = .kRParen →
      p.advance.advance.advance.makeSymbolTerm p.currentToken.value .kFunction [] = .ok (id, p') →
      TermRun fuel p id p'
  | constant : p.currentToken.type = .kWord →
      p.currentToken.value.head?.any Char.isUpper = false →
      p.advance.currentToken.type ≠ .kLParen →
      p.advance.makeSymbolTerm p.currentToken.value .kConstant [] = .ok (id, p') →
      TermRun fuel p id p'

theorem parseTerm_ok {id : Nat} :
    parseTerm (fuel + 1) p = .ok (id, p') ↔ TermRun fuel p id p' := by
  rw [parseTerm]
  by_cases word : p.currentToken.type = .kWord
  · rw [if_neg (not_not.mpr word)]
    dsimp only
    by_cases upper : p.currentToken.value.head?.any Char.isUpper = true
    · rw [if_pos upper]
      refine ⟨.var word upper, fun run => ?_⟩
      cases run with
      | var _ _ made => exact made
      | application _ lower => rw [upper] at lower; cases lower
      | nullary _ lower => rw [upper] at lower; cases lower
      | constant _ lower => rw [upper] at lower; cases lower
    · rw [if_neg upper]
      have lower := eq_false_of_ne_true upper
      by_cases paren : p.advance.currentToken.type = .kLParen
      · rw [if_pos paren]
        by_cases none : p.advance.advance.currentToken.type = .kRParen
        · simp only [none, ne_eq, not_true_eq_false, if_false, bind_ok_iff, expect_ok, true_and,
            exists_eq_left']
          refine ⟨.nullary word lower paren none, fun run => ?_⟩
          cases run with
          | var _ upper' => exact absurd upper' upper
          | application _ _ _ some => exact absurd none some
          | nullary _ _ _ _ made => exact made
          | constant _ _ other => exact absurd paren other
        · simp only [none, ne_eq, not_false_eq_true, if_true, bind_ok_iff, Prod.exists, expect_ok]
          constructor
          · rintro ⟨first, m, parsed, rest, q, more, _, ⟨closed, rfl⟩, made⟩
            exact .application word lower paren none parsed more closed made
          · intro run
            cases run with
            | var _ upper' => exact absurd upper' upper
            | application _ _ _ _ parsed more closed made =>
                exact ⟨_, _, parsed, _, _, more, _, ⟨closed, rfl⟩, made⟩
            | nullary _ _ _ some => exact absurd some none
            | constant _ _ other => exact absurd paren other
      · rw [if_neg paren]
        refine ⟨.constant word lower paren, fun run => ?_⟩
        cases run with
        | var _ upper' => exact absurd upper' upper
        | application _ _ paren' => exact absurd paren' paren
        | nullary _ _ paren' => exact absurd paren' paren
        | constant _ _ _ made => exact made
  · rw [if_pos word]
    refine ⟨fun run => (by cases run), fun run => absurd ?_ word⟩
    cases run <;> assumption

theorem parseTerm_word {id : Nat} (run : parseTerm fuel p = .ok (id, p')) :
    p.currentToken.type = .kWord := by
  cases fuel with
  | zero => cases run
  | succ fuel => cases parseTerm_ok.mp run <;> assumption

theorem parseLiteral_ok {lit : Literal} : parseLiteral fuel p = .ok (lit, p') ↔
    parseTerm fuel (if p.currentToken.type = .kNot then p.advance else p) = .ok (lit.atom, p') ∧
      lit.isPositive = decide (p.currentToken.type ≠ .kNot) := by
  rw [parseLiteral]
  simp only [bind_ok_iff, Prod.exists, pure_ok_iff, Prod.mk.injEq]
  constructor
  · rintro ⟨atom, _, run, rfl, rfl⟩
    exact ⟨run, rfl⟩
  · rintro ⟨run, polarity⟩
    exact ⟨_, _, run, by rw [← polarity], rfl⟩

structure CnfRun (fuel : Nat) (p : TptpParser) (af : AnnotatedFormula) (lit : Literal)
    (lits : List Literal) (m q : TptpParser) : Prop where
  opened : p.currentToken.type = .kLParen
  name : p.advance.currentToken.type = .kWord
  comma : p.advance.advance.currentToken.type = .kComma
  role : p.advance.advance.advance.currentToken.type = .kWord
  comma' : p.advance.advance.advance.advance.currentToken.type = .kComma
  first : parseLiteral fuel p.advance.advance.advance.advance.advance = .ok (lit, m)
  rest : moreAfter .kOr (parseLiteral fuel) fuel m = .ok (lits, q)
  closed : q.currentToken.type = .kRParen
  dot : q.advance.currentToken.type = .kDot
  entry :
    af = ⟨p.advance.currentToken.value, parseRole p.advance.advance.advance.currentToken.value,
    [{ literals := lit :: lits }], true⟩

theorem parseCnf_ok {af : AnnotatedFormula} : parseCnf fuel p = .ok (af, p') ↔
    ∃ first rest m q, CnfRun fuel p af first rest m q ∧
      p' = { q.advance.advance with variableCache := [] } := by
  rw [parseCnf]
  simp only [bind_ok_iff, Prod.exists, expect_ok, pure_ok_iff, Prod.mk.injEq]
  constructor
  · rintro ⟨_, ⟨h1, rfl⟩, _, ⟨h2, rfl⟩, _, ⟨h3, rfl⟩, _, ⟨h4, rfl⟩, _,
      ⟨h5, rfl⟩, first, m, run, rest, q, more, _, ⟨h6, rfl⟩, _, ⟨h7, rfl⟩, rfl, rfl⟩
    exact ⟨first, rest, m, q, ⟨h1, h2, h3, h4, h5, run, more, h6, h7, rfl⟩, rfl⟩
  · rintro ⟨first, rest, m, q, ⟨h1, h2, h3, h4, h5, run, more, h6, h7, rfl⟩, rfl⟩
    exact ⟨_, ⟨h1, rfl⟩, _, ⟨h2, rfl⟩, _, ⟨h3, rfl⟩, _, ⟨h4, rfl⟩, _,
      ⟨h5, rfl⟩, first, m, run, rest, q, more, _, ⟨h6, rfl⟩, _, ⟨h7, rfl⟩, rfl, rfl⟩

theorem parseProblem_ok {afs : List AnnotatedFormula} :
    parseProblem (fuel + 1) p = .ok (afs, p') ↔
    (p.currentToken.type = .kEOF ∧ afs = [] ∧ p' = p) ∨
    (p.currentToken.type = .kWord ∧ p.currentToken.value = "cnf".toList ∧ ∃ af m rest,
      parseCnf fuel p.advance = .ok (af, m) ∧ parseProblem fuel m = .ok (rest, p') ∧
      afs = af :: rest) := by
  rw [parseProblem]
  by_cases eof : p.currentToken.type = .kEOF
  · simp only [eof, if_true, Except.ok.injEq, Prod.mk.injEq, true_and, reduceCtorEq,
      false_and, or_false]
    exact ⟨fun h => ⟨h.1.symm, h.2.symm⟩, fun h => ⟨h.1.symm, h.2.symm⟩⟩
  rw [if_neg eof]
  by_cases cnf : p.currentToken.type = .kWord ∧ p.currentToken.value = "cnf".toList
  · rw [if_pos cnf]
    simp only [bind_ok_iff, Prod.exists, pure_ok_iff, Prod.mk.injEq]
    constructor
    · rintro ⟨af, m, first, rest, _, later, rfl, rfl⟩
      exact Or.inr ⟨cnf.1, cnf.2, af, m, rest, first, later, rfl⟩
    · rintro (⟨eof', _⟩ | ⟨_, _, af, m, rest, first, later, rfl⟩)
      · exact absurd eof' eof
      · exact ⟨af, m, first, rest, _, later, rfl, rfl⟩
  · rw [if_neg cnf]
    refine ⟨fun run => ?_, ?_⟩
    · split at run <;> cases run
    · rintro (⟨eof', _⟩ | ⟨word, value, _⟩)
      · exact absurd eof' eof
      · exact absurd ⟨word, value⟩ cnf

end Inversion

section Keeping

/-- A property of parsers that no token and no new term takes away. -/
structure Steady (P : TptpParser → Prop) : Prop where
  advance : ∀ {p : TptpParser}, P p → P p.advance
  made : ∀ {p p' : TptpParser} {name : Text} {kind : SymbolKind} {args : List Nat} {id : Nat},
    P p → p.makeSymbolTerm name kind args = .ok (id, p') → P p'
  cached : ∀ {p : TptpParser} (cache : List (Text × Nat)), P p →
    P { p with variableCache := cache }

def StaysWith {α : Type} (P : TptpParser → Prop)
    (item : TptpParser → Except Fault (α × TptpParser)) : Prop :=
  ∀ p a p', P p → item p = .ok (a, p') → P p'

variable {P : TptpParser → Prop} (steady : Steady P)

include steady

theorem moreAfter_steady {α : Type} {sep : TokenType}
    {item : TptpParser → Except Fault (α × TptpParser)} (each : StaysWith P item) (fuel : Nat) :
    StaysWith P (moreAfter sep item fuel) := by
  induction fuel with
  | zero => exact fun _ _ _ _ run => by cases run
  | succ fuel ih =>
      intro p items p' holds run
      rcases moreAfter_ok.mp run with ⟨_, a, m, rest, first, later, _⟩ | ⟨_, _, rfl⟩
      · exact ih m rest p' (each _ a m (steady.advance holds) first) later
      · exact holds

theorem makeVariable_steady (name : Text) : StaysWith P fun p => p.makeVariable name := by
  intro p id p' holds run
  simp only [makeVariable] at run
  split at run
  · rcases Prod.mk.inj (Except.ok.inj run) with ⟨rfl, rfl⟩
    exact holds
  · rcases bind_ok_iff.mp run with ⟨⟨_, m⟩, made, same⟩
    rcases Prod.mk.inj (pure_ok_iff.mp same) with ⟨rfl, rfl⟩
    exact steady.cached _ (steady.made holds made)

theorem parseTerm_steady (fuel : Nat) : StaysWith P (parseTerm fuel) := by
  induction fuel with
  | zero => exact fun _ _ _ _ run => by cases run
  | succ fuel ih =>
      intro p id p' holds run
      have behind := steady.advance holds
      cases parseTerm_ok.mp run with
      | var _ _ made => exact makeVariable_steady steady _ _ _ _ behind made
      | application _ _ _ _ parsed more _ made =>
          have args :=
            moreAfter_steady steady ih fuel _ _ _ (ih _ _ _ (steady.advance behind) parsed) more
          exact steady.made (steady.advance args) made
      | nullary _ _ _ _ made => exact steady.made (steady.advance (steady.advance behind)) made
      | constant _ _ _ made => exact steady.made behind made

theorem parseLiteral_steady (fuel : Nat) : StaysWith P (parseLiteral fuel) := by
  intro p lit p' holds run
  refine parseTerm_steady steady fuel _ _ _ ?_ (parseLiteral_ok.mp run).1
  split
  · exact steady.advance holds
  · exact holds

theorem parseCnf_steady (fuel : Nat) : StaysWith P (parseCnf fuel) := by
  intro p af p' holds run
  rcases parseCnf_ok.mp run with ⟨lit, lits, m, q, parts, rfl⟩
  have inside :=
    steady.advance (steady.advance (steady.advance (steady.advance (steady.advance holds))))
  have literals := moreAfter_steady steady (parseLiteral_steady steady fuel) fuel _ _ _
    (parseLiteral_steady steady fuel _ _ _ inside parts.first) parts.rest
  exact steady.cached [] (steady.advance (steady.advance literals))

theorem parseProblem_steady (fuel : Nat) : StaysWith P (parseProblem fuel) := by
  induction fuel with
  | zero => exact fun _ _ _ _ run => by cases run
  | succ fuel ih =>
      intro p afs p' holds run
      rcases parseProblem_ok.mp run with ⟨_, _, rfl⟩ | ⟨_, _, af, m, rest, first, later, _⟩
      · exact holds
      · exact ih m rest p' (parseCnf_steady steady fuel _ _ _ (steady.advance holds) first) later

end Keeping

section Lockstep

/-- The bank after interning a symbol and making a term of it. -/
def TermBank.symbolTerm (bank : TermBank) (name : Text) (kind : SymbolKind) (args : List Nat) :
    Except Fault (Nat × TermBank) := do
  let (sym, symbols) ← bank.symbols.intern name kind (toUInt16 args.length)
  pure ({ bank with symbols }.makeTerm sym args)

theorem makeSymbolTerm_ok_iff {p p' : TptpParser} {name : Text} {kind : SymbolKind}
    {args : List Nat} {id : Nat} : p.makeSymbolTerm name kind args = .ok (id, p') ↔
      ∃ bank, p.bank.symbolTerm name kind args = .ok (id, bank) ∧ p' = { p with bank } := by
  rw [makeSymbolTerm, TermBank.symbolTerm]
  simp only [bind_ok_iff, Prod.exists, pure_ok_iff, Prod.mk.injEq]
  constructor
  · rintro ⟨sym, symbols, interned, rfl, rfl⟩
    exact ⟨_, ⟨sym, symbols, interned, rfl⟩, rfl⟩
  · rintro ⟨bank, ⟨sym, symbols, interned, made⟩, rfl⟩
    rcases Prod.mk.inj made with ⟨rfl, rfl⟩
    exact ⟨sym, symbols, interned, rfl, rfl⟩

/-- Banks in which the same requests get the same ids, as long as the first of them
stays within `Q`. -/
structure SameAnswers (B : TermBank → TermBank → Prop) (Q : TermBank → Prop) : Prop where
  step : ∀ {x y x' : TermBank} {name : Text} {kind : SymbolKind} {args : List Nat} {id : Nat},
    B x y → x.symbolTerm name kind args = .ok (id, x') → Q x' →
    ∃ y', y.symbolTerm name kind args = .ok (id, y') ∧ B x' y'
  before : ∀ {x x' : TermBank}, x.Extends x' → Q x' → Q x

/-- Two parsers in front of the same tokens, behind which the second one has `more`. -/
structure InStep (B : TermBank → TermBank → Prop) (more lexemes : List Lexeme)
    (p q : TptpParser) :
    Prop where
  left : p.At lexemes
  right : q.At (lexemes ++ more)
  banks : B p.bank q.bank
  caches : p.variableCache = q.variableCache

variable {B : TermBank → TermBank → Prop} {Q : TermBank → Prop} {more lexemes : List Lexeme}
  {p p' q : TptpParser}

theorem at_end_steady : Steady fun p => p.At [] :=
  ⟨fun ended => ended.advance, fun ended made => by
    rcases makeSymbolTerm_ok_iff.mp made with ⟨bank, _, rfl⟩
    exact ended.same rfl rfl, fun _ ended => ended.same rfl rfl⟩

theorem standing_steady : Steady fun p => ∃ lexemes, p.At lexemes :=
  ⟨fun ⟨_, standing⟩ => ⟨_, standing.advance⟩, fun ⟨lexemes, standing⟩ made => by
    rcases makeSymbolTerm_ok_iff.mp made with ⟨bank, _, rfl⟩
    exact ⟨lexemes, standing.same rfl rfl⟩, fun _ ⟨lexemes, standing⟩ =>
      ⟨lexemes, standing.same rfl rfl⟩⟩

theorem TptpParser.At.ended (standing : p.At lexemes) (eof : p.currentToken.type = .kEOF) :
    lexemes = [] := by
  cases lexemes with
  | nil => rfl
  | cons lexeme rest =>
      exact absurd (standing.head.1.symm.trans eof) (standing.proper _ List.mem_cons_self).ne_eof

theorem symbolTerm_extends {bank bank' : TermBank} {name : Text} {kind : SymbolKind}
    {args : List Nat} {id : Nat} (run : bank.symbolTerm name kind args = .ok (id, bank')) :
    bank.Extends bank' := by
  rcases bind_ok_iff.mp run with ⟨⟨sym, symbols⟩, interned, made⟩
  have same : ({ bank with symbols } : TermBank).makeTerm sym args = (id, bank') :=
    pure_ok_iff.mp made
  have grown : TermBank.Extends { bank with symbols } bank' := by
    rw [show bank' = (({ bank with symbols } : TermBank).makeTerm sym args).2 by rw [same]]
    exact TermBank.makeTerm_extends _ sym args
  exact ⟨grown.terms, (SymbolTable.intern_prefix interned).trans grown.infos⟩

theorem extends_steady (bank : TermBank) : Steady fun p => bank.Extends p.bank :=
  ⟨fun grows => grows, fun grows made => by
    rcases makeSymbolTerm_ok_iff.mp made with ⟨bank', run, rfl⟩
    exact grows.trans (symbolTerm_extends run), fun _ grows => grows⟩

theorem InStep.token (inStep : InStep B more lexemes p q)
    (within : more = [] ∨ p.currentToken.type ≠ .kEOF) :
    q.currentToken.type = p.currentToken.type ∧ q.currentToken.value = p.currentToken.value := by
  cases lexemes with
  | nil =>
      rcases within.resolve_right (not_not.mpr inStep.left.nil) with rfl
      exact Lexeme.mk.inj (inStep.right.current.trans inStep.left.current.symm)
  | cons lexeme rest =>
      have right : q.At (lexeme :: (rest ++ more)) := inStep.right
      exact ⟨right.head.1.trans inStep.left.head.1.symm,
        right.head.2.trans inStep.left.head.2.symm⟩

theorem InStep.advance (inStep : InStep B more lexemes p q)
    (within : p.currentToken.type ≠ .kEOF) :
    ∃ rest, lexemes.length = rest.length + 1 ∧ InStep B more rest p.advance q.advance := by
  rcases inStep.left.cons within with ⟨lexeme, rest, rfl, _⟩
  have right : q.At (lexeme :: (rest ++ more)) := inStep.right
  exact ⟨rest, rfl, inStep.left.step, right.step, inStep.banks, inStep.caches⟩

theorem within_before {α : Type} {item : TptpParser → Except Fault (α × TptpParser)} {a : α}
    (keeps : StaysWith (fun p => p.At []) item) (standing : p.At lexemes)
    (run : item p = .ok (a, p')) (within : more = [] ∨ p'.currentToken.type ≠ .kEOF) :
    more = [] ∨ p.currentToken.type ≠ .kEOF := by
  refine within.imp_right fun inside eof => inside ?_
  rcases standing.ended eof with rfl
  exact (keeps p a p' standing run).nil

/-- A returning run of the first parser is followed by the second one, unless it stops
at the end of its input. -/
def KeepsStep {α : Type} (B : TermBank → TermBank → Prop) (Q : TermBank → Prop)
    (more : List Lexeme) (item : Nat → TptpParser → Except Fault (α × TptpParser))
    (fuel : Nat) : Prop :=
  ∀ lexemes p q a p', InStep B more lexemes p q → item fuel p = .ok (a, p') → Q p'.bank →
    (more = [] ∨ p'.currentToken.type ≠ .kEOF) → ∀ fuel',
    (lexemes ++ more).length < fuel' →
    ∃ q' rest, item fuel' q = .ok (a, q') ∧ InStep B more rest p' q' ∧
      rest.length ≤ lexemes.length

variable (answers : SameAnswers B Q)

include answers

theorem makeSymbolTerm_follows {name : Text} {kind : SymbolKind} {args : List Nat} {id : Nat}
    (inStep : InStep B more lexemes p q) (run : p.makeSymbolTerm name kind args = .ok (id, p'))
    (inside : Q p'.bank) :
    ∃ q', q.makeSymbolTerm name kind args = .ok (id, q') ∧ InStep B more lexemes p' q' := by
  rcases makeSymbolTerm_ok_iff.mp run with ⟨x', made, rfl⟩
  rcases answers.step inStep.banks made inside with ⟨y', made', banks⟩
  exact ⟨_, makeSymbolTerm_ok_iff.mpr ⟨y', made', rfl⟩, inStep.left.same rfl rfl,
    inStep.right.same rfl rfl, banks, inStep.caches⟩

theorem makeVariable_follows {name : Text} {id : Nat} (inStep : InStep B more lexemes p q)
    (run : p.makeVariable name = .ok (id, p')) (inside : Q p'.bank) :
    ∃ q', q.makeVariable name = .ok (id, q') ∧ InStep B more lexemes p' q' := by
  rw [makeVariable] at run ⊢
  rw [← inStep.caches]
  cases cached : p.variableCache.lookup name with
  | some known =>
      rw [cached] at run
      rcases Prod.mk.inj (Except.ok.inj run) with ⟨rfl, rfl⟩
      exact ⟨q, rfl, inStep⟩
  | none =>
      rw [cached] at run
      rcases bind_ok_iff.mp run with ⟨⟨made, m⟩, first, same⟩
      rcases Prod.mk.inj (pure_ok_iff.mp same) with ⟨rfl, rfl⟩
      rcases makeSymbolTerm_follows answers inStep first inside with ⟨n, first', inStep'⟩
      refine ⟨_, bind_ok_iff.mpr ⟨_, first', rfl⟩, inStep'.left.same rfl rfl,
        inStep'.right.same rfl rfl, inStep'.banks, ?_⟩
      dsimp only
      rw [inStep'.caches]

theorem moreAfter_follows {α : Type} {sep : TokenType} (notEnd : sep ≠ .kEOF)
    {item : Nat → TptpParser → Except Fault (α × TptpParser)} {fuel : Nat}
    (each : KeepsStep B Q more item fuel) (keeps : ∀ P, Steady P → StaysWith P (item fuel))
    (turns : Nat) :
    ∀ lexemes p q items p', InStep B more lexemes p q →
      moreAfter sep (item fuel) turns p = .ok (items, p') → Q p'.bank →
      (more = [] ∨ p'.currentToken.type ≠ .kEOF) → ∀ fuel' turns',
      (lexemes ++ more).length < fuel' →
      (lexemes ++ more).length < turns' → ∃ q' rest, moreAfter sep (item fuel') turns' q =
        .ok (items, q') ∧ InStep B more rest p' q' ∧ rest.length ≤ lexemes.length := by
  induction turns with
  | zero => exact fun _ _ _ _ _ _ run => by cases run
  | succ turns ih =>
      intro lexemes p q items p' inStep run inside within fuel' turns' enough enough'
      rcases Nat.exists_eq_succ_of_ne_zero (Nat.ne_of_gt (Nat.zero_lt_of_lt enough')) with
        ⟨turns', rfl⟩
      rcases moreAfter_ok.mp run with ⟨isSep, a, m, rest, first, later, rfl⟩ |
        ⟨notSep, rfl, rfl⟩
      · have open' : p.currentToken.type ≠ .kEOF := isSep ▸ notEnd
        rcases inStep.advance open' with ⟨behind, shorter, inStep1⟩
        have before :=
          answers.before (moreAfter_steady (extends_steady m.bank) (keeps _ (extends_steady m.bank))
          turns m rest p' (TermBank.Extends.refl _) later) inside
        rcases (keeps _ (standing_steady) p.advance a m ⟨_, inStep1.left⟩ first) with
          ⟨_, atM⟩
        have within1 := within_before (moreAfter_steady at_end_steady (keeps _ at_end_steady) turns)
          atM later within
        rcases each _ _ _ _ _ inStep1 first before within1 fuel'
          (by simp only [List.length_append] at enough ⊢; omega) with
          ⟨n, behind', first', inStep2, shorter'⟩
        rcases ih _ _ _ _ _ inStep2 later inside within fuel' turns'
          (by simp only [List.length_append] at enough ⊢; omega)
          (by simp only [List.length_append] at enough' ⊢; omega) with
          ⟨q', behind'', later', inStep3, shorter''⟩
        exact ⟨q', behind'',
          moreAfter_ok.mpr (Or.inl ⟨(inStep.token (Or.inr open')).1.trans isSep, a, n, rest,
          first', later', rfl⟩), inStep3, by omega⟩
      · exact ⟨q, lexemes, moreAfter_ok.mpr (Or.inr ⟨fun isSep => notSep
          ((inStep.token within).1.symm.trans isSep), rfl, rfl⟩), inStep, Nat.le_refl _⟩

theorem parseTerm_follows (fuel : Nat) : KeepsStep B Q more parseTerm fuel := by
  induction fuel with
  | zero => exact fun _ _ _ _ _ _ run => by cases run
  | succ fuel ih =>
      intro lexemes p q id p' inStep run inside within fuel' enough
      rcases Nat.exists_eq_succ_of_ne_zero (Nat.ne_of_gt (Nat.zero_lt_of_lt enough)) with
        ⟨fuel', rfl⟩
      have keeps : ∀ P, Steady P → StaysWith P (parseTerm fuel) :=
        fun P steady => parseTerm_steady steady fuel
      have word := parseTerm_word run
      have open' : p.currentToken.type ≠ .kEOF := by rw [word]; decide
      rcases inStep.token (Or.inr open') with ⟨type, value⟩
      rcases inStep.advance open' with ⟨rest, shorter, inStep1⟩
      cases parseTerm_ok.mp run with
      | var _ upper made =>
          rcases makeVariable_follows answers inStep1 made inside with ⟨q', made', inStep'⟩
          exact ⟨q', rest,
            parseTerm_ok.mpr (.var (type.trans word) (value ▸ upper) (value ▸ made')), inStep',
            by omega⟩
      | constant _ lower noParen made =>
          rcases makeSymbolTerm_ok_iff.mp made with ⟨bank, _, rfl⟩
          rcases makeSymbolTerm_follows answers inStep1 made inside with ⟨q', made', inStep'⟩
          exact ⟨q', rest, parseTerm_ok.mpr (.constant (type.trans word) (value ▸ lower)
            (fun paren => noParen ((inStep1.token within).1.symm.trans paren)) (value ▸ made')),
              inStep', by omega⟩
      | nullary _ lower paren closed made =>
          rcases inStep1.token (Or.inr (by rw [paren]; decide)) with ⟨type1, _⟩
          rcases inStep1.advance (by rw [paren]; decide) with ⟨rest2, shorter2, inStep2⟩
          rcases inStep2.token (Or.inr (by rw [closed]; decide)) with ⟨type2, _⟩
          rcases inStep2.advance (by rw [closed]; decide) with ⟨rest3, shorter3, inStep3⟩
          rcases makeSymbolTerm_follows answers inStep3 made inside with ⟨q', made', inStep'⟩
          exact ⟨q', rest3,
            parseTerm_ok.mpr (.nullary (type.trans word) (value ▸ lower) (type1.trans paren)
            (type2.trans closed) (value ▸ made')), inStep', by omega⟩
      | @application first others m n _ lower paren notClosed parsed loop closed made =>
          rcases makeSymbolTerm_ok_iff.mp made with ⟨bank, built, rfl⟩
          have insideN : Q n.bank := answers.before (symbolTerm_extends built) inside
          have insideM : Q m.bank := answers.before (moreAfter_steady (extends_steady m.bank)
            (keeps _ (extends_steady m.bank)) fuel m others n (TermBank.Extends.refl _) loop)
              insideN
          have withinN : more = [] ∨ n.currentToken.type ≠ .kEOF :=
            Or.inr (by rw [closed]; decide)
          rcases inStep1.token (Or.inr (by rw [paren]; decide)) with ⟨type1, _⟩
          rcases inStep1.advance (by rw [paren]; decide) with ⟨rest2, shorter2, inStep2⟩
          have word2 := parseTerm_word parsed
          rcases inStep2.token (Or.inr (by rw [word2]; decide)) with ⟨type2, _⟩
          rcases keeps _ standing_steady _ _ m ⟨_, inStep2.left⟩ parsed with ⟨_, atM⟩
          have withinM :=
            within_before (moreAfter_steady at_end_steady (keeps _ at_end_steady) fuel) atM loop
            withinN
          rcases ih _ _ _ _ _ inStep2 parsed insideM withinM fuel'
            (by simp only [List.length_append] at enough ⊢; omega) with
            ⟨m', rest3, parsed', inStep3, shorter3⟩
          rcases moreAfter_follows answers (by decide) ih keeps fuel
            _ _ _ _ _ inStep3 loop insideN withinN fuel' fuel'
            (by simp only [List.length_append] at enough ⊢; omega)
            (by simp only [List.length_append] at enough ⊢; omega) with
            ⟨n', rest4, loop', inStep4, shorter4⟩
          rcases inStep4.token withinN with ⟨type4, _⟩
          rcases inStep4.advance (by rw [closed]; decide) with ⟨rest5, shorter5, inStep5⟩
          rcases makeSymbolTerm_follows answers inStep5 made inside with ⟨q', made', inStep'⟩
          refine ⟨q', rest5, parseTerm_ok.mpr (.application (type.trans word) (value ▸ lower)
            (type1.trans paren) (fun none => ?_) parsed' loop' (type4.trans closed)
            (value ▸ made')), inStep', by omega⟩
          rw [type2, word2] at none
          cases none

theorem parseLiteral_follows (fuel : Nat) : KeepsStep B Q more parseLiteral fuel := by
  intro lexemes p q lit p' inStep run inside within fuel' enough
  rcases parseLiteral_ok.mp run with ⟨parsed, polarity⟩
  by_cases negated : p.currentToken.type = .kNot
  · rcases inStep.token (Or.inr (by rw [negated]; decide)) with ⟨type, _⟩
    rcases inStep.advance (by rw [negated]; decide) with ⟨rest, shorter, inStep1⟩
    rw [if_pos negated] at parsed
    rcases parseTerm_follows answers fuel _ _ _ _ _ inStep1 parsed
      inside within fuel' (by simp only [List.length_append] at enough ⊢; omega) with
      ⟨q', rest', parsed', inStep', shorter'⟩
    exact ⟨q', rest',
      parseLiteral_ok.mpr ⟨by rwa [if_pos (type.trans negated)], by rw [polarity, type]⟩,
      inStep', by omega⟩
  · rw [if_neg negated] at parsed
    rcases inStep.token (Or.inr (by rw [parseTerm_word parsed]; decide)) with ⟨type, _⟩
    rcases parseTerm_follows answers fuel _ _ _ _ _ inStep parsed
      inside within fuel' enough with ⟨q', rest', parsed', inStep', shorter'⟩
    exact ⟨q', rest',
      parseLiteral_ok.mpr ⟨by rwa [if_neg (type ▸ negated)], by rw [polarity, type]⟩,
      inStep', shorter'⟩

theorem parseCnf_follows {fuel : Nat} {af : AnnotatedFormula} (inStep : InStep B more lexemes p q)
    (run : parseCnf fuel p = .ok (af, p')) (inside : Q p'.bank) (fuel' : Nat)
    (enough : (lexemes ++ more).length < fuel') : ∃ q' rest, parseCnf fuel' q = .ok (af, q') ∧
      InStep B more rest p' q' ∧ rest.length ≤ lexemes.length := by
  rcases parseCnf_ok.mp run with ⟨lit, lits, m, n, parts, rfl⟩
  have step : ∀ {lexemes : List Lexeme} {p q : TptpParser} {type : TokenType},
      InStep B more lexemes p q →
      p.currentToken.type = type → type ≠ .kEOF → q.currentToken.type = type ∧
        q.currentToken.value = p.currentToken.value ∧ ∃ rest,
          lexemes.length = rest.length + 1 ∧ InStep B more rest p.advance q.advance := by
    intro lexemes p q type inStep isType notEnd
    rcases inStep.token (Or.inr (isType ▸ notEnd)) with ⟨same, value⟩
    exact ⟨same.trans isType, value, inStep.advance (isType ▸ notEnd)⟩
  rcases step inStep parts.opened (by decide) with ⟨type1, _, _, shorter1, inStep1⟩
  rcases step inStep1 parts.name (by decide) with ⟨type2, name, _, shorter2, inStep2⟩
  rcases step inStep2 parts.comma (by decide) with ⟨type3, _, _, shorter3, inStep3⟩
  rcases step inStep3 parts.role (by decide) with ⟨type4, role, _, shorter4, inStep4⟩
  rcases step inStep4 parts.comma' (by decide) with ⟨type5, _, _, shorter5, inStep5⟩
  have keeps : ∀ P, Steady P → StaysWith P (parseLiteral fuel) :=
    fun P steady => parseLiteral_steady steady fuel
  have insideM : Q m.bank := answers.before (moreAfter_steady (extends_steady m.bank)
    (keeps _ (extends_steady m.bank)) fuel m lits n (TermBank.Extends.refl _) parts.rest) inside
  have withinN : more = [] ∨ n.currentToken.type ≠ .kEOF :=
    Or.inr (by rw [parts.closed]; decide)
  rcases keeps _ standing_steady _ _ m ⟨_, inStep5.left⟩ parts.first with ⟨_, atM⟩
  have withinM := within_before (moreAfter_steady at_end_steady (keeps _ at_end_steady) fuel)
    atM parts.rest withinN
  rcases parseLiteral_follows answers fuel _ _ _ _ _ inStep5
    parts.first insideM withinM fuel' (by simp only [List.length_append] at enough ⊢; omega) with
    ⟨m', rest6, first', inStep6, shorter6⟩
  rcases moreAfter_follows answers (by decide)
    (parseLiteral_follows answers fuel) keeps fuel _ _ _ _ _ inStep6 parts.rest inside
    withinN fuel' fuel' (by simp only [List.length_append] at enough ⊢; omega)
    (by simp only [List.length_append] at enough ⊢; omega) with
    ⟨n', rest7, loop', inStep7, shorter7⟩
  rcases step inStep7 parts.closed (by decide) with ⟨type8, _, _, shorter8, inStep8⟩
  rcases step inStep8 parts.dot (by decide) with ⟨type9, _, rest9, shorter9, inStep9⟩
  refine ⟨{ n'.advance.advance with variableCache := [] }, rest9,
    parseCnf_ok.mpr ⟨lit, lits, m', n',
    ⟨type1, type2, type3, type4, type5, first', loop', type8,
      type9, by rw [name, role, parts.entry]⟩, rfl⟩,
    ⟨inStep9.left.same rfl rfl, inStep9.right.same rfl rfl, inStep9.banks, rfl⟩, by omega⟩

/-- The second parser reads the entries of the first one, and then what stands behind. -/
theorem parseProblem_follows (fuel : Nat) : ∀ lexemes p q afs p', InStep B more lexemes p q →
    parseProblem fuel p = .ok (afs, p') → Q p'.bank → ∀ fuel',
    (lexemes ++ more).length < fuel' → ∃ q' n, InStep B more [] p' q' ∧ more.length < n ∧
      parseProblem fuel' q = (parseProblem n q').map fun out => (afs ++ out.1, out.2) := by
  induction fuel with
  | zero => exact fun _ _ _ _ _ _ run => by cases run
  | succ fuel ih =>
      intro lexemes p q afs p' inStep run inside fuel' enough
      rcases parseProblem_ok.mp run with
        ⟨eof, rfl, rfl⟩ | ⟨word, value, af, m, rest, first, later, rfl⟩
      · rcases inStep.left.ended eof with rfl
        refine ⟨q, fuel', inStep, enough, ?_⟩
        cases parseProblem fuel' q <;> rfl
      · rcases Nat.exists_eq_succ_of_ne_zero (Nat.ne_of_gt (Nat.zero_lt_of_lt enough)) with
          ⟨fuel', rfl⟩
        have open' : p.currentToken.type ≠ .kEOF := by rw [word]; decide
        rcases inStep.token (Or.inr open') with ⟨type, same⟩
        rcases inStep.advance open' with ⟨rest1, shorter1, inStep1⟩
        have insideM : Q m.bank :=
          answers.before (parseProblem_steady (extends_steady m.bank) fuel m rest p'
          (TermBank.Extends.refl _) later) inside
        rcases parseCnf_follows answers inStep1 first insideM
          fuel' (by simp only [List.length_append] at enough ⊢; omega) with
          ⟨m', rest2, first', inStep2, shorter2⟩
        rcases ih _ _ _ _ _ inStep2 later inside fuel'
          (by simp only [List.length_append] at enough ⊢; omega) with
          ⟨q', n, inStep', long, whole⟩
        refine ⟨q', n, inStep', long, ?_⟩
        rw [parseProblem, if_neg (by rw [type, word]; decide),
          if_pos ⟨type.trans word, same.trans value⟩, first', bind_ok]
        dsimp only
        rw [whole]
        cases parseProblem n q' <;> rfl

end Lockstep

section Composition

theorem parseProblem_cache (fuel : Nat) : ∀ p afs p', p.variableCache = [] →
    parseProblem fuel p = .ok (afs, p') → p'.variableCache = [] := by
  induction fuel with
  | zero => exact fun _ _ _ _ run => by cases run
  | succ fuel ih =>
      intro p afs p' empty run
      rcases parseProblem_ok.mp run with ⟨_, _, rfl⟩ | ⟨_, _, af, m, rest, first, later, _⟩
      · exact empty
      · rcases parseCnf_ok.mp first with ⟨_, _, _, _, _, rfl⟩
        exact ih _ rest p' rfl later

/-- White space ends a token, and a comment ends with its line. -/
theorem lexes_behind {input behind : Text} {lexemes more : List Lexeme}
    (first : Lexes input lexemes) (later : Lexes behind more) :
    Lexes (input ++ '\n' :: behind) (lexemes ++ more) := by
  have newline : Lexes ('\n' :: behind) more := .space (by decide) later
  induction first with
  | eof => exact newline
  | space isSpace _ ih => exact .space isSpace ih
  | @comment text rest lexemes oneLine ends _ ih =>
      rw [List.cons_append, List.append_assoc]
      refine .comment oneLine (fun c head => ?_) ih
      cases rest with
      | nil => exact (Option.some.inj head).symm
      | cons d rest => exact ends c head
  | @word w rest lexemes isWord ends _ ih =>
      rw [List.append_assoc]
      refine .word isWord (fun c head => ?_) ih
      cases rest with
      | nil =>
          rcases Option.some.inj head with rfl
          decide
      | cons d rest => exact ends c head
  | symbol isSymbol _ ih => exact .symbol isSymbol ih

variable {B : TermBank → TermBank → Prop} {Q : TermBank → Prop} {input : Text}
  {bank mid : TermBank} {problem : ParsedProblem} {lexemes more : List Lexeme} {q : TptpParser}

theorem parse_followed (answers : SameAnswers B Q) (lexes : Lexes input lexemes)
    (run : parseTptpString input bank = .ok (problem, mid)) (inside : Q mid) (banks : B bank q.bank)
    (standing : q.At (lexemes ++ more)) (empty : q.variableCache = []) {fuel : Nat}
    (enough : (lexemes ++ more).length < fuel) :
    ∃ q' n, q'.At more ∧ B mid q'.bank ∧ q'.variableCache = [] ∧ more.length < n ∧
      parseProblem fuel q = (parseProblem n q').map fun out =>
        (problem.formulas ++ out.1, out.2) := by
  rcases bind_ok_iff.mp run with ⟨⟨afs, p'⟩, whole, same⟩
  rcases Prod.mk.inj (pure_ok_iff.mp same) with ⟨rfl, rfl⟩
  have inStep : InStep B more lexemes (TptpParser.new input bank) q :=
    ⟨new_at lexes bank, standing, banks, empty.symm⟩
  rcases parseProblem_follows answers _ _ _ _ _ _ inStep whole inside fuel enough with
    ⟨q', n, inStep', long, equal⟩
  exact ⟨q', n, inStep'.right, inStep'.banks,
    inStep'.caches.symm.trans (parseProblem_cache _ _ _ _ rfl whole), long, equal⟩

theorem parse_at_end {n : Nat} (standing : q.At []) (long : ([] : List Lexeme).length < n) :
    parseProblem n q = .ok ([], q) := by
  rcases Nat.exists_eq_succ_of_ne_zero (Nat.ne_of_gt (Nat.zero_lt_of_lt long)) with ⟨n, rfl⟩
  exact parseProblem_ok.mpr (Or.inl ⟨standing.nil, rfl, rfl⟩)

theorem sameAnswers_refl : SameAnswers Eq fun _ => True :=
  ⟨fun same run _ => ⟨_, by rwa [← same], rfl⟩, fun _ _ => trivial⟩

theorem parse_in_step (lexes : Lexes input lexemes) (standing : q.At lexemes)
    (empty : q.variableCache = []) {fuel : Nat} (enough : lexemes.length < fuel) :
    parseTptpString input q.bank = .ok (problem, mid) ↔
      ∃ q', parseProblem fuel q = .ok (problem.formulas, q') ∧ q'.bank = mid := by
  constructor
  · intro run
    have here : q.At (lexemes ++ []) := by rwa [List.append_nil]
    have enough' : (lexemes ++ []).length < fuel := by rwa [List.append_nil]
    rcases parse_followed sameAnswers_refl lexes run trivial rfl here empty enough' with
      ⟨q', n, ended, rfl, _, long, whole⟩
    refine ⟨q', ?_, rfl⟩
    rw [whole, parse_at_end ended long]
    simp [Except.map]
  · rintro ⟨q', run, rfl⟩
    have inStep : InStep Eq [] lexemes q (TptpParser.new input q.bank) := ⟨standing,
      by rw [List.append_nil]; exact new_at lexes q.bank, rfl, empty⟩
    rcases parseProblem_follows sameAnswers_refl _ _ _ _ _ _ inStep run trivial
      (input.length + 1) (by rw [List.append_nil]; exact Nat.lt_succ_of_le lexes.length_le) with
      ⟨p', n, inStep', long, whole⟩
    rw [parse_at_end inStep'.right long] at whole
    rw [parseTptpString, whole]
    simp [Except.map, inStep'.banks, bind_ok, pure_eq_ok]

/-- The parser reads tokens, one entry after the other. Inputs with the same tokens have
the same results, and an input behind one that is accepted is read as it is read by
itself into the bank that the first one leaves. -/
theorem parse_sequence {first : Text} (run : parseTptpString first bank = .ok (problem, mid)) :
    (∀ other lexemes, Lexes first lexemes → Lexes other lexemes →
      parseTptpString other bank = .ok (problem, mid)) ∧
    ∀ second out, parseTptpString (first ++ '\n' :: second) bank = .ok out ↔
      ∃ later, parseTptpString second mid = .ok (later, out.2) ∧
        out.1.formulas = problem.formulas ++ later.formulas := by
  constructor
  · intro other lexemes lexes lexes'
    rcases bind_ok_iff.mp run with ⟨⟨_, p'⟩, whole, same⟩
    rcases Prod.mk.inj (pure_ok_iff.mp same) with ⟨rfl, rfl⟩
    exact (parse_in_step (q := TptpParser.new first bank) lexes' (new_at lexes bank) rfl
      (Nat.lt_succ_of_le lexes.length_le)).mpr ⟨p', whole, rfl⟩
  · intro second out
    rcases lexes_total first with ⟨lexemes, lexes⟩
    rcases lexes_total second with ⟨more, lexes'⟩
    have both := lexes_behind lexes lexes'
    rcases parse_followed sameAnswers_refl lexes run trivial rfl
      (new_at both bank) rfl (Nat.lt_succ_of_le both.length_le) with
      ⟨q', n, standing, rfl, empty, long, whole⟩
    have alone : ∀ later last, parseTptpString second q'.bank = .ok (later, last) ↔
        ∃ p', parseProblem n q' = .ok (later.formulas, p') ∧ p'.bank = last :=
      fun later last => parse_in_step lexes' standing empty long
    rw [parseTptpString, whole]
    constructor
    · intro run
      rcases bind_ok_iff.mp run with ⟨⟨_, p'⟩, mapped, same⟩
      rcases map_ok_iff.mp mapped with ⟨⟨rest, _⟩, found, same'⟩
      rcases Prod.mk.inj same' with ⟨rfl, isLast⟩
      rcases pure_ok_iff.mp same with rfl
      exact ⟨⟨rest⟩, (alone _ _).mpr ⟨_, found, congrArg TptpParser.bank isLast⟩, rfl⟩
    · rintro ⟨later, read, formulas⟩
      rcases (alone _ _).mp read with ⟨p', found, isLast⟩
      rcases out with ⟨⟨appended⟩, last⟩
      have isAppended : appended = problem.formulas ++ later.formulas := formulas
      have isBank : p'.bank = last := isLast
      subst isAppended isBank
      rw [found]
      rfl

def firstEntry : Text := "cnf(a,axiom,p(X)|~q).".toList

def secondEntry : Text := "cnf(b,axiom,p(q)).".toList

theorem parse_sequence_sample : ∃ problem mid later last,
    parseTptpString firstEntry {} = .ok (problem, mid) ∧
    parseTptpString ("% layout\n".toList ++ firstEntry) {} = .ok (problem, mid) ∧
    parseTptpString secondEntry mid = .ok (later, last) ∧
    parseTptpString (firstEntry ++ '\n' :: secondEntry) {} =
      .ok (⟨problem.formulas ++ later.formulas⟩, last) := by
  have answer : (fun _ => ()) <$> (parseTptpString firstEntry {} >>= fun out =>
      parseTptpString secondEntry out.2) = .ok () := by decide +kernel
  rcases map_ok_iff.mp answer with ⟨⟨later, last⟩, both, _⟩
  rcases bind_ok_iff.mp both with ⟨⟨problem, mid⟩, run, run'⟩
  rcases parse_sequence run with ⟨layout, sequence⟩
  refine ⟨problem, mid, later, last, run, ?_, run',
    (sequence secondEntry (_, last)).mpr ⟨later, run', rfl⟩⟩
  rcases lexes_total firstEntry with ⟨lexemes, lexes⟩
  have commented : Lexes ('%' :: (" layout".toList ++ '\n' :: firstEntry)) lexemes :=
    .comment (by decide) (fun c head => (Option.some.inj head).symm) (.space (by decide) lexes)
  exact layout _ lexemes lexes commented

end Composition

section Again

variable {bank mid big : TermBank} {problem : ParsedProblem}

theorem SymbolTable.intern_known {table : SymbolTable} (wf : table.WellFormed) {id : Nat}
    {info : SymbolInfo} (found : table.infos[id]? = some info) (sort : Nat) :
    table.intern info.name info.kind info.arity sort = .ok (id, table) := by
  rw [SymbolTable.intern, wf.complete id info found]
  dsimp only
  rw [SymbolTable.getInfo, found]
  dsimp only
  rw [bind_ok, if_neg (by simp)]
  rfl

theorem TermBank.makeTerm_known (shared : big.HashConsed) {id sym : Nat} {args : List Nat}
    (found : big.terms[id]? = some ⟨sym, args⟩) : big.makeTerm sym args = (id, big) := by
  simp only [TermBank.makeTerm, shared id _ found]

variable {x x' : TermBank} {name : Text} {kind : SymbolKind} {args : List Nat} {id : Nat}

theorem symbolTerm_made (sound : x.IndexSound) (run : x.symbolTerm name kind args = .ok (id, x')) :
    x'.IndexSound ∧ ∃ sym info, x'.terms[id]? = some ⟨sym, args⟩ ∧
      x'.symbols.infos[sym]? = some info ∧
      info.name = name ∧ info.kind = kind ∧ info.arity = toUInt16 args.length := by
  rcases bind_ok_iff.mp run with ⟨⟨sym, symbols⟩, interned, made⟩
  have same : ({ x with symbols } : TermBank).makeTerm sym args = (id, x') := pure_ok_iff.mp made
  rcases SymbolTable.intern_info interned with ⟨info, own, rfl, arity⟩
  have named := (SymbolTable.intern_named sound.table interned).2 info own
  have known := TermBank.intern_indexSound sound interned
  have sound' := TermBank.makeTerm_indexSound known sym args
  have term := TermBank.makeTerm_term known sym args
  have symbols' := TermBank.makeTerm_symbols { x with symbols } sym args
  rw [same] at sound' term symbols'
  exact ⟨sound', sym, info, term, by rwa [symbols'], named, rfl, arity⟩

theorem symbolTerm_known (sound : x.IndexSound) (run : x.symbolTerm name kind args = .ok (id, x'))
    (grows : x'.Extends big) (wf : big.symbols.WellFormed) (shared : big.HashConsed) :
    big.symbolTerm name kind args = .ok (id, big) := by
  rcases symbolTerm_made sound run with ⟨_, sym, info, made, own, rfl, rfl, arity⟩
  rw [TermBank.symbolTerm, ← arity,
    SymbolTable.intern_known wf (prefix_getElem? grows.infos own) kUnsorted, bind_ok]
  dsimp only
  rw [show ({ big with symbols := big.symbols } : TermBank) = big from rfl,
    TermBank.makeTerm_known shared (grows.term made)]
  rfl

theorem sameAnswers_known (wf : big.symbols.WellFormed) (shared : big.HashConsed) :
    SameAnswers (fun x y => y = big ∧ x.IndexSound) fun x => x.Extends big where
  step := by
    rintro x y x' name kind args id ⟨rfl, sound⟩ run grows
    exact ⟨y, symbolTerm_known sound run grows wf shared, rfl, (symbolTerm_made sound run).1⟩
  before := fun grows inside => grows.trans inside

theorem parseProblem_again {input : Text} (wf : bank.WellFormed)
    (run : parseTptpString input bank = .ok (problem, mid)) (grows : mid.Extends big)
    (wf' : big.WellFormed) (shared : big.HashConsed) : ∃ q, q.bank = big ∧
      parseProblem (input.length + 1) (TptpParser.new input big) = .ok (problem.formulas, q) := by
  rcases lexes_total input with ⟨lexemes, lexes⟩
  have standing : (TptpParser.new input big).At (lexemes ++ []) := by
    rw [List.append_nil]
    exact new_at lexes big
  have enough : (lexemes ++ []).length < input.length + 1 := by
    rw [List.append_nil]
    exact Nat.lt_succ_of_le lexes.length_le
  rcases parse_followed (sameAnswers_known wf'.table shared) lexes run
    grows ⟨rfl, wf.table, wf.keys_sound⟩ standing rfl enough with
    ⟨q, n, ended, ⟨same, _⟩, _, long, whole⟩
  refine ⟨q, same, ?_⟩
  rw [whole, parse_at_end ended long]
  simp [Except.map]

/-- Reading an input again, whatever the bank has grown to since, finds the ids of the
first reading and adds nothing: neither a symbol nor a term. -/
theorem parse_again {input : Text} (wf : bank.WellFormed)
    (run : parseTptpString input bank = .ok (problem, mid)) (grows : mid.Extends big)
    (wf' : big.WellFormed) (shared : big.HashConsed) :
    parseTptpString input big = .ok (problem, big) := by
  rcases parseProblem_again wf run grows wf' shared with ⟨q, same, found⟩
  rw [parseTptpString, found, bind_ok, ← same]
  rfl

theorem search_grows {runtime : Runtime} {config : ProverConfig} {fuel : Nat} {input : Text}
    {result : ProverResult} {p : Prover}
    (run : proveInput runtime config fuel input = .ok (result, p)) :
    ∃ clauses env, readInput input = .ok (clauses, env) ∧ env.Grows p.env := by
  rcases proveInput_ok.mp run with ⟨clauses, env, start, read, added, proved⟩
  rcases readInput_ready read with ⟨ready, _⟩
  exact ⟨clauses, env, read, (prove_runInv ready.wf ready.valid added proved).2.1.grows⟩

/-- An input is read again into the bank of the search for its proof, which has made
terms of its own. -/
theorem parse_again_sample :
    ∃ (problem : ParsedProblem) (mid : TermBank) (result : ProverResult) (p : Prover),
    parseTptpString refutableInput {} = .ok (problem, mid) ∧
    proveInput .plain {} 50 refutableInput = .ok (result, p) ∧ mid.size < p.env.bank.size ∧
    parseTptpString refutableInput p.env.bank = .ok (problem, p.env.bank) := by
  have answer : (proveInput .plain {} 50 refutableInput >>= fun out =>
      (fun read => decide (read.2.size < out.2.env.bank.size)) <$> parseTptpString refutableInput
        {}) = .ok true := by
    decide +kernel
  rcases bind_ok_iff.mp answer with ⟨⟨result, p⟩, run, sizes⟩
  rcases map_ok_iff.mp sizes with ⟨⟨problem, mid⟩, first, larger⟩
  rcases search_grows run with ⟨clauses, env, read, grows⟩
  rcases readInput_ready read with ⟨ready, _⟩
  rcases bind_ok_iff.mp read with ⟨⟨_, _⟩, parsed, same⟩
  rcases Prod.mk.inj (Except.ok.inj (first.symm.trans parsed)) with ⟨rfl, rfl⟩
  rcases Prod.mk.inj (pure_ok_iff.mp same) with ⟨rfl, rfl⟩
  exact ⟨problem, mid, result, p, first, run, of_decide_eq_true larger,
    parse_again TermBank.empty_wellFormed first grows.bank.grows (grows.bank.wf ready.wf)
      (grows.bank.shared ready.shared)⟩

end Again

end AtpEngine
