import AtpEngine.ClauseStore

/-!
The TPTP front end of frontend/tptp_parser.cc: lexer, recursive descent with one
token of lookahead, and prepareForProving. A lexer holds what is left of the
input, of which each `Char` stands for one byte. Character classes are those of the
C locale; a token carries the position after it. The parser's loops and recursion
take fuel, and one unit for every character of the input is enough.
-/
namespace AtpEngine

open Fuelled

inductive FormulaRole where
  | kAxiom | kHypothesis | kDefinition | kAssumption | kLemma | kTheorem | kConjecture
  | kNegatedConjecture | kPlain
  deriving DecidableEq, Repr

def parseRole (roleStr : Text) : FormulaRole :=
  if roleStr = "axiom".toList then .kAxiom
  else if roleStr = "hypothesis".toList then .kHypothesis
  else if roleStr = "definition".toList then .kDefinition
  else if roleStr = "assumption".toList then .kAssumption
  else if roleStr = "lemma".toList then .kLemma
  else if roleStr = "theorem".toList then .kTheorem
  else if roleStr = "conjecture".toList then .kConjecture
  else if roleStr = "negated_conjecture".toList then .kNegatedConjecture
  else if roleStr = "plain".toList then .kPlain
  else .kPlain

structure AnnotatedFormula where
  name : Text
  role : FormulaRole := .kPlain
  clauses : List Clause := []
  isCnf : Bool := false
  deriving DecidableEq, Repr

structure ParsedProblem where
  formulas : List AnnotatedFormula := []
  deriving DecidableEq, Repr

inductive TokenType where
  | kWord | kLParen | kRParen | kOr | kNot | kDot | kComma | kEOF | kUnkown
  deriving DecidableEq, Repr

structure Token where
  type : TokenType
  value : Text
  line : Nat
  column : Nat
  deriving DecidableEq, Repr

def isspace (c : Char) : Bool := c = ' ' || ('\t' ≤ c && c ≤ '\r')

def isWordStart (c : Char) : Bool := c.isAlpha || c = '_'

def isWordChar (c : Char) : Bool := c.isAlphanum || c = '_'

/-- The switch of `nextToken` on a character that starts no word. -/
def symbolType : Char → TokenType
  | '(' => .kLParen
  | ')' => .kRParen
  | ',' => .kComma
  | '.' => .kDot
  | '~' => .kNot
  | '|' => .kOr
  | _ => .kUnkown

structure TptpLexer where
  source : Text
  line : Nat := 1
  column : Nat := 1
  deriving DecidableEq, Repr

namespace TptpLexer

/-- `advanceChar` over a character `c`, before `rest`. -/
def advanceOver (c : Char) (rest : Text) (line column : Nat) : TptpLexer :=
  if c = '\n' then ⟨rest, line + 1, 1⟩ else ⟨rest, line, column + 1⟩

/-- The two loops of `skipWhitespaceAndComments`; `inComment` is the inner one. -/
def skipFrom : Bool → Text → Nat → Nat → TptpLexer
  | _, [], line, column => ⟨[], line, column⟩
  | true, c :: rest, line, column =>
      -- the newline that ends a comment is skipped by the outer loop
      if c = '\n' then skipFrom false rest (line + 1) 1
      else skipFrom true rest line (column + 1)
  | false, c :: rest, line, column =>
      if isspace c then
        let next := advanceOver c rest line column
        skipFrom false rest next.line next.column
      else if c = '%' then skipFrom true rest line (column + 1)
      else ⟨c :: rest, line, column⟩

def skipWhitespaceAndComments (lexer : TptpLexer) : TptpLexer :=
  skipFrom false lexer.source lexer.line lexer.column

/-- The loop over the characters of a word: the word and the lexer behind it. -/
def takeWord : Text → Nat → Nat → Text × TptpLexer
  | [], line, column => ([], ⟨[], line, column⟩)
  | c :: rest, line, column =>
      if isWordChar c then
        let next := advanceOver c rest line column
        let (word, lexer) := takeWord rest next.line next.column
        (c :: word, lexer)
      else ([], ⟨c :: rest, line, column⟩)

def nextToken (lexer : TptpLexer) : Token × TptpLexer :=
  let lexer := lexer.skipWhitespaceAndComments
  match lexer.source with
  | [] => (⟨.kEOF, [], lexer.line, lexer.column⟩, lexer)
  | c :: rest =>
      if isWordStart c then
        let (word, lexer) := takeWord (c :: rest) lexer.line lexer.column
        (⟨.kWord, word, lexer.line, lexer.column⟩, lexer)
      else
        let lexer := advanceOver c rest lexer.line lexer.column
        (⟨symbolType c, [c], lexer.line, lexer.column⟩, lexer)

end TptpLexer

/-- The parser with the bank it builds terms in, which holds its symbol table. -/
structure TptpParser where
  lexer : TptpLexer
  bank : TermBank
  currentToken : Token
  variableCache : List (Text × Nat) := []
  deriving DecidableEq, Repr

namespace TptpParser

def advance (p : TptpParser) : TptpParser :=
  let (currentToken, lexer) := p.lexer.nextToken
  { p with currentToken, lexer }

def new (input : Text) (bank : TermBank) : TptpParser :=
  let (currentToken, lexer) := ({ source := input } : TptpLexer).nextToken
  { lexer, bank, currentToken }

/-- The position and the token, as both parse errors print them. -/
def unexpected (t : Token) : Text :=
  " line ".toList ++ digits t.line ++ ", col ".toList ++ digits t.column ++
    ": unexpected token '".toList ++ t.value ++ "'".toList

def expect (p : TptpParser) (type : TokenType) : Except Fault TptpParser :=
  if p.currentToken.type ≠ type then
    .error (.runtimeError ("Parse error at".toList ++ unexpected p.currentToken))
  else .ok p.advance

/-- The loop `while (current is sep) { advance(); push_back(item()); }`. -/
def moreAfter {α : Type} (sep : TokenType)
    (item : TptpParser → Except Fault (α × TptpParser)) :
    Nat → TptpParser → Except Fault (List α × TptpParser)
  | 0, _ => .error .outOfFuel
  | fuel + 1, p =>
      if p.currentToken.type = sep then do
        let (first, p) ← item p.advance
        let (rest, p) ← moreAfter sep item fuel p
        pure (first :: rest, p)
      else pure ([], p)

def makeSymbolTerm (p : TptpParser) (name : Text) (kind : SymbolKind) (args : List Nat) :
    Except Fault (Nat × TptpParser) := do
  let (sym, symbols) ← p.bank.symbols.intern name kind (toUInt16 args.length)
  let (id, bank) := { p.bank with symbols }.makeTerm sym args
  pure (id, { p with bank })

/-- The variable branch of `parseTerm`. -/
def makeVariable (p : TptpParser) (name : Text) : Except Fault (Nat × TptpParser) :=
  match p.variableCache.lookup name with
  | some varId => .ok (varId, p)
  | none => do
      let (varId, p) ← p.makeSymbolTerm name .kVariable []
      pure (varId, { p with variableCache := (name, varId) :: p.variableCache })

def parseTerm : Nat → TptpParser → Except Fault (Nat × TptpParser)
  | 0, _ => .error .outOfFuel
  | fuel + 1, p =>
      if p.currentToken.type ≠ .kWord then
        .error (.runtimeError
          ("Expected variable or function name at".toList ++ unexpected p.currentToken))
      else
        let name := p.currentToken.value
        let p := p.advance
        if name.head?.any Char.isUpper then p.makeVariable name
        else if p.currentToken.type = .kLParen then do
          let p := p.advance
          if p.currentToken.type ≠ .kRParen then
            let (first, p) ← parseTerm fuel p
            let (rest, p) ← moreAfter .kComma (parseTerm fuel) fuel p
            let p ← p.expect .kRParen
            p.makeSymbolTerm name .kFunction (first :: rest)
          else
            let p ← p.expect .kRParen
            p.makeSymbolTerm name .kFunction []
        else p.makeSymbolTerm name .kConstant []

def parseLiteral (fuel : Nat) (p : TptpParser) : Except Fault (Literal × TptpParser) := do
  let isPositive := p.currentToken.type ≠ .kNot
  let p := if p.currentToken.type = .kNot then p.advance else p
  let (atom, p) ← parseTerm fuel p
  pure (⟨atom, isPositive⟩, p)

/-- The body of the loop of `parseProblem`, behind the word cnf. -/
def parseCnf (fuel : Nat) (p : TptpParser) : Except Fault (AnnotatedFormula × TptpParser) := do
  let p ← p.expect .kLParen
  let name := p.currentToken.value
  let p ← p.expect .kWord
  let p ← p.expect .kComma
  let role := parseRole p.currentToken.value
  let p ← p.expect .kWord
  let p ← p.expect .kComma
  let (first, p) ← parseLiteral fuel p
  let (rest, p) ← moreAfter .kOr (parseLiteral fuel) fuel p
  let p ← p.expect .kRParen
  let p ← p.expect .kDot
  pure (⟨name, role, [{ literals := first :: rest }], true⟩, { p with variableCache := [] })

def parseProblem : Nat → TptpParser → Except Fault (List AnnotatedFormula × TptpParser)
  | 0, _ => .error .outOfFuel
  | fuel + 1, p =>
      if p.currentToken.type = .kEOF then .ok ([], p)
      else if p.currentToken.type = .kWord ∧ p.currentToken.value = "cnf".toList then do
        let (af, p) ← parseCnf fuel p.advance
        let (rest, p) ← parseProblem fuel p
        pure (af :: rest, p)
      else if p.currentToken.value = "fof".toList then
        .error (.runtimeError
          ("FOF parsing not implemented. Line ".toList ++ digits p.currentToken.line))
      else
        .error (.runtimeError
          ("Unknown declaration: '".toList ++ p.currentToken.value ++ "'".toList))

end TptpParser

def parseTptpString (input : Text) (bank : TermBank := {}) :
    Except Fault (ParsedProblem × TermBank) := do
  let (formulas, p) ← TptpParser.parseProblem (input.length + 1) (TptpParser.new input bank)
  pure ({ formulas }, p.bank)

/-- What a file stream finds at a path. A directory is opened, and reading it throws. -/
inductive FileRead where
  | unopened
  | unreadable (what : Text)
  | content (text : Text)
  deriving DecidableEq, Repr

def parseTptpFile (files : Text → FileRead) (filename : Text) (bank : TermBank := {}) :
    Except Fault (ParsedProblem × TermBank) :=
  match files filename with
  | .unopened => .error (.runtimeError ("Failed to open file: ".toList ++ filename))
  | .unreadable what => .error (.runtimeError what)
  | .content content => parseTptpString content bank

def prepareForProving (problem : ParsedProblem) : List Clause :=
  (problem.formulas.filter (·.isCnf)).flatMap fun af => af.clauses.map fun clause =>
    { clause with rule := .kInput, parent1 := kInvalidId, parent2 := kInvalidId }

end AtpEngine
