import AtpEngine.TptpParser

/-!
The token sequence of an input, stated without the lexer: words are as long as
they can be, every other character but white space and comments is a token of
its own. Each input has such a sequence, and `nextToken` takes its first token.
-/
namespace AtpEngine

structure Lexeme where
  type : TokenType
  value : Text
  deriving DecidableEq, Repr

def Token.lexeme (t : Token) : Lexeme := ⟨t.type, t.value⟩

def Lexeme.eof : Lexeme := ⟨.kEOF, []⟩

structure IsWord (w : Text) : Prop where
  start : ∃ c rest, w = c :: rest ∧ isWordStart c = true
  chars : ∀ c ∈ w, isWordChar c = true

structure IsSymbol (c : Char) : Prop where
  notSpace : isspace c = false
  notComment : c ≠ '%'
  notWord : isWordStart c = false

/-- The tokens of an input, after white space and comments are removed. -/
inductive Lexes : Text → List Lexeme → Prop where
  | eof : Lexes [] []
  | space {c : Char} {rest : Text} {lexemes : List Lexeme} : isspace c = true →
      Lexes rest lexemes → Lexes (c :: rest) lexemes
  | comment {text rest : Text} {lexemes : List Lexeme} : '\n' ∉ text →
      (∀ c, rest.head? = some c → c = '\n') → Lexes rest lexemes →
      Lexes ('%' :: (text ++ rest)) lexemes
  | word {w rest : Text} {lexemes : List Lexeme} : IsWord w →
      (∀ c, rest.head? = some c → isWordChar c = false) → Lexes rest lexemes →
      Lexes (w ++ rest) (⟨.kWord, w⟩ :: lexemes)
  | symbol {c : Char} {rest : Text} {lexemes : List Lexeme} : IsSymbol c →
      Lexes rest lexemes → Lexes (c :: rest) (⟨symbolType c, [c]⟩ :: lexemes)

/-- The tokens an input can have. -/
inductive Lexeme.Proper : Lexeme → Prop where
  | word {w : Text} : IsWord w → Proper ⟨.kWord, w⟩
  | symbol (c : Char) : Proper ⟨symbolType c, [c]⟩

theorem Lexes.proper {input : Text} {lexemes : List Lexeme} (lexes : Lexes input lexemes) :
    ∀ lexeme ∈ lexemes, lexeme.Proper := by
  induction lexes with
  | eof => simp
  | space _ _ ih => exact ih
  | comment _ _ _ ih => exact ih
  | word isWord _ _ ih => exact List.forall_mem_cons.mpr ⟨.word isWord, ih⟩
  | symbol _ _ ih => exact List.forall_mem_cons.mpr ⟨.symbol _, ih⟩

theorem symbolType_other (c : Char) : symbolType c ≠ .kEOF ∧ symbolType c ≠ .kWord := by
  unfold symbolType
  split <;> decide

theorem Lexeme.Proper.ne_eof {lexeme : Lexeme} (proper : lexeme.Proper) :
    lexeme.type ≠ .kEOF := by
  cases proper with
  | word _ => simp
  | symbol c => exact (symbolType_other c).1

theorem Lexeme.Proper.isWord {lexeme : Lexeme} (proper : lexeme.Proper)
    (word : lexeme.type = .kWord) : IsWord lexeme.value := by
  cases proper with
  | word isWord => exact isWord
  | symbol c => exact absurd word (symbolType_other c).2

section Characters

theorem isWordStart_class {c : Char} (start : isWordStart c = true) :
    isspace c = false ∧ c ≠ '%' ∧ isWordChar c = true := by
  have byValue : c.toNat = 95 ∨ (65 ≤ c.toNat ∧ c.toNat ≤ 90) ∨
      (97 ≤ c.toNat ∧ c.toNat ≤ 122) := by
    change (decide (65 ≤ c.val ∧ c.val ≤ 90) ||
      (decide (97 ≤ c.val) && decide (c.val ≤ 122)) ||
      decide (c = '_')) = true at start
    simp only [Bool.or_eq_true, Bool.and_eq_true, decide_eq_true_eq,
      UInt32.le_iff_toNat_le] at start
    rcases start with (upper | lower) | rfl
    · exact Or.inr (Or.inl upper)
    · exact Or.inr (Or.inr lower)
    · exact Or.inl rfl
  refine ⟨?_, ?_, ?_⟩
  · rw [Bool.eq_false_iff]
    intro space
    simp only [isspace, Bool.or_eq_true, Bool.and_eq_true, decide_eq_true_eq, Char.le_def,
      UInt32.le_iff_toNat_le] at space
    have high : c.toNat ≤ 32 := by
      rcases space with rfl | ⟨_, high⟩
      · decide
      · exact Nat.le_trans high (by decide)
    omega
  · rintro rfl
    revert byValue
    decide
  · simp only [isWordStart, isWordChar, Char.isAlphanum, Bool.or_eq_true] at start ⊢
    exact start.imp_left Or.inl

end Characters

section Skipping

open TptpLexer

theorem advanceOver_source (c : Char) (rest : Text) (line column : Nat) :
    advanceOver c rest line column = ⟨rest, (advanceOver c rest line column).line,
      (advanceOver c rest line column).column⟩ := by
  unfold advanceOver
  split <;> rfl

theorem skip_space {c : Char} (space : isspace c = true) (rest : Text) (line column : Nat) :
    ∃ line' column', skipFrom false (c :: rest) line column = skipFrom false rest line' column' :=
  ⟨_, _, by rw [skipFrom, if_pos space]⟩

theorem skip_text {text : Text} (oneLine : '\n' ∉ text) (rest : Text) (line column : Nat) :
    ∃ column', skipFrom true (text ++ rest) line column = skipFrom true rest line column' := by
  induction text generalizing column with
  | nil => exact ⟨column, rfl⟩
  | cons c text ih =>
      rcases not_or.mp (fun h => oneLine (List.mem_cons.mpr h)) with ⟨other, later⟩
      rcases ih later (column + 1) with ⟨column', same⟩
      exact ⟨column', by rw [List.cons_append, skipFrom, if_neg (Ne.symm other), same]⟩

theorem skip_comment {text rest : Text} (oneLine : '\n' ∉ text)
    (ends : ∀ c, rest.head? = some c → c = '\n') (line column : Nat) :
    ∃ line' column', skipFrom false ('%' :: (text ++ rest)) line column =
      skipFrom false rest line' column' := by
  rcases skip_text oneLine rest line (column + 1) with ⟨column', same⟩
  have enter : skipFrom false ('%' :: (text ++ rest)) line column =
      skipFrom true (text ++ rest) line (column + 1) := by
    rw [skipFrom, if_neg (by decide), if_pos rfl]
  rw [enter, same]
  cases rest with
  | nil => exact ⟨line, column', rfl⟩
  | cons c rest =>
      rcases ends c rfl with rfl
      exact ⟨line, column',
        by simp [skipFrom, show isspace '\n' = true from by decide, advanceOver]⟩

theorem skip_stop {c : Char} (notSpace : isspace c = false) (notComment : c ≠ '%') (rest : Text)
    (line column : Nat) :
    skipFrom false (c :: rest) line column = ⟨c :: rest, line, column⟩ := by
  rw [skipFrom, if_neg (by simp [notSpace]), if_neg notComment]

theorem takeWord_append {w rest : Text} (chars : ∀ c ∈ w, isWordChar c = true)
    (ends : ∀ c, rest.head? = some c → isWordChar c = false) (line column : Nat) :
    (takeWord (w ++ rest) line column).1 = w ∧
    (takeWord (w ++ rest) line column).2.source = rest := by
  induction w generalizing line column with
  | nil =>
      cases rest with
      | nil => exact ⟨rfl, rfl⟩
      | cons c rest => simp [takeWord, ends c rfl]
  | cons c w ih =>
      rcases ih (fun d member => chars d (List.mem_cons_of_mem c member))
        (advanceOver c (w ++ rest) line column).line
        (advanceOver c (w ++ rest) line column).column with ⟨word, source⟩
      simp [takeWord, chars c List.mem_cons_self, word, source]

end Skipping

/-- `nextToken` answers with the first token and leaves the others. -/
theorem nextToken_lexes {input : Text} {lexemes : List Lexeme} (lexes : Lexes input lexemes)
    (line column : Nat) :
    (TptpLexer.nextToken ⟨input, line, column⟩).1.lexeme = lexemes.headD .eof ∧
      Lexes (TptpLexer.nextToken ⟨input, line, column⟩).2.source lexemes.tail := by
  induction lexes generalizing line column with
  | eof => exact ⟨rfl, .eof⟩
  | @space c rest _ space _ ih =>
      rcases skip_space space rest line column with ⟨line', column', same⟩
      have skips : TptpLexer.nextToken ⟨c :: rest, line, column⟩ =
          TptpLexer.nextToken ⟨rest, line', column'⟩ := by
        simp only [TptpLexer.nextToken, TptpLexer.skipWhitespaceAndComments, same]
      rw [skips]
      exact ih line' column'
  | @comment text rest _ oneLine ends _ ih =>
      rcases skip_comment oneLine ends line column with ⟨line', column', same⟩
      have skips : TptpLexer.nextToken ⟨'%' :: (text ++ rest), line, column⟩ =
          TptpLexer.nextToken ⟨rest, line', column'⟩ := by
        simp only [TptpLexer.nextToken, TptpLexer.skipWhitespaceAndComments, same]
      rw [skips]
      exact ih line' column'
  | @word w rest _ isWord ends lexes _ =>
      rcases isWord.start with ⟨c, cs, rfl, start⟩
      rcases isWordStart_class start with ⟨notSpace, notComment, _⟩
      have stop := skip_stop notSpace notComment (cs ++ rest) line column
      rcases takeWord_append isWord.chars ends line column with ⟨word, source⟩
      rw [List.cons_append] at word source
      simp only [TptpLexer.nextToken, TptpLexer.skipWhitespaceAndComments, List.cons_append,
        stop, start, if_true, Token.lexeme, word, source]
      exact ⟨rfl, lexes⟩
  | @symbol c rest _ isSymbol lexes _ =>
      have stop := skip_stop isSymbol.notSpace isSymbol.notComment rest line column
      simp only [TptpLexer.nextToken, TptpLexer.skipWhitespaceAndComments, stop, isSymbol.notWord,
        Bool.false_eq_true, if_false, Token.lexeme]
      rw [advanceOver_source]
      exact ⟨rfl, lexes⟩

theorem Lexes.unique {input : Text} {lexemes lexemes' : List Lexeme} (left : Lexes input lexemes)
    (right : Lexes input lexemes') : lexemes = lexemes' := by
  induction lexemes generalizing input lexemes' with
  | nil =>
      cases lexemes' with
      | nil => rfl
      | cons lexeme rest =>
          have token := (nextToken_lexes left 1 1).1.symm.trans (nextToken_lexes right 1 1).1
          exact absurd (congrArg Lexeme.type token).symm
            (right.proper lexeme List.mem_cons_self).ne_eof
  | cons lexeme rest ih =>
      rcases nextToken_lexes left 1 1 with ⟨token, later⟩
      rcases nextToken_lexes right 1 1 with ⟨token', later'⟩
      cases lexemes' with
      | nil =>
          exact absurd (congrArg Lexeme.type (token.symm.trans token'))
            (left.proper lexeme List.mem_cons_self).ne_eof
      | cons lexeme' rest' =>
          rcases token.symm.trans token' with rfl
          rw [ih later later']
          rfl

theorem Lexes.length_le {input : Text} {lexemes : List Lexeme} (lexes : Lexes input lexemes) :
    lexemes.length ≤ input.length := by
  induction lexes with
  | eof => exact Nat.le_refl _
  | space _ _ ih => exact Nat.le_succ_of_le ih
  | comment _ _ _ ih =>
      rw [List.length_cons, List.length_append]
      omega
  | @word w rest _ isWord _ _ ih =>
      rcases isWord.start with ⟨c, tail, rfl, _⟩
      rw [List.length_append, List.length_cons, List.length_cons]
      omega
  | symbol _ _ ih => exact Nat.succ_le_succ ih

theorem lexes_total (input : Text) : ∃ lexemes, Lexes input lexemes := by
  match input with
  | [] => exact ⟨[], .eof⟩
  | c :: rest =>
      by_cases space : isspace c = true
      · rcases lexes_total rest with ⟨lexemes, lexes⟩
        exact ⟨lexemes, .space space lexes⟩
      by_cases isComment : c = '%'
      · have split := List.takeWhile_append_dropWhile (p := fun d => d != '\n') (l := rest)
        have shorter := (List.dropWhile_suffix (fun d => d != '\n') (l := rest)).length_le
        rcases lexes_total (rest.dropWhile fun d => d != '\n') with ⟨lexemes, lexes⟩
        refine ⟨lexemes, ?_⟩
        rw [isComment, ← split]
        refine .comment (fun member => ?_) (fun d head => ?_) lexes
        · simpa using List.all_eq_true.mp (List.all_takeWhile (p := fun d => d != '\n')) _ member
        · have ends := List.head?_dropWhile_not (fun d => d != '\n') rest
          rw [head] at ends
          simpa using ends
      by_cases start : isWordStart c = true
      · have split := List.takeWhile_append_dropWhile (p := isWordChar) (l := rest)
        have shorter := (List.dropWhile_suffix isWordChar (l := rest)).length_le
        rcases lexes_total (rest.dropWhile isWordChar) with ⟨lexemes, lexes⟩
        have isWord : IsWord (c :: rest.takeWhile isWordChar) :=
          ⟨⟨c, _, rfl, start⟩, List.forall_mem_cons.mpr
            ⟨(isWordStart_class start).2.2, List.all_eq_true.mp List.all_takeWhile⟩⟩
        have ends : ∀ d, (rest.dropWhile isWordChar).head? = some d → isWordChar d = false := by
          intro d head
          have := List.head?_dropWhile_not isWordChar rest
          rw [head] at this
          simpa using this
        have lexed := Lexes.word isWord ends lexes
        rw [List.cons_append, split] at lexed
        exact ⟨_, lexed⟩
      · rcases lexes_total rest with ⟨lexemes, lexes⟩
        have isSymbol : IsSymbol c := ⟨by simpa using space, isComment, by simpa using start⟩
        exact ⟨_, .symbol isSymbol lexes⟩
termination_by input.length
decreasing_by
  all_goals
    simp only [List.length_cons]
    omega

end AtpEngine
