import AtpEngine.TptpSyntax

/-!
The parser accepts exactly the renderings of consistent syntax trees. `Sound`
and `Complete` say for a parsing function that what it returns was rendered in
front of it, and that what is rendered in front of it is returned; a budget above
the number of tokens is enough for both, since every recursion takes a token.
-/
namespace AtpEngine

open Fuelled TptpParser

/-- A run that returns, with `Q`, or throws. -/
def Yields {α : Type} (Q : α → Prop) : Except Fault α → Prop
  | .ok a => Q a
  | .error fault => ∃ what, fault = .runtimeError what

theorem Yields.bind {α β : Type} {Q : α → Prop} {R : β → Prop} {x : Except Fault α}
    {f : α → Except Fault β} (first : Yields Q x) (next : ∀ a, Q a → Yields R (f a)) :
    Yields R (x >>= f) := by
  cases x with
  | ok a => exact next a first
  | error fault => exact first

section Tokens

/-- The tokens in front of the parser, the current one first. -/
structure TptpParser.At (p : TptpParser) (lexemes : List Lexeme) : Prop where
  current : p.currentToken.lexeme = lexemes.headD .eof
  later : Lexes p.lexer.source lexemes.tail
  proper : ∀ lexeme ∈ lexemes, lexeme.Proper

variable {p p' : TptpParser} {lexemes rest : List Lexeme} {c : Char}

theorem TptpParser.At.same (standing : p.At lexemes) (lexer : p'.lexer = p.lexer)
    (token : p'.currentToken = p.currentToken) : p'.At lexemes :=
  ⟨by rw [token, standing.current], by rw [lexer]; exact standing.later, standing.proper⟩

theorem TptpParser.At.advance (standing : p.At lexemes) : p.advance.At lexemes.tail := by
  rcases nextToken_lexes standing.later p.lexer.line p.lexer.column with ⟨token, later⟩
  exact ⟨token, later, fun lexeme member =>
    standing.proper lexeme (List.mem_of_mem_tail member)⟩

theorem TptpParser.At.step (standing : p.At (lexeme :: rest)) : p.advance.At rest :=
  standing.advance

theorem TptpParser.At.head {lexeme : Lexeme} (standing : p.At (lexeme :: rest)) :
    p.currentToken.type = lexeme.type ∧ p.currentToken.value = lexeme.value :=
  Lexeme.mk.inj standing.current

theorem TptpParser.At.nil (standing : p.At []) : p.currentToken.type = .kEOF :=
  (Lexeme.mk.inj standing.current).1

theorem TptpParser.At.cons (standing : p.At lexemes) (more : p.currentToken.type ≠ .kEOF) :
    ∃ lexeme rest, lexemes = lexeme :: rest ∧ lexeme.Proper ∧
      p.currentToken.type = lexeme.type ∧ p.currentToken.value = lexeme.value := by
  cases lexemes with
  | nil => exact absurd standing.nil more
  | cons lexeme rest =>
      exact ⟨lexeme, rest, rfl, standing.proper _ List.mem_cons_self, standing.head⟩

theorem new_at {input : Text} (lexes : Lexes input lexemes) (bank : TermBank) :
    (TptpParser.new input bank).At lexemes := by
  rcases nextToken_lexes lexes 1 1 with ⟨token, later⟩
  exact ⟨token, later, lexes.proper⟩

theorem symbolType_inj {c d : Char} (same : symbolType c = symbolType d)
    (known : symbolType d ≠ .kUnkown) : c = d := by
  have listed : ∀ e : Char, symbolType e = .kUnkown ∨ e ∈ ['(', ')', ',', '.', '~', '|'] := by
    intro e
    unfold symbolType
    split <;> simp
  have apart : ∀ a ∈ ['(', ')', ',', '.', '~', '|'], ∀ b ∈ ['(', ')', ',', '.', '~', '|'],
      symbolType a = symbolType b → a = b := by simp [symbolType]
  exact apart c ((listed c).resolve_left (same ▸ known)) d ((listed d).resolve_left known) same

theorem Lexeme.Proper.eq_char {lexeme : Lexeme} (proper : lexeme.Proper)
    (type : lexeme.type = symbolType c) (known : symbolType c ≠ .kUnkown) : lexeme = .char c := by
  cases proper with
  | word _ => exact absurd type.symm (symbolType_other c).2
  | symbol d =>
      rcases symbolType_inj type known with rfl
      rfl

theorem TptpParser.At.char (standing : p.At lexemes) (type : p.currentToken.type = symbolType c)
    (known : symbolType c ≠ .kUnkown) : ∃ rest, lexemes = .char c :: rest := by
  rcases standing.cons (by rw [type]; exact (symbolType_other c).1) with
    ⟨lexeme, rest, rfl, proper, isType, _⟩
  rw [proper.eq_char (isType.symm.trans type) known]
  exact ⟨rest, rfl⟩

theorem TptpParser.At.word (standing : p.At lexemes) (type : p.currentToken.type = .kWord) :
    ∃ rest, lexemes = .word p.currentToken.value :: rest ∧ IsWord p.currentToken.value := by
  rcases standing.cons (by rw [type]; decide) with
    ⟨⟨_, _⟩, rest, rfl, proper, isType, isValue⟩
  rcases isType.symm.trans type with rfl
  rcases isValue with rfl
  exact ⟨rest, rfl, proper.isWord rfl⟩

theorem expect_char (c : Char) (standing : p.At lexemes) (known : symbolType c ≠ .kUnkown) :
    Yields (fun p' => ∃ rest, lexemes = .char c :: rest ∧ p'.At rest ∧ p' = p.advance)
      (p.expect (symbolType c)) := by
  rw [expect]
  split
  · exact ⟨_, rfl⟩
  · next type =>
      rcases standing.char (not_not.mp type) known with ⟨rest, rfl⟩
      exact ⟨rest, rfl, standing.step, rfl⟩

theorem expect_word (standing : p.At lexemes) :
    Yields (fun p' => ∃ rest, lexemes = .word p.currentToken.value :: rest ∧
      IsWord p.currentToken.value ∧ p'.At rest ∧ p' = p.advance) (p.expect .kWord) := by
  rw [expect]
  split
  · exact ⟨_, rfl⟩
  · next type =>
      rcases standing.word (not_not.mp type) with ⟨rest, rfl, isWord⟩
      exact ⟨rest, rfl, isWord, standing.step, rfl⟩

theorem expect_found {lexeme : Lexeme} (standing : p.At (lexeme :: rest)) :
    p.expect lexeme.type = .ok p.advance := by
  rw [expect, if_neg (not_not.mpr standing.head.1)]

end Tokens

theorem Agree.left {uses more : List Use} (agree : Agree (uses ++ more)) : Agree uses :=
  fun u hu v hv => agree u (List.mem_append_left _ hu) v (List.mem_append_left _ hv)

@[simp] theorem advance_bank (p : TptpParser) : p.advance.bank = p.bank := rfl

theorem Built.advance {uses : List Use} {p : TptpParser} (built : Built uses p) :
    Built uses p.advance :=
  ⟨built.wf, built.shared, built.known, built.named, built.small, built.cached⟩

theorem Built.again {uses : List Use} {p : TptpParser} (built : Built uses p) {use : Use}
    (member : use ∈ uses) : Built (uses ++ [use]) p := by
  refine ⟨built.wf, built.shared, fun u inside => ?_, fun info inside => ?_,
    fun few => built.small fun u inside => few u (List.mem_append_left _ inside),
    fun name id found => ?_⟩
  · rcases List.mem_append.mp inside with old | same
    · exact built.known u old
    · rcases List.mem_singleton.mp same with rfl
      exact built.known _ member
  · rcases built.named info inside with ⟨u, inUses, same⟩
    exact ⟨u, List.mem_append_left _ inUses, same⟩
  · rcases built.cached name id found with ⟨reads, inUses⟩
    exact ⟨reads, List.mem_append_left _ inUses⟩

/-- What the parsers of terms, literals and entries have in common. -/
structure Category (S α : Type) where
  uses : S → List Use
  Proper : S → Prop
  Reads : TermBank → S → α → Prop
  mono : ∀ {bank bank' : TermBank} {s : S} {a : α}, bank.Extends bank' → Reads bank s a →
    Reads bank' s a

namespace Category

variable {S α : Type} (C : Category S α)

structure Parsed (uses : List Use) (bank : TermBank) (s : S) (a : α) (p' : TptpParser) : Prop where
  proper : C.Proper s
  built : Built (uses ++ C.uses s) p'
  grows : bank.Extends p'.bank
  reads : C.Reads p'.bank s a

def Sound (render : S → List Lexeme) (fuel : Nat)
    (item : TptpParser → Except Fault (α × TptpParser)) : Prop :=
  ∀ uses p lexemes, p.At lexemes → Built uses p → lexemes.length < fuel →
    Yields (fun out => ∃ s rest, lexemes = render s ++ rest ∧ out.2.At rest ∧
      C.Parsed uses p.bank s out.1 out.2) (item p)

/-- Terms are not followed by an opening parenthesis: it would belong to them. -/
def Complete (render : S → List Lexeme) (fuel : Nat)
    (item : TptpParser → Except Fault (α × TptpParser)) : Prop :=
  ∀ uses p s rest, p.At (render s ++ rest) → C.Proper s → Built uses p →
    Agree (uses ++ C.uses s) →
    (∀ lexeme, rest.head? = some lexeme → lexeme.type ≠ .kLParen) →
    (render s ++ rest).length < fuel →
    ∃ a p', item p = .ok (a, p') ∧ p'.At rest ∧ C.Parsed uses p.bank s a p'

def list : Category (List S) (List α) where
  uses := fun items => items.flatMap C.uses
  Proper := fun items => ∀ s ∈ items, C.Proper s
  Reads := fun bank items out => List.Forall₂ (C.Reads bank) items out
  mono := fun grows reads => reads.imp fun _ _ => C.mono grows

variable {C}

variable {render : S → List Lexeme}

theorem Parsed.nil {uses : List Use} {p : TptpParser} (built : Built uses p) :
    C.list.Parsed uses p.bank [] [] p :=
  ⟨by simp [list], by simpa [list] using built, TermBank.Extends.refl _, .nil⟩

theorem Parsed.cons {uses : List Use} {bank : TermBank} {mid p' : TptpParser} {s : S}
    {items : List S} {a : α} {out : List α} (first : C.Parsed uses bank s a mid)
    (rest : C.list.Parsed (uses ++ C.uses s) mid.bank items out p') :
    C.list.Parsed uses bank (s :: items) (a :: out) p' := by
  refine ⟨List.forall_mem_cons.mpr ⟨first.proper, rest.proper⟩, ?_,
    first.grows.trans rest.grows, .cons (C.mono rest.grows first.reads) rest.reads⟩
  have built := rest.built
  rwa [List.append_assoc] at built

theorem more_sound {fuel : Nat} {item : TptpParser → Except Fault (α × TptpParser)} {c : Char}
    (known : symbolType c ≠ .kUnkown) (each : C.Sound render fuel item) (turns : Nat)
    (le : turns ≤ fuel) :
    C.list.Sound (renderMore (.char c) render) turns (moreAfter (symbolType c) item turns) := by
  induction turns with
  | zero => exact fun _ _ _ _ _ short => absurd short (Nat.not_lt_zero _)
  | succ turns ih =>
      intro uses p lexemes standing built short
      rw [moreAfter]
      split
      · next type =>
          rcases standing.char type known with ⟨rest, rfl⟩
          rw [List.length_cons] at short
          refine (each uses p.advance rest standing.step built.advance (by omega)).bind ?_
          rintro ⟨a, mid⟩ ⟨s, rest', rfl, standing', parsed⟩
          rw [List.length_append] at short
          refine (ih (by omega) _ mid rest' standing' parsed.built (by omega)).bind ?_
          rintro ⟨out, p'⟩ ⟨items, rest, rfl, standing'', parsed'⟩
          refine ⟨s :: items, rest, ?_, standing'', parsed.cons parsed'⟩
          simp [renderMore]
      · exact ⟨[], lexemes, rfl, standing, .nil built⟩

/-- The loop takes the items that are there, and stops at what is no separator. -/
theorem more_complete {fuel : Nat} {item : TptpParser → Except Fault (α × TptpParser)}
    {c : Char} (notParen : symbolType c ≠ .kLParen) (each : C.Complete render fuel item)
    (turns : Nat) (le : turns ≤ fuel) {uses : List Use} {p : TptpParser} {items : List S}
    {rest : List Lexeme} (standing : p.At (renderMore (.char c) render items ++ rest))
    (proper : ∀ s ∈ items, C.Proper s) (built : Built uses p)
    (agree : Agree (uses ++ items.flatMap C.uses))
    (stops : ∀ lexeme, rest.head? = some lexeme → lexeme.type ≠ .kLParen ∧
      lexeme.type ≠ symbolType c)
    (short : (renderMore (.char c) render items ++ rest).length < turns) :
    ∃ out p', moreAfter (symbolType c) item turns p = .ok (out, p') ∧ p'.At rest ∧
      C.list.Parsed uses p.bank items out p' := by
  induction turns generalizing uses p items with
  | zero => exact absurd short (Nat.not_lt_zero _)
  | succ turns ih =>
      cases items with
      | nil =>
          have stop : p.currentToken.type ≠ symbolType c := by
            cases rest with
            | nil => rw [standing.nil]; exact (symbolType_other c).1.symm
            | cons lexeme rest => rw [standing.head.1]; exact (stops lexeme rfl).2
          exact ⟨[], p, by rw [moreAfter, if_neg stop]; rfl, standing, .nil built⟩
      | cons s items =>
          rw [renderMore_cons] at standing short
          simp only [List.length_cons, List.length_append] at short
          rw [List.flatMap_cons, ← List.append_assoc] at agree
          rcases each uses p.advance s _ standing.step (proper s List.mem_cons_self) built.advance
            agree.left (renderMore_next_ne notParen fun lexeme head => (stops lexeme head).1)
            (by simp only [List.length_append]; omega) with ⟨a, mid, run, standing', parsed⟩
          rcases ih (by omega) standing'
            (fun s' member => proper s' (List.mem_cons_of_mem s member))
            parsed.built agree (by simp only [List.length_append]; omega) with
            ⟨out, p', runs, standing'', parsed'⟩
          refine ⟨a :: out, p', ?_, standing'', parsed.cons parsed'⟩
          have head : p.currentToken.type = symbolType c := standing.head.1
          simp only [moreAfter, if_pos head, run, runs, bind_ok, pure_eq_ok]

end Category

section Terms

def termCategory : Category SyntaxTerm Nat where
  uses := SyntaxTerm.uses
  Proper := SyntaxTerm.Proper
  Reads := Denotes
  mono := fun grows denotes => denotes.mono grows

theorem makeSymbolTerm_yields {uses : List Use} {p : TptpParser} (built : Built uses p)
    (name : Text) (kind : SymbolKind) (ids : List Nat) :
    Yields (fun _ => True) (p.makeSymbolTerm name kind ids) := by
  have interned : Yields (fun _ => True)
      (p.bank.symbols.intern name kind (toUInt16 ids.length)) := by
    cases found : p.bank.symbols.nameToId.lookup name with
    | none =>
        rw [SymbolTable.intern, found]
        trivial
    | some sym =>
        rcases built.wf.table.sound _ _ found with ⟨info, entry, _⟩
        simp only [SymbolTable.intern, found, SymbolTable.getInfo, entry, bind_ok]
        split
        · exact ⟨_, rfl⟩
        · trivial
  rw [makeSymbolTerm]
  exact interned.bind fun _ _ => trivial

theorem makeSymbolTerm_parsed {uses : List Use} {p p' : TptpParser} {bank : TermBank}
    {t : SyntaxTerm} {ids : List Nat} {id : Nat} {lexemes : List Lexeme} (proper : t.Proper)
    (standing : p.At lexemes) (grows : bank.Extends p.bank)
    (built : Built (uses ++ t.args.flatMap SyntaxTerm.uses) p)
    (reads : List.Forall₂ (Denotes p.bank) t.args ids)
    (isUses : t.uses = t.args.flatMap SyntaxTerm.uses ++ [⟨t.name, t.kind, t.args.length⟩])
    (run : p.makeSymbolTerm t.name t.kind ids = .ok (id, p')) :
    p'.At lexemes ∧ termCategory.Parsed uses bank t id p' := by
  rcases built.makeSymbolTerm t reads.length_eq
    (fun pair member => (List.forall₂_iff_zip.mp reads).2 member)
    run with ⟨built', grows', denotes, lexer, token, _⟩
  refine ⟨standing.same lexer token, proper, ?_, grows.trans grows', denotes⟩
  change Built (uses ++ t.uses) p'
  rwa [isUses, ← List.append_assoc]

theorem makeVariable_parsed {uses : List Use} {p p' : TptpParser} {name : Text} {id : Nat}
    {lexemes : List Lexeme} (proper : (SyntaxTerm.var name).Proper) (standing : p.At lexemes)
    (built : Built uses p) (run : p.makeVariable name = .ok (id, p')) :
    p'.At lexemes ∧ termCategory.Parsed uses p.bank (.var name) id p' := by
  have isUses : termCategory.uses (.var name) = [⟨name, .kVariable, 0⟩] := uses_var name
  cases hit : p.variableCache.lookup name with
  | some varId =>
      simp only [makeVariable, hit] at run
      rcases Prod.mk.inj (Except.ok.inj run) with ⟨rfl, rfl⟩
      rcases built.cached name varId hit with ⟨denotes, member⟩
      refine ⟨standing, proper, ?_, TermBank.Extends.refl _, denotes⟩
      rw [isUses]
      exact built.again member
  | none =>
      simp only [makeVariable, hit, bind_ok_iff, Prod.exists] at run
      rcases run with ⟨varId, mid, made, run⟩
      rcases Prod.mk.inj (pure_ok_iff.mp run) with ⟨rfl, rfl⟩
      rcases built.makeSymbolTerm (.var name) rfl (by simp [SyntaxTerm.args]) made with
        ⟨built', grows, denotes, lexer, token, cache⟩
      refine ⟨standing.same lexer token, proper, ?_, grows, denotes⟩
      rw [isUses]
      refine ⟨built'.wf, built'.shared, built'.known, built'.named, built'.small,
        fun other id found => ?_⟩
      simp only [List.lookup_cons] at found
      split at found
      · next same =>
          rcases Option.some.inj found with rfl
          rw [beq_iff_eq.mp same]
          exact ⟨denotes, List.mem_append_right _ List.mem_cons_self⟩
      · exact built'.cached other id found

theorem makeVariable_yields {uses : List Use} {p : TptpParser} (built : Built uses p)
    (name : Text) : Yields (fun _ => True) (p.makeVariable name) := by
  rw [makeVariable]
  split
  · trivial
  · exact (makeSymbolTerm_yields built name .kVariable []).bind fun _ _ => trivial

theorem Yields.and_ok {α : Type} {Q : α → Prop} {x : Except Fault α}
    (run : Yields (fun _ => True) x) (ok : ∀ a, x = .ok a → Q a) : Yields Q x := by
  cases x with
  | ok a => exact ok a rfl
  | error fault => exact run

theorem parseTerm_sound (fuel : Nat) :
    termCategory.Sound SyntaxTerm.render fuel (parseTerm fuel) := by
  induction fuel with
  | zero => exact fun _ _ _ _ _ short => absurd short (Nat.not_lt_zero _)
  | succ fuel ih =>
      intro uses p lexemes standing built short
      rw [parseTerm]
      split
      · exact ⟨_, rfl⟩
      next isWord =>
      rcases standing.word (not_not.mp isWord) with ⟨rest, rfl, word⟩
      generalize p.currentToken.value = name at standing word
      rw [List.length_cons] at short
      have behind := standing.step
      dsimp only
      split
      · next upper =>
          refine (makeVariable_yields built.advance name).and_ok fun out run => ?_
          rcases makeVariable_parsed (.var word upper) behind built.advance run with
            ⟨after, parsed⟩
          exact ⟨_, rest, by rw [render_var]; rfl, after, parsed⟩
      next lower =>
      rw [Bool.not_eq_true] at lower
      split
      · next paren =>
          rcases behind.char (c := '(') paren (by decide) with ⟨rest, rfl⟩
          rw [List.length_cons] at short
          have inside := behind.step
          split
          · next more =>
              refine (ih uses _ rest inside built.advance.advance (by omega)).bind ?_
              rintro ⟨first, mid⟩ ⟨t, rest, rfl, standing', parsed⟩
              rw [List.length_append] at short
              refine (Category.more_sound (c := ',') (by decide) ih fuel (Nat.le_refl _) _
                mid rest standing' parsed.built (by omega)).bind ?_
              rintro ⟨ids, q⟩ ⟨items, rest, rfl, standing'', parsed'⟩
              have args := parsed.cons parsed'
              refine (expect_char ')' standing'' (by decide)).bind ?_
              rintro _ ⟨rest, rfl, last, rfl⟩
              refine (makeSymbolTerm_yields args.built.advance name .kFunction
                (first :: ids)).and_ok fun out run => ?_
              rcases makeSymbolTerm_parsed (t := .app name (t :: items))
                (.app word lower args.proper) last args.grows args.built.advance args.reads
                (uses_app name _) run with ⟨after, whole⟩
              refine ⟨_, rest, ?_, after, whole⟩
              simp [render_app, renderList]
          · refine (expect_char ')' inside (by decide)).bind ?_
            rintro _ ⟨rest, rfl, last, rfl⟩
            refine (makeSymbolTerm_yields built.advance.advance.advance name .kFunction []).and_ok
              fun out run => ?_
            rcases makeSymbolTerm_parsed (SyntaxTerm.Proper.app word lower (by simp)) last
              (TermBank.Extends.refl p.bank)
              (by simpa [SyntaxTerm.args] using built.advance.advance.advance) .nil
              (uses_app name []) run with ⟨after, whole⟩
            refine ⟨_, rest, ?_, after, whole⟩
            simp [render_app, renderList]
      · refine (makeSymbolTerm_yields built.advance name .kConstant []).and_ok fun out run => ?_
        rcases makeSymbolTerm_parsed (t := .const name) (.const word lower) behind
          (TermBank.Extends.refl _)
          (by simpa [SyntaxTerm.args] using built.advance) .nil (uses_const name) run with
          ⟨after, parsed⟩
        exact ⟨_, rest, by rw [render_const]; rfl, after, parsed⟩

theorem makeSymbolTerm_ok {uses : List Use} {p : TptpParser} (built : Built uses p) {name : Text}
    {kind : SymbolKind} (ids : List Nat) (agree : Agree (uses ++ [⟨name, kind, ids.length⟩])) :
    ∃ out, p.makeSymbolTerm name kind ids = .ok out := by
  rcases built.intern agree with ⟨sym, symbols, interned⟩
  exact ⟨_, by rw [makeSymbolTerm, interned]; rfl⟩

theorem makeVariable_ok {uses : List Use} {p : TptpParser} (built : Built uses p) {name : Text}
    (agree : Agree (uses ++ [⟨name, .kVariable, 0⟩])) :
    ∃ out, p.makeVariable name = .ok out := by
  rw [makeVariable]
  split
  · exact ⟨_, rfl⟩
  · rcases makeSymbolTerm_ok built [] agree with ⟨out, made⟩
    exact ⟨_, by rw [made]; rfl⟩

theorem arguments_complete {fuel : Nat}
    (each : termCategory.Complete SyntaxTerm.render fuel (parseTerm fuel)) {uses : List Use}
    {p : TptpParser} {t : SyntaxTerm} {items : List SyntaxTerm} {rest : List Lexeme}
    (standing : p.At (renderList (.char ',') SyntaxTerm.render (t :: items) ++ .char ')' :: rest))
    (proper : ∀ s ∈ t :: items, s.Proper) (built : Built uses p)
    (agree : Agree (uses ++ (t :: items).flatMap SyntaxTerm.uses))
    (short :
      (renderList (.char ',') SyntaxTerm.render (t :: items) ++ .char ')' :: rest).length < fuel) :
    ∃ first mid ids q, parseTerm fuel p = .ok (first, mid) ∧
      moreAfter .kComma (parseTerm fuel) fuel mid = .ok (ids, q) ∧ q.At (.char ')' :: rest) ∧
      termCategory.list.Parsed uses p.bank (t :: items) (first :: ids) q := by
  rw [renderList, List.append_assoc] at standing
  simp only [renderList, List.length_append, List.length_cons] at short
  rw [List.flatMap_cons, ← List.append_assoc] at agree
  rcases each uses p t _ standing (proper t List.mem_cons_self) built agree.left
    (renderMore_next_ne (by decide) (next_ne (by decide)))
    (by simp only [List.length_append, List.length_cons]; omega) with
    ⟨first, mid, run, standing', parsed⟩
  rcases Category.more_complete (c := ',') (by decide) each fuel (Nat.le_refl _) standing'
    (fun s member => proper s (List.mem_cons_of_mem t member)) parsed.built agree
    (fun lexeme head => ⟨next_ne (by decide) lexeme head, next_ne (by decide) lexeme head⟩)
    (by simp only [List.length_append, List.length_cons]; omega) with
    ⟨ids, q, runs, standing'', parsed'⟩
  exact ⟨first, mid, ids, q, run, runs, standing'', parsed.cons parsed'⟩

theorem parseTerm_complete (fuel : Nat) :
    termCategory.Complete SyntaxTerm.render fuel (parseTerm fuel) := by
  induction fuel with
  | zero => exact fun _ _ _ _ _ _ _ _ _ short => absurd short (Nat.not_lt_zero _)
  | succ fuel ih =>
      intro uses p t rest standing proper built agree stops short
      change Agree (uses ++ t.uses) at agree
      cases proper with
      | @var name word upper =>
          rw [render_var] at standing
          rw [uses_var] at agree
          rcases makeVariable_ok built.advance agree with ⟨⟨id, p'⟩, run⟩
          rcases makeVariable_parsed (.var word upper) standing.step built.advance run with
            ⟨after, parsed⟩
          refine ⟨id, p', ?_, after, parsed⟩
          simp only [parseTerm, standing.head.1, standing.head.2, Lexeme.word, ne_eq,
            not_true_eq_false, if_false, upper, if_true, run]
      | @const name word lower =>
          rw [render_const] at standing
          rw [uses_const] at agree
          -- what follows a constant may not open a parenthesis, else it would be read as an
          -- application
          have noParen : p.advance.currentToken.type ≠ .kLParen := by
            have behind := standing.step
            cases rest with
            | nil => rw [behind.nil]; decide
            | cons lexeme rest => rw [behind.head.1]; exact stops lexeme rfl
          rcases makeSymbolTerm_ok built.advance [] agree with ⟨⟨id, p'⟩, run⟩
          rcases makeSymbolTerm_parsed (t := .const name) (.const word lower) standing.step
            (TermBank.Extends.refl _) (by simpa [SyntaxTerm.args] using built.advance) .nil
            (uses_const name) run with ⟨after, parsed⟩
          refine ⟨id, p', ?_, after, parsed⟩
          simp only [parseTerm, standing.head.1, standing.head.2, Lexeme.word, ne_eq,
            not_true_eq_false, if_false, lower, Bool.false_eq_true, noParen, run]
      | @app name args word lower proper =>
          rw [render_app] at standing short
          rw [uses_app, ← List.append_assoc] at agree
          have isWord := standing.head
          have isParen := standing.step.head
          have inside := standing.step.step
          simp only [Lexeme.word, Lexeme.char] at isWord isParen
          simp only [List.cons_append, List.append_assoc, List.length_cons, List.length_append,
            List.length_nil] at short
          cases args with
          | nil =>
              have last : p.advance.advance.advance.At rest := inside.step
              have inside : p.advance.advance.At (.char ')' :: rest) := inside
              have closed := expect_found inside
              have isClosed : p.advance.advance.currentToken.type = .kRParen := inside.head.1
              rcases makeSymbolTerm_ok built.advance.advance.advance [] (by simpa using agree)
                with ⟨⟨id, p'⟩, run⟩
              rcases makeSymbolTerm_parsed (SyntaxTerm.Proper.app word lower proper) last
                (TermBank.Extends.refl p.bank)
                (by simpa [SyntaxTerm.args] using built.advance.advance.advance) .nil
                (uses_app name []) run with ⟨after, parsed⟩
              refine ⟨id, p', ?_, after, parsed⟩
              simp only [parseTerm, isWord, ne_eq, not_true_eq_false, if_false, lower,
                Bool.false_eq_true, isParen.1, symbolType, if_true, isClosed]
              rw [show p.advance.advance.expect .kRParen = _ from closed, bind_ok, run]
          | cons t items =>
              replace inside : p.advance.advance.At
                  (renderList (.char ',') SyntaxTerm.render (t :: items) ++ .char ')' :: rest) := by
                simpa using inside
              -- a term begins with a word, so the list is not taken for the empty one
              have notClosed : p.advance.advance.currentToken.type ≠ .kRParen := by
                rcases t.render_head with ⟨w, tail, isRender⟩
                rw [renderList, isRender] at inside
                simp [inside.head.1, Lexeme.word]
              rcases arguments_complete ih inside proper built.advance.advance agree.left (by
                  simp only [List.length_append, List.length_cons]
                  omega) with ⟨first, mid, ids, q, run, runs, standing'', args⟩
              have closed := expect_found standing''
              rcases makeSymbolTerm_ok args.built.advance (first :: ids) (by
                  have widths : (first :: ids).length = (t :: items).length :=
                    args.reads.length_eq.symm
                  rw [widths]
                  exact agree) with ⟨⟨id, p'⟩, made⟩
              rcases makeSymbolTerm_parsed (t := .app name (t :: items)) (.app word lower proper)
                standing''.step args.grows args.built.advance args.reads (uses_app name _) made with
                ⟨after, whole⟩
              refine ⟨id, p', ?_, after, whole⟩
              simp only [parseTerm, isWord, ne_eq, not_true_eq_false, if_false, lower,
                Bool.false_eq_true,
                isParen.1, symbolType, if_true, notClosed, not_false_eq_true, run, bind_ok]
              rw [show moreAfter .kComma _ fuel mid = _ from runs, bind_ok]
              change (q.expect .kRParen >>= _) = _
              rw [show q.expect .kRParen = _ from closed, bind_ok, made]

end Terms

section Entries

def literalCategory : Category SyntaxLiteral Literal where
  uses := fun l => l.atom.uses
  Proper := fun l => l.atom.Proper
  Reads := SyntaxLiteral.Reads
  mono := fun grows reads => ⟨reads.polarity, reads.atom.mono grows⟩

theorem parseLiteral_sound (fuel : Nat) :
    literalCategory.Sound SyntaxLiteral.render fuel (parseLiteral fuel) := by
  intro uses p lexemes standing built short
  by_cases negated : p.currentToken.type = .kNot
  · rcases standing.char (c := '~') negated (by decide) with ⟨rest, rfl⟩
    simp only [parseLiteral, negated, if_true, ne_eq, not_true_eq_false, decide_false]
    refine (parseTerm_sound fuel uses p.advance rest standing.step built.advance
      (Nat.lt_of_succ_lt short)).bind ?_
    rintro ⟨atom, p'⟩ ⟨t, rest, rfl, after, parsed⟩
    exact ⟨⟨false, t⟩, rest, rfl, after, parsed.proper, parsed.built, parsed.grows, rfl,
      parsed.reads⟩
  · simp only [parseLiteral, negated, if_false, ne_eq, not_false_eq_true, decide_true]
    refine (parseTerm_sound fuel uses p lexemes standing built short).bind ?_
    rintro ⟨atom, p'⟩ ⟨t, rest, rfl, after, parsed⟩
    exact ⟨⟨true, t⟩, rest, rfl, after, parsed.proper, parsed.built, parsed.grows, rfl,
      parsed.reads⟩

theorem parseLiteral_complete (fuel : Nat) :
    literalCategory.Complete SyntaxLiteral.render fuel (parseLiteral fuel) := by
  rintro uses p ⟨isPositive, t⟩ rest standing proper built agree stops short
  cases isPositive with
  | false =>
      have inside : p.advance.At (t.render ++ rest) := standing.step
      have isNot : p.currentToken.type = .kNot := standing.head.1
      rcases parseTerm_complete fuel uses p.advance t rest inside proper built.advance agree stops
        (Nat.lt_of_succ_lt short) with ⟨atom, p', run, after, parsed⟩
      refine ⟨⟨atom, false⟩, p', ?_, after, parsed.proper, parsed.built, parsed.grows, rfl,
        parsed.reads⟩
      simp only [parseLiteral, isNot, if_true, run, bind_ok]
      rfl
  | true =>
      have inside : p.At (t.render ++ rest) := standing
      have isWord : p.currentToken.type ≠ .kNot := by
        rcases t.render_head with ⟨w, tail, isRender⟩
        rw [isRender] at inside
        simp [inside.head.1, Lexeme.word]
      rcases parseTerm_complete fuel uses p t rest inside proper built agree stops short with
        ⟨atom, p', run, after, parsed⟩
      refine ⟨⟨atom, true⟩, p', ?_, after, parsed.proper, parsed.built, parsed.grows, rfl,
        parsed.reads⟩
      simp [parseLiteral, isWord, run, bind_ok, pure_eq_ok]

def formulaCategory : Category SyntaxFormula AnnotatedFormula where
  uses := SyntaxFormula.uses
  Proper := SyntaxFormula.Proper
  Reads := SyntaxFormula.Reads
  mono := fun grows reads => ⟨reads.name, reads.role, reads.isCnf, by
    rcases reads.clause with ⟨lits, clauses, each⟩
    exact ⟨lits, clauses, each.imp fun _ _ h => ⟨h.polarity, h.atom.mono grows⟩⟩⟩

theorem Built.clear {uses : List Use} {p : TptpParser} (built : Built uses p) :
    Built uses { p with variableCache := [] } :=
  ⟨built.wf, built.shared, built.known, built.named, built.small,
    fun _ _ found => by cases found⟩

theorem parseCnf_sound {fuel : Nat} {uses : List Use} {p : TptpParser} {lexemes : List Lexeme}
    (standing : p.At lexemes) (built : Built uses p) (short : lexemes.length < fuel) :
    Yields (fun out => ∃ f rest, .word "cnf".toList :: lexemes =
      SyntaxFormula.render f ++ rest ∧
      out.2.At rest ∧ formulaCategory.Parsed uses p.bank f out.1 out.2) (parseCnf fuel p) := by
  rw [parseCnf]
  refine (expect_char '(' standing (by decide)).bind ?_
  rintro _ ⟨rest, rfl, atName, rfl⟩
  refine (expect_word atName).bind ?_
  rintro _ ⟨rest, rfl, isName, behindName, rfl⟩
  refine (expect_char ',' behindName (by decide)).bind ?_
  rintro _ ⟨rest, rfl, atRole, rfl⟩
  refine (expect_word atRole).bind ?_
  rintro _ ⟨rest, rfl, isRole, behindRole, rfl⟩
  refine (expect_char ',' behindRole (by decide)).bind ?_
  rintro _ ⟨rest, rfl, atFirst, rfl⟩
  simp only [List.length_cons] at short
  refine (parseLiteral_sound fuel uses _ rest atFirst
    built.advance.advance.advance.advance.advance (by omega)).bind ?_
  rintro ⟨lit, mid⟩ ⟨first, rest, rfl, standing', parsed⟩
  rw [List.length_append] at short
  refine (Category.more_sound (c := '|') (by decide) (parseLiteral_sound fuel) fuel
    (Nat.le_refl _) _ mid rest standing' parsed.built (by omega)).bind ?_
  rintro ⟨lits, q⟩ ⟨others, rest, rfl, standing'', parsed'⟩
  have literals := parsed.cons parsed'
  simp only [advance_bank] at literals
  refine (expect_char ')' standing'' (by decide)).bind ?_
  rintro _ ⟨rest, rfl, closed, rfl⟩
  refine (expect_char '.' closed (by decide)).bind ?_
  rintro _ ⟨rest, rfl, last, rfl⟩
  refine ⟨⟨_, _, first, others⟩, rest, ?_, last.same rfl rfl,
    ⟨isName, isRole, literals.proper⟩,
    literals.built.advance.advance.clear, literals.grows, rfl, rfl, rfl, lit :: lits, rfl,
    literals.reads⟩
  simp [SyntaxFormula.render, SyntaxFormula.literals, renderList]

theorem parseCnf_complete {fuel : Nat} {uses : List Use} {p : TptpParser} {f : SyntaxFormula}
    {rest : List Lexeme} (standing : p.At (f.render ++ rest)) (proper : f.Proper)
    (built : Built uses p) (agree : Agree (uses ++ f.uses))
    (short : (f.render ++ rest).length ≤ fuel) :
    ∃ af p', parseCnf fuel p.advance = .ok (af, p') ∧ p'.At rest ∧
      formulaCategory.Parsed uses p.bank f af p' := by
  rcases f with ⟨name, role, first, others⟩
  have atParen := standing.step
  have atName := atParen.step
  have behindName := atName.step
  have atRole := behindName.step
  have behindRole := atRole.step
  have split : renderList (.char '|') SyntaxLiteral.render (first :: others) ++
      [.char ')', .char '.'] ++ rest = first.render ++
        (renderMore (.char '|') SyntaxLiteral.render others ++ .char ')' :: .char '.' :: rest) := by
    simp [renderList]
  have inside : p.advance.advance.advance.advance.advance.advance.At
      (first.render ++ (renderMore (.char '|') SyntaxLiteral.render others ++
        .char ')' :: .char '.' :: rest)) := split ▸ behindRole.step
  simp only [SyntaxFormula.render, SyntaxFormula.literals, List.cons_append, split,
    List.length_cons, List.length_append] at short
  have agree' : Agree (uses ++ first.atom.uses ++ others.flatMap fun l => l.atom.uses) := by
    rw [List.append_assoc]
    exact agree
  rcases parseLiteral_complete fuel uses _ first _ inside (proper.literals first List.mem_cons_self)
    built.advance.advance.advance.advance.advance.advance agree'.left
    (renderMore_next_ne (by decide) (next_ne (by decide)))
    (by simp only [List.length_append, List.length_cons]; omega) with
    ⟨lit, mid, run, standing', parsed⟩
  rcases Category.more_complete (c := '|') (by decide) (parseLiteral_complete fuel) fuel
    (Nat.le_refl _) standing'
    (fun l member => proper.literals l (List.mem_cons_of_mem first member)) parsed.built agree'
    (fun lexeme head => ⟨next_ne (by decide) lexeme head, next_ne (by decide) lexeme head⟩)
    (by simp only [List.length_append, List.length_cons]; omega) with
    ⟨lits, q, runs, closing, parsed'⟩
  have literals := parsed.cons parsed'
  simp only [advance_bank] at literals
  refine ⟨⟨name, parseRole role, [{ literals := lit :: lits }], true⟩,
    { q.advance.advance with variableCache := [] }, ?_, closing.step.step.same rfl rfl, proper,
    literals.built.advance.advance.clear, literals.grows, rfl, rfl, rfl, lit :: lits, rfl,
    literals.reads⟩
  have e1 := expect_found atParen
  have e2 := expect_found atName
  have e3 := expect_found behindName
  have e4 := expect_found atRole
  have e5 := expect_found behindRole
  have e6 := expect_found closing
  have e7 := expect_found closing.step
  have isName := atName.head.2
  have isRole := atRole.head.2
  simp only [Lexeme.word, Lexeme.char, symbolType] at e1 e2 e3 e4 e5 e6 e7 isName isRole runs
  simp only [parseCnf, e1, e2, e3, e4, e5, run, runs, e6, e7, bind_ok, pure_eq_ok, isName, isRole]

theorem parseProblem_sound (fuel : Nat) :
    formulaCategory.list.Sound (List.flatMap SyntaxFormula.render) fuel (parseProblem fuel) := by
  induction fuel with
  | zero => exact fun _ _ _ _ _ short => absurd short (Nat.not_lt_zero _)
  | succ fuel ih =>
      intro uses p lexemes standing built short
      rw [parseProblem]
      split
      · exact ⟨[], lexemes, rfl, standing, .nil built⟩
      split
      · next cnf =>
          rcases standing.word cnf.1 with ⟨rest, rfl, _⟩
          rw [List.length_cons] at short
          refine (parseCnf_sound standing.step built.advance (by omega)).bind ?_
          rintro ⟨af, mid⟩ ⟨f, rest', isEntry, standing', parsed⟩
          rw [cnf.2, isEntry]
          have lengths := congrArg List.length isEntry
          rcases render_formula f with ⟨tail, isRender⟩
          rw [isRender] at lengths
          simp only [List.length_cons, List.length_append] at lengths
          refine (ih _ mid rest' standing' parsed.built (by omega)).bind ?_
          rintro ⟨afs, p'⟩ ⟨formulas, rest, rfl, standing'', parsed'⟩
          exact ⟨f :: formulas, rest, by simp, standing'', parsed.cons parsed'⟩
      · split <;> exact ⟨_, rfl⟩

theorem parseProblem_end {fuel : Nat} {p p' : TptpParser} {afs : List AnnotatedFormula}
    {lexemes : List Lexeme} (run : parseProblem fuel p = .ok (afs, p')) (standing : p'.At lexemes) :
    lexemes = [] := by
  induction fuel generalizing p afs with
  | zero => cases run
  | succ fuel ih =>
      rw [parseProblem] at run
      split at run
      · next eof =>
          rcases Prod.mk.inj (Except.ok.inj run) with ⟨_, rfl⟩
          cases lexemes with
          | nil => rfl
          | cons lexeme rest =>
              rw [standing.head.1] at eof
              exact absurd eof (standing.proper lexeme List.mem_cons_self).ne_eof
      split at run
      · simp only [bind_ok_iff, Prod.exists] at run
        rcases run with ⟨af, mid, _, afs', q, later, run⟩
        rcases Prod.mk.inj (pure_ok_iff.mp run) with ⟨_, rfl⟩
        exact ih later
      · split at run <;> cases run

theorem parseProblem_complete {fuel : Nat} {uses : List Use} {p : TptpParser}
    {formulas : List SyntaxFormula} (standing : p.At (formulas.flatMap SyntaxFormula.render))
    (proper : ∀ f ∈ formulas, f.Proper) (built : Built uses p)
    (agree : Agree (uses ++ formulas.flatMap SyntaxFormula.uses))
    (short : (formulas.flatMap SyntaxFormula.render).length < fuel) :
    ∃ afs p', parseProblem fuel p = .ok (afs, p') ∧
      formulaCategory.list.Parsed uses p.bank formulas afs p' := by
  induction fuel generalizing uses p formulas with
  | zero => exact absurd short (Nat.not_lt_zero _)
  | succ fuel ih =>
      cases formulas with
      | nil => exact ⟨[], p, by rw [parseProblem, if_pos standing.nil], .nil built⟩
      | cons f formulas =>
          rw [List.flatMap_cons] at standing short
          rw [List.flatMap_cons, ← List.append_assoc] at agree
          rcases parseCnf_complete standing (proper f List.mem_cons_self) built agree.left
            (Nat.le_of_lt_succ short) with ⟨af, mid, run, standing', parsed⟩
          rcases render_formula f with ⟨tail, isRender⟩
          rw [isRender] at standing short
          simp only [List.cons_append, List.length_cons, List.length_append] at short
          rcases ih standing' (fun g member => proper g (List.mem_cons_of_mem f member))
            parsed.built agree (by omega) with ⟨afs, p', runs, parsed'⟩
          refine ⟨af :: afs, p', ?_, parsed.cons parsed'⟩
          have notEnd : p.currentToken.type ≠ .kEOF := by simp [standing.head.1, Lexeme.word]
          have isCnf : p.currentToken.type = .kWord ∧ p.currentToken.value = "cnf".toList :=
            standing.head
          simp only [parseProblem, if_neg notEnd, if_pos isCnf, run, runs, bind_ok, pure_eq_ok]

end Entries

def ParsedProblem.ReadsAs (bank : TermBank) (formulas : List SyntaxFormula)
    (problem : ParsedProblem) :
    Prop :=
  List.Forall₂ (SyntaxFormula.Reads bank) formulas problem.formulas

theorem empty_built {input : Text} : Built [] (TptpParser.new input {}) := by
  have bank : (TptpParser.new input {}).bank = {} := rfl
  have cache : (TptpParser.new input {}).variableCache = [] := rfl
  constructor <;> simp [bank, cache, TermBank.HashConsed, TermBank.ArityBounded]
  exact TermBank.empty_wellFormed

theorem parse_into_sound {bank : TermBank} {uses : List Use} {input : Text}
    (start : Built uses (TptpParser.new input bank)) :
    Yields (fun out => ∃ formulas, Renders formulas input ∧ bank.Extends out.2 ∧
      ∃ p : TptpParser, p.bank = out.2 ∧ Built (uses ++ formulas.flatMap SyntaxFormula.uses) p ∧
        out.1.ReadsAs out.2 formulas) (parseTptpString input bank) := by
  rcases lexes_total input with ⟨lexemes, lexes⟩
  have parse := parseProblem_sound (input.length + 1) _ _ lexemes (new_at lexes bank) start
    (Nat.lt_succ_of_le lexes.length_le)
  rw [parseTptpString]
  cases run : parseProblem (input.length + 1) (TptpParser.new input bank) with
  | error fault =>
      rw [run] at parse
      exact parse
  | ok out =>
      rw [run] at parse
      rcases parse with ⟨formulas, rest, rfl, last, parsed⟩
      rcases parseProblem_end run last with rfl
      rw [List.append_nil] at lexes
      exact ⟨formulas, ⟨parsed.proper, lexes⟩, parsed.grows, out.2, rfl, parsed.built,
        parsed.reads⟩

theorem parse_into_complete {bank : TermBank} {uses : List Use} {input : Text}
    {formulas : List SyntaxFormula} (start : Built uses (TptpParser.new input bank))
    (renders : Renders formulas input)
    (agree : Agree (uses ++ formulas.flatMap SyntaxFormula.uses)) :
    ∃ problem bank', parseTptpString input bank = .ok (problem, bank') ∧
      problem.ReadsAs bank' formulas := by
  rcases parseProblem_complete (new_at renders.lexes bank) renders.proper start agree
    (Nat.lt_succ_of_le renders.lexes.length_le) with ⟨afs, p, run, parsed⟩
  exact ⟨⟨afs⟩, p.bank, by rw [parseTptpString, run]; rfl, parsed.reads⟩

theorem parseTptpString_sound (input : Text) :
    Yields (fun out => ∃ formulas, Renders formulas input ∧
      ∃ p : TptpParser, p.bank = out.2 ∧ Built (formulas.flatMap SyntaxFormula.uses) p ∧
        out.1.ReadsAs out.2 formulas) (parseTptpString input) := by
  have sound := parse_into_sound (empty_built : Built [] (TptpParser.new input {}))
  cases run : parseTptpString input with
  | error fault =>
      rw [run] at sound
      exact sound
  | ok out =>
      rw [run] at sound
      rcases sound with ⟨formulas, renders, _, p, same, built, reads⟩
      exact ⟨formulas, renders, p, same, built, reads⟩

/-- Parsing is exact. The parser returns or throws; it returns exactly on the
renderings of consistent entries, with their readings, and a tree has one id. -/
theorem parse_exact (input : Text) (few : FewArguments input) :
    (∀ fault, parseTptpString input = .error fault → ∃ what, fault = .runtimeError what) ∧
    ((∃ out, parseTptpString input = .ok out) ↔
      ∃ formulas, Renders formulas input ∧ Consistent (formulas.flatMap SyntaxFormula.uses)) ∧
    ∀ problem bank formulas, parseTptpString input = .ok (problem, bank) →
      Renders formulas input →
      problem.ReadsAs bank formulas ∧ ∀ t i j, Denotes bank t i → Denotes bank t j →
        i = j := by
  have sound := parseTptpString_sound input
  refine ⟨fun fault run => ?_, ⟨?_, ?_⟩, fun problem bank formulas run renders => ?_⟩
  · rw [run] at sound
    exact sound
  · rintro ⟨out, run⟩
    rw [run] at sound
    rcases sound with ⟨formulas, renders, p, _, built, _⟩
    refine ⟨formulas, renders, built.agree.consistent fun u member => ?_⟩
    rcases List.mem_flatMap.mp member with ⟨f, inside, use⟩
    exact few formulas renders f inside u use
  · rintro ⟨formulas, renders, consistent⟩
    rcases parse_into_complete empty_built renders consistent.agree with ⟨problem, bank, run, _⟩
    exact ⟨_, run⟩
  · rw [run] at sound
    rcases sound with ⟨formulas', renders', p, rfl, built, reads⟩
    rcases renders.unique renders' with rfl
    exact ⟨reads, fun t i j => Denotes.unique built.wf built.shared⟩

def entryInput : Text := "cnf(a,axiom,p(X,f())|~q). % one entry".toList

theorem parse_exact_entry :
    ∃ formulas, Renders formulas entryInput ∧
      Consistent (formulas.flatMap SyntaxFormula.uses) := by
  have returned : (parseTptpString entryInput).isOk = true := by decide +kernel
  refine (parse_exact entryInput fun _ renders => renders.bounded (by decide +kernel)).2.1.mp ?_
  cases run : parseTptpString entryInput with
  | ok out => exact ⟨out, rfl⟩
  | error fault =>
      rw [run] at returned
      cases returned

end AtpEngine
