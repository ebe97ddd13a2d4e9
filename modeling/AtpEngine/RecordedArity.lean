import AtpEngine.ParserExact
import AtpEngine.Unification

/-!
The numbers of arguments that the symbol table records. Both the parser and
Term::arity keep 16 bits of a number that the grammar leaves open, so what is
recorded is the real number exactly on inputs with short argument lists.
-/
namespace AtpEngine

open Fuelled TptpParser

section Keeping

def Keeps {α : Type} (inv : TermBank → Prop)
    (item : TptpParser → Except Fault (α × TptpParser)) : Prop :=
  ∀ p a p', inv p.bank → item p = .ok (a, p') → inv p'.bank

variable {inv : TermBank → Prop}

theorem expect_bank {p p' : TptpParser} {type : TokenType} (run : p.expect type = .ok p') :
    p'.bank = p.bank := by
  rw [expect] at run
  split at run
  · cases run
  · rcases Except.ok.inj run with rfl
    rfl

theorem moreAfter_keeps {α : Type} {item : TptpParser → Except Fault (α × TptpParser)}
    {sep : TokenType} (each : Keeps inv item) (fuel : Nat) :
    Keeps inv (moreAfter sep item fuel) := by
  induction fuel with
  | zero => exact fun _ _ _ _ run => by cases run
  | succ fuel ih =>
      intro p out p' start run
      rw [moreAfter] at run
      split at run
      · simp only [bind_ok_iff, Prod.exists] at run
        rcases run with ⟨a, mid, first, rest, q, later, run⟩
        rcases Prod.mk.inj (pure_ok_iff.mp run) with ⟨_, rfl⟩
        exact ih _ _ _ (each p.advance _ _ start first) later
      · rcases Prod.mk.inj (Except.ok.inj run) with ⟨_, rfl⟩
        exact start

variable (made : ∀ name kind args, Keeps inv fun p => p.makeSymbolTerm name kind args)
include made

theorem makeVariable_keeps (name : Text) : Keeps inv fun p => p.makeVariable name := by
  intro p id p' start run
  simp only [makeVariable] at run
  split at run
  · rcases Prod.mk.inj (Except.ok.inj run) with ⟨_, rfl⟩
    exact start
  · simp only [bind_ok_iff, Prod.exists] at run
    rcases run with ⟨varId, mid, interned, run⟩
    rcases Prod.mk.inj (pure_ok_iff.mp run) with ⟨_, rfl⟩
    exact made name .kVariable [] p _ mid start interned

theorem parseTerm_keeps (fuel : Nat) : Keeps inv (parseTerm fuel) := by
  induction fuel with
  | zero => exact fun _ _ _ _ run => by cases run
  | succ fuel ih =>
      intro p id p' start run
      rw [parseTerm] at run
      split at run
      · cases run
      dsimp only at run
      split at run
      · exact makeVariable_keeps made _ p.advance _ _ start run
      split at run
      · split at run
        · simp only [bind_ok_iff, Prod.exists] at run
          rcases run with ⟨first, mid, head, rest, q, tail, closed, close, run⟩
          have inside := moreAfter_keeps ih fuel mid _ _ (ih p.advance.advance _ _ start head) tail
          exact made _ _ _ closed _ _ ((expect_bank close).symm ▸ inside) run
        · rw [bind_ok_iff] at run
          rcases run with ⟨closed, close, run⟩
          exact made _ _ _ closed _ _ ((expect_bank close).symm ▸ start) run
      · exact made _ _ _ p.advance _ _ start run

theorem parseLiteral_keeps (fuel : Nat) : Keeps inv (parseLiteral fuel) := by
  intro p lit p' start run
  simp only [parseLiteral, bind_ok_iff, Prod.exists] at run
  rcases run with ⟨atom, q, term, run⟩
  rcases Prod.mk.inj (pure_ok_iff.mp run) with ⟨_, rfl⟩
  refine parseTerm_keeps made fuel _ _ _ ?_ term
  split <;> exact start

theorem parseCnf_keeps (fuel : Nat) : Keeps inv (parseCnf fuel) := by
  intro p af p' start run
  simp only [parseCnf, bind_ok_iff, Prod.exists] at run
  rcases run with
    ⟨p1, e1, p2, e2, p3, e3, p4, e4, p5, e5, first, p6, head, rest, p7, tail, p8, e8, p9, e9,
    run⟩
  rcases Prod.mk.inj (pure_ok_iff.mp run) with ⟨_, rfl⟩
  have before : inv p5.bank := by
    rw [expect_bank e5, expect_bank e4, expect_bank e3, expect_bank e2, expect_bank e1]
    exact start
  have literals := moreAfter_keeps (parseLiteral_keeps made fuel) fuel p6 _ _
    (parseLiteral_keeps made fuel p5 _ _ before head) tail
  change inv p9.bank
  rw [expect_bank e9, expect_bank e8]
  exact literals

theorem parseProblem_keeps (fuel : Nat) : Keeps inv (parseProblem fuel) := by
  induction fuel with
  | zero => exact fun _ _ _ _ run => by cases run
  | succ fuel ih =>
      intro p afs p' start run
      rw [parseProblem] at run
      split at run
      · rcases Prod.mk.inj (Except.ok.inj run) with ⟨_, rfl⟩
        exact start
      split at run
      · simp only [bind_ok_iff, Prod.exists] at run
        rcases run with ⟨af, mid, entry, rest, q, later, run⟩
        rcases Prod.mk.inj (pure_ok_iff.mp run) with ⟨_, rfl⟩
        exact ih mid _ _ (parseCnf_keeps made fuel p.advance _ _ start entry) later
      · split at run <;> cases run

theorem parseTptpString_keeps (empty : inv {}) {input : Text} {problem : ParsedProblem}
    {bank : TermBank} (run : parseTptpString input = .ok (problem, bank)) : inv bank := by
  simp only [parseTptpString, bind_ok_iff, Prod.exists] at run
  rcases run with ⟨formulas, p, parsed, run⟩
  rcases Prod.mk.inj (pure_ok_iff.mp run) with ⟨_, rfl⟩
  exact parseProblem_keeps made _ _ _ _ empty parsed

end Keeping

section Arities

def TermBank.Recorded (bank : TermBank) : Prop :=
  ∀ (id : Nat) (t : Term), bank.terms[id]? = some t →
    ∃ info, bank.symbols.infos[t.symbolId]? = some info ∧ info.arity = toUInt16 t.args.length

theorem makeSymbolTerm_recorded (name : Text) (kind : SymbolKind) (args : List Nat) :
    Keeps TermBank.Recorded fun p => p.makeSymbolTerm name kind args := by
  intro p id p' start run
  simp only [makeSymbolTerm, bind_ok_iff, Prod.exists] at run
  rcases run with ⟨sym, symbols, interned, run⟩
  rcases SymbolTable.intern_info interned with ⟨own, entry, _, arity⟩
  have infos := SymbolTable.intern_prefix interned
  have old : ∀ (id : Nat) (t : Term), p.bank.terms[id]? = some t →
      ∃ info, symbols.infos[t.symbolId]? = some info ∧ info.arity = toUInt16 t.args.length := by
    intro id t found
    rcases start id t found with ⟨info, known, recorded⟩
    exact ⟨info, prefix_getElem? infos known, recorded⟩
  rcases TermBank.makeTerm_cases { p.bank with symbols } sym args with
    ⟨_, _, made⟩ | ⟨_, made⟩
  · rw [made] at run
    rcases Prod.mk.inj (pure_ok_iff.mp run) with ⟨_, rfl⟩
    exact old
  · rw [made] at run
    rcases Prod.mk.inj (pure_ok_iff.mp run) with ⟨_, rfl⟩
    intro id t found
    rcases TermBank.getElem?_append_singleton found with before | ⟨_, rfl⟩
    · exact old id t before
    · exact ⟨own, entry, arity⟩

/-- The recorded and the computed number of arguments are the real one, so that
equal symbols have equally many and the loop of `unify` compares all of them. -/
structure TermBank.ArityExact (bank : TermBank) : Prop where
  recorded : ∀ (id : Nat) (t : Term), bank.terms[id]? = some t →
    ∃ info, bank.symbols.infos[t.symbolId]? = some info ∧ info.arity = t.args.length
  symbols : ∀ (i j : Nat) (t u : Term), bank.terms[i]? = some t → bank.terms[j]? = some u →
    t.symbolId = u.symbolId → t.args.length = u.args.length ∧ argPairs t u = t.args.zip u.args
  arity : ∀ (id : Nat) (t : Term), bank.terms[id]? = some t → t.arity = t.args.length

theorem TermBank.Recorded.exact {bank : TermBank} (recorded : bank.Recorded)
    (small : bank.ArityBounded) : bank.ArityExact := by
  have whole : ∀ (id : Nat) (t : Term), bank.terms[id]? = some t →
      toUInt16 t.args.length = t.args.length := by
    intro id t found
    have few := small id t found
    exact Nat.mod_eq_of_lt (by omega)
  have known : ∀ (id : Nat) (t : Term), bank.terms[id]? = some t →
      ∃ info, bank.symbols.infos[t.symbolId]? = some info ∧ info.arity = t.args.length := by
    intro id t found
    rcases recorded id t found with ⟨info, entry, arity⟩
    exact ⟨info, entry, arity.trans (whole id t found)⟩
  refine ⟨known, fun i j t u atI atJ same => ?_, whole⟩
  rcases known i t atI with ⟨info, entry, arity⟩
  rcases known j u atJ with ⟨info', entry', arity'⟩
  rw [same] at entry
  rcases Option.some.inj (entry.symm.trans entry') with rfl
  have widths : t.args.length = u.args.length := arity.symm.trans arity'
  refine ⟨widths, ?_⟩
  have count : t.arity = t.args.length := whole i t atI
  rw [argPairs, count, List.take_length, widths, List.take_length]

theorem Denotes.uses {bank : TermBank} {t : SyntaxTerm} {id : Nat} (denotes : Denotes bank t id)
    {u : Use} (use : u ∈ t.uses) : ∃ (i : Nat) (term : Term), bank.terms[i]? = some term ∧
      term.args.length = u.count := by
  induction denotes with
  | @intro t id sym ids entry _ widths _ ih =>
      cases t with
      | var name =>
          rw [uses_var, List.mem_singleton] at use
          exact ⟨id, _, entry, by rw [use]; exact widths.symm⟩
      | const name =>
          rw [uses_const, List.mem_singleton] at use
          exact ⟨id, _, entry, by rw [use]; exact widths.symm⟩
      | app name args =>
          rw [uses_app, List.mem_append, List.mem_flatMap, List.mem_singleton] at use
          rcases use with ⟨arg, member, inner⟩ | own
          · rcases mem_zip_of_mem_left widths member with ⟨_, _, pair⟩
            exact ih _ pair inner
          · exact ⟨id, _, entry, by rw [own]; exact widths.symm⟩

theorem TermBank.ArityExact.bounded {bank : TermBank} (exact : bank.ArityExact)
    {formulas : List SyntaxFormula} {problem : ParsedProblem}
    (reads : problem.ReadsAs bank formulas) :
    ∀ f ∈ formulas, f.Bounded := by
  intro f inside u use
  rcases forall₂_mem_left reads inside with ⟨af, _, read⟩
  rcases List.mem_flatMap.mp use with ⟨l, member, inAtom⟩
  rcases read.clause with ⟨lits, _, each⟩
  rcases forall₂_mem_left each member with ⟨lit, _, readLit⟩
  rcases readLit.atom.uses inAtom with ⟨i, term, entry, count⟩
  rw [← count, ← exact.arity i term entry]
  exact Nat.mod_lt _ (by decide)

/-- The recorded numbers of arguments are exact if and only if every argument
list of the input has at most 65535 arguments. -/
theorem arity_exact {input : Text} {problem : ParsedProblem} {bank : TermBank}
    (run : parseTptpString input = .ok (problem, bank)) :
    bank.ArityExact ↔ FewArguments input := by
  have sound := parseTptpString_sound input
  rw [run] at sound
  rcases sound with ⟨formulas, renders, p, rfl, built, reads⟩
  constructor
  · intro exact formulas' renders'
    rcases renders.unique renders' with rfl
    exact exact.bounded reads
  · intro few
    have recorded : p.bank.Recorded :=
      parseTptpString_keeps makeSymbolTerm_recorded (fun _ _ found => by simp at found) run
    refine recorded.exact (built.small fun u member => ?_)
    rcases List.mem_flatMap.mp member with ⟨f, inside, use⟩
    exact few formulas renders f inside u use

theorem arity_exact_entry : ∃ (problem : ParsedProblem) (bank : TermBank),
    parseTptpString entryInput = .ok (problem, bank) ∧ bank.ArityExact := by
  have returned : (parseTptpString entryInput).isOk = true := by decide +kernel
  cases run : parseTptpString entryInput with
  | error fault =>
      rw [run] at returned
      cases returned
  | ok out =>
      exact ⟨out.1, out.2, rfl, (arity_exact run).mpr fun _ renders =>
        renders.bounded (by decide +kernel)⟩

end Arities

section Wide

theorem isWord_of {w : Text} (start : w.head?.any isWordStart = true)
    (chars : w.all isWordChar = true) :
    IsWord w := by
  cases w with
  | nil => cases start
  | cons c rest => exact ⟨⟨c, rest, rfl, start⟩, List.all_eq_true.mp chars⟩

theorem lexes_word {w rest : Text} {c : Char} {lexemes : List Lexeme}
    (start : w.head?.any isWordStart = true) (chars : w.all isWordChar = true)
    (ends : isWordChar c = false) (later : Lexes (c :: rest) lexemes) :
    Lexes (w ++ c :: rest) (.word w :: lexemes) :=
  .word (isWord_of start chars) (fun d head => by rw [← Option.some.inj head]; exact ends) later

def wideFormula (more : Nat) : SyntaxFormula where
  name := ['a']
  role := "axiom".toList
  first := ⟨true, .app ['p'] (.const ['a'] :: List.replicate more (.const ['a']))⟩
  rest := []

def wideText (more : Nat) : Text :=
  "cnf".toList ++ '(' :: (['a'] ++ ',' :: ("axiom".toList ++ ',' :: (['p'] ++ '(' :: (['a'] ++
    ((List.replicate more [',', 'a']).flatten ++ [')', ')', '.'])))))

theorem lexes_wide (more : Nat) : ∃ c rest,
    (List.replicate more [',', 'a']).flatten ++ [')', ')', '.'] = c :: rest ∧
    isWordChar c = false ∧
    Lexes (c :: rest)
      (renderMore (.char ',') SyntaxTerm.render (List.replicate more (.const ['a'])) ++
        [.char ')', .char ')', .char '.']) := by
  induction more with
  | zero =>
      have last : Lexes ['.'] [.char '.'] := lexes_char (by decide) .eof
      exact ⟨')', [')', '.'], rfl, by decide,
        lexes_char (by decide) (lexes_char (by decide) last)⟩
  | succ more ih =>
      rcases ih with ⟨c, rest, text, ends, lexes⟩
      refine ⟨',', 'a' :: c :: rest, ?_, by decide, ?_⟩
      · rw [List.replicate_succ, List.flatten_cons, List.append_assoc, text]
        rfl
      · have word := lexes_word (w := ['a']) (by decide) (by decide) ends lexes
        rw [List.replicate_succ, renderMore, List.flatMap_cons, render_const]
        exact lexes_char (by decide) word

theorem wide_renders (more : Nat) : Renders [wideFormula more] (wideText more) := by
  have isA : IsWord ['a'] := isWord_of (by decide) (by decide)
  have const : SyntaxTerm.Proper (.const ['a']) := .const isA (by decide)
  constructor
  · intro f inside
    rcases List.mem_singleton.mp inside with rfl
    have role : IsWord "axiom".toList := isWord_of (by decide) (by decide)
    refine ⟨isA, role, fun lit member => ?_⟩
    rcases List.mem_singleton.mp member with rfl
    refine .app (isWord_of (by decide) (by decide)) (by decide) fun arg member => ?_
    rcases List.mem_cons.mp member with rfl | later
    · exact const
    · rw [List.eq_of_mem_replicate later]
      exact const
  · rcases lexes_wide more with ⟨c, rest, text, ends, lexes⟩
    have args := lexes_word (w := ['a']) (by decide) (by decide) ends lexes
    have atom := lexes_word (w := ['p']) (by decide) (by decide) (by decide)
      (lexes_char (c := '(') (by decide) args)
    have role : Lexes _ (.word "axiom".toList :: _) :=
      lexes_word (by decide) (by decide) (by decide) (lexes_char (c := ',') (by decide) atom)
    have name := lexes_word (w := ['a']) (by decide) (by decide) (by decide)
      (lexes_char (c := ',') (by decide) role)
    have entry := lexes_word (w := "cnf".toList) (by decide) (by decide) (by decide)
      (lexes_char (c := '(') (by decide) name)
    have tokens : [wideFormula more].flatMap SyntaxFormula.render =
        .word "cnf".toList :: .char '(' :: .word ['a'] :: .char ',' :: .word "axiom".toList ::
          .char ',' :: .word ['p'] :: .char '(' :: .word ['a'] ::
          (renderMore (.char ',') SyntaxTerm.render (List.replicate more (.const ['a'])) ++
            [.char ')', .char ')', .char '.']) := by
      simp [SyntaxFormula.render, SyntaxFormula.literals, SyntaxLiteral.render,
        wideFormula, renderList, renderMore, render_app, render_const]
    rw [wideText, text, tokens]
    exact entry

theorem mem_wide_uses {more : Nat} {u : Use} : u ∈ (wideFormula more).uses ↔
    u = ⟨['a'], .kConstant, 0⟩ ∨ u = ⟨['p'], .kFunction, more + 1⟩ := by
  have one : (wideFormula more).uses =
      (SyntaxTerm.app ['p'] (.const ['a'] :: List.replicate more (.const ['a']))).uses := by
    simp [SyntaxFormula.uses, SyntaxFormula.literals, wideFormula]
  rw [one, uses_app, List.mem_append, List.mem_flatMap, List.mem_singleton, List.length_cons,
    List.length_replicate]
  refine or_congr_left
    ⟨?_, fun same => ⟨_, List.mem_cons_self, by rw [uses_const, same]; simp⟩⟩
  rintro ⟨arg, member, use⟩
  have isConst : arg = .const ['a'] := by
    rcases List.mem_cons.mp member with first | later
    · exact first
    · exact List.eq_of_mem_replicate later
  rw [isConst, uses_const] at use
  exact List.mem_singleton.mp use

/-- 65536 arguments, of which the parser and Term::arity count 0. -/
def wideInput : Text := wideText 65535

theorem wide_miscounted : ∃ (problem : ParsedProblem) (bank : TermBank),
    parseTptpString wideInput = .ok (problem, bank) ∧ ¬ bank.ArityExact := by
  have agree : Agree ([wideFormula 65535].flatMap SyntaxFormula.uses) := by
    rw [List.flatMap_singleton]
    intro u hu v hv same
    rcases mem_wide_uses.mp hu with rfl | rfl <;> rcases mem_wide_uses.mp hv with rfl | rfl
    · exact ⟨rfl, rfl⟩
    · exact absurd same (by decide)
    · exact absurd same (by decide)
    · exact ⟨rfl, rfl⟩
  rcases parse_into_complete empty_built (wide_renders 65535) agree with ⟨problem, bank, run, reads⟩
  refine ⟨problem, bank, run, fun exact => ?_⟩
  have small := exact.bounded reads _ List.mem_cons_self ⟨['p'], .kFunction, 65536⟩
    (mem_wide_uses.mpr (Or.inr rfl))
  exact absurd small (by decide)

end Wide

end AtpEngine
