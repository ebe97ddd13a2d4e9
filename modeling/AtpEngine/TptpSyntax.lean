import AtpEngine.TptpLexing

/-!
The language the parser accepts: syntax trees, the tokens they are rendered as,
the names they use, and what it means that terms of a bank are their readings.
`Built` says that a bank holds the symbols of a list of uses and no others.
-/
namespace AtpEngine

open Fuelled

inductive SyntaxTerm where
  | var (name : Text)
  | const (name : Text)
  | app (name : Text) (args : List SyntaxTerm)

structure Use where
  name : Text
  kind : SymbolKind
  count : Nat
  deriving DecidableEq, Repr

namespace SyntaxTerm

theorem induct {P : SyntaxTerm → Prop} (var : ∀ name, P (.var name))
    (const : ∀ name, P (.const name))
    (app : ∀ name args, (∀ arg ∈ args, P arg) → P (.app name args)) : ∀ t, P t
  | .var name => var name
  | .const name => const name
  | .app name args => app name args fun arg _ => induct var const app arg

def name : SyntaxTerm → Text
  | .var name => name
  | .const name => name
  | .app name _ => name

def kind : SyntaxTerm → SymbolKind
  | .var _ => .kVariable
  | .const _ => .kConstant
  | .app _ _ => .kFunction

def args : SyntaxTerm → List SyntaxTerm
  | .var _ => []
  | .const _ => []
  | .app _ args => args

end SyntaxTerm

section Rendering

def Lexeme.word (w : Text) : Lexeme := ⟨.kWord, w⟩

def Lexeme.char (c : Char) : Lexeme := ⟨symbolType c, [c]⟩

theorem lexes_char {c : Char} {rest : Text} {lexemes : List Lexeme}
    (symbol : (isspace c || c = '%' || isWordStart c) = false) (later : Lexes rest lexemes) :
    Lexes (c :: rest) (.char c :: lexemes) := by
  simp only [Bool.or_eq_false_iff, decide_eq_false_iff_not] at symbol
  exact .symbol ⟨symbol.1.1, symbol.1.2, symbol.2⟩ later

def renderMore {α : Type} (sep : Lexeme) (render : α → List Lexeme) (items : List α) :
    List Lexeme :=
  items.flatMap fun item => sep :: render item

theorem renderMore_cons {α : Type} (sep : Lexeme) (render : α → List Lexeme) (item : α)
    (items : List α) (rest : List Lexeme) :
    renderMore sep render (item :: items) ++ rest =
      sep :: (render item ++ (renderMore sep render items ++ rest)) := by
  simp [renderMore]

theorem next_ne {lexeme : Lexeme} {rest : List Lexeme} {type : TokenType}
    (differ : lexeme.type ≠ type) :
    ∀ next, (lexeme :: rest).head? = some next → next.type ≠ type :=
  fun _ head => Option.some.inj head ▸ differ

theorem renderMore_next_ne {α : Type} {sep : Lexeme} {render : α → List Lexeme} {items : List α}
    {rest : List Lexeme} {type : TokenType} (differ : sep.type ≠ type)
    (behind : ∀ next, rest.head? = some next → next.type ≠ type) :
    ∀ next, (renderMore sep render items ++ rest).head? = some next → next.type ≠ type := by
  cases items with
  | nil => exact behind
  | cons item items => exact next_ne differ

def renderList {α : Type} (sep : Lexeme) (render : α → List Lexeme) : List α → List Lexeme
  | [] => []
  | first :: rest => render first ++ renderMore sep render rest

def SyntaxTerm.render : SyntaxTerm → List Lexeme
  | .var name => [.word name]
  | .const name => [.word name]
  | .app name args =>
      .word name :: .char '(' :: renderList (.char ',') id (args.map render) ++ [.char ')']

/-- Variables start with an upper-case letter, other symbols do not. -/
inductive SyntaxTerm.Proper : SyntaxTerm → Prop where
  | var {name : Text} : IsWord name → name.head?.any Char.isUpper = true → Proper (.var name)
  | const {name : Text} : IsWord name → name.head?.any Char.isUpper = false →
      Proper (.const name)
  | app {name : Text} {args : List SyntaxTerm} : IsWord name →
      name.head?.any Char.isUpper = false → (∀ arg ∈ args, Proper arg) →
        Proper (.app name args)

def SyntaxTerm.uses : SyntaxTerm → List Use
  | .var name => [⟨name, .kVariable, 0⟩]
  | .const name => [⟨name, .kConstant, 0⟩]
  | .app name args => (args.map uses).flatten ++ [⟨name, .kFunction, args.length⟩]

theorem uses_var (name : Text) : (SyntaxTerm.var name).uses = [⟨name, .kVariable, 0⟩] := by
  rw [SyntaxTerm.uses]

theorem uses_const (name : Text) : (SyntaxTerm.const name).uses = [⟨name, .kConstant, 0⟩] := by
  rw [SyntaxTerm.uses]

theorem uses_app (name : Text) (args : List SyntaxTerm) :
    (SyntaxTerm.app name args).uses =
      args.flatMap SyntaxTerm.uses ++ [⟨name, .kFunction, args.length⟩] := by
  rw [SyntaxTerm.uses, List.flatMap_def]

theorem render_var (name : Text) : (SyntaxTerm.var name).render = [.word name] := by
  rw [SyntaxTerm.render]

theorem render_const (name : Text) : (SyntaxTerm.const name).render = [.word name] := by
  rw [SyntaxTerm.render]

theorem render_app (name : Text) (args : List SyntaxTerm) :
    (SyntaxTerm.app name args).render =
      .word name :: .char '(' ::
        (renderList (.char ',') SyntaxTerm.render args ++ [.char ')']) := by
  rw [SyntaxTerm.render]
  cases args with
  | nil => rfl
  | cons first rest => simp [renderList, renderMore, List.flatMap_map]

theorem SyntaxTerm.render_head (t : SyntaxTerm) : ∃ w rest, t.render = .word w :: rest := by
  cases t with
  | var name => exact ⟨name, [], render_var name⟩
  | const name => exact ⟨name, [], render_const name⟩
  | app name args => exact ⟨name, _, render_app name args⟩

structure SyntaxLiteral where
  isPositive : Bool
  atom : SyntaxTerm

def SyntaxLiteral.render (lit : SyntaxLiteral) : List Lexeme :=
  if lit.isPositive then lit.atom.render else .char '~' :: lit.atom.render

/-- An entry cnf(name, role, literals), with at least one literal. -/
structure SyntaxFormula where
  name : Text
  role : Text
  first : SyntaxLiteral
  rest : List SyntaxLiteral

namespace SyntaxFormula

def literals (f : SyntaxFormula) : List SyntaxLiteral := f.first :: f.rest

def render (f : SyntaxFormula) : List Lexeme :=
  .word "cnf".toList :: .char '(' :: .word f.name :: .char ',' :: .word f.role :: .char ',' ::
    renderList (.char '|') SyntaxLiteral.render f.literals ++ [.char ')', .char '.']

structure Proper (f : SyntaxFormula) : Prop where
  name : IsWord f.name
  role : IsWord f.role
  literals : ∀ lit ∈ f.literals, lit.atom.Proper

def uses (f : SyntaxFormula) : List Use := f.literals.flatMap fun lit => lit.atom.uses

end SyntaxFormula

theorem render_formula (f : SyntaxFormula) : ∃ tail, f.render = .word "cnf".toList :: tail :=
  ⟨_, rfl⟩

/-- Names are words, and those with an upper-case letter in front are the variables. -/
theorem SyntaxTerm.Proper.use {t : SyntaxTerm} (proper : t.Proper) {u : Use}
    (member : u ∈ t.uses) :
    IsWord u.name ∧ (u.name.head?.any Char.isUpper = true ↔ u.kind = .kVariable) := by
  induction proper with
  | var word upper =>
      rw [uses_var, List.mem_singleton] at member
      rw [member]
      exact ⟨word, iff_of_true upper rfl⟩
  | const word lower =>
      rw [uses_const, List.mem_singleton] at member
      rw [member]
      exact ⟨word, by simp [lower]⟩
  | app word lower _ ih =>
      rw [uses_app, List.mem_append, List.mem_flatMap, List.mem_singleton] at member
      rcases member with ⟨arg, inside, use⟩ | own
      · exact ih arg inside use
      · rw [own]
        exact ⟨word, by simp [lower]⟩

/-- The tokens of the input are those of a list of entries. -/
structure Renders (formulas : List SyntaxFormula) (input : Text) : Prop where
  proper : ∀ f ∈ formulas, f.Proper
  lexes : Lexes input (formulas.flatMap SyntaxFormula.render)

def SyntaxFormula.Bounded (f : SyntaxFormula) : Prop := ∀ u ∈ f.uses, u.count < 65536

/-- At most 65535 arguments in every argument list of the input. -/
def FewArguments (input : Text) : Prop :=
  ∀ formulas, Renders formulas input → ∀ f ∈ formulas, f.Bounded

def Consistent (uses : List Use) : Prop := ∀ u ∈ uses, ∀ v ∈ uses, u.name = v.name → u = v

/-- Consistency as the 16-bit argument counts of the symbol table see it. -/
def Agree (uses : List Use) : Prop :=
  ∀ u ∈ uses, ∀ v ∈ uses, u.name = v.name → u.kind = v.kind ∧
    toUInt16 u.count = toUInt16 v.count

theorem Consistent.agree {uses : List Use} (consistent : Consistent uses) : Agree uses := by
  intro u hu v hv same
  rcases consistent u hu v hv same with rfl
  exact ⟨rfl, rfl⟩

theorem Agree.consistent {uses : List Use} (agree : Agree uses)
    (few : ∀ u ∈ uses, u.count < 65536) : Consistent uses := by
  rintro ⟨name, kind, count⟩ hu ⟨name', kind', count'⟩ hv same
  rcases agree _ hu _ hv same with ⟨kinds, counts⟩
  have small := few _ hu
  have small' := few _ hv
  simp only [toUInt16] at counts kinds same small small'
  rw [Nat.mod_eq_of_lt small, Nat.mod_eq_of_lt small'] at counts
  rw [same, kinds, counts]

end Rendering

section Unambiguity

/-- What follows a term in an entry is no opening parenthesis. -/
def NoParen (rest : List Lexeme) : Prop :=
  ∀ lexeme, rest.head? = some lexeme → lexeme ≠ .char '('

/-- Items can be told apart, whatever follows them. -/
def Unambiguous {S : Type} (render : S → List Lexeme) (s : S) (proper : S → Prop) : Prop :=
  ∀ s' rest rest', proper s' → NoParen rest → NoParen rest' →
    render s ++ rest = render s' ++ rest' → s = s' ∧ rest = rest'

theorem noParen_cons {lexeme : Lexeme} (other : lexeme ≠ .char '(') (rest : List Lexeme) :
    NoParen (lexeme :: rest) := by
  intro head same
  rcases Option.some.inj same with rfl
  exact other

theorem closing_ends {sep : Lexeme} (other : sep ≠ .char ')') (rest : List Lexeme) :
    NoParen (.char ')' :: rest) ∧ (.char ')' :: rest : List Lexeme).head? ≠ some sep :=
  ⟨noParen_cons (by decide) rest, fun same => other (Option.some.inj same).symm⟩

section Lists

variable {S : Type} {render : S → List Lexeme} {proper : S → Prop} {sep : Lexeme}
  {items items' : List S} {rest rest' : List Lexeme}

theorem renderMore_noParen (notParen : sep ≠ .char '(') (items : List S)
    (noParen : NoParen rest) :
    NoParen (renderMore sep render items ++ rest) := by
  cases items with
  | nil => exact noParen
  | cons s items => exact noParen_cons notParen _

theorem renderMore_unambiguous (notParen : sep ≠ .char '(')
    (each : ∀ s ∈ items, Unambiguous render s proper) (proper' : ∀ s ∈ items', proper s)
    (ends : NoParen rest ∧ rest.head? ≠ some sep)
    (ends' : NoParen rest' ∧ rest'.head? ≠ some sep)
    (same : renderMore sep render items ++ rest = renderMore sep render items' ++ rest') :
    items = items' ∧ rest = rest' := by
  induction items generalizing items' with
  | nil =>
      cases items' with
      | nil => exact ⟨rfl, same⟩
      | cons s' items' => exact absurd (congrArg List.head? same) ends.2
  | cons s items ih =>
      cases items' with
      | nil => exact absurd (congrArg List.head? same).symm ends'.2
      | cons s' items' =>
          simp only [renderMore, List.flatMap_cons, List.cons_append, List.append_assoc,
            List.cons.injEq, true_and] at same
          rcases each s List.mem_cons_self s' _ _ (proper' s' List.mem_cons_self)
            (renderMore_noParen notParen items ends.1) (renderMore_noParen notParen items' ends'.1)
            same with ⟨rfl, later⟩
          rcases ih (fun t member => each t (List.mem_cons_of_mem s member))
            (fun t member => proper' t (List.mem_cons_of_mem s member)) later with ⟨rfl, rfl⟩
          exact ⟨rfl, rfl⟩

theorem renderList_unambiguous (notParen : sep ≠ .char '(') {first first' : S}
    (each : ∀ s ∈ first :: items, Unambiguous render s proper)
    (proper' : ∀ s ∈ first' :: items', proper s)
    (ends : NoParen rest ∧ rest.head? ≠ some sep)
    (ends' : NoParen rest' ∧ rest'.head? ≠ some sep)
    (same : renderList sep render (first :: items) ++ rest =
      renderList sep render (first' :: items') ++ rest') :
    first = first' ∧ items = items' ∧ rest = rest' := by
  simp only [renderList, List.append_assoc] at same
  rcases each first List.mem_cons_self first' _ _ (proper' first' List.mem_cons_self)
    (renderMore_noParen notParen items ends.1) (renderMore_noParen notParen items' ends'.1)
    same with ⟨equal, later⟩
  exact ⟨equal,
    renderMore_unambiguous notParen (fun s member => each s (List.mem_cons_of_mem _ member))
    (fun s member => proper' s (List.mem_cons_of_mem _ member)) ends ends' later⟩

end Lists

theorem SyntaxTerm.render_ne {lexeme : Lexeme} (notWord : lexeme.type ≠ .kWord) (t : SyntaxTerm)
    (rest rest' : List Lexeme) : lexeme :: rest ≠ t.render ++ rest' := by
  intro same
  rcases t.render_head with ⟨w, tail, isRender⟩
  rw [isRender] at same
  exact notWord (congrArg Lexeme.type (List.cons.inj same).1)

/-- A proper term is determined by its tokens. -/
theorem SyntaxTerm.unambiguous {t : SyntaxTerm} (proper : t.Proper) :
    Unambiguous SyntaxTerm.render t SyntaxTerm.Proper := by
  induction t using SyntaxTerm.induct with
  | var name =>
      rcases proper with @⟨_, _, upper⟩
      intro u rest rest' proper' _ _ same
      cases proper' with
      | var _ _ =>
          simp only [render_var, List.cons_append, List.nil_append, List.cons.injEq, Lexeme.word,
            Lexeme.mk.injEq, true_and] at same
          rcases same with ⟨rfl, rfl⟩
          exact ⟨rfl, rfl⟩
      | const _ lower =>
          simp only [render_var, render_const, List.cons_append, List.nil_append, List.cons.injEq,
            Lexeme.word, Lexeme.mk.injEq, true_and] at same
          rw [same.1, lower] at upper
          cases upper
      | app _ lower _ =>
          simp only [render_var, render_app, List.cons_append, List.nil_append, List.cons.injEq,
            Lexeme.word, Lexeme.mk.injEq, true_and] at same
          rw [same.1, lower] at upper
          cases upper
  | const name =>
      rcases proper with _ | @⟨_, _, lower⟩
      intro u rest rest' proper' noParen noParen' same
      cases proper' with
      | var _ upper =>
          simp only [render_var, render_const, List.cons_append, List.nil_append, List.cons.injEq,
            Lexeme.word, Lexeme.mk.injEq, true_and] at same
          rw [← same.1, lower] at upper
          cases upper
      | const _ _ =>
          simp only [render_const, List.cons_append, List.nil_append, List.cons.injEq, Lexeme.word,
            Lexeme.mk.injEq, true_and] at same
          rcases same with ⟨rfl, rfl⟩
          exact ⟨rfl, rfl⟩
      | app _ _ _ =>
          simp only [render_const, render_app, List.cons_append, List.nil_append,
            List.cons.injEq] at same
          exact absurd rfl (noParen (.char '(') (by rw [same.2]; rfl))
  | app name args ih =>
      rcases proper with _ | _ | @⟨_, _, _, lower, properArgs⟩
      intro u rest rest' proper' noParen noParen' same
      cases proper' with
      | var _ upper =>
          simp only [render_var, render_app, List.cons_append, List.nil_append, List.cons.injEq,
            Lexeme.word, Lexeme.mk.injEq, true_and] at same
          rw [← same.1, lower] at upper
          cases upper
      | const _ _ =>
          simp only [render_const, render_app, List.cons_append, List.nil_append,
            List.cons.injEq] at same
          exact absurd rfl (noParen' (.char '(') (by rw [← same.2]; rfl))
      | @app name' args' _ _ properArgs' =>
          simp only [render_app, List.cons_append, List.append_assoc, List.nil_append,
            List.cons.injEq, Lexeme.word, Lexeme.mk.injEq, true_and] at same
          rcases same with ⟨rfl, same⟩
          have notWord : (Lexeme.char ')').type ≠ .kWord := by decide
          -- both lists end at a closing parenthesis, with which no term begins
          rcases args with _ | ⟨first, args⟩ <;> rcases args' with _ | ⟨first', args'⟩
          · exact ⟨rfl, (List.cons.inj same).2⟩
          · simp only [renderList, List.nil_append, List.append_assoc] at same
            exact absurd same (render_ne notWord _ _ _)
          · simp only [renderList, List.nil_append, List.append_assoc] at same
            exact absurd same.symm (render_ne notWord _ _ _)
          · rcases renderList_unambiguous (by decide)
              (fun s member => ih s member (properArgs s member))
              properArgs' (closing_ends (by decide) rest) (closing_ends (by decide) rest') same with
              ⟨rfl, rfl, tails⟩
            exact ⟨rfl, (List.cons.inj tails).2⟩

theorem signed_unambiguous {sign : Lexeme} (notWord : sign.type ≠ .kWord) {l : SyntaxLiteral}
    (proper : l.atom.Proper) :
    Unambiguous (fun l : SyntaxLiteral => if l.isPositive then l.atom.render else sign ::
      l.atom.render) l fun l => l.atom.Proper := by
  rintro ⟨positive', u⟩ rest rest' proper' noParen noParen' same
  rcases l with ⟨positive, t⟩
  cases positive <;> cases positive'
  · rcases SyntaxTerm.unambiguous proper u rest rest' proper' noParen noParen'
      (List.cons.inj same).2 with ⟨rfl, rfl⟩
    exact ⟨rfl, rfl⟩
  · exact absurd same (SyntaxTerm.render_ne notWord u _ _)
  · exact absurd same.symm (SyntaxTerm.render_ne notWord t _ _)
  · rcases SyntaxTerm.unambiguous proper u rest rest' proper' noParen noParen' same with
      ⟨rfl, rfl⟩
    exact ⟨rfl, rfl⟩

theorem SyntaxLiteral.unambiguous {l : SyntaxLiteral} (proper : l.atom.Proper) :
    Unambiguous SyntaxLiteral.render l fun l => l.atom.Proper :=
  signed_unambiguous (by simp [Lexeme.char, symbolType]) proper

theorem formulas_unambiguous {formulas formulas' : List SyntaxFormula}
    (proper : ∀ f ∈ formulas, f.Proper) (proper' : ∀ f ∈ formulas', f.Proper)
    (same : formulas.flatMap SyntaxFormula.render = formulas'.flatMap SyntaxFormula.render) :
    formulas = formulas' := by
  induction formulas generalizing formulas' with
  | nil =>
      cases formulas' with
      | nil => rfl
      | cons f' formulas' => cases same
  | cons f formulas ih =>
      cases formulas' with
      | nil => cases same
      | cons f' formulas' =>
          have properF := proper f List.mem_cons_self
          have properF' := proper' f' List.mem_cons_self
          rcases f with ⟨name, role, first, rest⟩
          rcases f' with ⟨name', role', first', rest'⟩
          simp only [List.flatMap_cons, SyntaxFormula.render, SyntaxFormula.literals,
            List.cons_append, List.append_assoc, List.nil_append, List.cons.injEq, Lexeme.word,
            Lexeme.mk.injEq, true_and] at same
          rcases same with ⟨rfl, rfl, same⟩
          rcases renderList_unambiguous (by decide)
            (fun l member => SyntaxLiteral.unambiguous (properF.literals l member))
            properF'.literals
            (closing_ends (by decide) _) (closing_ends (by decide) _) same with
            ⟨rfl, rfl, tails⟩
          rw [ih (fun g member => proper g (List.mem_cons_of_mem _ member))
            (fun g member => proper' g (List.mem_cons_of_mem _ member))
            (List.cons.inj (List.cons.inj tails).2).2]

theorem mem_uses_count {t : SyntaxTerm} {u : Use} (member : u ∈ t.uses) :
    u.count < t.render.length := by
  induction t using SyntaxTerm.induct with
  | var name =>
      rw [uses_var, List.mem_singleton] at member
      simp [member, render_var]
  | const name =>
      rw [uses_const, List.mem_singleton] at member
      simp [member, render_const]
  | app name args ih =>
      -- each argument takes at least one token, and all its own
      have tokens : ∀ l : List SyntaxTerm, l.length + (l.map fun t => t.render.length - 1).sum ≤
          (renderList (.char ',') SyntaxTerm.render l).length := by
        intro l
        have nonempty : ∀ t : SyntaxTerm, 1 ≤ t.render.length := fun t => by
          rcases t.render_head with ⟨w, tail, isRender⟩
          simp [isRender]
        have more : ∀ l : List SyntaxTerm, l.length + (l.map fun t => t.render.length - 1).sum ≤
            (renderMore (.char ',') SyntaxTerm.render l).length := by
          intro l
          induction l with
          | nil => simp
          | cons t l ih =>
              have := nonempty t
              simp only [renderMore, List.flatMap_cons, List.length_append, List.length_cons,
                List.map_cons, List.sum_cons] at ih ⊢
              omega
        cases l with
        | nil => simp
        | cons t l =>
            have := nonempty t
            have := more l
            simp only [renderList, List.length_append, List.length_cons, List.map_cons,
              List.sum_cons]
            omega
      have count := tokens args
      rw [render_app]
      simp only [List.length_cons, List.length_append, List.length_nil]
      rw [uses_app] at member
      rcases List.mem_append.mp member with inner | own
      · rcases List.mem_flatMap.mp inner with ⟨arg, inside, use⟩
        have here := ih arg inside use
        have part : arg.render.length - 1 ≤ (args.map fun t => t.render.length - 1).sum :=
          List.le_sum_of_mem (List.mem_map.mpr ⟨arg, inside, rfl⟩)
        omega
      · rw [List.mem_singleton.mp own]
        simp only
        omega

theorem Renders.bounded {input : Text} {formulas : List SyntaxFormula}
    (renders : Renders formulas input) (short : input.length ≤ 65536) :
    ∀ f ∈ formulas, f.Bounded := by
  intro f inside u use
  rcases List.mem_flatMap.mp use with ⟨l, member, inAtom⟩
  have atom := mem_uses_count inAtom
  have literal : l.atom.render.length ≤ l.render.length := by
    unfold SyntaxLiteral.render
    split <;> simp
  have sublist : ∀ (items : List SyntaxLiteral), l ∈ items →
      l.render.length ≤ (renderMore (.char '|') SyntaxLiteral.render items).length := by
    intro items member
    rw [renderMore, List.length_flatMap]
    exact Nat.le_trans (Nat.le_succ _) (List.le_sum_of_mem (List.mem_map.mpr ⟨l, member, rfl⟩))
  have entry : l.render.length ≤ f.render.length := by
    simp only [SyntaxFormula.render, SyntaxFormula.literals, renderList, List.length_cons,
      List.length_append]
    rcases List.mem_cons.mp member with rfl | later
    · omega
    · have := sublist f.rest later
      omega
  have whole : f.render.length ≤ (formulas.flatMap SyntaxFormula.render).length := by
    rw [List.length_flatMap]
    exact List.le_sum_of_mem (List.mem_map.mpr ⟨f, inside, rfl⟩)
  have := renders.lexes.length_le
  omega

/-- An input is the rendering of one list of entries at most. -/
theorem Renders.unique {input : Text} {formulas formulas' : List SyntaxFormula}
    (left : Renders formulas input) (right : Renders formulas' input) : formulas = formulas' :=
  formulas_unambiguous left.proper right.proper (left.lexes.unique right.lexes)

end Unambiguity

section Reading

def SymbolTable.Holds (table : SymbolTable) (sym : Nat) (use : Use) : Prop :=
  ∃ info, table.infos[sym]? = some info ∧ info.name = use.name ∧ info.kind = use.kind ∧
    info.arity = toUInt16 use.count

/-- The term `id` of the bank is the reading of a syntax tree. -/
inductive Denotes (bank : TermBank) : SyntaxTerm → Nat → Prop where
  | intro {t : SyntaxTerm} {id sym : Nat} {ids : List Nat} :
      bank.terms[id]? = some ⟨sym, ids⟩ →
      bank.symbols.Holds sym ⟨t.name, t.kind, t.args.length⟩ →
      t.args.length = ids.length → (∀ pair ∈ t.args.zip ids, Denotes bank pair.1 pair.2) →
      Denotes bank t id

variable {bank bank' : TermBank}

theorem SymbolTable.Holds.mono {table table' : SymbolTable} {sym : Nat} {use : Use}
    (holds : table.Holds sym use) (grows : table.infos <+: table'.infos) :
    table'.Holds sym use := by
  rcases holds with ⟨info, entry, rest⟩
  exact ⟨info, prefix_getElem? grows entry, rest⟩

theorem Denotes.mono {t : SyntaxTerm} {id : Nat} (denotes : Denotes bank t id)
    (grows : bank.Extends bank') : Denotes bank' t id := by
  induction denotes with
  | intro entry holds widths _ ih =>
      exact .intro (grows.term entry) (holds.mono grows.infos) widths ih

theorem Denotes.lt {t : SyntaxTerm} {id : Nat} (denotes : Denotes bank t id) : id < bank.size := by
  cases denotes with
  | intro entry _ _ _ => exact (List.getElem?_eq_some_iff.mp entry).1

theorem Denotes.unique (wf : bank.WellFormed) (shared : bank.HashConsed) {t : SyntaxTerm}
    {i j : Nat} (left : Denotes bank t i) (right : Denotes bank t j) : i = j := by
  induction left generalizing j with
  | @intro t id sym ids entry holds widths _ ih =>
      cases right with
      | @intro _ _ sym' ids' entry' holds' widths' children' =>
          have symbols : sym = sym' := by
            rcases holds with ⟨info, found, name, _⟩
            rcases holds' with ⟨info', found', name', _⟩
            have left := wf.table.complete _ _ found
            have right := wf.table.complete _ _ found'
            rw [name] at left
            rw [name'] at right
            exact Option.some.inj (left.symm.trans right)
          have args : ids = ids' := by
            refine List.ext_getElem (widths.symm.trans widths') fun k hk hk' => ?_
            have short : k < t.args.length := widths ▸ hk
            have at_k : (t.args[k], ids[k]) ∈ t.args.zip ids :=
              List.mem_iff_getElem.mpr ⟨k, by simp; omega, by simp⟩
            have at_k' : (t.args.get ⟨k, short⟩, ids'.get ⟨k, hk'⟩) ∈ t.args.zip ids' :=
              List.mem_iff_getElem.mpr ⟨k, by simp; omega, by simp⟩
            exact ih _ at_k (children' _ at_k')
          subst symbols args
          exact shared.inj entry entry'

structure SyntaxLiteral.Reads (bank : TermBank) (l : SyntaxLiteral) (lit : Literal) : Prop where
  polarity : lit.isPositive = l.isPositive
  atom : Denotes bank l.atom lit.atom

structure SyntaxFormula.Reads (bank : TermBank) (f : SyntaxFormula) (af : AnnotatedFormula) :
    Prop where
  name : af.name = f.name
  role : af.role = parseRole f.role
  isCnf : af.isCnf = true
  clause : ∃ lits, af.clauses = [{ literals := lits }] ∧
    List.Forall₂ (SyntaxLiteral.Reads bank) f.literals lits

end Reading

section Building

/-- A bank with the symbols of `uses`, and the cache of the parser. -/
structure Built (uses : List Use) (p : TptpParser) : Prop where
  wf : p.bank.WellFormed
  shared : p.bank.HashConsed
  known : ∀ u ∈ uses, ∃ sym, p.bank.symbols.nameToId.lookup u.name = some sym ∧
    p.bank.symbols.Holds sym u
  named : ∀ info ∈ p.bank.symbols.infos, ∃ u ∈ uses, u.name = info.name
  small : (∀ u ∈ uses, u.count < 65536) → p.bank.ArityBounded
  cached : ∀ name id, p.variableCache.lookup name = some id →
    Denotes p.bank (.var name) id ∧ ⟨name, .kVariable, 0⟩ ∈ uses

theorem Built.agree {uses : List Use} {p : TptpParser} (built : Built uses p) : Agree uses := by
  intro u hu v hv same
  rcases built.known u hu with ⟨sym, found, info, entry, _, kind, arity⟩
  rcases built.known v hv with ⟨sym', found', info', entry', _, kind', arity'⟩
  rw [same] at found
  rcases Option.some.inj (found.symm.trans found') with rfl
  rcases Option.some.inj (entry.symm.trans entry') with rfl
  exact ⟨kind.symm.trans kind', arity.symm.trans arity'⟩

theorem Built.kinds {uses : List Use} {p : TptpParser} (built : Built uses p) {info : SymbolInfo}
    (member : info ∈ p.bank.symbols.infos) :
    ∃ u ∈ uses, u.name = info.name ∧ u.kind = info.kind := by
  rcases built.named info member with ⟨u, use, name⟩
  rcases built.known u use with ⟨sym, found, info', entry, _, kind, _⟩
  rcases List.getElem?_of_mem member with ⟨id, at_id⟩
  have own := built.wf.table.complete id info at_id
  rw [← name, found] at own
  rcases Option.some.inj own with rfl
  rcases Option.some.inj (entry.symm.trans at_id) with rfl
  exact ⟨u, use, name, kind.symm⟩

/-- Interning succeeds exactly when the new use agrees with the earlier ones. -/
theorem Built.intern {uses : List Use} {p : TptpParser} (built : Built uses p) {use : Use}
    (agree : Agree (uses ++ [use])) :
    ∃ sym symbols, p.bank.symbols.intern use.name use.kind (toUInt16 use.count) =
      .ok (sym, symbols) := by
  cases found : p.bank.symbols.nameToId.lookup use.name with
  | none => exact ⟨_, _, by rw [SymbolTable.intern, found]⟩
  | some sym =>
      rcases built.wf.table.sound _ _ found with ⟨info, entry, name⟩
      rcases built.named info (List.mem_of_getElem? entry) with ⟨u, member, sameName⟩
      rcases built.known u member with ⟨sym', found', info', entry', _, kind', arity'⟩
      rw [sameName, name, found] at found'
      rcases Option.some.inj found' with rfl
      rcases Option.some.inj (entry.symm.trans entry') with rfl
      rcases agree u (by simp [member]) use (by simp) (sameName.trans name) with ⟨kind, count⟩
      have matching : ¬ (info.kind ≠ use.kind ∨ info.arity ≠ toUInt16 use.count) := by
        rw [kind', arity', kind, count]
        simp
      refine ⟨sym, p.bank.symbols, ?_⟩
      simp only [SymbolTable.intern, found, SymbolTable.getInfo, entry, bind_ok, if_neg matching]
      rfl

theorem Built.makeSymbolTerm {uses : List Use} {p p' : TptpParser} (built : Built uses p)
    (t : SyntaxTerm) {ids : List Nat} {id : Nat} (widths : t.args.length = ids.length)
    (children : ∀ pair ∈ t.args.zip ids, Denotes p.bank pair.1 pair.2)
    (run : p.makeSymbolTerm t.name t.kind ids = .ok (id, p')) :
    Built (uses ++ [⟨t.name, t.kind, t.args.length⟩]) p' ∧ p.bank.Extends p'.bank ∧
      Denotes p'.bank t id ∧ p'.lexer = p.lexer ∧ p'.currentToken = p.currentToken ∧
      p'.variableCache = p.variableCache := by
  rw [TptpParser.makeSymbolTerm, bind_ok_iff] at run
  rcases run with ⟨⟨sym, symbols⟩, interned, run⟩
  rw [← widths] at interned
  have grown := TermBank.intern_grows interned
  have wf' := grown.wf built.wf
  rcases SymbolTable.intern_info interned with ⟨info, entry, kind, arity⟩
  have known : sym < symbols.size := (List.getElem?_eq_some_iff.mp entry).1
  have named := SymbolTable.intern_named built.wf.table interned
  have holds : symbols.Holds sym ⟨t.name, t.kind, t.args.length⟩ :=
    ⟨info, entry, named.2 info entry, kind, arity⟩
  have inside : ∀ a ∈ ids, a < p.bank.size := by
    intro a member
    rcases mem_zip_of_mem_right widths member with ⟨_, _, pair⟩
    exact (children _ pair).lt
  -- a name in use as a variable takes no arguments
  have noArgs : symbols.isVar sym = true → ids = [] := by
    intro isVar
    have isKind : t.kind = .kVariable := by simpa [SymbolTable.isVar, entry, kind] using isVar
    cases t with
    | var name => exact List.eq_nil_of_length_eq_zero widths.symm
    | const name => cases isKind
    | app name args => cases isKind
  have made := TermBank.makeTerm_wellFormed wf' sym ids known inside noArgs
  have shared' := TermBank.makeTerm_hashConsed (grown.shared built.shared) sym ids
  have extends' := TermBank.makeTerm_extends { p.bank with symbols } sym ids
  have term := TermBank.makeTerm_term wf'.toIndexSound sym ids
  have symbols' := TermBank.makeTerm_symbols { p.bank with symbols } sym ids
  cases out : ({ p.bank with symbols } : TermBank).makeTerm sym ids with
  | mk id' bank' =>
      rw [out] at made shared' extends' term symbols'
      simp only [out] at run
      rcases Prod.mk.inj (pure_ok_iff.mp run) with ⟨rfl, rfl⟩
      replace symbols' : bank'.symbols = symbols := symbols'
      have whole := grown.grows.trans extends'
      have denotes : Denotes bank' t id' :=
        .intro term (symbols' ▸ holds) widths fun pair member => (children pair member).mono whole
      refine ⟨⟨made, shared', ?_, ?_, fun few => ?_, ?_⟩, whole, denotes, rfl, rfl, rfl⟩
      · intro u member
        rcases List.mem_append.mp member with old | new
        · rcases built.known u old with ⟨sym', found, holds'⟩
          refine ⟨sym', ?_, holds'.mono (symbols' ▸ SymbolTable.intern_prefix interned)⟩
          change bank'.symbols.nameToId.lookup u.name = some sym'
          rw [symbols']
          exact SymbolTable.intern_lookup interned found
        · rcases List.mem_singleton.mp new with rfl
          refine ⟨sym, ?_, symbols' ▸ holds⟩
          change bank'.symbols.nameToId.lookup t.name = some sym
          rw [symbols', named.1]
      · intro info' member
        rw [symbols'] at member
        rcases SymbolTable.mem_intern_infos interned member with old | rfl
        · rcases built.named info' old with ⟨u, inUses, name⟩
          exact ⟨u, List.mem_append_left _ inUses, name⟩
        · exact ⟨_, List.mem_append_right _ List.mem_cons_self, rfl⟩
      · have fewArgs : t.args.length < 65536 := few _ (List.mem_append_right _ List.mem_cons_self)
        have smallOld := built.small fun u member => few u (List.mem_append_left _ member)
        have bounded := TermBank.makeTerm_arityBounded (grown.small smallOld) sym ids
          (by omega)
        rwa [out] at bounded
      · intro name id found
        rcases built.cached name id found with ⟨reads, member⟩
        exact ⟨reads.mono whole, List.mem_append_left _ member⟩

end Building

end AtpEngine
