import AtpEngine.TptpSyntax

/-!
Printed trees can be read back. A tree is printed over names for its symbols and
labels for its variables; where these are words and only labels start with an
upper-case letter, the lexer of the front end finds in the text the tokens of one
syntax tree, from which the printed tree can be told up to its labels.
-/
namespace AtpEngine

open ClauseLogic

variable {V : Type} {name : Nat → Text} {label : V → Text}

def nodeText (name : Nat → Text) (symbol : Nat) (args : List Text) : Text :=
  if args.isEmpty then name symbol
  else name symbol ++ "(".toList ++ List.intercalate ",".toList args ++ ")".toList

/-- A tree as termToPretty prints it. -/
def treeText (name : Nat → Text) (label : V → Text) (t : TermTree Nat V) : Text :=
  t.eval (nodeText name) label

def literalText (name : Nat → Text) (label : V → Text) (lit : TermTree Nat V × Bool) : Text :=
  if lit.2 then treeText name label lit.1 else '¬' :: treeText name label lit.1

def literalsText (name : Nat → Text) (label : V → Text) (lits : Literals Nat V) : Text :=
  if lits.isEmpty then ['□'] else List.intercalate
    " ∨ ".toList (lits.map (literalText name label))

def nodeSyntax (name : Nat → Text) (symbol : Nat) (args : List SyntaxTerm) : SyntaxTerm :=
  if args.isEmpty then .const (name symbol) else .app (name symbol) args

/-- The syntax tree that is read from the text of a tree. -/
def treeSyntax (name : Nat → Text) (label : V → Text) (t : TermTree Nat V) : SyntaxTerm :=
  t.eval (nodeSyntax name) fun x => .var (label x)

def literalSyntax (name : Nat → Text) (label : V → Text) (lit : TermTree Nat V × Bool) :
    SyntaxLiteral := ⟨lit.2, treeSyntax name label lit.1⟩

def SyntaxTerm.text : SyntaxTerm → Text
  | .var name => name
  | .const name => name
  | .app name args =>
      name ++ "(".toList ++ List.intercalate ",".toList (args.map text) ++ ")".toList

theorem text_app (name : Text) (args : List SyntaxTerm) : (SyntaxTerm.app name args).text =
    name ++ "(".toList ++ List.intercalate ",".toList (args.map SyntaxTerm.text) ++ ")".toList := by
  rw [SyntaxTerm.text]

def SyntaxLiteral.text (l : SyntaxLiteral) : Text :=
  if l.isPositive then l.atom.text else '¬' :: l.atom.text

def clauseText (lits : List SyntaxLiteral) : Text :=
  if lits.isEmpty then ['□'] else List.intercalate " ∨ ".toList (lits.map SyntaxLiteral.text)

theorem treeText_rendered (t : TermTree Nat V) :
    treeText name label t = (treeSyntax name label t).text := by
  induction t using TermTree.induct with
  | var x => simp only [treeText, treeSyntax, TermTree.eval_var, SyntaxTerm.text]
  | node symbol children ih =>
      simp only [treeText, treeSyntax, TermTree.eval_node, nodeText, nodeSyntax,
        List.isEmpty_map] at ih ⊢
      split
      · rw [SyntaxTerm.text]
      · rw [text_app, List.map_map, List.map_congr_left ih]
        rfl

theorem literalsText_rendered (lits : Literals Nat V) :
    literalsText name label lits = clauseText (lits.map (literalSyntax name label)) := by
  rw [literalsText, clauseText, List.isEmpty_map, List.map_map]
  refine congrArg
    (fun texts => if lits.isEmpty then ['□'] else List.intercalate " ∨ ".toList texts)
    (List.map_congr_left fun lit _ => ?_)
  rw [literalText, treeText_rendered]
  rfl

section Relabelling

variable {W : Type} {label' : W → Text} {ρ : V → W}

theorem literalsText_rename {lits : Literals Nat V}
    (same : ∀ x, VarOf x lits → label' (ρ x) = label x) :
    literalsText name label' (inst (fun x => .var (ρ x)) lits) = literalsText name label lits := by
  have each : ∀ lit ∈ lits, literalText name label' (lit.1.rename ρ, lit.2) =
      literalText name label lit := by
    intro lit member
    have tree : treeText name label' (lit.1.rename ρ) = treeText name label lit.1 := by
      rw [treeText, TermTree.eval_subst]
      refine TermTree.eval_congr _ _ fun x occurs => ?_
      rw [TermTree.eval_var, same x ⟨lit, member, occurs⟩]
    rw [literalText, tree, literalText]
  rw [literalsText, literalsText, inst, List.isEmpty_map, List.map_map]
  exact congrArg
    (fun texts => if lits.isEmpty then ['□'] else List.intercalate " ∨ ".toList texts)
    (List.map_congr_left each)

end Relabelling

def prettyRender (l : SyntaxLiteral) : List Lexeme :=
  if l.isPositive then l.atom.render else .char '¬' :: l.atom.render

section Lexing

def Ends (rest : Text) : Prop := ∀ c, rest.head? = some c → isWordChar c = false

theorem ends_cons {c : Char} (other : isWordChar c = false) (rest : Text) : Ends (c :: rest) :=
  fun d head => by rw [← Option.some.inj head]; exact other

/-- A printer whose texts lex as the given tokens, in front of what ends a word. -/
def LexesAs {α : Type} (text : α → Text) (render : α → List Lexeme) (a : α) : Prop :=
  ∀ rest lexemes, Ends rest → Lexes rest lexemes →
    Lexes (text a ++ rest) (render a ++ lexemes)

theorem intercalate_cons {sep first : Text} (rest : List Text) :
    List.intercalate sep (first :: rest) = first ++ rest.flatMap fun t => sep ++ t := by
  induction rest generalizing first with
  | nil => simp [List.intercalate]
  | cons second rest ih =>
      rw [List.intercalate_cons_cons, ih, List.flatMap_cons, List.append_assoc, List.append_assoc]

theorem more_lexes {α : Type} {text : α → Text} {render : α → List Lexeme} {items : List α}
    (sepText : Text) (sep : Lexeme) (separates : sepText ≠ [] ∧ Ends sepText)
    (opens : ∀ rest lexemes, Lexes rest lexemes → Lexes (sepText ++ rest) (sep :: lexemes))
    (each : ∀ a ∈ items, LexesAs text render a) {rest : Text} {lexemes : List Lexeme}
    (ends : Ends rest) (later : Lexes rest lexemes) :
    Ends (items.flatMap (fun a => sepText ++ text a) ++ rest) ∧
      Lexes (items.flatMap (fun a => sepText ++ text a) ++ rest)
        (renderMore sep render items ++ lexemes) := by
  induction items with
  | nil => exact ⟨ends, later⟩
  | cons a items ih =>
      rcases ih fun b member => each b (List.mem_cons_of_mem a member) with ⟨ends', later'⟩
      simp only [renderMore, List.flatMap_cons, List.append_assoc] at later' ⊢
      refine ⟨?_, opens _ _ (each a List.mem_cons_self _ _ ends' later')⟩
      rcases separates with ⟨nonempty, ends⟩
      cases sepText with
      | nil => exact absurd rfl nonempty
      | cons c _ => exact ends_cons (ends c rfl) _

theorem SyntaxTerm.text_lexes {t : SyntaxTerm} (proper : t.Proper) :
    LexesAs SyntaxTerm.text SyntaxTerm.render t := by
  induction t using SyntaxTerm.induct with
  | var name =>
      intro rest lexemes ends later
      rcases proper with ⟨word, _⟩
      rw [render_var, SyntaxTerm.text]
      exact .word word ends later
  | const name =>
      intro rest lexemes ends later
      rcases proper with _ | ⟨word, _⟩
      rw [render_const, SyntaxTerm.text]
      exact .word word ends later
  | app name args ih =>
      intro rest lexemes ends later
      rcases proper with _ | _ | ⟨word, _, inner⟩
      have closes : Lexes (')' :: rest) (.char ')' :: lexemes) := lexes_char (by decide) later
      rw [text_app, render_app]
      cases args with
      | nil => simpa [renderList, Lexeme.word] using
          Lexes.word word (ends_cons (by decide) _) (lexes_char (by decide) closes)
      | cons first args =>
          have each : ∀ arg ∈ first :: args, LexesAs SyntaxTerm.text SyntaxTerm.render arg :=
            fun arg member => ih arg member (inner arg member)
          rcases more_lexes ",".toList (.char ',') ⟨by decide, ends_cons (by decide) []⟩
            (fun _ _ later => lexes_char (by decide) later)
            (fun arg member => each arg (List.mem_cons_of_mem first member))
            (ends_cons (by decide) rest) closes with ⟨ends', more⟩
          have inside :=
            lexes_char (c := '(') (by decide) (each first List.mem_cons_self _ _ ends' more)
          simpa [renderList, Lexeme.word, intercalate_cons, List.flatMap_map] using
            Lexes.word word (ends_cons (by decide) _) inside

theorem SyntaxLiteral.text_lexes {l : SyntaxLiteral} (proper : l.atom.Proper) :
    LexesAs SyntaxLiteral.text prettyRender l := by
  intro rest lexemes ends later
  have atom := SyntaxTerm.text_lexes proper rest lexemes ends later
  rcases l with ⟨positive, t⟩
  cases positive with
  | true => exact atom
  | false => exact lexes_char (by decide) atom

def prettyTokens (lits : List SyntaxLiteral) : List Lexeme :=
  if lits.isEmpty then [.char '□'] else renderList (.char '∨') prettyRender lits

theorem clauseText_lexes {lits : List SyntaxLiteral} (proper : ∀ l ∈ lits, l.atom.Proper) :
    Lexes (clauseText lits) (prettyTokens lits) := by
  cases lits with
  | nil => exact lexes_char (by decide) .eof
  | cons first rest =>
      have opens : ∀ (rest : Text) (lexemes : List Lexeme), Lexes rest lexemes →
          Lexes (" ∨ ".toList ++ rest) (.char '∨' :: lexemes) :=
        fun _ _ later => .space (by decide) (lexes_char (by decide) (.space (by decide) later))
      rcases more_lexes " ∨ ".toList _ ⟨by decide, ends_cons (by decide) ['∨', ' ']⟩ opens
        (fun l member => SyntaxLiteral.text_lexes (proper l (List.mem_cons_of_mem first member)))
        (fun c head => by cases head) .eof with ⟨ends, later⟩
      simpa [clauseText, prettyTokens, renderList, intercalate_cons, List.flatMap_map] using
        SyntaxLiteral.text_lexes (proper first List.mem_cons_self) _ _ ends later

end Lexing

section Readback

variable {W : Type} {label' : W → Text}

def IsSymbolWord (w : Text) : Prop := IsWord w ∧ w.head?.any Char.isUpper = false

def IsVariableWord (w : Text) : Prop := IsWord w ∧ w.head?.any Char.isUpper = true

theorem treeSyntax_proper {t : TermTree Nat V}
    (words : t.Nodes fun symbol => IsSymbolWord (name symbol))
    (labels : ∀ x, TermTree.Occurs x t → IsVariableWord (label x)) :
    (treeSyntax name label t).Proper := by
  induction t using TermTree.induct with
  | var x =>
      simp only [treeSyntax, TermTree.eval_var]
      exact .var (labels x .var).1 (labels x .var).2
  | node symbol children ih =>
      rcases words with _ | ⟨word, inner⟩
      simp only [treeSyntax, TermTree.eval_node, nodeSyntax]
      split
      · exact .const word.1 word.2
      · refine .app word.1 word.2 fun arg member => ?_
        rcases List.mem_map.mp member with ⟨child, inside, rfl⟩
        exact ih child inside (inner child inside) fun x occurs => labels x (.node inside occurs)

theorem literalsSyntax_proper {lits : Literals Nat V}
    (words : ∀ lit ∈ lits, lit.1.Nodes fun symbol => IsSymbolWord (name symbol))
    (labels : ∀ x, VarOf x lits → IsVariableWord (label x)) :
    ∀ l ∈ lits.map (literalSyntax name label), l.atom.Proper := by
  intro l member
  rcases List.mem_map.mp member with ⟨lit, inside, rfl⟩
  exact treeSyntax_proper (words lit inside) fun x occurs => labels x ⟨lit, inside, occurs⟩

theorem map_eq_of_eq {α β γ δ : Type} {l : List α} {l' : List β} {f : α → γ}
    {f' : β → γ} {g : α → δ} {g' : β → δ}
    (each : ∀ a ∈ l, ∀ b ∈ l', f a = f' b → g a = g' b) (same : l.map f = l'.map f') :
    l.map g = l'.map g' := by
  induction l generalizing l' with
  | nil => rw [List.map_eq_nil_iff.mp same.symm]; rfl
  | cons a l ih =>
      rcases List.map_eq_cons_iff.mp same.symm with ⟨b, rest, rfl, head, tail⟩
      rw [List.map_cons, List.map_cons, each a List.mem_cons_self b List.mem_cons_self head.symm,
        ih (fun a member b member' => each a (List.mem_cons_of_mem _ member) b
          (List.mem_cons_of_mem _ member')) tail.symm]

/-- Trees are told by their syntax trees, up to the labels of their variables. -/
theorem treeSyntax_inj {P : Nat → Prop}
    (names : ∀ f g, P f → P g → name f = name g → f = g) {t : TermTree Nat V}
    {u : TermTree Nat W} (left : t.Nodes P) (right : u.Nodes P)
    (same : treeSyntax name label t = treeSyntax name label' u) :
    t.rename label = u.rename label' := by
  induction t using TermTree.induct generalizing u with
  | var x =>
      cases u with
      | var y =>
          simp only [treeSyntax, TermTree.eval_var] at same
          simp [SyntaxTerm.var.inj same]
      | node g children' =>
          simp only [treeSyntax, TermTree.eval_var, TermTree.eval_node, nodeSyntax] at same
          split at same <;> cases same
  | node f children ih =>
      cases u with
      | var y =>
          simp only [treeSyntax, TermTree.eval_var, TermTree.eval_node, nodeSyntax] at same
          split at same <;> cases same
      | node g children' =>
          rcases left with _ | ⟨known, inner⟩
          rcases right with _ | ⟨known', inner'⟩
          have parts : name f = name g ∧
              children.map (treeSyntax name label) = children'.map (treeSyntax name label') := by
            simp only [treeSyntax, TermTree.eval_node, nodeSyntax, List.isEmpty_iff,
              List.map_eq_nil_iff] at same
            split at same <;> split at same
            · next none none' => exact ⟨SyntaxTerm.const.inj same, by rw [none, none']; rfl⟩
            · cases same
            · cases same
            · exact SyntaxTerm.app.inj same
          have args : children.map (TermTree.rename label) =
              children'.map (TermTree.rename label') :=
            map_eq_of_eq (fun c member d member' =>
              ih c member (inner c member) (inner' d member')) parts.2
          rw [TermTree.rename, TermTree.subst, TermTree.eval_node, TermTree.rename, TermTree.subst,
            TermTree.eval_node, names f g known known' parts.1]
          exact congrArg _ args

theorem prettyTokens_inj {ls ls' : List SyntaxLiteral} (proper : ∀ l ∈ ls, l.atom.Proper)
    (proper' : ∀ l ∈ ls', l.atom.Proper) (same : prettyTokens ls = prettyTokens ls') :
    ls = ls' := by
  have head : ∀ (l : SyntaxLiteral) (rest : List Lexeme),
      [.char '□'] ≠ prettyRender l ++ rest := by
    rintro ⟨positive, t⟩ rest same
    cases positive with
    | true => exact SyntaxTerm.render_ne (by decide) t [] rest same
    | false => exact absurd (List.cons.inj same).1 (by simp [Lexeme.char])
  have each : ∀ l : SyntaxLiteral, l.atom.Proper → Unambiguous prettyRender l fun l =>
      l.atom.Proper :=
    fun l proper => signed_unambiguous (by simp [Lexeme.char, symbolType]) proper
  rcases ls with _ | ⟨first, rest⟩ <;> rcases ls' with _ | ⟨first', rest'⟩
  · rfl
  · exact absurd same (head first' _)
  · exact absurd same.symm (head first _)
  · have none : NoParen [] ∧ ([] : List Lexeme).head? ≠ some (.char '∨') :=
      ⟨fun lexeme head => (by cases head), by simp⟩
    have lists : renderList (.char '∨') prettyRender (first :: rest) ++ [] =
        renderList (.char '∨') prettyRender (first' :: rest') ++ [] := by
      rw [List.append_nil, List.append_nil]
      exact same
    rcases renderList_unambiguous (by decide) (fun l member => each l (proper l member))
      proper' none none lists with ⟨rfl, rfl, _⟩
    rfl

theorem clauseText_inj {lits lits' : List SyntaxLiteral} (proper : ∀ l ∈ lits, l.atom.Proper)
    (proper' : ∀ l ∈ lits', l.atom.Proper) (same : clauseText lits = clauseText lits') :
    lits = lits' := by
  have lexes := clauseText_lexes proper
  rw [same] at lexes
  exact prettyTokens_inj proper proper' (lexes.unique (clauseText_lexes proper'))

theorem literalsText_inj {P : Nat → Prop}
    (names : ∀ f g, P f → P g → name f = name g → f = g)
    (words : ∀ f, P f → IsSymbolWord (name f)) {lits : Literals Nat V} {lits' : Literals Nat W}
    (left : ∀ lit ∈ lits, lit.1.Nodes P) (right : ∀ lit ∈ lits', lit.1.Nodes P)
    (labels : ∀ x, VarOf x lits → IsVariableWord (label x))
    (labels' : ∀ x, VarOf x lits' → IsVariableWord (label' x))
    (same : literalsText name label lits = literalsText name label' lits') :
    inst (fun x => .var (label x)) lits = inst (fun x => .var (label' x)) lits' := by
  rw [literalsText_rendered, literalsText_rendered] at same
  have proper := literalsSyntax_proper (fun lit member => (left lit member).mono words) labels
  have proper' := literalsSyntax_proper (fun lit member => (right lit member).mono words) labels'
  refine map_eq_of_eq (fun lit inside lit' inside' equal => ?_)
    (clauseText_inj proper proper' same)
  rcases SyntaxLiteral.mk.inj equal with ⟨polarity, atom⟩
  exact Prod.ext (treeSyntax_inj names (left lit inside) (right lit' inside') atom) polarity

end Readback

end AtpEngine
