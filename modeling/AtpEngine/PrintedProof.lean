import AtpEngine.Derivations
import AtpEngine.PrettyTerms
import AtpEngine.ProofExtraction

/-!
The text of a proof as a format of its own. A line shows its number, a rule, a
clause and the numbers of other lines; the clause is written as a syntax tree of
the front end, whose words can be told apart from all the text around them. So a
proof is determined by its text, character by character.
-/
namespace AtpEngine

open ClauseLogic TermTree

section Text

def ClauseLogic.Reason.rule : Reason → InferenceRule
  | .given => .kInput
  | .resolution _ _ => .kResolution
  | .factoring _ => .kFactoring

/-- The numbers of the lines a line names, which count from one. -/
def ClauseLogic.Reason.refs : Reason → Text
  | .given => []
  | .resolution left right =>
      "  [".toList ++ digits (left + 1) ++ (", ".toList ++ digits (right + 1)) ++ "]".toList
  | .factoring premise => "  [".toList ++ digits (premise + 1) ++ "]".toList

structure PrintedStep where
  reason : Reason
  clause : List SyntaxLiteral

namespace PrintedStep

def text (number : Nat) (step : PrintedStep) : Text :=
  digits number ++ ". ".toList ++ ("[".toList ++ ruleToString step.reason.rule ++ "] ".toList) ++
    clauseText step.clause ++ step.reason.refs

/-- The names are words that tell variables from other symbols. -/
def Proper (step : PrintedStep) : Prop := ∀ l ∈ step.clause, l.atom.Proper

end PrintedStep

def proofText (steps : List PrintedStep) : Text :=
  (steps.zipIdx 1).flatMap fun numbered => numbered.1.text numbered.2 ++ ['\n']

/-- The steps are a reading of the text. -/
structure ReadsProof (text : Text) (steps : List PrintedStep) : Prop where
  proper : ∀ step ∈ steps, step.Proper
  whole : proofText steps = text

end Text

section Characters

def Plain (c : Char) : Prop := isWordChar c = true ∨ c ∈ "(), ∨¬□".toList

theorem intercalate_chars {P : Char → Prop} {sep : Text} (between : ∀ c ∈ sep, P c)
    {parts : List Text} (each : ∀ part ∈ parts, ∀ c ∈ part, P c) :
    ∀ c ∈ List.intercalate sep parts, P c := by
  cases parts with
  | nil => simp [List.intercalate]
  | cons first rest =>
      intro c member
      rw [intercalate_cons, List.mem_append, List.mem_flatMap] at member
      rcases member with inside | ⟨part, later, inside⟩
      · exact each first List.mem_cons_self c inside
      · rcases List.mem_append.mp inside with inside | inside
        · exact between c inside
        · exact each part (List.mem_cons_of_mem first later) c inside

theorem SyntaxTerm.text_plain {t : SyntaxTerm} (proper : t.Proper) : ∀ c ∈ t.text, Plain c := by
  induction t using SyntaxTerm.induct with
  | var name =>
      rcases proper with ⟨word, _⟩
      rw [SyntaxTerm.text]
      exact fun c member => Or.inl (word.chars c member)
  | const name =>
      rcases proper with _ | ⟨word, _⟩
      rw [SyntaxTerm.text]
      exact fun c member => Or.inl (word.chars c member)
  | app name args ih =>
      rcases proper with _ | _ | ⟨word, _, inner⟩
      have between : ∀ c ∈ List.intercalate ",".toList (args.map SyntaxTerm.text), Plain c := by
        refine intercalate_chars (fun c comma => Or.inr ?_) fun part member => ?_
        · rw [List.mem_singleton.mp comma]
          decide
        · rcases List.mem_map.mp member with ⟨arg, inside, rfl⟩
          exact ih arg inside (inner arg inside)
      intro c member
      rw [text_app] at member
      simp only [List.mem_append, or_assoc] at member
      rcases member with named | opening | listed | closing
      · exact Or.inl (word.chars c named)
      · exact Or.inr (by rw [List.mem_singleton.mp opening]; decide)
      · exact between c listed
      · exact Or.inr (by rw [List.mem_singleton.mp closing]; decide)

theorem clauseText_plain {lits : List SyntaxLiteral} (proper : ∀ l ∈ lits, l.atom.Proper) :
    ∀ c ∈ clauseText lits, Plain c := by
  rw [clauseText]
  split
  · exact fun c box => Or.inr (by rw [List.mem_singleton.mp box]; decide)
  · have between : " ∨ ".toList ⊆ "(), ∨¬□".toList := by decide
    refine intercalate_chars (fun c sep => Or.inr (between sep)) fun part member => ?_
    rcases List.mem_map.mp member with ⟨l, inside, rfl⟩
    have atom := SyntaxTerm.text_plain (proper l inside)
    rw [SyntaxLiteral.text]
    split
    · exact atom
    · intro c member
      rcases List.mem_cons.mp member with rfl | later
      · exact Or.inr (by decide)
      · exact atom c later

theorem plain_ne {c : Char} (other : isWordChar c = false ∧ c ∉ "(), ∨¬□".toList)
    {text : Text} (plain : ∀ d ∈ text, Plain d) : c ∉ text := fun member =>
  (plain c member).elim (fun word => Bool.noConfusion (word.symm.trans other.1)) other.2

theorem digits_notMem {c : Char} (other : c.isDigit = false) (n : Nat) : c ∉ digits n := by
  intro member
  rw [Nat.isDigit_of_mem_toDigits (by omega) (by omega) member] at other
  cases other

end Characters

section Readback

theorem until_inj {c : Char} {left right rest rest' : Text} (here : c ∉ left)
    (there : c ∉ right) (same : left ++ c :: rest = right ++ c :: rest') :
    left = right ∧ rest = rest' := by
  induction left generalizing right with
  | nil =>
      cases right with
      | nil => exact ⟨rfl, (List.cons.inj same).2⟩
      | cons d right => exact absurd (List.cons.inj same).1 (List.ne_of_not_mem_cons there)
  | cons d left ih =>
      cases right with
      | nil => exact absurd (List.cons.inj same).1.symm (List.ne_of_not_mem_cons here)
      | cons e right =>
          rcases List.cons.inj same with ⟨rfl, tail⟩
          rcases ih (List.not_mem_of_not_mem_cons here)
            (List.not_mem_of_not_mem_cons there) tail with ⟨rfl, rest⟩
          exact ⟨rfl, rest⟩

theorem clauseText_refs_inj {step step' : PrintedStep} (proper : step.Proper)
    (proper' : step'.Proper) (rules : step.reason.rule = step'.reason.rule)
    (same : clauseText step.clause ++ step.reason.refs =
      clauseText step'.clause ++ step'.reason.refs) :
    step = step' := by
  have apart : ∀ {step : PrintedStep}, step.Proper →
      '[' ∉ clauseText step.clause ++ "  ".toList :=
    fun proper => by simpa using plain_ne (by decide) (clauseText_plain proper)
  have behind : ∀ {refs refs' : Text}, clauseText step.clause ++ ("  ".toList ++ '[' :: refs) =
      clauseText step'.clause ++ ("  ".toList ++ '[' :: refs') → step.clause = step'.clause ∧
      refs = refs' := by
    intro refs refs' same
    rw [← List.append_assoc, ← List.append_assoc] at same
    rcases until_inj (apart proper) (apart proper') same with ⟨clauses, rest⟩
    exact ⟨clauseText_inj proper proper' (List.append_cancel_right clauses), rest⟩
  rcases step with ⟨reason, clause⟩
  rcases step' with ⟨reason', clause'⟩
  cases reason with
  | given =>
      cases reason' with
      | given =>
          simp only [Reason.refs, List.append_nil] at same
          rw [show clause = clause' from clauseText_inj proper proper' same]
      | resolution left right => cases rules
      | factoring premise => cases rules
  | resolution left right =>
      cases reason' with
      | given => cases rules
      | resolution left' right' =>
          simp only [Reason.refs, List.append_assoc] at same
          rcases behind same with ⟨rfl, numbers⟩
          rcases until_inj (digits_notMem (by decide) _) (digits_notMem (by decide) _) numbers with
            ⟨first, later⟩
          rcases until_inj (digits_notMem (by decide) _) (digits_notMem (by decide) _)
            (List.cons.inj later).2 with ⟨second, _⟩
          rw [Nat.succ.inj (digits_inj first), Nat.succ.inj (digits_inj second)]
      | factoring premise => cases rules
  | factoring premise =>
      cases reason' with
      | given => cases rules
      | resolution left right => cases rules
      | factoring premise' =>
          simp only [Reason.refs, List.append_assoc] at same
          rcases behind same with ⟨rfl, numbers⟩
          rcases until_inj (digits_notMem (by decide) _) (digits_notMem (by decide) _) numbers with
            ⟨only, _⟩
          rw [Nat.succ.inj (digits_inj only)]

theorem ruleToString_inj {reason reason' : Reason}
    (same : ruleToString reason.rule = ruleToString reason'.rule) : reason.rule = reason'.rule := by
  have names : ∀ rule ∈ [InferenceRule.kInput, .kResolution, .kFactoring],
      ∀ rule' ∈ [InferenceRule.kInput, .kResolution, .kFactoring],
        ruleToString rule = ruleToString rule' → rule = rule' := by decide
  have known : ∀ reason : Reason,
      reason.rule ∈ [InferenceRule.kInput, .kResolution, .kFactoring] :=
    fun reason => by cases reason <;> simp [Reason.rule]
  exact names _ (known reason) _ (known reason') same

theorem PrintedStep.text_inj {number : Nat} {step step' : PrintedStep} (proper : step.Proper)
    (proper' : step'.Proper) (same : step.text number = step'.text number) : step = step' := by
  have shape : ∀ step : PrintedStep, step.text number = (digits number ++ ". [".toList) ++
      (ruleToString step.reason.rule ++ ']' :: ' ' ::
        (clauseText step.clause ++ step.reason.refs)) :=
    fun step => by simp [PrintedStep.text]
  have closed : ∀ rule, ']' ∉ ruleToString rule := fun rule => by cases rule <;> decide
  rw [shape, shape] at same
  rcases until_inj (closed _) (closed _) (List.append_cancel_left same) with ⟨rules, rest⟩
  exact clauseText_refs_inj proper proper' (ruleToString_inj rules) (List.cons.inj rest).2

theorem PrintedStep.text_oneLine {step : PrintedStep} (proper : step.Proper) (number : Nat) :
    OneLine (step.text number) := by
  have clause : OneLine (clauseText step.clause) := plain_ne (by decide) (clauseText_plain proper)
  have refs : OneLine step.reason.refs := by
    cases step.reason with
    | given => simp [OneLine, Reason.refs]
    | resolution left right =>
        exact ((OneLine.append (by decide) (digits_oneLine _)).append
          (OneLine.append (by decide) (digits_oneLine _))).append (by decide)
    | factoring premise => exact (OneLine.append (by decide) (digits_oneLine _)).append (by decide)
  have rule : OneLine ("[".toList ++ ruleToString step.reason.rule ++ "] ".toList) :=
    (OneLine.append (by decide) (ruleToString_oneLine _)).append (by decide)
  exact ((((digits_oneLine number).append (by decide)).append rule).append clause).append refs

/-- A proof is determined by its text. -/
theorem proofText_inj {steps steps' : List PrintedStep} (proper : ∀ step ∈ steps, step.Proper)
    (proper' : ∀ step ∈ steps', step.Proper) (same : proofText steps = proofText steps') :
    steps = steps' := by
  unfold proofText at same
  generalize 1 = number at same
  induction steps generalizing steps' number with
  | nil =>
      cases steps' with
      | nil => rfl
      | cons step' rest' => exact absurd same (by simp)
  | cons step rest ih =>
      cases steps' with
      | nil => exact absurd same (by simp)
      | cons step' rest' =>
          simp only [List.zipIdx_cons, List.flatMap_cons, List.append_assoc,
            List.singleton_append] at same
          have here := proper step List.mem_cons_self
          have there := proper' step' List.mem_cons_self
          rcases until_inj (PrintedStep.text_oneLine here number)
            (PrintedStep.text_oneLine there number) same with ⟨line, later⟩
          rw [PrintedStep.text_inj here there line,
            ih (fun s member => proper s (List.mem_cons_of_mem step member))
              (fun s member => proper' s (List.mem_cons_of_mem step' member)) _ later]

theorem ReadsProof.unique {text : Text} {steps steps' : List PrintedStep}
    (left : ReadsProof text steps) (right : ReadsProof text steps') : steps = steps' :=
  proofText_inj left.proper right.proper (left.whole.trans right.whole.symm)

end Readback

section Trees

def SyntaxTerm.tree : SyntaxTerm → TermTree Text Text
  | .var name => .var name
  | .const name => .node name []
  | .app name args => .node name (args.map tree)

def clauseTrees (lits : List SyntaxLiteral) : Literals Text Text :=
  lits.map fun l => (l.atom.tree, l.isPositive)

def PrintedStep.line (step : PrintedStep) : Line Text Text :=
  ⟨step.reason, clauseTrees step.clause⟩

variable {V : Type} {name : Nat → Text} {label : V → Text}

theorem treeSyntax_tree (t : TermTree Nat V) :
    (treeSyntax name label t).tree = t.relabel name label := by
  induction t using TermTree.induct with
  | var x => simp only [treeSyntax, TermTree.relabel, eval_var, SyntaxTerm.tree]
  | node symbol children ih =>
      simp only [treeSyntax, TermTree.relabel, eval_node, nodeSyntax, List.isEmpty_map] at ih ⊢
      split
      · next none =>
          rw [List.isEmpty_iff.mp none]
          simp [SyntaxTerm.tree]
      · rw [SyntaxTerm.tree, List.map_map]
        exact congrArg _ (List.map_congr_left ih)

theorem clauseTrees_rendered (lits : Literals Nat V) :
    clauseTrees (lits.map (literalSyntax name label)) = ClauseLogic.relabel name label lits := by
  rw [clauseTrees, List.map_map, ClauseLogic.relabel]
  exact List.map_congr_left fun lit _ => by rw [← treeSyntax_tree]; rfl

end Trees

end AtpEngine
