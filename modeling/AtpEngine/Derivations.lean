import AtpEngine.Variants

/-!
Derivations as lists of lines. A line gives a clause and names the lines it was
inferred from, in any order; a rule is judged by the values of its literals in an
algebra, so that the same lines can be a derivation over some algebras and not over
others. Relabelling its symbols and the variables of each line apart keeps a
derivation.
-/
namespace AtpEngine

open TermTree Triangular

namespace TermTree

variable {F G V W : Type} {D : Type*}

def relabel (g : F → G) (h : V → W) (t : TermTree F V) : TermTree G W :=
  t.eval (fun f args => .node (g f) args) fun x => .var (h x)

theorem eval_relabel (func : G → List D → D) (assign : W → D) (g : F → G) (h : V → W)
    (t : TermTree F V) :
    (t.relabel g h).eval func assign = t.eval (fun f => func (g f)) fun x => assign (h x) := by
  induction t using induct with
  | var x => simp [relabel]
  | node f children ih =>
      simp only [relabel, eval_node, List.map_map] at ih ⊢
      exact congrArg (func (g f)) (List.map_congr_left ih)

theorem occurs_relabel {g : F → G} {h : V → W} {y : W} {t : TermTree F V} :
    Occurs y (t.relabel g h) ↔ ∃ x, Occurs x t ∧ y = h x := by
  induction t using induct with
  | var x => simp [relabel]
  | node f children ih =>
      simp only [relabel, eval_node, occurs_node, List.mem_map, exists_exists_and_eq_and] at ih ⊢
      constructor
      · rintro ⟨child, member, inner⟩
        rcases (ih child member).mp inner with ⟨x, occurs, same⟩
        exact ⟨x, ⟨child, member, occurs⟩, same⟩
      · rintro ⟨x, ⟨child, member, occurs⟩, same⟩
        exact ⟨child, member, (ih child member).mpr ⟨x, occurs, same⟩⟩

end TermTree

theorem Triangular.SolvesCycles.relabel {F G V : Type} {D : Type*} {func : G → List D → D}
    (cycles : SolvesCycles V func) (g : F → G) : SolvesCycles V fun f => func (g f) := by
  intro σ assign finite
  have finite' : (Bound fun x => (σ x).map (TermTree.relabel g id)).Finite :=
    finite.subset fun x bound => by simpa [Bound] using bound
  rcases cycles _ assign finite' with ⟨assign', solves, agree⟩
  refine ⟨assign', fun x t at_x => ?_, fun x free => agree x (by simp [free])⟩
  rw [solves x (t.relabel g id) (by simp [at_x]), eval_relabel]
  rfl

namespace ClauseLogic

universe u

variable {F G V W : Type} {D : Type u}

section Rules

variable (func : F → List D → D)

/-- For all values of its variables the clause has the literals of a resolvent, for some
values of the variables of its premises. -/
def ResolventIn (p q r : Literals F V) : Prop :=
  ∃ i j a b polarity, p[i]? = some (a, polarity) ∧ q[j]? = some (b, !polarity) ∧
    ∀ assign : V → D, ∃ left right : V → D, a.eval func left = b.eval func right ∧
      values func assign r = values func left (p.eraseIdx i) ++ values func right (q.eraseIdx j)

/-- The same for a factor: literal `j` is a copy of literal `i`. -/
def FactorIn (p r : Literals F V) : Prop :=
  ∃ i j a b polarity, i ≠ j ∧ p[i]? = some (a, polarity) ∧ p[j]? = some (b, polarity) ∧
    ∀ assign : V → D, ∃ premise : V → D, a.eval func premise = b.eval func premise ∧
      values func assign r = values func premise (p.eraseIdx j)

end Rules

section Soundness

variable {func : F → List D → D} {truth : D → Prop} {p q r : Literals F V}

theorem models_values (models : (⟨func, truth⟩ : Interpretation F D).Models p)
    (assign : V → D) :
    ∃ lit ∈ values func assign p, LitHolds truth lit :=
  (Interpretation.satisfies_iff ⟨func, truth⟩ assign p).mp (models assign)

theorem values_split {assign : V → D}
    (holds : ∃ lit ∈ values func assign p, LitHolds truth lit) {i : Nat} {a : TermTree F V}
    {polarity : Bool} (at_i : p[i]? = some (a, polarity)) :
    LitHolds truth (a.eval func assign, polarity) ∨
      ∃ lit ∈ values func assign (p.eraseIdx i), LitHolds truth lit := by
  rcases holds with ⟨lit, member, holds⟩
  rcases List.getElem?_of_mem member with ⟨k, at_k⟩
  by_cases same : k = i
  · subst same
    rw [values, List.getElem?_map, at_i] at at_k
    rcases Option.some.inj at_k with rfl
    exact Or.inl holds
  · refine Or.inr ⟨lit, ?_, holds⟩
    rw [values_eraseIdx]
    exact List.mem_eraseIdx_iff_getElem?.mpr ⟨k, same, at_k⟩

theorem ResolventIn.models (resolvent : ResolventIn func p q r)
    (left : (⟨func, truth⟩ : Interpretation F D).Models p)
    (right : (⟨func, truth⟩ : Interpretation F D).Models q) :
    (⟨func, truth⟩ : Interpretation F D).Models r := by
  rcases resolvent with ⟨i, j, a, b, polarity, at_i, at_j, instances⟩
  refine models_of_values func fun assign => ?_
  rcases instances assign with ⟨θ, η, equal, result⟩
  rw [result]
  rcases values_split (models_values left θ) at_i with here | ⟨lit, member, holds⟩
  · rcases values_split (models_values right η) at_j with there | ⟨lit, member, holds⟩
    · -- the two literals have the same atom and opposite signs
      rw [equal] at here
      cases polarity <;> simp [LitHolds] at here there
      · exact absurd there here
      · exact absurd here there
    · exact ⟨lit, List.mem_append_right _ member, holds⟩
  · exact ⟨lit, List.mem_append_left _ member, holds⟩

theorem FactorIn.models (factor : FactorIn func p r)
    (premise : (⟨func, truth⟩ : Interpretation F D).Models p) :
    (⟨func, truth⟩ : Interpretation F D).Models r := by
  rcases factor with ⟨i, j, a, b, polarity, apart, at_i, at_j, instances⟩
  refine models_of_values func fun assign => ?_
  rcases instances assign with ⟨θ, equal, result⟩
  rw [result]
  rcases values_split (models_values premise θ) at_j with here | kept
  · -- the literal that was merged away is still there, at `i`
    rw [← equal] at here
    refine ⟨_, ?_, here⟩
    rw [values_eraseIdx]
    exact List.mem_eraseIdx_iff_getElem?.mpr
      ⟨i, apart, by rw [values, List.getElem?_map, at_i]; rfl⟩
  · exact kept

end Soundness

section Lines

/-- How a line of a derivation was obtained: from which other lines, by their positions. -/
inductive Reason where
  | given
  | resolution (left right : Nat)
  | factoring (premise : Nat)
  deriving DecidableEq, Repr

def Reason.premises : Reason → List Nat
  | .given => []
  | .resolution left right => [left, right]
  | .factoring premise => [premise]

structure Line (F V : Type) where
  reason : Reason
  clause : Literals F V

def Line.Justified (func : F → List D → D) (lines : List (Line F V)) (line : Line F V) : Prop :=
  match line.reason with
  | .given => True
  | .resolution left right => ∃ l m, lines[left]? = some l ∧ lines[right]? = some m ∧
      ResolventIn func l.clause m.clause line.clause
  | .factoring premise => ∃ l, lines[premise]? = some l ∧ FactorIn func l.clause line.clause

/-- Every line is justified, and no line rests on itself. -/
structure Derivation (func : F → List D → D) (lines : List (Line F V)) : Prop where
  justified : ∀ line ∈ lines, line.Justified func lines
  grounded : ∃ rank : Nat → Nat, ∀ (k : Nat) line, lines[k]? = some line →
    ∀ premise ∈ line.reason.premises, rank premise < rank k

variable {func : F → List D → D} {lines : List (Line F V)}

def givenClauses (lines : List (Line F V)) : Set (Literals F V) :=
  {clause | ∃ line ∈ lines, line.reason = .given ∧ line.clause = clause}

/-- Every line of a derivation follows from the given ones. -/
theorem Derivation.models (derivation : Derivation func lines) {truth : D → Prop}
    (given : ∀ clause ∈ givenClauses lines,
      (⟨func, truth⟩ : Interpretation F D).Models clause) :
    ∀ line ∈ lines, (⟨func, truth⟩ : Interpretation F D).Models line.clause := by
  rcases derivation.grounded with ⟨rank, older⟩
  have each : ∀ (n k : Nat) line, rank k = n → lines[k]? = some line →
      (⟨func, truth⟩ : Interpretation F D).Models line.clause := by
    intro n
    induction n using Nat.strong_induction_on with
    | _ n ih =>
      intro k line isRank at_k
      have earlier : ∀ premise ∈ line.reason.premises, ∀ l, lines[premise]? = some l →
          (⟨func, truth⟩ : Interpretation F D).Models l.clause :=
        fun premise member l at_premise =>
        ih (rank premise) (isRank ▸ older k line at_k premise member) premise l rfl at_premise
      have justified := derivation.justified line (List.mem_of_getElem? at_k)
      cases reason : line.reason with
      | given => exact given _ ⟨line, List.mem_of_getElem? at_k, reason, rfl⟩
      | resolution left right =>
          simp only [Line.Justified, reason] at justified
          simp only [reason, Reason.premises] at earlier
          rcases justified with ⟨l, m, at_left, at_right, resolvent⟩
          exact resolvent.models (earlier left (by simp) l at_left)
            (earlier right (by simp) m at_right)
      | factoring premise =>
          simp only [Line.Justified, reason] at justified
          simp only [reason, Reason.premises] at earlier
          rcases justified with ⟨l, at_premise, factor⟩
          exact factor.models (earlier premise (by simp) l at_premise)
  intro line member
  rcases List.getElem?_of_mem member with ⟨k, at_k⟩
  exact each _ k line rfl at_k

/-- A derivation of the empty clause leaves no model of the given clauses. -/
theorem Derivation.refutes [Nonempty D] (derivation : Derivation func lines)
    (empty : ∃ line ∈ lines, line.clause = []) (truth : D → Prop) :
    ¬ ∀ clause ∈ givenClauses lines,
      (⟨func, truth⟩ : Interpretation F D).Models clause := by
  intro given
  rcases empty with ⟨line, member, none⟩
  have models := derivation.models given line member
  rw [none] at models
  exact Interpretation.not_models_nil _ models

end Lines

section Relabelling

def relabel (g : F → G) (h : V → W) (clause : Literals F V) : Literals G W :=
  clause.map fun lit => (lit.1.relabel g h, lit.2)

theorem values_relabel (func : G → List D → D) (assign : W → D) (g : F → G) (h : V → W)
    (clause : Literals F V) :
    values func assign (relabel g h clause) = values (fun f => func (g f))
      (fun x => assign (h x)) clause := by
  rw [values, relabel, List.map_map, values]
  exact List.map_congr_left fun lit _ => by rw [Function.comp_apply, TermTree.eval_relabel]

theorem relabel_getElem? {g : F → G} {h : V → W} {clause : Literals F V} {i : Nat}
    {a : TermTree F V} {polarity : Bool} (at_i : clause[i]? = some (a, polarity)) :
    (relabel g h clause)[i]? = some (a.relabel g h, polarity) := by
  rw [relabel, List.getElem?_map, at_i]
  rfl

theorem relabel_eraseIdx (g : F → G) (h : V → W) (clause : Literals F V) (i : Nat) :
    relabel g h (clause.eraseIdx i) = (relabel g h clause).eraseIdx i := by
  simp [relabel, List.eraseIdx_map]

variable [Nonempty V] {func : G → List D → D} {g : F → G} {p q r : Literals F V}

theorem values_of_apart (func : G → List D → D) (g : F → G) {h : V → W}
    (apart : Set.InjOn h {x | VarOf x p}) (assign : V → D) :
    ∃ assign' : W → D, ∀ (i : Nat) (a : TermTree F V) (polarity : Bool),
      p[i]? = some (a, polarity) →
      (a.relabel g h).eval func assign' = a.eval (fun f => func (g f)) assign ∧
      values func assign' ((relabel g h p).eraseIdx i) =
        values (fun f => func (g f)) assign (p.eraseIdx i) := by
  have inverse := apart.leftInvOn_invFunOn
  generalize Function.invFunOn h {x | VarOf x p} = back at inverse
  refine ⟨fun w => assign (back w), fun i a polarity at_i => ⟨?_, ?_⟩⟩
  · rw [TermTree.eval_relabel]
    exact TermTree.eval_congr _ _ fun x occurs =>
      congrArg assign (inverse ⟨_, List.mem_of_getElem? at_i, occurs⟩)
  · rw [← relabel_eraseIdx, values_relabel]
    refine values_congr _ fun x occurs => congrArg assign (inverse ?_)
    rcases occurs with ⟨lit, member, inside⟩
    exact ⟨lit, List.mem_of_mem_eraseIdx member, inside⟩

theorem ResolventIn.relabel {hp hq hr : V → W} (apart : Set.InjOn hp {x | VarOf x p})
    (apart' : Set.InjOn hq {x | VarOf x q}) (resolvent : ResolventIn (fun f => func (g f)) p q r) :
    ResolventIn func (relabel g hp p) (relabel g hq q) (relabel g hr r) := by
  rcases resolvent with ⟨i, j, a, b, polarity, at_i, at_j, instances⟩
  refine ⟨i, j, _, _, polarity, relabel_getElem? at_i, relabel_getElem? at_j, fun assign => ?_⟩
  rcases instances fun x => assign (hr x) with ⟨left, right, equal, result⟩
  rcases values_of_apart func g apart left with ⟨left', carried⟩
  rcases values_of_apart func g apart' right with ⟨right', carried'⟩
  rcases carried i a polarity at_i with ⟨atom, rest⟩
  rcases carried' j b _ at_j with ⟨atom', rest'⟩
  exact ⟨left', right', by rw [atom, atom', equal], by rw [values_relabel, result, rest, rest']⟩

theorem FactorIn.relabel {hp hr : V → W} (apart : Set.InjOn hp {x | VarOf x p})
    (factor : FactorIn (fun f => func (g f)) p r) :
    FactorIn func (relabel g hp p) (relabel g hr r) := by
  rcases factor with ⟨i, j, a, b, polarity, differ, at_i, at_j, instances⟩
  refine ⟨i, j, _, _, polarity, differ, relabel_getElem? at_i, relabel_getElem? at_j,
    fun assign => ?_⟩
  rcases instances fun x => assign (hr x) with ⟨premise, equal, result⟩
  rcases values_of_apart func g apart premise with ⟨premise', carried⟩
  rcases carried i a polarity at_i with ⟨atom, _⟩
  rcases carried j b polarity at_j with ⟨atom', rest⟩
  exact ⟨premise', by rw [atom, atom', equal], by rw [values_relabel, result, rest]⟩

omit [Nonempty V] in
theorem varOf_relabel {h : V → W} {y : W} :
    VarOf y (relabel g h p) ↔ ∃ x, VarOf x p ∧ y = h x := by
  simp only [VarOf, ClauseLogic.relabel, List.mem_map, exists_exists_and_eq_and, occurs_relabel]
  constructor
  · rintro ⟨lit, member, x, occurs, same⟩
    exact ⟨x, ⟨lit, member, occurs⟩, same⟩
  · rintro ⟨x, ⟨lit, member, occurs⟩, same⟩
    exact ⟨lit, member, x, occurs, same⟩

theorem relabel_variant {h h' : V → W} (apart : Set.InjOn h {x | VarOf x p})
    (apart' : Set.InjOn h' {x | VarOf x p}) : Variant (relabel g h p) (relabel g h' p) := by
  have inverse := apart.leftInvOn_invFunOn
  generalize Function.invFunOn h {x | VarOf x p} = back at inverse
  refine ⟨fun w => h' (back w), ?_, ?_⟩
  · rintro _ _ left right same
    rcases varOf_relabel.mp left with ⟨x, occurs, rfl⟩
    rcases varOf_relabel.mp right with ⟨y, occurs', rfl⟩
    simp only [inverse occurs, inverse occurs'] at same
    rw [apart' occurs occurs' same]
  · rw [inst, ClauseLogic.relabel, ClauseLogic.relabel, List.map_map]
    refine List.map_congr_left fun lit member => Prod.ext ?_ rfl
    rw [Function.comp_apply, subst, TermTree.eval_relabel]
    refine (TermTree.eval_congr _ _ fun x occurs => ?_).symm
    simp only [inverse (show VarOf x p from ⟨lit, member, occurs⟩)]

end Relabelling

end ClauseLogic

end AtpEngine
