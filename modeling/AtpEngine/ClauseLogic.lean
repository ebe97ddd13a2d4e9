import AtpEngine.TriangularSubstitution
import Mathlib.Data.Finset.Basic
import Mathlib.Data.Finset.Card
import Mathlib.Data.List.Infix
import Mathlib.Order.Interval.Finset.Nat
import Mathlib.SetTheory.Cardinal.Order

/-!
Clauses and their meaning. A clause is a list of atoms with a polarity; read
over first-order trees it is the universal closure of its disjunction. The last
section is the ground completeness argument behind the given-clause loop: a set
of ground clauses closed under factoring and under resolution with positive
clauses, up to tautologies and shorter subsets, has a model. No clause is ever
resolved with itself there, since one parent is positive and the other is not.
-/
namespace AtpEngine.ClauseLogic

universe u

section Meaning

variable {A B : Type*}

def LitHolds (truth : A → Prop) (lit : A × Bool) : Prop := lit.2 = true ↔ truth lit.1

theorem litHolds_pos {truth : A → Prop} {a : A} : LitHolds truth (a, true) ↔ truth a := by
  simp [LitHolds]

theorem litHolds_neg {truth : A → Prop} {a : A} : LitHolds truth (a, false) ↔ ¬ truth a := by
  simp [LitHolds]

def Tautology (clause : List (A × Bool)) : Prop :=
  ∃ a, (a, true) ∈ clause ∧ (a, false) ∈ clause

theorem tautology_holds {clause : List (A × Bool)} (tautology : Tautology clause)
    (truth : A → Prop) : ∃ lit ∈ clause, LitHolds truth lit := by
  rcases tautology with ⟨a, pos, neg⟩
  by_cases value : truth a
  · exact ⟨_, pos, litHolds_pos.mpr value⟩
  · exact ⟨_, neg, litHolds_neg.mpr value⟩

theorem Tautology.map {clause : List (A × Bool)} (tautology : Tautology clause) (g : A → B) :
    Tautology (clause.map fun lit => (g lit.1, lit.2)) := by
  rcases tautology with ⟨a, pos, neg⟩
  exact ⟨g a, List.mem_map.mpr ⟨_, pos, rfl⟩, List.mem_map.mpr ⟨_, neg, rfl⟩⟩

end Meaning

section FirstOrder

variable {F V : Type}

/-- A function on the domain for each symbol and a truth predicate for atoms. -/
structure Interpretation (F : Type) (D : Type u) where
  func : F → List D → D
  holds : D → Prop

abbrev Literals (F V : Type) := List (TermTree F V × Bool)

def Interpretation.Satisfies {D : Type u} (I : Interpretation F D) (assign : V → D)
    (clause : Literals F V) : Prop :=
  ∃ lit ∈ clause, LitHolds (fun t : TermTree F V => I.holds (t.eval I.func assign)) lit

/-- The universal closure of the clause is true. -/
def Interpretation.Models {D : Type u} (I : Interpretation F D) (clause : Literals F V) : Prop :=
  ∀ assign : V → D, I.Satisfies assign clause

def Satisfiable (clauses : Set (Literals F V)) : Prop :=
  ∃ (D : Type u) (_ : Nonempty D) (I : Interpretation F D), ∀ clause ∈ clauses,
    I.Models clause

theorem Interpretation.not_models_nil {D : Type u} [Nonempty D] (I : Interpretation F D) :
    ¬ I.Models ([] : Literals F V) := by
  intro models
  rcases models (fun _ => Classical.arbitrary D) with ⟨_, member, _⟩
  cases member

def VarOf (x : V) (clause : Literals F V) : Prop := ∃ lit ∈ clause, TermTree.Occurs x lit.1

def inst {W : Type} (θ : V → TermTree F W) (clause : Literals F V) : Literals F W :=
  clause.map fun lit => (lit.1.subst θ, lit.2)

@[simp] theorem inst_length {W : Type} (θ : V → TermTree F W) (clause : Literals F V) :
    (inst θ clause).length = clause.length := by simp [inst]

theorem inst_append {W : Type} (θ : V → TermTree F W) (left right : Literals F V) :
    inst θ (left ++ right) = inst θ left ++ inst θ right := by simp [inst]

theorem inst_eraseIdx {W : Type} (θ : V → TermTree F W) (clause : Literals F V) (i : Nat) :
    inst θ (clause.eraseIdx i) = (inst θ clause).eraseIdx i := by
  simp [inst, List.eraseIdx_map]

theorem inst_congr {W : Type} {θ θ' : V → TermTree F W} {clause : Literals F V}
    (same : ∀ x, VarOf x clause → θ x = θ' x) : inst θ clause = inst θ' clause :=
  List.map_congr_left fun lit member => by
    have equal := TermTree.eval_congr .node lit.1 fun x occurs => same x ⟨lit, member, occurs⟩
    exact congrArg (·, lit.2) equal

theorem varOf_inst {W : Type} {θ : V → TermTree F W} {clause : Literals F V} {y : W} :
    VarOf y (inst θ clause) ↔ ∃ x, VarOf x clause ∧ TermTree.Occurs y (θ x) := by
  constructor
  · rintro ⟨_, member, occurs⟩
    rcases List.mem_map.mp member with ⟨lit, inside, rfl⟩
    rcases TermTree.occurs_subst.mp occurs with ⟨x, occurs, image⟩
    exact ⟨x, ⟨lit, inside, occurs⟩, image⟩
  · rintro ⟨x, ⟨lit, inside, occurs⟩, image⟩
    exact ⟨_, List.mem_map.mpr ⟨lit, inside, rfl⟩,
      TermTree.occurs_subst.mpr ⟨x, occurs, image⟩⟩

@[simp] theorem inst_var (clause : Literals F V) : inst .var clause = clause := by
  simp [inst]

theorem inst_inst {U W : Type} (θ : V → TermTree F U) (η : U → TermTree F W)
    (clause : Literals F V) :
    inst η (inst θ clause) = inst (fun x => (θ x).subst η) clause := by
  simp only [inst, List.map_map]
  exact List.map_congr_left fun lit _ => by simp [TermTree.eval_subst]

/-- The trees themselves as a domain, in any universe, with the given atoms true. -/
def treeInterpretation (truth : TermTree F V → Prop) :
    Interpretation F (ULift.{u} (TermTree F V)) where
  func f args := ⟨.node f (args.map ULift.down)⟩
  holds t := truth t.down

theorem eval_treeInterpretation (truth : TermTree F V → Prop) (t : TermTree F V) :
    (t.eval (treeInterpretation.{u} truth).func fun x => ⟨.var x⟩).down = t := by
  induction t using TermTree.induct with
  | var x => simp
  | node f children ih =>
      rw [TermTree.eval_node, treeInterpretation, TermTree.node.injEq, List.map_map]
      exact ⟨rfl, (List.map_congr_left ih).trans (List.map_id' children)⟩

/-- Without a complementary pair the trees falsify the clause: the atoms of its
negative literals are true and no others. -/
theorem valid_iff_tautology [Nonempty F] (clause : Literals F V) :
    (∀ (D : Type u) [Nonempty D] (I : Interpretation F D), I.Models clause) ↔
      Tautology clause := by
  constructor
  · intro valid
    rcases ‹Nonempty F› with ⟨f⟩
    have inhabited : Nonempty (ULift.{u} (TermTree F V)) := ⟨⟨.node f []⟩⟩
    let truth : TermTree F V → Prop := fun t => (t, false) ∈ clause
    rcases valid _ (treeInterpretation truth) fun x => ⟨.var x⟩ with
      ⟨⟨a, polarity⟩, member, holds⟩
    have value : polarity = true ↔
        truth (a.eval (treeInterpretation.{u} truth).func fun x => ⟨.var x⟩).down := holds
    rw [eval_treeInterpretation] at value
    cases polarity with
    | true => exact ⟨a, member, value.mp rfl⟩
    | false => cases value.mpr member
  · intro tautology D _ I assign
    exact tautology_holds tautology _

end FirstOrder

section Application

open Triangular TermTree

variable {F V W : Type} {D : Type u}

/-- The clause whose atoms are the fully resolved atoms of `c`. -/
def AppliedClause (σ : Bindings F V) (c d : Literals F V) : Prop :=
  List.Forall₂ (fun l m => m.2 = l.2 ∧ Applied σ l.1 m.1) c d

theorem Interpretation.satisfies_iff (I : Interpretation F D) (assign : V → D)
    (clause : Literals F V) :
    I.Satisfies assign clause ↔
      ∃ lit ∈ clause.map (fun l => (l.1.eval I.func assign, l.2)), LitHolds I.holds lit := by
  simp only [List.mem_map, exists_exists_and_eq_and]
  exact Iff.rfl

theorem AppliedClause.map_eq {σ : Bindings F V} {c d : Literals F V}
    (applied : AppliedClause σ c d) {E : Type*} {left right : TermTree F V → E}
    (same : ∀ t τ, Applied σ t τ → left t = right τ) :
    c.map (fun l => (left l.1, l.2)) = d.map fun l => (right l.1, l.2) := by
  rw [← List.forall₂_eq_eq_eq, List.forall₂_map_left_iff, List.forall₂_map_right_iff]
  exact applied.imp fun l m h => Prod.ext (same _ _ h.2) h.1.symm

theorem AppliedClause.inst_eq {σ : Bindings F V} {c d : Literals F V}
    (applied : AppliedClause σ c d) {θ : V → TermTree F W} (solves : Solves .node θ σ) :
    inst θ c = inst θ d :=
  applied.map_eq fun _ _ => solves.applied

/-- Truth of the resolved clause is truth of the original one under the values
of the resolved trees, whether or not the other bindings have a solution. -/
theorem AppliedClause.satisfies_solution {σ : Bindings F V} {c d : Literals F V}
    (applied : AppliedClause σ c d) (I : Interpretation F D) (assign : V → D) :
    I.Satisfies (solution I.func σ assign) c ↔ I.Satisfies assign d := by
  rw [I.satisfies_iff, I.satisfies_iff, applied.map_eq fun _ _ => solution_applied]

theorem AppliedClause.models {σ : Bindings F V} {c d : Literals F V}
    (applied : AppliedClause σ c d) {I : Interpretation F D} (models : I.Models c) : I.Models d :=
  fun assign => (applied.satisfies_solution I assign).mp (models _)

theorem AppliedClause.satisfies {σ : Bindings F V} {c d : Literals F V}
    (applied : AppliedClause σ c d) {I : Interpretation F D} {assign assign' : V → D}
    (solves : Solves I.func assign' σ) (agree : ∀ x, σ x = none → assign' x = assign x) :
    I.Satisfies assign' c ↔ I.Satisfies assign d := by
  rw [I.satisfies_iff, I.satisfies_iff, applied.map_eq fun t τ h => (solves.applied h).trans
    (eval_congr I.func τ fun x occurs => agree x (applied_free h occurs))]

theorem AppliedClause.var_free {σ : Bindings F V} {c d : Literals F V}
    (applied : AppliedClause σ c d) {x : V} (occurs : VarOf x d) : σ x = none := by
  rcases occurs with ⟨lit, member, occurs⟩
  rcases List.getElem_of_mem member with ⟨i, hi, rfl⟩
  exact applied_free (List.Forall₂.get applied (applied.length_eq ▸ hi) hi).2 occurs

theorem AppliedClause.rename {σ : Bindings F V} {c d : Literals F V}
    (applied : AppliedClause σ c d) {ρ : V → V} (kept : ∀ x, σ x = none → ρ x = x)
    (moved : ∀ x t, σ x = some t → t = .var (ρ x) ∧ σ (ρ x) = none) :
    d = inst (fun x => .var (ρ x)) c := by
  have solves : Solves TermTree.node (fun x => (.var (ρ x) : TermTree F V)) σ := by
    intro x t bound
    rcases moved x t bound with ⟨rfl, free⟩
    rw [eval_var, kept _ free]
  have fixed : inst (fun x => .var (ρ x)) d = inst .var d :=
    inst_congr fun x occurs => by rw [kept x (applied.var_free occurs)]
  rw [applied.inst_eq solves, fixed, inst_var]

theorem AppliedClause.free {c : Literals F V} : AppliedClause (fun _ => none) c c :=
  List.forall₂_same.mpr fun l _ => ⟨rfl, applied_self l.1 fun _ _ => rfl⟩

end Application

section Values

open Triangular TermTree

variable {F V W : Type} {D : Type u} (func : F → List D → D)

/-- The values of the atoms of a clause in an algebra, each with its polarity. -/
def values (assign : V → D) (clause : Literals F V) : List (D × Bool) :=
  clause.map fun lit => (lit.1.eval func assign, lit.2)

theorem mem_values {assign : V → D} {clause : Literals F V} {lit : TermTree F V × Bool}
    (member : lit ∈ clause) : (lit.1.eval func assign, lit.2) ∈ values func assign clause :=
  List.mem_map.mpr ⟨lit, member, rfl⟩

@[simp] theorem values_length (assign : V → D) (clause : Literals F V) :
    (values func assign clause).length = clause.length := by simp [values]

theorem values_subset (assign : V → D) {left right : Literals F V} (sub : left ⊆ right) :
    values func assign left ⊆ values func assign right := List.map_subset _ sub

theorem values_append (assign : V → D) (left right : Literals F V) :
    values func assign (left ++ right) = values func assign left ++ values func assign right := by
  simp [values]

theorem values_eraseIdx (assign : V → D) (clause : Literals F V) (i : Nat) :
    values func assign (clause.eraseIdx i) = (values func assign clause).eraseIdx i := by
  simp [values, List.eraseIdx_map]

theorem values_congr {left right : V → D} {clause : Literals F V}
    (same : ∀ x, VarOf x clause → left x = right x) :
    values func left clause = values func right clause :=
  List.map_congr_left fun lit member => by
    rw [eval_congr func lit.1 fun x occurs => same x ⟨lit, member, occurs⟩]

theorem values_inst (assign : W → D) (θ : V → TermTree F W) (clause : Literals F V) :
    values func assign (inst θ clause) = values func (fun x => (θ x).eval func assign)
      clause := by
  simp only [values, inst, List.map_map]
  exact List.map_congr_left fun lit _ => by simp [eval_subst]

theorem AppliedClause.values_eq {σ : Bindings F V} {c d : Literals F V}
    (applied : AppliedClause σ c d) {assign : V → D} (solves : Solves func assign σ) :
    values func assign c = values func assign d :=
  applied.map_eq fun _ _ => solves.applied

theorem models_of_values {truth : D → Prop} {clause : Literals F V}
    (holds : ∀ assign : V → D, ∃ lit ∈ values func assign clause, LitHolds truth lit) :
    (⟨func, truth⟩ : Interpretation F D).Models clause :=
  fun assign => (Interpretation.satisfies_iff ⟨func, truth⟩ assign clause).mpr (holds assign)

end Values

section Saturation

variable {A : Type u}

/-- Nothing needed is lost when `clause` is left out of `kept`. -/
def Covered (kept : Set (List (A × Bool))) (clause : List (A × Bool)) : Prop :=
  Tautology clause ∨ ∃ other ∈ kept, other ⊆ clause ∧ other.length ≤ clause.length

/-- Closed under factoring and under resolution of a positive clause with any
clause that has the negated atom, up to what is covered. -/
structure Saturated (kept : Set (List (A × Bool))) : Prop where
  no_empty : [] ∉ kept
  factors : ∀ clause ∈ kept, ∀ i j lit, i < j → clause[i]? = some lit →
    clause[j]? = some lit → Covered kept (clause.eraseIdx j)
  resolvents : ∀ left ∈ kept, ∀ right ∈ kept, (∀ lit ∈ left, lit.2 = true) →
    ∀ a i j, left[i]? = some (a, true) → right[j]? = some (a, false) →
    Covered kept (left.eraseIdx i ++ right.eraseIdx j)

def Positive (clause : List (A × Bool)) : Prop := ∀ lit ∈ clause, lit.2 = true

/-- An atom is made true when a positive clause needs it: its largest atom is
this one and its smaller atoms are false. -/
def truth [LinearOrder A] [WellFoundedLT A] (kept : Set (List (A × Bool))) (a : A) : Prop :=
  ∃ clause ∈ kept, Positive clause ∧ (a, true) ∈ clause ∧
    ∀ b, (b, true) ∈ clause → b ≠ a → ∃ _ : b < a, ¬ truth kept b
termination_by wellFounded_lt.wrap a
decreasing_by assumption

variable [LinearOrder A] [WellFoundedLT A] (kept : Set (List (A × Bool)))

theorem truth_iff (a : A) : truth kept a ↔
    ∃ clause ∈ kept, Positive clause ∧ (a, true) ∈ clause ∧
      ∀ b, (b, true) ∈ clause → b ≠ a → b < a ∧ ¬ truth kept b := by
  rw [truth]
  simp only [exists_prop]

variable {kept}

omit [WellFoundedLT A] in
theorem exists_largest : ∀ {clause : List (A × Bool)}, Positive clause → clause ≠ [] →
    ∃ a, (a, true) ∈ clause ∧ ∀ b, (b, true) ∈ clause → b ≤ a
  | [], _, nonempty => absurd rfl nonempty
  | (a, polarity) :: rest, positive, _ => by
      have isTrue : polarity = true := positive (a, polarity) List.mem_cons_self
      subst isTrue
      rcases rest with _ | ⟨next, rest⟩
      · refine ⟨a, List.mem_cons_self, fun b member => ?_⟩
        rw [(Prod.mk.inj (List.mem_singleton.mp member)).1]
      · have tail : Positive (next :: rest) := fun lit member =>
          positive lit (List.mem_cons_of_mem _ member)
        rcases exists_largest tail (List.cons_ne_nil _ _) with ⟨top, member, above⟩
        refine ⟨max a top, ?_, fun b inside => ?_⟩
        · rcases max_choice a top with eq | eq
          · rw [eq]; exact List.mem_cons_self
          · rw [eq]; exact List.mem_cons_of_mem _ member
        · rcases List.mem_cons.mp inside with same | later
          · rw [(Prod.mk.inj same).1]; exact le_max_left a top
          · exact le_trans (above b later) (le_max_right a top)

theorem positive_true (sat : Saturated kept) {clause : List (A × Bool)} (member : clause ∈ kept)
    (positive : Positive clause) : ∃ a, (a, true) ∈ clause ∧ truth kept a := by
  have nonempty : clause ≠ [] := fun empty => sat.no_empty (empty ▸ member)
  rcases exists_largest positive nonempty with ⟨a, inside, above⟩
  by_cases some_true : ∃ b, (b, true) ∈ clause ∧ truth kept b
  · exact some_true
  refine ⟨a, inside, (truth_iff kept a).mpr ⟨clause, member, positive, inside, ?_⟩⟩
  intro b other different
  exact ⟨lt_of_le_of_ne (above b other) different, fun value => some_true ⟨b, other, value⟩⟩

omit [LinearOrder A] [WellFoundedLT A] in
theorem positive_no_tautology {clause : List (A × Bool)} (positive : Positive clause) :
    ¬ Tautology clause := by
  rintro ⟨a, _, neg⟩
  exact Bool.false_ne_true (positive _ neg)

/-- A true atom is the only true literal, at a single position, of some positive
clause: a second occurrence would give a factor, hence a shorter such clause. -/
theorem producer (sat : Saturated kept) {a : A} (value : truth kept a) :
    ∃ clause ∈ kept, Positive clause ∧ ∃ i, clause[i]? = some (a, true) ∧
      ∀ lit ∈ clause.eraseIdx i, ¬ LitHolds (truth kept) lit := by
  have shortest : ∀ n, ∀ clause ∈ kept, clause.length = n → Positive clause →
      (a, true) ∈ clause → (∀ b, (b, true) ∈ clause → b ≠ a → ¬ truth kept b) →
      ∃ clause ∈ kept, Positive clause ∧ ∃ i, clause[i]? = some (a, true) ∧
        ∀ lit ∈ clause.eraseIdx i, ¬ LitHolds (truth kept) lit := by
    intro n
    induction n using Nat.strong_induction_on with
    | _ n ih =>
      intro clause member len positive inside others
      by_cases twice : ∃ i j : Nat, i < j ∧ clause[i]? = some (a, true) ∧
        clause[j]? = some (a, true)
      · rcases twice with ⟨i, j, order, at_i, at_j⟩
        have drops : (clause.eraseIdx j).length < clause.length := by
          have := (List.getElem?_eq_some_iff.mp at_j).1
          rw [List.length_eraseIdx_of_lt this]
          omega
        have part : clause.eraseIdx j ⊆ clause := List.eraseIdx_subset
        rcases sat.factors clause member i j _ order at_i at_j with
          tautology | ⟨k, kKept, sub, short⟩
        · exact absurd tautology (positive_no_tautology fun lit h => positive lit (part h))
        · have kPositive : Positive k := fun lit h => positive lit (part (sub h))
          rcases positive_true sat kKept kPositive with ⟨b, bIn, bTrue⟩
          have same : b = a := by
            by_contra different
            exact others b (part (sub bIn)) different bTrue
          subst same
          exact ih k.length (by omega) k kKept rfl kPositive bIn fun c h => others c (part (sub h))
      · rcases List.getElem?_of_mem inside with ⟨i, at_i⟩
        refine ⟨clause, member, positive, i, at_i, ?_⟩
        rintro ⟨b, polarity⟩ h holds
        rcases List.mem_eraseIdx_iff_getElem?.mp h with ⟨j, apart, at_j⟩
        have whole : (b, polarity) ∈ clause := List.eraseIdx_subset h
        have isTrue : polarity = true := positive _ whole
        subst isTrue
        have bTrue := litHolds_pos.mp holds
        by_cases same : b = a
        · subst same
          rcases Nat.lt_or_gt_of_ne apart with before | after
          · exact twice ⟨j, i, before, at_j, at_i⟩
          · exact twice ⟨i, j, after, at_i, at_j⟩
        · exact others b whole same bTrue
  rcases (truth_iff kept a).mp value with ⟨clause, member, positive, inside, smaller⟩
  exact shortest clause.length clause member rfl positive inside
    fun b h different => (smaller b h different).2

/-- The atoms that stand negated in a clause. -/
noncomputable def negatives (clause : List (A × Bool)) : Finset A :=
  ((clause.filter fun lit => !lit.2).map Prod.fst).toFinset

omit [WellFoundedLT A] in
theorem mem_negatives {clause : List (A × Bool)} {a : A} :
    a ∈ negatives clause ↔ (a, false) ∈ clause := by
  simp [negatives]

omit [WellFoundedLT A] in
theorem negatives_subset {left right : List (A × Bool)} (sub : left ⊆ right) :
    negatives left ⊆ negatives right :=
  fun _ h => mem_negatives.mpr (sub (mem_negatives.mp h))

/-- Every kept clause holds. A false clause has a negated atom that is true;
resolving it away, or merging two copies of it, gives a false kept clause that
is smaller in the number of negated atoms and then in length. -/
theorem saturated_holds (sat : Saturated kept) (clause : List (A × Bool))
    (member : clause ∈ kept) :
    ∃ lit ∈ clause, LitHolds (truth kept) lit := by
  -- the induction is on the negative literals, then on the length: a factor is
  -- shorter, a resolvent with a positive producer has fewer negative literals
  by_contra false_here
  push Not at false_here
  by_cases positive : Positive clause
  · rcases positive_true sat member positive with ⟨a, inside, value⟩
    exact false_here _ inside (litHolds_pos.mpr value)
  simp only [Positive, not_forall] at positive
  rcases positive with ⟨⟨a, polarity⟩, inside, negated⟩
  have isFalse : polarity = false := by simpa using negated
  subst isFalse
  have value : truth kept a := by
    by_contra absent
    exact false_here _ inside (litHolds_neg.mpr absent)
  rcases List.getElem?_of_mem inside with ⟨j, at_j⟩
  have within {i : Nat} {lit : A × Bool} (at_i : clause[i]? = some lit) : i < clause.length :=
    (List.getElem?_eq_some_iff.mp at_i).1
  -- a negative literal that occurs twice is merged by a factor
  by_cases twice : ∃ i k : Nat, i < k ∧ clause[i]? = some (a, false) ∧
    clause[k]? = some (a, false)
  · rcases twice with ⟨i, k, order, at_i, at_k⟩
    have drops := List.length_eraseIdx_of_lt (within at_k)
    have some_length := within at_k
    have part : clause.eraseIdx k ⊆ clause := List.eraseIdx_subset
    rcases sat.factors clause member i k _ order at_i at_k with
      tautology | ⟨other, kKept, sub, short⟩
    · rcases tautology_holds tautology (truth kept) with ⟨lit, h, holds⟩
      exact false_here lit (part h) holds
    · have fewer : (negatives other).card ≤ (negatives clause).card :=
        Finset.card_le_card (negatives_subset (List.Subset.trans sub part))
      rcases saturated_holds sat other kKept with ⟨lit, h, holds⟩
      exact false_here lit (part (sub h)) holds
  · rcases producer sat value with ⟨left, leftKept, leftPositive, i, at_i, leftFalse⟩
    have part : clause.eraseIdx j ⊆ clause := List.eraseIdx_subset
    have all_false : ∀ lit ∈ left.eraseIdx i ++ clause.eraseIdx j,
        ¬ LitHolds (truth kept) lit := by
      intro lit h
      rcases List.mem_append.mp h with l | r
      · exact leftFalse lit l
      · exact false_here lit (part r)
    rcases sat.resolvents left leftKept clause member leftPositive a i j at_i at_j with
      tautology | ⟨other, kKept, sub, _⟩
    · rcases tautology_holds tautology (truth kept) with ⟨lit, h, holds⟩
      exact all_false lit h holds
    · have gone : a ∉ negatives other := by
        intro h
        rcases List.mem_append.mp (sub (mem_negatives.mp h)) with l | r
        · exact Bool.false_ne_true (leftPositive _ (List.eraseIdx_subset l))
        · rcases List.mem_eraseIdx_iff_getElem?.mp r with ⟨k, apart, at_k⟩
          rcases Nat.lt_or_gt_of_ne apart with before | after
          · exact twice ⟨k, j, before, at_k, at_j⟩
          · exact twice ⟨j, k, after, at_j, at_k⟩
      have still : negatives other ⊆ negatives clause := by
        intro b h
        rcases List.mem_append.mp (sub (mem_negatives.mp h)) with l | r
        · exact absurd (leftPositive _ (List.eraseIdx_subset l)) Bool.false_ne_true
        · exact mem_negatives.mpr (part r)
      have fewer : (negatives other).card < (negatives clause).card :=
        Finset.card_lt_card
          (Finset.ssubset_iff_of_subset still |>.mpr ⟨a, mem_negatives.mpr inside, gone⟩)
      rcases saturated_holds sat other kKept with ⟨lit, h, holds⟩
      exact all_false lit (sub h) holds
termination_by ((negatives clause).card, clause.length)
decreasing_by
  · rw [Prod.lex_def]
    omega
  · rw [Prod.lex_def]
    omega

end Saturation

/-- A saturated set of ground clauses has a model, over any type of atoms. -/
theorem saturated_model {A : Type u} {kept : Set (List (A × Bool))} (sat : Saturated kept) :
    ∃ truth : A → Prop, ∀ clause ∈ kept, ∃ lit ∈ clause, LitHolds truth lit := by
  rcases exists_wellFoundedLT A with ⟨order, wf⟩
  exact ⟨truth kept, fun clause member => saturated_holds sat clause member⟩

end AtpEngine.ClauseLogic
