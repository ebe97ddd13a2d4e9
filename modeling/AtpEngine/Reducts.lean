import AtpEngine.Derivations

/-!
Signatures that are interpreted in one another. An interpretation of some symbols
interprets others that stand for them; a clause with its symbols relabelled is true
in the one when it is true in the other. So a set of clauses whose members contain
instances of stronger ones has a model when these do.
-/
namespace AtpEngine

namespace TermTree

variable {F V : Type} {D : Type*}

theorem eval_congr_nodes {P : F → Prop} {func func' : F → List D → D}
    (same : ∀ f, P f → func f = func' f) (assign : V → D) {t : TermTree F V}
    (nodes : t.Nodes P) : t.eval func assign = t.eval func' assign := by
  induction nodes with
  | var x => rw [eval_var, eval_var]
  | node known _ ih => rw [eval_node, eval_node, same _ known, List.map_congr_left ih]

end TermTree

namespace ClauseLogic

universe u

variable {F G V W : Type} {D : Type u}

/-- The interpretation of the symbols that stand for those of `I`. -/
def Interpretation.reduct (I : Interpretation G D) (g : F → G) : Interpretation F D :=
  ⟨fun f => I.func (g f), I.holds⟩

theorem Interpretation.Models.inst {I : Interpretation F D} {p : Literals F V} (models : I.Models p)
    (θ : V → TermTree F W) : I.Models (ClauseLogic.inst θ p) :=
  models_of_values I.func fun assign => by
    rw [values_inst]
    exact models_values models _

theorem Interpretation.Models.mono {I : Interpretation F D} {p q : Literals F V}
    (models : I.Models p) (sub : p ⊆ q) : I.Models q := fun assign => by
  rcases models assign with ⟨lit, member, holds⟩
  exact ⟨lit, sub member, holds⟩

/-- A clause over other symbols, its variables told apart, is true with it. -/
theorem Interpretation.models_relabel [Nonempty V] (I : Interpretation G D) {g : F → G}
    {h : V → W} {p : Literals F V} (apart : Set.InjOn h {x | VarOf x p}) :
    I.Models (relabel g h p) ↔ (I.reduct g).Models p := by
  constructor
  · intro models
    refine models_of_values _ fun assign => ?_
    have inverse := apart.leftInvOn_invFunOn
    generalize Function.invFunOn h {x | VarOf x p} = back at inverse
    have holds := models_values models fun w => assign (back w)
    rw [values_relabel] at holds
    rwa [values_congr _ fun x occurs => congrArg assign (inverse occurs)] at holds
  · intro models
    refine models_of_values _ fun assign => ?_
    rw [values_relabel]
    exact models_values models _

theorem Interpretation.models_congr {P : F → Prop} {func func' : F → List D → D}
    {truth : D → Prop} (same : ∀ f, P f → func f = func' f) {p : Literals F V}
    (nodes : ∀ lit ∈ p, lit.1.Nodes P)
    (models : (⟨func, truth⟩ : Interpretation F D).Models p) :
    (⟨func', truth⟩ : Interpretation F D).Models p := by
  refine models_of_values _ fun assign => ?_
  have equal : values func assign p = values func' assign p :=
    List.map_congr_left fun lit member => by
      rw [TermTree.eval_congr_nodes same assign (nodes lit member)]
  exact equal ▸ models_values models assign

/-- Every clause of the second set contains, when its symbols are relabelled, an
instance of a clause of the first one. -/
def Weakens (g : G → F) (strong : Set (Literals F V)) (weak : Set (Literals G V)) : Prop :=
  ∀ clause ∈ weak, ∃ premise ∈ strong, ∃ θ : V → TermTree F V,
    ClauseLogic.inst θ premise ⊆ relabel g id clause

theorem Weakens.models [Nonempty V] {g : G → F} {strong : Set (Literals F V)}
    {weak : Set (Literals G V)} (weakens : Weakens g strong weak) {I : Interpretation F D}
    (models : ∀ premise ∈ strong, I.Models premise) :
    ∀ clause ∈ weak, (I.reduct g).Models clause := by
  intro clause member
  rcases weakens clause member with ⟨premise, inside, θ, sub⟩
  exact (I.models_relabel (Set.injOn_id _)).mp (((models premise inside).inst θ).mono sub)

end ClauseLogic

end AtpEngine
