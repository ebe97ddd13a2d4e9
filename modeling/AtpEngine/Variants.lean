import AtpEngine.ClauseLogic
import Mathlib.Data.Set.Function

/-!
Variants of a list of literals. A substitution is determined by its values on
the variables that occur; so two lists that are instances of each other differ
only in the names of their variables.
-/
namespace AtpEngine.ClauseLogic

open TermTree

variable {F V W : Type}

/-- A renaming that keeps the variables of `c` apart turns `c` into `d`. -/
def Variant (c d : Literals F V) : Prop :=
  ∃ ρ : V → V, (∀ x y, VarOf x c → VarOf y c → ρ x = ρ y → x = y) ∧
    d = inst (fun x => .var (ρ x)) c

theorem eq_of_subst_eq {θ η : V → TermTree F W} {t : TermTree F V}
    (same : subst θ t = subst η t) {x : V} (occurs : Occurs x t) : θ x = η x := by
  induction occurs with
  | var => simpa using same
  | node member _ ih =>
      simp only [eval_node, node.injEq, true_and] at same
      exact ih (List.map_inj_left.mp same _ member)

theorem eq_of_inst_eq {θ η : V → TermTree F W} {c : Literals F V} (same : inst θ c = inst η c)
    {x : V} (occurs : VarOf x c) : θ x = η x := by
  rcases occurs with ⟨lit, member, occurs⟩
  exact eq_of_subst_eq (Prod.mk.inj (List.map_inj_left.mp same lit member)).1 occurs

theorem var_of_subst_eq_var {θ : V → TermTree F W} {t : TermTree F V} {x : W}
    (same : subst θ t = .var x) : ∃ y, t = .var y ∧ θ y = .var x := by
  cases t with
  | var y => exact ⟨y, rfl, by simpa using same⟩
  | node f children => simp at same

theorem variant_of_instances {c d : Literals F V} {η θ : V → TermTree F V}
    (forward : d = inst η c) (backward : c = inst θ d) : Variant c d := by
  -- there and back again leaves every variable of `c` where it was
  have back : ∀ x, VarOf x c → subst θ (η x) = .var x := by
    have fixed : inst (fun x => subst θ (η x)) c = inst .var c := by
      rw [← inst_inst, ← forward, ← backward, inst_var]
    exact fun x occurs => eq_of_inst_eq fixed occurs
  have renames : ∀ x, ∃ y, VarOf x c → η x = .var y ∧ θ y = .var x := by
    intro x
    by_cases occurs : VarOf x c
    · rcases var_of_subst_eq_var (back x occurs) with ⟨y, image, again⟩
      exact ⟨y, fun _ => ⟨image, again⟩⟩
    · exact ⟨x, fun h => absurd h occurs⟩
  choose ρ renamed using renames
  refine ⟨ρ, fun x y hx hy same => ?_, ?_⟩
  · have left := (renamed x hx).2
    rw [same, (renamed y hy).2] at left
    exact (var.inj left).symm
  · rw [forward]
    exact inst_congr fun x occurs => (renamed x occurs).1

/-- The renaming of a variant hits exactly the variables of the variant. -/
theorem variant_iff_bijection {c d : Literals F V} :
    Variant c d ↔ ∃ ρ : V → V, Set.BijOn ρ {x | VarOf x c} {y | VarOf y d} ∧
      d = inst (fun x => .var (ρ x)) c := by
  constructor
  · rintro ⟨ρ, apart, rfl⟩
    refine ⟨ρ, ⟨fun x occurs => ?_, fun x hx y hy same => apart x y hx hy same,
      fun y occurs => ?_⟩, rfl⟩
    · exact varOf_inst.mpr ⟨x, occurs, .var⟩
    · rcases varOf_inst.mp occurs with ⟨x, occurs, image⟩
      exact ⟨x, occurs, (occurs_var.mp image).symm⟩
  · rintro ⟨ρ, bijection, same⟩
    exact ⟨ρ, fun x y hx hy equal => bijection.injOn hx hy equal, same⟩

/-- Clauses are variants when labels that tell their variables apart make them equal. -/
theorem variant_of_labels [Nonempty V] {c d : Literals F V} {label label' : V → W}
    (apart : Set.InjOn label {x | VarOf x c}) (apart' : Set.InjOn label' {x | VarOf x d})
    (same : inst (fun x => .var (label x)) c = inst (fun x => .var (label' x)) d) :
    Variant c d := by
  have back : ∀ {c d : Literals F V} {label label' : V → W},
      Set.InjOn label' {x | VarOf x d} →
      inst (fun x => .var (label x)) c = inst (fun x => .var (label' x)) d →
      ∃ name : W → V, d = inst (fun x => .var (name (label x))) c := by
    intro c d label label' apart same
    have inverse := apart.leftInvOn_invFunOn
    generalize Function.invFunOn label' {x | VarOf x d} = name at inverse
    have own : inst (fun x => .var (name (label' x))) d = inst .var d :=
      inst_congr fun x occurs => congrArg _ (inverse occurs)
    have relabel := congrArg (inst fun y => (.var (name y) : TermTree F V)) same
    simp only [inst_inst, eval_var, own, inst_var] at relabel
    exact ⟨name, relabel.symm⟩
  rcases back apart' same with ⟨_, forward⟩
  rcases back apart same.symm with ⟨_, backward⟩
  exact variant_of_instances forward backward

end AtpEngine.ClauseLogic
