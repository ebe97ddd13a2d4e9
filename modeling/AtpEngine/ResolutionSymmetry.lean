import AtpEngine.InferenceExact
import AtpEngine.Variants

/-!
The two orders of one resolution step. Each order renames the other premise and
unifies in the other direction; both clauses are most general, so each is an
instance of the other up to the order of its two blocks.
-/
namespace AtpEngine

open Fuelled ClauseLogic TermTree

/-- The literals with the first `n` moved behind the others. -/
def swapBlocks {α : Type} (n : Nat) (lits : List α) : List α := lits.drop n ++ lits.take n

theorem swapBlocks_append {α : Type} {left right : List α} {n : Nat} (width : left.length = n) :
    swapBlocks n (left ++ right) = right ++ left := by
  rw [swapBlocks, List.drop_left' width, List.take_left' width]

section Premises

variable {W : Type} {bank bank' : TermBank} {c1 c2 : Clause} {i j : Nat}
  {θ1 θ2 : Nat → TermTree Nat W}

theorem Complementary.symm (complementary : Complementary bank c1 i c2 j θ1 θ2) :
    Complementary bank c2 j c1 i θ2 θ1 := by
  rcases complementary with ⟨lit1, lit2, at_i, at_j, differ, equal⟩
  exact ⟨lit2, lit1, at_j, at_i, differ.symm, equal.symm⟩

theorem Complementary.of_reads (complementary : Complementary bank c1 i c2 j θ1 θ2)
    (same1 : bank.read c1.literals = bank'.read c1.literals)
    (same2 : bank.read c2.literals = bank'.read c2.literals) :
    Complementary bank' c1 i c2 j θ1 θ2 := by
  rcases complementary with ⟨lit1, lit2, at_i, at_j, differ, equal⟩
  refine ⟨lit1, lit2, at_i, at_j, differ, ?_⟩
  rw [← atom_of_inst_eq (congrArg (inst θ1) same1) at_i at_i, equal,
    atom_of_inst_eq (congrArg (inst θ2) same2) at_j at_j]

theorem instanceResolvent_of_reads (same1 : bank.read c1.literals = bank'.read c1.literals)
    (same2 : bank.read c2.literals = bank'.read c2.literals) :
    instanceResolvent bank c1 i c2 j θ1 θ2 = instanceResolvent bank' c1 i c2 j θ1 θ2 := by
  simp only [instanceResolvent, TermBank.read_eraseIdx, same1, same2]

theorem swapBlocks_resolvent (inRange1 : i < c1.size) :
    swapBlocks (c1.size - 1) (instanceResolvent bank c1 i c2 j θ1 θ2) =
      instanceResolvent bank c2 j c1 i θ2 θ1 := by
  apply swapBlocks_append
  rw [inst_length, TermBank.read_length, List.length_eraseIdx_of_lt inRange1, Clause.size]

theorem inst_swapBlocks {U : Type} (η : W → TermTree Nat U) (n : Nat) (lits : Literals Nat W) :
    inst η (swapBlocks n lits) = swapBlocks n (inst η lits) := by
  simp [swapBlocks, inst]

theorem MostGeneralResolvent.of_reads {first : TermBank} {r : Clause}
    (exact : MostGeneralResolvent bank bank' c1 i c2 j r)
    (same1 : bank.read c1.literals = first.read c1.literals)
    (same2 : bank.read c2.literals = first.read c2.literals) :
    MostGeneralResolvent first bank' c1 i c2 j r := by
  constructor
  case rule => exact exact.rule
  case parent1 => exact exact.parent1
  case parent2 => exact exact.parent2
  case resolvent =>
    rcases exact.resolvent with ⟨θ1, θ2, complementary, reads⟩
    exact ⟨θ1, θ2, complementary.of_reads same1 same2,
      reads.trans (instanceResolvent_of_reads same1 same2)⟩
  case general =>
    intro W θ1 θ2 complementary
    rcases exact.general W θ1 θ2 (complementary.of_reads same1.symm same2.symm) with
      ⟨ρ, instances⟩
    exact ⟨ρ, instances.trans (instanceResolvent_of_reads same1 same2)⟩

end Premises

theorem resolvents_variant {bank bank1 bank2 : TermBank} {c1 c2 r1 r2 : Clause} {i j : Nat}
    (inRange2 : j < c2.size) (exact1 : MostGeneralResolvent bank bank1 c1 i c2 j r1)
    (exact2 : MostGeneralResolvent bank bank2 c2 j c1 i r2) :
    Variant (bank1.read r1.literals) (swapBlocks (c2.size - 1) (bank2.read r2.literals)) := by
  rcases exact1.resolvent with ⟨θ1, θ2, complementary1, reads1⟩
  rcases exact2.resolvent with ⟨η2, η1, complementary2, reads2⟩
  have swapped : swapBlocks (c2.size - 1) (bank2.read r2.literals) =
      instanceResolvent bank c1 i c2 j η1 η2 := by
    rw [reads2, swapBlocks_resolvent inRange2]
  rcases exact1.general Nat η1 η2 complementary2.symm with ⟨ρ, forward⟩
  rcases exact2.general Nat θ2 θ1 complementary1.symm with ⟨η, backward⟩
  apply variant_of_instances
  · exact swapped.trans forward.symm
  · rw [inst_swapBlocks, backward, swapBlocks_resolvent inRange2, reads1]

/-- The two orders of a resolution step, run in any pools that renaming has grown
from one pool, both answer or neither does; their clauses are variants of each
other up to the order of the two blocks. -/
theorem resolve_symmetric (order1 order2 : VariableOrder) {uconfig : UnificationConfig}
    (enabled : uconfig.enableOccursCheck = true) {first env1 env2 : Env}
    (wf : first.bank.WellFormed) (small : first.bank.ArityBounded) (fresh : first.Fresh)
    (grows1 : first.Grows env1) (grows2 : first.Grows env2) {c1 c2 : Clause}
    (valid1 : c1.ValidIn first.bank) (valid2 : c2.ValidIn first.bank) {i j : Nat}
    (inRange1 : i < c1.size) (inRange2 : j < c2.size) :
    ∃ out1 env1' out2 env2',
      Returns (fun fuel => resolve order1 uconfig fuel c1 i c2 j env1) (out1, env1') ∧
      Returns (fun fuel => resolve order2 uconfig fuel c2 j c1 i env2) (out2, env2') ∧
      out1.isSome = out2.isSome ∧ ∀ r1 r2, out1 = some r1 → out2 = some r2 →
        Variant (env1'.bank.read r1.literals)
          (swapBlocks (c2.size - 1) (env2'.bank.read r2.literals)) := by
  have reads : ∀ {env : Env} {c : Clause}, first.Grows env → c.ValidIn first.bank →
      env.bank.read c.literals = first.bank.read c.literals := fun grows valid =>
    TermBank.read_extends wf (grows.bank.wf wf) grows.bank.grows valid
  rcases resolve_mostGeneral order1 (grows1.bank.wf wf) (grows1.bank.small small) enabled
    (grows1.fresh fresh) (valid1.mono grows1.bank.grows) (valid2.mono grows1.bank.grows) inRange1
    inRange2 with ⟨out1, env1', done1, found1, nothing1⟩
  rcases resolve_mostGeneral order2 (grows2.bank.wf wf) (grows2.bank.small small) enabled
    (grows2.fresh fresh) (valid2.mono grows2.bank.grows) (valid1.mono grows2.bank.grows) inRange2
    inRange1 with ⟨out2, env2', done2, found2, nothing2⟩
  have exact1 : ∀ r, out1 = some r → MostGeneralResolvent first.bank env1'.bank c1 i c2 j r :=
    fun r found => (found1 r found).of_reads (reads grows1 valid1) (reads grows1 valid2)
  have exact2 : ∀ r, out2 = some r → MostGeneralResolvent first.bank env2'.bank c2 j c1 i r :=
    fun r found => (found2 r found).of_reads (reads grows2 valid2) (reads grows2 valid1)
  refine ⟨out1, env1', out2, env2', done1, done2, ?_, ?_⟩
  · cases out1 with
    | none =>
        cases out2 with
        | none => rfl
        | some r2 =>
            -- the instances behind one answer contradict the silence of the other
            rcases (exact2 r2 rfl).resolvent with ⟨θ2, θ1, complementary, _⟩
            exact absurd (complementary.symm.of_reads (reads grows1 valid1).symm
              (reads grows1 valid2).symm) (nothing1 rfl Nat θ1 θ2)
    | some r1 =>
        cases out2 with
        | some r2 => rfl
        | none =>
            rcases (exact1 r1 rfl).resolvent with ⟨θ1, θ2, complementary, _⟩
            exact absurd (complementary.symm.of_reads (reads grows2 valid2).symm
              (reads grows2 valid1).symm) (nothing2 rfl Nat θ2 θ1)
  · intro r1 r2 some1 some2
    exact resolvents_variant inRange2 (exact1 r1 some1) (exact2 r2 some2)

theorem resolve_symmetric_sample : ∃ (c1 c2 r1 r2 : Clause) (env env1 env2 : Env),
    readInput resolventInput = .ok ([c1, c2], env) ∧
    Returns (fun fuel => resolve .insertion ⟨true⟩ fuel c1 0 c2 0 env) (some r1, env1) ∧
    Returns (fun fuel => resolve .insertion ⟨true⟩ fuel c2 0 c1 0 env) (some r2, env2) ∧
    Variant (env1.bank.read r1.literals)
      (swapBlocks (c2.size - 1) (env2.bank.read r2.literals)) := by
  rcases resolvent_pool with
    ⟨c1, c2, env, read, wf, small, valid1, valid2, some1, some2, plain, θ1, θ2, complementary⟩
  have enabled : (⟨true⟩ : UnificationConfig).enableOccursCheck = true := rfl
  have fresh := Env.fresh_of_names wf.table plain
  rcases resolve_symmetric .insertion .insertion enabled wf small fresh (.refl env)
    (.refl env) valid1
    valid2 some1 some2 with ⟨out1, env1, out2, env2, done1, done2, same, variants⟩
  rcases resolve_mostGeneral .insertion wf small enabled fresh valid1 valid2 some1 some2 with
    ⟨out, last, done, _, nothing⟩
  rcases Prod.mk.inj (done.unique done1) with ⟨rfl, rfl⟩
  cases out with
  | none => exact absurd complementary (nothing rfl Nat θ1 θ2)
  | some r1 =>
      rcases Option.isSome_iff_exists.mp (same ▸ rfl : out2.isSome = true) with ⟨r2, rfl⟩
      exact ⟨c1, c2, r1, r2, env, last, env2, read, done1, done2, variants r1 r2 rfl rfl⟩

end AtpEngine
