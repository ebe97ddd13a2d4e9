import AtpEngine.MainProgram
import AtpEngine.Provenance

/-!
Redundancy among the processed clauses. A given clause is added only after the
forward test found no processed clause that subsumes it and the backward pass
deleted every processed clause that it subsumes, so no two processed clauses
are comparable. The relation is that of simplify/subsumption.cc: the length test
and the inclusion of the literals.
-/
namespace AtpEngine

open Fuelled

def ClauseStore.Incomparable (store : ClauseStore) (a b : ClauseId) : Prop :=
  ∀ ca cb, store.find a = some ca → store.find b = some cb →
    subsumes ca cb = false ∧ subsumes cb ca = false

structure Irredundant (p : Prover) : Prop where
  distinct : p.processed.Nodup
  proper : ∀ pid ∈ p.processed, ∃ c, p.store.find pid = some c ∧ isTautology c = false ∧
    c.literals ≠ []
  apart : p.processed.Pairwise p.store.Incomparable

section Turns

variable {runtime : Runtime} {config : ProverConfig} {fuel : Nat}

theorem ClauseStore.Incomparable.mono {store store' : ClauseStore} {a b : ClauseId}
    (apart : store.Incomparable a b) (grows : store.clauses <+: store'.clauses)
    (storedA : ∃ c, store.find a = some c) (storedB : ∃ c, store.find b = some c) :
    store'.Incomparable a b := by
  rcases storedA with ⟨ca, foundA⟩
  rcases storedB with ⟨cb, foundB⟩
  intro ca' cb' found found'
  rw [ClauseStore.find_prefix grows foundA] at found
  rw [ClauseStore.find_prefix grows foundB] at found'
  exact apart ca' cb' (foundA.trans found) (foundB.trans found')

/-- The processed ids of a generating turn: those the given clause does not
subsume, and the given clause, which none of them subsumes. -/
theorem Irredundant.generated {p : Prover} {given : Clause} {kept : List ClauseId}
    {pcs : List Clause} (inv : Irredundant p) (given_held : p.store.find given.id = some given)
    (generates : Generates p given kept pcs) :
    (kept ++ [given.id]).Nodup ∧ (kept ++ [given.id]).Pairwise p.store.Incomparable := by
  have incomparable : ∀ pid ∈ kept, p.store.Incomparable pid given.id := by
    intro pid member ca cb found found'
    rcases Option.some.inj (given_held.symm.trans found') with rfl
    rcases generates.unsubsumed pid (generates.sub.subset member) with ⟨pc, held, forward⟩
    rcases generates.clean pid member with ⟨pc', held', backward⟩
    rcases Option.some.inj (found.symm.trans held) with rfl
    rcases Option.some.inj (found.symm.trans held') with rfl
    exact ⟨forward, backward⟩
  -- a clause subsumes itself, so its id is not among the incomparable ones
  have other : given.id ∉ kept := by
    intro member
    have apart := incomparable given.id member given given given_held given_held
    rw [subsumes_refl] at apart
    cases apart.1
  constructor
  · refine List.nodup_append.mpr
      ⟨inv.distinct.sublist generates.sub, List.nodup_singleton _, ?_⟩
    rintro a member b last rfl
    rw [List.mem_singleton.mp last] at member
    exact other member
  · refine List.pairwise_append.mpr
      ⟨inv.apart.sublist generates.sub, List.pairwise_singleton _ _, ?_⟩
    intro a member b last
    rw [List.mem_singleton.mp last]
    exact incomparable a member

theorem Irredundant.grown {p p' : Prover} (inv : Irredundant p) (same : p'.processed = p.processed)
    (grows : p.store.clauses <+: p'.store.clauses) : Irredundant p' := by
  constructor <;> rw [same]
  · exact inv.distinct
  · intro pid member
    rcases inv.proper pid member with ⟨c, found, holds⟩
    exact ⟨c, ClauseStore.find_prefix grows found, holds⟩
  · refine inv.apart.imp_of_mem fun ma mb incomparable => ?_
    rcases inv.proper _ ma with ⟨ca, foundA, _⟩
    rcases inv.proper _ mb with ⟨cb, foundB, _⟩
    exact incomparable.mono grows ⟨ca, foundA⟩ ⟨cb, foundB⟩

theorem Irredundant.iterated {p p' : Prover} {given : Clause} {result : Option ProverResult}
    {calls : List (Inference × Option Clause)} (inv : Irredundant p)
    (given_held : p.store.find given.id = some given)
    (iterated : Iterated runtime config fuel given p (result, p') calls) : Irredundant p' := by
  rcases iterated.outcome with ⟨_, rfl, _⟩ |
    ⟨kept, _, _, _, _, q, _, generates, _, process, rfl, _⟩
  · exact ⟨inv.distinct, inv.proper, inv.apart⟩
  · rcases inv.generated given_held generates with ⟨distinct, apart⟩
    have proper : ∀ pid ∈ kept ++ [given.id], ∃ c, p.store.find pid = some c ∧
        isTautology c = false ∧ c.literals ≠ [] := by
      intro pid member
      rcases List.mem_append.mp member with old | new
      · exact inv.proper pid (generates.sub.subset old)
      · rw [List.mem_singleton.mp new]
        exact ⟨given, given_held, generates.proper, generates.literals⟩
    rcases processNewClauses_frame process with ⟨_, processed, grows⟩
    have begun : Irredundant { p with processed := kept ++ [given.id] } :=
      ⟨distinct, proper, apart⟩
    have kept_inv : Irredundant q := begun.grown processed grows
    exact ⟨kept_inv.distinct, kept_inv.proper, kept_inv.apart⟩

theorem LoopHead.irredundant {initial : List Clause} {start p : Prover} {iterations : Nat}
    {log : List (Inference × Option Clause)} (structured : StoreInv initial start)
    (init : Irredundant start) (head : LoopHead runtime config fuel start iterations log p) :
    Irredundant p := by
  induction head with
  | start => exact init
  | @turn _ _ _ q _ _ unprocessed before popped _ _ iterated ih =>
      rcases (before.storeInv structured).pop popped with ⟨_, given_held⟩
      have taken : Irredundant { q with unprocessed } := ⟨ih.distinct, ih.proper, ih.apart⟩
      exact taken.iterated given_held iterated

theorem ProveReturns.irredundant {initial : List Clause} {start p : Prover} {iterations : Nat}
    {log : List (Inference × Option Clause)} {result : ProverResult}
    (structured : StoreInv initial start) (init : Irredundant start)
    (returns : ProveReturns runtime config fuel start result iterations log p) : Irredundant p := by
  cases returns with
  | saturation head _ => exact head.irredundant structured init
  | timeout head _ _ => exact head.irredundant structured init
  | @result _ _ _ q _ _ unprocessed _ head popped _ iterated =>
      rcases (head.storeInv structured).pop popped with ⟨_, given_held⟩
      have inv := head.irredundant structured init
      have taken : Irredundant { q with unprocessed } := ⟨inv.distinct, inv.proper, inv.apart⟩
      exact taken.iterated given_held iterated

end Turns

section Clients

/-- The provers that a client of the class can have: made over an empty store, then
given clauses and run, in any order and any number of times, while others may add
terms to the pool. -/
inductive Client (runtime : Runtime) (config : ProverConfig) : Prover → Prop where
  | fresh (env : Env) : Client runtime config { env }
  | added {clauses : List Clause} {p p' : Prover} : Client runtime config p →
      Prover.addClauses runtime config clauses p = .ok p' → Client runtime config p'
  | proved {fuel : Nat} {result : ProverResult} {p p' : Prover} : Client runtime config p →
      Prover.prove runtime config fuel p = .ok (result, p') → Client runtime config p'
  | shared {p : Prover} (env : Env) : Client runtime config p →
      Client runtime config { p with env }

variable {runtime : Runtime} {config : ProverConfig}

structure Prover.InOrder (p : Prover) : Prop where
  structured : ∃ initial, StoreInv initial p
  irredundant : Irredundant p

theorem Prover.InOrder.fresh (env : Env) : Prover.InOrder { env } :=
  ⟨⟨[], .fresh env⟩, by constructor <;> simp⟩

theorem Prover.InOrder.added {clauses : List Clause} {p p' : Prover} (inOrder : p.InOrder)
    (run : Prover.addClauses runtime config clauses p = .ok p') : p'.InOrder := by
  rcases inOrder with ⟨⟨initial, structured⟩, inv⟩
  rcases addClauses_spec runtime config clauses p with ⟨q, run', _, processed, _, store, _⟩
  rcases Except.ok.inj (run.symm.trans run') with rfl
  exact ⟨⟨_, structured.added run⟩, inv.grown processed ⟨_, store.symm⟩⟩

theorem Prover.InOrder.proved {fuel : Nat} {result : ProverResult} {p p' : Prover}
    (inOrder : p.InOrder) (run : Prover.prove runtime config fuel p = .ok (result, p')) :
    p'.InOrder := by
  rcases inOrder with ⟨⟨initial, structured⟩, inv⟩
  rcases prove_returns run with ⟨last, log, returns⟩
  exact ⟨⟨initial, (returns.storeInv structured).1⟩, returns.irredundant structured inv⟩

theorem Prover.InOrder.shared {p : Prover} (inOrder : p.InOrder) (env : Env) :
    Prover.InOrder { p with env } := by
  rcases inOrder with ⟨⟨initial, structured⟩, inv⟩
  exact ⟨⟨initial, structured.ids, structured.queued, structured.processed,
    structured.linked⟩, inv.distinct, inv.proper, inv.apart⟩

/-- A call that ends by an exception leaves the turn between its backward
subsumption and the new clauses. -/
theorem Prover.InOrder.thrown {fuel n : Nat} {log : List (Inference × Option Clause)}
    {p q q' : Prover} {given : Clause} {unprocessed : List Clause} (inOrder : p.InOrder)
    (head : LoopHead runtime config fuel p n log q)
    (popped : runtime.queue.pop config.comparator q.unprocessed = some (given, unprocessed))
    (erased : Prover.applyBackwardSubsumption { q with unprocessed } given = .ok q') :
    q'.InOrder := by
  rcases inOrder with ⟨⟨initial, structured⟩, inv⟩
  have head_inv := head.irredundant structured inv
  rcases (head.storeInv structured).pop popped with ⟨popStore, _⟩
  rcases backward_ok erased with ⟨kept, rfl, sub, _⟩
  exact ⟨⟨initial, popStore.ids, popStore.queued, fun pid member =>
    popStore.processed pid (sub.subset member),
    popStore.linked⟩, head_inv.distinct.sublist sub, fun pid member =>
    head_inv.proper pid (sub.subset member), head_inv.apart.sublist sub⟩

theorem Client.irredundant {p : Prover} (client : Client runtime config p) :
    (∃ initial, StoreInv initial p) ∧ Irredundant p := by
  have inOrder : p.InOrder := by
    induction client with
    | fresh env => exact .fresh env
    | added _ run ih => exact ih.added run
    | proved _ run ih => exact ih.proved run
    | shared env _ ih => exact ih.shared env
  exact ⟨inOrder.structured, inOrder.irredundant⟩

end Clients

/-- At every head of the loop the processed clauses are an irredundant set, in the
first run of a prover and in those that go on from where it stopped. -/
theorem processed_irredundant (runtime : Runtime) (config : ProverConfig) {p : Prover}
    (client : Client runtime config p) (fuel : Nat) :
    ∀ iterations log p', LoopHead runtime config fuel p iterations log p' →
      p'.processed.Nodup ∧
      (∀ pid ∈ p'.processed, ∃ c, p'.store.find pid = some c ∧ isTautology c = false ∧
        c.literals ≠ []) ∧
      ∀ (i j : Nat) (a b : ClauseId) (ca cb : Clause), i ≠ j → p'.processed[i]? = some a →
        p'.processed[j]? = some b → p'.store.find a = some ca → p'.store.find b = some cb →
        subsumes ca cb = false := by
  intro iterations log p' head
  rcases client.irredundant with ⟨⟨initial, structured⟩, init⟩
  have inv := head.irredundant structured init
  refine ⟨inv.distinct, inv.proper, ?_⟩
  intro i j a b ca cb differ at_i at_j found found'
  have pairs := List.pairwise_iff_getElem.mp inv.apart
  rcases List.getElem?_eq_some_iff.mp at_i with ⟨hi, rfl⟩
  rcases List.getElem?_eq_some_iff.mp at_j with ⟨hj, rfl⟩
  rcases Nat.lt_or_gt_of_ne differ with before | behind
  · exact (pairs i j hi hj before ca cb found found').1
  · exact (pairs j i hj hi behind cb ca found' found).2

def unitInput : Text := "cnf(a,axiom,p(X)|q(X)). cnf(b,axiom,p(a)).".toList

theorem processed_irredundant_sample : ∃ (p p' : Prover) (iterations : Nat)
    (log : List (Inference × Option Clause)), LoopHead .plain {} 50 p iterations log p' ∧
      p'.processed.length = 2 ∧ p'.processed.Nodup := by
  have answer : (fun out => (out.1, out.2.processed.length)) <$> proveInput .plain {} 50 unitInput =
      .ok (.kSaturation, 2) := by decide +kernel
  rcases map_ok_iff.mp answer with ⟨⟨result, p'⟩, run, same⟩
  rcases Prod.mk.inj same with ⟨isSaturation, two⟩
  simp only at isSaturation two
  subst isSaturation
  rcases proveInput_ok.mp run with ⟨clauses, env, p, _, added, proved⟩
  rcases prove_saturation proved with ⟨last, log, head, _⟩
  have client : Client .plain {} p := .added (.fresh env) added
  exact ⟨p, p', last, log, head, two,
    (processed_irredundant .plain {} client 50 _ _ _ head).1⟩

end AtpEngine
