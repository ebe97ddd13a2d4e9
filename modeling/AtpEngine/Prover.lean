import AtpEngine.PriorityQueue
import AtpEngine.Resolution

/-!
The given-clause loop of search/prover.cc. `iteration` is the body of the loop in
`prove` after the given clause is popped, `proveLoop` the loop with its limits.
What the C++ library leaves open (the enumeration order of an unordered map, the
choice among equal tops of the queue) is the `Runtime`.
-/
namespace AtpEngine

open Fuelled

abbrev ClauseComparator := Clause → Clause → Bool

def bfsCompare (a b : Clause) : Bool := a.depth > b.depth

def weightCompare (a b : Clause) : Bool := a.literals.length > b.literals.length

inductive ProverResult where
  | kTheorem | kSaturation | kTimeout
  deriving DecidableEq, Repr

structure ProverConfig where
  comparator : ClauseComparator := bfsCompare
  maxClauses : Nat := 100000
  maxIterations : Nat := 500000
  enableOccursCheck : Bool := false

def ProverConfig.uconfig (config : ProverConfig) : UnificationConfig :=
  { enableOccursCheck := config.enableOccursCheck }

structure Runtime where
  order : VariableOrder
  queue : PriorityQueueOps

/-- Maps in insertion order and a queue searched from end to end. -/
def Runtime.plain : Runtime := ⟨.insertion, .linear⟩

/-- The state of a prover, with the bank and the store it refers to. -/
structure Prover where
  env : Env := {}
  store : ClauseStore := {}
  unprocessed : List Clause := []
  processed : List ClauseId := []
  emptyClauseId : Option ClauseId := none
  deriving DecidableEq, Repr

namespace Prover

variable (runtime : Runtime) (config : ProverConfig)

def addClauses : List Clause → Prover → Except Fault Prover
  | [], p => .ok p
  | clause :: rest, p => do
      let (id, store) := p.store.addClause { clause with depth := 0 }
      let stored ← store.getClause id
      let unprocessed := runtime.queue.push config.comparator p.unprocessed stored
      addClauses rest { p with store, unprocessed }

def hitResourceLimit (p : Prover) (iterations : Nat) : Bool :=
  iterations ≥ config.maxIterations || p.store.size ≥ config.maxClauses

def isForwardSubsumedByProcessed (p : Prover) (clause : Clause) : Except Fault Bool :=
  p.processed.anyM fun pid => do
    let pc ← p.store.getClause pid
    pure (subsumes pc clause)

def shouldSkipGiven (p : Prover) (given : Clause) : Except Fault Bool :=
  if isTautology given then pure true else p.isForwardSubsumedByProcessed given

def applyBackwardSubsumption (p : Prover) (given : Clause) : Except Fault Prover := do
  let processed ← eraseIf (fun pid => do
    let pc ← p.store.getClause pid
    pure (subsumes given pc)) p.processed
  pure { p with processed }

/-- The two calls of `allResolvents` for one processed clause. -/
def resolventsWith (fuel : Nat) (store : ClauseStore) (given : Clause) (pid : ClauseId)
    (env : Env) : Except Fault (List Clause × Env) := do
  let pc ← store.getClause pid
  let (resolvents1, env) ← allResolvents runtime.order config.uconfig fuel given pc env
  let (resolvents2, env) ← allResolvents runtime.order config.uconfig fuel pc given env
  pure (resolvents1 ++ resolvents2, env)

def generateNewClauses (fuel : Nat) (p : Prover) (given : Clause) :
    Except Fault (List Clause × Env) := do
  let (resolvents, env) ← mapAccum (resolventsWith runtime config fuel p.store given)
      p.processed p.env
  let (factors, env) ← factor config.uconfig fuel given env
  pure (resolvents.flatten ++ factors, env)

/-- The depth of a parent, 0 for a missing one. -/
def parentDepth (store : ClauseStore) (parent : ClauseId) : Except Fault Nat :=
  if parent ≠ kInvalidId then do
    let c ← store.getClause parent
    pure c.depth
  else pure 0

def computeDepth (p : Prover) (clause : Clause) : Except Fault Nat := do
  let d1 ← parentDepth p.store clause.parent1
  let d2 ← parentDepth p.store clause.parent2
  pure (toUInt16 (max d1 d2 + 1))

def processNewClauses : List Clause → Prover → Except Fault (Option ClauseId × Prover)
  | [], p => .ok (none, p)
  | nc :: rest, p =>
      if nc.isEmpty then
        let (id, store) := p.store.addClause nc
        .ok (some id, { p with store })
      else if isTautology nc then processNewClauses rest p
      else do
        let depth ← p.computeDepth nc
        let (nid, store) := p.store.addClause { nc with depth }
        let storedNc ← store.getClause nid
        if ← isForwardSubsumedByProcessed { p with store } storedNc then
          processNewClauses rest { p with store }
        else
          let unprocessed := runtime.queue.push config.comparator p.unprocessed storedNc
          processNewClauses rest { p with store, unprocessed }

/-- The loop body of `prove` for a popped clause: a result leaves the loop. -/
def iteration (fuel : Nat) (given : Clause) (p : Prover) :
    Except Fault (Option ProverResult × Prover) :=
  if given.isEmpty then .ok (some .kTheorem, { p with emptyClauseId := some given.id })
  else do
    if ← p.shouldSkipGiven given then pure (none, p)
    else
      let p ← p.applyBackwardSubsumption given
      let (newClauses, env) ← p.generateNewClauses runtime config fuel given
      let (derivedEmpty, p) ← processNewClauses runtime config newClauses
        { p with env, processed := p.processed ++ [given.id] }
      if derivedEmpty.isSome then pure (some .kTheorem, { p with emptyClauseId := derivedEmpty })
      else pure (none, p)

/-- The loop of `prove`, with the number of selections made so far. -/
def proveLoop (fuel : Nat) : Nat → Nat → Prover → Except Fault (ProverResult × Nat × Prover)
  | 0, _, _ => .error .outOfFuel
  | turns + 1, iterations, p =>
      match runtime.queue.pop config.comparator p.unprocessed with
      | none => .ok (.kSaturation, iterations, p)
      | some (given, unprocessed) =>
          if hitResourceLimit config p iterations then .ok (.kTimeout, iterations, p)
          else do
            let (result, p) ← iteration runtime config fuel given { p with unprocessed }
            match result with
            | some result => pure (result, iterations + 1, p)
            | none => proveLoop fuel turns (iterations + 1) p

def prove (fuel : Nat) (p : Prover) : Except Fault (ProverResult × Prover) := do
  let (result, _, p) ← proveLoop runtime config fuel fuel 0 p
  pure (result, p)

def getEmptyClauseId (p : Prover) : Option ClauseId := p.emptyClauseId

end Prover

end AtpEngine
