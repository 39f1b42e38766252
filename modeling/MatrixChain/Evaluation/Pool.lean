import Std.Data.HashMap
import MatrixChain.Evaluation.Levels
import MatrixChain.Evaluation.Realization

/-!
# Evaluation level by level

The nodes of one level are tasks for a pool of workers. Values are kept by the identity of their node, collected
in the order of the places of the level, and dropped after their last use. A timetable says in which order the
pool runs the tasks of a level and when results are collected. What a task does is a parameter, in any monad with
faults.
-/

namespace MatrixChain

inductive PoolEvent where
  /-- The task at a place of the level runs. -/
  | run (place : Nat)
  | collect
deriving DecidableEq

/-- The events of a level, by its number and by the number of its tasks. -/
abbrev Timetable := Nat → Nat → List PoolEvent

def Timetable.oneByOne : Timetable := fun _ tasks =>
  (List.range tasks).flatMap fun place => [.run place, .collect]

namespace Pool

variable {α β : Type}

/-- The values that are still needed, and how often the value of each node will yet be used. -/
structure Store (β : Type) where
  values : Std.HashMap NodeId β
  pending : Std.HashMap NodeId Int

def uses (level : Array (Expr α)) : List NodeId :=
  level.toList.flatMap fun e => e.children.map Expr.id

namespace Store

def expect (store : Store β) (id : NodeId) : Store β :=
  { store with pending := store.pending.insert id (store.pending.getD id 0 + 1) }

def start (levels : Expr.Levels α) : Store β :=
  (levels.toList.flatMap uses).foldl expect ⟨∅, ∅⟩

def put (store : Store β) (id : NodeId) (value : β) : Store β :=
  { store with values := store.values.insert id value }

end Store

/-- A level on the way: the results that there are, and how many of them have been collected. -/
structure Progress (β : Type) where
  store : Store β
  results : Array (Option (Except Fault β))
  collected : Nat

def Progress.start (store : Store β) (tasks : Nat) : Progress β :=
  ⟨store, Array.replicate tasks none, 0⟩

variable {m : Type → Type} [Monad m] [MonadExcept Fault m]

namespace Store

def value (store : Store β) (id : NodeId) : m β :=
  match store.values[id]? with
  | some value => pure value
  | none => throw (.missingValue id)

/-- Count one use less to come, and with the last one drop the value, which has to be there. -/
def spend (store : Store β) (id : NodeId) : m (Store β) :=
  let left := store.pending.getD id 0 - 1
  let pending := store.pending.insert id left
  if left = 0 then
    if id ∈ store.values then pure ⟨store.values.erase id, pending⟩ else throw (.missingValue id)
  else pure ⟨store.values, pending⟩

def release (store : Store β) (level : Array (Expr α)) : m (Store β) :=
  (uses level).foldlM spend store

end Store

/-- Run `x`, and have its fault as a result. -/
def attempt (x : m β) : m (Except Fault β) :=
  tryCatch (.ok <$> x) fun fault => pure (.error fault)

def task (combine : Expr α → List β → m β) (store : Store β) (e : Expr α) : m β := do
  combine e (← e.children.mapM fun child => store.value child.id)

def Progress.step (combine : Expr α → List β → m β) (level : Array (Expr α)) (p : Progress β) :
    PoolEvent → m (Progress β)
  | .run place =>
    match level[place]? with
    | some e => do
      let result ← attempt (task combine p.store e)
      pure { p with results := p.results.setIfInBounds place (some result) }
    | none => pure p
  | .collect =>
    match level[p.collected]?, (p.results[p.collected]?).join with
    | some e, some (.ok value) => pure { p with store := p.store.put e.id value, collected := p.collected + 1 }
    | _, some (.error fault) => throw fault
    | _, _ => throw (.notYetRun p.collected)

def runLevel (combine : Expr α → List β → m β) (events : List PoolEvent) (store : Store β)
    (level : Array (Expr α)) : m (Store β) := do
  let done ← events.foldlM (Progress.step combine level) (.start store level.size)
  done.store.release level

def runLevels (combine : Expr α → List β → m β) (timetable : Timetable) (store : Store β) (number : Nat) :
    List (Array (Expr α)) → m (Store β)
  | [] => pure store
  | level :: levels => do
    let store ← runLevel combine (timetable number level.size) store level
    runLevels combine timetable store (number + 1) levels

/-- The value of the root. `workers` limits the pool and has no say in it, but without a worker there is none. -/
def evaluate (combine : Expr α → List β → m β) (timetable : Timetable) (workers : Option Int) (e : Expr α) :
    m β := do
  let levels := e.levels
  if workers.any (· ≤ 0) then throw .noWorkers
  let store ← runLevels combine timetable (.start levels) 0 levels.toList
  store.value e.id

end Pool

namespace Expr

variable {α : Type} [Zero α] [Add α] [Mul α]

@[specialize]
def evaluateByLevels (timetable : Timetable) (workers : Option Int) (e : Expr α) :
    Except Fault (DenseMatrix α) :=
  Pool.evaluate realize timetable workers e

end Expr
end MatrixChain
