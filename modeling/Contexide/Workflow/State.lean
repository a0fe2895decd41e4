import Mathlib.Data.Nat.Notation

/-! Status enums of DAG runs, tasks and task attempts. -/

namespace Contexide.Workflow

inductive DagRunStatus where
  | created | running | success | failed | cancelled | partialFailed
  deriving DecidableEq, Repr

inductive TaskStatus where
  | pending | ready | running | success | failed | skipped
  deriving DecidableEq, Repr

inductive TaskRunStatus where
  | created | running | success | failed | aborted
  deriving DecidableEq, Repr

/-- Whether the run is in any terminal state. -/
def DagRunStatus.isTerminal : DagRunStatus → Bool
  | .success | .failed | .cancelled | .partialFailed => true
  | .created | .running => false

/-- Whether an attempt will not move to any other state. -/
def TaskRunStatus.isTerminal : TaskRunStatus → Bool
  | .success | .failed | .aborted => true
  | .created | .running => false

/-- `Success | Skipped`, the statuses that neither block a later stage nor keep
a run from succeeding. -/
def TaskStatus.isDone : TaskStatus → Bool
  | .success | .skipped => true
  | _ => false

end Contexide.Workflow
