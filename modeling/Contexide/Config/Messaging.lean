import Mathlib.Algebra.Group.Nat.Defs

/-! Messaging settings and how they are read from the environment. A variable is
looked up under its scoped name, then its global name, then plain fallbacks; an
empty value counts as unset. -/

namespace Contexide.Config

/-- Messaging-related configuration. -/
structure MessagingConfig where
  natsUrl : String
  workflowPrefix : String
  workflowStream : String
  workerDefaultConcurrency : Option ℕ
  deriving DecidableEq

def defaultsMessaging : MessagingConfig where
  natsUrl := "nats://127.0.0.1:4222"
  workflowPrefix := "contexide.workflow"
  workflowStream := "contexide.workflow"
  workerDefaultConcurrency := some 4

/-- The variables of the process, those of a `.env` file included. -/
abbrev Environment := String → Option String

section Load

variable (env : Environment)

def pickEnv (names : List String) : Option String :=
  names.findSome? fun k => (env k).filter (· ≠ "")

/-- Resolve `CONTEXIDE_<SCOPE>_<KEY>` → `CONTEXIDE_<KEY>` → plain fallbacks. -/
def envScopedS (scope key : String) (plainFallbacks : List String) : Option String :=
  (pickEnv env ["CONTEXIDE_" ++ scope ++ "_" ++ key]).or
    ((pickEnv env ["CONTEXIDE_" ++ key]).or (pickEnv env plainFallbacks))

/-- `str::parse` for `usize`: an optional plus sign and decimal digits that fit. -/
def parseUsize (s : String) : Option ℕ :=
  let digits := if s.toList.head? = some '+' then s.toList.tail else s.toList
  let n := digits.foldl (fun acc c => 10 * acc + (c.toNat - '0'.toNat)) 0
  if digits ≠ [] ∧ digits.all Char.isDigit ∧ n < 2 ^ 64 then some n else none

def envScopedUsize (scope key : String) (plainFallbacks : List String) : Option ℕ :=
  (envScopedS env scope key plainFallbacks).bind parseUsize

/-- Load messaging config (valid on its own). -/
def loadMessaging : MessagingConfig where
  natsUrl := (envScopedS env "MESSAGING" "NATS_URL" ["NATS_URL"]).getD defaultsMessaging.natsUrl
  workflowPrefix := (envScopedS env "MESSAGING" "WORKFLOW_PREFIX" ["WORKFLOW_PREFIX"]).getD
    defaultsMessaging.workflowPrefix
  workflowStream := (envScopedS env "MESSAGING" "WORKFLOW_STREAM" ["WORKFLOW_STREAM"]).getD
    defaultsMessaging.workflowStream
  workerDefaultConcurrency :=
    (envScopedUsize env "MESSAGING" "WORKER_DEFAULT_CONCURRENCY" []).or
      defaultsMessaging.workerDefaultConcurrency

end Load

end Contexide.Config
