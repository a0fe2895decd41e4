import Mathlib.Data.Nat.Notation

/-! Typed identifiers over UUIDs. A UUID is the number it encodes; nothing in
this development depends on its width. -/

namespace Contexide

abbrev Uuid := ℕ

/-- Whether the UUID is the nil one. -/
def Uuid.isNil (u : Uuid) : Bool := u == 0

@[ext] structure TenantId where
  uuid : Uuid
  deriving DecidableEq, Repr

@[ext] structure DocumentId where
  uuid : Uuid
  deriving DecidableEq, Repr

@[ext] structure AssetId where
  uuid : Uuid
  deriving DecidableEq, Repr

@[ext] structure BlockId where
  uuid : Uuid
  deriving DecidableEq, Repr

@[ext] structure ChunkSetId where
  uuid : Uuid
  deriving DecidableEq, Repr

@[ext] structure ChunkId where
  uuid : Uuid
  deriving DecidableEq, Repr

@[ext] structure EmbeddingSetId where
  uuid : Uuid
  deriving DecidableEq, Repr

@[ext] structure JobId where
  uuid : Uuid
  deriving DecidableEq, Repr

/-- Concrete DAG run identifier. -/
@[ext] structure DagRunId where
  uuid : Uuid
  deriving DecidableEq, Repr

/-- Logical task identifier within a DAG run. -/
@[ext] structure TaskId where
  uuid : Uuid
  deriving DecidableEq, Repr

/-- Concrete task attempt identifier. -/
@[ext] structure TaskRunId where
  uuid : Uuid
  deriving DecidableEq, Repr

end Contexide
