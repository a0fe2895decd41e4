import Contexide.Core.Errors
import Contexide.Workflow.Messaging

/-! The other half of the messaging glue: the loop that takes the messages of
workers from the transport and forwards them to the scheduler. Decoding belongs
to `serde_json`, so the decoder is a parameter. -/

namespace Contexide.Workflow

/-- Result status for a task execution attempt. -/
inductive TaskRunOutcome where
  | success | transientFailure | permanentFailure
  deriving DecidableEq, Repr

structure TaskResultMeta where
  outcome : TaskRunOutcome
  errorCode : Option String
  errorMessage : Option String

/-- Status message emitted by a worker back to the executor. -/
structure MsgWorkerStatus where
  tenantId : TenantId
  dagRunId : Uuid
  taskId : Uuid
  taskRunId : Uuid
  kind : String
  success : Bool
  output : Option Json
  error : Option String
  errorKind : Option String
  resultMeta : Option TaskResultMeta

/-- Raw incoming message from the messaging backend. -/
structure IncomingMessage where
  subject : String
  data : List UInt8

namespace Messaging

/-- Subject helper: done channel for a worker kind. -/
def workerDoneSubject (pre kind : String) : String :=
  trimEndMatches pre '.' ++ "." ++ kind ++ ".done"

/-- The status that the scheduler is told; `result_meta` is not passed on. -/
def statusOf (done : MsgWorkerStatus) : WorkerStatus :=
  if done.success then
    .success done.tenantId ⟨done.dagRunId⟩ ⟨done.taskId⟩ ⟨done.taskRunId⟩ done.output
  else
    .failed done.tenantId ⟨done.dagRunId⟩ ⟨done.taskId⟩ ⟨done.taskRunId⟩
      (done.error.getD "unknown error") done.errorKind

section Listen

variable {m : Type → Type} [Monad m] (decode : List UInt8 → Except Error MsgWorkerStatus)
  (handle : WorkerStatus → m (Except Error Unit))

/-- The loop over the stream of messages. The transport, the decoder and the
scheduler all end it with their errors. -/
def listenLoop : List (Except Error IncomingMessage) → m (Except Error Unit)
  | [] => pure (.ok ())
  | .error e :: _ => pure (.error e)
  | .ok msg :: stream =>
    match decode msg.data with
    | .error e => pure (.error e)
    | .ok done => do
      match ← handle (statusOf done) with
      | .error e => pure (.error e)
      | .ok () => listenLoop stream

/-- Listen for worker completion messages and forward them to the scheduler. -/
def listenWorkerStatuses
    (subscribe : String → m (Except Error (List (Except Error IncomingMessage)))) :
    m (Except Error Unit) := do
  match ← subscribe (workerDoneSubject "contexide.workflow" "*") with
  | .error e => pure (.error e)
  | .ok stream => listenLoop decode handle stream

end Listen

end Messaging

open Messaging

/-! ### What is forwarded -/

variable (decode : List UInt8 → Except Error MsgWorkerStatus)

/-- The payload is a worker status. -/
def WellFormed (msg : IncomingMessage) : Prop := (decode msg.data).isOk = true

/-- The statuses of the well-formed messages, in stream order. -/
def wellFormedStatuses (msgs : List IncomingMessage) : List WorkerStatus :=
  msgs.filterMap fun msg => (decode msg.data).toOption.map statusOf

/-- A scheduler that handles every status and keeps them in order. -/
def record (status : WorkerStatus) : StateM (List WorkerStatus) (Except Error Unit) := do
  modify (· ++ [status])
  pure (.ok ())

/-- What the scheduler is told when the subscription yields the messages. -/
def forwarded (msgs : List IncomingMessage) : List WorkerStatus :=
  ((listenWorkerStatuses decode record fun _ => pure (.ok (msgs.map .ok))).run []).2

/-- The messages before the first malformed one. -/
def wellFormedPrefix (msgs : List IncomingMessage) : List IncomingMessage :=
  msgs.takeWhile fun msg => (decode msg.data).isOk

section Cons

variable {decode} {msg : IncomingMessage} {done : MsgWorkerStatus} {e : Error}

theorem WellFormed.of_ok (h : decode msg.data = .ok done) : WellFormed decode msg := by
  rw [WellFormed, h]
  rfl

theorem not_wellFormed_of_error (h : decode msg.data = .error e) : ¬ WellFormed decode msg := by
  rw [WellFormed, h]
  exact Bool.false_ne_true

theorem wellFormedPrefix_cons_ok (h : decode msg.data = .ok done) (msgs : List IncomingMessage) :
    wellFormedPrefix decode (msg :: msgs) = msg :: wellFormedPrefix decode msgs :=
  List.takeWhile_cons_of_pos (WellFormed.of_ok h)

theorem wellFormedPrefix_cons_error (h : decode msg.data = .error e)
    (msgs : List IncomingMessage) : wellFormedPrefix decode (msg :: msgs) = [] :=
  List.takeWhile_cons_of_neg (not_wellFormed_of_error h)

theorem wellFormedStatuses_cons_ok (h : decode msg.data = .ok done)
    (msgs : List IncomingMessage) : wellFormedStatuses decode (msg :: msgs) =
      statusOf done :: wellFormedStatuses decode msgs := by
  apply List.filterMap_cons_some
  rw [h]
  rfl

theorem wellFormedStatuses_cons_error (h : decode msg.data = .error e)
    (msgs : List IncomingMessage) :
    wellFormedStatuses decode (msg :: msgs) = wellFormedStatuses decode msgs := by
  apply List.filterMap_cons_none
  rw [h]
  rfl

end Cons

/-- The loop forwards the statuses before the first malformed message. -/
theorem run_listenLoop (msgs : List IncomingMessage) (told : List WorkerStatus) :
    ((listenLoop decode record (msgs.map .ok)).run told).2 =
      told ++ wellFormedStatuses decode (wellFormedPrefix decode msgs) := by
  induction msgs generalizing told with
  | nil => exact (List.append_nil told).symm
  | cons msg msgs ih =>
    cases hd : decode msg.data with
    | error e =>
      rw [wellFormedPrefix_cons_error hd, List.map_cons, listenLoop, hd]
      exact (List.append_nil told).symm
    | ok done =>
      rw [wellFormedPrefix_cons_ok hd, wellFormedStatuses_cons_ok hd]
      simp only [List.map_cons, listenLoop, hd]
      change ((listenLoop decode record (msgs.map .ok)).run (told ++ [statusOf done])).2 = _
      rw [ih, List.append_assoc]
      rfl

theorem forwarded_eq (msgs : List IncomingMessage) :
    forwarded decode msgs = wellFormedStatuses decode (wellFormedPrefix decode msgs) :=
  run_listenLoop decode msgs []

theorem wellFormedStatuses_eq_nil {msgs : List IncomingMessage} :
    wellFormedStatuses decode msgs = [] ↔ ∀ msg ∈ msgs, ¬ WellFormed decode msg := by
  induction msgs with
  | nil => exact iff_of_true rfl fun _ h => absurd h List.not_mem_nil
  | cons msg msgs ih =>
    rw [List.forall_mem_cons]
    cases hd : decode msg.data with
    | error e =>
      have hmsg : ¬ WellFormed decode msg := not_wellFormed_of_error hd
      rw [wellFormedStatuses_cons_error hd, ih, and_iff_right hmsg]
    | ok done =>
      rw [wellFormedStatuses_cons_ok hd]
      exact iff_of_false (List.cons_ne_nil _ _) fun h => h.1 (WellFormed.of_ok hd)

/-- Behind a malformed message nothing is forwarded, so nothing may be well-formed. -/
theorem nil_eq_wellFormedStatuses_iff {msg : IncomingMessage} (hmsg : ¬ WellFormed decode msg)
    (msgs : List IncomingMessage) : [] = wellFormedStatuses decode msgs ↔
      (msg :: msgs).Pairwise fun earlier later =>
        WellFormed decode later → WellFormed decode earlier := by
  rw [eq_comm, wellFormedStatuses_eq_nil, List.pairwise_cons]
  constructor
  · intro hall
    constructor
    · intro later hlater hw
      exact absurd hw (hall later hlater)
    · apply List.pairwise_of_forall_mem_list
      intro _ _ later hlater hw
      exact absurd hw (hall later hlater)
  · rintro ⟨hall, _⟩ later hlater hw
    exact hmsg (hall later hlater hw)

/-- The well-formed statuses are forwarded exactly when every malformed message
comes after all the well-formed ones. -/
theorem forwarded_eq_iff (msgs : List IncomingMessage) :
    forwarded decode msgs = wellFormedStatuses decode msgs ↔
      msgs.Pairwise fun earlier later => WellFormed decode later → WellFormed decode earlier := by
  rw [forwarded_eq]
  induction msgs with
  | nil => exact iff_of_true rfl List.Pairwise.nil
  | cons msg msgs ih =>
    cases hd : decode msg.data with
    | error e =>
      rw [wellFormedPrefix_cons_error hd, wellFormedStatuses_cons_error hd]
      exact nil_eq_wellFormedStatuses_iff decode (not_wellFormed_of_error hd) msgs
    | ok done =>
      rw [wellFormedPrefix_cons_ok hd, wellFormedStatuses_cons_ok hd,
        wellFormedStatuses_cons_ok hd, List.cons_inj_right, ih, List.pairwise_cons]
      have hall : ∀ later ∈ msgs, WellFormed decode later → WellFormed decode msg :=
        fun _ _ _ => WellFormed.of_ok hd
      rw [and_iff_right hall]

/-- A malformed message keeps the status behind it from the scheduler. -/
theorem forwarded_of_malformed (bad good : IncomingMessage) {e : Error} {done : MsgWorkerStatus}
    (hbad : decode bad.data = .error e) (hgood : decode good.data = .ok done) :
    forwarded decode [bad, good] ≠ wellFormedStatuses decode [bad, good] := by
  rw [forwarded_eq, wellFormedPrefix_cons_error hbad, wellFormedStatuses_cons_error hbad,
    wellFormedStatuses_cons_ok hgood]
  exact (List.cons_ne_nil _ _).symm

def nilDone : MsgWorkerStatus where
  tenantId := ⟨0⟩
  dagRunId := 0
  taskId := 0
  taskRunId := 0
  kind := "extractor"
  success := true
  output := none
  error := none
  errorKind := none
  resultMeta := none

/-- The JSON text of `nilDone`. -/
def nilDoneText : List UInt8 :=
  ('\x7b' ::
    ("\"tenant_id\":\"00000000-0000-0000-0000-000000000000\"," ++
      "\"dag_run_id\":\"00000000-0000-0000-0000-000000000000\"," ++
      "\"task_id\":\"00000000-0000-0000-0000-000000000000\"," ++
      "\"task_run_id\":\"00000000-0000-0000-0000-000000000000\"," ++
      "\"kind\":\"extractor\",\"success\":true,\"output\":null,\"error\":null," ++
      "\"error_kind\":null,\"result_meta\":null\x7d").toList).map fun c => c.toNat.toUInt8

/-- An empty message stops the listening. -/
theorem empty_message_stops_listening :
    ¬ ∀ (decode : List UInt8 → Except Error MsgWorkerStatus) (msgs : List IncomingMessage),
      forwarded decode msgs = wellFormedStatuses decode msgs := by
  intro h
  have hnil : decodeText nilDoneText nilDone [] =
      .error (.json "EOF while parsing a value at line 1 column 0") := by
    apply if_neg
    rw [nilDoneText, List.map_cons]
    exact (List.cons_ne_nil _ _).symm
  exact forwarded_of_malformed _ ⟨"contexide.workflow.extractor.done", []⟩
    ⟨"contexide.workflow.extractor.done", nilDoneText⟩ hnil
    (decodeText_self nilDoneText nilDone) (h _ _)

end Contexide.Workflow
