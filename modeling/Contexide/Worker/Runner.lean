import Contexide.MessagingNats.JetStream
import Contexide.Workflow.Listening

/-! A worker takes one request at a time from its subject, lets the handler
process it and publishes the status. Encoding and decoding belong to
`serde_json` and the handler to the worker binary, so they are parameters. -/

namespace Contexide.Worker

open MessagingNats Workflow

section Handle

variable (decode : List UInt8 → Except Error WorkerRequest)
  (encode : MsgWorkerStatus → Except Error (List UInt8))
  (handler : WorkerRequest → Except Error MsgWorkerStatus) (client : JetStreamClient)
  (msg : JetStreamMessage) (subjectDone : String)

/-- The part of the worker whose errors are answered by a NACK. -/
def process (parsed : WorkerRequest) : NatsM Unit := do
  let status ← handler parsed
  let payload ← encode status
  client.publish subjectDone payload
  msg.ack

def handleOne : NatsM Unit :=
  match decode msg.data with
  | .error _ => msg.nack
  | .ok parsed => tryCatch (process encode handler client msg subjectDone parsed) fun _ => msg.nack

/-- The handler, the encoding and the publishing succeed, with this payload. -/
def Completes (parsed : WorkerRequest) (payload : List UInt8) : Prop :=
  ∃ status, handler parsed = .ok status ∧ encode status = .ok payload ∧
    client.Accepts subjectDone payload

/-- The message will be delivered once more. -/
def Redelivered (s s' : Nats) : Prop := s.waiting.count msg < s'.waiting.count msg

theorem run_process (parsed : WorkerRequest) (s : Nats) :
    (∃ payload, Completes encode handler client subjectDone parsed payload ∧
      (process encode handler client msg subjectDone parsed).run.run s =
        (.ok (), s.push subjectDone payload)) ∨
    (∀ payload, ¬ Completes encode handler client subjectDone parsed payload) ∧
      ∃ e, (process encode handler client msg subjectDone parsed).run.run s = (.error e, s) := by
  unfold Completes
  cases hstatus : handler parsed with
  | error e =>
    refine .inr ⟨by simp, e, ?_⟩
    simp only [process, hstatus]
    rfl
  | ok status =>
    have hbind : (process encode handler client msg subjectDone parsed).run.run s =
        (do let payload ← encode status
            client.publish subjectDone payload
            msg.ack : NatsM Unit).run.run s := by
      simp only [process, hstatus]
      rfl
    rw [hbind]
    cases hpayload : encode status with
    | error e => exact .inr ⟨by simp [hpayload], e, rfl⟩
    | ok payload =>
      have hack := client.run_publish_ack msg subjectDone payload s
      rcases client.run_publish subjectDone payload s with ⟨ha, hr⟩ | ⟨ha, e, hr⟩
      · exact .inl ⟨payload, ⟨status, rfl, hpayload, ha⟩, hack.trans hr⟩
      · exact .inr ⟨by simp [hpayload, ha], e, hack.trans hr⟩

/-- The errors of the processing end with the NACK, which changes nothing. -/
theorem run_handleOne_eq {parsed : WorkerRequest} (hparsed : decode msg.data = .ok parsed)
    (s : Nats) : (handleOne decode encode handler client msg subjectDone).run.run s =
      (.ok (), ((process encode handler client msg subjectDone parsed).run.run s).2) := by
  simp only [handleOne, hparsed]
  rw [ExceptT.run_tryCatch, StateT.run_bind]
  rcases run_process encode handler client msg subjectDone parsed s with
    ⟨payload, _, hr⟩ | ⟨_, e, hr⟩
  · rw [hr]
    rfl
  · rw [hr]
    rfl

/-- A request is answered once, by the status of the handler, or nothing happens. -/
theorem run_handleOne {parsed : WorkerRequest} (hparsed : decode msg.data = .ok parsed)
    (s : Nats) : ∃ s',
    (handleOne decode encode handler client msg subjectDone).run.run s = (.ok (), s') ∧
    ((∃ payload, Completes encode handler client subjectDone parsed payload ∧
        s' = s.push subjectDone payload) ∨
      (∀ payload, ¬ Completes encode handler client subjectDone parsed payload) ∧ s' = s) := by
  refine ⟨_, run_handleOne_eq decode encode handler client msg subjectDone hparsed s, ?_⟩
  rcases run_process encode handler client msg subjectDone parsed s with
    ⟨payload, hc, hr⟩ | ⟨hc, e, hr⟩
  · rw [hr]
    exact .inl ⟨payload, hc, rfl⟩
  · rw [hr]
    exact .inr ⟨hc, rfl⟩

end Handle

def nilRequest : WorkerRequest where
  tenantId := ⟨0⟩
  dagRunId := 0
  taskId := 0
  taskRunId := 0
  kind := "extractor"
  payload := .null

/-- The JSON text of `nilRequest`. -/
def nilRequestText : List UInt8 :=
  ('\x7b' ::
    ("\"tenant_id\":\"00000000-0000-0000-0000-000000000000\"," ++
      "\"dag_run_id\":\"00000000-0000-0000-0000-000000000000\"," ++
      "\"task_id\":\"00000000-0000-0000-0000-000000000000\"," ++
      "\"task_run_id\":\"00000000-0000-0000-0000-000000000000\"," ++
      "\"kind\":\"extractor\",\"payload\":null\x7d").toList).map fun c => c.toNat.toUInt8

/-- The request as the worker receives it. -/
def nilMessage : JetStreamMessage := .mock "contexide.workflow.extractor.request" nilRequestText

theorem decode_nilMessage :
    decodeText nilRequestText nilRequest nilMessage.data = .ok nilRequest := by
  rw [nilMessage, JetStreamMessage.data, decodeText_self]

/-- The handler succeeds on a request. -/
theorem run_handleOne_done : ∃ s',
    (handleOne (decodeText nilRequestText nilRequest) (fun _ => .ok nilDoneText)
      (fun _ => .ok nilDone) .mock nilMessage "contexide.workflow.extractor.done").run.run
        ⟨[], []⟩ = (.ok (), s') ∧
    ((∃ payload, Completes (fun _ => .ok nilDoneText) (fun _ => .ok nilDone) .mock
        "contexide.workflow.extractor.done" nilRequest payload ∧
        s' = Nats.push "contexide.workflow.extractor.done" payload ⟨[], []⟩) ∨
      (∀ payload, ¬ Completes (fun _ => .ok nilDoneText) (fun _ => .ok nilDone) .mock
        "contexide.workflow.extractor.done" nilRequest payload) ∧ s' = ⟨[], []⟩) :=
  run_handleOne _ _ _ _ _ _ decode_nilMessage _

/-- A request whose handler fails is neither answered nor delivered again. -/
theorem failed_request_lost : ¬ ∀ (decode : List UInt8 → Except Error WorkerRequest)
    (encode : MsgWorkerStatus → Except Error (List UInt8))
    (handler : WorkerRequest → Except Error MsgWorkerStatus) (client : JetStreamClient)
    (msg : JetStreamMessage) (subjectDone : String) (parsed : WorkerRequest) (s : Nats),
    decode msg.data = .ok parsed →
      let s' := ((handleOne decode encode handler client msg subjectDone).run.run s).2
      (∃ status payload, handler parsed = .ok status ∧ encode status = .ok payload ∧
        s'.published = s.published ++ [(subjectDone, payload)]) ∨ Redelivered msg s s' := by
  intro h
  have hlost := h (decodeText nilRequestText nilRequest) (fun _ => .ok nilDoneText)
    (fun _ => .error (.other "embedding service unavailable")) .mock nilMessage
    "contexide.workflow.extractor.done" nilRequest ⟨[], []⟩ decode_nilMessage
  rw [run_handleOne_eq _ _ _ _ _ _ decode_nilMessage] at hlost
  rcases hlost with ⟨status, _, hstatus, _⟩ | hcount
  · cases hstatus
  · exact Nat.lt_irrefl 0 hcount

end Contexide.Worker
