import Contexide.Core.Errors
import Mathlib.Data.List.Count

/-! The NATS wrapper of the executor and the workers. It publishes to plain
subjects; acknowledging a message has no effect, in either direction. -/

namespace Contexide.MessagingNats

/-- Wrapper over subscription message. -/
inductive JetStreamMessage where
  | real (subject : String) (payload : List UInt8)
  | mock (subject : String) (data : List UInt8)
  deriving DecidableEq

/-- What the server holds for the subscribers and what was published to it. -/
structure Nats where
  waiting : List JetStreamMessage
  published : List (String × List UInt8)
  deriving DecidableEq

/-- Effects of the client: errors and the state of the server. -/
abbrev NatsM := ExceptT Error (StateM Nats)

namespace JetStreamMessage

def subject : JetStreamMessage → String
  | real subject _ => subject
  | mock subject _ => subject

def data : JetStreamMessage → List UInt8
  | real _ payload => payload
  | mock _ data => data

/-- Plain NATS has no ack. -/
def ack (_ : JetStreamMessage) : NatsM Unit := pure ()

/-- Plain NATS has no nack. -/
def nack (_ : JetStreamMessage) : NatsM Unit := pure ()

end JetStreamMessage

/-- The client: a connection, by what it answers to a publish, or the mock. -/
inductive JetStreamClient where
  | real (answer : String → List UInt8 → Except String Unit)
  | mock

def Nats.push (subject : String) (payload : List UInt8) (s : Nats) : Nats :=
  { s with published := s.published ++ [(subject, payload)] }

namespace JetStreamClient

/-- Publish a message to a subject. -/
def publish (client : JetStreamClient) (subject : String) (payload : List UInt8) : NatsM Unit :=
  match client with
  | .real answer =>
    match answer subject payload with
    | .error e => throw (.other e)
    | .ok () => modify (Nats.push subject payload)
  | .mock => modify (Nats.push subject payload)

/-- The client takes the message. -/
def Accepts (client : JetStreamClient) (subject : String) (payload : List UInt8) : Prop :=
  match client with
  | .real answer => answer subject payload = .ok ()
  | .mock => True

theorem run_publish (client : JetStreamClient) (subject : String) (payload : List UInt8)
    (s : Nats) :
    (client.Accepts subject payload ∧
      (client.publish subject payload).run.run s = (.ok (), s.push subject payload)) ∨
    ¬ client.Accepts subject payload ∧
      ∃ e, (client.publish subject payload).run.run s = (.error e, s) := by
  cases client with
  | mock => exact .inl ⟨trivial, rfl⟩
  | real answer =>
    simp only [Accepts, publish]
    cases answer subject payload with
    | ok => exact .inl ⟨rfl, rfl⟩
    | error e => exact .inr ⟨by simp, .other e, rfl⟩

/-- Acknowledging after a publish changes nothing. -/
theorem run_publish_ack (client : JetStreamClient) (msg : JetStreamMessage) (subject : String)
    (payload : List UInt8) (s : Nats) :
    (do client.publish subject payload
        msg.ack : NatsM Unit).run.run s = (client.publish subject payload).run.run s := by
  rw [ExceptT.run_bind, StateT.run_bind]
  rcases client.run_publish subject payload s with ⟨_, hr⟩ | ⟨_, e, hr⟩
  · rw [hr]
    rfl
  · rw [hr]
    rfl

end JetStreamClient

end Contexide.MessagingNats
