import Contexide.Effects.Consumer
import Contexide.Worker.Config
import Contexide.Worker.Runner

/-! The worker process: a consumer loop whose messages are requests and whose tasks
handle one request each. A task ends with the handler's result or panics; what it
publishes is published at once, and acknowledging does nothing. -/

namespace Contexide.Worker

open Effects MessagingNats Workflow

/-- The worker process, with the server it publishes to. -/
abbrev WorkerRunner := Consumer JetStreamMessage (Except Error MsgWorkerStatus) Nats

instance (client : JetStreamClient) (subject : String) (payload : List UInt8) :
    Decidable (client.Accepts subject payload) :=
  match client with
  | .real answer =>
    match h : answer subject payload with
    | .ok () => .isTrue h
    | .error _ => .isFalse fun ha => by
      have := h.symm.trans ha
      cases this
  | .mock => .isTrue trivial

section Runtime

variable (decode : List UInt8 → Except Error WorkerRequest)
  (encode : MsgWorkerStatus → Except Error (List UInt8)) (client : JetStreamClient)
  (cfg : WorkerRuntimeConfig)

/-- The task of a message whose handler gives the result. -/
def serve (msg : JetStreamMessage) (result : Except Error MsgWorkerStatus) (s : Nats) : Nats :=
  ((handleOne decode encode (fun _ => result) client msg cfg.subjectDone).run.run s).2

/-- What the task of a message publishes. -/
def reply : JetStreamMessage × Option (Except Error MsgWorkerStatus) →
    Option (String × List UInt8)
  | (msg, some (.ok status)) =>
    match decode msg.data, encode status with
    | .ok _, .ok payload =>
      if client.Accepts cfg.subjectDone payload then some (cfg.subjectDone, payload) else none
    | _, _ => none
  | _ => none

/-- The worker processes that can be reached: any messages and errors arrive, the
handlers end in any order with any results. -/
def Runs (nats : Nats) : WorkerRunner → Prop :=
  Consumer.Reachable cfg.maxConcurrency (serve decode encode client cfg) nats

theorem published_serve (msg : JetStreamMessage) (result : Except Error MsgWorkerStatus)
    (s : Nats) : (serve decode encode client cfg msg result s).published =
      s.published ++ (reply decode encode client cfg (msg, some result)).toList := by
  cases hd : decode msg.data with
  | error e =>
    have hserve : serve decode encode client cfg msg result s = s := by
      simp only [serve, handleOne, hd]
      rfl
    rw [hserve]
    cases result <;> simp [reply, hd]
  | ok parsed =>
    obtain ⟨s', hrun, h⟩ := run_handleOne decode encode (fun _ => result) client msg
      cfg.subjectDone hd s
    rw [serve, hrun]
    rcases h with ⟨payload, ⟨status, hstatus, hpayload, ha⟩, rfl⟩ | ⟨hnone, rfl⟩
    · simp [reply, hd, hstatus, hpayload, ha, Nats.push]
    · cases result with
      | error e => simp [reply]
      | ok status =>
        cases hpayload : encode status with
        | error e => simp [reply, hd, hpayload]
        | ok payload =>
          have ha : ¬ client.Accepts cfg.subjectDone payload := fun ha =>
            hnone payload ⟨status, rfl, hpayload, ha⟩
          simp [reply, hd, hpayload, ha]

/-- The tasks publish their replies in the order in which they end. -/
theorem published_foldl (nats : Nats)
    (finished : List (JetStreamMessage × Option (Except Error MsgWorkerStatus))) :
    (finished.foldl (Consumer.effect (serve decode encode client cfg)) nats).published =
      nats.published ++ finished.filterMap (reply decode encode client cfg) := by
  induction finished generalizing nats with
  | nil => simp
  | cons task finished ih =>
    obtain ⟨msg, result⟩ := task
    rw [List.foldl_cons, ih]
    cases result with
    | none => rw [Consumer.effect, List.filterMap_cons_none rfl]
    | some result =>
      rw [Consumer.effect, published_serve, List.append_assoc, List.filterMap_cons]
      cases reply decode encode client cfg (msg, some result) <;> rfl

/-- In every worker process that can be reached at most `max_concurrency` requests
are in flight, the requests are started in the order of their arrival and each of
them is in flight, done or aborted, exactly one of these; each that is done has
published the handler's status, if there is one, and nothing else is published. Only
the end of the grace period aborts, and a process that has left has none in flight. -/
theorem worker_serves_once (nats : Nats) (s : WorkerRunner)
    (h : Runs decode encode client cfg nats s) :
    s.inFlight.length ≤ cfg.maxConcurrency ∧
      (∃ taken, s.yielded = taken ++ s.queue ∧
        taken.reduceOption = s.started ++ s.loop.inHand) ∧
      (s.inFlight ++ (s.finished.map Prod.fst ++ s.aborted)).Perm s.started ∧
      s.world.published =
        nats.published ++ s.finished.filterMap (reply decode encode client cfg) ∧
      (s.loop ≠ .exited → s.aborted = []) ∧ (s.loop = .exited → s.inFlight = []) := by
  have hinv := Consumer.Reachable.inv h
  refine ⟨hinv.bounded, hinv.inOrder, hinv.accounted, ?_, hinv.kept, hinv.idle⟩
  rw [hinv.worked, published_foldl]

/-- A process whose signal has come can leave, with nothing aborted and only the
message in hand started. -/
def CanLeave (s : WorkerRunner) : Prop :=
  ∃ t, Relation.ReflTransGen
      (Consumer.Step cfg.maxConcurrency (serve decode encode client cfg)) s t ∧
    t.loop = .exited ∧ t.aborted = [] ∧ t.started = s.started ++ s.loop.inHand

/-- Without permits the process never leaves the first message. -/
theorem not_canLeave_of_zero (hzero : cfg.maxConcurrency = 0) (nats : Nats)
    (msg : JetStreamMessage) : ∃ s, Runs decode encode client cfg nats s ∧ s.signalled = true ∧
      s.loop ≠ .exited ∧ ¬ CanLeave decode encode client cfg s := by
  let arrived : WorkerRunner := { Consumer.start nats with
    queue := [some msg]
    yielded := [some msg] }
  let inHand : WorkerRunner := { arrived with
    loop := .acquiring msg
    queue := [] }
  refine ⟨{ inHand with signalled := true }, ?_, rfl, by simp [inHand], ?_⟩
  · exact ((Relation.ReflTransGen.single
      (.inr (.arrive (some msg) (by simp [Consumer.start]) rfl))).tail
        (.inl (.pull msg [] rfl rfl))).tail (.inr (.signal (by simp [inHand])))
  · rintro ⟨t, hst, hexit, _, hstarted⟩
    have hbounded : ∀ u, Relation.ReflTransGen
        (Consumer.Step cfg.maxConcurrency (serve decode encode client cfg))
          { inHand with signalled := true } u → u.loop = .acquiring msg ∧ u.inFlight = [] := by
      intro u hu
      induction hu with
      | refl => exact ⟨rfl, rfl⟩
      | tail _ hstep ih =>
        obtain ⟨hat, hidle⟩ := ih
        cases hstep <;> simp_all
    rw [(hbounded t hst).1] at hexit
    cases hexit

/-- A worker process that got its signal can always leave after the requests it has,
exactly when there are permits; and as long as all permits are taken and a request
waits for one, the signal goes unnoticed until a handler ends. -/
theorem shutdown_iff (nats : Nats) :
    ((∀ s, Runs decode encode client cfg nats s → s.signalled = true → s.loop ≠ .exited →
        CanLeave decode encode client cfg s) ↔ 0 < cfg.maxConcurrency) ∧
      ∀ s, Runs decode encode client cfg nats s → ∀ msg, s.loop = .acquiring msg →
        s.inFlight.length = cfg.maxConcurrency → ∀ t, Relation.ReflTransGen
          (Consumer.AnyStep cfg.maxConcurrency (serve decode encode client cfg)) s t →
        t.finished.length = s.finished.length → t.loop = .acquiring msg := by
  refine ⟨⟨fun h => ?_, fun hlimit s hs hsignal hloop => ?_⟩,
    fun s _ msg hloop hfull t hst hsame => ?_⟩
  · by_contra hzero
    obtain ⟨s, hs, hsignal, hloop, hstuck⟩ := not_canLeave_of_zero decode encode client cfg
      (by omega) nats nilMessage
    exact hstuck (h s hs hsignal hloop)
  · obtain ⟨t, hst, hexit, hstarted, haborted⟩ := Consumer.exists_exit
      (serve decode encode client cfg) hlimit hsignal hloop
    exact ⟨t, hst, hexit, haborted.trans ((Consumer.Reachable.inv hs).kept hloop), hstarted⟩
  · exact (Consumer.waits_for_permit hst hloop hfull.ge hsame).1

end Runtime

/-- A worker of one extraction at a time. -/
def oneExtractor : WorkerRuntimeConfig where
  workerKind := "extractor"
  stream := "contexide"
  subjectRequest := "contexide.workflow.extractor.request"
  subjectDone := "contexide.workflow.extractor.done"
  maxConcurrency := 1
  shutdownGrace := .fromSecs 30

/-- A request is taken and its handler succeeds. -/
theorem worker_serves_once_done : ∃ s : WorkerRunner,
    s.finished.length = 1 ∧
      s.inFlight.length ≤ oneExtractor.maxConcurrency ∧
      (∃ taken, s.yielded = taken ++ s.queue ∧
        taken.reduceOption = s.started ++ s.loop.inHand) ∧
      (s.inFlight ++ (s.finished.map Prod.fst ++ s.aborted)).Perm s.started ∧
      s.world.published = [] ++ s.finished.filterMap
        (reply (decodeText nilRequestText nilRequest) (fun _ => .ok nilDoneText) .mock
          oneExtractor) ∧
      (s.loop ≠ .exited → s.aborted = []) ∧ (s.loop = .exited → s.inFlight = []) := by
  have hstart : Runs (decodeText nilRequestText nilRequest) (fun _ => .ok nilDoneText) .mock
      oneExtractor ⟨[], []⟩ (Consumer.start ⟨[], []⟩) := .refl
  have harrived := hstart.tail (.inr (.arrive (some nilMessage) (by simp [Consumer.start]) rfl))
  have htaken := (harrived.tail (.inl (.pull nilMessage [] rfl rfl))).tail
    (.inl (.acquire nilMessage rfl (by decide)))
  have hdone := htaken.tail
    (.inl (.finish [] nilMessage [] (some (.ok nilDone)) (by simp) rfl))
  exact ⟨_, rfl, worker_serves_once _ _ _ _ _ _ hdone⟩

end Contexide.Worker
