import Contexide.Config.Messaging
import Contexide.Core.Duration
import Contexide.MessagingNats.Subjects
import Contexide.Workflow.Listening
import Contexide.Workflow.Outcome.Pump

/-! Worker runtime configuration. The worker takes the subject prefix from the
messaging settings; the executor publishes and listens under a fixed one. -/

namespace Contexide.Worker

open Config MessagingNats Workflow Workflow.Messaging

/-- Worker runtime configuration (messaging + concurrency). -/
structure WorkerRuntimeConfig where
  workerKind : String
  stream : String
  subjectRequest : String
  subjectDone : String
  maxConcurrency : ℕ
  shutdownGrace : Duration

/-- Build config from messaging settings and a worker kind. -/
def WorkerRuntimeConfig.fromMessaging (msg : MessagingConfig) (workerKind : String) :
    WorkerRuntimeConfig :=
  let pre := trimEndMatches msg.workflowPrefix '.'
  { workerKind
    stream := msg.workflowStream
    subjectRequest := pre ++ "." ++ workerKind ++ ".request"
    subjectDone := pre ++ "." ++ workerKind ++ ".done"
    maxConcurrency := msg.workerDefaultConcurrency.getD 4
    shutdownGrace := .fromSecs 30 }

/-! ### Executor and worker -/

open WorkerRuntimeConfig (fromMessaging)

/-- The patterns that the executor subscribes to. -/
def subscriptions : List String :=
  ((listenWorkerStatuses (m := StateM (List String))
    (fun _ => .error (.json "EOF while parsing a value at line 1 column 0"))
    (fun _ => pure (.ok ()))
    fun pattern => do
      modify (· ++ [pattern])
      pure (.ok [])).run []).2

theorem subscriptions_eq : subscriptions = [workerDoneSubject "contexide.workflow" "*"] := rfl

/-- The subjects that are used for a kind. -/
def subjectsOf (msg : MessagingConfig) (kind : String) : List String :=
  [workerRequestSubject "contexide.workflow" kind, (fromMessaging msg kind).subjectRequest,
    (fromMessaging msg kind).subjectDone]

/-- Executor and workers reach each other, and no two kinds share a subject. -/
structure SubjectsAgree (msg : MessagingConfig) : Prop where
  request : ∀ C task w, OneToken task.kind →
    ((publishAll [task]).run (exec C .pump) w).2.published =
      w.published ++ [((fromMessaging msg task.kind).subjectRequest, requestOf task)]
  done : ∀ kind, OneToken kind →
    ∃ pattern ∈ subscriptions, Matches pattern (fromMessaging msg kind).subjectDone
  disjoint : ∀ kind kind', OneToken kind → OneToken kind' → kind ≠ kind' →
    (subjectsOf msg kind).Disjoint (subjectsOf msg kind')

/-- A suffix that starts with the separator. -/
theorem append_dot {suffix : String} (post : String) (h : suffix = "." ++ post) (s : String) :
    s ++ suffix = s ++ "." ++ post := by
  rw [h, String.append_assoc]

theorem mem_subjectsOf {msg : MessagingConfig} {kind s : String} (h : s ∈ subjectsOf msg kind) :
    ∃ pre post, '.' ∉ post.toList ∧ s = pre ++ "." ++ kind ++ "." ++ post := by
  have hrequest := @append_dot ".request" "request" (by decide)
  have hdone := @append_dot ".done" "done" (by decide)
  simp only [subjectsOf, List.mem_cons, List.not_mem_nil, or_false] at h
  rcases h with rfl | rfl | rfl
  · exact ⟨_, "request", by decide, hrequest _⟩
  · exact ⟨_, "request", by decide, hrequest _⟩
  · exact ⟨_, "done", by decide, hdone _⟩

theorem disjoint_subjectsOf (msg : MessagingConfig) {kind kind' : String} (hk : OneToken kind)
    (hk' : OneToken kind') (hne : kind ≠ kind') :
    (subjectsOf msg kind).Disjoint (subjectsOf msg kind') := by
  intro s hs hs'
  obtain ⟨pre, post, hpost, rfl⟩ := mem_subjectsOf hs
  obtain ⟨pre', post', hpost', heq⟩ := mem_subjectsOf hs'
  exact hne (last_tokens_inj hk.2 hk'.2 hpost hpost' heq).1

theorem matches_done (pre : String) {kind : String} (hk : OneToken kind) :
    Matches (workerDoneSubject pre "*") (workerDoneSubject pre kind) := by
  have hdone := @append_dot ".done" "done" (by decide)
  rw [workerDoneSubject, workerDoneSubject, hdone, hdone]
  exact matches_star _ "done" hk

theorem SubjectsAgree.trimmed {msg : MessagingConfig} (h : SubjectsAgree msg) :
    trimEndMatches msg.workflowPrefix '.' = "contexide.workflow" := by
  have hpub := h.request (.paired 3) ⟨⟨0⟩, ⟨0⟩, ⟨0⟩, ⟨0⟩, "extractor", .null⟩ .empty
    ⟨by decide, by decide⟩
  rw [run_publishAll] at hpub
  have hsubject : workerRequestSubject "contexide.workflow" "extractor" =
      (fromMessaging msg "extractor").subjectRequest := by
    simpa [World.announced] using hpub
  simp only [workerRequestSubject, fromMessaging, String.append_left_inj] at hsubject
  exact hsubject.symm

/-- Executor and workers agree exactly when the configured prefix is the fixed
one, up to trailing dots. -/
theorem subjectsAgree_iff (msg : MessagingConfig) :
    SubjectsAgree msg ↔ trimEndMatches msg.workflowPrefix '.' = "contexide.workflow" := by
  have htrim : trimEndMatches "contexide.workflow" '.' = "contexide.workflow" := by decide
  constructor
  · exact SubjectsAgree.trimmed
  · intro h
    have hdone : ∀ kind, (fromMessaging msg kind).subjectDone =
        workerDoneSubject "contexide.workflow" kind := by
      intro kind
      simp only [fromMessaging, workerDoneSubject, h, htrim]
    refine ⟨fun C task w _ => ?_, fun kind hk => ?_, fun kind kind' => ?_⟩
    · rw [run_publishAll]
      simp only [World.announced, List.map_cons, List.map_nil, fromMessaging,
        workerRequestSubject, h, htrim]
    · rw [subscriptions_eq]
      refine ⟨_, List.mem_singleton_self _, ?_⟩
      rw [hdone]
      exact matches_done "contexide.workflow" hk
    · exact disjoint_subjectsOf msg

/-- A prefix from the environment that only the workers follow. -/
theorem acme_subjects_disagree : ¬ SubjectsAgree (loadMessaging fun k =>
    if k = "CONTEXIDE_MESSAGING_WORKFLOW_PREFIX" then some "acme" else none) := by
  intro h
  have htrimmed := h.trimmed
  revert htrimmed
  decide

end Contexide.Worker
