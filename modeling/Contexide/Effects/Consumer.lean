import Mathlib.Data.List.ReduceOption
import Mathlib.Logic.Relation

/-! A consumer loop with bounded concurrency. The loop selects between a shutdown
signal and the next item of a subscription; with a message in hand it waits for a
permit and then spawns a task; once it stops it waits for its tasks, up to a grace
period. The environment feeds the subscription, closes it and signals at any time.
The state keeps, beside what the loop works with, what has happened so far. -/

namespace Contexide.Effects

/-- Where the loop is: at its select, with a message in hand waiting for a permit,
waiting for its tasks, or gone. -/
inductive LoopAt (M : Type) where
  | selecting
  | acquiring (msg : M)
  | draining
  | exited

def LoopAt.inHand {M : Type} : LoopAt M → List M
  | .acquiring msg => [msg]
  | _ => []

/-- An item of the subscription is a message or an error. A finished task comes with
its result, or without one when it panicked. -/
structure Consumer (M R W : Type) where
  loop : LoopAt M
  queue : List (Option M)
  closed : Bool
  signalled : Bool
  inFlight : List M
  world : W
  yielded : List (Option M)
  started : List M
  finished : List (M × Option R)
  aborted : List M

namespace Consumer

variable {M R W : Type}

def start (w : W) : Consumer M R W :=
  { loop := .selecting
    queue := []
    closed := false
    signalled := false
    inFlight := []
    world := w
    yielded := []
    started := []
    finished := []
    aborted := [] }

/-- What the environment does while the loop is there. -/
inductive EnvStep (s : Consumer M R W) : Consumer M R W → Prop
  | arrive (item : Option M) (hloop : s.loop ≠ .exited) (hopen : s.closed = false) :
    EnvStep s { s with queue := s.queue ++ [item], yielded := s.yielded ++ [item] }
  | close (hloop : s.loop ≠ .exited) : EnvStep s { s with closed := true }
  | signal (hloop : s.loop ≠ .exited) : EnvStep s { s with signalled := true }

variable (limit : ℕ) (work : M → R → W → W)

/-- What a finished task did to the world. -/
def effect (w : W) : M × Option R → W
  | (msg, some r) => work msg r w
  | (_, none) => w

/-- What the loop and its tasks do. -/
inductive Step (s : Consumer M R W) : Consumer M R W → Prop
  | shutdown (hloop : s.loop = .selecting) (hs : s.signalled = true) :
    Step s { s with loop := .draining }
  | pull (msg : M) (queue : List (Option M)) (hloop : s.loop = .selecting)
      (hq : s.queue = some msg :: queue) :
    Step s { s with loop := .acquiring msg, queue := queue }
  | pullError (queue : List (Option M)) (hloop : s.loop = .selecting)
      (hq : s.queue = none :: queue) : Step s { s with queue := queue }
  | pullEnd (hloop : s.loop = .selecting) (hq : s.queue = []) (hc : s.closed = true) :
    Step s { s with loop := .draining }
  | acquire (msg : M) (hloop : s.loop = .acquiring msg) (hfree : s.inFlight.length < limit) :
    Step s { s with
      loop := .selecting
      inFlight := s.inFlight ++ [msg]
      started := s.started ++ [msg] }
  | finish (before : List M) (msg : M) (after : List M) (result : Option R)
      (hloop : s.loop ≠ .exited) (hrunning : s.inFlight = before ++ msg :: after) :
    Step s { s with
      inFlight := before ++ after
      finished := s.finished ++ [(msg, result)]
      world := effect work s.world (msg, result) }
  | drained (hloop : s.loop = .draining) (hidle : s.inFlight = []) :
    Step s { s with loop := .exited }
  | elapsed (hloop : s.loop = .draining) :
    Step s { s with loop := .exited, inFlight := [], aborted := s.inFlight }

/-- A step of the loop, its tasks or the environment. -/
def AnyStep (s t : Consumer M R W) : Prop := Step limit work s t ∨ EnvStep s t

def Reachable (w : W) (s : Consumer M R W) : Prop :=
  Relation.ReflTransGen (AnyStep limit work) (start w) s

variable {limit work} {w : W} {s t : Consumer M R W}

/-- Every message is in one place, and the finished tasks made the world. -/
structure Inv (limit : ℕ) (work : M → R → W → W) (w : W) (s : Consumer M R W) : Prop where
  bounded : s.inFlight.length ≤ limit
  inOrder : ∃ taken, s.yielded = taken ++ s.queue ∧
    taken.reduceOption = s.started ++ s.loop.inHand
  accounted : (s.inFlight ++ (s.finished.map Prod.fst ++ s.aborted)).Perm s.started
  worked : s.world = s.finished.foldl (effect work) w
  kept : s.loop ≠ .exited → s.aborted = []
  idle : s.loop = .exited → s.inFlight = []

theorem inv_start (w : W) : Inv limit work w (start w : Consumer M R W) where
  bounded := Nat.zero_le _
  inOrder := ⟨[], rfl, rfl⟩
  accounted := .refl _
  worked := rfl
  kept _ := rfl
  idle _ := rfl

theorem Inv.envStep (h : Inv limit work w s) (hstep : EnvStep s t) : Inv limit work w t := by
  cases hstep with
  | arrive item hloop hopen =>
    obtain ⟨taken, hy, hp⟩ := h.inOrder
    exact { h with inOrder := ⟨taken, by simp [hy], hp⟩ }
  | close hloop => exact { h with }
  | signal hloop => exact { h with }

/-- A message moves from the tasks in flight behind the finished ones. -/
theorem perm_moved (before after finished rest : List M) (msg : M) :
    ((before ++ after) ++ ((finished ++ [msg]) ++ rest)).Perm
      ((before ++ msg :: after) ++ (finished ++ rest)) := by
  have hmiddle : ((after ++ finished) ++ msg :: rest).Perm (msg :: ((after ++ finished) ++ rest)) :=
    List.perm_middle
  simpa [List.append_assoc] using hmiddle.append_left before

theorem Inv.step (h : Inv limit work w s) (hstep : Step limit work s t) :
    Inv limit work w t := by
  obtain ⟨taken, hy, hp⟩ := h.inOrder
  cases hstep with
  | shutdown hloop hs =>
    rw [hloop] at hp
    exact { h with
      inOrder := ⟨taken, hy, hp⟩
      kept := fun _ => h.kept (by simp [hloop])
      idle := fun he => by cases he }
  | pull msg queue hloop hq =>
    have hp : taken.reduceOption = s.started := by simpa [hloop, LoopAt.inHand] using hp
    exact { h with
      inOrder := ⟨taken ++ [some msg], by simp [hy, hq], by
        rw [List.reduceOption_append, hp]
        rfl⟩
      kept := fun _ => h.kept (by simp [hloop])
      idle := fun he => by cases he }
  | pullError queue hloop hq =>
    exact { h with
      inOrder := ⟨taken ++ [none], by simp [hy, hq], by
        rw [List.reduceOption_append, hp]
        simp⟩ }
  | pullEnd hloop hq hc =>
    rw [hloop] at hp
    exact { h with
      inOrder := ⟨taken, hy, hp⟩
      kept := fun _ => h.kept (by simp [hloop])
      idle := fun he => by cases he }
  | acquire msg hloop hfree =>
    rw [hloop] at hp
    exact { h with
      bounded := by simpa using Nat.succ_le_of_lt hfree
      inOrder := ⟨taken, hy, by simpa [LoopAt.inHand] using hp⟩
      accounted := by
        have hlast : (s.inFlight ++ ([msg] ++ (s.finished.map Prod.fst ++ s.aborted))).Perm
            (s.inFlight ++ ((s.finished.map Prod.fst ++ s.aborted) ++ [msg])) :=
          List.perm_append_comm.append_left _
        dsimp only
        rw [List.append_assoc]
        refine hlast.trans ?_
        rw [← List.append_assoc]
        exact h.accounted.append_right [msg]
      kept := fun _ => h.kept (by simp [hloop])
      idle := fun he => by cases he }
  | finish before msg after result hloop hrunning =>
    have hbounded := h.bounded
    have haccounted := h.accounted
    rw [hrunning] at hbounded haccounted
    exact { h with
      bounded := by
        rw [List.length_append, List.length_cons] at hbounded
        dsimp only
        rw [List.length_append]
        omega
      accounted := by
        dsimp only
        rw [List.map_append, List.map_singleton]
        exact (perm_moved _ _ _ _ msg).trans haccounted
      worked := by
        dsimp only
        rw [List.foldl_append, ← h.worked]
        rfl
      idle := fun he => absurd he hloop }
  | drained hloop hidle =>
    rw [hloop] at hp
    exact { h with
      inOrder := ⟨taken, hy, hp⟩
      kept := fun he => absurd rfl he
      idle := fun _ => hidle }
  | elapsed hloop =>
    rw [hloop] at hp
    have hkept := h.kept (by simp [hloop])
    have haccounted := h.accounted
    rw [hkept, List.append_nil] at haccounted
    exact { h with
      bounded := Nat.zero_le _
      inOrder := ⟨taken, hy, hp⟩
      accounted := by
        dsimp only
        rw [List.nil_append]
        exact List.perm_append_comm.trans haccounted
      kept := fun he => absurd rfl he
      idle := fun _ => rfl }

theorem Reachable.inv (h : Reachable limit work w s) : Inv limit work w s := by
  induction h with
  | refl => exact inv_start w
  | tail _ hstep ih => exact hstep.elim ih.step ih.envStep

/-! ### Leaving the loop -/

variable (limit work)

/-- The tasks in flight can all finish. -/
theorem exists_finished (s : Consumer M R W) (hloop : s.loop ≠ .exited) :
    ∃ t, Relation.ReflTransGen (Step limit work) s t ∧ t.inFlight = [] ∧ t.loop = s.loop ∧
      t.signalled = s.signalled ∧ t.started = s.started ∧ t.aborted = s.aborted := by
  induction hn : s.inFlight generalizing s with
  | nil => exact ⟨s, .refl, hn, rfl, rfl, rfl, rfl⟩
  | cons msg after ih =>
    obtain ⟨t, hst, hidle, hsame⟩ := ih
      { s with
        inFlight := [] ++ after
        finished := s.finished ++ [(msg, none)]
        world := effect work s.world (msg, none) } hloop rfl
    exact ⟨t, .head (.finish [] msg after none hloop hn) hst, hidle, hsame⟩

/-- The loop that waits for its tasks can leave without aborting any. -/
theorem exists_exit_of_draining {s : Consumer M R W} (hloop : s.loop = .draining) :
    ∃ t, Relation.ReflTransGen (Step limit work) s t ∧ t.loop = .exited ∧
      t.started = s.started ∧ t.aborted = s.aborted := by
  obtain ⟨t, hst, hidle, hat, _, hstarted, haborted⟩ :=
    exists_finished limit work s (by simp [hloop])
  exact ⟨_, .tail hst (.drained (hat.trans hloop) hidle), rfl, hstarted, haborted⟩

theorem exists_exit_of_selecting {s : Consumer M R W} (hloop : s.loop = .selecting)
    (hs : s.signalled = true) : ∃ t, Relation.ReflTransGen (Step limit work) s t ∧
      t.loop = .exited ∧ t.started = s.started ∧ t.aborted = s.aborted := by
  obtain ⟨t, hst, hexit⟩ := exists_exit_of_draining limit work
    (s := { s with loop := .draining }) rfl
  exact ⟨t, .head (.shutdown hloop hs) hst, hexit⟩

variable {limit}

/-- With permits a signalled loop can leave, after the message it has in hand. -/
theorem exists_exit (hlimit : 0 < limit) {s : Consumer M R W} (hs : s.signalled = true)
    (hloop : s.loop ≠ .exited) : ∃ t, Relation.ReflTransGen (Step limit work) s t ∧
      t.loop = .exited ∧ t.started = s.started ++ s.loop.inHand ∧ t.aborted = s.aborted := by
  cases hat : s.loop with
  | selecting =>
    simpa [LoopAt.inHand] using exists_exit_of_selecting limit work hat hs
  | draining =>
    simpa [LoopAt.inHand] using exists_exit_of_draining limit work hat
  | exited => exact absurd hat hloop
  | acquiring msg =>
    obtain ⟨t, hst, hidle, htat, hts, hstarted, haborted⟩ :=
      exists_finished limit work s hloop
    obtain ⟨u, htu, hexit, hustarted, huaborted⟩ := exists_exit_of_selecting
      limit work (s := { t with
        loop := .selecting
        inFlight := t.inFlight ++ [msg]
        started := t.started ++ [msg] }) rfl (hts.trans hs)
    refine ⟨u, hst.trans (.head (.acquire msg (htat.trans hat) (by simpa [hidle])) htu), hexit,
      ?_, huaborted.trans haborted⟩
    rw [hustarted, LoopAt.inHand, ← hstarted]

variable {work}

/-- With a message in hand and every permit taken, the loop stays where it is until
a task finishes. -/
theorem waits_for_permit {msg : M} (h : Relation.ReflTransGen (AnyStep limit work) s t)
    (hloop : s.loop = .acquiring msg) (hfull : limit ≤ s.inFlight.length)
    (hsame : t.finished.length = s.finished.length) :
    t.loop = .acquiring msg ∧ t.inFlight = s.inFlight := by
  have hgrows : ∀ {u v : Consumer M R W}, Relation.ReflTransGen (AnyStep limit work) u v →
      u.finished.length ≤ v.finished.length := by
    intro u v huv
    induction huv with
    | refl => exact Nat.le_refl _
    | tail _ hstep ih =>
      refine Nat.le_trans ih ?_
      rcases hstep with hstep | hstep <;> cases hstep <;> simp
  induction h with
  | refl => exact ⟨hloop, rfl⟩
  | @tail t u hst hstep ih =>
    have hmid : t.finished.length = s.finished.length :=
      Nat.le_antisymm (hsame ▸ hgrows (.single hstep)) (hgrows hst)
    obtain ⟨hat, hin⟩ := ih hmid
    rcases hstep with hstep | hstep
    · cases hstep with
      | acquire msg' hat' hfree =>
        rw [hin] at hfree
        omega
      | finish before msg' after result _ _ =>
        simp only [List.length_append, List.length_singleton] at hsame
        omega
      | _ => simp_all
    · cases hstep <;> exact ⟨hat, hin⟩

end Consumer

end Contexide.Effects
