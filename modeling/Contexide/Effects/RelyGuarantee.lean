import Contexide.Effects.Program
import Mathlib.Logic.Relation

/-! Rely-guarantee reasoning for processes that share a world and interleave at
single calls. A discipline says which calls each process may make in which
world, and carries an invariant that permitted calls keep. A program is safe
for a process when every call it makes is permitted whatever the others did
before it. Safe programs, restarted at will, keep the invariant in every
interleaving, and an assertion that the others cannot disturb survives from one
call of a process to its next. -/

namespace Contexide.Effects

open Program

/-- What the processes `I` may do to a shared world, with an invariant that
every permitted call keeps. -/
structure Discipline (S : Signature) (W I : Type) where
  handler : I → Handler S W
  permit : I → S.Op → W → Prop
  inv : W → Prop
  inv_step : ∀ {i op w}, inv w → permit i op w → inv (handler i op w).2

variable {S : Signature} {W I α β : Type}

namespace Discipline

variable (D : Discipline S W I)

/-- One permitted call of a process other than `i`. -/
def Interferes (i : I) (w w' : W) : Prop :=
  ∃ j, j ≠ i ∧ ∃ op, D.permit j op w ∧ w' = (D.handler j op w).2

def rely (i : I) : W → W → Prop := Relation.ReflTransGen (D.Interferes i)

/-- An assertion that no permitted call of another process disturbs. -/
def Stable (i : I) (P : W → Prop) : Prop :=
  ∀ j op w, j ≠ i → D.inv w → P w → D.permit j op w → P (D.handler j op w).2

def Safe (i : I) : Program S α → (α → W → Prop) → W → Prop
  | .ret a, Q, w => ∀ w', D.rely i w w' → Q a w'
  | .call op next, Q, w => ∀ w', D.rely i w w' →
      D.permit i op w' ∧ Safe i (next (D.handler i op w').1) Q (D.handler i op w').2

/-- From a world with the invariant and `P`, process `i` safely runs `p` to `Q`. -/
def Triple (i : I) (P : W → Prop) (p : Program S α) (Q : α → W → Prop) : Prop :=
  ∀ w, D.inv w → P w → D.Safe i p Q w

variable {D} {i j : I} {P P' : W → Prop} {Q Q' : α → W → Prop} {w w' : W}

theorem inv_of_rely (hw : D.inv w) (h : D.rely i w w') : D.inv w' := by
  induction h with
  | refl => exact hw
  | tail _ hs ih =>
    obtain ⟨j, _, op, hp, rfl⟩ := hs
    exact D.inv_step ih hp

theorem Stable.of_rely (hP : D.Stable i P) (hi : D.inv w) (hw : P w) (h : D.rely i w w') :
    P w' := by
  suffices hh : D.inv w' ∧ P w' from hh.2
  induction h with
  | refl => exact ⟨hi, hw⟩
  | tail _ hs ih =>
    obtain ⟨j, hj, op, hp, rfl⟩ := hs
    exact ⟨D.inv_step ih.1 hp, hP j op _ hj ih.1 ih.2 hp⟩

theorem Stable.and (hP : D.Stable i P) (hP' : D.Stable i P') :
    D.Stable i fun w => P w ∧ P' w :=
  fun j op w hj hi h hp => ⟨hP j op w hj hi h.1 hp, hP' j op w hj hi h.2 hp⟩

theorem Stable.true : D.Stable i fun _ => True := fun _ _ _ _ _ _ _ => trivial

/-- Safety survives the calls of the other processes. -/
theorem Safe.of_rely {p : Program S α} (hs : D.Safe i p Q w) (h : D.rely i w w') :
    D.Safe i p Q w' := by
  cases p with
  | ret a => exact fun w'' h' => hs w'' (h.trans h')
  | call op next => exact fun w'' h' => hs w'' (h.trans h')

theorem Safe.mono {p : Program S α} (hs : D.Safe i p Q w) (hQ : ∀ a w, Q a w → Q' a w) :
    D.Safe i p Q' w := by
  induction p generalizing w with
  | ret a => exact fun w' h => hQ a w' (hs w' h)
  | call op next ih => exact fun w' h => ⟨(hs w' h).1, ih _ (hs w' h).2⟩

/-! ### Rules -/

theorem Triple.weaken {p : Program S α} (h : D.Triple i P p Q) (hP : ∀ w, D.inv w → P' w → P w)
    (hQ : ∀ a w, Q a w → Q' a w) : D.Triple i P' p Q' :=
  fun w hi hw => (h w hi (hP w hi hw)).mono hQ

theorem Triple.of_and {φ : Prop} {p : Program S α} (h : φ → D.Triple i P p Q) :
    D.Triple i (fun w => φ ∧ P w) p Q :=
  fun w hi hw => h hw.1 w hi hw.2

theorem Triple.of_exists {X : Type} {R : X → W → Prop} {p : Program S α}
    (h : ∀ x, D.Triple i (R x) p Q) : D.Triple i (fun w => ∃ x, R x w) p Q :=
  fun w hi ⟨x, hw⟩ => h x w hi hw

theorem Triple.pure {a : α} (hP : D.Stable i P) (hQ : ∀ w, D.inv w → P w → Q a w) :
    D.Triple i P (Pure.pure a) Q :=
  fun _ hi hw w' h => hQ w' (inv_of_rely hi h) (hP.of_rely hi hw h)

/-- One call, then the rest: at the call the invariant and the assertion hold. -/
theorem Triple.call {op : S.Op} {next : S.Ans op → Program S α} (hP : D.Stable i P)
    (hs : ∀ w, D.inv w → P w → D.permit i op w ∧
      D.Safe i (next (D.handler i op w).1) Q (D.handler i op w).2) :
    D.Triple i P (.call op next) Q :=
  fun _ hi hw w' h => hs w' (inv_of_rely hi h) (hP.of_rely hi hw h)

theorem safe_bind {p : Program S α} {f : α → Program S β} {Q : β → W → Prop}
    (hs : D.Safe i p (fun a w => D.Safe i (f a) Q w) w) : D.Safe i (p >>= f) Q w := by
  change D.Safe i (p.bind f) Q w
  induction p generalizing w with
  | ret a => exact hs w .refl
  | call op next ih => exact fun w' h => ⟨(hs w' h).1, ih _ (hs w' h).2⟩

/-- A call followed by a continuation that is itself verified from the
assertion `R` on its answer. -/
theorem Triple.perform_bind {op : S.Op} {f : S.Ans op → Program S α} {R : S.Ans op → W → Prop}
    (hP : D.Stable i P)
    (hs : ∀ w, D.inv w → P w →
      D.permit i op w ∧ R (D.handler i op w).1 (D.handler i op w).2)
    (hf : ∀ r, D.Triple i (R r) (f r) Q) : D.Triple i P (perform op >>= f) Q :=
  Triple.call hP fun w hi hw => by
    obtain ⟨hp, hR⟩ := hs w hi hw
    exact ⟨hp, hf _ _ (D.inv_step hi hp) hR⟩

/-- Where a safe program ends, the invariant holds too. -/
theorem Safe.with_inv {p : Program S α} (hs : D.Safe i p Q w) (hi : D.inv w) :
    D.Safe i p (fun a w => D.inv w ∧ Q a w) w := by
  induction p generalizing w with
  | ret a => exact fun w' h => ⟨inv_of_rely hi h, hs w' h⟩
  | call op next ih =>
    intro w' h
    obtain ⟨hp, hn⟩ := hs w' h
    exact ⟨hp, ih _ hn (D.inv_step (inv_of_rely hi h) hp)⟩

theorem Triple.bind {p : Program S α} {f : α → Program S β} {R : α → W → Prop}
    {Q : β → W → Prop} (hp : D.Triple i P p R) (hf : ∀ a, D.Triple i (R a) (f a) Q) :
    D.Triple i P (p >>= f) Q :=
  fun w hi hw => safe_bind (((hp w hi hw).with_inv hi).mono fun a w' h => hf a w' h.1 h.2)

/-! ### Runs without interference -/

/-- Alone, a safe program keeps the invariant and ends in its postcondition. -/
theorem Safe.run {p : Program S α} (hs : D.Safe i p Q w) (hi : D.inv w) :
    D.inv (p.run (D.handler i) w).2 ∧
      Q (p.run (D.handler i) w).1 (p.run (D.handler i) w).2 := by
  induction p generalizing w with
  | ret a => exact ⟨hi, hs w .refl⟩
  | call op next ih =>
    obtain ⟨hp, hn⟩ := hs w .refl
    exact ih _ hn (D.inv_step hi hp)

/-- Alone, a safe program keeps what its permitted calls keep. -/
theorem Safe.run_keeps {p : Program S α} (hs : D.Safe i p Q w) (hi : D.inv w) (hw : P w)
    (hP : ∀ op w, D.inv w → P w → D.permit i op w → P (D.handler i op w).2) :
    P (p.run (D.handler i) w).2 := by
  induction p generalizing w with
  | ret a => exact hw
  | call op next ih =>
    obtain ⟨hp, hn⟩ := hs w .refl
    exact ih _ hn (D.inv_step hi hp) (hP op w hi hw hp)

/-- Alone, a safe program does to the others what they tolerate. -/
theorem Safe.run_rely {p : Program S α} (hs : D.Safe i p Q w) (hj : i ≠ j) :
    D.rely j w (p.run (D.handler i) w).2 := by
  induction p generalizing w with
  | ret a => exact .refl
  | call op next ih =>
    obtain ⟨hp, hn⟩ := hs w .refl
    exact .head ⟨i, hj, op, hp, rfl⟩ (ih _ hn)

end Discipline

/-! ### Interleavings -/

/-- What is left of every process's program, and the shared world. -/
structure Pool (S : Signature) (W I : Type) where
  procs : I → Program S Unit
  world : W

/-- How a pool evolves: which program a process may start in which world, and
which processes may have a call fail. -/
structure Schedule (S : Signature) (W I : Type) where
  handler : I → Handler S W
  starts : I → W → Program S Unit → Prop
  mayFail : I → Prop

variable [DecidableEq I]

namespace Pool

def set (c : Pool S W I) (i : I) (p : Program S Unit) (w : W) : Pool S W I :=
  ⟨Function.update c.procs i p, w⟩

@[simp] theorem set_world (c : Pool S W I) (i : I) (p : Program S Unit) (w : W) :
    (c.set i p w).world = w := rfl

@[simp] theorem set_procs_self (c : Pool S W I) (i : I) (p : Program S Unit) (w : W) :
    (c.set i p w).procs i = p := by simp [set]

theorem set_procs_ne (c : Pool S W I) {i j : I} (p : Program S Unit) (w : W) (h : j ≠ i) :
    (c.set i p w).procs j = c.procs j := by simp [set, h]

theorem set_set (c : Pool S W I) (i : I) (p q : Program S Unit) (w v : W) :
    (c.set i p w).set i q v = c.set i q v := by simp [set]

/-- Every process between two programs. -/
def idle (w : W) : Pool S W I := ⟨fun _ => .ret (), w⟩

theorem set_idle (w w' : W) (i : I) : (idle (S := S) w).set i (.ret ()) w' = idle w' := by
  simp [idle, set]

end Pool

/-- One step of an interleaving: a call, the start of a program, or a failed
call, on which the process drops the rest of its program. -/
inductive Schedule.Step (s : Schedule S W I) : Pool S W I → Pool S W I → Prop
  | call {c : Pool S W I} (i : I) (op : S.Op) (next : S.Ans op → Program S Unit)
      (h : c.procs i = .call op next) :
      Step s c (c.set i (next (s.handler i op c.world).1) (s.handler i op c.world).2)
  | start {c : Pool S W I} (i : I) (p : Program S Unit) (h : c.procs i = .ret ())
      (hs : s.starts i c.world p) : Step s c (c.set i p c.world)
  | fail {c : Pool S W I} (i : I) (op : S.Op) (next : S.Ans op → Program S Unit)
      (h : c.procs i = .call op next) (hf : s.mayFail i) :
      Step s c (c.set i (.ret ()) c.world)

/-- The pools an interleaving from a world in `init` can reach. -/
inductive Schedule.Reachable (s : Schedule S W I) (init : W → Prop) : Pool S W I → Prop
  | init {w : W} (h : init w) : Reachable s init (Pool.idle w)
  | step {c c' : Pool S W I} (h : Reachable s init c) (hs : s.Step c c') : Reachable s init c'

namespace Schedule

variable {s : Schedule S W I} {init : W → Prop}

/-- A process left alone runs the rest of its program to the end. -/
theorem Reachable.run {c : Pool S W I} (hc : s.Reachable init c) (i : I) :
    s.Reachable init (c.set i (.ret ()) ((c.procs i).run (s.handler i) c.world).2) := by
  generalize hp : c.procs i = p
  induction p generalizing c with
  | ret a =>
    have : c.set i (.ret ()) c.world = c := by
      obtain ⟨procs, world⟩ := c
      simp only [Pool.set, Pool.mk.injEq, and_true]
      exact (congrArg _ hp.symm).trans (Function.update_eq_self i procs)
    rw [Program.run, this]
    exact hc
  | call op next ih =>
    have hn := ih _ (hc.step (.call i op next hp)) (Pool.set_procs_self ..)
    rwa [Pool.set_set, Pool.set_world] at hn

/-- A process left alone until a call of it fails. -/
theorem Reachable.stopAt {c : Pool S W I} (hc : s.Reachable init c) (i : I) (hf : s.mayFail i)
    (fallible : S.Op → Bool) (n : ℕ) :
    s.Reachable init
      (c.set i (.ret ()) (Program.stopAt (s.handler i) fallible n (c.procs i) c.world).2) := by
  generalize hp : c.procs i = p
  induction p generalizing c n with
  | ret a =>
    have hr := hc.run i
    rw [hp] at hr
    cases n <;> exact hr
  | call op next ih =>
    have hn := fun m => ih _ (hc.step (.call i op next hp)) m (Pool.set_procs_self ..)
    simp only [Pool.set_set, Pool.set_world] at hn
    cases hop : fallible op with
    | false => cases n <;> simp only [Program.stopAt, hop, Bool.false_eq_true, ↓reduceIte, hn]
    | true =>
      cases n with
      | zero =>
        simp only [Program.stopAt, hop, ↓reduceIte]
        exact hc.step (.fail i op next hp hf)
      | succ m => simp only [Program.stopAt, hop, ↓reduceIte, hn]

/-- Between programs, a process may run one of its programs to the end. -/
theorem Reachable.play {w : W} (hw : s.Reachable init (Pool.idle w)) {i : I}
    {p : Program S Unit} (hs : s.starts i w p) :
    s.Reachable init (Pool.idle (p.run (s.handler i) w).2) := by
  have h := (hw.step (.start i p rfl hs)).run i
  rwa [Pool.set_procs_self, Pool.set_world, Pool.set_set, Pool.set_idle] at h

/-- Between programs, a process may run one of its programs until a call fails. -/
theorem Reachable.playUntil {w : W} (hw : s.Reachable init (Pool.idle w)) {i : I}
    {p : Program S Unit} (hs : s.starts i w p) (hf : s.mayFail i) (fallible : S.Op → Bool)
    (n : ℕ) :
    s.Reachable init (Pool.idle (Program.stopAt (s.handler i) fallible n p w).2) := by
  have h := (hw.step (.start i p rfl hs)).stopAt i hf fallible n
  rwa [Pool.set_procs_self, Pool.set_world, Pool.set_set, Pool.set_idle] at h

/-- Processes that are safe from start to end keep the invariant and their own
assertions between programs, in every interleaving. -/
theorem Reachable.safe {D : Discipline S W I} {between : I → W → Prop}
    (hh : s.handler = D.handler) (hinit : ∀ w, init w → D.inv w ∧ ∀ i, between i w)
    (hstable : ∀ i, D.Stable i (between i))
    (hstart : ∀ i w p, s.starts i w p → D.inv w → between i w →
      D.Safe i p (fun _ => between i) w)
    (hfail : ∀ i, s.mayFail i → ∀ w, between i w)
    {c : Pool S W I} (hc : s.Reachable init c) :
    D.inv c.world ∧ ∀ i, D.Safe i (c.procs i) (fun _ => between i) c.world := by
  induction hc with
  | init hw =>
    obtain ⟨hi, hb⟩ := hinit _ hw
    exact ⟨hi, fun i w' h => (hstable i).of_rely hi (hb i) h⟩
  | @step c c' _ hs ih =>
    obtain ⟨hi, hsafe⟩ := ih
    cases hs with
    | call i op next hp =>
      have hsi := hsafe i
      rw [hp] at hsi
      obtain ⟨hperm, hnext⟩ := hsi c.world .refl
      rw [← hh] at hnext
      have hinv : D.inv (s.handler i op c.world).2 := hh ▸ D.inv_step hi hperm
      refine ⟨hinv, fun j => ?_⟩
      by_cases hj : j = i
      · subst hj
        rw [Pool.set_procs_self]
        exact hnext
      · rw [Pool.set_procs_ne _ _ _ hj]
        exact (hsafe j).of_rely (.single ⟨i, Ne.symm hj, op, hperm, by rw [hh]; rfl⟩)
    | start i p hp hst =>
      refine ⟨hi, fun j => ?_⟩
      by_cases hj : j = i
      · subst hj
        rw [Pool.set_procs_self]
        have hsj := hsafe j
        rw [hp] at hsj
        exact hstart j c.world p hst hi (hsj c.world .refl)
      · rw [Pool.set_procs_ne _ _ _ hj]
        exact hsafe j
    | fail i op next hp hf =>
      refine ⟨hi, fun j => ?_⟩
      by_cases hj : j = i
      · subst hj
        rw [Pool.set_procs_self]
        exact fun w' _ => hfail j hf w'
      · rw [Pool.set_procs_ne _ _ _ hj]
        exact hsafe j

end Schedule

end Contexide.Effects
