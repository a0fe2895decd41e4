import Contexide.Effects.Program

/-! Simulation of a handler by one over a concrete world, where any fallible call may
fail: by a fault, or because the concrete world refuses it. A failed call is not made and
ends the run, so the runs that fail are the runs of the abstract handler that stop at a
call. Answers are related only, not equal; the program has to be one that related answers
do not lead apart. -/

namespace Contexide.Effects

variable {S : Signature} {V W ε α β : Type}

/-- What one call does to a world, or the error of its answer. -/
abbrev Attempt (S : Signature) (V ε : Type) := (op : S.Op) → V → Except ε (S.Ans op × V)

/-- The errors that the fallible calls of a run meet, by their index. -/
abbrev Faults (ε : Type) := ℕ → Option ε

/-- The call with index `n` fails. -/
def Faults.at (n : ℕ) (e : ε) : Faults ε := fun m => if m = n then some e else none

/-- A relation between the answers of each operation. -/
abbrev Answers (S : Signature) := (op : S.Op) → S.Ans op → S.Ans op → Prop

namespace Program

/-- Run until the first error; the world is the one before the failed call. -/
def attempt (k : Attempt S V ε) (fallible : S.Op → Bool) :
    Program S α → Faults ε → V → Except ε α × V
  | .ret a, _, v => (.ok a, v)
  | .call op next, faults, v =>
    match (if fallible op then faults 0 else none), k op v with
    | some e, _ => (.error e, v)
    | none, .error e => (.error e, v)
    | none, .ok (r, v') =>
      (next r).attempt k fallible (if fallible op then fun n => faults (n + 1) else faults) v'

/-- The calls that are made before the fallible call with index `n` are accepted. -/
def AcceptedTo (h : Handler S W) (fallible : S.Op → Bool) (accepts : S.Op → W → Prop) :
    ℕ → Program S α → W → Prop
  | _, .ret _, _ => True
  | n, .call op next, w =>
    if fallible op then
      match n with
      | 0 => True
      | m + 1 => accepts op w ∧ AcceptedTo h fallible accepts m (next (h op w).1) (h op w).2
    else AcceptedTo h fallible accepts n (next (h op w).1) (h op w).2

/-! One call at the start of a run. -/

section Call

variable {h : Handler S W} {k : Attempt S V ε} {fallible : S.Op → Bool}
  {accepts : S.Op → W → Prop} {op : S.Op} {next : S.Ans op → Program S α} {faults : Faults ε}
  {v v' : V} {r : S.Ans op}

theorem attempt_call_of_fault {e : ε} (hf : fallible op = true) (he : faults 0 = some e) :
    (call op next).attempt k fallible faults v = (.error e, v) := by
  simp [attempt, hf, he]

theorem attempt_call_of_error {e : ε} (he : faults 0 = none) (hcall : k op v = .error e) :
    (call op next).attempt k fallible faults v = (.error e, v) := by
  simp [attempt, he, hcall]

theorem attempt_call_fallible (hf : fallible op = true) (he : faults 0 = none)
    (hcall : k op v = .ok (r, v')) : (call op next).attempt k fallible faults v =
      (next r).attempt k fallible (fun n => faults (n + 1)) v' := by
  simp [attempt, hf, he, hcall]

theorem attempt_call_infallible (hf : fallible op = false) (hcall : k op v = .ok (r, v')) :
    (call op next).attempt k fallible faults v = (next r).attempt k fallible faults v' := by
  simp [attempt, hf, hcall]

variable {n : ℕ} {w : W}

theorem stopAt_call_succ (hf : fallible op = true) :
    (call op next).stopAt h fallible (n + 1) w =
      (next (h op w).1).stopAt h fallible n (h op w).2 := by
  rw [stopAt, if_pos hf]

theorem stopAt_call_infallible (hf : fallible op = false) :
    (call op next).stopAt h fallible n w = (next (h op w).1).stopAt h fallible n (h op w).2 := by
  cases n <;> rw [stopAt, if_neg (by simp [hf])]

theorem acceptedTo_call_zero (hf : fallible op = true) :
    (call op next).AcceptedTo h fallible accepts 0 w := by
  rw [AcceptedTo, if_pos hf]
  trivial

theorem acceptedTo_call_succ (hf : fallible op = true) :
    (call op next).AcceptedTo h fallible accepts (n + 1) w ↔
      accepts op w ∧ (next (h op w).1).AcceptedTo h fallible accepts n (h op w).2 := by
  rw [AcceptedTo, if_pos hf]

theorem acceptedTo_call_infallible (hf : fallible op = false) :
    (call op next).AcceptedTo h fallible accepts n w ↔
      (next (h op w).1).AcceptedTo h fallible accepts n (h op w).2 := by
  cases n <;> rw [AcceptedTo, if_neg (by simp [hf])]

end Call

/-- The programs make the same calls and return the same, with related answers. -/
inductive Matches (A : Answers S) : Program S α → Program S α → Prop
  | ret (a : α) : Matches A (.ret a) (.ret a)
  | call (op : S.Op) {next next' : S.Ans op → Program S α}
    (h : ∀ r r', A op r r' → Matches A (next r) (next' r')) :
    Matches A (.call op next) (.call op next')

namespace Matches

variable {A : Answers S} {p p' : Program S α} {f f' : α → Program S β}

theorem bind (hp : Matches A p p') (hf : ∀ a, Matches A (f a) (f' a)) :
    Matches A (p >>= f) (p' >>= f') := by
  change Matches A (p.bind f) (p'.bind f')
  induction hp with
  | ret a => exact hf a
  | call op _ ih => exact .call op ih

/-- A call whose related answers are equal. -/
theorem perform {op : S.Op} (h : ∀ r r', A op r r' → r = r') :
    Matches A (perform op) (perform op) :=
  .call op fun r r' hr => h r r' hr ▸ .ret r

/-- A call, and continuations that do not tell related answers apart. -/
theorem perform_bind {op : S.Op} {g g' : S.Ans op → Program S β}
    (h : ∀ r r', A op r r' → Matches A (g r) (g' r')) :
    Matches A (Program.perform op >>= g) (Program.perform op >>= g') :=
  .call op h

end Matches

end Program

/-- An accepted call does to the concrete world what it does to the abstract one, with
related answers; one that is not accepted fails. -/
structure Simulates (h : Handler S W) (k : Attempt S V ε) (fallible : S.Op → Bool) (A : Answers S)
    (R : W → V → Prop) (accepts : S.Op → W → Prop) : Prop where
  made : ∀ {op w v}, R w v → fallible op = false ∨ accepts op w →
    ∃ r v', k op v = .ok (r, v') ∧ A op (h op w).1 r ∧ R (h op w).2 v'
  refused : ∀ {op w v}, R w v → fallible op = true → ¬ accepts op w → ∃ e, k op v = .error e

namespace Simulates

open Program

variable {h : Handler S W} {k : Attempt S V ε} {fallible : S.Op → Bool} {A : Answers S}
  {R : W → V → Prop} {accepts : S.Op → W → Prop} {p p' : Program S α} {w : W} {v : V}

/-- An attempted run is the abstract run, when all its calls are accepted, or the abstract
run stopped at a call, when those before it are. -/
theorem attempt (hs : Simulates h k fallible A R accepts) (hp : p.Matches A p')
    (faults : Faults ε) (hR : R w v) :
    ((∀ n, p.AcceptedTo h fallible accepts n w) ∧
      ∃ v', p'.attempt k fallible faults v = (.ok (p.run h w).1, v') ∧ R (p.run h w).2 v') ∨
    ∃ n e v', p'.attempt k fallible faults v = (.error e, v') ∧
      (p.stopAt h fallible n w).1 = none ∧ p.AcceptedTo h fallible accepts n w ∧
      R (p.stopAt h fallible n w).2 v' := by
  induction hp generalizing w v faults with
  | ret a => exact .inl ⟨fun n => by cases n <;> trivial, v, rfl, hR⟩
  | @call op next next' _ ih =>
    cases hf : fallible op with
    | true =>
      -- a call that fails is not made
      have hfailed : ∀ e, (call op next').attempt k fallible faults v = (.error e, v) →
          ∃ n e v', (call op next').attempt k fallible faults v = (.error e, v') ∧
            ((call op next).stopAt h fallible n w).1 = none ∧
            (call op next).AcceptedTo h fallible accepts n w ∧
            R ((call op next).stopAt h fallible n w).2 v' := by
        intro e hrun
        refine ⟨0, e, v, hrun, ?_, acceptedTo_call_zero hf, ?_⟩ <;> rw [stopAt, if_pos hf]
        exact hR
      cases hfault : faults 0 with
      | some e => exact .inr (hfailed e (attempt_call_of_fault hf hfault))
      | none =>
        by_cases hacc : accepts op w
        · obtain ⟨r, v', hcall, hA, hR'⟩ := hs.made hR (.inr hacc)
          rw [attempt_call_fallible hf hfault hcall]
          refine (ih _ _ hA (fun n => faults (n + 1)) hR').imp (And.imp_left fun hall n => ?_) ?_
          · cases n with
            | zero => exact acceptedTo_call_zero hf
            | succ n => exact (acceptedTo_call_succ hf).mpr ⟨hacc, hall n⟩
          · rintro ⟨n, e, u, hrun, hstop, hbefore, hRu⟩
            exact ⟨n + 1, e, u, hrun, (stopAt_call_succ hf).symm ▸ hstop,
              (acceptedTo_call_succ hf).mpr ⟨hacc, hbefore⟩, (stopAt_call_succ hf).symm ▸ hRu⟩
        · obtain ⟨e, hcall⟩ := hs.refused hR hf hacc
          exact .inr (hfailed e (attempt_call_of_error hfault hcall))
    | false =>
      obtain ⟨r, v', hcall, hA, hR'⟩ := hs.made hR (.inl hf)
      rw [attempt_call_infallible hf hcall]
      refine (ih _ _ hA faults hR').imp
        (And.imp_left fun hall n => (acceptedTo_call_infallible hf).mpr (hall n)) ?_
      rintro ⟨n, e, u, hrun, hstop, hbefore, hRu⟩
      exact ⟨n, e, u, hrun, (stopAt_call_infallible hf).symm ▸ hstop,
        (acceptedTo_call_infallible hf).mpr hbefore, (stopAt_call_infallible hf).symm ▸ hRu⟩

/-- A run whose calls are accepted is the abstract run when no fault stops it. -/
theorem attempt_none (hs : Simulates h k fallible A R accepts) (hp : p.Matches A p')
    (hacc : ∀ n, p.AcceptedTo h fallible accepts n w) (hR : R w v) :
    ∃ v', p'.attempt k fallible (fun _ => none) v = (.ok (p.run h w).1, v') ∧
      R (p.run h w).2 v' := by
  induction hp generalizing w v with
  | ret a => exact ⟨v, rfl, hR⟩
  | @call op next next' _ ih =>
    cases hf : fallible op with
    | true =>
      obtain ⟨r, v', hcall, hA, hR'⟩ := hs.made hR (.inr ((acceptedTo_call_succ hf).mp (hacc 1)).1)
      rw [attempt_call_fallible hf rfl hcall]
      exact ih _ _ hA (fun n => ((acceptedTo_call_succ hf).mp (hacc (n + 1))).2) hR'
    | false =>
      obtain ⟨r, v', hcall, hA, hR'⟩ := hs.made hR (.inl hf)
      rw [attempt_call_infallible hf hcall]
      exact ih _ _ hA (fun n => (acceptedTo_call_infallible hf).mp (hacc n)) hR'

/-- Every stop of the abstract run behind accepted calls is a failure of an attempted run. -/
theorem attempt_at (hs : Simulates h k fallible A R accepts) (hp : p.Matches A p') {n : ℕ}
    (e : ε) (hacc : p.AcceptedTo h fallible accepts n w)
    (hstop : (p.stopAt h fallible n w).1 = none) (hR : R w v) :
    ∃ v', p'.attempt k fallible (.at n e) v = (.error e, v') ∧
      R (p.stopAt h fallible n w).2 v' := by
  induction hp generalizing w v n with
  | ret a => simp [stopAt] at hstop
  | @call op next next' _ ih =>
    cases hf : fallible op with
    | true =>
      cases n with
      | zero =>
        refine ⟨v, attempt_call_of_fault hf (if_pos rfl), ?_⟩
        rw [stopAt, if_pos hf]
        exact hR
      | succ n =>
        obtain ⟨hop, hrest⟩ := (acceptedTo_call_succ hf).mp hacc
        obtain ⟨r, v', hcall, hA, hR'⟩ := hs.made hR (.inr hop)
        have hshift : (fun m => Faults.at (n + 1) e (m + 1)) = Faults.at n e := by
          funext m
          simp [Faults.at]
        rw [attempt_call_fallible hf (if_neg (by omega)) hcall, hshift, stopAt_call_succ hf]
        exact ih _ _ hA hrest (stopAt_call_succ hf ▸ hstop) hR'
    | false =>
      obtain ⟨r, v', hcall, hA, hR'⟩ := hs.made hR (.inl hf)
      rw [attempt_call_infallible hf hcall, stopAt_call_infallible hf]
      exact ih _ _ hA ((acceptedTo_call_infallible hf).mp hacc)
        (stopAt_call_infallible hf ▸ hstop) hR'

end Simulates

end Contexide.Effects
