import Mathlib.Logic.Function.Basic
import Mathlib.Data.Set.Basic

/-! Programs whose only effects are calls to named operations. A program is a
tree of calls; a handler says what one call does to a world. Three readings of
the same tree are used: an uninterrupted run, a run that stops at a chosen
fallible call, and (in `RelyGuarantee`) an interleaving with other programs.
An early return on a failed call is the second reading: the calls after it are
not made. -/

namespace Contexide.Effects

/-- Operations together with the type of their answers. -/
structure Signature where
  Op : Type
  Ans : Op → Type

inductive Program (S : Signature) (α : Type) : Type where
  | ret (a : α) : Program S α
  | call (op : S.Op) (next : S.Ans op → Program S α) : Program S α

/-- What one call does to a world: its answer and the world after it. -/
abbrev Handler (S : Signature) (W : Type) := (op : S.Op) → W → S.Ans op × W

variable {S : Signature} {W α β γ : Type}

namespace Program

def bind (p : Program S α) (f : α → Program S β) : Program S β :=
  match p with
  | .ret a => f a
  | .call op next => .call op fun r => (next r).bind f

instance : Monad (Program S) where
  pure := .ret
  bind := bind

/-- A single call that returns its answer. -/
def perform (op : S.Op) : Program S (S.Ans op) := .call op .ret

theorem bind_ret (p : Program S α) : p.bind .ret = p := by
  induction p with
  | ret a => rfl
  | call op next ih => simp only [bind, ih]

theorem bind_assoc (p : Program S α) (f : α → Program S β) (g : β → Program S γ) :
    p >>= f >>= g = p >>= fun a => f a >>= g := by
  change (p.bind f).bind g = p.bind fun a => (f a).bind g
  induction p with
  | ret a => rfl
  | call op next ih => simp only [bind, ih]

/-! ### Uninterrupted runs -/

def run (h : Handler S W) : Program S α → W → α × W
  | .ret a, w => (a, w)
  | .call op next, w => (next (h op w).1).run h (h op w).2

variable (h : Handler S W)

@[simp] theorem run_pure (a : α) (w : W) : run h (pure a) w = (a, w) := rfl

@[simp] theorem run_bind (p : Program S α) (f : α → Program S β) (w : W) :
    run h (p >>= f) w = run h (f (run h p w).1) (run h p w).2 := by
  change run h (p.bind f) w = _
  induction p generalizing w with
  | ret a => rfl
  | call op next ih => exact ih _ _

@[simp] theorem run_ite (c : Prop) [Decidable c] (p q : Program S α) (w : W) :
    run h (if c then p else q) w = if c then run h p w else run h q w := by
  split <;> rfl

/-! ### Runs of programs whose calls answer with errors -/

section Except

variable {ε : Type} {x : ExceptT ε (Program S) α} {f : α → ExceptT ε (Program S) β} {w w' : W}

theorem run_bind_ok {a : α} (hx : run h x.run w = (.ok a, w')) :
    run h (x >>= f).run w = run h (f a).run w' := by
  rw [ExceptT.run_bind, run_bind, hx]

/-- The first error ends the run. -/
theorem run_bind_error {e : ε} (hx : run h x.run w = (.error e, w')) :
    run h (x >>= f).run w = (.error e, w') := by
  rw [ExceptT.run_bind, run_bind, hx]
  rfl

end Except

/-! ### Runs that stop at a fallible call -/

/-- Run until the fallible call with index `n`, which is not made; `none` when
the run stopped there, the result when the program ended before it. -/
def stopAt (h : Handler S W) (fallible : S.Op → Bool) : ℕ → Program S α → W → Option α × W
  | _, .ret a, w => (some a, w)
  | n, .call op next, w =>
    if fallible op then
      match n with
      | 0 => (none, w)
      | m + 1 => stopAt h fallible m (next (h op w).1) (h op w).2
    else stopAt h fallible n (next (h op w).1) (h op w).2

/-- What every call keeps, a run that stops keeps. -/
theorem stopAt_keeps {P : W → Prop} (h : Handler S W) (fallible : S.Op → Bool)
    (hP : ∀ op w, P w → P (h op w).2) (p : Program S α) (n : ℕ) (w : W) (hw : P w) :
    P (stopAt h fallible n p w).2 := by
  induction p generalizing n w with
  | ret a => cases n <;> exact hw
  | call op next ih =>
    cases hf : fallible op with
    | false => cases n <;> simp only [stopAt, hf, Bool.false_eq_true, ↓reduceIte, ih, hP, hw]
    | true =>
      cases n with
      | zero => simp only [stopAt, hf, ↓reduceIte, hw]
      | succ m => simp only [stopAt, hf, ↓reduceIte, ih, hP, hw]

/-- The number of fallible calls of an uninterrupted run. -/
def calls (h : Handler S W) (fallible : S.Op → Bool) : Program S α → W → ℕ
  | .ret _, _ => 0
  | .call op next, w =>
    (if fallible op then 1 else 0) + calls h fallible (next (h op w).1) (h op w).2

variable (fallible : S.Op → Bool)

@[simp] theorem stopAt_pure (n : ℕ) (a : α) (w : W) :
    stopAt h fallible n (pure a) w = (some a, w) := by cases n <;> rfl

@[simp] theorem calls_pure (a : α) (w : W) : calls h fallible (pure a) w = 0 := rfl

@[simp] theorem calls_bind (p : Program S α) (f : α → Program S β) (w : W) :
    calls h fallible (p >>= f) w =
      calls h fallible p w + calls h fallible (f (run h p w).1) (run h p w).2 := by
  change calls h fallible (p.bind f) w = _
  induction p generalizing w with
  | ret a => simp [bind, calls, run]
  | call op next ih => simp only [bind, calls, run, ih, Nat.add_assoc]

/-- A program with at most `n` fallible calls ends before the one with index `n`. -/
theorem stopAt_of_calls_le (p : Program S α) (n : ℕ) (w : W) (hn : calls h fallible p w ≤ n) :
    stopAt h fallible n p w = (some (run h p w).1, (run h p w).2) := by
  induction p generalizing n w with
  | ret a => exact stopAt_pure h fallible n a w
  | call op next ih =>
    simp only [calls] at hn
    cases hf : fallible op with
    | false =>
      simp only [hf, Bool.false_eq_true, ↓reduceIte, Nat.zero_add] at hn
      cases n <;> simp only [stopAt, hf, Bool.false_eq_true, ↓reduceIte, run, ih _ _ _ hn]
    | true =>
      simp only [hf, ↓reduceIte] at hn
      obtain ⟨m, rfl⟩ : ∃ m, n = m + 1 := ⟨n - 1, by omega⟩
      simp only [stopAt, hf, ↓reduceIte, run]
      exact ih _ _ _ (by omega)

/-- A stop inside the first of two programs never reaches the second. -/
theorem stopAt_bind_of_lt (p : Program S α) (f : α → Program S β) (n : ℕ) (w : W)
    (hn : n < calls h fallible p w) :
    stopAt h fallible n (p >>= f) w = (none, (stopAt h fallible n p w).2) := by
  change stopAt h fallible n (p.bind f) w = _
  induction p generalizing n w with
  | ret a => simp [calls] at hn
  | call op next ih =>
    simp only [calls] at hn
    cases hf : fallible op with
    | false =>
      simp only [hf, Bool.false_eq_true, ↓reduceIte, Nat.zero_add] at hn
      cases n <;> simp only [bind, stopAt, hf, Bool.false_eq_true, ↓reduceIte, ih _ _ _ hn]
    | true =>
      cases n with
      | zero => simp only [bind, stopAt, hf, ↓reduceIte]
      | succ m =>
        simp only [hf, ↓reduceIte] at hn
        simp only [bind, stopAt, hf, ↓reduceIte]
        exact ih _ _ _ (by omega)

/-- A stop after the first of two programs is a stop in the second. -/
theorem stopAt_bind_of_le (p : Program S α) (f : α → Program S β) (n : ℕ) (w : W)
    (hn : calls h fallible p w ≤ n) :
    stopAt h fallible n (p >>= f) w =
      stopAt h fallible (n - calls h fallible p w) (f (run h p w).1) (run h p w).2 := by
  change stopAt h fallible n (p.bind f) w = _
  induction p generalizing n w with
  | ret a => rfl
  | call op next ih =>
    simp only [calls] at hn ⊢
    cases hf : fallible op with
    | false =>
      simp only [hf, Bool.false_eq_true, ↓reduceIte, Nat.zero_add] at hn ⊢
      cases n <;> simp only [bind, stopAt, hf, Bool.false_eq_true, ↓reduceIte, run, ih _ _ _ hn]
    | true =>
      simp only [hf, ↓reduceIte] at hn ⊢
      obtain ⟨m, rfl⟩ : ∃ m, n = m + 1 := ⟨n - 1, by omega⟩
      simp only [bind, stopAt, hf, ↓reduceIte, run]
      rw [ih _ _ _ (by omega)]
      congr 1
      omega

/-- A stop after a first program that is one call. -/
theorem stopAt_bind_succ (p : Program S α) (f : α → Program S β) (n : ℕ) (w : W)
    (hp : calls h fallible p w = 1) :
    stopAt h fallible (n + 1) (p >>= f) w =
      stopAt h fallible n (f (run h p w).1) (run h p w).2 := by
  rw [stopAt_bind_of_le h fallible p f (n + 1) w (by omega), hp, Nat.add_sub_cancel]

/-- A stop after a first program without fallible calls. -/
theorem stopAt_bind_zero (p : Program S α) (f : α → Program S β) (n : ℕ) (w : W)
    (hp : calls h fallible p w = 0) :
    stopAt h fallible n (p >>= f) w = stopAt h fallible n (f (run h p w).1) (run h p w).2 := by
  rw [stopAt_bind_of_le h fallible p f n w (by omega), hp, Nat.sub_zero]

theorem stopAt_none_of_lt (p : Program S α) (n : ℕ) (w : W) (hn : n < calls h fallible p w) :
    (stopAt h fallible n p w).1 = none := by
  have hb := stopAt_bind_of_lt h fallible p (fun a => (pure a : Program S α)) n w hn
  have he : p >>= (fun a => (pure a : Program S α)) = p := bind_ret p
  rw [he] at hb
  rw [hb]

/-- A stop before the second of two programs. -/
theorem stopAt_bind_none (p : Program S α) (f : α → Program S β) (n : ℕ) (w : W)
    (hp : (stopAt h fallible n p w).1 = none) :
    stopAt h fallible n (p >>= f) w = (none, (stopAt h fallible n p w).2) := by
  refine stopAt_bind_of_lt h fallible p f n w (Nat.lt_of_not_le fun hn => ?_)
  rw [stopAt_of_calls_le h fallible p n w hn] at hp
  exact absurd hp (by simp)

/-- A stop behind the first of two programs. -/
theorem stopAt_bind_some (p : Program S α) (f : α → Program S β) (n : ℕ) (w : W)
    (hp : (stopAt h fallible n p w).1 ≠ none) :
    stopAt h fallible n (p >>= f) w =
      stopAt h fallible (n - calls h fallible p w) (f (run h p w).1) (run h p w).2 :=
  stopAt_bind_of_le h fallible p f n w
    (Nat.le_of_not_lt fun hn => hp (stopAt_none_of_lt h fallible p n w hn))

/-- A stop of a program whose result is then computed from. -/
theorem stopAt_bind_pure (p : Program S α) (g : α → β) (n : ℕ) (w : W) :
    stopAt h fallible n (p >>= fun a => pure (g a)) w =
      ((stopAt h fallible n p w).1.map g, (stopAt h fallible n p w).2) := by
  change stopAt h fallible n (p.bind fun a => .ret (g a)) w = _
  induction p generalizing n w with
  | ret a => cases n <;> rfl
  | call op next ih =>
    cases hf : fallible op with
    | false => cases n <;> simp only [bind, stopAt, hf, Bool.false_eq_true, ↓reduceIte, ih]
    | true =>
      cases n with
      | zero => simp only [bind, stopAt, hf, ↓reduceIte, Option.map_none]
      | succ m => simp only [bind, stopAt, hf, ↓reduceIte, ih]

/-! Programs that read, and write with their last fallible call at most. -/

/-- Wherever the program stops, it leaves the state as it was. -/
def Unwritten (p : Program S α) (w : W) : Prop :=
  ∀ n, (stopAt h fallible n p w).1 = none → (stopAt h fallible n p w).2 = w

variable {h fallible} {p : Program S α} {f : α → Program S β} {w : W}

/-- A program with one call either ends or stops before it. -/
theorem unwritten_of_calls_le (hp : calls h fallible p w ≤ 1)
    (hzero : (stopAt h fallible 0 p w).2 = w) : Unwritten h fallible p w := by
  intro n hn
  cases n with
  | zero => exact hzero
  | succ n =>
    rw [stopAt_of_calls_le h fallible p (n + 1) w (by omega)] at hn
    exact absurd hn (by simp)

/-- A read comes before a program of this kind. -/
theorem Unwritten.bind_read (hp : calls h fallible p w = 1)
    (hzero : (stopAt h fallible 0 p w).2 = w) (hread : (run h p w).2 = w)
    (hf : Unwritten h fallible (f (run h p w).1) w) : Unwritten h fallible (p >>= f) w := by
  intro n
  cases n with
  | zero =>
    intro _
    rw [stopAt_bind_of_lt h fallible p f 0 w (by omega)]
    exact hzero
  | succ n =>
    rw [stopAt_bind_succ h fallible p f n w hp, hread]
    exact hf n

end Program

end Contexide.Effects
