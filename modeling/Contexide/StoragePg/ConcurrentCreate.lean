import Contexide.StoragePg.CreateSteps

/-! Any number of calls that create tenants over Postgres at the same time, interleaved
statement by statement. The table keeps its names and emails unique under every schedule.
Calls with the same pair agree unless one of them comes to its insert after another has
stored the pair: the insert has no conflict clause and fails. -/

namespace Contexide.StoragePg

open Sql PgTenantsRepo

/-- The database and the calls under way. -/
structure Calls where
  db : Db Json
  tasks : List (CreateCall × CallState)

namespace Calls

/-- The call at position `i` makes its next statement. -/
def advance (s : Calls) (i : ℕ) : Calls :=
  match s.tasks[i]? with
  | none => s
  | some (call, state) =>
    { db := (call.step s.db state).2
      tasks := s.tasks.set i (call, (call.step s.db state).1) }

/-- The states that a schedule goes through. -/
def states (s : Calls) : List ℕ → List Calls
  | [] => [s]
  | i :: schedule => s :: states (s.advance i) schedule

/-- The state at the end of a schedule. -/
def run (s : Calls) (schedule : List ℕ) : Calls := schedule.foldl advance s

/-- The condition holds of each statement in the state where it is made. -/
def Each (P : Calls → ℕ → Prop) (s : Calls) : List ℕ → Prop
  | [] => True
  | i :: schedule => P s i ∧ Each P (s.advance i) schedule

/-- No call has begun, and the table is in order. -/
structure Initial (s : Calls) : Prop where
  table : ∃ ts, HoldsTenants s.db ts
  tasks : ∀ task ∈ s.tasks, task.2 = .start

end Calls

/-- The stored tenants differ in name and in email, and all calls with the same pair have
returned the same identifier, unless another tenant holds a part of the pair. -/
structure Idempotent (s : Calls) : Prop where
  unique : ∃ ts, HoldsTenants s.db ts
  agree : ∀ name email, Contested s.db name email ∨ ∃ id, ∀ call r,
    (call, .returned r) ∈ s.tasks → call.name = name → call.email = email → r = .ok id

/-- The statement of the call at `i` does not fail while no other tenant holds a part of
the call's pair. -/
def Proper (s : Calls) (i : ℕ) : Prop := ∀ call state, s.tasks[i]? = some (call, state) →
  Contested s.db call.name call.email ∨ call.Clear s.db state

namespace Calls

/-- The table is in order, and so is every call. -/
structure Orderly (s : Calls) : Prop where
  table : ∃ ts, HoldsTenants s.db ts
  sent : ∀ task ∈ s.tasks, task.1.Sent task.2

/-- What every call knows is true of the table. -/
structure Inv (s : Calls) : Prop extends Orderly s where
  knows : ∀ task ∈ s.tasks, task.1.Knows s.db task.2

variable {s : Calls} {i : ℕ}

theorem Initial.inv (h : Initial s) : Inv s := by
  refine ⟨⟨h.table, fun task htask => ?_⟩, fun task htask => ?_⟩
  · rw [h.tasks task htask]
    trivial
  · rw [h.tasks task htask]
    trivial

theorem advance_of_task {call : CreateCall} {state : CallState}
    (h : s.tasks[i]? = some (call, state)) : s.advance i =
      ⟨(call.step s.db state).2, s.tasks.set i (call, (call.step s.db state).1)⟩ := by
  rw [advance, h]

/-- Every statement keeps the order. -/
theorem Orderly.advance (h : Orderly s) (i : ℕ) : Orderly (s.advance i) := by
  cases htask : s.tasks[i]? with
  | none =>
    rw [Calls.advance, htask]
    exact h
  | some task =>
    obtain ⟨call, state⟩ := task
    obtain ⟨ts, hts⟩ := h.table
    obtain ⟨htable, -, hsent⟩ := CreateCall.step_table hts
      (h.sent _ (List.mem_of_getElem? htask))
    rw [advance_of_task htask]
    refine ⟨htable, fun task hmem => ?_⟩
    rcases List.mem_or_eq_of_mem_set hmem with hmem | rfl
    · exact h.sent task hmem
    · exact hsent

/-- So the table is in order in every state of every run. -/
theorem Orderly.states (h : Orderly s) (schedule : List ℕ) :
    ∀ s' ∈ states s schedule, Orderly s' := by
  induction schedule generalizing s with
  | nil =>
    intro s' hs'
    rwa [List.mem_singleton.mp hs']
  | cons i schedule ih =>
    intro s' hs'
    rcases List.mem_cons.mp hs' with rfl | hs'
    · exact h
    · exact ih (h.advance i) s' hs'

/-- A proper statement keeps what the calls know. -/
theorem Inv.advance (h : Inv s) (hp : Proper s i) : Inv (s.advance i) := by
  refine ⟨h.toOrderly.advance i, ?_⟩
  cases htask : s.tasks[i]? with
  | none =>
    rw [Calls.advance, htask]
    exact h.knows
  | some task =>
    obtain ⟨call, state⟩ := task
    obtain ⟨ts, hts⟩ := h.table
    have hmem := List.mem_of_getElem? htask
    obtain ⟨-, hmono, -⟩ := CreateCall.step_table hts (h.sent _ hmem)
    have hcall := CreateCall.step_knows hts (h.sent _ hmem) (h.knows _ hmem) (hp call state htask)
    rw [advance_of_task htask]
    intro task hmem'
    rcases List.mem_or_eq_of_mem_set hmem' with hmem' | rfl
    · exact (h.knows task hmem').mono hmono
    · exact hcall

/-- True knowledge makes the calls agree: with no other tenant about, an identifier that
was returned is that of the stored pair. -/
theorem Inv.idempotent (h : Inv s) : Idempotent s := by
  obtain ⟨ts, hts⟩ := h.table
  refine ⟨⟨ts, hts⟩, fun name email => or_iff_not_imp_left.mpr fun hfree => ?_⟩
  have hok : ∀ call r, (call, .returned r) ∈ s.tasks → call.name = name → call.email = email →
      ∃ id, r = .ok id ∧ (⟨id, name, email⟩ : Tenant) ∈ ts := by
    rintro call r hmem rfl rfl
    have hcall := h.knows _ hmem
    cases r with
    | ok id => exact ⟨id, rfl, hts.stored_iff.mp hcall⟩
    | error e => exact absurd hcall hfree
  by_cases hpair : ∃ id, (⟨id, name, email⟩ : Tenant) ∈ ts
  · obtain ⟨id, hid⟩ := hpair
    refine ⟨id, fun call r hmem hname hemail => ?_⟩
    obtain ⟨id', rfl, hid'⟩ := hok call r hmem hname hemail
    have hsame := hts.eq_of_name hid' hid rfl
    rw [Tenant.mk.injEq] at hsame
    rw [hsame.1]
  · refine ⟨⟨0⟩, fun call r hmem hname hemail => ?_⟩
    obtain ⟨id, -, hid⟩ := hok call r hmem hname hemail
    exact absurd ⟨id, hid⟩ hpair

theorem mem_states (s : Calls) (schedule : List ℕ) : s ∈ states s schedule := by
  cases schedule with
  | nil => exact List.mem_singleton_self s
  | cons i schedule => exact List.mem_cons_self

/-- A statement after which the calls agree was a proper one. -/
theorem Inv.proper (h : Inv s) (hnext : Idempotent (s.advance i)) : Proper s i := by
  intro call state htask
  by_contra hno
  rw [not_or] at hno
  obtain ⟨ts, hts⟩ := h.table
  obtain ⟨e, hstep⟩ := CreateCall.step_blocked hts (h.sent _ (List.mem_of_getElem? htask)) hno.2
  rw [advance_of_task htask, hstep] at hnext
  have hlt := (List.getElem?_eq_some_iff.mp htask).1
  have hmem : (call, CallState.returned (.error e)) ∈
      s.tasks.set i (call, .returned (.error e)) := List.mem_set hlt _
  rcases hnext.agree call.name call.email with hc | ⟨id, hid⟩
  · exact hno.1 hc
  · exact absurd (hid call _ hmem rfl rfl) (by simp)

/-- The run of a schedule from a state in which what the calls know is true. -/
theorem Inv.idempotent_states_iff (schedule : List ℕ) (h : Inv s) :
    (∀ s' ∈ states s schedule, Idempotent s') ↔ Each Proper s schedule := by
  induction schedule generalizing s with
  | nil =>
    simp only [states, Each, List.mem_singleton, iff_true]
    rintro s' rfl
    exact h.idempotent
  | cons i schedule ih =>
    rw [states, List.forall_mem_cons, Each]
    constructor
    · rintro ⟨-, hrest⟩
      have hp := h.proper (hrest _ (mem_states _ schedule))
      exact ⟨hp, (ih (h.advance hp)).mp hrest⟩
    · rintro ⟨hp, hrest⟩
      exact ⟨h.idempotent, (ih (h.advance hp)).mpr hrest⟩

/-! A call returns after three statements, whatever the others do. -/

/-- The statements that a call has left, at most. -/
def left : CallState → ℕ
  | .start => 3
  | .readName _ => 2
  | .insert => 1
  | .returned _ => 0

theorem left_step (call : CreateCall) (db : Db Json) (state : CallState) :
    left (call.step db state).1 ≤ left state - 1 := by
  cases state with
  | start =>
    rw [CreateCall.step]
    split <;> simp [left]
  | readName byName =>
    rw [CreateCall.step]
    split
    · simp [left]
    · split <;> simp [left]
  | insert =>
    rw [CreateCall.step]
    split <;> simp [left]
  | returned r => exact Nat.le_refl 0

theorem run_left (schedule : List ℕ) {call : CreateCall} {state : CallState}
    (h : s.tasks[i]? = some (call, state)) :
    ∃ state', (s.run schedule).tasks[i]? = some (call, state') ∧
      left state' ≤ left state - schedule.count i := by
  induction schedule generalizing s state with
  | nil => exact ⟨state, h, Nat.le_refl _⟩
  | cons j schedule ih =>
    by_cases hij : j = i
    · subst hij
      have hnext : (s.advance j).tasks[j]? = some (call, (call.step s.db state).1) := by
        rw [advance_of_task h]
        exact List.getElem?_set_self (List.getElem?_eq_some_iff.mp h).1
      obtain ⟨state', hrun, hleft⟩ := ih hnext
      have hstep := left_step call s.db state
      refine ⟨state', hrun, ?_⟩
      rw [List.count_cons_self]
      omega
    · have hsame : (s.advance j).tasks[i]? = some (call, state) := by
        rw [← h, advance]
        split
        · rfl
        · exact List.getElem?_set_ne hij
      obtain ⟨state', hrun, hleft⟩ := ih hsame
      exact ⟨state', hrun, by rwa [List.count_cons_of_ne hij]⟩

/-- Every call that has made its statements has returned. -/
theorem run_returned (schedule : List ℕ) {call : CreateCall}
    (h : s.tasks[i]? = some (call, .start)) (hcount : 3 ≤ schedule.count i) :
    ∃ r, (s.run schedule).tasks[i]? = some (call, .returned r) := by
  obtain ⟨state, hrun, hleft⟩ := run_left schedule h
  have hzero : left state ≤ 0 := by
    rw [show left .start = 3 from rfl] at hleft
    omega
  cases state with
  | returned r => exact ⟨r, hrun⟩
  | _ => exact absurd hzero (by simp [left])

/-- Under every schedule names and emails stay unique and each call returns. The calls
agree in every state exactly when every statement is proper: a text can be sent, and an
insert finds neither its pair nor its identifier stored, unless another tenant holds a
part of the pair. -/
theorem create_idempotent_iff (start : Calls) (h : Initial start) (schedule : List ℕ) :
    (∀ s ∈ states start schedule, ∃ ts, HoldsTenants s.db ts) ∧
    (∀ i call, start.tasks[i]? = some (call, .start) → 3 ≤ schedule.count i →
      ∃ r, (start.run schedule).tasks[i]? = some (call, .returned r)) ∧
    ((∀ s ∈ states start schedule, Idempotent s) ↔ Each Proper start schedule) :=
  ⟨fun s hs => (h.inv.toOrderly.states schedule s hs).table,
    fun _ _ htask hcount => run_returned schedule htask hcount,
    h.inv.idempotent_states_iff schedule⟩

/-- An empty database as the migrations leave it. -/
def emptyDb : Db Json := ⟨migrated, fun _ => [], 0⟩

theorem holdsTenants_emptyDb : HoldsTenants emptyDb [] :=
  ⟨migrated_tenants, .nil, List.nodup_nil, List.nodup_nil, List.nodup_nil⟩

/-- Two calls with the same pair. -/
def twice : Calls where
  db := emptyDb
  tasks := [(⟨⟨1⟩, "acme", "ops@acme.io"⟩, .start), (⟨⟨2⟩, "acme", "ops@acme.io"⟩, .start)]

theorem initial_twice : Initial twice := by
  refine ⟨⟨[], holdsTenants_emptyDb⟩, fun task htask => ?_⟩
  simp only [twice, List.mem_cons, List.not_mem_nil, or_false] at htask
  rcases htask with rfl | rfl <;> rfl

theorem create_idempotent_iff_twice :
    (∀ s ∈ states twice [0, 0, 0, 1, 1, 1], ∃ ts, HoldsTenants s.db ts) ∧
    (∀ i call, twice.tasks[i]? = some (call, .start) → 3 ≤ [0, 0, 0, 1, 1, 1].count i →
      ∃ r, (twice.run [0, 0, 0, 1, 1, 1]).tasks[i]? = some (call, .returned r)) ∧
    ((∀ s ∈ states twice [0, 0, 0, 1, 1, 1], Idempotent s) ↔
      Each Proper twice [0, 0, 0, 1, 1, 1]) :=
  create_idempotent_iff twice initial_twice [0, 0, 0, 1, 1, 1]

/-- Both calls read an empty table, and the second insert fails on the first. -/
theorem concurrent_create_fails : ¬ ∀ start schedule, Initial start →
    ∀ s ∈ states start schedule, Idempotent s := by
  intro h
  have hlast : twice.run [0, 0, 1, 1, 0, 1] ∈ states twice [0, 0, 1, 1, 0, 1] := by
    simp [states, run]
  have htasks : (twice.run [0, 0, 1, 1, 0, 1]).tasks =
      [(⟨⟨1⟩, "acme", "ops@acme.io"⟩, .returned (.ok ⟨1⟩)),
        (⟨⟨2⟩, "acme", "ops@acme.io"⟩, .returned (.error (.db (.uniqueViolation ["name"]))))] := by
    decide
  have hrows : (twice.run [0, 0, 1, 1, 0, 1]).db.rows "tenants" =
      [newRow emptyDb ⟨⟨1⟩, "acme", "ops@acme.io"⟩] := rfl
  rcases (h twice _ initial_twice _ hlast).agree "acme" "ops@acme.io" with hc | ⟨id, hid⟩
  · obtain ⟨t, ⟨row, hrow, hkeeps⟩, hdiff⟩ := hc
    rw [hrows, List.mem_singleton] at hrow
    rw [hrow] at hkeeps
    rw [← KeepsTenant.inj (keepsTenant_newRow _) hkeeps] at hdiff
    simp at hdiff
  · rw [htasks] at hid
    have herror := hid _ _ (List.mem_cons_of_mem _ (List.mem_singleton_self _)) rfl rfl
    exact absurd herror (by simp)

end Calls

end Contexide.StoragePg
