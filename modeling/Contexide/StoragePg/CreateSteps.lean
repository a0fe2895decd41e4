import Contexide.StoragePg.PgTenants

/-! The creation of a tenant cut into its statements, each made on the table as other calls
have left it. What a call has read stays true, because nothing is taken from the table; that
it has found nothing does not. -/

namespace Contexide.StoragePg

open Sql PgTenantsRepo

/-- A call, with the identifier it draws should it come to the insert. -/
structure CreateCall where
  newId : TenantId
  name : String
  email : String
  deriving DecidableEq, Repr

/-- Where a call stands between its statements. -/
inductive CallState where
  | start
  | readName (byName : Option Tenant)
  | insert
  | returned (r : Except PgError TenantId)
  deriving DecidableEq

/-- The next statement of a call, and what it does up to the one after. -/
def CreateCall.step (c : CreateCall) (db : Db Json) : CallState → CallState × Db Json
  | .start =>
    match selectBy db "name" c.name with
    | .error e => (.returned (.error (.db e)), db)
    | .ok byName => (.readName byName, db)
  | .readName byName =>
    match selectBy db "email" c.email with
    | .error e => (.returned (.error (.db e)), db)
    | .ok byEmail =>
      match resolve c.name c.email byName byEmail with
      | some r => (.returned r, db)
      | none => (.insert, db)
  | .insert =>
    match insertNew db ⟨c.newId, c.name, c.email⟩ with
    | .error e => (.returned (.error (.db e)), db)
    | .ok (id, db') => (.returned (.ok id), db')
  | .returned r => (.returned r, db)

/-- A call that runs alone is over after three statements, with the result of `create`. -/
theorem CreateCall.steps_alone (c : CreateCall) (db : Db Json) :
    let first := c.step db .start
    let second := c.step first.2 first.1
    c.step second.2 second.1 =
      (.returned (create db c.newId c.name c.email).1, (create db c.newId c.name c.email).2) := by
  simp only [CreateCall.step, create]
  cases selectBy db "name" c.name with
  | error e => rfl
  | ok byName =>
    simp only
    cases selectBy db "email" c.email with
    | error e => rfl
    | ok byEmail =>
      simp only
      cases resolve c.name c.email byName byEmail with
      | some r => rfl
      | none =>
        simp only
        cases insertNew db ⟨c.newId, c.name, c.email⟩ <;> rfl

/-- A tenant is stored. -/
def Stored (db : Db Json) (t : Tenant) : Prop := ∃ row ∈ db.rows "tenants", KeepsTenant row t

/-- Another tenant holds the name or the email. -/
def Contested (db : Db Json) (name email : String) : Prop :=
  ∃ t, Stored db t ∧ (t.name = name ∧ t.email ≠ email ∨ t.name ≠ name ∧ t.email = email)

/-- The next statement does not fail: its text can be sent, and the insert finds neither
its pair nor its identifier in the table. -/
def CreateCall.Clear (c : CreateCall) (db : Db Json) : CallState → Prop
  | .start => Sendable c.name
  | .readName _ => Sendable c.email
  | .insert => ∀ t, Stored db t → t.id ≠ c.newId ∧ ¬ (t.name = c.name ∧ t.email = c.email)
  | .returned _ => True

/-! ### What a call knows -/

theorem KeepsTenant.inj {row : Row Json} {t u : Tenant} (ht : KeepsTenant row t)
    (hu : KeepsTenant row u) : t = u := by
  have hid := ht.id.symm.trans hu.id
  have hname := ht.name.symm.trans hu.name
  have hemail := ht.email.symm.trans hu.email
  simp only [Value.uuid.injEq, Value.text.injEq] at hid hname hemail
  cases t
  cases u
  simp_all [TenantId.ext_iff]

theorem HoldsTenants.stored_iff {db : Db Json} {ts : List Tenant} (h : HoldsTenants db ts)
    {t : Tenant} : Stored db t ↔ t ∈ ts := by
  have hrows := h.rows
  rw [Stored]
  generalize db.rows "tenants" = rows at hrows
  clear h
  induction hrows with
  | nil => simp
  | @cons row u rows us hrow _ ih =>
    have hhead : KeepsTenant row t ↔ t = u := by
      constructor
      · intro ht
        exact ht.inj hrow
      · rintro rfl
        exact hrow
    simpa only [List.mem_cons, exists_eq_or_imp, hhead] using or_congr_right ih

/-- The texts that a call has sent so far could be sent. -/
def CreateCall.Sent (c : CreateCall) : CallState → Prop
  | .readName _ => Sendable c.name
  | .insert => Sendable c.name ∧ Sendable c.email
  | _ => True

/-- What a call has found, or returned, is in the table. -/
def CreateCall.Knows (c : CreateCall) (db : Db Json) : CallState → Prop
  | .readName (some t) => Stored db t ∧ t.name = c.name
  | .returned (.ok id) => Stored db ⟨id, c.name, c.email⟩
  | .returned (.error _) => Contested db c.name c.email
  | _ => True

theorem Contested.mono {db db' : Db Json} (h : ∀ t, Stored db t → Stored db' t)
    {name email : String} (hc : Contested db name email) : Contested db' name email := by
  obtain ⟨t, ht, hdiff⟩ := hc
  exact ⟨t, h t ht, hdiff⟩

theorem CreateCall.Knows.mono {db db' : Db Json} (h : ∀ t, Stored db t → Stored db' t)
    {c : CreateCall} {state : CallState} (hk : c.Knows db state) : c.Knows db' state := by
  cases state with
  | start => trivial
  | readName byName =>
    cases byName with
    | none => trivial
    | some t => exact ⟨h t hk.1, hk.2⟩
  | insert => trivial
  | returned r =>
    cases r with
    | ok id => exact h _ hk
    | error e => exact Contested.mono h hk

section Step

variable {db : Db Json} {ts : List Tenant} {c : CreateCall} {state : CallState}

theorem selectName_eq (h : HoldsTenants db ts) {name : String} (hs : Sendable name) :
    selectBy db "name" name = .ok (ts.find? fun t => t.name = name) :=
  h.selectBy_eq (by decide) (fun _ _ hrow => hrow.name) hs

theorem selectEmail_eq (h : HoldsTenants db ts) {email : String} (hs : Sendable email) :
    selectBy db "email" email = .ok (ts.find? fun t => t.email = email) :=
  h.selectBy_eq (by decide) (fun _ _ hrow => hrow.email) hs

theorem find?_some {p : Tenant → Prop} [DecidablePred p] {t : Tenant}
    (h : (ts.find? fun t => p t) = some t) : t ∈ ts ∧ p t :=
  ⟨List.mem_of_find?_eq_some h, by simpa using List.find?_some h⟩

/-- What is returned on two reads is true of the table, also when the first was made
before other calls changed it. -/
theorem knows_resolve (h : HoldsTenants db ts) {byName : Option Tenant}
    (hn : c.Knows db (.readName byName)) {r : Except PgError TenantId}
    (hr : resolve c.name c.email byName (ts.find? fun t => t.email = c.email) = some r) :
    c.Knows db (.returned r) := by
  have hread : ∀ n, byName = some n → n ∈ ts ∧ n.name = c.name := by
    rintro n rfl
    exact ⟨h.stored_iff.mp hn.1, hn.2⟩
  obtain ⟨t, ht, ⟨hname, hemail, rfl⟩ | ⟨hdiff, e, rfl⟩⟩ :=
    h.resolve_cases hread (fun e he => find?_some he) hr
  · show Stored db ⟨t.id, c.name, c.email⟩
    rw [← hname, ← hemail]
    exact h.stored_iff.mpr ht
  · exact ⟨t, h.stored_iff.mpr ht, hdiff⟩

/-! The three statements, by what they do. -/

theorem CreateCall.step_start (h : HoldsTenants db ts) :
    Sendable c.name ∧
        c.step db .start = (.readName (ts.find? fun t => t.name = c.name), db) ∨
      ¬ Sendable c.name ∧ ∃ e, c.step db .start = (.returned (.error e), db) := by
  rw [CreateCall.step]
  by_cases hname : Sendable c.name
  · rw [selectName_eq h hname]
    exact .inl ⟨hname, rfl⟩
  · rw [h.selectBy_invalid (by decide) hname]
    exact .inr ⟨hname, _, rfl⟩

theorem CreateCall.step_readName (h : HoldsTenants db ts) (byName : Option Tenant) :
    (Sendable c.email ∧
        ((∃ r, resolve c.name c.email byName (ts.find? fun t => t.email = c.email) = some r ∧
          c.step db (.readName byName) = (.returned r, db)) ∨
        c.step db (.readName byName) = (.insert, db))) ∨
      ¬ Sendable c.email ∧ ∃ e, c.step db (.readName byName) = (.returned (.error e), db) := by
  rw [CreateCall.step]
  by_cases hemail : Sendable c.email
  · rw [selectEmail_eq h hemail]
    left
    cases hr : resolve c.name c.email byName (ts.find? fun t => t.email = c.email) with
    | some r => exact ⟨hemail, .inl ⟨r, rfl, by simp only [hr]⟩⟩
    | none => exact ⟨hemail, .inr (by simp only [hr])⟩
  · rw [h.selectBy_invalid (by decide) hemail]
    exact .inr ⟨hemail, _, rfl⟩

theorem CreateCall.step_insert (h : HoldsTenants db ts) (hs : c.Sent .insert) :
    ((∀ u ∈ ts, u.id ≠ c.newId ∧ u.name ≠ c.name ∧ u.email ≠ c.email) ∧
        ∃ db', c.step db .insert = (.returned (.ok c.newId), db') ∧
          HoldsTenants db' (ts ++ [⟨c.newId, c.name, c.email⟩])) ∨
      (∃ u ∈ ts, u.id = c.newId ∨ u.name = c.name ∨ u.email = c.email) ∧
        ∃ e, c.step db .insert = (.returned (.error e), db) := by
  rw [CreateCall.step]
  rcases h.insert_cases (t := ⟨c.newId, c.name, c.email⟩) hs.1 hs.2 with
    ⟨hnew, db', hdb, h'⟩ | ⟨htaken, e, he⟩
  · rw [hdb]
    exact .inl ⟨hnew, db', rfl, h'⟩
  · rw [he]
    exact .inr ⟨htaken, _, rfl⟩

/-- Every statement leaves the table in order and takes nothing from it. -/
theorem CreateCall.step_table (h : HoldsTenants db ts) (hs : c.Sent state) :
    (∃ ts', HoldsTenants (c.step db state).2 ts') ∧
      (∀ t, Stored db t → Stored (c.step db state).2 t) ∧ c.Sent (c.step db state).1 := by
  have hsame : (∃ ts', HoldsTenants db ts') ∧ ∀ t, Stored db t → Stored db t :=
    ⟨⟨ts, h⟩, fun _ ht => ht⟩
  cases state with
  | start =>
    obtain ⟨hname, hstep⟩ | ⟨-, e, hstep⟩ := step_start (c := c) h <;> rw [hstep]
    · exact ⟨hsame.1, hsame.2, hname⟩
    · exact ⟨hsame.1, hsame.2, trivial⟩
  | readName byName =>
    obtain ⟨hemail, ⟨r, -, hstep⟩ | hstep⟩ | ⟨-, e, hstep⟩ := step_readName (c := c) h byName <;>
      rw [hstep]
    · exact ⟨hsame.1, hsame.2, trivial⟩
    · exact ⟨hsame.1, hsame.2, hs, hemail⟩
    · exact ⟨hsame.1, hsame.2, trivial⟩
  | insert =>
    obtain ⟨-, db', hstep, h'⟩ | ⟨-, e, hstep⟩ := step_insert h hs <;> rw [hstep]
    · refine ⟨⟨_, h'⟩, fun t ht => ?_, trivial⟩
      exact h'.stored_iff.mpr (List.mem_append_left _ (h.stored_iff.mp ht))
    · exact ⟨hsame.1, hsame.2, trivial⟩
  | returned r => exact ⟨hsame.1, hsame.2, trivial⟩

/-- A statement that fails only while the pair is contested keeps what the call knows. -/
theorem CreateCall.step_knows (h : HoldsTenants db ts) (hs : c.Sent state) (hk : c.Knows db state)
    (hp : Contested db c.name c.email ∨ c.Clear db state) :
    c.Knows (c.step db state).2 (c.step db state).1 := by
  cases state with
  | start =>
    obtain ⟨-, hstep⟩ | ⟨hname, e, hstep⟩ := step_start (c := c) h <;> rw [hstep]
    · dsimp only
      cases hfind : ts.find? fun t => t.name = c.name with
      | none => trivial
      | some t =>
        obtain ⟨hmem, heq⟩ := find?_some hfind
        exact ⟨h.stored_iff.mpr hmem, heq⟩
    · exact hp.resolve_right hname
  | readName byName =>
    obtain ⟨-, ⟨r, hr, hstep⟩ | hstep⟩ | ⟨hemail, e, hstep⟩ := step_readName (c := c) h byName <;>
      rw [hstep]
    · exact knows_resolve h hk hr
    · trivial
    · exact hp.resolve_right hemail
  | insert =>
    obtain ⟨-, db', hstep, h'⟩ | ⟨⟨u, hu, htaken⟩, e, hstep⟩ := step_insert h hs <;> rw [hstep]
    · exact h'.stored_iff.mpr (by simp)
    · show Contested db c.name c.email
      rcases hp with hp | hp
      · exact hp
      · have hu' := h.stored_iff.mpr hu
        obtain ⟨hid, hpair⟩ := hp u hu'
        refine ⟨u, hu', ?_⟩
        tauto
  | returned r => exact hk

/-- A statement that is not clear fails and changes nothing. -/
theorem CreateCall.step_blocked (h : HoldsTenants db ts) (hs : c.Sent state)
    (hb : ¬ c.Clear db state) : ∃ e, c.step db state = (.returned (.error e), db) := by
  cases state with
  | start =>
    obtain ⟨hname, -⟩ | ⟨-, hfail⟩ := step_start (c := c) h
    · exact absurd hname hb
    · exact hfail
  | readName byName =>
    obtain ⟨hemail, -⟩ | ⟨-, hfail⟩ := step_readName (c := c) h byName
    · exact absurd hemail hb
    · exact hfail
  | insert =>
    obtain ⟨hnew, -⟩ | ⟨-, hfail⟩ := step_insert h hs
    · refine absurd (fun t ht => ?_) hb
      obtain ⟨hid, hname, -⟩ := hnew t (h.stored_iff.mp ht)
      exact ⟨hid, fun hpair => hname hpair.1⟩
    · exact hfail
  | returned r => exact absurd trivial hb

end Step

end Contexide.StoragePg
