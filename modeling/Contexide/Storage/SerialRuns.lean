import Contexide.Storage.Serial
import Mathlib.Data.List.Count

/-! The runs whose calls begin apart: what each section keeps, and what the repository and
the answers are once every call has returned. -/

namespace Contexide.Storage.ChildTable

variable {K P V : Type} [DecidableEq K] [DecidableEq P] {key : V → K} {parent : V → P}

theorem Exact.alone {c : ChildTable key P} (h : Exact parent c) (ch : Change key parent) :
    Exact parent (ch.alone c).2 := by
  cases ch with
  | save entity => exact h.save entity
  | delete k => exact h.delete k
  | deleteByParent p => exact h.deleteByParent p
  | modify k f hkey hparent => exact h.modify k hkey hparent

/-- In an exact index the entries are the rows. -/
theorem Exact.entries_eq {c : ChildTable key P} (h : Exact parent c) (p : P) (k : K) :
    entries c p k = filed parent c.byKey p k := by
  have hmem : k ∈ bucket c.byParent p ↔ filed parent c.byKey p k = 1 :=
    (h.mem p k).trans filed_eq_one.symm
  have hle := filed_le_one parent c.byKey p k
  by_cases hk : k ∈ bucket c.byParent p
  · rw [entries, List.count_eq_one_of_mem (h.valid.nodup p) hk, hmem.mp hk]
  · rw [entries, List.count_eq_zero_of_not_mem hk]
    rw [hmem] at hk
    omega

/-- The calls under way are in order, and the table is that of `c` but for the rows that
deletions by parent have yet to remove. -/
structure Serial (parent : V → P) (s : Shared key P) (c : ChildTable key P)
    (answers : List Answer) : Prop where
  exact : Exact parent c
  conserved : s.Conserved parent
  missed : ∀ p k, s.missed p k = 0
  taken : ∀ p k, s.taken p k = s.dropped p k + s.dropping.count (p, k)
  plans : ∀ task ∈ s.tasks, Plan parent s.table.byKey task.rest
  disjoint : s.tasks.Pairwise Task.Disjoint
  rows : ∀ k, c.byKey.get k =
    if k ∈ s.dropping.map Prod.snd then none else s.table.byKey.get k
  answers : s.tasks.map Task.result = answers

namespace Serial

variable {s : Shared key P} {c : ChildTable key P} {answers : List Answer}

/-- Entries and rows, while calls are under way. -/
theorem balance (h : Serial parent s c answers) (p : P) (k : K) :
    entries s.table p k + s.pending.count (.indexAdd p k) + s.dropping.count (p, k) =
      filed parent s.table.byKey p k + s.pending.count (.indexRemove p k) := by
  have hs := h.conserved p k
  have htaken := h.taken p k
  have hmissed := h.missed p k
  omega

theorem empty : Serial parent (.empty : Shared key P) .empty [] where
  exact := .empty
  conserved := .empty
  missed _ _ := rfl
  taken _ _ := rfl
  plans task h := by cases h
  disjoint := .nil
  rows _ := rfl
  answers := rfl

omit [DecidableEq K] [DecidableEq P] in
theorem mem_pending {sec : Section P K} :
    sec ∈ s.pending ↔ ∃ task ∈ s.tasks, sec ∈ task.rest := List.mem_flatMap

omit [DecidableEq K] [DecidableEq P] in
theorem mem_dropping {p : P} {k : K} :
    (p, k) ∈ s.dropping ↔ ∃ ks, .removeRows p ks ∈ s.pending ∧ k ∈ ks := by
  rw [Shared.dropping, List.mem_flatMap]
  constructor
  · rintro ⟨sec, hsec, hk⟩
    cases sec with
    | removeRows q ks =>
      obtain ⟨k', hk', he⟩ := List.mem_map.mp hk
      obtain ⟨rfl, rfl⟩ := Prod.mk.inj he
      exact ⟨ks, hsec, hk'⟩
    | indexAdd q k' => cases hk
    | indexRemove q k' => cases hk
  · rintro ⟨ks, hsec, hk⟩
    exact ⟨_, hsec, List.mem_map_of_mem hk⟩

omit [DecidableEq K] [DecidableEq P] in
theorem mem_map_snd_dropping {k : K} :
    k ∈ s.dropping.map Prod.snd ↔ ∃ p, (p, k) ∈ s.dropping := by
  simp

/-- A row that is still to go belongs to the parent whose bucket was taken. -/
theorem filed_of_dropping (h : Serial parent s c answers) {p : P} {k : K}
    (hk : (p, k) ∈ s.dropping) : filed parent s.table.byKey p k = 1 := by
  obtain ⟨ks, hsec, hks⟩ := mem_dropping.mp hk
  obtain ⟨task, htask, hrest⟩ := mem_pending.mp hsec
  have hplan := h.plans task htask
  generalize task.rest = rest at hplan hrest
  cases hplan with
  | drop hn hfiled =>
    simp only [List.mem_singleton, Section.removeRows.injEq] at hrest
    obtain ⟨rfl, rfl⟩ := hrest
    exact hfiled k hks
  | done => simp at hrest
  | add => simp at hrest
  | remove => simp at hrest
  | move => simp at hrest

/-- A call about a row that no call under way is about. -/
theorem start_of_key (h : Serial parent s c answers) {ch : Change key parent} {k : K}
    (hk : ch.key? = some k) (hbusy : ∀ sec ∈ s.pending, k ∉ sec.keys) :
    Serial parent (s.start ch) (ch.alone c).2 (answers ++ [(ch.alone c).1]) := by
  have hkeys := Change.keys_rest_first s.table hk
  have hdropping : (s.start ch).dropping = s.dropping := by
    rw [Shared.dropping, Shared.pending_start, List.flatMap_append, ← Shared.dropping,
      List.flatMap_eq_nil_iff.mpr fun sec hsec => (hkeys sec hsec).2, List.append_nil]
  have hfree : k ∉ s.dropping.map Prod.snd := by
    intro hmem
    obtain ⟨p, hdrop⟩ := mem_map_snd_dropping.mp hmem
    obtain ⟨ks, hsec, hks⟩ := mem_dropping.mp hdrop
    exact hbusy _ hsec hks
  have hget : c.byKey.get k = s.table.byKey.get k := by rw [h.rows, if_neg hfree]
  have hothers : ∀ task ∈ s.tasks, k ∉ task.keys := by
    intro task htask hmem
    obtain ⟨sec, hsec, hksec⟩ := List.mem_flatMap.mp hmem
    exact hbusy sec (mem_pending.mpr ⟨task, htask, hsec⟩) hksec
  constructor
  · exact h.exact.alone ch
  · exact h.conserved.start ch
  · exact h.missed
  · intro p k'
    rw [hdropping]
    show s.taken p k' + (_ - entries (ch.first s.table).2 p k') = _
    rw [entries, entries, Change.byParent_first s.table hk, Nat.sub_self]
    exact h.taken p k'
  · intro task htask
    rcases List.mem_append.mp htask with htask | htask
    · apply (h.plans task htask).congr
      intro k' hk'
      show (ch.first s.table).2.byKey.get k' = _
      rw [Change.get_first _ hk, if_neg]
      rintro rfl
      exact hothers task htask hk'
    · rw [List.mem_singleton.mp htask]
      exact Change.plan_first s.table hk
  · refine List.pairwise_append.mpr ⟨h.disjoint, List.pairwise_singleton _ _, ?_⟩
    intro t ht u hu k' hk' hu'
    rw [List.mem_singleton.mp hu] at hu'
    obtain ⟨sec, hsec, hksec⟩ := List.mem_flatMap.mp hu'
    rw [(hkeys sec hsec).1] at hksec
    rw [List.mem_singleton.mp hksec] at hk'
    exact hothers t ht hk'
  · intro k'
    rw [hdropping, Change.byKey_alone c hk, Change.get_first c hk]
    show _ = if _ then _ else (ch.first s.table).2.byKey.get k'
    rw [Change.get_first s.table hk, hget]
    by_cases hk' : k' = k
    · subst hk'
      rw [if_pos rfl, if_neg hfree, if_pos rfl]
    · rw [if_neg hk', if_neg hk', h.rows]
  · show List.map Task.result (s.tasks ++ [(ch.first s.table).1]) = _
    rw [List.map_append, h.answers, List.map_singleton, Change.result_first s.table hk,
      Change.answer_first hk hget.symm]

/-! ### Deletions by parent -/

section DeleteByParent

variable {p : P}

/-- With no change of the bucket under way, it has the keys of the rows that `c` has under
the parent. -/
theorem mem_bucket (h : Serial parent s c answers)
    (hfree : ∀ sec ∈ s.pending, ¬ sec.Changes p) :
    (bucket s.table.byParent p).Nodup ∧ ∀ k, k ∈ bucket s.table.byParent p ↔
      filed parent c.byKey p k = 1 := by
  have hbalance : ∀ k, entries s.table p k + s.dropping.count (p, k) =
      filed parent s.table.byKey p k := by
    intro k
    have hadd : s.pending.count (.indexAdd p k) = 0 :=
      List.count_eq_zero.mpr fun hmem => hfree _ hmem rfl
    have hremove : s.pending.count (.indexRemove p k) = 0 :=
      List.count_eq_zero.mpr fun hmem => hfree _ hmem rfl
    have hs := h.balance p k
    omega
  constructor
  · rw [List.nodup_iff_count_le_one]
    intro k
    have hs := hbalance k
    have hle := filed_le_one parent s.table.byKey p k
    rw [entries] at hs
    omega
  · intro k
    have hs := hbalance k
    have hle := filed_le_one parent s.table.byKey p k
    rw [← List.count_pos_iff, ← entries]
    by_cases hk : k ∈ s.dropping.map Prod.snd
    · obtain ⟨q, hdrop⟩ := mem_map_snd_dropping.mp hk
      have hq := filed_eq_ite (h.filed_of_dropping hdrop) p
      rw [filed_of_get_none ((h.rows k).trans (if_pos hk))]
      by_cases hp : q = p
      · subst hp
        have hpos := List.count_pos_iff.mpr hdrop
        omega
      · rw [if_neg hp] at hq
        omega
    · have hno : s.dropping.count (p, k) = 0 :=
        List.count_eq_zero.mpr fun hmem => hk (mem_map_snd_dropping.mpr ⟨_, hmem⟩)
      rw [filed_congr ((h.rows k).trans (if_neg hk))]
      omega

theorem get_deleteByParent (h : Exact parent c) (p : P) (k : K) :
    (c.deleteByParent p).2.byKey.get k =
      if filed parent c.byKey p k = 1 then none else c.byKey.get k := by
  have hspec := (h.deleteByParent_spec p).2
  apply Option.ext
  intro v
  rw [Table.get_eq_some, hspec]
  split
  · next hfiled =>
    obtain ⟨u, hu, hk, rfl⟩ := filed_eq_one.mp hfiled
    simp only [reduceCtorEq, iff_false, not_and]
    rintro ⟨hv, hne⟩ rfl
    exact hne (congrArg parent (Table.eq_of_key hv hu hk.symm))
  · next hfiled =>
    rw [Table.get_eq_some]
    constructor
    · rintro ⟨⟨hv, -⟩, hk⟩
      exact ⟨hv, hk⟩
    · rintro ⟨hv, hk⟩
      exact ⟨⟨hv, fun hp => hfiled (filed_eq_one.mpr ⟨v, hv, hk, hp⟩)⟩, hk⟩

omit [DecidableEq K] in
theorem drops_deleteByParentFirst (c : ChildTable key P) (p : P) :
    (deleteByParentFirst c p).1.rest.flatMap Section.drops =
      (bucket c.byParent p).map (Prod.mk p) := by
  unfold deleteByParentFirst
  dsimp only
  split
  · next hempty => rw [List.isEmpty_iff.mp hempty]; rfl
  · exact List.flatMap_singleton _ _

theorem count_map_mk (p q : P) (ks : List K) (k : K) :
    (ks.map (Prod.mk p)).count (q, k) = if q = p then ks.count k else 0 := by
  split
  · next hp =>
    subst hp
    exact List.count_map_of_injective ks _ (Prod.mk_right_injective q) k
  · next hp =>
    rw [List.count_eq_zero, List.mem_map]
    rintro ⟨k', -, he⟩
    exact hp (Prod.mk.inj he).1.symm

/-- A row in a bucket is not the row of a call under way, unless that call changes the
bucket. -/
theorem keys_disjoint_bucket (h : Serial parent s c answers)
    (hfree : ∀ sec ∈ s.pending, ¬ sec.Changes p) {task : Task P K} (htask : task ∈ s.tasks) :
    ∀ k ∈ task.keys, k ∉ bucket s.table.byParent p := by
  intro k hk hbucket
  have hc := ((h.mem_bucket hfree).2 k).mp hbucket
  have hnodrop : k ∉ s.dropping.map Prod.snd := by
    intro hmem
    rw [filed_of_get_none ((h.rows k).trans (if_pos hmem))] at hc
    cases hc
  have hs : filed parent s.table.byKey p k = 1 := by
    rw [← hc, filed_congr ((h.rows k).trans (if_neg hnodrop))]
  have hsame : ∀ q, filed parent s.table.byKey q k = 1 → q = p := by
    intro q hq
    rw [filed_eq_ite hs q] at hq
    by_contra hne
    rw [if_neg (Ne.symm hne)] at hq
    cases hq
  have hpending : ∀ sec ∈ task.rest, ¬ sec.Changes p := fun sec hsec =>
    hfree sec (mem_pending.mpr ⟨task, htask, hsec⟩)
  have hdrops : ∀ q ks, .removeRows q ks ∈ task.rest → k ∉ ks := fun q ks hsec hks =>
    hnodrop (mem_map_snd_dropping.mpr ⟨q, mem_dropping.mpr
      ⟨ks, mem_pending.mpr ⟨task, htask, hsec⟩, hks⟩⟩)
  have hplan := h.plans task htask
  unfold Task.keys at hk
  generalize task.rest = rest at hplan hpending hdrops hk
  cases hplan with
  | done => simp at hk
  | @add q k' hfiled =>
    obtain rfl : k = k' := by simpa [Section.keys] using hk
    exact hpending (.indexAdd q k) (by simp) (hsame q hfiled)
  | @remove q k' hnone =>
    obtain rfl : k = k' := by simpa [Section.keys] using hk
    rw [filed_of_get_none hnone] at hs
    cases hs
  | @move q q' k' hne hfiled =>
    obtain rfl : k = k' := by simpa [Section.keys] using hk
    exact hpending (.indexAdd q' k) (by simp) (hsame q' hfiled)
  | @drop q ks hn hfiled => exact hdrops q ks (by simp) (by simpa [Section.keys] using hk)

theorem start_deleteByParent (h : Serial parent s c answers)
    (hfree : ∀ sec ∈ s.pending, ¬ sec.Changes p) :
    Serial parent (s.start (.deleteByParent p : Change key parent)) (c.deleteByParent p).2
      (answers ++ [.removed (c.deleteByParent p).1]) := by
  obtain ⟨hnodup, hmem⟩ := h.mem_bucket hfree
  have hdropping : (s.start (.deleteByParent p : Change key parent)).dropping =
      s.dropping ++ (bucket s.table.byParent p).map (Prod.mk p) := by
    rw [Shared.dropping, Shared.pending_start, List.flatMap_append, ← Shared.dropping]
    exact congrArg _ (drops_deleteByParentFirst s.table p)
  have hget : ∀ k ∈ bucket s.table.byParent p, c.byKey.get k = s.table.byKey.get k := by
    intro k hk
    have hrow := h.rows k
    split at hrow
    · have hc := (hmem k).mp hk
      rw [filed_of_get_none hrow] at hc
      cases hc
    · exact hrow
  have hplan : Plan parent s.table.byKey (deleteByParentFirst s.table p).1.rest := by
    unfold deleteByParentFirst
    dsimp only
    split
    · exact .done
    · refine .drop hnodup fun k hk => ?_
      rw [← (hmem k).mp hk, filed_congr (hget k hk)]
  constructor
  · exact h.exact.deleteByParent p
  · exact h.conserved.start _
  · exact h.missed
  · intro q k
    rw [hdropping, List.count_append, count_map_mk]
    show s.taken q k + ((bucket s.table.byParent q).count k -
      (bucket (Table.remove s.table.byParent p) q).count k) = s.dropped q k + _
    rw [h.taken q k, Nat.add_assoc, bucket, bucket, Assoc.find_remove]
    split
    · next hq => rw [hq, bucket]; simp
    · simp
  · intro task htask
    rcases List.mem_append.mp htask with htask | htask
    · exact h.plans task htask
    · rw [List.mem_singleton.mp htask]
      exact hplan
  · refine List.pairwise_append.mpr ⟨h.disjoint, List.pairwise_singleton _ _, ?_⟩
    intro t ht u hu k hk hu'
    rw [List.mem_singleton.mp hu] at hu'
    apply h.keys_disjoint_bucket hfree ht k hk
    simp only [Change.first, deleteByParentFirst, Task.keys] at hu'
    split at hu'
    · simp at hu'
    · simpa [Section.keys] using hu'
  · intro k
    rw [hdropping, get_deleteByParent h.exact, h.rows k, List.map_append, List.map_map]
    show _ = if _ then _ else s.table.byKey.get k
    have hsnd : k ∈ (bucket s.table.byParent p).map (Prod.snd ∘ Prod.mk p) ↔
        k ∈ bucket s.table.byParent p := by simp
    simp only [List.mem_append, hsnd, ← hmem]
    by_cases hk : k ∈ bucket s.table.byParent p
    · rw [if_pos hk, if_pos (.inr hk)]
    · rw [if_neg hk]
      simp only [hk, or_false]
  · show List.map Task.result (s.tasks ++ [(deleteByParentFirst s.table p).1]) = _
    have hfiles : Files parent c.byKey fun p k => ∃ v ∈ c.byKey, key v = k ∧ parent v = p :=
      fun _ _ => Iff.rfl
    have hperm := hfiles.keys_perm hnodup fun k => (hmem k).trans filed_eq_one
    have hcount : (c.deleteByParent p).1 = (bucket s.table.byParent p).length := by
      rw [(h.exact.deleteByParent_spec p).1, hperm.length_eq, List.length_map]
    have hresult : (deleteByParentFirst s.table p).1.result =
        .removed (bucket s.table.byParent p).length := by
      unfold deleteByParentFirst
      dsimp only
      split
      · next hempty => rw [List.isEmpty_iff.mp hempty]; rfl
      · rfl
    rw [List.map_append, h.answers, List.map_singleton, hresult, hcount]

end DeleteByParent

/-- A call that begins apart. -/
theorem start (h : Serial parent s c answers) {ch : Change key parent}
    (hap : ch.Apart s.pending) :
    Serial parent (s.start ch) (ch.alone c).2 (answers ++ [(ch.alone c).1]) := by
  cases ch with
  | save entity => exact h.start_of_key rfl hap
  | delete k => exact h.start_of_key rfl hap
  | deleteByParent p => exact h.start_deleteByParent hap
  | modify k f hkey hparent => exact h.start_of_key rfl hap

/-! ### Later sections -/

end Serial

/-- A later section removes the rows that it is to remove. -/
theorem Section.get_run (sec : Section P K) (c : ChildTable key P) (answer : Answer) (k : K) :
    (sec.run c answer).2.byKey.get k =
      if k ∈ sec.drops.map Prod.snd then none else c.byKey.get k := by
  cases sec with
  | indexAdd p k' => rfl
  | indexRemove p k' => rfl
  | removeRows p ks =>
    rw [run, get_removeAll]
    simp [drops]

/-- A section of a plan leaves a plan, takes the rows it is to remove off their parent, and
returns what was to be returned. -/
theorem Plan.run {c : ChildTable key P} (answer : Answer) {sec : Section P K}
    {rest : List (Section P K)} (h : Plan parent c.byKey (sec :: rest)) :
    Plan parent (sec.run c answer).2.byKey rest ∧
      (∀ p k, filed parent c.byKey p k - filed parent (sec.run c answer).2.byKey p k =
        sec.drops.count (p, k)) ∧
      Task.result ⟨(sec.run c answer).1, rest⟩ = Task.result ⟨answer, sec :: rest⟩ := by
  cases h with
  | add h => exact ⟨.done, fun p k => Nat.sub_self _, rfl⟩
  | remove h => exact ⟨.done, fun p k => Nat.sub_self _, rfl⟩
  | move hne h => exact ⟨.add h, fun p k => Nat.sub_self _, rfl⟩
  | @drop q ks hn h =>
    refine ⟨.done, fun p k => ?_, ?_⟩
    · rw [Section.run, filed_removeAll, Section.drops, Serial.count_map_mk]
      by_cases hk : k ∈ ks
      · rw [if_pos hk, filed_eq_ite (h k hk) p, List.count_eq_one_of_mem hn hk, Nat.sub_zero]
        simp only [eq_comm]
      · rw [if_neg hk, Nat.sub_self, List.count_eq_zero_of_not_mem hk, ite_self]
    · have hhas : ∀ k ∈ ks, c.byKey.Has k := by
        intro k hk
        obtain ⟨v, hv, hkey, -⟩ := filed_eq_one.mp (h k hk)
        exact ⟨v, hv, hkey⟩
      show Answer.removed (removeAll ks c.byKey 0).1 = .removed ks.length
      rw [(removeAll_spec hn hhas 0).1, Nat.zero_add]

namespace Serial

variable {s : Shared key P} {c : ChildTable key P} {answers : List Answer} {i : ℕ}
  {answer : Answer} {sec : Section P K} {rest : List (Section P K)}

/-- No removal from the index comes before the addition that it undoes. -/
theorem entries_pos (h : Serial parent s c answers) {p : P} {k : K}
    (htask : s.tasks[i]? = some ⟨answer, .indexRemove p k :: rest⟩) : 0 < entries s.table p k := by
  obtain ⟨others, hperm, -⟩ := exists_perm_cons_set htask
  have hdisjoint := ((hperm.pairwise_iff Task.Disjoint.symm).mp h.disjoint)
  have hothers : ∀ u ∈ others, k ∉ u.keys := fun u hu =>
    (List.pairwise_cons.mp hdisjoint).1 u hu k (by simp [Task.keys, Section.keys])
  have hpending : s.pending.Perm ((.indexRemove p k :: rest) ++ others.flatMap Task.rest) :=
    hperm.flatMap_right Task.rest
  have hplan := h.plans _ (List.mem_of_getElem? htask)
  have hadd : s.pending.count (.indexAdd p k) = 0 := by
    rw [List.count_eq_zero, hpending.mem_iff, List.mem_append]
    rintro (hmem | hmem)
    · cases hplan with
      | remove => simp at hmem
      | move hne => simp [hne] at hmem
    · obtain ⟨u, hu, hsec⟩ := List.mem_flatMap.mp hmem
      exact hothers u hu (List.mem_flatMap.mpr ⟨_, hsec, by simp [Section.keys]⟩)
  have hremove : 0 < s.pending.count (.indexRemove p k) :=
    List.count_pos_iff.mpr (hpending.mem_iff.mpr (by simp))
  have hdrop : s.dropping.count (p, k) = 0 := by
    rw [List.count_eq_zero]
    intro hmem
    have hfiled := h.filed_of_dropping hmem
    cases hplan with
    | remove hnone =>
      rw [filed_of_get_none hnone] at hfiled
      cases hfiled
    | move hne hq =>
      rw [filed_eq_ite hq, if_neg (Ne.symm hne)] at hfiled
      cases hfiled
  have hs := h.balance p k
  omega

/-- Every later section leaves the calls in order. -/
theorem pass (h : Serial parent s c answers) (htask : s.tasks[i]? = some ⟨answer, sec :: rest⟩) :
    Serial parent (s.pass parent i answer sec rest) c answers := by
  obtain ⟨others, hperm, hset⟩ := exists_perm_cons_set htask
  have hnew := hset ⟨(sec.run s.table answer).1, rest⟩
  have hdisjoint := ((hperm.pairwise_iff Task.Disjoint.symm).mp h.disjoint)
  obtain ⟨hplan, hgone, hresult⟩ := Plan.run answer
    (h.plans _ (List.mem_of_getElem? htask))
  have hdropping : s.dropping.Perm (sec.drops ++ (s.pass parent i answer sec rest).dropping) :=
    (Shared.pending_pass parent htask).flatMap_right Section.drops
  have hkeys : ∀ k, k ∈ sec.drops.map Prod.snd → k ∈ Task.keys ⟨answer, sec :: rest⟩ := by
    intro k hk
    apply List.mem_flatMap.mpr
    refine ⟨sec, List.mem_cons_self, ?_⟩
    cases sec with
    | indexAdd q k' => cases hk
    | indexRemove q k' => cases hk
    | removeRows q ks => simpa [Section.drops, Section.keys] using hk
  constructor
  · exact h.exact
  · exact h.conserved.pass htask
  · intro p k
    show s.missed p k + (if _ then 1 else 0) = 0
    rw [h.missed, if_neg]
    rintro ⟨rfl, hzero⟩
    exact Nat.ne_of_gt (h.entries_pos htask) hzero
  · intro p k
    show s.taken p k = s.dropped p k + (filed parent s.table.byKey p k -
      filed parent (sec.run s.table answer).2.byKey p k) + _
    rw [h.taken, hdropping.count_eq, List.count_append, hgone, Nat.add_assoc]
  · intro task hmem
    rcases List.mem_cons.mp (hnew.mem_iff.mp hmem) with rfl | hother
    · exact hplan
    · apply (h.plans task (hperm.mem_iff.mpr (List.mem_cons_of_mem _ hother))).congr
      intro k hk
      show (sec.run s.table answer).2.byKey.get k = _
      rw [Section.get_run, if_neg]
      exact fun hdrop => (List.pairwise_cons.mp hdisjoint).1 task hother k (hkeys k hdrop) hk
  · apply (hnew.pairwise_iff Task.Disjoint.symm).mpr
    obtain ⟨hfirst, hrest⟩ := List.pairwise_cons.mp hdisjoint
    refine List.pairwise_cons.mpr ⟨fun u hu k hk => hfirst u hu k ?_, hrest⟩
    exact List.mem_append_right _ hk
  · intro k
    show _ = if _ then none else (sec.run s.table answer).2.byKey.get k
    rw [h.rows k, Section.get_run]
    have hmem : k ∈ s.dropping.map Prod.snd ↔ k ∈ sec.drops.map Prod.snd ∨
        k ∈ (s.pass parent i answer sec rest).dropping.map Prod.snd := by
      rw [(hdropping.map Prod.snd).mem_iff, List.map_append, List.mem_append]
    simp only [hmem]
    split_ifs <;> tauto
  · show (s.tasks.set i _).map Task.result = answers
    have hget : (s.tasks.map Task.result)[i]? = some (Task.result ⟨answer, sec :: rest⟩) := by
      rw [List.getElem?_map, htask]
      rfl
    obtain ⟨hlt, hsame⟩ := List.getElem?_eq_some_iff.mp hget
    rw [List.map_set, hresult, ← h.answers, ← hsame, List.set_getElem_self]

theorem next (h : Serial parent s c answers) (i : ℕ) :
    Serial parent (s.step (.next i : Act key parent)) c answers := by
  unfold Shared.step
  dsimp only
  split
  · next htask => exact h.pass htask
  · exact h

/-- So the calls of a whole run are in order. -/
theorem run (h : Serial parent s c answers) {acts : List (Act key parent)} (hg : s.Guarded acts) :
    Serial parent (s.run acts) (runAll c (Act.calls acts)).2
      (answers ++ (runAll c (Act.calls acts)).1) := by
  induction acts generalizing s c answers with
  | nil =>
    rw [Act.calls, runAll, List.append_nil]
    exact h
  | cons act acts ih =>
    cases act with
    | start ch =>
      have hrun := ih (h.start hg.1) hg.2
      rw [List.append_assoc] at hrun
      exact hrun
    | next i => exact ih (h.next i) hg

/-! ### When all calls have returned -/

variable (h : Serial parent s c answers) (hidle : s.Idle)
include h hidle

theorem get_eq : s.table.byKey.get = c.byKey.get := by
  funext k
  rw [h.rows k, Shared.dropping, hidle.pending_eq]
  rfl

/-- Every bucket has the keys that it has after the calls one after another. -/
theorem bucket_perm (p : P) : (bucket s.table.byParent p).Perm (bucket c.byParent p) := by
  rw [List.perm_iff_count]
  intro k
  have hs := h.balance p k
  rw [Shared.dropping, hidle.pending_eq] at hs
  have hc := h.exact.entries_eq p k
  rw [filed_congr (congrFun (h.get_eq hidle) k).symm] at hc
  exact hs.trans hc.symm

theorem listed_perm (p : P) : ((bucket s.table.byParent p).filterMap s.table.byKey.get).Perm
    ((bucket c.byParent p).filterMap c.byKey.get) := by
  rw [h.get_eq hidle]
  exact (h.bucket_perm hidle p).filterMap _

/-- Every listing in the order of ranks is the same. -/
theorem list_eq {α : Type} [LinearOrder α] {rank : V → α}
    (hrank : ∀ a b, rank a = rank b → key a = key b) (p : P) :
    s.table.list rank p = c.list rank p := by
  have hperm := h.exact.files.filterMap_get_perm (h.exact.valid.nodup p) fun _ => Iff.rfl
  have hlisted := h.listed_perm hidle p
  have hsorted := pairwise_lt_insertionSort hrank (hlisted.trans hperm)
  refine List.Perm.eq_of_pairwise (fun a b _ _ hab hba => absurd hba (lt_asymm hab)) hsorted
    (h.exact.list_sorted hrank p) ?_
  exact ((List.perm_insertionSort _ _).trans hlisted).trans (List.perm_insertionSort _ _).symm

theorem answers_eq : s.tasks.map Task.answer = answers := by
  rw [← h.answers]
  apply List.map_congr_left
  intro task htask
  rw [Task.result, hidle task htask]

end Serial

end Contexide.Storage.ChildTable
