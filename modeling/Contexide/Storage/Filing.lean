import Contexide.Storage.Table
import Mathlib.Data.List.Perm.Basic
import Mathlib.Data.List.Sort

/-! Keys filed under an attribute of their rows, whatever holds the files: what a
save, a move and a removal do to a filing that is exact, and what a listing from
one file has. -/

namespace Contexide.Storage

variable {K P V : Type} {key : V → K} {attr : V → P} {t : Table key}

/-- Every key is filed under the attribute of its row, and under nothing else. -/
def Files (attr : V → P) (t : Table key) (filed : P → K → Prop) : Prop :=
  ∀ p k, filed p k ↔ ∃ v ∈ t, key v = k ∧ attr v = p

namespace Files

variable {filed : P → K → Prop} {u v : V}

theorem attr_eq (h : Files attr t filed) (hv : v ∈ t) {p : P} :
    filed p (key v) ↔ p = attr v := by
  rw [h p]
  constructor
  · rintro ⟨u, hu, hk, rfl⟩
    rw [Table.eq_of_key hu hv hk]
  · rintro rfl
    exact ⟨v, hv, rfl, rfl⟩

variable [DecidableEq K]

/-- After a save the key of the row is filed under its attribute only. -/
theorem save (h : Files attr t filed) (v : V) :
    Files attr (t.save v) fun p k => p = attr v ∧ k = key v ∨ filed p k ∧ k ≠ key v := by
  intro p k
  dsimp only
  rw [h p]
  constructor
  · rintro (⟨rfl, rfl⟩ | ⟨⟨u, hu, rfl, rfl⟩, hne⟩)
    · exact ⟨v, Table.mem_save_self t v, rfl, rfl⟩
    · exact ⟨u, Table.mem_save_of_ne hu hne, rfl, rfl⟩
  · rintro ⟨u, hu, rfl, rfl⟩
    rcases Table.mem_save.mp hu with rfl | ⟨hu, hne⟩
    · exact .inl ⟨rfl, rfl⟩
    · exact .inr ⟨⟨u, hu, rfl, rfl⟩, hne⟩

theorem save_new (h : Files attr t filed) (hv : ¬ t.Has (key v)) :
    Files attr (t.save v) fun p k => p = attr v ∧ k = key v ∨ filed p k := by
  intro p k
  rw [← h.save v p]
  apply or_congr_right
  refine (and_iff_left_of_imp fun hk hkey => hv ?_).symm
  obtain ⟨u, hu, hku, -⟩ := (h p k).mp hk
  exact ⟨u, hu, hku.trans hkey⟩

theorem save_same (h : Files attr t filed) (hu : u ∈ t) (hk : key u = key v)
    (hattr : attr u = attr v) : Files attr (t.save v) filed := by
  intro p k
  rw [← h.save v p]
  by_cases hkey : k = key v
  · subst hkey
    rw [← hk, h.attr_eq hu, hattr]
    simp
  · simp [hkey]

/-- The key moves to the attribute of the new row, which may be the old one. -/
theorem save_move (h : Files attr t filed) (hu : u ∈ t) (hk : key u = key v) :
    Files attr (t.save v) fun p k =>
      p = attr v ∧ k = key v ∨ filed p k ∧ ¬ (p = attr u ∧ k = key v) := by
  intro p k
  rw [← h.save v p]
  apply or_congr_right
  apply and_congr_right
  intro hmem
  by_cases hkey : k = key v
  · subst hkey
    have hp : p = attr u := (h.attr_eq hu).mp (hk ▸ hmem)
    simp [hp]
  · simp [hkey]

theorem remove (h : Files attr t filed) (hu : u ∈ t) :
    Files attr (t.remove (key u)) fun p k => filed p k ∧ ¬ (p = attr u ∧ k = key u) := by
  intro p k
  dsimp only
  rw [h p]
  constructor
  · rintro ⟨⟨v, hv, rfl, rfl⟩, hne⟩
    refine ⟨v, Table.mem_remove.mpr ⟨hv, fun hk => hne ?_⟩, rfl, rfl⟩
    exact ⟨congrArg attr (Table.eq_of_key hv hu hk), hk⟩
  · rintro ⟨v, hv, rfl, rfl⟩
    obtain ⟨hv, hne⟩ := Table.mem_remove.mp hv
    exact ⟨⟨v, hv, rfl, rfl⟩, fun hk => hne hk.2⟩

/-! ### Listings -/

omit [DecidableEq K] in
theorem keys_perm [DecidableEq P] (h : Files attr t filed) {p : P} {ks : List K} (hn : ks.Nodup)
    (hks : ∀ k, k ∈ ks ↔ filed p k) :
    ks.Perm ((t.rows.filter fun v => attr v = p).map key) := by
  rw [List.perm_ext_iff_of_nodup hn ((List.filter_sublist.map key).nodup t.nodup)]
  intro k
  rw [hks, h p, List.mem_map]
  apply exists_congr
  intro v
  rw [List.mem_filter, decide_eq_true_iff, Table.mem_def]
  tauto

/-- The rows read from one file are those with its attribute, each once. -/
theorem filterMap_get_perm [DecidableEq P] (h : Files attr t filed) {p : P} {ks : List K}
    (hn : ks.Nodup) (hks : ∀ k, k ∈ ks ↔ filed p k) :
    (ks.filterMap t.get).Perm (t.rows.filter fun v => attr v = p) := by
  apply ((h.keys_perm hn hks).filterMap _).trans
  have hget : ∀ v ∈ t.rows.filter fun v => attr v = p, (t.get ∘ key) v = some v :=
    fun v hv => Table.get_of_mem (List.mem_filter.mp hv).1
  rw [List.filterMap_map, List.filterMap_congr hget, List.filterMap_some]

end Files

/-- Elements of different ranks, sorted by rank. -/
theorem insertionSort_pairwise_lt {α : Type} [LinearOrder α] (rank : V → α) {vs : List V}
    (hn : vs.Nodup) (hrank : ∀ a ∈ vs, ∀ b ∈ vs, rank a = rank b → a = b) :
    (vs.insertionSort fun a b => rank a ≤ rank b).Pairwise fun a b => rank a < rank b := by
  have hperm := List.perm_insertionSort (fun a b => rank a ≤ rank b) vs
  have hle := List.pairwise_insertionSort (fun a b => rank a ≤ rank b) vs
  apply (hle.and (hperm.nodup_iff.mpr hn)).imp_of_mem
  intro a b ha hb hab
  apply lt_of_le_of_ne hab.1
  exact fun heq => hab.2 (hrank a (hperm.subset ha) b (hperm.subset hb) heq)

/-- A listing is in the order of the ranks, when no two rows have the same. -/
theorem pairwise_lt_insertionSort {α : Type} [LinearOrder α] {rank : V → α}
    (hrank : ∀ a b, rank a = rank b → key a = key b) {q : V → Bool} {vs : List V}
    (h : vs.Perm (t.rows.filter q)) :
    (vs.insertionSort fun a b => rank a ≤ rank b).Pairwise fun a b => rank a < rank b := by
  have hmem : ∀ v ∈ vs, v ∈ t := fun v hv => (List.mem_filter.mp (h.subset hv)).1
  apply insertionSort_pairwise_lt rank (h.nodup_iff.mpr ((List.Nodup.of_map key t.nodup).filter q))
  exact fun a ha b hb heq => Table.eq_of_key (hmem a ha) (hmem b hb) (hrank a b heq)

end Contexide.Storage
