import Contexide.Text.Patterns
import Mathlib.Data.List.DropRight

/-! Lists as kept elements with gaps between them. Splitting a list into its kept elements
and the gaps after them is inverse to writing them out, so a rewriting of the gaps is
known from the gaps it writes. -/

namespace Contexide.Text

variable {α : Type}

/-- The gap before the first kept element, and the kept elements with the gaps after
them. -/
@[ext] structure Gapped (α : Type) where
  lead : List α
  items : List (α × List α)

/-- The elements and gaps written out. -/
def spell (items : List (α × List α)) : List α := items.flatMap fun i => i.1 :: i.2

@[simp] theorem spell_nil : spell ([] : List (α × List α)) = [] := rfl

@[simp] theorem spell_cons (i : α × List α) (items : List (α × List α)) :
    spell (i :: items) = i.1 :: i.2 ++ spell items := rfl

@[simp] theorem spell_append (items items' : List (α × List α)) :
    spell (items ++ items') = spell items ++ spell items' := List.flatMap_append

theorem rtakeWhile_append_of_pos {p : α → Bool} {a g : List α} (hg : ∀ c ∈ g, p c = true) :
    (a ++ g).rtakeWhile p = a.rtakeWhile p ++ g := by
  induction g using List.reverseRecOn with
  | nil => rw [List.append_nil, List.append_nil]
  | append_singleton g c ih =>
    rw [← List.append_assoc, List.rtakeWhile_concat_pos _ _ _ (hg c (by simp)),
      ih fun d hd => hg d (List.mem_append_left _ hd), List.append_assoc]

namespace Gapped

def toList (p : Gapped α) : List α := p.lead ++ spell p.items

/-- Split a list at the elements that are kept. -/
def split (kept : α → Bool) : List α → Gapped α
  | [] => ⟨[], []⟩
  | c :: s =>
    if kept c then ⟨[], (c, (split kept s).lead) :: (split kept s).items⟩
    else ⟨c :: (split kept s).lead, (split kept s).items⟩

/-- The elements are kept and those of the gaps are not. -/
structure Valid (kept : α → Bool) (p : Gapped α) : Prop where
  lead : ∀ c ∈ p.lead, kept c = false
  items : ∀ i ∈ p.items, kept i.1 = true ∧ ∀ c ∈ i.2, kept c = false

variable {kept : α → Bool}

@[simp] theorem toList_split (s : List α) : (split kept s).toList = s := by
  induction s with
  | nil => rfl
  | cons c s ih =>
    rw [toList] at ih
    rw [split]
    split
    · exact congrArg (c :: ·) ih
    · exact congrArg (c :: ·) ih

theorem valid_split (s : List α) : (split kept s).Valid kept := by
  induction s with
  | nil => exact ⟨by simp [split], by simp [split]⟩
  | cons c s ih =>
    rw [split]
    split
    · next hc =>
      refine ⟨by simp, fun i hi => ?_⟩
      rcases List.mem_cons.mp hi with rfl | hi
      · exact ⟨hc, ih.lead⟩
      · exact ih.items i hi
    · next hc =>
      refine ⟨fun d hd => ?_, ih.items⟩
      rcases List.mem_cons.mp hd with rfl | hd
      · exact Bool.eq_false_iff.mpr hc
      · exact ih.lead d hd

/-- Elements that are not kept join the gap before them. -/
theorem split_append_of_gap {g : List α} (hg : ∀ c ∈ g, kept c = false) (s : List α) :
    split kept (g ++ s) = ⟨g ++ (split kept s).lead, (split kept s).items⟩ := by
  induction g with
  | nil => rfl
  | cons c g ih =>
    rw [List.cons_append, split, if_neg (by simp [hg c List.mem_cons_self]),
      ih fun d hd => hg d (List.mem_cons_of_mem _ hd)]
    rfl

/-- Splitting what was written out. -/
theorem split_toList {p : Gapped α} (h : p.Valid kept) : split kept p.toList = p := by
  have hitems : ∀ items : List (α × List α),
      (∀ i ∈ items, kept i.1 = true ∧ ∀ c ∈ i.2, kept c = false) →
      split kept (spell items) = ⟨[], items⟩ := by
    intro items hi
    induction items with
    | nil => rfl
    | cons i items ih =>
      obtain ⟨hkey, hgap⟩ := hi i List.mem_cons_self
      rw [spell_cons, List.cons_append, split, if_pos hkey, split_append_of_gap hgap,
        ih fun j hj => hi j (List.mem_cons_of_mem _ hj), List.append_nil]
  rw [toList, split_append_of_gap h.lead, hitems p.items h.items, List.append_nil]

/-- The kept elements are those of the items. -/
theorem Valid.filter_toList {p : Gapped α} (h : p.Valid kept) :
    p.toList.filter kept = p.items.map Prod.fst := by
  have hgap : ∀ g : List α, (∀ c ∈ g, kept c = false) → g.filter kept = [] := by
    intro g hg
    exact List.filter_eq_nil_iff.mpr fun c hc => by simp [hg c hc]
  have hitems : ∀ items : List (α × List α),
      (∀ i ∈ items, kept i.1 = true ∧ ∀ c ∈ i.2, kept c = false) →
      (spell items).filter kept = items.map Prod.fst := by
    intro items hi
    induction items with
    | nil => rfl
    | cons i items ih =>
      obtain ⟨hkey, hrest⟩ := hi i List.mem_cons_self
      rw [spell_cons, List.filter_append, List.filter_cons_of_pos hkey, hgap i.2 hrest,
        ih fun j hj => hi j (List.mem_cons_of_mem _ hj)]
      rfl
  rw [toList, List.filter_append, hgap p.lead h.lead, hitems p.items h.items, List.nil_append]

theorem Valid.toList_inj {p q : Gapped α} (hp : p.Valid kept) (hq : q.Valid kept) :
    p.toList = q.toList ↔ p = q := by
  refine ⟨fun h => ?_, congrArg toList⟩
  rw [← split_toList hp, h, split_toList hq]

/-- Joining two lists joins the gaps there. -/
theorem split_append {a : List α} {items : List (α × List α)} {k : α} {u : List α}
    (ha : (split kept a).items = items ++ [(k, u)]) (b : List α) :
    split kept (a ++ b) =
      ⟨(split kept a).lead, items ++ (k, u ++ (split kept b).lead) :: (split kept b).items⟩ := by
  have hva := @valid_split _ kept a
  have hvb := @valid_split _ kept b
  have hlast : kept k = true ∧ ∀ d ∈ u, kept d = false := hva.items (k, u) (by simp [ha])
  have hvalid : Valid kept
      ⟨(split kept a).lead, items ++ (k, u ++ (split kept b).lead) :: (split kept b).items⟩ := by
    refine ⟨hva.lead, fun i hi => ?_⟩
    rcases List.mem_append.mp hi with hi | hi
    · exact hva.items i (ha ▸ List.mem_append_left _ hi)
    · rcases List.mem_cons.mp hi with rfl | hi
      · refine ⟨hlast.1, fun d hd => ?_⟩
        rcases List.mem_append.mp hd with hd | hd
        · exact hlast.2 d hd
        · exact hvb.lead d hd
      · exact hvb.items i hi
  rw [← split_toList hvalid]
  congr 1
  conv_lhs => rw [← @toList_split _ kept a, ← @toList_split _ kept b]
  simp [toList, ha]

/-- Joining two lists at an element that is not kept joins the gaps there. -/
theorem split_append_cons {a : List α} {items : List (α × List α)} {k : α} {u : List α}
    (ha : (split kept a).items = items ++ [(k, u)]) {c : α} (hc : kept c = false) (b : List α) :
    split kept (a ++ c :: b) =
      ⟨(split kept a).lead,
        items ++ (k, u ++ c :: (split kept b).lead) :: (split kept b).items⟩ := by
  rw [split_append ha, split, if_neg (by simp [hc])]

theorem lead_split (s : List α) : (split kept s).lead = s.takeWhile fun c => !kept c := by
  induction s with
  | nil => rfl
  | cons c s ih =>
    rw [split]
    cases hc : kept c with
    | true => rw [if_pos rfl, List.takeWhile_cons_of_neg (by simp [hc])]
    | false => rw [if_neg Bool.false_ne_true, List.takeWhile_cons_of_pos (by simp [hc]), ih]

/-- The items with what stands after the last one. -/
theorem exists_items_concat {s : List α} (h : ∃ c ∈ s, kept c = true) :
    ∃ items k, (split kept s).items = items ++ [(k, s.rtakeWhile fun c => !kept c)] := by
  have hvalid := @valid_split _ kept s
  have hs := @toList_split _ kept s
  rcases (split kept s).items.eq_nil_or_concat' with hnil | ⟨items, ⟨k, u⟩, hitems⟩
  · obtain ⟨c, hc, hkept⟩ := h
    rw [toList, hnil, spell_nil, List.append_nil] at hs
    exact absurd hkept (by simp [hvalid.lead c (hs.symm ▸ hc)])
  · obtain ⟨hk, hu⟩ := hvalid.items (k, u) (by simp [hitems])
    refine ⟨items, k, ?_⟩
    have hsplit : s = (((split kept s).lead ++ spell items) ++ [k]) ++ u := by
      conv_lhs => rw [← hs, toList, hitems]
      simp
    have hlast : s.rtakeWhile (fun c => !kept c) = u := by
      have hk' : ¬ (fun c => !kept c) k = true := by simpa using hk
      rw [hsplit, rtakeWhile_append_of_pos fun d hd => by simp [hu d hd],
        List.rtakeWhile_concat_neg (fun c => !kept c) _ _ hk', List.nil_append]
    rw [hlast, hitems]

end Gapped

/-- Elements that are not kept stand together in a gap only. -/
theorem infix_spell {kept : α → Bool} {w lead : List α} {items : List (α × List α)}
    (hw : ∀ c ∈ w, kept c = false) (hkept : ∀ i ∈ items, kept i.1 = true)
    (h : w <:+: lead ++ spell items) : w <:+: lead ∨ ∃ i ∈ items, w <:+: i.2 := by
  induction items generalizing lead with
  | nil => exact .inl (by simpa using h)
  | cons i items ih =>
    have hkey := hkept i List.mem_cons_self
    have hnot : i.1 ∉ w := fun hmem => absurd hkey (by simp [hw i.1 hmem])
    rw [spell_cons, List.cons_append] at h
    rcases infix_or_infix_of_append_cons hnot h with hlead | hrest
    · exact .inl hlead
    · rcases ih (fun j hj => hkept j (List.mem_cons_of_mem _ hj)) hrest with hgap | ⟨j, hj, hgap⟩
      · exact .inr ⟨i, List.mem_cons_self, hgap⟩
      · exact .inr ⟨j, List.mem_cons_of_mem _ hj, hgap⟩

/-! ### Rewriting the gaps -/

/-- Rewrite the last gap by `h` and the others by `f`. -/
def mapGaps (f h : List α → List α) (items : List (α × List α)) : List (α × List α) :=
  (items.dropLast.map fun i => (i.1, f i.2)) ++ items.getLast?.toList.map fun i => (i.1, h i.2)

section MapGaps

variable {f h f' h' : List α → List α} {items : List (α × List α)}

@[simp] theorem mapGaps_nil : mapGaps f h [] = [] := rfl

@[simp] theorem mapGaps_concat (items : List (α × List α)) (i : α × List α) :
    mapGaps f h (items ++ [i]) = (items.map fun i => (i.1, f i.2)) ++ [(i.1, h i.2)] := by
  simp [mapGaps]

@[simp] theorem mapGaps_singleton (i : α × List α) : mapGaps f h [i] = [(i.1, h i.2)] := rfl

@[simp] theorem mapGaps_cons_cons (i j : α × List α) (items : List (α × List α)) :
    mapGaps f h (i :: j :: items) = (i.1, f i.2) :: mapGaps f h (j :: items) := rfl

theorem mapGaps_append {items' : List (α × List α)} (hne : items' ≠ []) :
    mapGaps f h (items ++ items') = (items.map fun i => (i.1, f i.2)) ++ mapGaps f h items' := by
  rcases items'.eq_nil_or_concat' with rfl | ⟨items', i, rfl⟩
  · exact absurd rfl hne
  · rw [← List.append_assoc, mapGaps_concat, mapGaps_concat, List.map_append, List.append_assoc]

theorem mapGaps_mapGaps : mapGaps f' h' (mapGaps f h items) = mapGaps (f' ∘ f) (h' ∘ h) items := by
  rcases items.eq_nil_or_concat' with rfl | ⟨items, i, rfl⟩
  · rfl
  · rw [mapGaps_concat, mapGaps_concat, mapGaps_concat, List.map_map]
    rfl

theorem mapGaps_map : mapGaps f h (items.map fun i => (i.1, f' i.2)) =
    mapGaps (f ∘ f') (h ∘ f') items := by
  rcases items.eq_nil_or_concat' with rfl | ⟨items, i, rfl⟩
  · rfl
  · rw [List.map_append, List.map_singleton, mapGaps_concat, mapGaps_concat, List.map_map]
    rfl

theorem mapGaps_keys : (mapGaps f h items).map Prod.fst = items.map Prod.fst := by
  rcases items.eq_nil_or_concat' with rfl | ⟨items, i, rfl⟩
  · rfl
  · rw [mapGaps_concat]
    simp

/-- Two rewritings agree when they do on the gaps before the last one and on the last. -/
theorem mapGaps_eq_iff : mapGaps f h items = mapGaps f' h items ↔
    ∀ i ∈ items.dropLast, f i.2 = f' i.2 := by
  rcases items.eq_nil_or_concat' with rfl | ⟨items, i, rfl⟩
  · simp
  · rw [mapGaps_concat, mapGaps_concat, List.append_left_inj, List.dropLast_concat,
      List.map_inj_left]
    refine forall₂_congr fun i _ => ?_
    rw [Prod.mk.injEq, and_iff_right rfl]

theorem mem_mapGaps {j : α × List α} (hj : j ∈ mapGaps f h items) :
    ∃ i ∈ items, j.1 = i.1 ∧ (j.2 = f i.2 ∨ j.2 = h i.2) := by
  rcases List.mem_append.mp hj with hj | hj
  · obtain ⟨i, hi, rfl⟩ := List.mem_map.mp hj
    exact ⟨i, List.dropLast_subset _ hi, rfl, .inl rfl⟩
  · obtain ⟨i, hi, rfl⟩ := List.mem_map.mp hj
    rw [Option.mem_toList] at hi
    exact ⟨i, List.mem_of_getLast? hi, rfl, .inr rfl⟩

end MapGaps

/-! ### Trimming -/

/-- The elements between the first and the last that do not satisfy a condition. -/
def strip (p : α → Bool) (items : List (α × List α)) : List (α × List α) :=
  (items.dropWhile fun i => p i.1).rdropWhile fun i => p i.1

section Strip

variable {p : α → Bool} {items : List (α × List α)}

theorem dropWhile_spell (hgaps : ∀ i ∈ items, ∀ c ∈ i.2, p c = true) :
    (spell items).dropWhile p = spell (items.dropWhile fun i => p i.1) := by
  induction items with
  | nil => rfl
  | cons i items ih =>
    rw [List.dropWhile_cons]
    split
    · next hkey =>
      rw [← ih fun j hj => hgaps j (List.mem_cons_of_mem _ hj), spell_cons, List.cons_append,
        List.dropWhile_cons_of_pos hkey]
      exact List.dropWhile_append_of_pos (hgaps i List.mem_cons_self)
    · next hkey => rw [spell_cons, List.cons_append, List.dropWhile_cons_of_neg hkey]

theorem rdropWhile_append_of_pos {a g : List α} (hg : ∀ c ∈ g, p c = true) :
    (a ++ g).rdropWhile p = a.rdropWhile p := by
  induction g using List.reverseRecOn with
  | nil => rw [List.append_nil]
  | append_singleton g c ih =>
    rw [← List.append_assoc, List.rdropWhile_concat_pos _ _ _ (hg c (by simp)),
      ih fun d hd => hg d (List.mem_append_left _ hd)]

/-- The gap after the last element goes with what is dropped at the end. -/
theorem rdropWhile_spell (hgaps : ∀ i ∈ items, ∀ c ∈ i.2, p c = true) :
    (spell items).rdropWhile p =
      spell (mapGaps id (fun _ => []) (items.rdropWhile fun i => p i.1)) := by
  induction items using List.reverseRecOn with
  | nil => rfl
  | append_singleton items i ih =>
    have hrest := ih fun j hj => hgaps j (List.mem_append_left _ hj)
    have hlast : spell [i] = [i.1] ++ i.2 := by simp
    rw [spell_append, hlast, ← List.append_assoc, rdropWhile_append_of_pos (hgaps i (by simp))]
    rw [List.rdropWhile_concat, List.rdropWhile_concat]
    split
    · exact hrest
    · rw [mapGaps_concat, spell_append]
      simp

/-- Trimming drops the lead and the last gap, and the elements that satisfy the condition
at both ends. -/
theorem trim_toList {q : Gapped α} (hlead : ∀ c ∈ q.lead, p c = true)
    (hgaps : ∀ i ∈ q.items, ∀ c ∈ i.2, p c = true) :
    (q.toList.dropWhile p).rdropWhile p = spell (mapGaps id (fun _ => []) (strip p q.items)) := by
  rw [Gapped.toList, List.dropWhile_append_of_pos hlead, dropWhile_spell hgaps,
    rdropWhile_spell fun i hi => hgaps i ((List.dropWhile_sublist _).subset hi), strip]

theorem trim_append_of_pos {a g : List α} (hg : ∀ c ∈ g, p c = true) :
    ((a ++ g).dropWhile p).rdropWhile p = (a.dropWhile p).rdropWhile p := by
  rw [List.dropWhile_append]
  split
  · next hempty =>
    rw [List.isEmpty_iff.mp hempty, List.dropWhile_eq_nil_iff.mpr hg]
  · exact rdropWhile_append_of_pos hg

/-- Dropping elements does not look at the gaps. -/
theorem strip_map (f : List α → List α) :
    strip p (items.map fun i => (i.1, f i.2)) = (strip p items).map fun i => (i.1, f i.2) := by
  have hr : ∀ l : List (α × List α), (l.map fun i => (i.1, f i.2)).rdropWhile (fun i => p i.1) =
      (l.rdropWhile fun i => p i.1).map fun i => (i.1, f i.2) := by
    intro l
    induction l using List.reverseRecOn with
    | nil => rfl
    | append_singleton l i ih =>
      rw [List.map_append, List.map_singleton, List.rdropWhile_concat, List.rdropWhile_concat]
      split
      · exact ih
      · rw [List.map_append, List.map_singleton]
  rw [strip, strip, List.dropWhile_map, hr]
  rfl

/-- Stripping cuts off both ends, up to elements that do not satisfy the condition. -/
theorem exists_strip (p : α → Bool) (items : List (α × List α)) :
    ∃ before after, items = before ++ strip p items ++ after ∧
      (∀ i, (strip p items).head? = some i → p i.1 = false) ∧
      ∀ i, (strip p items).getLast? = some i → p i.1 = false := by
  obtain ⟨after, hafter⟩ := List.rdropWhile_prefix (fun i : α × List α => p i.1)
    (items.dropWhile fun i => p i.1)
  refine ⟨items.takeWhile fun i => p i.1, after, ?_, ?_, ?_⟩
  · rw [List.append_assoc, strip, hafter, List.takeWhile_append_dropWhile]
  · intro i hi
    obtain ⟨rest, hrest⟩ := List.head?_eq_some_iff.mp hi
    have hdrop : (items.dropWhile fun i => p i.1).head? = some i := by
      rw [← hafter, ← strip, hrest]
      rfl
    have hnot := List.head?_dropWhile_not (fun i => p i.1) items
    rwa [hdrop] at hnot
  · intro i hi
    obtain ⟨hne, rfl⟩ := List.mem_getLast?_eq_getLast hi
    exact Bool.eq_false_iff.mpr (List.rdropWhile_last_not _ _ hne)

/-- An element between two that do not satisfy the condition, itself perhaps the first of
them, stays. -/
theorem strip_append_cons {before after : List (α × List α)} {x : α × List α}
    (hbefore : ∃ i ∈ before ++ [x], p i.1 = false) (hafter : ∃ j ∈ after, p j.1 = false) :
    ∃ before' after', strip p (before ++ x :: after) = before' ++ x :: after' ∧ after' ≠ [] := by
  obtain ⟨i, hi, hpi⟩ := hbefore
  obtain ⟨j, hj, hpj⟩ := hafter
  have hleft : ∃ before', ((before ++ x :: after).dropWhile fun i => p i.1) =
      before' ++ x :: after := by
    rw [List.dropWhile_append]
    split
    · next hempty =>
      have hall := List.dropWhile_eq_nil_iff.mp (List.isEmpty_iff.mp hempty)
      have hx : p x.1 = false := by
        rcases List.mem_append.mp hi with hi | hi
        · exact absurd (hall i hi) (by simp [hpi])
        · exact List.mem_singleton.mp hi ▸ hpi
      exact ⟨[], List.dropWhile_cons_of_neg (by simp [hx])⟩
    · exact ⟨_, rfl⟩
  obtain ⟨before', hleft⟩ := hleft
  have hright : ∀ l : List (α × List α), (l ++ after).rdropWhile (fun i => p i.1) =
      l ++ after.rdropWhile fun i => p i.1 := by
    intro l
    rw [List.rdropWhile, List.reverse_append, List.dropWhile_append, if_neg]
    · rw [List.reverse_append, List.reverse_reverse, List.rdropWhile]
    · rw [List.isEmpty_iff, List.dropWhile_eq_nil_iff]
      intro hall
      exact absurd (hall j (List.mem_reverse.mpr hj)) (by simp [hpj])
  refine ⟨before', after.rdropWhile fun i => p i.1, ?_, fun hnil => ?_⟩
  · rw [strip, hleft, List.append_cons, hright]
    simp
  · exact absurd (List.rdropWhile_eq_nil_iff.mp hnil j hj) (by simp [hpj])

/-- The elements that stay with one after them, found in the list that is stripped. -/
theorem mem_dropLast_strip {x : α × List α} :
    x ∈ (strip p items).dropLast ↔ ∃ before after, items = before ++ x :: after ∧
      (∃ i ∈ before ++ [x], p i.1 = false) ∧ ∃ j ∈ after, p j.1 = false := by
  constructor
  · intro hx
    obtain ⟨before, after, hitems, hhead, hlast⟩ := exists_strip p items
    rcases (strip p items).eq_nil_or_concat' with hnil | ⟨stripped, last, hstrip⟩
    · rw [hnil] at hx
      exact absurd hx List.not_mem_nil
    rw [hstrip, List.dropLast_concat] at hx
    obtain ⟨left, right, rfl⟩ := List.append_of_mem hx
    rw [hstrip] at hitems hhead hlast
    refine ⟨before ++ left, right ++ [last] ++ after, ?_, ?_, last, by simp,
      hlast last List.getLast?_concat⟩
    · rw [hitems]
      simp
    · refine ⟨(left ++ [x]).head (by simp), ?_, hhead _ ?_⟩
      · rw [List.append_assoc]
        exact List.mem_append_right _ (List.head_mem _)
      · cases left <;> simp
  · rintro ⟨before, after, rfl, hbefore, hafter⟩
    obtain ⟨before', after', hstrip, hne⟩ := strip_append_cons hbefore hafter
    rw [hstrip, List.dropLast_append_of_ne_nil (by simp), List.dropLast_cons_of_ne_nil hne]
    simp

theorem strip_subset : strip p items ⊆ items := by
  obtain ⟨before, after, hitems, -⟩ := exists_strip p items
  intro i hi
  rw [hitems]
  exact List.mem_append_left _ (List.mem_append_right _ hi)

theorem strip_of_ends (hhead : ∀ i, items.head? = some i → p i.1 = false)
    (hlast : ∀ i, items.getLast? = some i → p i.1 = false) : strip p items = items := by
  have hdrop : (items.dropWhile fun i => p i.1) = items := by
    cases items with
    | nil => rfl
    | cons i items => exact List.dropWhile_cons_of_neg (by simp [hhead i rfl])
  rw [strip, hdrop, List.rdropWhile_eq_self_iff]
  intro hne
  rw [hlast _ (List.getLast?_eq_some_getLast hne)]
  decide

/-- Stripped items stay stripped when their gaps are rewritten. -/
theorem strip_mapGaps_strip (f h : List α → List α) :
    strip p (mapGaps f h (strip p items)) = mapGaps f h (strip p items) := by
  obtain ⟨-, -, -, hhead, hlast⟩ := exists_strip p items
  refine strip_of_ends (fun j hj => ?_) fun j hj => ?_
  · have hkeys := congrArg List.head? (@mapGaps_keys _ f h (strip p items))
    rw [List.head?_map, List.head?_map, hj, Option.map_some, eq_comm,
      Option.map_eq_some_iff] at hkeys
    obtain ⟨i, hi, hkey⟩ := hkeys
    exact hkey ▸ hhead i hi
  · have hkeys := congrArg List.getLast? (@mapGaps_keys _ f h (strip p items))
    rw [List.getLast?_map, List.getLast?_map, hj, Option.map_some, eq_comm,
      Option.map_eq_some_iff] at hkeys
    obtain ⟨i, hi, hkey⟩ := hkeys
    exact hkey ▸ hlast i hi

/-- Trimming a list whose gaps were rewritten. -/
theorem trim_mapGaps {f h : List α → List α} {lead : List α} (hlead : ∀ c ∈ lead, p c = true)
    (hf : ∀ i ∈ items, ∀ c ∈ f i.2, p c = true) (hh : ∀ i ∈ items, ∀ c ∈ h i.2, p c = true) :
    ((lead ++ spell (mapGaps f h items)).dropWhile p).rdropWhile p =
      spell (mapGaps f (fun _ => []) (strip p items)) := by
  have hall : ((lead ++ spell (items.map fun i => (i.1, f i.2))).dropWhile p).rdropWhile p =
      spell (mapGaps f (fun _ => []) (strip p items)) := by
    have hgaps : ∀ i ∈ items.map (fun i => (i.1, f i.2)), ∀ c ∈ i.2, p c = true := by
      intro j hj
      obtain ⟨i, hi, rfl⟩ := List.mem_map.mp hj
      exact hf i hi
    have htrim := trim_toList (q := ⟨lead, items.map fun i => (i.1, f i.2)⟩) hlead hgaps
    rw [strip_map, mapGaps_map] at htrim
    exact htrim
  rw [← hall]
  rcases items.eq_nil_or_concat' with rfl | ⟨items, i, rfl⟩
  · rfl
  · -- the last gap is trimmed whatever it is
    have hi : i ∈ items ++ [i] := List.mem_append_right _ List.mem_cons_self
    have hspell : ∀ g : List α, lead ++ spell ((items.map fun i => (i.1, f i.2)) ++ [(i.1, g)]) =
        (lead ++ spell (items.map fun i => (i.1, f i.2)) ++ [i.1]) ++ g := by
      intro g
      simp
    rw [mapGaps_concat, List.map_append, List.map_singleton, hspell, hspell,
      trim_append_of_pos (hf i hi), trim_append_of_pos (hh i hi)]

end Strip

end Contexide.Text
