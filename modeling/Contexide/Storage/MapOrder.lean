import Contexide.Storage.Filing

/-! Maps as the list of their entries, in one of two orders: a tree map keeps its
keys sorted, an index map keeps them as they were first inserted. Both only
append when the keys arrive in increasing order, so a map filled that way is the
same list in either, and is determined by what it contains. -/

namespace Contexide.Storage

/-- The order in which a map keeps its entries. -/
inductive MapOrder where
  | sorted
  | insertion
  deriving DecidableEq, Repr

namespace MapOrder

variable {K V : Type} [LinearOrder K]

/-- `BTreeMap::insert`. -/
def insertSorted (k : K) (v : V) : List (K × V) → List (K × V)
  | [] => [(k, v)]
  | e :: map =>
    if k < e.1 then (k, v) :: e :: map
    else if e.1 = k then (k, v) :: map
    else e :: insertSorted k v map

/-- `Map::insert`. -/
def insert (order : MapOrder) (map : List (K × V)) (k : K) (v : V) : List (K × V) :=
  match order with
  | .sorted => insertSorted k v map
  | .insertion => upsert Prod.fst (k, v) map

/-- The entries are those of a map: the keys are distinct, and increasing in a
sorted map. -/
def Keeps (order : MapOrder) (map : List (K × V)) : Prop :=
  match order with
  | .sorted => (map.map Prod.fst).Pairwise (· < ·)
  | .insertion => (map.map Prod.fst).Nodup

theorem Keeps.nodup {order : MapOrder} {map : List (K × V)} (h : order.Keeps map) :
    (map.map Prod.fst).Nodup := by
  cases order with
  | sorted => exact h.imp ne_of_lt
  | insertion => exact h

theorem keeps_of_sorted (order : MapOrder) {map : List (K × V)}
    (h : (map.map Prod.fst).Pairwise (· < ·)) : order.Keeps map := by
  cases order with
  | sorted => exact h
  | insertion => exact h.imp ne_of_lt

theorem insertSorted_of_lt {k : K} {map : List (K × V)} (v : V) (h : ∀ e ∈ map, e.1 < k) :
    insertSorted k v map = map ++ [(k, v)] := by
  induction map with
  | nil => rfl
  | cons e map ih =>
    have he := h e List.mem_cons_self
    rw [insertSorted, if_neg he.not_gt, if_neg he.ne,
      ih fun f hf => h f (List.mem_cons_of_mem e hf), List.cons_append]

/-- A key after all others is appended. -/
theorem insert_of_lt (order : MapOrder) {k : K} {map : List (K × V)} (v : V)
    (h : ∀ e ∈ map, e.1 < k) : order.insert map k v = map ++ [(k, v)] := by
  cases order with
  | sorted => exact insertSorted_of_lt v h
  | insertion => exact upsert_of_notMem _ _ _ fun e he => (h e he).ne

theorem foldl_insert_append (order : MapOrder) {α : Type} (key : α → K) (value : α → V)
    (xs : List α) (map : List (K × V)) (hxs : (xs.map key).Pairwise (· < ·))
    (hmap : ∀ e ∈ map, ∀ x ∈ xs, e.1 < key x) :
    xs.foldl (fun m x => order.insert m (key x) (value x)) map
      = map ++ xs.map fun x => (key x, value x) := by
  induction xs generalizing map with
  | nil => simp
  | cons x xs ih =>
    rw [List.map_cons, List.pairwise_cons] at hxs
    have hx : ∀ e ∈ map, e.1 < key x := fun e he => hmap e he x List.mem_cons_self
    rw [List.foldl_cons, insert_of_lt order _ hx, ih _ hxs.2, List.map_cons, List.append_assoc,
      List.singleton_append]
    intro e he y hy
    rcases List.mem_append.mp he with he | he
    · exact hmap e he y (List.mem_cons_of_mem x hy)
    · rw [List.mem_singleton.mp he]
      exact hxs.1 (key y) (List.mem_map_of_mem hy)

/-- A map filled in the order of its keys has its entries in that order. -/
theorem foldl_insert (order : MapOrder) {α : Type} (key : α → K) (value : α → V) (xs : List α)
    (hxs : (xs.map key).Pairwise (· < ·)) :
    xs.foldl (fun m x => order.insert m (key x) (value x)) []
      = xs.map fun x => (key x, value x) :=
  foldl_insert_append order key value xs [] hxs fun _ he => absurd he List.not_mem_nil

end MapOrder

/-! ### Entries related through a function -/

section

variable {α β γ : Type}

theorem forall₂_iff_map_eq {R : α → β → Prop} {f : α → γ} {g : β → γ} {xs : List α} {ys : List β}
    (h : ∀ x ∈ xs, ∀ y ∈ ys, R x y ↔ f x = g y) : List.Forall₂ R xs ys ↔ xs.map f = ys.map g := by
  induction xs generalizing ys with
  | nil => simp [eq_comm]
  | cons x xs ih =>
    cases ys with
    | nil => simp
    | cons y ys =>
      have hhead := h x List.mem_cons_self y List.mem_cons_self
      have htail := ih fun x' hx y' hy =>
        h x' (List.mem_cons_of_mem x hx) y' (List.mem_cons_of_mem y hy)
      rw [List.forall₂_cons, hhead, htail, List.map_cons, List.map_cons, List.cons.injEq]

/-- Lists of pairs are equal when their first and their second components are. -/
theorem eq_of_map_fst_snd {xs ys : List (α × β)} (hfst : xs.map Prod.fst = ys.map Prod.fst)
    (hsnd : xs.map Prod.snd = ys.map Prod.snd) : xs = ys :=
  (List.zip_of_prod hfst hsnd).trans (List.zip_of_prod rfl rfl).symm

end

/-! ### Sorted entries -/

section

variable {K V : Type} [LinearOrder K]

theorem sorted_keys_of_nodup {keys : List K} (h : keys.Nodup) :
    (keys.insertionSort (· ≤ ·)).Pairwise (· < ·) :=
  insertionSort_pairwise_lt id h fun _ _ _ _ => id

/-- Entries sorted by key are determined by what they contain. -/
theorem eq_of_perm_of_sorted {m n : List (K × V)} (hm : (m.map Prod.fst).Pairwise (· < ·))
    (hn : (n.map Prod.fst).Pairwise (· < ·)) (h : m.Perm n) : m = n := by
  rw [List.pairwise_map] at hm hn
  exact h.eq_of_pairwise (fun a b _ _ hab hba => absurd hba hab.not_gt) hm hn

theorem lookup_eq_of_mem {map : List (K × V)} (hn : (map.map Prod.fst).Nodup) {e : K × V}
    (he : e ∈ map) : map.lookup e.1 = some e.2 := by
  obtain ⟨l, r, rfl⟩ := List.append_of_mem he
  rw [List.lookup_eq_some_iff]
  refine ⟨l, r, rfl, fun f hf => ?_⟩
  rw [List.map_append, List.map_cons, List.nodup_append] at hn
  exact bne_iff_ne.mpr (hn.2.2 f.1 (List.mem_map_of_mem hf) e.1 List.mem_cons_self).symm

end

end Contexide.Storage
