import Contexide.Core.Errors
import Contexide.Storage.Table
import Mathlib.Data.List.Induction

/-! The blob store in memory. Blobs are put under a given key or under a key that the store
makes from its namespace, and read, looked up and deleted by key. Leading slashes of a given
key do not count. -/

namespace Contexide.BlobStorage

open Storage

structure Entry where
  bytes : List UInt8
  contentType : Option (List Char)

structure MemStore where
  map : Assoc (List Char) Entry
  namespaceName : List Char

def normalizeKey (key : List Char) : List Char := key.dropWhile (· == '/')

namespace MemStore

def new (namespaceName : List Char) : MemStore := ⟨Table.empty, namespaceName⟩

variable (s : MemStore)

def putBytes (key : List Char) (bytes : List UInt8) (contentType : Option (List Char)) :
    MemStore :=
  { s with map := s.map.insert (normalizeKey key) ⟨bytes, contentType⟩ }

/-- The key of what a reader brings; `uuid` is the text of the new identifier. -/
def generatedKey (uuid : List Char) : List Char := s.namespaceName ++ '/' :: uuid

def putReader (uuid : List Char) (reader : Except String (List UInt8))
    (contentType : Option (List Char)) : Except Error (List Char) × MemStore :=
  match reader with
  | .error e => (.error (.other ("read_to_end failed: " ++ e)), s)
  | .ok bytes =>
    -- the key goes in as it is, slashes and all
    (.ok (s.generatedKey uuid),
      { s with map := s.map.insert (s.generatedKey uuid) ⟨bytes, contentType⟩ })

def getBytes (key : List Char) : Except Error (List UInt8) :=
  match s.map.find (normalizeKey key) with
  | some e => .ok e.bytes
  | none => .error (.notFound "blob")

def existsKey (key : List Char) : Bool := (s.map.find (normalizeKey key)).isSome

def delete (key : List Char) : Bool × MemStore :=
  ((s.map.find (normalizeKey key)).isSome,
    { s with map := Table.remove s.map (normalizeKey key) })

end MemStore

inductive Call where
  | putBytes (key : List Char) (bytes : List UInt8) (contentType : Option (List Char))
  | putReader (uuid : List Char) (reader : Except String (List UInt8))
      (contentType : Option (List Char))
  | getBytes (key : List Char)
  | existsKey (key : List Char)
  | delete (key : List Char)

/-- The store after a call. -/
def Call.next (s : MemStore) : Call → MemStore
  | .putBytes key bytes contentType => s.putBytes key bytes contentType
  | .putReader uuid reader contentType => (s.putReader uuid reader contentType).2
  | .getBytes _ | .existsKey _ => s
  | .delete key => (s.delete key).2

/-! ### What the store is for -/

/-- Keys that differ in leading slashes only. -/
def SameKey (k k' : List Char) : Prop := k.dropWhile (· == '/') = k'.dropWhile (· == '/')

instance (k k' : List Char) : Decidable (SameKey k k') :=
  inferInstanceAs (Decidable (_ = _))

/-- What a call does to the blobs, by the keys its caller knows. -/
inductive Change where
  | put (key : List Char) (bytes : List UInt8)
  | delete (key : List Char)

def Change.apply (k : List Char) (found : Option (List UInt8)) : Change → Option (List UInt8)
  | .put key bytes => if SameKey key k then some bytes else found
  | .delete key => if SameKey key k then none else found

/-- The bytes of the last put under the key that was not deleted since. -/
def lastPut (k : List Char) (changes : List Change) : Option (List UInt8) :=
  changes.foldl (Change.apply k) none

/-- What a caller has changed; a reader's key is the one that was returned. -/
def Call.change (s : MemStore) : Call → Option Change
  | .putBytes key bytes _ => some (.put key bytes)
  | .putReader uuid reader contentType =>
    match (s.putReader uuid reader contentType).1, reader with
    | .ok key, .ok bytes => some (.put key bytes)
    | _, _ => none
  | .getBytes _ | .existsKey _ => none
  | .delete key => some (.delete key)

def observe (run : MemStore × List Change) (call : Call) : MemStore × List Change :=
  (call.next run.1, run.2 ++ (call.change run.1).toList)

/-- A run from an empty store, with the changes that were made. -/
def play (namespaceName : List Char) (calls : List Call) : MemStore × List Change :=
  calls.foldl observe (MemStore.new namespaceName, [])

/-- Reads, lookups and deletions answer by the last put. -/
structure Answers (s : MemStore) (changes : List Change) : Prop where
  getBytes : ∀ k, s.getBytes k =
    match lastPut k changes with
    | some bytes => .ok bytes
    | none => .error (.notFound "blob")
  existsKey : ∀ k, s.existsKey k = (lastPut k changes).isSome
  delete : ∀ k, (s.delete k).1 = (lastPut k changes).isSome

/-- The store answers right in every state of a run, and the key that a put of a reader
returns reads back what was put. -/
structure RoundTrips (namespaceName : List Char) (calls : List Call) : Prop where
  answers : ∀ before, before <+: calls →
    Answers (play namespaceName before).1 (play namespaceName before).2
  readsBack : ∀ before uuid bytes contentType key,
    before ++ [.putReader uuid (.ok bytes) contentType] <+: calls →
    ((play namespaceName before).1.putReader uuid (.ok bytes) contentType).1 = .ok key →
    ((play namespaceName before).1.putReader uuid (.ok bytes) contentType).2.getBytes key =
      .ok bytes

/-- No generated key begins with a slash. -/
def NoLeadingSlash (namespaceName : List Char) : Prop :=
  namespaceName ≠ [] ∧ namespaceName.head? ≠ some '/'

/-- A put of a reader needs a namespace that keeps slashes away from the front. -/
def Call.Meets (namespaceName : List Char) : Call → Prop
  | .putReader _ (.ok _) _ => NoLeadingSlash namespaceName
  | _ => True

/-! ### Runs -/

/-- What is found under a normalized key was put there last. -/
def Holds (s : MemStore) (changes : List Change) : Prop :=
  ∀ k, (s.map.find (normalizeKey k)).map Entry.bytes = lastPut k changes

theorem lastPut_append (k : List Char) (changes : List Change) (c : Change) :
    lastPut k (changes ++ [c]) = c.apply k (lastPut k changes) := by
  rw [lastPut, List.foldl_append]
  rfl

theorem Holds.answers {s : MemStore} {changes : List Change} (h : Holds s changes) :
    Answers s changes where
  getBytes k := by
    rw [← h k, MemStore.getBytes]
    cases s.map.find (normalizeKey k) with
    | some e => rfl
    | none => rfl
  existsKey k := by rw [← h k, Option.isSome_map, MemStore.existsKey]
  delete k := by rw [← h k, Option.isSome_map, MemStore.delete]

theorem normalizeKey_generatedKey {s : MemStore} (h : NoLeadingSlash s.namespaceName)
    (uuid : List Char) : normalizeKey (s.generatedKey uuid) = s.generatedKey uuid := by
  obtain ⟨hne, hhead⟩ := h
  unfold MemStore.generatedKey
  cases hname : s.namespaceName with
  | nil => exact absurd hname hne
  | cons c name =>
    have hc : c ≠ '/' := fun hc => hhead (by rw [hname, hc]; rfl)
    rw [List.cons_append, normalizeKey, List.dropWhile_cons_of_neg (by simpa using hc)]

/-- An insertion under a normalized key is a put. -/
theorem Holds.insert {s : MemStore} {changes : List Change} (h : Holds s changes)
    (key : List Char) (e : Entry) :
    Holds { s with map := s.map.insert (normalizeKey key) e }
      (changes ++ [.put key e.bytes]) := by
  intro k
  rw [lastPut_append, Change.apply, ← h k]
  change ((s.map.insert (normalizeKey key) e).find (normalizeKey k)).map Entry.bytes = _
  rw [Assoc.find_insert]
  split
  · next hsame => rw [if_pos (show SameKey key k from hsame), Option.map_some]
  · next hsame => rw [if_neg (show ¬ SameKey key k from hsame)]

theorem Holds.remove {s : MemStore} {changes : List Change} (h : Holds s changes)
    (key : List Char) :
    Holds { s with map := Table.remove s.map (normalizeKey key) } (changes ++ [.delete key]) := by
  intro k
  rw [lastPut_append, Change.apply, ← h k]
  change (Assoc.find (Table.remove s.map (normalizeKey key)) (normalizeKey k)).map _ = _
  rw [Assoc.find_remove]
  split
  · next hsame => rw [if_pos (show SameKey key k from hsame.symm), Option.map_none]
  · next hsame => rw [if_neg (show ¬ SameKey key k from Ne.symm hsame)]

theorem Holds.observe {run : MemStore × List Change} {call : Call}
    (hcall : call.Meets run.1.namespaceName) (h : Holds run.1 run.2) :
    Holds (observe run call).1 (observe run call).2 := by
  obtain ⟨s, changes⟩ := run
  cases call with
  | putBytes key bytes contentType => exact h.insert key ⟨bytes, contentType⟩
  | putReader uuid reader contentType =>
    cases reader with
    | error e =>
      change Holds s (changes ++ [])
      rwa [List.append_nil]
    | ok bytes =>
      have hinsert := h.insert (s.generatedKey uuid) ⟨bytes, contentType⟩
      rw [normalizeKey_generatedKey hcall] at hinsert
      exact hinsert
  | getBytes key | existsKey key =>
    change Holds s (changes ++ [])
    rwa [List.append_nil]
  | delete key => exact h.remove key

theorem namespaceName_observe (run : MemStore × List Change) (call : Call) :
    (observe run call).1.namespaceName = run.1.namespaceName := by
  cases call with
  | putReader uuid reader contentType => cases reader <;> rfl
  | putBytes | getBytes | existsKey | delete => rfl

theorem play_append (namespaceName : List Char) (calls : List Call) (call : Call) :
    play namespaceName (calls ++ [call]) = observe (play namespaceName calls) call := by
  rw [play, List.foldl_append]
  rfl

@[simp] theorem namespaceName_play (namespaceName : List Char) (calls : List Call) :
    (play namespaceName calls).1.namespaceName = namespaceName := by
  induction calls using List.reverseRecOn with
  | nil => rfl
  | append_singleton calls call ih => rw [play_append, namespaceName_observe, ih]

theorem holds_play {namespaceName : List Char} {calls : List Call}
    (h : ∀ call ∈ calls, call.Meets namespaceName) :
    Holds (play namespaceName calls).1 (play namespaceName calls).2 := by
  induction calls using List.reverseRecOn with
  | nil => exact fun k => rfl
  | append_singleton calls call ih =>
    rw [play_append]
    refine Holds.observe ?_ (ih fun c hc => h c (List.mem_append_left _ hc))
    rw [namespaceName_play]
    exact h call (by simp)

theorem roundTrips_of_meets {namespaceName : List Char} {calls : List Call}
    (h : ∀ call ∈ calls, call.Meets namespaceName) : RoundTrips namespaceName calls where
  answers before hbefore := (holds_play fun c hc => h c (hbefore.subset hc)).answers
  readsBack before uuid bytes contentType key hbefore hkey := by
    have hanswers := (holds_play fun c hc => h c (hbefore.subset hc)).answers.getBytes key
    cases hkey
    have hput : lastPut ((play namespaceName before).1.generatedKey uuid)
        (play namespaceName (before ++ [.putReader uuid (.ok bytes) contentType])).2 =
          some bytes := by
      rw [play_append]
      exact (lastPut_append _ _ _).trans (if_pos rfl)
    rw [hput, play_append] at hanswers
    exact hanswers

theorem normalizeKey_ne {key : List Char} (h : key.head? = some '/') : normalizeKey key ≠ key := by
  cases key with
  | nil => cases h
  | cons c key =>
    cases h
    intro heq
    have hlength := congrArg List.length heq
    rw [normalizeKey, List.dropWhile_cons_of_pos (by rfl), List.length_cons] at hlength
    have hle := (List.dropWhile_suffix (l := key) (· == '/')).length_le
    omega

/-- With a slash in front, the blob of a reader is out of reach. -/
theorem getBytes_putReader_of_slash {namespaceName : List Char}
    (h : ¬ NoLeadingSlash namespaceName) (uuid : List Char) (bytes : List UInt8)
    (contentType : Option (List Char)) :
    ((MemStore.new namespaceName).putReader uuid (.ok bytes) contentType).2.getBytes
      ((MemStore.new namespaceName).generatedKey uuid) = .error (.notFound "blob") := by
  have hhead : ((MemStore.new namespaceName).generatedKey uuid).head? = some '/' := by
    unfold MemStore.generatedKey
    change (namespaceName ++ '/' :: uuid).head? = some '/'
    cases namespaceName with
    | nil => rfl
    | cons c name =>
      by_contra hc
      exact h ⟨List.cons_ne_nil c name, hc⟩
  rw [MemStore.getBytes, MemStore.putReader]
  dsimp only
  rw [Assoc.find_insert, if_neg (normalizeKey_ne hhead).symm]
  rfl

/-- Every run whose puts of readers have a namespace without a leading slash answers right,
and only such a namespace has right answers in all of its runs. -/
theorem roundTrips_iff (namespaceName : List Char) :
    (∀ calls : List Call, (∀ call ∈ calls, call.Meets namespaceName) →
      RoundTrips namespaceName calls) ∧
    ((∀ calls, RoundTrips namespaceName calls) ↔ NoLeadingSlash namespaceName) := by
  refine ⟨fun _ => roundTrips_of_meets, fun h => ?_, fun h calls => ?_⟩
  · have hread := (h [.putReader [] (.ok []) none]).readsBack [] [] [] none _
      List.prefix_rfl rfl
    by_contra hslash
    have herror := getBytes_putReader_of_slash hslash [] [] none
    exact absurd (herror.symm.trans hread) (by simp)
  · refine roundTrips_of_meets fun call _ => ?_
    cases call with
    | putReader uuid reader contentType =>
      cases reader with
      | error e => trivial
      | ok bytes => exact h
    | putBytes | getBytes | existsKey | delete => trivial

theorem roundTrips_ns :
    RoundTrips "ns".toList [.putReader ['0'] (.ok [0x78]) none, .getBytes "/ns/0".toList] :=
  (roundTrips_iff "ns".toList).1 _ (by simp [Call.Meets, NoLeadingSlash])

/-- Without a namespace, what a reader brought cannot be read. -/
theorem empty_namespace_unreadable : ¬ ∀ (namespaceName : List Char) (calls : List Call),
    RoundTrips namespaceName calls := by
  intro h
  have hread := (h [] [.putReader ['0'] (.ok [0x78]) none]).readsBack [] ['0'] [0x78] none
    ['/', '0'] List.prefix_rfl rfl
  revert hread
  decide

end Contexide.BlobStorage
