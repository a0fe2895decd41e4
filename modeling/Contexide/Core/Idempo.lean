import Contexide.Core.Ids
import Contexide.Text.Hex
import Mathlib.Data.List.Basic

/-! Idempotency keys: the name of a stage and its arguments, sanitized, joined by
colons. Sanitizing never leaves a colon, so a key splits into what it was joined
from, and two keys are equal only where sanitizing makes their arguments equal. -/

namespace Contexide

/-- Stable set of extractor kinds. -/
inductive ExtractorKind where
  | pdf
  | html
  | docx
  | imageOcr
  | audioAsr
  | video
  | file
  deriving DecidableEq, Repr

def ExtractorKind.asStr : ExtractorKind → String
  | .pdf => "pdf"
  | .html => "html"
  | .docx => "docx"
  | .imageOcr => "image-ocr"
  | .audioAsr => "audio-asr"
  | .video => "video"
  | .file => "file"

namespace Idempo

/-! ### Sanitizing and joining -/

/-- `a-z0-9._-` -/
def isSafe (c : Char) : Bool :=
  'a' ≤ c && c ≤ 'z' || '0' ≤ c && c ≤ '9' || c == '.' || c == '_' || c == '-'

def sanitizeChar (ch : Char) : Char :=
  let c := ch.toLower
  if isSafe c then c else '-'

def sanitizeToken (s : String) : String := String.ofList (s.toList.map sanitizeChar)

def join (stage : String) (parts : List String) : String :=
  parts.foldl (fun key p => key ++ ":" ++ sanitizeToken p) stage

/-- The pieces between the colons. -/
def splitColon (key : String) : List String := (key.toList.splitOn ':').map String.ofList

theorem isSafe_sanitizeChar (c : Char) : isSafe (sanitizeChar c) = true := by
  unfold sanitizeChar
  dsimp only
  split
  · assumption
  · rfl

theorem notMem_sanitizeToken (s : String) : ':' ∉ (sanitizeToken s).toList := by
  rw [sanitizeToken, String.toList_ofList]
  intro h
  obtain ⟨c, -, hc⟩ := List.mem_map.mp h
  exact absurd (hc ▸ isSafe_sanitizeChar c) (by decide)

theorem toLower_of_isSafe {c : Char} (h : isSafe c = true) : c.toLower = c := by
  have hupper : ¬ (c.val ≥ 'A'.val ∧ c.val ≤ 'Z'.val) := by
    rintro ⟨hA, hZ⟩
    have hA : 65 ≤ c.toNat := hA
    have hZ : c.toNat ≤ 90 := hZ
    simp only [isSafe, Bool.or_eq_true, Bool.and_eq_true, decide_eq_true_eq, beq_iff_eq] at h
    rcases h with (((⟨ha, -⟩ | ⟨-, h9⟩) | rfl) | rfl) | rfl
    · have ha : 97 ≤ c.toNat := ha
      omega
    · have h9 : c.toNat ≤ 57 := h9
      omega
    · simp at hA
    · simp at hZ
    · simp at hA
  exact dif_neg hupper

/-- Safe text is its own sanitized form. -/
theorem sanitizeToken_of_isSafe {s : String} (h : ∀ c ∈ s.toList, isSafe c = true) :
    sanitizeToken s = s := by
  rw [sanitizeToken, List.map_congr_left (g := id), List.map_id, String.ofList_toList]
  intro c hc
  rw [sanitizeChar, toLower_of_isSafe (h c hc), if_pos (h c hc), id]

theorem splitColon_append {key p : String} (hp : ':' ∉ p.toList) :
    splitColon (key ++ ":" ++ p) = splitColon key ++ [p] := by
  have hcolon : ":".toList = [':'] := by decide
  rw [splitColon, splitColon, String.toList_append, String.toList_append, hcolon, List.append_assoc,
    List.singleton_append, List.splitOn_append_cons_self, List.splitOn_eq_singleton hp,
    List.map_append, List.map_singleton, String.ofList_toList]

theorem splitColon_join_append (key : String) (parts : List String) :
    splitColon (join key parts) = splitColon key ++ parts.map sanitizeToken := by
  induction parts generalizing key with
  | nil => simp [join]
  | cons p parts ih =>
    have hrest := ih (key ++ ":" ++ sanitizeToken p)
    rw [splitColon_append (notMem_sanitizeToken p), List.append_assoc] at hrest
    exact hrest

/-- A key splits into the stage and the sanitized parts. -/
theorem splitColon_join {stage : String} (hstage : ':' ∉ stage.toList) (parts : List String) :
    splitColon (join stage parts) = stage :: parts.map sanitizeToken := by
  rw [splitColon_join_append, splitColon, List.splitOn_eq_singleton hstage, List.map_singleton,
    String.ofList_toList, List.singleton_append]

/-- The key depends on the sanitized parts only. -/
theorem join_congr (stage : String) {parts parts' : List String}
    (h : parts.map sanitizeToken = parts'.map sanitizeToken) :
    join stage parts = join stage parts' := by
  have hmap : ∀ ps : List String,
      join stage ps = (ps.map sanitizeToken).foldl (fun key p => key ++ ":" ++ p) stage :=
    fun ps => List.foldl_map.symm
  rw [hmap, hmap, h]

/-! ### Keys -/

section

variable (uuidText : Uuid → String)

/-- `fetch:{asset_id}:{worker_version}` -/
def fetch (assetId : AssetId) (workerVersion : String) : String :=
  join "fetch" [uuidText assetId.uuid, workerVersion]

/-- `extract:{asset_id}:{kind}:{version}` -/
def extract (assetId : AssetId) (kind : ExtractorKind) (version : String) : String :=
  join "extract" [uuidText assetId.uuid, kind.asStr, version]

/-- `clean:{asset_id}:{profile_hash}` -/
def clean (assetId : AssetId) (profileHash : String) : String :=
  join "clean" [uuidText assetId.uuid, profileHash]

/-- `chunk:{chunk_set_id}:{profile_hash}` -/
def chunk (chunkSetId : ChunkSetId) (profileHash : String) : String :=
  join "chunk" [uuidText chunkSetId.uuid, profileHash]

/-- `embed:{embedding_set_id}:{model_id}` -/
def embed (embeddingSetId : EmbeddingSetId) (modelId : String) : String :=
  join "embed" [uuidText embeddingSetId.uuid, modelId]

/-- `persist:{document_id}:{chunk_set_id}:{embedding_set_id}` -/
def persist (documentId : DocumentId) (chunkSetId : ChunkSetId)
    (embeddingSetId : EmbeddingSetId) : String :=
  join "persist" [uuidText documentId.uuid, uuidText chunkSetId.uuid, uuidText embeddingSetId.uuid]

end

/-- A unit of work: a builder with its arguments. -/
inductive Work where
  | fetch (assetId : AssetId) (workerVersion : String)
  | extract (assetId : AssetId) (kind : ExtractorKind) (version : String)
  | clean (assetId : AssetId) (profileHash : String)
  | chunk (chunkSetId : ChunkSetId) (profileHash : String)
  | embed (embeddingSetId : EmbeddingSetId) (modelId : String)
  | persist (documentId : DocumentId) (chunkSetId : ChunkSetId) (embeddingSetId : EmbeddingSetId)
  deriving DecidableEq, Repr

/-- UUIDs are written differently, with hexadecimal digits and hyphens. -/
structure WritesUuids (uuidText : Uuid → String) : Prop where
  injective : Function.Injective uuidText
  letters : ∀ u, ∀ c ∈ (uuidText u).toList, '0' ≤ c ∧ c ≤ '9' ∨ 'a' ≤ c ∧ c ≤ 'f' ∨ c = '-'

namespace Work

def stage : Work → String
  | .fetch .. => "fetch"
  | .extract .. => "extract"
  | .clean .. => "clean"
  | .chunk .. => "chunk"
  | .embed .. => "embed"
  | .persist .. => "persist"

/-- The same builder with the same ids and kind, and text that sanitizes to the same. -/
def Same : Work → Work → Prop
  | .fetch a v, .fetch a' v' => a = a' ∧ sanitizeToken v = sanitizeToken v'
  | .extract a k v, .extract a' k' v' => a = a' ∧ k = k' ∧ sanitizeToken v = sanitizeToken v'
  | .clean a p, .clean a' p' => a = a' ∧ sanitizeToken p = sanitizeToken p'
  | .chunk c p, .chunk c' p' => c = c' ∧ sanitizeToken p = sanitizeToken p'
  | .embed e m, .embed e' m' => e = e' ∧ sanitizeToken m = sanitizeToken m'
  | .persist d c e, .persist d' c' e' => d = d' ∧ c = c' ∧ e = e'
  | _, _ => False

section

variable (uuidText : Uuid → String)

def key : Work → String
  | .fetch assetId workerVersion => Idempo.fetch uuidText assetId workerVersion
  | .extract assetId kind version => Idempo.extract uuidText assetId kind version
  | .clean assetId profileHash => Idempo.clean uuidText assetId profileHash
  | .chunk chunkSetId profileHash => Idempo.chunk uuidText chunkSetId profileHash
  | .embed embeddingSetId modelId => Idempo.embed uuidText embeddingSetId modelId
  | .persist documentId chunkSetId embeddingSetId =>
    Idempo.persist uuidText documentId chunkSetId embeddingSetId

/-- The arguments as text, in the order of the key. -/
def parts : Work → List String
  | .fetch a v => [uuidText a.uuid, v]
  | .extract a k v => [uuidText a.uuid, k.asStr, v]
  | .clean a p => [uuidText a.uuid, p]
  | .chunk c p => [uuidText c.uuid, p]
  | .embed e m => [uuidText e.uuid, m]
  | .persist d c e => [uuidText d.uuid, uuidText c.uuid, uuidText e.uuid]

theorem key_eq_join (w : Work) : w.key uuidText = join w.stage (w.parts uuidText) := by
  cases w <;> rfl

end

theorem notMem_stage (w : Work) : ':' ∉ w.stage.toList := by
  cases w <;> simp [stage]

variable {uuidText : Uuid → String}

theorem splitColon_key (w : Work) :
    splitColon (w.key uuidText) = w.stage :: (w.parts uuidText).map sanitizeToken := by
  rw [key_eq_join, splitColon_join (notMem_stage w)]

theorem key_eq_iff (v w : Work) :
    v.key uuidText = w.key uuidText ↔ v.stage = w.stage ∧
      (v.parts uuidText).map sanitizeToken = (w.parts uuidText).map sanitizeToken := by
  constructor
  · intro h
    have hsplit := congrArg splitColon h
    rw [splitColon_key, splitColon_key, List.cons.injEq] at hsplit
    exact hsplit
  · rintro ⟨hstage, hparts⟩
    rw [key_eq_join, key_eq_join, hstage, join_congr _ hparts]

end Work

namespace WritesUuids

variable {uuidText : Uuid → String}

theorem isSafe (h : WritesUuids uuidText) (u : Uuid) :
    ∀ c ∈ (uuidText u).toList, isSafe c = true := by
  intro c hc
  rcases h.letters u c hc with ⟨h0, h9⟩ | ⟨ha, hf⟩ | rfl
  · simp [Idempo.isSafe, h0, h9]
  · have hz : c ≤ 'z' := Char.le_trans hf (by decide : 'f' ≤ 'z')
    simp [Idempo.isSafe, ha, hz]
  · decide

theorem sanitizeToken_eq_iff (h : WritesUuids uuidText) {u u' : Uuid} :
    sanitizeToken (uuidText u) = sanitizeToken (uuidText u') ↔ u = u' := by
  rw [sanitizeToken_of_isSafe (h.isSafe u), sanitizeToken_of_isSafe (h.isSafe u')]
  exact h.injective.eq_iff

end WritesUuids

theorem sanitizeToken_asStr_eq_iff {k k' : ExtractorKind} :
    sanitizeToken k.asStr = sanitizeToken k'.asStr ↔ k = k' := by
  have hsafe : ∀ k : ExtractorKind, ∀ c ∈ k.asStr.toList, isSafe c = true := by
    intro k
    apply List.all_eq_true.mp
    cases k <;> decide
  rw [sanitizeToken_of_isSafe (hsafe k), sanitizeToken_of_isSafe (hsafe k')]
  cases k <;> cases k' <;> decide

theorem Work.same_iff {uuidText : Uuid → String} (h : WritesUuids uuidText) (v w : Work) :
    v.Same w ↔ v.stage = w.stage ∧
      (v.parts uuidText).map sanitizeToken = (w.parts uuidText).map sanitizeToken := by
  cases v <;> cases w <;>
    simp [Work.Same, Work.stage, Work.parts, h.sanitizeToken_eq_iff, sanitizeToken_asStr_eq_iff,
      AssetId.ext_iff, ChunkSetId.ext_iff, EmbeddingSetId.ext_iff, DocumentId.ext_iff]

/-- Keys are equal only by sanitizing, and split into the stage and the sanitized
parts. -/
theorem key_collides_iff {uuidText : Uuid → String} (h : WritesUuids uuidText) :
    (∀ v w : Work, v.key uuidText = w.key uuidText ↔ v.Same w) ∧
    ∀ w : Work, splitColon (w.key uuidText) = w.stage :: (w.parts uuidText).map sanitizeToken :=
  ⟨fun v w => (Work.key_eq_iff v w).trans (Work.same_iff h v w).symm, Work.splitColon_key⟩

/-! ### UUID text -/

/-- Groups of twelve, four, four and four digits and the rest, lowest digit first. -/
def hyphenate (digits : List Char) : List Char :=
  digits.take 12 ++ '-' :: ((digits.drop 12).take 4 ++ '-' :: ((digits.drop 16).take 4 ++
    '-' :: ((digits.drop 20).take 4 ++ '-' :: digits.drop 24)))

/-- The canonical form of a UUID. -/
def canonicalUuid (u : Uuid) : String := String.ofList (hyphenate (Text.hexText 32 u)).reverse

theorem filter_hyphenate {digits : List Char} (h : '-' ∉ digits) :
    (hyphenate digits).filter (· ≠ '-') = digits := by
  have hkeep : ∀ l : List Char, l ⊆ digits → l.filter (· ≠ '-') = l := by
    intro l hl
    refine List.filter_eq_self.mpr fun c hc => ?_
    simpa using fun heq : c = '-' => h (heq ▸ hl hc)
  have h20 := List.take_append_drop 4 (digits.drop 20)
  have h16 := List.take_append_drop 4 (digits.drop 16)
  have h12 := List.take_append_drop 4 (digits.drop 12)
  rw [List.drop_drop] at h20 h16 h12
  have hgroup : ∀ m, (digits.drop m).take 4 ⊆ digits :=
    fun m _ hc => List.mem_of_mem_drop (List.mem_of_mem_take hc)
  simp only [hyphenate, List.filter_append, List.filter_cons, hkeep _ (List.take_subset 12 digits),
    hkeep _ (hgroup _), hkeep _ (List.drop_subset 24 digits), ne_eq, not_true_eq_false,
    decide_false, Bool.false_eq_true, ↓reduceIte]
  rw [h20, h16, h12, List.take_append_drop]

theorem mem_hyphenate {digits : List Char} {c : Char} (h : c ∈ hyphenate digits) :
    c ∈ digits ∨ c = '-' := by
  simp only [hyphenate, List.mem_append, List.mem_cons] at h
  rcases h with h | rfl | h | rfl | h | rfl | h | rfl | h
  all_goals first
    | exact .inr rfl
    | exact .inl (List.mem_of_mem_take h)
    | exact .inl (List.mem_of_mem_drop (List.mem_of_mem_take h))
    | exact .inl (List.mem_of_mem_drop h)

/-- The number that the digits of a text write. -/
def uuidNumber (s : String) : Uuid :=
  Text.hexNumber (s.toList.reverse.filter (· ≠ '-'))

theorem uuidNumber_canonicalUuid (u : Uuid) : uuidNumber (canonicalUuid u) = u := by
  have hno : '-' ∉ Text.hexText 32 u := fun hu => absurd (Text.hexText_letters hu) (by decide)
  rw [uuidNumber, canonicalUuid, String.toList_ofList, List.reverse_reverse, filter_hyphenate hno,
    Text.hexNumber_hexText]

/-- Reads a UUID from its canonical form, and from no other. -/
def parseCanonical (s : String) : Option Uuid :=
  if canonicalUuid (uuidNumber s) = s then some (uuidNumber s) else none

theorem parseCanonical_canonicalUuid (u : Uuid) : parseCanonical (canonicalUuid u) = some u := by
  rw [parseCanonical, uuidNumber_canonicalUuid, if_pos rfl]

theorem writesUuids_canonicalUuid : WritesUuids canonicalUuid where
  injective := Function.LeftInverse.injective uuidNumber_canonicalUuid
  letters u c hc := by
    rw [canonicalUuid, String.toList_ofList, List.mem_reverse] at hc
    rcases mem_hyphenate hc with hc | rfl
    · rcases Text.hexText_letters hc with h | h
      · exact .inl h
      · exact .inr (.inl h)
    · exact .inr (.inr rfl)

/-- A colon in a profile hash collides with a hyphen, and only in its place. -/
theorem key_collides_iff_clean :
    (Work.clean ⟨0⟩ "ABC:DEF").key canonicalUuid = (Work.clean ⟨0⟩ "abc-def").key canonicalUuid ∧
    (Work.clean ⟨0⟩ "ABC:DEF").key canonicalUuid ≠ (Work.chunk ⟨0⟩ "ABC:DEF").key canonicalUuid ∧
    splitColon ((Work.clean ⟨0⟩ "ABC:DEF").key canonicalUuid) =
      ["clean", "00000000-0000-0000-0000-000000000000", "abc-def"] := by
  obtain ⟨hiff, hsplit⟩ := key_collides_iff writesUuids_canonicalUuid
  refine ⟨(hiff _ _).mpr ⟨rfl, by decide⟩, fun h => (hiff _ _).mp h, ?_⟩
  rw [hsplit]
  decide

end Idempo

end Contexide
