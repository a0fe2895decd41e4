import Contexide.Extractor.Parameters
import Mathlib.Data.List.Infix

/-! The router: chooses an extractor from the hints of an asset, and falls back to the
extractor of URLs or of files for what is taken for a PDF and turns out to be none. -/

namespace Contexide.Extractor

open StoragePg Text

def toAsciiLowercase (s : List Char) : List Char := s.map Char.toLower

/-- Whether the content type mentions PDF. -/
def mentionsPdf (contentType : Option (List Char)) : Bool :=
  contentType.any fun ct => decide ("pdf".toList <:+: toAsciiLowercase ct)

/-- Whether a path in lower case looks like that of a PDF. -/
def looksPdf (lower : List Char) : Bool :=
  decide (".pdf".toList <:+ lower) || decide (".pdf?".toList <:+: lower)

def isLikelyPdf (asset : AssetInput) : Bool :=
  mentionsPdf asset.contentType || asset.storageKey.any fun k => looksPdf (toAsciiLowercase k)

def isUrl (key : Option (List Char)) : Bool := key.any isHttp

inductive Route where
  | pdf | http | file
  deriving DecidableEq, Repr

namespace ExtractRouter

/-- The choice of an extractor, without fetching anything. -/
def choose (asset : AssetInput) : Route :=
  if isLikelyPdf asset then .pdf
  else if isUrl asset.storageKey then .http
  else .file

variable (crates : Crates)

def extract (store : BlobStore) (client : Client) (asset : AssetInput) :
    Except Error (List ExtractedBlock) :=
  match choose asset with
  | .pdf => do
    let out ← PdfExtractor.extract crates store client asset
    if !out.isEmpty then pure out
    else if isUrl asset.storageKey then HttpExtractor.extract crates client asset
    else BlobFileExtractor.extract crates store asset
  | .http => HttpExtractor.extract crates client asset
  | .file => BlobFileExtractor.extract crates store asset

end ExtractRouter

/-! ### What a block carries -/

section

variable (crates : Crates)

/-- The texts that can be extracted from some bytes. -/
inductive IsTextOf (bytes : List UInt8) : List Char → Prop
  | pdf {s : List Char} : crates.pdfExtract bytes = .ok s → IsTextOf bytes (trim s)
  | page {t : List Char} : htmlText crates bytes = some t → IsTextOf bytes t
  | plain {t : List Char} : plainText bytes = some t → IsTextOf bytes t

/-- A block of the asset with an extracted text or with the bytes themselves. -/
structure Carries (asset : AssetInput) (bytes : List UInt8) (b : ExtractedBlock) : Prop where
  tenantId : b.tenantId = asset.tenantId
  documentId : b.documentId = asset.documentId
  assetId : b.assetId = asset.assetId
  content : (∃ t, b.text = some t ∧ b.blob = none ∧ IsTextOf crates bytes t) ∨
    b.text = none ∧ b.blob = some bytes

variable {crates} {asset : AssetInput} {bytes : List UInt8} {b : ExtractedBlock}

namespace Carries

theorem ofText {t : List Char} (ht : IsTextOf crates bytes t) (mime : Option (List Char)) :
    Carries crates asset bytes
      (ExtractedBlock.ofText asset.tenantId asset.documentId asset.assetId mime t) :=
  ⟨rfl, rfl, rfl, .inl ⟨t, rfl, rfl, ht⟩⟩

theorem ofBlob (modality : BlockModality) (mime : Option (List Char)) :
    Carries crates asset bytes
      (ExtractedBlock.ofBlob asset.tenantId asset.documentId asset.assetId modality mime bytes) :=
  ⟨rfl, rfl, rfl, .inr ⟨rfl, rfl⟩⟩

/-- Metadata does not matter. -/
theorem insert (h : Carries crates asset bytes b) (key : String) (value : Json) :
    Carries crates asset bytes (b.insert key value) :=
  ⟨h.tenantId, h.documentId, h.assetId, h.content⟩

theorem withMeta (h : Carries crates asset bytes b) (extraMeta : List (String × Json)) :
    Carries crates asset bytes (PdfExtractor.withMeta b extraMeta) := by
  induction extraMeta generalizing b with
  | nil => exact h
  | cons entry extraMeta ih => exact ih (h.insert entry.1 entry.2)

end Carries

theorem isTextOf_of_toText {mime t : List Char} (h : toText crates mime bytes = some t) :
    IsTextOf crates bytes t := by
  unfold toText at h
  split at h
  · exact .page h
  · split at h
    · exact .plain h
    · cases h

theorem HttpExtractor.carries_blockOf (url : List Char) (page : Page) :
    Carries crates asset page.bytes (HttpExtractor.blockOf crates asset url page) := by
  unfold HttpExtractor.blockOf
  dsimp only
  split
  · next t ht =>
    exact (((Carries.ofText (isTextOf_of_toText ht) _).insert _ _).insert _ _).insert _ _
  · exact ((Carries.ofBlob _ _).insert _ _).insert _ _

theorem BlobFileExtractor.carries_blockOf :
    Carries crates asset bytes (BlobFileExtractor.blockOf crates asset bytes) := by
  unfold BlobFileExtractor.blockOf
  dsimp only
  split
  · next t ht => exact (Carries.ofText (isTextOf_of_toText ht) _).insert _ _
  · exact Carries.ofBlob _ _

theorem PdfExtractor.carries_blockOf {mime : List Char} {httpStatus : Option UInt16}
    {s : List Char} (h : crates.pdfExtract bytes = .ok s) :
    ∃ b, PdfExtractor.blockOf crates asset mime bytes httpStatus = .ok b ∧
      Carries crates asset bytes b := by
  unfold PdfExtractor.blockOf
  rw [h]
  dsimp only
  split
  · exact ⟨_, rfl, ((Carries.ofText (.pdf h) _).insert _ _).withMeta _⟩
  · exact ⟨_, rfl, (Carries.ofBlob _ _).withMeta _⟩

end

/-! ### No asset is lost -/

/-- The bytes of the asset are there and the PDF library fails on them. -/
structure FailsAsPdf (crates : Crates) (asset : AssetInput) (ctHint : Option (List Char))
    (bytes : List UInt8) : Prop where
  likely : isLikelyPdf asset = true
  recognised : PdfExtractor.isPdf (PdfExtractor.detectMime crates ctHint bytes) = true
  failed : ∃ e, crates.pdfExtract bytes = .error e

section

variable {crates : Crates} {store : BlobStore} {client : Client} {asset : AssetInput}
  {bytes : List UInt8} {ctHint : Option (List Char)} {httpStatus : Option UInt16}

/-- The extractor of URLs or of files makes a block of whatever can be fetched. -/
theorem exists_carries_of_fetchBytes (hne : bytes ≠ [])
    (h : PdfExtractor.fetchBytes crates store client asset = .ok (bytes, ctHint, httpStatus)) :
    ∃ b, (if isUrl asset.storageKey then HttpExtractor.extract crates client asset
        else BlobFileExtractor.extract crates store asset) = .ok [b] ∧
      Carries crates asset bytes b := by
  unfold PdfExtractor.fetchBytes at h
  cases hkey : asset.storageKey with
  | none =>
    rw [hkey] at h
    cases h
  | some key =>
    rw [hkey] at h
    dsimp only at h
    cases hhttp : isHttp key with
    | true =>
      rw [hhttp, if_pos rfl] at h
      cases hpage : getUrl crates client key with
      | error e =>
        rw [hpage] at h
        cases h
      | ok page =>
        rw [hpage] at h
        cases h
        refine ⟨_, ?_, HttpExtractor.carries_blockOf key page⟩
        rw [if_pos (by simp [isUrl, hhttp]), HttpExtractor.extract, HttpExtractor.requireUrl, hkey]
        simp only [hhttp, Bool.not_true, Bool.false_eq_true, if_false]
        change (getUrl crates client key).bind _ = _
        rw [hpage]
        rfl
    | false =>
      rw [hhttp, if_neg Bool.false_ne_true] at h
      cases hstore : store key with
      | error e =>
        rw [hstore] at h
        cases h
      | ok data =>
        rw [hstore] at h
        cases h
        refine ⟨_, ?_, BlobFileExtractor.carries_blockOf⟩
        rw [if_neg (by simp [isUrl, hhttp]), BlobFileExtractor.extract, hkey]
        change (store key).bind _ = _
        rw [hstore]
        change (if bytes.isEmpty then _ else _) = _
        rw [if_neg (by simpa using hne)]
        rfl

/-- What the PDF extractor does with bytes that are there. -/
theorem PdfExtractor.extract_of_fetchBytes (hne : bytes ≠ [])
    (h : PdfExtractor.fetchBytes crates store client asset = .ok (bytes, ctHint, httpStatus)) :
    PdfExtractor.extract crates store client asset =
      if PdfExtractor.isPdf (PdfExtractor.detectMime crates ctHint bytes) then
        (PdfExtractor.blockOf crates asset (PdfExtractor.detectMime crates ctHint bytes) bytes
          httpStatus).map fun block => [block]
      else .ok [] := by
  rw [PdfExtractor.extract, h]
  change (if bytes.isEmpty then _ else if _ then _ else _) = _
  rw [if_neg (by simpa using hne)]
  cases PdfExtractor.isPdf (PdfExtractor.detectMime crates ctHint bytes) with
  | false => rfl
  | true => rfl

/-- An asset with bytes becomes one block unless it goes the way of a PDF and the PDF
library fails. -/
theorem ExtractRouter.extract_iff (hne : bytes ≠ [])
    (h : PdfExtractor.fetchBytes crates store client asset = .ok (bytes, ctHint, httpStatus)) :
    (∃ b, ExtractRouter.extract crates store client asset = .ok [b] ∧
      Carries crates asset bytes b) ↔ ¬ FailsAsPdf crates asset ctHint bytes := by
  have hfallback := exists_carries_of_fetchBytes hne h
  have hpdf := PdfExtractor.extract_of_fetchBytes hne h
  unfold ExtractRouter.extract ExtractRouter.choose
  cases hlikely : isLikelyPdf asset with
  | false =>
    refine iff_of_true ?_ fun hfails => by simp [hfails.likely] at hlikely
    rw [if_neg Bool.false_ne_true]
    cases hurl : isUrl asset.storageKey with
    | true => simpa only [hurl, if_true] using hfallback
    | false => simpa only [hurl, Bool.false_eq_true, if_false] using hfallback
  | true =>
    simp only [if_true, hpdf]
    cases hmime : PdfExtractor.isPdf (PdfExtractor.detectMime crates ctHint bytes) with
    | false =>
      refine iff_of_true ?_ fun hfails => by simp [hfails.recognised] at hmime
      exact hfallback
    | true =>
      simp only [if_true]
      cases htext : crates.pdfExtract bytes with
      | error e =>
        refine iff_of_false ?_ fun hnot => hnot ⟨hlikely, hmime, e, htext⟩
        rintro ⟨b, hb, -⟩
        rw [PdfExtractor.blockOf, htext] at hb
        cases hb
      | ok s =>
        refine iff_of_true ?_ fun hfails => ?_
        · have hblock : ∃ b, PdfExtractor.blockOf crates asset
              (PdfExtractor.detectMime crates ctHint bytes) bytes httpStatus = .ok b ∧
              Carries crates asset bytes b := PdfExtractor.carries_blockOf htext
          obtain ⟨b, hb, hcarries⟩ := hblock
          exact ⟨b, by rw [hb]; rfl, hcarries⟩
        · obtain ⟨e, he⟩ := hfails.failed
          rw [htext] at he
          cases he

/-- A PDF that goes no further than its first line. -/
def brokenPdf : List UInt8 := [0x25, 0x50, 0x44, 0x46, 0x2D]

/-- The PDF library finds no complete header in it. -/
def brokenPdfCrates : Crates :=
  { asciiCrates with
    pdfExtract := fun bytes =>
      if bytes = brokenPdf then .error "PDF error: couldn't parse input: invalid file header"
      else .ok [] }

def brokenPdfAsset : AssetInput :=
  withContentType keyAsset "application/pdf".toList

/-- A broken PDF under its media type is lost. -/
theorem ExtractRouter.extract_iff_brokenPdf :
    (∃ b, ExtractRouter.extract brokenPdfCrates (fun _ => .ok brokenPdf) (fun _ => none)
        brokenPdfAsset = .ok [b] ∧ Carries brokenPdfCrates brokenPdfAsset brokenPdf b) ↔
      ¬ FailsAsPdf brokenPdfCrates brokenPdfAsset (some "application/pdf".toList) brokenPdf :=
  ExtractRouter.extract_iff (by decide) (by rfl)

theorem ExtractRouter.brokenPdf_lost : ¬ ∀ (crates : Crates) (store : BlobStore) (client : Client)
    (asset : AssetInput) (bytes : List UInt8) (ctHint : Option (List Char))
    (httpStatus : Option UInt16), bytes ≠ [] →
    PdfExtractor.fetchBytes crates store client asset = .ok (bytes, ctHint, httpStatus) →
    ∃ b, ExtractRouter.extract crates store client asset = .ok [b] ∧
      Carries crates asset bytes b := by
  intro h
  obtain ⟨b, hb, -⟩ := h brokenPdfCrates (fun _ => .ok brokenPdf) (fun _ => none)
    brokenPdfAsset brokenPdf (some "application/pdf".toList) none (by decide) (by rfl)
  have hlikely : isLikelyPdf brokenPdfAsset = true := by decide +kernel
  rw [ExtractRouter.extract, ExtractRouter.choose, if_pos hlikely] at hb
  cases hb

end

end Contexide.Extractor
