import Contexide.Extractor.File
import Contexide.Extractor.Http
import Contexide.Extractor.Pdf

/-! Kinds of media types. The extractors of files and of URLs tell five kinds apart, and
the kind decides the modality of a block and its text. -/

namespace Contexide.Extractor

open StoragePg Text

/-- Pages, JSON and XML, other text, images, and the rest. -/
inductive Kind where
  | html | data | text | image | binary
  deriving DecidableEq, Repr

namespace Kind

variable (crates : Crates)

def ofMime (mime : List Char) : Kind :=
  if mime = "text/html".toList then .html
  else if mime = "application/json".toList ∨ mime = "application/xml".toList then .data
  else if "text/".toList.isPrefixOf mime then .text
  else if "image/".toList.isPrefixOf mime then .image
  else .binary

def modality : Kind → BlockModality
  | .html | .data | .text => .text
  | .image => .image
  | .binary => .binary

def textOf (bytes : List UInt8) : Kind → Option (List Char)
  | .html => htmlText crates bytes
  | .data | .text => plainText bytes
  | .image | .binary => none

theorem modalityForMime_eq (mime : List Char) :
    modalityForMime mime = (ofMime mime).modality := by
  unfold modalityForMime ofMime
  by_cases hhtml : mime = "text/html".toList
  · rw [if_pos hhtml, if_pos (.inl (by rw [hhtml]; decide))]
    rfl
  · rw [if_neg hhtml]
    by_cases hdata : mime = "application/json".toList ∨ mime = "application/xml".toList
    · rw [if_pos (.inr hdata), if_pos hdata]
      rfl
    · simp only [hdata, or_false, if_false]
      split
      · rfl
      · split <;> rfl

theorem toText_eq (mime : List Char) (bytes : List UInt8) :
    toText crates mime bytes = (ofMime mime).textOf crates bytes := by
  unfold toText ofMime
  split
  · rfl
  · by_cases hdata : mime = "application/json".toList ∨ mime = "application/xml".toList
    · rw [if_pos (.inr hdata), if_pos hdata]
      rfl
    · simp only [hdata, or_false, if_false]
      split
      · rfl
      · split <;> rfl

end Kind

/-! ### Treatment -/

/-- How an asset is treated: the modality of its block, the text, and whether the block
has the bytes instead. -/
structure Treatment where
  modality : BlockModality
  text : Option (List Char)
  isBlob : Bool
  deriving DecidableEq

def treatmentOf (b : ExtractedBlock) : Treatment := ⟨b.modality, b.text, b.blob.isSome⟩

def Kind.treatment (crates : Crates) (bytes : List UInt8) (k : Kind) : Treatment :=
  ⟨k.modality, k.textOf crates bytes, (k.textOf crates bytes).isNone⟩

variable (crates : Crates)

/-- Only text has a text. -/
theorem Kind.modality_of_textOf {k : Kind} {bytes : List UInt8} {t : List Char}
    (h : k.textOf crates bytes = some t) : k.modality = .text := by
  cases k with
  | html | data | text => rfl
  | image | binary => cases h

/-- A block of the text when there is one, of the bytes when there is none. -/
theorem Kind.treatmentOf_match {k : Kind} {bytes : List UInt8}
    {textBlock : List Char → ExtractedBlock} {blobBlock : ExtractedBlock}
    (htext : ∀ t, treatmentOf (textBlock t) = ⟨.text, some t, false⟩)
    (hblob : treatmentOf blobBlock = ⟨k.modality, none, true⟩) :
    treatmentOf (match k.textOf crates bytes with
      | some t => textBlock t
      | none => blobBlock) = k.treatment crates bytes := by
  rw [Kind.treatment]
  cases h : k.textOf crates bytes with
  | some t => rw [Kind.modality_of_textOf crates h, htext, Option.isNone_some]
  | none => rw [hblob, Option.isNone_none]

theorem HttpExtractor.treatmentOf_blockOf (asset : AssetInput) (url : List Char) (page : Page) :
    treatmentOf (HttpExtractor.blockOf crates asset url page) =
      (Kind.ofMime (detectMime crates page.contentType page.bytes)).treatment crates
        page.bytes := by
  unfold HttpExtractor.blockOf HttpExtractor.detectMime HttpExtractor.toText
    HttpExtractor.modalityForMime
  simp only [Kind.toText_eq, Kind.modalityForMime_eq]
  exact Kind.treatmentOf_match crates (fun _ => rfl) rfl

theorem BlobFileExtractor.treatmentOf_blockOf (asset : AssetInput) (data : List UInt8) :
    treatmentOf (BlobFileExtractor.blockOf crates asset data) =
      (Kind.ofMime (detectMime crates asset.contentType data)).treatment crates data := by
  unfold BlobFileExtractor.blockOf BlobFileExtractor.detectMime BlobFileExtractor.toText
    BlobFileExtractor.modalityForMime
  simp only [Kind.toText_eq, Kind.modalityForMime_eq]
  exact Kind.treatmentOf_match crates (fun _ => rfl) rfl

/-- Whether what is fetched is taken for a PDF. -/
def PdfExtractor.recognises (store : BlobStore) (client : Client) (asset : AssetInput) :
    Except Error Bool := do
  let fetched ← PdfExtractor.fetchBytes crates store client asset
  pure (PdfExtractor.isPdf (PdfExtractor.detectMime crates fetched.2.1 fetched.1))

/-- Nothing comes out of what is not taken for a PDF, and of no bytes. -/
theorem PdfExtractor.extract_eq_nil_iff {store : BlobStore} {client : Client} {asset : AssetInput}
    {bytes : List UInt8} {ctHint : Option (List Char)} {httpStatus : Option UInt16}
    (h : PdfExtractor.fetchBytes crates store client asset = .ok (bytes, ctHint, httpStatus)) :
    PdfExtractor.extract crates store client asset = .ok [] ↔
      bytes = [] ∨ PdfExtractor.recognises crates store client asset = .ok false := by
  have hrecognises : PdfExtractor.recognises crates store client asset =
      .ok (PdfExtractor.isPdf (PdfExtractor.detectMime crates ctHint bytes)) := by
    rw [PdfExtractor.recognises, h]
    rfl
  have hextract : PdfExtractor.extract crates store client asset =
      if bytes.isEmpty then .ok []
      else if !PdfExtractor.isPdf (PdfExtractor.detectMime crates ctHint bytes) then .ok []
      else (PdfExtractor.blockOf crates asset (PdfExtractor.detectMime crates ctHint bytes) bytes
        httpStatus).map fun block => [block] := by
    rw [PdfExtractor.extract, h]
    rfl
  rw [hextract, hrecognises]
  generalize PdfExtractor.detectMime crates ctHint bytes = mime
  cases bytes with
  | nil => simp
  | cons b bytes =>
    cases PdfExtractor.isPdf mime with
    | false => simp
    | true => cases PdfExtractor.blockOf crates asset mime (b :: bytes) httpStatus <;>
        simp [Except.map]

end Contexide.Extractor
