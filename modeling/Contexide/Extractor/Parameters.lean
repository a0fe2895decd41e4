import Contexide.Extractor.Kinds

/-! Parameters of content types. The media type is the whole content type, so that a
parameter hides a type that is compared with a literal, and leaves one alone that is told
by its beginning. -/

namespace Contexide.Extractor

open StoragePg Text

/-- A content type with a parameter. -/
def withParameter (m p : List Char) : List Char := m ++ ';' :: ' ' :: p

/-! ### Comparing with literals -/

section Literals

theorem isPrefixOf_append_cons {l : List Char} {c : Char} (hc : c ∉ l) (t y : List Char) :
    l.isPrefixOf (t ++ c :: y) = l.isPrefixOf t := by
  induction l generalizing t with
  | nil => cases t <;> rfl
  | cons d l ih =>
    rw [List.mem_cons, not_or] at hc
    cases t with
    | nil => simp [List.isPrefixOf, Ne.symm hc.1]
    | cons e t => rw [List.cons_append, List.isPrefixOf, List.isPrefixOf, ih hc.2]

/-- No literal has a semicolon. -/
theorem ne_literal {l z : List Char} (hz : ';' ∈ z) (hl : ';' ∉ l) : z ≠ l :=
  fun h => hl (h ▸ hz)

/-- The kind that is left of a kind when a parameter follows. -/
def Kind.withParameter : Kind → Kind
  | .html | .text => .text
  | .image => .image
  | .data | .binary => .binary

/-- A parameter begins with whitespace or its semicolon. -/
structure IsTail (z : List Char) : Prop where
  semicolon : ';' ∈ z
  head : ∃ c y, z = c :: y ∧ (isWhitespace c = true ∨ c = ';')

theorem IsTail.isPrefixOf_append {z : List Char} (hz : IsTail z) (t : List Char)
    {l : List Char} (hl : l.all (fun c => !isWhitespace c && c != ';') = true) :
    l.isPrefixOf (t ++ z) = l.isPrefixOf t := by
  obtain ⟨c, y, rfl, hc⟩ := hz.head
  refine isPrefixOf_append_cons (fun hmem => ?_) t y
  have hsafe := List.all_eq_true.mp hl c hmem
  rcases hc with hc | rfl
  · simp [hc] at hsafe
  · simp at hsafe

theorem Kind.ofMime_append {z : List Char} (hz : IsTail z) (t : List Char) :
    Kind.ofMime (t ++ z) = (Kind.ofMime t).withParameter := by
  have hne : ∀ l : List Char, ';' ∉ l → t ++ z ≠ l := fun _ =>
    ne_literal (List.mem_append_right t hz.semicolon)
  have hhtml := hne "text/html".toList (by decide)
  have hdata : ¬ (t ++ z = "application/json".toList ∨ t ++ z = "application/xml".toList) :=
    not_or.mpr ⟨hne _ (by decide), hne _ (by decide)⟩
  rw [Kind.ofMime, if_neg hhtml, if_neg hdata,
    hz.isPrefixOf_append t (l := "text/".toList) (by decide),
    hz.isPrefixOf_append t (l := "image/".toList) (by decide)]
  by_cases hthtml : t = "text/html".toList
  · rw [hthtml]
    rfl
  · by_cases htdata : t = "application/json".toList ∨ t = "application/xml".toList
    · rcases htdata with rfl | rfl <;> rfl
    · rw [Kind.ofMime, if_neg hthtml, if_neg htdata]
      split
      · rfl
      · split <;> rfl

theorem isPdf_append {z : List Char} (hz : IsTail z) (t : List Char) :
    PdfExtractor.isPdf (t ++ z) = false := by
  have hmem : ';' ∈ t ++ z := List.mem_append_right t hz.semicolon
  simp [PdfExtractor.isPdf, ne_literal hmem]

end Literals

section

variable (crates : Crates)

/-- Trimming and lower case leave the type alone and add the parameter. -/
theorem exists_toLowercase_withParameter (m p : List Char) :
    ∃ z, IsTail z ∧ crates.cases.toLowercase (trim (withParameter m p)) =
      crates.cases.toLowercase (trim m) ++ z := by
  obtain ⟨g, hg, hfront⟩ := exists_dropWhile_eq_trim_append m
  have hgs : ∀ c ∈ g, crates.cases.Separates c := fun c hc => crates.separates c (.inl (hg c hc))
  refine ⟨g ++ ';' :: crates.cases.toLowercase ((' ' :: p).rdropWhile isWhitespace), ⟨?_, ?_⟩, ?_⟩
  · exact List.mem_append_right g List.mem_cons_self
  · cases g with
    | nil => exact ⟨_, _, rfl, .inr rfl⟩
    | cons c g => exact ⟨_, _, rfl, .inl (hg c List.mem_cons_self)⟩
  · rw [withParameter, trim_append_cons _ _ (by decide),
      (crates.separates ';' (.inr rfl)).toLowercase_append, hfront,
      CaseTable.toLowercase_append_of_separates _ hgs, List.append_assoc]

theorem detectMime_withParameter (m p : List Char) (bytes : List UInt8) :
    detectMime crates (some (withParameter m p)) bytes =
      crates.cases.toLowercase (trim (withParameter m p)) := by
  refine if_pos ?_
  rw [withParameter, trim_append_cons _ _ (by decide)]
  simp

/-! ### Treatment with a parameter -/

/-- When two kinds are treated alike on the same bytes. -/
def Kind.Alike (bytes : List UInt8) (a b : Kind) : Prop :=
  a = b ∨ a.modality = .text ∧ b.modality = .text ∧
    (a = .html ∨ b = .html → htmlText crates bytes = plainText bytes)

theorem Kind.treatment_eq_iff (bytes : List UInt8) (a b : Kind) :
    a.treatment crates bytes = b.treatment crates bytes ↔ a.Alike crates bytes b := by
  have hparts : a.treatment crates bytes = b.treatment crates bytes ↔
      a.modality = b.modality ∧ a.textOf crates bytes = b.textOf crates bytes := by
    rw [Kind.treatment, Kind.treatment, Treatment.mk.injEq]
    exact ⟨fun h => ⟨h.1, h.2.1⟩, fun h => ⟨h.1, h.2, by rw [h.2]⟩⟩
  have hsymm : plainText bytes = htmlText crates bytes ↔ htmlText crates bytes = plainText bytes :=
    eq_comm
  rw [hparts]
  cases a <;> cases b <;> simp [Kind.Alike, Kind.modality, Kind.textOf, hsymm]

theorem Kind.treatment_withParameter_iff (bytes : List UInt8) (k : Kind) :
    k.withParameter.treatment crates bytes = k.treatment crates bytes ↔
      k ≠ .data ∧ (k = .html → htmlText crates bytes = plainText bytes) := by
  rw [Kind.treatment_eq_iff]
  cases k <;> simp [Kind.withParameter, Kind.Alike, Kind.modality]

/-- The kind of a content type, which must not be blank. -/
def kindOf (m : List Char) : Kind := .ofMime (crates.cases.toLowercase (trim m))

/-- The content types that are treated alike with a parameter. -/
def KeepsTreatment (m : List Char) (bytes : List UInt8) : Prop :=
  if trim m = [] then Kind.ofMime (sniffed crates bytes) = .binary
  else kindOf crates m ≠ .data ∧
    (kindOf crates m = .html → htmlText crates bytes = plainText bytes)

/-- The content types that are no PDF. -/
def KeepsPdf (m : List Char) (bytes : List UInt8) : Prop :=
  if trim m = [] then PdfExtractor.isPdf (sniffed crates bytes) = false
  else PdfExtractor.isPdf (crates.cases.toLowercase (trim m)) = false

theorem keepsTreatment_iff (m p : List Char) (bytes : List UInt8) :
    (Kind.ofMime (detectMime crates (some (withParameter m p)) bytes)).treatment crates bytes =
      (Kind.ofMime (detectMime crates (some m) bytes)).treatment crates bytes ↔
      KeepsTreatment crates m bytes := by
  obtain ⟨z, hz, htype⟩ := exists_toLowercase_withParameter crates m p
  rw [detectMime_withParameter, htype, Kind.ofMime_append hz, KeepsTreatment, detectMime]
  by_cases hblank : trim m = []
  · have hbinary : (Kind.ofMime (crates.cases.toLowercase (trim m))).withParameter = .binary := by
      rw [hblank]
      rfl
    rw [if_pos hblank, if_neg (not_not.mpr hblank), hbinary, Kind.treatment_eq_iff]
    cases Kind.ofMime (sniffed crates bytes) <;> simp [Kind.Alike, Kind.modality]
  · rw [if_neg hblank, if_pos hblank]
    exact Kind.treatment_withParameter_iff crates bytes _

theorem keepsPdf_iff (m p : List Char) (bytes : List UInt8) :
    PdfExtractor.isPdf (detectMime crates (some (withParameter m p)) bytes) =
      PdfExtractor.isPdf (detectMime crates (some m) bytes) ↔ KeepsPdf crates m bytes := by
  obtain ⟨z, hz, htype⟩ := exists_toLowercase_withParameter crates m p
  rw [detectMime_withParameter, htype, isPdf_append hz, KeepsPdf, detectMime, eq_comm]
  by_cases hblank : trim m = []
  · rw [if_pos hblank, if_neg (not_not.mpr hblank)]
  · rw [if_neg hblank, if_pos hblank]

/-! ### Runs -/

/-- A server that answers every request alike. -/
def served (status : UInt16) (ct : List Char) (body : List UInt8) : Client :=
  fun _ => some ⟨status, some ct, some body⟩

/-- A store that has the same bytes under every key. -/
def stored (body : List UInt8) : BlobStore := fun _ => .ok body

def treatments (out : Except Error (List ExtractedBlock)) : Except Error (List Treatment) :=
  out.map (List.map treatmentOf)

/-- The asset with another content type. -/
def withContentType (asset : AssetInput) (ct : List Char) : AssetInput :=
  { asset with contentType := some ct }

theorem getUrl_served (status : UInt16) (ct : List Char) (body : List UInt8) (url : List Char) :
    getUrl crates (served status ct body) url =
      if !isSuccess status then
        .error (.other ("GET " ++ String.ofList url ++ " -> " ++ crates.showStatus status))
      else .ok ⟨body, toStr ct, status⟩ := rfl

theorem treatments_http (status : UInt16) (ct : List Char) (body : List UInt8)
    (asset : AssetInput) :
    treatments (HttpExtractor.extract crates (served status ct body) asset) =
      (HttpExtractor.requireUrl asset).bind fun url =>
        if !isSuccess status then
          .error (.other ("GET " ++ String.ofList url ++ " -> " ++ crates.showStatus status))
        else .ok [(Kind.ofMime (detectMime crates (toStr ct) body)).treatment crates body] := by
  unfold HttpExtractor.extract
  cases HttpExtractor.requireUrl asset with
  | error e => rfl
  | ok url =>
    simp only [bind, Except.bind, getUrl_served]
    cases isSuccess status with
    | false => rfl
    | true =>
      exact congrArg (fun t => Except.ok [t])
        (HttpExtractor.treatmentOf_blockOf crates asset url ⟨body, toStr ct, status⟩)

theorem treatments_file (ct : List Char) (body : List UInt8) (asset : AssetInput) :
    treatments (BlobFileExtractor.extract crates (stored body) (withContentType asset ct)) =
      match asset.storageKey with
      | none => .error (.notFound "asset.storage_key")
      | some _ =>
        if body.isEmpty then .ok []
        else .ok [(Kind.ofMime (detectMime crates (some ct) body)).treatment crates body] := by
  unfold BlobFileExtractor.extract withContentType
  cases asset.storageKey with
  | none => rfl
  | some key =>
    cases body with
    | nil => rfl
    | cons b body =>
      exact congrArg (fun t => Except.ok [t])
        (BlobFileExtractor.treatmentOf_blockOf crates _ (b :: body))

/-- An asset with a URL. -/
def urlAsset : AssetInput := ⟨⟨0⟩, ⟨0⟩, ⟨0⟩, some "http://".toList, none⟩

/-- An asset with a key of the blob store. -/
def keyAsset : AssetInput := ⟨⟨0⟩, ⟨0⟩, ⟨0⟩, some [], none⟩

theorem http_iff (ct ct' : List Char) (body : List UInt8) :
    (∀ asset status, treatments (HttpExtractor.extract crates (served status ct body) asset) =
      treatments (HttpExtractor.extract crates (served status ct' body) asset)) ↔
    (Kind.ofMime (detectMime crates (toStr ct) body)).treatment crates body =
      (Kind.ofMime (detectMime crates (toStr ct') body)).treatment crates body := by
  simp only [treatments_http]
  constructor
  · intro h
    have hone := h urlAsset 200
    exact (List.cons.inj (Except.ok.inj hone)).1
  · intro h asset status
    rw [h]

theorem file_iff (ct ct' : List Char) (body : List UInt8) :
    (∀ asset,
      treatments (BlobFileExtractor.extract crates (stored body) (withContentType asset ct)) =
        treatments (BlobFileExtractor.extract crates (stored body) (withContentType asset ct'))) ↔
    (body ≠ [] → (Kind.ofMime (detectMime crates (some ct) body)).treatment crates body =
      (Kind.ofMime (detectMime crates (some ct') body)).treatment crates body) := by
  simp only [treatments_file]
  cases body with
  | nil => simp
  | cons b body =>
    constructor
    · intro h _
      exact (List.cons.inj (Except.ok.inj (h keyAsset))).1
    · intro h asset
      rw [h (List.cons_ne_nil b body)]

theorem recognises_eq (status : UInt16) (ct : List Char) (body : List UInt8)
    (asset : AssetInput) :
    PdfExtractor.recognises crates (stored body) (served status ct body)
        (withContentType asset ct) =
      match asset.storageKey with
      | none => .error (.notFound "asset.storage_key")
      | some key =>
        if !isHttp key then .ok (PdfExtractor.isPdf (detectMime crates (some ct) body))
        else if !isSuccess status then
          .error (.other ("GET " ++ String.ofList key ++ " -> " ++ crates.showStatus status))
        else .ok (PdfExtractor.isPdf (detectMime crates (toStr ct) body)) := by
  unfold PdfExtractor.recognises PdfExtractor.fetchBytes withContentType
  cases asset.storageKey with
  | none => rfl
  | some key =>
    simp only [getUrl_served]
    cases isHttp key with
    | false => rfl
    | true => cases isSuccess status <;> rfl

/-- A PDF is recognised by the content type of a blob and by that of a response. -/
theorem pdf_iff (ct ct' : List Char) (body : List UInt8) :
    (∀ asset status,
      PdfExtractor.recognises crates (stored body) (served status ct body)
          (withContentType asset ct) =
        PdfExtractor.recognises crates (stored body) (served status ct' body)
          (withContentType asset ct')) ↔
    PdfExtractor.isPdf (detectMime crates (some ct) body) =
        PdfExtractor.isPdf (detectMime crates (some ct') body) ∧
      PdfExtractor.isPdf (detectMime crates (toStr ct) body) =
        PdfExtractor.isPdf (detectMime crates (toStr ct') body) := by
  simp only [recognises_eq]
  constructor
  · intro h
    exact ⟨Except.ok.inj (h keyAsset 200), Except.ok.inj (h urlAsset 200)⟩
  · rintro ⟨hblob, hurl⟩ asset status
    rw [hblob, hurl]

/-- Content types that are not visible ASCII are not read, with the parameter or without. -/
theorem header_iff {β : Type} (J : List Char → β) (m p : List Char) (body : List UInt8) :
    J (detectMime crates (toStr (withParameter m p)) body) =
        J (detectMime crates (toStr m) body) ↔
      (m.all isVisibleAscii = true →
        (p.all isVisibleAscii = true →
          J (detectMime crates (some (withParameter m p)) body) =
            J (detectMime crates (some m) body)) ∧
        (p.all isVisibleAscii = false → trim m ≠ [] →
          J (sniffed crates body) = J (crates.cases.toLowercase (trim m)))) := by
  have hall : (withParameter m p).all isVisibleAscii =
      (m.all isVisibleAscii && p.all isVisibleAscii) := by
    rw [withParameter, List.all_append]
    rfl
  unfold toStr
  rw [hall]
  cases m.all isVisibleAscii with
  | false => simp
  | true =>
    cases p.all isVisibleAscii with
    | true => simp
    | false =>
      by_cases hblank : trim m = [] <;> simp [detectMime, hblank]

/-! ### When a parameter changes nothing -/

/-- A content type with a parameter is treated as without: the blocks have the same
modality, both text or both bytes, and the same text, and it is taken for a PDF both times
or not at all. -/
structure ParameterIgnored (m p : List Char) (body : List UInt8) : Prop where
  http : ∀ asset status,
    treatments (HttpExtractor.extract crates (served status (withParameter m p) body) asset) =
      treatments (HttpExtractor.extract crates (served status m body) asset)
  file : ∀ asset,
    treatments (BlobFileExtractor.extract crates (stored body)
        (withContentType asset (withParameter m p))) =
      treatments (BlobFileExtractor.extract crates (stored body) (withContentType asset m))
  pdf : ∀ asset status,
    PdfExtractor.recognises crates (stored body) (served status (withParameter m p) body)
        (withContentType asset (withParameter m p)) =
      PdfExtractor.recognises crates (stored body) (served status m body)
        (withContentType asset m)

/-- The parameter changes nothing when the type is neither compared with a literal nor
replaced by what the bytes show; over HTTP the bytes also count when the parameter is not
visible ASCII. -/
structure Unaffected (m p : List Char) (body : List UInt8) : Prop where
  http : m.all isVisibleAscii = true →
    (p.all isVisibleAscii = true → KeepsTreatment crates m body) ∧
    (p.all isVisibleAscii = false → trim m ≠ [] →
      (Kind.ofMime (sniffed crates body)).Alike crates body (kindOf crates m))
  file : body ≠ [] → KeepsTreatment crates m body
  pdf : KeepsPdf crates m body
  pdfSniffed : m.all isVisibleAscii = true → p.all isVisibleAscii = false → trim m ≠ [] →
    PdfExtractor.isPdf (sniffed crates body) = false

theorem KeepsPdf.isPdf_eq {m : List Char} {body : List UInt8} (h : KeepsPdf crates m body)
    (hne : trim m ≠ []) :
    PdfExtractor.isPdf (crates.cases.toLowercase (trim m)) = false := by
  rwa [KeepsPdf, if_neg hne] at h

/-- The parameter of a content type changes nothing exactly for these content types. -/
theorem parameterIgnored_iff (m p : List Char) (body : List UInt8) :
    ParameterIgnored crates m p body ↔ Unaffected crates m p body := by
  have hhttp := (http_iff crates (withParameter m p) m body).trans
    (header_iff crates (fun mime => (Kind.ofMime mime).treatment crates body) m p body)
  simp only [keepsTreatment_iff] at hhttp
  simp only [Kind.treatment_eq_iff] at hhttp
  have hpdf := header_iff crates PdfExtractor.isPdf m p body
  simp only [keepsPdf_iff] at hpdf
  constructor
  · intro h
    obtain ⟨hblob, hurl⟩ := (pdf_iff crates _ _ body).mp h.pdf
    have hkeeps : KeepsPdf crates m body := (keepsPdf_iff crates m p body).mp hblob
    exact {
      http := hhttp.mp h.http
      file := fun hne =>
        (keepsTreatment_iff crates m p body).mp ((file_iff crates _ _ body).mp h.file hne)
      pdf := hkeeps
      pdfSniffed := fun hm hp hne => by
        rw [(hpdf.mp hurl hm).2 hp hne, hkeeps.isPdf_eq crates hne] }
  · intro h
    have hurl := hpdf.mpr fun hm =>
      ⟨fun _ => h.pdf, fun hp hne => by
        rw [h.pdfSniffed hm hp hne, h.pdf.isPdf_eq crates hne]⟩
    exact {
      http := hhttp.mpr h.http
      file := (file_iff crates _ _ body).mpr fun hne =>
        (keepsTreatment_iff crates m p body).mpr (h.file hne)
      pdf := (pdf_iff crates _ _ body).mpr ⟨(keepsPdf_iff crates m p body).mpr h.pdf, hurl⟩ }

/-- ASCII letters, bytes that show no type and pages without markup. -/
def asciiCrates : Crates where
  cases := .ascii
  separates := by
    rintro c (h | rfl)
    · exact CaseTable.ascii_separates_of_isWhitespace h
    · exact CaseTable.ascii_separates (.inl (by decide))
  infer := fun _ => none
  html2text := fun s _ => some s
  pdfExtract := fun _ => .ok []
  showStatus := fun _ => "200 OK"

/-- JSON becomes bytes when the character set is given. -/
theorem json_with_charset_is_binary : ¬ ∀ (crates : Crates) (m p : List Char) (body : List UInt8),
    ';' ∉ m → ParameterIgnored crates m p body := by
  intro h
  have hfile := (h asciiCrates "application/json".toList "charset=utf-8".toList [0x7B, 0x7D]
    (by decide)).file keyAsset
  revert hfile
  decide

end

end Contexide.Extractor
