import Contexide.Extractor.Router
import Contexide.Text.Patterns

/-! When the router's look at a URL agrees with the URL's last path segment. The look is at
the whole URL, so the query and the fragment take part in it. -/

namespace Contexide.Extractor

open StoragePg Text

/-! ### Paths -/

/-- A query or a fragment starts here. -/
def isDelimiter (c : Char) : Bool := c == '?' || c == '#'

def beforeQuery (url : List Char) : List Char := url.takeWhile fun c => !isDelimiter c

/-- The query and the fragment, with the delimiter. -/
def fromQuery (url : List Char) : List Char := url.dropWhile fun c => !isDelimiter c

def afterScheme (url : List Char) : List Char :=
  if "https://".toList.isPrefixOf url then url.drop 8 else url.drop 7

/-- What follows the host. -/
def pathOf (url : List Char) : List Char := (afterScheme url).dropWhile (· != '/')

def lastSegment (path : List Char) : List Char := path.rtakeWhile (· != '/')

/-- `.pdf` up to the case of ASCII letters. -/
def EndsInPdf (s : List Char) : Prop := ".pdf".toList <:+ toAsciiLowercase s

instance (s : List Char) : Decidable (EndsInPdf s) :=
  inferInstanceAs (Decidable (".pdf".toList <:+ toAsciiLowercase s))

/-- The last segment of the path ends in `.pdf`. -/
def IsPdfPath (url : List Char) : Prop := EndsInPdf (lastSegment (pathOf (beforeQuery url)))

instance (url : List Char) : Decidable (IsPdfPath url) :=
  inferInstanceAs (Decidable (EndsInPdf _))

/-! ### Lower case -/

theorem toLower_eq_iff {c d : Char} (hd : d.toNat < 65) : c.toLower = d ↔ c = d := by
  unfold Char.toLower
  split
  · next hupper =>
    have hlow : 65 ≤ c.val.toNat := UInt32.le_iff_toNat_le.mp hupper.1
    have hhigh : c.val.toNat ≤ 90 := UInt32.le_iff_toNat_le.mp hupper.2
    refine iff_of_false (fun h => ?_) (fun h => ?_)
    · have hval : (c.val + 32).toNat = d.toNat := congrArg Char.toNat h
      rw [UInt32.toNat_add] at hval
      have : (32 : UInt32).toNat = 32 := rfl
      omega
    · rw [← h, Char.toNat] at hd
      omega
  · rfl

theorem endsInPdf_append_cons {d : Char} (hd : d = '/' ∨ isDelimiter d = true) (b t : List Char) :
    EndsInPdf (b ++ d :: t) ↔ EndsInPdf t := by
  have hlower : d.toLower ∉ ".pdf".toList := by
    rcases hd with rfl | hd
    · decide
    · simp only [isDelimiter, Bool.or_eq_true, beq_iff_eq] at hd
      rcases hd with rfl | rfl <;> decide
  rw [EndsInPdf, toAsciiLowercase, List.map_append, List.map_cons, suffix_append_cons_iff hlower]
  rfl

/-- The segment and what it is the last of end alike. -/
theorem endsInPdf_lastSegment (path : List Char) :
    EndsInPdf (lastSegment path) ↔ EndsInPdf path := by
  have hpath : path.rdropWhile (· != '/') ++ lastSegment path = path :=
    List.rdropWhile_append_rtakeWhile
  rcases List.eq_nil_or_concat (path.rdropWhile (· != '/')) with hnil | ⟨x, d, hconcat⟩
  · rw [hnil, List.nil_append] at hpath
    rw [hpath]
  · have hd : d = '/' := by
      have hlast := List.rdropWhile_last_not (· != '/') path (by simp [hconcat])
      simpa [hconcat] using hlast
    have hsplit : path = x ++ d :: lastSegment path := by
      rw [hconcat, List.concat_eq_append, List.append_assoc] at hpath
      exact hpath.symm
    rw [hsplit, endsInPdf_append_cons (.inl hd), ← hsplit]

/-- The look at a URL sees the path only when a query follows it, and sees the rest. -/
theorem looksPdf_append_cons {d : Char} {b : List Char} (hd : isDelimiter d = true)
    (hb : ∀ c ∈ b, isDelimiter c = false) (t : List Char) :
    looksPdf (toAsciiLowercase (b ++ d :: t)) = true ↔
      d = '?' ∧ EndsInPdf b ∨ looksPdf (toAsciiLowercase t) = true := by
  have hmark : '?' ∉ toAsciiLowercase b := by
    intro hmem
    obtain ⟨c, hc, hlower⟩ := List.mem_map.mp hmem
    rw [(toLower_eq_iff (by decide)).mp hlower] at hc
    exact absurd (hb _ hc) (by decide)
  have hlower : d.toLower = d ∧ d ∉ ".pdf".toList := by
    simp only [isDelimiter, Bool.or_eq_true, beq_iff_eq] at hd
    rcases hd with rfl | rfl <;> decide
  have hinside := infix_append_cons_iff (t := toAsciiLowercase t) hlower.2 hmark
  have hsuffix := suffix_append_cons_iff (b := toAsciiLowercase b) (t := toAsciiLowercase t)
    hlower.2
  have hmap : toAsciiLowercase (b ++ d :: t) = toAsciiLowercase b ++ d :: toAsciiLowercase t := by
    rw [toAsciiLowercase, List.map_append, List.map_cons, hlower.1]
    rfl
  rw [hmap]
  simp only [looksPdf, Bool.or_eq_true, decide_eq_true_eq]
  change _ ∨ ".pdf".toList ++ ['?'] <:+: _ ↔ _ ∨ _ ∨ ".pdf".toList ++ ['?'] <:+: _
  rw [hinside, hsuffix, EndsInPdf, or_left_comm]

theorem looksPdf_of_forall {b : List Char} (hb : ∀ c ∈ b, isDelimiter c = false) :
    looksPdf (toAsciiLowercase b) = true ↔ EndsInPdf b := by
  simp only [looksPdf, Bool.or_eq_true, decide_eq_true_eq]
  refine or_iff_left fun hinside => ?_
  obtain ⟨c, hc, hlower⟩ := List.mem_map.mp (hinside.subset (by decide : '?' ∈ ".pdf?".toList))
  rw [(toLower_eq_iff (by decide)).mp hlower] at hc
  exact absurd (hb _ hc) (by decide)

/-! ### Agreement -/

theorem not_isDelimiter_of_mem_beforeQuery {url : List Char} :
    ∀ c ∈ beforeQuery url, isDelimiter c = false := fun c hc => by
  simpa using List.mem_takeWhile_imp hc

theorem isDelimiter_of_fromQuery {url tail : List Char} {d : Char}
    (h : fromQuery url = d :: tail) : isDelimiter d = true := by
  have hhead := List.head?_dropWhile_not (fun c => !isDelimiter c) url
  rw [← fromQuery, h] at hhead
  simpa using hhead

/-- There is a path, and what precedes the query ends in `.pdf`. -/
theorem isPdfPath_iff (url : List Char) :
    IsPdfPath url ↔ ¬ pathOf (beforeQuery url) = [] ∧ EndsInPdf (beforeQuery url) := by
  rw [IsPdfPath, endsInPdf_lastSegment]
  generalize beforeQuery url = u
  cases hpath : pathOf u with
  | nil => exact iff_of_false (by decide) fun h => h.1 rfl
  | cons c path =>
    have hc : c = '/' := by
      have hhead := List.head?_dropWhile_not (· != '/') (afterScheme u)
      rw [← pathOf, hpath] at hhead
      simpa using hhead
    have hsuffix : pathOf u <:+ u := by
      refine (List.dropWhile_suffix _).trans ?_
      unfold afterScheme
      split
      · exact List.drop_suffix _ _
      · exact List.drop_suffix _ _
    obtain ⟨w, hw⟩ := hsuffix
    rw [← hw, hpath, endsInPdf_append_cons (.inl hc) w, ← List.nil_append (c :: path),
      endsInPdf_append_cons (.inl hc)]
    simp

/-- Nothing but the path decides. A PDF's name is not followed by a fragment, unless that
looks like a PDF too; what follows another name does not look like a PDF; and a host
without a path does not end in `.pdf`, unless a fragment follows. -/
structure PathDecides (url : List Char) : Prop where
  fragment : ∀ tail, fromQuery url = '#' :: tail → IsPdfPath url →
    looksPdf (toAsciiLowercase tail) = true
  query : ∀ d tail, fromQuery url = d :: tail → ¬ IsPdfPath url →
    looksPdf (toAsciiLowercase tail) = false
  host : pathOf (beforeQuery url) = [] → EndsInPdf (beforeQuery url) →
    ∃ tail, fromQuery url = '#' :: tail

/-- The condition where there is something after the path. -/
theorem pathDecides_cons {url tail : List Char} {d : Char} (hfrom : fromQuery url = d :: tail) :
    PathDecides url ↔
      (d = '#' → IsPdfPath url → looksPdf (toAsciiLowercase tail) = true) ∧
      (¬ IsPdfPath url → ¬ looksPdf (toAsciiLowercase tail) = true) ∧
      (pathOf (beforeQuery url) = [] → EndsInPdf (beforeQuery url) → d = '#') := by
  constructor
  · rintro ⟨hfragment, hquery, hhost⟩
    refine ⟨fun hd => hfragment tail (hd ▸ hfrom), fun hno => ?_, fun hnil hends => ?_⟩
    · rw [hquery d tail hfrom hno]
      exact Bool.false_ne_true
    · obtain ⟨tail', htail⟩ := hhost hnil hends
      rw [hfrom] at htail
      exact (List.cons.inj htail).1
  · rintro ⟨hfragment, hquery, hhost⟩
    refine ⟨fun tail' htail => ?_, fun d' tail' htail hno => ?_, fun hnil hends => ?_⟩
    · rw [hfrom] at htail
      cases htail
      exact hfragment rfl
    · rw [hfrom] at htail
      cases htail
      exact Bool.eq_false_iff.mpr (hquery hno)
    · exact ⟨tail, hhost hnil hends ▸ hfrom⟩

theorem looksPdf_iff_isPdfPath (url : List Char) :
    (looksPdf (toAsciiLowercase url) = true ↔ IsPdfPath url) ↔ PathDecides url := by
  have hpath := isPdfPath_iff url
  have hurl : beforeQuery url ++ fromQuery url = url := List.takeWhile_append_dropWhile
  cases hfrom : fromQuery url with
  | nil =>
    have hlooks : looksPdf (toAsciiLowercase url) = true ↔ EndsInPdf (beforeQuery url) := by
      rw [hfrom, List.append_nil] at hurl
      have hb : ∀ c ∈ beforeQuery url, isDelimiter c = false := not_isDelimiter_of_mem_beforeQuery
      rw [hurl] at hb ⊢
      exact looksPdf_of_forall hb
    rw [hlooks]
    constructor
    · intro h
      refine ⟨fun tail htail => ?_, fun d tail htail => ?_, fun hnil hends => ?_⟩
      · rw [hfrom] at htail
        cases htail
      · rw [hfrom] at htail
        cases htail
      · exact absurd hnil (hpath.mp (h.mp hends)).1
    · rintro ⟨-, -, hhost⟩
      rw [hpath]
      refine ⟨fun hends => ⟨fun hnil => ?_, hends⟩, And.right⟩
      obtain ⟨tail, htail⟩ := hhost hnil hends
      rw [hfrom] at htail
      cases htail
  | cons d tail =>
    have hd := isDelimiter_of_fromQuery hfrom
    have hlooks : looksPdf (toAsciiLowercase url) = true ↔
        d = '?' ∧ EndsInPdf (beforeQuery url) ∨ looksPdf (toAsciiLowercase tail) = true := by
      rw [← looksPdf_append_cons hd not_isDelimiter_of_mem_beforeQuery, ← hfrom, hurl]
    rw [hlooks, pathDecides_cons hfrom, hpath]
    generalize (looksPdf (toAsciiLowercase tail) = true) = T
    generalize EndsInPdf (beforeQuery url) = E
    generalize (pathOf (beforeQuery url) = []) = P
    simp only [isDelimiter, Bool.or_eq_true, beq_iff_eq] at hd
    rcases hd with rfl | rfl
    · simp only [Char.reduceEq, true_and, false_implies]
      grind
    · simp only [Char.reduceEq, false_and, false_or, true_implies]
      grind

/-- The router's look at the key of a URL, without a content type that mentions PDF, finds
a PDF by the last segment exactly when nothing else decides. -/
theorem isLikelyPdf_iff_isPdfPath {asset : AssetInput} {url : List Char}
    (hkey : asset.storageKey = some url) (hct : mentionsPdf asset.contentType = false) :
    (isLikelyPdf asset = true ↔ IsPdfPath url) ↔ PathDecides url := by
  rw [isLikelyPdf, hct, hkey, Bool.false_or, Option.any_some]
  exact looksPdf_iff_isPdfPath url

def assetAt (url : List Char) : AssetInput := ⟨⟨0⟩, ⟨0⟩, ⟨0⟩, some url, none⟩

theorem isLikelyPdf_iff_isPdfPath_download :
    (isLikelyPdf (assetAt "https://x/y.ZIP.pdf?dl=1".toList) = true ↔
        IsPdfPath "https://x/y.ZIP.pdf?dl=1".toList) ↔
      PathDecides "https://x/y.ZIP.pdf?dl=1".toList :=
  isLikelyPdf_iff_isPdfPath rfl (by decide)

/-- A page of a PDF is not taken for a PDF. -/
theorem fragment_hides_pdf : ¬ ∀ (asset : AssetInput) (url : List Char),
    asset.storageKey = some url → isHttp url = true → mentionsPdf asset.contentType = false →
    (isLikelyPdf asset = true ↔ IsPdfPath url) := by
  intro h
  have hlikely : isLikelyPdf (assetAt "https://x/y.pdf#page=2".toList) = true :=
    (h _ "https://x/y.pdf#page=2".toList rfl (by decide) (by decide)).mpr (by decide +kernel)
  revert hlikely
  decide +kernel

end Contexide.Extractor
