import Contexide.Normalizer.Text

/-! Markdown as plain text: the events of a parsed document are written out without markup,
and the result is normalized. The parser, the conversion of HTML and NFKC belong to other
crates. -/

namespace Contexide.Normalizer

inductive Tag where
  | paragraph | heading | blockQuote | codeBlock | htmlBlock
  | list (start : Option ℕ)
  | item | footnoteDefinition
  | definitionList | definitionListTitle | definitionListDefinition
  | table | tableHead | tableRow | tableCell
  | emphasis | strong | strikethrough | superscript | subscript
  | link | image | metadataBlock
  deriving DecidableEq, Repr

inductive TagEnd where
  | paragraph | heading | blockQuote | codeBlock | htmlBlock | list | item | footnoteDefinition
  | definitionList | definitionListTitle | definitionListDefinition
  | table | tableHead | tableRow | tableCell
  | emphasis | strong | strikethrough | superscript | subscript
  | link | image | metadataBlock
  deriving DecidableEq, Repr

inductive Event where
  | start (tag : Tag)
  | stop (tag : TagEnd)
  | text (cow : List Char)
  | code (cow : List Char)
  | html (cow : List Char)
  | inlineHtml (cow : List Char)
  | inlineMath (cow : List Char)
  | displayMath (cow : List Char)
  | softBreak | hardBreak | rule
  | footnoteReference (label : List Char)
  | taskListMarker (checked : Bool)
  deriving DecidableEq, Repr

structure MdOptions where
  enableTables : Bool := true
  enableFootnotes : Bool := false
  enableTasklists : Bool := true
  enableStrikethrough : Bool := true
  /-- Soft breaks become spaces, or else newlines. -/
  softBreakAsSpace : Bool := true
  deriving DecidableEq, Repr

/-- What the rendering uses of other crates. -/
structure MdCrates where
  nfkc : List Char → List Char
  html2text : List Char → ℕ → Option (List Char)
  parse : MdOptions → List Char → List Event

/-- `ordered` has the counters of the open lists, deepest first, with 0 for lists without
numbers. List numbers have at most nine digits, so that no counter overflows. -/
structure MdState where
  ordered : List ℕ
  inTable : Bool
  rowCellIdx : ℕ
  rowIdx : ℕ
  atBlockStart : Bool
  out : List Char
  deriving DecidableEq, Repr

namespace MdState

def new : MdState := ⟨[], false, 0, 0, true, []⟩

end MdState

def ensureNewline (buf : List Char) : List Char :=
  if buf.getLast? ≠ some '\n' ∧ buf ≠ [] then buf ++ ['\n'] else buf

def ensureBlankLine (buf : List Char) : List Char :=
  if ['\n', '\n'] <:+ buf then buf else ensureNewline buf ++ ['\n']

/-- The HTML as normalized text. -/
def normalizeHtml (crates : MdCrates) (inputHtml : List Char) : List Char :=
  normalizeChars crates.nfkc ((crates.html2text inputHtml 120).getD [])

/-- A block starts, apart from what is before it. -/
def startBlock (st : MdState) (separate : List Char → List Char) : MdState :=
  { st with out := if st.atBlockStart then st.out else separate st.out, atBlockStart := false }

def startTag (st : MdState) : Tag → MdState
  | .paragraph => startBlock st ensureNewline
  | .heading => startBlock st ensureBlankLine
  | .blockQuote => startBlock st ensureNewline
  | .codeBlock => { st with out := ensureBlankLine st.out, atBlockStart := false }
  | .list start => startBlock { st with ordered := start.getD 0 :: st.ordered } ensureNewline
  | .item =>
    match st.ordered with
    | [] => { st with out := st.out ++ ['-', ' '] }
    | top :: rest =>
      if top = 0 then { st with out := st.out ++ ['-', ' '] }
      else
        { st with
          out := st.out ++ Nat.toDigits 10 top ++ ['.', ' ']
          ordered := (top + 1) :: rest }
  | .table => { startBlock st ensureNewline with inTable := true, rowIdx := 0 }
  | .tableHead | .tableRow =>
    { st with
      out := if st.rowIdx > 0 then ensureNewline st.out else st.out
      rowCellIdx := 0
      rowIdx := st.rowIdx + 1 }
  | .tableCell => { st with out := if st.rowCellIdx > 0 then st.out ++ ['\t'] else st.out }
  | .htmlBlock | .footnoteDefinition | .definitionList | .definitionListTitle
  | .definitionListDefinition | .emphasis | .strong | .strikethrough | .superscript | .subscript
  | .link | .image | .metadataBlock => st

def endTag (st : MdState) : TagEnd → MdState
  | .paragraph | .blockQuote | .item => { st with out := ensureNewline st.out }
  | .heading | .codeBlock => { st with out := ensureBlankLine st.out }
  | .list => { st with ordered := st.ordered.tail, out := ensureNewline st.out }
  | .table => { st with inTable := false, out := ensureNewline st.out }
  | .tableHead | .tableRow | .tableCell | .htmlBlock | .footnoteDefinition | .definitionList
  | .definitionListTitle | .definitionListDefinition | .emphasis | .strong | .strikethrough
  | .superscript | .subscript | .link | .image | .metadataBlock => st

section

variable (crates : MdCrates) (opts : MdOptions)

def mdStep (st : MdState) : Event → MdState
  | .start tag => startTag st tag
  | .stop tag => endTag st tag
  | .text cow =>
    { st with
      out := st.out ++ cow
      rowCellIdx := if st.inTable then st.rowCellIdx + 1 else st.rowCellIdx }
  | .code cow | .inlineMath cow | .displayMath cow => { st with out := st.out ++ cow }
  | .inlineHtml cow => { st with out := st.out ++ normalizeHtml crates cow }
  | .softBreak => { st with out := st.out ++ [if opts.softBreakAsSpace then ' ' else '\n'] }
  | .hardBreak => { st with out := st.out ++ ['\n'] }
  | .rule => { st with out := ensureBlankLine st.out }
  | .html _ | .footnoteReference _ | .taskListMarker _ => st

/-- The loop over the events. -/
def mdRun (st : MdState) (events : List Event) : MdState := events.foldl (mdStep crates opts) st

def renderEvents (events : List Event) : List Char := (mdRun crates opts .new events).out

def renderPlainMarkdown (md : List Char) (opts : MdOptions) : List Char :=
  renderEvents crates opts (crates.parse opts md)

def normalizeMarkdownWith (md : List Char) (opts : MdOptions) : NormalizedText :=
  normalize crates.nfkc (String.ofList (renderPlainMarkdown crates md opts))

def normalizeMarkdown (md : List Char) : NormalizedText := normalizeMarkdownWith crates md {}

end

/-! ### Writing -/

theorem ensureNewline_of_ne {buf : List Char} (hne : buf ≠ []) (hlast : buf.getLast? ≠ some '\n') :
    ensureNewline buf = buf ++ ['\n'] := if_pos ⟨hlast, hne⟩

theorem ensureNewline_of_getLast? {buf : List Char} (hlast : buf.getLast? = some '\n') :
    ensureNewline buf = buf := if_neg fun h => h.1 hlast

@[simp] theorem ensureNewline_nil : ensureNewline [] = [] := rfl

theorem getLast?_ensureNewline {buf : List Char} (hne : buf ≠ []) :
    (ensureNewline buf).getLast? = some '\n' := by
  unfold ensureNewline
  split
  · simp
  · next hlast => exact not_not.mp fun h => hlast ⟨h, hne⟩

theorem ensureNewline_idem (buf : List Char) :
    ensureNewline (ensureNewline buf) = ensureNewline buf := by
  by_cases hne : buf = []
  · rw [hne]
    rfl
  · exact ensureNewline_of_getLast? (getLast?_ensureNewline hne)

theorem suffix_ensureBlankLine {buf : List Char} (hne : buf ≠ []) :
    ['\n', '\n'] <:+ ensureBlankLine buf := by
  unfold ensureBlankLine
  split
  · next hsuffix => exact hsuffix
  · obtain ⟨x, hx⟩ := List.getLast?_eq_some_iff.mp (getLast?_ensureNewline hne)
    exact ⟨x, by rw [hx, List.append_assoc]; rfl⟩

theorem prefix_ensureNewline (buf : List Char) : buf <+: ensureNewline buf := by
  unfold ensureNewline
  split
  · exact List.prefix_append _ _
  · exact List.prefix_rfl

theorem prefix_ensureBlankLine (buf : List Char) : buf <+: ensureBlankLine buf := by
  unfold ensureBlankLine
  split
  · exact List.prefix_rfl
  · exact (prefix_ensureNewline buf).trans (List.prefix_append _ _)

variable {crates : MdCrates} {opts : MdOptions}

theorem prefix_startBlock (st : MdState) {separate : List Char → List Char}
    (h : ∀ buf, buf <+: separate buf) : st.out <+: (startBlock st separate).out := by
  unfold startBlock
  dsimp only
  split
  · exact List.prefix_rfl
  · exact h st.out

/-- Nothing that was written is taken back. -/
theorem prefix_mdStep (st : MdState) (event : Event) :
    st.out <+: (mdStep crates opts st event).out := by
  cases event with
  | start tag =>
    cases tag with
    | paragraph | blockQuote | table => exact prefix_startBlock st prefix_ensureNewline
    | list start => exact prefix_startBlock { st with ordered := _ } prefix_ensureNewline
    | heading => exact prefix_startBlock st prefix_ensureBlankLine
    | codeBlock => exact prefix_ensureBlankLine st.out
    | item =>
      simp only [mdStep, startTag]
      split
      · exact List.prefix_append _ _
      · split
        · exact List.prefix_append _ _
        · exact (List.prefix_append _ _).trans (List.prefix_append _ _)
    | tableHead | tableRow =>
      simp only [mdStep, startTag]
      split
      · exact prefix_ensureNewline st.out
      · exact List.prefix_rfl
    | tableCell =>
      simp only [mdStep, startTag]
      split
      · exact List.prefix_append _ _
      · exact List.prefix_rfl
    | _ => exact List.prefix_rfl
  | stop tag =>
    cases tag with
    | paragraph | blockQuote | item | list | table => exact prefix_ensureNewline st.out
    | heading | codeBlock => exact prefix_ensureBlankLine st.out
    | _ => exact List.prefix_rfl
  | text | code | inlineMath | displayMath | inlineHtml | softBreak | hardBreak =>
    exact List.prefix_append _ _
  | rule => exact prefix_ensureBlankLine st.out
  | html | footnoteReference | taskListMarker => exact List.prefix_rfl

theorem mdRun_append (st : MdState) (events events' : List Event) :
    mdRun crates opts st (events ++ events') =
      mdRun crates opts (mdRun crates opts st events) events' :=
  List.foldl_append

@[simp] theorem mdRun_nil (st : MdState) : mdRun crates opts st [] = st := rfl

@[simp] theorem mdRun_cons (st : MdState) (event : Event) (events : List Event) :
    mdRun crates opts st (event :: events) =
      mdRun crates opts (mdStep crates opts st event) events := rfl

theorem prefix_mdRun (st : MdState) (events : List Event) :
    st.out <+: (mdRun crates opts st events).out := by
  induction events generalizing st with
  | nil => exact List.prefix_rfl
  | cons event events ih => exact (prefix_mdStep st event).trans (ih _)

/-! ### Inline events -/

/-- The events in a block: texts, breaks, emphasis, links and other marks. -/
def isInline : Event → Bool
  | .text _ | .code _ | .inlineHtml _ | .inlineMath _ | .displayMath _ | .softBreak | .hardBreak
  | .footnoteReference _ | .taskListMarker _ | .start .emphasis | .stop .emphasis
  | .start .strong | .stop .strong | .start .strikethrough | .stop .strikethrough
  | .start .superscript | .stop .superscript | .start .subscript | .stop .subscript
  | .start .link | .stop .link | .start .image | .stop .image => true
  | _ => false

namespace Event

def isText : Event → Bool
  | .text _ => true
  | _ => false

/-- What an inline event writes. -/
def written (crates : MdCrates) (opts : MdOptions) : Event → List Char
  | .text cow | .code cow | .inlineMath cow | .displayMath cow => cow
  | .inlineHtml cow => normalizeHtml crates cow
  | .softBreak => [if opts.softBreakAsSpace then ' ' else '\n']
  | .hardBreak => ['\n']
  | _ => []

end Event

/-- Inline events write what they stand for, and texts are counted in tables. -/
theorem mdRun_inline (st : MdState) {events : List Event} (h : events.all isInline = true) :
    mdRun crates opts st events =
      { st with
        out := st.out ++ events.flatMap (Event.written crates opts)
        rowCellIdx :=
          if st.inTable then st.rowCellIdx + events.countP Event.isText else st.rowCellIdx } := by
  induction events generalizing st with
  | nil => simp
  | cons e events ih =>
    rw [List.all_cons, Bool.and_eq_true] at h
    have hstep : mdStep crates opts st e =
        { st with
          out := st.out ++ e.written crates opts
          rowCellIdx :=
            if st.inTable && e.isText then st.rowCellIdx + 1 else st.rowCellIdx } := by
      cases e with
      | start tag =>
        cases tag with
        | emphasis | strong | strikethrough | superscript | subscript | link | image =>
          simp [mdStep, startTag, Event.written, Event.isText]
        | _ => cases h.1
      | stop tag =>
        cases tag with
        | emphasis | strong | strikethrough | superscript | subscript | link | image =>
          simp [mdStep, endTag, Event.written, Event.isText]
        | _ => cases h.1
      | html | rule => cases h.1
      | _ => simp [mdStep, Event.written, Event.isText]
    rw [mdRun_cons, hstep, ih _ h.2, List.flatMap_cons, List.countP_cons, List.append_assoc]
    cases st.inTable <;> cases e.isText <;> simp [Nat.add_left_comm, Nat.add_comm]

end Contexide.Normalizer
