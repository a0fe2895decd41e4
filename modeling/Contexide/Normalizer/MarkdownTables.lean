import Contexide.Normalizer.Markdown
import Mathlib.Algebra.GroupWithZero.Nat

/-! Tables as text. Tabs are written by a counter of texts, not of cells, so that cells run
together after cells without text. -/

namespace Contexide.Normalizer

/-! ### Tables -/

/-- A cell with inline events: text, code, emphasis, links, or nothing. -/
structure Cell where
  events : List Event
  inline : events.all isInline = true

namespace Cell

def hasText (c : Cell) : Bool := c.events.any Event.isText

/-- The number of pieces of text, which the renderer counts. -/
def texts (c : Cell) : ℕ := c.events.countP Event.isText

def stream (c : Cell) : List Event := .start .tableCell :: c.events ++ [.stop .tableCell]

end Cell

section

variable (crates : MdCrates) (opts : MdOptions)

def Cell.text (c : Cell) : List Char := c.events.flatMap (Event.written crates opts)

/-- Cells with a tab between them. -/
def rowText (row : List Cell) : List Char := ['\t'].intercalate (row.map (Cell.text crates opts))

/-- Rows with a newline between them. -/
def rowsText (rows : List (List Cell)) : List Char :=
  ['\n'].intercalate (rows.map (rowText crates opts))

end

def rowStream (tag : Tag) (tagEnd : TagEnd) (row : List Cell) : List Event :=
  .start tag :: (row.flatMap Cell.stream ++ [.stop tagEnd])

/-- The events of a table before its end. -/
def tableStream (head : List Cell) (body : List (List Cell)) : List Event :=
  .start .table :: (rowStream .tableHead .tableHead head ++
    body.flatMap (rowStream .tableRow .tableRow))

variable {crates : MdCrates} {opts : MdOptions}

/-- What is written when a table starts after other events. -/
def tableStart (crates : MdCrates) (opts : MdOptions) (before : List Event) : List Char :=
  renderEvents crates opts (before ++ [.start .table])

/-- After other events, a table is written as its cells with tabs between them, row after
row. -/
def TableRendered (crates : MdCrates) (opts : MdOptions) (before : List Event)
    (head : List Cell) (body : List (List Cell)) : Prop :=
  renderEvents crates opts (before ++ tableStream head body) =
    tableStart crates opts before ++ rowsText crates opts (head :: body)

def AtLineStart (buf : List Char) : Prop := buf = [] ∨ buf.getLast? = some '\n'

/-- Where there is a second cell, the first one has text. -/
def RowApart : List Cell → Prop
  | c :: _ :: _ => c.hasText = true
  | _ => True

/-- The first cell of each row with more than one cell has text, and no row but the last
leaves the text at the start of a line, as a row without any text does. -/
structure TableApart (crates : MdCrates) (opts : MdOptions) (start : List Char)
    (rows : List (List Cell)) : Prop where
  tabs : ∀ row ∈ rows, RowApart row
  newlines : ∀ done rest, rows = done ++ rest → done ≠ [] → rest ≠ [] →
    ¬ AtLineStart (start ++ rowsText crates opts done)

/-! ### What is written -/

/-- The cells after a number of texts. -/
def writeCells (crates : MdCrates) (opts : MdOptions) : ℕ → List Cell → List Char
  | _, [] => []
  | n, c :: row =>
    (if n > 0 then ['\t'] else []) ++ c.text crates opts ++ writeCells crates opts (n + c.texts) row

theorem mdRun_cell {st : MdState} (hst : st.inTable = true) (c : Cell) :
    mdRun crates opts st c.stream =
      { st with
        out := st.out ++ ((if st.rowCellIdx > 0 then ['\t'] else []) ++ c.text crates opts)
        rowCellIdx := st.rowCellIdx + c.texts } := by
  rw [Cell.stream, List.cons_append, mdRun_cons, mdRun_append,
    mdRun_inline _ c.inline]
  simp only [mdRun_cons, mdRun_nil, mdStep, startTag, endTag, hst, if_true]
  split
  · rw [List.append_assoc]
    rfl
  · rfl

theorem mdRun_cells {st : MdState} (hst : st.inTable = true) (row : List Cell) :
    mdRun crates opts st (row.flatMap Cell.stream) =
      { st with
        out := st.out ++ writeCells crates opts st.rowCellIdx row
        rowCellIdx := st.rowCellIdx + (row.map Cell.texts).sum } := by
  induction row generalizing st with
  | nil => simp [writeCells]
  | cons c row ih =>
    rw [List.flatMap_cons, mdRun_append, mdRun_cell hst, ih (by exact hst), writeCells]
    simp only [List.append_assoc, List.map_cons, List.sum_cons, Nat.add_assoc]

/-- A row after the first starts on a new line. -/
theorem mdRun_row {st : MdState} (hst : st.inTable = true) (tag : Tag) (tagEnd : TagEnd)
    (htag : tag = .tableHead ∨ tag = .tableRow) (hend : tagEnd = .tableHead ∨ tagEnd = .tableRow)
    (row : List Cell) :
    mdRun crates opts st (rowStream tag tagEnd row) =
      { st with
        out := (if st.rowIdx > 0 then ensureNewline st.out else st.out) ++
          writeCells crates opts 0 row
        rowCellIdx := (row.map Cell.texts).sum
        rowIdx := st.rowIdx + 1 } := by
  have hstart : mdStep crates opts st (.start tag) =
      { st with
        out := if st.rowIdx > 0 then ensureNewline st.out else st.out
        rowCellIdx := 0
        rowIdx := st.rowIdx + 1 } := by
    rcases htag with rfl | rfl <;> rfl
  have hstop : ∀ st', mdStep crates opts st' (.stop tagEnd) = st' := by
    rcases hend with rfl | rfl <;> exact fun _ => rfl
  rw [rowStream, mdRun_cons, mdRun_append, hstart, mdRun_cells (by exact hst), mdRun_cons,
    hstop, mdRun_nil, Nat.zero_add]

def writeRows (crates : MdCrates) (opts : MdOptions) (buf : List Char)
    (rows : List (List Cell)) : List Char :=
  rows.foldl (fun buf row => ensureNewline buf ++ writeCells crates opts 0 row) buf

theorem out_mdRun_rows {st : MdState} (hst : st.inTable = true) (hrow : st.rowIdx > 0)
    (body : List (List Cell)) :
    (mdRun crates opts st (body.flatMap (rowStream .tableRow .tableRow))).out =
      writeRows crates opts st.out body := by
  induction body generalizing st with
  | nil => rfl
  | cons row body ih =>
    rw [List.flatMap_cons, mdRun_append, mdRun_row hst _ _ (.inr rfl) (.inr rfl), if_pos hrow,
      ih (by exact hst) (Nat.succ_pos _)]
    rfl

theorem renderEvents_tableStream (before : List Event) (head : List Cell)
    (body : List (List Cell)) :
    renderEvents crates opts (before ++ tableStream head body) =
      writeRows crates opts (tableStart crates opts before ++ writeCells crates opts 0 head)
        body := by
  have hstart : mdRun crates opts .new (before ++ [.start .table]) =
      startTag (mdRun crates opts .new before) .table := mdRun_append _ _ _
  have hhead : mdRun crates opts (startTag (mdRun crates opts .new before) .table)
      (rowStream .tableHead .tableHead head) = _ :=
    mdRun_row rfl .tableHead .tableHead (.inl rfl) (.inl rfl) head
  rw [tableStart, renderEvents, renderEvents, hstart, tableStream, mdRun_append, mdRun_cons,
    mdRun_append]
  change (mdRun crates opts (mdRun crates opts (startTag (mdRun crates opts .new before) .table)
    (rowStream .tableHead .tableHead head)) _).out = _
  rw [hhead, out_mdRun_rows (by rfl) (Nat.succ_pos _)]
  rfl

/-! ### What is missing -/

/-- Cells with a tab before each. -/
def tabbed (crates : MdCrates) (opts : MdOptions) (row : List Cell) : List Char :=
  row.flatMap fun c => '\t' :: c.text crates opts

theorem rowText_cons (c : Cell) (row : List Cell) :
    rowText crates opts (c :: row) = c.text crates opts ++ tabbed crates opts row := by
  induction row generalizing c with
  | nil => simp [rowText, tabbed]
  | cons d row ih =>
    rw [rowText, List.map_cons, List.map_cons, List.intercalate_cons_cons, ← List.map_cons]
    change c.text crates opts ++ ['\t'] ++ rowText crates opts (d :: row) = _
    rw [ih, List.append_assoc]
    rfl

/-- After a text every cell has its tab. -/
theorem writeCells_of_pos {n : ℕ} (hn : n > 0) (row : List Cell) :
    writeCells crates opts n row = tabbed crates opts row := by
  induction row generalizing n with
  | nil => rfl
  | cons c row ih =>
    rw [writeCells, if_pos hn, ih (Nat.add_pos_left hn _)]
    rfl

theorem length_writeCells_le (crates : MdCrates) (opts : MdOptions) (n : ℕ) (row : List Cell) :
    (writeCells crates opts n row).length ≤ (tabbed crates opts row).length := by
  induction row generalizing n with
  | nil => exact Nat.le_refl _
  | cons c row ih =>
    have htail := ih (n + c.texts)
    have hcons : tabbed crates opts (c :: row) =
        '\t' :: (c.text crates opts ++ tabbed crates opts row) := rfl
    rw [writeCells, hcons]
    split <;> simp only [List.length_append, List.length_cons, List.length_nil] <;> omega

theorem texts_pos {c : Cell} : c.texts > 0 ↔ c.hasText = true := by
  rw [Cell.texts, Cell.hasText, gt_iff_lt, List.countP_pos_iff, List.any_eq_true]

theorem writeCells_eq_rowText {row : List Cell} (h : RowApart row) :
    writeCells crates opts 0 row = rowText crates opts row := by
  rcases row with _ | ⟨c, _ | ⟨d, row⟩⟩
  · rfl
  · simp [writeCells, rowText]
  · rw [rowText_cons, writeCells, Nat.zero_add, writeCells_of_pos (texts_pos.mpr h)]
    rfl

/-- Without a text in the first cell, a tab is missing. -/
theorem length_writeCells_lt (crates : MdCrates) (opts : MdOptions) {row : List Cell}
    (h : ¬ RowApart row) :
    (writeCells crates opts 0 row).length < (rowText crates opts row).length := by
  rcases row with _ | ⟨c, _ | ⟨d, row⟩⟩
  · exact absurd trivial h
  · exact absurd trivial h
  · have hzero : c.texts = 0 := Nat.eq_zero_of_not_pos fun hpos => h (texts_pos.mp hpos)
    have hrest := length_writeCells_le crates opts (0 + d.texts) row
    have hcons : tabbed crates opts (d :: row) =
        '\t' :: (d.text crates opts ++ tabbed crates opts row) := rfl
    rw [rowText_cons, writeCells, hzero, writeCells, hcons]
    simp only [Nat.lt_irrefl, gt_iff_lt, if_false, Nat.add_zero, List.nil_append,
      List.length_append, List.length_cons]
    omega

theorem length_writeCells_zero_le (crates : MdCrates) (opts : MdOptions) (row : List Cell) :
    (writeCells crates opts 0 row).length ≤ (rowText crates opts row).length := by
  by_cases h : RowApart row
  · rw [writeCells_eq_rowText h]
  · exact (length_writeCells_lt crates opts h).le

/-- Rows with a newline before each. -/
def appendRows (crates : MdCrates) (opts : MdOptions) (buf : List Char)
    (rows : List (List Cell)) : List Char :=
  rows.foldl (fun buf row => buf ++ '\n' :: rowText crates opts row) buf

theorem appendRows_eq (start : List Char) (head : List Cell) (body : List (List Cell)) :
    appendRows crates opts (start ++ rowText crates opts head) body =
      start ++ rowsText crates opts (head :: body) := by
  induction body generalizing start head with
  | nil => simp [appendRows, rowsText]
  | cons row body ih =>
    have hstep : appendRows crates opts (start ++ rowText crates opts head) (row :: body) =
        appendRows crates opts
          (start ++ rowText crates opts head ++ ['\n'] ++ rowText crates opts row) body := by
      rw [appendRows, List.foldl_cons, List.append_cons]
      rfl
    rw [hstep, ih, rowsText, rowsText, List.map_cons, List.map_cons, List.map_cons,
      List.intercalate_cons_cons]
    simp only [List.append_assoc]

theorem length_ensureNewline_le (buf : List Char) :
    (ensureNewline buf).length ≤ buf.length + 1 := by
  unfold ensureNewline
  split
  · rw [List.length_append]
    rfl
  · exact Nat.le_succ _

theorem ensureNewline_of_not_atLineStart {buf : List Char} (h : ¬ AtLineStart buf) :
    ensureNewline buf = buf ++ ['\n'] :=
  ensureNewline_of_ne (fun hnil => h (.inl hnil)) fun hlast => h (.inr hlast)

theorem ensureNewline_of_atLineStart {buf : List Char} (h : AtLineStart buf) :
    ensureNewline buf = buf := by
  rcases h with rfl | hlast
  · rfl
  · exact ensureNewline_of_getLast? hlast

/-- What is missing once stays missing. -/
theorem length_writeRows_lt {buf buf' : List Char} (h : buf.length < buf'.length)
    (rows : List (List Cell)) :
    (writeRows crates opts buf rows).length < (appendRows crates opts buf' rows).length := by
  induction rows generalizing buf buf' with
  | nil => exact h
  | cons row rows ih =>
    refine ih ?_
    have hnewline := length_ensureNewline_le buf
    have hrow := length_writeCells_zero_le crates opts row
    simp only [List.length_append, List.length_cons]
    omega

/-- The condition on the rows after some text. -/
structure RowsApart (crates : MdCrates) (opts : MdOptions) (buf : List Char)
    (rows : List (List Cell)) : Prop where
  tabs : ∀ row ∈ rows, RowApart row
  newlines : ∀ done rest, rows = done ++ rest → rest ≠ [] →
    ¬ AtLineStart (appendRows crates opts buf done)

theorem rowsApart_cons {buf : List Char} {row : List Cell} {rows : List (List Cell)} :
    RowsApart crates opts buf (row :: rows) ↔
      ¬ AtLineStart buf ∧ RowApart row ∧
        RowsApart crates opts (buf ++ '\n' :: rowText crates opts row) rows := by
  constructor
  · rintro ⟨htabs, hnewlines⟩
    refine ⟨hnewlines [] _ rfl (List.cons_ne_nil _ _), htabs row List.mem_cons_self,
      fun r hr => htabs r (List.mem_cons_of_mem _ hr), fun done rest hsplit => ?_⟩
    exact hnewlines (row :: done) rest (by rw [hsplit, List.cons_append])
  · rintro ⟨hstart, hrow, htabs, hnewlines⟩
    refine ⟨fun r hr => ?_, fun done rest hsplit hrest => ?_⟩
    · rcases List.mem_cons.mp hr with rfl | hr
      · exact hrow
      · exact htabs r hr
    · cases done with
      | nil => exact hstart
      | cons r done =>
        cases hsplit
        exact hnewlines done rest rfl hrest

theorem writeRows_eq_iff (buf : List Char) (rows : List (List Cell)) :
    writeRows crates opts buf rows = appendRows crates opts buf rows ↔
      RowsApart crates opts buf rows := by
  induction rows generalizing buf with
  | nil =>
    refine iff_of_true rfl ⟨by simp, fun done rest hsplit hrest => ?_⟩
    exact absurd (List.append_eq_nil_iff.mp hsplit.symm).2 hrest
  | cons row rows ih =>
    have hwrite : writeRows crates opts buf (row :: rows) =
        writeRows crates opts (ensureNewline buf ++ writeCells crates opts 0 row) rows := rfl
    have happend : appendRows crates opts buf (row :: rows) =
        appendRows crates opts (buf ++ '\n' :: rowText crates opts row) rows := rfl
    rw [rowsApart_cons, hwrite, happend]
    by_cases hapart : ¬ AtLineStart buf ∧ RowApart row
    · rw [ensureNewline_of_not_atLineStart hapart.1, writeCells_eq_rowText hapart.2,
        List.append_assoc, List.singleton_append, ih, and_iff_right hapart.1,
        and_iff_right hapart.2]
    · refine iff_of_false (fun heq => ?_) fun h => hapart ⟨h.1, h.2.1⟩
      have hshort : (ensureNewline buf ++ writeCells crates opts 0 row).length <
          (buf ++ '\n' :: rowText crates opts row).length := by
        have hnewline := length_ensureNewline_le buf
        have hrow := length_writeCells_zero_le crates opts row
        simp only [List.length_append, List.length_cons]
        by_cases hstart : AtLineStart buf
        · rw [ensureNewline_of_atLineStart hstart]
          omega
        · have := length_writeCells_lt crates opts fun h => hapart ⟨hstart, h⟩
          omega
      exact absurd (congrArg List.length heq) (length_writeRows_lt hshort rows).ne

theorem tableApart_iff {start : List Char} {head : List Cell} {body : List (List Cell)} :
    TableApart crates opts start (head :: body) ↔
      RowApart head ∧ RowsApart crates opts (start ++ rowText crates opts head) body := by
  constructor
  · rintro ⟨htabs, hnewlines⟩
    refine ⟨htabs head List.mem_cons_self, fun r hr => htabs r (List.mem_cons_of_mem _ hr),
      fun done rest hsplit hrest => ?_⟩
    rw [appendRows_eq]
    exact hnewlines (head :: done) rest (by rw [hsplit, List.cons_append]) (List.cons_ne_nil _ _)
      hrest
  · rintro ⟨hhead, htabs, hnewlines⟩
    refine ⟨fun r hr => ?_, fun done rest hsplit hdone hrest => ?_⟩
    · rcases List.mem_cons.mp hr with rfl | hr
      · exact hhead
      · exact htabs r hr
    · cases done with
      | nil => exact absurd rfl hdone
      | cons r done =>
        cases hsplit
        rw [← appendRows_eq]
        exact hnewlines done rest rfl hrest

/-- A table is written as its rows and cells exactly when they stay apart. -/
theorem tableRendered_iff (crates : MdCrates) (opts : MdOptions) (before : List Event)
    (head : List Cell) (body : List (List Cell)) :
    TableRendered crates opts before head body ↔
      TableApart crates opts (tableStart crates opts before) (head :: body) := by
  rw [TableRendered, renderEvents_tableStream, ← appendRows_eq, tableApart_iff]
  by_cases hhead : RowApart head
  · rw [writeCells_eq_rowText hhead, writeRows_eq_iff, and_iff_right hhead]
  · refine iff_of_false (fun heq => ?_) fun h => hhead h.1
    have hshort : (tableStart crates opts before ++ writeCells crates opts 0 head).length <
        (tableStart crates opts before ++ rowText crates opts head).length := by
      have := length_writeCells_lt crates opts hhead
      simp only [List.length_append]
      omega
    exact absurd (congrArg List.length heq) (length_writeRows_lt hshort body).ne

/-- A cell of inline code. -/
def codeCell : Cell := ⟨[.code ['a']], rfl⟩

def textCell : Cell := ⟨[.text ['b']], rfl⟩

/-- After inline code there is no tab. -/
theorem code_glued : ¬ ∀ (crates : MdCrates) (opts : MdOptions) (before : List Event)
    (head : List Cell) (body : List (List Cell)), TableRendered crates opts before head body := by
  intro h
  have htable : renderEvents ⟨id, fun _ _ => none, fun _ _ => []⟩ {}
      (tableStream [codeCell, textCell] []) = ['a', '\t', 'b'] :=
    h _ {} [] [codeCell, textCell] []
  revert htable
  decide

end Contexide.Normalizer
