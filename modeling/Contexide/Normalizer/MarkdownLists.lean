import Contexide.Normalizer.Markdown
import Mathlib.Data.List.Induction

/-! The prefixes of list items. An item's text follows its prefix on the same line when the
item is tight, and the number is right when the list does not start at zero. -/

namespace Contexide.Normalizer

/-! ### Items -/

/-- The lists that are open, deepest first: the start of each and the number of its items
so far. -/
def trackLists (lists : List (Option ℕ × ℕ)) : Event → List (Option ℕ × ℕ)
  | .start (.list start) => (start, 0) :: lists
  | .start .item =>
    match lists with
    | [] => []
    | (start, k) :: rest => (start, k + 1) :: rest
  | .stop .list => lists.tail
  | _ => lists

def openLists (events : List Event) : List (Option ℕ × ℕ) := events.foldl trackLists []

/-- The prefix of the `k`-th item of a list. -/
def itemPrefix : Option ℕ → ℕ → List Char
  | none, _ => ['-', ' ']
  | some s, k => Nat.toDigits 10 (s + k) ++ ['.', ' ']

/-- What can stand between the start of an item and its first text: paragraphs, marks and
emphasis. -/
def isOpening : Event → Bool
  | .start .paragraph | .start .emphasis | .start .strong | .start .strikethrough
  | .start .superscript | .start .subscript | .start .link | .start .image
  | .taskListMarker _ => true
  | _ => false

/-- An item of a list that begins with text, in a stream of events: the `index`-th of a list
with the given start. -/
structure TextItem (events : List Event) where
  before : List Event
  start : Option ℕ
  index : ℕ
  opening : List Event
  text : List Char
  after : List Event
  split : events = before ++ .start .item :: opening ++ .text text :: after
  inList : (openLists before).head? = some (start, index)
  isOpening : ∀ e ∈ opening, isOpening e = true
  ne_nil : text ≠ []
  isLine : '\n' ∉ text

variable {crates : MdCrates} {opts : MdOptions} {events : List Event}

/-- The item is written as its prefix and, right after it, its text. -/
def TextItem.Rendered (crates : MdCrates) (opts : MdOptions) (item : TextItem events) : Prop :=
  renderEvents crates opts item.before ++ itemPrefix item.start item.index ++ item.text <+:
    renderEvents crates opts events

/-- The item is tight, in a list that does not start at zero. -/
structure TextItem.Plain (item : TextItem events) : Prop where
  tight : .start .paragraph ∉ item.opening
  start_ne_zero : item.start ≠ some 0

/-! ### The counters -/

/-- The counter of a list: the number of the next item, or 0 for bullets. -/
def counter : Option ℕ × ℕ → ℕ
  | (none, _) | (some 0, _) => 0
  | (some (s + 1), k) => s + 1 + k

/-- The state counts the items of the open lists, and the first block has started when
there is a list. -/
structure Tracks (st : MdState) (lists : List (Option ℕ × ℕ)) : Prop where
  ordered : st.ordered = lists.map counter
  started : lists ≠ [] → st.atBlockStart = false

theorem Tracks.step {st : MdState} {lists : List (Option ℕ × ℕ)} (h : Tracks st lists)
    (event : Event) : Tracks (mdStep crates opts st event) (trackLists lists event) := by
  obtain ⟨hordered, hstarted⟩ := h
  cases event with
  | start tag =>
    cases tag with
    | list start =>
      refine ⟨?_, fun _ => rfl⟩
      change start.getD 0 :: st.ordered = counter (start, 0) :: lists.map counter
      rw [hordered]
      rcases start with _ | _ | s <;> rfl
    | item =>
      simp only [mdStep, startTag, trackLists, hordered]
      rcases lists with _ | ⟨⟨_ | _ | s, k⟩, rest⟩
      · exact ⟨rfl, fun hne => absurd rfl hne⟩
      · exact ⟨rfl, fun _ => hstarted (List.cons_ne_nil _ _)⟩
      · exact ⟨rfl, fun _ => hstarted (List.cons_ne_nil _ _)⟩
      · have hcount : counter (some (s + 1), k) ≠ 0 := by simp [counter]
        simp only [List.map_cons, hcount, if_false]
        exact ⟨rfl, fun _ => hstarted (List.cons_ne_nil _ _)⟩
    | paragraph | heading | blockQuote | codeBlock | table => exact ⟨hordered, fun _ => rfl⟩
    | _ => exact ⟨hordered, hstarted⟩
  | stop tag =>
    cases tag with
    | list =>
      refine ⟨?_, fun hne => hstarted fun hnil => hne ?_⟩
      · change st.ordered.tail = lists.tail.map counter
        rw [hordered, List.map_tail]
      · rw [hnil]
        rfl
    | _ => exact ⟨hordered, hstarted⟩
  | _ => exact ⟨hordered, hstarted⟩

theorem tracks_mdRun (events : List Event) :
    Tracks (mdRun crates opts .new events) (openLists events) := by
  induction events using List.reverseRecOn with
  | nil => exact ⟨rfl, fun h => absurd rfl h⟩
  | append_singleton events event ih =>
    rw [mdRun_append, openLists, List.foldl_append]
    exact ih.step event

/-! ### The text of an item -/

/-- The prefix that is written for a counter. -/
def counterPrefix (top : ℕ) : List Char :=
  if top = 0 then ['-', ' '] else Nat.toDigits 10 top ++ ['.', ' ']

theorem out_startTag_item {st : MdState} {top : ℕ} {rest : List ℕ} (h : st.ordered = top :: rest) :
    (startTag st .item).out = st.out ++ counterPrefix top := by
  simp only [startTag, h, counterPrefix]
  split
  · rfl
  · exact List.append_assoc _ _ _

/-- Before the text of an item, a paragraph breaks the line. -/
theorem mdRun_opening {st : MdState} {opening : List Event} (hst : st.atBlockStart = false)
    (h : ∀ e ∈ opening, isOpening e = true) :
    (mdRun crates opts st opening).out =
      if .start .paragraph ∈ opening then ensureNewline st.out else st.out := by
  induction opening generalizing st with
  | nil => rfl
  | cons e opening ih =>
    have ih := fun {st} hst => @ih st hst fun e' he' => h e' (List.mem_cons_of_mem _ he')
    rw [mdRun_cons]
    by_cases he : e = .start .paragraph
    · have hstep : mdStep crates opts st e =
          { st with out := ensureNewline st.out, atBlockStart := false } := by
        rw [he, mdStep, startTag, startBlock, hst]
        rfl
      have hmem : Event.start .paragraph ∈ e :: opening := he ▸ List.mem_cons_self
      rw [hstep, ih rfl, ensureNewline_idem, ite_self, if_pos hmem]
    · have hstep : mdStep crates opts st e = st := by
        have hopen := h e List.mem_cons_self
        cases e with
        | start tag =>
          cases tag with
          | paragraph => exact absurd rfl he
          | _ => first | rfl | cases hopen
        | taskListMarker => rfl
        | _ => cases hopen
      have hmem : Event.start .paragraph ∈ e :: opening ↔ .start .paragraph ∈ opening := by
        rw [List.mem_cons, or_iff_right (Ne.symm he)]
      rw [hstep, ih hst]
      simp only [hmem]

theorem counterPrefix_counter {start : Option ℕ} (h : start ≠ some 0) (k : ℕ) :
    counterPrefix (counter (start, k)) = itemPrefix start k := by
  rcases start with _ | _ | s
  · rfl
  · exact absurd rfl h
  · exact if_neg (by simp [counter])

theorem itemPrefix_zero_ne (k : ℕ) (x y : List Char) :
    ¬ itemPrefix (some 0) k ++ x <+: ['-', ' '] ++ y := by
  rw [itemPrefix, Nat.zero_add]
  cases hdigits : Nat.toDigits 10 k with
  | nil => exact absurd hdigits Nat.toDigits_ne_nil
  | cons c digits =>
    rintro ⟨z, hz⟩
    have hc : c = '-' := (List.cons.inj hz).1
    have hdigit : c.isDigit = true :=
      Nat.isDigit_of_mem_toDigits (by decide) (by decide) (hdigits ▸ List.mem_cons_self)
    rw [hc] at hdigit
    exact absurd hdigit (by decide)

theorem ensureNewline_counterPrefix (buf : List Char) (top : ℕ) :
    ensureNewline (buf ++ counterPrefix top) = buf ++ counterPrefix top ++ ['\n'] := by
  have hspace : ∃ x, counterPrefix top = x ++ [' '] := by
    unfold counterPrefix
    split
    · exact ⟨['-'], rfl⟩
    · exact ⟨Nat.toDigits 10 top ++ ['.'], by simp⟩
  obtain ⟨x, hx⟩ := hspace
  exact ensureNewline_of_ne (by simp [hx]) (by simp [hx])

/-- What is written for an item and its text. -/
theorem TextItem.exists_renderEvents_eq (crates : MdCrates) (opts : MdOptions)
    (item : TextItem events) :
    ∃ rest, renderEvents crates opts events =
      renderEvents crates opts item.before ++ (counterPrefix (counter (item.start, item.index)) ++
        (if .start .paragraph ∈ item.opening then ['\n'] else []) ++ item.text ++ rest) := by
  obtain ⟨before, start, k, opening, text, after, rfl, hin, hopening, -, -⟩ := item
  have htracks : Tracks (mdRun crates opts .new before) (openLists before) := tracks_mdRun before
  obtain ⟨lists, hlists⟩ : ∃ lists, openLists before = (start, k) :: lists := by
    cases hopen : openLists before with
    | nil => rw [hopen] at hin; cases hin
    | cons l lists =>
      rw [hopen] at hin
      cases hin
      exact ⟨lists, rfl⟩
  have hordered := htracks.ordered
  rw [hlists, List.map_cons] at hordered
  have hprefix := out_startTag_item hordered
  have hstarted : (startTag (mdRun crates opts .new before) .item).atBlockStart = false := by
    have hnext : Tracks (mdStep crates opts (mdRun crates opts .new before) (.start .item)) _ :=
      htracks.step (.start .item)
    refine hnext.started ?_
    rw [hlists]
    exact List.cons_ne_nil _ _
  have hbreak : (mdRun crates opts (startTag (mdRun crates opts .new before) .item) opening).out =
      renderEvents crates opts before ++ (counterPrefix (counter (start, k)) ++
        if .start .paragraph ∈ opening then ['\n'] else []) := by
    rw [mdRun_opening hstarted hopening, hprefix]
    split
    · rw [ensureNewline_counterPrefix, List.append_assoc]
      rfl
    · rw [List.append_nil]
      rfl
  obtain ⟨rest, hrest⟩ := prefix_mdRun (mdStep crates opts
    (mdRun crates opts (startTag (mdRun crates opts .new before) .item) opening) (.text text)) after
  refine ⟨rest, ?_⟩
  dsimp only
  rw [renderEvents, mdRun_append, mdRun_append, mdRun_cons, mdRun_cons]
  refine hrest.symm.trans ?_
  change (mdRun crates opts (startTag (mdRun crates opts .new before) .item) opening).out ++ text ++
    rest = _
  rw [hbreak]
  simp only [List.append_assoc]

/-- An item is written as its prefix and its text exactly when it is tight and its list
does not start at zero. -/
theorem TextItem.rendered_iff (item : TextItem events) :
    item.Rendered crates opts ↔ item.Plain := by
  obtain ⟨rest, hrest⟩ := item.exists_renderEvents_eq crates opts
  rw [TextItem.Rendered, hrest, List.append_assoc, List.prefix_append_right_inj]
  by_cases hstart : item.start = some 0
  · refine iff_of_false ?_ fun h => h.start_ne_zero hstart
    rw [hstart, List.append_assoc, List.append_assoc]
    exact itemPrefix_zero_ne item.index item.text _
  · rw [counterPrefix_counter hstart, List.append_assoc, List.append_assoc,
      List.prefix_append_right_inj]
    by_cases hloose : .start .paragraph ∈ item.opening
    · refine iff_of_false ?_ fun h => h.tight hloose
      rw [if_pos hloose]
      cases htext : item.text with
      | nil => exact fun _ => item.ne_nil htext
      | cons c text =>
        rintro ⟨y, hy⟩
        have hc : c = '\n' := (List.cons.inj hy).1
        exact item.isLine (htext ▸ hc ▸ List.mem_cons_self)
    · rw [if_neg hloose]
      exact iff_of_true (List.prefix_append _ _) ⟨hloose, hstart⟩

/-- Every item of a stream that begins with text is written as its prefix and its text
exactly when these items are tight and in lists that do not start at zero. -/
theorem items_rendered_iff (crates : MdCrates) (opts : MdOptions) (events : List Event) :
    (∀ item : TextItem events, item.Rendered crates opts) ↔ ∀ item : TextItem events, item.Plain :=
  forall_congr' fun item => item.rendered_iff

/-- The events of `"- a\n\n- b"`: each item is in a paragraph of its own. -/
def looseList : List Event :=
  [.start (.list none), .start .item, .start .paragraph, .text ['a'], .stop .paragraph, .stop .item,
    .start .item, .start .paragraph, .text ['b'], .stop .paragraph, .stop .item, .stop .list]

def looseItem : TextItem looseList where
  before := [.start (.list none)]
  start := none
  index := 0
  opening := [.start .paragraph]
  text := ['a']
  after := [.stop .paragraph, .stop .item, .start .item, .start .paragraph, .text ['b'],
    .stop .paragraph, .stop .item, .stop .list]
  split := rfl
  inList := rfl
  isOpening := by decide
  ne_nil := by decide
  isLine := by decide

/-- The bullet and the text come on different lines. -/
theorem looseItem_not_rendered : ¬ ∀ (crates : MdCrates) (opts : MdOptions) (events : List Event)
    (item : TextItem events), item.Rendered crates opts := by
  intro h
  have hitem : renderEvents ⟨id, fun _ _ => none, fun _ _ => looseList⟩ {} [.start (.list none)] ++
      ['-', ' '] ++ ['a'] <+:
        renderEvents ⟨id, fun _ _ => none, fun _ _ => looseList⟩ {} looseList :=
    h _ {} looseList looseItem
  revert hitem
  decide

end Contexide.Normalizer
