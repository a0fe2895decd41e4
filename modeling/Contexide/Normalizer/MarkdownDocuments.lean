import Contexide.Normalizer.Collapse
import Contexide.Normalizer.MarkdownLists

/-! What is kept of a whole document, however its constructs are nested: the visible
characters of its texts in their order, with the number or the dash of each list item before
it. Only whitespace is decided by the layout. -/

namespace Contexide.Normalizer

open Text

/-! ### Documents -/

/-- The end that belongs to a start. -/
def Tag.toEnd : Tag → TagEnd
  | .paragraph => .paragraph
  | .heading => .heading
  | .blockQuote => .blockQuote
  | .codeBlock => .codeBlock
  | .htmlBlock => .htmlBlock
  | .list _ => .list
  | .item => .item
  | .footnoteDefinition => .footnoteDefinition
  | .definitionList => .definitionList
  | .definitionListTitle => .definitionListTitle
  | .definitionListDefinition => .definitionListDefinition
  | .table => .table
  | .tableHead => .tableHead
  | .tableRow => .tableRow
  | .tableCell => .tableCell
  | .emphasis => .emphasis
  | .strong => .strong
  | .strikethrough => .strikethrough
  | .superscript => .superscript
  | .subscript => .subscript
  | .link => .link
  | .image => .image
  | .metadataBlock => .metadataBlock

def Tag.isList : Tag → Bool
  | .list _ | .item => true
  | _ => false

def Event.isTag : Event → Bool
  | .start _ | .stop _ => true
  | _ => false

/-- A part of a document: a single event, a construct around other parts, or a list of
items. -/
inductive Node where
  | leaf (event : Event) (h : event.isTag = false)
  | element (tag : Tag) (h : tag.isList = false) (children : List Node)
  | list (start : Option ℕ) (items : List (List Node))

mutual

/-- The events of a part. -/
def Node.events : Node → List Event
  | .leaf event _ => [event]
  | .element tag _ children => .start tag :: (nodesEvents children ++ [.stop tag.toEnd])
  | .list start items => .start (.list start) :: (itemsEvents items ++ [.stop .list])

def nodesEvents : List Node → List Event
  | [] => []
  | node :: nodes => node.events ++ nodesEvents nodes

def itemsEvents : List (List Node) → List Event
  | [] => []
  | item :: items => .start .item :: (nodesEvents item ++ .stop .item :: itemsEvents items)

end

/-- The characters that are not whitespace. -/
def visible (s : List Char) : List Char := s.filter fun c => !isWhitespace c

section

variable (crates : MdCrates) (opts : MdOptions)

mutual

/-- What a part is to show. -/
def Node.content : Node → List Char
  | .leaf event _ => visible (event.written crates opts)
  | .element _ _ children => nodesContent children
  | .list start items => itemsContent start 0 items

def nodesContent : List Node → List Char
  | [] => []
  | node :: nodes => node.content ++ nodesContent nodes

/-- The items of a list from the `k`-th one on. -/
def itemsContent (start : Option ℕ) (k : ℕ) : List (List Node) → List Char
  | [] => []
  | item :: items =>
    visible (counterPrefix (counter (start, k))) ++ nodesContent item ++
      itemsContent start (k + 1) items

end

end

/-! ### Whitespace -/

theorem visible_append (s t : List Char) : visible (s ++ t) = visible s ++ visible t :=
  List.filter_append s t

theorem visible_eq_nil {s : List Char} (h : ∀ c ∈ s, isWhitespace c = true) : visible s = [] :=
  List.filter_eq_nil_iff.mpr fun c hc => by simp [h c hc]

theorem visible_append_whitespace (s : List Char) {g : List Char}
    (h : ∀ c ∈ g, isWhitespace c = true) : visible (s ++ g) = visible s := by
  rw [visible_append, visible_eq_nil h, List.append_nil]

theorem visible_push (s : List Char) {c : Char} (h : isWhitespace c = true) :
    visible (s ++ [c]) = visible s :=
  visible_append_whitespace s fun d hd => by rw [List.mem_singleton.mp hd, h]

theorem visible_ensureNewline (buf : List Char) : visible (ensureNewline buf) = visible buf := by
  unfold ensureNewline
  split
  · exact visible_push buf rfl
  · rfl

theorem visible_ensureBlankLine (buf : List Char) :
    visible (ensureBlankLine buf) = visible buf := by
  unfold ensureBlankLine
  split
  · rfl
  · rw [visible_push _ rfl, visible_ensureNewline]

/-! ### The rendering -/

variable {crates : MdCrates} {opts : MdOptions}

/-- Between the two states the characters were written, apart from whitespace, and no list
was left open. -/
structure Wrote (st st' : MdState) (s : List Char) : Prop where
  out : visible st'.out = visible st.out ++ s
  ordered : st'.ordered = st.ordered

namespace Wrote

variable {st st' st'' : MdState} {s t : List Char}

theorem of_visible (hout : visible st'.out = visible st.out) (hordered : st'.ordered = st.ordered) :
    Wrote st st' [] := ⟨by rw [hout, List.append_nil], hordered⟩

theorem trans (h : Wrote st st' s) (h' : Wrote st' st'' t) : Wrote st st'' (s ++ t) :=
  ⟨by rw [h'.out, h.out, List.append_assoc], h'.ordered.trans h.ordered⟩

end Wrote

theorem visible_startBlock (st : MdState) {separate : List Char → List Char}
    (h : ∀ buf, visible (separate buf) = visible buf) :
    visible (startBlock st separate).out = visible st.out := by
  unfold startBlock
  dsimp only
  split
  · rfl
  · exact h st.out

/-- The start of a construct writes whitespace at most. -/
theorem wrote_startTag (st : MdState) {tag : Tag} (h : tag.isList = false) :
    Wrote st (startTag st tag) [] := by
  cases tag with
  | paragraph | blockQuote | table =>
    exact .of_visible (visible_startBlock st visible_ensureNewline) rfl
  | heading => exact .of_visible (visible_startBlock st visible_ensureBlankLine) rfl
  | codeBlock => exact .of_visible (visible_ensureBlankLine st.out) rfl
  | tableHead | tableRow =>
    refine .of_visible ?_ rfl
    simp only [startTag]
    split
    · exact visible_ensureNewline st.out
    · rfl
  | tableCell =>
    refine .of_visible ?_ rfl
    simp only [startTag]
    split
    · exact visible_push st.out rfl
    · rfl
  | list start => cases h
  | item => cases h
  | _ => exact .of_visible rfl rfl

theorem Tag.toEnd_ne_list {tag : Tag} (h : tag.isList = false) : tag.toEnd ≠ .list := by
  intro hend
  cases tag with
  | list start => cases h
  | _ => cases hend

theorem wrote_endTag (st : MdState) {tag : TagEnd} (h : tag ≠ .list) :
    Wrote st (endTag st tag) [] := by
  cases tag with
  | paragraph | blockQuote | item | table => exact .of_visible (visible_ensureNewline st.out) rfl
  | heading | codeBlock => exact .of_visible (visible_ensureBlankLine st.out) rfl
  | list => exact absurd rfl h
  | _ => exact .of_visible rfl rfl

theorem wrote_leaf (st : MdState) {event : Event} (h : event.isTag = false) :
    Wrote st (mdStep crates opts st event) (visible (event.written crates opts)) := by
  cases event with
  | start tag => cases h
  | stop tag => cases h
  | text | code | inlineMath | displayMath | inlineHtml | softBreak | hardBreak =>
    exact ⟨visible_append _ _, rfl⟩
  | rule => exact .of_visible (visible_ensureBlankLine st.out) rfl
  | html | footnoteReference | taskListMarker => exact .of_visible rfl rfl

/-- An item counts on in its list. -/
theorem startTag_item {st : MdState} {start : Option ℕ} {k : ℕ} {rest : List ℕ}
    (h : st.ordered = counter (start, k) :: rest) :
    (startTag st .item).out = st.out ++ counterPrefix (counter (start, k)) ∧
      (startTag st .item).ordered = counter (start, k + 1) :: rest := by
  refine ⟨out_startTag_item h, ?_⟩
  simp only [startTag, h]
  rcases start with _ | _ | s
  · rfl
  · rfl
  · have hcount : counter (some (s + 1), k) ≠ 0 := by simp [counter]
    rw [if_neg hcount]
    rfl

mutual

/-- A part leaves the counters of the lists around it alone. -/
theorem Node.wrote (st : MdState) :
    ∀ node : Node, Wrote st (mdRun crates opts st node.events) (node.content crates opts)
  | .leaf event h => wrote_leaf st h
  | .element tag h children => by
    rw [Node.events, mdRun_cons, mdRun_append, Node.content]
    have hinside := (wrote_startTag st h).trans (nodes_wrote (startTag st tag) children)
    have hall := hinside.trans (wrote_endTag _ (Tag.toEnd_ne_list h))
    rwa [List.nil_append, List.append_nil] at hall
  | .list start items => by
    have hcounter : counter (start, 0) = start.getD 0 := by rcases start with _ | _ | s <;> rfl
    have hopen : (startTag st (.list start)).ordered = counter (start, 0) :: st.ordered := by
      rw [hcounter]
      rfl
    obtain ⟨hout, hordered⟩ := items_wrote (startTag st (.list start)) hopen items
    rw [Node.events, mdRun_cons, mdRun_append, Node.content]
    refine ⟨?_, hordered⟩
    show visible (ensureNewline _) = _
    rw [visible_ensureNewline]
    refine hout.trans (congrArg (· ++ _) ?_)
    exact visible_startBlock { st with ordered := _ } visible_ensureNewline

theorem nodes_wrote (st : MdState) : ∀ nodes : List Node,
    Wrote st (mdRun crates opts st (nodesEvents nodes)) (nodesContent crates opts nodes)
  | [] => .of_visible rfl rfl
  | node :: nodes => by
    rw [nodesEvents, mdRun_append, nodesContent]
    exact (Node.wrote st node).trans (nodes_wrote _ nodes)

theorem items_wrote (st : MdState) {start : Option ℕ} {k : ℕ} {rest : List ℕ}
    (h : st.ordered = counter (start, k) :: rest) : ∀ items : List (List Node),
    visible (mdRun crates opts st (itemsEvents items)).out =
        visible st.out ++ itemsContent crates opts start k items ∧
      (mdRun crates opts st (itemsEvents items)).ordered.tail = rest
  | [] => ⟨by simp [itemsEvents, itemsContent], by rw [itemsEvents, mdRun_nil, h]; rfl⟩
  | item :: items => by
    obtain ⟨hout, hordered⟩ := startTag_item h
    have hitem := (nodes_wrote (startTag st .item) item).trans
      (wrote_endTag _ (show TagEnd.item ≠ .list by decide))
    obtain ⟨hout', hordered'⟩ := items_wrote _ (hitem.ordered.trans hordered) items
    rw [itemsEvents, mdRun_cons, mdRun_append, mdRun_cons, itemsContent]
    refine ⟨hout'.trans ?_, hordered'⟩
    rw [hitem.out, hout, visible_append, List.append_nil]
    simp only [List.append_assoc]

end

end Contexide.Normalizer
