import Contexide.Normalizer.LineEndings
import Contexide.Normalizer.Markdown
import Contexide.Text.Patterns
import Mathlib.Data.List.Chain

/-! Blocks of a document in normalized text. The texts of blocks are separated by a blank
line, except that only a line break is written between two paragraphs. -/

namespace Contexide.Normalizer

open Text

/-! ### Texts in the middle of a document -/

/-- A collapsed text without spaces and newlines at both ends. -/
def tidy (s : List Char) : List Char :=
  ((collapseWhitespace s).dropWhile fun c => !isKept c).rdropWhile fun c => !isKept c

/-- What stands before the first kept character. -/
def leadGap (s : List Char) : List Char := s.takeWhile fun c => !isKept c

/-- What stands after the last kept character. -/
def lastGap (s : List Char) : List Char := s.rtakeWhile fun c => !isKept c

theorem tidy_eq (s : List Char) :
    tidy s = spell (mapGaps between (fun _ => []) (Gapped.split isKept s).items) := by
  have hvalid := @Gapped.valid_split _ isKept s
  have hstrip : strip (fun c => !isKept c) (Gapped.split isKept s).items =
      (Gapped.split isKept s).items := by
    refine strip_of_ends (fun i hi => ?_) fun i hi => ?_
    · simpa using (hvalid.items i (List.mem_of_head? hi)).1
    · simpa using (hvalid.items i (List.mem_of_getLast? hi)).1
  rw [tidy, collapseWhitespace_eq, trim_mapGaps, hstrip]
  · intro c hc
    rw [mem_newlines hc]
    decide
  · intro i _ c hc
    simpa using isKept_between c hc
  · intro i _ c hc
    rw [mem_newlines hc]
    decide

/-- Trimming makes a tidy text the normal form. -/
theorem trim_tidy (s : List Char) : trim (tidy s) = normalForm s := by
  rw [tidy_eq, trim, normalForm, visibleItems, ← List.nil_append (spell _), trim_mapGaps]
  · simp
  · intro i _ c hc
    rcases mem_between hc with rfl | rfl <;> decide
  · simp

theorem tidy_gap_append {g : List Char} (hg : ∀ c ∈ g, isKept c = false) (s : List Char) :
    tidy (g ++ s) = tidy s := by
  rw [tidy_eq, tidy_eq, Gapped.split_append_of_gap hg]

/-- Where two texts meet, the gaps there become one. -/
theorem tidy_append {a b : List Char} (ha : ∃ c ∈ a, isKept c = true)
    (hb : ∃ c ∈ b, isKept c = true) :
    tidy (a ++ b) = tidy a ++ between (lastGap a ++ leadGap b) ++ tidy b := by
  obtain ⟨items, k, hitems⟩ := Gapped.exists_items_concat ha
  obtain ⟨items', k', hitems'⟩ := Gapped.exists_items_concat hb
  have hne : (Gapped.split isKept b).items ≠ [] := by simp [hitems']
  rw [tidy_eq, tidy_eq, tidy_eq, Gapped.split_append hitems, hitems, mapGaps_concat,
    List.append_cons, mapGaps_append hne, Gapped.lead_split]
  simp [lastGap, leadGap]

theorem tidy_append_gap {a g : List Char} (ha : ∃ c ∈ a, isKept c = true)
    (hg : ∀ c ∈ g, isKept c = false) : tidy (a ++ g) = tidy a := by
  obtain ⟨items, k, hitems⟩ := Gapped.exists_items_concat ha
  have hsplit := Gapped.split_append_of_gap hg []
  rw [List.append_nil] at hsplit
  rw [tidy_eq, tidy_eq, Gapped.split_append hitems, hsplit, hitems, mapGaps_concat]
  simp [Gapped.split]

/-! ### Blocks -/

inductive BlockKind where
  | paragraph | heading | codeBlock
  deriving DecidableEq, Repr

namespace BlockKind

def tag : BlockKind → Tag
  | paragraph => .paragraph
  | heading => .heading
  | codeBlock => .codeBlock

def tagEnd : BlockKind → TagEnd
  | paragraph => .paragraph
  | heading => .heading
  | codeBlock => .codeBlock

end BlockKind

structure Block where
  kind : BlockKind
  events : List Event
  inline : events.all isInline = true

section

variable (crates : MdCrates) (opts : MdOptions)

namespace Block

def text (b : Block) : List Char := b.events.flatMap (Event.written crates opts)

def stream (b : Block) : List Event := .start b.kind.tag :: (b.events ++ [.stop b.kind.tagEnd])

/-- The text of a block after NFKC and the mapping of characters. -/
def mapped (b : Block) : List Char := mapChars (crates.nfkc (b.text crates opts))

/-- The text of a block as it stands in a normalized document. -/
def tidyText (b : Block) : List Char := tidy (b.mapped crates opts)

end Block

/-- Between two paragraphs there is no more than a line break, beyond those that the two
texts have at their ends. -/
def Apart (b b' : Block) : Prop :=
  ¬ (b.kind = .paragraph ∧ b'.kind = .paragraph) ∨
    2 ≤ (lastGap (mapChars (crates.nfkc (ensureNewline (b.text crates opts)))) ++
      leadGap (b'.mapped crates opts)).count '\n'

end

/-! ### What is written -/

variable {crates : MdCrates} {opts : MdOptions}

/-- What the start and the end of a block write after other text. -/
def separated (kind : BlockKind) (buf : List Char) : List Char :=
  if kind = .paragraph then ensureNewline buf else ensureBlankLine buf

/-- What is written from the end of a block's text to the start of the next one. -/
def closed (kind next : BlockKind) (buf : List Char) : List Char :=
  separated next (separated kind buf)

theorem mdRun_block {st : MdState} (hst : st.inTable = false) (b : Block) :
    mdRun crates opts st b.stream =
      { st with
        out := separated b.kind ((startTag st b.kind.tag).out ++ b.text crates opts)
        atBlockStart := false } := by
  obtain ⟨kind, events, hinline⟩ := b
  rw [Block.stream, mdRun_cons, mdRun_append, mdRun_inline _ hinline]
  cases kind <;>
    simp [BlockKind.tag, BlockKind.tagEnd, mdStep, startTag, startBlock, endTag, separated, hst,
      Block.text]

theorem out_startTag {st : MdState} (hst : st.atBlockStart = false) (kind : BlockKind) :
    (startTag st kind.tag).out = separated kind st.out := by
  cases kind <;> simp [BlockKind.tag, startTag, startBlock, separated, hst]

/-- The texts of blocks with what is written between them. -/
def writeBlocks (crates : MdCrates) (opts : MdOptions) : List Block → List Char
  | [] => []
  | [b] => separated b.kind (b.text crates opts)
  | b :: b' :: blocks =>
    closed b.kind b'.kind (b.text crates opts) ++ writeBlocks crates opts (b' :: blocks)

/-! A text that is not only newlines hides what stands before it. -/

section Ensure

variable {t : List Char}

theorem ensureNewline_append (ht : t ≠ []) (x : List Char) :
    ensureNewline (x ++ t) = x ++ ensureNewline t := by
  have hlast : (x ++ t).getLast? = t.getLast? := List.getLast?_append_of_ne_nil x ht
  unfold ensureNewline
  rw [hlast]
  simp only [ne_eq, ht, List.append_eq_nil_iff, and_false, not_false_eq_true, and_true]
  split
  · exact List.append_assoc _ _ _
  · rfl

theorem ensureBlankLine_append (ht : ∃ c ∈ t, c ≠ '\n') (x : List Char) :
    ensureBlankLine (x ++ t) = x ++ ensureBlankLine t := by
  obtain ⟨d, hd, hne⟩ := ht
  obtain ⟨y, z, rfl⟩ := List.append_of_mem hd
  have hnot : d ∉ ['\n', '\n'] := by simpa using hne
  have hsuffix : ['\n', '\n'] <:+ x ++ (y ++ d :: z) ↔ ['\n', '\n'] <:+ y ++ d :: z := by
    rw [← List.append_assoc, suffix_append_cons_iff hnot, suffix_append_cons_iff hnot]
  unfold ensureBlankLine
  simp only [hsuffix]
  split
  · rfl
  · rw [ensureNewline_append (by simp), List.append_assoc]

theorem separated_append (ht : ∃ c ∈ t, c ≠ '\n') (kind : BlockKind) (x : List Char) :
    separated kind (x ++ t) = x ++ separated kind t := by
  unfold separated
  split
  · obtain ⟨d, hd, -⟩ := ht
    exact ensureNewline_append (List.ne_nil_of_mem hd) x
  · exact ensureBlankLine_append ht x

theorem prefix_separated (kind : BlockKind) (buf : List Char) : buf <+: separated kind buf := by
  unfold separated
  split
  · exact prefix_ensureNewline buf
  · exact prefix_ensureBlankLine buf

theorem closed_append (ht : ∃ c ∈ t, c ≠ '\n') (kind next : BlockKind) (x : List Char) :
    closed kind next (x ++ t) = x ++ closed kind next t := by
  have hclosed : ∃ c ∈ separated kind t, c ≠ '\n' := by
    obtain ⟨d, hd, hne⟩ := ht
    exact ⟨d, (prefix_separated kind t).subset hd, hne⟩
  rw [closed, separated_append ht, separated_append hclosed, closed]

end Ensure

theorem out_mdRun_blocks {st : MdState} (hst : st.inTable = false) (b : Block)
    (blocks : List Block) (htexts : ∀ b' ∈ b :: blocks, ∃ c ∈ b'.text crates opts, c ≠ '\n') :
    (mdRun crates opts st ((b :: blocks).flatMap Block.stream)).out =
      (startTag st b.kind.tag).out ++ writeBlocks crates opts (b :: blocks) := by
  induction blocks generalizing st b with
  | nil =>
    rw [List.flatMap_cons, List.flatMap_nil, List.append_nil, mdRun_block hst]
    exact separated_append (htexts b List.mem_cons_self) _ _
  | cons b' blocks ih =>
    have hb := htexts b List.mem_cons_self
    rw [List.flatMap_cons, mdRun_append, mdRun_block hst,
      ih (by exact hst) b' fun c hc => htexts c (List.mem_cons_of_mem _ hc),
      out_startTag (by rfl), writeBlocks]
    change closed b.kind b'.kind (_ ++ b.text crates opts) ++ _ = _
    rw [closed_append hb, List.append_assoc]

/-! ### NFKC of the output -/

namespace LineBreaksInert

variable {nfkc : List Char → List Char} (h : LineBreaksInert nfkc)

include h

theorem mapped_replicate (x : List Char) (n : ℕ) :
    mapChars (nfkc (x ++ List.replicate n '\n')) =
      mapChars (nfkc x) ++ List.replicate n '\n' := by
  induction n generalizing x with
  | zero => simp
  | succ n ih =>
    have hnil := ih []
    rw [List.nil_append, h.nil] at hnil
    rw [List.replicate_succ, h.mapped_append (.inr rfl), hnil]
    rfl

/-- A text that ends in a newline is on its own. -/
theorem mapped_append_of_getLast? {x : List Char} (hx : x.getLast? = some '\n') (y : List Char) :
    mapChars (nfkc (x ++ y)) = mapChars (nfkc x) ++ mapChars (nfkc y) := by
  obtain ⟨x, rfl⟩ := List.getLast?_eq_some_iff.mp hx
  have hone := h.mapped_append (.inr rfl) x []
  rw [h.nil] at hone
  rw [hone, List.append_assoc, List.singleton_append, h.mapped_append (.inr rfl), List.append_assoc]
  rfl

end LineBreaksInert

theorem exists_separated_eq (kind : BlockKind) (t : List Char) :
    ∃ n, separated kind t = t ++ List.replicate n '\n' := by
  have hnewline : ∃ n, ensureNewline t = t ++ List.replicate n '\n' := by
    unfold ensureNewline
    split
    · exact ⟨1, rfl⟩
    · exact ⟨0, by simp⟩
  unfold separated
  split
  · exact hnewline
  · obtain ⟨n, hn⟩ := hnewline
    unfold ensureBlankLine
    split
    · exact ⟨0, by simp⟩
    · exact ⟨n + 1, by rw [hn, List.append_assoc, List.replicate_succ']⟩

theorem exists_closed_eq (kind next : BlockKind) (t : List Char) :
    ∃ n, closed kind next t = t ++ List.replicate n '\n' := by
  obtain ⟨n, hn⟩ := exists_separated_eq kind t
  obtain ⟨m, hm⟩ := exists_separated_eq next (separated kind t)
  exact ⟨n + m, by rw [closed, hm, hn, List.append_assoc, List.replicate_append_replicate]⟩

theorem getLast?_separated {t : List Char} (ht : t ≠ []) (kind : BlockKind) :
    (separated kind t).getLast? = some '\n' := by
  unfold separated
  split
  · exact getLast?_ensureNewline ht
  · obtain ⟨x, hx⟩ := suffix_ensureBlankLine ht
    rw [← hx]
    simp

theorem getLast?_closed {t : List Char} (ht : t ≠ []) (kind next : BlockKind) :
    (closed kind next t).getLast? = some '\n' := by
  have hne : separated kind t ≠ [] := fun hnil => by
    have hlast := getLast?_separated ht kind
    rw [hnil] at hlast
    cases hlast
  exact getLast?_separated hne next

theorem leadGap_append {a : List Char} (ha : ∃ c ∈ a, isKept c = true) (b : List Char) :
    leadGap (a ++ b) = leadGap a := by
  induction a with
  | nil => simp at ha
  | cons c a ih =>
    unfold leadGap at ih ⊢
    cases hc : isKept c with
    | true => simp [hc]
    | false =>
      obtain ⟨d, hd, hkept⟩ := ha
      rcases List.mem_cons.mp hd with rfl | hd
      · rw [hc] at hkept
        cases hkept
      · simp [hc, ih ⟨d, hd, hkept⟩]

/-- A block with text to see. -/
def Block.Visible (crates : MdCrates) (opts : MdOptions) (b : Block) : Prop :=
  normalizeChars crates.nfkc (b.text crates opts) ≠ []

theorem exists_kept_of_normalForm {s : List Char} (h : normalForm s ≠ []) :
    ∃ c ∈ s, isKept c = true := by
  have hvalid := @Gapped.valid_split _ isKept s
  cases hitems : (Gapped.split isKept s).items with
  | nil =>
    rw [normalForm, visibleItems, hitems] at h
    exact absurd rfl h
  | cons i items =>
    have hi : i ∈ (Gapped.split isKept s).items := hitems ▸ List.mem_cons_self
    have hs := @Gapped.toList_split _ isKept s
    refine ⟨i.1, ?_, (hvalid.items i hi).1⟩
    rw [← hs, Gapped.toList]
    exact List.mem_append_right _ (List.mem_flatMap.mpr ⟨i, hi, List.mem_cons_self⟩)

theorem Block.Visible.exists_kept {b : Block} (hb : b.Visible crates opts) :
    ∃ c ∈ b.mapped crates opts, isKept c = true := by
  rw [Block.Visible, normalizeChars_eq] at hb
  exact exists_kept_of_normalForm hb

/-- A block to see has more than newlines. -/
theorem Block.Visible.exists_ne_newline (h : LineBreaksInert crates.nfkc) {b : Block}
    (hb : b.Visible crates opts) : ∃ c ∈ b.text crates opts, c ≠ '\n' := by
  by_contra hall
  push Not at hall
  obtain ⟨c, hc, hkept⟩ := hb.exists_kept
  have hmapped := h.mapped_replicate [] (b.text crates opts).length
  rw [List.nil_append, h.nil, ← List.eq_replicate_of_mem hall] at hmapped
  rw [Block.mapped, hmapped] at hc
  have hnewline : c = '\n' := by
    rcases List.mem_append.mp hc with hc | hc
    · exact absurd hc List.not_mem_nil
    · exact hall c hc
  rw [hnewline] at hkept
  exact absurd hkept (by decide)

theorem Block.Visible.exists_visible {b : Block} (hb : b.Visible crates opts) :
    ∃ c ∈ b.tidyText crates opts, ¬ isWhitespace c = true := by
  by_contra hall
  push Not at hall
  have htrim : trim (b.tidyText crates opts) = [] := by
    rw [trim, List.dropWhile_eq_nil_iff.mpr hall]
    rfl
  rw [Block.Visible, normalizeChars_eq] at hb
  exact hb ((trim_tidy _).symm.trans htrim)

/-! ### Joined texts -/

section Joined

variable {β : Type} (text : β → List Char)

/-- Texts with separators that depend on what they are between. -/
def joined (sep : β → β → List Char) : List β → List Char
  | [] => []
  | [b] => text b
  | b :: b' :: rest => text b ++ sep b b' ++ joined sep (b' :: rest)

theorem joined_const (blank : List Char) (items : List β) :
    joined text (fun _ _ => blank) items = blank.intercalate (items.map text) := by
  induction items with
  | nil => rfl
  | cons b rest ih =>
    cases rest with
    | nil => simp [joined]
    | cons b' rest =>
      rw [joined, ih]
      exact List.intercalate_cons_cons.symm

variable {text}

theorem exists_visible_joined {sep : β → β → List Char} {b : β} {rest : List β}
    (hb : ∃ c ∈ text b, ¬ isWhitespace c = true) :
    ∃ c ∈ joined text sep (b :: rest), ¬ isWhitespace c = true := by
  obtain ⟨c, hc, hv⟩ := hb
  refine ⟨c, ?_, hv⟩
  cases rest with
  | nil => exact hc
  | cons b' rest => exact List.mem_append_left _ (List.mem_append_left _ hc)

theorem rdropWhile_append_visible {y : List Char} (hy : ∃ c ∈ y, ¬ isWhitespace c = true)
    (x : List Char) : (x ++ y).rdropWhile isWhitespace = x ++ y.rdropWhile isWhitespace := by
  obtain ⟨c, hc, hv⟩ := hy
  obtain ⟨u, v, rfl⟩ := List.append_of_mem hc
  rw [← List.append_assoc, rdropWhile_append_cons hv, rdropWhile_append_cons hv, List.append_assoc]

theorem dropWhile_append_visible {x : List Char} (hx : ∃ c ∈ x, ¬ isWhitespace c = true)
    (y : List Char) : (x ++ y).dropWhile isWhitespace = x.dropWhile isWhitespace ++ y := by
  obtain ⟨c, hc, hv⟩ := hx
  rw [List.dropWhile_append, if_neg]
  rw [List.isEmpty_iff, List.dropWhile_eq_nil_iff]
  exact fun hall => hv (hall c hc)

/-- Shorter separators make a shorter text, and the same text only when they are the same. -/
theorem rdropWhile_joined_iff {sep sep' : β → β → List Char}
    (hle : ∀ b b', (sep b b').length ≤ (sep' b b').length) {items : List β}
    (hvisible : ∀ b ∈ items, ∃ c ∈ text b, ¬ isWhitespace c = true) :
    ((joined text sep items).rdropWhile isWhitespace).length ≤
        ((joined text sep' items).rdropWhile isWhitespace).length ∧
      ((joined text sep items).rdropWhile isWhitespace =
          (joined text sep' items).rdropWhile isWhitespace ↔
        items.IsChain fun b b' => sep b b' = sep' b b') := by
  induction items with
  | nil => exact ⟨Nat.le_refl _, iff_of_true rfl .nil⟩
  | cons b rest ih =>
    cases rest with
    | nil => exact ⟨Nat.le_refl _, iff_of_true rfl (.singleton b)⟩
    | cons b' rest =>
      have hrest := fun c hc => hvisible c (List.mem_cons_of_mem _ hc)
      obtain ⟨hshort, hiff⟩ := ih hrest
      have hb' := hvisible b' (List.mem_cons_of_mem _ List.mem_cons_self)
      have hsep := hle b b'
      rw [joined, joined, rdropWhile_append_visible (exists_visible_joined hb'),
        rdropWhile_append_visible (exists_visible_joined hb'), List.isChain_cons_cons, ← hiff]
      refine ⟨by simp only [List.length_append]; omega, fun heq => ?_, ?_⟩
      · rw [List.append_assoc, List.append_assoc, List.append_cancel_left_eq] at heq
        have hlength : (sep b b').length = (sep' b b').length := by
          have := congrArg List.length heq
          simp only [List.length_append] at this
          omega
        exact List.append_inj heq hlength
      · rintro ⟨hsame, htail⟩
        rw [hsame, htail]

theorem trim_joined_iff {sep sep' : β → β → List Char}
    (hle : ∀ b b', (sep b b').length ≤ (sep' b b').length) {items : List β}
    (hvisible : ∀ b ∈ items, ∃ c ∈ text b, ¬ isWhitespace c = true) :
    trim (joined text sep items) = trim (joined text sep' items) ↔
      items.IsChain fun b b' => sep b b' = sep' b b' := by
  cases items with
  | nil => exact iff_of_true rfl .nil
  | cons b rest =>
    have hb := hvisible b List.mem_cons_self
    cases rest with
    | nil => exact iff_of_true rfl (.singleton b)
    | cons b' rest =>
      rw [← (rdropWhile_joined_iff hle hvisible).2, joined, joined]
      have hb' := hvisible b' (List.mem_cons_of_mem _ List.mem_cons_self)
      rw [trim, trim, List.append_assoc, List.append_assoc, dropWhile_append_visible hb,
        dropWhile_append_visible hb]
      simp only [← List.append_assoc]
      rw [rdropWhile_append_visible (exists_visible_joined hb'),
        rdropWhile_append_visible (exists_visible_joined hb'),
        rdropWhile_append_visible (exists_visible_joined hb'),
        rdropWhile_append_visible (exists_visible_joined hb')]
      simp only [List.append_assoc, List.append_cancel_left_eq]

end Joined

/-! ### Normalized documents -/

/-- What normalization leaves of what is written between two blocks. -/
def gapText (crates : MdCrates) (opts : MdOptions) (b b' : Block) : List Char :=
  between (lastGap (mapChars (crates.nfkc (closed b.kind b'.kind (b.text crates opts)))) ++
    leadGap (b'.mapped crates opts))

section Normalized

variable (h : LineBreaksInert crates.nfkc)

include h

/-- The first text of some blocks comes first. -/
theorem exists_mapped_writeBlocks {b : Block} (hb : b.Visible crates opts) (blocks : List Block) :
    ∃ z, mapChars (crates.nfkc (writeBlocks crates opts (b :: blocks))) =
      b.mapped crates opts ++ z := by
  cases blocks with
  | nil =>
    obtain ⟨n, hn⟩ := exists_separated_eq b.kind (b.text crates opts)
    exact ⟨List.replicate n '\n', by rw [writeBlocks, hn, h.mapped_replicate, Block.mapped]⟩
  | cons b' blocks =>
    obtain ⟨c, hc, -⟩ := hb.exists_ne_newline h
    obtain ⟨n, hn⟩ := exists_closed_eq b.kind b'.kind (b.text crates opts)
    have hlast := getLast?_closed (List.ne_nil_of_mem hc) b.kind b'.kind
    refine ⟨List.replicate n '\n' ++
      mapChars (crates.nfkc (writeBlocks crates opts (b' :: blocks))), ?_⟩
    rw [writeBlocks, h.mapped_append_of_getLast? hlast, hn, h.mapped_replicate, Block.mapped,
      List.append_assoc]

/-- Blocks are joined by what is left of the line breaks between them. -/
theorem tidy_writeBlocks {b : Block} {blocks : List Block}
    (hvisible : ∀ b' ∈ b :: blocks, b'.Visible crates opts) :
    tidy (mapChars (crates.nfkc (writeBlocks crates opts (b :: blocks)))) =
      joined (Block.tidyText crates opts) (gapText crates opts) (b :: blocks) := by
  have hgap : ∀ n, ∀ c ∈ List.replicate n '\n', isKept c = false := fun n c hc => by
    rw [List.eq_of_mem_replicate hc]
    decide
  induction blocks generalizing b with
  | nil =>
    have hb := hvisible b List.mem_cons_self
    obtain ⟨n, hn⟩ := exists_separated_eq b.kind (b.text crates opts)
    rw [writeBlocks, hn, h.mapped_replicate, joined, Block.tidyText, Block.mapped]
    exact tidy_append_gap hb.exists_kept (hgap n)
  | cons b' blocks ih =>
    have hb := hvisible b List.mem_cons_self
    have hb' := hvisible b' (List.mem_cons_of_mem _ List.mem_cons_self)
    obtain ⟨d, hd, -⟩ := hb.exists_ne_newline h
    obtain ⟨n, hn⟩ := exists_closed_eq b.kind b'.kind (b.text crates opts)
    have hlast := getLast?_closed (List.ne_nil_of_mem hd) b.kind b'.kind
    have hmapped : mapChars (crates.nfkc (closed b.kind b'.kind (b.text crates opts))) =
        b.mapped crates opts ++ List.replicate n '\n' := by
      rw [hn, h.mapped_replicate, Block.mapped]
    obtain ⟨z, hz⟩ := exists_mapped_writeBlocks h hb' blocks
    obtain ⟨k, hk, hkept⟩ := hb.exists_kept
    obtain ⟨k', hk', hkept'⟩ := hb'.exists_kept
    rw [writeBlocks, h.mapped_append_of_getLast? hlast, tidy_append
      ⟨k, hmapped ▸ List.mem_append_left _ hk, hkept⟩
      ⟨k', hz ▸ List.mem_append_left _ hk', hkept'⟩,
      ih fun c hc => hvisible c (List.mem_cons_of_mem _ hc), joined, hz,
      leadGap_append ⟨k', hk', hkept'⟩]
    congr 2
    rw [hmapped, Block.tidyText]
    exact tidy_append_gap ⟨k, hk, hkept⟩ (hgap n)

end Normalized

theorem length_between_le (g : List Char) : (between g).length ≤ 2 := by
  unfold between
  split
  · exact Nat.zero_le _
  · split
    · rw [newlines, List.length_replicate]
      exact Nat.min_le_left _ _
    · exact Nat.le_succ _

/-- A blank line is left of two newlines or more. -/
theorem between_eq_blank_iff (g : List Char) :
    between g = ['\n', '\n'] ↔ 2 ≤ g.count '\n' := by
  rcases between_cases g with ⟨hg, hb⟩ | ⟨-, hn, hb⟩ | ⟨hone, hb⟩ | ⟨htwo, hb⟩ <;> rw [hb]
  · rw [hg]
    decide
  · rw [List.count_eq_zero.mpr hn]
    decide
  · rw [hone]
    decide
  · exact iff_of_true rfl htwo

/-- Next to a heading or a code block there is a blank line. -/
theorem suffix_closed {kind next : BlockKind} (hkinds : ¬ (kind = .paragraph ∧ next = .paragraph))
    {t : List Char} (ht : t ≠ []) : ['\n', '\n'] <:+ closed kind next t := by
  have hne : separated kind t ≠ [] := (prefix_separated kind t).ne_nil ht
  unfold closed
  by_cases hnext : next = .paragraph
  · have hkind : kind ≠ .paragraph := fun hkind => hkinds ⟨hkind, hnext⟩
    rw [hnext, separated, if_pos rfl, ensureNewline_of_getLast? (getLast?_separated ht kind),
      separated, if_neg hkind]
    exact suffix_ensureBlankLine ht
  · rw [separated, if_neg hnext]
    exact suffix_ensureBlankLine hne

theorem gapText_eq_blank_iff (h : LineBreaksInert crates.nfkc) {b : Block}
    (hb : b.Visible crates opts) (b' : Block) :
    gapText crates opts b b' = ['\n', '\n'] ↔ Apart crates opts b b' := by
  rw [gapText, between_eq_blank_iff, Apart]
  by_cases hkinds : b.kind = .paragraph ∧ b'.kind = .paragraph
  · have hclosed : closed b.kind b'.kind (b.text crates opts) =
        ensureNewline (b.text crates opts) := by
      rw [hkinds.1, hkinds.2]
      exact ensureNewline_idem _
    rw [hclosed, or_iff_right (not_not.mpr hkinds)]
  · refine iff_of_true ?_ (.inl hkinds)
    obtain ⟨d, hd, -⟩ := hb.exists_ne_newline h
    obtain ⟨x, hx⟩ := suffix_closed hkinds (List.ne_nil_of_mem hd)
    have hmapped := h.mapped_replicate x 2
    have hgap : ∀ c ∈ List.replicate 2 '\n', (!isKept c) = true := by
      intro c hc
      rw [List.eq_of_mem_replicate hc]
      rfl
    rw [← hx]
    change 2 ≤ (lastGap (mapChars (crates.nfkc (x ++ List.replicate 2 '\n'))) ++ _).count '\n'
    rw [hmapped, lastGap, rtakeWhile_append_of_pos hgap, List.count_append, List.count_append,
      List.count_replicate_self]
    omega

/-- In normalized Markdown the texts of blocks are separated by blank lines exactly when no
two paragraphs follow each other, unless they have the second line break themselves. -/
theorem blocks_separated_iff (crates : MdCrates) (h : LineBreaksInert crates.nfkc)
    (md : List Char) (opts : MdOptions) (blocks : List Block)
    (hparse : crates.parse opts md = blocks.flatMap Block.stream)
    (hvisible : ∀ b ∈ blocks, b.Visible crates opts) :
    (normalizeMarkdownWith crates md opts).text = String.ofList
        (trim (['\n', '\n'].intercalate (blocks.map (Block.tidyText crates opts)))) ↔
      blocks.IsChain (Apart crates opts) := by
  have hchain : blocks.IsChain (Apart crates opts) ↔
      blocks.IsChain fun b b' => gapText crates opts b b' = ['\n', '\n'] :=
    List.IsChain.iff_of_mem_imp fun b b' hb _ =>
      (gapText_eq_blank_iff h (hvisible b hb) b').symm
  rw [normalizeMarkdownWith, normalize_text, String.toList_ofList, String.ofList_inj,
    renderPlainMarkdown, hparse, normalizeChars_eq, ← trim_tidy, hchain, ← joined_const]
  have hjoined : tidy (mapChars (crates.nfkc (renderEvents crates opts
      (blocks.flatMap Block.stream)))) =
        joined (Block.tidyText crates opts) (gapText crates opts) blocks := by
    cases blocks with
    | nil =>
      change tidy (mapChars (crates.nfkc [])) = []
      rw [h.nil]
      rfl
    | cons b blocks =>
      have htexts : ∀ b' ∈ b :: blocks, ∃ c ∈ b'.text crates opts, c ≠ '\n' :=
        fun b' hb' => (hvisible b' hb').exists_ne_newline h
      rw [renderEvents, out_mdRun_blocks (by rfl) b blocks htexts, ← tidy_writeBlocks h hvisible]
      have hstart : (startTag .new b.kind.tag).out = [] ∨
          (startTag .new b.kind.tag).out = ['\n'] := by
        cases b.kind with
        | paragraph | heading => exact .inl rfl
        | codeBlock => exact .inr rfl
      rcases hstart with hstart | hstart <;> rw [hstart]
      · rfl
      · rw [h.mapped_append_of_getLast? rfl]
        refine tidy_gap_append (fun c hc => ?_) _
        have hone := h.mapped_replicate [] 1
        rw [h.nil] at hone
        have hc' : c ∈ mapChars (crates.nfkc ([] ++ List.replicate 1 '\n')) := hc
        rw [hone] at hc'
        rw [List.mem_singleton.mp hc']
        decide
  rw [hjoined]
  refine trim_joined_iff (fun b b' => length_between_le _) fun b hb => ?_
  exact (hvisible b hb).exists_visible

/-- A block of one text. -/
def textBlock (kind : BlockKind) (t : List Char) : Block := ⟨kind, [.text t], rfl⟩

/-- A parser that finds the given blocks. -/
def finding (blocks : List Block) : MdCrates :=
  ⟨id, fun _ _ => none, fun _ _ => blocks.flatMap Block.stream⟩

theorem blocks_separated_iff_title :
    (normalizeMarkdownWith (finding [textBlock .heading ['T'], textBlock .paragraph ['p']])
        "# T\n\np".toList {}).text = String.ofList (trim (['\n', '\n'].intercalate
          ([textBlock .heading ['T'], textBlock .paragraph ['p']].map (Block.tidyText
            (finding [textBlock .heading ['T'], textBlock .paragraph ['p']]) {})))) ↔
      [textBlock .heading ['T'], textBlock .paragraph ['p']].IsChain
        (Apart (finding [textBlock .heading ['T'], textBlock .paragraph ['p']]) {}) :=
  blocks_separated_iff _ lineBreaksInert_id _ _ _ rfl (by simp [Block.Visible]; decide)

/-- Two paragraphs are one line apart. -/
theorem paragraphs_not_separated : ¬ ∀ (crates : MdCrates), LineBreaksInert crates.nfkc →
    ∀ (md : List Char) (opts : MdOptions) (blocks : List Block),
      crates.parse opts md = blocks.flatMap Block.stream →
      (∀ b ∈ blocks, b.Visible crates opts) →
      (normalizeMarkdownWith crates md opts).text = String.ofList
        (trim (['\n', '\n'].intercalate (blocks.map (Block.tidyText crates opts)))) := by
  intro h
  have htext := h (finding [textBlock .paragraph ['a'], textBlock .paragraph ['b']])
    lineBreaksInert_id "a\n\nb".toList {} [textBlock .paragraph ['a'], textBlock .paragraph ['b']]
    rfl (by simp [Block.Visible]; decide)
  rw [normalizeMarkdownWith, normalize_text, String.toList_ofList, String.ofList_inj] at htext
  revert htext
  decide

end Contexide.Normalizer
