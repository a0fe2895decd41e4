import Contexide.Normalizer.Idempotent

/-! What collapsing whitespace does to every text: the kept characters stay in their
order, each gap becomes nothing, a space, a newline or a blank line by what it was, and
collapsing once more changes nothing. -/

namespace Contexide.Normalizer

open Text

theorem newlines_newlines (g : List Char) : newlines (newlines g) = newlines g := by
  rw [newlines, newlines, List.count_replicate_self]
  congr 1
  omega

theorem isKept_newlines {g : List Char} : ∀ c ∈ newlines g, isKept c = false := by
  intro c hc
  rw [mem_newlines hc]
  decide

/-- The collapsed text as kept characters and gaps. -/
def collapsed (s : List Char) : Gapped Char where
  lead := newlines (Gapped.split isKept s).lead
  items := mapGaps between newlines (Gapped.split isKept s).items

theorem toList_collapsed (s : List Char) : (collapsed s).toList = collapseWhitespace s :=
  (collapseWhitespace_eq s).symm

theorem valid_collapsed (s : List Char) : (collapsed s).Valid isKept := by
  refine ⟨isKept_newlines, fun j hj => ?_⟩
  obtain ⟨i, hi, hkey, hgap⟩ := mem_mapGaps hj
  refine ⟨hkey ▸ ((Gapped.valid_split s).items i hi).1, ?_⟩
  rcases hgap with hgap | hgap
  · rw [hgap]
    exact isKept_between
  · rw [hgap]
    exact isKept_newlines

theorem split_collapseWhitespace (s : List Char) :
    Gapped.split isKept (collapseWhitespace s) = collapsed s := by
  rw [← toList_collapsed, Gapped.split_toList (valid_collapsed s)]

theorem filter_collapseWhitespace (s : List Char) :
    (collapseWhitespace s).filter isKept = s.filter isKept := by
  conv_rhs => rw [← @Gapped.toList_split _ isKept s]
  rw [← toList_collapsed, (valid_collapsed s).filter_toList,
    (Gapped.valid_split s).filter_toList]
  exact mapGaps_keys

/-- Collapsed gaps stay as they are. -/
theorem collapseWhitespace_collapseWhitespace (s : List Char) :
    collapseWhitespace (collapseWhitespace s) = collapseWhitespace s := by
  have hbetween : between ∘ between = between := funext between_between
  have hnewlines : newlines ∘ newlines = newlines := funext newlines_newlines
  rw [collapseWhitespace_eq (collapseWhitespace s), split_collapseWhitespace, collapsed,
    newlines_newlines, mapGaps_mapGaps, hbetween, hnewlines]
  exact (collapseWhitespace_eq s).symm

/-- Collapsing keeps the characters other than spaces, tabs and newlines. It writes
between two of them what their gap calls for, and the newlines of the gaps at both ends,
two at most. Doing it twice is doing it once. -/
theorem collapseWhitespace_exact (s : List Char) :
    (collapseWhitespace s).filter isKept = s.filter isKept ∧
    (∃ p : Gapped Char, p.toList = s ∧ p.Valid isKept ∧
      collapseWhitespace s = newlines p.lead ++ spell (mapGaps between newlines p.items) ∧
      ∀ i ∈ p.items.dropLast, i.2 = [] ∧ between i.2 = [] ∨
        i.2 ≠ [] ∧ '\n' ∉ i.2 ∧ between i.2 = [' '] ∨
        i.2.count '\n' = 1 ∧ between i.2 = ['\n'] ∨
        2 ≤ i.2.count '\n' ∧ between i.2 = ['\n', '\n']) ∧
    collapseWhitespace (collapseWhitespace s) = collapseWhitespace s :=
  ⟨filter_collapseWhitespace s,
    ⟨Gapped.split isKept s, Gapped.toList_split s, Gapped.valid_split s, collapseWhitespace_eq s,
      fun i _ => between_cases i.2⟩,
    collapseWhitespace_collapseWhitespace s⟩

example : collapseWhitespace "\n a\t b \n\n\n c \n".toList = "\na b\n\nc\n".toList := by decide

end Contexide.Normalizer
