import Contexide.Text.Whitespace

/-! Lower case. Characters map one by one through a table, which the Unicode character
database gives, except that a capital sigma at the end of a word has a form of its own. A
character that no word goes across cuts a text into parts with lower cases of their own. -/

namespace Contexide.Text

/-- The lower case of each character, and the two properties that tell where a word ends. -/
structure CaseTable where
  lower : Char → List Char
  isCased : Char → Bool
  isCaseIgnorable : Char → Bool

namespace CaseTable

variable (table : CaseTable)

/-- Whether the first character that cannot be ignored has a case. -/
def caseIgnorableThenCased (s : List Char) : Bool :=
  (s.dropWhile table.isCaseIgnorable).head?.any table.isCased

/-- The lower case of a text that continues another, given last character first. -/
def lowercaseAfter (before : List Char) : List Char → List Char
  | [] => []
  | c :: s =>
    (if c = 'Σ' then
      -- the final form stands after a letter and before none
      if table.caseIgnorableThenCased before && !table.caseIgnorableThenCased s then ['ς']
      else ['σ']
    else table.lower c) ++ lowercaseAfter (c :: before) s

def toLowercase (s : List Char) : List Char := table.lowercaseAfter [] s

/-- A character that is its own lower case and ends every word before it. -/
structure Separates (c : Char) : Prop where
  lower : table.lower c = [c]
  cased : table.isCased c = false
  caseIgnorable : table.isCaseIgnorable c = false
  ne_sigma : c ≠ 'Σ'

variable {table} {c : Char}

namespace Separates

theorem caseIgnorableThenCased_append (hc : table.Separates c) (x y : List Char) :
    table.caseIgnorableThenCased (x ++ c :: y) = table.caseIgnorableThenCased x := by
  induction x with
  | nil => simp [caseIgnorableThenCased, hc.caseIgnorable, hc.cased]
  | cons d x ih =>
    cases hd : table.isCaseIgnorable d with
    | true => simpa [caseIgnorableThenCased, hd] using ih
    | false => simp [caseIgnorableThenCased, hd]

/-- What stands before the separating character does not matter after it. -/
theorem lowercaseAfter_before (hc : table.Separates c) (s b x : List Char) :
    table.lowercaseAfter (b ++ c :: x) s = table.lowercaseAfter b s := by
  induction s generalizing b with
  | nil => rfl
  | cons d s ih =>
    rw [lowercaseAfter, lowercaseAfter, hc.caseIgnorableThenCased_append]
    exact congrArg _ (ih (d :: b))

theorem lowercaseAfter_cons (hc : table.Separates c) (b y : List Char) :
    table.lowercaseAfter b (c :: y) = c :: table.toLowercase y := by
  have hone := hc.lowercaseAfter_before y [] b
  rw [List.nil_append] at hone
  rw [lowercaseAfter, if_neg hc.ne_sigma, hc.lower, hone]
  rfl

theorem lowercaseAfter_append (hc : table.Separates c) (x b y : List Char) :
    table.lowercaseAfter b (x ++ c :: y) =
      table.lowercaseAfter b x ++ c :: table.toLowercase y := by
  induction x generalizing b with
  | nil => exact hc.lowercaseAfter_cons b y
  | cons d x ih =>
    rw [List.cons_append, lowercaseAfter, lowercaseAfter, hc.caseIgnorableThenCased_append, ih,
      List.append_assoc]

/-- Both sides of a separating character have lower cases of their own. -/
theorem toLowercase_append (hc : table.Separates c) (x y : List Char) :
    table.toLowercase (x ++ c :: y) = table.toLowercase x ++ c :: table.toLowercase y :=
  hc.lowercaseAfter_append x [] y

end Separates

/-- A tail of separating characters stays as it is. -/
theorem toLowercase_append_of_separates (x : List Char) {g : List Char}
    (hg : ∀ c ∈ g, table.Separates c) :
    table.toLowercase (x ++ g) = table.toLowercase x ++ g := by
  induction g generalizing x with
  | nil => rw [List.append_nil, List.append_nil]
  | cons c g ih =>
    have hc := hg c List.mem_cons_self
    have htail := ih [] fun d hd => hg d (List.mem_cons_of_mem c hd)
    rw [hc.toLowercase_append, ← List.nil_append g, htail]
    rfl

/-! ### ASCII -/

/-- The table of the ASCII letters. -/
def ascii : CaseTable where
  lower c := [c.toLower]
  isCased c := decide (65 ≤ c.toNat ∧ c.toNat ≤ 90 ∨ 97 ≤ c.toNat ∧ c.toNat ≤ 122)
  isCaseIgnorable _ := false

/-- What is no letter separates; the last number is that of the capital sigma. -/
theorem ascii_separates (h : c.toNat < 65 ∨ 122 < c.toNat ∧ c.toNat ≠ 931) :
    ascii.Separates c where
  lower := by
    refine congrArg (fun d => [d]) (dif_neg ?_)
    rw [ge_iff_le, UInt32.le_iff_toNat_le, UInt32.le_iff_toNat_le]
    change ¬ (65 ≤ c.toNat ∧ c.toNat ≤ 90)
    omega
  cased := decide_eq_false (by omega)
  caseIgnorable := rfl
  ne_sigma := by
    rintro rfl
    revert h
    decide

theorem ascii_separates_of_isWhitespace (h : isWhitespace c = true) : ascii.Separates c := by
  have hc := toNat_of_isWhitespace h
  exact ascii_separates (by omega)

/-- The first sigma ends a word, the second does not. -/
example : ascii.toLowercase "AΣ aΣA".toList = "aς aσa".toList := by decide

end CaseTable

end Contexide.Text
