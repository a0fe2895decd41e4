import Contexide.Core.Json
import Contexide.Text.Hex
import Contexide.Text.ReadOff

/-! The compact text of a JSON value: no white space, strings with the short
escapes and `\u00..` for the other control characters. However numbers are
written, as long as different ones are written differently, a text is the text
of one value. -/

namespace Contexide.JsonText

open Text (ReadsOff)

/-! ### Strings -/

/-- The letter of a short escape. -/
def escapeLetter : Char → Option Char
  | '"' => some '"'
  | '\\' => some '\\'
  | '\x08' => some 'b'
  | '\x0c' => some 'f'
  | '\n' => some 'n'
  | '\r' => some 'r'
  | '\t' => some 't'
  | _ => none

def escape (c : Char) : List Char :=
  match escapeLetter c with
  | some l => ['\\', l]
  | none =>
    if c.toNat < 32 then
      ['\\', 'u', '0', '0', Nat.digitChar (c.toNat / 16), Nat.digitChar (c.toNat % 16)]
    else [c]

def stringText (s : String) : List Char := '"' :: (s.toList.flatMap escape ++ ['"'])

theorem escapeLetter_inj {c d l : Char} (hc : escapeLetter c = some l)
    (hd : escapeLetter d = some l) : c = d := by
  unfold escapeLetter at hc
  split at hc <;> cases hc <;> (unfold escapeLetter at hd; split at hd <;> simp at hd ⊢)

/-- The three ways to write a character. -/
inductive Escaped (c : Char) : List Char → Prop where
  | short {l : Char} (h : escapeLetter c = some l) (hu : l ≠ 'u') : Escaped c ['\\', l]
  | control (h : c.toNat < 32) : Escaped c
    ['\\', 'u', '0', '0', Nat.digitChar (c.toNat / 16), Nat.digitChar (c.toNat % 16)]
  | plain (hq : c ≠ '"') (hb : c ≠ '\\') : Escaped c [c]

theorem escaped_escape (c : Char) : Escaped c (escape c) := by
  unfold escape
  cases h : escapeLetter c with
  | some l =>
    refine .short h ?_
    rintro rfl
    unfold escapeLetter at h
    split at h <;> simp at h
  | none =>
    dsimp only
    split
    · next hlt => exact .control hlt
    · refine .plain ?_ ?_
      · rintro rfl
        simp [escapeLetter] at h
      · rintro rfl
        simp [escapeLetter] at h

theorem readsOff_escape : ReadsOff (fun _ => True) escape := by
  intro c d x y _ _ h
  have hc := escaped_escape c
  have hd := escaped_escape d
  generalize escape c = u at h hc
  generalize escape d = v at h hd
  cases hc with
  | @short l hl hu =>
    cases hd with
    | @short m hm =>
      simp only [List.cons_append, List.nil_append, List.cons.injEq, true_and] at h
      exact ⟨escapeLetter_inj hl (h.1 ▸ hm), h.2⟩
    | control => exact absurd (List.head_eq_of_cons_eq (List.tail_eq_of_cons_eq h)) hu
    | plain _ hb => exact absurd (List.head_eq_of_cons_eq h).symm hb
  | control hlt =>
    cases hd with
    | short hm hu => exact absurd (List.head_eq_of_cons_eq (List.tail_eq_of_cons_eq h)).symm hu
    | control hlt' =>
      simp only [List.cons_append, List.nil_append, List.cons.injEq, true_and] at h
      have hhigh := Text.digitChar_inj (by omega) (by omega) h.1
      have hlow := Text.digitChar_inj (by omega) (by omega) h.2.1
      exact ⟨Char.toNat_inj.mp (by omega), h.2.2⟩
    | plain _ hb => exact absurd (List.head_eq_of_cons_eq h).symm hb
  | plain _ hb =>
    cases hd with
    | plain => exact ⟨List.head_eq_of_cons_eq h, List.tail_eq_of_cons_eq h⟩
    | _ => exact absurd (List.head_eq_of_cons_eq h) hb

theorem escape_head (c : Char) : ∃ d l, escape c = d :: l ∧ d ≠ '"' := by
  have hc := escaped_escape c
  generalize escape c = u at hc
  cases hc with
  | plain hq => exact ⟨c, [], rfl, hq⟩
  | _ => exact ⟨'\\', _, rfl, by decide⟩

theorem readsOff_stringText : ReadsOff (fun _ => True) stringText := by
  intro s t x y _ _ h
  have hbody := readsOff_escape.flatMap_concat escape_head
  obtain ⟨hst, hxy⟩ := hbody s.toList t.toList x y trivial trivial (List.tail_eq_of_cons_eq h)
  exact ⟨String.toList_inj.mp hst, hxy⟩

/-! ### Values -/

/-- The letters of numbers. -/
def isNumberChar (c : Char) : Bool := c.isDigit || c ∈ ['+', '-', '.', 'e']

/-- Different numbers are written differently, with the letters of numbers. -/
structure WritesNumbers (number : JsonNumber → List Char) : Prop where
  injective : Function.Injective number
  ne_nil : ∀ n, number n ≠ []
  letters : ∀ n, ∀ c ∈ number n, isNumberChar c = true

variable (number : JsonNumber → List Char)

mutual

def text : Json → List Char
  | .null => ['n', 'u', 'l', 'l']
  | .bool true => ['t', 'r', 'u', 'e']
  | .bool false => ['f', 'a', 'l', 's', 'e']
  | .number n => number n
  | .string s => stringText s
  | .array [] => ['[', ']']
  | .array (v :: arr) => '[' :: (text v ++ itemsText arr)
  | .object [] => ['{', '}']
  | .object ((k, v) :: map) => '{' :: (stringText k ++ ':' :: (text v ++ entriesText map))

/-- The rest of an array after an item. -/
def itemsText : List Json → List Char
  | [] => [']']
  | v :: arr => ',' :: (text v ++ itemsText arr)

/-- The rest of an object after an entry. -/
def entriesText : List (String × Json) → List Char
  | [] => ['}']
  | (k, v) :: map => ',' :: (stringText k ++ ':' :: (text v ++ entriesText map))

end

/-- What follows a value does not continue a number. -/
def Ends (x : List Char) : Prop := ∀ c ∈ x.head?, isNumberChar c = false

/-- The constructor of a value that starts with the character. -/
def constructorOf (c : Char) : ℕ :=
  if isNumberChar c then 2
  else
    match c with
    | 'n' => 0
    | 't' | 'f' => 1
    | '"' => 3
    | '[' => 4
    | '{' => 5
    | _ => 6

variable {number}

theorem text_head (hnumber : WritesNumbers number) (v : Json) :
    ∃ c l, text number v = c :: l ∧ constructorOf c = v.ctorIdx := by
  cases v with
  | null => exact ⟨'n', _, rfl, rfl⟩
  | bool b =>
    cases b with
    | false => exact ⟨'f', _, rfl, rfl⟩
    | true => exact ⟨'t', _, rfl, rfl⟩
  | number n =>
    obtain ⟨c, l, hcl⟩ := List.exists_cons_of_ne_nil (hnumber.ne_nil n)
    refine ⟨c, l, hcl, ?_⟩
    rw [constructorOf.eq_def, if_pos (hnumber.letters n c (hcl ▸ List.mem_cons_self))]
    rfl
  | string s => exact ⟨'"', _, rfl, rfl⟩
  | array arr =>
    cases arr with
    | nil => exact ⟨'[', _, rfl, rfl⟩
    | cons v arr => exact ⟨'[', _, rfl, rfl⟩
  | object map =>
    cases map with
    | nil => exact ⟨'{', _, rfl, rfl⟩
    | cons e map => exact ⟨'{', _, rfl, rfl⟩

/-- No value starts with a closing bracket. -/
theorem text_append_ne_cons (hnumber : WritesNumbers number) (v : Json) (x y : List Char) {c : Char}
    (hc : constructorOf c = 6) : text number v ++ x ≠ c :: y := by
  intro h
  obtain ⟨d, l, hv, hd⟩ := text_head hnumber v
  rw [hv] at h
  rw [List.head_eq_of_cons_eq h, hc] at hd
  cases v <;> cases hd

theorem ends_itemsText (arr : List Json) (x : List Char) : Ends (itemsText number arr ++ x) := by
  cases arr with
  | nil => rintro _ ⟨⟩; rfl
  | cons v arr => rintro _ ⟨⟩; rfl

theorem ends_entriesText (map : List (String × Json)) (x : List Char) :
    Ends (entriesText number map ++ x) := by
  cases map with
  | nil => rintro _ ⟨⟩; rfl
  | cons e map => rintro _ ⟨⟩; rfl

section

variable {v v' : Json} {x y : List Char}
  (hvalue : ∀ x y, Ends x → Ends y → text number v ++ x = text number v' ++ y → v = v' ∧ x = y)

include hvalue

/-- An item and the rest of its array, when each is read off. -/
theorem item_readsOff {arr arr' : List Json}
    (hrest : ∀ x y, itemsText number arr ++ x = itemsText number arr' ++ y → arr = arr' ∧ x = y)
    (h : text number v ++ (itemsText number arr ++ x) =
      text number v' ++ (itemsText number arr' ++ y)) : v :: arr = v' :: arr' ∧ x = y := by
  obtain ⟨rfl, htail⟩ := hvalue _ _ (ends_itemsText arr x) (ends_itemsText arr' y) h
  obtain ⟨rfl, hxy⟩ := hrest x y htail
  exact ⟨rfl, hxy⟩

/-- An entry and the rest of its object, when each is read off. -/
theorem entry_readsOff {k k' : String} {map map' : List (String × Json)}
    (hrest : ∀ x y, entriesText number map ++ x = entriesText number map' ++ y →
      map = map' ∧ x = y)
    (h : stringText k ++ ':' :: (text number v ++ (entriesText number map ++ x)) =
      stringText k' ++ ':' :: (text number v' ++ (entriesText number map' ++ y))) :
    (k, v) :: map = (k', v') :: map' ∧ x = y := by
  obtain ⟨rfl, hcolon⟩ := readsOff_stringText k k' _ _ trivial trivial h
  obtain ⟨rfl, htail⟩ := hvalue _ _ (ends_entriesText map x) (ends_entriesText map' y)
    (List.tail_eq_of_cons_eq hcolon)
  obtain ⟨rfl, hxy⟩ := hrest x y htail
  exact ⟨rfl, hxy⟩

end

mutual

theorem text_readsOff (hnumber : WritesNumbers number) (v w : Json) (x y : List Char)
    (hx : Ends x) (hy : Ends y) (h : text number v ++ x = text number w ++ y) :
    v = w ∧ x = y := by
  -- the first character tells the constructors apart
  have hctor : v.ctorIdx = w.ctorIdx := by
    obtain ⟨c, l, hv, hc⟩ := text_head hnumber v
    obtain ⟨d, m, hw, hd⟩ := text_head hnumber w
    rw [hv, hw] at h
    rw [← hc, ← hd, List.head_eq_of_cons_eq h]
  cases v with
  | null =>
    cases w with
    | null => exact ⟨rfl, List.append_cancel_left h⟩
    | _ => cases hctor
  | bool b =>
    cases w with
    | bool b' => cases b <;> cases b' <;> simp [text] at h <;> exact ⟨rfl, h⟩
    | _ => cases hctor
  | number n =>
    cases w with
    | number n' =>
      rw [text, text] at h
      obtain ⟨rfl, hxy⟩ := ReadsOff.of_letters hnumber.injective hnumber.letters n n' x y hx hy h
      exact ⟨rfl, hxy⟩
    | _ => cases hctor
  | string s =>
    cases w with
    | string s' =>
      rw [text, text] at h
      obtain ⟨rfl, hxy⟩ := readsOff_stringText s s' x y trivial trivial h
      exact ⟨rfl, hxy⟩
    | _ => cases hctor
  | array arr =>
    cases w with
    | array arr' =>
      rw [Json.array.injEq]
      match arr, arr' with
      | [], [] => exact ⟨rfl, List.append_cancel_left h⟩
      | [], v' :: arr' =>
        simp only [text, List.cons_append, List.append_assoc, List.cons.injEq, true_and] at h
        exact absurd h.symm (text_append_ne_cons hnumber v' _ _ rfl)
      | v :: arr, [] =>
        simp only [text, List.cons_append, List.append_assoc, List.cons.injEq, true_and] at h
        exact absurd h (text_append_ne_cons hnumber v _ _ rfl)
      | v :: arr, v' :: arr' =>
        simp only [text, List.cons_append, List.append_assoc, List.cons.injEq, true_and] at h
        exact item_readsOff (text_readsOff hnumber v v') (itemsText_readsOff hnumber arr arr') h
    | _ => cases hctor
  | object map =>
    cases w with
    | object map' =>
      rw [Json.object.injEq]
      match map, map' with
      | [], [] => exact ⟨rfl, List.append_cancel_left h⟩
      | [], _ :: _ => cases List.head_eq_of_cons_eq (List.tail_eq_of_cons_eq h)
      | _ :: _, [] => cases List.head_eq_of_cons_eq (List.tail_eq_of_cons_eq h)
      | (k, v) :: map, (k', v') :: map' =>
        simp only [text, List.cons_append, List.append_assoc, List.cons.injEq, true_and] at h
        exact entry_readsOff (text_readsOff hnumber v v') (entriesText_readsOff hnumber map map') h
    | _ => cases hctor

theorem itemsText_readsOff (hnumber : WritesNumbers number) (arr arr' : List Json)
    (x y : List Char) (h : itemsText number arr ++ x = itemsText number arr' ++ y) :
    arr = arr' ∧ x = y := by
  match arr, arr' with
  | [], [] => exact ⟨rfl, List.append_cancel_left h⟩
  | [], _ :: _ => cases List.head_eq_of_cons_eq h
  | _ :: _, [] => cases List.head_eq_of_cons_eq h
  | v :: arr, v' :: arr' =>
    simp only [itemsText, List.cons_append, List.append_assoc, List.cons.injEq, true_and] at h
    exact item_readsOff (text_readsOff hnumber v v') (itemsText_readsOff hnumber arr arr') h

theorem entriesText_readsOff (hnumber : WritesNumbers number) (map map' : List (String × Json))
    (x y : List Char) (h : entriesText number map ++ x = entriesText number map' ++ y) :
    map = map' ∧ x = y := by
  match map, map' with
  | [], [] => exact ⟨rfl, List.append_cancel_left h⟩
  | [], _ :: _ => cases List.head_eq_of_cons_eq h
  | _ :: _, [] => cases List.head_eq_of_cons_eq h
  | (k, v) :: map, (k', v') :: map' =>
    simp only [entriesText, List.cons_append, List.append_assoc, List.cons.injEq, true_and] at h
    exact entry_readsOff (text_readsOff hnumber v v') (entriesText_readsOff hnumber map map') h

end

/-- Different values have different texts. -/
theorem text_injective (hnumber : WritesNumbers number) : Function.Injective (text number) := by
  have h : ReadsOff Ends (text number) := text_readsOff hnumber
  exact h.injective fun _ hc => nomatch hc

/-! ### Numbers -/

/-- Integers in decimal, and floats by their bits. -/
def numberText : JsonNumber → List Char
  | .posInt n => Nat.toDigits 10 n.toNat
  | .negInt n _ => '-' :: Nat.toDigits 10 n.toInt.natAbs
  | .float bits => Nat.toDigits 10 bits.toNat ++ ['e', '0']

theorem isDigit_of_mem_toDigits {n : ℕ} {c : Char} (h : c ∈ Nat.toDigits 10 n) :
    c.isDigit = true :=
  Nat.isDigit_of_mem_toDigits (by decide) (by decide) h

theorem toDigits_inj {m n : ℕ} (h : Nat.toDigits 10 m = Nat.toDigits 10 n) : m = n := by
  rw [← Nat.ofDigitChars_toDigits (b := 10) (n := m) (by decide) (by decide), h,
    Nat.ofDigitChars_toDigits (by decide) (by decide)]

theorem numberText_injective : Function.Injective numberText := by
  -- a minus sign tells the negative integers apart, an `e` the floats
  have hminus : ∀ n, '-' ∉ Nat.toDigits 10 n :=
    fun n h => absurd (isDigit_of_mem_toDigits h) (by simp)
  have he : ∀ n, 'e' ∉ Nat.toDigits 10 n :=
    fun n h => absurd (isDigit_of_mem_toDigits h) (by simp)
  intro m n h
  have hm : '-' ∈ numberText m ↔ '-' ∈ numberText n := by rw [h]
  have hmn : 'e' ∈ numberText m ↔ 'e' ∈ numberText n := by rw [h]
  cases m with
  | posInt i =>
    cases n with
    | posInt j => exact congrArg _ (UInt64.toNat_inj.mp (toDigits_inj h))
    | negInt => simp [numberText, hminus] at hm
    | float => simp [numberText, he] at hmn
  | negInt i hi =>
    cases n with
    | posInt => simp [numberText, hminus] at hm
    | negInt j hj =>
      have habs := toDigits_inj (List.tail_eq_of_cons_eq h)
      rw [Int64.lt_iff_toInt_lt] at hi hj
      obtain rfl : i = j := Int64.toInt_inj.mp (by simp at hi hj; omega)
      rfl
    | float => simp [numberText, he] at hmn
  | float bits =>
    cases n with
    | posInt => simp [numberText, he] at hmn
    | negInt => simp [numberText, he] at hmn
    | float bits' =>
      exact congrArg _ (UInt64.toNat_inj.mp (toDigits_inj (List.append_cancel_right h)))

theorem writesNumbers_numberText : WritesNumbers numberText where
  injective := numberText_injective
  ne_nil n := by
    cases n with
    | posInt n => exact Nat.toDigits_ne_nil
    | _ => simp [numberText]
  letters n c hc := by
    have hdigit : ∀ {m : ℕ}, c ∈ Nat.toDigits 10 m → isNumberChar c = true := by
      intro m hm
      rw [isNumberChar, isDigit_of_mem_toDigits hm, Bool.true_or]
    cases n with
    | posInt n => exact hdigit hc
    | negInt n =>
      rcases List.mem_cons.mp hc with rfl | hc
      · rfl
      · exact hdigit hc
    | float bits =>
      rcases List.mem_append.mp hc with hc | hc
      · exact hdigit hc
      · rcases List.mem_pair.mp hc with rfl | rfl <;> rfl

end Contexide.JsonText
