import Mathlib.Data.List.Basic

/-! Subjects of a publish and subscribe system: tokens separated by dots, and
patterns in which a star stands for one token. -/

namespace Contexide.MessagingNats

/-- The dot-separated tokens of a subject. -/
def tokens (subject : String) : List (List Char) := subject.toList.splitOn '.'

def matchTokens : List (List Char) → List (List Char) → Bool
  | [], [] => true
  | p :: pattern, t :: subject =>
    (if p = ['*'] then !t.isEmpty else p == t) && matchTokens pattern subject
  | _, _ => false

/-- A subscription to `pattern` receives what is published to `subject`. -/
def Matches (pattern subject : String) : Prop :=
  matchTokens (tokens pattern) (tokens subject) = true

/-- The string is a single token. -/
def OneToken (s : String) : Prop := s ≠ "" ∧ '.' ∉ s.toList

theorem tokens_append (s t : String) : tokens (s ++ "." ++ t) = tokens s ++ tokens t := by
  have hdot : ".".toList = ['.'] := by decide
  rw [tokens, String.toList_append, String.toList_append, hdot, List.append_assoc,
    List.singleton_append, List.splitOn_append_cons_self]
  rfl

theorem tokens_of_notMem {s : String} (h : '.' ∉ s.toList) : tokens s = [s.toList] :=
  List.splitOn_eq_singleton h

theorem matchTokens_self (ts : List (List Char)) : matchTokens ts ts = true := by
  induction ts with
  | nil => rfl
  | cons t ts ih =>
    rw [matchTokens, ih, Bool.and_true]
    split
    · next h => rw [h]; rfl
    · exact beq_self_eq_true t

theorem matchTokens_append {p t : List (List Char)} (q u : List (List Char))
    (h : p.length = t.length) :
    matchTokens (p ++ q) (t ++ u) = (matchTokens p t && matchTokens q u) := by
  induction p generalizing t with
  | nil => rw [List.length_eq_zero_iff.mp h.symm, matchTokens, Bool.true_and]; rfl
  | cons x p ih =>
    cases t with
    | nil => simp at h
    | cons y t =>
      have hlen : p.length = t.length := by simpa using h
      simp only [List.cons_append, matchTokens, ih hlen, Bool.and_assoc]

/-- The star matches one token between equal prefixes and suffixes. -/
theorem matches_star (pre post : String) {kind : String} (hk : OneToken kind) :
    Matches (pre ++ "." ++ "*" ++ "." ++ post) (pre ++ "." ++ kind ++ "." ++ post) := by
  have hstar : tokens "*" = [['*']] := tokens_of_notMem (by decide)
  have hne : kind.toList ≠ [] := fun h => hk.1 (String.toList_eq_nil_iff.mp h)
  unfold Matches
  simp only [tokens_append, hstar, tokens_of_notMem hk.2]
  rw [matchTokens_append _ _ (by simp), matchTokens_append _ _ rfl, matchTokens_self,
    matchTokens_self]
  simp [matchTokens, hne]

/-- The last two tokens of a subject. -/
theorem last_tokens_inj {pre pre' kind kind' post post' : String} (hk : '.' ∉ kind.toList)
    (hk' : '.' ∉ kind'.toList) (hp : '.' ∉ post.toList) (hp' : '.' ∉ post'.toList)
    (h : pre ++ "." ++ kind ++ "." ++ post = pre' ++ "." ++ kind' ++ "." ++ post') :
    kind = kind' ∧ post = post' := by
  have ht := congrArg tokens h
  simp only [tokens_append, tokens_of_notMem hk, tokens_of_notMem hk', tokens_of_notMem hp,
    tokens_of_notMem hp', List.append_assoc, List.singleton_append] at ht
  have hlast := (List.append_inj' ht rfl).2
  simp only [List.cons.injEq, and_true, String.toList_inj] at hlast
  exact hlast

end Contexide.MessagingNats
