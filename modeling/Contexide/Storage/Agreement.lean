import Mathlib.Data.Nat.Notation

/-! Two stores that answer the same calls, compared call by call. While the calls are
good the states stay related and the calls behave as required; where a bad call never
does, the two runs agree exactly as long as every call is good. -/

namespace Contexide.Storage

variable {C S T : Type} (step₁ : S → C → S) (step₂ : T → C → T)

/-- A condition on each call and the state of the first store before it. -/
def Along (good : C → S → Prop) : List C → S → Prop
  | [], _ => True
  | c :: cs, s => good c s ∧ Along good cs (step₁ s c)

/-- A requirement on each call and the states of both stores before it. -/
def AgreeFrom (required : C → S → T → Prop) : List C → S → T → Prop
  | [], _, _ => True
  | c :: cs, s, t => required c s t ∧ AgreeFrom required cs (step₁ s c) (step₂ t c)

variable {step₁ step₂} {assumed good : C → S → Prop} {required : C → S → T → Prop}

/-- One call that keeps the relation when it is good and breaks the requirement when it
is not, and with it every run. -/
theorem agreeFrom_iff {R : S → T → Prop}
    (hgood : ∀ c s t, R s t → assumed c s → good c s →
      required c s t ∧ R (step₁ s c) (step₂ t c))
    (hbad : ∀ c s t, R s t → assumed c s → ¬ good c s → ¬ required c s t)
    (cs : List C) {s : S} {t : T} (h : R s t) (ha : Along step₁ assumed cs s) :
    AgreeFrom step₁ step₂ required cs s t ↔ Along step₁ good cs s := by
  induction cs generalizing s t with
  | nil => exact Iff.rfl
  | cons c cs ih =>
    by_cases hg : good c s
    · obtain ⟨hreq, hnext⟩ := hgood c s t h ha.1 hg
      exact and_congr (iff_of_true hreq hg) (ih hnext ha.2)
    · exact iff_of_false (fun hr => hbad c s t h ha.1 hg hr.1) fun hr => hg hr.1

end Contexide.Storage
