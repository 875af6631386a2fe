/-
# Strict orders

An order is given as a test for "comes before". It is strict and total if no
element comes before itself, the order carries over, and of two different
elements one comes before the other. Lists are ordered by their first
difference, where the end of a list comes before everything.

Key definitions: `Order.Strict`, `Order.lex`, `Text.before`.
Key theorems: `Order.Strict.lex`, `Text.strict_before`.
-/
import TenBit.Text.Blank

namespace TenBit
namespace Order

variable {α : Type}

/-- The test is that of a strict total order. -/
structure Strict (before : α → α → Bool) : Prop where
  irrefl : ∀ a, before a a = false
  trans : ∀ {a b c}, before a b = true → before b c = true → before a c = true
  total : ∀ {a b}, a ≠ b → before a b = false → before b a = true

/-- The order of lists by their first difference. -/
def lex [DecidableEq α] (before : α → α → Bool) : List α → List α → Bool
  | _, [] => false
  | [], _ :: _ => true
  | a :: as, b :: bs => if a = b then lex before as bs else before a b

theorem lex_irrefl [DecidableEq α] (before : α → α → Bool) : ∀ as : List α, lex before as as = false
  | [] => rfl
  | a :: as => by simp [lex, lex_irrefl before as]

theorem lex_trans [DecidableEq α] {before : α → α → Bool} (h : Strict before) :
    ∀ {as bs cs : List α}, lex before as bs = true → lex before bs cs = true →
      lex before as cs = true
  | _, [], _, h₁, _ => by simp [lex] at h₁
  | _, _ :: _, [], _, h₂ => by simp [lex] at h₂
  | [], _ :: _, _ :: _, _, _ => rfl
  | a :: as, b :: bs, c :: cs, h₁, h₂ => by
    simp only [lex] at h₁ h₂ ⊢
    by_cases hab : a = b
    · subst hab
      by_cases hac : a = c
      · subst hac
        simp only [if_true] at h₁ h₂ ⊢
        exact lex_trans h h₁ h₂
      · simpa [hac] using h₂
    · by_cases hbc : b = c
      · subst hbc
        simpa [hab] using h₁
      · simp only [hab, hbc, if_false] at h₁ h₂
        have hac : a ≠ c := by
          rintro rfl
          have := h.trans h₁ h₂
          simp [h.irrefl] at this
        simpa [hac] using h.trans h₁ h₂

theorem lex_total [DecidableEq α] {before : α → α → Bool} (h : Strict before) :
    ∀ {as bs : List α}, as ≠ bs → lex before as bs = false → lex before bs as = true
  | [], [], hne, _ => absurd rfl hne
  | _ :: _, [], _, _ => rfl
  | [], _ :: _, _, h₁ => by simp [lex] at h₁
  | a :: as, b :: bs, hne, h₁ => by
    simp only [lex] at h₁ ⊢
    by_cases hab : a = b
    · subst hab
      simp only [if_true] at h₁ ⊢
      exact lex_total h (fun he => hne (he ▸ rfl)) h₁
    · simp only [hab, Ne.symm hab, if_false] at h₁ ⊢
      exact h.total hab h₁

/-- Lists over a strict order are strictly ordered. -/
theorem Strict.lex [DecidableEq α] {before : α → α → Bool} (h : Strict before) :
    Strict (Order.lex before) :=
  ⟨lex_irrefl before, lex_trans h, lex_total h⟩

end Order

namespace Text

/-- The order of characters by their code points. -/
def charBefore (a b : Char) : Bool := decide (a.toNat < b.toNat)

theorem strict_charBefore : Order.Strict charBefore where
  irrefl a := by simp [charBefore]
  trans h₁ h₂ := by
    simp only [charBefore, decide_eq_true_eq] at h₁ h₂ ⊢
    exact Nat.lt_trans h₁ h₂
  total {a b} hne h := by
    simp only [charBefore, decide_eq_false_iff_not, decide_eq_true_eq] at h ⊢
    have : a.toNat ≠ b.toNat := fun he => hne (Char.toNat_inj.1 he)
    omega

/-- The order of texts by their first difference. -/
def before : Text → Text → Bool := Order.lex charBefore

theorem strict_before : Order.Strict before := strict_charBefore.lex

end Text
end TenBit
