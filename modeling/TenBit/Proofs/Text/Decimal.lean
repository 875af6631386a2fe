/-
# What numerals mean

A numeral is one or more digits, and its number is the one they have in base ten,
first digit highest. An integer may have a sign in front, a count only a plus sign.
Reading digit by digit, with a check at each of them, comes to one check of that
number: the texts that are read are those of the numbers within the bounds.

Key definitions: `Decimal.Writes`, `Decimal.WritesCount`, `Decimal.WritesInt`.
Key theorems: `Decimal.isInteger_iff`, `Decimal.Bounds.foldlM_append?`,
`Decimal.Bounds.parse?_eq_some_iff`, `Decimal.Bounds.parse?_of_writesInt`,
`Decimal.Bounds.parse?_eq_some_iff_writesCount`.
-/
import Mathlib.Data.Nat.Digits.Defs
import TenBit.Proofs.Text.Words
import TenBit.Text.Decimal

namespace TenBit
namespace Decimal

/-- One or more digits that have the number `n` in base ten. -/
structure Writes (t : Text) (n : Nat) : Prop where
  ne_nil : t ≠ []
  digits : ∀ c ∈ t, c.isDigit = true
  number : Nat.ofDigits 10 (t.map digitValue).reverse = n

/-- The digits of a number, with a plus sign in front or not. -/
inductive WritesCount : Text → Nat → Prop
  | plain {t : Text} {n : Nat} (h : Writes t n) : WritesCount t n
  | plus {t : Text} {n : Nat} (h : Writes t n) : WritesCount ('+' :: t) n

/-- The digits of a number, with a sign in front or not. -/
inductive WritesInt : Text → Int → Prop
  | plain {t : Text} {n : Nat} (h : Writes t n) : WritesInt t n
  | plus {t : Text} {n : Nat} (h : Writes t n) : WritesInt ('+' :: t) n
  | minus {t : Text} {n : Nat} (h : Writes t n) : WritesInt ('-' :: t) (-n)

/-! ### Texts of digits -/

/-- The first character of a numeral is a digit, so no sign. -/
theorem Writes.head {t : Text} {n : Nat} (h : Writes t n) :
    ∃ c u, t = c :: u ∧ c.isDigit = true := by
  obtain ⟨c, u, rfl⟩ := List.exists_cons_of_ne_nil h.ne_nil
  exact ⟨c, u, rfl, h.digits c List.mem_cons_self⟩

theorem Writes.head?_ne {t : Text} {n : Nat} (h : Writes t n) {c : Char}
    (hc : c.isDigit = false) : t.head? ≠ some c := by
  obtain ⟨d, u, rfl, hd⟩ := h.head
  intro he
  rw [Option.some.inj he, hc] at hd
  cases hd

theorem isDigits_iff {t : Text} : isDigits t = true ↔ ∃ n, Writes t n := by
  unfold isDigits
  rw [Bool.and_eq_true, Bool.not_eq_true', List.isEmpty_eq_false_iff, List.all_eq_true]
  exact ⟨fun h => ⟨_, h.1, h.2, rfl⟩, fun ⟨_, h⟩ => ⟨h.ne_nil, h.digits⟩⟩

/-- The texts with a sign and the others are told apart by their first character. -/
theorem isInteger_iff {t : Text} : isInteger t = true ↔ ∃ v, WritesInt t v := by
  constructor
  · intro h
    unfold isInteger at h
    split at h
    · obtain ⟨n, hn⟩ := isDigits_iff.1 h
      exact ⟨_, .minus hn⟩
    · obtain ⟨n, hn⟩ := isDigits_iff.1 h
      exact ⟨_, .plus hn⟩
    · obtain ⟨n, hn⟩ := isDigits_iff.1 h
      exact ⟨_, .plain hn⟩
  · rintro ⟨v, h | h | h⟩
    · unfold isInteger
      split
      · exact absurd rfl (h.head?_ne rfl)
      · exact absurd rfl (h.head?_ne rfl)
      · exact isDigits_iff.2 ⟨_, h⟩
    · exact isDigits_iff.2 ⟨_, h⟩
    · exact isDigits_iff.2 ⟨_, h⟩

theorem isInteger_eq_false_iff {t : Text} : isInteger t = false ↔ ¬ ∃ v, WritesInt t v := by
  rw [← isInteger_iff, Bool.not_eq_true]

/-! ### Reading within bounds -/

/-- The number of the digits of `n` and those of a text behind them. -/
def extend (n : Nat) (t : Text) : Nat := t.foldl (fun n c => 10 * n + digitValue c) n

theorem extend_zero (t : Text) : extend 0 t = Nat.ofDigits 10 (t.map digitValue).reverse := by
  rw [Nat.ofDigits_eq_foldr, List.foldr_reverse, List.foldl_map, extend]
  congr 1
  funext n c
  rw [Nat.add_comm]
  rfl

theorem le_extend (n : Nat) (t : Text) : n ≤ extend n t := by
  induction t generalizing n with
  | nil => exact Nat.le_refl n
  | cons c t ih =>
    calc n ≤ 10 * n + digitValue c := by omega
      _ ≤ extend (10 * n + digitValue c) t := ih _

/-- A number with its sign. -/
def signed : Bool → Nat → Int
  | true, n => -n
  | false, n => n

namespace Bounds

variable {b : Bounds}

theorem check_eq_some_iff {n v : Int} :
    b.check n = some v ↔ n = v ∧ b.least ≤ n ∧ n ≤ b.greatest := by
  unfold check
  split
  · rename_i h
    exact ⟨fun he => ⟨Option.some.inj he, h⟩, fun he => congrArg some he.1⟩
  · rename_i h
    exact iff_of_false nofun fun he => h he.2

theorem check_eq_none_iff {n : Int} : b.check n = none ↔ ¬ (b.least ≤ n ∧ n ≤ b.greatest) := by
  unfold check
  split
  · rename_i h
    exact iff_of_false nofun fun hn => hn h
  · rename_i h
    exact iff_of_true rfl h

/-- What stands closer to zero is within the bounds, too. -/
theorem within_of_le {negative : Bool} {m n : Nat} (hzero : b.least ≤ 0 ∧ 0 ≤ b.greatest)
    (h : m ≤ n) (hn : b.least ≤ signed negative n ∧ signed negative n ≤ b.greatest) :
    b.least ≤ signed negative m ∧ signed negative m ≤ b.greatest := by
  cases negative with
  | true =>
    simp only [signed] at hn ⊢
    omega
  | false =>
    simp only [signed] at hn ⊢
    omega

/-- One digit more: the product that is checked on the way is no further from zero
than the sum, so only the sum decides. -/
theorem append?_signed (hzero : b.least ≤ 0 ∧ 0 ≤ b.greatest) (negative : Bool) (n : Nat)
    (c : Char) : b.append? negative (signed negative n) c =
      b.check (signed negative (10 * n + digitValue c)) := by
  have hproduct : signed negative n * 10 = signed negative (10 * n) := by
    cases negative with
    | true =>
      simp only [signed]
      omega
    | false =>
      simp only [signed]
      omega
  have hsum : (if negative then signed negative (10 * n) - digitValue c
      else signed negative (10 * n) + digitValue c) =
        signed negative (10 * n + digitValue c) := by
    cases negative with
    | true =>
      simp only [signed, if_true]
      omega
    | false => simp [signed]
  rw [append?, hproduct]
  cases hcheck : b.check (signed negative (10 * n)) with
  | some m =>
    obtain ⟨rfl, -⟩ := check_eq_some_iff.1 hcheck
    exact congrArg b.check hsum
  | none =>
    symm
    apply check_eq_none_iff.2
    intro hwithin
    exact check_eq_none_iff.1 hcheck (within_of_le hzero (Nat.le_add_right _ _) hwithin)

/-- **Checking after each digit is checking once, at the end.** -/
theorem foldlM_append? (hzero : b.least ≤ 0 ∧ 0 ≤ b.greatest) (negative : Bool) (t : Text)
    (n : Nat) (hn : b.least ≤ signed negative n ∧ signed negative n ≤ b.greatest) :
    t.foldlM (b.append? negative) (signed negative n) =
      b.check (signed negative (extend n t)) := by
  induction t generalizing n with
  | nil => exact (check_eq_some_iff.2 ⟨rfl, hn⟩).symm
  | cons c t ih =>
    rw [List.foldlM_cons, append?_signed hzero]
    cases hcheck : b.check (signed negative (10 * n + digitValue c)) with
    | some m =>
      obtain ⟨rfl, hwithin⟩ := check_eq_some_iff.1 hcheck
      exact ih _ hwithin
    | none =>
      symm
      apply check_eq_none_iff.2
      intro hwithin
      exact check_eq_none_iff.1 hcheck (within_of_le hzero (le_extend _ t) hwithin)

theorem digits?_eq_some_iff (hzero : b.least ≤ 0 ∧ 0 ≤ b.greatest) {negative : Bool} {t : Text}
    {v : Int} : b.digits? negative t = some v ↔
      (∃ n, Writes t n ∧ signed negative n = v) ∧ b.least ≤ v ∧ v ≤ b.greatest := by
  have hstart : signed negative 0 = 0 := by cases negative <;> rfl
  have hfold := foldlM_append? hzero negative t 0 (hstart ▸ hzero)
  rw [hstart, extend_zero] at hfold
  unfold digits?
  split
  · rename_i hdigits
    obtain ⟨n, hn⟩ := isDigits_iff.1 hdigits
    rw [hfold, check_eq_some_iff]
    constructor
    · rintro ⟨rfl, hwithin⟩
      exact ⟨⟨_, ⟨hn.ne_nil, hn.digits, rfl⟩, rfl⟩, hwithin⟩
    · rintro ⟨⟨m, hm, rfl⟩, hwithin⟩
      rw [hm.number]
      exact ⟨rfl, hwithin⟩
  · rename_i hdigits
    refine iff_of_false nofun ?_
    rintro ⟨⟨n, hn, -⟩, -⟩
    exact hdigits (isDigits_iff.2 ⟨n, hn⟩)

/-- **Integers within the bounds are read at their number, and no others are.** -/
theorem parse?_eq_some_iff (hzero : b.least ≤ 0 ∧ 0 ≤ b.greatest) {t : Text} {v : Int} :
    b.parse? t = some v ↔ WritesInt t v ∧ (b.least ≤ v ∧ v ≤ b.greatest) ∧
      (t.head? = some '-' → b.least < 0) := by
  constructor
  · intro h
    unfold parse? at h
    split at h
    · split_ifs at h with hleast
      obtain ⟨⟨n, hn, rfl⟩, hwithin⟩ := (digits?_eq_some_iff hzero).1 h
      exact ⟨.minus hn, hwithin, fun _ => hleast⟩
    · obtain ⟨⟨n, hn, rfl⟩, hwithin⟩ := (digits?_eq_some_iff hzero).1 h
      exact ⟨.plus hn, hwithin, nofun⟩
    · obtain ⟨⟨n, hn, rfl⟩, hwithin⟩ := (digits?_eq_some_iff hzero).1 h
      exact ⟨.plain hn, hwithin, fun he => absurd he (hn.head?_ne rfl)⟩
  · rintro ⟨h | h | h, hwithin, hminus⟩
    · unfold parse?
      split
      · exact absurd rfl (h.head?_ne rfl)
      · exact absurd rfl (h.head?_ne rfl)
      · exact (digits?_eq_some_iff hzero).2 ⟨⟨_, h, rfl⟩, hwithin⟩
    · exact (digits?_eq_some_iff hzero).2 ⟨⟨_, h, rfl⟩, hwithin⟩
    · rw [parse?, if_pos (hminus rfl)]
      exact (digits?_eq_some_iff hzero).2 ⟨⟨_, h, rfl⟩, hwithin⟩

end Bounds

/-- A text is no numeral of two integers: bounds wide enough for both read it once. -/
theorem WritesInt.unique {t : Text} {v w : Int} (hv : WritesInt t v) (hw : WritesInt t w) :
    v = w := by
  let b : Bounds := ⟨min (min v w) (-1), max (max v w) 0⟩
  have hzero : b.least ≤ 0 ∧ 0 ≤ b.greatest := by
    simp only [b]
    omega
  have hminus : b.least < 0 := by
    simp only [b]
    omega
  have hreads : ∀ x, WritesInt t x → b.least ≤ x ∧ x ≤ b.greatest → b.parse? t = some x :=
    fun x hx hwithin => (Bounds.parse?_eq_some_iff hzero).2 ⟨hx, hwithin, fun _ => hminus⟩
  have hreadsv := hreads v hv (by simp only [b]; omega)
  have hreadsw := hreads w hw (by simp only [b]; omega)
  exact Option.some.inj (hreadsv.symm.trans hreadsw)

namespace Bounds

variable {b : Bounds}

/-- With numbers below zero, an integer is read as far as it is within the bounds. -/
theorem parse?_of_writesInt (hleast : b.least < 0) (hgreatest : 0 ≤ b.greatest) {t : Text} {v : Int}
    (h : WritesInt t v) : b.parse? t = b.check v := by
  have hzero : b.least ≤ 0 ∧ 0 ≤ b.greatest := ⟨hleast.le, hgreatest⟩
  cases hcheck : b.check v with
  | some w =>
    obtain ⟨rfl, hwithin⟩ := check_eq_some_iff.1 hcheck
    exact (parse?_eq_some_iff hzero).2 ⟨h, hwithin, fun _ => hleast⟩
  | none =>
    apply Option.eq_none_iff_forall_ne_some.2
    intro w hparse
    obtain ⟨hw, hwithin, -⟩ := (parse?_eq_some_iff hzero).1 hparse
    exact check_eq_none_iff.1 hcheck (h.unique hw ▸ hwithin)

/-- Without numbers below zero, the numerals that are read are those of counts. -/
theorem parse?_eq_some_iff_writesCount (hleast : b.least = 0) (hgreatest : 0 ≤ b.greatest)
    {t : Text} {v : Int} :
    b.parse? t = some v ↔ ∃ n : Nat, v = n ∧ WritesCount t n ∧ n ≤ b.greatest := by
  rw [parse?_eq_some_iff ⟨hleast.le, hgreatest⟩]
  constructor
  · rintro ⟨h | h | h, ⟨-, hv⟩, hminus⟩
    · exact ⟨_, rfl, .plain h, hv⟩
    · exact ⟨_, rfl, .plus h, hv⟩
    · exact absurd (hminus rfl) (by omega)
  · rintro ⟨n, rfl, h | h, hn⟩
    · exact ⟨.plain h, ⟨by omega, hn⟩, fun he => absurd he (h.head?_ne rfl)⟩
    · exact ⟨.plus h, ⟨by omega, hn⟩, nofun⟩

end Bounds

/-! ### Writing -/

theorem writes_write (n : Nat) : Writes (write n) n := by
  refine ⟨Nat.toDigits_ne_nil, fun c hc => ?_, ?_⟩
  · exact Nat.isDigit_of_mem_toDigits (by decide) (by decide) hc
  · rw [← extend_zero]
    exact Nat.ofDigitChars_toDigits (by decide) (by decide)

/-! ### The ends of a numeral -/

theorem Writes.isWord {t : Text} {n : Nat} (h : Writes t n) : Text.IsWord t :=
  ⟨h.ne_nil, fun c hc => Text.isBlank_of_isAlphanum (by simp [Char.isAlphanum, h.digits c hc])⟩

/-- A sign in front of a word makes a word. -/
theorem isWord_cons {c : Char} {t : Text} (hc : Text.isBlank c = false) (h : Text.IsWord t) :
    Text.IsWord (c :: t) :=
  ⟨List.cons_ne_nil c t, List.forall_mem_cons.2 ⟨hc, h.2⟩⟩

theorem WritesCount.isWord {t : Text} {n : Nat} (h : WritesCount t n) : Text.IsWord t := by
  rcases h with h | h
  · exact h.isWord
  · exact isWord_cons (by decide) h.isWord

theorem WritesInt.isWord {t : Text} {v : Int} (h : WritesInt t v) : Text.IsWord t := by
  rcases h with h | h | h
  · exact h.isWord
  · exact isWord_cons (by decide) h.isWord
  · exact isWord_cons (by decide) h.isWord

end Decimal
end TenBit
