/-
# Writing and reading base-4 numerals are inverse

The letters of a numeral can be taken from either end: they are written from the
last one on and read from the first one on. So a text is read at a value exactly
if it is the numeral of that value in the width the text has, and every text that
is refused has no letter, too many letters or a first character that is none.
Numerals of one width stand in the order of their values, as texts.

Key definition: `Quaternary.IsLetter`.
Key theorems: `Quaternary.letters_succ`, `Quaternary.valueFrom_eq_ok_iff`,
`Quaternary.valueFrom_eq_error_iff`, `Quaternary.before_letters_iff`,
`Quaternary.codec_exact`.
-/
import Mathlib.Tactic.SplitIfs
import TenBit.Order.Strict
import TenBit.Proofs.Machine.Numerals

namespace TenBit
namespace Quaternary

/-- One of the letters a, b, c and d. -/
def IsLetter (c : Char) : Prop := 'a' ≤ c ∧ c ≤ 'd'

/-! ### Letters and digits -/

theorem digit?_eq_some_iff {c : Char} {d : Nat} : digit? c = some d ↔ d < 4 ∧ letter d = c := by
  constructor
  · intro h
    unfold digit? at h
    split at h
    · cases h; exact ⟨by decide, rfl⟩
    · cases h; exact ⟨by decide, rfl⟩
    · cases h; exact ⟨by decide, rfl⟩
    · cases h; exact ⟨by decide, rfl⟩
    · cases h
  · rintro ⟨hd, rfl⟩
    rw [digit?_letter, Nat.mod_eq_of_lt hd]

theorem isLetter_letter (d : Nat) : IsLetter (letter d) := by
  unfold letter IsLetter
  split <;> decide

theorem isLetter_of_digit? {c : Char} {d : Nat} (h : digit? c = some d) : IsLetter c :=
  (digit?_eq_some_iff.1 h).2 ▸ isLetter_letter d

theorem digit?_eq_none_iff {c : Char} : digit? c = none ↔ ¬ IsLetter c := by
  constructor
  · rintro h ⟨ha, hd⟩
    have hlow : 97 ≤ c.toNat := Char.le_def.1 ha
    have hhigh : c.toNat ≤ 100 := Char.le_def.1 hd
    have hcases : c.toNat = 97 ∨ c.toNat = 98 ∨ c.toNat = 99 ∨ c.toNat = 100 := by omega
    rcases hcases with hc | hc | hc | hc <;>
    · rw [← Char.ofNat_toNat c, hc] at h
      cases h
  · intro h
    cases hdigit : digit? c with
    | none => rfl
    | some d => exact absurd (isLetter_of_digit? hdigit) h

/-! ### Numerals from their first letter on -/

/-- The first letter is that of the highest digit. -/
theorem letters_succ : ∀ w v : Nat, letters (w + 1) v = letter (v / 4 ^ w) :: letters w v
  | 0, v => by simp [letters]
  | w + 1, v => by
    have hdigit : v / 4 / 4 ^ w = v / 4 ^ (w + 1) := by
      rw [Nat.div_div_eq_div_mul, Nat.pow_succ']
    rw [letters, letters_succ w (v / 4), hdigit, List.cons_append]
    rfl

/-- Only the `w` low digits count. -/
theorem letters_add_mul : ∀ w u v : Nat, letters w (u * 4 ^ w + v) = letters w v
  | 0, _, _ => rfl
  | w + 1, u, v => by
    have hhigh : u * 4 ^ (w + 1) = 4 * (u * 4 ^ w) := by
      rw [Nat.pow_succ', Nat.mul_left_comm]
    have hdiv : (u * 4 ^ (w + 1) + v) / 4 = u * 4 ^ w + v / 4 := by omega
    have hmod : (u * 4 ^ (w + 1) + v) % 4 = v % 4 := by omega
    rw [letters, letters, hdiv, letters_add_mul w, letter, letter, hmod]

theorem letters_mod (w v : Nat) : letters w (v % 4 ^ w) = letters w v := by
  have h := letters_add_mul w (v / 4 ^ w) (v % 4 ^ w)
  rw [Nat.div_add_mod'] at h
  exact h.symm

/-- **What is read is a numeral**: letters that follow digits worth `u` are the
numeral of the value they add. -/
theorem valueFrom_eq_ok_iff : ∀ {t : Text} {u v : Nat}, valueFrom u t = .ok v ↔
    ∃ x < 4 ^ t.length, t = letters t.length x ∧ v = u * 4 ^ t.length + x
  | [], u, v => by
    constructor
    · intro h
      cases h
      exact ⟨0, by decide, rfl, by simp⟩
    · rintro ⟨x, hx, -, rfl⟩
      have hzero : x = 0 := by simpa using hx
      simp [valueFrom, hzero]
  | c :: t, u, v => by
    have hlength : (c :: t).length = t.length + 1 := rfl
    have hpow : 4 ^ (t.length + 1) = 4 * 4 ^ t.length := Nat.pow_succ'
    constructor
    · intro h
      rw [valueFrom] at h
      split at h
      · rename_i d hd
        obtain ⟨hd, rfl⟩ := digit?_eq_some_iff.1 hd
        obtain ⟨x, hx, ht, rfl⟩ := valueFrom_eq_ok_iff.1 h
        have hle : d * 4 ^ t.length ≤ 3 * 4 ^ t.length := Nat.mul_le_mul_right _ (by omega)
        have hdiv : (d * 4 ^ t.length + x) / 4 ^ t.length = d := by
          rw [Nat.mul_comm, Nat.mul_add_div (Nat.pow_pos (by decide)), Nat.div_eq_of_lt hx,
            Nat.add_zero]
        refine ⟨d * 4 ^ t.length + x, by rw [hlength]; omega, ?_, ?_⟩
        · rw [hlength, letters_succ, hdiv, letters_add_mul, ← ht]
        · rw [hlength, hpow, Nat.add_mul, ← Nat.mul_assoc, Nat.mul_comm u 4, Nat.add_assoc]
      · cases h
    · rintro ⟨x, hx, ht, rfl⟩
      rw [hlength] at hx ht
      have hread := valueFrom_letters u [] hx
      rw [List.append_nil, ← ht] at hread
      rw [hread, valueFrom, hlength]

/-- **What is refused has a first character that is no letter.** -/
theorem valueFrom_eq_error_iff : ∀ {t : Text} {u : Nat} {e : Malformed}, valueFrom u t = .error e ↔
    ∃ front c rest, t = front ++ c :: rest ∧ (∀ a ∈ front, IsLetter a) ∧ ¬ IsLetter c ∧
      e = .badLetter c
  | [], u, e => by
    constructor
    · intro h
      cases h
    · rintro ⟨front, c, rest, ht, -⟩
      exact absurd ht.symm (List.append_ne_nil_of_right_ne_nil _ (List.cons_ne_nil c rest))
  | a :: t, u, e => by
    cases hdigit : digit? a with
    | none =>
      have ha := digit?_eq_none_iff.1 hdigit
      rw [valueFrom, hdigit]
      constructor
      · intro h
        cases h
        exact ⟨[], a, t, rfl, List.forall_mem_nil _, ha, rfl⟩
      · rintro ⟨front, c, rest, ht, hfront, -, rfl⟩
        cases front with
        | nil =>
          cases ht
          rfl
        | cons b front =>
          cases ht
          exact absurd (hfront a List.mem_cons_self) ha
    | some d =>
      have ha := isLetter_of_digit? hdigit
      rw [valueFrom, hdigit]
      simp only
      rw [valueFrom_eq_error_iff]
      constructor
      · rintro ⟨front, c, rest, rfl, hfront, hc, rfl⟩
        exact ⟨a :: front, c, rest, rfl, List.forall_mem_cons.2 ⟨ha, hfront⟩, hc, rfl⟩
      · rintro ⟨front, c, rest, ht, hfront, hc, rfl⟩
        cases front with
        | nil =>
          cases ht
          exact absurd ha hc
        | cons b front =>
          cases ht
          exact ⟨front, c, rest, rfl, (List.forall_mem_cons.1 hfront).2, hc, rfl⟩

/-! ### Encoding and decoding -/

theorem encode?_eq_some_iff {w v : Nat} {t : Text} :
    encode? w v = some t ↔ v < 4 ^ w ∧ t = letters w v := by
  unfold encode?
  by_cases h : v < 4 ^ w
  · rw [if_pos (fits_iff.2 h), Option.some.injEq]
    exact ⟨fun ht => ⟨h, ht.symm⟩, fun ht => ht.2.symm⟩
  · rw [if_neg (mt fits_iff.1 h)]
    exact iff_of_false nofun fun ht => h ht.1

theorem isLetter_of_mem_letters {c : Char} {w v : Nat} (h : c ∈ letters w v) : IsLetter c := by
  cases hdigit : digit? c with
  | none => exact absurd h (not_mem_letters hdigit w v)
  | some d => exact isLetter_of_digit? hdigit

/-- A text is read at a value if it is the numeral of the value in its own width. -/
theorem decode_eq_ok_iff {t : Text} {v : Nat} :
    decode t = .ok v ↔ 1 ≤ t.length ∧ t.length ≤ 16 ∧ encode? t.length v = some t := by
  rw [encode?_eq_some_iff]
  constructor
  · intro h
    unfold decode at h
    split_ifs at h with hempty hlong
    obtain ⟨x, hx, ht, rfl⟩ := valueFrom_eq_ok_iff.1 h
    rw [Nat.zero_mul, Nat.zero_add]
    refine ⟨List.length_pos_iff.2 (by simpa using hempty), ?_, hx, ht⟩
    exact Nat.le_of_not_lt hlong
  · rintro ⟨hpos, hmax, hv, ht⟩
    rw [ht]
    exact decode_letters hpos hmax hv

theorem decode_eq_error_iff {t : Text} {e : Malformed} : decode t = .error e ↔
    (t = [] ∧ e = .empty) ∨ (16 < t.length ∧ e = .tooLong t.length) ∨
      (t.length ≤ 16 ∧ ∃ front c rest, t = front ++ c :: rest ∧ (∀ a ∈ front, IsLetter a) ∧
        ¬ IsLetter c ∧ e = .badLetter c) := by
  have hmax : maxLength = 16 := rfl
  unfold decode
  split_ifs with hempty hlong
  · have ht : t = [] := by simpa using hempty
    subst ht
    simp [eq_comm]
  · have hne : t ≠ [] := by simpa using hempty
    rw [Except.error.injEq]
    constructor
    · exact fun h => .inr (.inl ⟨hlong, h.symm⟩)
    · rintro (⟨h, -⟩ | ⟨-, h⟩ | ⟨h, -⟩)
      · exact absurd h hne
      · exact h.symm
      · omega
  · have hne : t ≠ [] := by simpa using hempty
    rw [valueFrom_eq_error_iff]
    constructor
    · exact fun h => .inr (.inr ⟨by omega, h⟩)
    · rintro (⟨h, -⟩ | ⟨h, -⟩ | ⟨-, h⟩)
      · exact absurd h hne
      · omega
      · exact h

/-! ### Order -/

theorem charBefore_letter_iff : ∀ a < 4, ∀ b < 4,
    (Text.charBefore (letter a) (letter b) = true ↔ a < b) := by
  decide

theorem letter_inj {a b : Nat} (ha : a < 4) (hb : b < 4) (h : letter a = letter b) : a = b := by
  have hdigit := congrArg digit? h
  rw [digit?_letter, digit?_letter, Nat.mod_eq_of_lt ha, Nat.mod_eq_of_lt hb] at hdigit
  exact Option.some.inj hdigit

/-- **Numerals of one width stand in the order of their values.** -/
theorem before_letters_iff : ∀ {w v v' : Nat}, v < 4 ^ w → v' < 4 ^ w →
    (Text.before (letters w v) (letters w v') = true ↔ v < v')
  | 0, v, v', h, h' => by
    have hv : v = 0 := by simpa using h
    have hv' : v' = 0 := by simpa using h'
    simp [hv, hv', letters, Text.before, Order.lex]
  | w + 1, v, v', h, h' => by
    have hpos : 0 < 4 ^ w := Nat.pow_pos (by decide)
    have hpow : 4 ^ (w + 1) = 4 ^ w * 4 := by rw [Nat.pow_succ]
    have hhigh : v / 4 ^ w < 4 := Nat.div_lt_of_lt_mul (hpow ▸ h)
    have hhigh' : v' / 4 ^ w < 4 := Nat.div_lt_of_lt_mul (hpow ▸ h')
    have hdiv := Nat.div_add_mod v (4 ^ w)
    have hdiv' := Nat.div_add_mod v' (4 ^ w)
    have hlow := Nat.mod_lt v hpos
    have hlow' := Nat.mod_lt v' hpos
    rw [letters_succ, letters_succ, Text.before, Order.lex]
    by_cases heq : v / 4 ^ w = v' / 4 ^ w
    · -- the highest digits agree, so the rest decides
      have ih := before_letters_iff hlow hlow'
      rw [letters_mod, letters_mod, Text.before] at ih
      rw [if_pos (congrArg letter heq), ih]
      rw [heq] at hdiv
      omega
    · rw [if_neg (mt (letter_inj hhigh hhigh') heq), charBefore_letter_iff _ hhigh _ hhigh']
      rcases Nat.lt_or_gt_of_ne heq with hlt | hgt
      · have hmul := Nat.mul_le_mul_left (4 ^ w) hlt
        rw [Nat.mul_succ] at hmul
        omega
      · have hmul := Nat.mul_le_mul_left (4 ^ w) hgt
        rw [Nat.mul_succ] at hmul
        omega

/-- **Base-4 letters are an exact code.** A value has a numeral of width `w` if and
only if it is below `4 ^ w`, and the numeral has `w` letters and is read back. What is
read is the numeral of its value, which has 32 bits; and what is not read is empty,
too long whatever its characters are, or has a first character that is no letter.
Numerals of one width stand in the order of their values. -/
theorem codec_exact (w v : Nat) (t : Text) :
    ((∃ u, encode? w v = some u) ↔ v < 4 ^ w) ∧
    (∀ u, encode? w v = some u → u.length = w ∧ (∀ c ∈ u, IsLetter c) ∧
      (1 ≤ w → w ≤ 16 → decode u = .ok v)) ∧
    (∀ x, decode t = .ok x → 1 ≤ t.length ∧ t.length ≤ 16 ∧ (∀ c ∈ t, IsLetter c) ∧
      encode? t.length x = some t ∧ x < 2 ^ 32) ∧
    (∀ e, decode t = .error e ↔
      (t = [] ∧ e = .empty) ∨ (16 < t.length ∧ e = .tooLong t.length) ∨
        (t.length ≤ 16 ∧ ∃ front c rest, t = front ++ c :: rest ∧ (∀ a ∈ front, IsLetter a) ∧
          ¬ IsLetter c ∧ e = .badLetter c)) ∧
    ∀ v' u u', encode? w v = some u → encode? w v' = some u' →
      (v < v' ↔ Text.before u u' = true) := by
  refine ⟨?_, ?_, ?_, fun e => decode_eq_error_iff, ?_⟩
  · constructor
    · rintro ⟨u, hu⟩
      exact (encode?_eq_some_iff.1 hu).1
    · exact fun h => ⟨_, encode?_eq_some_iff.2 ⟨h, rfl⟩⟩
  · intro u hu
    obtain ⟨hv, rfl⟩ := encode?_eq_some_iff.1 hu
    exact ⟨length_letters w v, fun c hc => isLetter_of_mem_letters hc,
      fun hpos hmax => decode_letters hpos hmax hv⟩
  · intro x hx
    obtain ⟨hpos, hmax, hencode⟩ := decode_eq_ok_iff.1 hx
    obtain ⟨hlt, ht⟩ := encode?_eq_some_iff.1 hencode
    have hbits : 4 ^ t.length ≤ 4 ^ 16 := Nat.pow_le_pow_right (by decide) hmax
    refine ⟨hpos, hmax, fun c hc => ?_, hencode, by omega⟩
    rw [ht] at hc
    exact isLetter_of_mem_letters hc
  · intro v' u u' hu hu'
    obtain ⟨hv, rfl⟩ := encode?_eq_some_iff.1 hu
    obtain ⟨hv', rfl⟩ := encode?_eq_some_iff.1 hu'
    exact (before_letters_iff hv hv').symm

example : encode? 5 12 = some "aaada".toList := rfl

end Quaternary
end TenBit
