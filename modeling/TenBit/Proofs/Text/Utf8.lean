/-
# Text survives being encoded

What was encoded is decoded to the same text. The bytes of a character beyond
ASCII are a leading byte and groups of six bits; while they are read, the decoder
holds the upper part of the character's value, and the range it asks of the next
byte is one that the value lies in.

Bytes below 0x80 stand for themselves, in both directions: a line feed is decoded
from, and encoded as, the byte 0x0A only. For decoding, this is because a longer
form is accepted only for values from 0x80 on. Such a byte also ends whatever was
begun before it, so a text can be cut there before or after it is decoded.

Key definitions: `Utf8.tail`, `Utf8.Pending.Awaits`, `Utf8.Leads`, `Utf8.Starts`,
`Utf8.Pending.Wide`, `Utf8.Sound`.
Key theorems: `Utf8.starts`, `Utf8.decode_encode`, `Utf8.newline_mem_of_encode`,
`Utf8.sound_step`, `Utf8.newline_mem_of_decode`, `Utf8.decodeFrom_append_ascii`.
-/
import Mathlib.Algebra.Group.Nat.Defs
import Mathlib.Tactic.SplitIfs
import TenBit.Text.Utf8

namespace TenBit
namespace Utf8

theorem size_append (s t : Text) : size (s ++ t) = size s + size t := by
  simp [size, encode]

/-! ### Characters beyond ASCII -/

/-- The `n` lowest groups of six bits of a value, as continuation bytes. -/
def tail : (n v : Nat) → List UInt8
  | 0, _ => []
  | n + 1, v => UInt8.ofNat (v / 64 ^ n % 64 + 128) :: tail n v

/-- The decoder is in the middle of the character of value `v`. -/
structure Pending.Awaits (p : Pending) (v : Nat) : Prop where
  bits : p.bits = v / 64 ^ (p.more + 1)
  least : p.least.toNat ≤ v / 64 ^ p.more % 64 + 128
  greatest : v / 64 ^ p.more % 64 + 128 ≤ p.greatest.toNat

theorem toNat_continuation (m : Nat) : (UInt8.ofNat (m % 64 + 128)).toNat = m % 64 + 128 := by
  rw [UInt8.toNat_ofNat']
  omega

/-- The next group of six bits goes behind those read so far. -/
theorem bits_step (v n : Nat) :
    v / 64 ^ (n + 1) * 0x40 + (v / 64 ^ n % 64 + 128) % 0x40 = v / 64 ^ n := by
  rw [Nat.pow_succ, ← Nat.div_div_eq_div_mul]
  omega

/-- A continuation byte in the range. -/
theorem step_of_range {p : Pending} {b : UInt8} {bits : Nat} (hrange : p.least ≤ b ∧ b ≤ p.greatest)
    (hbits : p.bits * 0x40 + b.toNat % 0x40 = bits) :
    step (some p) b =
      match p.more with
      | 0 => ([Char.ofNat bits], none)
      | n + 1 => ([], some ⟨bits, n, 0x80, 0xBF⟩) := by
  subst hbits
  exact if_pos hrange

/-- A byte that was awaited. -/
theorem step_of_awaits {p : Pending} {v : Nat} (h : p.Awaits v) :
    step (some p) (UInt8.ofNat (v / 64 ^ p.more % 64 + 128)) =
      match p.more with
      | 0 => ([Char.ofNat (v / 64 ^ p.more)], none)
      | n + 1 => ([], some ⟨v / 64 ^ p.more, n, 0x80, 0xBF⟩) := by
  have hbyte := toNat_continuation (v / 64 ^ p.more)
  have hrange : p.least ≤ UInt8.ofNat (v / 64 ^ p.more % 64 + 128) ∧
      UInt8.ofNat (v / 64 ^ p.more % 64 + 128) ≤ p.greatest := by
    rw [UInt8.le_iff_toNat_le, UInt8.le_iff_toNat_le, hbyte]
    exact ⟨h.least, h.greatest⟩
  have hbits : p.bits * 0x40 + (UInt8.ofNat (v / 64 ^ p.more % 64 + 128)).toNat % 0x40 =
      v / 64 ^ p.more := by
    rw [hbyte, h.bits, bits_step]
  exact step_of_range hrange hbits

/-- **The continuation bytes complete the character.** -/
theorem decodeFrom_tail (v : Nat) (bs : List UInt8) : ∀ {n : Nat} {p : Pending}, p.more = n →
    p.Awaits v → decodeFrom (some p) (tail (n + 1) v ++ bs) = Char.ofNat v :: decodeFrom none bs
  | 0, p, hp, h => by
    have hstep := step_of_awaits h
    rw [hp] at hstep
    rw [tail, tail, List.cons_append, List.nil_append, decodeFrom, hstep, Nat.pow_zero, Nat.div_one]
    rfl
  | n + 1, p, hp, h => by
    have hstep := step_of_awaits h
    rw [hp] at hstep
    have hnext : Pending.Awaits ⟨v / 64 ^ (n + 1), n, 0x80, 0xBF⟩ v := by
      refine ⟨rfl, ?_, ?_⟩
      · show 128 ≤ _
        omega
      · show _ ≤ 191
        omega
    rw [tail, List.cons_append, decodeFrom, hstep]
    exact decodeFrom_tail v bs rfl hnext

/-! ### Leading bytes -/

theorem start_two : ∀ d < 32, 2 ≤ d →
    start (UInt8.ofNat (d + 192)) = ([], some ⟨d, 0, 0x80, 0xBF⟩) := by
  decide

theorem start_three : ∀ d < 16, start (UInt8.ofNat (d + 224)) =
    ([], some ⟨d, 1, if d = 0 then 0xA0 else 0x80, if d = 13 then 0x9F else 0xBF⟩) := by
  decide

theorem start_four : ∀ d < 5, start (UInt8.ofNat (d + 240)) =
    ([], some ⟨d, 2, if d = 0 then 0x90 else 0x80, if d = 4 then 0x8F else 0xBF⟩) := by
  decide

/-- The byte leads a character of two, three or four bytes, and `p` is what it asks of
the others: no shorter form would do, and the value is a character's. -/
structure Leads (b : UInt8) (p : Pending) : Prop where
  least : 0x80 ≤ p.least.toNat
  range : p.least.toNat ≤ p.greatest.toNat
  greatest : p.greatest.toNat ≤ 0xBF
  form : (p.more = 0 ∧ b.toNat = p.bits + 192 ∧ 2 ≤ p.bits ∧ p.bits < 32) ∨
    (p.more = 1 ∧ b.toNat = p.bits + 224 ∧ p.bits < 16 ∧ (p.bits = 0 → 0xA0 ≤ p.least.toNat) ∧
      (p.bits = 13 → p.greatest.toNat ≤ 0x9F)) ∨
    (p.more = 2 ∧ b.toNat = p.bits + 240 ∧ p.bits < 5 ∧ (p.bits = 0 → 0x90 ≤ p.least.toNat) ∧
      (p.bits = 4 → p.greatest.toNat ≤ 0x8F))

/-- What a byte between two characters can come to. -/
inductive Starts (b : UInt8) : Text × Option Pending → Prop
  | ascii (h : b.toNat < 0x80) : Starts b ([Char.ofNat b.toNat], none)
  | malformed : Starts b ([replacement], none)
  | leads {p : Pending} (h : Leads b p) : Starts b ([], some p)

theorem starts (b : UInt8) : Starts b (start b) := by
  unfold start
  simp only [UInt8.lt_iff_toNat_lt, ← UInt8.toNat_inj, UInt8.reduceToNat]
  by_cases h80 : b.toNat < 0x80
  · rw [if_pos h80]
    exact .ascii h80
  rw [if_neg h80]
  by_cases hC2 : b.toNat < 0xC2
  · rw [if_pos hC2]
    exact .malformed
  rw [if_neg hC2]
  by_cases hE0 : b.toNat < 0xE0
  · rw [if_pos hE0]
    refine .leads ⟨by simp, by simp, by simp, .inl ?_⟩
    simp only [true_and]
    omega
  rw [if_neg hE0]
  by_cases hisE0 : b.toNat = 0xE0
  · rw [if_pos hisE0]
    exact .leads ⟨by simp, by simp, by simp, .inr (.inl ⟨rfl, hisE0, by decide, by simp, nofun⟩)⟩
  rw [if_neg hisE0]
  by_cases hisED : b.toNat = 0xED
  · rw [if_pos hisED]
    exact .leads ⟨by simp, by simp, by simp, .inr (.inl ⟨rfl, hisED, by decide, nofun, by simp⟩)⟩
  rw [if_neg hisED]
  by_cases hF0 : b.toNat < 0xF0
  · rw [if_pos hF0]
    refine .leads ⟨by simp, by simp, by simp, .inr (.inl ?_)⟩
    simp only [true_and]
    omega
  rw [if_neg hF0]
  by_cases hisF0 : b.toNat = 0xF0
  · rw [if_pos hisF0]
    exact .leads ⟨by simp, by simp, by simp, .inr (.inr ⟨rfl, hisF0, by decide, by simp, nofun⟩)⟩
  rw [if_neg hisF0]
  by_cases hF4 : b.toNat < 0xF4
  · rw [if_pos hF4]
    refine .leads ⟨by simp, by simp, by simp, .inr (.inr ?_)⟩
    simp only [true_and]
    omega
  rw [if_neg hF4]
  by_cases hisF4 : b.toNat = 0xF4
  · rw [if_pos hisF4]
    exact .leads ⟨by simp, by simp, by simp, .inr (.inr ⟨rfl, hisF4, by decide, nofun, by simp⟩)⟩
  · rw [if_neg hisF4]
    exact .malformed

theorem toNat_lt (c : Char) : c.toNat < 0xD800 ∨ 0xDFFF < c.toNat ∧ c.toNat < 0x110000 := by
  simpa [UInt32.isValidChar, Nat.isValidChar] using c.valid

/-- **A character beyond ASCII** is encoded as a leading byte, from which the decoder
awaits its value, and its continuation bytes. -/
theorem encodeChar_of_le {c : Char} (h : 0x80 ≤ c.toNat) :
    ∃ b p, String.utf8EncodeChar c = b :: tail (p.more + 1) c.toNat ∧ start b = ([], some p) ∧
      p.Awaits c.toNat := by
  have hvalid := toNat_lt c
  have hval : c.val.toNat = c.toNat := rfl
  simp only [String.utf8EncodeChar, hval]
  generalize c.toNat = v at *
  rw [if_neg (by omega)]
  split_ifs with h2 h3
  · refine ⟨_, ⟨v / 64 % 32, 0, 0x80, 0xBF⟩, by simp [tail], start_two _ (by omega) (by omega), ?_⟩
    constructor
    case bits => show v / 64 % 32 = v / 64 ^ 1; omega
    case least => show 128 ≤ _; omega
    case greatest => show _ ≤ 191; omega
  · refine ⟨_, _, by simp [tail], start_three (v / 4096 % 16) (by omega), ?_⟩
    constructor
    case bits => show v / 4096 % 16 = v / 64 ^ 2; omega
    -- a value below 0x1000 has bits above the lowest eleven, or it would be shorter
    case least =>
      show (if v / 4096 % 16 = 0 then 0xA0 else 0x80 : UInt8).toNat ≤ v / 64 ^ 1 % 64 + 128
      split
      · show 160 ≤ _; omega
      · show 128 ≤ _; omega
    -- there are no characters from 0xD800 to 0xDFFF
    case greatest =>
      show v / 64 ^ 1 % 64 + 128 ≤ (if v / 4096 % 16 = 13 then 0x9F else 0xBF : UInt8).toNat
      split
      · show _ ≤ 159; omega
      · show _ ≤ 191; omega
  · refine ⟨_, _, by simp [tail], start_four (v / 262144 % 8) (by omega), ?_⟩
    constructor
    case bits => show v / 262144 % 8 = v / 64 ^ 3; omega
    case least =>
      show (if v / 262144 % 8 = 0 then 0x90 else 0x80 : UInt8).toNat ≤ v / 64 ^ 2 % 64 + 128
      split
      · show 144 ≤ _; omega
      · show 128 ≤ _; omega
    case greatest =>
      show v / 64 ^ 2 % 64 + 128 ≤ (if v / 262144 % 8 = 4 then 0x8F else 0xBF : UInt8).toNat
      split
      · show _ ≤ 143; omega
      · show _ ≤ 191; omega

/-! ### Round trip -/

theorem encodeChar_of_lt {c : Char} (h : c.toNat < 0x80) :
    String.utf8EncodeChar c = [UInt8.ofNat c.toNat] := by
  have hval : c.val.toNat = c.toNat := rfl
  rw [String.utf8EncodeChar, hval]
  exact if_pos (by omega)

theorem encodeChar_ne_nil (c : Char) : String.utf8EncodeChar c ≠ [] := by
  rcases Nat.lt_or_ge c.toNat 0x80 with h | h
  · rw [encodeChar_of_lt h]
    exact List.cons_ne_nil _ _
  · obtain ⟨b, p, hbytes, -⟩ := encodeChar_of_le h
    rw [hbytes]
    exact List.cons_ne_nil _ _

theorem start_of_lt {b : UInt8} (h : b.toNat < 0x80) : start b = ([Char.ofNat b.toNat], none) :=
  if_pos (UInt8.lt_iff_toNat_lt.2 h)

theorem decodeFrom_encodeChar (c : Char) (bs : List UInt8) :
    decodeFrom none (String.utf8EncodeChar c ++ bs) = c :: decodeFrom none bs := by
  rcases Nat.lt_or_ge c.toNat 0x80 with h | h
  · have hbyte : (UInt8.ofNat c.toNat).toNat = c.toNat := by
      rw [UInt8.toNat_ofNat']
      omega
    have hstart := start_of_lt (b := UInt8.ofNat c.toNat) (by omega)
    rw [hbyte, Char.ofNat_toNat] at hstart
    rw [encodeChar_of_lt h, List.singleton_append, decodeFrom, step, hstart]
    rfl
  · obtain ⟨b, p, hbytes, hstart, hawaits⟩ := encodeChar_of_le h
    have htail := decodeFrom_tail c.toNat bs rfl hawaits
    rw [Char.ofNat_toNat] at htail
    rw [hbytes, List.cons_append, decodeFrom, step, hstart]
    exact htail

/-- **Encoded text is decoded to itself.** -/
theorem decode_encode : ∀ t : Text, decode (encode t) = t
  | [] => rfl
  | c :: t => by
    have ih := decode_encode t
    rw [decode, encode] at ih
    rw [decode, encode, List.flatMap_cons, decodeFrom_encodeChar, ih]

/-! ### ASCII -/

theorem le_of_mem_tail {b : UInt8} : ∀ {n v : Nat}, b ∈ tail n v → 0x80 ≤ b.toNat
  | n + 1, v, h => by
    rcases List.mem_cons.1 h with rfl | h
    · rw [toNat_continuation]
      omega
    · exact le_of_mem_tail h

/-- A byte below 0x80 stands for itself. -/
theorem toNat_of_mem_encodeChar {c : Char} {b : UInt8} (h : b ∈ String.utf8EncodeChar c)
    (hb : b.toNat < 0x80) : c.toNat = b.toNat := by
  rcases Nat.lt_or_ge c.toNat 0x80 with hc | hc
  · rw [encodeChar_of_lt hc, List.mem_singleton] at h
    rw [h, UInt8.toNat_ofNat']
    omega
  · obtain ⟨lead, p, hbytes, hstart, -⟩ := encodeChar_of_le hc
    rw [hbytes] at h
    rcases List.mem_cons.1 h with rfl | h
    · rw [start_of_lt hb] at hstart
      cases hstart
    · have := le_of_mem_tail h
      omega

/-- A pending character will have a value from 0x80 on. -/
structure Pending.Wide (p : Pending) : Prop where
  least : 0x80 ≤ p.least.toNat
  greatest : p.greatest.toNat ≤ 0xBF
  wide : 0x80 ≤ (p.bits * 64 + (p.least.toNat - 0x80)) * 64 ^ p.more

/-- After the second byte any continuation byte will do. -/
theorem Pending.wide_of_bits {bits more : Nat} (h : 0x80 ≤ bits * 64 ^ (more + 1)) :
    Wide ⟨bits, more, 0x80, 0xBF⟩ := by
  have hzero : (0x80 : UInt8).toNat - 0x80 = 0 := by decide
  refine ⟨by simp, by simp, ?_⟩
  simp only [hzero]
  rw [Nat.add_zero, Nat.mul_assoc, ← Nat.pow_succ']
  exact h

theorem Leads.wide {b : UInt8} {p : Pending} (h : Leads b p) : p.Wide := by
  refine ⟨h.least, h.greatest, ?_⟩
  rcases h.form with ⟨hmore, -, hlow, -⟩ | ⟨hmore, -, -, hlow, -⟩ | ⟨hmore, -, -, hlow, -⟩ <;>
  · rw [hmore]
    omega

/-- An ASCII character. NUL is left out, since a number that is no character's gives
it too. -/
def IsPlain (c : Char) : Prop := 0 < c.toNat ∧ c.toNat < 0x80

instance (c : Char) : Decidable (IsPlain c) := inferInstanceAs (Decidable (_ ∧ _))

theorem toNat_ofNat_of_isValidChar {n : Nat} (h : n.isValidChar) : (Char.ofNat n).toNat = n := by
  rw [Char.ofNat, dif_pos h]
  rfl

theorem toNat_ofNat_of_pos {n : Nat} (h : 0 < (Char.ofNat n).toNat) : (Char.ofNat n).toNat = n := by
  by_cases hvalid : n.isValidChar
  · exact toNat_ofNat_of_isValidChar hvalid
  · rw [Char.ofNat, dif_neg hvalid] at h
    cases h

theorem not_isPlain_replacement : ¬ IsPlain replacement := by decide

/-- What a byte comes to: an ASCII character is that of the byte, a character that is
begun lies beyond ASCII, and something is yielded or begun. -/
structure Sound (b : UInt8) (r : Text × Option Pending) : Prop where
  plain : ∀ c ∈ r.1, IsPlain c → c.toNat = b.toNat
  wide : ∀ p, r.2 = some p → p.Wide
  ne_nil : r ≠ ([], none)

theorem sound_malformed (b : UInt8) : Sound b ([replacement], none) := by
  refine ⟨fun c hc h => ?_, nofun, nofun⟩
  rw [List.mem_singleton] at hc
  exact absurd (hc ▸ h) not_isPlain_replacement

theorem sound_begun (b : UInt8) {p : Pending} (h : p.Wide) : Sound b ([], some p) :=
  ⟨nofun, fun _ hq => Option.some.inj hq ▸ h, nofun⟩

theorem sound_ascii {b : UInt8} : Sound b ([Char.ofNat b.toNat], none) := by
  refine ⟨fun c hc h => ?_, nofun, nofun⟩
  rw [List.mem_singleton] at hc
  rw [hc] at h ⊢
  exact toNat_ofNat_of_pos h.1

/-- A byte between two characters. -/
theorem sound_start (b : UInt8) : Sound b (start b) := by
  have h := starts b
  generalize start b = r at h
  cases h with
  | ascii _ => exact sound_ascii
  | malformed => exact sound_malformed b
  | leads h => exact sound_begun b h.wide

/-- **One byte**, in the middle of a character or not. -/
theorem sound_step {s : Option Pending} (hs : ∀ p, s = some p → p.Wide) (b : UInt8) :
    Sound b (step s b) := by
  cases s with
  | none => exact sound_start b
  | some p =>
    obtain ⟨hleast, hgreatest, hwide⟩ := hs p rfl
    unfold step
    simp only
    split
    · rename_i hrange
      rw [UInt8.le_iff_toNat_le, UInt8.le_iff_toNat_le] at hrange
      have hbits : p.bits * 64 + (p.least.toNat - 0x80) ≤ p.bits * 0x40 + b.toNat % 0x40 := by
        omega
      have hmul := Nat.mul_le_mul_right (64 ^ p.more) hbits
      split
      · rename_i hmore
        rw [hmore, Nat.pow_zero, Nat.mul_one, Nat.mul_one] at hmul
        rw [hmore, Nat.pow_zero, Nat.mul_one] at hwide
        refine ⟨fun c hc h => ?_, nofun, nofun⟩
        rw [List.mem_singleton] at hc
        subst hc
        have hnumber := toNat_ofNat_of_pos h.1
        have hlt := h.2
        omega
      · rename_i n hmore
        refine ⟨nofun, fun q hq => ?_, nofun⟩
        cases hq
        rw [hmore] at hwide hmul
        exact Pending.wide_of_bits (Nat.le_trans hwide hmul)
    · have hstart := sound_start b
      refine ⟨fun c hc h => ?_, hstart.wide, nofun⟩
      rcases List.mem_cons.1 hc with rfl | hc
      · exact absurd h not_isPlain_replacement
      · exact hstart.plain c hc h

theorem mem_of_decodeFrom {c : Char} (hplain : IsPlain c) : ∀ {bs : List UInt8} {s : Option Pending},
    (∀ p, s = some p → p.Wide) → c ∈ decodeFrom s bs → ∃ b ∈ bs, c.toNat = b.toNat
  | [], none, _, h => by cases h
  | [], some _, _, h => by
    rw [decodeFrom, List.mem_singleton] at h
    exact absurd (h ▸ hplain) not_isPlain_replacement
  | b :: bs, s, hs, h => by
    have hstep := sound_step hs b
    rw [decodeFrom] at h
    rcases List.mem_append.1 h with h | h
    · exact ⟨b, List.mem_cons_self, hstep.plain c h hplain⟩
    · obtain ⟨b', hb', hnat⟩ := mem_of_decodeFrom hplain hstep.wide h
      exact ⟨b', List.mem_cons_of_mem _ hb', hnat⟩

theorem eq_nil_of_decodeFrom : ∀ {bs : List UInt8} {s : Option Pending},
    (∀ p, s = some p → p.Wide) → decodeFrom s bs = [] → s = none ∧ bs = []
  | [], none, _, _ => ⟨rfl, rfl⟩
  | b :: bs, s, hs, h => by
    have hstep := sound_step hs b
    rw [decodeFrom] at h
    obtain ⟨hnow, hlater⟩ := List.append_eq_nil_iff.1 h
    obtain ⟨hnone, -⟩ := eq_nil_of_decodeFrom hstep.wide hlater
    exact absurd (Prod.ext hnow hnone) hstep.ne_nil

/-- The last character, if it is ASCII, is that of the last byte. -/
theorem getLast?_of_decodeFrom {c : Char} (hplain : IsPlain c) :
    ∀ {bs : List UInt8} {s : Option Pending}, (∀ p, s = some p → p.Wide) →
      (decodeFrom s bs).getLast? = some c → ∃ b, bs.getLast? = some b ∧ c.toNat = b.toNat
  | [], none, _, h => by cases h
  | [], some _, _, h => by
    cases h
    exact absurd hplain not_isPlain_replacement
  | b :: bs, s, hs, h => by
    have hstep := sound_step hs b
    rw [decodeFrom, List.getLast?_append] at h
    cases hlast : (decodeFrom (step s b).2 bs).getLast? with
    | some c' =>
      rw [hlast] at h
      cases h
      obtain ⟨b', hb', hnat⟩ := getLast?_of_decodeFrom hplain hstep.wide hlast
      refine ⟨b', ?_, hnat⟩
      rw [List.getLast?_cons, hb']
      rfl
    | none =>
      rw [hlast] at h
      obtain ⟨-, rfl⟩ := eq_nil_of_decodeFrom hstep.wide (List.getLast?_eq_none_iff.1 hlast)
      exact ⟨b, rfl, hstep.plain c (List.mem_of_getLast? h) hplain⟩

/-- An ASCII byte ends what is pending, as the end of the bytes does. -/
theorem step_ascii {s : Option Pending} (hs : ∀ p, s = some p → p.Wide) {b : UInt8}
    (hb : b.toNat < 0x80) : step s b = (decodeFrom s [] ++ [Char.ofNat b.toNat], none) := by
  cases s with
  | none => exact start_of_lt hb
  | some p =>
    have hleast := (hs p rfl).least
    have hrange : ¬ (p.least ≤ b ∧ b ≤ p.greatest) := by
      rw [UInt8.le_iff_toNat_le]
      omega
    simp only [step, if_neg hrange, start_of_lt hb]
    rfl

/-- **An ASCII byte starts afresh**: what stands before it and what stands behind it
are decoded apart. -/
theorem decodeFrom_append_ascii {b : UInt8} (hb : b.toNat < 0x80) (cs : List UInt8) :
    ∀ {bs : List UInt8} {s : Option Pending}, (∀ p, s = some p → p.Wide) →
      decodeFrom s (bs ++ b :: cs) = decodeFrom s bs ++ Char.ofNat b.toNat :: decodeFrom none cs
  | [], s, hs => by
    rw [List.nil_append, decodeFrom, step_ascii hs hb, List.append_assoc]
    rfl
  | a :: bs, s, hs => by
    rw [List.cons_append, decodeFrom, decodeFrom,
      decodeFrom_append_ascii hb cs (sound_step hs a).wide, List.append_assoc]

theorem wide_none : ∀ p : Pending, none = some p → p.Wide := nofun

/-- **A line feed is decoded from the byte 0x0A only.** -/
theorem newline_mem_of_decode {bs : List UInt8} (h : '\n' ∈ decode bs) : 0x0A ∈ bs := by
  obtain ⟨b, hb, hnat⟩ := mem_of_decodeFrom (by decide) wide_none h
  rwa [UInt8.toNat_inj.1 (show (0x0A : UInt8).toNat = b.toNat from hnat)]

/-- **The byte 0x0A is a line feed.** -/
theorem newline_mem_of_encode {t : Text} (h : 0x0A ∈ encode t) : '\n' ∈ t := by
  obtain ⟨c, hc, hb⟩ := List.mem_flatMap.1 h
  have hnat : c.toNat = 10 := toNat_of_mem_encodeChar hb (by decide)
  have hchar : c = '\n' := by rw [← Char.ofNat_toNat c, hnat]
  exact hchar ▸ hc

end Utf8
end TenBit
