/-
# Malformed bytes are replaced

Where no character's bytes stand, the decoder gives one replacement character for the
longest start of a character that is there, or for one byte if there is none, and
goes on behind it. While it is in the middle of a character, the bytes it has read
are the first bytes of just those characters whose values it awaits. So a byte
outside the range it asks for is one that no character has there.

Key definitions: `Utf8.Begins`, `Utf8.Lossy`, `Utf8.Begun`.
Key theorems: `Utf8.begun_of_start`, `Utf8.Begun.next`, `Utf8.Begun.complete`,
`Utf8.Begun.not_begins`, `Utf8.Lossy.unique`, `Utf8.lossy_iff`.
-/
import TenBit.Proofs.Text.Utf8

namespace TenBit
namespace Utf8

/-- The bytes are the first of some character's, or all of them. -/
def Begins (q : List UInt8) : Prop := ∃ c, q <+: String.utf8EncodeChar c

/-- The text is that of the bytes, with replacements. A replacement stands where no
character does, for the longest bytes there that begin one, or else for one byte. -/
inductive Lossy : List UInt8 → Text → Prop
  | nil : Lossy [] []
  | char (c : Char) {bs : List UInt8} {t : Text} (rest : Lossy bs t) :
    Lossy (String.utf8EncodeChar c ++ bs) (c :: t)
  | malformed {q bs : List UInt8} {t : Text} (nonempty : q ≠ []) (part : Begins q ∨ q.length = 1)
    (noChar : ∀ c, ¬ String.utf8EncodeChar c <+: q ++ bs)
    (longest : ∀ q', q' <+: q ++ bs → Begins q' → q'.length ≤ q.length) (rest : Lossy bs t) :
    Lossy (q ++ bs) (replacement :: t)

/-! ### One text only -/

/-- No character's bytes start with another's. -/
theorem encodeChar_append_inj {c c' : Char} {bs bs' : List UInt8}
    (h : String.utf8EncodeChar c ++ bs = String.utf8EncodeChar c' ++ bs') : c = c' ∧ bs = bs' := by
  have hdecode := congrArg (decodeFrom none) h
  rw [decodeFrom_encodeChar, decodeFrom_encodeChar] at hdecode
  have hchar : c = c' := (List.cons.inj hdecode).1
  subst hchar
  exact ⟨rfl, List.append_cancel_left h⟩

theorem Begins.of_prefix {q q' : List UInt8} (h : Begins q') (hq : q <+: q') : Begins q :=
  h.imp fun _ hc => hq.trans hc

theorem begins_encodeChar (c : Char) : Begins (String.utf8EncodeChar c) := ⟨c, List.prefix_rfl⟩

/-- Of two malformed parts at one place neither is longer. -/
theorem length_le_of_longest {q q' bs : List UInt8} (hne : q ≠ []) (hpart' : Begins q' ∨ q'.length = 1)
    (hq' : q' <+: q ++ bs) (hlongest : ∀ x, x <+: q ++ bs → Begins x → x.length ≤ q.length) :
    q'.length ≤ q.length := by
  rcases hpart' with hbegins | hone
  · exact hlongest q' hq' hbegins
  · have hpos := List.length_pos_iff.2 hne
    omega

theorem Lossy.unique {bs : List UInt8} {t t' : Text} (h : Lossy bs t) (h' : Lossy bs t') : t = t' := by
  induction h generalizing t' with
  | nil =>
    generalize he : ([] : List UInt8) = xs at h'
    cases h' with
    | nil => rfl
    | char c _ => exact absurd (List.append_eq_nil_iff.1 he.symm).1 (encodeChar_ne_nil c)
    | malformed hne => exact absurd (List.append_eq_nil_iff.1 he.symm).1 hne
  | char c rest ih =>
    generalize he : String.utf8EncodeChar c ++ _ = xs at h'
    cases h' with
    | nil => exact absurd (List.append_eq_nil_iff.1 he).1 (encodeChar_ne_nil c)
    | char c' rest' =>
      obtain ⟨rfl, rfl⟩ := encodeChar_append_inj he
      rw [ih rest']
    | malformed _ _ hno => exact absurd ⟨_, he⟩ (hno c)
  | malformed hne hpart hno hlongest rest ih =>
    rename_i q bs t
    generalize he : q ++ bs = xs at h'
    cases h' with
    | nil => exact absurd (List.append_eq_nil_iff.1 he).1 hne
    | char c' rest' => exact absurd ⟨_, he.symm⟩ (hno c')
    | @malformed q' bs' _ hne' hpart' _ hlongest' rest' =>
      have hle : q'.length ≤ q.length :=
        length_le_of_longest hne hpart' ⟨_, he.symm⟩ hlongest
      have hge : q.length ≤ q'.length :=
        length_le_of_longest hne' hpart ⟨_, he⟩ hlongest'
      obtain ⟨-, rfl⟩ := List.append_inj he (Nat.le_antisymm hge hle)
      rw [ih rest']

/-! ### Characters that are begun -/

/-- **What the decoder knows in the middle of a character**: the bytes `q` are the
first of just those characters whose values `p` awaits, and there are such. -/
structure Begun (q : List UInt8) (p : Pending) : Prop where
  nonempty : q ≠ []
  least : 0x80 ≤ p.least.toNat
  range : p.least.toNat ≤ p.greatest.toNat
  greatest : p.greatest.toNat ≤ 0xBF
  valid : ∀ v, p.Awaits v → v.isValidChar
  awaits : ∀ c, q <+: String.utf8EncodeChar c → p.Awaits c.toNat
  encodes : ∀ c : Char, p.Awaits c.toNat →
    String.utf8EncodeChar c = q ++ tail (p.more + 1) c.toNat

/-- A value that is awaited after the first byte is a character's. -/
theorem Leads.isValidChar {b : UInt8} {p : Pending} (h : Leads b p) {v : Nat} (hv : p.Awaits v) :
    v.isValidChar := by
  obtain ⟨hbits, hleast, hgreatest⟩ := hv
  unfold Nat.isValidChar
  rcases h.form with ⟨hmore, -, hlow, hhigh⟩ | ⟨hmore, -, hhigh, -, hsurrogate⟩ |
    ⟨hmore, -, hhigh, hlow, hlast⟩
  · rw [hmore] at hbits
    omega
  · rw [hmore] at hbits hgreatest
    omega
  · rw [hmore] at hbits hleast hgreatest
    omega

theorem Leads.encodeChar {b : UInt8} {p : Pending} (h : Leads b p) {c : Char}
    (hc : p.Awaits c.toNat) : String.utf8EncodeChar c = b :: tail (p.more + 1) c.toNat := by
  have hbyte : ∀ {n : Nat}, b.toNat = n → b = UInt8.ofNat n := fun hn => by
    rw [← hn, UInt8.ofNat_toNat]
  have hval : c.val.toNat = c.toNat := rfl
  obtain ⟨hbits, hleast, -⟩ := hc
  rw [String.utf8EncodeChar, hval]
  generalize c.toNat = v at *
  rcases h.form with ⟨hmore, hb, hlow, hhigh⟩ | ⟨hmore, hb, hhigh, hlow, -⟩ |
    ⟨hmore, hb, hhigh, hlow, -⟩
  · rw [hmore] at hbits
    have hdigit : v / 64 % 32 = p.bits := by omega
    rw [if_neg (by omega), if_pos (by omega), hdigit, hmore, hbyte hb]
    simp [tail]
  · rw [hmore] at hbits hleast
    have hdigit : v / 4096 % 16 = p.bits := by omega
    rw [if_neg (by omega), if_neg (by omega), if_pos (by omega), hdigit, hmore, hbyte hb]
    simp [tail]
  · rw [hmore] at hbits hleast
    have hdigit : v / 262144 % 8 = p.bits := by omega
    rw [if_neg (by omega), if_neg (by omega), if_neg (by omega), hdigit, hmore, hbyte hb]
    simp [tail]

/-- The first byte of a character. -/
theorem start_of_encodeChar {b : UInt8} {c : Char} (h : [b] <+: String.utf8EncodeChar c) :
    b.toNat < 0x80 ∨ ∃ p, start b = ([], some p) ∧ p.Awaits c.toNat := by
  obtain ⟨rest, hrest⟩ := h
  rcases Nat.lt_or_ge c.toNat 0x80 with hlt | hle
  · rw [encodeChar_of_lt hlt] at hrest
    refine .inl ?_
    rw [(List.cons.inj hrest).1, UInt8.toNat_ofNat']
    omega
  · obtain ⟨b', p, hbytes, hstart, hawaits⟩ := encodeChar_of_le hle
    rw [hbytes] at hrest
    obtain rfl : b = b' := (List.cons.inj hrest).1
    exact .inr ⟨p, hstart, hawaits⟩

theorem begun_of_start {b : UInt8} {p : Pending} (h : start b = ([], some p)) : Begun [b] p := by
  have hleads : Leads b p := by
    have hstarts := starts b
    rw [h] at hstarts
    cases hstarts with
    | leads hleads => exact hleads
  refine ⟨List.cons_ne_nil _ _, hleads.least, hleads.range, hleads.greatest,
    fun v hv => hleads.isValidChar hv, fun c hc => ?_, fun c hc => hleads.encodeChar hc⟩
  rcases start_of_encodeChar hc with hlt | ⟨p', hstart, hawaits⟩
  · rw [start_of_lt hlt] at h
    cases h
  · rw [h] at hstart
    cases hstart
    exact hawaits

/-- A byte that is replaced begins no character. -/
theorem not_begins_of_start {b : UInt8} (h : start b = ([replacement], none)) : ¬ Begins [b] := by
  rintro ⟨c, hc⟩
  rcases start_of_encodeChar hc with hlt | ⟨p, hstart, -⟩
  · rw [start_of_lt hlt] at h
    have hchar : Char.ofNat b.toNat = replacement := (List.cons.inj (Prod.mk.inj h).1).1
    have hnat := congrArg Char.toNat hchar
    rw [toNat_ofNat_of_isValidChar (.inl (by omega))] at hnat
    rw [hnat] at hlt
    exact absurd hlt (by decide)
  · rw [h] at hstart
    cases hstart

/-- What a byte says of the value that is awaited. -/
theorem Pending.awaits_iff {p : Pending} {b : UInt8} (hleast : 0x80 ≤ p.least.toNat)
    (hgreatest : p.greatest.toNat ≤ 0xBF) (hb : p.least ≤ b ∧ b ≤ p.greatest) {v : Nat} :
    p.Awaits v ∧ UInt8.ofNat (v / 64 ^ p.more % 64 + 128) = b ↔
      p.bits * 0x40 + b.toNat % 0x40 = v / 64 ^ p.more := by
  rw [UInt8.le_iff_toNat_le, UInt8.le_iff_toNat_le] at hb
  rw [← UInt8.toNat_inj, toNat_continuation]
  have hbits : v / 64 ^ (p.more + 1) = v / 64 ^ p.more / 64 := by
    rw [Nat.pow_succ, Nat.div_div_eq_div_mul]
  constructor
  · rintro ⟨h, hbyte⟩
    have hupper := h.bits
    omega
  · intro h
    refine ⟨⟨?_, ?_, ?_⟩, ?_⟩ <;> omega

variable {q : List UInt8} {p : Pending} {b : UInt8}

/-- A byte in the range goes on with the character. -/
theorem Begun.next {n : Nat} (h : Begun q p) (hmore : p.more = n + 1)
    (hb : p.least ≤ b ∧ b ≤ p.greatest) :
    Begun (q ++ [b]) ⟨p.bits * 0x40 + b.toNat % 0x40, n, 0x80, 0xBF⟩ := by
  have hiff := fun v => Pending.awaits_iff h.least h.greatest hb (v := v)
  rw [hmore] at hiff
  have hawaits : ∀ v, Pending.Awaits ⟨p.bits * 0x40 + b.toNat % 0x40, n, 0x80, 0xBF⟩ v →
      p.Awaits v ∧ UInt8.ofNat (v / 64 ^ (n + 1) % 64 + 128) = b :=
    fun v hv => (hiff v).2 hv.bits
  refine ⟨by simp, by simp, by simp, by simp, fun v hv => h.valid v (hawaits v hv).1,
    fun c hc => ?_, fun c hc => ?_⟩
  · have hp := h.awaits c ((List.prefix_append q [b]).trans hc)
    rw [h.encodes c hp, hmore, tail, List.prefix_append_right_inj, List.cons_prefix_cons] at hc
    refine ⟨(hiff _).1 ⟨hp, hc.1.symm⟩, ?_, ?_⟩
    · show 128 ≤ _
      omega
    · show _ ≤ 191
      omega
  · obtain ⟨hp, hbyte⟩ := hawaits _ hc
    rw [h.encodes c hp, hmore, tail, hbyte, List.append_assoc]
    rfl

/-- The last byte completes it. -/
theorem Begun.complete (h : Begun q p) (hmore : p.more = 0) (hb : p.least ≤ b ∧ b ≤ p.greatest) :
    String.utf8EncodeChar (Char.ofNat (p.bits * 0x40 + b.toNat % 0x40)) = q ++ [b] := by
  have hiff := Pending.awaits_iff h.least h.greatest hb (v := p.bits * 0x40 + b.toNat % 0x40)
  rw [hmore, Nat.pow_zero, Nat.div_one] at hiff
  obtain ⟨hp, hbyte⟩ := hiff.2 rfl
  have hnat := toNat_ofNat_of_isValidChar (h.valid _ hp)
  rw [h.encodes _ (by rwa [hnat]), hnat, hmore, tail, tail, Nat.pow_zero, Nat.div_one, hbyte]

/-- Some character goes on from here. -/
theorem Begun.exists_char (h : Begun q p) :
    ∃ c : Char, String.utf8EncodeChar c = q ++ tail (p.more + 1) c.toNat := by
  have hb : p.least ≤ p.least ∧ p.least ≤ p.greatest :=
    ⟨UInt8.le_refl _, UInt8.le_iff_toNat_le.2 h.range⟩
  have hdiv : p.bits * 0x40 + p.least.toNat % 0x40 =
      (p.bits * 0x40 + p.least.toNat % 0x40) * 64 ^ p.more / 64 ^ p.more :=
    (Nat.mul_div_cancel _ (Nat.pow_pos (by decide))).symm
  obtain ⟨hp, -⟩ := (Pending.awaits_iff h.least h.greatest hb).2 hdiv
  refine ⟨Char.ofNat ((p.bits * 0x40 + p.least.toNat % 0x40) * 64 ^ p.more), h.encodes _ ?_⟩
  rwa [toNat_ofNat_of_isValidChar (h.valid _ hp)]

/-- **No character has a byte outside the range there.** -/
theorem Begun.not_begins (h : Begun q p) (hb : ¬ (p.least ≤ b ∧ b ≤ p.greatest)) :
    ¬ Begins (q ++ [b]) := by
  rintro ⟨c, hc⟩
  have hp := h.awaits c ((List.prefix_append q [b]).trans hc)
  rw [h.encodes c hp, tail, List.prefix_append_right_inj, List.cons_prefix_cons] at hc
  refine hb ?_
  rw [hc.1, UInt8.le_iff_toNat_le, UInt8.le_iff_toNat_le, toNat_continuation]
  exact ⟨hp.least, hp.greatest⟩

theorem Begun.not_prefix (h : Begun q p) (c : Char) : ¬ String.utf8EncodeChar c <+: q := by
  rintro ⟨rest, rfl⟩
  obtain ⟨c', hc'⟩ := h.exists_char
  rw [List.append_assoc, ← List.append_nil (String.utf8EncodeChar c')] at hc'
  have hnil := (encodeChar_append_inj hc').2
  rw [tail] at hnil
  exact absurd hnil.symm (List.append_ne_nil_of_right_ne_nil _ (List.cons_ne_nil _ _))

/-! ### Replacing -/

/-- The character that was begun is not gone on with. -/
theorem Lossy.of_begun {bs : List UInt8} {t : Text} (h : Begun q p)
    (hstop : ∀ b, bs.head? = some b → ¬ (p.least ≤ b ∧ b ≤ p.greatest)) (rest : Lossy bs t) :
    Lossy (q ++ bs) (replacement :: t) := by
  have hlongest : ∀ q', q' <+: q ++ bs → Begins q' → q'.length ≤ q.length := by
    intro q' hq' hbegins
    refine Nat.le_of_not_lt fun hlt => ?_
    obtain ⟨r, rfl⟩ := List.prefix_of_prefix_length_le (List.prefix_append q bs) hq' (Nat.le_of_lt hlt)
    rw [List.prefix_append_right_inj] at hq'
    cases r with
    | nil => simp at hlt
    | cons b r =>
      obtain ⟨bs', rfl⟩ := hq'
      have hq : q ++ [b] <+: q ++ b :: r := ⟨r, by simp⟩
      exact h.not_begins (hstop b rfl) (hbegins.of_prefix hq)
  refine .malformed h.nonempty (.inl ?_) (fun c hc => ?_) hlongest rest
  · obtain ⟨c, hc⟩ := h.exists_char
    exact ⟨c, hc ▸ List.prefix_append _ _⟩
  · have hle := hlongest _ hc (begins_encodeChar c)
    exact h.not_prefix c (List.prefix_of_prefix_length_le hc (List.prefix_append q bs) hle)

/-- A byte that begins no character. -/
theorem Lossy.of_not_begins {bs : List UInt8} {t : Text} (h : ¬ Begins [b]) (rest : Lossy bs t) :
    Lossy (b :: bs) (replacement :: t) := by
  have hnil : ∀ q', q' <+: [b] ++ bs → Begins q' → q' = [] := by
    intro q' hq' hbegins
    cases q' with
    | nil => rfl
    | cons b' r =>
      obtain rfl : b' = b := (List.cons_prefix_cons.1 hq').1
      exact absurd (hbegins.of_prefix ⟨r, rfl⟩) h
  refine .malformed (List.cons_ne_nil b []) (.inr rfl) (fun c hc => ?_) (fun q' hq' hbegins => ?_) rest
  · exact encodeChar_ne_nil c (hnil _ hc (begins_encodeChar c))
  · rw [hnil q' hq' hbegins]
    exact Nat.zero_le _

/-- Both states of the decoder at once. A byte that does not go on with what was begun is
read again between two characters, so the first half for the same bytes serves the
second. -/
theorem lossy_decodeFrom : ∀ bs : List UInt8, Lossy bs (decodeFrom none bs) ∧
    ∀ {q : List UInt8} {p : Pending}, Begun q p → Lossy (q ++ bs) (decodeFrom (some p) bs)
  | [] => ⟨.nil, fun h => .of_begun h nofun .nil⟩
  | b :: bs => by
    obtain ⟨hnone, hsome⟩ := lossy_decodeFrom bs
    have hstart : Lossy (b :: bs) (decodeFrom none (b :: bs)) := by
      rw [decodeFrom, step]
      have hstarts := starts b
      generalize hr : start b = r at hstarts
      cases hstarts with
      | ascii hb =>
        have hnat := toNat_ofNat_of_isValidChar (n := b.toNat) (.inl (by omega))
        have hchar := Lossy.char (Char.ofNat b.toNat) hnone
        rw [encodeChar_of_lt (by rwa [hnat]), hnat, UInt8.ofNat_toNat] at hchar
        exact hchar
      | malformed => exact .of_not_begins (not_begins_of_start hr) hnone
      | leads _ => exact hsome (begun_of_start hr)
    refine ⟨hstart, fun {q p} h => ?_⟩
    by_cases hb : p.least ≤ b ∧ b ≤ p.greatest
    · rw [decodeFrom, step_of_range hb rfl]
      cases hmore : p.more with
      | zero =>
        rw [List.append_cons, ← h.complete hmore hb]
        exact .char _ hnone
      | succ n =>
        rw [List.append_cons]
        exact hsome (h.next hmore hb)
    · have hstep : decodeFrom (some p) (b :: bs) = replacement :: decodeFrom none (b :: bs) := by
        simp only [decodeFrom, step, if_neg hb, List.cons_append]
      rw [hstep]
      refine .of_begun h (fun b' hb' => ?_) hstart
      cases hb'
      exact hb

/-- **Decoding replaces what is malformed, and gives no other text.** -/
theorem lossy_iff {bs : List UInt8} {t : Text} : Lossy bs t ↔ decode bs = t := by
  constructor
  · exact fun h => (lossy_decodeFrom bs).1.unique h
  · rintro rfl
    exact (lossy_decodeFrom bs).1

end Utf8
end TenBit
