/-
# The first word of a text

A text that has a word at all is white space, then the word, then a rest that is
empty or starts with white space. This is the only way to cut it so, and it is how
the next word is taken. White space at the end of a text stays at the end of the
rest, so trimming a text changes neither its first word nor, in the end, what
stands behind it.

Key definitions: `Text.IsWord`, `Text.Opens`, `Text.Tight`.
Key theorems: `Text.nextWord?_eq_some_iff`, `Text.nextWord?_trimEnd`,
`Text.trim_append`.
-/
import Mathlib.Data.List.DropRight
import TenBit.Proofs.Statement.Rereading

namespace TenBit
namespace Text

/-- Nothing but white space. -/
def Blank (t : Text) : Prop := ∀ c ∈ t, isBlank c = true

/-- One or more characters, none of them white space. -/
def IsWord (w : Text) : Prop := w ≠ [] ∧ ∀ c ∈ w, isBlank c = false

/-- A text that is white space, then a word, then a rest into which the word does
not go on. -/
inductive Opens : (t word rest : Text) → Prop
  | intro {gap word rest : Text} (hgap : Blank gap) (hword : IsWord word)
      (hrest : ∀ c ∈ rest.head?, isBlank c = true) : Opens (gap ++ word ++ rest) word rest

/-- The text has a visible character at each end. -/
structure Tight (t : Text) : Prop where
  first : ∃ c ∈ t.head?, isBlank c = false
  last : ∃ c ∈ t.getLast?, isBlank c = false

/-- A run of characters ends where the next one is of another kind. -/
theorem takeWhile_append_stop {p : Char → Bool} {t u : Text} (ht : ∀ c ∈ t, p c = true)
    (hu : ∀ c ∈ u.head?, p c = false) : (t ++ u).takeWhile p = t := by
  rw [List.takeWhile_append_of_pos ht]
  cases u with
  | nil => exact List.append_nil t
  | cons c u => rw [List.takeWhile_cons_of_neg (by simp [hu c rfl]), List.append_nil]

theorem dropWhile_append_stop {p : Char → Bool} {t u : Text} (ht : ∀ c ∈ t, p c = true)
    (hu : ∀ c ∈ u.head?, p c = false) : (t ++ u).dropWhile p = u := by
  rw [List.dropWhile_append_of_pos ht]
  cases u with
  | nil => rfl
  | cons c u => exact List.dropWhile_cons_of_neg (by simp [hu c rfl])

theorem IsWord.tight {w : Text} (h : IsWord w) : Tight w := by
  obtain ⟨c, u, rfl⟩ := List.exists_cons_of_ne_nil h.1
  refine ⟨⟨c, rfl, h.2 c List.mem_cons_self⟩, (c :: u).getLast (List.cons_ne_nil c u), ?_, ?_⟩
  · exact List.getLast?_eq_some_getLast _
  · exact h.2 _ (List.getLast_mem _)

/-- A text with a visible start in front of one with a visible end. -/
theorem tight_append {t u : Text} (ht : ∃ c ∈ t.head?, isBlank c = false)
    (hu : ∃ c ∈ u.getLast?, isBlank c = false) : Tight (t ++ u) := by
  obtain ⟨c, hc, hfirst⟩ := ht
  obtain ⟨d, hd, hlast⟩ := hu
  exact ⟨⟨c, by rw [List.head?_append, hc]; rfl, hfirst⟩,
    ⟨d, by rw [List.getLast?_append, hd]; rfl, hlast⟩⟩

/-- Letters and digits are visible. -/
theorem isBlank_of_isAlphanum {c : Char} (h : c.isAlphanum = true) : isBlank c = false := by
  have hupper (hc : c.isUpper = true) : 65 ≤ c.toNat ∧ c.toNat ≤ 90 := of_decide_eq_true hc
  have hlower (hc : c.isLower = true) : 97 ≤ c.toNat ∧ c.toNat ≤ 122 :=
    (Bool.and_eq_true_iff.1 hc).imp of_decide_eq_true of_decide_eq_true
  have hdigit (hc : c.isDigit = true) : 48 ≤ c.toNat ∧ c.toNat ≤ 57 :=
    (Bool.and_eq_true_iff.1 hc).imp of_decide_eq_true of_decide_eq_true
  have hrange : 0x20 < c.toNat ∧ c.toNat < 0x85 := by
    rcases Bool.or_eq_true_iff.1 h with hc | hc
    · rcases Bool.or_eq_true_iff.1 hc with hc | hc
      · have := hupper hc
        omega
      · have := hlower hc
        omega
    · have := hdigit hc
      omega
  rw [Bool.eq_false_iff]
  intro hblank
  simp only [isBlank, blankRanges, List.any_cons, List.any_nil, Bool.or_eq_true, Bool.and_eq_true,
    decide_eq_true_eq, Bool.false_eq_true, or_false] at hblank
  omega

/-! ### The next word -/

theorem trimStart_append {gap t : Text} (hgap : Blank gap) (ht : ∃ c ∈ t.head?, isBlank c = false) :
    trimStart (gap ++ t) = t := by
  obtain ⟨c, hc, hvisible⟩ := ht
  obtain ⟨u, rfl⟩ := List.head?_eq_some_iff.1 hc
  rw [trimStart, List.dropWhile_append_of_pos hgap, List.dropWhile_cons_of_neg (by simp [hvisible])]

theorem Opens.nextWord? {t word rest : Text} (h : Opens t word rest) :
    nextWord? t = some (word, rest) := by
  obtain ⟨hgap, hword, hrest⟩ := h
  rename_i gap
  have hstart : trimStart (gap ++ word ++ rest) = word ++ rest := by
    rw [List.append_assoc]
    refine trimStart_append hgap ?_
    obtain ⟨c, hc, hvisible⟩ := hword.tight.first
    exact ⟨c, by rw [List.head?_append, hc]; rfl, hvisible⟩
  have hvisible : ∀ c ∈ word, (!isBlank c) = true := fun c hc => by simp [hword.2 c hc]
  have hstop : ∀ c ∈ rest.head?, (!isBlank c) = false := fun c hc => by simp [hrest c hc]
  obtain ⟨c, u, hcons⟩ := List.exists_cons_of_ne_nil (l := word ++ rest) (by simp [hword.1])
  rw [TenBit.Text.nextWord?, hstart, hcons]
  simp only
  rw [← hcons, takeWhile_append_stop hvisible hstop, dropWhile_append_stop hvisible hstop]

theorem IsWord.opens {w : Text} (h : IsWord w) : Opens w w [] := by
  simpa using @Opens.intro [] w [] nofun h nofun

/-- **The next word is the first word of the text.** -/
theorem nextWord?_eq_some_iff {t word rest : Text} :
    nextWord? t = some (word, rest) ↔ Opens t word rest := by
  refine ⟨fun h => ?_, Opens.nextWord?⟩
  cases hstart : trimStart t with
  | nil => simp [nextWord?, hstart] at h
  | cons c u =>
    have hc : isBlank c = false := isBlank_of_trimStart hstart
    simp only [nextWord?, hstart, Option.some.injEq, Prod.mk.injEq] at h
    obtain ⟨rfl, rfl⟩ := h
    have ht : t = t.takeWhile isBlank ++ ((c :: u).takeWhile fun d => !isBlank d) ++
        (c :: u).dropWhile fun d => !isBlank d := by
      rw [List.append_assoc, List.takeWhile_append_dropWhile, ← hstart, trimStart,
        List.takeWhile_append_dropWhile]
    rw [ht]
    refine .intro (fun d hd => List.mem_takeWhile_imp hd) ⟨by simp [hc], fun d hd => ?_⟩ ?_
    · simpa using List.mem_takeWhile_imp hd
    · intro d hd
      have hhead := List.head?_dropWhile_not (fun d => !isBlank d) (c :: u)
      rw [hd] at hhead
      simpa using hhead

theorem nextWord?_eq_none_iff {t : Text} : nextWord? t = none ↔ Blank t := by
  unfold nextWord?
  split
  · rename_i hstart
    simpa [trimStart, List.dropWhile_eq_nil_iff, Blank] using hstart
  · rename_i hne
    have hnot : ¬ Blank t := fun ht => hne (List.dropWhile_eq_nil_iff.2 ht)
    simp [hnot]

/-! ### Trimming -/

theorem trimEnd_eq_rdropWhile (t : Text) : trimEnd t = t.rdropWhile isBlank := rfl

theorem trimEnd_blank {t : Text} (h : Blank t) : trimEnd t = [] := by
  rw [trimEnd_eq_rdropWhile, List.rdropWhile_eq_nil_iff]
  exact h

/-- Trimming the end stops at a visible character. -/
theorem trimEnd_append_of_last {t : Text} (h : ∃ c ∈ t.getLast?, isBlank c = false) (u : Text) :
    trimEnd (t ++ u) = t ++ trimEnd u := by
  obtain ⟨c, hc, hvisible⟩ := h
  obtain ⟨v, rfl⟩ := List.getLast?_eq_some_iff.1 hc
  have hkeep : (v ++ [c]).reverse.dropWhile isBlank = (v ++ [c]).reverse := by
    rw [List.reverse_append, List.reverse_singleton, List.singleton_append,
      List.dropWhile_cons_of_neg (by simp [hvisible])]
  rw [trimEnd, List.reverse_append, List.dropWhile_append]
  split
  · rename_i hempty
    rw [hkeep, List.reverse_reverse, trimEnd, List.isEmpty_iff.1 hempty, List.reverse_nil,
      List.append_nil]
  · rw [List.reverse_append, List.reverse_reverse, trimEnd]

/-- Trimming a text that has a tight part behind white space trims what follows. -/
theorem trim_append_tight {a t : Text} (ha : Blank a) (ht : Tight t) (u : Text) :
    trim (a ++ t ++ u) = t ++ trimEnd u := by
  have hfirst : ∃ c ∈ (t ++ u).head?, isBlank c = false := by
    obtain ⟨c, hc, hvisible⟩ := ht.first
    exact ⟨c, by rw [List.head?_append, hc]; rfl, hvisible⟩
  rw [trim, List.append_assoc, trimStart_append ha hfirst, trimEnd_append_of_last ht.last]

/-- **Trimming takes off the white space around a tight text** and no more. -/
theorem trim_append {a t b : Text} (ha : Blank a) (ht : Tight t) (hb : Blank b) :
    trim (a ++ t ++ b) = t := by
  rw [trim_append_tight ha ht, trimEnd_blank hb, List.append_nil]

theorem trim_blank {t : Text} (h : Blank t) : trim t = [] := by
  rw [trim, trimStart, List.dropWhile_eq_nil_iff.2 h]
  rfl

theorem trim_append_blanks {b : Text} (hb : Blank b) (t : Text) : trim (t ++ b) = trim t := by
  induction b generalizing t with
  | nil => rw [List.append_nil]
  | cons c b ih =>
    obtain ⟨hc, hb⟩ := List.forall_mem_cons.1 hb
    rw [List.append_cons, ih hb, trim_append_blank t hc]

theorem trim_trimEnd (t : Text) : trim (trimEnd t) = trim t := by
  obtain ⟨b, hb, hblank⟩ := trimEnd_append t
  conv_rhs => rw [hb, trim_append_blanks hblank]

/-- **Trimming the end keeps the next word** and trims what is behind it. -/
theorem nextWord?_trimEnd (t : Text) :
    nextWord? (trimEnd t) = (nextWord? t).map fun r => (r.1, trimEnd r.2) := by
  cases hnext : nextWord? t with
  | none =>
    rw [trimEnd_blank (nextWord?_eq_none_iff.1 hnext)]
    rfl
  | some r =>
    obtain ⟨word, rest⟩ := r
    obtain ⟨hgap, hword, hrest⟩ := nextWord?_eq_some_iff.1 hnext
    rename_i gap
    have hlast : ∃ c ∈ (gap ++ word).getLast?, isBlank c = false := by
      obtain ⟨c, hc, hvisible⟩ := hword.tight.last
      exact ⟨c, by rw [List.getLast?_append, hc]; rfl, hvisible⟩
    rw [trimEnd_append_of_last hlast, Option.map_some]
    refine Opens.nextWord? (.intro hgap hword fun c hc => ?_)
    obtain ⟨b, hb, -⟩ := trimEnd_append rest
    refine hrest c ?_
    rw [hb, List.head?_append, hc]
    rfl

theorem nextWord?_trimStart (t : Text) : nextWord? (trimStart t) = nextWord? t := by
  rw [nextWord?, nextWord?, trimStart, trimStart, List.dropWhile_idempotent]

theorem Opens.isWord {t word rest : Text} (h : Opens t word rest) : IsWord word := by
  cases h with
  | intro _ hword _ => exact hword

/-- Trimming a text trims the rest of it. -/
theorem Opens.trim_eq {t word rest : Text} (h : Opens t word rest) :
    Text.trim t = word ++ trimEnd rest := by
  obtain ⟨hgap, hword, -⟩ := h
  exact trim_append_tight hgap hword.tight rest

theorem Opens.trim {t word rest : Text} (h : Opens t word rest) :
    Opens (Text.trim t) word (trimEnd rest) := by
  rw [← nextWord?_eq_some_iff, Text.trim, nextWord?_trimEnd, nextWord?_trimStart, h.nextWord?]
  rfl

end Text
end TenBit
