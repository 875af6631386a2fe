/-
# Reading a line again

What a line says is decided after the white space around it is taken off, so a
carriage return more or less at its end does not matter. It is decided against the
names of the macros, which can only make a name unfit: with fewer macros the same
is read. And a line that says something never starts with one of the two words of
a macro definition.

Key definitions: `Relaxes`, `MacroTable.Covers`, `Statement.Unspoken`.
Key theorems: `Statement.read_withoutReturn`, `Statement.relaxes_read`,
`Statement.firstWord?_of_read`.
-/
import Mathlib.Data.List.TakeWhile
import TenBit.Proofs.Macro.Blocks
import TenBit.Proofs.Source.Rewriting
import TenBit.Proofs.Statement.Shape

namespace TenBit

/-! ### White space around a line -/

namespace Text

theorem trim_append_blank (t : Text) {c : Char} (hc : isBlank c = true) :
    trim (t ++ [c]) = trim t := by
  have hend : ∀ s : Text, trimEnd (s ++ [c]) = trimEnd s := by
    intro s
    rw [trimEnd, List.reverse_append, List.reverse_singleton, List.singleton_append,
      List.dropWhile_cons_of_pos hc, trimEnd]
  rw [trim, trim, trimStart, List.dropWhile_append]
  split
  · rename_i hblank
    rw [List.dropWhile_cons_of_pos hc, trimStart, List.isEmpty_iff.1 hblank]
    rfl
  · exact hend _

/-- Only white space is taken off the end. -/
theorem trimEnd_append (s : Text) : ∃ bs, s = trimEnd s ++ bs ∧ ∀ c ∈ bs, isBlank c = true := by
  refine ⟨(s.reverse.takeWhile isBlank).reverse, ?_, fun c hc => ?_⟩
  · rw [trimEnd, ← List.reverse_append, List.takeWhile_append_dropWhile, List.reverse_reverse]
  · exact List.mem_takeWhile_imp (List.mem_reverse.1 hc)

/-- A text that starts with a visible character still does when its end is
trimmed. -/
theorem trimEnd_cons {c : Char} (hc : isBlank c = false) (cs : Text) :
    ∃ cs', trimEnd (c :: cs) = c :: cs' := by
  obtain ⟨bs, hbs, hblank⟩ := trimEnd_append (c :: cs)
  cases htrim : trimEnd (c :: cs) with
  | nil =>
    rw [htrim, List.nil_append] at hbs
    rw [hblank c (hbs ▸ List.mem_cons_self)] at hc
    cases hc
  | cons d ds =>
    rw [htrim] at hbs
    exact ⟨ds, by rw [(List.cons.inj hbs).1]⟩

theorem takeWhile_trimEnd (s : Text) :
    ((trimEnd s).takeWhile fun c => !isBlank c) = s.takeWhile fun c => !isBlank c := by
  obtain ⟨bs, hbs, hblank⟩ := trimEnd_append s
  have hnone : (bs.takeWhile fun c => !isBlank c) = [] := by
    cases bs with
    | nil => rfl
    | cons c bs =>
      apply List.takeWhile_cons_of_neg
      simp [hblank c List.mem_cons_self]
  conv_rhs => rw [hbs, List.takeWhile_append, hnone, List.append_nil]
  -- the word ends inside the trimmed text or takes all of it
  split
  · rename_i hall
    exact (List.takeWhile_prefix _).eq_of_length hall
  · rfl

theorem firstWord?_of_trimStart {t cs : Text} {c : Char} (h : trimStart t = c :: cs) :
    firstWord? t = some ((c :: cs).takeWhile fun c => !isBlank c) := by
  simp only [firstWord?, nextWord?, h, Option.map_some]

theorem isBlank_of_trimStart {t cs : Text} {c : Char} (h : trimStart t = c :: cs) :
    isBlank c = false := by
  have hhead := List.head?_dropWhile_not isBlank t
  rw [show t.dropWhile isBlank = c :: cs from h] at hhead
  exact hhead

/-- **Trimming keeps the first word.** -/
theorem firstWord?_trim (t : Text) : firstWord? (trim t) = firstWord? t := by
  cases ht : trimStart t with
  | nil =>
    have htrim : trim t = [] := by
      rw [trim, ht]
      rfl
    rw [htrim, firstWord?, firstWord?, nextWord?, nextWord?, ht]
    rfl
  | cons c cs =>
    have hc := isBlank_of_trimStart ht
    obtain ⟨cs', hcs'⟩ := trimEnd_cons hc cs
    have htrim : trimStart (trim t) = c :: cs' := by
      rw [trim, ht, hcs']
      exact List.dropWhile_cons_of_neg (by simp [hc])
    rw [firstWord?_of_trimStart ht, firstWord?_of_trimStart htrim, ← hcs', takeWhile_trimEnd]

end Text

namespace Statement

/-- **A carriage return at the end of a line does not matter.** -/
theorem read_withoutReturn (macros : MacroTable) (t : Text) :
    read macros (Source.withoutReturn t) = read macros t := by
  have htrim : Text.trim (Source.withoutReturn t) = Text.trim t := by
    unfold Source.withoutReturn
    split
    · rename_i hlast
      conv_rhs => rw [← List.dropLast_append_getLast? _ hlast]
      exact (Text.trim_append_blank _ (by decide)).symm
    · rfl
  rw [read, read, htrim]

/-! ### The first word of a line -/

/-- The word does not start a statement, nor a comment. -/
structure Unspoken (word : Text) : Prop where
  colon : word.contains ':' = false
  opcode : Opcode.ofMnemonic? word = none
  dot : word.head? ≠ some '.'
  comment : word.head? ≠ some commentMark

theorem unspoken_macroStart : Unspoken Name.macroStart := by
  constructor <;> decide

theorem unspoken_macroEnd : Unspoken Name.macroEnd := by
  constructor <;> decide

theorem readBody_of_unspoken {macros : MacroTable} {label : Option Text} {t word rest : Text}
    {s : Statement} (hword : Text.nextWord? t = some (word, rest)) (h : Unspoken word) :
    readBody macros label t ≠ .ok s := by
  intro hread
  simp only [readBody, hword, h.opcode] at hread
  split at hread
  · rename_i hdot
    exact h.dot rfl
  · cases hread

/-- **A line that can be read does not start with such a word.** -/
theorem firstWord?_of_read {macros : MacroTable} {t word : Text} {s : Statement}
    (h : read macros t = .ok s) (hword : Unspoken word) : Text.firstWord? t ≠ some word := by
  intro hfirst
  rw [← Text.firstWord?_trim] at hfirst
  unfold read at h
  split at h
  · rename_i hnil
    rw [hnil] at hfirst
    cases hfirst
  · rename_i c cs hcons
    rw [hcons] at hfirst
    split at h
    -- the first word of a comment starts with its mark
    · rename_i hmark
      obtain rfl := eq_of_beq hmark
      have hsilent : isSilent (commentMark :: cs) = true := by
        rw [isSilent, Text.trimStart, List.dropWhile_cons_of_neg (by decide)]
        rfl
      exact hword.comment (firstWord?_of_isSilent hsilent hfirst)
    · obtain ⟨⟨w, rest⟩, hnext, hw⟩ := Option.map_eq_some_iff.1 hfirst
      obtain rfl : w = word := hw
      simp only [readSpoken, hnext, hword.colon] at h
      exact readBody_of_unspoken hnext hword h

end Statement

/-! ### Fewer macros -/

/-- Whatever the first comes to, the second comes to as well. -/
def Relaxes {ε α : Type} (x y : Except ε α) : Prop := ∀ a, x = .ok a → y = .ok a

namespace Relaxes

variable {ε α β : Type}

theorem refl (x : Except ε α) : Relaxes x x := fun _ h => h

theorem error (e : ε) (y : Except ε α) : Relaxes (.error e) y := nofun

theorem bind {x y : Except ε α} {f g : α → Except ε β} (hxy : Relaxes x y)
    (hfg : ∀ a, Relaxes (f a) (g a)) : Relaxes (x >>= f) (y >>= g) := by
  intro b hb
  obtain ⟨a, ha, hb⟩ := ok_of_bind hb
  rw [hxy a ha]
  exact hfg a b hb

theorem map {x y : Except ε α} (hxy : Relaxes x y) (f : α → β) : Relaxes (x.map f) (y.map f) := by
  intro b hb
  obtain ⟨a, ha, rfl⟩ := ok_of_map hb
  rw [hxy a ha]
  rfl

theorem ite {p : Prop} [Decidable p] {x x' y y' : Except ε α} (hx : Relaxes x x')
    (hy : Relaxes y y') : Relaxes (if p then x else y) (if p then x' else y') := by
  split
  · exact hx
  · exact hy

theorem mapM {f g : α → Except ε β} (hfg : ∀ a, Relaxes (f a) (g a)) :
    ∀ as : List α, Relaxes (as.mapM f) (as.mapM g)
  | [] => refl _
  | a :: as => by
    rw [List.mapM_cons, List.mapM_cons]
    exact bind (hfg a) fun b => bind (mapM hfg as) fun bs => refl _

end Relaxes

/-- The second table has no macro that the first has not. -/
def MacroTable.Covers (macros macros' : MacroTable) : Prop :=
  ∀ n, macros'.contains n = true → macros.contains n = true

theorem MacroTable.covers_empty (macros : MacroTable) : macros.Covers .empty := nofun

section FewerMacros

variable {macros macros' : MacroTable} (h : macros.Covers macros')
include h

theorem Name.relaxes_checkLabel (t : Text) :
    Relaxes (checkLabel macros t) (checkLabel macros' t) := by
  cases t with
  | nil => exact .error _ _
  | cons c cs =>
    have hmacros : Relaxes
        (if macros.contains (c :: cs) then Except.error Fault.labelNamesMacro else .ok ())
        (if macros'.contains (c :: cs) then .error .labelNamesMacro else .ok ()) := by
      intro a ha
      split at ha
      · cases ha
      · rename_i hnot
        rw [if_neg (mt (h _) hnot)]
    exact .ite (.refl _) (.ite (.refl _) (.ite (.refl _) (.ite (.refl _) hmacros)))

namespace Operand

theorem relaxes_readElement (t : Text) :
    Relaxes (readElement macros t) (readElement macros' t) := by
  unfold readElement
  split
  · exact .refl _
  · rename_i name row column _
    cases hlabel : Name.checkLabel macros name with
    | error f => exact .error _ _
    | ok u =>
      rw [Name.relaxes_checkLabel h name u hlabel]
      exact .refl _

theorem relaxes_readName (t : Text) : Relaxes (readName macros t) (readName macros' t) := by
  unfold readName
  cases hlabel : Name.checkLabel macros t with
  | error f => exact .error _ _
  | ok u =>
    rw [Name.relaxes_checkLabel h t u hlabel]
    exact .refl _

theorem relaxes_read (t : Text) : Relaxes (read macros t) (read macros' t) := by
  unfold read
  split
  · exact .refl _
  · unfold readPlain
    split
    · exact .refl _
    · exact .ite (relaxes_readElement h _) (relaxes_readName h _)

end Operand

namespace Statement

theorem relaxes_readInstruction (opcode : Opcode) (t : Text) :
    Relaxes (readInstruction macros opcode t) (readInstruction macros' opcode t) := by
  refine .bind (.refl _) fun items => .bind (.refl _) fun _ => ?_
  exact .bind (.mapM (fun item => (Operand.relaxes_read h item).map _) items) fun _ => .refl _

theorem relaxes_readDeclaredName (t : Text) :
    Relaxes (readDeclaredName macros t) (readDeclaredName macros' t) := by
  unfold readDeclaredName
  split
  · exact .refl _
  · exact .bind (Name.relaxes_checkLabel h _) fun _ => .refl _

theorem relaxes_readDirective (name t : Text) :
    Relaxes (readDirective macros name t) (readDirective macros' name t) := by
  have hname := relaxes_readDeclaredName h t
  exact .ite (.refl _) (.ite (.refl _) (.ite (.refl _) (.ite (hname.map _) (.ite (hname.map _)
    (.refl _)))))

theorem relaxes_readBody (label : Option Text) (t : Text) :
    Relaxes (readBody macros label t) (readBody macros' label t) := by
  unfold readBody
  split
  · exact .refl _
  · split
    · exact (relaxes_readInstruction h _ _).map _
    · split
      · exact (relaxes_readDirective h _ _).map _
      · exact .refl _

theorem relaxes_readLabel (word : Text) :
    Relaxes (readLabel macros word) (readLabel macros' word) :=
  .ite (.bind (Name.relaxes_checkLabel h _) fun _ => .refl _) (.refl _)

/-- **With fewer macros the same is read.** -/
theorem relaxes_read (t : Text) : Relaxes (read macros t) (read macros' t) := by
  unfold read
  split
  · exact .refl _
  · refine .ite (.refl _) ?_
    unfold readSpoken
    split
    · exact .refl _
    · refine .ite ?_ (relaxes_readBody h _ _)
      exact .bind (relaxes_readLabel h _) fun _ => relaxes_readBody h _ _

end Statement
end FewerMacros
end TenBit
