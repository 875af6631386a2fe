/-
# The listing shows the image

The second pass keeps a row for each line that takes memory, with the length of
the code or of the data before it; the printed address is made of that length
when both areas are known. It is the address of the cell in the image where the
words of the line start, which is known from the statements before the line, so
that lines with the same words still have their own rows. The words are printed
three to a row, and the rows of all lines, taken one after the other, have the
words of both areas.

Key definitions: `Occupant`, `Outline.occupants`, `Listing.Follows`, `Listing.PrintedRows`,
`Listing.Shows`, `Program.Lists`.
Key theorems: `Encoder.Describes.follows`, `Listing.wordsText_printed`,
`Listing.rowText_shows`, `Program.Assembles.lists`, `Program.listing_exact`.
-/
import Mathlib.Data.List.Forall2
import TenBit.Proofs.Program.Extents
import TenBit.Proofs.Text.Decimal

namespace TenBit

open Outline ObjectFile

/-- A line that takes memory, with what it says. -/
structure Occupant where
  line : SourceLine
  statement : Statement
  /-- What the lines before it say. -/
  before : List Statement

/-- The lines that take memory among those behind the statements `before`. -/
def Outline.occupants (macros : MacroTable) : List Statement → List SourceLine → List Occupant
  | _, [] => []
  | before, l :: ls =>
    match Statement.read macros l.text with
    | .error _ => occupants macros before ls
    | .ok s =>
      if s.takesMemory then ⟨l, s, before⟩ :: occupants macros (before ++ [s]) ls
      else occupants macros (before ++ [s]) ls

/-! ### The rows of the second pass -/

namespace Listing

/-- The row of a line with the statement `s`, which comes behind the statements
`before`. -/
structure Row.IsOf (places : Text → Option (SymbolKind × Address)) (before : List Statement)
    (line : SourceLine) (s : Statement) (r : Row) : Prop where
  words : r.words = s.words places
  text : r.text = line.text
  code : s.isCode = true → ∃ a : Address, r.place = .code a ∧ a.toNat = codeBase + codeSize before
  data : s.isCode = false → r.place = .data (dataSize before)

/-- The rows of some lines that come behind the statements `before`. -/
inductive Follows (macros : MacroTable) (places : Text → Option (SymbolKind × Address)) :
    List Statement → List SourceLine → List Row → Prop
  | nil (before : List Statement) : Follows macros places before [] []
  | unread {before : List Statement} {l : SourceLine} {ls : List SourceLine} {rs : List Row}
      {f : Fault} (hread : Statement.read macros l.text = .error f)
      (hrest : Follows macros places before ls rs) : Follows macros places before (l :: ls) rs
  | skip {before : List Statement} {l : SourceLine} {ls : List SourceLine} {rs : List Row}
      {s : Statement} (hread : Statement.read macros l.text = .ok s)
      (hs : s.takesMemory = false) (hrest : Follows macros places (before ++ [s]) ls rs) :
      Follows macros places before (l :: ls) rs
  | row {before : List Statement} {l : SourceLine} {ls : List SourceLine} {rs : List Row}
      {s : Statement} {r : Row} (hread : Statement.read macros l.text = .ok s)
      (hs : s.takesMemory = true) (hr : r.IsOf places before l s)
      (hrest : Follows macros places (before ++ [s]) ls rs) :
      Follows macros places before (l :: ls) (r :: rs)

end Listing

namespace Encoder

variable {e : Encoder} {t : SymbolTable} {ss : List Statement}

/-- **The row of a statement that takes memory**, if its code still fits. -/
theorem Describes.place_row (h : e.Describes t ss) (line : SourceLine) {s : Statement}
    (hs : s.takesMemory = true) (hfits : codeBase + codeSize (ss ++ [s]) ≤ memorySize) :
    ∃ r, (e.place line s).rows = e.rows ++ [r] ∧ r.IsOf t.place? ss line s := by
  have hcode := h.length_code
  have hdata := h.length_data
  cases s with
  | blank => cases hs
  | comment => cases hs
  | instruction label i =>
    have hcount : codeSize (ss ++ [.instruction label i]) = codeSize ss + i.wordCount := by
      simp [Statement.codeSize]
    have hpos := i.wordCount_pos
    rw [hcount] at hfits
    have hlt : codeBase + e.image.code.length < memorySize := by omega
    have hrow := addCode_eq e line i hlt (by rw [i.length_slots]; omega)
    refine ⟨_, congrArg Encoder.rows hrow, ?_, rfl,
      fun _ => ⟨_, rfl, congrArg (codeBase + ·) hcode⟩, fun h => by cases h⟩
    rw [h.places]
    rfl
  | directive label d =>
    have hrow : (e.place line (.directive label d)).rows =
        e.rows ++ [⟨.data e.image.data.length, d.dataCells.map Word.data, line.text⟩] := by
      cases d with
      | data vs => rfl
      | string t => rfl
      | matrix dimensions vs => rfl
      | entry n => cases hs
      | external n => cases hs
    exact ⟨_, hrow, rfl, rfl, fun h => (by cases h), fun _ => by rw [hdata]⟩

theorem addEntry_rows (e : Encoder) (line : Nat) (n : Text) : (e.addEntry line n).rows = e.rows := by
  unfold addEntry
  split <;> rfl

/-- A statement that takes no memory has no row. -/
theorem place_rows_of_not_takesMemory (e : Encoder) (line : SourceLine) {s : Statement}
    (hs : s.takesMemory = false) : (e.place line s).rows = e.rows := by
  cases s with
  | blank => rfl
  | comment => rfl
  | instruction label i => cases hs
  | directive label d =>
    cases d with
    | data vs => cases hs
    | string t => cases hs
    | matrix dimensions vs => cases hs
    | entry n => exact e.addEntry_rows line.origin n
    | external n => rfl

theorem close_rows (l : Layout) (e : Encoder) : (close l e).rows = e.rows := by
  unfold close
  split <;> rfl

/-- **The rows of a program that fits.** The induction is over the lines; what was
written before them is known from `Describes`. -/
theorem Describes.follows (macros : MacroTable) {t : SymbolTable} : ∀ (lines : List SourceLine)
    (e : Encoder) (before : List Statement), e.Describes t before → e.report.isFatal = false →
      codeBase + codeSize (before ++ statements macros lines) ≤ memorySize →
      ∃ rows, (run macros e lines).rows = e.rows ++ rows ∧
        Listing.Follows macros t.place? before lines rows
  | [], e, before, _, _, _ => ⟨[], (List.append_nil _).symm, .nil before⟩
  | line :: lines, e, before, h, he, hfits => by
    rw [statements_cons, ← List.append_assoc] at hfits
    have hfirst : codeBase +
        codeSize (before ++ (Statement.read macros line.text).toOption.toList) ≤ memorySize := by
      rw [codeSize_append] at hfits
      omega
    have hstep := (step_describes h line hfirst).1
    obtain ⟨rows, hrows, hfollows⟩ :=
      Describes.follows macros lines _ _ hstep (h.step_not_fatal line he hfirst) hfits
    have hrun : run macros e (line :: lines) = run macros (step macros e line) lines := by
      simp [run, he]
    rw [hrun, hrows]
    cases hread : Statement.read macros line.text with
    | error f =>
      have hsame : step macros e line = e := by simp [step, hread]
      rw [hread] at hfollows
      rw [hsame]
      exact ⟨rows, rfl, .unread hread (by simpa [Except.toOption] using hfollows)⟩
    | ok s =>
      have hplace : step macros e line = e.place line s := by simp [step, hread]
      rw [hread] at hfollows hfirst
      rw [hplace]
      by_cases hs : s.takesMemory = true
      · obtain ⟨r, hr, hof⟩ := h.place_row line hs hfirst
        exact ⟨r :: rows, by rw [hr]; simp, .row hread hs hof hfollows⟩
      · have hs : s.takesMemory = false := by simpa using hs
        exact ⟨rows, by rw [e.place_rows_of_not_takesMemory line hs], .skip hread hs hfollows⟩

end Encoder

/-! ### Printed rows -/

namespace Listing

/-- The words of one printed row, each behind a blank. -/
def PrintedRow (values : List Nat) (t : Text) : Prop :=
  ∃ numerals, List.Forall₂ (IsNumeral 5) values numerals ∧ t = numerals.flatMap (' ' :: ·)

/-- Words printed three to a row. Every row but the first is indented by the width
of an address, and `n` words are in the last one. -/
inductive PrintedRows : List Nat → (n : Nat) → Text → Prop
  | last {values : List Nat} {t : Text} (hpos : 0 < values.length) (hle : values.length ≤ columns)
      (ht : PrintedRow values t) : PrintedRows values values.length t
  | more {row values : List Nat} {n : Nat} {t u : Text} (hrow : row.length = columns)
      (ht : PrintedRow row t) (hu : PrintedRows values n u) :
      PrintedRows (row ++ values) n (t ++ '\n' :: List.replicate 8 ' ' ++ u)

/-- The text `t` shows an address in decimal and in letters, then words, and then,
behind all columns, the text of a line. -/
def Shows (t : Text) (address : Nat) (values : List Nat) (line : Text) : Prop :=
  ∃ decimal letters words n,
    t = decimal ++ ' ' :: letters ++ words ++ List.replicate ((columns - n) * columnWidth) ' ' ++
      ' ' :: ' ' :: Text.trim line ++ ['\n'] ∧
    decimal.length = 3 ∧ Decimal.Writes decimal address ∧ IsNumeral 4 address letters ∧
    PrintedRows values n words

/-- The numbers in the cells of some words. -/
def values (ws : List Word) : List Nat := ws.map fun w => w.cell.toNat

theorem printedRow (ws : List Word) :
    PrintedRow (values ws) (ws.flatMap fun w => ' ' :: w.cell.letters) := by
  refine ⟨ws.map fun w => w.cell.letters, ?_, by rw [List.flatMap_map]⟩
  rw [values, List.forall₂_map_left_iff, List.forall₂_map_right_iff, List.forall₂_same]
  exact fun w _ => ⟨w.cell.length_letters, w.cell.decode_letters⟩

/-- What comes before the first word of a row that starts when `n` words have been
printed. -/
def rowStart (n : Nat) : Text := if 0 < n then '\n' :: List.replicate 8 ' ' else []

theorem inLastRow_of_le {n : Nat} (hpos : 0 < n) (hle : n ≤ columns) : inLastRow n = n := by
  unfold columns at hle
  unfold inLastRow columns
  rw [if_neg (by omega)]
  omega

theorem inLastRow_add_columns {n : Nat} (hpos : 0 < n) :
    inLastRow (columns + n) = inLastRow n := by
  unfold inLastRow columns
  rw [if_neg (by omega), if_neg (by omega)]
  omega

/-- Words that do not start a row. -/
theorem wordsText_within : ∀ (ws rest : List Word) (n : Nat),
    (∀ i < ws.length, (n + i) % columns ≠ 0) →
      wordsText n (ws ++ rest) =
        ws.flatMap (fun w => ' ' :: w.cell.letters) ++ wordsText (n + ws.length) rest
  | [], _, _, _ => rfl
  | w :: ws, rest, n, h => by
    have hfirst : n % columns ≠ 0 := h 0 (Nat.succ_pos _)
    have ih := wordsText_within ws rest (n + 1) fun i hi => by
      have hnext := h (i + 1) (Nat.succ_lt_succ hi)
      rwa [Nat.add_assoc, Nat.add_comm 1 i]
    rw [List.cons_append, wordsText, if_neg (fun hc => hfirst hc.2), ih, List.length_cons,
      Nat.add_assoc, Nat.add_comm 1]
    simp

/-- The words of a row that starts behind `k` full rows. -/
theorem wordsText_row (k : Nat) (w : Word) (ws rest : List Word) (hws : ws.length < columns) :
    wordsText (columns * k) (w :: ws ++ rest) =
      rowStart (columns * k) ++ (w :: ws).flatMap (fun w => ' ' :: w.cell.letters) ++
        wordsText (columns * k + 1 + ws.length) rest := by
  have hwithin := wordsText_within ws rest (columns * k + 1) fun i hi => by
    unfold columns at hws ⊢
    omega
  rw [List.cons_append, wordsText, hwithin, Nat.mul_mod_right]
  simp [rowStart]

/-- **Words are printed three to a row.** The induction goes from one row to the
next. -/
theorem wordsText_printed : ∀ (k : Nat) (ws : List Word), ws ≠ [] →
    ∃ t, wordsText (columns * k) ws = rowStart (columns * k) ++ t ∧
      PrintedRows (values ws) (inLastRow ws.length) t
  | _, [], hws => absurd rfl hws
  | k, w :: tail, _ => by
    by_cases hlast : tail.length < columns
    · have hrow := wordsText_row k w tail [] hlast
      rw [List.append_nil, wordsText, List.append_nil] at hrow
      refine ⟨_, hrow, ?_⟩
      have hlength : (values (w :: tail)).length = (w :: tail).length := List.length_map _
      have hpos : 0 < (w :: tail).length := Nat.succ_pos _
      have hle : (w :: tail).length ≤ columns := hlast
      rw [inLastRow_of_le hpos hle, ← hlength]
      exact .last (hlength ▸ hpos) (hlength ▸ hle) (printedRow _)
    -- two more words fill this row, and there are words left for the next
    · have hlong : 3 ≤ tail.length := by
        unfold columns at hlast
        omega
      have hrest : tail.drop 2 ≠ [] := by
        rw [← List.length_pos_iff, List.length_drop]
        omega
      have htake : (tail.take 2).length = 2 := List.length_take_of_le (by omega)
      have hsplit : w :: tail = w :: tail.take 2 ++ tail.drop 2 := by simp
      have hfull : (w :: tail.take 2).length = columns := congrArg (· + 1) htake
      have hcount : (w :: tail).length = columns + (tail.drop 2).length := by
        rw [← hfull, ← List.length_append, ← hsplit]
      have hvalues : values (w :: tail) = values (w :: tail.take 2) ++ values (tail.drop 2) := by
        rw [values, values, values, ← List.map_append, ← hsplit]
      have hstart : rowStart (columns * (k + 1)) = '\n' :: List.replicate 8 ' ' :=
        if_pos (Nat.mul_pos (by decide) (Nat.succ_pos k))
      have hrow := wordsText_row k w (tail.take 2) (tail.drop 2) (by rw [htake]; decide)
      rw [htake] at hrow
      obtain ⟨t, ht, hprinted⟩ := wordsText_printed (k + 1) (tail.drop 2) hrest
      rw [hstart] at ht
      refine ⟨(w :: tail.take 2).flatMap (fun w => ' ' :: w.cell.letters) ++
        '\n' :: List.replicate 8 ' ' ++ t, ?_, ?_⟩
      · rw [hsplit, hrow]
        simp only [List.append_assoc]
        exact congrArg _ (congrArg _ ht)
      · rw [hcount, inLastRow_add_columns (List.length_pos_iff.2 hrest), hvalues]
        exact .more ((List.length_map _).trans hfull) (printedRow _) hprinted
termination_by _ ws => ws.length
decreasing_by
  rw [List.length_drop, List.length_cons]
  omega

/-! ### Addresses -/

/-- An address of a program has three decimal digits. -/
theorem length_write {a : Address} (ha : codeBase ≤ a.toNat) :
    (Decimal.write a.toNat).length = 3 := by
  have hle : (Decimal.write a.toNat).length ≤ 3 ↔ a.toNat < 10 ^ 3 :=
    Nat.length_toDigits_le_iff (by decide) (by decide)
  have hgt : (Decimal.write a.toNat).length ≤ 2 ↔ a.toNat < 10 ^ 2 :=
    Nat.length_toDigits_le_iff (by decide) (by decide)
  have hlt := a.isLt
  unfold memorySize at hlt
  unfold codeBase at ha
  omega

/-- **What a row looks like**, if it has an address and words. -/
theorem rowText_shows {l : Listing} {r : Row} {a : Address} (hr : l.address? r = some a)
    (ha : codeBase ≤ a.toNat) (hwords : r.words ≠ []) :
    Shows (l.rowText r) a.toNat (values r.words) r.text := by
  obtain ⟨t, ht, hprinted⟩ := wordsText_printed 0 r.words hwords
  have hdecimal := length_write ha
  refine ⟨Decimal.write a.toNat, a.letters, t, inLastRow r.words.length, ?_, hdecimal,
    Decimal.writes_write _, ⟨a.length_letters, a.decode_letters⟩, hprinted⟩
  have haddress : addressText (some a) = Decimal.write a.toNat ++ ' ' :: a.letters := by
    rw [addressText, List.leftpad, hdecimal]
    rfl
  rw [Nat.mul_zero] at ht
  rw [rowText, hr, haddress, ht]
  rfl

/-- A row that shows an address starts with a numeral. -/
theorem Shows.not_unknown {t line : Text} {address : Nat} {values : List Nat}
    (h : Shows t address values line) : ¬ "???".toList <+: t := by
  obtain ⟨decimal, letters, words, n, rfl, hlength, hvalue, -, -⟩ := h
  intro hunknown
  simp only [List.append_assoc] at hunknown
  have hprefix := List.prefix_of_prefix_length_le hunknown (List.prefix_append decimal _)
    (Nat.le_of_eq hlength.symm)
  have hsame : "???".toList = decimal := hprefix.eq_of_length hlength.symm
  have hquestion := hvalue.digits '?' (hsame ▸ List.mem_cons_self)
  cases hquestion

end Listing

/-! ### Rows and lines -/

/-- **The rows and the lines that take memory belong together one by one.** -/
theorem Listing.Follows.forall₂ {macros : MacroTable}
    {places : Text → Option (SymbolKind × Address)} {R : Occupant → Row → Prop}
    {ss before : List Statement} {lines : List SourceLine} {rows : List Row}
    (h : Follows macros places before lines rows) (hss : ss = before ++ statements macros lines)
    (hR : ∀ before after line s r, ss = before ++ s :: after → s.takesMemory = true →
      r.IsOf places before line s → R ⟨line, s, before⟩ r) :
    List.Forall₂ R (occupants macros before lines) rows := by
  induction h with
  | nil before => exact .nil
  | unread hread hrest ih =>
    rw [occupants, hread]
    refine ih ?_
    rw [hss, statements_cons, hread]
    rfl
  | skip hread hs hrest ih =>
    rw [occupants, hread]
    simp only [hs]
    refine ih ?_
    rw [hss, statements_cons, hread]
    simp [Except.toOption]
  | row hread hs hr hrest ih =>
    have hsplit := hss
    rw [statements_cons, hread] at hsplit
    rw [occupants, hread]
    simp only [hs]
    exact .cons (hR _ _ _ _ _ hsplit hs hr) (ih (hsplit.trans (by simp [Except.toOption])))

namespace Program

variable {x : Expansion} {p : Program} {ss : List Statement}

/-- The row `r` of the listing shows a line of the program `ss`: the words are those
of its statement, they lie side by side in the image, from the cell on where the
statement starts, and the address is that of this cell. -/
structure Lists (p : Program) (ss : List Statement) (o : Occupant) (r : Listing.Row) : Prop where
  words : r.words = o.statement.words p.symbols.place?
  shown : ∃ a cells, a.toNat = codeBase + offset ss o.before o.statement ∧
    cells <+: p.image.cells.drop (offset ss o.before o.statement) ∧
    cells.head?.map Prod.fst = some a ∧ cells.map Prod.snd = r.words ∧
    p.listing.address? r = some a ∧
    Listing.Shows (p.listing.rowText r) a.toNat (Listing.values (cells.map Prod.snd)) o.line.text

/-- The rows of the listing are those of the lines. -/
theorem listing_follows (h : ofExpansion x = .ok p) :
    p.listing.dataStart = codeBase + codeSize (statements x.macros x.lines) ∧
      Listing.Follows x.macros p.symbols.place? [] x.lines p.listing.rows := by
  have ha := assembles_of_ok h
  obtain ⟨l, e, hldef, hl, hedef, hp⟩ := eq_of_ok h
  subst hldef
  have hx := ((Layout.isFatal_ofLines_iff x.macros x.report x.lines).1 hl).1
  obtain ⟨hfinished, -⟩ := Layout.ofLines_finished hx ha.fits
  have hfits : codeBase + codeSize ([] ++ statements x.macros x.lines) ≤ memorySize := by
    have hfits := ha.fits
    rw [Fits] at hfits
    rw [List.nil_append]
    omega
  obtain ⟨rows, hrows, hfollows⟩ :=
    Encoder.Describes.follows x.macros x.lines _ [] (Encoder.describes_start _) hl hfits
  have hall : e.rows = rows := by
    rw [hedef, Encoder.ofLayout, Encoder.close_rows, hrows]
    rfl
  rw [ha.places, hp]
  refine ⟨congrArg (codeBase + ·) hfinished.codeSize, ?_⟩
  rw [Encoder.listing, hall]
  exact hfollows

/-- **Every row shows its line.** -/
theorem Assembles.lists (h : Assembles x p)
    (hstart : p.listing.dataStart = codeBase + codeSize (statements x.macros x.lines))
    {before after : List Statement} {line : SourceLine} {s : Statement} {r : Listing.Row}
    (hss : statements x.macros x.lines = before ++ s :: after) (hs : s.takesMemory = true)
    (hr : r.IsOf p.symbols.place? before line s) :
    p.Lists (statements x.macros x.lines) ⟨line, s, before⟩ r := by
  obtain ⟨front, a, w, rest, back, hcells, hfront, ha, hwords⟩ := h.cells_split hss hs
  have hdrop : p.image.cells.drop (offset (statements x.macros x.lines) before s) =
      (a, w) :: rest ++ back := by
    rw [hcells, List.append_assoc, ← hfront, List.drop_left]
  have haddress : p.listing.address? r = some a := by
    have hsum := ha
    unfold offset at hsum
    by_cases hcode : s.isCode = true
    · obtain ⟨b, hplace, hb⟩ := hr.code hcode
      rw [if_pos hcode] at hsum
      rw [Listing.address?, hplace]
      exact congrArg some (Address.eq_of_toNat (hb.trans hsum.symm))
    · have hplace := hr.data (by simpa using hcode)
      rw [if_neg hcode, ← Nat.add_assoc, ← hstart] at hsum
      rw [Listing.address?, hplace]
      simp only [← hsum]
      exact dif_pos a.isLt
  have hmap : ((a, w) :: rest).map Prod.snd = r.words := hwords.trans hr.words.symm
  have hne : r.words ≠ [] := hmap ▸ List.cons_ne_nil _ _
  have hbase : codeBase ≤ a.toNat := by omega
  refine ⟨hr.words, a, (a, w) :: rest, ha, ⟨back, hdrop.symm⟩, rfl, hmap, haddress, ?_⟩
  rw [hmap, ← hr.text]
  exact Listing.rowText_shows haddress hbase hne

/-! ### The words of all rows -/

/-- The lines of one kind say the statements of that kind. -/
theorem map_occupants_filter {kind : Statement → Bool} (macros : MacroTable)
    (hkind : ∀ s, kind s = true → s.takesMemory = true) :
    ∀ (lines : List SourceLine) (before : List Statement),
      ((occupants macros before lines).filter fun o => kind o.statement).map Occupant.statement =
        (statements macros lines).filter kind
  | [], _ => rfl
  | l :: ls, before => by
    rw [occupants, statements_cons]
    cases Statement.read macros l.text with
    | error f => exact map_occupants_filter macros hkind ls before
    | ok s =>
      have ih := map_occupants_filter macros hkind ls (before ++ [s])
      rw [List.filter_append, ← ih]
      by_cases hs : kind s = true
      · simp [Except.toOption, hs, hkind s hs]
      · by_cases hm : s.takesMemory = true <;> simp [Except.toOption, hs, hm]

/-- **The rows of one kind of lines have the words of the statements of that
kind.** -/
theorem flatMap_words_of_forall₂ {kind : Statement → Bool} {os : List Occupant}
    {rows : List Listing.Row} (h : List.Forall₂ (p.Lists ss) os rows) :
    ((os.zip rows).filter fun r => kind r.1.statement).flatMap (fun r => r.2.words) =
      ((os.filter fun o => kind o.statement).map Occupant.statement).flatMap
        (Statement.words p.symbols.place?) := by
  induction h with
  | nil => rfl
  | cons hr hrest ih =>
    rename_i o r os rows
    by_cases ho : kind o.statement = true
    · simp [ho, ih, hr.words]
    · simp [ho, ih]

theorem Lists.not_unknown {o : Occupant} {r : Listing.Row} (h : p.Lists ss o r) :
    ¬ "???".toList <+: p.listing.rowText r := by
  obtain ⟨-, a, cells, -, -, -, -, -, hshows⟩ := h
  exact hshows.not_unknown

/-- **The listing agrees with the image.** Behind its rows it has the symbol
table. The rows belong one by one to the lines that take memory; each shows the
address of the cell where its line starts, in decimal and in letters, and the
words that lie in the image from that cell on; the words of the instructions make
up the code, and those of the directives the data. No row has an unknown
address. -/
theorem listing_exact (h : ofExpansion x = .ok p) :
    p.listingText = (p.listing.rows.map p.listing.rowText).flatten ++
      "\nSymbol Table:\n".toList ++ p.symbols.text ∧
    List.Forall₂ (p.Lists (statements x.macros x.lines)) (occupants x.macros [] x.lines)
      p.listing.rows ∧
    (((occupants x.macros [] x.lines).zip p.listing.rows).filter fun r =>
      r.1.statement.isCode).flatMap (fun r => r.2.words) = p.image.code ∧
    (((occupants x.macros [] x.lines).zip p.listing.rows).filter fun r =>
      r.1.statement.isData).flatMap (fun r => r.2.words) = p.image.data ∧
    ∀ r ∈ p.listing.rows, ¬ "???".toList <+: p.listing.rowText r := by
  have ha := assembles_of_ok h
  obtain ⟨hstart, hfollows⟩ := listing_follows h
  have hlists : List.Forall₂ (p.Lists (statements x.macros x.lines))
      (occupants x.macros [] x.lines) p.listing.rows :=
    hfollows.forall₂ rfl fun before after line s r hss hs hr => ha.lists hstart hss hs hr
  have hknown := (List.forall₂_and_left _ _).1
    (hlists.flip.imp fun r o ho => And.intro (Lists.not_unknown ho) ho)
  refine ⟨?_, hlists, ?_, ?_, hknown.1⟩
  · rw [listingText, Listing.text, List.flatMap_def]
  · rw [flatMap_words_of_forall₂ hlists, map_occupants_filter, flatMap_words_filter_isCode, ha.code]
    exact fun s hs => by simp [Statement.takesMemory, hs]
  · rw [flatMap_words_of_forall₂ hlists, map_occupants_filter, flatMap_words_filter_isData, ha.data]
    exact fun s hs => by simp [Statement.takesMemory, hs]

theorem listing_exact_sample : ∃ p, ofExpansion sample = .ok p ∧
    List.Forall₂ (p.Lists (statements sample.macros sample.lines))
      (occupants sample.macros [] sample.lines) p.listing.rows ∧
    p.listing.rows.length = 7 := by
  obtain ⟨p, hp⟩ := sample_ok
  have hlists := (listing_exact hp).2.1
  exact ⟨p, hp, hlists, hlists.length_eq.symm⟩

end Program
end TenBit
