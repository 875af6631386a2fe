/-
# Where statements lie

The words of a program are those of its statements, all code before all data. So
a statement that takes memory has its words side by side in the cells: behind the
words of the instructions before it, or behind all the code and the data before
it. The symbol of a label is the first of these cells.

Key definitions: `Statement.takesMemory`, `Statement.words`, `Outline.offset`.
Key theorems: `Outline.flatMap_words_filter_isCode`,
`Program.Assembles.words_split`, `Program.Assembles.cells_split`,
`Program.Assembles.symbol_of_label`.
-/
import TenBit.Proofs.Output.Object
import TenBit.Proofs.Program.Symbols

namespace TenBit

namespace Statement

/-- The statement takes cells of memory. -/
def takesMemory (s : Statement) : Bool := s.isCode || s.isData

/-- The words of a statement, if the names have the given places. -/
def words (places : Text → Option (SymbolKind × Address)) : Statement → List Word
  | .instruction _ i => i.slots.map (Slot.fill places)
  | s => s.dataWords

theorem length_words (places : Text → Option (SymbolKind × Address)) (s : Statement) :
    (s.words places).length = s.codeSize + s.dataSize := by
  cases s with
  | blank => rfl
  | comment => rfl
  | instruction label i => simp [words, codeSize, dataSize, i.length_slots]
  | directive label d =>
    have hdata := length_dataWords (.directive label d)
    simpa [words, codeSize] using hdata

theorem words_of_isCode {s : Statement} (h : s.isCode = true)
    (places : Text → Option (SymbolKind × Address)) :
    s.words places = s.slots.map (Slot.fill places) := by
  cases s with
  | blank => cases h
  | comment => cases h
  | instruction label i => rfl
  | directive label d => cases h

theorem words_of_not_isCode {s : Statement} (h : ¬ s.isCode = true)
    (places : Text → Option (SymbolKind × Address)) : s.words places = s.dataWords := by
  cases s with
  | blank => rfl
  | comment => rfl
  | instruction label i => exact absurd rfl h
  | directive label d => rfl

theorem not_isCode_of_isData {s : Statement} (h : s.isData = true) : ¬ s.isCode = true := by
  cases s with
  | instruction label i => cases h
  | blank => nofun
  | comment => nofun
  | directive label d => nofun

theorem size_pos {s : Statement} (hs : s.Sound) (h : s.takesMemory = true) :
    0 < s.codeSize + s.dataSize := by
  cases s with
  | blank => cases h
  | comment => cases h
  | instruction label i => exact Nat.add_pos_left i.wordCount_pos _
  | directive label d => exact Nat.add_pos_right _ (hs h)

theorem takesMemory_of_label? {s : Statement} {n : Text} (h : s.label? = some n) :
    s.takesMemory = true := by
  cases s with
  | blank => cases h
  | comment => cases h
  | instruction label i => rfl
  | directive label d =>
    by_contra hd
    have hd : d.takesMemory = false := by simpa [takesMemory, isCode, isData] using hd
    simp [label?, hd] at h

/-- What a statement with a label binds. -/
theorem binding?_of_label? {s : Statement} {n : Text} (h : s.label? = some n) (code data : Nat) :
    ∃ b, s.binding? code data = some b ∧ b.name = n ∧ b.kind ≠ .external ∧
      (s.isCode = true ↔ b.kind.isData = false) ∧
      b.address = if s.isCode then code else data := by
  cases s with
  | blank => cases h
  | comment => cases h
  | instruction label i =>
    have hlabel : label = some n := h
    subst hlabel
    exact ⟨_, rfl, rfl, nofun, by simp [isCode, SymbolKind.isData], rfl⟩
  | directive label d =>
    have hd : d.takesMemory = true := takesMemory_of_label? h
    have hlabel : label = some n := by simpa [label?, hd] using h
    subst hlabel
    have hkind : (dataKind d).isData = true := by cases d <;> rfl
    refine ⟨_, binding?_of_takesMemory code data _ hd, rfl, dataKind_ne_external d, ?_, rfl⟩
    simp [isCode, hkind]

end Statement

namespace Outline

/-- The number of words that lie before those of a statement of the program `ss`
which comes behind the statements `before`. -/
def offset (ss before : List Statement) (s : Statement) : Nat :=
  if s.isCode then codeSize before else codeSize ss + dataSize before

theorem slots_split (before : List Statement) (s : Statement) (after : List Statement) :
    slots (before ++ s :: after) = slots before ++ s.slots ++ slots after := by
  simp [slots]

theorem dataWords_split (before : List Statement) (s : Statement) (after : List Statement) :
    dataWords (before ++ s :: after) = dataWords before ++ s.dataWords ++ dataWords after := by
  simp [dataWords]

/-! ### Each area by itself -/

/-- What is collected from some statements only does not depend on the others. -/
theorem flatMap_filter {α : Type} {view : Statement → List α} {q : Statement → Bool}
    (h : ∀ s, q s = false → view s = []) : ∀ ss : List Statement,
    (ss.filter q).flatMap view = ss.flatMap view
  | [] => rfl
  | s :: ss => by
    have ih := flatMap_filter h ss
    cases hs : q s with
    | true => rw [List.filter_cons_of_pos hs, List.flatMap_cons, List.flatMap_cons, ih]
    | false =>
      rw [List.filter_cons_of_neg (by simp [hs]), List.flatMap_cons, h s hs, ih, List.nil_append]

theorem slots_filter (ss : List Statement) : slots (ss.filter Statement.isCode) = slots ss := by
  apply flatMap_filter
  intro s hs
  cases s with
  | instruction label i => cases hs
  | blank => rfl
  | comment => rfl
  | directive label d => rfl

theorem dataWords_filter (ss : List Statement) :
    dataWords (ss.filter Statement.isData) = dataWords ss := by
  apply flatMap_filter
  intro s hs
  cases s with
  | instruction label i => rfl
  | blank => rfl
  | comment => rfl
  | directive label d =>
    cases d with
    | data vs => cases hs
    | string t => cases hs
    | matrix dimensions vs => cases hs
    | entry n => rfl
    | external n => rfl

/-- The words of the instructions are the slots, filled. -/
theorem flatMap_words_filter_isCode (places : Text → Option (SymbolKind × Address))
    (ss : List Statement) :
    (ss.filter Statement.isCode).flatMap (Statement.words places) =
      (slots ss).map (Slot.fill places) := by
  rw [← slots_filter, slots, List.map_flatMap]
  refine List.flatMap_congr fun s hs => ?_
  exact Statement.words_of_isCode (List.mem_filter.1 hs).2 places

/-- The words of the directives are the data. -/
theorem flatMap_words_filter_isData (places : Text → Option (SymbolKind × Address))
    (ss : List Statement) :
    (ss.filter Statement.isData).flatMap (Statement.words places) = dataWords ss := by
  rw [← dataWords_filter, dataWords]
  refine List.flatMap_congr fun s hs => ?_
  exact Statement.words_of_not_isCode (Statement.not_isCode_of_isData (List.mem_filter.1 hs).2) places

end Outline

/-- A cell of an image that fits into memory lies as many cells behind the base as
there are cells before it. -/
theorem Image.toNat_of_getElem?_cells {i : Image}
    (h : codeBase + (i.code ++ i.data).length ≤ memorySize) {k : Nat} {c : Address × Word}
    (hc : i.cells[k]? = some c) : c.1.toNat = codeBase + k := by
  have hword : (i.code ++ i.data)[k]? = some c.2 := by
    rw [← map_snd_cells h, List.getElem?_map, hc, Option.map_some]
  obtain ⟨a, ha, htoNat⟩ := getElem?_cells h hword
  rw [hc] at ha
  have hfirst : c.1 = a := congrArg Prod.fst (Option.some.inj ha)
  rw [hfirst, htoNat]

namespace Program

open Outline

variable {x : Expansion} {p : Program} {before after : List Statement} {s : Statement}

/-! ### Words -/

/-- **The words of a statement lie side by side in the image.** -/
theorem Assembles.words_split (h : Assembles x p)
    (hss : statements x.macros x.lines = before ++ s :: after) :
    ∃ front back, p.image.code ++ p.image.data = front ++ s.words p.symbols.place? ++ back ∧
      front.length = offset (statements x.macros x.lines) before s := by
  have hcode : p.image.code = (slots before).map (Slot.fill p.symbols.place?) ++
      s.slots.map (Slot.fill p.symbols.place?) ++
        (slots after).map (Slot.fill p.symbols.place?) := by
    rw [h.code, hss, slots_split, List.map_append, List.map_append]
  have hdata : p.image.data = dataWords before ++ s.dataWords ++ dataWords after := by
    rw [h.data, hss, dataWords_split]
  by_cases hs : s.isCode = true
  · have hwords := Statement.words_of_isCode hs p.symbols.place?
    refine ⟨(slots before).map (Slot.fill p.symbols.place?),
      (slots after).map (Slot.fill p.symbols.place?) ++ p.image.data, ?_, ?_⟩
    · rw [hcode, hwords, List.append_assoc]
    · rw [List.length_map, length_slots, offset, if_pos hs]
  · have hwords := Statement.words_of_not_isCode hs p.symbols.place?
    refine ⟨p.image.code ++ dataWords before, dataWords after, ?_, ?_⟩
    · rw [hdata, hwords]
      simp only [List.append_assoc]
    · rw [List.length_append, h.length_code, length_dataWords, offset, if_neg hs]

theorem Assembles.sound_of_split (hss : statements x.macros x.lines = before ++ s :: after) :
    s.Sound :=
  sound_of_mem_statements x.macros x.lines s (by simp [hss])

/-- **A statement takes a run of cells**, whose first address is known from the
statements before it. -/
theorem Assembles.cells_split (h : Assembles x p)
    (hss : statements x.macros x.lines = before ++ s :: after) (hs : s.takesMemory = true) :
    ∃ front a w rest back, p.image.cells = front ++ (a, w) :: rest ++ back ∧
      front.length = offset (statements x.macros x.lines) before s ∧
      a.toNat = codeBase + offset (statements x.macros x.lines) before s ∧
      w :: rest.map Prod.snd = s.words p.symbols.place? := by
  obtain ⟨front, back, hwords, hlength⟩ := h.words_split hss
  rw [← Image.map_snd_cells h.image_fits, List.append_assoc, List.map_eq_append_iff] at hwords
  obtain ⟨front', tail, hcells, hfront, htail⟩ := hwords
  obtain ⟨cells, back', rfl, hmap, -⟩ := List.map_eq_append_iff.1 htail
  have hcount : cells.length = s.codeSize + s.dataSize := by
    rw [← s.length_words p.symbols.place?, ← hmap, List.length_map]
  have hpos := Statement.size_pos (Assembles.sound_of_split hss) hs
  obtain ⟨⟨a, w⟩, rest, rfl⟩ := List.exists_cons_of_length_pos (hcount ▸ hpos)
  have hfrontLength : front'.length = front.length := by rw [← hfront, List.length_map]
  have hcell : p.image.cells[front'.length]? = some (a, w) := by
    rw [hcells, List.getElem?_append_right (Nat.le_refl _)]
    simp
  refine ⟨front', a, w, rest, back', ?_, hfrontLength.trans hlength, ?_, hmap⟩
  · rw [hcells, List.append_assoc]
  · rw [← hlength, ← hfrontLength]
    exact Image.toNat_of_getElem?_cells h.image_fits hcell

/-- The first cell of a statement that takes memory. -/
theorem Assembles.first_cell (h : Assembles x p)
    (hss : statements x.macros x.lines = before ++ s :: after) (hs : s.takesMemory = true) :
    ∃ a w, p.image.cells[offset (statements x.macros x.lines) before s]? = some (a, w) ∧
      a.toNat = codeBase + offset (statements x.macros x.lines) before s ∧
      (s.words p.symbols.place?).head? = some w := by
  obtain ⟨front, a, w, rest, back, hcells, hfront, ha, hwords⟩ := h.cells_split hss hs
  refine ⟨a, w, ?_, ha, ?_⟩
  · rw [hcells, ← hfront, List.append_assoc, List.getElem?_append_right (Nat.le_refl _)]
    simp
  · rw [← hwords]
    rfl

/-! ### Labels -/

/-- **The symbol of a label is the first cell of the statement that carries it.** -/
theorem Assembles.symbol_of_label (h : Assembles x p) {n : Text}
    (hss : statements x.macros x.lines = before ++ s :: after) (hn : s.label? = some n) :
    ∃ sym, p.symbols.get? n = some sym ∧ sym.kind ≠ .external ∧
      sym.address.toNat = codeBase + offset (statements x.macros x.lines) before s := by
  obtain ⟨b, hb, hname, hkind, hcode, haddress⟩ :=
    Statement.binding?_of_label? hn (codeBase + codeSize before) (dataSize before)
  have hmem : b ∈ bindings (statements x.macros x.lines) :=
    mem_bindings_iff.2 ⟨before, s, after, hss, hb⟩
  obtain ⟨sym, hsym, hc⟩ := h.mem_symbols_iff.2 ⟨b, hmem, rfl⟩
  have hsymName : sym.name = n := by
    have hnames := congrArg Binding.name hc
    simpa [Symbol.binding, hname] using hnames
  have hsymKind : sym.kind = b.kind := by simpa [Symbol.binding] using congrArg Binding.kind hc
  have hsymAddress : sym.address.toNat =
      (b.moved (codeBase + codeSize (statements x.macros x.lines))).address := by
    simpa [Symbol.binding] using congrArg Binding.address hc
  refine ⟨sym, SymbolTable.get?_eq_some_iff.2 ⟨hsym, hsymName⟩, hsymKind ▸ hkind, ?_⟩
  rw [hsymAddress, offset]
  by_cases hs : s.isCode = true
  · have hdata := hcode.1 hs
    rw [if_pos hs] at haddress ⊢
    simp [Binding.moved, hdata, haddress]
  · have hdata : b.kind.isData = true := by
      by_contra hne
      exact hs (hcode.2 (by simpa using hne))
    rw [if_neg hs] at haddress ⊢
    simp only [Binding.moved, hdata, if_true, haddress]
    omega

end Program
end TenBit
