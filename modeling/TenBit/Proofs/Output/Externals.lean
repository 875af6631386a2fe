/-
# The externals file lists the external references

A word of code is fixed, or it stands for a name: then it is left open if the
name is external and holds an address of the program if not. The last letter of
a word in the object file is its tag, so a reader of the object file sees which
words are open, and the externals file has their addresses and names.

Key definitions: `Linkage.letter`, `ExternalsFile.rows?`, `ExternalsFile.Marks`.
Key theorems: `Word.getLast?_letters`, `Program.Assembles.word_cases`,
`Program.Assembles.mem_references_iff`, `Program.Assembles.marks`,
`Program.externals_exact`.
-/
import TenBit.Proofs.Output.Object
import TenBit.Proofs.Program.Disassembly
import TenBit.Proofs.Program.Shift

namespace TenBit

/-! ### The last letter of a word -/

/-- The letter of a tag. -/
def Linkage.letter : Linkage → Char
  | .absolute => 'a'
  | .external => 'b'
  | .relocatable => 'c'

theorem Linkage.letter_eq_b_iff {t : Linkage} : some t.letter = some 'b' ↔ t = .external := by
  cases t <;> decide

theorem Linkage.letter_eq_c_iff {t : Linkage} : some t.letter = some 'c' ↔ t = .relocatable := by
  cases t <;> decide

namespace Word

theorem toNat_mod_four (c : Cell) : c.toNat % 4 = (c.field 0 2).toNat := by
  rw [Cell.field, BitVec.extractLsb'_toNat, Nat.shiftRight_zero]
  rfl

theorem field_zero_of_ne_data {w : Word} (h : w.kind ≠ .data) : w.cell.field 0 2 = w.tag.code := by
  cases w with
  | first o s d t => exact field_tag _ _
  | immediate v t => exact field_tag _ _
  | registers s d t => exact field_tag _ _
  | address a t => exact field_tag _ _
  | matrixRegisters r c t => exact field_tag _ _
  | data c => exact absurd rfl h

/-- **The last letter of a word of code is the letter of its tag.** -/
theorem getLast?_letters {w : Word} (h : w.kind ≠ .data) :
    w.cell.letters.getLast? = some w.tag.letter := by
  have hdigit : w.cell.toNat % 4 = w.tag.code.toNat := by
    rw [toNat_mod_four, field_zero_of_ne_data h]
  rw [Cell.letters, Quaternary.getLast?_letters, Quaternary.letter, hdigit]
  cases w.tag <;> rfl

end Word

/-- An external name leaves its word open. -/
theorem Disassembly.AddressWord.tag {t : SymbolTable} {n : Text} {w : Word}
    (h : AddressWord t n w) : ∃ s, t.get? n = some s ∧ w.kind ≠ .data ∧
      (w.tag = .external ↔ s.kind = .external) ∧ (w.tag = .relocatable ↔ s.kind ≠ .external) ∧
      (s.kind = .external → w = .address .zero .external) := by
  obtain ⟨s, hs, rfl⟩ := h
  refine ⟨s, hs, ?_⟩
  by_cases hk : s.kind = .external
  · simp [hk, Word.kind, Word.tag]
  · simp [hk, Word.kind, Word.tag]

namespace ExternalsFile

/-! ### What a reader sees -/

/-- The rows of an externals file. Without references there is no file. -/
def rows? : Option Text → Option (List (Text × Text))
  | none => some []
  | some t => Rows.read? t

/-- What the last letter of row `k` of the code says, if the statements, the
symbols and the rows of the externals file are as given: the word is open and its
address is in the externals file, or it is the address of a name of the program,
or neither. -/
structure Marks (ss : List Statement) (symbols : SymbolTable) (externals : List (Text × Text))
    (k : Nat) (row : Text × Text) : Prop where
  isExternal : row.2.getLast? = some 'b' ↔ ∃ n, (n, row.1) ∈ externals
  isOpen : row.2.getLast? = some 'b' → row.2 = "aaaab".toList
  isOwn : row.2.getLast? = some 'c' ↔
    ∃ n s, Outline.UsedAt ss n k ∧ symbols.get? n = some s ∧ s.kind ≠ .external
  isTag : row.2.getLast? ≠ some 'd'

end ExternalsFile

namespace Image

open ExternalsFile

/-- The row of a reference. -/
def referenceRow (r : Reference) : Text × Text := (r.name, r.address.letters)

theorem externalsText?_eq_none_iff {i : Image} : i.externalsText? = none ↔ i.references = [] := by
  unfold externalsText?
  split
  · rename_i h
    exact iff_of_true rfl h
  · rename_i h
    exact iff_of_false nofun h

theorem rows?_externalsText? {i : Image} (h : ∀ r ∈ i.references, Rows.Plain r.name) :
    rows? i.externalsText? = some (i.references.map referenceRow) := by
  unfold externalsText?
  split
  · rename_i hnone
    rw [hnone]
    rfl
  · have hlines : (i.references.flatMap fun r => r.name ++ ' ' :: r.address.letters ++ ['\n']) =
        (i.references.map referenceRow).flatMap Rows.line := by
      rw [List.flatMap_map]
      rfl
    rw [rows?, hlines]
    apply Rows.read?_flatMap_line
    intro row hrow
    obtain ⟨r, hr, rfl⟩ := List.mem_map.1 hrow
    exact ⟨h r hr, plain_letters 4 _⟩

/-- The address of a row is in the externals file if there is a reference at the
address. -/
theorem mem_map_referenceRow_iff {rs : List Reference} {n : Text} {a : Address} :
    (n, a.letters) ∈ rs.map referenceRow ↔ ⟨n, a⟩ ∈ rs := by
  rw [List.mem_map]
  constructor
  · rintro ⟨⟨m, b⟩, hr, he⟩
    obtain ⟨hm, hb⟩ := Prod.mk.inj he
    have hab : b = a := Address.eq_of_letters hb
    subst hm hab
    exact hr
  · intro hr
    exact ⟨⟨n, a⟩, hr, rfl⟩

end Image

namespace Program

open Outline ExternalsFile Image

variable {x : Expansion} {p : Program}

/-! ### The words of a program -/

/-- **A word of code is fixed or stands for a name.** -/
theorem Assembles.word_cases (h : Assembles x p) {k : Nat} {w : Word}
    (hw : p.image.code[k]? = some w) :
    (w.Fixed ∧ ∀ n, ¬ UsedAt (statements x.macros x.lines) n k) ∨
      ∃ n, UsedAt (statements x.macros x.lines) n k ∧ Disassembly.AddressWord p.symbols n w := by
  rw [h.code, List.getElem?_map] at hw
  obtain ⟨slot, hslot, rfl⟩ := Option.map_eq_some_iff.1 hw
  have hmem := List.mem_of_getElem? hslot
  cases slot with
  | word w =>
    refine .inl ⟨?_, fun n hn => ?_⟩
    · obtain ⟨s, -, hs⟩ := List.mem_flatMap.1 hmem
      cases s with
      | instruction label i => exact Instruction.fixed_of_mem_slots hs
      | blank => cases hs
      | comment => cases hs
      | directive label d => cases hs
    · rw [← getElem?_slots_iff, hslot] at hn
      cases hn
  | reference n =>
    refine .inr ⟨n, getElem?_slots_iff.1 hslot, Disassembly.addressWord_fill ?_⟩
    obtain ⟨s, hs⟩ := h.movable _ hmem
    rw [SymbolTable.place?, hs]
    exact Option.some_ne_none _

theorem Assembles.word_of_usedAt (h : Assembles x p) {k : Nat} {n : Text}
    (hn : UsedAt (statements x.macros x.lines) n k) :
    ∃ w, p.image.code[k]? = some w ∧ Disassembly.AddressWord p.symbols n w := by
  have hlt : k < p.image.code.length := by
    rw [h.length_code, ← length_slots]
    exact (List.getElem?_eq_some_iff.1 (getElem?_slots_iff.2 hn)).1
  have hw := List.getElem?_eq_getElem hlt
  refine ⟨_, hw, ?_⟩
  rcases h.word_cases hw with ⟨-, hnone⟩ | ⟨m, hm, haddress⟩
  · exact absurd hn (hnone n)
  · rw [UsedAt.unique hn hm]
    exact haddress

/-- **The references are the open words**, with the names they stand for. -/
theorem Assembles.mem_references_iff (h : Assembles x p) {n : Text} {a : Address} :
    ⟨n, a⟩ ∈ p.image.references ↔ ∃ k w, a.toNat = codeBase + k ∧ p.image.code[k]? = some w ∧
      w.tag = .external ∧ UsedAt (statements x.macros x.lines) n k := by
  rw [h.references, Slot.mem_references_iff]
  constructor
  · rintro ⟨k, hslot, hplace, ha⟩
    have hn := getElem?_slots_iff.1 hslot
    obtain ⟨w, hw, haddress⟩ := h.word_of_usedAt hn
    obtain ⟨s, hs, -, htag, -, -⟩ := haddress.tag
    rw [SymbolTable.place?, hs] at hplace
    have htoNat := Address.advance?_eq_some_iff.1 ha
    exact ⟨k, w, by rw [htoNat, Nat.zero_add]; rfl, hw, htag.2 (Option.some.inj hplace), hn⟩
  · rintro ⟨k, w, ha, hw, htag, hn⟩
    obtain ⟨w', hw', haddress⟩ := h.word_of_usedAt hn
    cases hw.symm.trans hw'
    obtain ⟨s, hs, -, hexternal, -, -⟩ := haddress.tag
    refine ⟨k, getElem?_slots_iff.2 hn, ?_, ?_⟩
    · rw [SymbolTable.place?, hs, Option.map_some, Option.map_some, hexternal.1 htag]
    · rw [Nat.zero_add]
      exact Address.advance?_eq_some_iff.2 ha

theorem Assembles.external_of_reference (h : Assembles x p) {r : Reference}
    (hr : r ∈ p.image.references) :
    ∃ s, p.symbols.get? r.name = some s ∧ s.kind = .external := by
  obtain ⟨n, a⟩ := r
  obtain ⟨k, w, -, hw, htag, hn⟩ := h.mem_references_iff.1 hr
  obtain ⟨w', hw', haddress⟩ := h.word_of_usedAt hn
  cases hw.symm.trans hw'
  obtain ⟨s, hs, -, hexternal, -, -⟩ := haddress.tag
  exact ⟨s, hs, hexternal.1 htag⟩

/-- An external name is declared, so it can stand in a row. -/
theorem Assembles.plain_of_reference (h : Assembles x p) {r : Reference}
    (hr : r ∈ p.image.references) : Rows.Plain r.name := by
  obtain ⟨s, hs, hk⟩ := h.external_of_reference hr
  obtain ⟨hmem, hname⟩ := SymbolTable.get?_eq_some_iff.1 hs
  obtain ⟨b, hb, hbname, hbkind, -, -⟩ := h.binding_of_symbol hmem
  have hdeclared : r.name ∈ externals (statements x.macros x.lines) :=
    mem_externals_iff.2 ⟨b, hb, hbname.symm.trans hname, hbkind.symm.trans hk⟩
  obtain ⟨s', hs', hn⟩ := List.mem_filterMap.1 hdeclared
  obtain ⟨line, -, hread⟩ := mem_statements_iff.1 hs'
  obtain ⟨label, rfl⟩ : ∃ label, s' = .directive label (.external r.name) := by
    unfold Statement.externalName? at hn
    split at hn
    · cases hn
      exact ⟨_, rfl⟩
    · cases hn
  exact Rows.plain_of_isAlphanum (Statement.isLabel_of_read hread rfl).isAlphanum

/-! ### The rows of a program -/

/-- The row of a word of code. -/
theorem Assembles.row_of_word (h : Assembles x p) {k : Nat} {w : Word}
    (hw : p.image.code[k]? = some w) :
    ∃ a : Address, (p.image.cells.map cellRow)[k]? = some (a.letters, w.cell.letters) ∧
      a.toNat = codeBase + k := by
  obtain ⟨hk, -⟩ := List.getElem?_eq_some_iff.1 hw
  obtain ⟨a, hcell, ha⟩ := getElem?_cells h.image_fits
    ((List.getElem?_append_left hk).trans hw)
  exact ⟨a, by rw [List.getElem?_map, hcell, Option.map_some, cellRow], ha⟩

/-- **Every row of code is marked as its word is used.** -/
theorem Assembles.marks (h : Assembles x p) {k : Nat} {row : Text × Text}
    (hk : k < p.image.code.length) (hrow : (p.image.cells.map cellRow)[k]? = some row) :
    Marks (statements x.macros x.lines) p.symbols (p.image.references.map referenceRow) k row := by
  have hw := List.getElem?_eq_getElem hk
  obtain ⟨a, hrow', ha⟩ := h.row_of_word hw
  cases hrow.symm.trans hrow'
  have hreferences : (∃ n, (n, a.letters) ∈ p.image.references.map referenceRow) ↔
      (p.image.code[k]).tag = .external ∧ ∃ n, UsedAt (statements x.macros x.lines) n k := by
    simp only [mem_map_referenceRow_iff, h.mem_references_iff]
    constructor
    · rintro ⟨n, k', w, ha', hw', htag, hn⟩
      obtain rfl : k' = k := by omega
      cases hw.symm.trans hw'
      exact ⟨htag, n, hn⟩
    · rintro ⟨htag, n, hn⟩
      exact ⟨n, k, _, ha, hw, htag, hn⟩
  rcases h.word_cases hw with ⟨⟨htag, hkind⟩, hnone⟩ | ⟨n, hn, haddress⟩
  · have hlast := Word.getLast?_letters hkind
    rw [htag] at hlast hreferences
    constructor
    case isExternal =>
      rw [hlast, hreferences]
      exact iff_of_false (by decide) (by rintro ⟨⟨⟩, -⟩)
    case isOpen =>
      rw [hlast]
      exact fun hb => absurd hb (by decide)
    case isOwn =>
      rw [hlast]
      refine iff_of_false (by decide) ?_
      rintro ⟨n, s, hn, -⟩
      exact hnone n hn
    case isTag =>
      rw [hlast]
      decide
  · obtain ⟨s, hs, hkind, hexternal, hown, hopen⟩ := haddress.tag
    have hlast := Word.getLast?_letters hkind
    constructor
    case isExternal =>
      rw [hlast, hreferences, Linkage.letter_eq_b_iff]
      exact (and_iff_left ⟨n, hn⟩).symm
    case isOpen =>
      rw [hlast, Linkage.letter_eq_b_iff]
      intro htag
      rw [hopen (hexternal.1 htag)]
      rfl
    case isOwn =>
      rw [hlast, Linkage.letter_eq_c_iff, hown]
      constructor
      · intro hk
        exact ⟨n, s, hn, hs, hk⟩
      · rintro ⟨m, s', hm, hs', hk⟩
        rw [UsedAt.unique hm hn, hs] at hs'
        cases hs'
        exact hk
    case isTag =>
      rw [hlast]
      cases (p.image.code[k]).tag <;> decide

/-- There are references exactly if some row of code is marked as open. -/
theorem Assembles.references_eq_nil_iff (h : Assembles x p) : p.image.references = [] ↔
    ∀ row ∈ (p.image.cells.map cellRow).take p.image.code.length,
      row.2.getLast? ≠ some 'b' := by
  constructor
  · intro hnone row hrow hb
    obtain ⟨k, hk⟩ := List.mem_iff_getElem?.1 hrow
    rw [List.getElem?_take] at hk
    split at hk
    · rename_i hlt
      obtain ⟨n, hn⟩ := (h.marks hlt hk).isExternal.1 hb
      rw [hnone] at hn
      cases hn
    · cases hk
  · intro hrows
    by_contra hsome
    obtain ⟨⟨n, a⟩, hr⟩ := List.exists_mem_of_ne_nil _ hsome
    obtain ⟨k, w, hak, hw, -, -⟩ := h.mem_references_iff.1 hr
    obtain ⟨hk, -⟩ := List.getElem?_eq_some_iff.1 hw
    obtain ⟨b, hrow, hb⟩ := h.row_of_word hw
    have hab : a = b := Address.eq_of_toNat (hak.trans hb.symm)
    have hlast := (h.marks hk hrow).isExternal.2 ⟨n, mem_map_referenceRow_iff.2 (hab ▸ hr)⟩
    refine hrows _ ?_ hlast
    apply List.mem_of_getElem? (i := k)
    rw [List.getElem?_take_of_lt hk]
    exact hrow

/-- **The externals file lists exactly the external references.** They are in the
order of their addresses; a reference is a word of code that was left open for an
operand, with the name of the operand, which is external. In the files, the last
letter of a row of code says whether its address is in the externals file, and
there is no such file if no row of code says so. -/
theorem externals_exact (h : ofExpansion x = .ok p) :
    (p.image.references.Pairwise fun r r' => r.address.toNat < r'.address.toNat) ∧
    (∀ n a, ⟨n, a⟩ ∈ p.image.references ↔ ∃ k w, a.toNat = codeBase + k ∧
      p.image.code[k]? = some w ∧ w.tag = .external ∧
        UsedAt (statements x.macros x.lines) n k) ∧
    (∀ r ∈ p.image.references, ∃ s, p.symbols.get? r.name = some s ∧ s.kind = .external) ∧
    ∃ heading rows externals, p.image.objectText?.bind Rows.read? = some (heading :: rows) ∧
      rows.length = p.image.code.length + p.image.data.length ∧
      rows? p.image.externalsText? = some externals ∧
      externals = p.image.references.map (fun r => (r.name, r.address.letters)) ∧
      (∀ k row, k < p.image.code.length → rows[k]? = some row →
        Marks (statements x.macros x.lines) p.symbols externals k row) ∧
      (p.image.externalsText? = none ↔
        ∀ row ∈ rows.take p.image.code.length, row.2.getLast? ≠ some 'b') := by
  have ha := assembles_of_ok h
  have hobject : p.image.objectText? = some p.image.objectText :=
    if_pos (sizesFit_of_fits ha.image_fits)
  have hlength : (p.image.cells.map cellRow).length =
      p.image.code.length + p.image.data.length := by
    rw [List.length_map, length_cells ha.image_fits]
  refine ⟨?_, fun n a => ha.mem_references_iff, fun r hr => ha.external_of_reference hr, ?_⟩
  · rw [ha.references]
    exact Slot.references_ascending 0 _
  refine ⟨p.image.headingRow, p.image.cells.map cellRow, p.image.references.map referenceRow, ?_,
    hlength, rows?_externalsText? fun r hr => ha.plain_of_reference hr, rfl,
    fun k row hk hrow => ha.marks hk hrow, ?_⟩
  · rw [hobject, Option.bind_some, read?_objectText]
  · rw [externalsText?_eq_none_iff]
    exact ha.references_eq_nil_iff

set_option maxRecDepth 10000 in
theorem sample_references : ∃ p, ofExpansion sample = .ok p ∧
    p.image.references = [⟨"X".toList, ⟨105, by decide⟩⟩] := ⟨_, rfl, rfl⟩

theorem externals_exact_sample : ∃ p, ofExpansion sample = .ok p ∧
    p.image.externalsText? ≠ none ∧
    (∃ k w, 105 = codeBase + k ∧ p.image.code[k]? = some w ∧ w.tag = .external ∧
      UsedAt (statements sample.macros sample.lines) "X".toList k) ∧
    ∃ s, p.symbols.get? "X".toList = some s ∧ s.kind = .external := by
  obtain ⟨p, hp, hreferences⟩ := sample_references
  obtain ⟨-, huses, hexternal, -⟩ := externals_exact hp
  have hmem : ⟨"X".toList, ⟨105, by decide⟩⟩ ∈ p.image.references := by
    rw [hreferences]
    exact List.mem_singleton_self _
  refine ⟨p, hp, ?_, (huses _ _).1 hmem, hexternal _ hmem⟩
  rw [Ne, externalsText?_eq_none_iff]
  exact List.ne_nil_of_mem hmem

end Program
end TenBit
