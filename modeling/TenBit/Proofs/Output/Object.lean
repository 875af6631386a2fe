/-
# The object file tells the image

An object file is a row of the two sizes and a row for each cell, with its
address and its contents. The rows are cut off where memory ends and the sizes
have to be below 256; the words of a program that results fit into memory, so
neither matters for it. Then every row is read back as it was meant, and the file
determines the code and the data.

Key definitions: `ObjectFile.IsNumeral`, `ObjectFile.Listed`, `ObjectFile.Tells`.
Key theorems: `ObjectFile.Tells.unique`, `Image.getElem?_cells`,
`Image.objectText_tells`, `Program.object_told`.
-/
import TenBit.Proofs.Machine.Numerals
import TenBit.Proofs.Output.Rows
import TenBit.Proofs.Program.Assembly

namespace TenBit
namespace ObjectFile

/-! ### What a file says -/

/-- The text is a numeral of width `w` for the value `v`. -/
def IsNumeral (w v : Nat) (t : Text) : Prop := t.length = w ∧ Quaternary.decode t = .ok v

/-- The rows of an object file for the given code and data: the first has the two
sizes, and the others have the cells with their addresses, code before data. -/
structure Listed (heading : Text × Text) (rows : List (Text × Text)) (code data : List Cell) :
    Prop where
  codeSize : IsNumeral 4 code.length heading.1
  dataSize : IsNumeral 4 data.length heading.2
  length : rows.length = code.length + data.length
  cell : ∀ k c, (code ++ data)[k]? = some c →
    ∃ a b, rows[k]? = some (a, b) ∧ IsNumeral 4 (codeBase + k) a ∧ IsNumeral 5 c.toNat b

/-- The text is an object file for the given code and data. -/
def Tells (t : Text) (code data : List Cell) : Prop :=
  ∃ heading rows, Rows.read? t = some (heading :: rows) ∧ Listed heading rows code data

theorem IsNumeral.unique {w v v' : Nat} {t : Text} (h : IsNumeral w v t) (h' : IsNumeral w v' t) :
    v = v' :=
  Except.ok.inj (h.2.symm.trans h'.2)

/-- Rows determine the cells they list. The sizes tell where the code ends. -/
theorem Listed.unique {heading : Text × Text} {rows : List (Text × Text)}
    {code data code' data' : List Cell} (h : Listed heading rows code data)
    (h' : Listed heading rows code' data') : code = code' ∧ data = data' := by
  have hcode : code.length = code'.length := h.codeSize.unique h'.codeSize
  have hdata : data.length = data'.length := h.dataSize.unique h'.dataSize
  have hall : code ++ data = code' ++ data' := by
    apply List.ext_getElem?
    intro k
    have hlength : (code ++ data).length = (code' ++ data').length := by
      rw [List.length_append, List.length_append, hcode, hdata]
    rcases Nat.lt_or_ge k (code ++ data).length with hk | hk
    · have hc := List.getElem?_eq_getElem hk
      have hc' := List.getElem?_eq_getElem (hlength ▸ hk)
      obtain ⟨a, b, hrow, -, hb⟩ := h.cell k _ hc
      obtain ⟨a', b', hrow', -, hb'⟩ := h'.cell k _ hc'
      obtain ⟨rfl, rfl⟩ := Prod.mk.inj (Option.some.inj (hrow.symm.trans hrow'))
      rw [hc, hc', Cell.eq_of_toNat (hb.unique hb')]
    · rw [List.getElem?_eq_none hk, List.getElem?_eq_none (hlength ▸ hk)]
  exact List.append_inj hall hcode

/-- **An object file determines code and data.** -/
theorem Tells.unique {t : Text} {code data code' data' : List Cell} (h : Tells t code data)
    (h' : Tells t code' data') : code = code' ∧ data = data' := by
  obtain ⟨heading, rows, hread, hlisted⟩ := h
  obtain ⟨heading', rows', hread', hlisted'⟩ := h'
  obtain ⟨rfl, rfl⟩ := List.cons.inj (Option.some.inj (hread.symm.trans hread'))
  exact hlisted.unique hlisted'

end ObjectFile

/-! ### What is written -/

namespace Image

open ObjectFile

/-- The addresses of a program are those from the base to the end of memory. -/
theorem addresses_toNat :
    addresses.map Address.toNat = (List.range (memorySize - codeBase)).map (codeBase + ·) := by
  have hsome : ∀ n ∈ List.range (memorySize - codeBase),
      (Address.base.advance? n).map Address.toNat = some (codeBase + n) := by
    intro n hn
    have hlt : codeBase + n < memorySize := by
      have := List.mem_range.1 hn
      omega
    have hnext : Address.base.advance? n = some ⟨codeBase + n, hlt⟩ :=
      Address.advance?_eq_some_iff.2 rfl
    rw [hnext, Option.map_some]
  rw [addresses, List.map_filterMap, List.filterMap_congr hsome]
  exact congrFun List.filterMap_eq_map' _

theorem getElem?_addresses {k : Nat} (h : codeBase + k < memorySize) :
    addresses[k]? = some ⟨codeBase + k, h⟩ := by
  have hk : k < memorySize - codeBase := by omega
  have hnat : (addresses[k]?).map Address.toNat = some (codeBase + k) := by
    rw [← List.getElem?_map, addresses_toNat, List.getElem?_map, List.getElem?_range hk,
      Option.map_some]
  obtain ⟨a, ha, htoNat⟩ := Option.map_eq_some_iff.1 hnat
  rw [ha, Address.eq_of_toNat (b := ⟨codeBase + k, h⟩) htoNat]

/-- Every word that fits into memory has its cell. -/
theorem getElem?_cells {i : Image} (h : codeBase + (i.code ++ i.data).length ≤ memorySize)
    {k : Nat} {w : Word} (hw : (i.code ++ i.data)[k]? = some w) :
    ∃ a : Address, i.cells[k]? = some (a, w) ∧ a.toNat = codeBase + k := by
  obtain ⟨hk, -⟩ := List.getElem?_eq_some_iff.1 hw
  have hlt : codeBase + k < memorySize := by omega
  refine ⟨⟨codeBase + k, hlt⟩, ?_, rfl⟩
  rw [cells, List.getElem?_zip_eq_some]
  exact ⟨getElem?_addresses hlt, hw⟩

/-- No word that fits into memory is left out. -/
theorem map_snd_cells {i : Image} (h : codeBase + (i.code ++ i.data).length ≤ memorySize) :
    i.cells.map Prod.snd = i.code ++ i.data := by
  have hlength := congrArg List.length addresses_toNat
  rw [List.length_map, List.length_map, List.length_range] at hlength
  exact List.map_snd_zip (by omega)

theorem length_cells {i : Image} (h : codeBase + (i.code ++ i.data).length ≤ memorySize) :
    i.cells.length = i.code.length + i.data.length := by
  rw [← List.length_append, ← map_snd_cells h, List.length_map]

/-- The first row of an object file. -/
def headingRow (i : Image) : Text × Text :=
  (Quaternary.letters 4 i.code.length, Quaternary.letters 4 i.data.length)

/-- The row of a cell. -/
def cellRow (c : Address × Word) : Text × Text := (c.1.letters, c.2.cell.letters)

theorem objectText_eq (i : Image) :
    i.objectText = (i.headingRow :: i.cells.map cellRow).flatMap Rows.line := by
  rw [List.flatMap_cons, List.flatMap_map]
  rfl

theorem plain_letters (w v : Nat) : Rows.Plain (Quaternary.letters w v) :=
  ⟨Quaternary.not_mem_letters rfl w v, Quaternary.not_mem_letters rfl w v⟩

theorem read?_objectText (i : Image) :
    Rows.read? i.objectText = some (i.headingRow :: i.cells.map cellRow) := by
  rw [objectText_eq]
  apply Rows.read?_flatMap_line
  intro row hrow
  rcases List.mem_cons.1 hrow with rfl | hrow
  · exact ⟨plain_letters 4 _, plain_letters 4 _⟩
  · obtain ⟨c, -, rfl⟩ := List.mem_map.1 hrow
    exact ⟨plain_letters 4 _, plain_letters 5 _⟩

theorem sizesFit_of_fits {i : Image} (h : codeBase + (i.code ++ i.data).length ≤ memorySize) :
    i.sizesFit = true := by
  have hbase : 0 < codeBase := by decide
  rw [List.length_append, show memorySize = 4 ^ 4 from rfl] at h
  rw [sizesFit, Bool.and_eq_true, Quaternary.fits_iff, Quaternary.fits_iff]
  omega

/-- **An image that fits into memory is told by its object file.** -/
theorem objectText_tells {i : Image} (h : codeBase + (i.code ++ i.data).length ≤ memorySize) :
    Tells i.objectText (i.code.map Word.cell) (i.data.map Word.cell) := by
  have hsizes := sizesFit_of_fits h
  rw [sizesFit, Bool.and_eq_true, Quaternary.fits_iff, Quaternary.fits_iff] at hsizes
  have hnumeral : ∀ v, v < 4 ^ 4 → IsNumeral 4 v (Quaternary.letters 4 v) := fun v hv =>
    ⟨Quaternary.length_letters 4 v, Quaternary.decode_letters (by decide) (by decide) hv⟩
  refine ⟨_, _, read?_objectText i, ?_⟩
  constructor
  case codeSize =>
    rw [List.length_map]
    exact hnumeral _ hsizes.1
  case dataSize =>
    rw [List.length_map]
    exact hnumeral _ hsizes.2
  case length =>
    rw [List.length_map, List.length_map, List.length_map, length_cells h]
  case cell =>
    intro k c hc
    rw [← List.map_append, List.getElem?_map] at hc
    obtain ⟨w, hw, rfl⟩ := Option.map_eq_some_iff.1 hc
    obtain ⟨a, hcell, ha⟩ := getElem?_cells h hw
    refine ⟨a.letters, w.cell.letters, ?_, ?_, ?_⟩
    · rw [List.getElem?_map, hcell, Option.map_some, cellRow]
    · exact ⟨a.length_letters, ha ▸ a.decode_letters⟩
    · exact ⟨w.cell.length_letters, w.cell.decode_letters⟩

end Image

namespace Program

open ObjectFile

theorem Assembles.image_fits {x : Expansion} {p : Program} (h : Assembles x p) :
    codeBase + (p.image.code ++ p.image.data).length ≤ memorySize := by
  have hfits := h.fits
  rw [Outline.Fits] at hfits
  rw [List.length_append, h.length_code, h.length_data]
  omega

/-- **The object file of a program that results can be written, tells its code and
data, and no other.** None of its words is left out of the cells. -/
theorem object_told {x : Expansion} {p : Program} (h : ofExpansion x = .ok p) :
    ∃ t, p.image.objectText? = some t ∧
      Tells t (p.image.code.map Word.cell) (p.image.data.map Word.cell) ∧
      p.image.cells.map Prod.snd = p.image.code ++ p.image.data ∧
      ∀ (y : Expansion) (q : Program), ofExpansion y = .ok q → q.image.objectText? = some t →
        q.image.code.map Word.cell = p.image.code.map Word.cell ∧
          q.image.data.map Word.cell = p.image.data.map Word.cell := by
  have htells : ∀ {y : Expansion} {q : Program}, ofExpansion y = .ok q →
      q.image.objectText? = some q.image.objectText ∧
        Tells q.image.objectText (q.image.code.map Word.cell) (q.image.data.map Word.cell) := by
    intro y q hq
    have hfits := (assembles_of_ok hq).image_fits
    exact ⟨if_pos (Image.sizesFit_of_fits hfits), Image.objectText_tells hfits⟩
  obtain ⟨hwritten, htold⟩ := htells h
  refine ⟨_, hwritten, htold, Image.map_snd_cells (assembles_of_ok h).image_fits, ?_⟩
  intro y q hq hsame
  obtain ⟨hwritten', htold'⟩ := htells hq
  have htext : q.image.objectText = p.image.objectText :=
    Option.some.inj (hwritten'.symm.trans hsame)
  rw [htext] at htold'
  exact htold'.unique htold

theorem object_told_sample : ∃ p t, ofExpansion sample = .ok p ∧ p.image.objectText? = some t ∧
    Tells t (p.image.code.map Word.cell) (p.image.data.map Word.cell) ∧
    p.image.cells.map Prod.snd = p.image.code ++ p.image.data := by
  obtain ⟨p, hp⟩ := sample_ok
  obtain ⟨t, ht, htold, hcells, -⟩ := object_told hp
  exact ⟨p, t, hp, ht, htold, hcells⟩

end Program
end TenBit
