/-
# Files of rows

The object, entries and externals files are made alike: every line is a row of
two fields with a space between them. A reader that knows nothing else gets the
fields back, as long as they hold neither spaces nor line feeds.

Key definitions: `Rows.fields?`, `Rows.read?`, `Rows.line`, `Rows.Plain`.
Key theorem: `Rows.read?_flatMap_line`.
-/
import TenBit.Proofs.Source.Pieces

namespace TenBit
namespace Rows

/-- The two fields of a line, divided by its only space. -/
def fields? (line : Text) : Option (Text × Text) :=
  match Source.pieces ' ' line with
  | ([a], b) => some (a, b)
  | _ => none

/-- The rows of a text, all of whose lines are ended. -/
def read? (t : Text) : Option (List (Text × Text)) :=
  match Source.pieces '\n' t with
  | (ls, []) => ls.mapM fields?
  | _ => none

/-- The line of a row. -/
def line (row : Text × Text) : Text := row.1 ++ ' ' :: row.2 ++ ['\n']

/-- The text can stand in a field. -/
def Plain (t : Text) : Prop := ' ' ∉ t ∧ '\n' ∉ t

theorem plain_of_isAlphanum {t : Text} (h : ∀ c ∈ t, c.isAlphanum = true) : Plain t :=
  ⟨fun hc => absurd (h _ hc) (by decide), fun hc => absurd (h _ hc) (by decide)⟩

theorem fields?_append {a b : Text} (ha : Plain a) (hb : Plain b) :
    fields? (a ++ ' ' :: b) = some (a, b) := by
  simp only [fields?, Source.pieces_append_stop b ha.1, Source.pieces_of_not_mem hb.1]

theorem mapM_fields? : ∀ {rows : List (Text × Text)}, (∀ row ∈ rows, Plain row.1 ∧ Plain row.2) →
    (rows.map fun row => row.1 ++ ' ' :: row.2).mapM fields? = some rows
  | [], _ => rfl
  | (a, b) :: rows, h => by
    obtain ⟨hrow, hrows⟩ := List.forall_mem_cons.1 h
    simp [List.mapM_cons, fields?_append hrow.1 hrow.2, mapM_fields? hrows]

/-- **Rows are read back.** -/
theorem read?_flatMap_line {rows : List (Text × Text)}
    (h : ∀ row ∈ rows, Plain row.1 ∧ Plain row.2) : read? (rows.flatMap line) = some rows := by
  have hlines : rows.flatMap line =
      (rows.map fun row => row.1 ++ ' ' :: row.2).flatMap fun l => l ++ ['\n'] := by
    rw [List.flatMap_map]
    rfl
  have hended : ∀ l ∈ rows.map (fun row => row.1 ++ ' ' :: row.2), '\n' ∉ l := by
    intro l hl
    obtain ⟨row, hrow, rfl⟩ := List.mem_map.1 hl
    obtain ⟨ha, hb⟩ := h row hrow
    simp [ha.2, hb.2]
  rw [read?, hlines, Source.pieces_join hended]
  exact mapM_fields? h

end Rows
end TenBit
