/-
# Programs that are alike

Two programs are alike if they have the same words and references and their
symbols differ at most in the lines that defined them. It takes little to see
that they are: their outlines write the same slots and cells, bind the same names
to the same places and export the same names, in whatever order.

Key definitions: `Outline.Similar`, `Program.Alike`.
Key theorems: `Program.alike_of_similar`, `Program.Alike.entriesText?`.
-/
import TenBit.Proofs.Program.Symbols

namespace TenBit

namespace SymbolTable

/-- The order of the entries, as far as bindings show it. -/
def bindingByAddress (a b : Binding) : Bool :=
  decide (a.address < b.address) || (a.address == b.address && Text.before a.name b.name)

/-- The lines of the entries file. -/
def entryLines (bs : List Binding) : Option Text :=
  match bs with
  | [] => none
  | bs => some (bs.flatMap fun b => b.name ++ ' ' :: Quaternary.letters 4 b.address ++ ['\n'])

theorem map_binding_entries (t : SymbolTable) : t.entries.map Symbol.binding =
    Order.sort bindingByAddress ((t.symbols.map Symbol.binding).filter Binding.entry) := by
  rw [entries, Order.map_sort Symbol.binding byAddress bindingByAddress fun _ _ => rfl,
    List.filter_map]
  rfl

theorem entriesText?_eq_entryLines (t : SymbolTable) :
    t.entriesText? = entryLines (t.entries.map Symbol.binding) := by
  rw [entriesText?]
  cases t.entries with
  | nil => rfl
  | cons s ss =>
    simp only [entryLines, List.map_cons, List.flatMap_cons, List.flatMap_map]
    rfl

end SymbolTable

namespace Outline

/-- Two outlines with the same words, the same names and the same entries. -/
structure Similar (ss ts : List Statement) : Prop where
  slots : slots ts = slots ss
  dataWords : dataWords ts = dataWords ss
  bindings : ∀ b, b ∈ bindings ts ↔ b ∈ bindings ss
  entries : ∀ n, n ∈ entries ts ↔ n ∈ entries ss

theorem Similar.refl (ss : List Statement) : Similar ss ss :=
  ⟨rfl, rfl, fun _ => Iff.rfl, fun _ => Iff.rfl⟩

theorem Similar.codeSize {ss ts : List Statement} (h : Similar ss ts) :
    codeSize ts = codeSize ss := by
  rw [← length_slots, ← length_slots, h.slots]

end Outline

namespace Program

open Outline

/-- The same words and references, and the same symbols, apart from the lines that
defined them. -/
structure Alike (p q : Program) : Prop where
  code : q.image.code = p.image.code
  data : q.image.data = p.image.data
  references : q.image.references = p.image.references
  symbols : q.symbols.symbols.map Symbol.binding = p.symbols.symbols.map Symbol.binding

theorem Alike.image {p q : Program} (h : Alike p q) : q.image = p.image := by
  calc q.image = ⟨q.image.code, q.image.data, q.image.references⟩ := rfl
    _ = ⟨p.image.code, p.image.data, p.image.references⟩ := by
        rw [h.code, h.data, h.references]
    _ = p.image := rfl

theorem Alike.entriesText? {p q : Program} (h : Alike p q) :
    q.symbols.entriesText? = p.symbols.entriesText? := by
  rw [SymbolTable.entriesText?_eq_entryLines, SymbolTable.entriesText?_eq_entryLines,
    SymbolTable.map_binding_entries, SymbolTable.map_binding_entries, h.symbols]

/-- Names look up alike if the outlines are similar. -/
theorem binding?_of_similar {x y : Expansion} {p q : Program} (hp : Assembles x p)
    (hq : Assembles y q)
    (h : Outline.Similar (statements x.macros x.lines) (statements y.macros y.lines)) (n : Text) :
    q.symbols.binding? n = p.symbols.binding? n := by
  have hfind : Binding.find n (bindings (statements y.macros y.lines)) =
      Binding.find n (bindings (statements x.macros x.lines)) := by
    apply Option.ext
    intro b
    rw [find_bindings_iff (sound_of_mem_statements y.macros y.lines) hq.consistent,
      find_bindings_iff (sound_of_mem_statements x.macros x.lines) hp.consistent, h.bindings]
  have hmarked : Binding.markedBy (entries (statements y.macros y.lines)) =
      Binding.markedBy (entries (statements x.macros x.lines)) := by
    funext b
    simp only [Binding.markedBy, h.entries]
  rw [hq.symbols, hp.symbols, hfind, hmarked, h.codeSize]

/-- **Similar outlines make programs that are alike.** -/
theorem alike_of_similar {x y : Expansion} {p q : Program} (hp : Assembles x p)
    (hq : Assembles y q)
    (h : Outline.Similar (statements x.macros x.lines) (statements y.macros y.lines)) : Alike p q := by
  have hbinding := binding?_of_similar hp hq h
  have hplaces := SymbolTable.place?_eq_of_binding? hbinding
  constructor
  case code => rw [hq.code, hp.code, h.slots, hplaces]
  case data => rw [hq.data, hp.data, h.dataWords]
  case references => rw [hq.references, hp.references, h.slots, hplaces]
  case symbols => exact SymbolTable.bindings_eq_of_binding? hbinding

end Program
end TenBit
