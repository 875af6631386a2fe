/-
# How a line is refused

Whatever is wrong with a line is an error: reading a statement never comes to a
mere note, and never to something that stops the work. The readers of the parts
of a line are taken one by one, from the values up to the whole line; what a
reader is made of (`>>=`, `map`, `mapM`) passes the property on.

Key definition: `OnlyErrors`.
Key theorem: `Statement.onlyErrors_read`.
-/
import TenBit.Statement.Read

namespace TenBit

/-- If there is no result, then because of an error. -/
def OnlyErrors {α : Type} (x : Except Fault α) : Prop := ∀ f, x = .error f → f.severity = .error

namespace OnlyErrors

variable {α β : Type}

@[simp] theorem ok (a : α) : OnlyErrors (.ok a : Except Fault α) := fun _ h => by cases h

@[simp] theorem error {f : Fault} :
    OnlyErrors (.error f : Except Fault α) ↔ f.severity = .error := by
  constructor
  · intro h
    exact h f rfl
  · intro h g hg
    cases hg
    exact h

theorem bind {x : Except Fault α} {f : α → Except Fault β} (hx : OnlyErrors x)
    (hf : ∀ a, OnlyErrors (f a)) : OnlyErrors (x >>= f) := by
  cases x with
  | ok a => exact hf a
  | error e => exact error.2 (error.1 hx)

theorem map {x : Except Fault α} (hx : OnlyErrors x) (f : α → β) : OnlyErrors (x.map f) := by
  cases x with
  | ok a => exact ok (f a)
  | error e => exact error.2 (error.1 hx)

theorem mapM {f : α → Except Fault β} (hf : ∀ a, OnlyErrors (f a)) :
    ∀ as : List α, OnlyErrors (as.mapM f)
  | [] => ok []
  | a :: as => by
    rw [List.mapM_cons]
    exact bind (hf a) fun b => bind (mapM hf as) fun bs => ok (b :: bs)

end OnlyErrors

open OnlyErrors

/-! ### Names and operands -/

theorem Name.onlyErrors_checkLabel (macros : MacroTable) (t : Text) :
    OnlyErrors (checkLabel macros t) := by
  cases t with
  | nil => exact error.2 rfl
  | cons c cs =>
    unfold checkLabel
    repeat' split
    all_goals simp [Fault.severity]

theorem Cell.onlyErrors_read (t : Text) : OnlyErrors (Cell.read t) := by
  unfold Cell.read
  split
  · exact error.2 rfl
  · split
    · exact error.2 rfl
    · split
      · exact ok _
      · exact error.2 rfl

namespace Operand

theorem onlyErrors_readImmediate (t : Text) : OnlyErrors (readImmediate t) := by
  unfold readImmediate
  split
  · exact error.2 rfl
  · split
    · exact error.2 rfl
    · exact ok _

theorem onlyErrors_readIndex (t : Text) : OnlyErrors (readIndex t) := by
  unfold readIndex
  split
  · exact ok _
  · exact error.2 rfl

theorem onlyErrors_readElement (macros : MacroTable) (t : Text) :
    OnlyErrors (readElement macros t) := by
  unfold readElement
  split
  · exact error.2 rfl
  · split
    · exact error.2 rfl
    · exact bind (onlyErrors_readIndex _) fun _ => bind (onlyErrors_readIndex _) fun _ => ok _

theorem onlyErrors_readName (macros : MacroTable) (t : Text) : OnlyErrors (readName macros t) := by
  unfold readName
  split
  · exact ok _
  · refine error.2 ?_
    split <;> rfl

theorem onlyErrors_read (macros : MacroTable) (t : Text) : OnlyErrors (Operand.read macros t) := by
  unfold Operand.read
  split
  · exact map (onlyErrors_readImmediate _) _
  · unfold readPlain
    split
    · exact ok _
    · split
      · exact onlyErrors_readElement macros _
      · exact onlyErrors_readName macros _

end Operand

theorem WrittenOperand.onlyErrors_read (macros : MacroTable) (t : Text) :
    OnlyErrors (WrittenOperand.read macros t) :=
  map (Operand.onlyErrors_read macros t) _

namespace Statement

/-! ### Directives -/

theorem onlyErrors_readItems (t : Text) : OnlyErrors (readItems t) := by
  unfold readItems
  split
  · exact ok _
  · rename_i e _
    cases e <;> exact error.2 rfl

theorem onlyErrors_readValues (t : Text) : OnlyErrors (readValues t) :=
  bind (onlyErrors_readItems t) fun items => mapM Cell.onlyErrors_read items

theorem onlyErrors_readSomeValues (t : Text) : OnlyErrors (readSomeValues t) := by
  refine bind (onlyErrors_readValues t) fun values => ?_
  split
  · exact error.2 rfl
  · exact ok _

theorem onlyErrors_readDimension (t : Text) : OnlyErrors (readDimension t) := by
  unfold readDimension
  split
  · split
    · exact ok _
    · exact error.2 rfl
  · exact error.2 rfl

theorem onlyErrors_readDimensions (t : Text) : OnlyErrors (readDimensions t) := by
  unfold readDimensions
  split
  · exact error.2 rfl
  · refine bind (onlyErrors_readDimension _) fun rows => ?_
    refine bind (onlyErrors_readDimension _) fun columns => ?_
    split
    · split
      · exact ok _
      · exact error.2 rfl
    · exact error.2 rfl

theorem onlyErrors_readMatrix (t : Text) : OnlyErrors (readMatrix t) := by
  unfold readMatrix
  split
  · refine bind (onlyErrors_readDimensions t) fun dimensions => ?_
    refine bind (onlyErrors_readValues _) fun values => ?_
    split
    · exact error.2 rfl
    · exact ok _
  · exact bind (onlyErrors_readSomeValues t) fun values => ok _

theorem onlyErrors_readString (t : Text) : OnlyErrors (readString t) := by
  unfold readString
  repeat' split
  all_goals simp [Fault.severity]

theorem onlyErrors_readDeclaredName (macros : MacroTable) (t : Text) :
    OnlyErrors (readDeclaredName macros t) := by
  unfold readDeclaredName
  split
  · exact error.2 rfl
  · refine bind (Name.onlyErrors_checkLabel macros _) fun _ => ?_
    split
    · exact ok _
    · exact error.2 rfl

theorem onlyErrors_readDirective (macros : MacroTable) (name t : Text) :
    OnlyErrors (readDirective macros name t) := by
  unfold readDirective
  split
  · exact map (onlyErrors_readSomeValues t) _
  split
  · exact map (onlyErrors_readString t) _
  split
  · exact onlyErrors_readMatrix t
  split
  · exact map (onlyErrors_readDeclaredName macros t) _
  split
  · exact map (onlyErrors_readDeclaredName macros t) _
  · exact error.2 rfl

/-! ### Instructions and lines -/

theorem onlyErrors_checkCount (opcode : Opcode) (items : List Text) :
    OnlyErrors (checkCount opcode items) := by
  unfold checkCount
  split
  · exact error.2 rfl
  · split
    · refine error.2 ?_
      split <;> rfl
    · exact ok _

theorem onlyErrors_checkModes (i : Instruction) : OnlyErrors (checkModes i) := by
  unfold checkModes
  split
  · exact error.2 rfl
  · split
    · exact error.2 rfl
    · exact ok _

theorem onlyErrors_readInstruction (macros : MacroTable) (opcode : Opcode) (t : Text) :
    OnlyErrors (readInstruction macros opcode t) := by
  refine bind (onlyErrors_readItems t) fun items => ?_
  refine bind (onlyErrors_checkCount opcode items) fun _ => ?_
  exact bind (mapM (WrittenOperand.onlyErrors_read macros) items) fun _ => onlyErrors_checkModes _

theorem onlyErrors_readBody (macros : MacroTable) (label : Option Text) (t : Text) :
    OnlyErrors (readBody macros label t) := by
  unfold readBody
  split
  · exact error.2 rfl
  · split
    · exact map (onlyErrors_readInstruction macros _ _) _
    · split
      · exact map (onlyErrors_readDirective macros _ _) _
      · exact error.2 rfl

theorem onlyErrors_readLabel (macros : MacroTable) (word : Text) :
    OnlyErrors (readLabel macros word) := by
  unfold readLabel
  simp only
  split
  · exact bind (Name.onlyErrors_checkLabel macros _) fun _ => ok _
  · exact error.2 rfl

theorem onlyErrors_readSpoken (macros : MacroTable) (t : Text) :
    OnlyErrors (readSpoken macros t) := by
  unfold readSpoken
  split
  · exact ok _
  · split
    · exact bind (onlyErrors_readLabel macros _) fun _ => onlyErrors_readBody macros _ _
    · exact onlyErrors_readBody macros _ _

/-- **A line is refused for an error**, never for a note and never fatally. -/
theorem onlyErrors_read (macros : MacroTable) (t : Text) : OnlyErrors (read macros t) := by
  unfold read
  split
  · exact ok _
  · split
    · exact ok _
    · exact onlyErrors_readSpoken macros _

end Statement
end TenBit
