/-
# Macro tables

A macro is a name and the lines that stand for it. Macros are added and their
bodies grow line by line; none is ever taken away or defined twice.

Key definitions: `Macro`, `MacroTable`, `MacroTable.get?`,
`MacroTable.define`, `MacroTable.append`.
-/
import TenBit.Text.Blank

namespace TenBit

/-- A macro, and the line its definition started on. -/
structure Macro where
  name : Text
  line : Nat
  body : List Text
deriving DecidableEq, Repr

/-- Macros in the order of their definitions. -/
structure MacroTable where
  macros : List Macro := []
deriving DecidableEq, Repr

/-- Why a macro table refuses a step. -/
inductive MacroError
  | alreadyDefined (name : Text)
  | notDefined (name : Text)
deriving DecidableEq, Repr

/-- The wording of a refusal. -/
def MacroError.message : MacroError → String
  | .alreadyDefined n =>
    let name := String.ofList n
    s!"macro {name} is already defined"
  | .notDefined n =>
    let name := String.ofList n
    s!"macro {name} is not defined"

namespace MacroTable

/-- The table without macros. -/
def empty : MacroTable := {}

/-- The macro of a name. -/
def get? (t : MacroTable) (name : Text) : Option Macro :=
  t.macros.find? fun m => m.name == name

/-- There is a macro of the name. -/
def contains (t : MacroTable) (name : Text) : Bool := (t.get? name).isSome

/-- The number of macros. -/
def size (t : MacroTable) : Nat := t.macros.length

/-- The table with a new macro, whose body is empty. -/
def define (t : MacroTable) (name : Text) (line : Nat) : Except MacroError MacroTable :=
  if t.contains name then .error (.alreadyDefined name)
  else .ok ⟨t.macros ++ [⟨name, line, []⟩]⟩

/-- A macro with one more line in its body, if it has the name. -/
def extend (name line : Text) (m : Macro) : Macro :=
  if m.name = name then { m with body := m.body ++ [line] } else m

/-- The table with one more line in the body of a macro. -/
def append (t : MacroTable) (name line : Text) : Except MacroError MacroTable :=
  if t.contains name then .ok ⟨t.macros.map (extend name line)⟩
  else .error (.notDefined name)

/-- The lines that stand for a name. -/
def body (t : MacroTable) (name : Text) : Except MacroError (List Text) :=
  match t.get? name with
  | some m => .ok m.body
  | none => .error (.notDefined name)

end MacroTable
end TenBit
