/-
# Macro expansion

A definition is the lines between one that starts with `mcro` and the next that
starts with `mcroend`; it is taken out of the source. A later line that holds
only the name of a macro, perhaps behind a label, is replaced by the body of
the macro. Every other line is kept as it is. Lines that come from a macro
carry the number of the line that called it.

The work is done by a machine that reads one line at a time: its state is the
macros so far, the definition it is in, and the report; its output is the lines
it keeps.

Key definitions: `Expander`, `Expander.step`, `Expander.run`, `Expansion`,
`Expansion.ofInput`.
-/
import TenBit.Macro.Table
import TenBit.Report.Basic
import TenBit.Source.Line
import TenBit.Statement.Name
import TenBit.Statement.Read

namespace TenBit

/-- A definition that has been opened. One whose opening line was refused has
no name, and its body is skipped. -/
structure Definition where
  name : Option Text
  line : Nat
deriving DecidableEq, Repr

/-- What is known after some lines of a source. -/
structure Expander where
  macros : MacroTable
  definition : Option Definition := none
  report : Report
deriving DecidableEq, Repr

namespace Expander

/-- The state with one more problem. -/
def record (s : Expander) (f : Fault) (line : Nat) : Expander :=
  { s with report := s.report.record f line }

/-- The state with one more problem, if the condition holds. -/
def recordIf (s : Expander) (b : Bool) (f : Fault) (line : Nat) : Expander :=
  { s with report := s.report.recordIf b f line }

/-- Opens a definition; `t` is what follows the opening word. -/
def openDefinition (s : Expander) (line : Nat) (t : Text) : Expander :=
  let (name, rest) := (Text.nextWord? t).getD ([], [])
  match Name.checkMacro s.macros name with
  | .error f => { s.record f line with definition := some ⟨none, line⟩ }
  | .ok () =>
    let s := s.recordIf (!Text.isBlankText rest) .textAfterMacroName line
    match s.macros.define name line with
    | .ok macros => { s with macros, definition := some ⟨some name, line⟩ }
    | .error _ => { s.record .macroRedefined line with definition := some ⟨none, line⟩ }

/-- The line goes into the body of the macro that is being defined. -/
def keep (s : Expander) (d : Definition) (line : Nat) (t : Text) : Expander :=
  match d.name with
  | none => s
  | some name =>
    match s.macros.append name t with
    | .ok macros => { s with macros }
    | .error _ => s.record .passesDisagree line

/-- A line inside a definition. -/
def inside (s : Expander) (d : Definition) (line : Nat) (t : Text) : Expander :=
  match Text.nextWord? t with
  | some (word, rest) =>
    if word = Name.macroEnd then
      { s.recordIf (!Text.isBlankText rest) .textAfterMacroEnd line with definition := none }
    else s.keep d line t
  | none => s.keep d line t

/-- The first word of a line has a colon in it. -/
def hasLabel (t : Text) : Bool :=
  match Text.nextWord? t with
  | some (word, _) => word.contains ':'
  | none => false

/-- The lines of a body with a label put on the first that says something, or
alone behind the others if none does; and whether that line has a label of its
own, which then stays. -/
def attach (label : Text) : List Text → List Text × Bool
  | [] => ([label], false)
  | t :: ts =>
    if Statement.isSilent t then
      let r := attach label ts
      (t :: r.1, r.2)
    else if hasLabel t then (t :: ts, true)
    else ((label ++ ' ' :: Text.trimStart t) :: ts, false)

/-- The lines that replace the call of a macro. -/
def expand (s : Expander) (line : Nat) (label : Option Text) (name : Text) :
    Expander × List SourceLine :=
  match s.macros.body name, label with
  | .error _, _ => (s.record .passesDisagree line, [])
  | .ok body, none => (s, body.map (SourceLine.mk line))
  | .ok body, some l =>
    let r := attach l body
    (s.recordIf r.2 .macroLabelConflict line, r.1.map (SourceLine.mk line))

/-- A line that calls a macro if there is one of the name; `rest` is what
follows the name. -/
def callNamed (s : Expander) (line : Nat) (t : Text) (label : Option Text) (name rest : Text) :
    Expander × List SourceLine :=
  if !s.macros.contains name then (s, [⟨line, t⟩])
  else if !Text.isBlankText rest then (s.record .textAfterMacroCall line, [])
  else s.expand line label name

/-- A line that calls a macro or says something else. The call is the first
word, or the second if the first ends with a colon. -/
def call (s : Expander) (line : Nat) (t word rest : Text) : Expander × List SourceLine :=
  if word.getLast? = some ':' then
    match Text.nextWord? rest with
    | some (name, rest) => s.callNamed line t (some word) name rest
    | none => (s, [⟨line, t⟩])
  else s.callNamed line t none word rest

/-- A line outside any definition. -/
def outside (s : Expander) (line : Nat) (t : Text) : Expander × List SourceLine :=
  if Statement.isSilent t then (s, [⟨line, t⟩])
  else
    match Text.nextWord? t with
    | none => (s, [⟨line, t⟩])
    | some (word, rest) =>
      if word = Name.macroStart then (s.openDefinition line rest, [])
      else if word = Name.macroEnd then (s.record .strayMacroEnd line, [])
      else s.call line t word rest

/-- A line of a source: the state after it and the lines that are kept for it. -/
def step (s : Expander) (line : Nat) (t : Text) : Expander × List SourceLine :=
  match s.definition with
  | none => s.outside line t
  | some d => (s.inside d line t, [])

/-- The lines of a source, up to the first fatal problem. -/
def run : Expander → List (Nat × Source.Content) → Expander × List SourceLine
  | s, [] => (s, [])
  | s, (n, c) :: ls =>
    if s.report.isFatal then (s, [])
    else
      match c with
      | .tooLong => run (s.record .lineTooLong n) ls
      | .unreadable _ => (s.record .sourceUnreadable n, [])
      | .text t =>
        let now := s.step n t
        let later := run now.1 ls
        (later.1, now.2 ++ later.2)

/-- The end of the source. A definition that is still open is a fault, unless
the work was stopped. -/
def finish (s : Expander) : Expander :=
  match s.definition with
  | none => s
  | some d => s.recordIf (!s.report.isFatal) .macroUnterminated d.line

end Expander

/-- A source with its macros expanded. -/
structure Expansion where
  lines : List SourceLine
  macros : MacroTable
  report : Report
deriving DecidableEq, Repr

namespace Expansion

/-- The expansion of a source, given the macros and the report so far. -/
def ofInput (macros : MacroTable) (report : Report) (input : Input) : Expansion :=
  let (s, lines) := Expander.run { macros, report } (Source.lines Source.maxLength input)
  let s := s.finish
  ⟨lines, s.macros, s.report⟩

/-- The expansion of the source of a file, or its report if it has errors. -/
def ofFile (file : Text) (input : Input) : Except Report Expansion :=
  let e := ofInput .empty (.new file) input
  if 0 < e.report.errorCount then .error e.report else .ok e

/-- The text of an expanded source. -/
def text (lines : List SourceLine) : Text := lines.flatMap fun l => l.text ++ ['\n']

end Expansion
end TenBit
