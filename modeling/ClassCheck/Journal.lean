import ClassCheck.Text.Position
import ClassCheck.Verdict

/-!
# The journal of a check

What the stages of a check say while they run: how much there is to do, which class is looked
at, and what becomes of each violation.
-/

namespace ClassCheck

/-- How detailed a line of the journal is. -/
inductive Detail where
  | debug | trace
  deriving DecidableEq, Repr

/-- How a line says its detail. -/
def Detail.text : Detail → String
  | .debug => "DEBUG"
  | .trace => "TRACE"

/-- Who writes a line of the journal. -/
inductive Writer where
  | commandLine | stages | classTable | members | tracker
  deriving DecidableEq, Repr

/-- How a line names its writer. -/
def Writer.text : Writer → String
  | .commandLine => "oplc"
  | .stages => "oplc::driver"
  | .classTable => "oplc::sema::class_table"
  | .members => "oplc::sema::analyzer"
  | .tracker => "oplc::sema::diagnostic"

/-- A line of the journal. -/
structure JournalLine where
  /-- How detailed it is. -/
  detail : Detail
  /-- Who writes it. -/
  writer : Writer
  /-- What it says. -/
  text : String
  deriving DecidableEq, Repr

namespace JournalLine

/-- The line with its detail. -/
def plain (l : JournalLine) : String := s!"{l.detail.text} {l.text}"

/-- The line with its detail and its writer. -/
def full (l : JournalLine) : String := s!"{l.detail.text} [{l.writer.text}] {l.text}"

end JournalLine

/-- What is said of an event, given the gravest violation before it. -/
def Event.journalLine (t : Tracker) : Event → JournalLine
  | .enterClass name => ⟨.debug, .members, s!"checking class {name}"⟩
  | .violation v =>
    if t.accepts v then
      ⟨.trace, .tracker, s!"recording {v.message} (priority {v.priority.text})"⟩
    else ⟨.trace, .tracker, s!"ignoring {v.message}: outranked"⟩
  | .nonConstant offender => ⟨.trace, .members, s!"non-constant '{offender}' in final initializer"⟩
  | .unassignedRead name => ⟨.trace, .members, s!"'{name}' read before any assignment"⟩
  | .duplicate name none => ⟨.trace, .members, Scope.duplicateMessage name⟩
  | .duplicate name (some span) =>
    ⟨.trace, .members, s!"{Scope.duplicateMessage name} at {span.text}"⟩

/-- The gravest violation after an event. -/
def Event.track (t : Tracker) : Event → Tracker
  | .violation v => t.record v
  | _ => t

/-- What is said of events in order. -/
def Event.journal : Tracker → List Event → List JournalLine
  | _, [] => []
  | t, e :: es => e.journalLine t :: Event.journal (e.track t) es

namespace Program

/-- What is said while a program is checked. -/
def journal (p : Program) : List JournalLine :=
  let size := p.classes.length
  let begins : JournalLine := ⟨.debug, .stages, s!"checking {size} classes"⟩
  match p.analyze with
  | .error _ => [begins]
  | .ok analysis =>
    let found := if analysis.table.hasEntryPoint then "found" else "missing"
    let built : JournalLine :=
      ⟨.debug, .classTable, s!"class table built: {size} classes, entry point {found}"⟩
    let ends : List JournalLine :=
      match analysis.table.judge analysis.events with
      | .ok () => [⟨.debug, .members, "static checking passed"⟩]
      | .error _ => []
    begins :: built :: Event.journal .empty analysis.events ++ ends

end Program

/-- What is said while a source text is checked. -/
def journal (source : String) : List JournalLine :=
  let scanning : JournalLine := ⟨.debug, .stages, s!"lexing {source.utf8ByteSize} bytes"⟩
  match scanSource source with
  | .error _ => [scanning]
  | .ok tokens =>
    let parsing : JournalLine := ⟨.debug, .stages, s!"parsing {tokens.length} tokens"⟩
    match parseTokens tokens with
    | .error _ => [scanning, parsing]
    | .ok program => scanning :: parsing :: program.journal

end ClassCheck
