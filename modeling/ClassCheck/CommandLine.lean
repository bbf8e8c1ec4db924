import ClassCheck.Journal
import ClassCheck.Syntax.Outline

/-!
# The command line

Arguments are read from left to right: switches, and one file name. The answer to a request is
an exit code and the lines for the two outputs, so that running the program is only a matter
of reading the file and printing.
-/

namespace ClassCheck.CommandLine

/-- What to do with a source file. -/
structure Options where
  /-- The name of the file. -/
  input : Option String
  /-- Say what is done while it is done. -/
  verbose : Bool
  /-- List the tokens. -/
  dumpTokens : Bool
  /-- Outline the syntax tree. -/
  dumpTree : Bool
  deriving DecidableEq, Repr

/-- No file and no switches. -/
def Options.none : Options := ⟨.none, false, false, false⟩

/-- What the arguments ask for. -/
inductive Request where
  /-- Check a file. -/
  | check (input : String) (options : Options)
  /-- Explain the arguments. -/
  | help
  /-- Say the version. -/
  | version
  deriving DecidableEq, Repr

/-- What is wrong with the arguments. -/
inductive UsageError where
  /-- There is no file name. -/
  | missingInput
  /-- The file name is empty. -/
  | emptyInput
  /-- There is no such argument. -/
  | unexpected (argument : String)
  /-- A switch is given twice. -/
  | repeated (name : String)
  /-- A switch is given a value. -/
  | unexpectedValue (name value : String)
  deriving DecidableEq, Repr

/-- The first line on wrong arguments. -/
def UsageError.message : UsageError → String
  | .missingInput => "the following required arguments were not provided:"
  | .emptyInput => "a value is required for '<INPUT>' but none was supplied"
  | .unexpected argument => s!"unexpected argument '{argument}' found"
  | .repeated name => s!"the argument '{name}' cannot be used multiple times"
  | .unexpectedValue name value =>
    s!"unexpected value '{value}' for '{name}' found; no more were expected"

/-! ## Reading arguments -/

/-- The switches. -/
inductive Switch where
  | verbose | dumpTree | dumpTokens | help | version
  deriving DecidableEq, Repr

namespace Switch

/-- How messages name a switch. -/
def display : Switch → String
  | .verbose => "--verbose"
  | .dumpTree => "--dump-ast"
  | .dumpTokens => "--dump-tokens"
  | .help => "--help"
  | .version => "--version"

/-- The switch with this long name. -/
def ofLong? : String → Option Switch
  | "verbose" => some .verbose
  | "dump-ast" => some .dumpTree
  | "dump-tokens" => some .dumpTokens
  | "help" => some .help
  | "version" => some .version
  | _ => none

/-- The switch with this letter. -/
def ofShort? : Char → Option Switch
  | 'v' => some .verbose
  | 'h' => some .help
  | 'V' => some .version
  | _ => none

end Switch

/-- Where reading the arguments stands: more to come, or a request already. -/
abbrev Reading := Except UsageError (Except Request Options)

/-- Is a switch on already? -/
def Options.has (o : Options) : Switch → Bool
  | .verbose => o.verbose
  | .dumpTree => o.dumpTree
  | .dumpTokens => o.dumpTokens
  | .help | .version => false

/-- Take note of a switch; it is only now that an empty file name is refused. -/
def flip (o : Options) (s : Switch) : Reading :=
  if o.input = some "" then .error .emptyInput
  else if o.has s then .error (.repeated s.display)
  else
    match s with
    | .help => .ok (.error .help)
    | .version => .ok (.error .version)
    | .verbose => .ok (.ok { o with verbose := true })
    | .dumpTree => .ok (.ok { o with dumpTree := true })
    | .dumpTokens => .ok (.ok { o with dumpTokens := true })

/-- Take note of switches given by letters behind one dash. -/
def readShort (o : Options) : List Char → Reading
  | [] => .ok (.ok o)
  | c :: cs =>
    match Switch.ofShort? c with
    | none => .error (.unexpected s!"-{c}")
    | some s =>
      match flip o s with
      | .ok (.ok o) => readShort o cs
      | answer => answer

/-- Take note of a switch given by its long name, which takes no value. -/
def readLong (o : Options) (body : List Char) : Reading :=
  let name := String.ofList (body.takeWhile (· ≠ '='))
  match Switch.ofLong? name with
  | none => .error (.unexpected ("--" ++ name))
  | some s =>
    match body.dropWhile (· ≠ '=') with
    | _ :: value => .error (.unexpectedValue s.display (String.ofList value))
    | [] => flip o s

/-- Take note of the file name. -/
def readInput (o : Options) (argument : String) : Reading :=
  if o.input.isSome then .error (.unexpected argument)
  else .ok (.ok { o with input := some argument })

/-- Take note of one argument. -/
def readArgument (o : Options) (argument : String) : Reading :=
  match argument.toList with
  | '-' :: '-' :: body => readLong o body
  | '-' :: c :: cs => readShort o (c :: cs)
  | _ => readInput o argument

/-- Read arguments in order; after a lone double dash all are file names. -/
def readArguments : Bool → Options → List String → Except UsageError Request
  | _, o, [] =>
    match o.input with
    | some "" => .error .emptyInput
    | some input => .ok (.check input o)
    | none => .error .missingInput
  | namesOnly, o, argument :: arguments =>
    if !namesOnly && argument = "--" then readArguments true o arguments
    else
      match if namesOnly then readInput o argument else readArgument o argument with
      | .error e => .error e
      | .ok (.error request) => .ok request
      | .ok (.ok o) => readArguments namesOnly o arguments

/-- What the arguments ask for. -/
def request (arguments : List String) : Except UsageError Request :=
  readArguments false .none arguments

/-! ## Files -/

/-- Why a file cannot be read as a text. -/
inductive ReadFault where
  /-- Nothing has this name. -/
  | noSuchFile
  /-- The file may not be read. -/
  | permissionDenied
  /-- A name goes on behind something that is no directory. -/
  | notDirectory
  /-- The name is that of a directory. -/
  | isDirectory
  /-- The name, or a part of it, is too long. -/
  | nameTooLong
  /-- The bytes are no text. -/
  | notText
  /-- Any other cause. -/
  | other (cause : String)
  deriving DecidableEq, Repr

namespace ReadFault

/-- The cause with the number that the system gives it. -/
def numbered (cause : String) (code : Nat) : String := s!"{cause} (os error {code})"

/-- What the fault says. -/
def text : ReadFault → String
  | .noSuchFile => numbered "No such file or directory" 2
  | .permissionDenied => numbered "Permission denied" 13
  | .notDirectory => numbered "Not a directory" 20
  | .isDirectory => numbered "Is a directory" 21
  | .nameTooLong => numbered "File name too long" 36
  | .notText => "stream did not contain valid UTF-8"
  | .other cause => cause

end ReadFault

/-- The text of a file, if its bytes are valid. -/
def decode (bytes : ByteArray) : Except ReadFault String :=
  match String.fromUTF8? bytes with
  | some source => .ok source
  | none => .error .notText

/-! ## Answers -/

/-- The answer to a request. -/
structure Response where
  /-- The exit code. -/
  exit : UInt32
  /-- The lines for the standard output. -/
  output : List String
  /-- The lines for the error output. -/
  errors : List String
  /-- The place in the source text that a diagnostic is about. -/
  position : Option Text.Position
  deriving DecidableEq, Repr

/-- The version. -/
def versionText : String := "oplc 0.1.0"

/-- How the program is called. -/
def usageText : String := "Usage: oplc [OPTIONS] <INPUT>"

/-- The explanation of the arguments. -/
def helpLines : List String := [
  "Static semantic checker for OPLang programs",
  "",
  usageText,
  "",
  "Arguments:",
  "  <INPUT>  Input source file",
  "",
  "Options:",
  "  -v, --verbose      Verbose output",
  "      --dump-ast     Dump AST (for debugging)",
  "      --dump-tokens  Dump tokens (for debugging)",
  "  -h, --help         Print help",
  "  -V, --version      Print version"]

/-- The answer to wrong arguments. -/
def refusal (e : UsageError) : Response :=
  let missing := match e with
    | .missingInput => ["  <INPUT>"]
    | _ => []
  let advice := ["", usageText, "", "For more information, try '--help'."]
  ⟨2, [], s!"error: {e.message}" :: missing ++ advice, none⟩

/-- The answer if a file cannot be read. -/
def unreadable (input : String) (fault : ReadFault) : Response :=
  ⟨1, [], [s!"error: cannot read {input}: {fault.text}"], none⟩

/-- The listing of the tokens. -/
def tokenListing (tokens : List Token) : List String :=
  "=== OPLang Tokens ===" :: tokens.map Token.listing ++ ["=== End Tokens ===", ""]

/-- The outline of the syntax tree. -/
def treeOutline (program : Program) : List String :=
  "=== OPLang AST ===" :: program.outline ++ ["=== End AST ===", ""]

/-- What the stages write to the error output while they run. -/
def stageLines (options : Options) (source : String) : List String :=
  let announce (text : String) : List String := if options.verbose then [text] else []
  let scanned := match scanSource source with
    | .error _ => []
    | .ok tokens =>
      let parsed := match parseTokens tokens with
        | .error _ => []
        | .ok program =>
          (if options.dumpTree then treeOutline program else []) ++ announce "Checking..."
      (if options.dumpTokens then tokenListing tokens else []) ++ announce "Parsing..." ++ parsed
  announce "Lexing..." ++ scanned

/-- The diagnostic of a failure, with the place it is about. -/
def diagnosticLines (input source : String) (failure : Failure) : List String :=
  let d := failure.diagnostic
  let label := match d.label with
    | some (text, span) =>
      let position := Text.Position.ofOffset source span.start
      [s!"  --> {input}:{position.text}: {text}"]
    | none => []
  s!"error: {d.message}" :: label ++ d.notes.map fun note => "  = " ++ note

/-- The lines of the journal that a verbose check prints. -/
def journalLines (input source : String) : List String :=
  let begins : JournalLine := ⟨.debug, .commandLine, s!"checking {input}"⟩
  ((begins :: journal source).filter (·.detail = .debug)).map JournalLine.full

/-- The answer to the request to check a source text. -/
def checkResponse (input : String) (options : Options) (source : String) : Response :=
  let answer := checkSource source
  let log := if options.verbose then journalLines input source else []
  let output := log ++ [verdict answer]
  let stages := stageLines options source
  match answer with
  | .ok () => ⟨0, output, stages, none⟩
  | .error failure =>
    ⟨1, output, stages ++ diagnosticLines input source failure,
      failure.span?.map fun span => Text.Position.ofOffset source span.start⟩

/-- The answer to the request to check a file, given its bytes or why it cannot be read. -/
def fileResponse (input : String) (options : Options) (content : Except ReadFault ByteArray) :
    Response :=
  match content >>= decode with
  | .ok source => checkResponse input options source
  | .error fault => unreadable input fault

/-- The answer to the arguments, where `content` reads the file that they name. -/
def respond {m : Type → Type} [Monad m] (content : String → m (Except ReadFault ByteArray))
    (arguments : List String) : m Response :=
  match request arguments with
  | .error e => pure (refusal e)
  | .ok .help => pure ⟨0, helpLines, [], none⟩
  | .ok .version => pure ⟨0, [versionText], [], none⟩
  | .ok (.check input options) => do return fileResponse input options (← content input)

end ClassCheck.CommandLine
