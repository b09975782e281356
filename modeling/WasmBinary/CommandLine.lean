import WasmBinary.Encoder

/-!
The command line: which files a run finds, what its arguments ask for, and what it does. It encodes
the demonstration module, writes it to a file and reports.
-/

namespace WasmBinary

/-! ## Files

Directories and what stands in them, and what becomes of them when a file is written. Paths follow
the usual rules: names between slashes, a leading slash for the root, `.` for the same directory and
`..` for the one above. A link stands for the place that its target names, and a device takes bytes
without keeping them.
-/

/-- The names on the way from the root to a place in the tree. -/
abbrev Place := List String

inductive Device
  /-- They are dropped. -/
  | discard
  /-- They are refused, and writing fails. -/
  | refuse
  /-- They appear on the standard output. -/
  | standardOutput
  deriving DecidableEq, Repr

inductive Entry
  /-- A directory, to which files can be added or not. -/
  | directory (growing : Bool)
  /-- Another name for the place that a path leads to. -/
  | link (target : String)
  /-- Another name for a place, to which no path needs to lead. -/
  | jump (target : Place)
  | device (kind : Device)
  | file (bytes : Array UInt8)
  deriving DecidableEq, Repr

/-- What stands where, and the place from which relative paths start. -/
structure FileTree where
  entries : List (Place × Entry)
  current : Place
  /-- The bytes that devices have passed to the standard output. -/
  printed : Array UInt8 := #[]
  deriving DecidableEq, Repr

namespace FileTree

def maxNameLength : Nat := 255

/-- The least length of a path in bytes that is too long. -/
def pathLengthLimit : Nat := 4096

/-- The greatest number of links that are followed on the way to one place. -/
def maxLinks : Nat := 40

/-! ### Looking up -/

def entry? (tree : FileTree) (place : Place) : Option Entry :=
  tree.entries.lookup place

def isDirectory (tree : FileTree) (place : Place) : Bool :=
  match tree.entry? place with
  | some (.directory _) => true
  | _ => false

def isGrowing (tree : FileTree) (place : Place) : Bool :=
  match tree.entry? place with
  | some (.directory growing) => growing
  | _ => false

/-! ### Following paths -/

def startOf (path : String) (place : Place) : Place :=
  if path.startsWith "/" then [] else place

/-- Where a link in a directory leads to: a place, and the names that lead on from there. A relative
target starts in the directory of the link. -/
def linked? (tree : FileTree) (directory : Place) (name : String) : Option (Place × List String) :=
  match tree.entry? (directory ++ [name]) with
  | some (.link target) => some (startOf target directory, target.splitOn "/")
  | some (.jump target) => some (target, [])
  | _ => none

/-- The place that some names lead to, on a way that starts at `place` and follows at most `links`
links; none if the way passes something that is not a directory. Nothing needs to stand at the last
place of the way. -/
def follow (tree : FileTree) (links : Nat) (place : Place) (names : List String) : Option Place :=
  match names with
  | [] => some place
  | name :: rest =>
      if !tree.isDirectory place then none
      else if name = "" || name = "." then tree.follow links place rest
      else if name = ".." then tree.follow links place.dropLast rest
      else if maxNameLength < name.utf8ByteSize then none
      else
        match tree.linked? place name with
        | some (start, names) =>
            match links with
            | 0 => none
            | fewer + 1 => tree.follow fewer start (names ++ rest)
        | none => tree.follow links (place ++ [name]) rest
termination_by (links, names.length)

def place? (tree : FileTree) (path : String) : Option Place :=
  if pathLengthLimit ≤ path.utf8ByteSize then none
  else tree.follow maxLinks (startOf path tree.current) (path.splitOn "/")

/-! ### Writing -/

def set (tree : FileTree) (place : Place) (entry : Entry) : FileTree :=
  { tree with entries := tree.entries.filter (·.1 != place) ++ [(place, entry)] }

/-- The tree after a file has been written, or nothing if it cannot be written. -/
def write? (tree : FileTree) (path : String) (bytes : Array UInt8) : Option FileTree := do
  let place ← tree.place? path
  match tree.entry? place with
  | some (.file _) => some (tree.set place (.file bytes))
  | some (.device .discard) => some tree
  | some (.device .standardOutput) => some { tree with printed := tree.printed ++ bytes }
  | some (.device .refuse) | some (.directory _) | some (.link _) | some (.jump _) => none
  | none => if tree.isGrowing place.dropLast then some (tree.set place (.file bytes)) else none

end FileTree

/-! ## Options

Options come in a short and a long form; short ones can share one argument, and a value stands in
the same argument or in the next one. Arguments are read from left to right, and the first one that
decides the outcome ends the reading.
-/

namespace CommandLine

def defaultOutput : String := "demo.wasm"

structure Options where
  output : String := defaultOutput
  layout : Bool := false
  deriving DecidableEq, Repr

inductive Request
  | encode (options : Options)
  | help
  | version
  deriving DecidableEq, Repr

inductive UsageError
  | unknownArgument (argument : String)
  | missingValue (option : String)
  | emptyValue (option : String)
  | unneededValue (option : String)
  | repeatedOption (option : String)
  deriving DecidableEq, Repr

def UsageError.message : UsageError → String
  | unknownArgument argument => "unexpected argument '" ++ argument ++ "' found"
  | missingValue option => "a value is required for '" ++ option ++ "' but none was supplied"
  | emptyValue option => "a value is required for '" ++ option ++ "' but none was supplied"
  | unneededValue option => "unexpected value for '" ++ option ++ "' found; no more were expected"
  | repeatedOption option => "the argument '" ++ option ++ "' cannot be used multiple times"

/-- The options that the arguments so far have given. -/
structure Given where
  output : Option String := none
  layout : Bool := false
  deriving DecidableEq, Repr

namespace Given

/-- Takes the value of the output option, which cannot be empty and is given once at most. -/
def setOutput (given : Given) (value : String) : Except UsageError Given :=
  if value.isEmpty then
    .error (.emptyValue "--output <OUTPUT>")
  else if given.output.isSome then
    .error (.repeatedOption "--output <OUTPUT>")
  else
    .ok { given with output := some value }

def setLayout (given : Given) : Except UsageError Given :=
  if given.layout then
    .error (.repeatedOption "--layout")
  else
    .ok { given with layout := true }

def options (given : Given) : Options where
  output := given.output.getD defaultOutput
  layout := given.layout

end Given

inductive Step
  /-- Reading goes on. -/
  | proceed (given : Given)
  /-- The next argument is the value of the output option. -/
  | awaitOutput (given : Given)
  /-- All further arguments are no options. -/
  | endOptions (given : Given)
  /-- Nothing further is read. -/
  | finish (request : Request)
  deriving DecidableEq, Repr

/-- The effect of some short options that share an argument. A value of the output option takes the
rest of the argument, without a leading equals sign. -/
def readShort (given : Given) : List Char → Except UsageError Step
  | [] => .ok (.proceed given)
  | 'l' :: rest => do readShort (← given.setLayout) rest
  | 'h' :: _ => .ok (.finish .help)
  | 'V' :: _ => .ok (.finish .version)
  | ['o'] => .ok (.awaitOutput given)
  | 'o' :: '=' :: value => do return .proceed (← given.setOutput (String.ofList value))
  | 'o' :: value => do return .proceed (← given.setOutput (String.ofList value))
  | letter :: _ => .error (.unknownArgument (String.ofList ['-', letter]))

/-- The effect of a long option, whose value follows an equals sign if it is given there. -/
def readLong (given : Given) (name : String) (value : Option String) :
    Except UsageError Step :=
  match name, value with
  | "output", none => .ok (.awaitOutput given)
  | "output", some value => do return .proceed (← given.setOutput value)
  | "layout", none => do return .proceed (← given.setLayout)
  | "help", none => .ok (.finish .help)
  | "version", none => .ok (.finish .version)
  | "layout", some _ | "help", some _ | "version", some _ => .error (.unneededValue ("--" ++ name))
  | _, _ => .error (.unknownArgument ("--" ++ name))

/-- The name of a long option and its value: the text up to the first equals sign, and what follows
it. -/
def splitLong (text : List Char) : String × Option String :=
  let name := String.ofList (text.takeWhile (· != '='))
  match text.dropWhile (· != '=') with
  | [] => (name, none)
  | _ :: value => (name, some (String.ofList value))

def readArgument (given : Given) (argument : String) : Except UsageError Step :=
  match argument.toList with
  | ['-', '-'] => .ok (.endOptions given)
  | '-' :: '-' :: text =>
      let (name, value) := splitLong text
      readLong given name value
  | '-' :: letter :: letters => readShort given (letter :: letters)
  | _ => .error (.unknownArgument argument)

/-- Whether an argument is written like an option, and so cannot be the value of another one. A
lone dash is not. -/
def looksLikeOption (argument : String) : Bool :=
  match argument.toList with
  | '-' :: _ :: _ => true
  | _ => false

def read (given : Given) : List String → Except UsageError Request
  | [] => .ok (.encode given.options)
  | argument :: rest =>
      match readArgument given argument with
      | .error error => .error error
      | .ok (.proceed given) => read given rest
      | .ok (.finish request) => .ok request
      | .ok (.endOptions given) =>
          match rest with
          | [] => .ok (.encode given.options)
          | argument :: _ => .error (.unknownArgument argument)
      | .ok (.awaitOutput given) =>
          match rest with
          | [] => .error (.missingValue "--output <OUTPUT>")
          | value :: rest =>
              if looksLikeOption value then
                .error (.missingValue "--output <OUTPUT>")
              else
                match given.setOutput value with
                | .error error => .error error
                | .ok given => read given rest

def parse (arguments : List String) : Except UsageError Request :=
  read {} arguments

end CommandLine

/-! ## Runs -/

namespace CommandLine

def versionLine : String := "wasm-proto-encode 0.1.0\n"

def helpText : String :=
  "Encodes the built-in demonstration module\n\n" ++
  "Usage: wasm-proto-encode [OPTIONS]\n\n" ++
  "Options:\n" ++
  "  -o, --output <OUTPUT>  Where to write the encoded module [default: demo.wasm]\n" ++
  "  -l, --layout           Print the section layout of the encoded module\n" ++
  "  -h, --help             Print help\n" ++
  "  -V, --version          Print version\n"

/-- What remains to be done when the arguments are understood. -/
inductive Action
  /-- Prints a text and succeeds. -/
  | print (text : String)
  /-- Writes a file and, if that succeeds, prints a report. -/
  | write (path : String) (bytes : Array UInt8) (report : String)
  /-- Complains about the arguments. -/
  | refuse (error : UsageError)
  /-- Complains about the encoding. -/
  | abort (error : EncodingError)

def report (options : Options) (encoding : Encoding) : String :=
  "Encoded " ++ toString encoding.bytes.size ++ " bytes to " ++ options.output ++ ".\n" ++
    if options.layout then encoding.layout.text ++ "\n" else ""

def action (arguments : List String) : Action :=
  match parse arguments with
  | .error error => .refuse error
  | .ok .help => .print helpText
  | .ok .version => .print versionLine
  | .ok (.encode options) =>
      match sampleModule.encoding with
      | .error error => .abort error
      | .ok encoding => .write options.output encoding.bytes (report options encoding)

def exitSuccess : UInt32 := 0

def exitFailure : UInt32 := 1

def exitUsage : UInt32 := 2

structure Outcome where
  exitCode : UInt32
  output : Array UInt8
  tree : FileTree

/-- The outcome of an action in a directory tree. Nothing is printed when a file cannot be
written. A file that stands for the standard output is printed before the report. -/
def Action.perform (tree : FileTree) : Action → Outcome
  | print text => ⟨exitSuccess, (utf8 text).toArray, tree⟩
  | refuse _ => ⟨exitUsage, #[], tree⟩
  | abort _ => ⟨exitFailure, #[], tree⟩
  | write path bytes report =>
      match tree.write? path bytes with
      | some tree => ⟨exitSuccess, tree.printed ++ utf8 report, tree⟩
      | none => ⟨exitFailure, #[], tree⟩

def run (tree : FileTree) (arguments : List String) : Outcome :=
  (action arguments).perform tree

end CommandLine

end WasmBinary
