import SsaFlow.Liveness.Annotate
import SsaFlow.Text.Parse

/-!
# The command line

There are two commands for programs.  `print-ir FILE` reads a program and prints it back.
`liveness FILE` prints it with what is live.  It takes the flag `-v` or
`--verbose` for a verbose listing and the option `-f NAME` or `--func NAME` for
a single procedure.  The flag `-d` or `--debug` may stand before the command.
A third command, `help`, tells how the program is used.

A value may be glued to a short option or come after an equals sign, short
flags may share a dash, and after `--` everything is a file name.  A flag or
option is given at most once, an option always has a value, and a command has
exactly one file.
-/

namespace SsaFlow

/-- What the command line asks for. -/
inductive Command where
  /-- Tell how the program is used. -/
  | help
  /-- Print a program back. -/
  | printIr (file : String)
  /-- Print a program, or one procedure of it, with what is live. -/
  | liveness (file : String) (verbose : Bool) (func : Option String)
deriving DecidableEq, Repr

/-- Why a command line is refused. -/
inductive UsageError where
  | missingCommand
  | missingFile
  | missingValue (option : String)
  | repeated (option : String)
  | unexpected (argument : String)
deriving DecidableEq, Repr

/-- The wording of a usage error. -/
def UsageError.message : UsageError → String
  | missingCommand => "a command is needed"
  | missingFile => "a file is needed"
  | missingValue option => "a value is needed for " ++ option
  | repeated option => option ++ " is given more than once"
  | unexpected argument => "unexpected argument " ++ argument

namespace Command

/-! ## Arguments -/

/-- The shapes of argument. -/
inductive Argument where
  /-- Two dashes alone. -/
  | divider
  /-- A name after two dashes, maybe with a value after an equals sign. -/
  | long (name : String) (value : Option String)
  /-- Letters after a dash. -/
  | short (letters : List Char)
  /-- Anything else. -/
  | plain

/-- The shape of an argument. -/
def Argument.ofString (a : String) : Argument :=
  match a.toList with
  | ['-', '-'] => .divider
  | '-' :: '-' :: rest =>
    let rest := rest.dropWhile (· == '-')
    let name := rest.takeWhile (· != '=')
    match rest.dropWhile (· != '=') with
    | [] => .long (String.ofList name) none
    | _ :: value => .long (String.ofList name) (some (String.ofList value))
  | '-' :: c :: rest => .short (c :: rest)
  | _ => .plain

/-- The arguments of a command that were read so far. -/
structure Settings where
  /-- The files. -/
  files : List String := []
  /-- The number of times that the flag for verbose listings was given. -/
  verbose : Nat := 0
  /-- The names of procedures.  A name is missing where its option has no value. -/
  funcs : List (Option String) := []
  /-- Whether the next plain argument is the name of a procedure. -/
  pending : Bool := false
  /-- Whether everything from here on is a file. -/
  filesOnly : Bool := false

namespace Settings

/-- Adds a file.  There is only one. -/
def addFile (s : Settings) (file : String) : Except UsageError Settings :=
  if s.files.isEmpty then .ok { s with files := [file] } else .error (.unexpected file)

/-- Adds the name of a procedure, without the equals signs it starts with. -/
def addFunc (s : Settings) (name : List Char) : Settings :=
  { s with funcs := s.funcs ++ [some (String.ofList (name.dropWhile (· == '=')))] }

/-- Ends the wait for the name of a procedure.  It is missing then. -/
def settle (s : Settings) : Settings :=
  if s.pending then { s with pending := false, funcs := s.funcs ++ [none] } else s

/-- The command that the arguments of `liveness` give. -/
def liveness (s : Settings) : Except UsageError Command :=
  match s.files, s.settle.funcs with
  | [], _ => .error .missingFile
  | _, _ :: _ :: _ => .error (.repeated "--func")
  | _, [none] => .error (.missingValue "--func")
  | file :: _, funcs =>
    if s.verbose > 1 then .error (.repeated "--verbose")
    else .ok (.liveness file (s.verbose = 1) (funcs.head?.join))

/-- Reads letters after a dash.  The result is missing when help is asked for. -/
def addLetters (s : Settings) : List Char → Except UsageError (Option Settings)
  | [] => .ok (some s)
  | c :: rest =>
    if c = 'v' then { s with verbose := s.verbose + 1 }.addLetters rest
    else if c = 'f' then
      .ok (some (if rest.isEmpty then { s with pending := true } else s.addFunc rest))
    else if c = 'h' ∨ c = 'V' then .ok none
    else .error (.unexpected ("-" ++ c.toString))

/-- Reads a name after two dashes.  The result is missing when help is asked for. -/
def addLong (s : Settings) (name : String) (value : Option String) :
    Except UsageError (Option Settings) :=
  if name = "verbose" then .ok (some { s with verbose := s.verbose + 1 })
  else if name = "func" then
    .ok (some (match value with
      | some v => s.addFunc v.toList
      | none => { s with pending := true }))
  else if name = "help" ∨ name = "version" then .ok none
  else .error (.unexpected ("--" ++ name))

end Settings

/-- Reads the arguments of `liveness`. -/
def livenessArgs (s : Settings) : List String → Except UsageError Command
  | [] => s.liveness
  | a :: rest => do
    if s.filesOnly then livenessArgs (← s.addFile a) rest
    else
      match Argument.ofString a with
      | .plain =>
        if s.pending then
          livenessArgs { s with pending := false, funcs := s.funcs ++ [some a] } rest
        else livenessArgs (← s.addFile a) rest
      | .divider => livenessArgs { s.settle with filesOnly := true } rest
      | .long name value =>
        match ← s.settle.addLong name value with
        | some s => livenessArgs s rest
        | none => return .help
      | .short letters =>
        match ← s.settle.addLetters letters with
        | some s => livenessArgs s rest
        | none => return .help

/-- Reads the arguments of `print-ir`. -/
def printArgs (s : Settings) : List String → Except UsageError Command
  | [] => match s.files with
    | [] => .error .missingFile
    | file :: _ => .ok (.printIr file)
  | a :: rest => do
    if s.filesOnly then printArgs (← s.addFile a) rest
    else
      match Argument.ofString a with
      | .plain => printArgs (← s.addFile a) rest
      | .divider => printArgs { s with filesOnly := true } rest
      | .long name _ => if name = "help" ∨ name = "version" then return .help else throw (.unexpected a)
      | .short letters =>
        if letters.head? = some 'h' ∨ letters.head? = some 'V' then return .help
        else throw (.unexpected a)

/-- Reads the letters before a command.  The result is missing when help is asked for. -/
def debugLetters : List Char → Nat → Except UsageError (Option Nat)
  | [], n => .ok (some n)
  | c :: rest, n =>
    if c = 'd' then debugLetters rest (n + 1)
    else if c = 'h' ∨ c = 'V' then .ok none
    else .error (.unexpected ("-" ++ c.toString))

/-- Gives a command unless the flag before it was given more than once. -/
def unlessRepeated (debug : Nat) (c : Except UsageError Command) : Except UsageError Command := do
  match ← c with
  | .help => return .help
  | c => if debug > 1 then throw (.repeated "--debug") else return c

/-- Reads the arguments of `help`.  It takes one command at most, and may be that command. -/
def helpArgs : List String → Except UsageError Command
  | [] => .ok .help
  | a :: rest =>
    if a = "print-ir" ∨ a = "liveness" ∨ a = "help" then
      match rest with
      | [] => .ok .help
      | b :: _ => .error (.unexpected b)
    else .error (.unexpected a)

/-- Reads a command line after `debug` flags. -/
def topArgs (debug : Nat) : List String → Except UsageError Command
  | [] => .error .missingCommand
  | a :: rest => do
    if a = "print-ir" then unlessRepeated debug (printArgs {} rest)
    else if a = "liveness" then unlessRepeated debug (livenessArgs {} rest)
    else if a = "help" then helpArgs rest
    else
      match Argument.ofString a with
      | .plain => throw (.unexpected a)
      | .divider => throw .missingCommand
      | .long name _ =>
        if name = "debug" then topArgs (debug + 1) rest
        else if name = "help" ∨ name = "version" then return .help
        else throw (.unexpected a)
      | .short letters =>
        match ← debugLetters letters debug with
        | some debug => topArgs debug rest
        | none => return .help

/-- The command that a command line gives. -/
def parse (args : List String) : Except UsageError Command := topArgs 0 args

/-! ## Running commands -/

/-- What a command leaves behind. -/
structure Outcome where
  /-- The exit code. -/
  code : UInt32
  /-- What is printed. -/
  stdout : String := ""
  /-- What is printed as errors. -/
  stderr : String := ""
deriving DecidableEq, Repr

/-- How the program is used. -/
def usage : String :=
  "usage: [-d] print-ir FILE\n       [-d] liveness FILE [-v] [-f NAME]\n"

/-- The outcome of a failed command. -/
def failed (message : String) : Outcome := { code := 1, stderr := "Error: " ++ message ++ "\n" }

/-- The program in a file. -/
def load (readFile : String → Option String) (file : String) : Except String Program := do
  match readFile file with
  | none => throw "No such file or directory (os error 2)"
  | some text => (Program.parse text).mapError SourceError.message

/-- A program with only the procedure of a given name. -/
def select (m : Program) : Option String → Except String Program
  | none => .ok m
  | some name =>
    match (m.find? name).bind m.funcs.get? with
    | some p => .ok (Program.empty.push p)
    | none => .error ("no function named @" ++ name)

/-- The annotated listing of a procedure. -/
def annotated (verbose : Bool) (p : Procedure) : Except Failure String := do
  (← Liveness.analyze p.graph).render p verbose ""

/-- The line that tells why a procedure has no annotated listing. -/
def complaint (p : Procedure) (e : Failure) : String :=
  "@" ++ p.name ++ ": analysis could not be completed: " ++ e.message ++ "\n"

/-- Prints a program with what is live, with blank lines between the procedures. -/
def printLiveness (m : Program) (verbose : Bool) : Outcome :=
  let results := m.funcs.toList.map fun p => (annotated verbose p).mapError (complaint p)
  let stdout := "\n".intercalate (results.map fun r => r.toOption.getD "")
  let complaints := results.filterMap fun
    | .ok _ => none
    | .error line => some line
  if complaints.isEmpty then { code := 0, stdout }
  else
    { code := 1
      stdout
      stderr := String.join complaints ++ "Error: " ++ toString complaints.length ++
        " function(s) failed to analyze\n" }

/-- Runs a command, with files read by `readFile`. -/
def run (readFile : String → Option String) : Command → Outcome
  | help => { code := 0, stdout := usage }
  | printIr file =>
    match load readFile file with
    | .error message => failed message
    | .ok m =>
      match m.render with
      | .error f => failed f.message
      | .ok text => { code := 0, stdout := text }
  | liveness file verbose func =>
    match (load readFile file).bind (select · func) with
    | .error message => failed message
    | .ok m => printLiveness m verbose

end Command

end SsaFlow
