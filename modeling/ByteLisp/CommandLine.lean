/-
  ByteLisp: the command line.

  * `CommandLine.parse` reads the arguments, `CommandLine.colours` decides about
    colours;
  * `CommandLine.run` does what they ask for and gives what is written and the
    exit code. How a file is read is a parameter.
-/
import ByteLisp.Engine

namespace ByteLisp

/-- Where the program comes from. -/
inductive Input where
  | file (path : String)
  | inline (text : String)
deriving Repr, DecidableEq

/-- What the arguments ask for. -/
structure Job where
  /-- Whether the code is listed before it is run. -/
  listing : Bool
  input : Input
deriving Repr, DecidableEq

/-- Why a file cannot be read. -/
inductive FileError where
  | notFound
  | isDirectory
  | notText
  | other (reason : String)
deriving Repr, DecidableEq

/-- The text of the reason. -/
def FileError.message : FileError → String
  | notFound => "No such file or directory (os error 2)"
  | isDirectory => "Is a directory (os error 21)"
  | notText => "stream did not contain valid UTF-8"
  | other reason => reason

/-- What a command writes, and its exit code. -/
structure Output where
  status : Nat
  stdout : String
  stderr : String
deriving Repr, DecidableEq

namespace CommandLine

/-- How the command is used. -/
def usage : String := "usage: eva [--disasm] <file.eva> | eva [--disasm] -e '<source>'"

/-- Whether colours are on, given what the environment says of `CLICOLOR`,
    `CLICOLOR_FORCE` and `NO_COLOR`, and whether the output is a terminal. -/
def colours (clicolor force no : Option String) (terminal : Bool) : Bool :=
  let on (x : String) : Bool := x ≠ "0"
  (force.map on).getD false || (no.isNone && (clicolor.map on).getD true && terminal)

/-- Reads the arguments that follow those of which `listing` and `input` are known. -/
def parseFrom (listing : Bool) (input : Option Input) : List String → Except String Job
  | [] =>
    match input with
    | some input => .ok ⟨listing, input⟩
    | none => .error usage
  | "--disasm" :: args => parseFrom true input args
  | "-e" :: args =>
    match args with
    | [] => .error "`-e` requires source text"
    | text :: args =>
      match input with
      | some _ => .error usage
      | none => parseFrom listing (some (.inline text)) args
  | arg :: args =>
    if arg = "-h" ∨ arg = "--help" then .error usage
    else
      match input with
      | some _ => .error usage
      | none => parseFrom listing (some (.file arg)) args

/-- Reads the arguments. -/
def parse (args : List String) : Except String Job := parseFrom false none args

/-- Compiles and runs a program; a listing, if one is asked for, is written even if
    the run fails. -/
def runSource (budget : Nat) (colours listing : Bool) (name text : String) : Output :=
  let src := text.toList
  let failed (out : String) (e : ProgramError) : Output :=
    ⟨1, out, (e.report name src).render colours⟩
  match (Engine.compile src).run (Engine.start .usual .quiet) with
  | .error e _ => failed "" e
  | .ok main engine =>
    let listed := if listing then Listing.all engine.heap engine.globals main else .ok ""
    match listed with
    | .error e => failed "" (.decode e)
    | .ok text =>
      let out := if listing then text ++ "\n" else ""
      match (Engine.execute budget main).run engine with
      | .error e _ => failed out e
      | .ok none _ => ⟨1, out, ""⟩
      | .ok (some v) engine => ⟨0, out ++ engine.heap.display v ++ "\n", ""⟩

/-- Does what the arguments ask for. -/
def run {m : Type → Type} [Monad m] (readFile : String → m (Except FileError String))
    (budget : Nat) (colours : Bool) (args : List String) : m Output := do
  match parse args with
  | .error message => pure ⟨2, "", message ++ "\n"⟩
  | .ok ⟨listing, .inline text⟩ => pure (runSource budget colours listing "<inline>" text)
  | .ok ⟨listing, .file path⟩ =>
    match ← readFile path with
    | .ok text => pure (runSource budget colours listing path text)
    | .error e =>
      let label := Style.paint colours Severity.error.style "error"
      pure ⟨1, "", s!"{label}: can't open file {path}: {e.message}\n"⟩

end CommandLine

end ByteLisp
