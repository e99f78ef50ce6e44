import BisayaPlus.Interpreter

/-!
The command line: one source file, run or only checked. A run is reported by its exit code, its
output and one headline on what went wrong.
-/

namespace BisayaPlus

/-- What the arguments ask for. Verbosity has no influence on a report. -/
structure Options where
  file : String
  checkOnly : Bool
  verbosity : Nat
  deriving DecidableEq

/-- Why arguments give no options: they ask for help, or they cannot be understood. -/
inductive NoOptions where
  | help
  | misuse
  deriving DecidableEq

structure OptionsDraft where
  file? : Option String
  checkOnly : Bool
  verbosity : Nat
  deriving DecidableEq

namespace OptionsDraft

def empty : OptionsDraft :=
  ⟨none, false, 0⟩

def addFile (d : OptionsDraft) (name : String) : Except NoOptions OptionsDraft :=
  if d.file?.isNone then .ok { d with file? := some name } else .error .misuse

def addLetter (d : OptionsDraft) (letter : Char) : Except NoOptions OptionsDraft :=
  if letter = 'v' then .ok { d with verbosity := d.verbosity + 1 }
  else if letter = 'h' then .error .help
  else .error .misuse

def addWord (d : OptionsDraft) (word : String) : Except NoOptions OptionsDraft :=
  if word = "check" then
    if d.checkOnly then .error .misuse else .ok { d with checkOnly := true }
  else if word = "verbose" then .ok { d with verbosity := d.verbosity + 1 }
  else if word = "help" then .error .help
  else .error .misuse

/-- Adds the arguments in their order. Two hyphens begin a word and one begins some letters, but
one hyphen alone names a file, and after two hyphens alone everything does. -/
def addAll (d : OptionsDraft) : List String → Except NoOptions OptionsDraft
  | [] => .ok d
  | argument :: others =>
    match argument.toList with
    | ['-', '-'] => others.foldlM addFile d
    | '-' :: '-' :: word => do (← d.addWord (String.ofList word)).addAll others
    | '-' :: c :: letters => do (← (c :: letters).foldlM addLetter d).addAll others
    | _ => do (← d.addFile argument).addAll others

end OptionsDraft

def Options.ofArguments (arguments : List String) : Except NoOptions Options := do
  let d ← OptionsDraft.empty.addAll arguments
  match d.file? with
  | some file => return ⟨file, d.checkOnly, d.verbosity⟩
  | none => throw .misuse

inductive Unreadable where
  | missing
  | directory
  | undecodable
  | other (reason : String)
  deriving DecidableEq

def Unreadable.reason : Unreadable → String
  | .missing => "No such file or directory (os error 2)"
  | .directory => "Is a directory (os error 21)"
  | .undecodable => "stream did not contain valid UTF-8"
  | .other reason => reason

structure Report where
  exitCode : Nat
  output : String
  headline : String
  deriving DecidableEq

namespace Report

def usage : String :=
  "Usage: bisaya [OPTIONS] <FILE>\n"

def help : String :=
  "A tree-walking interpreter for the Bisaya++ teaching language\n\n" ++ usage ++
  "\nArguments:\n" ++
  "  <FILE>  The source file to execute\n" ++
  "\nOptions:\n" ++
  "      --check       Only lex and parse the file, reporting the first error\n" ++
  "  -v, --verbose...  Log interpreter activity to stderr (repeat for more detail)\n" ++
  "  -h, --help        Print help\n"

def ofNoOptions : NoOptions → Report
  | .help => ⟨0, help, ""⟩
  | .misuse => ⟨2, "", usage⟩

def unreadable (file : String) (cause : Unreadable) : Report :=
  ⟨1, "", "Error reading file '" ++ file ++ "': " ++ cause.reason⟩

/-- Output that was written before the end stays. -/
def interrupted (output : String) : Interrupt → Report
  | .fault d => ⟨1, output, "Error: " ++ d.display⟩
  | .budgetSpent => ⟨1, output, "Error: too many turns of a loop"⟩

def ofSource (budget : Nat) (checkOnly : Bool) (source : String) (input : List UInt8) : Report :=
  match Program.ofSource source with
  | .error d => interrupted "" (.fault d)
  | .ok p =>
    if checkOnly then
      ⟨0, "", ""⟩
    else
      match p.exec budget (.start (.ofInput input)) with
      | .ok _ m => ⟨0, m.console.output, ""⟩
      | .error i m => interrupted m.console.output i

def ofFile (budget : Nat) (options : Options) (contents : Except Unreadable (List UInt8))
    (input : List UInt8) : Report :=
  match contents with
  | .error cause => unreadable options.file cause
  | .ok bytes =>
    match Text.decode? bytes with
    | none => unreadable options.file .undecodable
    | some source => ofSource budget options.checkOnly source input

/-- Whether a source text asks for input anywhere, so that a run may read some. -/
def asksForInput (source : String) : Bool :=
  match Token.ofSource source with
  | .ok tokens => tokens.any (·.isKeyword .dawat)
  | .error _ => false

end Report

end BisayaPlus
