import ExtendedBnf.Conversion
import ExtendedBnf.Position

/-!
# The command line

The tool reads a grammar file, converts it, and writes the result to a file or to
standard output. Arguments are gone through from the left; an option may await
its value in the next one. What the tool asks of the file system is given to
`run`, which says what to print and how to exit.
-/
namespace ExtendedBnf
namespace CommandLine

/-- What the user asks for. -/
structure Options where
  input : Text
  target : Option Target
  output : Option Text
  expandPlus : Bool
  verbosity : Nat
  deriving DecidableEq, Repr

/-- The options of the tool. -/
inductive Switch where
  | target
  | output
  | expandPlus
  | verbose
  | help
  deriving DecidableEq, Repr

namespace Switch

def short : Switch → Option Char
  | target => some 't'
  | output => some 'o'
  | expandPlus => none
  | verbose => some 'v'
  | help => some 'h'

def long : Switch → Text
  | target => "target".toList
  | output => "output".toList
  | expandPlus => "expand-plus".toList
  | verbose => "verbose".toList
  | help => "help".toList

/-- Whether the option has a value. -/
def takesValue : Switch → Bool
  | target | output => true
  | expandPlus | verbose | help => false

def all : List Switch := [target, output, expandPlus, verbose, help]

def ofShort? (c : Char) : Option Switch := all.find? fun s => s.short == some c

def ofLong? (name : Text) : Option Switch := all.find? fun s => s.long == name

end Switch

/-- What is wrong with the arguments. -/
inductive Misuse where
  | missingInput
  | unexpectedArgument (argument : Text)
  | unknownOption (argument : Text)
  | missingValue (option : Switch)
  | emptyValue
  | unexpectedValue (option : Switch)
  | repeatedOption (option : Switch)
  | unknownTarget (name : Text)
  deriving DecidableEq, Repr

def Misuse.message : Misuse → Text
  | missingInput => "no grammar file is given".toList
  | unexpectedArgument argument => "unexpected argument ".toList ++ argument.marked
  | unknownOption argument => "unknown option ".toList ++ argument.marked
  | missingValue option => "a value is required for --".toList ++ option.long
  | emptyValue => "a path must not be empty".toList
  | unexpectedValue option => "no value is allowed for --".toList ++ option.long
  | repeatedOption option => "more than one --".toList ++ option.long
  | unknownTarget name => Target.unknownMessage name

/-- Why the arguments do not ask for a conversion. -/
inductive Stop where
  | help
  | misuse (misuse : Misuse)
  deriving DecidableEq, Repr

/-- What is known after some of the arguments. -/
structure State where
  input : Option Text := none
  target : Option Target := none
  output : Option Text := none
  expandPlus : Bool := false
  verbosity : Nat := 0
  /-- The option whose value comes next. -/
  awaiting : Option Switch := none
  /-- Whether all further arguments are plain. -/
  plainOnly : Bool := false
  deriving DecidableEq, Repr

namespace State

/-- Takes an argument that is no option. -/
def takePlain (argument : Text) (s : State) : Except Misuse State :=
  if argument = [] then .error .emptyValue
  else
    match s.input with
    | some _ => .error (.unexpectedArgument argument)
    | none => .ok { s with input := some argument }

/-- Takes the value of an option. -/
def takeValue (option : Switch) (value : Text) (s : State) : Except Misuse State :=
  match option with
  | .target =>
    if s.target.isSome then .error (.repeatedOption .target)
    else
      match Target.ofName? value with
      | some target => .ok { s with target := some target, awaiting := none }
      | none => .error (.unknownTarget value)
  | .output =>
    if s.output.isSome then .error (.repeatedOption .output)
    else if value = [] then .error .emptyValue
    else .ok { s with output := some value, awaiting := none }
  | option => .error (.unexpectedValue option)

/-- Takes an option that has no value. -/
def takeFlag (option : Switch) (s : State) : Except Stop State :=
  match option with
  | .expandPlus =>
    if s.expandPlus then .error (.misuse (.repeatedOption .expandPlus))
    else .ok { s with expandPlus := true }
  | .verbose => .ok { s with verbosity := s.verbosity + 1 }
  | .help => .error .help
  | option => .error (.misuse (.missingValue option))

/-- Takes the letters after a `-`. A letter whose option has a value takes the rest as the value,
with or without `=`, or leaves it to the next argument. -/
def takeLetters (argument : Text) : Text → State → Except Stop State
  | [], s => .ok s
  | c :: r, s =>
    match Switch.ofShort? c with
    | none => .error (.misuse (.unknownOption argument))
    | some option =>
      if option.takesValue then
        match r with
        | [] => .ok { s with awaiting := some option }
        | '=' :: value => (s.takeValue option value).mapError .misuse
        | value => (s.takeValue option value).mapError .misuse
      else do
        let s ← s.takeFlag option
        takeLetters argument r s

/-- Takes what follows a `--`. -/
def takeLong (argument : Text) (s : State) : Except Stop State :=
  let name := argument.takeWhile (· != '=')
  match Switch.ofLong? name, argument.dropWhile (· != '=') with
  | none, _ => .error (.misuse (.unknownOption ("--".toList ++ argument)))
  | some option, [] =>
    if option.takesValue then .ok { s with awaiting := some option } else s.takeFlag option
  | some option, _ :: value => (s.takeValue option value).mapError .misuse

/-- Takes the next argument. -/
def take (s : State) (argument : Text) : Except Stop State :=
  match s.awaiting, argument with
  | some option, '-' :: _ :: _ => .error (.misuse (.missingValue option))
  | some option, value => (s.takeValue option value).mapError .misuse
  | none, argument =>
    if s.plainOnly then (s.takePlain argument).mapError .misuse
    else
      match argument with
      | ['-', '-'] => .ok { s with plainOnly := true }
      | '-' :: '-' :: long => s.takeLong long
      | '-' :: c :: letters => takeLetters argument (c :: letters) s
      | plain => (s.takePlain plain).mapError .misuse

/-- The options after the last argument. -/
def finish (s : State) : Except Stop Options :=
  match s.awaiting, s.input with
  | some option, _ => .error (.misuse (.missingValue option))
  | none, none => .error (.misuse .missingInput)
  | none, some input => .ok ⟨input, s.target, s.output, s.expandPlus, s.verbosity⟩

end State

/-- What the arguments ask for. -/
def Options.ofArguments (arguments : List Text) : Except Stop Options := do
  let s ← arguments.foldlM State.take {}
  s.finish

/-- The last part of a path, if it names a file. -/
def fileName? (path : Text) : Option Text :=
  match ((path.segments '/').filter fun part => part != [] && part != ['.']).getLast? with
  | some ['.', '.'] => none
  | name => name

/-- What follows the last dot of a file's name. A dot in front does not count. -/
def extension? (path : Text) : Option Text := do
  let name ← fileName? path
  let ext := name.takeEndWhile (· != '.')
  if ext.length + 1 < name.length then some ext else none

/-- The target asked for, or else the one the output file is named for, or else pest. -/
def Options.chosenTarget (options : Options) : Target :=
  (options.target.or (options.output.bind extension? |>.bind Target.ofExtension?)).getD .pest

/-- Why a file could not be read or written. -/
inductive FileProblem where
  | notFound
  | notText
  | other (cause : Text)
  deriving DecidableEq, Repr

def FileProblem.describe : FileProblem → Text
  | notFound => "No such file or directory (os error 2)".toList
  | notText => "stream did not contain valid UTF-8".toList
  | other cause => cause

/-- Reading and writing of files. -/
structure Files (m : Type → Type) where
  read : Text → m (Except FileProblem ByteArray)
  write : Text → ByteArray → m (Except FileProblem Unit)

/-- What the tool prints and how it exits. Notes on the run go before errors. -/
structure Outcome where
  exitCode : UInt32
  output : Text := []
  notes : Text := []
  errors : Text := []
  deriving DecidableEq, Repr

/-- The outcome of a conversion that fails. -/
def Outcome.failure (message : Text) : Outcome :=
  { exitCode := 1, errors := "error: ".toList ++ message ++ ['\n'] }

/-- The help text. -/
def usage : Text :=
  ["Convert extended BNF grammars into pest or ungrammar notation\n",
   "\n",
   "Usage: extended-bnf [OPTIONS] <INPUT>\n",
   "\n",
   "Options:\n",
   "  -t, --target <TARGET>  Output notation, `pest` or `ungram`\n",
   "  -o, --output <OUTPUT>  Where to write the result, standard output if omitted\n",
   "      --expand-plus      Write `X+` as `X X*` in pest output too\n",
   "  -v, --verbose          Say more about the run\n",
   "  -h, --help             Print help\n"].flatMap String.toList

/-- The message for a fault in a source read from `path`. -/
def faultMessage (path source : Text) (fault : Fault) : Text :=
  let place := match fault.offset? with
    | some offset =>
      let position := Position.ofOffset source offset
      ':' :: Text.ofNat position.line ++ ':' :: Text.ofNat position.column
    | none => []
  path ++ place ++ ": ".toList ++ fault.message

section
variable {m : Type → Type} [Monad m]

/-- The text in a file. -/
def readText (files : Files m) (path : Text) : m (Except FileProblem Text) := do
  match ← files.read path with
  | .error problem => return .error problem
  | .ok bytes =>
    match String.fromUTF8? bytes with
    | some text => return .ok text.toList
    | none => return .error .notText

/-- Converts as the options say. -/
def convert (files : Files m) (options : Options) : m Outcome := do
  match ← readText files options.input with
  | .error problem =>
    return .failure ("failed to read ".toList ++ options.input ++ ": ".toList ++ problem.describe)
  | .ok source =>
    match convertText options.chosenTarget options.expandPlus source with
    | .error fault => return .failure (faultMessage options.input source fault)
    | .ok text =>
      match options.output with
      | none => return { exitCode := 0, output := text }
      | some path =>
        match ← files.write path (String.ofList text).toUTF8 with
        | .error problem =>
          return .failure ("failed to write ".toList ++ path ++ ": ".toList ++ problem.describe)
        | .ok () => return { exitCode := 0 }

/-- Does what the arguments ask for. With `--verbose` there is a note of what is converted. -/
def run (files : Files m) (arguments : List Text) : m Outcome := do
  match Options.ofArguments arguments with
  | .error .help => return { exitCode := 0, output := usage }
  | .error (.misuse misuse) =>
    return { exitCode := 2, errors := "error: ".toList ++ misuse.message ++ "\n\n".toList ++ usage }
  | .ok options =>
    let note := "converting ".toList ++ options.input ++ " to ".toList ++
      options.chosenTarget.extension ++ ['\n']
    return { ← convert files options with notes := if options.verbosity = 0 then [] else note }

end
end CommandLine
end ExtendedBnf
