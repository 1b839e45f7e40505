import XamlFormat.Command.Run

/-! The program as a function of its arguments, its input and the files that it finds. -/
namespace XamlFormat

def programName : String := "xamlfmt"

def programVersion : String := "0.1.0"

def usageLine : String := "Usage: " ++ programName ++ " [OPTIONS] [FILE]...\n"

def CommandOption.spelling (o : CommandOption) : String :=
  let start := match o.letter with
    | some letter => "-" ++ letter.toString ++ ", "
    | none => "    "
  let ending := match o.effect with
    | .toggle _ => "[=<BOOL>]"
    | .value _ => " <VALUE>"
    | .repeated _ => " <VALUE>"
    | _ => ""
  "  " ++ start ++ o.written ++ ending

def helpText : String :=
  let lines := CommandOption.all.map fun o => o.spelling ++ "\n          " ++ o.about ++ "\n"
  "Deterministic formatter for XAML markup\n\n" ++ usageLine ++
    "\nArguments:\n  [FILE]...  Files or directories to format ('-' for stdin)\n\nOptions:\n" ++
    String.join lines

namespace UsageFault

def message : UsageFault → String
  | unknownOption name => "unexpected argument '" ++ name ++ "' found"
  | missingValue option =>
    "a value is required for '" ++ option ++ "' but none was supplied"
  | emptyPath => "a value is required for a path but none was supplied"
  | invalidFlag value option =>
    "invalid value '" ++ value ++ "' for '" ++ option ++ "' [possible values: true, false]"
  | malformedValue value option => "invalid value '" ++ value ++ "' for '" ++ option ++ "'"
  | conflict first second =>
    if first = second then "the argument '" ++ first ++ "' cannot be used multiple times"
    else "the argument '" ++ first ++ "' cannot be used with '" ++ second ++ "'"
  | unneededValue value option =>
    "unexpected value '" ++ value ++ "' for '" ++ option ++ "' found; no more were expected"
  | help => helpText
  | version => programName ++ " " ++ programVersion

/-- Whether nothing is wrong and the answer goes to the output. -/
def isRequest : UsageFault → Bool
  | help => true
  | version => true
  | _ => false

def status (f : UsageFault) : Nat := if f.isRequest then 0 else 2

def output : UsageFault → String
  | help => helpText
  | version => programName ++ " " ++ programVersion ++ "\n"
  | _ => ""

def report (f : UsageFault) : String :=
  if f.isRequest then ""
  else
    "error: " ++ f.message ++ "\n\n" ++ usageLine ++ "\nFor more information, try '--help'.\n"

end UsageFault

structure Ending where
  status : Nat
  output : Chars
  report : String
  files : FileTree
  /-- The files that are written, in order. -/
  written : List Path

def runProgram (t : FileTree) (input : ByteArray) (arrange : List Path → List Path)
    (words : List String) : Ending :=
  match Arguments.read words with
  | .error fault =>
    { status := fault.status, output := fault.output.toList, report := fault.report, files := t,
      written := [] }
  | .ok i =>
    let run := Run.ofInvocation t input arrange i
    { status := run.status, output := run.output, report := run.report i.threshold,
      files := run.files, written := run.written }

end XamlFormat
