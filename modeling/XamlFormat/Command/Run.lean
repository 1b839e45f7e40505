import XamlFormat.Command.Arguments
import XamlFormat.Command.Selection
import XamlFormat.Command.FileTask
import XamlFormat.Text.Utf8

/-! Carrying out a command line. -/
namespace XamlFormat

structure Run where
  /-- Zero for success. -/
  status : Nat
  output : Chars
  messages : List Message
  /-- The report that ends the program early, and its causes. -/
  failure : List String
  files : FileTree
  /-- The files that are written, in order. -/
  written : List Path

namespace Run

/-- A run that ends with a report. -/
def stopped (t : FileTree) (messages : List Message) (failure : List String) : Run :=
  { status := 1, output := [], messages, failure, files := t, written := [] }

/-- The status of a program that ends in the middle of its work. -/
def abortStatus : Nat := 101

def aborted (t : FileTree) (messages : List Message) : Run :=
  { status := abortStatus, output := [], messages, failure := [], files := t, written := [] }

/-- A run that writes to the output only. -/
def finished (t : FileTree) (messages : List Message) (status : Nat) (output : Chars) : Run :=
  { status, output, messages, failure := [], files := t, written := [] }

/-- A cause behind its label; its further lines are in the column behind the label. -/
def causeText (label cause : String) : String :=
  let margin := "".pushn ' ' label.length
  label ++ String.intercalate ("\n" ++ margin) ((Text.pieces '\n' cause.toList).map String.ofList) ++
    "\n"

/-- The report that ends the program, with its causes below it. Several causes are numbered. -/
def failureText (chain : List String) : String :=
  match chain with
  | [] => ""
  | [report] => "Error: " ++ report ++ "\n"
  | [report, cause] => "Error: " ++ report ++ "\n\nCaused by:\n" ++ causeText "    " cause
  | report :: causes =>
    let parts := causes.zipIdx.map fun (cause, n) => causeText ("    " ++ toString n ++ ": ") cause
    "Error: " ++ report ++ "\n\nCaused by:\n" ++ String.join parts

/-- Everything that a run says, from a level on. -/
def report (threshold : Level) (r : Run) : String :=
  String.join ((r.messages.filter (Message.isShown threshold)).map Message.line) ++
    failureText r.failure

end Run

structure Progress where
  files : FileTree
  output : Chars := []
  messages : List Message := []
  written : List Path := []
  changed : Nat := 0
  failed : List Path := []
  /-- The program has ended in the middle of a task. -/
  stopped : Bool := false

namespace Progress

def add (i : Invocation) (p : Path) (result : FileTask.Result) (messages : List Message)
    (before : Progress) : Progress :=
  { files := result.carryOut i p before.files
    output := before.output ++ result.output i p
    messages := before.messages ++ messages ++ result.messages i p
    written := before.written ++ if (result.new? i).isSome then [p] else []
    changed := before.changed + if result.isChanged then 1 else 0
    failed := before.failed ++ if result.isFailure i.passive then [p] else []
    stopped := result.isStopped }

/-- Works on one file, unless the program has ended. -/
def step (i : Invocation) (common : Option Settings) (before : Progress) (p : Path) : Progress :=
  if before.stopped then before
  else
    let (result, messages) := FileTask.look before.files i common p
    before.add i p result messages

def ofFiles (t : FileTree) (i : Invocation) (common : Option Settings) (paths : List Path) :
    Progress :=
  paths.foldl (step i common) { files := t }

end Progress

namespace Run

def isSequential (i : Invocation) : Bool := i.writeToOutput || i.jobs == some 1

def summary (i : Invocation) (total changed failed : Nat) : Chars × List Message :=
  let processed :=
    if isSequential i || i.passive then []
    else
      [.info ("Processed " ++ toString total ++ " files, " ++ toString changed ++
        " reformatted.")]
  if i.passive then
    ((toString (total - failed) ++ " of " ++ toString total ++ " files passed.\n").toList, [])
  else if failed > 0 then
    ([], processed ++
      [.warning (toString failed ++ " of " ++ toString total ++ " files could not be formatted.")])
  else ([], processed)

/-- Works on the files of an invocation, in the order in which they are given. -/
def onFiles (t : FileTree) (i : Invocation) (common : Option Settings) (paths : List Path) : Run :=
  let progress := Progress.ofFiles t i common paths
  let (output, messages) :=
    if progress.stopped then ([], [])
    else summary i paths.length progress.changed progress.failed.length
  { status :=
      if progress.stopped then abortStatus else if progress.failed.isEmpty then 0 else 1
    output := progress.output ++ output
    messages := progress.messages ++ messages
    failure := []
    files := progress.files
    written := progress.written }

def checkInput (t : FileTree) (s : Settings) (input : ByteArray) (messages : List Message) : Run :=
  match Contents.text? input with
  | none =>
    let cause := ((Utf8.invalid? input).map Utf8.Invalid.message).getD Contents.notText
    stopped t messages ((Contents.Fault.notText "stdin").chain.take 1 ++ [cause])
  | some text =>
    match check s .xaml text with
    | .error .overflow => aborted t messages
    | .error fault => stopped t messages (Contents.Fault.notStyled "stdin" fault).chain
    | .ok .unchanged => finished t messages 0 "PASS stdin\n".toList
    | .ok (.changed _) => finished t messages 1 "FAIL stdin\n".toList

def formatInput (t : FileTree) (s : Settings) (input : ByteArray) (messages : List Message) : Run :=
  match Contents.format s .xaml "stdin" input with
  | .error (.notStyled _ .overflow) => aborted t messages
  | .error fault => stopped t messages fault.chain
  | .ok formatted => finished t messages 0 ((Contents.text? formatted.output).getD [])

def onInput (t : FileTree) (i : Invocation) (s : Settings) (input : ByteArray)
    (messages : List Message) : Run :=
  if FileTask.maxBytes < input.size then
    stopped t messages
      ["stdin input too large (" ++ FileTask.megabytes input.size ++ " exceeds limit of " ++
        FileTask.megabytes FileTask.maxBytes ++ ")"]
  else
    let remarks := match Contents.text? input with
      | some text => (Remark.onText s text).map fun r => Message.debug r.message
      | none => []
    let messages := messages ++ remarks
    if i.passive then checkInput t s input messages else formatInput t s input messages

def commonSettings (t : FileTree) (i : Invocation) :
    Except String (Option Settings) × List Message :=
  if i.settingsFile.isSome then
    let (result, messages) := i.settingsFor t t.workingPath
    (result.map some, messages)
  else (.ok none, [])

/-- Carries out an invocation. Files that are worked on side by side get done in any order; `arrange`
says in which. -/
def ofInvocation (t : FileTree) (input : ByteArray) (arrange : List Path → List Path)
    (i : Invocation) : Run :=
  match i.problem? with
  | some problem => stopped t [] [problem]
  | none =>
    if i.readsInput then
      match i.settingsFor t t.workingPath with
      | (.error report, messages) => stopped t messages [report]
      | (.ok s, messages) => onInput t i s input messages
    else
      match commonSettings t i with
      | (.error report, messages) => stopped t messages [report]
      | (.ok common, messages) =>
        let (paths, more) := Selection.files t i
        let messages := messages ++ more
        if paths.isEmpty then
          finished t (messages ++ [.info "No XAML files found to format."]) 0 []
        else if i.writeToOutput && paths.length != 1 then
          stopped t messages [Invocation.singleInputRequired]
        else
          let run := onFiles t i common (if isSequential i then paths else arrange paths)
          { run with messages := messages ++ run.messages }

end Run
end XamlFormat
