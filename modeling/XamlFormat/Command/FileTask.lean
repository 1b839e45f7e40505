import XamlFormat.Command.Invocation
import XamlFormat.Project.Discovery
import XamlFormat.Remark

/-! The work on one file. A task looks at the files, and then its result is carried out: looking
changes nothing, and carrying out a result changes at most the file that the task is for. -/
namespace XamlFormat

/-- The settings for a path: those of the settings file that the invocation names, or of the one
found for the path, with the changes of the invocation on top. -/
def Invocation.settingsFor (t : FileTree) (i : Invocation) (start : Path) :
    Except String Settings × List Message :=
  let finish (changes : List Change) : Except String Settings :=
    let s := (Settings.standard.change changes).change i.changes
    match s.problem? with
    | some problem => .error ("Invalid configuration: " ++ problem.message)
    | none => .ok s
  match i.settingsFile with
  | some file =>
    let messages := [.debug ("Using explicit config file: " ++ file.toString)]
    match SettingsFile.load t file with
    | .error fault => (.error fault.message, messages)
    | .ok changes => (finish changes, messages)
  | none =>
    let (changes, messages) := SettingsFile.discover t start
    (finish changes, messages)

namespace FileTask

/-- Larger files are not formatted. -/
def maxBytes : Nat := 100 * 1024 * 1024

def megabytes (n : Nat) : String := ToString.toString (n / (1024 * 1024)) ++ " MB"

inductive Result where
  /-- The file is only checked. -/
  | checked (changed : Bool)
  | formatted (output : ByteArray) (changed : Bool)
  | skipped
  /-- A report and its causes. -/
  | failed (chain : List String)
  /-- The program ends before the task does. -/
  | stopped

def Result.ofFault (name : String) : Fault → Result
  | .overflow => stopped
  | fault => failed (Contents.Fault.notStyled name fault).chain

def check (s : Settings) (p : Path) (text : Chars) : Result :=
  match XamlFormat.check s (Dialect.ofPath p) text with
  | .error fault => .ofFault p.toString fault
  | .ok .unchanged => .checked false
  | .ok (.changed _) => .checked true

def format (s : Settings) (p : Path) (text : Chars) : Result :=
  match Contents.format s (Dialect.ofPath p) p.toString (Contents.ofText text) with
  | .error (.notStyled name fault) => .ofFault name fault
  | .error fault => .failed fault.chain
  | .ok formatted => .formatted formatted.output formatted.changed

def judge (i : Invocation) (s : Settings) (p : Path) (bytes : ByteArray) :
    Result × List Message :=
  match Contents.text? bytes with
  | none => (.failed ["failed to read " ++ p.toString, Contents.notText], [])
  | some text =>
    (if i.passive then check s p text else format s p text,
      (Remark.onText s text).map fun r => Message.debug r.message)

def inspect (t : FileTree) (i : Invocation) (s : Settings) (p : Path) : Result × List Message :=
  match t.read p with
  | .error why => (.failed [why.message], [])
  | .ok bytes =>
    if maxBytes < bytes.size then
      (.skipped,
        [.warning ("Skipping " ++ p.toString ++ " (" ++ megabytes bytes.size ++
          " exceeds limit of " ++ megabytes maxBytes ++ ")")])
    else judge i s p bytes

/-- The result for a file, whose settings are given or belong to its project. -/
def look (t : FileTree) (i : Invocation) (common : Option Settings) (p : Path) :
    Result × List Message :=
  match common with
  | some s => inspect t i s p
  | none =>
    match i.settingsFor t p with
    | (.error report, messages) => (.failed [report], messages)
    | (.ok s, messages) =>
      let (result, more) := inspect t i s p
      (result, messages ++ more)

namespace Result

def isChanged : Result → Bool
  | checked changed => changed
  | formatted _ changed => changed
  | _ => false

def isStopped : Result → Bool
  | stopped => true
  | _ => false

/-- Whether a file counts as failed. Where files are only checked, one that styling would change
fails. -/
def isFailure (passive : Bool) : Result → Bool
  | failed _ => true
  | r => passive && r.isChanged

/-- The contents that a result puts into the file. -/
def new? (i : Invocation) : Result → Option ByteArray
  | formatted output true => if i.writeToOutput then none else some output
  | _ => none

def carryOut (i : Invocation) (p : Path) (t : FileTree) (r : Result) : FileTree :=
  match r.new? i with
  | some output => t.overwrite p output
  | none => t

def output (i : Invocation) (p : Path) (r : Result) : Chars :=
  let verdict (word : String) : Chars := (word ++ " " ++ p.toString ++ "\n").toList
  if i.passive then
    match r with
    | skipped => []
    | stopped => []
    | r => verdict (if r.isFailure true then "FAIL" else "PASS")
  else if i.writeToOutput then
    match r with
    | formatted output _ => (Contents.text? output).getD []
    | _ => []
  else []

def messages (i : Invocation) (p : Path) : Result → List Message
  | failed chain => [.error (String.intercalate ": " (p.toString :: chain))]
  | formatted _ changed =>
    if i.writeToOutput then []
    else if changed then [.info ("Formatting: " ++ p.toString)]
    else [.debug ("Unchanged: " ++ p.toString)]
  | _ => []

end Result

end FileTask
end XamlFormat
