import XamlFormat.Project.Message
import XamlFormat.Project.Path
import XamlFormat.Settings.Change

/-! What a command line asks for. -/
namespace XamlFormat

structure Invocation where
  /-- Files and folders; none, or a single hyphen, stands for the standard input. -/
  inputs : List Path := []
  recursive : Bool := false
  /-- Patterns of files that are left out. -/
  exclude : List String := []
  /-- Further extensions of files to format. -/
  extensions : List String := []
  /-- Format every file that is named, whatever its extension. -/
  ignoreExtension : Bool := false
  /-- A settings file for all inputs, in place of those of their projects. -/
  settingsFile : Option Path := none
  /-- Only check. -/
  passive : Bool := false
  writeToOutput : Bool := false
  jobs : Option Nat := none
  debug : Bool := false
  silent : Bool := false
  /-- Changes of settings that win over those of settings files. -/
  changes : List Change := []
deriving DecidableEq, Repr

namespace Invocation

/-- The report on more than one input where the result goes to the output. -/
def singleInputRequired : String := "--write-to-stdout accepts a single input file"

/-- What is wrong with an invocation although each of its options is right. -/
def problem? (i : Invocation) : Option String :=
  if i.writeToOutput && decide (1 < i.inputs.length) then some singleInputRequired else none

def readsInput (i : Invocation) : Bool :=
  match i.inputs with
  | [] => true
  | [p] => p.chars == ['-']
  | _ => false

def threshold (i : Invocation) : Level :=
  if i.debug then .debug else if i.silent then .warning else .info

def addGroup (group : Chars) : List Change → List Change
  | [] => [.attributeGroups [group]]
  | .attributeGroups groups :: rest => .attributeGroups (groups ++ [group]) :: rest
  | change :: rest => change :: addGroup group rest

end Invocation
end XamlFormat
