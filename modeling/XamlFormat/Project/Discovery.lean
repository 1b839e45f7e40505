import XamlFormat.Data.Json
import XamlFormat.Data.Toml
import XamlFormat.Project.Contents
import XamlFormat.Project.FileTree
import XamlFormat.Project.Message
import XamlFormat.Settings.File

/-! The settings of a project. The settings file of a file is the nearest one in the folders above
it, where the search does not leave the folder that marks a project. -/
namespace XamlFormat

namespace SettingsFile

/-- The names of settings files; in a folder with both the first one counts. -/
def fileNames : List Path := ["xamlfmt.toml", "Settings.XamlStyler"].map Path.ofString

/-- Entries that mark the top folder of a project. -/
def projectMarkers : List Path := [".git", ".vs"].map Path.ofString

inductive Fault where
  | unreadable (why : FileTree.Unreadable)
  | notText
  | malformed (format : Format)
deriving DecidableEq, Repr

def Fault.message : Fault → String
  | unreadable why => why.message
  | notText => Contents.notText
  | malformed .toml => "TOML parse error"
  | malformed .json => "JSON parse error"

def formatOf (p : Path) : Format := if p.hasExtension "toml".toList then .toml else .json

def readText? (format : Format) (text : Chars) : Option (List Change) :=
  let data? :=
    match format with
    | .toml => Toml.read? text
    | .json => Json.read? (text.dropWhile (· == Document.mark))
  data?.bind (changes? format)

def load (t : FileTree) (p : Path) : Except Fault (List Change) :=
  match t.read p with
  | .error why => .error (.unreadable why)
  | .ok bytes =>
    match Contents.text? bytes with
    | none => .error .notText
    | some text =>
      match readText? (formatOf p) text with
      | none => .error (.malformed (formatOf p))
      | some changes => .ok changes

inductive Search where
  | found (file : Path)
  /-- The top folder of a project, which has no settings file. -/
  | stopped (folder : Path)
  | exhausted
deriving DecidableEq, Repr

def Search.file? : Search → Option Path
  | found file => some file
  | stopped _ => none
  | exhausted => none

def Search.messages : Search → List Message
  | found file => [.debug ("Found config: " ++ file.toString)]
  | stopped folder => [.debug ("Reached project root: " ++ folder.toString)]
  | exhausted => []

def searchFolders (t : FileTree) : List Path → Search
  | [] => .exhausted
  | folder :: rest =>
    match (fileNames.map folder.join).find? t.isFile with
    | some file => .found file
    | none =>
      if projectMarkers.any fun marker => t.isPresent (folder.join marker) then .stopped folder
      else searchFolders t rest

/-- The folder that the search for a path starts in: that of a file, a folder itself, and the
working folder for what is not there. -/
def startFolder (t : FileTree) (start : Path) : Path :=
  if t.isFile start then start.parent?.getD start
  else if t.isFolder start then start
  else t.workingPath

def search (t : FileTree) (start : Path) : Search :=
  searchFolders t (startFolder t start).ancestors

/-- The changes of the settings file for a file or a folder. A file that cannot be used is reported
and changes nothing. -/
def discover (t : FileTree) (start : Path) : List Change × List Message :=
  let result := search t start
  match result.file? with
  | none => ([], result.messages)
  | some file =>
    match load t file with
    | .ok changes => (changes, result.messages)
    | .error fault =>
      ([], result.messages ++
        [.warning ("failed to load " ++ file.toString ++ ": " ++ fault.message)])

end SettingsFile
end XamlFormat
