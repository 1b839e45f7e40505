import XamlFormat.Order.StableSort
import XamlFormat.Project.Path

/-! Files and folders. -/
namespace XamlFormat

/-- The names that lead to a file or folder from the root. -/
abbrev Location := List Chars

/-- A file, or a folder with what is in it by name. -/
inductive Entry where
  | file (bytes : ByteArray)
  | folder (children : List (Chars × Entry))

namespace Entry

def emptyFolder : Entry := folder []

def isFolder : Entry → Bool
  | file _ => false
  | folder _ => true

def children : Entry → List (Chars × Entry)
  | file _ => []
  | folder children => children

def get? : Entry → Location → Option Entry
  | e, [] => some e
  | e, name :: rest => (e.children.lookup name).bind fun child => child.get? rest

def setChild (name : Chars) (child : Entry) : List (Chars × Entry) → List (Chars × Entry)
  | [] => [(name, child)]
  | (n, old) :: rest =>
    if n = name then (n, child) :: rest else (n, old) :: setChild name child rest

/-- Puts an entry at a location, with the folders on the way to it. -/
def put : Entry → Location → Entry → Entry
  | _, [], new => new
  | e, name :: rest, new =>
    let old := (e.children.lookup name).getD emptyFolder
    folder (setChild name (old.put rest new) e.children)

def modify : Entry → Location → (Entry → Entry) → Entry
  | e, [], f => f e
  | file bytes, _ :: _, _ => file bytes
  | folder children, name :: rest, f =>
    folder (children.map fun (n, child) => (n, if n = name then child.modify rest f else child))

/-- A file with other contents; a folder stays as it is. -/
def withBytes (bytes : ByteArray) : Entry → Entry
  | file _ => file bytes
  | folder children => folder children

def withoutChild (name : Chars) (e : Entry) : Entry :=
  match e with
  | file bytes => file bytes
  | folder children => folder (children.filter fun child => child.1 != name)

/-- The files below an entry, down to `depth` levels, each behind the path of the entry. Names come
in order. -/
def filesBelow : Nat → Path → Entry → List Path
  | 0, _, _ => []
  | depth + 1, p, e =>
    (stableSort (fun a b => (compare a.1 b.1).isLE) e.children).flatMap fun (name, child) =>
      match child with
      | file _ => [p.join ⟨name⟩]
      | folder _ => filesBelow depth (p.join ⟨name⟩) child

mutual

def files (loc : Location) : Entry → List (Location × ByteArray)
  | file bytes => [(loc, bytes)]
  | folder children => filesOf loc children

def filesOf (loc : Location) : List (Chars × Entry) → List (Location × ByteArray)
  | [] => []
  | (name, child) :: rest => files (loc ++ [name]) child ++ filesOf loc rest

end

end Entry

/-- The files and folders from the root on, and the folder that relative paths start from. -/
structure FileTree where
  root : Entry
  workingFolder : Location

namespace FileTree

def get? (t : FileTree) (loc : Location) : Option Entry := t.root.get? loc

inductive Lost where
  | missing
  /-- Something on the way is a file. -/
  | notFolder
  /-- A name, or the path as a whole, has more bytes than any that can be there. -/
  | tooLong
deriving DecidableEq, Repr

def maxNameBytes : Nat := 255

def maxPathBytes : Nat := 4095

/-- The way from the root to an entry: names and what they lead to, the last one first. -/
abbrev Trail := List (Chars × Entry)

def entryAt (t : FileTree) : Trail → Entry
  | [] => t.root
  | (_, e) :: _ => e

/-- Follows segments from the end of a trail. Every segment, also one that says nothing, starts from
a folder. -/
def follow (t : FileTree) : Trail → List Chars → Except Lost Trail
  | trail, [] => .ok trail
  | trail, segment :: rest =>
    match t.entryAt trail with
    | .file _ => .error .notFolder
    | .folder children =>
      if Path.isSilent segment then t.follow trail rest
      else if segment = ['.', '.'] then t.follow trail.tail rest
      else
        match children.lookup segment with
        | some e => t.follow ((segment, e) :: trail) rest
        | none => .error (if maxNameBytes < Text.byteLength segment then .tooLong else .missing)

def locate (t : FileTree) (p : Path) : Except Lost Location :=
  if p.chars.isEmpty then .error .missing
  else if maxPathBytes < Text.byteLength p.chars then .error .tooLong
  else
    let segments := if p.isAbsolute then p.segments else t.workingFolder ++ p.segments
    (t.follow [] segments).map fun trail => (trail.map Prod.fst).reverse

def find? (t : FileTree) (p : Path) : Option Entry :=
  match t.locate p with
  | .ok loc => t.get? loc
  | .error _ => none

def isFile (t : FileTree) (p : Path) : Bool :=
  match t.find? p with
  | some e => !e.isFolder
  | none => false

def isFolder (t : FileTree) (p : Path) : Bool :=
  match t.find? p with
  | some e => e.isFolder
  | none => false

def isPresent (t : FileTree) (p : Path) : Bool := (t.find? p).isSome

inductive Unreadable where
  | lost (why : Lost)
  | folder
deriving DecidableEq, Repr

def Unreadable.message : Unreadable → String
  | lost .missing => "No such file or directory (os error 2)"
  | lost .notFolder => "Not a directory (os error 20)"
  | lost .tooLong => "File name too long (os error 36)"
  | folder => "Is a directory (os error 21)"

def read (t : FileTree) (p : Path) : Except Unreadable ByteArray :=
  match t.locate p with
  | .error why => .error (.lost why)
  | .ok loc =>
    match t.get? loc with
    | some (.file bytes) => .ok bytes
    | some (.folder _) => .error .folder
    | none => .error (.lost .missing)

def overwrite (t : FileTree) (p : Path) (bytes : ByteArray) : FileTree :=
  match t.locate p with
  | .ok loc => { t with root := t.root.modify loc (Entry.withBytes bytes) }
  | .error _ => t

def addFolder (t : FileTree) (loc : Location) : FileTree :=
  if (t.get? loc).isSome then t else { t with root := t.root.put loc .emptyFolder }

def addFile (t : FileTree) (loc : Location) (bytes : ByteArray) : FileTree :=
  { t with root := t.root.put loc (.file bytes) }

def remove (t : FileTree) (loc : Location) : FileTree :=
  match loc.getLast? with
  | some name => { t with root := t.root.modify loc.dropLast (Entry.withoutChild name) }
  | none => t

/-- Where the names of a path lead if every folder on the way is there. -/
def intended (t : FileTree) (p : Path) : Location :=
  p.segments.foldl
    (fun loc segment =>
      if Path.isSilent segment then loc
      else if segment = ['.', '.'] then loc.dropLast
      else loc ++ [segment])
    (if p.isAbsolute then [] else t.workingFolder)

def workingFiles (t : FileTree) : List (Location × ByteArray) :=
  ((t.get? t.workingFolder).map (Entry.files [])).getD []

def workingPath (t : FileTree) : Path := Path.ofSegments true t.workingFolder

end FileTree
end XamlFormat
