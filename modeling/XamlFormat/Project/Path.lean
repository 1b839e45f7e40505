import XamlFormat.Settings.Basic

/-! Paths as they are written. A path is cut at its slashes into segments; empty segments and single
dots say nothing, except that a relative path may start with a dot. Nothing is looked up here, so
`a/..` is not the same path as the empty one. -/
namespace XamlFormat

structure Path where
  chars : Chars
deriving DecidableEq, Repr

namespace Path

def ofString (s : String) : Path := ⟨s.toList⟩

def toString (p : Path) : String := String.ofList p.chars

def isAbsolute (p : Path) : Bool := p.chars.head? == some '/'

/-- The segments of the path, behind the slash that an absolute path starts with. -/
def segments (p : Path) : List Chars :=
  match p.chars with
  | '/' :: rest => Text.pieces '/' rest
  | s => Text.pieces '/' s

def ofSegments (absolute : Bool) (segments : List Chars) : Path :=
  let body := Text.joinWith ['/'] segments
  ⟨if absolute then '/' :: body else body⟩

/-- Segments that say nothing behind the start of a path. -/
def isSilent (segment : Chars) : Bool := segment == [] || segment == ['.']

def dropSilentEnd : List Chars → List Chars
  | [] => []
  | s :: rest =>
    match dropSilentEnd rest with
    | [] => if isSilent s then [] else [s]
    | rest => s :: rest

def trimmed (p : Path) (segments : List Chars) : List Chars :=
  match p.isAbsolute, segments with
  | false, s :: rest =>
    match dropSilentEnd rest with
    | [] => if s.isEmpty then [] else [s]
    | rest => s :: rest
  | _, segments => dropSilentEnd segments

/-- The path without its last segment that says something. -/
def parent? (p : Path) : Option Path :=
  match p.trimmed p.segments with
  | [] => none
  | body => some (ofSegments p.isAbsolute (p.trimmed body.dropLast))

/-- The path and its parents, as long as there are any. -/
def ancestorsWithin : Nat → Path → List Path
  | 0, p => [p]
  | fuel + 1, p =>
    match p.parent? with
    | none => [p]
    | some parent => p :: ancestorsWithin fuel parent

/-- The path, its parent, the parent of that and so on. A parent has fewer segments, so their number
bounds the walk. -/
def ancestors (p : Path) : List Path := ancestorsWithin (p.segments.length + 1) p

/-- The segments that are names of files or folders. -/
def names (p : Path) : List Chars :=
  p.segments.filter fun s => !isSilent s && s != ['.', '.']

def fileName? (p : Path) : Option Chars :=
  (p.trimmed p.segments).getLast?.bind fun s =>
    if isSilent s || s == ['.', '.'] then none else some s

/-- What follows the last dot of the file name. A dot that starts the name does not count. -/
def extension? (p : Path) : Option Chars :=
  p.fileName?.bind fun name =>
    let ending := name.reverse.takeWhile (· != '.')
    if ending.length + 1 < name.length then some ending.reverse else none

def hasExtension (p : Path) (extension : Chars) : Bool :=
  match p.extension? with
  | some e => Text.equalIgnoringCase e extension
  | none => false

def join (folder inner : Path) : Path :=
  if inner.isAbsolute || folder.chars.isEmpty then inner
  else if folder.chars.getLast? == some '/' then ⟨folder.chars ++ inner.chars⟩
  else ⟨folder.chars ++ '/' :: inner.chars⟩

def dropSegments : List Chars → List Chars → Option (List Chars)
  | [], rest => some (rest.dropWhile isSilent)
  | name :: names, segments =>
    match segments.dropWhile isSilent with
    | s :: rest => if s = name then dropSegments names rest else none
    | [] => none

/-- The path as seen from an absolute folder that it lies in. -/
def relativeTo? (folder p : Path) : Option Path :=
  if p.isAbsolute then
    (dropSegments folder.names p.segments).map (ofSegments false)
  else none

end Path

namespace Dialect

def ofPath (p : Path) : Dialect := if p.hasExtension "axaml".toList then avalonia else xaml

end Dialect
end XamlFormat
