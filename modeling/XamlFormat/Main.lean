import XamlFormat.Command.Program

/-! The command line. What the program may look at is read from the disk first, and the files that
it changes are written last. -/
namespace XamlFormat

/-- Everything that a stream still holds. -/
partial def readAll (stream : IO.FS.Stream) (seen : ByteArray) : IO ByteArray := do
  let more ← stream.read 65536
  if more.isEmpty then return seen else readAll stream (seen ++ more)

def addPath (t : FileTree) (p : Path) : IO FileTree := do
  let here ← IO.currentDir
  let loc := t.intended p
  if (t.get? loc).isSome then return t
  let place := here / p.toString
  if ← place.isDir then return t.addFolder loc
  if ← place.pathExists then return t.addFile loc (← IO.FS.readBinFile place)
  return t

/-- Adds a path with everything on the way to it, and the settings files and project markers in the
folders above it. -/
def addWithAncestors (t : FileTree) (p : Path) : IO FileTree := do
  let mut tree := t
  for folder in p.ancestors.reverse do
    tree ← addPath tree folder
    if tree.isFolder folder || folder.chars.isEmpty then
      for name in SettingsFile.fileNames ++ SettingsFile.projectMarkers do
        tree ← addPath tree (folder.join name)
  return tree

/-- Adds the files below a folder that an invocation may format. -/
partial def addBelow (i : Invocation) (depth : Nat) (t : FileTree) (folder : Path) :
    IO FileTree := do
  if depth = 0 then return t
  let here ← IO.currentDir
  let mut tree := t
  for entry in ← (here / folder.toString).readDir do
    let p := folder.join (Path.ofString entry.fileName)
    if ← entry.path.isDir then
      if 1 < depth then
        tree ← addBelow i (depth - 1) (← addWithAncestors tree p) p
    else if Selection.hasKnownExtension i p then
      tree ← addPath tree p
  return tree

/-- The part of the disk that an invocation may look at. -/
def snapshot (i : Invocation) : IO FileTree := do
  let here ← IO.currentDir
  let working := Path.ofString here.toString
  let mut tree : FileTree := { root := .emptyFolder, workingFolder := working.names }
  tree ← addWithAncestors (tree.addFolder working.names) working
  for p in i.settingsFile.toList ++ i.inputs do
    tree ← addWithAncestors tree p
  for p in i.inputs do
    if tree.isFolder p then
      tree ← addBelow i (if i.recursive then Selection.maxDepth else 1) tree p
  return tree

end XamlFormat

open XamlFormat in
def main (words : List String) : IO UInt32 := do
  let i := (Arguments.read words).toOption.getD {}
  let stdin ← IO.getStdin
  let stdout ← IO.getStdout
  if words.isEmpty && (← stdin.isTty) then
    stdout.putStr helpText
    return 0
  let usable := (Arguments.read words).toOption.isSome
  let input ← if usable && i.readsInput then readAll stdin ByteArray.empty else pure ByteArray.empty
  let tree ← snapshot i
  let ending := runProgram tree input id words
  for p in ending.written do
    match ending.files.read p with
    | .ok bytes => IO.FS.writeBinFile p.toString bytes
    | .error _ => pure ()
  stdout.putStr (String.ofList ending.output)
  stdout.flush
  (← IO.getStderr).putStr ending.report
  return ending.status.toUInt32
