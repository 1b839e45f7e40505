import XamlFormat.Command.Invocation
import XamlFormat.Project.FileTree
import XamlFormat.Project.Wildcard

/-! The files that an invocation works on. -/
namespace XamlFormat
namespace Selection

/-- The extensions of files that are formatted without being asked for. -/
def knownExtensions : List Chars := ["xaml", "axaml"].map String.toList

/-- Levels of folders that are searched. -/
def maxDepth : Nat := 256

def dropDot : Chars → Chars
  | '.' :: rest => rest
  | rest => rest

def hasKnownExtension (i : Invocation) (p : Path) : Bool :=
  (knownExtensions ++ i.extensions.map fun e => dropDot e.toList).any p.hasExtension

/-- The patterns of files to leave out; texts that are no pattern are reported. -/
def patterns : List String → List (List Wildcard.Token) × List Message
  | [] => ([], [])
  | text :: rest =>
    let (found, messages) := patterns rest
    match Wildcard.read text.toList with
    | .ok pattern => (pattern :: found, messages)
    | .error fault =>
      (found,
        .warning ("ignoring invalid exclude pattern " ++ text ++ ": " ++ fault.message) :: messages)

def isExcluded (patterns : List (List Wildcard.Token)) (p : Path) : Bool :=
  patterns.any fun pattern => Wildcard.excludes pattern p

def ofInput (t : FileTree) (i : Invocation) (patterns : List (List Wildcard.Token)) (input : Path) :
    List Path × List Message :=
  match t.find? input with
  | none => ([], [.warning (input.toString ++ ": no such file or directory")])
  | some (.folder children) =>
    let found := (Entry.folder children).filesBelow (if i.recursive then maxDepth else 1) input
    (found.filter fun p => t.isFile p && hasKnownExtension i p && !isExcluded patterns p, [])
  | some (.file _) =>
    if (i.ignoreExtension || hasKnownExtension i input) && !isExcluded patterns input then
      ([input], [])
    else ([], [])

/-- The files of all inputs, in order, and what is said about the selection. -/
def files (t : FileTree) (i : Invocation) : List Path × List Message :=
  let (patterns, messages) := patterns i.exclude
  let found := i.inputs.map (ofInput t i patterns)
  (found.flatMap Prod.fst, messages ++ found.flatMap Prod.snd)

end Selection
end XamlFormat
