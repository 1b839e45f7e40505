import XamlFormat.Project.Path
import XamlFormat.Text.Tails

/-! Patterns that exclude files. A question mark stands for one character, a star for any run of
characters, two stars as a whole segment for any folders, and brackets for one character of a set.
All of them also stand for slashes. -/
namespace XamlFormat
namespace Wildcard

structure CharRange where
  first : Char
  last : Char
deriving DecidableEq, Repr

inductive Token where
  | char (c : Char)
  | anyChar
  | anyRun
  /-- Any folders, or everything that is left. -/
  | anyFolders
  | within (set : List CharRange)
  | outside (set : List CharRange)
deriving DecidableEq, Repr

inductive Fault where
  | tooManyStars (position : Nat)
  | partialSegment (position : Nat)
  | invalidSet (position : Nat)
deriving DecidableEq, Repr

def Fault.message : Fault → String
  | tooManyStars n => near n "wildcards are either regular `*` or recursive `**`"
  | partialSegment n => near n "recursive wildcards must form a single path component"
  | invalidSet n => near n "invalid range pattern"
where
  near (n : Nat) (reason : String) : String :=
    "Pattern syntax error near position " ++ ToString.toString n ++ ": " ++ reason

/-- The ranges of a set; a minus sign between two characters makes a range of them. -/
def ranges : Chars → List CharRange
  | a :: '-' :: b :: rest => ⟨a, b⟩ :: ranges rest
  | a :: rest => ⟨a, a⟩ :: ranges rest
  | [] => []

def CharRange.contains (r : CharRange) (c : Char) : Bool := r.first ≤ c && c ≤ r.last

/-- The set behind an opening bracket, and what follows it. The first character of a set may be a
closing bracket. -/
def set? : Chars → Option (Token × Chars)
  | '!' :: c :: rest =>
    (Text.cutAt ']' rest).map fun (inner, rest) => (.outside (ranges (c :: inner)), rest)
  | c :: rest =>
    if c = '!' then none
    else (Text.cutAt ']' rest).map fun (inner, rest) => (.within (ranges (c :: inner)), rest)
  | [] => none

/-- Reads the tokens from `position` on, where `previous` is the character before it. Every token
takes at least one character. -/
def tokens : Nat → Nat → Option Char → Chars → Except Fault (List Token)
  | 0, _, _, _ => .ok []
  | _ + 1, _, _, [] => .ok []
  | fuel + 1, position, previous, c :: rest =>
    let continueWith (token : Token) (length : Nat) (rest : Chars) (last : Char) :=
      (tokens fuel (position + length) (some last) rest).map (token :: ·)
    match c with
    | '?' => continueWith .anyChar 1 rest c
    | '*' =>
      let stars := 1 + (rest.takeWhile (· == '*')).length
      if 2 < stars then .error (.tooManyStars (position + 2))
      else if stars = 2 then
        if previous = none ∨ previous = some '/' then
          match rest.drop 1 with
          | [] => continueWith .anyFolders 2 [] c
          | '/' :: rest => continueWith .anyFolders 3 rest '/'
          | _ => .error (.partialSegment (position + 2))
        else .error (.partialSegment (position - 1))
      else continueWith .anyRun 1 rest c
    | '[' =>
      match set? rest with
      | some (token, after) => continueWith token (1 + rest.length - after.length) after ']'
      | none => .error (.invalidSet position)
    | c => continueWith (.char c) 1 rest c

def read (s : Chars) : Except Fault (List Token) := tokens s.length 0 none s

/-- Tokens that stand for a single character. -/
def Token.accepts (t : Token) (c : Char) : Bool :=
  match t with
  | char d => c == d
  | anyChar => true
  | within set => set.any fun r => r.contains c
  | outside set => !set.any fun r => r.contains c
  | anyRun => false
  | anyFolders => false

/-- Any folders, and then the rest: the rest stands for the text, for what follows one of its
slashes, or for nothing. The first part of the result leaves out the text itself. -/
def foldersRow : Chars → List Bool → Bool × List Bool
  | [], row => (Tails.whole row, [Tails.whole row])
  | c :: s, row =>
    let (below, later) := foldersRow s row.tail
    let below := below || (c == '/' && Tails.whole row.tail)
    (below, (Tails.whole row || below) :: later)

/-- Which tails of a text the pattern stands for. -/
def acceptRow : List Token → Chars → List Bool
  | [], s => Tails.row List.isEmpty s
  | .anyRun :: ts, s => Tails.run (fun _ => true) s (acceptRow ts s)
  | .anyFolders :: ts, s => (foldersRow s (acceptRow ts s)).2
  | t :: ts, s => Tails.one t.accepts s (acceptRow ts s)

def accepts (pattern : List Token) (s : Chars) : Bool := Tails.whole (acceptRow pattern s)

/-- Whether the pattern stands for a whole path or for one of its names. -/
def excludes (pattern : List Token) (p : Path) : Bool :=
  accepts pattern p.chars || p.names.any (accepts pattern)

end Wildcard
end XamlFormat
