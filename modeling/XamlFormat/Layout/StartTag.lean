import XamlFormat.Layout.Indent
import XamlFormat.Extension.Layout
import XamlFormat.Markup.Node
import XamlFormat.Markup.Reference

/-! Start tags. The attributes stay on the line of the name as long as there are few enough of them;
otherwise they are packed onto lines of their own. -/
namespace XamlFormat

inductive TagEnd where
  /-- Content follows. -/
  | opening
  | selfClosing
deriving DecidableEq, Repr

/-- What the layout of a start tag depends on besides the tag. -/
structure TagContext where
  settings : Settings
  /-- Characters written as they are in attribute values. -/
  unescaped : Chars
  newLine : Chars
  depth : Nat
  isRoot : Bool
  /-- Inside running text, where tags are never wrapped. -/
  inline : Bool

structure Rendered where
  item : Attribute
  text : Chars

namespace TagContext

def indent (ctx : TagContext) : Indent := Indent.ofSettings ctx.settings

end TagContext

namespace Attribute

/-- `Name="value"`, with the value escaped. -/
def render (unescaped : Chars) (a : Attribute) : Chars :=
  a.name.written ++ '=' :: '"' :: (Reference.escapeAttribute unescaped a.text ++ ['"'])

end Attribute

namespace StartTag

def renderAll (unescaped : Chars) (attributes : List Attribute) : List Rendered :=
  attributes.map fun a => ⟨a, a.render unescaped⟩

/-- Characters of the attributes on one line, with a space between neighbours. -/
def lineWidth : List Rendered → Nat
  | [] => 0
  | [r] => r.text.length
  | r :: rest => r.text.length + 1 + lineWidth rest

/-- Attributes that a tag may have on one line, if that is a number of 64 bits. -/
def countLimit? (s : Settings) : Option Nat :=
  let sum := s.maxAttributesPerLine + s.attributesTolerance
  if sum < Settings.wordSize then some sum else none

/-- Whether the attributes go on lines of their own. There is no answer where they are to be counted
and there is no limit to count them against. -/
def wraps? (ctx : TagContext) (tag : Tag) (rendered : List Rendered) : Option Bool :=
  let s := ctx.settings
  let exceeds :=
    if s.noNewLineElements.contains tag.name.written then some false
    else
      (countLimit? s).map fun limit =>
        rendered.length > limit ||
          (s.maxAttributeCharactersPerLine > 0 &&
            lineWidth rendered > s.maxAttributeCharactersPerLine)
  if ctx.inline || rendered.isEmpty then some false
  else if ctx.isRoot then
    match s.rootWrap with
    | .always => some true
    | .never => some false
    | .standard => exceeds
  else exceeds

def wraps (ctx : TagContext) (tag : Tag) (rendered : List Rendered) : Bool :=
  wraps? ctx tag rendered == some true

/-- Whether a line with attributes on it has no place for one more: it has as many as allowed, it
would get too wide, or the next attribute starts a new group. -/
def isFull (s : Settings) (line : List Rendered) (next : Rendered) : Bool :=
  match line.getLast? with
  | none => false
  | some previous =>
    line.length ≥ s.maxAttributesPerLine ||
      (s.maxAttributeCharactersPerLine > 0 &&
        lineWidth line + 1 + next.text.length > s.maxAttributeCharactersPerLine) ||
      (s.groupsOnSeparateLines && previous.item.group != next.item.group)

/-- Fills lines in order, starting with a line that holds `line`; each attribute goes on the current
line unless that is full. -/
def packFrom (s : Settings) (line : List Rendered) : List Rendered → List (List Rendered)
  | [] => if line.isEmpty then [] else [line]
  | r :: rest =>
    if isFull s line r then line :: packFrom s [r] rest else packFrom s (line ++ [r]) rest

def pack (s : Settings) (rendered : List Rendered) : List (List Rendered) :=
  packFrom s [] rendered

/-- The further lines of a split extension, each indented from the column of its brace. -/
def splitLines (ctx : TagContext) (braceColumn : Nat) : List ExtensionLine → Chars
  | [] => []
  | l :: ls =>
    ctx.newLine ++ ctx.indent.continuation ctx.depth (braceColumn + l.column) ++
      Reference.escapeAttribute ctx.unescaped l.text ++ splitLines ctx braceColumn ls

/-- An attribute that has a line to itself from `column` on, and may split its extension. -/
def alone (ctx : TagContext) (column : Nat) (r : Rendered) : Chars :=
  match r.item.extension with
  | none => r.text
  | some e =>
    match e.lines ctx.settings with
    | first :: second :: more =>
      r.item.name.written ++ '=' :: '"' ::
        (Reference.escapeAttribute ctx.unescaped first.text ++
          splitLines ctx (column + r.item.name.length + 2) (second :: more) ++ ['"'])
    | _ => r.text

def inRow (rendered : List Rendered) : Chars :=
  Text.joinWith [' '] (rendered.map Rendered.text)

def trailing (rendered : List Rendered) : Chars :=
  rendered.flatMap fun r => ' ' :: r.text

def closing (ending : TagEnd) (spaced : Bool) : Chars :=
  match ending with
  | .opening => ['>']
  | .selfClosing => if spaced then [' ', '/', '>'] else ['/', '>']

/-- A line of wrapped attributes, with the line end in front of it. -/
def wrappedLine (ctx : TagContext) (column : Nat) (line : List Rendered) : Chars :=
  ctx.newLine ++ ctx.indent.continuation ctx.depth column ++
    match line with
    | [r] => alone ctx column r
    | line => inRow line

/-- Attributes that stay on the line of the name when the tag is wrapped. -/
def leadCount (ctx : TagContext) (tag : Tag) : Nat :=
  if tag.pinned > 0 then min tag.pinned tag.attributes.length
  else if ctx.settings.keepFirstAttributeOnSameLine then 1
  else 0

def nameColumn (tag : Tag) : Nat := tag.name.length + 2

def wrapColumn (ctx : TagContext) (tag : Tag) : Nat :=
  if ctx.settings.attributeIndentation > 0 then ctx.settings.attributeIndentation
  else if leadCount ctx tag > 0 then nameColumn tag
  else ctx.indent.size

def wrapped (ctx : TagContext) (tag : Tag) (rendered : List Rendered) : Chars :=
  let lead := leadCount ctx tag
  let lines := pack ctx.settings (rendered.drop lead)
  let firstLine :=
    match lines, rendered.take lead with
    | [], [r] => ' ' :: alone ctx (nameColumn tag) r
    | _, first => trailing first
  firstLine ++ lines.flatMap (wrappedLine ctx (wrapColumn ctx tag))

def print (ctx : TagContext) (tag : Tag) (ending : TagEnd) : Chars :=
  let s := ctx.settings
  let rendered := renderAll ctx.unescaped tag.attributes
  if wraps ctx tag rendered then
    '<' :: tag.name.written ++ wrapped ctx tag rendered ++
      if s.endingBracketOnNewLine then
        ctx.newLine ++ ctx.indent.level ctx.depth ++ closing ending false
      else closing ending s.spaceBeforeClosingSlash
  else
    '<' :: tag.name.written ++ trailing rendered ++ closing ending s.spaceBeforeClosingSlash

def splitColumns (ctx : TagContext) (column : Nat) (r : Rendered) : List Nat :=
  match r.item.extension with
  | none => []
  | some e =>
    (e.lines ctx.settings).tail.map fun l => column + r.item.name.length + 2 + l.column

def lineColumns (ctx : TagContext) (column : Nat) (line : List Rendered) : List Nat :=
  column ::
    match line with
    | [r] => splitColumns ctx column r
    | _ => []

def firstColumns (ctx : TagContext) (tag : Tag) (lines : List (List Rendered))
    (first : List Rendered) : List Nat :=
  match lines, first with
  | [], [r] => splitColumns ctx (nameColumn tag) r
  | _, _ => []

/-- The columns of all lines of a wrapped tag but its first. -/
def wrappedColumns (ctx : TagContext) (tag : Tag) (rendered : List Rendered) : List Nat :=
  let lines := pack ctx.settings (rendered.drop (leadCount ctx tag))
  firstColumns ctx tag lines (rendered.take (leadCount ctx tag)) ++
    lines.flatMap (lineColumns ctx (wrapColumn ctx tag))

/-- Whether everything that is counted for the tag can be counted in 64 bits. -/
def inRange (ctx : TagContext) (tag : Tag) : Bool :=
  let rendered := renderAll ctx.unescaped tag.attributes
  match wraps? ctx tag rendered with
  | none => false
  | some false => true
  | some true =>
    (wrappedColumns ctx tag rendered).all (ctx.indent.continuationInRange ctx.depth) &&
      (!ctx.settings.endingBracketOnNewLine || ctx.indent.levelInRange ctx.depth)

end StartTag
end XamlFormat
