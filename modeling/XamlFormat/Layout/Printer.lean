import XamlFormat.Layout.StartTag
import XamlFormat.Markup.Marker
import XamlFormat.Text.LineBreak

/-! Documents as text.

An element without running text has each child on a line of its own, one level deeper. An element
with running text keeps its content on one line. What lies in a suppressed region or inside an
element that preserves its space is copied from the source. -/
namespace XamlFormat

/-- What the text of a document depends on besides the document. -/
structure Printer where
  source : Chars
  settings : Settings
  /-- Characters written as they are in attribute values. -/
  unescaped : Chars

namespace Printer

variable (p : Printer)

def newLine : Chars := p.settings.newLine

def indent : Indent := Indent.ofSettings p.settings

/-- Text that is copied, with the line ends of the output. -/
def copied (text : Chars) : Chars := Text.withLineEnds p.newLine text

def copiedSource (start stop : Nat) : Chars := p.copied (Text.slice p.source start stop)

def lineStart (depth : Nat) : Chars := p.newLine ++ p.indent.level depth

def tagContext (depth : Nat) (isRoot inline : Bool) : TagContext where
  settings := p.settings
  unescaped := p.unescaped
  newLine := p.newLine
  depth := depth
  isRoot := isRoot
  inline := inline

def startTag (tag : Tag) (ending : TagEnd) (depth : Nat) (isRoot inline : Bool) : Chars :=
  StartTag.print (p.tagContext depth isRoot inline) tag ending

def endTag (tag : Tag) : Chars := '<' :: '/' :: tag.name.written ++ ['>']

/-- The text of a comment between its delimiters. A comment over several lines stays as it is; any
other is trimmed and padded, with a blank at least next to a hyphen. -/
def commentBody (content : Chars) : Chars :=
  if content.contains '\n' then p.copied content
  else
    match Text.trim content with
    | [] => []
    | trimmed =>
      let pad := p.settings.commentSpaces
      let before := if trimmed.head? = some '-' then max pad 1 else pad
      let after := if trimmed.getLast? = some '-' then max pad 1 else pad
      List.replicate before ' ' ++ trimmed ++ List.replicate after ' '

def rawMarkup (kind : RawKind) (content : Chars) : Chars :=
  match kind with
  | .comment => "<!--".toList ++ p.commentBody content ++ "-->".toList
  | .cdata => "<![CDATA[".toList ++ p.copied content ++ "]]>".toList
  | .instruction => p.copied content
  | .doctype => p.copied content

/-- Running text: runs of blanks as single spaces, trimmed where it starts or ends the content. -/
def runningText (value : Chars) (isFirst isLast : Bool) : Chars :=
  let collapsed := Text.collapse value
  let collapsed := if isLast then Text.trimEnd collapsed else collapsed
  Reference.escapeText (if isFirst then Text.trimStart collapsed else collapsed)

def contentEnd (tag : Tag) : Nat :=
  match tag.content with
  | some s => s.stop
  | none => tag.span.stop

end Printer

structure BlockState where
  /-- Nothing is written yet. -/
  fresh : Bool
  /-- Line feeds of the blanks just before. -/
  lineBreaks : Nat
  /-- Inside a suppressed region, which is written already. -/
  suppressed : Bool

mutual

def Node.print (p : Printer) (depth : Nat) (isRoot inline : Bool) : Node → Chars
  | .text value _ => Printer.runningText value false false
  | .raw kind content _ => p.rawMarkup kind content
  | .element tag children =>
    match tag.preserved? with
    | some content =>
      p.startTag tag .opening depth isRoot inline ++
        (p.copiedSource content.start content.stop ++ Printer.endTag tag)
    | none =>
      if children.all Node.isBlank then
        if p.settings.removeEndTagOfEmptyElement || tag.selfClosing then
          p.startTag tag .selfClosing depth isRoot inline
        else p.startTag tag .opening depth isRoot inline ++ Printer.endTag tag
      else if inline || children.any Node.isSignificant then
        p.startTag tag .opening depth isRoot inline ++
          (printInline p depth (Printer.contentEnd tag) true false children ++ Printer.endTag tag)
      else
        let block :=
          printBlock p (depth + 1) (Printer.contentEnd tag) false ⟨true, 0, false⟩ children
        p.startTag tag .opening depth isRoot false ++
          (block.1 ++ ((if block.2 then [] else p.lineStart depth) ++ Printer.endTag tag))

/-- Siblings on lines of their own, with one empty line kept where the source has some. A region
without a closing marker goes on to `contentEnd`; the result also says whether there was one. -/
def printBlock (p : Printer) (depth contentEnd : Nat) (top : Bool) (state : BlockState) :
    List Node → Chars × Bool
  | [] => ([], state.suppressed)
  | n :: rest =>
    if state.suppressed then
      printBlock p depth contentEnd top { state with suppressed := n.marker? != some .on } rest
    else if n.isBlank then
      printBlock p depth contentEnd top { state with lineBreaks := n.lineBreaks } rest
    else
      let gap := if !state.fresh && state.lineBreaks ≥ 2 then p.newLine else []
      let start := if state.fresh && top then p.indent.level depth else p.lineStart depth
      let opens := n.marker? == some .off
      let region :=
        if opens then p.copiedSource n.span.stop (regionStop contentEnd rest) else []
      let following := printBlock p depth contentEnd top ⟨false, 0, opens⟩ rest
      (gap ++ (start ++ (n.print p depth top false ++ (region ++ following.1))), following.2)

def printInline (p : Printer) (depth contentEnd : Nat) (isFirst suppressed : Bool) :
    List Node → Chars
  | [] => []
  | n :: rest =>
    if suppressed then
      printInline p depth contentEnd false (n.marker? != some .on) rest
    else
      match n with
      | .text value _ =>
        Printer.runningText value isFirst rest.isEmpty ++
          printInline p depth contentEnd false false rest
      | n =>
        let opens := n.marker? == some .off
        let region :=
          if opens then p.copiedSource n.span.stop (regionStop contentEnd rest) else []
        n.print p (depth + 1) false true ++
          (region ++ printInline p depth contentEnd false opens rest)

end

mutual

/-- Whether everything that is counted for a node can be counted in 64 bits. -/
def Node.inRange (p : Printer) (depth : Nat) (isRoot inline : Bool) : Node → Bool
  | .text _ _ => true
  | .raw _ _ _ => true
  | .element tag children =>
    let running := inline || children.any Node.isSignificant
    StartTag.inRange (p.tagContext depth isRoot inline) tag &&
      (tag.preserved?.isSome || children.all Node.isBlank ||
        ((running || p.indent.levelInRange (depth + 1)) &&
          inRangeList p (depth + 1) false running false children))

/-- Siblings at a depth. Nothing is counted for those in a suppressed region. -/
def inRangeList (p : Printer) (depth : Nat) (isRoot inline suppressed : Bool) :
    List Node → Bool
  | [] => true
  | n :: rest =>
    (suppressed || n.inRange p depth isRoot inline) &&
      inRangeList p depth isRoot inline
        (if suppressed then n.marker? != some .on else n.marker? == some .off) rest

end

namespace Document

def inRange (d : Document) (source : Chars) (settings : Settings) (dialect : Dialect) : Bool :=
  inRangeList ⟨source, settings, dialect.unescaped settings⟩ 0 true false false d.nodes

/-- The text of a document that was read from `source`. -/
def print (d : Document) (source : Chars) (settings : Settings) (dialect : Dialect) : Chars :=
  let p : Printer := ⟨source, settings, dialect.unescaped settings⟩
  let block := printBlock p 0 (Text.byteLength source) true ⟨true, 0, false⟩ d.nodes
  let body := (if d.byteOrderMark then [Document.mark] else []) ++ block.1
  (if block.2 then Text.trimXmlEnd body else body) ++ if d.trailingNewline then p.newLine else []

end Document
end XamlFormat
