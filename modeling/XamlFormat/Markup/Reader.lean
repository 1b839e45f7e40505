import XamlFormat.Markup.Defect
import XamlFormat.Markup.Reference
import XamlFormat.Text.Letter

/-! Reading documents.

The reader goes through the text once. A cursor holds what is left and how many bytes came before,
every construct is read by a function from a cursor to a cursor, and nothing is skipped without
being recorded in a node. -/
namespace XamlFormat

/-- A position in a text: the bytes before it and the characters from it on. -/
structure Cursor where
  pos : Nat
  rest : Chars
deriving DecidableEq, Repr

namespace Cursor

def drop (c : Cursor) (n : Nat) : Cursor :=
  ⟨c.pos + Text.byteLength (c.rest.take n), c.rest.drop n⟩

def dropWhile (c : Cursor) (p : Char → Bool) : Cursor :=
  ⟨c.pos + Text.byteLength (c.rest.takeWhile p), c.rest.dropWhile p⟩

def skipBlanks (c : Cursor) : Cursor := c.dropWhile Text.isXmlBlank

end Cursor

namespace Markup

/-- Elements are nested at most this deep. -/
def maxDepth : Nat := 256

def isNameStart (c : Char) : Bool := Text.isLetter c || c == '_' || c == ':'

/-- Beyond ASCII, a name goes on with everything that is not white space. -/
def isNameChar (c : Char) : Bool :=
  if c.toNat < 0x80 then c.isAlphanum || c == '_' || c == ':' || c == '.' || c == '-'
  else !Text.isBlank c

/-- The name that starts here; empty where none does. -/
def nameAt : Chars → Chars
  | [] => []
  | c :: cs => if isNameStart c then c :: cs.takeWhile isNameChar else []

inductive Lead where
  | finish
  | endTag
  | comment
  | cdata
  | instruction
  | doctype
  | declaration
  | element
  | text
deriving DecidableEq, Repr

def commentOpen : Chars := "<!--".toList
def commentClose : Chars := "-->".toList
def cdataOpen : Chars := "<![CDATA[".toList
def cdataClose : Chars := "]]>".toList
def instructionOpen : Chars := "<?".toList
def instructionClose : Chars := "?>".toList
def doctypeOpen : Chars := "<!DOCTYPE".toList

def lead (s : Chars) : Lead :=
  match s with
  | [] => .finish
  | '<' :: '/' :: _ => .endTag
  | '<' :: '?' :: _ => .instruction
  | '<' :: '!' :: _ =>
    if commentOpen.isPrefixOf s then .comment
    else if cdataOpen.isPrefixOf s then .cdata
    else if doctypeOpen.isPrefixOf s then .doctype
    else .declaration
  | '<' :: _ => .element
  | _ => .text

def readDelimited (opening closing : Chars) (kind : RawKind) (c : Cursor) :
    Except Defect (Chars × Cursor) :=
  let body := c.drop opening.length
  match Text.cutAtMark closing body.rest with
  | none => .error ⟨c.pos, .unterminatedRaw kind⟩
  | some (content, _) => .ok (content, body.drop (content.length + closing.length))

def readComment (c : Cursor) : Except Defect (Node × Cursor) := do
  let (content, next) ← readDelimited commentOpen commentClose .comment c
  pure (.raw .comment content ⟨c.pos, next.pos⟩, next)

def readCData (c : Cursor) : Except Defect (Node × Cursor) := do
  let (content, next) ← readDelimited cdataOpen cdataClose .cdata c
  pure (.raw .cdata content ⟨c.pos, next.pos⟩, next)

def readInstruction (c : Cursor) : Except Defect (Node × Cursor) := do
  let (content, next) ← readDelimited instructionOpen instructionClose .instruction c
  pure (.raw .instruction (instructionOpen ++ content ++ instructionClose) ⟨c.pos, next.pos⟩, next)

/-- The characters up to the `>` that ends a doctype, that one included. Quotes hide what they
enclose, and brackets hide every `>` inside them. -/
def scanDoctype (quote : Option Char) (brackets : Nat) : Chars → Option Chars
  | [] => none
  | c :: cs =>
    match quote with
    | some q => (scanDoctype (if c = q then none else some q) brackets cs).map (c :: ·)
    | none =>
      if c = '"' ∨ c = '\'' then (scanDoctype (some c) brackets cs).map (c :: ·)
      else if c = '[' then (scanDoctype none (brackets + 1) cs).map (c :: ·)
      else if c = ']' then (scanDoctype none (brackets - 1) cs).map (c :: ·)
      else if c = '>' ∧ brackets = 0 then some [c]
      else (scanDoctype none brackets cs).map (c :: ·)

def readDoctype (c : Cursor) : Except Defect (Node × Cursor) :=
  match scanDoctype none 0 c.rest with
  | none => .error ⟨c.pos, .unterminatedRaw .doctype⟩
  | some content =>
    let next := c.drop content.length
    .ok (.raw .doctype content ⟨c.pos, next.pos⟩, next)

def decodeAt (base : Nat) (s : Chars) : Except Defect Chars :=
  match Reference.decode s with
  | .ok value => .ok value
  | .error e => .error ⟨base + e.offset, .invalidReference e.text⟩

def readText (c : Cursor) : Except Defect (Node × Cursor) := do
  let value ← decodeAt c.pos (c.rest.takeWhile (· != '<'))
  let next := c.dropWhile (· != '<')
  pure (.text value ⟨c.pos, next.pos⟩, next)

/-- Character data outside the root element, which may hold blanks only. -/
def readMargin (c : Cursor) : Except Defect (Node × Cursor) :=
  let run := c.rest.takeWhile (· != '<')
  if run.all Text.isXmlBlank then
    let next := c.dropWhile (· != '<')
    .ok (.text run ⟨c.pos, next.pos⟩, next)
  else .error ⟨c.skipBlanks.pos, .textOutsideRoot⟩

/-- Tabs and line ends that stand in a value count as spaces; a reference to one keeps it. -/
def flattenValue (s : Chars) : Chars :=
  s.map fun c => if c = '\t' ∨ c = '\n' ∨ c = '\r' then ' ' else c

def readValue (offset : Nat) (name : Chars) (c : Cursor) : Except Defect (Chars × Cursor) :=
  match c.rest with
  | q :: rest =>
    if q = '"' ∨ q = '\'' then
      match Text.cutAt q rest with
      | none => .error ⟨offset, .unterminatedValue name⟩
      | some (raw, _) => do
        let value ← decodeAt (c.drop 1).pos (flattenValue raw)
        pure (value, c.drop (raw.length + 2))
    else .error ⟨c.pos, .missingQuote name⟩
  | [] => .error ⟨c.pos, .missingQuote name⟩

def readAttribute (index : Nat) (c : Cursor) : Except Defect (Attribute × Cursor) :=
  match nameAt c.rest with
  | [] => .error ⟨c.pos, .unexpectedCharacter (c.rest.take 1)⟩
  | name =>
    let afterName := (c.drop name.length).skipBlanks
    match afterName.rest with
    | '=' :: _ => do
      let (value, next) ← readValue c.pos name (afterName.drop 1).skipBlanks
      pure ({ name := QName.ofChars name, value, index, offset := c.pos }, next)
    | _ => .error ⟨afterName.pos, .missingEquals name⟩

structure TagRest where
  attributes : List Attribute
  firstLine : Nat
  selfClosing : Bool
  next : Cursor

/-- Reads attributes up to the end of the start tag of `name` at byte `start`. `seen` holds the
attributes read so far, `firstLine` of them before any line break, and `broken` says whether a line
break came already. Each attribute takes a character, so the length of the text is fuel enough. -/
def readAttributes (start : Nat) (name : Chars) :
    Nat → List Attribute → Nat → Bool → Cursor → Except Defect TagRest
  | 0, _, _, _, _ => .error ⟨start, .unterminatedStartTag name⟩
  | fuel + 1, seen, firstLine, broken, c =>
    let blanks := c.rest.takeWhile Text.isXmlBlank
    let broken := broken || blanks.contains '\n'
    let c := c.skipBlanks
    match c.rest with
    | '/' :: '>' :: _ => .ok ⟨seen, firstLine, true, c.drop 2⟩
    | '>' :: _ => .ok ⟨seen, firstLine, false, c.drop 1⟩
    | [] => .error ⟨start, .unterminatedStartTag name⟩
    | _ =>
      if blanks.isEmpty then .error ⟨c.pos, .missingBlank⟩
      else do
        let (a, next) ← readAttribute seen.length c
        if seen.any fun b => b.name == a.name then
          throw ⟨a.offset, .duplicateAttribute a.name.written⟩
        readAttributes start name fuel (seen ++ [a])
          (if broken then firstLine else firstLine + 1) broken next

def preservesSpace (attributes : List Attribute) : Bool :=
  attributes.any fun a => a.name.written == "xml:space".toList && a.value == "preserve".toList

def readStartTag (depth : Nat) (c : Cursor) : Except Defect (Tag × Cursor) :=
  if maxDepth < depth then .error ⟨c.pos, .tooDeep maxDepth⟩
  else
    let afterOpen := c.drop 1
    match nameAt afterOpen.rest with
    | [] => .error ⟨afterOpen.pos, .missingElementName⟩
    | name => do
      let afterName := afterOpen.drop name.length
      let rest ← readAttributes c.pos name afterName.rest.length [] 0 false afterName
      pure ({ name := QName.ofChars name
              attributes := rest.attributes
              selfClosing := rest.selfClosing
              preserveSpace := preservesSpace rest.attributes
              firstLine := rest.firstLine
              span := ⟨c.pos, rest.next.pos⟩ }, rest.next)

def readEndTag (start : Nat) (name : Chars) (c : Cursor) : Except Defect Cursor :=
  match c.rest with
  | '<' :: '/' :: rest =>
    let found := nameAt rest
    if found = name then
      let afterName := (c.drop (2 + name.length)).skipBlanks
      match afterName.rest with
      | '>' :: _ => .ok (afterName.drop 1)
      | _ => .error ⟨afterName.pos, .unterminatedEndTag name⟩
    else .error ⟨c.pos, .mismatchedEndTag name found⟩
  | _ => .error ⟨start, .unclosedElement name⟩

def readElement (content : Cursor → Except Defect (List Node × Cursor)) (depth : Nat) (c : Cursor) :
    Except Defect (Node × Cursor) := do
  let (tag, inner) ← readStartTag depth c
  if tag.selfClosing then pure (.element tag [], inner)
  else
    let (children, outer) ← content inner
    let next ← readEndTag c.pos tag.name.written outer
    let tag := { tag with span := ⟨c.pos, next.pos⟩, content := some ⟨inner.pos, outer.pos⟩ }
    pure (.element tag children, next)

/-- Reads the node at the cursor, for an element with nesting `depth` and inner nodes read by
`content`. There is none at an end tag and at the end of the text. -/
def readNode (content : Cursor → Except Defect (List Node × Cursor)) (depth : Nat) (c : Cursor) :
    Except Defect (Option (Node × Cursor)) :=
  match lead c.rest with
  | .finish => .ok none
  | .endTag => .ok none
  | .comment => some <$> readComment c
  | .cdata => some <$> readCData c
  | .instruction => some <$> readInstruction c
  | .doctype => .error ⟨c.pos, .unexpectedDeclaration⟩
  | .declaration => .error ⟨c.pos, .unexpectedDeclaration⟩
  | .element => some <$> readElement content depth c
  | .text => some <$> readText c

/-- Reads nodes up to the next end tag or the end of the text, whose elements have nesting `depth`.
Each node takes a character, so the length of the text is fuel enough. -/
def readContent : Nat → Nat → Cursor → Except Defect (List Node × Cursor)
  | 0, _, c => .ok ([], c)
  | fuel + 1, depth, c => do
    match ← readNode (readContent fuel (depth + 1)) depth c with
    | none => pure ([], c)
    | some (node, next) =>
      let (nodes, last) ← readContent fuel depth next
      pure (node :: nodes, last)

/-- Reads the node at the cursor outside the root element, or the root element itself. `rooted` says
whether the root came already. There is no node at the end of the text. -/
def readTopNode (content : Cursor → Except Defect (List Node × Cursor)) (rooted : Bool)
    (c : Cursor) : Except Defect (Option (Node × Cursor)) :=
  let root : Except Defect (Option (Node × Cursor)) :=
    if rooted then .error ⟨c.pos, .secondRoot⟩ else some <$> readElement content 1 c
  match lead c.rest with
  | .finish => .ok none
  | .text => some <$> readMargin c
  | .instruction => some <$> readInstruction c
  | .comment => some <$> readComment c
  | .doctype => if rooted then .error ⟨c.pos, .doctypeAfterRoot⟩ else some <$> readDoctype c
  | .cdata => .error ⟨c.pos, .cdataOutsideRoot⟩
  | .endTag => .error ⟨c.pos, .strayEndTag⟩
  | .declaration => root
  | .element => root

/-- Reads the nodes of a document from the cursor on. Each node takes a character, so the length of
the text is fuel enough. -/
def readTopLevel : Nat → Bool → Cursor → Except Defect (List Node)
  | 0, rooted, c => if rooted then .ok [] else .error ⟨c.pos, .missingRoot⟩
  | fuel + 1, rooted, c => do
    match ← readTopNode (readContent fuel 2) rooted c with
    | none => if rooted then pure [] else throw ⟨c.pos, .missingRoot⟩
    | some (node, next) =>
      let nodes ← readTopLevel fuel (rooted || node.isElement) next
      pure (node :: nodes)

end Markup

namespace Document

/-- Where the nodes of a text start: behind a byte order mark, if there is one. -/
def start (source : Chars) : Cursor :=
  if source.head? = some mark then (Cursor.mk 0 source).drop 1 else ⟨0, source⟩

def read (source : Chars) : Except Defect Document := do
  let first := start source
  let nodes ← Markup.readTopLevel first.rest.length false first
  pure { nodes
         byteOrderMark := source.head? == some mark
         trailingNewline := source.getLast? == some '\n' }

end Document
end XamlFormat
