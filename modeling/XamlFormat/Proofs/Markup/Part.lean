import XamlFormat.Proofs.Markup.Decode

/-! Parts of a document: nodes together with the text that spells them, free of positions.

The grammar of documents is stated on parts. A part knows its text, `Part.Valid` says that the text
spells what the part holds, and `Part.place` gives the node that stands for it at a position. -/
namespace XamlFormat

namespace Markup

theorem commentOpen_eq : commentOpen = ['<', '!', '-', '-'] := rfl
theorem commentClose_eq : commentClose = ['-', '-', '>'] := rfl
theorem cdataOpen_eq : cdataOpen = ['<', '!', '[', 'C', 'D', 'A', 'T', 'A', '['] := rfl
theorem cdataClose_eq : cdataClose = [']', ']', '>'] := rfl
theorem instructionOpen_eq : instructionOpen = ['<', '?'] := rfl
theorem instructionClose_eq : instructionClose = ['?', '>'] := rfl
theorem doctypeOpen_eq : doctypeOpen = ['<', '!', 'D', 'O', 'C', 'T', 'Y', 'P', 'E'] := rfl

/-- What the reader takes as a name. -/
def IsName : Chars → Prop
  | [] => False
  | c :: cs => isNameStart c = true ∧ ∀ d ∈ cs, isNameChar d = true

def Blanks (s : Chars) : Prop := ∀ c ∈ s, Text.isXmlBlank c = true

@[simp] theorem blanks_nil : Blanks [] := by
  simp [Blanks]

theorem ne_of_isNameStart {c d : Char} (h : isNameStart c = true) (hd : isNameStart d = false) :
    c ≠ d := by
  rintro rfl
  simp [h] at hd

theorem isNameChar_of_isXmlBlank {c : Char} (h : Text.isXmlBlank c = true) :
    isNameChar c = false := by
  simp only [Text.isXmlBlank, Bool.or_eq_true, beq_iff_eq] at h
  obtain ((rfl | rfl) | rfl) | rfl := h <;> decide

theorem isNameStart_of_isXmlBlank {c : Char} (h : Text.isXmlBlank c = true) :
    isNameStart c = false := by
  simp only [Text.isXmlBlank, Bool.or_eq_true, beq_iff_eq] at h
  obtain ((rfl | rfl) | rfl) | rfl := h <;> decide

theorem Blanks.halts_name {s : Chars} (h : Blanks s) (hs : s ≠ []) (t : Chars) :
    Text.Halts isNameChar (s ++ t) := by
  cases s with
  | nil => exact absurd rfl hs
  | cons c cs => simpa using isNameChar_of_isXmlBlank (h c (by simp))

theorem nameAt_append {name rest : Chars} (h : IsName name) (hr : Text.Halts isNameChar rest) :
    nameAt (name ++ rest) = name := by
  cases name with
  | nil => exact h.elim
  | cons c cs =>
    simp only [List.cons_append, nameAt, h.1, if_true, List.cons.injEq, true_and]
    exact Text.takeWhile_append_halts h.2 hr

theorem nameAt_spec {s name : Chars} (h : nameAt s = name) (hn : name ≠ []) :
    IsName name ∧ ∃ rest, s = name ++ rest ∧ Text.Halts isNameChar rest := by
  cases s with
  | nil => exact absurd h.symm hn
  | cons c cs =>
    by_cases hc : isNameStart c = true
    · simp only [nameAt, hc, if_true] at h
      subst h
      refine ⟨⟨hc, fun d hd => List.mem_takeWhile_imp hd⟩, cs.dropWhile isNameChar, ?_,
        Text.halts_dropWhile _ _⟩
      simp
    · simp only [nameAt, hc, Bool.false_eq_true, if_false] at h
      exact absurd h.symm hn

theorem nameAt_isPrefix (s : Chars) : nameAt s <+: s := by
  by_cases h : nameAt s = []
  · rw [h]
    exact List.nil_prefix
  · obtain ⟨-, rest, hrest, -⟩ := nameAt_spec rfl h
    exact ⟨rest, hrest.symm⟩

end Markup

open Markup

/-- An attribute as it is written in a start tag, with the blanks in front of it. -/
structure WrittenAttribute where
  gap : Chars
  name : Chars
  /-- Blanks before the equals sign. -/
  before : Chars
  /-- Blanks behind the equals sign. -/
  after : Chars
  quote : Char
  /-- What stands between the quotes. -/
  raw : Chars

namespace WrittenAttribute

/-- The attribute from its name on. -/
def body (w : WrittenAttribute) : Chars :=
  w.name ++ (w.before ++ '=' :: (w.after ++ w.quote :: (w.raw ++ [w.quote])))

def text (w : WrittenAttribute) : Chars := w.gap ++ w.body

structure Valid (w : WrittenAttribute) : Prop where
  gap_ne : w.gap ≠ []
  gap : Blanks w.gap
  name : IsName w.name
  before : Blanks w.before
  after : Blanks w.after
  quote : w.quote = '"' ∨ w.quote = '\''
  raw : w.quote ∉ w.raw
  value : ∃ v, Reference.decode (flattenValue w.raw) = .ok v

def value (w : WrittenAttribute) : Chars :=
  match Reference.decode (flattenValue w.raw) with
  | .ok v => v
  | .error _ => []

theorem Valid.decode {w : WrittenAttribute} (h : w.Valid) :
    Reference.decode (flattenValue w.raw) = .ok w.value := by
  obtain ⟨v, hv⟩ := h.value
  simp [WrittenAttribute.value, hv]

/-- The attribute as number `index` of its tag, with its gap at byte `pos`. -/
def toAttribute (index pos : Nat) (w : WrittenAttribute) : Attribute where
  name := QName.ofChars w.name
  value := w.value
  index := index
  offset := pos + Text.byteLength w.gap

/-- The attributes in order, the first as number `index` with its gap at byte `pos`. -/
def attributes : Nat → Nat → List WrittenAttribute → List Attribute
  | _, _, [] => []
  | index, pos, w :: ws =>
    w.toAttribute index pos :: attributes (index + 1) (pos + Text.byteLength w.text) ws

/-- Attributes in front of which no gap has a line break. -/
def firstLine (ws : List WrittenAttribute) : Nat :=
  (ws.takeWhile fun w => !w.gap.contains '\n').length

@[simp] theorem firstLine_nil : firstLine [] = 0 := rfl

theorem firstLine_cons (w : WrittenAttribute) (ws : List WrittenAttribute) :
    firstLine (w :: ws) = if w.gap.contains '\n' then 0 else firstLine ws + 1 := by
  rw [firstLine, List.takeWhile_cons]
  cases w.gap.contains '\n' <;> simp [firstLine]

end WrittenAttribute

structure WrittenTag where
  name : Chars
  attributes : List WrittenAttribute
  /-- Blanks before the bracket. -/
  gap : Chars
  selfClosing : Bool

namespace WrittenTag

def bracket (selfClosing : Bool) : Chars := if selfClosing then ['/', '>'] else ['>']

def text (w : WrittenTag) : Chars :=
  '<' :: (w.name ++ (w.attributes.flatMap WrittenAttribute.text ++
    (w.gap ++ bracket w.selfClosing)))

/-- The tag, with the offsets of its attributes counted from its own start. -/
def tag (w : WrittenTag) : Tag :=
  let attributes :=
    WrittenAttribute.attributes 0 (1 + Text.byteLength w.name) w.attributes
  { name := QName.ofChars w.name
    attributes
    selfClosing := w.selfClosing
    preserveSpace := preservesSpace attributes
    firstLine := WrittenAttribute.firstLine w.attributes
    span := ⟨0, Text.byteLength w.text⟩ }

structure Valid (w : WrittenTag) : Prop where
  name : IsName w.name
  attributes : ∀ a ∈ w.attributes, a.Valid
  distinct : (w.attributes.map WrittenAttribute.name).Nodup
  gap : Blanks w.gap

end WrittenTag

namespace Tag

def Spelled (t : Tag) (text : Chars) : Prop :=
  ∃ w : WrittenTag, w.Valid ∧ w.text = text ∧ w.tag = t

/-- The tag as part of a text that starts at byte `pos`. -/
def place (pos stop : Nat) (content : Option Span) (t : Tag) : Tag :=
  { t with
    attributes := t.attributes.map fun a => { a with offset := pos + a.offset }
    span := ⟨pos, stop⟩
    content }

end Tag

def IsEndTag (name text : Chars) : Prop :=
  ∃ gap, Blanks gap ∧ text = '<' :: '/' :: (name ++ (gap ++ ['>']))

namespace RawKind

def markup : RawKind → Chars → Chars
  | comment, content => commentOpen ++ (content ++ commentClose)
  | cdata, content => cdataOpen ++ (content ++ cdataClose)
  | instruction, content => content
  | doctype, content => content

/-- The markup with this content is read to its end, and not beyond. -/
def Closed : RawKind → Chars → Prop
  | comment, content => Text.Ends commentClose content
  | cdata, content => Text.Ends cdataClose content
  | instruction, content =>
    ∃ body, content = instructionOpen ++ (body ++ instructionClose) ∧
      Text.Ends instructionClose body
  | doctype, content => doctypeOpen <+: content ∧ scanDoctype none 0 content = some content

end RawKind

/-- A node of a document with the text that spells it. -/
inductive Part where
  | text (spelling value : Chars)
  | raw (kind : RawKind) (content : Chars)
  | element (opening : Chars) (tag : Tag) (children : List Part) (closing : Chars)

namespace Part

def isText : Part → Bool
  | text _ _ => true
  | _ => false

/-- Text that neighbours would run into. -/
def headText (parts : List Part) : Bool := parts.head?.any isText

end Part

mutual

def Part.spelled : Part → Chars
  | .text spelling _ => spelling
  | .raw kind content => kind.markup content
  | .element opening _ children closing => opening ++ (spelledList children ++ closing)

def spelledList : List Part → Chars
  | [] => []
  | p :: ps => p.spelled ++ spelledList ps

end

mutual

/-- The text of a part spells what the part holds, in an element of nesting `depth` or as one. -/
def Part.Valid (depth : Nat) : Part → Prop
  | .text spelling value =>
    spelling ≠ [] ∧ '<' ∉ spelling ∧ Reference.decode spelling = .ok value
  | .raw kind content => kind ≠ .doctype ∧ kind.Closed content
  | .element opening tag children closing =>
    depth ≤ maxDepth ∧ tag.Spelled opening ∧
      (tag.selfClosing = true → children = [] ∧ closing = []) ∧
      (tag.selfClosing = false → IsEndTag tag.name.written closing) ∧
      ValidList (depth + 1) children

/-- Valid siblings. Two texts never stand side by side. -/
def ValidList (depth : Nat) : List Part → Prop
  | [] => True
  | p :: ps => p.Valid depth ∧ (p.isText = true → Part.headText ps = false) ∧ ValidList depth ps

end

mutual

def Part.place (pos : Nat) : Part → Node
  | .text spelling value => .text value ⟨pos, pos + Text.byteLength spelling⟩
  | .raw kind content => .raw kind content ⟨pos, pos + Text.byteLength (kind.markup content)⟩
  | .element opening tag children closing =>
    let inner := pos + Text.byteLength opening
    let outer := inner + Text.byteLength (spelledList children)
    let content := if tag.selfClosing then none else some ⟨inner, outer⟩
    .element (tag.place pos (outer + Text.byteLength closing) content)
      (placeList inner children)

def placeList (pos : Nat) : List Part → List Node
  | [] => []
  | p :: ps => p.place pos :: placeList (pos + Text.byteLength p.spelled) ps

end

/-- Valid parts outside the root element; `rooted` says whether the root came already. Only blanks,
comments and instructions stand on both sides of the root, and a doctype only before it. -/
def ValidTop (rooted : Bool) : List Part → Prop
  | [] => rooted = true
  | .text spelling value :: ps =>
    spelling ≠ [] ∧ Blanks spelling ∧ value = spelling ∧ Part.headText ps = false ∧
      ValidTop rooted ps
  | .raw kind content :: ps =>
    kind ≠ .cdata ∧ (kind = .doctype → rooted = false) ∧ kind.Closed content ∧ ValidTop rooted ps
  | .element opening tag children closing :: ps =>
    rooted = false ∧ (Part.element opening tag children closing).Valid 1 ∧ ValidTop true ps

theorem spelledList_append (ps qs : List Part) :
    spelledList (ps ++ qs) = spelledList ps ++ spelledList qs := by
  induction ps with
  | nil => rfl
  | cons p ps ih => simp [spelledList, ih]

theorem RawKind.Closed.head {kind : RawKind} {content : Chars} (h : kind.Closed content) :
    (kind.markup content).head? = some '<' := by
  cases kind with
  | comment => simp [RawKind.markup, commentOpen_eq]
  | cdata => simp [RawKind.markup, cdataOpen_eq]
  | instruction =>
    obtain ⟨body, rfl, -⟩ := h
    simp [RawKind.markup, instructionOpen_eq]
  | doctype =>
    obtain ⟨⟨rest, rfl⟩, -⟩ := h
    simp [RawKind.markup, doctypeOpen_eq]

theorem Tag.Spelled.head {t : Tag} {text : Chars} (h : t.Spelled text) : text.head? = some '<' := by
  obtain ⟨w, -, rfl, -⟩ := h
  rfl

theorem Tag.Spelled.name {t : Tag} {text : Chars} (h : t.Spelled text) : IsName t.name.written := by
  obtain ⟨w, hw, -, rfl⟩ := h
  simpa [WrittenTag.tag] using hw.name

theorem Part.Valid.spelled_ne {depth : Nat} {p : Part} (h : p.Valid depth) : p.spelled ≠ [] := by
  cases p with
  | text spelling value => exact h.1
  | raw kind content =>
    intro he
    have := h.2.head
    simp_all [Part.spelled]
  | element opening tag children closing =>
    intro he
    have := h.2.1.head
    simp_all [Part.spelled]

/-- A document starts with markup or with an XML blank. -/
theorem ValidTop.head {rooted : Bool} {parts : List Part} (h : ValidTop rooted parts) :
    (rooted = true ∧ parts = []) ∨
      ∃ c cs, spelledList parts = c :: cs ∧ (c = '<' ∨ Text.isXmlBlank c = true) := by
  have open_append {a : Chars} (b : Chars) (ha : a.head? = some '<') :
      ∃ c cs, a ++ b = c :: cs ∧ (c = '<' ∨ Text.isXmlBlank c = true) := by
    obtain ⟨cs, rfl⟩ := List.head?_eq_some_iff.mp ha
    exact ⟨'<', cs ++ b, rfl, .inl rfl⟩
  cases parts with
  | nil => exact .inl ⟨h, rfl⟩
  | cons p ps =>
    right
    cases p with
    | text spelling value =>
      obtain ⟨hne, hb, -⟩ := h
      obtain ⟨c, cs, rfl⟩ := List.exists_cons_of_ne_nil hne
      exact ⟨c, _, rfl, .inr (hb c (by simp))⟩
    | raw kind content => exact open_append _ h.2.2.1.head
    | element opening tag children closing =>
      simp only [spelledList, Part.spelled, List.append_assoc]
      exact open_append _ h.2.1.2.1.head

end XamlFormat
