import XamlFormat.Proofs.Layout.StartTag
import XamlFormat.Proofs.Markup.Coverage
import XamlFormat.Layout.Printer

/-! The layout of a document as a change of its parts.

The printer writes text. Here the same decisions give parts again: fresh start tags, trimmed and
collapsed texts, white space between the nodes of a block, and copied parts as they are. -/
namespace XamlFormat

open Markup

namespace Part

def isBlank : Part → Bool
  | text _ value => value.all Text.isXmlBlank
  | _ => false

def isSignificant : Part → Bool
  | text _ value => !value.all Text.isXmlBlank
  | raw .cdata _ => true
  | _ => false

def lineBreaks : Part → Nat
  | text _ value => value.count '\n'
  | _ => 0

def marker? : Part → Option Marker
  | raw .comment content => Marker.ofComment? content
  | _ => none

variable {q : Part}

theorem eq_text_or (q : Part) : (∃ spelling value, q = .text spelling value) ∨ q.isText = false := by
  cases q with
  | text spelling value => exact .inl ⟨spelling, value, rfl⟩
  | raw | element => exact .inr rfl

theorem exists_of_isText (h : q.isText = true) : ∃ spelling value, q = .text spelling value :=
  q.eq_text_or.resolve_right (by simp [h])

theorem isText_of_isBlank (h : q.isBlank = true) : q.isText = true := by
  cases q with
  | text => rfl
  | raw | element => simp [isBlank] at h

theorem isBlank_of_not_isText (h : q.isText = false) : q.isBlank = false := by
  cases q with
  | text => simp [isText] at h
  | raw | element => rfl

theorem isSignificant_of_isBlank (h : q.isBlank = true) : q.isSignificant = false := by
  cases q with
  | text => simpa [isBlank, isSignificant] using h
  | raw | element => simp [isBlank] at h

theorem isBlank_of_isText (ht : q.isText = true) (hs : q.isSignificant = false) :
    q.isBlank = true := by
  obtain ⟨spelling, value, rfl⟩ := exists_of_isText ht
  simpa [isSignificant, isBlank] using hs

theorem isText_eq_false (h : q.isText = true → q.isBlank = true) (hb : q.isBlank = false) :
    q.isText = false := by
  cases ht : q.isText with
  | true => rw [← hb, h ht]
  | false => rfl

theorem isBlank_of_any_isSignificant {qs : List Part} (h : qs.any isSignificant = false) :
    ∀ q ∈ qs, q.isText = true → q.isBlank = true := fun q hq ht =>
  isBlank_of_isText ht (by simpa using List.any_eq_false.mp h q hq)

end Part

/-- A text with its escapes; nothing for the empty text. -/
def textParts (value : Chars) : List Part :=
  if value = [] then [] else [.text (Reference.escapeText value) value]

namespace Printer

variable (p : Printer)

def unixContext (depth : Nat) (isRoot inline : Bool) : TagContext :=
  StartTag.unix (p.tagContext depth isRoot inline)

def element (ctx : TagContext) (tag : Tag) (ending : TagEnd) (children : List Part)
    (closing : Chars) : Part :=
  .element (StartTag.print ctx tag ending) (StartTag.fresh ctx tag ending) children closing

def paddedComment (content : Chars) : Chars :=
  match Text.trim content with
  | [] => []
  | trimmed =>
    let pad := p.settings.commentSpaces
    let before := if trimmed.head? = some '-' then max pad 1 else pad
    let after := if trimmed.getLast? = some '-' then max pad 1 else pad
    List.replicate before ' ' ++ trimmed ++ List.replicate after ' '

def rawContent (kind : RawKind) (content : Chars) : Chars :=
  if kind = .comment ∧ !content.contains '\n' then p.paddedComment content else content

def runningValue (value : Chars) (isFirst isLast : Bool) : Chars :=
  let collapsed := Text.collapse value
  let collapsed := if isLast then Text.trimEnd collapsed else collapsed
  if isFirst then Text.trimStart collapsed else collapsed

def blockGap (depth : Nat) (top : Bool) (state : BlockState) : Chars :=
  (if !state.fresh && state.lineBreaks ≥ 2 then ['\n'] else []) ++
    if state.fresh && top then p.indent.level depth else '\n' :: p.indent.level depth

/-- White space in front of the end tag of a block; none where the block ends within a region. -/
def blockEnd (depth : Nat) (isOpen : Bool) : List Part :=
  if isOpen then [] else textParts ('\n' :: p.indent.level depth)

end Printer

mutual

/-- A part as the printer lays it out. -/
def Part.layout (p : Printer) (depth : Nat) (isRoot inline : Bool) : Part → Part
  | .text _ value =>
    .text (Reference.escapeText (Printer.runningValue value false false))
      (Printer.runningValue value false false)
  | .raw kind content => .raw kind (p.rawContent kind content)
  | .element _ tag children _ =>
    let ctx := p.unixContext depth isRoot inline
    if tag.preserveSpace && !children.isEmpty then
      Printer.element ctx tag .opening children (Printer.endTag tag)
    else if children.all Part.isBlank then
      if p.settings.removeEndTagOfEmptyElement || tag.selfClosing then
        Printer.element ctx tag .selfClosing [] []
      else Printer.element ctx tag .opening [] (Printer.endTag tag)
    else if inline || children.any Part.isSignificant then
      Printer.element ctx tag .opening (layoutInline p depth true false children)
        (Printer.endTag tag)
    else
      let block := layoutBlock p (depth + 1) false ⟨true, 0, false⟩ children
      Printer.element ctx tag .opening
        (block.1 ++ if block.2 then [] else textParts ('\n' :: p.indent.level depth))
        (Printer.endTag tag)

/-- The nodes of a block. Copied parts stay as they are; the result also says whether the block ends
within a region. -/
def layoutBlock (p : Printer) (depth : Nat) (top : Bool) (state : BlockState) :
    List Part → List Part × Bool
  | [] => ([], state.suppressed)
  | n :: rest =>
    if state.suppressed then
      let following :=
        layoutBlock p depth top { state with suppressed := n.marker? != some .on } rest
      (n :: following.1, following.2)
    else if n.isBlank then
      layoutBlock p depth top { state with lineBreaks := n.lineBreaks } rest
    else
      let following := layoutBlock p depth top ⟨false, 0, n.marker? == some .off⟩ rest
      (textParts (p.blockGap depth top state) ++ n.layout p depth top false :: following.1,
        following.2)

def layoutInline (p : Printer) (depth : Nat) (isFirst suppressed : Bool) : List Part → List Part
  | [] => []
  | n :: rest =>
    if suppressed then n :: layoutInline p depth false (n.marker? != some .on) rest
    else
      match n with
      | .text _ value =>
        textParts (Printer.runningValue value isFirst rest.isEmpty) ++
          layoutInline p depth false false rest
      | n =>
        n.layout p (depth + 1) false true ::
          layoutInline p depth false (n.marker? == some .off) rest

end

/-- The state of a list of siblings behind one of them: whether a region goes on there. -/
def Part.regionAfter (suppressed : Bool) (p : Part) : Bool :=
  if suppressed then p.marker? != some .on else p.marker? == some .off

def Node.regionAfter (suppressed : Bool) (n : Node) : Bool :=
  if suppressed then n.marker? != some .on else n.marker? == some .off

section Steps

variable {p : Printer}

theorem regionAfter_of_isText {q : Part} (h : q.isText = true) (suppressed : Bool) :
    q.regionAfter suppressed = suppressed := by
  obtain ⟨spelling, value, rfl⟩ := Part.exists_of_isText h
  cases suppressed <;> rfl

theorem layoutBlock_of_suppressed (depth : Nat) (top fresh : Bool) (breaks : Nat) (q : Part)
    (qs : List Part) : layoutBlock p depth top ⟨fresh, breaks, true⟩ (q :: qs) =
      (q :: (layoutBlock p depth top ⟨fresh, breaks, q.regionAfter true⟩ qs).1,
        (layoutBlock p depth top ⟨fresh, breaks, q.regionAfter true⟩ qs).2) := by
  rw [layoutBlock, if_pos rfl]
  rfl

theorem layoutBlock_of_isBlank (depth : Nat) (top fresh : Bool) (breaks : Nat) {q : Part}
    (hq : q.isBlank = true) (qs : List Part) :
    layoutBlock p depth top ⟨fresh, breaks, false⟩ (q :: qs) =
      layoutBlock p depth top ⟨fresh, q.lineBreaks, false⟩ qs := by
  rw [layoutBlock, if_neg Bool.false_ne_true, if_pos hq]

theorem layoutBlock_node (depth : Nat) (top fresh : Bool) (breaks : Nat) {q : Part}
    (hq : q.isBlank = false) (qs : List Part) :
    layoutBlock p depth top ⟨fresh, breaks, false⟩ (q :: qs) =
      (textParts (p.blockGap depth top ⟨fresh, breaks, false⟩) ++ q.layout p depth top false ::
        (layoutBlock p depth top ⟨false, 0, q.regionAfter false⟩ qs).1,
        (layoutBlock p depth top ⟨false, 0, q.regionAfter false⟩ qs).2) := by
  rw [layoutBlock, if_neg Bool.false_ne_true, if_neg (by simp [hq])]
  rfl

theorem layoutInline_suppressed (p : Printer) (depth : Nat) (isFirst : Bool) (q : Part)
    (qs : List Part) : layoutInline p depth isFirst true (q :: qs) =
      q :: layoutInline p depth false (q.regionAfter true) qs := by
  cases q <;> rfl

theorem layoutInline_text (p : Printer) (depth : Nat) (isFirst : Bool) (spelling value : Chars)
    (qs : List Part) : layoutInline p depth isFirst false (.text spelling value :: qs) =
      textParts (Printer.runningValue value isFirst qs.isEmpty) ++
        layoutInline p depth false false qs := by
  rw [layoutInline, if_neg Bool.false_ne_true]

theorem layoutInline_node (p : Printer) (depth : Nat) (isFirst : Bool) {q : Part}
    (hq : q.isText = false) (qs : List Part) : layoutInline p depth isFirst false (q :: qs) =
      q.layout p (depth + 1) false true :: layoutInline p depth false (q.regionAfter false) qs := by
  cases q with
  | text => simp [Part.isText] at hq
  | raw | element => rfl

end Steps

section Equations

variable (p : Printer) (depth contentEnd : Nat) (isFirst : Bool)

theorem printInline_suppressed (n : Node) (ns : List Node) :
    printInline p depth contentEnd isFirst true (n :: ns) =
      printInline p depth contentEnd false (n.marker? != some .on) ns := by
  cases n <;> rfl

theorem printInline_text (value : Chars) (span : Span) (ns : List Node) :
    printInline p depth contentEnd isFirst false (.text value span :: ns) =
      Printer.runningText value isFirst ns.isEmpty ++
        printInline p depth contentEnd false false ns := by
  rw [printInline, if_neg Bool.false_ne_true]

theorem printInline_node {n : Node} (hn : ∀ value span, n ≠ .text value span) (ns : List Node) :
    printInline p depth contentEnd isFirst false (n :: ns) =
      n.print p (depth + 1) false true ++
        ((if n.marker? == some .off then p.copiedSource n.span.stop (regionStop contentEnd ns)
          else []) ++ printInline p depth contentEnd false (n.marker? == some .off) ns) := by
  cases n with
  | text value span => exact absurd rfl (hn value span)
  | raw | element => rfl

variable (top fresh : Bool) (breaks : Nat)

theorem printBlock_of_suppressed (n : Node) (ns : List Node) :
    printBlock p depth contentEnd top ⟨fresh, breaks, true⟩ (n :: ns) =
      printBlock p depth contentEnd top ⟨fresh, breaks, n.marker? != some .on⟩ ns := by
  rw [printBlock, if_pos rfl]

theorem printBlock_of_isBlank {n : Node} (hn : n.isBlank = true) (ns : List Node) :
    printBlock p depth contentEnd top ⟨fresh, breaks, false⟩ (n :: ns) =
      printBlock p depth contentEnd top ⟨fresh, n.lineBreaks, false⟩ ns := by
  rw [printBlock, if_neg Bool.false_ne_true, if_pos hn]

theorem printBlock_node {n : Node} (hn : n.isBlank = false) (ns : List Node) :
    printBlock p depth contentEnd top ⟨fresh, breaks, false⟩ (n :: ns) =
      ((if !fresh && breaks ≥ 2 then p.newLine else []) ++
        ((if fresh && top then p.indent.level depth else p.lineStart depth) ++
          (n.print p depth top false ++
            ((if n.marker? == some .off then p.copiedSource n.span.stop (regionStop contentEnd ns)
              else []) ++
              (printBlock p depth contentEnd top ⟨false, 0, n.marker? == some .off⟩ ns).1))),
        (printBlock p depth contentEnd top ⟨false, 0, n.marker? == some .off⟩ ns).2) := by
  rw [printBlock, if_neg Bool.false_ne_true, if_neg (by simp [hn])]

end Equations

/-- What the layout makes of an element: the children are copied, are nothing but white space and
left out, stand in running text, or stand in a block. -/
inductive Printer.LaysOut (p : Printer) (depth : Nat) (isRoot inline : Bool) (tag : Tag)
    (children : List Part) : Part → Prop
  | copied (hp : (tag.preserveSpace && !children.isEmpty) = true) :
    LaysOut p depth isRoot inline tag children
      (Printer.element (p.unixContext depth isRoot inline) tag .opening children
        (Printer.endTag tag))
  | selfClosed (hp : (tag.preserveSpace && !children.isEmpty) = false)
      (hb : children.all Part.isBlank = true)
      (hs : (p.settings.removeEndTagOfEmptyElement || tag.selfClosing) = true) :
    LaysOut p depth isRoot inline tag children
      (Printer.element (p.unixContext depth isRoot inline) tag .selfClosing [] [])
  | empty (hp : (tag.preserveSpace && !children.isEmpty) = false)
      (hb : children.all Part.isBlank = true)
      (hs : (p.settings.removeEndTagOfEmptyElement || tag.selfClosing) = false) :
    LaysOut p depth isRoot inline tag children
      (Printer.element (p.unixContext depth isRoot inline) tag .opening [] (Printer.endTag tag))
  | running (hp : tag.preserveSpace = false) (hb : children.all Part.isBlank = false)
      (hi : (inline || children.any Part.isSignificant) = true) :
    LaysOut p depth isRoot inline tag children
      (Printer.element (p.unixContext depth isRoot inline) tag .opening
        (layoutInline p depth true false children) (Printer.endTag tag))
  | block (hp : tag.preserveSpace = false) (hb : children.all Part.isBlank = false)
      (hi : inline = false) (hs : children.any Part.isSignificant = false) :
    LaysOut p depth isRoot inline tag children
      (Printer.element (p.unixContext depth isRoot inline) tag .opening
        ((layoutBlock p (depth + 1) false ⟨true, 0, false⟩ children).1 ++
          p.blockEnd depth (layoutBlock p (depth + 1) false ⟨true, 0, false⟩ children).2)
        (Printer.endTag tag))

section Elements

variable {p : Printer} {depth : Nat} {isRoot inline : Bool} {tag : Tag} {children : List Part}

theorem Printer.LaysOut.layout_eq {q : Part} (h : p.LaysOut depth isRoot inline tag children q)
    (opening closing : Chars) :
    (Part.element opening tag children closing).layout p depth isRoot inline = q := by
  rw [Part.layout]
  cases h with
  | copied hp => rw [if_pos hp]
  | selfClosed hp hb hs => rw [hp, if_neg Bool.false_ne_true, if_pos hb, if_pos hs]
  | empty hp hb hs =>
    rw [hp, if_neg Bool.false_ne_true, if_pos hb, hs, if_neg Bool.false_ne_true]
  | running hp hb hi =>
    rw [hp, Bool.false_and, if_neg Bool.false_ne_true, hb, if_neg Bool.false_ne_true, if_pos hi]
  | block hp hb hi hs =>
    rw [hp, Bool.false_and, if_neg Bool.false_ne_true, hb, if_neg Bool.false_ne_true, hi, hs,
      Bool.or_self, if_neg Bool.false_ne_true]
    rfl

variable (p depth isRoot inline tag children)

theorem Printer.exists_laysOut : ∃ q, p.LaysOut depth isRoot inline tag children q := by
  cases hp : tag.preserveSpace && !children.isEmpty with
  | true => exact ⟨_, .copied hp⟩
  | false =>
    cases hb : children.all Part.isBlank with
    | true =>
      cases hs : p.settings.removeEndTagOfEmptyElement || tag.selfClosing with
      | true => exact ⟨_, .selfClosed hp hb hs⟩
      | false => exact ⟨_, .empty hp hb hs⟩
    | false =>
      have hspace : tag.preserveSpace = false := by
        cases children with
        | nil => simp at hb
        | cons => simpa using hp
      cases hi : inline || children.any Part.isSignificant with
      | true => exact ⟨_, .running hspace hb hi⟩
      | false =>
        obtain ⟨hi, hs⟩ := Bool.or_eq_false_iff.mp hi
        exact ⟨_, .block hspace hb hi hs⟩

theorem Part.exists_layout (opening closing : Chars) :
    ∃ ending cs c, (Part.element opening tag children closing).layout p depth isRoot inline =
      Printer.element (p.unixContext depth isRoot inline) tag ending cs c := by
  obtain ⟨q, h⟩ := p.exists_laysOut depth isRoot inline tag children
  rw [h.layout_eq]
  cases h <;> exact ⟨_, _, _, rfl⟩

end Elements

/-- The text of a region that is open in front of the parts. -/
def regionText : List Part → Chars
  | [] => []
  | p :: ps => p.spelled ++ if p.marker? = some .on then [] else regionText ps

mutual

/-- What the layout needs to know of a part that it does not copy, at nesting `depth`: names that
can be written, closed markup, and valid parts where it copies. -/
def Part.Ready (depth : Nat) : Part → Prop
  | .text _ _ => True
  | .raw kind content => kind.Closed content ∧ '\r' ∉ content
  | .element _ tag children _ =>
    depth ≤ maxDepth ∧ tag.Legible ∧ (tag.selfClosing = true → children = []) ∧
      (∀ content, .raw .doctype content ∉ children) ∧
      if tag.preserveSpace && !children.isEmpty then
        ValidList (depth + 1) children ∧ '\r' ∉ spelledList children
      else ReadyList (depth + 1) false children

def ReadyList (depth : Nat) (suppressed : Bool) : List Part → Prop
  | [] => True
  | p :: ps =>
    (if suppressed then p.Fits depth ∧ '\r' ∉ p.spelled else p.Ready depth) ∧
      (p.isText = true → Part.headText ps = false) ∧
      ReadyList depth (p.regionAfter suppressed) ps

end

section Ready

variable {depth : Nat} {opening : Chars} {tag : Tag} {cs : List Part} {closing : Chars}

theorem Part.Ready.copied (h : (Part.element opening tag cs closing).Ready depth)
    (hp : (tag.preserveSpace && !cs.isEmpty) = true) :
    ValidList (depth + 1) cs ∧ '\r' ∉ spelledList cs := by
  obtain ⟨-, -, -, -, h⟩ := h
  rwa [if_pos hp] at h

theorem Part.Ready.children (h : (Part.element opening tag cs closing).Ready depth)
    (hp : (tag.preserveSpace && !cs.isEmpty) = false) :
    ReadyList (depth + 1) false cs := by
  obtain ⟨-, -, -, -, h⟩ := h
  rwa [hp, if_neg Bool.false_ne_true] at h

end Ready

/-- The same text, the same markup, or an element in either case. -/
def Part.Alike : Part → Node → Prop
  | .text _ value, .text v _ => v = value
  | .raw kind content, .raw k c _ => k = kind ∧ c = content
  | .element _ _ _ _, .element _ _ => True
  | _, _ => False

namespace Part.Alike

variable {q : Part} {n : Node}

theorem isBlank_eq (h : q.Alike n) : n.isBlank = q.isBlank := by
  cases q <;> cases n <;> simp_all [Part.Alike, Node.isBlank, Part.isBlank]

theorem lineBreaks_eq (h : q.Alike n) : n.lineBreaks = q.lineBreaks := by
  cases q <;> cases n <;> simp_all [Part.Alike, Node.lineBreaks, Part.lineBreaks]

theorem isSignificant_eq (h : q.Alike n) : n.isSignificant = q.isSignificant := by
  cases q with
  | raw kind content =>
    cases n with
    | raw k c s =>
      obtain ⟨rfl, rfl⟩ := h
      cases k <;> rfl
    | text | element => exact h.elim
  | text | element => cases n <;> simp_all [Part.Alike, Node.isSignificant, Part.isSignificant]

theorem marker?_eq (h : q.Alike n) : n.marker? = q.marker? := by
  cases q with
  | raw kind content =>
    cases n with
    | raw k c s =>
      obtain ⟨rfl, rfl⟩ := h
      cases k <;> rfl
    | text | element => exact h.elim
  | text | element => cases n <;> simp_all [Part.Alike, Node.marker?, Part.marker?]

theorem regionAfter_eq (h : q.Alike n) (suppressed : Bool) :
    n.regionAfter suppressed = q.regionAfter suppressed := by
  rw [Node.regionAfter, Part.regionAfter, h.marker?_eq]

theorem ne_text (h : q.Alike n) (hq : q.isText = false) (value : Chars) (span : Span) :
    n ≠ .text value span := by
  rintro rfl
  cases q with
  | text => simp [Part.isText] at hq
  | raw | element => exact h.elim

end Part.Alike

mutual

/-- The node prints what the part holds: they agree in what is laid out, and the source holds what
is copied. -/
def Part.Shown (source : Chars) : Part → Node → Prop
  | .element _ tag children _, .element t ns =>
    t = tag ∧
      if tag.preserveSpace && !children.isEmpty then
        ∃ content, tag.preserved? = some content ∧
          Text.slice source content.start content.stop = spelledList children
      else tag.preserved? = none ∧ ShownList source (Printer.contentEnd tag) false children ns
  | .text _ _, _ => True
  | .raw _ _, _ => True
  | _, _ => False

def ShownList (source : Chars) (contentEnd : Nat) (suppressed : Bool) :
    List Part → List Node → Prop
  | [], [] => True
  | p :: ps, n :: ns =>
    p.Alike n ∧
      (suppressed = false → p.Shown source n ∧ (p.marker? = some .off →
        Text.slice source n.span.stop (regionStop contentEnd ns) = regionText ps)) ∧
      ShownList source contentEnd (p.regionAfter suppressed) ps ns
  | _, _ => False

end

theorem Part.Shown.children {source opening closing : Chars} {tag t : Tag} {children : List Part}
    {ns : List Node}
    (h : (Part.element opening tag children closing).Shown source (.element t ns))
    (hp : (tag.preserveSpace && !children.isEmpty) = false) :
    tag.preserved? = none ∧ ShownList source (Printer.contentEnd tag) false children ns := by
  obtain ⟨-, h⟩ := h
  rwa [hp, if_neg Bool.false_ne_true] at h

theorem ShownList.alike {source : Chars} {contentEnd : Nat} {suppressed : Bool} {qs : List Part}
    {ns : List Node} (h : ShownList source contentEnd suppressed qs ns) :
    List.Forall₂ Part.Alike qs ns := by
  induction qs generalizing ns suppressed with
  | nil =>
    cases ns with
    | nil => exact .nil
    | cons => exact h.elim
  | cons q qs ih =>
    cases ns with
    | nil => exact h.elim
    | cons n ns => exact .cons h.1 (ih h.2.2)

theorem all_isBlank_eq {qs : List Part} {ns : List Node} (h : List.Forall₂ Part.Alike qs ns) :
    ns.all Node.isBlank = qs.all Part.isBlank := by
  induction h with
  | nil => rfl
  | cons h _ ih => simp [h.isBlank_eq, ih]

theorem any_isSignificant_eq {qs : List Part} {ns : List Node}
    (h : List.Forall₂ Part.Alike qs ns) :
    ns.any Node.isSignificant = qs.any Part.isSignificant := by
  induction h with
  | nil => rfl
  | cons h _ ih => simp [h.isSignificant_eq, ih]

theorem isEmpty_eq {qs : List Part} {ns : List Node} (h : List.Forall₂ Part.Alike qs ns) :
    ns.isEmpty = qs.isEmpty := by
  cases h <;> rfl

end XamlFormat
