import XamlFormat.Proofs.Markup.Sound

/-! What the reader gives back: the text of valid parts is read as these parts.

Each construct is followed by a text that it cannot run into, so every lemma has this text as a
parameter and says where the cursor stands behind the construct. -/
namespace XamlFormat

namespace Cursor

@[simp] theorem drop_append (pos : Nat) (a b : Chars) :
    (Cursor.mk pos (a ++ b)).drop a.length = ⟨pos + Text.byteLength a, b⟩ := by
  simp [drop]

theorem dropWhile_append {p : Char → Bool} {a b : Chars} (pos : Nat) (ha : ∀ c ∈ a, p c = true)
    (hb : Text.Halts p b) :
    (Cursor.mk pos (a ++ b)).dropWhile p = ⟨pos + Text.byteLength a, b⟩ := by
  simp only [dropWhile, Text.takeWhile_append_halts ha hb, Text.dropWhile_append_halts ha hb]

theorem skipBlanks_append {a b : Chars} (pos : Nat) (ha : Markup.Blanks a)
    (hb : Text.Halts Text.isXmlBlank b) :
    (Cursor.mk pos (a ++ b)).skipBlanks = ⟨pos + Text.byteLength a, b⟩ :=
  dropWhile_append pos ha hb

end Cursor

namespace Markup

open Text

def behind (pos : Nat) (p : Part) (rest : Chars) : Cursor := ⟨pos + byteLength p.spelled, rest⟩

theorem readDelimited_complete {opening closing content : Chars} (hc : closing ≠ [])
    (he : Ends closing content) (kind : RawKind) (pos : Nat) (rest : Chars) :
    readDelimited opening closing kind ⟨pos, opening ++ (content ++ closing) ++ rest⟩ =
      .ok (content, ⟨pos + byteLength (opening ++ (content ++ closing)), rest⟩) := by
  have hcut : cutAtMark closing (content ++ (closing ++ rest)) = some (content, rest) :=
    (cutAtMark_eq_some hc).mpr ⟨rfl, he⟩
  have hdrop := Cursor.drop_append (pos + byteLength opening) (content ++ closing) rest
  rw [List.length_append] at hdrop
  simp only [readDelimited, List.append_assoc, Cursor.drop_append, hcut] at hdrop ⊢
  simp only [hdrop, byteLength_append, Nat.add_assoc]

theorem readComment_complete {content : Chars} (h : RawKind.comment.Closed content) (pos : Nat)
    (rest : Chars) :
    readComment ⟨pos, RawKind.comment.markup content ++ rest⟩ =
      .ok ((Part.raw .comment content).place pos, behind pos (.raw .comment content) rest) := by
  rw [readComment, RawKind.markup, readDelimited_complete (by decide) h]
  rfl

theorem readCData_complete {content : Chars} (h : RawKind.cdata.Closed content) (pos : Nat)
    (rest : Chars) :
    readCData ⟨pos, RawKind.cdata.markup content ++ rest⟩ =
      .ok ((Part.raw .cdata content).place pos, behind pos (.raw .cdata content) rest) := by
  rw [readCData, RawKind.markup, readDelimited_complete (by decide) h]
  rfl

theorem readInstruction_complete {content : Chars} (h : RawKind.instruction.Closed content)
    (pos : Nat) (rest : Chars) :
    readInstruction ⟨pos, RawKind.instruction.markup content ++ rest⟩ =
      .ok ((Part.raw .instruction content).place pos,
        behind pos (.raw .instruction content) rest) := by
  obtain ⟨body, rfl, he⟩ := h
  rw [readInstruction, RawKind.markup, readDelimited_complete (by decide) he]
  simp only [← List.append_assoc]
  rfl

theorem readDoctype_complete {content : Chars} (h : RawKind.doctype.Closed content) (pos : Nat)
    (rest : Chars) :
    readDoctype ⟨pos, RawKind.doctype.markup content ++ rest⟩ =
      .ok ((Part.raw .doctype content).place pos, behind pos (.raw .doctype content) rest) := by
  obtain ⟨-, -, hall⟩ := scanDoctype_spec h.2
  simp only [readDoctype, RawKind.markup, hall rest, Cursor.drop_append]
  rfl

theorem ne_of_notMem {s : Chars} {d : Char} (h : d ∉ s) : ∀ c ∈ s, (c != d) = true := by
  intro c hc
  have : c ≠ d := fun hd => h (hd ▸ hc)
  simpa using this

theorem readText_complete {spelling value rest : Chars} (hm : '<' ∉ spelling)
    (hd : Reference.decode spelling = .ok value) (hr : Halts (· != '<') rest) (pos : Nat) :
    readText ⟨pos, spelling ++ rest⟩ =
      .ok ((Part.text spelling value).place pos, behind pos (.text spelling value) rest) := by
  have hall := ne_of_notMem hm
  rw [readText, takeWhile_append_halts hall hr, Cursor.dropWhile_append pos hall hr,
    decodeAt_eq_ok.mpr hd]
  rfl

theorem notMem_of_blanks {s : Chars} (h : Blanks s) {d : Char} (hd : isXmlBlank d = false) :
    d ∉ s := by
  intro hm
  simp [h d hm] at hd

theorem readMargin_complete {spelling rest : Chars} (hb : Blanks spelling)
    (hr : Halts (· != '<') rest) (pos : Nat) :
    readMargin ⟨pos, spelling ++ rest⟩ =
      .ok ((Part.text spelling spelling).place pos,
        behind pos (.text spelling spelling) rest) := by
  have hall := ne_of_notMem (notMem_of_blanks hb (d := '<') rfl)
  have hb' : spelling.all isXmlBlank = true := by simpa [Blanks] using hb
  simp only [readMargin, takeWhile_append_halts hall hr, Cursor.dropWhile_append pos hall hr, hb',
    if_true]
  rfl

theorem readValue_complete {offset : Nat} {name raw value : Chars} {q : Char}
    (hq : q = '"' ∨ q = '\'') (hraw : q ∉ raw)
    (hv : Reference.decode (flattenValue raw) = .ok value) (pos : Nat) (rest : Chars) :
    readValue offset name ⟨pos, q :: (raw ++ q :: rest)⟩ =
      .ok (value, ⟨pos + byteLength (q :: (raw ++ [q])), rest⟩) := by
  have hdrop := Cursor.drop_append pos (q :: (raw ++ [q])) rest
  simp only [List.cons_append, List.append_assoc, List.nil_append, List.length_cons,
    List.length_append, List.length_nil, Nat.zero_add] at hdrop
  simp only [readValue, if_pos hq, cutAt_append rest hraw, decodeAt_eq_ok.mpr hv]
  rw [hdrop]
  rfl

theorem IsName.halts_blank {name : Chars} (h : IsName name) (rest : Chars) :
    Halts isXmlBlank (name ++ rest) := by
  cases name with
  | nil => exact h.elim
  | cons c cs =>
    simp only [List.cons_append, halts_cons]
    by_contra hc
    have := isNameStart_of_isXmlBlank (Bool.eq_true_of_not_eq_false hc)
    simp [h.1] at this

theorem halts_name_append {s t : Chars} (h : Blanks s) (ht : Halts isNameChar t) :
    Halts isNameChar (s ++ t) := by
  cases s with
  | nil => exact ht
  | cons c cs => simpa using isNameChar_of_isXmlBlank (h c (by simp))

theorem IsName.exists_cons {name : Chars} (h : IsName name) :
    ∃ c cs, name = c :: cs ∧ isNameStart c = true := by
  cases name with
  | nil => exact h.elim
  | cons c cs => exact ⟨c, cs, rfl, h.1⟩

theorem readAttribute_eq {name before after : Chars} {q : Char} (hname : IsName name)
    (hbefore : Blanks before) (hafter : Blanks after) (hq : q = '"' ∨ q = '\'') (index pos : Nat)
    (tail : Chars) :
    readAttribute index ⟨pos, name ++ (before ++ '=' :: (after ++ q :: tail))⟩ = (do
      let (value, next) ←
        readValue pos name ⟨pos + byteLength (name ++ (before ++ '=' :: after)), q :: tail⟩
      pure ({ name := QName.ofChars name, value, index, offset := pos }, next)) := by
  have hat : nameAt (name ++ (before ++ '=' :: (after ++ q :: tail))) = name :=
    nameAt_append hname (halts_name_append hbefore (by simp [isNameChar]))
  have hquote : Halts isXmlBlank (q :: tail) := by
    obtain rfl | rfl := hq <;> simp [isXmlBlank]
  unfold readAttribute
  rw [hat]
  split
  · exact hname.elim
  · rw [Cursor.drop_append, Cursor.skipBlanks_append _ hbefore (by simp [isXmlBlank])]
    have hdrop := fun n => Cursor.drop_append n ['='] (after ++ q :: tail)
    simp only [List.cons_append, List.nil_append, List.length_singleton] at hdrop
    dsimp only
    rw [hdrop, Cursor.skipBlanks_append _ hafter hquote]
    simp [Nat.add_assoc]

theorem readAttribute_complete {w : WrittenAttribute} (h : w.Valid) (index pos : Nat)
    (rest : Chars) :
    readAttribute index ⟨pos + byteLength w.gap, w.body ++ rest⟩ =
      .ok (w.toAttribute index pos, ⟨pos + byteLength w.text, rest⟩) := by
  have hbody : w.body ++ rest =
      w.name ++ (w.before ++ '=' :: (w.after ++ w.quote :: (w.raw ++ w.quote :: rest))) := by
    simp [WrittenAttribute.body]
  rw [hbody, readAttribute_eq h.name h.before h.after h.quote,
    readValue_complete h.quote h.raw h.decode]
  simp [WrittenAttribute.toAttribute, WrittenAttribute.text, WrittenAttribute.body, bind,
    Except.bind, pure, Except.pure, Nat.add_assoc]

theorem halts_bracket (p : Char → Bool) (hp : p '/' = false ∧ p '>' = false) (selfClosing : Bool)
    (rest : Chars) : Halts p (WrittenTag.bracket selfClosing ++ rest) := by
  cases selfClosing <;> simp [WrittenTag.bracket, hp]

theorem readAttributes_nil {gap : Chars} (hgap : Blanks gap) (start : Nat) (name : Chars)
    (fuel : Nat) (seen : List Attribute) (firstLine : Nat) (broken selfClosing : Bool) (pos : Nat)
    (rest : Chars) :
    readAttributes start name (fuel + 1) seen firstLine broken
        ⟨pos, gap ++ (WrittenTag.bracket selfClosing ++ rest)⟩ =
      .ok ⟨seen, firstLine, selfClosing,
        ⟨pos + byteLength (gap ++ WrittenTag.bracket selfClosing), rest⟩⟩ := by
  have hh := halts_bracket isXmlBlank ⟨rfl, rfl⟩ selfClosing rest
  simp only [readAttributes, Cursor.skipBlanks_append _ hgap hh]
  cases selfClosing <;>
    simp [WrittenTag.bracket, Cursor.drop, Nat.add_assoc]

theorem readAttributes_eq {gap key : Chars} (hgap : Blanks gap) (hne : gap ≠ [])
    (hkey : IsName key) (start : Nat) (name : Chars) (fuel : Nat) (seen : List Attribute)
    (firstLine : Nat) (broken : Bool) (pos : Nat) (tail : Chars) :
    readAttributes start name (fuel + 1) seen firstLine broken
        ⟨pos, gap ++ (key ++ tail)⟩ = (do
      let (a, next) ← readAttribute seen.length ⟨pos + byteLength gap, key ++ tail⟩
      if seen.any fun b => b.name == a.name then
        throw ⟨a.offset, .duplicateAttribute a.name.written⟩
      readAttributes start name fuel (seen ++ [a])
        (if broken || gap.contains '\n' then firstLine else firstLine + 1)
        (broken || gap.contains '\n') next) := by
  have hhalts : Halts isXmlBlank (key ++ tail) := hkey.halts_blank tail
  obtain ⟨c, cs, rfl, hc⟩ := hkey.exists_cons
  simp only [readAttributes, Cursor.skipBlanks_append _ hgap hhalts,
    takeWhile_append_halts hgap hhalts]
  split
  · rename_i h
    exact absurd (List.cons.inj h).1 (ne_of_isNameStart hc (by decide))
  · rename_i h
    exact absurd (List.cons.inj h).1 (ne_of_isNameStart hc (by decide))
  · rename_i h
    cases h
  · rw [if_neg (by simpa using hne)]

theorem readAttributes_cons {w : WrittenAttribute} (hw : w.Valid) (start : Nat) (name : Chars)
    (fuel : Nat) {seen : List Attribute} (firstLine : Nat) (broken : Bool) (pos : Nat)
    (rest : Chars) (hnew : QName.ofChars w.name ∉ seen.map Attribute.name) :
    readAttributes start name (fuel + 1) seen firstLine broken ⟨pos, w.text ++ rest⟩ =
      readAttributes start name fuel (seen ++ [w.toAttribute seen.length pos])
        (if broken || w.gap.contains '\n' then firstLine else firstLine + 1)
        (broken || w.gap.contains '\n') ⟨pos + byteLength w.text, rest⟩ := by
  have hbody : w.body ++ rest =
      w.name ++ (w.before ++ '=' :: (w.after ++ w.quote :: (w.raw ++ w.quote :: rest))) := by
    simp [WrittenAttribute.body]
  have hdup : (seen.any fun b => b.name == (w.toAttribute seen.length pos).name) = false := by
    simp only [List.mem_map, not_exists, not_and] at hnew
    simpa [WrittenAttribute.toAttribute] using hnew
  rw [WrittenAttribute.text, List.append_assoc, hbody, readAttributes_eq hw.gap hw.gap_ne hw.name,
    ← hbody, readAttribute_complete hw]
  simp [bind, Except.bind, hdup, WrittenAttribute.text]

theorem readAttributes_complete {ws : List WrittenAttribute} {gap : Chars}
    (hws : ∀ w ∈ ws, w.Valid) (hgap : Blanks gap) (start : Nat) (name : Chars) {fuel : Nat}
    (hfuel : ws.length < fuel) {seen : List Attribute}
    (hnodup : (seen.map Attribute.name ++
      (ws.map WrittenAttribute.name).map QName.ofChars).Nodup)
    (firstLine : Nat) (broken selfClosing : Bool) (pos : Nat) (rest : Chars) :
    readAttributes start name fuel seen firstLine broken
        ⟨pos, ws.flatMap WrittenAttribute.text ++
          (gap ++ (WrittenTag.bracket selfClosing ++ rest))⟩ =
      .ok ⟨seen ++ WrittenAttribute.attributes seen.length pos ws,
        firstLine + (if broken then 0 else WrittenAttribute.firstLine ws), selfClosing,
        ⟨pos + byteLength (ws.flatMap WrittenAttribute.text ++
          (gap ++ WrittenTag.bracket selfClosing)), rest⟩⟩ := by
  induction ws generalizing fuel seen firstLine broken pos with
  | nil =>
    obtain ⟨fuel, rfl⟩ := Nat.exists_eq_add_one_of_ne_zero (Nat.ne_zero_of_lt hfuel)
    simp [readAttributes_nil hgap, WrittenAttribute.attributes]
  | cons w ws ih =>
    obtain ⟨fuel, rfl⟩ := Nat.exists_eq_add_one_of_ne_zero (Nat.ne_zero_of_lt hfuel)
    have hw := hws w (by simp)
    have hnew : QName.ofChars w.name ∉ seen.map Attribute.name := by
      intro hm
      exact (List.disjoint_of_nodup_append hnodup) hm (by simp)
    rw [List.flatMap_cons, List.append_assoc, readAttributes_cons hw start name fuel _ _ _ _ hnew,
      ih (fun w hw => hws w (by simp [hw])) (by simpa using hfuel)
        (by simpa [WrittenAttribute.toAttribute] using hnodup)]
    have hfirst : (if broken || w.gap.contains '\n' then firstLine else firstLine + 1) +
        (if broken || w.gap.contains '\n' then 0 else WrittenAttribute.firstLine ws) =
        firstLine + (if broken then 0 else WrittenAttribute.firstLine (w :: ws)) := by
      rw [WrittenAttribute.firstLine_cons]
      cases broken <;> cases w.gap.contains '\n' <;> (simp; try omega)
    rw [hfirst]
    simp [WrittenAttribute.attributes, Nat.add_assoc]

theorem length_le_flatMap (ws : List WrittenAttribute) :
    ws.length ≤ (ws.flatMap WrittenAttribute.text).length := by
  induction ws with
  | nil => simp
  | cons w ws ih =>
    simp only [List.flatMap_cons, List.length_append, List.length_cons, WrittenAttribute.text,
      WrittenAttribute.body]
    omega

/-- Attributes halt the name of their tag, as each of them follows a gap. -/
theorem halts_name_attributes {ws : List WrittenAttribute} {rest : Chars} (hws : ∀ w ∈ ws, w.Valid)
    (hrest : Halts isNameChar rest) :
    Halts isNameChar (ws.flatMap WrittenAttribute.text ++ rest) := by
  cases ws with
  | nil => exact hrest
  | cons w ws =>
    have hw := hws w (by simp)
    simp only [List.flatMap_cons, WrittenAttribute.text, List.append_assoc]
    exact hw.gap.halts_name hw.gap_ne _

/-- A start tag is read up to its name, and then its attributes. -/
theorem readStartTag_eq {name tail : Chars} {depth : Nat} (hdepth : depth ≤ maxDepth)
    (hname : IsName name) (htail : Halts isNameChar tail) (pos : Nat) :
    readStartTag depth ⟨pos, '<' :: (name ++ tail)⟩ = (do
      let rest ← readAttributes pos name tail.length [] 0 false
        ⟨pos + byteLength ('<' :: name), tail⟩
      pure ({ name := QName.ofChars name
              attributes := rest.attributes
              selfClosing := rest.selfClosing
              preserveSpace := preservesSpace rest.attributes
              firstLine := rest.firstLine
              span := ⟨pos, rest.next.pos⟩ }, rest.next)) := by
  have hdrop := Cursor.drop_append pos ['<'] (name ++ tail)
  simp only [List.cons_append, List.nil_append, List.length_singleton] at hdrop
  unfold readStartTag
  rw [if_neg (Nat.not_lt.mpr hdepth), hdrop]
  dsimp only
  rw [nameAt_append hname htail]
  split
  · exact hname.elim
  · rw [Cursor.drop_append]
    simp [Nat.add_assoc]

theorem readStartTag_complete {t : Tag} {text : Chars} {depth : Nat} (h : t.Spelled text)
    (hdepth : depth ≤ maxDepth) (pos : Nat) (rest : Chars) :
    readStartTag depth ⟨pos, text ++ rest⟩ =
      .ok (t.place pos (pos + byteLength text) none, ⟨pos + byteLength text, rest⟩) := by
  obtain ⟨w, hw, rfl, rfl⟩ := h
  have htext : w.text ++ rest = '<' :: (w.name ++ (w.attributes.flatMap WrittenAttribute.text ++
      (w.gap ++ (WrittenTag.bracket w.selfClosing ++ rest)))) := by
    simp [WrittenTag.text]
  have hhalts := halts_name_attributes hw.attributes
    (halts_name_append hw.gap (halts_bracket isNameChar (by decide) w.selfClosing rest))
  have hfuel : w.attributes.length < (w.attributes.flatMap WrittenAttribute.text ++
      (w.gap ++ (WrittenTag.bracket w.selfClosing ++ rest))).length := by
    have := length_le_flatMap w.attributes
    have : 0 < (WrittenTag.bracket w.selfClosing).length := by
      cases w.selfClosing <;> simp [WrittenTag.bracket]
    simp only [List.length_append]
    omega
  have hnodup : (([] : List Attribute).map Attribute.name ++
      (w.attributes.map WrittenAttribute.name).map QName.ofChars).Nodup := by
    refine List.Nodup.map (fun a b hab => ?_) hw.distinct
    simpa using congrArg QName.written hab
  rw [htext, readStartTag_eq hdepth hw.name hhalts,
    readAttributes_complete hw.attributes hw.gap _ _ hfuel hnodup]
  have hattrs : WrittenAttribute.attributes 0 (pos + byteLength ('<' :: w.name)) w.attributes =
      w.tag.attributes.map fun a => { a with offset := pos + a.offset } :=
    attributes_add 0 pos _ w.attributes
  have hspace : preservesSpace w.tag.attributes = w.tag.preserveSpace := rfl
  have hstop : pos + byteLength ('<' :: w.name) +
      byteLength (w.attributes.flatMap WrittenAttribute.text ++
        (w.gap ++ WrittenTag.bracket w.selfClosing)) = pos + byteLength w.text := by
    simp [WrittenTag.text, Nat.add_assoc]
  simp only [bind, Except.bind, pure, Except.pure, List.nil_append, List.length_nil, hattrs,
    preservesSpace_map_offset, hspace, hstop]
  simp [Tag.place, WrittenTag.tag]

theorem readEndTag_complete {name closing : Chars} (h : IsEndTag name closing) (hn : IsName name)
    (start pos : Nat) (rest : Chars) :
    readEndTag start name ⟨pos, closing ++ rest⟩ = .ok ⟨pos + byteLength closing, rest⟩ := by
  obtain ⟨gap, hgap, rfl⟩ := h
  have hfound : nameAt (name ++ (gap ++ '>' :: rest)) = name :=
    nameAt_append hn (halts_name_append hgap (by simp [isNameChar]))
  have hdrop := Cursor.drop_append pos ('<' :: '/' :: name) (gap ++ '>' :: rest)
  simp only [List.cons_append, List.length_cons] at hdrop
  rw [show name.length + 1 + 1 = 2 + name.length by omega] at hdrop
  have hrest : '<' :: '/' :: (name ++ (gap ++ ['>'])) ++ rest =
      '<' :: '/' :: (name ++ (gap ++ '>' :: rest)) := by simp
  rw [hrest]
  simp only [readEndTag, hfound, if_true, hdrop,
    Cursor.skipBlanks_append _ hgap (show Halts isXmlBlank ('>' :: rest) by simp [isXmlBlank])]
  simp [Cursor.drop, Nat.add_assoc]

theorem lead_text {c : Char} (h : c ≠ '<') (s : Chars) : lead (c :: s) = .text := by
  unfold lead
  split <;> simp_all

theorem lead_element {c : Char} (h : isNameStart c = true) (s : Chars) :
    lead ('<' :: c :: s) = .element := by
  have h1 := ne_of_isNameStart h (d := '/') (by decide)
  have h2 := ne_of_isNameStart h (d := '?') (by decide)
  have h3 := ne_of_isNameStart h (d := '!') (by decide)
  unfold lead
  split <;> simp_all

theorem lead_spelled {t : Tag} {text : Chars} (h : t.Spelled text) (rest : Chars) :
    lead (text ++ rest) = .element := by
  obtain ⟨w, hw, rfl, -⟩ := h
  obtain ⟨c, cs, hname, hc⟩ := hw.name.exists_cons
  rw [WrittenTag.text, hname]
  exact lead_element hc _

def RawKind.lead : RawKind → Lead
  | .comment => .comment
  | .cdata => .cdata
  | .instruction => .instruction
  | .doctype => .doctype

theorem lead_markup {kind : RawKind} {content : Chars} (h : kind.Closed content) (rest : Chars) :
    lead (kind.markup content ++ rest) = RawKind.lead kind := by
  cases kind with
  | comment => simp [RawKind.markup, commentOpen_eq, lead, RawKind.lead]
  | cdata => simp [RawKind.markup, cdataOpen_eq, commentOpen_eq, lead, RawKind.lead]
  | instruction =>
    obtain ⟨body, rfl, -⟩ := h
    simp [RawKind.markup, instructionOpen_eq, lead, RawKind.lead]
  | doctype =>
    obtain ⟨⟨body, rfl⟩, -⟩ := h
    simp [RawKind.markup, doctypeOpen_eq, cdataOpen_eq, commentOpen_eq, lead, RawKind.lead]

/-- What may stand behind the content of an element. -/
def Closes (rest : Chars) : Prop := rest = [] ∨ ['<', '/'] <+: rest

theorem closes_of_isEndTag {name closing : Chars} (h : IsEndTag name closing) (rest : Chars) :
    Closes (closing ++ rest) := by
  obtain ⟨gap, -, rfl⟩ := h
  exact .inr ⟨_, rfl⟩

theorem Closes.halts {rest : Chars} (h : Closes rest) : Halts (· != '<') rest := by
  obtain rfl | ⟨t, rfl⟩ := h <;> simp

theorem halts_append_open {a : Chars} (h : a.head? = some '<') (b : Chars) :
    Halts (· != '<') (a ++ b) := by
  obtain ⟨cs, rfl⟩ := List.head?_eq_some_iff.mp h
  simp

theorem halts_spelledList {depth : Nat} {parts : List Part} {rest : Chars}
    (hv : ValidList depth parts) (ht : Part.headText parts = false) (hr : Closes rest) :
    Halts (· != '<') (spelledList parts ++ rest) := by
  cases parts with
  | nil => exact hr.halts
  | cons p ps =>
    cases p with
    | text spelling value => simp [Part.headText, Part.isText] at ht
    | raw kind content =>
      simp only [spelledList, Part.spelled, List.append_assoc]
      exact halts_append_open hv.1.2.head _
    | element opening tag children closing =>
      simp only [spelledList, Part.spelled, List.append_assoc]
      exact halts_append_open hv.1.2.1.head _

theorem readElement_complete {content : Cursor → Except Defect (List Node × Cursor)} {depth : Nat}
    {opening closing : Chars} {tag : Tag} {children : List Part}
    (hv : (Part.element opening tag children closing).Valid depth)
    (hcontent : ∀ pos rest, Closes rest → content ⟨pos, spelledList children ++ rest⟩ =
      .ok (placeList pos children, ⟨pos + byteLength (spelledList children), rest⟩))
    (pos : Nat) (rest : Chars) :
    readElement content depth ⟨pos, opening ++ (spelledList children ++ closing) ++ rest⟩ =
      .ok ((Part.element opening tag children closing).place pos,
        behind pos (.element opening tag children closing) rest) := by
  obtain ⟨hdepth, hspelled, hself, hend, -⟩ := hv
  simp only [readElement, List.append_assoc, readStartTag_complete hspelled hdepth]
  cases hsc : tag.selfClosing with
  | true =>
    obtain ⟨rfl, rfl⟩ := hself hsc
    simp [bind, Except.bind, pure, Except.pure, place_selfClosing, hsc, spelledList, Part.place,
      placeList, behind, Part.spelled]
  | false =>
    have hclosing := hend hsc
    have hname : (tag.place pos (pos + byteLength opening) none).name = tag.name := rfl
    simp only [bind, Except.bind, pure, Except.pure, place_selfClosing, hsc, Bool.false_eq_true,
      if_false, hcontent _ _ (closes_of_isEndTag hclosing rest), hname,
      readEndTag_complete hclosing hspelled.name]
    simp [Part.place, Tag.place, behind, Part.spelled, hsc, Nat.add_assoc]

theorem readNode_none {content : Cursor → Except Defect (List Node × Cursor)} {depth : Nat}
    {rest : Chars} (h : Closes rest) (pos : Nat) : readNode content depth ⟨pos, rest⟩ = .ok none := by
  obtain rfl | ⟨t, rfl⟩ := h <;> rfl

theorem readNode_complete {content : Cursor → Except Defect (List Node × Cursor)} {depth : Nat}
    {p : Part} (hv : p.Valid depth)
    (hcontent : ∀ opening tag children closing, p = .element opening tag children closing →
      ∀ pos rest, Closes rest → content ⟨pos, spelledList children ++ rest⟩ =
        .ok (placeList pos children, ⟨pos + byteLength (spelledList children), rest⟩))
    (pos : Nat) (rest : Chars) (hr : p.isText = true → Halts (· != '<') rest) :
    readNode content depth ⟨pos, p.spelled ++ rest⟩ = .ok (some (p.place pos, behind pos p rest)) := by
  cases p with
  | text spelling value =>
    obtain ⟨hne, hm, hd⟩ := hv
    have hlead : lead (spelling ++ rest) = .text := by
      obtain ⟨c, cs, rfl⟩ := List.exists_cons_of_ne_nil hne
      exact lead_text (fun hc => hm (by simp [hc])) _
    simp only [readNode, Part.spelled, hlead, readText_complete hm hd (hr rfl)]
    rfl
  | raw kind content =>
    obtain ⟨hk, hc⟩ := hv
    have hlead := lead_markup hc rest
    cases kind with
    | comment =>
      simp only [readNode, Part.spelled, hlead, RawKind.lead, readComment_complete hc]
      rfl
    | cdata =>
      simp only [readNode, Part.spelled, hlead, RawKind.lead, readCData_complete hc]
      rfl
    | instruction =>
      simp only [readNode, Part.spelled, hlead, RawKind.lead, readInstruction_complete hc]
      rfl
    | doctype => exact absurd rfl hk
  | element opening tag children closing =>
    have hlead : lead (opening ++ (spelledList children ++ closing) ++ rest) = .element := by
      rw [List.append_assoc]
      exact lead_spelled hv.2.1 _
    simp only [readNode, Part.spelled, hlead, readElement_complete hv (hcontent _ _ _ _ rfl)]
    rfl

/-- The text of valid siblings is read as these siblings. -/
theorem readContent_complete {fuel depth : Nat} {parts : List Part} {rest : Chars}
    (hv : ValidList depth parts) (hr : Closes rest) (hfuel : (spelledList parts).length ≤ fuel)
    (pos : Nat) :
    readContent fuel depth ⟨pos, spelledList parts ++ rest⟩ =
      .ok (placeList pos parts, ⟨pos + byteLength (spelledList parts), rest⟩) := by
  induction fuel generalizing depth parts rest pos with
  | zero =>
    cases parts with
    | nil => simp [readContent, spelledList, placeList]
    | cons p ps =>
      have := List.length_pos_iff.mpr hv.1.spelled_ne
      simp only [spelledList, List.length_append] at hfuel
      omega
  | succ fuel ih =>
    cases parts with
    | nil =>
      simp only [readContent, spelledList, List.nil_append, readNode_none hr]
      rfl
    | cons p ps =>
      obtain ⟨hp, hnext, hps⟩ := hv
      have hne := List.length_pos_iff.mpr hp.spelled_ne
      simp only [spelledList, List.length_append] at hfuel
      have hchildren : ∀ opening tag children closing, p = .element opening tag children closing →
          ∀ pos rest, Closes rest → readContent fuel (depth + 1) ⟨pos, spelledList children ++ rest⟩ =
            .ok (placeList pos children, ⟨pos + byteLength (spelledList children), rest⟩) := by
        rintro opening tag children closing rfl pos rest hr
        have hopen : 0 < opening.length := by
          obtain ⟨cs, rfl⟩ := List.head?_eq_some_iff.mp hp.2.1.head
          simp
        refine ih hp.2.2.2.2 hr ?_ pos
        simp only [Part.spelled, List.length_append] at hfuel
        omega
      rw [spelledList, List.append_assoc, readContent, readNode_complete hp hchildren pos _
        fun ht => halts_spelledList hps (hnext ht) hr]
      simp only [bind, Except.bind, behind]
      rw [ih hps hr (by omega)]
      simp [placeList, pure, Except.pure, Nat.add_assoc]

theorem halts_spelledList_top {rooted : Bool} {parts : List Part} (hv : ValidTop rooted parts)
    (ht : Part.headText parts = false) : Halts (· != '<') (spelledList parts) := by
  cases parts with
  | nil => simp [spelledList]
  | cons p ps =>
    cases p with
    | text spelling value => simp [Part.headText, Part.isText] at ht
    | raw kind content => exact halts_append_open hv.2.2.1.head _
    | element opening tag children closing =>
      simp only [spelledList, Part.spelled, List.append_assoc]
      exact halts_append_open hv.2.1.2.1.head _

theorem lead_blanks {spelling : Chars} (hne : spelling ≠ []) (hb : Blanks spelling) (rest : Chars) :
    lead (spelling ++ rest) = .text := by
  obtain ⟨c, cs, rfl⟩ := List.exists_cons_of_ne_nil hne
  exact lead_text (fun hc => by simpa [hc, isXmlBlank] using hb c (by simp)) _

theorem readTopNode_margin {spelling rest : Chars} (hne : spelling ≠ []) (hb : Blanks spelling)
    (hr : Halts (· != '<') rest) (content : Cursor → Except Defect (List Node × Cursor))
    (rooted : Bool) (pos : Nat) :
    readTopNode content rooted ⟨pos, spelling ++ rest⟩ =
      .ok (some ((Part.text spelling spelling).place pos,
        behind pos (.text spelling spelling) rest)) := by
  simp only [readTopNode, lead_blanks hne hb, readMargin_complete hb hr]
  rfl

theorem readTopNode_raw {kind : RawKind} {raw : Chars} {rooted : Bool} (hk : kind ≠ .cdata)
    (hd : kind = .doctype → rooted = false) (hc : kind.Closed raw)
    (content : Cursor → Except Defect (List Node × Cursor)) (pos : Nat) (rest : Chars) :
    readTopNode content rooted ⟨pos, kind.markup raw ++ rest⟩ =
      .ok (some ((Part.raw kind raw).place pos, behind pos (.raw kind raw) rest)) := by
  have hlead := lead_markup hc rest
  cases kind with
  | comment =>
    simp only [readTopNode, hlead, RawKind.lead, readComment_complete hc]
    rfl
  | cdata => exact absurd rfl hk
  | instruction =>
    simp only [readTopNode, hlead, RawKind.lead, readInstruction_complete hc]
    rfl
  | doctype =>
    simp only [readTopNode, hlead, RawKind.lead, readDoctype_complete hc, hd rfl]
    rfl

/-- The text of the parts of a document is read as these parts. -/
theorem readTopLevel_complete {fuel : Nat} {rooted : Bool} {parts : List Part}
    (hv : ValidTop rooted parts) (hfuel : (spelledList parts).length ≤ fuel) (pos : Nat) :
    readTopLevel fuel rooted ⟨pos, spelledList parts⟩ = .ok (placeList pos parts) := by
  induction fuel generalizing rooted parts pos with
  | zero =>
    obtain ⟨rfl, rfl⟩ | ⟨c, cs, hcs, -⟩ := hv.head
    · rfl
    · simp [hcs] at hfuel
  | succ fuel ih =>
    cases parts with
    | nil =>
      cases hv
      rfl
    | cons p ps =>
      simp only [spelledList, List.length_append] at hfuel ⊢
      -- one node, and the rest by induction
      have step {rooted' : Bool} (hne : p.spelled ≠ []) (hps : ValidTop rooted' ps)
          (he : (rooted || (p.place pos).isElement) = rooted')
          (hnode : readTopNode (readContent fuel 2) rooted ⟨pos, p.spelled ++ spelledList ps⟩ =
            .ok (some (p.place pos, behind pos p (spelledList ps)))) :
          readTopLevel (fuel + 1) rooted ⟨pos, p.spelled ++ spelledList ps⟩ =
            .ok (placeList pos (p :: ps)) := by
        have := List.length_pos_iff.mpr hne
        rw [readTopLevel, hnode]
        simp only [bind, Except.bind, behind, he]
        rw [ih hps (by omega)]
        rfl
      cases p with
      | text spelling value =>
        obtain ⟨hne, hb, rfl, ht, hps⟩ := hv
        exact step hne hps (by simp [Part.place, Node.isElement])
          (readTopNode_margin hne hb (halts_spelledList_top hps ht) _ _ _)
      | raw kind content =>
        obtain ⟨hk, hd, hc, hps⟩ := hv
        exact step (fun he => by simpa [show kind.markup content = [] from he] using hc.head) hps
          (by simp [Part.place, Node.isElement]) (readTopNode_raw hk hd hc _ _ _)
      | element opening tag children closing =>
        obtain ⟨rfl, hp, hps⟩ := hv
        have hlead : lead (opening ++ (spelledList children ++ closing) ++ spelledList ps) =
            .element := by
          rw [List.append_assoc]
          exact lead_spelled hp.2.1 _
        refine step hp.spelled_ne hps (by simp [Part.place, Node.isElement]) ?_
        have hopen : 0 < opening.length := by
          obtain ⟨cs, rfl⟩ := List.head?_eq_some_iff.mp hp.2.1.head
          simp
        simp only [Part.spelled, List.length_append] at hfuel
        have hchildren : ∀ pos rest, Closes rest →
            readContent fuel 2 ⟨pos, spelledList children ++ rest⟩ =
              .ok (placeList pos children, ⟨pos + byteLength (spelledList children), rest⟩) :=
          fun pos rest hr => readContent_complete hp.2.2.2.2 hr (by omega) pos
        simp only [readTopNode, Part.spelled, hlead, readElement_complete hp hchildren]
        rfl

end Markup

namespace Document

theorem start_markText {s : Chars} (h : s.head? ≠ some mark) (byteOrderMark : Bool) :
    start (markText byteOrderMark ++ s) = ⟨Text.byteLength (markText byteOrderMark), s⟩ := by
  cases byteOrderMark with
  | true => simp [start, markText, Cursor.drop]
  | false =>
    cases s with
    | nil => rfl
    | cons c cs => simp_all [start, markText]

/-- The text of valid parts is read as the document of these parts. -/
theorem read_complete {parts : List Part} (h : ValidTop false parts) (byteOrderMark : Bool) :
    read (markText byteOrderMark ++ spelledList parts) = .ok (ofParts byteOrderMark parts) := by
  obtain ⟨hr, -⟩ | ⟨c, cs, hcs, hc⟩ := h.head
  · simp at hr
  have hmark : c ≠ mark := by
    rintro rfl
    obtain hc | hc := hc <;> exact absurd hc (by decide)
  have hstart := start_markText (s := spelledList parts) (by simp [hcs, hmark]) byteOrderMark
  have hhead : ((markText byteOrderMark ++ spelledList parts).head? == some mark) =
      byteOrderMark := by
    cases byteOrderMark <;> simp [markText, hcs, hmark]
  have hlast : (markText byteOrderMark ++ spelledList parts).getLast? =
      (spelledList parts).getLast? := by
    rw [List.getLast?_append, hcs]
    simp [List.getLast?_cons]
  simp only [read, hstart, Markup.readTopLevel_complete h le_rfl, hhead, hlast]
  rfl

end Document
end XamlFormat
