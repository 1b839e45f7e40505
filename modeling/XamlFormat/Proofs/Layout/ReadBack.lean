import XamlFormat.Proofs.Layout.StartTag
import XamlFormat.Proofs.Markup.Complete
import XamlFormat.Layout.Printer

/-! Start tags without extensions are read again under every list of unescaped characters. A value
comes back as it was unless it holds a tab or a line end that is on the list: between quotes these
count as spaces, so they have to be written as references. -/
namespace XamlFormat

open Markup Reference Text

/-- The characters that the reader takes for spaces where they stand in a value. -/
def flattenedChars : Chars := ['\t', '\n', '\r']

/-- The value holds no character that is written as it is and read as a space. -/
def Survives (unescaped v : Chars) : Prop := ∀ c ∈ v, c ∈ flattenedChars → c ∉ unescaped

section Values

variable {unescaped : Chars}

theorem escapeAttribute_survives {v : Chars} (h : Survives unescaped v) :
    escapeAttribute unescaped v =
      escapeAttribute (unescaped.filter fun c => !flattenedChars.contains c) v := by
  refine List.flatMap_congr fun c hc => ?_
  have hlist : (unescaped.filter fun c => !flattenedChars.contains c).contains c =
      unescaped.contains c := by
    have := h c hc
    by_cases hf : c ∈ flattenedChars <;> simp_all
  unfold escapeAttributeChar
  rw [hlist]

theorem escapesLineEnds_filter (unescaped : Chars) :
    EscapesLineEnds (unescaped.filter fun c => !flattenedChars.contains c) := by
  simp [EscapesLineEnds, flattenedChars]

theorem escapeAttributeChar_flattened {c : Char} (hc : c ∈ flattenedChars) (hu : c ∈ unescaped) :
    escapeAttributeChar unescaped c = [c] := by
  simp only [flattenedChars, List.mem_cons, List.not_mem_nil, or_false] at hc
  obtain rfl | rfl | rfl := hc <;> exact if_pos (by simpa using hu)

/-- Every character but an unescaped carriage return is read on its own, and none as one that is
unescaped and flattened. -/
theorem decode_written_char {c : Char} (h : c = '\r' → c ∉ unescaped) :
    '\r' ∉ escapeAttributeChar unescaped c ∧
      ∃ x, decode (flattenValue (escapeAttributeChar unescaped c)) = .ok [x] ∧
        ∀ d ∈ flattenedChars, d ∈ unescaped → d ≠ x := by
  by_cases hu : c ∈ flattenedChars ∧ c ∈ unescaped
  · obtain ⟨hf, hu⟩ := hu
    rw [escapeAttributeChar_flattened hf hu]
    refine ⟨by simpa using fun hr => h hr.symm hu, ' ', ?_, by simp [flattenedChars]⟩
    have hflat : flattenValue [c] = [' '] := by
      simp only [flattenedChars, List.mem_cons, List.not_mem_nil, or_false] at hf
      simp [flattenValue, hf]
    rw [hflat]
    exact decode_plain (by simp)
  · have hc : Survives unescaped [c] := by simpa [Survives] using hu
    have heq := escapeAttribute_survives hc
    simp only [escapeAttribute, List.flatMap_singleton] at heq
    have hescapes := escapesLineEnds_filter unescaped
    rw [heq]
    have hdecode := decode_escapeAttribute hescapes [c]
    simp only [escapeAttribute, List.flatMap_singleton] at hdecode
    refine ⟨?_, c, hdecode, ?_⟩
    · have := (StartTag.oneLine_escapeAttribute hescapes [c]).2
      simpa [escapeAttribute] using this
    · rintro d hd hu' rfl
      exact hu ⟨hd, hu'⟩

/-- A written value is always read, and without the characters that are unescaped and flattened. -/
theorem decode_unified (unescaped v : Chars) :
    ∃ w, decode (flattenValue (unifyLineEnds (escapeAttribute unescaped v))) = .ok w ∧
      ∀ d ∈ flattenedChars, d ∈ unescaped → d ∉ w := by
  induction v with
  | nil => exact ⟨[], decode_nil, by simp⟩
  | cons c cs ih =>
    obtain ⟨w, hw, hnot⟩ := ih
    have hcons : escapeAttribute unescaped (c :: cs) =
        escapeAttributeChar unescaped c ++ escapeAttribute unescaped cs := by
      simp [escapeAttribute]
    rw [hcons]
    by_cases hr : c = '\r' ∧ c ∈ unescaped
    · obtain ⟨rfl, hu⟩ := hr
      rw [escapeAttributeChar_flattened (by decide) hu, List.singleton_append]
      by_cases hhead : (escapeAttribute unescaped cs).head? = some '\n'
      · -- the line feed behind it is part of the same line end
        obtain ⟨rest, hrest⟩ := List.head?_eq_some_iff.mp hhead
        refine ⟨w, ?_, hnot⟩
        rw [hrest, unifyLineEnds_cons (by decide)] at hw
        rw [hrest]
        exact hw
      · refine ⟨' ' :: w, ?_, fun d hd hu' => ?_⟩
        · rw [unifyLineEnds_return hhead]
          exact (decode_cons (by decide)).mpr ⟨w, hw, rfl⟩
        · have hd' : d ≠ ' ' := by
            rintro rfl
            exact absurd hd (by decide)
          simp [hd', hnot d hd hu']
    · obtain ⟨hone, x, hx, hne⟩ := decode_written_char fun hc hu => hr ⟨hc, hu⟩
      refine ⟨x :: w, ?_, fun d hd hu => ?_⟩
      · rw [unifyLineEnds_append (.inl fun hl => hone (List.mem_of_getLast? hl)),
          unifyLineEnds_of_notMem hone, StartTag.flattenValue_append]
        exact decode_append hx hw
      · simp [hne d hd hu, hnot d hd hu]

/-- A written value is read as it was exactly when it survives. -/
theorem decode_unified_iff {v : Chars} :
    decode (flattenValue (unifyLineEnds (escapeAttribute unescaped v))) = .ok v ↔
      Survives unescaped v := by
  constructor
  · intro h c hc hf hu
    obtain ⟨w, hw, hnot⟩ := decode_unified unescaped v
    rw [h] at hw
    cases hw
    exact hnot c hf hu hc
  · intro h
    have hescapes := escapesLineEnds_filter unescaped
    rw [escapeAttribute_survives h,
      unifyLineEnds_of_notMem (StartTag.oneLine_escapeAttribute hescapes v).2]
    exact decode_escapeAttribute hescapes v

end Values

def WrittenAttribute.unified (w : WrittenAttribute) : WrittenAttribute :=
  { w with gap := unifyLineEnds w.gap, raw := unifyLineEnds w.raw }

def WrittenTag.unified (w : WrittenTag) : WrittenTag :=
  { w with attributes := w.attributes.map WrittenAttribute.unified, gap := unifyLineEnds w.gap }

namespace StartTag

variable {ctx : TagContext} {tag : Tag}

/-- The written form of an attribute without an extension. -/
structure Plain (ctx : TagContext) (a : Attribute) (w : WrittenAttribute) : Prop where
  name : IsName a.name.written
  value : a.text = a.value
  form : ∃ gap, Gap ctx gap ∧ w = writePlain ctx.unescaped gap a

theorem plain_written (ht : tag.Legible) (he : ∀ a ∈ tag.attributes, a.extension = none)
    (ending : TagEnd) :
    List.Forall₂ (Plain ctx) tag.attributes (written ctx tag ending).attributes := by
  have hall := (List.forall₂_and_left _ _).mpr
    ⟨fun a ha => And.intro (ht.attributes a ha).1 (he a ha), form_written ctx tag ending⟩
  refine hall.imp fun a w ⟨⟨hname, hnone⟩, hform⟩ => ⟨hname, by simp [Attribute.text, hnone], ?_⟩
  cases hform with
  | plain hg => exact ⟨_, hg, rfl⟩
  | alone hg column => exact ⟨_, hg, by simp [writeAlone, hnone]⟩

theorem Gap.unified (hn : ctx.newLine = ['\n'] ∨ ctx.newLine = ['\r', '\n']) {gap : Chars}
    (h : Gap ctx gap) : unifyLineEnds gap ≠ [] ∧ Blanks (unifyLineEnds gap) := by
  have hblank : gap ≠ [] ∧ Blanks gap := by
    cases h with
    | space => simp [Blanks, isXmlBlank]
    | line column =>
      have hindent := (spacing_continuation ctx.indent ctx.depth column).blanks
      obtain hn | hn := hn <;> simp_all [lineGap, Blanks, isXmlBlank]
  refine ⟨unifyLineEnds_ne_nil hblank.1, fun c hc => ?_⟩
  obtain hc | rfl := mem_unifyLineEnds hc
  · exact hblank.2 c hc
  · rfl

theorem Plain.unify {a : Attribute} {w : WrittenAttribute} (h : Plain ctx a w) (rest : Chars) :
    unifyLineEnds (w.text ++ rest) = w.unified.text ++ unifyLineEnds rest := by
  obtain ⟨gap, -, rfl⟩ := h.form
  have hone := oneLine_of_isName h.name
  have hgap : (a.name.written ++ '=' :: '"' ::
      (escapeAttribute ctx.unescaped a.text ++ '"' :: rest)).head? ≠ some '\n' := by
    have hname := h.name
    cases hcs : a.name.written with
    | nil => simp [hcs, IsName] at hname
    | cons c cs =>
      rintro ⟨⟩
      exact hone.1 (by simp [hcs])
  simp only [writePlain, write, WrittenAttribute.text, WrittenAttribute.body,
    WrittenAttribute.unified, List.nil_append, List.append_assoc, List.cons_append]
  rw [unifyLineEnds_append (.inr hgap), unifyLineEnds_oneLine_append hone,
    unifyLineEnds_cons (by decide), unifyLineEnds_cons (by decide),
    unifyLineEnds_append (.inr (by simp)), unifyLineEnds_cons (by decide)]

theorem unify_attributes {attributes : List Attribute} {ws : List WrittenAttribute}
    (h : List.Forall₂ (Plain ctx) attributes ws) (rest : Chars) :
    unifyLineEnds (ws.flatMap WrittenAttribute.text ++ rest) =
      (ws.map WrittenAttribute.unified).flatMap WrittenAttribute.text ++ unifyLineEnds rest := by
  induction h with
  | nil => rfl
  | cons ha _ ih =>
    simp only [List.flatMap_cons, List.map_cons, List.append_assoc]
    rw [ha.unify, ih]

theorem unify_written (ht : tag.Legible) (he : ∀ a ∈ tag.attributes, a.extension = none)
    (ending : TagEnd) (rest : Chars) :
    unifyLineEnds (print ctx tag ending ++ rest) =
      (written ctx tag ending).unified.text ++ unifyLineEnds rest := by
  have hbracket : (WrittenTag.bracket (ending == .selfClosing) ++ rest).head? ≠ some '\n' ∧
      OneLine (WrittenTag.bracket (ending == .selfClosing)) := by
    cases ending <;> exact ⟨by simp [WrittenTag.bracket], by decide, by decide⟩
  have hplain : List.Forall₂ (Plain ctx) tag.attributes (writeAttributes ctx tag) :=
    plain_written ht he ending
  rw [← text_written]
  simp only [written, WrittenTag.text, WrittenTag.unified, List.cons_append, List.append_assoc]
  rw [unifyLineEnds_cons (by decide), unifyLineEnds_oneLine_append (oneLine_of_isName ht.name.1),
    unify_attributes hplain, unifyLineEnds_append (.inr hbracket.1),
    unifyLineEnds_oneLine_append hbracket.2]

namespace Plain

variable {a : Attribute} {w : WrittenAttribute}

theorem valid_unified (hn : ctx.newLine = ['\n'] ∨ ctx.newLine = ['\r', '\n'])
    (h : Plain ctx a w) : w.unified.Valid := by
  obtain ⟨gap, hg, rfl⟩ := h.form
  obtain ⟨v, hv, -⟩ := decode_unified ctx.unescaped a.text
  refine ⟨(hg.unified hn).1, (hg.unified hn).2, h.name, blanks_nil, blanks_nil, .inl rfl,
    fun hm => ?_, v, hv⟩
  obtain hm | hm := mem_unifyLineEnds hm
  · exact notMem_escapeAttribute _ _ hm
  · exact absurd hm (show '"' ≠ '\n' by decide)

theorem value_eq_iff (h : Plain ctx a w) : w.unified.value = a.value ↔ Survives ctx.unescaped a.value := by
  obtain ⟨gap, -, rfl⟩ := h.form
  obtain ⟨v, hv, -⟩ := decode_unified ctx.unescaped a.value
  rw [← decode_unified_iff, hv, Except.ok.injEq, ← h.value]
  simp only [WrittenAttribute.value, WrittenAttribute.unified, writePlain, write]
  rw [h.value, hv]

end Plain

section Whole

variable {attributes : List Attribute} {ws : List WrittenAttribute}

theorem names_unified (h : List.Forall₂ (Plain ctx) attributes ws) :
    (ws.map WrittenAttribute.unified).map WrittenAttribute.name =
      attributes.map fun a => a.name.written := by
  rw [List.map_map]
  refine map_of_forall₂ (fun a w ha => ?_) h
  obtain ⟨gap, -, rfl⟩ := ha.form
  rfl

theorem valid_unified (hn : ctx.newLine = ['\n'] ∨ ctx.newLine = ['\r', '\n'])
    (ht : tag.Legible) (he : ∀ a ∈ tag.attributes, a.extension = none) (ending : TagEnd) :
    (written ctx tag ending).unified.Valid := by
  have hplain : List.Forall₂ (Plain ctx) tag.attributes (written ctx tag ending).attributes :=
    plain_written ht he ending
  have hline : Blanks ctx.newLine := by
    obtain hn | hn := hn <;> simp [hn, Blanks, isXmlBlank]
  refine ⟨ht.name.1, ?_, ?_, fun c hc => ?_⟩
  · intro w hw
    obtain ⟨w, hmem, rfl⟩ := List.mem_map.mp hw
    obtain ⟨a, -, ha⟩ := exists_of_forall₂ hplain w hmem
    exact ha.valid_unified hn
  · exact (names_unified hplain).symm ▸ ht.distinct
  · obtain hc | rfl := mem_unifyLineEnds hc
    · exact blanks_endGap hline tag ending c hc
    · rfl

/-- Names are always read as they were; values are exactly when they survive. -/
theorem attributes_unified_iff (h : List.Forall₂ (Plain ctx) attributes ws)
    (hl : ∀ a ∈ attributes, a.name.Legible) (index pos : Nat) :
    (WrittenAttribute.attributes index pos (ws.map WrittenAttribute.unified)).map
        (fun a => (a.name, a.value)) = attributes.map (fun a => (a.name, a.value)) ↔
      ∀ a ∈ attributes, Survives ctx.unescaped a.value := by
  induction h generalizing index pos with
  | nil => simp [WrittenAttribute.attributes]
  | @cons a w as ws ha _ ih =>
    obtain ⟨hname, hl⟩ := List.forall_mem_cons.mp hl
    have hw : QName.ofChars w.unified.name = a.name := by
      obtain ⟨gap, -, rfl⟩ := ha.form
      exact hname.2
    simp only [List.map_cons, WrittenAttribute.attributes, WrittenAttribute.toAttribute,
      List.cons.injEq, Prod.mk.injEq, hw, true_and, ha.value_eq_iff, ih hl, List.forall_mem_cons]

end Whole

def closingTag (tag : Tag) : TagEnd → Chars
  | .opening => Printer.endTag tag
  | .selfClosing => []

theorem oneLine_closingTag (ht : tag.Legible) (ending : TagEnd) :
    OneLine (closingTag tag ending) := by
  have hname := oneLine_of_isName ht.name.1
  cases ending with
  | opening => exact ⟨by simpa [closingTag, Printer.endTag] using hname.1,
      by simpa [closingTag, Printer.endTag] using hname.2⟩
  | selfClosing => exact ⟨by simp [closingTag], by simp [closingTag]⟩

theorem read_closed (hn : ctx.newLine = ['\n'] ∨ ctx.newLine = ['\r', '\n'])
    (ht : tag.Legible) (he : ∀ a ∈ tag.attributes, a.extension = none) (ending : TagEnd) :
    ∃ d t, Document.read (unifyLineEnds (print ctx tag ending ++ closingTag tag ending)) = .ok d ∧
      d.nodes = [.element t []] ∧ t.name = tag.name ∧
      t.attributes.map (fun a => (a.name, a.value)) =
        (written ctx tag ending).unified.tag.attributes.map (fun a => (a.name, a.value)) := by
  let w := (written ctx tag ending).unified
  let part : Part := .element w.text w.tag [] (closingTag tag ending)
  have hname : w.tag.name = tag.name := ht.name.2
  have hvalid : ValidTop false [part] := by
    refine ⟨rfl, ⟨by decide, ⟨w, valid_unified hn ht he ending, rfl, rfl⟩, fun hs => ?_, fun hs => ?_,
      trivial⟩, rfl⟩
    · cases ending with
      | opening => simp [w, WrittenTag.tag, WrittenTag.unified, written] at hs
      | selfClosing => exact ⟨rfl, rfl⟩
    · cases ending with
      | opening => exact ⟨[], blanks_nil, by simp [hname, closingTag, Printer.endTag]⟩
      | selfClosing => simp [w, WrittenTag.tag, WrittenTag.unified, written] at hs
  have htext : unifyLineEnds (print ctx tag ending ++ closingTag tag ending) =
      Document.markText false ++ spelledList [part] := by
    rw [unify_written ht he, unifyLineEnds_of_notMem (oneLine_closingTag ht ending).2]
    simp [Document.markText, spelledList, Part.spelled, part, w]
  have hread := Document.read_complete hvalid false
  rw [← htext] at hread
  have hnodes : (Document.ofParts false [part]).nodes = [.element (w.tag.place _ _ _) []] := rfl
  refine ⟨_, _, hread, hnodes, hname, ?_⟩
  simp only [Tag.place, List.map_map]
  rfl

/-- A printed element without content is read with the attributes of its tag exactly when all their
values survive. -/
theorem read_closed_iff (hn : ctx.newLine = ['\n'] ∨ ctx.newLine = ['\r', '\n'])
    (ht : tag.Legible) (he : ∀ a ∈ tag.attributes, a.extension = none) (ending : TagEnd) :
    (∃ d t, Document.read (unifyLineEnds (print ctx tag ending ++ closingTag tag ending)) = .ok d ∧
      d.nodes = [.element t []] ∧ t.name = tag.name ∧
      t.attributes.map (fun a => (a.name, a.value)) =
        tag.attributes.map (fun a => (a.name, a.value))) ↔
    ∀ a ∈ tag.attributes, Survives ctx.unescaped a.value := by
  have hplain : List.Forall₂ (Plain ctx) tag.attributes (written ctx tag ending).attributes :=
    plain_written ht he ending
  rw [← attributes_unified_iff hplain ht.attributes 0 (1 + byteLength tag.name.written)]
  obtain ⟨d, t, hread, hnodes, hname, hattributes⟩ := read_closed hn ht he ending
  constructor
  · rintro ⟨d', t', hread', hnodes', -, hattributes'⟩
    have hsame : d = d' := Except.ok.inj (hread.symm.trans hread')
    have htag : t = t' := by
      rw [← hsame, hnodes] at hnodes'
      simpa using hnodes'
    rw [htag] at hattributes
    exact hattributes.symm.trans hattributes'
  · intro h
    exact ⟨d, t, hread, hnodes, hname, hattributes.trans h⟩

/-- A start tag without extensions, printed with any settings in any layout, is read again with its
name and its attributes exactly when no value holds a tab or a line end that the settings leave
unescaped. -/
theorem reads_back_iff (s : Settings) (dialect : Dialect) (newLine : NewLineStyle) (depth : Nat)
    (isRoot inline : Bool) (ending : TagEnd) {tag : Tag} (ht : tag.Legible)
    (he : ∀ a ∈ tag.attributes, a.extension = none) :
    (∃ d t, Document.read (unifyLineEnds
        (print ⟨s, dialect.unescaped s, newLine.chars, depth, isRoot, inline⟩ tag ending ++
          closingTag tag ending)) = .ok d ∧
      d.nodes = [.element t []] ∧ t.name = tag.name ∧
      t.attributes.map (fun a => (a.name, a.value)) =
        tag.attributes.map (fun a => (a.name, a.value))) ↔
    ∀ a ∈ tag.attributes, ∀ c ∈ a.value, c = '\t' ∨ c = '\n' ∨ c = '\r' →
      c ∉ s.unescapedCharacters := by
  have hunescaped (c : Char) (hc : c ∈ flattenedChars) :
      c ∈ dialect.unescaped s ↔ c ∈ s.unescapedCharacters := by
    simp only [flattenedChars, List.mem_cons, List.not_mem_nil, or_false] at hc
    have hallowed : c ∈ s.unescapedCharacters.filter (fun c => !Settings.isReserved c) ↔
        c ∈ s.unescapedCharacters := by
      obtain rfl | rfl | rfl := hc <;> simp [Settings.isReserved]
    have hbracket : c ≠ '>' := by
      obtain rfl | rfl | rfl := hc <;> decide
    rw [← hallowed]
    unfold Dialect.unescaped
    cases dialect with
    | xaml => exact Iff.rfl
    | avalonia =>
      dsimp only
      split_ifs
      · exact Iff.rfl
      · simp [hbracket]
  rw [read_closed_iff newLine.chars_eq ht he]
  refine forall₂_congr fun a _ => forall₂_congr fun c _ => ?_
  have hmem : c ∈ flattenedChars ↔ c = '\t' ∨ c = '\n' ∨ c = '\r' := by simp [flattenedChars]
  rw [← hmem]
  exact imp_congr_right fun hc => not_congr (hunescaped c hc)

def lineFeedSettings : Settings := { Settings.standard with unescapedCharacters := ['\n'] }

def oneAttribute (value : Chars) : Tag where
  name := ⟨none, ['A']⟩
  attributes := [⟨⟨none, ['a']⟩, value, 0, 3, 0, none⟩]
  selfClosing := true
  preserveSpace := false
  firstLine := 1
  span := ⟨0, 0⟩

theorem legible_oneAttribute (value : Chars) : (oneAttribute value).Legible := by
  have hname (c : Char) (h : isNameStart c = true) (hc : c ≠ ':') : (QName.mk none [c]).Legible :=
    ⟨⟨h, by simp⟩, by simp [QName.written, QName.ofChars, Text.cutAt, hc]⟩
  refine ⟨hname 'A' (by decide) (by decide), fun a ha => ?_, by simp [oneAttribute]⟩
  rw [List.mem_singleton.mp ha]
  exact hname 'a' (by decide) (by decide)

/-- With the standard settings every character that needs it is escaped. -/
theorem reads_back_sample :
    (oneAttribute "\t<\r\n\"&\">".toList).Legible ∧
      ∃ d t, Document.read (unifyLineEnds
          (print ⟨Settings.standard, Dialect.avalonia.unescaped Settings.standard,
              NewLineStyle.windows.chars, 3, false, false⟩
            (oneAttribute "\t<\r\n\"&\">".toList) .opening ++
            closingTag (oneAttribute "\t<\r\n\"&\">".toList) .opening)) = .ok d ∧
        d.nodes = [.element t []] ∧ t.name = (oneAttribute "\t<\r\n\"&\">".toList).name ∧
        t.attributes.map (fun a => (a.name, a.value)) =
          (oneAttribute "\t<\r\n\"&\">".toList).attributes.map (fun a => (a.name, a.value)) := by
  have hlegible := legible_oneAttribute "\t<\r\n\"&\">".toList
  refine ⟨hlegible, (reads_back_iff Settings.standard .avalonia .windows 3 false false .opening hlegible
    (by simp [oneAttribute])).mpr ?_⟩
  rintro a - c - (rfl | rfl | rfl) <;> decide

/-- The settings are accepted, and a line feed in a value is read as a space. -/
theorem lineFeed_not_read_back :
    lineFeedSettings.problem? = none ∧
      ¬ ∃ d t, Document.read (unifyLineEnds
          (print ⟨lineFeedSettings, Dialect.xaml.unescaped lineFeedSettings, ['\n'], 0, true, false⟩
            (oneAttribute "x\ny".toList) .selfClosing ++
            closingTag (oneAttribute "x\ny".toList) .selfClosing)) = .ok d ∧
        d.nodes = [.element t []] ∧ t.name = (oneAttribute "x\ny".toList).name ∧
        t.attributes.map (fun a => (a.name, a.value)) =
          (oneAttribute "x\ny".toList).attributes.map (fun a => (a.name, a.value)) := by
  let ctx : TagContext :=
    ⟨lineFeedSettings, Dialect.xaml.unescaped lineFeedSettings, ['\n'], 0, true, false⟩
  have hn : ctx.newLine = ['\n'] ∨ ctx.newLine = ['\r', '\n'] := .inl rfl
  have hiff := read_closed_iff hn (legible_oneAttribute "x\ny".toList) (by simp [oneAttribute])
    .selfClosing
  refine ⟨rfl, fun h => ?_⟩
  have hsurvives := hiff.mp h _ (List.mem_singleton_self _)
  exact hsurvives '\n' (by decide) (by decide) (by decide)

end StartTag

end XamlFormat
