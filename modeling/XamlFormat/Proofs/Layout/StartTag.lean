import XamlFormat.Proofs.Extension.Lines
import XamlFormat.Proofs.Lists
import XamlFormat.Proofs.Markup.Part
import XamlFormat.Proofs.Text.LineEnds
import XamlFormat.Layout.StartTag

/-! Start tags as they are written: each one is a text that the reader takes apart into the same
attributes, in the same order and with the same values. -/
namespace XamlFormat

open Markup Reference Text

/-- A name that is read as itself. -/
def QName.Legible (q : QName) : Prop := IsName q.written ∧ QName.ofChars q.written = q

structure Tag.Legible (t : Tag) : Prop where
  name : t.name.Legible
  attributes : ∀ a ∈ t.attributes, a.name.Legible
  distinct : (t.attributes.map fun a => a.name.written).Nodup

/-- The second attribute says the same as the first: it has the same value, or one that is read as
the extension of the first. -/
structure Attribute.Kept (a b : Attribute) : Prop where
  name : b.name = a.name
  value : a.extension = none → b.value = a.value
  extension : ∀ e v, a.extension = some e → Extension.read v = .ok e →
    Extension.read b.value = .ok e

theorem NewLineStyle.chars_eq (n : NewLineStyle) : n.chars = ['\n'] ∨ n.chars = ['\r', '\n'] := by
  cases n <;> simp [chars]

namespace StartTag

/-- An attribute behind a gap, with a value that is spelled so. -/
def write (gap : Chars) (a : Attribute) (raw : Chars) : WrittenAttribute :=
  ⟨gap, a.name.written, [], [], '"', raw⟩

def writePlain (unescaped gap : Chars) (a : Attribute) : WrittenAttribute :=
  write gap a (escapeAttribute unescaped a.text)

def writeAlone (ctx : TagContext) (gap : Chars) (column : Nat) (a : Attribute) :
    WrittenAttribute :=
  match a.extension.map (Extension.lines ctx.settings) with
  | some (first :: second :: more) =>
    write gap a (escapeAttribute ctx.unescaped first.text ++
      splitLines ctx (column + a.name.length + 2) (second :: more))
  | _ => writePlain ctx.unescaped gap a

def lineGap (ctx : TagContext) (column : Nat) : Chars :=
  ctx.newLine ++ ctx.indent.continuation ctx.depth column

def writeLine (ctx : TagContext) (column : Nat) : List Rendered → List WrittenAttribute
  | [] => []
  | [r] => [writeAlone ctx (lineGap ctx column) column r.item]
  | r :: rs =>
    writePlain ctx.unescaped (lineGap ctx column) r.item ::
      rs.map fun r => writePlain ctx.unescaped [' '] r.item

def writeFirst (ctx : TagContext) (tag : Tag) (lines : List (List Rendered))
    (first : List Rendered) : List WrittenAttribute :=
  match lines, first with
  | [], [r] => [writeAlone ctx [' '] (nameColumn tag) r.item]
  | _, first => first.map fun r => writePlain ctx.unescaped [' '] r.item

def writeWrapped (ctx : TagContext) (tag : Tag) (rendered : List Rendered) :
    List WrittenAttribute :=
  let lines := pack ctx.settings (rendered.drop (leadCount ctx tag))
  writeFirst ctx tag lines (rendered.take (leadCount ctx tag)) ++
    lines.flatMap (writeLine ctx (wrapColumn ctx tag))

def closingGap (ending : TagEnd) (spaced : Bool) : Chars :=
  match ending with
  | .opening => []
  | .selfClosing => if spaced then [' '] else []

def writeAttributes (ctx : TagContext) (tag : Tag) : List WrittenAttribute :=
  let rendered := renderAll ctx.unescaped tag.attributes
  if wraps ctx tag rendered then writeWrapped ctx tag rendered
  else rendered.map fun r => writePlain ctx.unescaped [' '] r.item

def endGap (ctx : TagContext) (tag : Tag) (ending : TagEnd) : Chars :=
  if wraps ctx tag (renderAll ctx.unescaped tag.attributes) &&
      ctx.settings.endingBracketOnNewLine then
    ctx.newLine ++ (ctx.indent.level ctx.depth ++ closingGap ending false)
  else closingGap ending ctx.settings.spaceBeforeClosingSlash

def written (ctx : TagContext) (tag : Tag) (ending : TagEnd) : WrittenTag where
  name := tag.name.written
  attributes := writeAttributes ctx tag
  gap := endGap ctx tag ending
  selfClosing := ending == .selfClosing

section Text

variable {ctx : TagContext}

theorem text_writePlain (unescaped gap : Chars) (a : Attribute) :
    (writePlain unescaped gap a).text = gap ++ a.render unescaped := by
  simp [writePlain, write, WrittenAttribute.text, WrittenAttribute.body, Attribute.render]

theorem text_writeAlone (gap : Chars) (column : Nat) {r : Rendered}
    (hr : r.text = r.item.render ctx.unescaped) :
    (writeAlone ctx gap column r.item).text = gap ++ alone ctx column r := by
  unfold writeAlone alone
  cases r.item.extension with
  | none => rw [hr]; exact text_writePlain _ _ _
  | some e =>
    simp only [Option.map_some]
    split
    · rename_i h
      simp only [Option.some.injEq] at h
      rw [h]
      simp [write, WrittenAttribute.text, WrittenAttribute.body]
    · rename_i h
      split
      · exact absurd (by rw [‹e.lines _ = _›]) (h _ _ _)
      · rw [hr]
        exact text_writePlain _ _ _

def AllRendered (unescaped : Chars) (rendered : List Rendered) : Prop :=
  ∀ r ∈ rendered, r.text = r.item.render unescaped

theorem allRendered_renderAll (unescaped : Chars) (attributes : List Attribute) :
    AllRendered unescaped (renderAll unescaped attributes) := by
  simp [AllRendered, renderAll]

theorem text_map_writePlain {unescaped : Chars} {rendered : List Rendered}
    (h : AllRendered unescaped rendered) :
    (rendered.map fun r => writePlain unescaped [' '] r.item).flatMap WrittenAttribute.text =
      trailing rendered := by
  rw [List.flatMap_map, trailing]
  refine List.flatMap_congr fun r hr => ?_
  rw [text_writePlain, h r hr]
  rfl

theorem joinWith_cons (r : Rendered) (rs : List Rendered) :
    inRow (r :: rs) = r.text ++ trailing rs := by
  induction rs generalizing r with
  | nil => simp [inRow, Text.joinWith, trailing]
  | cons q rs ih =>
    have := ih q
    simp only [inRow, List.map_cons] at this
    simp only [inRow, List.map_cons, Text.joinWith, this]
    simp [trailing]

theorem text_writeLine (column : Nat) {line : List Rendered}
    (h : AllRendered ctx.unescaped line) (hne : line ≠ []) :
    (writeLine ctx column line).flatMap WrittenAttribute.text = wrappedLine ctx column line := by
  obtain _ | ⟨r, _ | ⟨q, rs⟩⟩ := line
  · exact absurd rfl hne
  · simp only [writeLine, List.flatMap_cons, List.flatMap_nil, List.append_nil, wrappedLine]
    rw [text_writeAlone _ _ (h r (by simp)), lineGap]
  · have hrest : AllRendered ctx.unescaped (q :: rs) := fun x hx => h x (by simp [hx])
    simp only [writeLine, List.flatMap_cons, wrappedLine, joinWith_cons]
    rw [text_writePlain, text_map_writePlain hrest, ← h r (by simp), lineGap]
    simp

theorem packFrom_flatten (s : Settings) (line rendered : List Rendered) :
    (packFrom s line rendered).flatten = line ++ rendered := by
  induction rendered generalizing line with
  | nil => cases line <;> simp [packFrom]
  | cons r rest ih =>
    rw [packFrom]
    split_ifs <;> simp [ih]

theorem ne_nil_of_mem_packFrom {s : Settings} {line rendered l : List Rendered}
    (h : l ∈ packFrom s line rendered) : l ≠ [] := by
  induction rendered generalizing line with
  | nil =>
    cases line with
    | nil => simp [packFrom] at h
    | cons => simp_all [packFrom]
  | cons r rest ih =>
    rw [packFrom] at h
    split_ifs at h with hfull
    · obtain rfl | h := List.mem_cons.mp h
      · rintro rfl
        simp [isFull] at hfull
      · exact ih h
    · exact ih h

theorem allRendered_of_mem_pack {s : Settings} {unescaped : Chars} {rendered l : List Rendered}
    (h : AllRendered unescaped rendered) (hl : l ∈ pack s rendered) : AllRendered unescaped l := by
  intro r hr
  refine h r ?_
  have := packFrom_flatten s [] rendered
  rw [List.nil_append] at this
  rw [← this]
  exact List.mem_flatten.mpr ⟨l, hl, hr⟩

def firstText (ctx : TagContext) (tag : Tag) (lines : List (List Rendered))
    (first : List Rendered) : Chars :=
  match lines, first with
  | [], [r] => ' ' :: alone ctx (nameColumn tag) r
  | _, first => trailing first

theorem text_writeFirst (tag : Tag) (lines : List (List Rendered)) {first : List Rendered}
    (h : AllRendered ctx.unescaped first) :
    (writeFirst ctx tag lines first).flatMap WrittenAttribute.text =
      firstText ctx tag lines first := by
  obtain _ | ⟨l, ls⟩ := lines <;> obtain _ | ⟨r, _ | ⟨q, rs⟩⟩ := first
  · rfl
  · simp [writeFirst, firstText, text_writeAlone _ _ (h r (by simp))]
  all_goals exact text_map_writePlain h

theorem wrapped_eq (ctx : TagContext) (tag : Tag) (rendered : List Rendered) :
    wrapped ctx tag rendered =
      firstText ctx tag (pack ctx.settings (rendered.drop (leadCount ctx tag)))
          (rendered.take (leadCount ctx tag)) ++
        (pack ctx.settings (rendered.drop (leadCount ctx tag))).flatMap
          (wrappedLine ctx (wrapColumn ctx tag)) := rfl

theorem text_writeWrapped (tag : Tag) {rendered : List Rendered}
    (h : AllRendered ctx.unescaped rendered) :
    (writeWrapped ctx tag rendered).flatMap WrittenAttribute.text = wrapped ctx tag rendered := by
  have hdrop : AllRendered ctx.unescaped (rendered.drop (leadCount ctx tag)) :=
    fun r hr => h r (List.mem_of_mem_drop hr)
  have htake : AllRendered ctx.unescaped (rendered.take (leadCount ctx tag)) :=
    fun r hr => h r (List.mem_of_mem_take hr)
  rw [writeWrapped, List.flatMap_append, text_writeFirst tag _ htake, List.flatMap_assoc,
    wrapped_eq]
  congr 1
  refine List.flatMap_congr fun line hline => ?_
  exact text_writeLine _ (allRendered_of_mem_pack hdrop hline) (ne_nil_of_mem_packFrom hline)

theorem closing_eq (ending : TagEnd) (spaced : Bool) :
    closing ending spaced =
      closingGap ending spaced ++ WrittenTag.bracket (ending == .selfClosing) := by
  cases ending <;> cases spaced <;> rfl

theorem text_written (ctx : TagContext) (tag : Tag) (ending : TagEnd) :
    (written ctx tag ending).text = print ctx tag ending := by
  have hall := allRendered_renderAll ctx.unescaped tag.attributes
  by_cases hw : wraps ctx tag (renderAll ctx.unescaped tag.attributes) = true
  · simp only [written, writeAttributes, endGap, print, hw, WrittenTag.text, if_true, Bool.true_and,
      text_writeWrapped tag hall, closing_eq]
    split_ifs <;> simp
  · rw [Bool.not_eq_true] at hw
    simp only [written, writeAttributes, endGap, print, hw, WrittenTag.text, Bool.false_eq_true,
      if_false, Bool.false_and, text_map_writePlain hall, closing_eq]
    simp

end Text

section Values

/-- What the printer puts between the parts of a tag. -/
def Spacing (s : Chars) : Prop := ∀ c ∈ s, c = ' ' ∨ c = '\t' ∨ c = '\n'

theorem Spacing.blanks {s : Chars} (h : Spacing s) : Blanks s := by
  intro c hc
  obtain rfl | rfl | rfl := h c hc <;> rfl

theorem Spacing.notMem {s : Chars} (h : Spacing s) {d : Char} (hd : d ∉ [' ', '\t', '\n']) :
    d ∉ s := by
  intro hm
  exact hd (by simpa using h d hm)

def escapeLine (unescaped : Chars) (l : ExtensionLine) : ExtensionLine :=
  { l with text := escapeAttribute unescaped l.text }

/-- What may stand between the quotes of the attribute: the escaped value, or the escaped lines of
its extension with blanks between them. -/
def Spells (ctx : TagContext) (a : Attribute) (raw : Chars) : Prop :=
  raw = escapeAttribute ctx.unescaped a.text ∨
    ∃ e gap, a.extension = some e ∧ (∀ n, Spacing (gap n)) ∧
      raw = ExtensionLine.join gap ((e.lines ctx.settings).map (escapeLine ctx.unescaped))

/-- The written attribute stands for the attribute. -/
structure Echo (ctx : TagContext) (a : Attribute) (w : WrittenAttribute) : Prop where
  name : w.name = a.name.written
  gap_ne : w.gap ≠ []
  gap : Spacing w.gap
  bare : w.before = [] ∧ w.after = [] ∧ w.quote = '"'
  raw : Spells ctx a w.raw

variable {ctx : TagContext}

theorem spacing_replicate {c : Char} (hc : c = ' ' ∨ c = '\t' ∨ c = '\n') (n : Nat) :
    Spacing (List.replicate n c) := by
  intro d hd
  rw [List.eq_of_mem_replicate hd]
  exact hc

theorem spacing_append {s t : Chars} (hs : Spacing s) (ht : Spacing t) : Spacing (s ++ t) := by
  intro c hc
  obtain hc | hc := List.mem_append.mp hc
  · exact hs c hc
  · exact ht c hc

theorem spacing_level (i : Indent) (depth : Nat) : Spacing (i.level depth) := by
  unfold Indent.level
  split_ifs
  · exact spacing_replicate (.inr (.inl rfl)) _
  · exact spacing_replicate (.inl rfl) _

theorem spacing_continuation (i : Indent) (depth extra : Nat) :
    Spacing (i.continuation depth extra) := by
  have tabs := spacing_replicate (c := '\t') (.inr (.inl rfl))
  have spaces := spacing_replicate (c := ' ') (.inl rfl)
  unfold Indent.continuation
  dsimp only
  split_ifs
  · split <;> exact spacing_append (tabs _) (spaces _)
  · exact spaces _

theorem spacing_lineGap (hn : ctx.newLine = ['\n']) (column : Nat) :
    Spacing (lineGap ctx column) := by
  rw [lineGap, hn]
  exact spacing_append (by simp [Spacing]) (spacing_continuation _ _ _)

theorem spacing_space : Spacing [' '] := by
  simp [Spacing]

theorem echo_writePlain {gap : Chars} (hne : gap ≠ []) (hg : Spacing gap) (a : Attribute) :
    Echo ctx a (writePlain ctx.unescaped gap a) :=
  ⟨rfl, hne, hg, ⟨rfl, rfl, rfl⟩, .inl rfl⟩

theorem splitLines_eq (ctx : TagContext) (column : Nat) (ls : List ExtensionLine) :
    splitLines ctx column ls = ls.flatMap fun l =>
      lineGap ctx (column + l.column) ++ escapeAttribute ctx.unescaped l.text := by
  induction ls with
  | nil => rfl
  | cons l ls ih => simp [splitLines, ih, lineGap]

theorem echo_writeAlone (hn : ctx.newLine = ['\n']) {gap : Chars} (hne : gap ≠ [])
    (hg : Spacing gap) (column : Nat) (a : Attribute) :
    Echo ctx a (writeAlone ctx gap column a) := by
  unfold writeAlone
  split
  · rename_i first second more h
    obtain ⟨e, he, hl⟩ := Option.map_eq_some_iff.mp h
    refine ⟨rfl, hne, hg, ⟨rfl, rfl, rfl⟩, .inr ⟨e, fun n => lineGap ctx (column + a.name.length + 2 + n),
      he, fun n => spacing_lineGap hn _, ?_⟩⟩
    simp only [write, splitLines_eq, hl]
    simp [ExtensionLine.join, escapeLine, List.flatMap_map]
  · exact echo_writePlain hne hg a

theorem lineGap_ne (hn : ctx.newLine = ['\n']) (column : Nat) : lineGap ctx column ≠ [] := by
  simp [lineGap, hn]

inductive Gap (ctx : TagContext) : Chars → Prop
  | space : Gap ctx [' ']
  | line (column : Nat) : Gap ctx (lineGap ctx column)

/-- The forms that an attribute is written in. -/
inductive Form (ctx : TagContext) (a : Attribute) : WrittenAttribute → Prop
  | plain {gap : Chars} (hg : Gap ctx gap) : Form ctx a (writePlain ctx.unescaped gap a)
  | alone {gap : Chars} (hg : Gap ctx gap) (column : Nat) : Form ctx a (writeAlone ctx gap column a)

theorem form_map_writePlain (rendered : List Rendered) :
    List.Forall₂ (fun r w => Form ctx r.item w) rendered
      (rendered.map fun r => writePlain ctx.unescaped [' '] r.item) := by
  induction rendered with
  | nil => exact .nil
  | cons r rs ih => exact .cons (.plain .space) ih

theorem form_writeLine (column : Nat) (line : List Rendered) :
    List.Forall₂ (fun r w => Form ctx r.item w) line (writeLine ctx column line) := by
  obtain _ | ⟨r, _ | ⟨q, rs⟩⟩ := line
  · exact .nil
  · exact .cons (.alone (.line _) _) .nil
  · exact .cons (.plain (.line _)) (form_map_writePlain _)

theorem form_writeFirst (tag : Tag) (lines : List (List Rendered)) (first : List Rendered) :
    List.Forall₂ (fun r w => Form ctx r.item w) first (writeFirst ctx tag lines first) := by
  obtain _ | ⟨l, ls⟩ := lines <;> obtain _ | ⟨r, _ | ⟨q, rs⟩⟩ := first
  · exact .nil
  · exact .cons (.alone .space _) .nil
  all_goals exact form_map_writePlain _

theorem form_writeWrapped (tag : Tag) (rendered : List Rendered) :
    List.Forall₂ (fun r w => Form ctx r.item w) rendered (writeWrapped ctx tag rendered) := by
  let lines := pack ctx.settings (rendered.drop (leadCount ctx tag))
  have hlines : List.Forall₂ (fun r w => Form ctx r.item w) lines.flatten
      (lines.flatMap (writeLine ctx (wrapColumn ctx tag))) :=
    forall₂_flatMap lines fun l _ => form_writeLine _ l
  simp only [lines, pack, packFrom_flatten, List.nil_append] at hlines
  have hall := List.rel_append (form_writeFirst tag
    (pack ctx.settings (rendered.drop (leadCount ctx tag))) (rendered.take (leadCount ctx tag))) hlines
  simp only [List.take_append_drop] at hall
  exact hall

/-- The attributes are written one by one, each in one of its forms. -/
theorem form_written (ctx : TagContext) (tag : Tag) (ending : TagEnd) :
    List.Forall₂ (Form ctx) tag.attributes (written ctx tag ending).attributes := by
  have h : List.Forall₂ (fun r w => Form ctx r.item w)
      (renderAll ctx.unescaped tag.attributes) (written ctx tag ending).attributes := by
    simp only [written, writeAttributes]
    split_ifs
    · exact form_writeWrapped tag _
    · exact form_map_writePlain _
  simpa [renderAll, List.forall₂_map_left_iff] using h

theorem Form.echo (hn : ctx.newLine = ['\n']) {a : Attribute} {w : WrittenAttribute}
    (h : Form ctx a w) : Echo ctx a w := by
  have hgap {gap : Chars} (hg : Gap ctx gap) : gap ≠ [] ∧ Spacing gap := by
    cases hg with
    | space => exact ⟨by simp, spacing_space⟩
    | line column => exact ⟨lineGap_ne hn _, spacing_lineGap hn _⟩
  cases h with
  | plain hg => exact echo_writePlain (hgap hg).1 (hgap hg).2 a
  | alone hg column => exact echo_writeAlone hn (hgap hg).1 (hgap hg).2 column a

theorem echo_written (hn : ctx.newLine = ['\n']) (tag : Tag) (ending : TagEnd) :
    List.Forall₂ (Echo ctx) tag.attributes (written ctx tag ending).attributes :=
  (form_written ctx tag ending).imp fun _ _ h => h.echo hn

theorem join_cons (gap : Nat → Chars) (l : ExtensionLine) (ls : List ExtensionLine) :
    ExtensionLine.join gap (l :: ls) =
      l.text ++ ls.flatMap fun m => gap m.column ++ m.text := rfl

theorem flattenValue_append (s t : Chars) :
    flattenValue (s ++ t) = flattenValue s ++ flattenValue t := by
  simp [flattenValue]

/-- Blanks between quotes stand for as many spaces. -/
theorem flattenValue_blanks {s : Chars} (h : Blanks s) :
    flattenValue s = List.replicate s.length ' ' := by
  rw [List.eq_replicate_iff]
  refine ⟨by simp [flattenValue], fun c hc => ?_⟩
  obtain ⟨d, hd, rfl⟩ := List.mem_map.mp hc
  have := h d hd
  simp only [Text.isXmlBlank, Bool.or_eq_true, beq_iff_eq] at this
  obtain ((rfl | rfl) | rfl) | rfl := this <;> simp

theorem decode_spaces (n : Nat) : decode (List.replicate n ' ') = .ok (List.replicate n ' ') :=
  decode_plain fun h => by simpa using List.eq_of_mem_replicate h

theorem decode_lines {unescaped : Chars} (hu : EscapesLineEnds unescaped) {gap : Nat → Chars}
    (hg : ∀ n, Spacing (gap n)) (ls : List ExtensionLine) :
    decode (flattenValue (ExtensionLine.join gap (ls.map (escapeLine unescaped)))) =
      .ok (ExtensionLine.join (fun n => List.replicate (gap n).length ' ') ls) := by
  have rest (ls : List ExtensionLine) :
      decode (flattenValue ((ls.map (escapeLine unescaped)).flatMap fun m =>
        gap m.column ++ m.text)) =
        .ok (ls.flatMap fun m => List.replicate (gap m.column).length ' ' ++ m.text) := by
    induction ls with
    | nil => exact decode_nil
    | cons l ls ih =>
      rw [List.map_cons, List.flatMap_cons, List.flatMap_cons, flattenValue_append,
        flattenValue_append]
      refine decode_append (decode_append ?_ (decode_escapeAttribute hu l.text)) ih
      rw [flattenValue_blanks (hg _).blanks]
      exact decode_spaces _
  cases ls with
  | nil => exact decode_nil
  | cons l ls =>
    rw [List.map_cons, join_cons, join_cons, flattenValue_append]
    exact decode_append (decode_escapeAttribute hu l.text) (rest ls)

/-- The value that the written attribute is read with. -/
theorem decode_of_spells {a : Attribute} {raw : Chars} (hu : EscapesLineEnds ctx.unescaped)
    (h : Spells ctx a raw) :
    ∃ v, decode (flattenValue raw) = .ok v ∧ (v = a.text ∨
      ∃ e gap, a.extension = some e ∧ (∀ n, Extension.Blanks (gap n)) ∧
        v = ExtensionLine.join gap (e.lines ctx.settings)) := by
  obtain rfl | ⟨e, gap, he, hg, rfl⟩ := h
  · exact ⟨_, decode_escapeAttribute hu _, .inl rfl⟩
  · refine ⟨_, decode_lines hu hg _, .inr ⟨e, _, he, fun n c hc => ?_, rfl⟩⟩
    rw [List.eq_of_mem_replicate hc]
    rfl

theorem notMem_of_spells {a : Attribute} {raw : Chars} (h : Spells ctx a raw) : '"' ∉ raw := by
  obtain rfl | ⟨e, gap, -, hg, rfl⟩ := h
  · exact notMem_escapeAttribute _ _
  · have hgap (n : Nat) : '"' ∉ gap n := (hg n).notMem (by decide)
    cases e.lines ctx.settings with
    | nil => simp [ExtensionLine.join]
    | cons l ls =>
      simp [ExtensionLine.join, escapeLine, notMem_escapeAttribute, hgap]

namespace Echo

variable {a : Attribute} {w : WrittenAttribute}

theorem valid (h : Echo ctx a w) (hu : EscapesLineEnds ctx.unescaped)
    (hn : IsName a.name.written) : w.Valid where
  gap_ne := h.gap_ne
  gap := h.gap.blanks
  name := h.name ▸ hn
  before := h.bare.1 ▸ blanks_nil
  after := h.bare.2.1 ▸ blanks_nil
  quote := .inl h.bare.2.2
  raw := h.bare.2.2 ▸ notMem_of_spells h.raw
  value := by
    obtain ⟨v, hv, -⟩ := decode_of_spells hu h.raw
    exact ⟨v, hv⟩

theorem value_eq (h : Echo ctx a w) (hu : EscapesLineEnds ctx.unescaped)
    (he : a.extension = none) : w.value = a.value := by
  obtain ⟨v, hv, rfl | ⟨e, -, he', -⟩⟩ := decode_of_spells hu h.raw
  · rw [WrittenAttribute.value, hv]
    simp [Attribute.text, he]
  · simp [he] at he'

theorem read_value (h : Echo ctx a w) (hu : EscapesLineEnds ctx.unescaped) {e : Extension}
    (he : a.extension = some e) {v : Chars} (hv : Extension.read v = .ok e) :
    Extension.read w.value = .ok e := by
  obtain ⟨v', hv', rfl | ⟨e', gap, he', hgap, rfl⟩⟩ := decode_of_spells hu h.raw
  · rw [WrittenAttribute.value, hv']
    have hread : Extension.read e.print = .ok e :=
      Extension.read_rendered hv e.toValue.renders_print
    simpa [Attribute.text, he] using hread
  · rw [he] at he'
    cases he'
    rw [WrittenAttribute.value, hv']
    exact Extension.read_lines hv _ hgap

end Echo

end Values

section LineEnds

def unix (ctx : TagContext) : TagContext := { ctx with newLine := ['\n'] }

theorem oneLine_of_isName {name : Chars} (h : IsName name) : OneLine name := by
  have notMem (d : Char) (h1 : isNameStart d = false) (h2 : isNameChar d = false) : d ∉ name := by
    cases name with
    | nil => simp
    | cons c cs =>
      simp only [List.mem_cons, not_or]
      exact ⟨(ne_of_isNameStart h.1 h1).symm, fun hd => by simp [h.2 d hd] at h2⟩
  exact ⟨notMem _ (by decide) (by decide), notMem _ (by decide) (by decide)⟩

theorem lineEnd_notMem_escapeAttribute {unescaped : Chars} {d : Char} (hd : d = '\n' ∨ d = '\r')
    (h : d ∉ unescaped) (v : Chars) : d ∉ escapeAttribute unescaped v :=
  fun hm => h (mem_unescaped (by simp [hd]) hm)

theorem oneLine_escapeAttribute {unescaped : Chars} (h : EscapesLineEnds unescaped) (v : Chars) :
    OneLine (escapeAttribute unescaped v) :=
  ⟨lineEnd_notMem_escapeAttribute (.inl rfl) h.2.1 v,
    lineEnd_notMem_escapeAttribute (.inr rfl) h.2.2 v⟩

theorem oneLine_level (i : Indent) (depth : Nat) : OneLine (i.level depth) := by
  unfold Indent.level
  split_ifs <;> exact oneLine_replicate (by decide) (by decide) _

theorem oneLine_continuation (i : Indent) (depth extra : Nat) :
    OneLine (i.continuation depth extra) := by
  have tabs := oneLine_replicate (c := '\t') (by decide) (by decide)
  have spaces := oneLine_replicate (c := ' ') (by decide) (by decide)
  unfold Indent.continuation
  dsimp only
  split_ifs
  · split <;> exact oneLine_append.mpr ⟨tabs _, spaces _⟩
  · exact spaces _

variable {ctx : TagContext}

def convert (newLine : Chars) (w : WrittenAttribute) : WrittenAttribute :=
  { w with gap := withLineEnds newLine w.gap, raw := withLineEnds newLine w.raw }

theorem lineGap_unix (ctx : TagContext) (column : Nat) :
    withLineEnds ctx.newLine (lineGap (unix ctx) column) = lineGap ctx column := by
  rw [lineGap, lineGap]
  change withLineEnds ctx.newLine ('\n' :: ctx.indent.continuation ctx.depth column) = _
  rw [withLineEnds_lineFeed_cons, withLineEnds_oneLine (oneLine_continuation _ _ _)]

theorem splitLines_unix (hu : '\n' ∉ ctx.unescaped) (column : Nat)
    (ls : List ExtensionLine) :
    withLineEnds ctx.newLine (splitLines (unix ctx) column ls) = splitLines ctx column ls := by
  simp only [splitLines_eq, withLineEnds_flatMap, withLineEnds_append, lineGap_unix]
  simp [unix, withLineEnds_of_notMem (lineEnd_notMem_escapeAttribute (.inl rfl) hu _)]

theorem convert_writePlain (hu : '\n' ∉ ctx.unescaped) (newLine gap : Chars)
    (a : Attribute) :
    convert newLine (writePlain ctx.unescaped gap a) =
      writePlain ctx.unescaped (withLineEnds newLine gap) a := by
  simp [convert, writePlain, write, withLineEnds_of_notMem (lineEnd_notMem_escapeAttribute (.inl rfl) hu _)]

theorem convert_writeAlone (hu : '\n' ∉ ctx.unescaped) (gap : Chars) (column : Nat)
    (a : Attribute) :
    convert ctx.newLine (writeAlone (unix ctx) gap column a) =
      writeAlone ctx (withLineEnds ctx.newLine gap) column a := by
  have hraw (first : ExtensionLine) (ls : List ExtensionLine) (column : Nat) :
      withLineEnds ctx.newLine (escapeAttribute (unix ctx).unescaped first.text ++
        splitLines (unix ctx) column ls) =
        escapeAttribute ctx.unescaped first.text ++ splitLines ctx column ls := by
    rw [withLineEnds_append, splitLines_unix hu]
    exact congrArg (· ++ _) (withLineEnds_of_notMem (lineEnd_notMem_escapeAttribute (.inl rfl) hu _))
  unfold writeAlone
  change convert ctx.newLine (match Option.map (Extension.lines ctx.settings) a.extension with
    | some (first :: second :: more) => _
    | _ => _) = _
  split
  · simp only [convert, write, hraw]
  · exact convert_writePlain hu _ _ _

theorem convert_map_writePlain (hu : '\n' ∉ ctx.unescaped) (newLine : Chars)
    (rendered : List Rendered) :
    (rendered.map fun r => writePlain ctx.unescaped [' '] r.item).map (convert newLine) =
      rendered.map fun r => writePlain ctx.unescaped [' '] r.item := by
  rw [List.map_map]
  refine List.map_congr_left fun r _ => ?_
  exact convert_writePlain hu newLine [' '] r.item

theorem convert_writeLine (hu : '\n' ∉ ctx.unescaped) (column : Nat)
    (line : List Rendered) :
    (writeLine (unix ctx) column line).map (convert ctx.newLine) = writeLine ctx column line := by
  obtain _ | ⟨r, _ | ⟨q, rs⟩⟩ := line
  · rfl
  · simp only [writeLine, List.map_cons, List.map_nil, convert_writeAlone hu, lineGap_unix]
  · have hfirst := convert_writePlain hu ctx.newLine (lineGap (unix ctx) column) r.item
    rw [lineGap_unix] at hfirst
    exact congrArg₂ List.cons hfirst (convert_map_writePlain hu _ (q :: rs))

theorem convert_writeFirst (hu : '\n' ∉ ctx.unescaped) (tag : Tag)
    (lines : List (List Rendered)) (first : List Rendered) :
    (writeFirst (unix ctx) tag lines first).map (convert ctx.newLine) =
      writeFirst ctx tag lines first := by
  obtain _ | ⟨l, ls⟩ := lines <;> obtain _ | ⟨r, _ | ⟨q, rs⟩⟩ := first
  · rfl
  · simp only [writeFirst, List.map_cons, List.map_nil, convert_writeAlone hu]
    rfl
  all_goals exact convert_map_writePlain hu _ _

theorem convert_writeWrapped (hu : '\n' ∉ ctx.unescaped) (tag : Tag)
    (rendered : List Rendered) :
    (writeWrapped (unix ctx) tag rendered).map (convert ctx.newLine) =
      writeWrapped ctx tag rendered := by
  rw [writeWrapped, List.map_append, List.map_flatMap, writeWrapped]
  refine congrArg₂ _ (convert_writeFirst hu _ _ _) ?_
  exact List.flatMap_congr fun line _ => convert_writeLine hu _ line

theorem oneLine_closingGap (ending : TagEnd) (spaced : Bool) :
    OneLine (closingGap ending spaced ++ WrittenTag.bracket (ending == .selfClosing)) := by
  cases ending <;> cases spaced <;> exact ⟨by decide, by decide⟩

theorem text_convert {a : Attribute} {w : WrittenAttribute} (h : Echo ctx a w)
    (hn : IsName a.name.written) (newLine : Chars) :
    withLineEnds newLine w.text = (convert newLine w).text := by
  obtain ⟨hb, ha, hq⟩ := h.bare
  have hname : OneLine w.name := h.name ▸ oneLine_of_isName hn
  simp only [WrittenAttribute.text, WrittenAttribute.body, convert, hb, ha, hq, List.nil_append,
    withLineEnds_append, withLineEnds_oneLine hname]
  have hquote : OneLine ['"'] := ⟨by decide, by decide⟩
  rw [withLineEnds_cons_of_ne (by decide), withLineEnds_cons_of_ne (by decide), withLineEnds_append,
    withLineEnds_oneLine hquote]

theorem convert_writeAttributes (hu : '\n' ∉ ctx.unescaped) (tag : Tag) :
    (writeAttributes (unix ctx) tag).map (convert ctx.newLine) = writeAttributes ctx tag := by
  have hsame : wraps (unix ctx) tag (renderAll (unix ctx).unescaped tag.attributes) =
      wraps ctx tag (renderAll ctx.unescaped tag.attributes) := rfl
  simp only [writeAttributes, hsame]
  split_ifs
  · exact convert_writeWrapped hu _ _
  · exact convert_map_writePlain hu _ _

theorem endGap_unix (ctx : TagContext) (tag : Tag) (ending : TagEnd) :
    withLineEnds ctx.newLine (endGap (unix ctx) tag ending) = endGap ctx tag ending := by
  have hone (spaced : Bool) : OneLine (closingGap ending spaced) :=
    (oneLine_append.mp (oneLine_closingGap ending spaced)).1
  have hsame : wraps (unix ctx) tag (renderAll (unix ctx).unescaped tag.attributes) =
      wraps ctx tag (renderAll ctx.unescaped tag.attributes) := rfl
  have hsettings : (unix ctx).settings = ctx.settings := rfl
  simp only [endGap, hsame, hsettings]
  split_ifs
  · change withLineEnds ctx.newLine ('\n' :: (ctx.indent.level ctx.depth ++ _)) = _
    rw [withLineEnds_lineFeed_cons,
      withLineEnds_oneLine (oneLine_append.mpr ⟨oneLine_level _ _, hone _⟩)]
  · exact withLineEnds_oneLine (hone _)

/-- Line ends do not change anything else of a start tag. -/
theorem print_unix (hu : '\n' ∉ ctx.unescaped) {tag : Tag}
    (hname : IsName tag.name.written) (hattributes : ∀ a ∈ tag.attributes, IsName a.name.written)
    (ending : TagEnd) :
    withLineEnds ctx.newLine (print (unix ctx) tag ending) = print ctx tag ending := by
  have hattrs : withLineEnds ctx.newLine
      ((writeAttributes (unix ctx) tag).flatMap WrittenAttribute.text) =
        (writeAttributes ctx tag).flatMap WrittenAttribute.text := by
    rw [← convert_writeAttributes hu, withLineEnds_flatMap, List.flatMap_map]
    refine List.flatMap_congr fun w hw => ?_
    obtain ⟨a, ha, he⟩ := exists_of_forall₂ (echo_written rfl tag ending) w hw
    exact text_convert he (hattributes a ha) _
  have hbracket : OneLine (WrittenTag.bracket (ending == .selfClosing)) :=
    (oneLine_append.mp (oneLine_closingGap ending false)).2
  rw [← text_written, ← text_written]
  simp only [WrittenTag.text, written, withLineEnds_append, hattrs, endGap_unix,
    withLineEnds_oneLine (oneLine_of_isName hname), withLineEnds_oneLine hbracket,
    withLineEnds_cons_of_ne (show '<' ≠ '\n' by decide)]

end LineEnds

section Fresh

variable {ctx : TagContext} {tag : Tag}

theorem map_name_of_echo {attributes : List Attribute} {ws : List WrittenAttribute}
    (h : List.Forall₂ (Echo ctx) attributes ws) :
    ws.map WrittenAttribute.name = attributes.map fun a => a.name.written :=
  map_of_forall₂ (fun _ _ ha => ha.name) h

theorem blanks_endGap (hn : Blanks ctx.newLine) (tag : Tag) (ending : TagEnd) :
    Blanks (endGap ctx tag ending) := by
  have hclosing (spaced : Bool) : Blanks (closingGap ending spaced) := by
    cases ending <;> cases spaced <;> simp [closingGap, Blanks, isXmlBlank]
  unfold endGap
  split_ifs
  · intro c hc
    rw [List.mem_append, List.mem_append] at hc
    obtain hc | hc | hc := hc
    · exact hn c hc
    · exact (spacing_level _ _).blanks c hc
    · exact hclosing _ c hc
  · exact hclosing _

/-- A printed start tag is one that the reader accepts. -/
theorem valid_written (hn : ctx.newLine = ['\n']) (hu : EscapesLineEnds ctx.unescaped)
    (ht : tag.Legible) (ending : TagEnd) : (written ctx tag ending).Valid where
  name := ht.name.1
  attributes w hw := by
    obtain ⟨a, ha, he⟩ := exists_of_forall₂ (echo_written hn tag ending) w hw
    exact he.valid hu (ht.attributes a ha).1
  distinct := by
    rw [map_name_of_echo (echo_written hn tag ending)]
    exact ht.distinct
  gap := blanks_endGap (by simp [hn, Blanks, isXmlBlank]) tag ending

/-- The tag that a printed start tag is read as. -/
def fresh (ctx : TagContext) (tag : Tag) (ending : TagEnd) : Tag := (written ctx tag ending).tag

theorem spelled_fresh (hn : ctx.newLine = ['\n']) (hu : EscapesLineEnds ctx.unescaped)
    (ht : tag.Legible) (ending : TagEnd) :
    (fresh ctx tag ending).Spelled (print ctx tag ending) :=
  ⟨_, valid_written hn hu ht ending, text_written ctx tag ending, rfl⟩

theorem name_fresh (ht : tag.Legible) (ending : TagEnd) : (fresh ctx tag ending).name = tag.name :=
  ht.name.2

@[simp] theorem selfClosing_fresh (ctx : TagContext) (tag : Tag) (ending : TagEnd) :
    (fresh ctx tag ending).selfClosing = (ending == .selfClosing) := rfl

theorem kept_attributes {attributes : List Attribute} {ws : List WrittenAttribute}
    (hu : EscapesLineEnds ctx.unescaped) (h : List.Forall₂ (Echo ctx) attributes ws)
    (hl : ∀ a ∈ attributes, a.name.Legible) (index pos : Nat) :
    List.Forall₂ Attribute.Kept attributes (WrittenAttribute.attributes index pos ws) := by
  induction h generalizing index pos with
  | nil => exact .nil
  | @cons a w as ws ha _ ih =>
    obtain ⟨hname, hl⟩ := List.forall_mem_cons.mp hl
    refine .cons ⟨?_, ?_, ?_⟩ (ih hl _ _)
    · simp [WrittenAttribute.toAttribute, ha.name, hname.2]
    · exact fun he => ha.value_eq hu he
    · exact fun e v he hv => ha.read_value hu he hv

/-- Reading a printed start tag gives back what was printed. -/
theorem kept_fresh (hn : ctx.newLine = ['\n']) (hu : EscapesLineEnds ctx.unescaped)
    (ht : tag.Legible) (ending : TagEnd) :
    List.Forall₂ Attribute.Kept tag.attributes (fresh ctx tag ending).attributes :=
  kept_attributes hu (echo_written hn tag ending) ht.attributes _ _

theorem notMem_raw {a : Attribute} {raw : Chars} (hu : EscapesLineEnds ctx.unescaped)
    (h : Spells ctx a raw) : '\r' ∉ raw := by
  have hescape (v : Chars) := (oneLine_escapeAttribute hu v).2
  obtain rfl | ⟨e, gap, -, hg, rfl⟩ := h
  · exact hescape _
  · have hgap (n : Nat) : '\r' ∉ gap n := (hg n).notMem (by decide)
    cases e.lines ctx.settings with
    | nil => simp [ExtensionLine.join]
    | cons l ls => simp [ExtensionLine.join, escapeLine, hescape, hgap]

theorem notMem_text_of_echo {a : Attribute} {w : WrittenAttribute}
    (hu : EscapesLineEnds ctx.unescaped) (h : Echo ctx a w) (hn : IsName a.name.written) :
    '\r' ∉ w.text := by
  obtain ⟨hb, ha, hq⟩ := h.bare
  have hname : '\r' ∉ w.name := h.name ▸ (oneLine_of_isName hn).2
  have hgap : '\r' ∉ w.gap := h.gap.notMem (by decide)
  simp [WrittenAttribute.text, WrittenAttribute.body, hb, ha, hq, hname, hgap, notMem_raw hu h.raw]

theorem notMem_print (hn : ctx.newLine = ['\n']) (hu : EscapesLineEnds ctx.unescaped)
    (ht : tag.Legible) (ending : TagEnd) : '\r' ∉ print ctx tag ending := by
  have hname := (oneLine_of_isName ht.name.1).2
  have hattributes : '\r' ∉ (written ctx tag ending).attributes.flatMap WrittenAttribute.text := by
    intro hm
    obtain ⟨w, hw, hm⟩ := List.mem_flatMap.mp hm
    obtain ⟨a, ha, he⟩ := exists_of_forall₂ (echo_written hn tag ending) w hw
    exact notMem_text_of_echo hu he (ht.attributes a ha).1 hm
  have hend (spaced : Bool) := (oneLine_closingGap ending spaced).2
  have hgap : '\r' ∉ endGap ctx tag ending := by
    simp only [List.mem_append, not_or] at hend
    simp only [endGap]
    split_ifs
    · simp [hn, (hend _).1, (oneLine_level ctx.indent ctx.depth).2]
    · exact (hend _).1
  rw [← text_written]
  simp only [List.mem_append, not_or] at hend
  simp only [WrittenTag.text, List.mem_cons, List.mem_append, not_or]
  exact ⟨by decide, hname, hattributes, hgap, (hend true).2⟩

end Fresh

end StartTag
end XamlFormat
