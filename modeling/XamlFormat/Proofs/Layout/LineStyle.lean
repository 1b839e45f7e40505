import XamlFormat.Proofs.Layout.Successor
import XamlFormat.Proofs.Layout.Verbatim

/-! The style of line ends. It has no part in any decision of the layout: each line feed that is
written with one style is the line end of the other style in the same place. -/
namespace XamlFormat

open Markup Text StartTag

def Settings.ending (style : NewLineStyle) (s : Settings) : Settings :=
  { s with newLineStyle := style }

section Decisions

variable (style : NewLineStyle) (s : Settings)

mutual

theorem Value.lines_ending : ∀ v : Value, v.lines (s.ending style) = v.lines s
  | .literal _ => rfl
  | .extension name arguments => by
    have hsplits : Extension.splits (s.ending style) ⟨name, arguments⟩ =
        Extension.splits s ⟨name, arguments⟩ := rfl
    rw [Value.lines, Value.lines, hsplits, argumentLines_ending]

theorem Argument.lines_ending : ∀ a : Argument, a.lines (s.ending style) = a.lines s
  | .mk none v => v.lines_ending
  | .mk (some _) v => by rw [Argument.lines, Argument.lines, v.lines_ending]

theorem argumentLines_ending (column : Nat) : ∀ as : List Argument,
    argumentLines (s.ending style) column as = argumentLines s column as
  | [] => rfl
  | a :: as => by
    rw [argumentLines, argumentLines, a.lines_ending, argumentLines_ending column as]

end

theorem packFrom_ending (line rs : List Rendered) :
    packFrom (s.ending style) line rs = packFrom s line rs := by
  induction rs generalizing line with
  | nil => rfl
  | cons r rs ih =>
    have hfull : isFull (s.ending style) line r = isFull s line r := rfl
    rw [packFrom, packFrom, hfull, ih, ih]

theorem pack_ending : pack (s.ending style) = pack s := funext fun _ => packFrom_ending ..

theorem Extension.lines_ending : Extension.lines (s.ending style) = Extension.lines s :=
  funext fun e => e.toValue.lines_ending style s

mutual

theorem Node.arrangeAll_ending : ∀ n : Node, n.arrangeAll (s.ending style) = n.arrangeAll s
  | .element t ns => by
    rw [Node.arrangeAll, Node.arrangeAll, arrangeAllList_ending ns]
    rfl
  | .text _ _ => rfl
  | .raw _ _ _ => rfl

theorem arrangeAllList_ending : ∀ ns : List Node,
    arrangeAllList (s.ending style) ns = arrangeAllList s ns
  | [] => rfl
  | n :: ns => by
    rw [arrangeAllList, arrangeAllList, n.arrangeAll_ending, arrangeAllList_ending ns]

end

theorem Document.applyRules_ending (d : Document) :
    d.applyRules (s.ending style) = d.applyRules s := by
  have htidy : d.tidyAttributes (s.ending style) = d.tidyAttributes s := rfl
  rw [applyRules, applyRules, htidy, arrange, arrange, arrangeAllList_ending]

/-- The settings of a start tag matter to it by everything but their line ends. -/
theorem StartTag.print_ending (ctx : TagContext) (tag : Tag) (ending : TagEnd) :
    print { ctx with settings := ctx.settings.ending style } tag ending = print ctx tag ending := by
  have halone (gap : Chars) (column : Nat) (a : Attribute) :
      writeAlone { ctx with settings := ctx.settings.ending style } gap column a =
        writeAlone ctx gap column a := by
    simp only [writeAlone, Extension.lines_ending, splitLines_eq]
    rfl
  have hline (column : Nat) (line : List Rendered) :
      writeLine { ctx with settings := ctx.settings.ending style } column line =
        writeLine ctx column line := by
    obtain _ | ⟨r, _ | ⟨q, rs⟩⟩ := line
    · rfl
    · rw [writeLine, writeLine, halone]
      rfl
    · rfl
  have hfirst (lines : List (List Rendered)) (first : List Rendered) :
      writeFirst { ctx with settings := ctx.settings.ending style } tag lines first =
        writeFirst ctx tag lines first := by
    obtain _ | ⟨l, ls⟩ := lines <;> obtain _ | ⟨r, _ | ⟨q, rs⟩⟩ := first
    · rfl
    · rw [writeFirst, writeFirst, halone]
    all_goals rfl
  have hwrapped (rs : List Rendered) :
      writeWrapped { ctx with settings := ctx.settings.ending style } tag rs =
        writeWrapped ctx tag rs := by
    simp only [writeWrapped, pack_ending, hfirst, funext (hline _)]
    rfl
  rw [← text_written, ← text_written]
  simp only [written, writeAttributes, hwrapped]
  rfl

theorem StartTag.inRange_ending (ctx : TagContext) (newLine : Chars) (tag : Tag) :
    inRange { ctx with settings := ctx.settings.ending style, newLine } tag = inRange ctx tag := by
  let ctx' : TagContext := { ctx with settings := ctx.settings.ending style, newLine }
  have hsplit (column : Nat) (r : Rendered) : splitColumns ctx' column r = splitColumns ctx column r := by
    simp only [splitColumns, ctx', Extension.lines_ending]
  have hline (column : Nat) (line : List Rendered) :
      lineColumns ctx' column line = lineColumns ctx column line := by
    simp only [lineColumns, hsplit]
  have hfirst (lines : List (List Rendered)) (first : List Rendered) :
      firstColumns ctx' tag lines first = firstColumns ctx tag lines first := by
    simp only [firstColumns, hsplit]
  have hwrapped (rs : List Rendered) : wrappedColumns ctx' tag rs = wrappedColumns ctx tag rs := by
    simp only [wrappedColumns, hfirst, funext (hline _)]
    rw [show ctx'.settings = ctx.settings.ending style from rfl, pack_ending]
    rfl
  change inRange ctx' tag = inRange ctx tag
  simp only [inRange, hwrapped]
  rfl

theorem Document.inRange_ending (d : Document) (source : Chars) (dialect : Dialect) :
    d.inRange source (s.ending style) dialect = d.inRange source s dialect :=
  have hcounts : (printer source s dialect).CountsAlike (printer source (s.ending style) dialect) :=
    ⟨fun depth isRoot inline tag => StartTag.inRange_ending style
      ((printer source s dialect).tagContext depth isRoot inline) _ tag, fun _ => rfl⟩
  inRangeList_congr hcounts d.nodes ..

end Decisions

namespace Printer

variable (p : Printer)

/-- The same printer with line feeds at the ends of lines. -/
def unix : Printer := { p with settings := p.settings.ending .unix }

theorem copied_unix (text : Chars) : p.copied text = withLineEnds p.newLine (p.unix.copied text) :=
  congrArg (withLineEnds p.newLine) (withLineEnds_lineFeed text).symm

theorem lineStart_unix (depth : Nat) :
    p.lineStart depth = withLineEnds p.newLine (p.unix.lineStart depth) := by
  change _ = withLineEnds p.newLine ('\n' :: p.indent.level depth)
  rw [withLineEnds_lineFeed_cons, withLineEnds_oneLine (oneLine_level p.indent depth)]
  rfl

theorem endTag_unix {tag : Tag} (ht : tag.Legible) :
    endTag tag = withLineEnds p.newLine (endTag tag) :=
  (withLineEnds_oneLine (oneLine_endTag ht.name.1)).symm

theorem startTag_unix (hu : '\n' ∉ p.unescaped) {tag : Tag} (ht : tag.Legible) (ending : TagEnd)
    (depth : Nat) (isRoot inline : Bool) :
    p.startTag tag ending depth isRoot inline =
      withLineEnds p.newLine (p.unix.startTag tag ending depth isRoot inline) := by
  rw [startTag_eq hu ht]
  exact congrArg (withLineEnds p.newLine)
    (print_ending .unix (p.unixContext depth isRoot inline) tag ending).symm

theorem commentBody_of_notMem {content : Chars} (h : '\n' ∉ content) :
    p.commentBody content = p.paddedComment content := by
  rw [commentBody, if_neg (by simpa using h)]
  rfl

theorem commentBody_unix (content : Chars) :
    p.commentBody content = withLineEnds p.newLine (p.unix.commentBody content) := by
  by_cases h : '\n' ∈ content
  · rw [commentBody, commentBody, if_pos (by simpa using h), if_pos (by simpa using h)]
    exact p.copied_unix content
  · have hpadded : '\n' ∉ p.paddedComment content := by
      unfold paddedComment
      split
      · simp
      · simp only [List.mem_append, List.mem_replicate, not_or]
        exact ⟨⟨by simp, fun hm => h ((trim_sublist _).subset hm)⟩, by simp⟩
    have hsame : p.unix.paddedComment content = p.paddedComment content := rfl
    rw [commentBody_of_notMem _ h, commentBody_of_notMem _ h, hsame, withLineEnds_of_notMem hpadded]

theorem rawMarkup_unix (kind : RawKind) (content : Chars) :
    p.rawMarkup kind content = withLineEnds p.newLine (p.unix.rawMarkup kind content) := by
  cases kind with
  | comment =>
    change commentOpen ++ p.commentBody content ++ commentClose =
      withLineEnds p.newLine (commentOpen ++ p.unix.commentBody content ++ commentClose)
    rw [withLineEnds_append, withLineEnds_append, ← p.commentBody_unix,
      withLineEnds_oneLine oneLine_comment.1, withLineEnds_oneLine oneLine_comment.2]
  | cdata =>
    change cdataOpen ++ p.copied content ++ cdataClose =
      withLineEnds p.newLine (cdataOpen ++ p.unix.copied content ++ cdataClose)
    rw [withLineEnds_append, withLineEnds_append, ← p.copied_unix,
      withLineEnds_oneLine oneLine_cdata.1, withLineEnds_oneLine oneLine_cdata.2]
  | instruction => exact p.copied_unix content
  | doctype => exact p.copied_unix content

end Printer

section Printing

variable (p : Printer)

theorem Printer.blockStart_unix (depth : Nat) (top : Bool) (state : BlockState) :
    (if !state.fresh && state.lineBreaks ≥ 2 then p.newLine else []) =
        withLineEnds p.newLine
          (if !state.fresh && state.lineBreaks ≥ 2 then p.unix.newLine else []) ∧
      (if state.fresh && top then p.indent.level depth else p.lineStart depth) =
        withLineEnds p.newLine
          (if state.fresh && top then p.unix.indent.level depth else p.unix.lineStart depth) := by
  constructor
  · split_ifs
    · exact (withLineEnds_lineBreak _).symm
    · rfl
  · split_ifs
    · exact (withLineEnds_oneLine (oneLine_level p.indent depth)).symm
    · exact p.lineStart_unix depth

theorem Printer.region_unix (opens : Bool) (start stop : Nat) :
    (if opens then p.copiedSource start stop else []) =
      withLineEnds p.newLine (if opens then p.unix.copiedSource start stop else []) := by
  split_ifs
  · exact p.copied_unix _
  · rfl

mutual

/-- A node is printed with other line ends and otherwise the same. -/
theorem Node.print_unix (hu : '\n' ∉ p.unescaped) :
    ∀ (n : Node) (depth : Nat) (isRoot inline : Bool), (∀ t ∈ n.tags, t.Legible) →
      n.print p depth isRoot inline =
        withLineEnds p.newLine (n.print p.unix depth isRoot inline)
  | .text value _, _, _, _, _ =>
    (withLineEnds_oneLine (oneLine_escapeText (oneLine_runningValue value false false))).symm
  | .raw kind content _, _, _, _, _ => p.rawMarkup_unix kind content
  | .element tag children, depth, isRoot, inline, h => by
    rw [Node.tags, List.forall_mem_cons] at h
    obtain ⟨ht, hchildren⟩ := h
    have hstart := p.startTag_unix hu ht
    have hend := p.endTag_unix ht
    have hsettings : p.unix.settings.removeEndTagOfEmptyElement =
        p.settings.removeEndTagOfEmptyElement := rfl
    rw [Node.print, Node.print, hsettings]
    split
    · rename_i content _
      rw [hstart, Printer.copiedSource, p.copied_unix, withLineEnds_append, withLineEnds_append,
        ← hend]
      rfl
    · have hblock := printBlock_unix hu children (depth + 1) (Printer.contentEnd tag) false
        ⟨true, 0, false⟩ hchildren
      by_cases hblank : children.all Node.isBlank = true
      · rw [if_pos hblank, if_pos hblank]
        split_ifs
        · exact hstart _ _ _ _
        · rw [withLineEnds_append, ← hstart, ← hend]
      · rw [if_neg hblank, if_neg hblank]
        by_cases hinline : (inline || children.any Node.isSignificant) = true
        · rw [if_pos hinline, if_pos hinline, withLineEnds_append, withLineEnds_append, ← hstart,
            ← hend, ← printInline_unix hu children _ _ _ _ hchildren]
        · rw [if_neg hinline, if_neg hinline, hblock]
          generalize printBlock p.unix (depth + 1) _ _ _ _ = block
          obtain ⟨text, _ | _⟩ := block
          · simp only [Prod.map, id, Bool.false_eq_true, if_false, withLineEnds_append, ← hstart,
              ← hend, ← p.lineStart_unix]
          · simp only [Prod.map, id, if_true, withLineEnds_append, ← hstart, ← hend,
              withLineEnds_nil]

theorem printBlock_unix (hu : '\n' ∉ p.unescaped) :
    ∀ (ns : List Node) (depth contentEnd : Nat) (top : Bool) (state : BlockState),
      (∀ t ∈ tagsList ns, t.Legible) →
      printBlock p depth contentEnd top state ns =
        (printBlock p.unix depth contentEnd top state ns).map (withLineEnds p.newLine) id
  | [], _, _, _, _, _ => rfl
  | n :: ns, depth, contentEnd, top, ⟨fresh, breaks, suppressed⟩, h => by
    rw [tagsList, List.forall_mem_append] at h
    obtain ⟨hn, hns⟩ := h
    have hrest := fun state => printBlock_unix hu ns depth contentEnd top state hns
    cases suppressed with
    | true =>
      rw [printBlock_of_suppressed, printBlock_of_suppressed]
      exact hrest _
    | false =>
      cases hb : n.isBlank with
      | true =>
        rw [printBlock_of_isBlank _ _ _ _ _ _ hb, printBlock_of_isBlank _ _ _ _ _ _ hb]
        exact hrest _
      | false =>
        obtain ⟨hgap, hstart⟩ := p.blockStart_unix depth top ⟨fresh, breaks, false⟩
        rw [printBlock_node _ _ _ _ _ _ hb, printBlock_node _ _ _ _ _ _ hb, hrest, hgap, hstart,
          p.region_unix, n.print_unix hu depth top false hn]
        simp only [Prod.map, withLineEnds_append, id]

theorem printInline_unix (hu : '\n' ∉ p.unescaped) :
    ∀ (ns : List Node) (depth contentEnd : Nat) (isFirst suppressed : Bool),
      (∀ t ∈ tagsList ns, t.Legible) →
      printInline p depth contentEnd isFirst suppressed ns =
        withLineEnds p.newLine (printInline p.unix depth contentEnd isFirst suppressed ns)
  | [], _, _, _, _, _ => rfl
  | n :: ns, depth, contentEnd, isFirst, suppressed, h => by
    rw [tagsList, List.forall_mem_append] at h
    obtain ⟨hn, hns⟩ := h
    have hrest := fun suppressed => printInline_unix hu ns depth contentEnd false suppressed hns
    cases suppressed with
    | true =>
      rw [printInline_suppressed, printInline_suppressed]
      exact hrest _
    | false =>
      by_cases htext : ∃ value span, n = .text value span
      · obtain ⟨value, span, rfl⟩ := htext
        rw [printInline_text, printInline_text, withLineEnds_append, ← hrest]
        exact congrArg (· ++ _) (Printer.runningText_eq value isFirst ns.isEmpty)
      · have hne := fun value span hn => htext ⟨value, span, hn⟩
        rw [printInline_node _ _ _ _ hne, printInline_node _ _ _ _ hne, withLineEnds_append,
          withLineEnds_append, ← p.region_unix, ← n.print_unix hu _ _ _ hn, ← hrest]

end

end Printing

theorem trimXmlEnd_withLineEnds_self {newLine : Chars}
    (hn : newLine = ['\n'] ∨ newLine = ['\r', '\n']) (s : Chars) :
    trimXmlEnd (withLineEnds newLine s) = withLineEnds newLine (trimXmlEnd s) := by
  have h := trimXmlEnd_withLineEnds (a := ['>']) (s := s) hn rfl
  rw [trimXmlEnd_append_of_getLast rfl] at h
  exact List.append_cancel_left h

theorem tagsList_arrangeAllList (s : Settings) (ns : List Node) :
    (tagsList (arrangeAllList s ns)).Perm (tagsList ns) := by
  have h := (familiesList_arrangeAllList (s := s) (g := fun t => t) (fun _ => rfl) none ns).map
    Family.tag
  rw [mapTagsList_id, map_tag_familiesList, List.map_map] at h
  exact h.trans (.of_eq (map_tag_familiesList none ns))

namespace Document

variable {s : Settings} {source : Chars} {d : Document}

theorem print_unix (source : Chars) (dialect : Dialect) (hu : '\n' ∉ dialect.unescaped s)
    (h : ∀ t ∈ d.tags, t.Legible) :
    d.print source s dialect =
      withLineEnds s.newLine (d.print source (s.ending .unix) dialect) := by
  have hblock := printBlock_unix (printer source s dialect) hu d.nodes 0 (byteLength source) true
    ⟨true, 0, false⟩ h
  have hmark : (if d.byteOrderMark then [mark] else []) =
      withLineEnds s.newLine (if d.byteOrderMark then [mark] else []) := by
    split_ifs <;> rfl
  have hnewLine : (if d.trailingNewline then s.newLine else []) =
      withLineEnds s.newLine (if d.trailingNewline then ['\n'] else []) := by
    split_ifs
    · exact (withLineEnds_lineBreak _).symm
    · rfl
  change (if (printBlock (printer source s dialect) _ _ _ _ _).2 then
    trimXmlEnd (_ ++ (printBlock (printer source s dialect) _ _ _ _ _).1) else
      _ ++ (printBlock (printer source s dialect) _ _ _ _ _).1) ++
        (if d.trailingNewline then s.newLine else []) =
    withLineEnds s.newLine ((if (printBlock (printer source s dialect).unix _ _ _ _ _).2 then
      trimXmlEnd (_ ++ (printBlock (printer source s dialect).unix _ _ _ _ _).1) else
        _ ++ (printBlock (printer source s dialect).unix _ _ _ _ _).1) ++
          (if d.trailingNewline then ['\n'] else []))
  rw [hblock, withLineEnds_append, hnewLine]
  generalize printBlock (printer source s dialect).unix _ _ _ _ _ = block
  obtain ⟨text, _ | _⟩ := block
  · simp only [Prod.map, id, Bool.false_eq_true, if_false, withLineEnds_append, ← hmark]
    rfl
  · simp only [Prod.map, id, if_true, ← trimXmlEnd_withLineEnds_self s.newLine_eq,
      withLineEnds_append, ← hmark]
    rfl

theorem legible_applyRules (h : readWith s source = .ok d) :
    ∀ t ∈ (d.applyRules s).tags, t.Legible := by
  obtain ⟨byteOrderMark, parts, hvalid, -, -, hd⟩ := of_readWith h
  have hread : ∀ t ∈ d.tags, t.Legible := by
    rw [hd, tags_mapTags]
    exact List.forall_mem_map.mpr fun t ht =>
      (unread_tags hvalid byteOrderMark t ht).legible.withReadings s
  intro t ht
  have hperm : (d.applyRules s).tags.Perm (d.tags.map (d.tidy s)) := by
    rw [tags, applyRules_nodes_eq]
    exact (tagsList_arrangeAllList s _).trans (.of_eq (tags_mapTags _ d))
  obtain ⟨u, hu, rfl⟩ := List.mem_map.mp (hperm.subset ht)
  exact (recast_tidy s d u).legible (hread u hu)

end Document

/-- Line ends are all that the style of line ends changes: a text that cannot be styled cannot be
styled with the other style either, for the same reason, and otherwise each line feed of the one
output is a carriage return and a line feed in the other. -/
theorem style_windows {s : Settings} {dialect : Dialect} (hs : s.suppressProcessing = false)
    (hu : '\n' ∉ dialect.unescaped s) (text : Chars) :
    style { s with newLineStyle := .windows } dialect text =
      (style { s with newLineStyle := .unix } dialect text).map fun out =>
        out.flatMap fun c => if c = '\n' then ['\r', '\n'] else [c] := by
  change style (s.ending .windows) dialect text = (style (s.ending .unix) dialect text).map _
  have hon (e : NewLineStyle) : (s.ending e).suppressProcessing = false := hs
  have hread (e : NewLineStyle) :
      Document.readWith (s.ending e) (unifyLineEnds text) =
        Document.readWith s (unifyLineEnds text) := rfl
  cases h : Document.readWith s (unifyLineEnds text) with
  | error fault =>
    rw [style_of_readWith_error (hon _) dialect ((hread _).trans h),
      style_of_readWith_error (hon _) dialect ((hread _).trans h)]
    rfl
  | ok d =>
    have hprint := Document.print_unix (s := s.ending .windows) (unifyLineEnds text) dialect hu
      (Document.legible_applyRules h)
    rw [withLineEnds_eq_flatMap] at hprint
    rw [style_of_readWith (hon _) ((hread _).trans h), style_of_readWith (hon _) ((hread _).trans h)]
    simp only [Document.applyRules_ending, Document.inRange_ending]
    split_ifs
    · exact congrArg Except.ok hprint
    · rfl

theorem style_windows_sample :
    '\n' ∉ Dialect.xaml.unescaped Settings.standard ∧
      style { Settings.standard with newLineStyle := .windows } .xaml
        "<A a='&#xA;'>\n<B/></A>\n".toList =
          .ok "<A a=\"&#xA;\">\r\n    <B />\r\n</A>\r\n".toList := by
  have hu : '\n' ∉ Dialect.xaml.unescaped Settings.standard := by decide
  obtain ⟨_, h, rfl⟩ : ∃ out, style { Settings.standard with newLineStyle := .unix } .xaml
      "<A a='&#xA;'>\n<B/></A>\n".toList = .ok out ∧
      out = "<A a=\"&#xA;\">\n    <B />\n</A>\n".toList :=
    exists_ok_of_any (by decide +kernel)
  refine ⟨hu, ?_⟩
  rw [style_windows rfl hu, h]
  exact congrArg Except.ok (by decide)

end XamlFormat
