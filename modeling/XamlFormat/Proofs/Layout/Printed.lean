import XamlFormat.Proofs.Layout.Parts
import XamlFormat.Proofs.Text.Blanks

/-! What the printer writes is the text of the parts as they are laid out, with the line ends of the
output. -/
namespace XamlFormat

open Markup Text StartTag Reference

@[simp] theorem spelledList_textParts (value : Chars) :
    spelledList (textParts value) = Reference.escapeText value := by
  unfold textParts
  split_ifs with h
  · rw [h]
    rfl
  · simp [spelledList, Part.spelled]

theorem escapeText_plain {s : Chars} (h : ∀ c ∈ s, c ≠ '&' ∧ c ≠ '<' ∧ c ≠ '>') :
    Reference.escapeText s = s := by
  induction s with
  | nil => rfl
  | cons c cs ih =>
    obtain ⟨hc, hcs⟩ := List.forall_mem_cons.mp h
    have : Reference.escapeTextChar c = [c] := by
      unfold Reference.escapeTextChar
      split <;> simp_all
    simpa [Reference.escapeText, this] using ih hcs

theorem escapeText_spacing {s : Chars} (h : Spacing s) : Reference.escapeText s = s :=
  escapeText_plain fun c hc => by
    obtain rfl | rfl | rfl := h c hc <;> decide

theorem oneLine_escapeText {s : Chars} (h : OneLine s) : OneLine (Reference.escapeText s) :=
  ⟨fun hm => h.1 (Reference.mem_written Reference.written_escapeTextChar (by decide) hm).1,
    fun hm => h.2 (Reference.mem_written Reference.written_escapeTextChar (by decide) hm).1⟩

theorem mem_collapse {c : Char} {s : Chars} (h : c ∈ collapse s) :
    c = ' ' ∨ isXmlBlank c = false ∧ c ∈ s := by
  induction s using collapse.induct with
  | case1 => simp [collapse] at h
  | case2 d hd => simp_all [collapse]
  | case3 d hd => simp_all [collapse]
  | case4 d e cs hd he ih =>
    rw [collapse, if_pos hd, if_pos he] at h
    exact (ih h).imp id fun h => ⟨h.1, by simp [h.2]⟩
  | case5 d e cs hd he ih =>
    rw [collapse, if_pos hd, if_neg he, List.mem_cons] at h
    obtain rfl | h := h
    · exact .inl rfl
    · exact (ih h).imp id fun h => ⟨h.1, by simp [h.2]⟩
  | case6 d e cs hd ih =>
    rw [collapse, if_neg hd, List.mem_cons] at h
    obtain rfl | h := h
    · exact .inr ⟨by simpa using hd, by simp⟩
    · exact (ih h).imp id fun h => ⟨h.1, by simp [h.2]⟩

theorem oneLine_collapse (s : Chars) : OneLine (collapse s) := by
  constructor
  · intro h
    obtain h | ⟨h, -⟩ := mem_collapse h <;> exact absurd h (by decide)
  · intro h
    obtain h | ⟨h, -⟩ := mem_collapse h <;> exact absurd h (by decide)

theorem runningValue_sublist (value : Chars) (isFirst isLast : Bool) :
    (Printer.runningValue value isFirst isLast).Sublist (collapse value) := by
  unfold Printer.runningValue
  cases isFirst <;> cases isLast
  · exact List.Sublist.refl _
  · exact trimEnd_sublist _
  · exact trimStart_sublist _
  · exact (trimStart_sublist _).trans (trimEnd_sublist _)

theorem oneLine_runningValue (value : Chars) (isFirst isLast : Bool) :
    OneLine (Printer.runningValue value isFirst isLast) :=
  (oneLine_collapse value).sublist (runningValue_sublist value isFirst isLast)

namespace Printer

variable {p : Printer}

theorem oneLine_paddedComment {content : Chars} (h : OneLine content) :
    OneLine (p.paddedComment content) := by
  have htrim : OneLine (trim content) :=
    h.sublist ((trimEnd_sublist _).trans (trimStart_sublist _))
  have spaces := oneLine_replicate (c := ' ') (by decide) (by decide)
  unfold paddedComment
  split
  · exact ⟨by simp, by simp⟩
  · exact oneLine_append.mpr ⟨oneLine_append.mpr ⟨spaces _, htrim⟩, spaces _⟩

theorem commentBody_eq {content : Chars} (hr : '\r' ∉ content) :
    p.commentBody content = withLineEnds p.newLine (p.rawContent .comment content) := by
  by_cases h : '\n' ∈ content
  · simp [commentBody, rawContent, h, copied]
  · have hone : OneLine (p.paddedComment content) := oneLine_paddedComment ⟨h, hr⟩
    simp only [commentBody, rawContent, List.contains_eq_mem, h, decide_false, Bool.false_eq_true,
      if_false, Bool.not_false, and_self, if_true, withLineEnds_oneLine hone]
    rfl

theorem oneLine_cdata : OneLine cdataOpen ∧ OneLine cdataClose := by
  rw [cdataOpen_eq, cdataClose_eq]
  exact ⟨⟨by decide, by decide⟩, ⟨by decide, by decide⟩⟩

theorem oneLine_comment : OneLine commentOpen ∧ OneLine commentClose := by
  rw [commentOpen_eq, commentClose_eq]
  exact ⟨⟨by decide, by decide⟩, ⟨by decide, by decide⟩⟩

theorem rawMarkup_eq (kind : RawKind) {content : Chars} (hr : '\r' ∉ content) :
    p.rawMarkup kind content = withLineEnds p.newLine (kind.markup (p.rawContent kind content)) := by
  cases kind with
  | comment =>
    change commentOpen ++ p.commentBody content ++ commentClose = _
    rw [RawKind.markup, withLineEnds_append, withLineEnds_append, commentBody_eq hr,
      withLineEnds_oneLine oneLine_comment.1, withLineEnds_oneLine oneLine_comment.2,
      List.append_assoc]
  | cdata =>
    change cdataOpen ++ p.copied content ++ cdataClose = _
    rw [RawKind.markup, withLineEnds_append, withLineEnds_append,
      withLineEnds_oneLine oneLine_cdata.1, withLineEnds_oneLine oneLine_cdata.2,
      List.append_assoc]
    rfl
  | instruction => rfl
  | doctype => rfl

theorem oneLine_endTag {tag : Tag} (h : IsName tag.name.written) : OneLine (endTag tag) := by
  have hname := oneLine_of_isName h
  constructor
  · simpa [endTag] using hname.1
  · simpa [endTag] using hname.2

theorem runningText_eq (value : Chars) (isFirst isLast : Bool) :
    runningText value isFirst isLast =
      withLineEnds p.newLine (Reference.escapeText (runningValue value isFirst isLast)) := by
  rw [withLineEnds_oneLine (oneLine_escapeText (oneLine_runningValue _ _ _))]
  rfl

theorem startTag_eq (hu : '\n' ∉ p.unescaped) {tag : Tag} (ht : tag.Legible)
    (ending : TagEnd) (depth : Nat) (isRoot inline : Bool) :
    p.startTag tag ending depth isRoot inline =
      withLineEnds p.newLine (StartTag.print (p.unixContext depth isRoot inline) tag ending) :=
  have hctx : '\n' ∉ (p.tagContext depth isRoot inline).unescaped := hu
  (print_unix hctx ht.name.1 (fun a ha => (ht.attributes a ha).1) ending).symm

theorem spacing_lineStart (depth : Nat) : Spacing ('\n' :: p.indent.level depth) :=
  spacing_append (s := ['\n']) (by simp [Spacing]) (spacing_level p.indent depth)

theorem spacing_blockGap (depth : Nat) (top : Bool) (state : BlockState) :
    Spacing (p.blockGap depth top state) := by
  unfold blockGap
  refine spacing_append ?_ ?_
  · split_ifs <;> simp [Spacing]
  · split_ifs
    · exact spacing_level p.indent depth
    · exact spacing_lineStart depth

end Printer

theorem isBlank_of_mem_textParts {gap : Chars} (hg : Spacing gap) {t : Part}
    (ht : t ∈ textParts gap) : t.isBlank = true := by
  unfold textParts at ht
  split_ifs at ht
  · simp at ht
  · rw [List.mem_singleton.mp ht]
    exact List.all_eq_true.mpr hg.blanks

section BlockEnd

variable {p : Printer} {depth : Nat} {isOpen : Bool}

theorem Printer.isBlank_of_mem_blockEnd : ∀ t ∈ p.blockEnd depth isOpen, t.isBlank = true :=
  fun _ ht => isBlank_of_mem_textParts (spacing_lineStart depth) (List.mem_ite_nil_left.mp ht).2

theorem Printer.isText_of_mem_blockEnd : ∀ t ∈ p.blockEnd depth isOpen, t.isText = true :=
  fun t ht => Part.isText_of_isBlank (isBlank_of_mem_blockEnd t ht)

end BlockEnd

theorem spelled_element (ctx : TagContext) (tag : Tag) (ending : TagEnd) (children : List Part)
    (closing : Chars) :
    (Printer.element ctx tag ending children closing).spelled =
      StartTag.print ctx tag ending ++ (spelledList children ++ closing) := rfl

theorem withLineEnds_blockGap (p : Printer) (depth : Nat) (top : Bool) (state : BlockState) :
    withLineEnds p.newLine (escapeText (p.blockGap depth top state)) =
      (if !state.fresh && state.lineBreaks ≥ 2 then p.newLine else []) ++
        if state.fresh && top then p.indent.level depth else p.lineStart depth := by
  rw [escapeText_spacing (Printer.spacing_blockGap _ _ _), Printer.blockGap, withLineEnds_append]
  have hlevel : withLineEnds p.newLine (p.indent.level depth) = p.indent.level depth :=
    withLineEnds_oneLine (oneLine_level p.indent depth)
  congr 1
  · split_ifs
    · exact withLineEnds_lineBreak _
    · rfl
  · split_ifs
    · exact hlevel
    · rw [withLineEnds_lineFeed_cons, hlevel]
      rfl

theorem withLineEnds_blockEnd (p : Printer) (depth : Nat) (isOpen : Bool) :
    withLineEnds p.newLine (spelledList (p.blockEnd depth isOpen)) =
      if isOpen then [] else p.lineStart depth := by
  unfold Printer.blockEnd
  split_ifs
  · rfl
  · rw [spelledList_textParts, escapeText_spacing (Printer.spacing_lineStart depth),
      withLineEnds_lineFeed_cons, withLineEnds_oneLine (oneLine_level p.indent depth)]
    rfl

theorem withLineEnds_regionText (p : Printer) (q : Part) (qs : List Part) :
    withLineEnds p.newLine (regionText (q :: qs)) = withLineEnds p.newLine q.spelled ++
      if q.regionAfter true then withLineEnds p.newLine (regionText qs) else [] := by
  rw [regionText, withLineEnds_append]
  by_cases hon : q.marker? = some .on
  · simp [Part.regionAfter, hon]
  · simp [Part.regionAfter, hon]

theorem copiedSource_region (p : Printer) {q : Part} {qs : List Part} {start stop : Nat}
    (h : q.marker? = some .off → slice p.source start stop = regionText qs) :
    (if q.regionAfter false then withLineEnds p.newLine (regionText qs) else []) =
      if q.marker? == some .off then p.copiedSource start stop else [] := by
  have hregion : q.regionAfter false = (q.marker? == some .off) := rfl
  rw [hregion]
  split_ifs with hoff
  · rw [Printer.copiedSource, h (by simpa using hoff)]
    rfl
  · rfl

mutual

/-- A node prints as the text of its part as it is laid out. -/
theorem Part.print_eq (p : Printer) (hu : EscapesLineEnds p.unescaped) :
    ∀ (q : Part) (n : Node) (depth nest : Nat) (isRoot inline : Bool), q.Alike n →
      q.Shown p.source n → q.Ready nest →
      n.print p depth isRoot inline =
        withLineEnds p.newLine (q.layout p depth isRoot inline).spelled
  | .text spelling value, n, depth, nest, isRoot, inline, ha, _, _ => by
    cases n with
    | text v s =>
      cases ha
      exact Printer.runningText_eq _ _ _
    | raw | element => exact ha.elim
  | .raw kind content, n, depth, nest, isRoot, inline, ha, _, hr => by
    cases n with
    | raw k c s =>
      obtain ⟨rfl, rfl⟩ := ha
      exact Printer.rawMarkup_eq _ hr.2
    | text | element => exact ha.elim
  | .element opening tag children closing, n, depth, nest, isRoot, inline, ha, hs, hr => by
    cases n with
    | text | raw => exact ha.elim
    | element t ns =>
      obtain rfl : t = tag := hs.1
      have ht : t.Legible := hr.2.1
      have hstart := fun ending => Printer.startTag_eq hu.2.1 ht ending depth isRoot inline
      have hend : withLineEnds p.newLine (Printer.endTag t) = Printer.endTag t :=
        withLineEnds_oneLine (Printer.oneLine_endTag ht.name.1)
      obtain ⟨out, hlaid⟩ := p.exists_laysOut depth isRoot inline t children
      rw [hlaid.layout_eq]
      cases hlaid with
      | copied hp =>
        obtain ⟨-, hs⟩ := hs
        rw [if_pos hp] at hs
        obtain ⟨content, hc, hslice⟩ := hs
        simp only [Node.print, hc, hstart, spelled_element, withLineEnds_append, hend,
          Printer.copiedSource, Printer.copied, hslice]
      | selfClosed hp hb he =>
        obtain ⟨hnone, hs⟩ := hs.children hp
        simp only [Node.print, hnone, all_isBlank_eq hs.alike, hb, he, if_true, hstart,
          spelled_element, spelledList, List.append_nil]
      | empty hp hb he =>
        obtain ⟨hnone, hs⟩ := hs.children hp
        simp only [Node.print, hnone, all_isBlank_eq hs.alike, hb, he, if_true, Bool.false_eq_true,
          if_false, hstart, spelled_element, spelledList, List.nil_append, withLineEnds_append,
          hend]
      | running hp hb hi =>
        obtain ⟨hnone, hs⟩ := hs.children (by simp [hp])
        have hinner := printInline_eq p hu children ns depth (nest + 1) _ true false hs
          (hr.children (by simp [hp]))
        simp only [Bool.false_eq_true, if_false, List.nil_append] at hinner
        simp only [Node.print, hnone, all_isBlank_eq hs.alike, any_isSignificant_eq hs.alike, hb,
          hi, Bool.false_eq_true, if_false, if_true, hstart, spelled_element, withLineEnds_append,
          hend, hinner]
      | block hp hb hi hsig =>
        obtain ⟨hnone, hs⟩ := hs.children (by simp [hp])
        obtain ⟨hinner, hopen⟩ := printBlock_eq p hu children ns (depth + 1) (nest + 1) _ false
          ⟨true, 0, false⟩ hs (hr.children (by simp [hp]))
        simp only [Bool.false_eq_true, if_false, List.nil_append] at hinner
        subst hi
        simp only [Node.print, hnone, all_isBlank_eq hs.alike, any_isSignificant_eq hs.alike, hb,
          hsig, Bool.or_self, Bool.false_eq_true, if_false, hstart, spelled_element,
          withLineEnds_append, hend, spelledList_append, hinner, withLineEnds_blockEnd, hopen,
          List.append_assoc]

theorem printBlock_eq (p : Printer) (hu : EscapesLineEnds p.unescaped) :
    ∀ (qs : List Part) (ns : List Node) (depth nest contentEnd : Nat) (top : Bool)
      (state : BlockState), ShownList p.source contentEnd state.suppressed qs ns →
      ReadyList nest state.suppressed qs →
      withLineEnds p.newLine (spelledList (layoutBlock p depth top state qs).1) =
        (if state.suppressed then withLineEnds p.newLine (regionText qs) else []) ++
          (printBlock p depth contentEnd top state ns).1 ∧
      (layoutBlock p depth top state qs).2 = (printBlock p depth contentEnd top state ns).2
  | [], ns, depth, nest, contentEnd, top, state, hs, _ => by
    cases ns with
    | cons => exact hs.elim
    | nil =>
      rw [layoutBlock, printBlock]
      simp [spelledList, regionText]
  | q :: qs, ns, depth, nest, contentEnd, top, ⟨fresh, breaks, suppressed⟩, hs, hr => by
    cases ns with
    | nil => exact hs.elim
    | cons n ns =>
      obtain ⟨ha, hnode, hrest⟩ := hs
      obtain ⟨hq, -, hready⟩ := hr
      have hfollowing := fun fresh breaks => printBlock_eq p hu qs ns depth nest contentEnd top
        ⟨fresh, breaks, q.regionAfter suppressed⟩ hrest hready
      cases suppressed with
      | true =>
        obtain ⟨htext, hopen⟩ := hfollowing fresh breaks
        rw [layoutBlock_of_suppressed, printBlock_of_suppressed, ha.marker?_eq]
        refine ⟨?_, hopen⟩
        rw [spelledList, withLineEnds_append, htext, if_pos rfl, withLineEnds_regionText,
          List.append_assoc]
        rfl
      | false =>
        obtain ⟨hshown, hslice⟩ := hnode rfl
        cases hb : q.isBlank with
        | true =>
          have hstep := hfollowing fresh q.lineBreaks
          rw [regionAfter_of_isText (Part.isText_of_isBlank hb)] at hstep
          rwa [layoutBlock_of_isBlank _ _ _ _ hb,
            printBlock_of_isBlank _ _ _ _ _ _ (ha.isBlank_eq.trans hb), ha.lineBreaks_eq]
        | false =>
          obtain ⟨htext, hopen⟩ := hfollowing false 0
          rw [layoutBlock_node _ _ _ _ hb,
            printBlock_node _ _ _ _ _ _ (ha.isBlank_eq.trans hb), ha.marker?_eq]
          refine ⟨?_, hopen⟩
          rw [spelledList_append, spelledList_textParts, withLineEnds_append,
            withLineEnds_blockGap, spelledList, withLineEnds_append, htext,
            copiedSource_region p hslice, Part.print_eq p hu q n depth nest top false ha hshown hq]
          simp only [Bool.false_eq_true, if_false, List.nil_append, List.append_assoc]
          rfl

theorem printInline_eq (p : Printer) (hu : EscapesLineEnds p.unescaped) :
    ∀ (qs : List Part) (ns : List Node) (depth nest contentEnd : Nat) (isFirst suppressed : Bool),
      ShownList p.source contentEnd suppressed qs ns → ReadyList nest suppressed qs →
      withLineEnds p.newLine (spelledList (layoutInline p depth isFirst suppressed qs)) =
        (if suppressed then withLineEnds p.newLine (regionText qs) else []) ++
          printInline p depth contentEnd isFirst suppressed ns
  | [], ns, depth, nest, contentEnd, isFirst, suppressed, hs, _ => by
    cases ns with
    | cons => exact hs.elim
    | nil =>
      rw [layoutInline, printInline]
      simp [spelledList, regionText]
  | q :: qs, ns, depth, nest, contentEnd, isFirst, suppressed, hs, hr => by
    cases ns with
    | nil => exact hs.elim
    | cons n ns =>
      obtain ⟨ha, hnode, hrest⟩ := hs
      obtain ⟨hq, -, hready⟩ := hr
      have htext := printInline_eq p hu qs ns depth nest contentEnd false
        (q.regionAfter suppressed) hrest hready
      cases suppressed with
      | true =>
        rw [layoutInline_suppressed, printInline_suppressed, ha.marker?_eq, if_pos rfl,
          withLineEnds_regionText, List.append_assoc, spelledList, withLineEnds_append]
        exact congrArg _ htext
      | false =>
        obtain ⟨hshown, hslice⟩ := hnode rfl
        have hprint := Part.print_eq p hu q n (depth + 1) nest false true ha hshown hq
        rw [copiedSource_region p hslice] at htext
        obtain ⟨spelling, value, rfl⟩ | htext? := q.eq_text_or
        · cases n with
          | raw | element => exact ha.elim
          | text v span =>
            cases ha
            rw [layoutInline_text, printInline_text, spelledList_append, spelledList_textParts,
              withLineEnds_append, isEmpty_eq hrest.alike, ← Printer.runningText_eq]
            exact congrArg _ htext
        · rw [layoutInline_node p depth isFirst htext?, printInline_node _ _ _ _ (ha.ne_text htext?),
            ha.marker?_eq, spelledList, withLineEnds_append, htext, hprint]
          rfl

end

end XamlFormat
