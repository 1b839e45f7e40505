import XamlFormat.Proofs.Layout.Comments

/-! Parts that are laid out are valid: the reader takes what is printed, and reads it as these
parts. -/
namespace XamlFormat

open Markup Text StartTag Reference

section Texts

theorem valid_text {value : Chars} (h : value ≠ []) (depth : Nat) :
    (Part.text (escapeText value) value).Valid depth := by
  refine ⟨fun he => h ?_, notMem_escapeText_of_mem (by simp) value, decode_escapeText value⟩
  have hdecode := decode_escapeText value
  rw [he, decode_nil] at hdecode
  exact (Except.ok.inj hdecode).symm

theorem headText_append {ps qs : List Part} (h : ps ≠ []) :
    Part.headText (ps ++ qs) = Part.headText ps := by
  cases ps with
  | nil => exact absurd rfl h
  | cons => rfl

theorem validList_textParts {depth : Nat} (value : Chars) {ps : List Part}
    (hp : ValidList depth ps) (ht : Part.headText ps = false) :
    ValidList depth (textParts value ++ ps) := by
  unfold textParts
  split_ifs with hv
  · exact hp
  · exact ⟨valid_text hv depth, fun _ => ht, hp⟩

end Texts

theorem valid_element {ctx : TagContext} (hn : ctx.newLine = ['\n'])
    (hu : EscapesLineEnds ctx.unescaped) {tag : Tag} (ht : tag.Legible) {depth : Nat}
    (hd : depth ≤ maxDepth) {children : List Part} (hc : ValidList (depth + 1) children) :
    (Printer.element ctx tag .opening children (Printer.endTag tag)).Valid depth := by
  refine ⟨hd, spelled_fresh hn hu ht _, ?_, fun _ => ?_, hc⟩
  · simp
  · rw [name_fresh ht]
    exact ⟨[], by simp, by simp [Printer.endTag]⟩

theorem valid_element_selfClosing {ctx : TagContext} (hn : ctx.newLine = ['\n'])
    (hu : EscapesLineEnds ctx.unescaped) {tag : Tag} (ht : tag.Legible) {depth : Nat}
    (hd : depth ≤ maxDepth) :
    (Printer.element ctx tag .selfClosing [] []).Valid depth :=
  ⟨hd, spelled_fresh hn hu ht _, fun _ => ⟨rfl, rfl⟩, by simp, trivial⟩

theorem headText_layoutBlock_region (p : Printer) (depth : Nat) (top fresh : Bool) (breaks : Nat)
    (qs : List Part) :
    Part.headText (layoutBlock p depth top ⟨fresh, breaks, true⟩ qs).1 = Part.headText qs := by
  cases qs with
  | nil => rfl
  | cons q qs =>
    rw [layoutBlock_of_suppressed]
    rfl

theorem isText_layout (p : Printer) (depth : Nat) (isRoot inline : Bool) {q : Part}
    (h : q.isText = false) : (q.layout p depth isRoot inline).isText = false := by
  cases q with
  | text => simp [Part.isText] at h
  | raw => rfl
  | element opening tag children closing =>
    obtain ⟨_, _, _, he⟩ := Part.exists_layout p depth isRoot inline tag children opening closing
    rw [he]
    rfl

/-- Running texts stand next to each other only where they did before. -/
theorem headText_layoutInline (p : Printer) (depth : Nat) (isFirst suppressed : Bool)
    (qs : List Part) (h : Part.headText qs = false) :
    Part.headText (layoutInline p depth isFirst suppressed qs) = false := by
  cases qs with
  | nil => rfl
  | cons q qs =>
    cases suppressed with
    | true =>
      rw [layoutInline_suppressed]
      exact h
    | false =>
      have hq : q.isText = false := h
      rw [layoutInline_node p depth isFirst hq]
      exact isText_layout p (depth + 1) false true hq

theorem validList_blockEnd (p : Printer) (depth nest : Nat) (isOpen : Bool) :
    ValidList nest (p.blockEnd depth isOpen) := by
  cases isOpen with
  | true => trivial
  | false =>
    have hline : ValidList nest (textParts ('\n' :: p.indent.level depth) ++ []) :=
      validList_textParts _ trivial rfl
    rwa [List.append_nil] at hline

theorem notMem_doctype {q : Part} {qs : List Part}
    (h : ∀ content, .raw .doctype content ∉ q :: qs) :
    (∀ content, q ≠ .raw .doctype content) ∧ ∀ content, .raw .doctype content ∉ qs :=
  ⟨fun content hq => h content (by simp [hq]), fun content hm => h content (by simp [hm])⟩

theorem Part.Fits.valid {depth : Nat} {q : Part} (h : q.Fits depth)
    (hd : ∀ content, q ≠ .raw .doctype content) : q.Valid depth := by
  obtain h | ⟨content, rfl, -⟩ := h
  · exact h
  · exact absurd rfl (hd content)

mutual

/-- A part that is ready to be laid out gives a valid one. -/
theorem Part.valid_layout (p : Printer) (hu : EscapesLineEnds p.unescaped) :
    ∀ (q : Part) (depth nest : Nat) (isRoot inline : Bool), q.isText = false →
      q.Ready nest → (∀ content, q ≠ .raw .doctype content) →
      (q.layout p depth isRoot inline).Valid nest
  | .text spelling value, depth, nest, isRoot, inline, ht, _, _ => by
    simp [Part.isText] at ht
  | .raw kind content, depth, nest, isRoot, inline, _, hr, hd => by
    rw [Part.layout]
    exact ⟨fun hk => hd content (by rw [hk]), p.closed_rawContent hr.1⟩
  | .element opening tag children closing, depth, nest, isRoot, inline, _, hr, _ => by
    have ⟨hd, ht, _, hdoc, _⟩ := hr
    have hctx : EscapesLineEnds (p.unixContext depth isRoot inline).unescaped := hu
    have hopening {cs : List Part} (hcs : ValidList (nest + 1) cs) :=
      valid_element rfl hctx ht hd hcs
    obtain ⟨out, hlaid⟩ := p.exists_laysOut depth isRoot inline tag children
    rw [hlaid.layout_eq]
    cases hlaid with
    | copied hp => exact hopening (hr.copied hp).1
    | selfClosed => exact valid_element_selfClosing rfl hctx ht hd
    | empty => exact hopening trivial
    | running hp =>
      exact hopening (validList_layoutInline p hu children depth (nest + 1) true false
        (hr.children (by simp [hp])) hdoc)
    | block hp _ _ hs =>
      refine hopening (validList_layoutBlock p hu children (depth + 1) (nest + 1) false
        ⟨true, 0, false⟩ (hr.children (by simp [hp])) hdoc (by simpa using hs) _ ?_ fun hopen => ?_)
      · exact validList_blockEnd p depth (nest + 1) _
      · rw [hopen]
        rfl

/-- The siblings of a block without running text give valid siblings, whatever follows them. -/
theorem validList_layoutBlock (p : Printer) (hu : EscapesLineEnds p.unescaped) :
    ∀ (qs : List Part) (depth nest : Nat) (top : Bool) (state : BlockState),
      ReadyList nest state.suppressed qs → (∀ content, .raw .doctype content ∉ qs) →
      (∀ q ∈ qs, q.isSignificant = false) →
      ∀ tail, ValidList nest tail →
        ((layoutBlock p depth top state qs).2 = true → Part.headText tail = false) →
        ValidList nest ((layoutBlock p depth top state qs).1 ++ tail)
  | [], depth, nest, top, state, _, _, _, tail, htail, _ => by
    rw [layoutBlock]
    exact htail
  | q :: qs, depth, nest, top, ⟨fresh, breaks, suppressed⟩, hr, hdoc, hsig, tail, htail, hopen => by
    obtain ⟨hq, htext, hrest⟩ := hr
    obtain ⟨hdocq, hdoc⟩ := notMem_doctype hdoc
    obtain ⟨hsigq, hsig⟩ := List.forall_mem_cons.mp hsig
    have hfollowing := fun fresh breaks => validList_layoutBlock p hu qs depth nest top
      ⟨fresh, breaks, q.regionAfter suppressed⟩ hrest hdoc hsig tail htail
    cases suppressed with
    | true =>
      rw [layoutBlock_of_suppressed] at hopen ⊢
      rw [List.cons_append]
      refine ⟨hq.1.valid hdocq, fun hqt => ?_, hfollowing fresh breaks hopen⟩
      -- a text ends no region, so what follows it is copied too
      rw [regionAfter_of_isText hqt] at hopen ⊢
      cases qs with
      | nil => exact hopen rfl
      | cons r rs =>
        rw [headText_append, headText_layoutBlock_region]
        · exact htext hqt
        · rw [layoutBlock_of_suppressed]
          simp
    | false =>
      cases hb : q.isBlank with
      | true =>
        have hstep := hfollowing fresh q.lineBreaks
        rw [regionAfter_of_isText (Part.isText_of_isBlank hb)] at hstep
        rw [layoutBlock_of_isBlank _ _ _ _ hb] at hopen ⊢
        exact hstep hopen
      | false =>
        rw [layoutBlock_node _ _ _ _ hb] at hopen ⊢
        have hqt := Part.isText_eq_false (fun ht => Part.isBlank_of_isText ht hsigq) hb
        have hlayout := isText_layout p depth top false hqt
        rw [List.append_assoc, List.cons_append]
        refine validList_textParts _ ⟨?_, ?_, hfollowing false 0 hopen⟩ hlayout
        · exact Part.valid_layout p hu q depth nest top false hqt hq hdocq
        · simp [hlayout]

theorem validList_layoutInline (p : Printer) (hu : EscapesLineEnds p.unescaped) :
    ∀ (qs : List Part) (depth nest : Nat) (isFirst suppressed : Bool),
      ReadyList nest suppressed qs → (∀ content, .raw .doctype content ∉ qs) →
      ValidList nest (layoutInline p depth isFirst suppressed qs)
  | [], depth, nest, isFirst, suppressed, _, _ => by
    rw [layoutInline]
    trivial
  | q :: qs, depth, nest, isFirst, suppressed, hr, hdoc => by
    obtain ⟨hq, htext, hrest⟩ := hr
    obtain ⟨hdocq, hdoc⟩ := notMem_doctype hdoc
    cases suppressed with
    | true =>
      rw [layoutInline_suppressed]
      have hfollowing := validList_layoutInline p hu qs depth nest false _ hrest hdoc
      exact ⟨hq.1.valid hdocq, fun hqt => headText_layoutInline p depth _ _ qs (htext hqt), hfollowing⟩
    | false =>
      have hfollowing := validList_layoutInline p hu qs depth nest false _ hrest hdoc
      obtain ⟨spelling, value, rfl⟩ | hqt := q.eq_text_or
      · rw [layoutInline_text]
        exact validList_textParts _ hfollowing
          (headText_layoutInline p depth _ _ qs (htext rfl))
      · have hlayout := isText_layout p (depth + 1) false true hqt
        rw [layoutInline_node p depth isFirst hqt]
        refine ⟨?_, ?_, hfollowing⟩
        · exact Part.valid_layout p hu q (depth + 1) nest false true hqt hq hdocq
        · simp [hlayout]

end

theorem notMem_spacing {s : Chars} (h : Spacing s) : '\r' ∉ escapeText s := by
  rw [escapeText_spacing h]
  exact h.notMem (by decide)

theorem notMem_blockEnd (p : Printer) (depth : Nat) (isOpen : Bool) :
    '\r' ∉ spelledList (p.blockEnd depth isOpen) := by
  unfold Printer.blockEnd
  split_ifs
  · simp [spelledList]
  · rw [spelledList_textParts]
    exact notMem_spacing (Printer.spacing_lineStart depth)

mutual

theorem Part.notMem_layout (p : Printer) (hu : EscapesLineEnds p.unescaped) :
    ∀ (q : Part) (depth nest : Nat) (isRoot inline : Bool), q.Ready nest →
      '\r' ∉ (q.layout p depth isRoot inline).spelled
  | .text spelling value, depth, nest, isRoot, inline, _ => by
    rw [Part.layout]
    exact (oneLine_escapeText (oneLine_runningValue value false false)).2
  | .raw kind content, depth, nest, isRoot, inline, hr => by
    rw [Part.layout]
    exact RawKind.notMem_markup (p.notMem_rawContent hr.2)
  | .element opening tag children closing, depth, nest, isRoot, inline, hr => by
    have ht : tag.Legible := hr.2.1
    have hctx : EscapesLineEnds (p.unixContext depth isRoot inline).unescaped := hu
    have hstart := notMem_print rfl hctx ht
    have hend := (Printer.oneLine_endTag ht.name.1).2
    obtain ⟨out, hlaid⟩ := p.exists_laysOut depth isRoot inline tag children
    rw [hlaid.layout_eq]
    cases hlaid with
    | copied hp => simp [spelled_element, hstart, hend, (hr.copied hp).2]
    | selfClosed | empty => simp [spelled_element, hstart, hend, spelledList]
    | running hp =>
      have hinner := notMem_layoutInline p hu children depth (nest + 1) true false
        (hr.children (by simp [hp]))
      simp [spelled_element, hstart, hend, hinner]
    | block hp =>
      have hinner := notMem_layoutBlock p hu children (depth + 1) (nest + 1) false ⟨true, 0, false⟩
        (hr.children (by simp [hp]))
      simp [spelled_element, spelledList_append, hstart, hend, hinner, notMem_blockEnd]

theorem notMem_layoutBlock (p : Printer) (hu : EscapesLineEnds p.unescaped) :
    ∀ (qs : List Part) (depth nest : Nat) (top : Bool) (state : BlockState),
      ReadyList nest state.suppressed qs →
      '\r' ∉ spelledList (layoutBlock p depth top state qs).1
  | [], depth, nest, top, state, _ => by
    rw [layoutBlock]
    simp [spelledList]
  | q :: qs, depth, nest, top, ⟨fresh, breaks, suppressed⟩, hr => by
    obtain ⟨hq, -, hrest⟩ := hr
    have hfollowing := fun fresh breaks => notMem_layoutBlock p hu qs depth nest top
      ⟨fresh, breaks, q.regionAfter suppressed⟩ hrest
    cases suppressed with
    | true =>
      rw [layoutBlock_of_suppressed, spelledList, List.mem_append, not_or]
      exact ⟨hq.2, hfollowing fresh breaks⟩
    | false =>
      cases hb : q.isBlank with
      | true =>
        have hstep := hfollowing fresh q.lineBreaks
        rw [regionAfter_of_isText (Part.isText_of_isBlank hb)] at hstep
        rwa [layoutBlock_of_isBlank _ _ _ _ hb]
      | false =>
        have hnode := Part.notMem_layout p hu q depth nest top false hq
        rw [layoutBlock_node _ _ _ _ hb, spelledList_append, spelledList_textParts, List.mem_append,
          spelledList, List.mem_append, not_or, not_or]
        exact ⟨notMem_spacing (Printer.spacing_blockGap _ _ _), hnode, hfollowing false 0⟩

theorem notMem_layoutInline (p : Printer) (hu : EscapesLineEnds p.unescaped) :
    ∀ (qs : List Part) (depth nest : Nat) (isFirst suppressed : Bool),
      ReadyList nest suppressed qs → '\r' ∉ spelledList (layoutInline p depth isFirst suppressed qs)
  | [], depth, nest, isFirst, suppressed, _ => by
    rw [layoutInline]
    simp [spelledList]
  | q :: qs, depth, nest, isFirst, suppressed, hr => by
    obtain ⟨hq, -, hrest⟩ := hr
    have hfollowing := notMem_layoutInline p hu qs depth nest false _ hrest
    cases suppressed with
    | true =>
      rw [layoutInline_suppressed, spelledList, List.mem_append, not_or]
      exact ⟨hq.2, hfollowing⟩
    | false =>
      obtain ⟨spelling, value, rfl⟩ | hqt := q.eq_text_or
      · rw [layoutInline_text, spelledList_append, spelledList_textParts, List.mem_append, not_or]
        exact ⟨(oneLine_escapeText (oneLine_runningValue _ _ _)).2, hfollowing⟩
      · rw [layoutInline_node p depth isFirst hqt, spelledList, List.mem_append, not_or]
        exact ⟨Part.notMem_layout p hu q (depth + 1) nest false true hq, hfollowing⟩

end

end XamlFormat
