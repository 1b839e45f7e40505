import XamlFormat.Proofs.Layout.Valid
import XamlFormat.Proofs.Markup.Complete

/-! The layout of whole documents. What is printed for a document is read again as the parts that
the layout gives. -/
namespace XamlFormat

open Markup Text StartTag Reference

/-- The order of the parts outside the root element; `rooted` says whether the root came already. -/
def TopOrder (rooted : Bool) : List Part → Prop
  | [] => rooted = true
  | .text spelling value :: ps =>
    spelling ≠ [] ∧ Blanks spelling ∧ value = spelling ∧ TopOrder rooted ps
  | .raw kind _ :: ps => kind ≠ .cdata ∧ (kind = .doctype → rooted = false) ∧ TopOrder rooted ps
  | .element _ _ _ _ :: ps => rooted = false ∧ TopOrder true ps

theorem ValidTop.order {rooted : Bool} {parts : List Part} (h : ValidTop rooted parts) :
    TopOrder rooted parts := by
  induction parts generalizing rooted with
  | nil => exact h
  | cons p ps ih =>
    cases p with
    | text => exact ⟨h.1, h.2.1, h.2.2.1, ih h.2.2.2.2⟩
    | raw => exact ⟨h.1, h.2.1, ih h.2.2.2⟩
    | element => exact ⟨h.1, ih h.2.2⟩

theorem Part.Fits.closed {depth : Nat} {kind : RawKind} {content : Chars}
    (h : (Part.raw kind content).Fits depth) : kind.Closed content := by
  obtain h | ⟨_, he, h⟩ := h
  · exact h.2
  · cases he
    exact h

theorem validTop_textParts {rooted : Bool} {gap : Chars} (hg : Spacing gap) {ps : List Part}
    (hp : ValidTop rooted ps) (ht : Part.headText ps = false) :
    ValidTop rooted (textParts gap ++ ps) := by
  unfold textParts
  split_ifs with hgap
  · exact hp
  · have hspell : escapeText gap = gap := escapeText_spacing hg
    exact ⟨by rwa [hspell], by rw [hspell]; exact hg.blanks, hspell.symm, ht, hp⟩

/-- The parts outside the root stay in their order. -/
theorem validTop_layoutBlock (p : Printer) (hu : EscapesLineEnds p.unescaped) (depth : Nat)
    (qs : List Part) (rooted : Bool) (state : BlockState) (hr : ReadyList 1 state.suppressed qs)
    (ho : TopOrder rooted qs) : ValidTop rooted (layoutBlock p depth true state qs).1 := by
  induction qs generalizing rooted state with
  | nil =>
    rw [layoutBlock]
    exact ho
  | cons q qs ih =>
    obtain ⟨fresh, breaks, suppressed⟩ := state
    obtain ⟨hq, htext, hrest⟩ := hr
    have hfollowing := fun rooted fresh breaks =>
      ih rooted ⟨fresh, breaks, q.regionAfter suppressed⟩ hrest
    cases suppressed with
    | true =>
      rw [layoutBlock_of_suppressed]
      cases q with
      | text spelling value =>
        obtain ⟨hne, hb, hv, ho⟩ := ho
        refine ⟨hne, hb, hv, ?_, hfollowing rooted fresh breaks ho⟩
        exact (headText_layoutBlock_region p depth true fresh breaks qs).trans (htext rfl)
      | raw kind content =>
        obtain ⟨hk, hd, ho⟩ := ho
        exact ⟨hk, hd, hq.1.closed, hfollowing rooted fresh breaks ho⟩
      | element opening tag children closing =>
        obtain ⟨hroot, ho⟩ := ho
        exact ⟨hroot, hq.1.valid (by simp), hfollowing true fresh breaks ho⟩
    | false =>
      have hgap := Printer.spacing_blockGap (p := p) depth true ⟨fresh, breaks, false⟩
      cases q with
      | text spelling value =>
        obtain ⟨hne, hb, rfl, ho⟩ := ho
        have hblank : (Part.text value value).isBlank = true := List.all_eq_true.mpr hb
        rw [layoutBlock_of_isBlank _ _ _ _ hblank]
        exact hfollowing rooted fresh _ ho
      | raw kind content =>
        obtain ⟨hk, hd, ho⟩ := ho
        rw [layoutBlock_node _ _ _ _ rfl]
        refine validTop_textParts hgap ?_ rfl
        exact ⟨hk, hd, p.closed_rawContent hq.1, hfollowing rooted false 0 ho⟩
      | element opening tag children closing =>
        obtain ⟨hroot, ho⟩ := ho
        have hvalid := Part.valid_layout p hu _ depth 1 true false rfl hq (by simp)
        rw [layoutBlock_node _ _ _ _ rfl]
        obtain ⟨_, _, _, he⟩ := Part.exists_layout p depth true false tag children opening closing
        rw [he] at hvalid ⊢
        exact validTop_textParts hgap ⟨hroot, hvalid, hfollowing true false 0 ho⟩ rfl

theorem ValidTop.of_append {rooted : Bool} {ps ts : List Part} (h : ValidTop rooted (ps ++ ts))
    (ht : ∀ t ∈ ts, t.isText = true) : ValidTop rooted ps := by
  induction ps generalizing rooted with
  | nil =>
    induction ts with
    | nil => exact h
    | cons t ts ih =>
      obtain ⟨htext, hts⟩ := List.forall_mem_cons.mp ht
      obtain ⟨spelling, value, rfl⟩ := Part.exists_of_isText htext
      exact ih hts h.2.2.2.2
  | cons p ps ih =>
    cases p with
    | text spelling value =>
      obtain ⟨hne, hb, hv, hhead, h⟩ := h
      refine ⟨hne, hb, hv, ?_, ih h⟩
      cases ps with
      | nil => rfl
      | cons => exact hhead
    | raw => exact ⟨h.1, h.2.1, h.2.2.1, ih h.2.2.2⟩
    | element => exact ⟨h.1, h.2.1, ih h.2.2⟩

theorem ValidTop.concat_text {rooted : Bool} {ps : List Part} (h : ValidTop rooted ps)
    (hlast : ∀ hne : ps ≠ [], ¬ (ps.getLast hne).isText = true) {gap : Chars} (hne : gap ≠ [])
    (hb : Blanks gap) : ValidTop rooted (ps ++ [.text gap gap]) := by
  induction ps generalizing rooted with
  | nil => exact ⟨hne, hb, rfl, rfl, h⟩
  | cons p ps ih =>
    have hlast' (hps : ps ≠ []) : ¬ (ps.getLast hps).isText = true := by
      have := hlast (by simp)
      rwa [List.getLast_cons hps] at this
    cases p with
    | text spelling value =>
      obtain ⟨hs, hblank, hv, hhead, h⟩ := h
      cases ps with
      | nil => exact absurd rfl (hlast (by simp))
      | cons => exact ⟨hs, hblank, hv, hhead, ih h hlast'⟩
    | raw => exact ⟨h.1, h.2.1, h.2.2.1, ih h.2.2.2 hlast'⟩
    | element => exact ⟨h.1, h.2.1, ih h.2.2 hlast'⟩

theorem getLast_scanDoctype {quote : Option Char} {brackets : Nat} {s t : Chars}
    (h : scanDoctype quote brackets s = some t) : t.getLast? = some '>' := by
  induction s generalizing quote brackets t with
  | nil => simp [scanDoctype] at h
  | cons c cs ih =>
    have step {quote' : Option Char} {brackets' : Nat}
        (h : (scanDoctype quote' brackets' cs).map (c :: ·) = some t) : t.getLast? = some '>' := by
      obtain ⟨u, hu, rfl⟩ := Option.map_eq_some_iff.mp h
      simp [List.getLast?_cons, ih hu]
    cases quote with
    | some q => exact step h
    | none =>
      simp only [scanDoctype] at h
      split_ifs at h with h1 h2 h3 h4
      · exact step h
      · exact step h
      · exact step h
      · cases h
        simp [h4.1]
      · exact step h

theorem Part.Fits.getLast? {depth : Nat} {p : Part} (h : p.Fits depth) (ht : p.isText = false) :
    p.spelled.getLast? = some '>' := by
  cases p with
  | text => simp [Part.isText] at ht
  | raw kind content =>
    have hc := h.closed
    cases kind with
    | comment => simp [Part.spelled, RawKind.markup, commentClose_eq, List.getLast?_append]
    | cdata => simp [Part.spelled, RawKind.markup, cdataClose_eq, List.getLast?_append]
    | instruction =>
      obtain ⟨body, rfl, -⟩ := hc
      simp [Part.spelled, RawKind.markup, instructionClose_eq, List.getLast?_append]
    | doctype => exact getLast_scanDoctype hc.2
  | element opening tag children closing =>
    obtain ⟨-, ⟨w, -, rfl, rfl⟩, hself, hopen, -⟩ := h.valid (by simp)
    by_cases hs : w.selfClosing = true
    · obtain ⟨rfl, rfl⟩ := hself hs
      simp [Part.spelled, spelledList, WrittenTag.text, WrittenTag.bracket, hs,
        List.getLast?_cons, List.getLast?_append]
    · obtain ⟨gap, -, rfl⟩ := hopen (Bool.eq_false_iff.mpr hs)
      simp [Part.spelled, List.getLast?_cons, List.getLast?_append]

theorem getLast?_spelledList {depth : Nat} {ps : List Part} (h : ∀ p ∈ ps, p.Fits depth)
    (hne : ps ≠ []) (ht : ¬ (ps.getLast hne).isText = true) :
    (spelledList ps).getLast? = some '>' := by
  have hfits := h _ (List.getLast_mem hne)
  rw [← List.dropLast_append_getLast hne, spelledList_append, spelledList, spelledList,
    List.append_nil, List.getLast?_append, hfits.getLast? (by simpa using ht)]
  rfl

/-- The parts of a document as they are laid out. Blanks at the end give way to a line end, if the
document has one. -/
def layoutTop (p : Printer) (trailing : Bool) (qs : List Part) : List Part :=
  (layoutBlock p 0 true ⟨true, 0, false⟩ qs).1.rdropWhile Part.isText ++
    if trailing then [.text ['\n'] ['\n']] else []

structure ReadyTop (qs : List Part) : Prop where
  ready : ReadyList 1 false qs
  order : TopOrder false qs

section Top

variable {p : Printer} {qs : List Part}

theorem validTop_body (hu : EscapesLineEnds p.unescaped) (h : ReadyTop qs) :
    ValidTop false ((layoutBlock p 0 true ⟨true, 0, false⟩ qs).1.rdropWhile Part.isText) := by
  have hblock := validTop_layoutBlock p hu 0 qs false ⟨true, 0, false⟩ h.ready h.order
  rw [← List.rdropWhile_append_rtakeWhile (p := Part.isText) (l := Prod.fst _)] at hblock
  exact hblock.of_append fun t ht => List.mem_rtakeWhile_imp ht

theorem validTop_layoutTop (hu : EscapesLineEnds p.unescaped) (h : ReadyTop qs)
    (trailing : Bool) : ValidTop false (layoutTop p trailing qs) := by
  have hbody := validTop_body hu h
  unfold layoutTop
  split_ifs
  · refine hbody.concat_text (fun hne => List.rdropWhile_last_not _ _ hne) (by simp) ?_
    simp [Blanks, isXmlBlank]
  · rwa [List.append_nil]

theorem getLast?_body (hu : EscapesLineEnds p.unescaped) (h : ReadyTop qs) :
    (spelledList ((layoutBlock p 0 true ⟨true, 0, false⟩ qs).1.rdropWhile
      Part.isText)).getLast? = some '>' := by
  have hbody := validTop_body hu h
  have hne : (layoutBlock p 0 true ⟨true, 0, false⟩ qs).1.rdropWhile Part.isText ≠ [] := by
    intro he
    rw [he] at hbody
    exact Bool.false_ne_true hbody
  exact getLast?_spelledList hbody.fits hne (List.rdropWhile_last_not _ _ hne)

theorem trailingNewline_layoutTop (hu : EscapesLineEnds p.unescaped) (h : ReadyTop qs)
    (trailing : Bool) :
    ((spelledList (layoutTop p trailing qs)).getLast? == some '\n') = trailing := by
  unfold layoutTop
  cases trailing with
  | true => simp [spelledList_append, spelledList, Part.spelled, List.getLast?_append]
  | false => simp [getLast?_body hu h]

theorem notMem_layoutTop (hu : EscapesLineEnds p.unescaped) (h : ReadyTop qs) (trailing : Bool) :
    '\r' ∉ spelledList (layoutTop p trailing qs) := by
  have hblock := notMem_layoutBlock p hu qs 0 1 true ⟨true, 0, false⟩ h.ready
  rw [← List.rdropWhile_append_rtakeWhile (p := Part.isText) (l := Prod.fst _), spelledList_append,
    List.mem_append, not_or] at hblock
  rw [layoutTop, spelledList_append, List.mem_append, not_or]
  refine ⟨hblock.1, ?_⟩
  split_ifs <;> simp [spelledList, Part.spelled]

/-- A block that ends outside of any region does not end with a text. -/
theorem getLast_layoutBlock (depth : Nat) (top : Bool) {state : BlockState}
    (hb : ∀ q ∈ qs, q.isText = true → q.isBlank = true)
    (hclosed : (layoutBlock p depth top state qs).2 = false) :
    ∀ r ∈ (layoutBlock p depth top state qs).1.getLast?, r.isText = false := by
  induction qs generalizing state with
  | nil => simp [layoutBlock]
  | cons q qs ih =>
    obtain ⟨fresh, breaks, suppressed⟩ := state
    obtain ⟨hq, hb⟩ := List.forall_mem_cons.mp hb
    have step {state' : BlockState} (hc : (layoutBlock p depth top state' qs).2 = false) (a : Part)
        (ha : (layoutBlock p depth top state' qs).1 = [] → a.isText = false) :
        ∀ r ∈ (a :: (layoutBlock p depth top state' qs).1).getLast?, r.isText = false := by
      have hrest := ih hb hc
      cases hl : (layoutBlock p depth top state' qs).1 with
      | nil => simpa using ha hl
      | cons b bs =>
        rw [hl] at hrest
        rwa [List.getLast?_cons_cons]
    cases suppressed with
    | true =>
      rw [layoutBlock_of_suppressed] at hclosed ⊢
      refine step hclosed q fun hnil => ?_
      -- a region that goes on behind a text is copied or still open at the end
      by_contra ht
      rw [regionAfter_of_isText (by simpa using ht)] at hclosed hnil
      cases qs with
      | nil => simp [layoutBlock] at hclosed
      | cons q' qs => simp [layoutBlock_of_suppressed] at hnil
    | false =>
      cases hblank : q.isBlank with
      | true =>
        rw [layoutBlock_of_isBlank _ _ _ _ hblank] at hclosed ⊢
        exact ih hb hclosed
      | false =>
        have ht := Part.isText_eq_false hq hblank
        rw [layoutBlock_node _ _ _ _ hblank] at hclosed ⊢
        have hlast := step hclosed (q.layout p depth top false) fun _ => isText_layout p _ _ _ ht
        simpa [List.getLast?_append, List.getLast?_cons] using hlast

theorem TopOrder.blank {rooted : Bool} (h : TopOrder rooted qs) :
    ∀ q ∈ qs, q.isText = true → q.isBlank = true := by
  induction qs generalizing rooted with
  | nil => simp
  | cons q qs ih =>
    cases q with
    | text spelling value =>
      obtain ⟨-, hb, rfl, h⟩ := h
      exact List.forall_mem_cons.mpr ⟨fun _ => List.all_eq_true.mpr hb, ih h⟩
    | raw => exact List.forall_mem_cons.mpr ⟨by simp [Part.isText], ih h.2.2⟩
    | element => exact List.forall_mem_cons.mpr ⟨by simp [Part.isText], ih h.2⟩

theorem ValidTop.blanks {rooted : Bool} (h : ValidTop rooted qs) :
    ∀ q ∈ qs, q.isText = true → Blanks q.spelled := by
  induction qs generalizing rooted with
  | nil => simp
  | cons q qs ih =>
    cases q with
    | text spelling value => exact List.forall_mem_cons.mpr ⟨fun _ => h.2.1, ih h.2.2.2.2⟩
    | raw => exact List.forall_mem_cons.mpr ⟨by simp [Part.isText], ih h.2.2.2⟩
    | element => exact List.forall_mem_cons.mpr ⟨by simp [Part.isText], ih h.2.2⟩

theorem blanks_spelledList (h : ∀ q ∈ qs, Blanks q.spelled) : Blanks (spelledList qs) := by
  induction qs with
  | nil => exact blanks_nil
  | cons q qs ih =>
    obtain ⟨hq, hqs⟩ := List.forall_mem_cons.mp h
    intro c hc
    obtain hc | hc := List.mem_append.mp hc
    · exact hq c hc
    · exact ih hqs c hc

theorem trimXmlEnd_append {a b : Chars} {c : Char} (ha : a.getLast? = some c)
    (hc : isXmlBlank c = false) (hb : Blanks b) : trimXmlEnd (a ++ b) = a := by
  obtain ⟨ys, rfl⟩ := List.getLast?_eq_some_iff.mp ha
  rw [trimXmlEnd_eq, rdropWhile_append_of_all _ hb]
  exact List.rdropWhile_concat_neg _ _ _ (by simp [hc])

theorem blanks_withLineEnds {newLine s : Chars} (hn : newLine = ['\n'] ∨ newLine = ['\r', '\n'])
    (h : Blanks s) : Blanks (withLineEnds newLine s) := by
  rw [withLineEnds_eq_flatMap]
  intro c hc
  obtain ⟨d, hd, hc⟩ := List.mem_flatMap.mp hc
  split_ifs at hc
  · obtain rfl | rfl := hn
    · simp_all [isXmlBlank]
    · simp only [List.mem_cons, List.not_mem_nil, or_false] at hc
      obtain rfl | rfl := hc <;> rfl
  · rw [List.mem_singleton.mp hc]
    exact h d hd

/-- The block of a document with its blanks at the end removed where it ends within a region. -/
theorem trim_block (hu : EscapesLineEnds p.unescaped) (h : ReadyTop qs) (lead : Chars)
    {newLine : Chars} (hn : newLine = ['\n'] ∨ newLine = ['\r', '\n']) :
    let block := layoutBlock p 0 true ⟨true, 0, false⟩ qs
    let body := lead ++ withLineEnds newLine (spelledList block.1)
    (if block.2 then trimXmlEnd body else body) =
      lead ++ withLineEnds newLine (spelledList (block.1.rdropWhile Part.isText)) := by
  intro block body
  have hlast := getLast?_body hu h
  by_cases hopen : block.2 = true
  · have hvalid := validTop_layoutBlock p hu 0 qs false ⟨true, 0, false⟩ h.ready h.order
    have hsplit := List.rdropWhile_append_rtakeWhile (p := Part.isText) (l := block.1)
    have hblanks : Blanks (spelledList (block.1.rtakeWhile Part.isText)) :=
      blanks_spelledList fun q hq => hvalid.blanks q (List.rtakeWhile_suffix _ _ |>.subset hq)
        (List.mem_rtakeWhile_imp hq)
    obtain ⟨ys, hys⟩ := List.getLast?_eq_some_iff.mp hlast
    have hbody : body = lead ++ withLineEnds newLine
        (spelledList (block.1.rdropWhile Part.isText)) ++
          withLineEnds newLine (spelledList (block.1.rtakeWhile Part.isText)) := by
      rw [List.append_assoc, ← withLineEnds_append, ← spelledList_append, hsplit]
    rw [if_pos hopen, hbody, trimXmlEnd_append (c := '>') _ rfl (blanks_withLineEnds hn hblanks)]
    rw [hys, withLineEnds_append, withLineEnds_cons_of_ne (by decide)]
    simp [List.getLast?_append]
  · have hself : block.1.rdropWhile Part.isText = block.1 := by
      rw [List.rdropWhile_eq_self_iff]
      intro hne
      have := getLast_layoutBlock (p := p) 0 true h.order.blank (by simpa using hopen)
        (block.1.getLast hne) (List.getLast?_eq_getLast_of_ne_nil hne)
      simp [this]
    rw [if_neg hopen, hself]

end Top

theorem Settings.newLine_eq (s : Settings) : s.newLine = ['\n'] ∨ s.newLine = ['\r', '\n'] :=
  s.newLineStyle.chars_eq

namespace Document

variable {source : Chars} {s : Settings} {dialect : Dialect} {d : Document} {qs : List Part}

def printer (source : Chars) (s : Settings) (dialect : Dialect) : Printer :=
  ⟨source, s, dialect.unescaped s⟩

/-- A document prints as the text of its parts as they are laid out. -/
theorem print_eq (hu : EscapesLineEnds (dialect.unescaped s)) (h : ReadyTop qs)
    (hs : ShownList source (byteLength source) false qs d.nodes) :
    d.print source s dialect = withLineEnds s.newLine (markText d.byteOrderMark ++
      spelledList (layoutTop (printer source s dialect) d.trailingNewline qs)) := by
  have hp : EscapesLineEnds (printer source s dialect).unescaped := hu
  obtain ⟨htext, hopen⟩ := printBlock_eq (printer source s dialect) hp qs d.nodes 0 1
    (byteLength source) true ⟨true, 0, false⟩ hs h.ready
  simp only [Bool.false_eq_true, if_false, List.nil_append] at htext
  have htrim := trim_block hp h (markText d.byteOrderMark) s.newLine_eq
  have hmark : withLineEnds s.newLine (markText d.byteOrderMark) = markText d.byteOrderMark := by
    unfold markText
    split_ifs <;> rfl
  have hnewline : withLineEnds s.newLine
      (spelledList (if d.trailingNewline then [.text ['\n'] ['\n']] else [])) =
        if d.trailingNewline then s.newLine else [] := by
    split_ifs
    · exact withLineEnds_lineBreak _
    · rfl
  rw [layoutTop, spelledList_append, withLineEnds_append, withLineEnds_append, hmark, hnewline,
    ← List.append_assoc, ← htrim]
  change _ = (if _ then trimXmlEnd (_ ++ withLineEnds (printer source s dialect).newLine _)
    else _ ++ withLineEnds (printer source s dialect).newLine _) ++ _
  rw [htext, hopen]
  rfl

/-- What is printed is read again, as the parts that the layout gives. -/
theorem read_print (hu : EscapesLineEnds (dialect.unescaped s)) (h : ReadyTop qs)
    (hs : ShownList source (byteLength source) false qs d.nodes) :
    unifyLineEnds (d.print source s dialect) = markText d.byteOrderMark ++
        spelledList (layoutTop (printer source s dialect) d.trailingNewline qs) ∧
      read (unifyLineEnds (d.print source s dialect)) = .ok (ofParts d.byteOrderMark
        (layoutTop (printer source s dialect) d.trailingNewline qs)) := by
  have hp : EscapesLineEnds (printer source s dialect).unescaped := hu
  have hreturn : '\r' ∉ markText d.byteOrderMark ++
      spelledList (layoutTop (printer source s dialect) d.trailingNewline qs) := by
    rw [List.mem_append, not_or]
    refine ⟨?_, notMem_layoutTop hp h _⟩
    unfold markText
    split_ifs <;> simp [mark]
  rw [print_eq hu h hs, unifyLineEnds_withLineEnds s.newLine_eq hreturn]
  exact ⟨rfl, read_complete (validTop_layoutTop hp h _) _⟩

end Document
end XamlFormat
