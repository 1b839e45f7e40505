import XamlFormat.Proofs.Layout.Document

/-! Parts of the source that are copied. Whatever happens to the tree, the content of an element that
preserves its space and the region behind a marker come out as they stood, in document order. -/
namespace XamlFormat

open Markup Text

/-- What stands in the output directly in front of a copied part. -/
inductive Lead where
  | startTag (tag : Tag)
  | marker (comment : Node)

structure Verbatim where
  lead : Lead
  start : Nat
  stop : Nat

/-- Where a region ends whose marker stands in front of the nodes: behind the next marker that turns
formatting on, or at `stop`. -/
def closeOf (stop : Nat) (rest : List Node) : Nat :=
  match rest.find? fun n => n.marker? == some .on with
  | some n => n.span.stop
  | none => stop

mutual

/-- The copied parts of a node in document order. What lies inside of a copied part is not listed. -/
def Node.verbatim : Node → List Verbatim
  | .element tag children =>
    match tag.preserved? with
    | some content => [⟨.startTag tag, content.start, content.stop⟩]
    | none => verbatimList (Printer.contentEnd tag) false children
  | .text _ _ => []
  | .raw _ _ _ => []

/-- As above for siblings whose parent has its content up to `stop`; `inside` says that a region is
open in front of them. -/
def verbatimList (stop : Nat) (inside : Bool) : List Node → List Verbatim
  | [] => []
  | n :: rest =>
    if inside then verbatimList stop (n.marker? != some .on) rest
    else if n.marker? = some .off then
      ⟨.marker n, n.span.stop, closeOf stop rest⟩ :: verbatimList stop true rest
    else n.verbatim ++ verbatimList stop false rest

end

/-- The copied parts of a document. At the top, a region without an end goes on to the last character
of the source that is no blank. -/
def Document.verbatim (source : Chars) (d : Document) : List Verbatim :=
  verbatimList (byteLength (trimXmlEnd source)) false d.nodes

def Printer.Leads (p : Printer) : Lead → Chars → Prop
  | .startTag tag, text =>
    (∃ depth isRoot inline, text = p.startTag tag .opening depth isRoot inline) ∧
      ∃ most, text = most ++ ['>']
  | .marker comment, text => ∃ content span, comment = .raw .comment content span ∧
    text = "<!--".toList ++ p.commentBody content ++ "-->".toList

/-- The output holds the copied parts one behind the other, each directly behind its lead and with
nothing changed but the line ends. -/
inductive Copies (p : Printer) : List Verbatim → Chars → Prop
  | nil (out : Chars) : Copies p [] out
  | cons {v : Verbatim} {vs : List Verbatim} {lead after : Chars} (before : Chars)
    (hlead : p.Leads v.lead lead) (h : Copies p vs after) :
    Copies p (v :: vs) (before ++ (lead ++
      (((slice p.source v.start v.stop).flatMap fun c => if c = '\n' then p.newLine else [c]) ++
        after)))

theorem closeOf_cons_on {stop : Nat} {n : Node} (h : n.marker? = some .on) (ns : List Node) :
    closeOf stop (n :: ns) = n.span.stop := by
  rw [closeOf, List.find?_cons_of_pos (by simpa using h)]

theorem closeOf_cons_of_ne {stop : Nat} {n : Node} (h : n.marker? ≠ some .on) (ns : List Node) :
    closeOf stop (n :: ns) = closeOf stop ns := by
  rw [closeOf, List.find?_cons_of_neg (by simpa using h), closeOf]

theorem regionStop_eq_closeOf (stop : Nat) (ns : List Node) : regionStop stop ns = closeOf stop ns := by
  induction ns with
  | nil => rfl
  | cons n ns ih =>
    rw [regionStop]
    split_ifs with hn
    · rw [closeOf_cons_on hn]
    · rw [closeOf_cons_of_ne hn, ih]

namespace Copies

variable {p : Printer} {vs ws : List Verbatim} {a b : Chars}

theorem front (h : Copies p vs a) (x : Chars) : Copies p vs (x ++ a) := by
  cases h with
  | nil => exact .nil _
  | cons before hlead h =>
    rw [← List.append_assoc]
    exact .cons _ hlead h

theorem append (h : Copies p vs a) (h' : Copies p ws b) : Copies p (vs ++ ws) (a ++ b) := by
  induction h with
  | nil out => exact h'.front out
  | cons before hlead _ ih =>
    rw [List.append_assoc, List.append_assoc, List.append_assoc]
    exact .cons before hlead ih

theorem back (h : Copies p vs a) (x : Chars) : Copies p vs (a ++ x) := by
  simpa using h.append (.nil x)

end Copies

section Printed

variable (p : Printer)

theorem getLast?_startTag (tag : Tag) (depth : Nat) (isRoot inline : Bool) :
    ∃ most, p.startTag tag .opening depth isRoot inline = most ++ ['>'] := by
  unfold Printer.startTag StartTag.print
  dsimp only
  split_ifs
  · exact ⟨_, (List.append_assoc _ _ _).symm⟩
  · exact ⟨_, rfl⟩
  · exact ⟨_, rfl⟩

theorem verbatimList_blank (stop : Nat) {ns : List Node} (h : ns.all Node.isBlank = true) :
    verbatimList stop false ns = [] := by
  induction ns with
  | nil => rfl
  | cons n ns ih =>
    rw [List.all_cons, Bool.and_eq_true] at h
    cases n with
    | text value span => exact ih h.2
    | raw | element => simp [Node.isBlank] at h

theorem Copies.single {v : Verbatim} {lead : Chars} (hlead : p.Leads v.lead lead) {vs : List Verbatim}
    {after : Chars} (h : Copies p vs after) :
    Copies p (v :: vs) (lead ++ (p.copiedSource v.start v.stop ++ after)) := by
  rw [Printer.copiedSource, Printer.copied, withLineEnds_eq_flatMap]
  exact .cons [] hlead h

/-- A node of a block behind its gap, with the region that it opens. -/
theorem exists_printBlock_node (depth : Nat) (top fresh : Bool) (breaks : Nat) {n : Node}
    (hb : n.isBlank = false) (ns : List Node) :
    ∃ gap, ∀ stop, printBlock p depth stop top ⟨fresh, breaks, false⟩ (n :: ns) =
      let following := printBlock p depth stop top ⟨false, 0, n.marker? == some .off⟩ ns
      (gap ++ (n.print p depth top false ++ ((if n.marker? = some .off then
        p.copiedSource n.span.stop (closeOf stop ns) else []) ++ following.1)), following.2) := by
  refine ⟨(if !fresh && breaks ≥ 2 then p.newLine else []) ++
    (if fresh && top then p.indent.level depth else p.lineStart depth), fun stop => ?_⟩
  rw [printBlock_node _ _ _ _ _ _ hb]
  simp only [regionStop_eq_closeOf, beq_iff_eq, List.append_assoc]

theorem marker?_of_isBlank {n : Node} (h : n.isBlank = true) :
    n.marker? = none ∧ n.verbatim = [] := by
  cases n with
  | text => exact ⟨rfl, rfl⟩
  | raw | element => simp [Node.isBlank] at h

theorem leads_marker {n : Node} (h : n.marker? = some .off) (depth : Nat) (isRoot inline : Bool) :
    p.Leads (.marker n) (n.print p depth isRoot inline) := by
  cases n with
  | text | element => simp [Node.marker?] at h
  | raw kind content span =>
    cases kind with
    | comment => exact ⟨content, span, rfl, rfl⟩
    | cdata | instruction | doctype => simp [Node.marker?] at h

mutual

theorem Node.copies_print : ∀ (n : Node) (depth : Nat) (isRoot inline : Bool),
    Copies p n.verbatim (n.print p depth isRoot inline)
  | .text _ _, _, _, _ => .nil _
  | .raw _ _ _, _, _, _ => .nil _
  | .element tag children, depth, isRoot, inline => by
    rw [Node.verbatim, Node.print]
    cases tag.preserved? with
    | some content =>
      have hlead : p.Leads (.startTag tag) (p.startTag tag .opening depth isRoot inline) :=
        ⟨⟨depth, isRoot, inline, rfl⟩, getLast?_startTag p tag depth isRoot inline⟩
      exact Copies.single p (v := ⟨.startTag tag, content.start, content.stop⟩) hlead (.nil _)
    | none =>
      by_cases hb : children.all Node.isBlank = true
      · rw [verbatimList_blank _ hb]
        exact .nil _
      · rw [if_neg hb]
        by_cases hi : (inline || children.any Node.isSignificant) = true
        · rw [if_pos hi]
          exact ((copies_printInline children depth _ true false).back _).front _
        · rw [if_neg hi]
          exact ((copies_printBlock children (depth + 1) _ false ⟨true, 0, false⟩).back _).front _

theorem copies_printBlock : ∀ (ns : List Node) (depth stop : Nat) (top : Bool) (state : BlockState),
    Copies p (verbatimList stop state.suppressed ns) (printBlock p depth stop top state ns).1
  | [], _, _, _, _ => .nil _
  | n :: ns, depth, stop, top, ⟨fresh, breaks, suppressed⟩ => by
    rw [verbatimList]
    cases suppressed with
    | true =>
      rw [printBlock_of_suppressed, if_pos rfl]
      exact copies_printBlock ns depth stop top ⟨fresh, breaks, n.marker? != some .on⟩
    | false =>
      rw [if_neg Bool.false_ne_true]
      cases hb : n.isBlank with
      | true =>
        obtain ⟨hmarker, hnone⟩ := marker?_of_isBlank hb
        rw [printBlock_of_isBlank _ _ _ _ _ _ hb, hmarker, hnone]
        exact copies_printBlock ns depth stop top ⟨fresh, n.lineBreaks, false⟩
      | false =>
        obtain ⟨gap, hblock⟩ := exists_printBlock_node p depth top fresh breaks hb ns
        have hrest := copies_printBlock ns depth stop top ⟨false, 0, n.marker? == some .off⟩
        rw [hblock]
        refine .front ?_ gap
        by_cases hoff : n.marker? = some .off
        · simp only [hoff, beq_self_eq_true, if_true] at hrest ⊢
          exact Copies.single p (v := ⟨.marker n, n.span.stop, closeOf stop ns⟩)
            (leads_marker p hoff depth top false) hrest
        · have hoff' : (n.marker? == some .off) = false := by simpa using hoff
          simp only [hoff', if_neg hoff, List.nil_append] at hrest ⊢
          exact (n.copies_print depth top false).append hrest

theorem copies_printInline : ∀ (ns : List Node) (depth stop : Nat) (isFirst suppressed : Bool),
    Copies p (verbatimList stop suppressed ns) (printInline p depth stop isFirst suppressed ns)
  | [], _, _, _, _ => .nil _
  | n :: ns, depth, stop, isFirst, suppressed => by
    rw [verbatimList]
    cases suppressed with
    | true =>
      rw [printInline_suppressed, if_pos rfl]
      exact copies_printInline ns depth stop false _
    | false =>
      rw [if_neg Bool.false_ne_true]
      have hrest := copies_printInline ns depth stop false (n.marker? == some .off)
      by_cases htext : ∃ value span, n = .text value span
      · obtain ⟨value, span, rfl⟩ := htext
        rw [printInline_text]
        exact hrest.front _
      · rw [printInline_node p depth stop isFirst fun v sp hn => htext ⟨v, sp, hn⟩]
        by_cases hoff : n.marker? = some .off
        · simp only [hoff, beq_self_eq_true, if_true, regionStop_eq_closeOf] at hrest ⊢
          exact Copies.single p (v := ⟨.marker n, n.span.stop, closeOf stop ns⟩)
            (leads_marker p hoff (depth + 1) false true) hrest
        · have hoff' : (n.marker? == some .off) = false := by simpa using hoff
          simp only [hoff', if_neg hoff, Bool.false_eq_true, if_false, List.nil_append] at hrest ⊢
          exact (n.copies_print (depth + 1) false true).append hrest

end

end Printed

section Trimmed

theorem closeOf_of_exists {ns : List Node} (h : ∃ n ∈ ns, n.marker? = some .on) (stop stop' : Nat) :
    closeOf stop ns = closeOf stop' ns := by
  have hsome : (ns.find? fun n => n.marker? == some .on).isSome = true := by
    obtain ⟨n, hn, hon⟩ := h
    exact List.find?_isSome.mpr ⟨n, hn, by simpa using hon⟩
  obtain ⟨n, hn⟩ := Option.isSome_iff_exists.mp hsome
  rw [closeOf, closeOf, hn]

theorem closeOf_of_forall {ns : List Node} (h : ∀ n ∈ ns, n.marker? ≠ some .on) (stop : Nat) :
    closeOf stop ns = stop := by
  have hnone : (ns.find? fun n => n.marker? == some .on) = none :=
    List.find?_eq_none.mpr fun n hn => by simpa using h n hn
  rw [closeOf, hnone]

variable (p : Printer) (depth : Nat) (top : Bool)

theorem printBlock_open {ns : List Node} (h : ∀ n ∈ ns, n.marker? ≠ some .on) (stop : Nat)
    (fresh : Bool) (breaks : Nat) :
    printBlock p depth stop top ⟨fresh, breaks, true⟩ ns = ([], true) := by
  induction ns with
  | nil => rfl
  | cons n ns ih =>
    obtain ⟨hn, hns⟩ := List.forall_mem_cons.mp h
    have hregion : (n.marker? != some .on) = true := by simpa using hn
    rw [printBlock_of_suppressed, hregion, ih hns]

/-- The end of the content matters to a block only where its last region is open. -/
theorem printBlock_shape (ns : List Node) (state : BlockState) :
    (∃ t, ∀ stop, printBlock p depth stop top state ns = (t, false)) ∨
      (state.suppressed = true ∧ ∀ n ∈ ns, n.marker? ≠ some .on) ∨
      ∃ t, ∃ n ∈ ns, n.marker? = some .off ∧ ∀ stop, printBlock p depth stop top state ns =
        (t ++ (n.print p depth top false ++ p.copiedSource n.span.stop stop), true) := by
  induction ns generalizing state with
  | nil =>
    cases hs : state.suppressed with
    | true => exact .inr (.inl ⟨rfl, by simp⟩)
    | false => exact .inl ⟨[], fun stop => by rw [printBlock, hs]⟩
  | cons n ns ih =>
    obtain ⟨fresh, breaks, suppressed⟩ := state
    cases suppressed with
    | true =>
      simp only [printBlock_of_suppressed]
      obtain h | ⟨hn, hns⟩ | ⟨t, m, hm, h⟩ := ih ⟨fresh, breaks, n.marker? != some .on⟩
      · exact .inl h
      · exact .inr (.inl ⟨trivial, List.forall_mem_cons.mpr ⟨by simpa using hn, hns⟩⟩)
      · exact .inr (.inr ⟨t, m, List.mem_cons_of_mem n hm, h⟩)
    | false =>
      simp only [Bool.false_eq_true, false_and, false_or]
      cases hb : n.isBlank with
      | true =>
        simp only [printBlock_of_isBlank _ _ _ _ _ _ hb]
        obtain h | ⟨hn, -⟩ | ⟨t, m, hm, h⟩ := ih ⟨fresh, n.lineBreaks, false⟩
        · exact .inl h
        · exact absurd hn Bool.false_ne_true
        · exact .inr ⟨t, m, List.mem_cons_of_mem n hm, h⟩
      | false =>
        obtain ⟨gap, hblock⟩ := exists_printBlock_node p depth top fresh breaks hb ns
        simp only [hblock]
        by_cases hopen : n.marker? = some .off ∧ ∀ m ∈ ns, m.marker? ≠ some .on
        · obtain ⟨hoff, hon⟩ := hopen
          refine .inr ⟨gap, n, List.mem_cons_self, hoff, fun stop => ?_⟩
          rw [if_pos hoff, hoff, beq_self_eq_true, printBlock_open p depth top hon,
            closeOf_of_forall hon, List.append_nil]
        · have hclose (stop : Nat) : (if n.marker? = some .off then
              p.copiedSource n.span.stop (closeOf stop ns) else []) =
              if n.marker? = some .off then p.copiedSource n.span.stop (closeOf 0 ns) else [] := by
            split_ifs with hoff
            · rw [closeOf_of_exists (by simpa [hoff] using hopen) stop 0]
            · rfl
          simp only [hclose]
          obtain ⟨t, h⟩ | ⟨hn, hns⟩ | ⟨t, m, hm, hoff, h⟩ := ih ⟨false, 0, n.marker? == some .off⟩
          · exact .inl ⟨_, fun stop => by rw [h]⟩
          · exact absurd ⟨by simpa using hn, hns⟩ hopen
          · refine .inr ⟨gap ++ (n.print p depth top false ++ ((if n.marker? = some .off then
              p.copiedSource n.span.stop (closeOf 0 ns) else []) ++ t)), m,
              List.mem_cons_of_mem n hm, hoff, fun stop => ?_⟩
            rw [h]
            simp only [List.append_assoc]

theorem trimXmlEnd_spec (s : Chars) :
    (trimXmlEnd s = [] ∨ ∃ c, (trimXmlEnd s).getLast? = some c ∧ isXmlBlank c = false) ∧
      ∃ b, Blanks b ∧ s = trimXmlEnd s ++ b := by
  rw [trimXmlEnd_eq]
  constructor
  · refine (eq_or_ne _ []).imp id fun hne => ?_
    exact ⟨_, List.getLast?_eq_getLast_of_ne_nil hne,
      by simpa using List.rdropWhile_last_not _ _ hne⟩
  · exact ⟨_, fun c hc => List.mem_rtakeWhile_imp hc,
      (List.rdropWhile_append_rtakeWhile (p := isXmlBlank) (l := s)).symm⟩

/-- Behind a character that is no blank, blanks at the end are removed before or after the line ends
are written. -/
theorem trimXmlEnd_withLineEnds {newLine a s : Chars} (hn : newLine = ['\n'] ∨ newLine = ['\r', '\n'])
    (ha : a.getLast? = some '>') :
    trimXmlEnd (a ++ withLineEnds newLine s) = a ++ withLineEnds newLine (trimXmlEnd s) := by
  obtain ⟨hend, b, hb, hs⟩ := trimXmlEnd_spec s
  have hlast : ∃ c, (a ++ withLineEnds newLine (trimXmlEnd s)).getLast? = some c ∧
      isXmlBlank c = false := by
    obtain he | ⟨c, hc, hblank⟩ := hend
    · exact ⟨'>', by simp [he, ha], rfl⟩
    · obtain ⟨ys, hys⟩ := List.getLast?_eq_some_iff.mp hc
      have hne : c ≠ '\n' := by
        rintro rfl
        simp [isXmlBlank] at hblank
      refine ⟨c, ?_, hblank⟩
      rw [hys, withLineEnds_append, withLineEnds_cons_of_ne hne]
      simp
  obtain ⟨c, hc, hblank⟩ := hlast
  conv_lhs => rw [hs, withLineEnds_append, ← List.append_assoc]
  exact trimXmlEnd_append hc hblank (blanks_withLineEnds hn hb)

theorem trimXmlEnd_append_of_getLast {a : Chars} (ha : a.getLast? = some '>') (s : Chars) :
    trimXmlEnd (a ++ s) = a ++ trimXmlEnd s := by
  simpa [withLineEnds_lineFeed] using trimXmlEnd_withLineEnds (s := s) (.inl rfl) ha

end Trimmed

end XamlFormat
