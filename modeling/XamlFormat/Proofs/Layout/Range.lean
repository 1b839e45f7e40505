import XamlFormat.Proofs.Layout.Parts
import XamlFormat.Style

/-! What is counted for the layout of a document, by its parts. A text is styled if it can be read
and everything that is counted is in range. -/
namespace XamlFormat

open Markup

section Style

variable {s : Settings} {dialect : Dialect} {text out : Chars} {d : Document}
  (hs : s.suppressProcessing = false)

include hs

theorem style_of_readWith (h : Document.readWith s (Text.unifyLineEnds text) = .ok d) :
    style s dialect text =
      if (d.applyRules s).inRange (Text.unifyLineEnds text) s dialect then
        .ok ((d.applyRules s).print (Text.unifyLineEnds text) s dialect)
      else .error .overflow := by
  rw [style, hs, if_neg Bool.false_ne_true]
  dsimp only
  rw [h]

theorem style_of_readWith_error {fault : Fault} (dialect : Dialect)
    (h : Document.readWith s (Text.unifyLineEnds text) = .error fault) :
    style s dialect text = .error fault := by
  rw [style, hs, if_neg Bool.false_ne_true]
  dsimp only
  rw [h]

theorem exists_of_style (h : style s dialect text = .ok out) :
    ∃ d, Document.readWith s (Text.unifyLineEnds text) = .ok d ∧
      (d.applyRules s).inRange (Text.unifyLineEnds text) s dialect = true ∧
      (d.applyRules s).print (Text.unifyLineEnds text) s dialect = out := by
  cases hread : Document.readWith s (Text.unifyLineEnds text) with
  | error fault => simp [style_of_readWith_error hs dialect hread] at h
  | ok d =>
    rw [style_of_readWith hs hread] at h
    split_ifs at h with hrange
    exact ⟨d, rfl, hrange, Except.ok.inj h⟩

end Style

structure Printer.CountsAlike (p p' : Printer) : Prop where
  tags : ∀ depth isRoot inline tag, StartTag.inRange (p'.tagContext depth isRoot inline) tag =
    StartTag.inRange (p.tagContext depth isRoot inline) tag
  levels : ∀ depth, p'.indent.levelInRange depth = p.indent.levelInRange depth

/-- Nothing is counted in the source itself. -/
theorem Printer.countsAlike_source (p : Printer) (source : Chars) :
    p.CountsAlike { p with source } :=
  ⟨fun _ _ _ _ => rfl, fun _ => rfl⟩

mutual

theorem Node.inRange_congr {p p' : Printer} (h : p.CountsAlike p') :
    ∀ (n : Node) (depth : Nat) (isRoot inline : Bool),
      n.inRange p' depth isRoot inline = n.inRange p depth isRoot inline
  | .text _ _, _, _, _ => rfl
  | .raw _ _ _, _, _, _ => rfl
  | .element tag children, depth, isRoot, inline => by
    rw [Node.inRange, Node.inRange, h.tags, h.levels, inRangeList_congr h children]

theorem inRangeList_congr {p p' : Printer} (h : p.CountsAlike p') :
    ∀ (ns : List Node) (depth : Nat) (isRoot inline suppressed : Bool),
      inRangeList p' depth isRoot inline suppressed ns =
        inRangeList p depth isRoot inline suppressed ns
  | [], _, _, _, _ => rfl
  | n :: ns, depth, isRoot, inline, suppressed => by
    rw [inRangeList, inRangeList, n.inRange_congr h, inRangeList_congr h ns]

end

mutual

/-- Whether everything that is counted for a part can be counted in 64 bits. -/
def Part.inRange (p : Printer) (depth : Nat) (isRoot inline : Bool) : Part → Bool
  | .text _ _ => true
  | .raw _ _ => true
  | .element _ tag children _ =>
    let running := inline || children.any Part.isSignificant
    StartTag.inRange (p.tagContext depth isRoot inline) tag &&
      (tag.preserveSpace && !children.isEmpty || children.all Part.isBlank ||
        ((running || p.indent.levelInRange (depth + 1)) &&
          partsInRange p (depth + 1) false running false children))

def partsInRange (p : Printer) (depth : Nat) (isRoot inline suppressed : Bool) :
    List Part → Bool
  | [] => true
  | q :: qs =>
    (suppressed || q.inRange p depth isRoot inline) &&
      partsInRange p depth isRoot inline (q.regionAfter suppressed) qs

end

section Elements

variable {p : Printer} {depth : Nat} {isRoot inline : Bool} {tag : Tag} {children : List Part}
  (opening closing : Chars)

/-- Nothing is counted for children that are copied or left out. -/
theorem inRange_childless
    (h : (tag.preserveSpace && !children.isEmpty || children.all Part.isBlank) = true) :
    (Part.element opening tag children closing).inRange p depth isRoot inline =
      StartTag.inRange (p.tagContext depth isRoot inline) tag := by
  rw [Part.inRange, h, Bool.true_or, Bool.and_true]

variable (hp : tag.preserveSpace = false) (hb : children.all Part.isBlank = false)

include hp hb

theorem inRange_running (hi : (inline || children.any Part.isSignificant) = true) :
    (Part.element opening tag children closing).inRange p depth isRoot inline =
      (StartTag.inRange (p.tagContext depth isRoot inline) tag &&
        partsInRange p (depth + 1) false true false children) := by
  rw [Part.inRange, hp, hb, hi]
  rfl

theorem inRange_block (hi : inline = false) (hs : children.any Part.isSignificant = false) :
    (Part.element opening tag children closing).inRange p depth isRoot inline =
      (StartTag.inRange (p.tagContext depth isRoot inline) tag &&
        (p.indent.levelInRange (depth + 1) &&
          partsInRange p (depth + 1) false false false children)) := by
  rw [Part.inRange, hp, hb, hi, hs]
  rfl

end Elements

section Texts

variable {p : Printer} {depth : Nat} {isRoot inline : Bool}

theorem partsInRange_text {q : Part} (h : q.isText = true) (suppressed : Bool) (qs : List Part) :
    partsInRange p depth isRoot inline suppressed (q :: qs) =
      partsInRange p depth isRoot inline suppressed qs := by
  obtain ⟨spelling, value, rfl⟩ := Part.exists_of_isText h
  rw [partsInRange, regionAfter_of_isText h, Part.inRange, Bool.or_true, Bool.true_and]

theorem partsInRange_textParts (value : Chars) (qs : List Part) :
    partsInRange p depth isRoot inline false (textParts value ++ qs) =
      partsInRange p depth isRoot inline false qs := by
  unfold textParts
  split_ifs
  · rfl
  · exact partsInRange_text rfl false qs

theorem partsInRange_append {tail : List Part} (ht : ∀ t ∈ tail, t.isText = true)
    (suppressed : Bool) (qs : List Part) :
    partsInRange p depth isRoot inline suppressed (qs ++ tail) =
      partsInRange p depth isRoot inline suppressed qs := by
  induction qs generalizing suppressed with
  | nil =>
    induction tail with
    | nil => rfl
    | cons t ts ih =>
      obtain ⟨htext, hts⟩ := List.forall_mem_cons.mp ht
      rw [List.nil_append, partsInRange_text htext]
      exact ih hts
  | cons q qs ih => rw [List.cons_append, partsInRange, partsInRange, ih]

end Texts

mutual

/-- What is counted for a node is counted for its part. -/
theorem Part.Shown.inRange_eq (p : Printer) {source : Chars} : ∀ {q : Part} {n : Node} (depth : Nat)
    (isRoot inline : Bool), q.Alike n → q.Shown source n →
      n.inRange p depth isRoot inline = q.inRange p depth isRoot inline
  | .text _ _, n, _, _, _, ha, _ => by
    cases n with
    | text => rfl
    | raw | element => exact ha.elim
  | .raw _ _, n, _, _, _, ha, _ => by
    cases n with
    | raw => rfl
    | text | element => exact ha.elim
  | .element opening tag children closing, n, depth, isRoot, inline, ha, hs => by
    cases n with
    | text | raw => exact ha.elim
    | element t ns =>
      obtain rfl : t = tag := hs.1
      by_cases hp : (t.preserveSpace && !children.isEmpty) = true
      · obtain ⟨-, hs⟩ := hs
        rw [if_pos hp] at hs
        obtain ⟨content, hc, -⟩ := hs
        rw [inRange_childless opening closing (by rw [hp, Bool.true_or]), Node.inRange, hc]
        simp
      · rw [Bool.not_eq_true] at hp
        obtain ⟨hnone, hs⟩ := hs.children hp
        have hlist := hs.inRange_eq p (depth + 1) false
          (inline || children.any Part.isSignificant)
        rw [Part.inRange, Node.inRange, hp, hnone, all_isBlank_eq hs.alike,
          any_isSignificant_eq hs.alike, hlist]
        rfl

theorem ShownList.inRange_eq (p : Printer) {source : Chars} : ∀ {qs : List Part} {ns : List Node}
    {contentEnd : Nat} {suppressed : Bool} (depth : Nat) (isRoot inline : Bool),
      ShownList source contentEnd suppressed qs ns →
      inRangeList p depth isRoot inline suppressed ns =
        partsInRange p depth isRoot inline suppressed qs
  | [], ns, _, _, _, _, _, hs => by
    cases ns with
    | nil => rfl
    | cons => exact hs.elim
  | q :: qs, ns, contentEnd, suppressed, depth, isRoot, inline, hs => by
    cases ns with
    | nil => exact hs.elim
    | cons n ns =>
      obtain ⟨ha, hnode, hrest⟩ := hs
      have hlist := hrest.inRange_eq p depth isRoot inline
      rw [inRangeList, partsInRange, ha.marker?_eq, ← hlist]
      cases suppressed with
      | true => rfl
      | false =>
        rw [(hnode rfl).1.inRange_eq p depth isRoot inline ha]
        rfl

end

end XamlFormat
