import XamlFormat.Proofs.Layout.LaidOutElements
import XamlFormat.Proofs.Rules.Families

/-! The characters of running text. Printing drops none of them but XML's own blanks, except at the
edges of an element's content, which are trimmed of all white space. -/
namespace XamlFormat

open Markup Text StartTag Reference

namespace Text

/-- The characters of a text that are not blanks of XML. -/
def ink (s : Chars) : Chars := s.filter fun c => !isXmlBlank c

/-- The second text is left of the first, and all of it exactly if `P` holds. -/
structure Fades (P : Prop) (a b : Chars) : Prop where
  sublist : b.Sublist a
  eq_iff : b = a ↔ P

namespace Fades

variable {P Q : Prop} {a b c d : Chars}

theorem congr (h : Fades P a b) (hPQ : P ↔ Q) : Fades Q a b :=
  ⟨h.sublist, h.eq_iff.trans hPQ⟩

theorem of_eq (h : b = a) (hP : P) : Fades P a b :=
  ⟨h ▸ List.Sublist.refl _, iff_of_true h hP⟩

theorem append (h : Fades P a b) (h' : Fades Q c d) : Fades (P ∧ Q) (a ++ c) (b ++ d) := by
  refine ⟨h.sublist.append h'.sublist, ?_⟩
  rw [← h.eq_iff, ← h'.eq_iff]
  constructor
  · intro heq
    have hlength := congrArg List.length heq
    rw [List.length_append, List.length_append] at hlength
    have hb := h.sublist.length_le
    have hd := h'.sublist.length_le
    exact List.append_inj heq (by omega)
  · rintro ⟨rfl, rfl⟩
    rfl

theorem trans (h : Fades P a b) (h' : P → Fades Q a c) (hcb : c.Sublist b) :
    Fades (P ∧ Q) a c := by
  refine ⟨hcb.trans h.sublist, fun heq => ?_, fun ⟨hP, hQ⟩ => (h' hP).eq_iff.mpr hQ⟩
  have hba : b = a := by
    refine h.sublist.eq_of_length_le ?_
    rw [← heq]
    exact hcb.length_le
  have hP := h.eq_iff.mp hba
  exact ⟨hP, (h' hP).eq_iff.mp heq⟩

end Fades

@[simp] theorem ink_append (s t : Chars) : ink (s ++ t) = ink s ++ ink t := List.filter_append ..

theorem ink_eq_nil {s : Chars} : ink s = [] ↔ s.all isXmlBlank = true := by
  simp [ink, List.filter_eq_nil_iff]

theorem ink_collapse (s : Chars) : ink (collapse s) = ink s := filter_collapse (fun _ h => h) s

/-- Trimming before or after the blanks of XML are taken out is the same. -/
theorem ink_trimStart (s : Chars) : ink (trimStart s) = (ink s).dropWhile isBlank := by
  unfold ink trimStart
  induction s with
  | nil => rfl
  | cons c cs ih =>
    cases hb : isBlank c with
    | true => cases hx : isXmlBlank c <;> simp [hb, hx, ih]
    | false =>
      have hx : isXmlBlank c = false := by
        by_contra hx
        simp [isBlank_of_isXmlBlank (by simpa using hx)] at hb
      simp [hb, hx]

theorem ink_trimEnd (s : Chars) : ink (trimEnd s) = (ink s).rdropWhile isBlank := by
  have h := ink_trimStart s.reverse
  unfold ink trimStart at h
  rw [List.filter_reverse] at h
  rw [trimEnd_eq, List.rdropWhile, List.rdropWhile, ink, List.filter_reverse, h, ink]

/-- The first character that is not a blank of XML is not white space at all. -/
def opensPlain (s : Chars) : Bool := (ink s).head?.all fun c => !isBlank c

def closesPlain (s : Chars) : Bool := (ink s).getLast?.all fun c => !isBlank c

theorem fades_dropWhile (s : Chars) :
    Fades (s.head?.all (fun c => !isBlank c) = true) s (s.dropWhile isBlank) := by
  refine ⟨(List.dropWhile_suffix _).sublist, ?_⟩
  cases s with
  | nil => simp
  | cons c cs =>
    cases hc : isBlank c with
    | false => simp [hc]
    | true =>
      have := (List.dropWhile_suffix isBlank (l := cs)).length_le
      refine iff_of_false (fun heq => ?_) (by simp [hc])
      have := congrArg List.length heq
      simp only [List.dropWhile_cons, hc, if_true, List.length_cons] at this
      omega

theorem fades_rdropWhile (s : Chars) :
    Fades (s.getLast?.all (fun c => !isBlank c) = true) s (s.rdropWhile isBlank) := by
  have h := fades_dropWhile s.reverse
  rw [List.head?_reverse] at h
  refine ⟨(List.rdropWhile_prefix _ _).sublist, ?_⟩
  rw [List.rdropWhile, List.reverse_eq_iff]
  exact h.eq_iff

end Text

/-- Running text loses no ink exactly if its trimmed edges have none. -/
theorem fades_runningValue (value : Chars) (isFirst isLast : Bool) :
    Fades ((isLast = true → closesPlain value = true) ∧ (isFirst = true → opensPlain value = true))
      (ink value) (ink (Printer.runningValue value isFirst isLast)) := by
  let ended := if isLast then (ink value).rdropWhile isBlank else ink value
  have hended : Fades (isLast = true → closesPlain value = true) (ink value) ended := by
    unfold ended
    cases isLast with
    | true => exact (fades_rdropWhile _).congr (by simp [closesPlain])
    | false => exact .of_eq rfl (by simp)
  have hvalue : ink (Printer.runningValue value isFirst isLast) =
      if isFirst then ended.dropWhile isBlank else ended := by
    unfold ended Printer.runningValue
    cases isFirst <;> cases isLast <;> simp [ink_trimStart, ink_trimEnd, ink_collapse]
  rw [hvalue]
  refine hended.trans (fun hlast => ?_) ?_
  · rw [hended.eq_iff.mpr hlast]
    cases isFirst with
    | true => exact (fades_dropWhile _).congr (by simp [opensPlain])
    | false => exact .of_eq rfl (by simp)
  · split_ifs
    · exact (List.dropWhile_suffix _).sublist
    · exact List.Sublist.refl _

mutual

def Node.characters : Node → Chars
  | .element _ children => charactersList children
  | .text value _ => value
  | .raw _ _ _ => []

def charactersList : List Node → Chars
  | [] => []
  | n :: ns => n.characters ++ charactersList ns

end

def Node.text? : Node → Option Chars
  | .text value _ => some value
  | _ => none

mutual

/-- The children of each element that is laid out and not copied. -/
def Node.laidOut : Node → List (List Node)
  | .element t children => if t.preserveSpace then [] else children :: laidOutList false children
  | .text _ _ => []
  | .raw _ _ _ => []

/-- The same for siblings; `suppressed` says that they start within a region that is copied. -/
def laidOutList (suppressed : Bool) : List Node → List (List Node)
  | [] => []
  | n :: ns => (if suppressed then [] else n.laidOut) ++ laidOutList (n.regionAfter suppressed) ns

end

/-- Trimming the outer edges of siblings takes blanks of XML only. A text within a region is not
trimmed. -/
@[mk_iff]
structure EdgesKept (isFirst suppressed : Bool) (ns : List Node) : Prop where
  first : isFirst = true → suppressed = false →
    ∀ value ∈ ns.head?.bind Node.text?, opensPlain value = true
  last : ns.foldl Node.regionAfter suppressed = false →
    ∀ value ∈ ns.getLast?.bind Node.text?, closesPlain value = true

instance (isFirst suppressed : Bool) (ns : List Node) :
    Decidable (EdgesKept isFirst suppressed ns) :=
  decidable_of_iff
    ((isFirst = true → suppressed = false →
        ∀ value ∈ ns.head?.bind Node.text?, opensPlain value = true) ∧
      (ns.foldl Node.regionAfter suppressed = false →
        ∀ value ∈ ns.getLast?.bind Node.text?, closesPlain value = true))
    ⟨fun h => ⟨h.1, h.2⟩, fun h => ⟨h.first, h.last⟩⟩

namespace EdgesKept

variable {isFirst suppressed : Bool} {n : Node} {ns : List Node}

theorem nil : EdgesKept isFirst suppressed [] := ⟨by simp, by simp⟩

theorem of_blank (h : ∀ n ∈ ns, ∀ value ∈ n.text?, value.all isXmlBlank = true) :
    EdgesKept isFirst suppressed ns := by
  have hink {n : Node} {value : Chars} (hn : n ∈ ns) (hv : n.text? = some value) :
      ink value = [] := ink_eq_nil.mpr (h n hn value hv)
  constructor
  · intro _ _ value hv
    obtain ⟨n, hn, hv⟩ := Option.bind_eq_some_iff.mp hv
    simp [opensPlain, hink (List.mem_of_head? hn) hv]
  · intro _ value hv
    obtain ⟨n, hn, hv⟩ := Option.bind_eq_some_iff.mp hv
    simp [closesPlain, hink (List.mem_of_getLast? hn) hv]

theorem cons_suppressed :
    EdgesKept isFirst true (n :: ns) ↔ EdgesKept false (n.regionAfter true) ns := by
  cases ns with
  | cons m ns => simp [edgesKept_iff]
  | nil =>
    refine iff_of_true ⟨by simp, fun hopen value hv => ?_⟩ nil
    -- a text does not end the region that it stands in
    cases n <;> simp_all [Node.text?, Node.regionAfter, Node.marker?]

theorem cons_text {value : Chars} {span : Span} :
    EdgesKept isFirst false (.text value span :: ns) ↔
      ((ns.isEmpty = true → closesPlain value = true) ∧
        (isFirst = true → opensPlain value = true)) ∧ EdgesKept false false ns := by
  have hregion : (Node.text value span).regionAfter false = false := rfl
  cases ns with
  | cons m ns => simp [edgesKept_iff, hregion, Node.text?]
  | nil => simp [edgesKept_iff, hregion, Node.text?, and_comm]

theorem cons_node (hn : n.text? = none) :
    EdgesKept isFirst false (n :: ns) ↔ EdgesKept false (n.regionAfter false) ns := by
  cases ns <;> simp [edgesKept_iff, hn]

end EdgesKept

def InkKept (suppressed : Bool) (ns : List Node) : Prop :=
  ∀ children ∈ laidOutList suppressed ns, EdgesKept true false children

section InkKept

variable {n : Node} {ns : List Node}

theorem inkKept_cons_suppressed : InkKept true (n :: ns) ↔ InkKept (n.regionAfter true) ns := by
  simp [InkKept, laidOutList]

theorem inkKept_cons : InkKept false (n :: ns) ↔
    (∀ children ∈ n.laidOut, EdgesKept true false children) ∧ InkKept (n.regionAfter false) ns := by
  simp only [InkKept, laidOutList, Bool.false_eq_true, if_false, List.forall_mem_append]

end InkKept

mutual

def Part.characters : Part → Chars
  | .element _ _ children _ => partCharacters children
  | .text _ value => value
  | .raw _ _ => []

def partCharacters : List Part → Chars
  | [] => []
  | p :: ps => p.characters ++ partCharacters ps

end

section Characters

theorem partCharacters_append (ps qs : List Part) :
    partCharacters (ps ++ qs) = partCharacters ps ++ partCharacters qs := by
  induction ps with
  | nil => rfl
  | cons p ps ih => simp [partCharacters, ih]

theorem partCharacters_textParts (value : Chars) : partCharacters (textParts value) = value := by
  unfold textParts
  split_ifs with h
  · exact h.symm
  · exact List.append_nil value

theorem ink_blank {q : Part} (h : q.isBlank = true) : ink q.characters = [] := by
  cases q with
  | text => exact ink_eq_nil.mpr h
  | raw | element => simp [Part.isBlank] at h

theorem ink_partCharacters_blank {qs : List Part} (h : ∀ q ∈ qs, q.isBlank = true) :
    ink (partCharacters qs) = [] := by
  induction qs with
  | nil => rfl
  | cons q qs ih =>
    obtain ⟨hq, hqs⟩ := List.forall_mem_cons.mp h
    rw [partCharacters, ink_append, ink_blank hq, ih hqs]
    rfl

mutual

theorem Part.characters_place : ∀ (q : Part) (pos : Nat), (q.place pos).characters = q.characters
  | .text _ _, _ => rfl
  | .raw _ _, _ => rfl
  | .element _ _ children _, _ => charactersList_placeList children _

theorem charactersList_placeList : ∀ (qs : List Part) (pos : Nat),
    charactersList (placeList pos qs) = partCharacters qs
  | [], _ => rfl
  | q :: qs, pos => by
    rw [placeList, charactersList, partCharacters, q.characters_place, charactersList_placeList qs]

end

mutual

theorem Part.characters_dress {R : Tag → Tag → Prop} : ∀ (q : Part) (n : Node) (pos : Nat),
    (q.place pos).Retagged R n → (q.dress n).characters = q.characters
  | .text _ _, n, _, _ => by cases n <;> rfl
  | .raw _ _, n, _, _ => by cases n <;> rfl
  | .element opening tag children closing, n, pos, hn => by
    cases n with
    | text | raw => exact hn.elim
    | element t ns =>
      rw [Part.dress]
      split_ifs
      · rfl
      · exact partCharacters_dressList children ns _ false hn.2

theorem partCharacters_dressList {R : Tag → Tag → Prop} :
    ∀ (qs : List Part) (ns : List Node) (pos : Nat) (suppressed : Bool),
    RetaggedList R (placeList pos qs) ns →
      partCharacters (dressList suppressed qs ns) = partCharacters qs
  | [], ns, _, _, _ => by cases ns <;> rfl
  | q :: qs, ns, pos, suppressed, hn => by
    cases ns with
    | nil => exact hn.elim
    | cons n ns =>
      rw [dressList, partCharacters, partCharacters, partCharacters_dressList qs ns _ _ hn.2]
      cases suppressed with
      | true => rfl
      | false => exact congrArg (· ++ _) (q.characters_dress n pos hn.1)

end

end Characters

section Layout

variable {source : Chars}

/-- Where no text but white space stands, nothing can be lost at the edges. -/
theorem edgesKept_of_alike {qs : List Part} {ns : List Node} (h : List.Forall₂ Part.Alike qs ns)
    (hb : ∀ q ∈ qs, q.isText = true → q.isBlank = true) : EdgesKept true false ns := by
  refine .of_blank fun n hn value hv => ?_
  obtain ⟨q, hq, ha⟩ := exists_of_forall₂ h n hn
  cases n with
  | raw | element => simp [Node.text?] at hv
  | text v span =>
    cases hv
    cases q with
    | raw | element => exact ha.elim
    | text spelling w =>
      have hw : value = w := ha
      exact hw ▸ hb _ hq rfl

theorem Part.Alike.laidOut_of_isText {q : Part} {n : Node} (h : q.Alike n) (ht : q.isText = true) :
    n.laidOut = [] := by
  cases q <;> cases n <;> simp_all [Part.Alike, Part.isText, Node.laidOut]

theorem inkKept_of_blank {qs : List Part} {ns : List Node} (h : List.Forall₂ Part.Alike qs ns)
    (hb : ∀ q ∈ qs, q.isBlank = true) : InkKept false ns := by
  induction h with
  | nil => simp [InkKept, laidOutList]
  | @cons q n qs ns ha _ ih =>
    obtain ⟨hq, hqs⟩ := List.forall_mem_cons.mp hb
    have ht := Part.isText_of_isBlank hq
    rw [inkKept_cons, ha.laidOut_of_isText ht, ha.regionAfter_eq, regionAfter_of_isText ht]
    exact ⟨by simp, ih hqs⟩

theorem edgesKept_element_iff {t : Tag} {qs : List Part} {ns : List Node}
    (h : List.Forall₂ Part.Alike qs ns) (hp : (t.preserveSpace && !qs.isEmpty) = false) :
    (EdgesKept true false ns ∧ InkKept false ns) ↔
      ∀ children ∈ (Node.element t ns).laidOut, EdgesKept true false children := by
  cases hpreserve : t.preserveSpace with
  | false => simp [Node.laidOut, hpreserve, InkKept]
  | true =>
    have hempty : ns.isEmpty = true := by
      rw [isEmpty_eq h]
      simpa [hpreserve] using hp
    rw [List.isEmpty_iff.mp hempty]
    exact iff_of_true ⟨.nil, by simp [InkKept, laidOutList]⟩ (by simp [Node.laidOut, hpreserve])

mutual

/-- What is laid out keeps its ink exactly if its edges do. -/
theorem Part.fades_layout (p : Printer) : ∀ (q : Part) (n : Node) (depth : Nat)
    (isRoot inline : Bool), q.isText = false → q.Alike n → q.Shown source n →
    Fades (∀ children ∈ n.laidOut, EdgesKept true false children) (ink q.characters)
      (ink (q.layout p depth isRoot inline).characters)
  | .text spelling value, n, depth, isRoot, inline, ht, _, _ => by simp [Part.isText] at ht
  | .raw kind content, n, depth, isRoot, inline, _, ha, _ => by
    cases n with
    | raw => exact .of_eq rfl (by simp [Node.laidOut])
    | text | element => exact ha.elim
  | .element opening tag children closing, n, depth, isRoot, inline, _, ha, hs => by
    cases n with
    | text | raw => exact ha.elim
    | element t ns =>
      obtain rfl : t = tag := hs.1
      obtain ⟨out, hlaid⟩ := p.exists_laysOut depth isRoot inline t children
      rw [hlaid.layout_eq]
      cases hlaid with
      | copied hp =>
        rw [Bool.and_eq_true] at hp
        exact .of_eq rfl (by simp [Node.laidOut, hp.1])
      | selfClosed hp hb | empty hp hb =>
        have halike := (hs.children hp).2.alike
        have hblank := List.all_eq_true.mp hb
        refine .of_eq (ink_partCharacters_blank hblank).symm
          ((edgesKept_element_iff halike hp).mp ⟨?_, inkKept_of_blank halike hblank⟩)
        exact edgesKept_of_alike halike fun q hq _ => hblank q hq
      | running hp =>
        have hp' : (t.preserveSpace && !children.isEmpty) = false := by simp [hp]
        obtain ⟨-, hs⟩ := hs.children hp'
        exact (fades_layoutInline p children ns _ depth true false hs).congr
          (edgesKept_element_iff hs.alike hp')
      | block hp _ _ hquiet =>
        have hp' : (t.preserveSpace && !children.isEmpty) = false := by simp [hp]
        obtain ⟨-, hs⟩ := hs.children hp'
        have htexts := Part.isBlank_of_any_isSignificant hquiet
        have hedges := edgesKept_of_alike hs.alike htexts
        refine Fades.congr ?_
          ((and_iff_right hedges).symm.trans (edgesKept_element_iff hs.alike hp'))
        rw [Printer.element, Part.characters, Part.characters, partCharacters_append, ink_append,
          ink_partCharacters_blank Printer.isBlank_of_mem_blockEnd, List.append_nil]
        exact fades_layoutBlock p children ns _ (depth + 1) false ⟨true, 0, false⟩ htexts hs

theorem fades_layoutBlock (p : Printer) : ∀ (qs : List Part) (ns : List Node)
    (contentEnd depth : Nat) (top : Bool) (state : BlockState),
    (∀ q ∈ qs, q.isText = true → q.isBlank = true) →
    ShownList source contentEnd state.suppressed qs ns →
    Fades (InkKept state.suppressed ns) (ink (partCharacters qs))
      (ink (partCharacters (layoutBlock p depth top state qs).1))
  | [], ns, contentEnd, depth, top, state, _, hs => by
    cases ns with
    | nil =>
      rw [layoutBlock]
      exact .of_eq rfl (by simp [InkKept, laidOutList])
    | cons => exact hs.elim
  | q :: qs, ns, contentEnd, depth, top, ⟨fresh, breaks, suppressed⟩, hb, hs => by
    cases ns with
    | nil => exact hs.elim
    | cons n ns =>
      obtain ⟨hbq, hb⟩ := List.forall_mem_cons.mp hb
      obtain ⟨ha, hshown, hs⟩ := hs
      dsimp only at hs ⊢
      rw [← ha.regionAfter_eq] at hs
      cases suppressed with
      | true =>
        have hrest := fades_layoutBlock p qs ns contentEnd depth top
          ⟨fresh, breaks, n.regionAfter true⟩ hb hs
        rw [layoutBlock_of_suppressed, ← ha.regionAfter_eq, partCharacters, partCharacters,
          ink_append, ink_append]
        refine ((Fades.of_eq rfl trivial).append hrest).congr ?_
        rw [true_and, inkKept_cons_suppressed]
      | false =>
        obtain ⟨hshown, -⟩ := hshown rfl
        rw [partCharacters, ink_append]
        cases hbl : q.isBlank with
        | true =>
          have ht := Part.isText_of_isBlank hbl
          have hregion : n.regionAfter false = false := by
            rw [ha.regionAfter_eq, regionAfter_of_isText ht]
          rw [hregion] at hs
          have hrest := fades_layoutBlock p qs ns contentEnd depth top
            ⟨fresh, q.lineBreaks, false⟩ hb hs
          rw [layoutBlock_of_isBlank _ _ _ _ hbl, ink_blank hbl, List.nil_append]
          refine hrest.congr ?_
          rw [inkKept_cons, hregion, ha.laidOut_of_isText ht]
          simp
        | false =>
          have ht := Part.isText_eq_false hbq hbl
          have hrest := fades_layoutBlock p qs ns contentEnd depth top
            ⟨false, 0, n.regionAfter false⟩ hb hs
          rw [layoutBlock_node _ _ _ _ hbl, ← ha.regionAfter_eq, partCharacters_append,
            partCharacters, ink_append, ink_append,
            ink_partCharacters_blank fun _ =>
              isBlank_of_mem_textParts (Printer.spacing_blockGap depth top _), List.nil_append]
          refine ((Part.fades_layout p q n depth top false ht ha hshown).append hrest).congr ?_
          rw [inkKept_cons]

theorem fades_layoutInline (p : Printer) : ∀ (qs : List Part) (ns : List Node)
    (contentEnd depth : Nat) (isFirst suppressed : Bool),
    ShownList source contentEnd suppressed qs ns →
    Fades (EdgesKept isFirst suppressed ns ∧ InkKept suppressed ns) (ink (partCharacters qs))
      (ink (partCharacters (layoutInline p depth isFirst suppressed qs)))
  | [], ns, contentEnd, depth, isFirst, suppressed, hs => by
    cases ns with
    | nil =>
      rw [layoutInline]
      exact .of_eq rfl ⟨.nil, by simp [InkKept, laidOutList]⟩
    | cons => exact hs.elim
  | q :: qs, ns, contentEnd, depth, isFirst, suppressed, hs => by
    cases ns with
    | nil => exact hs.elim
    | cons n ns =>
      obtain ⟨ha, hshown, hs⟩ := hs
      rw [← ha.regionAfter_eq] at hs
      have hrest := fades_layoutInline p qs ns contentEnd depth false (n.regionAfter suppressed) hs
      cases suppressed with
      | true =>
        rw [layoutInline_suppressed, partCharacters, partCharacters, ink_append, ink_append]
        rw [ha.regionAfter_eq] at hrest
        refine ((Fades.of_eq rfl trivial).append hrest).congr ?_
        rw [true_and, EdgesKept.cons_suppressed, inkKept_cons_suppressed, ha.regionAfter_eq]
      | false =>
        obtain ⟨hshown, -⟩ := hshown rfl
        rw [partCharacters, ink_append]
        obtain ⟨spelling, value, rfl⟩ | ht := q.eq_text_or
        · cases n with
          | raw | element => exact ha.elim
          | text v span =>
            obtain rfl : v = value := ha
            have hempty : qs.isEmpty = ns.isEmpty := (isEmpty_eq hs.alike).symm
            rw [layoutInline_text, partCharacters_append, partCharacters_textParts, ink_append]
            refine ((fades_runningValue v isFirst qs.isEmpty).append hrest).congr ?_
            rw [EdgesKept.cons_text, inkKept_cons, hempty]
            simp [Node.laidOut, and_assoc, Node.regionAfter, Node.marker?]
        · have hn : n.text? = none := by
            cases q <;> cases n <;> simp_all [Part.Alike, Part.isText, Node.text?]
          rw [layoutInline_node p depth isFirst ht, partCharacters, ink_append]
          rw [ha.regionAfter_eq] at hrest
          have hlayout := Part.fades_layout p q n (depth + 1) false true ht ha hshown
          refine (hlayout.append hrest).congr ?_
          rw [EdgesKept.cons_node hn, inkKept_cons, ha.regionAfter_eq]
          exact and_left_comm

end

theorem ink_layoutTop {p : Printer} {qs : List Part} (hu : EscapesLineEnds p.unescaped)
    (h : ReadyTop qs) (trailing : Bool) :
    ink (partCharacters (layoutTop p trailing qs)) =
      ink (partCharacters (layoutBlock p 0 true ⟨true, 0, false⟩ qs).1) := by
  have hline : ink (partCharacters (if trailing then [.text ['\n'] ['\n']] else [])) = [] := by
    cases trailing <;> rfl
  conv_rhs => rw [← List.rdropWhile_append_rtakeWhile (p := Part.isText) (l := Prod.fst _)]
  rw [layoutTop, partCharacters_append, ink_append, hline, partCharacters_append, ink_append,
    ink_partCharacters_blank fun q hq => isBlank_of_mem_dropped hu h hq]

end Layout

namespace Document

/-- Printing takes no ink away from the texts of a document, except from the edges of what is laid
out: the output is read with the same ink exactly if no such edge starts or ends, the blanks of XML
aside, with other white space. -/
theorem print_keeps_ink_iff {source : Chars} {d : Document} {s : Settings} {dialect : Dialect}
    (hreturn : '\r' ∉ source) (h : read source = .ok d)
    (hu : EscapesLineEnds (dialect.unescaped s)) :
    ∃ r, read (unifyLineEnds (d.print source s dialect)) = .ok r ∧
      (ink (charactersList r.nodes)).Sublist (ink (charactersList d.nodes)) ∧
      (ink (charactersList r.nodes) = ink (charactersList d.nodes) ↔
        ∀ children ∈ laidOutList false d.nodes, EdgesKept true false children) := by
  obtain ⟨parts, hvalid, hsource, hparts⟩ := read_sound h
  have hp : EscapesLineEnds (printer source s dialect).unescaped := hu
  have hretagged : RetaggedList Tag.Annotates (ofParts d.byteOrderMark parts).nodes d.nodes := by
    rw [← hparts]
    exact retaggedList_refl Tag.Annotates.refl _
  obtain ⟨hready, hshown⟩ := dress_spec (fun _ _ h => h.recast) hreturn hvalid hsource hretagged
  obtain ⟨-, hread⟩ := read_print hu hready hshown
  have hfades := fades_layoutBlock (printer source s dialect) _ d.nodes _ 0 true ⟨true, 0, false⟩
    hready.order.blank hshown
  rw [← ink_layoutTop hp hready d.trailingNewline, partCharacters_dressList parts d.nodes _ false
    hretagged] at hfades
  have hnodes : charactersList d.nodes = partCharacters parts := by
    rw [hparts]
    exact charactersList_placeList _ _
  refine ⟨_, hread, ?_⟩
  rw [hnodes, ofParts, charactersList_placeList]
  exact ⟨hfades.sublist, hfades.eq_iff⟩

/-- A no-break space inside of a text stays, and a blank at its edge does not count. -/
theorem print_keeps_ink_sample :
    ∃ d r, read "<A> a&#xA0;b<B>c</B>\n</A>".toList = .ok d ∧
      (∀ children ∈ laidOutList false d.nodes, EdgesKept true false children) ∧
      read (unifyLineEnds (d.print "<A> a&#xA0;b<B>c</B>\n</A>".toList .standard .xaml)) = .ok r ∧
      ink (charactersList r.nodes) = ink (charactersList d.nodes) := by
  have hread : ∃ d, read "<A> a&#xA0;b<B>c</B>\n</A>".toList = .ok d ∧
      ∀ children ∈ laidOutList false d.nodes, EdgesKept true false children :=
    exists_ok_of_any (by decide +kernel)
  have hu : EscapesLineEnds (Dialect.xaml.unescaped Settings.standard) := by
    refine ⟨?_, ?_, ?_⟩ <;> decide
  obtain ⟨d, hd, hkept⟩ := hread
  obtain ⟨r, hr, -, hiff⟩ := print_keeps_ink_iff (by decide) hd hu
  exact ⟨d, r, hd, hkept, hr, hiff.mpr hkept⟩

/-- A no-break space at the edge of running text is lost. -/
theorem noBreakSpace_lost :
    ∃ d r, read "<A>&#xA0;x</A>".toList = .ok d ∧
      d.print "<A>&#xA0;x</A>".toList .standard .xaml = "<A>x</A>".toList ∧
      read (unifyLineEnds "<A>x</A>".toList) = .ok r ∧
      ink (charactersList d.nodes) = ['\u00a0', 'x'] ∧ ink (charactersList r.nodes) = ['x'] := by
  have hfirst : ∃ d, read "<A>&#xA0;x</A>".toList = .ok d ∧
      d.print "<A>&#xA0;x</A>".toList .standard .xaml = "<A>x</A>".toList ∧
      ink (charactersList d.nodes) = ['\u00a0', 'x'] := exists_ok_of_any (by decide +kernel)
  have hsecond : ∃ r, read (unifyLineEnds "<A>x</A>".toList) = .ok r ∧
      ink (charactersList r.nodes) = ['x'] := exists_ok_of_any (by decide +kernel)
  obtain ⟨d, hd, hprint, hink⟩ := hfirst
  obtain ⟨r, hr, hink'⟩ := hsecond
  exact ⟨d, r, hd, hprint, hr, hink, hink'⟩

end Document
end XamlFormat
