import XamlFormat.Proofs.Layout.StablePieces
import XamlFormat.Proofs.Order.Siblings

/-! The two kinds of elements: those that are laid out, with tags that the settings have changed, and
those that are copied from the source. -/
namespace XamlFormat

open Markup Text StartTag Reference

namespace Part

/-- Running text that is left by the layout. Where a text is trimmed, at an edge of the content, any
white space goes. -/
def isSolid (atEdge : Bool) : Part → Bool
  | text _ value => !value.all (if atEdge then Text.isBlank else Text.isXmlBlank)
  | raw .cdata _ => true
  | _ => false

theorem isSolid_false (q : Part) : q.isSolid false = q.isSignificant := by
  cases q with
  | raw kind => cases kind <;> rfl
  | text | element => rfl

theorem isSolid_of_not_isText {q : Part} (h : q.isText = false) (atEdge : Bool) :
    q.isSolid atEdge = q.isSignificant := by
  cases q with
  | text => simp [isText] at h
  | raw kind => cases kind <;> rfl
  | element => rfl

end Part

/-- Some running text is left by the layout. What is copied is not trimmed. -/
def hasSolid (isFirst suppressed : Bool) : List Part → Bool
  | [] => false
  | q :: qs =>
    q.isSolid (!suppressed && (isFirst || qs.isEmpty)) || hasSolid false (q.regionAfter suppressed) qs

theorem dress_text (spelling value : Chars) (n : Node) :
    (Part.text spelling value).dress n = .text spelling value := by
  cases n <;> rfl

section Kinds

variable {p : Printer} {f : Part → Bool}

/-- What the layout keeps of a part by itself it keeps of the parts of a block. -/
theorem any_layoutBlock (hnode : ∀ (q : Part) (depth : Nat) (isRoot inline : Bool),
      q.isText = false → f (q.layout p depth isRoot inline) = f q)
    (hblank : ∀ q : Part, q.isBlank = true → f q = false) (depth : Nat) (top : Bool)
    (state : BlockState) {qs : List Part} (hb : ∀ q ∈ qs, q.isText = true → q.isBlank = true) :
    (layoutBlock p depth top state qs).1.any f = qs.any f := by
  induction qs generalizing state with
  | nil => rfl
  | cons q qs ih =>
    obtain ⟨fresh, breaks, suppressed⟩ := state
    obtain ⟨hq, hb⟩ := List.forall_mem_cons.mp hb
    cases suppressed with
    | true => rw [layoutBlock_of_suppressed, List.any_cons, List.any_cons, ih _ hb]
    | false =>
      cases hbl : q.isBlank with
      | true =>
        rw [layoutBlock_of_isBlank _ _ _ _ hbl, ih _ hb, List.any_cons, hblank q hbl,
          Bool.false_or]
      | false =>
        have hgap : (textParts (p.blockGap depth top ⟨fresh, breaks, false⟩)).any f = false :=
          List.any_eq_false.mpr fun t ht => by
            simp [hblank t (isBlank_of_mem_textParts (Printer.spacing_blockGap _ _ _) ht)]
        rw [layoutBlock_node _ _ _ _ hbl, List.any_append, List.any_cons, hgap,
          hnode q _ _ _ (Part.isText_eq_false hq hbl), ih _ hb, Bool.false_or, List.any_cons]

theorem any_layoutInline (hnode : ∀ (q : Part) (depth : Nat) (isRoot inline : Bool),
      q.isText = false → f (q.layout p depth isRoot inline) = f q)
    (htext : ∀ (spelling value : Chars) (isFirst isLast : Bool),
      (textParts (Printer.runningValue value isFirst isLast)).any f = f (.text spelling value))
    (depth : Nat) (isFirst suppressed : Bool) (qs : List Part) :
    (layoutInline p depth isFirst suppressed qs).any f = qs.any f := by
  induction qs generalizing isFirst suppressed with
  | nil => rfl
  | cons q qs ih =>
    cases suppressed with
    | true => rw [layoutInline_suppressed, List.any_cons, List.any_cons, ih]
    | false =>
      obtain ⟨spelling, value, rfl⟩ | ht := q.eq_text_or
      · rw [layoutInline_text, List.any_append, List.any_cons, ih, htext]
      · rw [layoutInline_node p depth isFirst ht, List.any_cons, List.any_cons, ih,
          hnode q _ _ _ ht]

theorem isSignificant_layout (q : Part) (depth : Nat) (isRoot inline : Bool)
    (ht : q.isText = false) :
    (q.layout p depth isRoot inline).isSignificant = q.isSignificant := by
  cases q with
  | text => simp [Part.isText] at ht
  | raw kind content => cases kind <;> rfl
  | element opening tag children closing =>
    obtain ⟨_, _, _, he⟩ := Part.exists_layout p depth isRoot inline tag children opening closing
    rw [he]
    rfl

theorem any_isSignificant_layoutInline (depth : Nat) (isFirst suppressed : Bool) (qs : List Part) :
    (layoutInline p depth isFirst suppressed qs).any Part.isSignificant =
      hasSolid isFirst suppressed qs := by
  induction qs generalizing isFirst suppressed with
  | nil => rfl
  | cons q qs ih =>
    cases suppressed with
    | true =>
      rw [layoutInline_suppressed, List.any_cons, ih, hasSolid, Bool.not_true, Bool.false_and,
        q.isSolid_false]
    | false =>
      obtain ⟨spelling, value, rfl⟩ | ht := q.eq_text_or
      · have htext : (textParts (Printer.runningValue value isFirst qs.isEmpty)).any
            Part.isSignificant = (Part.text spelling value).isSolid (isFirst || qs.isEmpty) := by
          rw [Part.isSolid, ← all_runningValue]
          unfold textParts
          split_ifs with hv
          · rw [hv]
            rfl
          · simp [Part.isSignificant]
        rw [layoutInline_text, List.any_append, ih, htext]
        rfl
      · rw [layoutInline_node p depth isFirst ht, List.any_cons, ih, isSignificant_layout q _ _ _ ht,
          hasSolid, Part.isSolid_of_not_isText ht]

theorem any_isSignificant_of_hasSolid {isFirst suppressed : Bool} {qs : List Part}
    (h : hasSolid isFirst suppressed qs = true) : qs.any Part.isSignificant = true := by
  induction qs generalizing isFirst suppressed with
  | nil => simp [hasSolid] at h
  | cons q qs ih =>
    rw [hasSolid, Bool.or_eq_true_iff] at h
    rw [List.any_cons, Bool.or_eq_true_iff]
    refine h.imp (fun hq => ?_) ih
    cases q with
    | element => simp [Part.isSolid] at hq
    | raw kind => cases kind <;> simp_all [Part.isSolid, Part.isSignificant]
    | text spelling value =>
      simp only [Part.isSolid, Part.isSignificant, Bool.not_eq_true', List.all_eq_false] at hq ⊢
      obtain ⟨c, hc, hb⟩ := hq
      refine ⟨c, hc, fun hx => hb ?_⟩
      split_ifs
      · exact isBlank_of_isXmlBlank hx
      · exact hx

/-- Parts are not all blank where one of them is running text or markup. -/
theorem not_blank_iff {qs : List Part} : qs.all Part.isBlank = false ↔
    qs.any Part.isSignificant = true ∨ qs.any (fun q => !q.isText) = true := by
  have hpart (q : Part) : (!q.isBlank) = (q.isSignificant || !q.isText) := by
    cases q with
    | text => simp [Part.isBlank, Part.isSignificant, Part.isText]
    | raw | element => simp [Part.isBlank, Part.isText]
  rw [← Bool.not_eq_true', List.not_all_eq_any_not, funext hpart]
  simp only [List.any_eq_true, Bool.or_eq_true, and_or_left, exists_or]

theorem not_isText_layout (q : Part) (depth : Nat) (isRoot inline : Bool) (ht : q.isText = false) :
    (!(q.layout p depth isRoot inline).isText) = !q.isText := by
  rw [ht, isText_layout p depth isRoot inline ht]

theorem not_isText_runningValue (spelling value : Chars) (isFirst isLast : Bool) :
    (textParts (Printer.runningValue value isFirst isLast)).any (fun q => !q.isText) =
      !(Part.text spelling value).isText := by
  unfold textParts
  split_ifs <;> rfl

end Kinds

mutual

/-- The elements that are laid out, each as its tag and its children. -/
def Part.own : Part → List (Tag × List Part)
  | .element _ tag children _ =>
    (tag, children) ::
      if tag.preserveSpace && !children.isEmpty then [] else ownList false children
  | .text _ _ => []
  | .raw _ _ => []

def ownList (suppressed : Bool) : List Part → List (Tag × List Part)
  | [] => []
  | p :: ps => (if suppressed then [] else p.own) ++ ownList (p.regionAfter suppressed) ps

end

mutual

/-- The tags of the elements that are copied; `copied` says that the part itself is. -/
def Part.copiedTags (copied : Bool) : Part → List Tag
  | .element _ tag children _ =>
    (if copied then [tag] else []) ++
      copiedTagsList (copied || (tag.preserveSpace && !children.isEmpty)) false children
  | .text _ _ => []
  | .raw _ _ => []

def copiedTagsList (copied suppressed : Bool) : List Part → List Tag
  | [] => []
  | p :: ps =>
    p.copiedTags (copied || suppressed) ++ copiedTagsList copied (p.regionAfter suppressed) ps

end

def Part.tag? : Part → Option Tag
  | .element _ tag _ _ => some tag
  | _ => none

def partTags (ps : List Part) : List Tag := ps.filterMap Part.tag?

def Unmarked (ps : List Part) : Prop := ∀ p ∈ ps, p.marker? = none

mutual

def Part.tags : Part → List Tag
  | .element _ tag children _ => tag :: allTags children
  | .text _ _ => []
  | .raw _ _ => []

def allTags : List Part → List Tag
  | [] => []
  | p :: ps => p.tags ++ allTags ps

end

section Tags

mutual

theorem Part.copiedTags_true : ∀ q : Part, q.copiedTags true = q.tags
  | .text _ _ => rfl
  | .raw _ _ => rfl
  | .element _ tag children _ => by
    rw [Part.copiedTags, Part.tags, Bool.true_or, copiedTagsList_true children]
    rfl

theorem copiedTagsList_true : ∀ (ps : List Part) {suppressed : Bool},
    copiedTagsList true suppressed ps = allTags ps
  | [], _ => rfl
  | p :: ps, suppressed => by
    rw [copiedTagsList, allTags, Bool.true_or, p.copiedTags_true, copiedTagsList_true ps]

end

mutual

/-- Every element is of one kind. -/
theorem Part.tags_perm : ∀ q : Part, q.tags.Perm (q.own.map Prod.fst ++ q.copiedTags false)
  | .text _ _ => .nil
  | .raw _ _ => .nil
  | .element _ tag children _ => by
    rw [Part.tags, Part.own, Part.copiedTags, Bool.false_or]
    refine List.Perm.cons tag ?_
    cases tag.preserveSpace && !children.isEmpty with
    | true =>
      rw [copiedTagsList_true]
      exact .refl _
    | false => exact allTags_perm children false

theorem allTags_perm : ∀ (ps : List Part) (suppressed : Bool),
    (allTags ps).Perm ((ownList suppressed ps).map Prod.fst ++ copiedTagsList false suppressed ps)
  | [], _ => .nil
  | p :: ps, suppressed => by
    have hrest := allTags_perm ps (p.regionAfter suppressed)
    rw [allTags, ownList, copiedTagsList, List.map_append]
    have hp : p.tags.Perm ((if suppressed then [] else p.own).map Prod.fst ++
        p.copiedTags (false || suppressed)) := by
      cases suppressed with
      | true =>
        rw [Bool.or_true, p.copiedTags_true]
        exact .refl _
      | false => exact p.tags_perm
    refine (hp.append hrest).trans ?_
    rw [List.append_assoc, List.append_assoc]
    refine List.Perm.append_left _ ?_
    rw [← List.append_assoc, ← List.append_assoc]
    exact List.Perm.append_right _ List.perm_append_comm

end

mutual

theorem Part.tags_place : ∀ (q : Part) (pos : Nat),
    List.Forall₂ (fun w t => ∃ pos stop content, t = Tag.place pos stop content w) q.tags
      (q.place pos).tags
  | .text _ _, _ => .nil
  | .raw _ _, _ => .nil
  | .element _ _ children _, _ => .cons ⟨_, _, _, rfl⟩ (tagsList_placeList children _)

theorem tagsList_placeList : ∀ (ps : List Part) (pos : Nat),
    List.Forall₂ (fun w t => ∃ pos stop content, t = Tag.place pos stop content w) (allTags ps)
      (tagsList (placeList pos ps))
  | [], _ => .nil
  | p :: ps, pos => List.rel_append (p.tags_place pos) (tagsList_placeList ps _)

end

end Tags

section Dress

variable {R : Tag → Tag → Prop}

/-- What dressing makes of an element that is laid out. -/
def Redressed (R : Tag → Tag → Prop) (x y : Tag × List Part) : Prop :=
  (∃ pos stop content, R (x.1.place pos stop content) y.1) ∧
    (x.1.preserveSpace = false →
      ∃ inner ms, RetaggedList R (placeList inner x.2) ms ∧ y.2 = dressList false x.2 ms)

mutual

theorem Part.own_dress (hR : ∀ t u, R t u → t.Recast u) : ∀ (q : Part) (n : Node) (pos : Nat),
    (q.place pos).Retagged R n → List.Forall₂ (Redressed R) q.own (q.dress n).own
  | .text _ _, n, _, _ => by
    rw [dress_text]
    exact .nil
  | .raw _ _, n, _, _ => by
    cases n <;> exact .nil
  | .element opening tag children closing, n, pos, hn => by
    cases n with
    | text | raw => exact hn.elim
    | element u ms =>
      obtain ⟨hu, hms⟩ := hn
      have hpreserve : u.preserveSpace = tag.preserveSpace := (hR _ _ hu).preserveSpace
      rw [Part.dress, Part.own, Part.own, hpreserve]
      by_cases hp : (tag.preserveSpace && !children.isEmpty) = true
      · rw [if_pos hp, if_pos hp, if_pos hp]
        refine .cons ⟨⟨_, _, _, hu⟩, fun h => ?_⟩ .nil
        simp [show tag.preserveSpace = false from h] at hp
      · rw [if_neg hp, if_neg hp, isEmpty_dressList hms, if_neg hp]
        exact .cons ⟨⟨_, _, _, hu⟩, fun _ => ⟨_, ms, hms, rfl⟩⟩
          (ownList_dressList hR children ms _ false hms)

theorem ownList_dressList (hR : ∀ t u, R t u → t.Recast u) :
    ∀ (ps : List Part) (ns : List Node) (pos : Nat) (suppressed : Bool),
      RetaggedList R (placeList pos ps) ns →
      List.Forall₂ (Redressed R) (ownList suppressed ps)
        (ownList suppressed (dressList suppressed ps ns))
  | [], ns, _, _, hn => by
    cases ns with
    | nil => exact .nil
    | cons => exact hn.elim
  | p :: ps, ns, pos, suppressed, hn => by
    cases ns with
    | nil => exact hn.elim
    | cons n ns =>
      have hrest := ownList_dressList hR ps ns _ (p.regionAfter suppressed) hn.2
      rw [dressList, ownList, ownList]
      cases suppressed with
      | true => exact hrest
      | false =>
        rw [if_neg Bool.false_ne_true, if_neg Bool.false_ne_true, if_neg Bool.false_ne_true,
          regionAfter_dress]
        exact List.rel_append (p.own_dress hR n pos hn.1) hrest

end

mutual

theorem Part.copiedTags_dress (hR : ∀ t u, R t u → t.Recast u) :
    ∀ (q : Part) (n : Node) (pos : Nat), (q.place pos).Retagged R n →
      (q.dress n).copiedTags false = q.copiedTags false
  | .text _ _, n, _, _ => by rw [dress_text]
  | .raw _ _, n, _, _ => by cases n <;> rfl
  | .element opening tag children closing, n, pos, hn => by
    cases n with
    | text | raw => exact hn.elim
    | element u ms =>
      obtain ⟨hu, hms⟩ := hn
      have hpreserve : u.preserveSpace = tag.preserveSpace := (hR _ _ hu).preserveSpace
      rw [Part.dress, Part.copiedTags, Part.copiedTags, hpreserve]
      by_cases hp : (tag.preserveSpace && !children.isEmpty) = true
      · rw [if_pos hp]
        rfl
      · have hempty := isEmpty_dressList hms false
        rw [if_neg hp, hempty]
        rw [Bool.not_eq_true] at hp
        rw [hp]
        exact copiedTagsList_dressList hR children ms _ false hms

theorem copiedTagsList_dressList (hR : ∀ t u, R t u → t.Recast u) :
    ∀ (ps : List Part) (ns : List Node) (pos : Nat) (suppressed : Bool),
      RetaggedList R (placeList pos ps) ns →
      copiedTagsList false suppressed (dressList suppressed ps ns) =
        copiedTagsList false suppressed ps
  | [], ns, _, _, _ => by cases ns <;> rfl
  | p :: ps, ns, pos, suppressed, hn => by
    cases ns with
    | nil => exact hn.elim
    | cons n ns =>
      have hrest := copiedTagsList_dressList hR ps ns _ (p.regionAfter suppressed) hn.2
      rw [dressList, copiedTagsList, copiedTagsList]
      cases suppressed with
      | true => exact congrArg _ hrest
      | false =>
        rw [if_neg Bool.false_ne_true, regionAfter_dress, hrest]
        exact congrArg (· ++ _) (p.copiedTags_dress hR n pos hn.1)

end

mutual

/-- The qualifiers of what a document copies are those of the parts that are copied. -/
theorem Part.copiedQualifiers_eq (hR : ∀ t u, R t u → t.Recast u)
    (hq : ∀ t u, R t u → u.qualifiers = t.qualifiers) :
    ∀ (q : Part) (n : Node) (pos nest : Nat) (copied : Bool), q.Fits nest →
      (q.place pos).Retagged R n →
      n.copiedQualifiers copied = (q.copiedTags copied).flatMap Tag.qualifiers
  | .text _ _, n, _, _, _, _, hn => by
    cases n with
    | text => rfl
    | raw | element => exact hn.elim
  | .raw _ _, n, _, _, _, _, hn => by
    cases n with
    | raw => rfl
    | text | element => exact hn.elim
  | .element opening tag children closing, n, pos, nest, copied, hf, hn => by
    cases n with
    | text | raw => exact hn.elim
    | element u ms =>
      obtain ⟨hu, hms⟩ := hn
      have hrecast := hR _ _ hu
      obtain ⟨-, -, hself, -, hvalid⟩ := hf.valid (by simp)
      have hpreserved : u.preserved?.isSome = (tag.preserveSpace && !children.isEmpty) := by
        rw [hrecast.preserved?_eq (fun hs => (hself hs).1) hvalid]
        split_ifs with hp
        · exact hp.symm
        · simpa using hp
      have htag : u.qualifiers = tag.qualifiers := by
        rw [hq _ _ hu]
        simp [Tag.qualifiers, Tag.place, Function.comp_def]
      rw [Node.copiedQualifiers, Part.copiedTags, List.flatMap_append, hpreserved,
        copiedQualifiersList_eq hR hq children ms _ (nest + 1) _ false
          (fun p hp => .inl (hvalid.valid p hp)) hms]
      cases copied with
      | true => simp [htag]
      | false => rfl

theorem copiedQualifiersList_eq (hR : ∀ t u, R t u → t.Recast u)
    (hq : ∀ t u, R t u → u.qualifiers = t.qualifiers) :
    ∀ (ps : List Part) (ns : List Node) (pos nest : Nat) (copied suppressed : Bool),
      (∀ p ∈ ps, p.Fits nest) → RetaggedList R (placeList pos ps) ns →
      copiedQualifiersList copied suppressed ns =
        (copiedTagsList copied suppressed ps).flatMap Tag.qualifiers
  | [], ns, _, _, _, _, _, hn => by
    cases ns with
    | nil => rfl
    | cons => exact hn.elim
  | p :: ps, ns, pos, nest, copied, suppressed, hf, hn => by
    cases ns with
    | nil => exact hn.elim
    | cons n ns =>
      obtain ⟨hp, hps⟩ := List.forall_mem_cons.mp hf
      have hregion : (if suppressed then n.marker? != some .on else n.marker? == some .off) =
          p.regionAfter suppressed := by
        rw [hn.1.marker?_eq]
        rfl
      rw [copiedQualifiersList, copiedTagsList, List.flatMap_append, hregion,
        p.copiedQualifiers_eq hR hq n pos nest _ hp hn.1,
        copiedQualifiersList_eq hR hq ps ns _ nest copied _ hps hn.2]

end

end Dress

section Layout

variable {p : Printer}

/-- The second tag is the first as it is read once it is printed. -/
def Printed (p : Printer) (t w : Tag) : Prop :=
  ∃ depth isRoot inline ending, w = fresh (p.unixContext depth isRoot inline) t ending

structure Relisted (p : Printer) (cs cs' : List Part) : Prop where
  tags : Unmarked cs → List.Forall₂ (Printed p) (partTags cs) (partTags cs')
  markers : Unmarked cs' → Unmarked cs
  solid : hasSolid true false cs = true → cs'.any Part.isSignificant = true

def Relaid (p : Printer) (x y : Tag × List Part) : Prop :=
  Printed p x.1 y.1 ∧ (x.1.preserveSpace = false → Relisted p x.2 y.2)

theorem partTags_append (ps qs : List Part) : partTags (ps ++ qs) = partTags ps ++ partTags qs :=
  List.filterMap_append

theorem partTags_textParts (value : Chars) : partTags (textParts value) = [] := by
  unfold textParts
  split_ifs <;> rfl

theorem partTags_cons_of_isText {q : Part} (h : q.isText = true) (qs : List Part) :
    partTags (q :: qs) = partTags qs := by
  obtain ⟨spelling, value, rfl⟩ := Part.exists_of_isText h
  rfl

theorem partTags_of_isText {qs : List Part} (h : ∀ q ∈ qs, q.isText = true) : partTags qs = [] := by
  induction qs with
  | nil => rfl
  | cons q qs ih =>
    obtain ⟨hq, hqs⟩ := List.forall_mem_cons.mp h
    rw [partTags_cons_of_isText hq, ih hqs]

theorem Unmarked.regionAfter {q : Part} {qs : List Part} (h : Unmarked (q :: qs)) :
    q.regionAfter false = false := by
  rw [Part.regionAfter, h q (by simp)]
  rfl

theorem Unmarked.tail {q : Part} {qs : List Part} (h : Unmarked (q :: qs)) : Unmarked qs :=
  fun r hr => h r (List.mem_cons_of_mem _ hr)

theorem partTags_layout_cons {q : Part} (depth : Nat) (isRoot inline : Bool) {qs rs : List Part}
    (h : List.Forall₂ (Printed p) (partTags qs) (partTags rs)) :
    List.Forall₂ (Printed p) (partTags (q :: qs))
      (partTags (q.layout p depth isRoot inline :: rs)) := by
  cases q with
  | text | raw => exact h
  | element opening tag children closing =>
    obtain ⟨ending, cs, c, he⟩ := Part.exists_layout p depth isRoot inline tag children opening closing
    rw [he]
    exact .cons ⟨_, _, _, _, rfl⟩ h

theorem partTags_layoutBlock (depth : Nat) (top fresh : Bool) (breaks : Nat) {qs : List Part}
    (h : Unmarked qs) : List.Forall₂ (Printed p) (partTags qs)
      (partTags (layoutBlock p depth top ⟨fresh, breaks, false⟩ qs).1) := by
  induction qs generalizing fresh breaks with
  | nil => exact .nil
  | cons q qs ih =>
    cases hb : q.isBlank with
    | true =>
      rw [layoutBlock_of_isBlank _ _ _ _ hb, partTags_cons_of_isText (Part.isText_of_isBlank hb)]
      exact ih _ _ h.tail
    | false =>
      rw [layoutBlock_node _ _ _ _ hb, partTags_append, partTags_textParts, h.regionAfter]
      exact partTags_layout_cons _ _ _ (ih _ _ h.tail)

theorem partTags_layoutInline (depth : Nat) (isFirst : Bool) {qs : List Part}
    (h : Unmarked qs) : List.Forall₂ (Printed p) (partTags qs)
      (partTags (layoutInline p depth isFirst false qs)) := by
  induction qs generalizing isFirst with
  | nil => exact .nil
  | cons q qs ih =>
    obtain ⟨spelling, value, rfl⟩ | ht := q.eq_text_or
    · rw [layoutInline_text, partTags_append, partTags_textParts]
      exact ih _ h.tail
    · rw [layoutInline_node p depth isFirst ht, h.regionAfter]
      exact partTags_layout_cons _ _ _ (ih _ h.tail)

theorem unmarked_iff {qs : List Part} :
    Unmarked qs ↔ qs.any (fun q => q.marker?.isSome) = false := by
  simp [Unmarked, List.any_eq_false]

theorem isSome_marker?_of_isText {q : Part} (h : q.isText = true) : q.marker?.isSome = false := by
  obtain ⟨spelling, value, rfl⟩ := Part.exists_of_isText h
  rfl

theorem relisted_layoutInline (depth : Nat) (qs : List Part) :
    Relisted p qs (layoutInline p depth true false qs) where
  tags := partTags_layoutInline depth true
  markers h := by
    rw [unmarked_iff] at h ⊢
    rw [← h, any_layoutInline]
    · exact fun q depth isRoot inline _ => by rw [marker?_layout]
    · intro spelling value isFirst isLast
      unfold textParts
      split_ifs <;> rfl
  solid h := (any_isSignificant_layoutInline depth true false qs).trans h

theorem relisted_layoutBlock (depth : Nat) {qs tail : List Part} (ht : ∀ t ∈ tail, t.isText = true)
    (hs : qs.any Part.isSignificant = false) :
    Relisted p qs ((layoutBlock p depth false ⟨true, 0, false⟩ qs).1 ++ tail) where
  tags h := by
    rw [partTags_append, partTags_of_isText ht, List.append_nil]
    exact partTags_layoutBlock depth false true 0 h
  markers h := by
    rw [unmarked_iff] at h ⊢
    rw [List.any_append, Bool.or_eq_false_iff] at h
    rw [← h.1, any_layoutBlock _ _ _ _ _ (Part.isBlank_of_any_isSignificant hs)]
    · exact fun q depth isRoot inline _ => by rw [marker?_layout]
    · exact fun q hq => isSome_marker?_of_isText (Part.isText_of_isBlank hq)
  solid h := by
    rw [any_isSignificant_of_hasSolid h] at hs
    cases hs

theorem Relisted.blank {cs : List Part} (h : cs.all Part.isBlank = true) : Relisted p cs [] where
  tags _ := by
    rw [partTags_of_isText fun q hq => Part.isText_of_isBlank (List.all_eq_true.mp h q hq)]
    exact .nil
  markers _ q hq := by
    have := isSome_marker?_of_isText (Part.isText_of_isBlank (List.all_eq_true.mp h q hq))
    simpa using this
  solid hs := by
    rw [not_blank_iff.mpr (.inl (any_isSignificant_of_hasSolid hs))] at h
    cases h

theorem ownList_of_isText {ps : List Part} (h : ∀ q ∈ ps, q.isText = true) (suppressed : Bool) :
    ownList suppressed ps = [] := by
  induction ps generalizing suppressed with
  | nil => rfl
  | cons q ps ih =>
    obtain ⟨hq, hps⟩ := List.forall_mem_cons.mp h
    obtain ⟨spelling, value, rfl⟩ := Part.exists_of_isText hq
    rw [ownList, ih hps, Part.own, ite_self, List.append_nil]

theorem ownList_append_of_isText (ps : List Part) {tail : List Part}
    (h : ∀ q ∈ tail, q.isText = true) (suppressed : Bool) :
    ownList suppressed (ps ++ tail) = ownList suppressed ps := by
  induction ps generalizing suppressed with
  | nil => exact ownList_of_isText h suppressed
  | cons q ps ih => rw [List.cons_append, ownList, ownList, ih]

theorem ownList_textParts (value : Chars) (ps : List Part) :
    ownList false (textParts value ++ ps) = ownList false ps := by
  unfold textParts
  split_ifs <;> rfl

mutual

/-- The layout keeps the elements that are laid out. -/
theorem Part.own_layout : ∀ (q : Part) (depth : Nat) (isRoot inline : Bool),
    (∀ x ∈ q.own, ∀ w, Printed p x.1 w → w.preserveSpace = x.1.preserveSpace) →
    List.Forall₂ (Relaid p) q.own (q.layout p depth isRoot inline).own
  | .text _ _, _, _, _, _ => .nil
  | .raw _ _, _, _, _, _ => .nil
  | .element opening tag children closing, depth, isRoot, inline, h => by
    rw [Part.own, List.forall_mem_cons] at h
    obtain ⟨hspace, h⟩ := h
    have htag (ending : TagEnd) :
        Printed p tag (fresh (p.unixContext depth isRoot inline) tag ending) := ⟨_, _, _, _, rfl⟩
    have hown (ending : TagEnd) (cs : List Part) (c : Chars) :
        (Printer.element (p.unixContext depth isRoot inline) tag ending cs c).own =
          (fresh (p.unixContext depth isRoot inline) tag ending, cs) ::
            if tag.preserveSpace && !cs.isEmpty then [] else ownList false cs := by
      rw [Printer.element, Part.own, hspace _ (htag _)]
    obtain ⟨out, hlaid⟩ := p.exists_laysOut depth isRoot inline tag children
    rw [hlaid.layout_eq, Part.own]
    cases hlaid with
    | copied hp =>
      rw [hown, if_pos hp]
      refine .cons ⟨htag _, fun hps => ?_⟩ .nil
      simp [show tag.preserveSpace = false from hps] at hp
    | selfClosed hp hb | empty hp hb =>
      have hnone := ownList_of_isText (fun q hq =>
        Part.isText_of_isBlank (List.all_eq_true.mp hb q hq)) false
      rw [hown, hnone, ite_self]
      exact .cons ⟨htag _, fun _ => .blank hb⟩ (by simp [ownList])
    | running hp =>
      rw [hp, Bool.false_and, if_neg Bool.false_ne_true] at h ⊢
      rw [hown, hp, Bool.false_and, if_neg Bool.false_ne_true]
      exact .cons ⟨htag _, fun _ => relisted_layoutInline _ _⟩
        (ownList_layoutInline children depth true false h)
    | block hp _ _ hs =>
      rw [hp, Bool.false_and, if_neg Bool.false_ne_true] at h ⊢
      rw [hown, hp, Bool.false_and, if_neg Bool.false_ne_true,
        ownList_append_of_isText _ Printer.isText_of_mem_blockEnd]
      exact .cons ⟨htag _, fun _ => relisted_layoutBlock _ Printer.isText_of_mem_blockEnd hs⟩
        (ownList_layoutBlock children (depth + 1) false true 0 false h)

theorem ownList_layoutBlock : ∀ (qs : List Part) (depth : Nat) (top fresh : Bool) (breaks : Nat)
    (suppressed : Bool),
    (∀ x ∈ ownList suppressed qs, ∀ w, Printed p x.1 w → w.preserveSpace = x.1.preserveSpace) →
    List.Forall₂ (Relaid p) (ownList suppressed qs)
      (ownList suppressed (layoutBlock p depth top ⟨fresh, breaks, suppressed⟩ qs).1)
  | [], _, _, _, _, _, _ => .nil
  | q :: qs, depth, top, fresh, breaks, suppressed, h => by
    rw [ownList, List.forall_mem_append] at h
    obtain ⟨hq, h⟩ := h
    rw [ownList]
    cases suppressed with
    | true =>
      rw [layoutBlock_of_suppressed]
      exact ownList_layoutBlock qs depth top fresh breaks _ h
    | false =>
      cases hb : q.isBlank with
      | true =>
        obtain ⟨spelling, value, rfl⟩ := Part.exists_of_isText (Part.isText_of_isBlank hb)
        rw [layoutBlock_of_isBlank _ _ _ _ hb]
        exact ownList_layoutBlock qs depth top fresh _ false h
      | false =>
        rw [layoutBlock_node _ _ _ _ hb, ownList_textParts, ownList, regionAfter_layout]
        exact List.rel_append (q.own_layout depth top false hq)
          (ownList_layoutBlock qs depth top false 0 _ h)

theorem ownList_layoutInline : ∀ (qs : List Part) (depth : Nat) (isFirst suppressed : Bool),
    (∀ x ∈ ownList suppressed qs, ∀ w, Printed p x.1 w → w.preserveSpace = x.1.preserveSpace) →
    List.Forall₂ (Relaid p) (ownList suppressed qs)
      (ownList suppressed (layoutInline p depth isFirst suppressed qs))
  | [], _, _, _, _ => .nil
  | q :: qs, depth, isFirst, suppressed, h => by
    rw [ownList, List.forall_mem_append] at h
    obtain ⟨hq, h⟩ := h
    rw [ownList]
    cases suppressed with
    | true =>
      rw [layoutInline_suppressed]
      exact ownList_layoutInline qs depth false (q.regionAfter true) h
    | false =>
      obtain ⟨spelling, value, rfl⟩ | ht := q.eq_text_or
      · rw [layoutInline_text, ownList_textParts]
        exact ownList_layoutInline qs depth false false h
      · rw [layoutInline_node p depth isFirst ht, ownList, regionAfter_layout]
        exact List.rel_append (q.own_layout (depth + 1) false true hq)
          (ownList_layoutInline qs depth false (q.regionAfter false) h)

end

theorem copiedTags_element (opening : Chars) (tag : Tag) (children : List Part) (closing : Chars) :
    (Part.element opening tag children closing).copiedTags false =
      copiedTagsList (tag.preserveSpace && !children.isEmpty) false children := rfl

theorem copiedTagsList_of_isText {ps : List Part} (h : ∀ q ∈ ps, q.isText = true)
    (copied suppressed : Bool) : copiedTagsList copied suppressed ps = [] := by
  induction ps generalizing suppressed with
  | nil => rfl
  | cons q ps ih =>
    obtain ⟨hq, hps⟩ := List.forall_mem_cons.mp h
    obtain ⟨spelling, value, rfl⟩ := Part.exists_of_isText hq
    rw [copiedTagsList, ih hps, Part.copiedTags, List.append_nil]

theorem copiedTagsList_append_of_isText (ps : List Part) {tail : List Part}
    (h : ∀ q ∈ tail, q.isText = true) (copied suppressed : Bool) :
    copiedTagsList copied suppressed (ps ++ tail) = copiedTagsList copied suppressed ps := by
  induction ps generalizing suppressed with
  | nil => exact copiedTagsList_of_isText h copied suppressed
  | cons q ps ih => rw [List.cons_append, copiedTagsList, copiedTagsList, ih]

theorem copiedTagsList_textParts (value : Chars) (ps : List Part) (copied : Bool) :
    copiedTagsList copied false (textParts value ++ ps) = copiedTagsList copied false ps := by
  unfold textParts
  split_ifs <;> rfl

mutual

theorem Part.copiedTags_layout : ∀ (q : Part) (depth : Nat) (isRoot inline : Bool),
    (∀ x ∈ q.own, ∀ w, Printed p x.1 w → w.preserveSpace = x.1.preserveSpace) →
    (q.layout p depth isRoot inline).copiedTags false = q.copiedTags false
  | .text _ _, _, _, _, _ => rfl
  | .raw _ _, _, _, _, _ => rfl
  | .element opening tag children closing, depth, isRoot, inline, h => by
    rw [Part.own, List.forall_mem_cons] at h
    obtain ⟨hspace, h⟩ := h
    have htag (ending : TagEnd) :
        Printed p tag (fresh (p.unixContext depth isRoot inline) tag ending) := ⟨_, _, _, _, rfl⟩
    -- of a printed element only the children count
    have hprinted (ending : TagEnd) (cs : List Part) (c : Chars) :
        (Printer.element (p.unixContext depth isRoot inline) tag ending cs c).copiedTags false =
          copiedTagsList (tag.preserveSpace && !cs.isEmpty) false cs := by
      rw [Printer.element, copiedTags_element, hspace _ (htag _)]
    obtain ⟨out, hlaid⟩ := p.exists_laysOut depth isRoot inline tag children
    rw [copiedTags_element, hlaid.layout_eq]
    cases hlaid with
    | copied => rw [hprinted]
    | selfClosed hp hb | empty hp hb =>
      have hnone := copiedTagsList_of_isText (fun q hq =>
        Part.isText_of_isBlank (List.all_eq_true.mp hb q hq)) false false
      rw [hprinted, hp, hnone, copiedTagsList]
    | running hp =>
      rw [hp, Bool.false_and, if_neg Bool.false_ne_true] at h
      rw [hprinted, hp, Bool.false_and, Bool.false_and]
      exact copiedTagsList_layoutInline children depth true false h
    | block hp =>
      rw [hp, Bool.false_and, if_neg Bool.false_ne_true] at h
      rw [hprinted, hp, Bool.false_and, Bool.false_and,
        copiedTagsList_append_of_isText _ Printer.isText_of_mem_blockEnd]
      exact copiedTagsList_layoutBlock children (depth + 1) false true 0 false h

theorem copiedTagsList_layoutBlock : ∀ (qs : List Part) (depth : Nat) (top fresh : Bool)
    (breaks : Nat) (suppressed : Bool),
    (∀ x ∈ ownList suppressed qs, ∀ w, Printed p x.1 w → w.preserveSpace = x.1.preserveSpace) →
    copiedTagsList false suppressed (layoutBlock p depth top ⟨fresh, breaks, suppressed⟩ qs).1 =
      copiedTagsList false suppressed qs
  | [], _, _, _, _, _, _ => rfl
  | q :: qs, depth, top, fresh, breaks, suppressed, h => by
    rw [ownList, List.forall_mem_append] at h
    obtain ⟨hq, h⟩ := h
    rw [copiedTagsList]
    cases suppressed with
    | true =>
      rw [layoutBlock_of_suppressed, copiedTagsList,
        copiedTagsList_layoutBlock qs depth top fresh breaks _ h]
    | false =>
      cases hb : q.isBlank with
      | true =>
        obtain ⟨spelling, value, rfl⟩ := Part.exists_of_isText (Part.isText_of_isBlank hb)
        rw [layoutBlock_of_isBlank _ _ _ _ hb]
        exact copiedTagsList_layoutBlock qs depth top fresh _ false h
      | false =>
        rw [layoutBlock_node _ _ _ _ hb, copiedTagsList_textParts, copiedTagsList,
          regionAfter_layout, copiedTagsList_layoutBlock qs depth top false 0 _ h]
        exact congrArg (· ++ _) (q.copiedTags_layout depth top false hq)

theorem copiedTagsList_layoutInline : ∀ (qs : List Part) (depth : Nat) (isFirst suppressed : Bool),
    (∀ x ∈ ownList suppressed qs, ∀ w, Printed p x.1 w → w.preserveSpace = x.1.preserveSpace) →
    copiedTagsList false suppressed (layoutInline p depth isFirst suppressed qs) =
      copiedTagsList false suppressed qs
  | [], _, _, _, _ => rfl
  | q :: qs, depth, isFirst, suppressed, h => by
    rw [ownList, List.forall_mem_append] at h
    obtain ⟨hq, h⟩ := h
    rw [copiedTagsList]
    cases suppressed with
    | true =>
      rw [layoutInline_suppressed, copiedTagsList]
      exact congrArg _ (copiedTagsList_layoutInline qs depth false (q.regionAfter true) h)
    | false =>
      obtain ⟨spelling, value, rfl⟩ | ht := q.eq_text_or
      · rw [layoutInline_text, copiedTagsList_textParts]
        exact copiedTagsList_layoutInline qs depth false false h
      · rw [layoutInline_node p depth isFirst ht, copiedTagsList, regionAfter_layout]
        exact congrArg₂ (· ++ ·) (q.copiedTags_layout (depth + 1) false true hq)
          (copiedTagsList_layoutInline qs depth false (q.regionAfter false) h)

end

theorem own_layoutTop (trailing : Bool) {qs : List Part}
    (h : ∀ x ∈ ownList false qs, ∀ w, Printed p x.1 w → w.preserveSpace = x.1.preserveSpace) :
    List.Forall₂ (Relaid p) (ownList false qs) (ownList false (layoutTop p trailing qs)) ∧
      copiedTagsList false false (layoutTop p trailing qs) = copiedTagsList false false qs := by
  have hown := ownList_layoutBlock (p := p) qs 0 true true 0 false h
  have hcopied := copiedTagsList_layoutBlock (p := p) qs 0 true true 0 false h
  have hsplit := List.rdropWhile_append_rtakeWhile (p := Part.isText)
    (l := (layoutBlock p 0 true ⟨true, 0, false⟩ qs).1)
  have htexts : ∀ t ∈ (layoutBlock p 0 true ⟨true, 0, false⟩ qs).1.rtakeWhile Part.isText,
      t.isText = true := fun t ht => List.mem_rtakeWhile_imp ht
  have hend : ∀ t ∈ (if trailing then [Part.text ['\n'] ['\n']] else []), t.isText = true := by
    intro t ht
    rw [List.mem_singleton.mp (List.mem_ite_nil_right.mp ht).2]
    rfl
  rw [← hsplit, ownList_append_of_isText _ htexts] at hown
  rw [← hsplit, copiedTagsList_append_of_isText _ htexts] at hcopied
  rw [layoutTop, ownList_append_of_isText _ hend, copiedTagsList_append_of_isText _ hend]
  exact ⟨hown, hcopied⟩

end Layout

end XamlFormat
