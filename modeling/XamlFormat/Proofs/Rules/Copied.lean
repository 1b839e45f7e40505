import XamlFormat.Proofs.Layout.Regions

/-! Which qualifiers are copied. The walk over the tree that collects them and the parts of the source
that the printer copies agree: the tags that count are those whose bytes lie in such a part. -/
namespace XamlFormat

open Markup Text

/-- The span lies in one of the copied parts. -/
def Span.Copied (vs : List Verbatim) (s : Span) : Prop :=
  ∃ v ∈ vs, v.start ≤ s.start ∧ s.stop ≤ v.stop

instance (vs : List Verbatim) (s : Span) : Decidable (s.Copied vs) :=
  inferInstanceAs (Decidable (∃ v ∈ vs, v.start ≤ s.start ∧ s.stop ≤ v.stop))

mutual

theorem Node.qualifiers_subset_copied : ∀ {n : Node} {t : Tag}, t ∈ n.tags →
    t.qualifiers ⊆ n.copiedQualifiers true
  | .element tag ns, t, h => by
    rw [Node.copiedQualifiers, if_pos rfl, Bool.true_or]
    rw [Node.tags] at h
    obtain rfl | h := List.mem_cons.mp h
    · exact List.subset_append_left _ _
    · exact List.subset_append_of_subset_right _ (qualifiers_subset_copiedList h false)
  | .text _ _, _, h => by simp [Node.tags] at h
  | .raw _ _ _, _, h => by simp [Node.tags] at h

theorem qualifiers_subset_copiedList : ∀ {ns : List Node} {t : Tag}, t ∈ tagsList ns →
    ∀ suppressed : Bool, t.qualifiers ⊆ copiedQualifiersList true suppressed ns
  | [], _, h, _ => by simp [tagsList] at h
  | n :: ns, t, h, suppressed => by
    rw [copiedQualifiersList, Bool.true_or]
    rw [tagsList] at h
    obtain h | h := List.mem_append.mp h
    · exact List.subset_append_of_subset_left _ (n.qualifiers_subset_copied h)
    · exact List.subset_append_of_subset_right _ (qualifiers_subset_copiedList h _)

end

theorem tags_of_marker {n : Node} {m : Marker} (h : n.marker? = some m) : n.tags = [] := by
  cases n with
  | element => simp [Node.marker?] at h
  | text | raw => rfl

mutual

theorem Part.within_place (depth : Nat) : ∀ (p : Part) (pos : Nat), p.Fits depth →
    ∀ t ∈ (p.place pos).tags, pos ≤ t.span.start ∧ t.span.start < t.span.stop ∧
      t.span.stop ≤ pos + byteLength p.spelled
  | .text _ _, _, _ => by simp [Part.place, Node.tags]
  | .raw _ _, _, _ => by simp [Part.place, Node.tags]
  | .element opening tag children closing, pos, h => by
    obtain ⟨-, ⟨w, -, rfl, -⟩, -, -, hcs⟩ := h.valid (by simp)
    have hopen : 0 < byteLength w.text := byteLength_pos (by simp [WrittenTag.text])
    have hin := within_placeList (depth + 1) children (pos + byteLength w.text)
      fun q hq => .inl (hcs.valid q hq)
    simp only [Part.place, Node.tags, List.forall_mem_cons, Tag.place, Part.spelled,
      byteLength_append]
    refine ⟨by omega, fun t ht => ?_⟩
    have := hin t ht
    omega

theorem within_placeList (depth : Nat) : ∀ (parts : List Part) (pos : Nat),
    (∀ p ∈ parts, p.Fits depth) → ∀ t ∈ tagsList (placeList pos parts),
      pos ≤ t.span.start ∧ t.span.start < t.span.stop ∧
        t.span.stop ≤ pos + byteLength (spelledList parts)
  | [], _, _ => by simp [placeList, tagsList]
  | p :: ps, pos, h => by
    obtain ⟨hp, hps⟩ := List.forall_mem_cons.mp h
    simp only [placeList, tagsList, List.mem_append, spelledList, byteLength_append]
    rintro t (ht | ht)
    · have := p.within_place depth pos hp t ht
      omega
    · have := within_placeList depth ps (pos + byteLength p.spelled) hps t ht
      omega

end

theorem closeOf_placeList_le (stop : Nat) (parts : List Part) (pos : Nat) :
    closeOf stop (placeList pos parts) ≤ max stop (pos + byteLength (spelledList parts)) := by
  induction parts generalizing pos with
  | nil => exact le_max_left _ _
  | cons p ps ih =>
    have := ih (pos + byteLength p.spelled)
    rw [placeList, spelledList, byteLength_append]
    by_cases hon : (p.place pos).marker? = some .on
    · rw [closeOf_cons_on hon, p.span_place]
      dsimp only
      omega
    · rw [closeOf_cons_of_ne hon]
      omega

theorem Tag.contentEnd_place_le (t : Tag) (pos inner : Nat) {outer stop : Nat} (h : outer ≤ stop) :
    Printer.contentEnd (t.place pos stop (if t.selfClosing then none else some ⟨inner, outer⟩)) ≤
      stop := by
  cases hs : t.selfClosing with
  | true => simp [Printer.contentEnd, Tag.place]
  | false => simpa [Printer.contentEnd, Tag.place] using h

theorem Tag.le_contentEnd_place (t : Tag) (pos inner : Nat) {outer stop : Nat} (h : outer ≤ stop) :
    outer ≤
      Printer.contentEnd (t.place pos stop (if t.selfClosing then none else some ⟨inner, outer⟩)) := by
  cases hs : t.selfClosing with
  | true => simpa [Printer.contentEnd, Tag.place] using h
  | false => simp [Printer.contentEnd, Tag.place]

mutual

/-- What is copied of a part lies within it, behind where it starts. -/
theorem Part.verbatim_place (depth : Nat) : ∀ (p : Part) (pos : Nat), p.Fits depth →
    ∀ v ∈ (p.place pos).verbatim, pos < v.start ∧ v.stop ≤ pos + byteLength p.spelled
  | .text _ _, _, _ => by simp [Part.place, Node.verbatim]
  | .raw _ _, _, _ => by simp [Part.place, Node.verbatim]
  | .element opening tag children closing, pos, h => by
    obtain ⟨-, ⟨w, -, rfl, -⟩, -, -, hcs⟩ := h.valid (by simp)
    have hopen : 0 < byteLength w.text := byteLength_pos (by simp [WrittenTag.text])
    simp only [Part.place, Node.verbatim, Part.spelled, byteLength_append]
    split
    · rename_i content hc
      have hcontent := Tag.content_of_preserved? hc
      simp only [Tag.place] at hcontent
      split_ifs at hcontent
      cases hcontent
      simp only [List.mem_singleton, forall_eq]
      omega
    · intro v hv
      have hin := verbatim_placeList (depth + 1) children (pos + byteLength w.text) _ false
        (fun q hq => .inl (hcs.valid q hq)) v hv
      have hend := tag.contentEnd_place_le pos (pos + byteLength w.text)
        (Nat.le_add_right (pos + byteLength w.text + byteLength (spelledList children))
          (byteLength closing))
      omega

theorem verbatim_placeList (depth : Nat) : ∀ (parts : List Part) (pos stop : Nat) (inside : Bool),
    (∀ p ∈ parts, p.Fits depth) → ∀ v ∈ verbatimList stop inside (placeList pos parts),
      pos ≤ v.start ∧ v.stop ≤ max stop (pos + byteLength (spelledList parts))
  | [], _, _, _, _ => by simp [placeList, verbatimList]
  | p :: ps, pos, stop, inside, h => by
    obtain ⟨hp, hps⟩ := List.forall_mem_cons.mp h
    have hrest (inside : Bool) := verbatim_placeList depth ps (pos + byteLength p.spelled) stop
      inside hps
    rw [placeList, verbatimList, spelledList, byteLength_append]
    split_ifs with hinside hoff
    · intro v hv
      have := hrest _ v hv
      omega
    · refine List.forall_mem_cons.mpr ⟨?_, fun v hv => ?_⟩
      · have := closeOf_placeList_le stop ps (pos + byteLength p.spelled)
        rw [p.span_place]
        dsimp only
        omega
      · have := hrest _ v hv
        omega
    · refine List.forall_mem_append.mpr ⟨fun v hv => ?_, fun v hv => ?_⟩
      · have := p.verbatim_place depth pos hp v hv
        omega
      · have := hrest _ v hv
        omega

end

/-- What stands in a region behind its marker counts as copied: what follows the marker at the end of
the region stops behind it. -/
theorem qualifiers_subset_region {depth stop : Nat} {t : Tag} : ∀ (parts : List Part) (pos : Nat),
    (∀ p ∈ parts, p.Fits depth) → t ∈ tagsList (placeList pos parts) →
    t.span.stop ≤ closeOf stop (placeList pos parts) →
    t.qualifiers ⊆ copiedQualifiersList false true (placeList pos parts)
  | [], _, _, ht, _ => by simp [placeList, tagsList] at ht
  | p :: ps, pos, h, ht, hstop => by
    obtain ⟨-, hps⟩ := List.forall_mem_cons.mp h
    rw [placeList, copiedQualifiersList, Bool.false_or, if_pos rfl]
    rw [placeList, tagsList] at ht
    rw [placeList] at hstop
    obtain ht | ht := List.mem_append.mp ht
    · exact List.subset_append_of_subset_left _ (Node.qualifiers_subset_copied ht)
    · have hon : (p.place pos).marker? ≠ some .on := by
        intro hon
        rw [closeOf_cons_on hon, p.span_place] at hstop
        dsimp only at hstop
        have := within_placeList depth ps _ hps t ht
        omega
      rw [closeOf_cons_of_ne hon] at hstop
      rw [bne_iff_ne.mpr hon]
      exact List.subset_append_of_subset_right _ (qualifiers_subset_region ps _ hps ht hstop)

mutual

/-- Tags within a copied part count as copied. Spans of siblings do not meet, so the part and the tag
come from the same one of them. -/
theorem Part.qualifiers_subset_of_within (depth : Nat) {t : Tag} {v : Verbatim} :
    ∀ (p : Part) (pos : Nat), p.Fits depth → t ∈ (p.place pos).tags → v ∈ (p.place pos).verbatim →
    v.start ≤ t.span.start → t.span.stop ≤ v.stop →
    t.qualifiers ⊆ (p.place pos).copiedQualifiers false
  | .text _ _, _, _, ht, _, _, _ => by simp [Part.place, Node.tags] at ht
  | .raw _ _, _, _, ht, _, _, _ => by simp [Part.place, Node.tags] at ht
  | .element opening tag children closing, pos, h, ht, hv, hstart, hstop => by
    have hbehind := (Part.verbatim_place depth _ pos h v hv).1
    obtain ⟨-, -, -, -, hcs⟩ := h.valid (by simp)
    simp only [Part.place, Node.tags] at ht
    obtain rfl | ht := List.mem_cons.mp ht
    · -- The element itself starts in front of whatever is copied of it.
      simp only [Tag.place] at hstart
      omega
    · simp only [Part.place, Node.verbatim] at hv
      simp only [Part.place, Node.copiedQualifiers, Bool.false_or]
      rw [if_neg Bool.false_ne_true, List.nil_append]
      split at hv
      · rename_i content hc
        rw [hc]
        exact qualifiers_subset_copiedList ht false
      · rename_i hc
        rw [hc]
        exact qualifiers_subset_of_withinList (depth + 1) children _ _ false
          (fun q hq => .inl (hcs.valid q hq)) ht hv hstart hstop

theorem qualifiers_subset_of_withinList (depth : Nat) {t : Tag} {v : Verbatim} :
    ∀ (parts : List Part) (pos stop : Nat) (inside : Bool), (∀ p ∈ parts, p.Fits depth) →
    t ∈ tagsList (placeList pos parts) → v ∈ verbatimList stop inside (placeList pos parts) →
    v.start ≤ t.span.start → t.span.stop ≤ v.stop →
    t.qualifiers ⊆ copiedQualifiersList false inside (placeList pos parts)
  | [], _, _, _, _, ht, _, _, _ => by simp [placeList, tagsList] at ht
  | p :: ps, pos, stop, inside, h, ht, hv, hstart, hstop => by
    obtain ⟨hp, hps⟩ := List.forall_mem_cons.mp h
    have hrest (inside : Bool) := qualifiers_subset_of_withinList depth (t := t) (v := v) ps
      (pos + byteLength p.spelled) stop inside hps
    rw [placeList, tagsList] at ht
    rw [placeList, verbatimList] at hv
    rw [placeList, copiedQualifiersList, Bool.false_or]
    split_ifs at hv with hinside hoff
    · rw [if_pos hinside]
      obtain ht | ht := List.mem_append.mp ht
      · rw [hinside]
        exact List.subset_append_of_subset_left _ (Node.qualifiers_subset_copied ht)
      · exact List.subset_append_of_subset_right _ (hrest _ ht hv hstart hstop)
    · rw [tags_of_marker hoff, List.nil_append] at ht
      rw [if_neg hinside, beq_iff_eq.mpr hoff]
      refine List.subset_append_of_subset_right _ ?_
      obtain rfl | hv := List.mem_cons.mp hv
      · exact qualifiers_subset_region ps _ hps ht hstop
      · exact hrest true ht hv hstart hstop
    · rw [if_neg hinside, beq_eq_false_iff_ne.mpr hoff, Bool.eq_false_of_not_eq_true hinside]
      obtain ht | ht := List.mem_append.mp ht
      · obtain hv | hv := List.mem_append.mp hv
        · exact List.subset_append_of_subset_left _
            (p.qualifiers_subset_of_within depth pos hp ht hv hstart hstop)
        · -- The part starts behind the sibling that the tag is in.
          have := p.within_place depth pos hp t ht
          have := verbatim_placeList depth ps _ stop false hps v hv
          omega
      · obtain hv | hv := List.mem_append.mp hv
        · have := within_placeList depth ps _ hps t ht
          have := p.verbatim_place depth pos hp v hv
          omega
        · exact List.subset_append_of_subset_right _ (hrest false ht hv hstart hstop)

end

section Within

variable {q : Chars}

mutual

theorem Node.exists_tag_of_copied {copied : Bool} : ∀ {n : Node}, q ∈ n.copiedQualifiers copied →
    ∃ t ∈ n.tags, q ∈ t.qualifiers
  | .element tag ns, h => by
    rw [Node.copiedQualifiers] at h
    rw [Node.tags]
    obtain h | h := List.mem_append.mp h
    · split_ifs at h
      · exact ⟨tag, List.mem_cons_self, h⟩
      · simp at h
    · obtain ⟨t, ht, hq⟩ := exists_tag_of_copiedList h
      exact ⟨t, List.mem_cons_of_mem _ ht, hq⟩
  | .text _ _, h => by simp [Node.copiedQualifiers] at h
  | .raw _ _ _, h => by simp [Node.copiedQualifiers] at h

theorem exists_tag_of_copiedList {copied suppressed : Bool} : ∀ {ns : List Node},
    q ∈ copiedQualifiersList copied suppressed ns → ∃ t ∈ tagsList ns, q ∈ t.qualifiers
  | [], h => by simp [copiedQualifiersList] at h
  | n :: ns, h => by
    rw [copiedQualifiersList] at h
    rw [tagsList]
    obtain h | h := List.mem_append.mp h
    · obtain ⟨t, ht, hq⟩ := n.exists_tag_of_copied h
      exact ⟨t, List.mem_append_left _ ht, hq⟩
    · obtain ⟨t, ht, hq⟩ := exists_tag_of_copiedList h
      exact ⟨t, List.mem_append_right _ ht, hq⟩

end

theorem le_closeOf_placeList {stop m : Nat} (hstop : m ≤ stop) (parts : List Part) {pos : Nat}
    (hpos : m ≤ pos) : m ≤ closeOf stop (placeList pos parts) := by
  induction parts generalizing pos with
  | nil => exact hstop
  | cons p ps ih =>
    rw [placeList]
    by_cases hon : (p.place pos).marker? = some .on
    · rw [closeOf_cons_on hon, p.span_place]
      exact hpos.trans (Nat.le_add_right _ _)
    · rw [closeOf_cons_of_ne hon]
      exact ih (hpos.trans (Nat.le_add_right _ _))

theorem Span.Copied.mono {s : Span} {vs ws : List Verbatim} (h : s.Copied vs) (hsub : vs ⊆ ws) :
    s.Copied ws :=
  h.imp fun _ hv => ⟨hsub hv.1, hv.2⟩

mutual

/-- What counts as copied stands on a tag within a copied part. -/
theorem Part.exists_within_of_copied (depth : Nat) : ∀ (p : Part) (pos : Nat), p.Fits depth →
    q ∈ (p.place pos).copiedQualifiers false →
    ∃ t ∈ (p.place pos).tags, q ∈ t.qualifiers ∧ t.span.Copied (p.place pos).verbatim
  | .text _ _, _, _, hq => by simp [Part.place, Node.copiedQualifiers] at hq
  | .raw _ _, _, _, hq => by simp [Part.place, Node.copiedQualifiers] at hq
  | .element opening tag children closing, pos, h, hq => by
    obtain ⟨-, -, -, -, hcs⟩ := h.valid (by simp)
    have hfits : ∀ p ∈ children, p.Fits (depth + 1) := fun p hp => .inl (hcs.valid p hp)
    have hin := within_placeList (depth + 1) children (pos + byteLength opening) hfits
    simp only [Part.place, Node.copiedQualifiers, Bool.false_or] at hq
    rw [if_neg Bool.false_ne_true, List.nil_append] at hq
    suffices hin : ∃ t ∈ tagsList (placeList (pos + byteLength opening) children),
        q ∈ t.qualifiers ∧ t.span.Copied
          (Part.place pos (.element opening tag children closing)).verbatim by
      obtain ⟨t, ht, hin⟩ := hin
      exact ⟨t, List.mem_cons_of_mem _ ht, hin⟩
    simp only [Part.place, Node.verbatim]
    split
    · rename_i content hc
      have hcontent := Tag.content_of_preserved? hc
      simp only [Tag.place] at hcontent
      split_ifs at hcontent
      cases hcontent
      obtain ⟨t, ht, hq⟩ := exists_tag_of_copiedList hq
      obtain ⟨hstart, -, hstop⟩ := hin t ht
      exact ⟨t, ht, hq, _, List.mem_singleton_self _, hstart, hstop⟩
    · rename_i hc
      rw [hc] at hq
      have hend := tag.le_contentEnd_place pos (pos + byteLength opening)
        (Nat.le_add_right (pos + byteLength opening + byteLength (spelledList children))
          (byteLength closing))
      exact (exists_within_of_copiedList (depth + 1) children _ _ hfits
        fun t ht => (hin t ht).2.2.trans hend).1 hq

/-- In front of siblings in an open region, what counts as copied stands before the end of that
region or in a part that comes later. -/
theorem exists_within_of_copiedList (depth : Nat) : ∀ (parts : List Part) (pos stop : Nat),
    (∀ p ∈ parts, p.Fits depth) → (∀ t ∈ tagsList (placeList pos parts), t.span.stop ≤ stop) →
    (q ∈ copiedQualifiersList false false (placeList pos parts) →
      ∃ t ∈ tagsList (placeList pos parts), q ∈ t.qualifiers ∧
        t.span.Copied (verbatimList stop false (placeList pos parts))) ∧
    (q ∈ copiedQualifiersList false true (placeList pos parts) →
      ∃ t ∈ tagsList (placeList pos parts), q ∈ t.qualifiers ∧
        (t.span.stop ≤ closeOf stop (placeList pos parts) ∨
          t.span.Copied (verbatimList stop true (placeList pos parts))))
  | [], _, _, _, _ => by simp [placeList, copiedQualifiersList]
  | p :: ps, pos, stop, h, hstop => by
    obtain ⟨hp, hps⟩ := List.forall_mem_cons.mp h
    rw [placeList, tagsList] at hstop
    obtain ⟨hpstop, hpsstop⟩ := List.forall_mem_append.mp hstop
    obtain ⟨hout, hin⟩ := exists_within_of_copiedList depth ps _ stop hps hpsstop
    simp only [placeList, tagsList, copiedQualifiersList, verbatimList, Bool.or_false, Bool.or_true,
      if_true, Bool.false_eq_true, if_false]
    constructor
    · intro hq
      by_cases hoff : (p.place pos).marker? = some .off
      · rw [if_pos hoff]
        obtain hq | hq := List.mem_append.mp hq
        · obtain ⟨t, ht, -⟩ := Node.exists_tag_of_copied hq
          simp [tags_of_marker hoff] at ht
        · obtain ⟨t, ht, hq, hregion | hlater⟩ := hin (beq_iff_eq.mpr hoff ▸ hq)
          · refine ⟨t, List.mem_append_right _ ht, hq, _, List.mem_cons_self, ?_, hregion⟩
            rw [p.span_place]
            exact (within_placeList depth ps _ hps t ht).1
          · exact ⟨t, List.mem_append_right _ ht, hq, hlater.mono (List.subset_cons_self _ _)⟩
      · rw [if_neg hoff]
        obtain hq | hq := List.mem_append.mp hq
        · obtain ⟨t, ht, hq, hc⟩ := p.exists_within_of_copied depth pos hp hq
          exact ⟨t, List.mem_append_left _ ht, hq, hc.mono (List.subset_append_left _ _)⟩
        · obtain ⟨t, ht, hq, hc⟩ := hout (beq_eq_false_iff_ne.mpr hoff ▸ hq)
          exact ⟨t, List.mem_append_right _ ht, hq, hc.mono (List.subset_append_right _ _)⟩
    · intro hq
      obtain hq | hq := List.mem_append.mp hq
      · obtain ⟨t, ht, hq⟩ := Node.exists_tag_of_copied hq
        have hon : (p.place pos).marker? ≠ some .on := by
          intro hon
          simp [tags_of_marker hon] at ht
        refine ⟨t, List.mem_append_left _ ht, hq, .inl ?_⟩
        rw [closeOf_cons_of_ne hon]
        exact le_closeOf_placeList (hpstop t ht) ps (p.within_place depth pos hp t ht).2.2
      · by_cases hon : (p.place pos).marker? = some .on
        · rw [bne_eq_false_iff_eq.mpr hon] at hq ⊢
          obtain ⟨t, ht, hq, hc⟩ := hout hq
          exact ⟨t, List.mem_append_right _ ht, hq, .inr hc⟩
        · rw [bne_iff_ne.mpr hon] at hq ⊢
          rw [closeOf_cons_of_ne hon]
          obtain ⟨t, ht, hq, hc⟩ := hin hq
          exact ⟨t, List.mem_append_right _ ht, hq, hc⟩

end

end Within

theorem Document.stop_le_trimmed {source : Chars} {d : Document} (h : read source = .ok d) :
    ∀ t ∈ d.tags, t.span.stop ≤ byteLength (trimXmlEnd source) := by
  obtain ⟨parts, hvalid, hsource, hd⟩ := read_sound h
  have hnodes : d.nodes = placeList (byteLength (markText d.byteOrderMark)) parts :=
    congrArg Document.nodes hd
  intro t ht
  rw [Document.tags, ← map_tag_familiesList none] at ht
  obtain ⟨f, hf, rfl⟩ := List.mem_map.mp ht
  obtain ⟨k, hk⟩ := occurs_of_mem_familiesList hf
  obtain ⟨p, a, hp⟩ := located_of_occurs 0 (b := []) (by simpa using hsource) hvalid.fits
    (hnodes ▸ hk)
  obtain ⟨opening, tag, cs, closing, rfl⟩ := hp.exists_element
  exact (hp.followsMarkup rfl).le_trimmed

/-- A qualifier counts as copied exactly if it stands on a tag in a part of the source that the
printer copies. -/
theorem Document.mem_copiedQualifiers_iff {source : Chars} {d : Document} (h : read source = .ok d)
    {q : Chars} : q ∈ d.copiedQualifiers ↔
      ∃ t ∈ d.tags, t.span.Copied (d.verbatim source) ∧ q ∈ t.qualifiers := by
  have hstop := stop_le_trimmed h
  obtain ⟨parts, hvalid, -, hd⟩ := read_sound h
  have hnodes : d.nodes = placeList (byteLength (markText d.byteOrderMark)) parts :=
    congrArg Document.nodes hd
  rw [Document.tags, hnodes] at hstop
  rw [Document.copiedQualifiers, Document.tags, Document.verbatim, hnodes]
  constructor
  · intro hq
    obtain ⟨t, ht, hq, hc⟩ :=
      (exists_within_of_copiedList 1 parts _ _ hvalid.fits hstop).1 hq
    exact ⟨t, ht, hc, hq⟩
  · rintro ⟨t, ht, ⟨v, hv, hstart, hstop⟩, hq⟩
    exact qualifiers_subset_of_withinList 1 parts _ _ false hvalid.fits ht hv hstart hstop hq

end XamlFormat
