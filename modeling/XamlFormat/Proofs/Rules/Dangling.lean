import XamlFormat.Proofs.Rules.Copied
import XamlFormat.Proofs.Rules.Scope

/-! No qualifier without its declarations. The parts of a document that are copied still show the
design-time references that are gone from the tree, so what stands in them counts as a use. -/
namespace XamlFormat

open Markup Text

namespace Document

/-- The qualifier stands in front of a name in the output of what was made of the document: on a tag
that is printed, or on one in a part of the source that is copied. -/
def Writes (source : Chars) (d after : Document) (q : Chars) : Prop :=
  (∃ u ∈ after.tags, ¬ u.span.Copied (after.verbatim source) ∧ q ∈ u.qualifiers) ∨
    ∃ t ∈ d.tags, t.span.Copied (after.verbatim source) ∧ q ∈ t.qualifiers

/-- Every declaration of the qualifier is still on its element. -/
def KeepsDeclared (d after : Document) (q : Chars) : Prop :=
  ∀ t ∈ d.tags, ∀ a ∈ t.attributes, a.name.declared? = some q →
    ∃ u ∈ after.tags, u.span.start = t.span.start ∧ a ∈ u.attributes

end Document

section Slices

variable {f : Tag → Tag}

theorem Node.marker?_mapTags (n : Node) : (n.mapTags f).marker? = n.marker? := by
  cases n <;> rfl

theorem Node.span_mapTags (hspan : ∀ t, (f t).span = t.span) (n : Node) :
    (n.mapTags f).span = n.span := by
  cases n with
  | element t => exact hspan t
  | text | raw => rfl

theorem closeOf_mapTagsList (hspan : ∀ t, (f t).span = t.span) (stop : Nat) (ns : List Node) :
    closeOf stop (mapTagsList f ns) = closeOf stop ns := by
  induction ns with
  | nil => rfl
  | cons n ns ih =>
    rw [mapTagsList]
    by_cases hon : n.marker? = some .on
    · rw [closeOf_cons_on hon, closeOf_cons_on (n.marker?_mapTags.trans hon), n.span_mapTags hspan]
    · rw [closeOf_cons_of_ne hon, closeOf_cons_of_ne (n.marker?_mapTags ▸ hon), ih]

mutual

theorem Node.copied_mapTags (hspan : ∀ t, (f t).span = t.span)
    (hcontent : ∀ t, (f t).content = t.content)
    (hpreserve : ∀ t, (f t).preserveSpace = t.preserveSpace) (s : Span) :
    ∀ n : Node, s.Copied (n.mapTags f).verbatim ↔ s.Copied n.verbatim
  | .text _ _ => .rfl
  | .raw _ _ _ => .rfl
  | .element t ns => by
    have hpreserved : (f t).preserved? = t.preserved? := by
      rw [Tag.preserved?, Tag.preserved?, hpreserve, hcontent]
    have hend : Printer.contentEnd (f t) = Printer.contentEnd t := by
      rw [Printer.contentEnd, Printer.contentEnd, hcontent, hspan]
    rw [Node.mapTags, Node.verbatim, Node.verbatim, hpreserved, hend]
    cases t.preserved? with
    | some content => simp [Span.Copied]
    | none => exact copied_mapTagsList hspan hcontent hpreserve s ns _ false

theorem copied_mapTagsList (hspan : ∀ t, (f t).span = t.span)
    (hcontent : ∀ t, (f t).content = t.content)
    (hpreserve : ∀ t, (f t).preserveSpace = t.preserveSpace) (s : Span) :
    ∀ (ns : List Node) (stop : Nat) (inside : Bool),
      s.Copied (verbatimList stop inside (mapTagsList f ns)) ↔
        s.Copied (verbatimList stop inside ns)
  | [], _, _ => .rfl
  | n :: ns, stop, inside => by
    have hn := n.copied_mapTags hspan hcontent hpreserve s
    have hns := copied_mapTagsList hspan hcontent hpreserve s ns stop
    rw [mapTagsList, verbatimList, verbatimList, n.marker?_mapTags, n.span_mapTags hspan,
      closeOf_mapTagsList hspan]
    split_ifs with hinside hoff
    · exact hns _
    · simp only [Span.Copied, List.exists_mem_cons_iff] at hns ⊢
      exact or_congr_right (hns true)
    · simp only [Span.Copied, List.mem_append, or_and_right, exists_or] at hn hns ⊢
      exact or_congr hn (hns false)

end

theorem Document.copied_stripDesignTime (source : Chars) (design : List Chars) (d : Document)
    (s : Span) :
    s.Copied ((d.stripDesignTime design).verbatim source) ↔ s.Copied (d.verbatim source) := by
  rw [stripDesignTime_eq_mapTags]
  exact copied_mapTagsList (f := d.stripTag design) (fun _ => rfl) (fun _ => rfl) (fun _ => rfl) s
    d.nodes _ false

end Slices

namespace Document

section Declared

variable {d : Document} {design : List Chars} {q : Chars} {t : Tag}

theorem mem_tags_stripDesignTime (ht : t ∈ d.tags) :
    d.stripTag design t ∈ (d.stripDesignTime design).tags := by
  rw [tags_stripDesignTime]
  exact List.mem_map_of_mem ht

/-- What is left has no design-time qualifier, declares nothing that has lost its use and does not
list it. -/
theorem left_spec (hd : design ≠ []) {u : Tag} (hu : u ∈ (d.stripDesignTime design).tags)
    {b : Attribute} (hb : b ∈ u.attributes) :
    b.name.isQualifiedBy design = false ∧ b.name.declares (d.unusedQualifiers design) = false ∧
      b.name.declares (d.idleQualifiers design) = false ∧
      (b.ListsIgnored d → ∀ w ∈ words b.value, w ∉ d.unusedQualifiers design) := by
  rw [tags_stripDesignTime] at hu
  obtain ⟨t, -, rfl⟩ := List.mem_map.mp hu
  obtain ⟨a, -, hstrip⟩ := List.mem_filterMap.mp hb
  obtain ⟨hnone, -⟩ | ⟨b', hsome, hname, hqualified, hunused, hidle, -, hwords⟩ :=
    strip?_cases hd d a
  · rw [hnone] at hstrip
    cases hstrip
  · rw [hsome] at hstrip
    cases hstrip
    rw [← hname] at hqualified hunused hidle
    refine ⟨hqualified, hunused, hidle, fun hlists w hw => ?_⟩
    have hlists : a.ListsIgnored d := by rwa [Attribute.ListsIgnored, ← hname]
    rw [hwords hlists] at hw
    simpa using (List.mem_filter.mp hw).2

theorem notMem_idle_of_used (h : q ∈ d.usedQualifiers design) : q ∉ d.idleQualifiers design := by
  simp [idleQualifiers, h]

theorem mem_unused_of_mem_idle (hq : q ∈ design) (h : q ∈ d.idleQualifiers design) :
    q ∈ d.unusedQualifiers design := by
  have hused : q ∉ d.usedQualifiers design := fun hused => notMem_idle_of_used hused h
  rw [mem_usedQualifiers_iff, not_or] at hused
  exact mem_unusedQualifiers_iff.mpr ⟨hq, hused.1, fun t ht hname => hused.2 ⟨t, ht, .inl hname⟩⟩

end Declared

section Written

variable {source : Chars} {d : Document} {design : List Chars} {q : Chars} {t : Tag}

theorem qualifiers_stripTag_subset (hd : design ≠ []) (ht : t ∈ d.tags) :
    (d.stripTag design t).qualifiers ⊆ d.usedQualifiers design := by
  intro q hq
  refine mem_usedQualifiers_iff.mpr (.inr ⟨t, ht, ?_⟩)
  refine (Tag.mem_qualifiers.mp hq).imp_right fun ⟨b, hb, hname⟩ => ?_
  obtain ⟨a, ha, hb⟩ := List.mem_filterMap.mp hb
  rw [strip?, if_neg (by simpa using hd), Option.filter_eq_some_iff] at hb
  exact ⟨a, ha, b, hb.1, hname⟩

theorem notMem_of_writes (h : read source = .ok d) (hd : design ≠ [])
    (hq : d.Writes source (d.stripDesignTime design) q) :
    q ∉ d.unusedQualifiers design ∧ q ∉ d.idleQualifiers design := by
  obtain ⟨u, hu, -, hq⟩ | ⟨t, ht, hcopied, hq⟩ := hq
  · have hleft (b : Attribute) (hb : b ∈ u.attributes) := (left_spec hd hu hb).1
    rw [tags_stripDesignTime] at hu
    obtain ⟨t, ht, rfl⟩ := List.mem_map.mp hu
    refine ⟨fun hunused => ?_, notMem_idle_of_used (qualifiers_stripTag_subset hd ht hq)⟩
    obtain ⟨hdesign, -, helements⟩ := mem_unusedQualifiers_iff.mp hunused
    obtain hname | ⟨b, hb, hname⟩ := Tag.mem_qualifiers.mp hq
    · exact helements t ht hname
    · exact (QName.isQualifiedBy_eq_false_iff hname).mp (hleft b hb) hdesign
  · have hmem : q ∈ d.copiedQualifiers :=
      (mem_copiedQualifiers_iff h).mpr
        ⟨t, ht, (copied_stripDesignTime source design d _).mp hcopied, hq⟩
    exact ⟨fun hu => (mem_unusedQualifiers_iff.mp hu).2.1 hmem,
      notMem_idle_of_used (mem_usedQualifiers_iff.mpr (.inl hmem))⟩

theorem writes_of_mem_copied (h : read source = .ok d) (hq : q ∈ d.copiedQualifiers) :
    d.Writes source (d.stripDesignTime design) q := by
  obtain ⟨t, ht, hcopied, hq⟩ := (mem_copiedQualifiers_iff h).mp hq
  exact .inr ⟨t, ht, (copied_stripDesignTime source design d _).mpr hcopied, hq⟩

/-- A name that is left comes out, be it printed or copied. -/
theorem writes_of_left (ht : t ∈ d.tags) (hq : q ∈ (d.stripTag design t).qualifiers)
    (hself : q ∈ t.qualifiers) : d.Writes source (d.stripDesignTime design) q := by
  -- A tag in a copied part comes out as it was read, with the name still there.
  by_cases hcopied : t.span.Copied ((d.stripDesignTime design).verbatim source)
  · exact .inr ⟨t, ht, hcopied, hself⟩
  · exact .inl ⟨d.stripTag design t, mem_tags_stripDesignTime ht, hcopied, hq⟩

theorem writes_of_element (ht : t ∈ d.tags) (hq : t.name.qualifier = some q) :
    d.Writes source (d.stripDesignTime design) q :=
  writes_of_left ht (Tag.mem_qualifiers.mpr (.inl hq)) (Tag.mem_qualifiers.mpr (.inl hq))

/-- A design-time qualifier that has not lost its use is in the output. -/
theorem writes_of_notMem_unused (h : read source = .ok d) (hq : q ∈ design)
    (hu : q ∉ d.unusedQualifiers design) : d.Writes source (d.stripDesignTime design) q := by
  by_cases hcopied : q ∈ d.copiedQualifiers
  · exact writes_of_mem_copied h hcopied
  · have helement : ∃ t ∈ d.tags, t.name.qualifier = some q := by
      by_contra hnone
      push Not at hnone
      exact hu (mem_unusedQualifiers_iff.mpr ⟨hq, hcopied, hnone⟩)
    obtain ⟨t, ht, hname⟩ := helement
    exact writes_of_element ht hname

end Written

section Kept

variable {source : Chars} {d : Document} {namespaces : List Chars} {q : Chars}
  (hx : ∀ t ∈ d.tags, ∀ a ∈ t.attributes, a.name.written ≠ "xmlns:xmlns".toList)

include hx

theorem xmlns_notMem_declaredQualifiers : "xmlns".toList ∉ d.declaredQualifiers namespaces := by
  intro h
  obtain ⟨t, ht, a, ha, hdeclared, -⟩ := mem_declaredQualifiers h
  refine hx t ht a ha ?_
  rw [QName.written, QName.qualifier_of_declared? hdeclared, QName.base_of_declared? hdeclared]
  rfl

/-- A qualifier that has not lost its use has not lost its declarations. -/
theorem keepsDeclared_of_notMem
    (h : d.declaredQualifiers namespaces ≠ [] →
      q ∉ d.unusedQualifiers (d.declaredQualifiers namespaces) ∧
        q ∉ d.idleQualifiers (d.declaredQualifiers namespaces)) :
    d.KeepsDeclared (d.stripDesignTime (d.declaredQualifiers namespaces)) q := by
  intro t ht a ha hq
  refine ⟨_, mem_tags_stripDesignTime ht, rfl, List.mem_filterMap.mpr ⟨a, ha, ?_⟩⟩
  have hplain (namespaces : List Chars) :
      a.name.isQualifiedBy (d.declaredQualifiers namespaces) = false :=
    (QName.isQualifiedBy_eq_false_iff (QName.qualifier_of_declared? hq)).mpr
      (xmlns_notMem_declaredQualifiers hx)
  have hlists : ¬ a.ListsIgnored d := fun h => by simpa [hplain] using (listsIgnored_iff.mp h).2
  by_cases hd : d.declaredQualifiers namespaces = []
  · rw [hd, strip?_of_empty]
  · obtain ⟨hu, hi⟩ := h hd
    obtain ⟨-, h | h | h | h⟩ | ⟨b, hb, -, -, -, -, hsame, -⟩ := strip?_cases hd d a
    · simp [hplain] at h
    · simp [(QName.declares_eq_false_iff hq).mpr hu] at h
    · simp [(QName.declares_eq_false_iff hq).mpr hi] at h
    · exact absurd h hlists
    · rw [hb, hsame hlists]

theorem keepsDeclared_of_notMem_unused (hq : q ∈ d.declaredQualifiers namespaces)
    (hu : q ∉ d.unusedQualifiers (d.declaredQualifiers namespaces)) :
    d.KeepsDeclared (d.stripDesignTime (d.declaredQualifiers namespaces)) q :=
  keepsDeclared_of_notMem hx fun _ => ⟨hu, fun hi => hu (mem_unused_of_mem_idle hq hi)⟩

/-- An attribute that outlives its lists is no declaration, so it is left in the end. -/
theorem writes_of_attribute {design : List Chars} (hd : design ≠ [])
    (hq : q ∈ d.declaredQualifiers namespaces) {t : Tag} (ht : t ∈ d.tags) {a b : Attribute}
    (ha : a ∈ t.attributes) (hthin : d.thin? design a = some b) (hname : b.name.qualifier = some q) :
    d.Writes source (d.stripDesignTime design) q := by
  have hnone : b.name.declared? = none := by
    refine if_neg fun hxmlns => ?_
    cases hname.symm.trans hxmlns
    exact xmlns_notMem_declaredQualifiers hx hq
  have hstrip : d.strip? design a = some b := by
    rw [strip?, if_neg (by simpa using hd), hthin, Option.filter_some]
    simp [QName.declares, hnone]
  have hsame : b.name = a.name := by
    obtain ⟨h, -⟩ | ⟨c, h, hc, -⟩ := strip?_cases hd d a
    · simp [hstrip] at h
    · rw [hstrip] at h
      cases h
      exact hc
  refine writes_of_left ht (Tag.mem_qualifiers.mpr (.inr ⟨b, ?_, hname⟩))
    (Tag.mem_qualifiers.mpr (.inr ⟨a, ha, hsame ▸ hname⟩))
  exact List.mem_filterMap.mpr ⟨a, ha, hstrip⟩

theorem writes_of_mem_used (h : read source = .ok d) {design : List Chars} (hd : design ≠ [])
    (hq : q ∈ d.declaredQualifiers namespaces) (hused : q ∈ d.usedQualifiers design) :
    d.Writes source (d.stripDesignTime design) q := by
  obtain hcopied | ⟨t, ht, hname | ⟨a, ha, b, hthin, hname⟩⟩ := mem_usedQualifiers_iff.mp hused
  · exact writes_of_mem_copied h hcopied
  · exact writes_of_element ht hname
  · exact writes_of_attribute hx hd hq ht ha hthin hname

end Kept

/-- A qualifier that keeps a declaration has not lost its use. -/
theorem notMem_of_keepsDeclared {d : Document} {design namespaces : List Chars} {q : Chars}
    (hd : design ≠ []) (hq : q ∈ d.declaredQualifiers namespaces)
    (h : d.KeepsDeclared (d.stripDesignTime design) q) :
    q ∉ d.unusedQualifiers design ∧ q ∉ d.idleQualifiers design := by
  obtain ⟨t, ht, a, ha, hdeclared, -⟩ := mem_declaredQualifiers hq
  obtain ⟨u, hu, -, ha⟩ := h t ht a ha hdeclared
  obtain ⟨-, hunused, hidle, -⟩ := left_spec hd hu ha
  exact ⟨(QName.declares_eq_false_iff hdeclared).mp hunused,
    (QName.declares_eq_false_iff hdeclared).mp hidle⟩

/-- Without the design-time references no name is left whose declaration is gone. A qualifier in
front of a name that is printed, or that is copied with a part of the source, has all its
declarations; design-time qualifiers and those of lists to ignore have them only then. A design-time
qualifier that is left in a list to ignore has all its declarations. One that has lost a declaration
has lost all of them, and no list names it. -/
theorem stripDesignTime_keeps_declared {source : Chars} {d : Document} (h : read source = .ok d)
    (hx : ∀ t ∈ d.tags, ∀ a ∈ t.attributes, a.name.written ≠ "xmlns:xmlns".toList)
    (namespaces : List Chars) :
    let design := d.declaredQualifiers namespaces
    let after := d.stripDesignTime design
    (∀ q, d.Writes source after q → d.KeepsDeclared after q) ∧
    (design ≠ [] → ∀ q, q ∈ design ∨ q ∈ d.declaredQualifiers [compatibilityNamespace] →
      d.KeepsDeclared after q → d.Writes source after q) ∧
    (∀ u ∈ after.tags, ∀ b ∈ u.attributes, b.ListsIgnored d →
      ∀ q ∈ design, q ∈ words b.value → d.KeepsDeclared after q) ∧
    ∀ q ∈ design, ¬ d.KeepsDeclared after q → ∀ u ∈ after.tags, ∀ b ∈ u.attributes,
      b.name.declared? ≠ some q ∧ (b.ListsIgnored d → q ∉ words b.value) := by
  intro design after
  refine ⟨fun q hq => ?_, fun hd q hq hkept => ?_, fun u hu b hb hlists q hq hword => ?_,
    fun q hq hlost u hu b hb => ?_⟩
  · exact keepsDeclared_of_notMem hx fun hd => notMem_of_writes h hd hq
  · obtain hq | hq := hq
    · exact writes_of_notMem_unused h hq (notMem_of_keepsDeclared hd hq hkept).1
    · have hidle := (notMem_of_keepsDeclared hd hq hkept).2
      refine writes_of_mem_used hx h hd hq ?_
      simpa [idleQualifiers, hq] using hidle
  · have hd : design ≠ [] := List.ne_nil_of_mem hq
    exact keepsDeclared_of_notMem_unused hx hq ((left_spec hd hu hb).2.2.2 hlists q hword)
  · have hd : design ≠ [] := List.ne_nil_of_mem hq
    have hunused : q ∈ d.unusedQualifiers design := by
      by_contra hused
      exact hlost (keepsDeclared_of_notMem_unused hx hq hused)
    obtain ⟨-, hdeclares, -, hwords⟩ := left_spec hd hu hb
    exact ⟨fun hdeclared => (QName.declares_eq_false_iff hdeclared).mp hdeclares hunused,
      fun hlists hword => hwords hlists q hword hunused⟩

def regionSample : Chars :=
  "<A xmlns:d='d' d:w='1'><!--xamlfmt:off--><B d:x='2'/><!--xamlfmt:on--></A>".toList

/-- The region still shows a design-time attribute, so the declaration stays. -/
theorem stripDesignTime_keeps_declared_sample : ∃ d, read regionSample = .ok d ∧
    d.Writes regionSample (d.stripDesignTime (d.declaredQualifiers ["d".toList])) "d".toList ∧
    d.KeepsDeclared (d.stripDesignTime (d.declaredQualifiers ["d".toList])) "d".toList := by
  have hsample : ∃ d, read regionSample = .ok d ∧
      (∀ t ∈ d.tags, ∀ a ∈ t.attributes, a.name.written ≠ "xmlns:xmlns".toList) ∧
      ∃ t ∈ d.tags, t.span.Copied
        ((d.stripDesignTime (d.declaredQualifiers ["d".toList])).verbatim regionSample) ∧
          "d".toList ∈ t.qualifiers :=
    exists_ok_of_any (by decide +kernel)
  obtain ⟨d, hd, hx, hcopied⟩ := hsample
  exact ⟨d, hd, .inr hcopied,
    (stripDesignTime_keeps_declared hd hx ["d".toList]).1 _ (.inr hcopied)⟩

end Document

end XamlFormat
