import XamlFormat.Proofs.Rules.Families
import XamlFormat.Proofs.Rules.Stripped

/-! Which attributes go with the design-time references. A qualifier counts for the whole document as
soon as one of its declarations, in scope or not, names one of the namespaces. -/
namespace XamlFormat

mutual

/-- The tags of a node below the tags `above`, each with those of the elements around it, innermost
first. -/
def Node.lineages (above : List Tag) : Node → List (Tag × List Tag)
  | .element t ns => (t, above) :: lineagesList (t :: above) ns
  | .text _ _ => []
  | .raw _ _ _ => []

def lineagesList (above : List Tag) : List Node → List (Tag × List Tag)
  | [] => []
  | n :: ns => n.lineages above ++ lineagesList above ns

end

/-- What the first of the tags that declares the qualifier declares it for. -/
def boundTo? (q : Chars) (tags : List Tag) : Option Chars :=
  tags.findSome? fun t =>
    (t.attributes.find? fun a => a.name.declared? = some q).map Attribute.value

namespace Document

def lineages (d : Document) : List (Tag × List Tag) := lineagesList [] d.nodes

/-- Somewhere in the document the qualifier is declared for the namespace. -/
def Declares (d : Document) (q ns : Chars) : Prop :=
  ∃ t ∈ d.tags, ∃ a ∈ t.attributes, a.name.declared? = some q ∧ a.value = ns

end Document

section Lineages

mutual

theorem Node.mem_of_mem_lineages {x : Tag × List Tag} : ∀ {n : Node} {above : List Tag},
    x ∈ n.lineages above → ∀ t ∈ x.1 :: x.2, t ∈ n.tags ∨ t ∈ above
  | .element t ns, above, h, u, hu => by
    rw [Node.lineages, List.mem_cons] at h
    rw [Node.tags, List.mem_cons]
    obtain rfl | h := h
    · obtain rfl | hu := List.mem_cons.mp hu
      · exact .inl (.inl rfl)
      · exact .inr hu
    · obtain hu | hu := mem_of_mem_lineagesList h u hu
      · exact .inl (.inr hu)
      · obtain rfl | hu := List.mem_cons.mp hu
        · exact .inl (.inl rfl)
        · exact .inr hu
  | .text _ _, _, h, _, _ => by simp [Node.lineages] at h
  | .raw _ _ _, _, h, _, _ => by simp [Node.lineages] at h

theorem mem_of_mem_lineagesList {x : Tag × List Tag} : ∀ {ns : List Node} {above : List Tag},
    x ∈ lineagesList above ns → ∀ t ∈ x.1 :: x.2, t ∈ tagsList ns ∨ t ∈ above
  | [], _, h, _, _ => by simp [lineagesList] at h
  | n :: ns, above, h, t, ht => by
    rw [tagsList, List.mem_append]
    obtain h | h := List.mem_append.mp (lineagesList.eq_2 above n ns ▸ h)
    · exact (n.mem_of_mem_lineages h t ht).imp_left .inl
    · exact (mem_of_mem_lineagesList h t ht).imp_left .inr

end

variable {d : Document} {x : Tag × List Tag}

theorem Document.mem_tags_of_mem_lineages (h : x ∈ d.lineages) : ∀ t ∈ x.1 :: x.2, t ∈ d.tags :=
  fun t ht => (mem_of_mem_lineagesList h t ht).resolve_right List.not_mem_nil

theorem Document.declares_of_boundTo? (h : x ∈ d.lineages) {q ns : Chars}
    (hq : boundTo? q (x.1 :: x.2) = some ns) : d.Declares q ns := by
  obtain ⟨t, ht, hv⟩ := List.exists_of_findSome?_eq_some hq
  obtain ⟨a, ha, rfl⟩ := Option.map_eq_some_iff.mp hv
  exact ⟨t, mem_tags_of_mem_lineages h t ht, a, List.mem_of_find?_eq_some ha,
    by simpa using List.find?_some ha, rfl⟩

end Lineages

namespace Document

section Removed

variable {d : Document} {design namespaces : List Chars} {a b : Attribute} {q : Chars}

theorem mem_declaredQualifiers_iff_declares :
    q ∈ d.declaredQualifiers namespaces ↔ ∃ ns ∈ namespaces, d.Declares q ns := by
  rw [mem_declaredQualifiers_iff]
  constructor
  · rintro ⟨t, ht, a, ha, hq, hv⟩
    exact ⟨a.value, hv, t, ht, a, ha, hq, rfl⟩
  · rintro ⟨_, hns, t, ht, a, ha, hq, rfl⟩
    exact ⟨t, ht, a, ha, hq, hns⟩

theorem listsIgnored_iff : a.ListsIgnored d ↔ a.name.base = "Ignorable".toList ∧
    a.name.isQualifiedBy (d.declaredQualifiers [compatibilityNamespace]) = true := by
  rw [Attribute.ListsIgnored, QName.isQualifiedBy_iff]
  refine and_congr_right fun _ => exists_congr fun q => ?_
  rw [mem_declaredQualifiers_iff, and_comm]
  simp

theorem dropIgnored?_cases (unused : List Chars) (a : Attribute) :
    (a.dropIgnored? (d.declaredQualifiers [compatibilityNamespace]) unused = none ∧
      a.ListsIgnored d) ∨
    ∃ b, a.dropIgnored? (d.declaredQualifiers [compatibilityNamespace]) unused = some b ∧
      b.name = a.name ∧ (¬ a.ListsIgnored d → b = a) ∧
      (a.ListsIgnored d →
        Text.words b.value = (Text.words a.value).filter fun w => !unused.contains w) := by
  unfold Attribute.dropIgnored?
  dsimp only
  split_ifs with hlists hempty
  · rw [Bool.and_eq_true, beq_iff_eq] at hlists
    exact .inl ⟨rfl, listsIgnored_iff.mpr hlists⟩
  · rw [Bool.and_eq_true, beq_iff_eq] at hlists
    refine .inr ⟨_, rfl, rfl, fun h => absurd (listsIgnored_iff.mpr hlists) h, fun _ => ?_⟩
    exact Text.words_joinWith fun w hw => Text.mem_words (List.mem_of_mem_filter hw)
  · refine .inr ⟨a, rfl, rfl, fun _ => rfl, fun h => absurd (listsIgnored_iff.mp h) ?_⟩
    simpa using hlists

theorem strip?_cases (hd : design ≠ []) (d : Document) (a : Attribute) :
    (d.strip? design a = none ∧ (a.name.isQualifiedBy design = true ∨
      a.name.declares (d.unusedQualifiers design) = true ∨
      a.name.declares (d.idleQualifiers design) = true ∨ a.ListsIgnored d)) ∨
    ∃ b, d.strip? design a = some b ∧ b.name = a.name ∧ a.name.isQualifiedBy design = false ∧
      a.name.declares (d.unusedQualifiers design) = false ∧
      a.name.declares (d.idleQualifiers design) = false ∧ (¬ a.ListsIgnored d → b = a) ∧
      (a.ListsIgnored d → Text.words b.value =
        (Text.words a.value).filter fun w => !(d.unusedQualifiers design).contains w) := by
  rw [strip?, if_neg (by simpa using hd), thin?]
  cases hq : a.name.isQualifiedBy design with
  | true => exact .inl ⟨by simp, .inl rfl⟩
  | false =>
    cases hu : a.name.declares (d.unusedQualifiers design) with
    | true => exact .inl ⟨by simp, .inr (.inl rfl)⟩
    | false =>
      rw [Bool.or_self, if_neg Bool.false_ne_true]
      obtain ⟨hnone, hlists⟩ | ⟨b, hsome, hname, hplain, hwords⟩ :=
        dropIgnored?_cases (d := d) (d.unusedQualifiers design) a
      · exact .inl ⟨by rw [hnone]; rfl, .inr (.inr (.inr hlists))⟩
      · rw [hsome, Option.filter_some, hname]
        cases hi : a.name.declares (d.idleQualifiers design) with
        | true => exact .inl ⟨by simp, .inr (.inr (.inl rfl))⟩
        | false => exact .inr ⟨b, by simp, hname, rfl, rfl, rfl, hplain, hwords⟩

theorem strip?_of_empty (a : Attribute) : d.strip? [] a = some a := rfl

def stripTag (design : List Chars) (d : Document) (t : Tag) : Tag :=
  { t with attributes := t.attributes.filterMap (d.strip? design) }

theorem tags_stripDesignTime (design : List Chars) (d : Document) :
    (d.stripDesignTime design).tags = d.tags.map (d.stripTag design) := by
  rw [stripDesignTime_eq_mapTags, tags_mapTags]
  rfl

theorem eq_stripTag_of_start {source : Chars} (h : read source = .ok d) {t u : Tag} (ht : t ∈ d.tags)
    (hu : u ∈ (d.stripDesignTime design).tags) (hstart : u.span.start = t.span.start) :
    u = d.stripTag design t := by
  rw [tags_stripDesignTime] at hu
  obtain ⟨t', ht', rfl⟩ := List.mem_map.mp hu
  have hsame : t' = t := List.inj_on_of_nodup_map (nodup_starts h (.inl rfl)) ht' ht hstart
  rw [hsame]

/-- Nothing with the name of the attribute is left on the tag. -/
def Gone (u : Tag) (a : Attribute) : Prop := ∀ b ∈ u.attributes, b.name ≠ a.name

instance (u : Tag) (a : Attribute) : Decidable (Gone u a) :=
  inferInstanceAs (Decidable (∀ b ∈ u.attributes, b.name ≠ a.name))

theorem reason_of_gone {t : Tag} (ha : a ∈ t.attributes) (h : Gone (d.stripTag design t) a) :
    a.name.isQualifiedBy design = true ∨ a.name.declares (d.unusedQualifiers design) = true ∨
      a.name.declares (d.idleQualifiers design) = true ∨ a.ListsIgnored d := by
  have hnone : ∀ b, d.strip? design a = some b → b.name ≠ a.name := fun b hb =>
    h b (List.mem_filterMap.mpr ⟨a, ha, hb⟩)
  have hd : design ≠ [] := by
    rintro rfl
    exact hnone a (strip?_of_empty a) rfl
  obtain ⟨-, hreason⟩ | ⟨b, hsome, hname, -⟩ := strip?_cases hd d a
  · exact hreason
  · exact absurd hname (hnone b hsome)

/-- Attributes of a design-time qualifier go, whatever they hold. -/
theorem gone_of_isQualifiedBy {t : Tag} (h : a.name.isQualifiedBy design = true) :
    Gone (d.stripTag design t) a := by
  have hd : design ≠ [] := by
    rintro rfl
    unfold QName.isQualifiedBy at h
    split at h <;> simp at h
  intro b hb hname
  obtain ⟨c, -, hc⟩ := List.mem_filterMap.mp hb
  obtain ⟨hnone, -⟩ | ⟨b', hsome, hname', hq, -⟩ := strip?_cases hd d c
  · rw [hnone] at hc
    cases hc
  · rw [hsome] at hc
    cases hc
    rw [← hname', hname, h] at hq
    cases hq

/-- A declaration goes for the sake of its own qualifier or of the one of declarations. -/
theorem declares_of_gone {t : Tag} (ha : a ∈ t.attributes) (hq : a.name.qualifier = some q)
    {p : Chars} (hp : a.name.declared? = some p)
    (h : Gone (d.stripTag (d.declaredQualifiers namespaces) t) a) :
    ∃ ns ∈ compatibilityNamespace :: namespaces, d.Declares p ns ∨ d.Declares q ns := by
  obtain h | h | h | h := reason_of_gone ha h
  · have hmem : q ∈ d.declaredQualifiers namespaces := by simpa [QName.isQualifiedBy, hq] using h
    obtain ⟨ns, hns, hdeclared⟩ := mem_declaredQualifiers_iff_declares.mp hmem
    exact ⟨ns, List.mem_cons_of_mem _ hns, .inr hdeclared⟩
  · have hmem : p ∈ d.unusedQualifiers (d.declaredQualifiers namespaces) := by
      simpa [QName.declares, hp] using h
    obtain ⟨ns, hns, hdeclared⟩ :=
      mem_declaredQualifiers_iff_declares.mp (mem_unusedQualifiers_iff.mp hmem).1
    exact ⟨ns, List.mem_cons_of_mem _ hns, .inl hdeclared⟩
  · have hmem : p ∈ d.idleQualifiers (d.declaredQualifiers namespaces) := by
      simpa [QName.declares, hp] using h
    obtain ⟨ns, hns, hdeclared⟩ :=
      mem_declaredQualifiers_iff_declares.mp (List.mem_of_mem_filter hmem)
    obtain rfl : ns = compatibilityNamespace := by simpa using hns
    exact ⟨_, List.mem_cons_self, .inl hdeclared⟩
  · obtain ⟨-, q', hq', t, ht, b, hb, hdeclared, hv⟩ := h
    obtain rfl : q = q' := Option.some.inj (hq.symm.trans hq')
    exact ⟨_, List.mem_cons_self, .inr ⟨t, ht, b, hb, hdeclared, hv⟩⟩

end Removed

/-- An attribute that declares nothing and lists nothing to ignore goes exactly if its qualifier is
declared for one of the namespaces anywhere in the document. Where the document declares the
qualifier for one namespace only, the innermost declaration around the attribute, if there is any, is
such a one. A declaration goes only if its qualifier, or the one of declarations, is declared anywhere
for one of the namespaces or for the namespace of lists to ignore. -/
theorem stripDesignTime_removes_iff {source : Chars} {d : Document} (h : read source = .ok d)
    (namespaces : List Chars) {x : Tag × List Tag} (hx : x ∈ d.lineages) {u : Tag}
    (hu : u ∈ (d.stripDesignTime (d.declaredQualifiers namespaces)).tags)
    (hstart : u.span.start = x.1.span.start) {a : Attribute} (ha : a ∈ x.1.attributes) {q : Chars}
    (hq : a.name.qualifier = some q) :
    (a.name.declared? = none → ¬ a.ListsIgnored d →
      (Gone u a ↔ ∃ ns ∈ namespaces, d.Declares q ns) ∧
      (Gone u a → (∀ ns ns', d.Declares q ns → d.Declares q ns' → ns = ns') →
        ∀ ns, boundTo? q (x.1 :: x.2) = some ns → ns ∈ namespaces)) ∧
    (∀ p, a.name.declared? = some p → Gone u a →
      ∃ ns ∈ compatibilityNamespace :: namespaces, d.Declares p ns ∨ d.Declares q ns) := by
  have ht := mem_tags_of_mem_lineages hx x.1 List.mem_cons_self
  obtain rfl := eq_stripTag_of_start h ht hu hstart
  have hdesign : q ∈ d.declaredQualifiers namespaces ↔ ∃ ns ∈ namespaces, d.Declares q ns :=
    mem_declaredQualifiers_iff_declares
  have hqualified : a.name.isQualifiedBy (d.declaredQualifiers namespaces) = true ↔
      q ∈ d.declaredQualifiers namespaces := by
    simp [QName.isQualifiedBy, hq]
  constructor
  · intro hplain hlists
    have hgone : Gone (d.stripTag (d.declaredQualifiers namespaces) x.1) a ↔
        ∃ ns ∈ namespaces, d.Declares q ns := by
      rw [← hdesign, ← hqualified]
      refine ⟨fun hgone => ?_, gone_of_isQualifiedBy⟩
      obtain h | h | h | h := reason_of_gone ha hgone
      · exact h
      · simp [QName.declares, hplain] at h
      · simp [QName.declares, hplain] at h
      · exact absurd h hlists
    refine ⟨hgone, fun hg hone ns hns => ?_⟩
    obtain ⟨ns', hmem, hdeclared⟩ := hgone.mp hg
    rwa [hone ns ns' (declares_of_boundTo? hx hns) hdeclared]
  · intro p hp hgone
    exact declares_of_gone ha hq hp hgone

def designSample : Chars := "<A xmlns:d='d' y='1'><B d:x='2' z='3'/></A>".toList

theorem stripDesignTime_removes_iff_sample : ∃ d, read designSample = .ok d ∧
    ∃ x ∈ d.lineages, ∃ u ∈ (d.stripDesignTime (d.declaredQualifiers ["d".toList])).tags,
      u.span.start = x.1.span.start ∧ ∃ a ∈ x.1.attributes,
        a.name = ⟨some "d".toList, "x".toList⟩ ∧ Gone u a ∧
        ∃ ns ∈ ["d".toList], d.Declares "d".toList ns := by
  have hgone : ∃ d, read designSample = .ok d ∧
      ∃ x ∈ d.lineages, ∃ u ∈ (d.stripDesignTime (d.declaredQualifiers ["d".toList])).tags,
        u.span.start = x.1.span.start ∧ ∃ a ∈ x.1.attributes,
          a.name = ⟨some "d".toList, "x".toList⟩ ∧ Gone u a :=
    exists_ok_of_any (by decide +kernel)
  obtain ⟨d, hd, x, hx, u, hu, hstart, a, ha, hname, hg⟩ := hgone
  have hremoves := stripDesignTime_removes_iff hd ["d".toList] hx hu hstart ha
    (congrArg QName.qualifier hname)
  have hlists : ¬ a.ListsIgnored d := fun h => absurd h.1 (by rw [hname]; decide)
  exact ⟨d, hd, x, hx, u, hu, hstart, a, ha, hname, hg,
    (hremoves.1 (by rw [hname]; decide) hlists).1.mp hg⟩

def reboundSample : Chars := "<A xmlns:d='r' d:y='1'><B xmlns:d='d' d:x='2'/></A>".toList

/-- A declaration further in takes away an attribute, and another declaration, that have nothing to
do with its namespace. -/
theorem outer_declaration_stripped : ∃ d, read reboundSample = .ok d ∧
    (∃ x ∈ d.lineages, ∃ u ∈ (d.stripDesignTime (d.declaredQualifiers ["d".toList])).tags,
      u.span.start = x.1.span.start ∧ ∃ a ∈ x.1.attributes,
        a.name = ⟨some "d".toList, "y".toList⟩ ∧ Gone u a ∧
        ∃ ns, boundTo? "d".toList (x.1 :: x.2) = some ns ∧ ns ∉ ["d".toList]) ∧
    ∃ x ∈ d.lineages, ∃ u ∈ (d.stripDesignTime (d.declaredQualifiers ["d".toList])).tags,
      u.span.start = x.1.span.start ∧ ∃ a ∈ x.1.attributes,
        a.name.declared? = some "d".toList ∧ Gone u a ∧
        a.value ∉ [compatibilityNamespace, "d".toList] := by
  have hattribute : ∃ d, read reboundSample = .ok d ∧
      ∃ x ∈ d.lineages, ∃ u ∈ (d.stripDesignTime (d.declaredQualifiers ["d".toList])).tags,
        u.span.start = x.1.span.start ∧ ∃ a ∈ x.1.attributes,
          a.name = ⟨some "d".toList, "y".toList⟩ ∧ Gone u a ∧
          boundTo? "d".toList (x.1 :: x.2) = some "r".toList :=
    exists_ok_of_any (by decide +kernel)
  have hdeclaration : ∃ d, read reboundSample = .ok d ∧
      ∃ x ∈ d.lineages, ∃ u ∈ (d.stripDesignTime (d.declaredQualifiers ["d".toList])).tags,
        u.span.start = x.1.span.start ∧ ∃ a ∈ x.1.attributes,
          a.name.declared? = some "d".toList ∧ Gone u a ∧ a.value = "r".toList :=
    exists_ok_of_any (by decide +kernel)
  obtain ⟨d, hd, x, hx, u, hu, hstart, a, ha, hname, hgone, hbound⟩ := hattribute
  obtain ⟨d', hd', x', hx', u', hu', hstart', a', ha', hdeclared, hgone', hv⟩ := hdeclaration
  obtain rfl : d = d' := Except.ok.inj (hd.symm.trans hd')
  exact ⟨d, hd, ⟨x, hx, u, hu, hstart, a, ha, hname, hgone, _, hbound, by decide⟩,
    x', hx', u', hu', hstart', a', ha', hdeclared, hgone', by rw [hv]; decide⟩

end Document

end XamlFormat
