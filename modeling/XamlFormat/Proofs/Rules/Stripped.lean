import XamlFormat.Proofs.Rules.Tidy

/-! What becomes of one attribute of a document, whatever becomes of the others. -/
namespace XamlFormat

theorem QName.isQualifiedBy_iff {n : QName} {qualifiers : List Chars} :
    n.isQualifiedBy qualifiers = true ↔ ∃ q ∈ qualifiers, n.qualifier = some q := by
  unfold isQualifiedBy
  cases n.qualifier <;> simp

theorem QName.declares_iff {n : QName} {qualifiers : List Chars} :
    n.declares qualifiers = true ↔ ∃ q ∈ qualifiers, n.declared? = some q := by
  unfold declares
  cases n.declared? <;> simp

theorem QName.isQualifiedBy_eq_false_iff {n : QName} {q : Chars} (h : n.qualifier = some q)
    {qualifiers : List Chars} : n.isQualifiedBy qualifiers = false ↔ q ∉ qualifiers := by
  simp [isQualifiedBy, h]

theorem QName.declares_eq_false_iff {n : QName} {q : Chars} (h : n.declared? = some q)
    {qualifiers : List Chars} : n.declares qualifiers = false ↔ q ∉ qualifiers := by
  simp [declares, h]

theorem QName.qualifier_of_declared? {n : QName} {q : Chars} (h : n.declared? = some q) :
    n.qualifier = some "xmlns".toList := by
  unfold declared? at h
  split_ifs at h with hq
  exact hq

theorem QName.base_of_declared? {n : QName} {q : Chars} (h : n.declared? = some q) : n.base = q := by
  unfold declared? at h
  split_ifs at h
  exact Option.some.inj h

theorem QName.isQualifiedBy_mono {n : QName} {qualifiers more : List Chars}
    (h : qualifiers ⊆ more) (hn : n.isQualifiedBy more = false) :
    n.isQualifiedBy qualifiers = false := by
  by_contra hq
  obtain ⟨q, hmem, hname⟩ := isQualifiedBy_iff.mp (by simpa using hq)
  rw [isQualifiedBy_iff.mpr ⟨q, h hmem, hname⟩] at hn
  cases hn

theorem QName.declares_mono {n : QName} {qualifiers more : List Chars}
    (h : qualifiers ⊆ more) (hn : n.declares more = false) : n.declares qualifiers = false := by
  by_contra hq
  obtain ⟨q, hmem, hname⟩ := declares_iff.mp (by simpa using hq)
  rw [declares_iff.mpr ⟨q, h hmem, hname⟩] at hn
  cases hn

theorem Tag.mem_qualifiers {t : Tag} {q : Chars} : q ∈ t.qualifiers ↔
    t.name.qualifier = some q ∨ ∃ a ∈ t.attributes, a.name.qualifier = some q := by
  simp [Tag.qualifiers]

mutual

theorem Node.tags_mapTags (f : Tag → Tag) : ∀ n : Node, (n.mapTags f).tags = n.tags.map f
  | .element t ns => by
    rw [Node.mapTags, Node.tags, Node.tags, List.map_cons, tagsList_mapTagsList f ns]
  | .text _ _ => rfl
  | .raw _ _ _ => rfl

theorem tagsList_mapTagsList (f : Tag → Tag) :
    ∀ ns : List Node, tagsList (mapTagsList f ns) = (tagsList ns).map f
  | [] => rfl
  | n :: ns => by
    rw [mapTagsList, tagsList, tagsList, List.map_append, n.tags_mapTags f,
      tagsList_mapTagsList f ns]

end

namespace Document

variable {d : Document} {s : Settings} {design : List Chars}

theorem tags_mapTags (f : Tag → Tag) (d : Document) : (d.mapTags f).tags = d.tags.map f :=
  tagsList_mapTagsList f d.nodes

theorem mem_declaredQualifiers_iff {namespaces : List Chars} {q : Chars} :
    q ∈ d.declaredQualifiers namespaces ↔
      ∃ t ∈ d.tags, ∃ a ∈ t.attributes, a.name.declared? = some q ∧ a.value ∈ namespaces := by
  refine ⟨mem_declaredQualifiers, fun ⟨t, ht, a, ha, hq, hv⟩ => ?_⟩
  simp only [declaredQualifiers, List.mem_eraseDups, List.mem_flatMap, List.mem_filterMap]
  exact ⟨t, ht, a, ha, by rw [if_pos (by simpa using hv), hq]⟩

theorem mem_unusedQualifiers_iff {q : Chars} : q ∈ d.unusedQualifiers design ↔
    q ∈ design ∧ q ∉ d.copiedQualifiers ∧ ∀ t ∈ d.tags, t.name.qualifier ≠ some q := by
  simp [unusedQualifiers]

/-- What is left of an attribute without design-time references: nothing, if it is one or declares a
qualifier that only they used. -/
def thin? (design : List Chars) (d : Document) (a : Attribute) : Option Attribute :=
  if a.name.isQualifiedBy design || a.name.declares (d.unusedQualifiers design) then none
  else a.dropIgnored? (d.declaredQualifiers [compatibilityNamespace]) (d.unusedQualifiers design)

def usedQualifiers (design : List Chars) (d : Document) : List Chars :=
  d.copiedQualifiers ++ d.tags.flatMap fun t =>
    Tag.qualifiers { t with attributes := t.attributes.filterMap (d.thin? design) }

theorem mem_usedQualifiers_iff {q : Chars} :
    q ∈ d.usedQualifiers design ↔ q ∈ d.copiedQualifiers ∨ ∃ t ∈ d.tags,
      t.name.qualifier = some q ∨
        ∃ a ∈ t.attributes, ∃ a', d.thin? design a = some a' ∧ a'.name.qualifier = some q := by
  simp only [usedQualifiers, List.mem_append, List.mem_flatMap, Tag.mem_qualifiers,
    List.mem_filterMap]
  refine or_congr_right (exists_congr fun t => and_congr_right fun _ => or_congr_right ?_)
  constructor
  · rintro ⟨a', ⟨a, ha, hthin⟩, hn⟩
    exact ⟨a, ha, a', hthin, hn⟩
  · rintro ⟨a, ha, a', hthin, hn⟩
    exact ⟨a', ⟨a, ha, hthin⟩, hn⟩

/-- The qualifiers of lists to ignore that have lost their use. -/
def idleQualifiers (design : List Chars) (d : Document) : List Chars :=
  (d.declaredQualifiers [compatibilityNamespace]).filter fun q =>
    !(d.usedQualifiers design).contains q

def strip? (design : List Chars) (d : Document) (a : Attribute) : Option Attribute :=
  if design.isEmpty then some a
  else (d.thin? design a).filter fun b => !b.name.declares (d.idleQualifiers design)

theorem stripDesignTime_eq_mapTags (design : List Chars) (d : Document) :
    d.stripDesignTime design =
      d.mapTags fun t => { t with attributes := t.attributes.filterMap (d.strip? design) } := by
  by_cases hd : design.isEmpty = true
  · rw [stripDesignTime, if_pos hd]
    have hsome : d.strip? design = some := funext fun a => if_pos hd
    simp only [hsome, List.filterMap_some, mapTags_id]
  · have hthin (t : Tag) : ((t.dropQualified design).dropDeclarations
        (d.unusedQualifiers design)).dropIgnored (d.declaredQualifiers [compatibilityNamespace])
          (d.unusedQualifiers design) =
        { t with attributes := t.attributes.filterMap (d.thin? design) } := by
      simp only [Tag.dropIgnored, Tag.dropDeclarations, Tag.dropQualified, Tag.filterAttributes,
        List.filter_filter, List.filterMap_filter]
      congr 2
      funext a
      unfold thin?
      cases a.name.isQualifiedBy design <;> cases a.name.declares (d.unusedQualifiers design) <;> rfl
    have hused : d.copiedQualifiers ++ (d.mapTags fun t => { t with
        attributes := t.attributes.filterMap (d.thin? design) }).tags.flatMap Tag.qualifiers =
          d.usedQualifiers design := by
      rw [tags_mapTags, List.flatMap_map]
      rfl
    rw [stripDesignTime, if_neg hd]
    simp only [hthin]
    rw [hused, mapTags_mapTags]
    refine congrArg (Document.mapTags · d) (funext fun t => ?_)
    rw [Tag.dropDeclarations, Tag.filterAttributes, List.filter_filterMap]
    congr 2
    funext a
    rw [strip?, if_neg hd]
    rfl

def kept? (s : Settings) (d : Document) (a : Attribute) : Option Attribute :=
  if s.removeDesignTimeReferences then d.strip? (d.declaredQualifiers s.designTimeNamespaces) a
  else some a

def tidy (s : Settings) (d : Document) (t : Tag) : Tag :=
  (Tag.normalizeThickness s { t with attributes := t.attributes.filterMap (d.kept? s)
    }).orderAttributes (.ofGroups s.attributeGroups) s (d.declaredQualifiers s.designTimeNamespaces)

theorem tidyAttributes_eq_mapTags (s : Settings) (d : Document) :
    d.tidyAttributes s = d.mapTags (d.tidy s) := by
  rw [tidyAttributes]
  split_ifs with hs
  · have hkept : d.kept? s = d.strip? (d.declaredQualifiers s.designTimeNamespaces) :=
      funext fun a => if_pos hs
    rw [stripDesignTime_eq_mapTags, mapTags_mapTags]
    refine congrArg (Document.mapTags · d) (funext fun t => ?_)
    rw [tidy, hkept]
  · have hkept : d.kept? s = some := funext fun a => if_neg hs
    refine congrArg (Document.mapTags · d) (funext fun t => ?_)
    rw [tidy, hkept, List.filterMap_some]

end Document
end XamlFormat
