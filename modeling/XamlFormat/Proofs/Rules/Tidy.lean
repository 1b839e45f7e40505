import XamlFormat.Proofs.Lists
import XamlFormat.Proofs.Order.Attributes
import XamlFormat.Style

/-! What the settings do to a tag: attributes change their places and some of them go, but none is
added, and only a thickness or a list of qualifiers to ignore gets another value. -/
namespace XamlFormat

/-- A list of qualifiers that other tools ignore: its own qualifier is declared somewhere in the
document for the namespace of such lists. -/
def Attribute.ListsIgnored (d : Document) (a : Attribute) : Prop :=
  a.name.base = "Ignorable".toList ∧ ∃ q, a.name.qualifier = some q ∧
    ∃ t ∈ d.tags, ∃ b ∈ t.attributes, b.name.declared? = some q ∧ b.value = compatibilityNamespace

/-- The value of a list of qualifiers to ignore once some of its words are gone. -/
def Attribute.Shortens (d : Document) (a : Attribute) (value : Chars) : Prop :=
  a.ListsIgnored d ∧
    ∃ kept, kept ≠ [] ∧ kept.Sublist (Text.words a.value) ∧ value = Text.joinWith [' '] kept

structure Attribute.Tidied (s : Settings) (d : Document) (a b : Attribute) : Prop where
  name : b.name = a.name
  index : b.index = a.index
  offset : b.offset = a.offset
  extension : b.extension = a.extension
  value : ∃ v, (v = a.value ∨ s.removeDesignTimeReferences = true ∧ a.Shortens d v) ∧
    (b.value = v ∨ a.extension = none ∧ a.name.written ∈ s.thicknessAttributes ∧
      Thickness.normalize? s.thicknessStyle v = some b.value)

structure Tag.Tidied (s : Settings) (d : Document) (t u : Tag) : Prop where
  name : u.name = t.name
  selfClosing : u.selfClosing = t.selfClosing
  preserveSpace : u.preserveSpace = t.preserveSpace
  firstLine : u.firstLine = t.firstLine
  span : u.span = t.span
  content : u.content = t.content
  attributes : ∃ kept : List Attribute, kept.Subperm t.attributes ∧
    (s.removeDesignTimeReferences = false → kept.Perm t.attributes) ∧
    List.Forall₂ (Attribute.Tidied s d) kept u.attributes

mutual

theorem Node.mapTags_mapTags (f g : Tag → Tag) :
    ∀ n : Node, (n.mapTags g).mapTags f = n.mapTags fun t => f (g t)
  | .element t ns => by
    rw [Node.mapTags, Node.mapTags, Node.mapTags, mapTagsList_mapTagsList f g ns]
  | .text _ _ => rfl
  | .raw _ _ _ => rfl

theorem mapTagsList_mapTagsList (f g : Tag → Tag) :
    ∀ ns : List Node, mapTagsList f (mapTagsList g ns) = mapTagsList (fun t => f (g t)) ns
  | [] => rfl
  | n :: ns => by
    rw [mapTagsList, mapTagsList, mapTagsList, n.mapTags_mapTags f g, mapTagsList_mapTagsList f g ns]

end

mutual

theorem Node.mapTags_id : ∀ n : Node, n.mapTags (fun t => t) = n
  | .element t ns => by rw [Node.mapTags, mapTagsList_id ns]
  | .text _ _ => rfl
  | .raw _ _ _ => rfl

theorem mapTagsList_id : ∀ ns : List Node, mapTagsList (fun t => t) ns = ns
  | [] => rfl
  | n :: ns => by rw [mapTagsList, n.mapTags_id, mapTagsList_id ns]

end

theorem Document.mapTags_mapTags (f g : Tag → Tag) (d : Document) :
    (d.mapTags g).mapTags f = d.mapTags fun t => f (g t) := by
  simp only [Document.mapTags, mapTagsList_mapTagsList]

theorem Document.mapTags_id (d : Document) : d.mapTags (fun t => t) = d := by
  simp only [Document.mapTags, mapTagsList_id]

/-- What is left of a list goes back to some of its members. -/
theorem orderAttributes_perm (rules : OrderingRules) (s : Settings) (design : List Chars) (t : Tag) :
    (t.orderAttributes rules s design).attributes.Perm
      (t.attributes.map (Attribute.grouped rules s design)) := by
  have hitems : (t.attributes.map (Attribute.ranked rules s design)).map Ranked.item =
      t.attributes.map (Attribute.grouped rules s design) := by
    simp [Attribute.ranked, Attribute.grouped]
  rw [← hitems]
  refine (takeNamed_perm _ _).trans (List.Perm.map _ ?_)
  split_ifs
  · exact stableSort_perm _ _
  · exact .refl _

namespace Document

variable {d : Document} {s : Settings}

theorem mem_declaredQualifiers {namespaces : List Chars} {q : Chars}
    (h : q ∈ d.declaredQualifiers namespaces) :
    ∃ t ∈ d.tags, ∃ b ∈ t.attributes, b.name.declared? = some q ∧ b.value ∈ namespaces := by
  simp only [declaredQualifiers, List.mem_eraseDups, List.mem_flatMap, List.mem_filterMap] at h
  obtain ⟨t, ht, b, hb, hq⟩ := h
  split_ifs at hq with hv
  exact ⟨t, ht, b, hb, hq, by simpa using hv⟩

/-- An attribute that loses unused qualifiers keeps all but its value. -/
theorem shortens_of_dropIgnored? {unused : List Chars} {a b : Attribute}
    (h : a.dropIgnored? (d.declaredQualifiers [compatibilityNamespace]) unused = some b) :
    ∃ v, (v = a.value ∨ a.Shortens d v) ∧ b = { a with value := v } := by
  unfold Attribute.dropIgnored? at h
  dsimp only at h
  split_ifs at h with hname hempty
  · rw [Bool.and_eq_true, beq_iff_eq] at hname
    have hlists : a.ListsIgnored d := by
      refine ⟨hname.1, ?_⟩
      have hq := hname.2
      unfold QName.isQualifiedBy at hq
      split at hq
      · rename_i q hname
        obtain ⟨t, ht, b, hb, hdeclared, hv⟩ := mem_declaredQualifiers (by simpa using hq)
        exact ⟨q, hname, t, ht, b, hb, hdeclared, by simpa using hv⟩
      · cases hq
    cases h
    exact ⟨_, .inr ⟨hlists, _, by simpa using hempty, List.filter_sublist, rfl⟩, rfl⟩
  · cases h
    exact ⟨_, .inl rfl, rfl⟩

/-- Removing design-time references takes attributes away and shortens lists of qualifiers. -/
theorem stripDesignTime_eq (design : List Chars) (d : Document) :
    ∃ f : Attribute → Option Attribute,
      (∀ a b, f a = some b → ∃ v, (v = a.value ∨ a.Shortens d v) ∧ b = { a with value := v }) ∧
      d.stripDesignTime design =
        d.mapTags fun t => { t with attributes := t.attributes.filterMap f } := by
  by_cases hd : design.isEmpty = true
  · refine ⟨some, fun a b h => ⟨a.value, .inl rfl, by cases h; rfl⟩, ?_⟩
    rw [stripDesignTime, if_pos hd]
    simp only [List.filterMap_some, mapTags_id]
  · rw [stripDesignTime, if_neg hd]
    simp only [mapTags_mapTags, Tag.dropDeclarations, Tag.dropIgnored, Tag.dropQualified,
      Tag.filterAttributes, ← List.filterMap_eq_filter, List.filterMap_filterMap]
    refine ⟨_, fun a b h => ?_, rfl⟩
    simp only [Option.bind_eq_some_iff, Option.guard_eq_some_iff] at h
    obtain ⟨_, ⟨_, ⟨_, ⟨rfl, -⟩, rfl, -⟩, hb⟩, rfl, -⟩ := h
    exact shortens_of_dropIgnored? hb

theorem tidied_normalizeThickness {a : Attribute} {v : Chars}
    (hv : v = a.value ∨ s.removeDesignTimeReferences = true ∧ a.Shortens d v) :
    a.Tidied s d (({ a with value := v } : Attribute).normalizeThickness s) := by
  unfold Attribute.normalizeThickness
  split_ifs with hlisted
  · rw [Bool.and_eq_true, Option.isNone_iff_eq_none, List.contains_eq_mem, decide_eq_true_iff]
      at hlisted
    refine ⟨rfl, rfl, rfl, rfl, v, hv, ?_⟩
    dsimp only
    cases hn : Thickness.normalize? s.thicknessStyle v with
    | none => exact .inl rfl
    | some w => exact .inr ⟨hlisted.1, hlisted.2, rfl⟩
  · exact ⟨rfl, rfl, rfl, rfl, v, hv, .inl rfl⟩

/-- What holds of the attributes once their values are settled holds of them in their order. -/
theorem tidied_orderAttributes (rules : OrderingRules) (design : List Chars) {t u : Tag}
    (h : t.Tidied s d u) : t.Tidied s d (u.orderAttributes rules s design) := by
  obtain ⟨kept, hsub, hperm, htidied⟩ := h.attributes
  have hgrouped : List.Forall₂ (Attribute.Tidied s d) kept
      (u.attributes.map (Attribute.grouped rules s design)) := by
    rw [List.forall₂_map_right_iff]
    exact htidied.imp fun a b h => ⟨h.name, h.index, h.offset, h.extension, h.value⟩
  have horder := orderAttributes_perm rules s design u
  obtain ⟨kept', hkept', hperm'⟩ := List.perm_comp_forall₂ horder hgrouped.flip
  refine ⟨h.name, h.selfClosing, h.preserveSpace, h.firstLine, h.span, h.content, kept', ?_, ?_, ?_⟩
  · exact hperm'.subperm.trans hsub
  · exact fun hs => hperm'.trans (hperm hs)
  · exact hkept'.flip

/-- Tidying the attributes of a document is a change of its tags. -/
theorem tidyAttributes_eq (s : Settings) (d : Document) :
    ∃ f : Tag → Tag, (∀ t : Tag, t.Tidied s d (f t)) ∧ d.tidyAttributes s = d.mapTags f := by
  let design := d.declaredQualifiers s.designTimeNamespaces
  let rules := OrderingRules.ofGroups s.attributeGroups
  by_cases hs : s.removeDesignTimeReferences = true
  · obtain ⟨f, hf, hstrip⟩ := stripDesignTime_eq design d
    refine ⟨fun t => (Tag.normalizeThickness s { t with attributes := t.attributes.filterMap f
      }).orderAttributes rules s design, fun t => tidied_orderAttributes rules design ?_, ?_⟩
    · obtain ⟨kept, hsub, hkept⟩ := forall₂_filterMap hf t.attributes
      refine ⟨rfl, rfl, rfl, rfl, rfl, rfl, kept, hsub.subperm, by simp [hs], ?_⟩
      rw [Tag.normalizeThickness, List.forall₂_map_right_iff]
      refine hkept.imp fun a b ⟨v, hv, hb⟩ => ?_
      rw [hb]
      exact tidied_normalizeThickness (hv.imp_right fun hv => ⟨hs, hv⟩)
    · rw [tidyAttributes, if_pos hs, hstrip, mapTags_mapTags]
  · refine ⟨fun t => (t.normalizeThickness s).orderAttributes rules s design,
      fun t => tidied_orderAttributes rules design ?_, ?_⟩
    · refine ⟨rfl, rfl, rfl, rfl, rfl, rfl, t.attributes, .refl _, fun _ => .refl _, ?_⟩
      rw [Tag.normalizeThickness, List.forall₂_map_right_iff, List.forall₂_same]
      exact fun a _ => tidied_normalizeThickness (.inl rfl)
    · rw [tidyAttributes, if_neg hs]

end Document
end XamlFormat
