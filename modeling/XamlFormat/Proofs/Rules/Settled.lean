import XamlFormat.Proofs.Order.Placement
import XamlFormat.Proofs.Rules.Reading
import XamlFormat.Proofs.Rules.Stripped
import XamlFormat.Proofs.Rules.Thickness

/-! Tidying twice. A document that is read from what another one prints has nothing more to strip, its
values are in the style of the settings already, and its attributes are in their order. -/
namespace XamlFormat

open Markup

/-- The second attribute is what is read of the first one once it is printed. -/
structure Attribute.Renewed (a b : Attribute) : Prop where
  name : b.name = a.name
  extension : b.extension = a.extension
  value : a.extension = none → b.value = a.value
  read : ∀ e, a.extension = some e →
    Extension.read a.value = .ok e ∧ Extension.read b.value = .ok e

/-- The attribute holds what its value is read as. -/
structure Attribute.IsRead (s : Settings) (a : Attribute) : Prop where
  extension : a.extension = s.reading a.value
  canRead : s.CanRead a.value

section Values

variable {s : Settings} {a b : Attribute}

theorem Settings.reading_eq_some {value : Chars} {e : Extension} (h : s.reading value = some e) :
    s.formatExtensions = true ∧ Extension.read value = .ok e := by
  unfold reading at h
  split_ifs at h with hs
  refine ⟨hs, ?_⟩
  cases hr : Extension.read value <;> simp_all [Except.toOption]

theorem Attribute.IsRead.of_notMem (hnone : a.extension = none) (h : '{' ∉ a.value) :
    a.IsRead s := by
  obtain ⟨hreading, hcan⟩ :=
    Settings.reading_of_not_looksLike (s := s) (Extension.looksLike_of_notMem h)
  exact ⟨hnone.trans hreading.symm, hcan⟩

theorem Attribute.IsRead.extension_eq_none (h : a.IsRead s) (hb : '{' ∉ a.value) :
    a.extension = none :=
  h.extension.trans
    (Settings.reading_of_not_looksLike (s := s) (Extension.looksLike_of_notMem hb)).1

theorem Attribute.IsRead.renewed (h : a.IsRead s) (hk : a.Kept b) :
    a.Renewed (b.withReading s) ∧ s.CanRead b.value := by
  cases ha : a.extension with
  | none =>
    have hvalue := hk.value ha
    refine ⟨⟨hk.name, ?_, fun _ => hvalue, by simp [ha]⟩, hvalue ▸ h.canRead⟩
    rw [Attribute.withReading, hvalue, h.extension]
  | some e =>
    obtain ⟨hs, hread⟩ := Settings.reading_eq_some (h.extension ▸ ha)
    have hb := hk.extension e a.value ha hread
    refine ⟨⟨hk.name, ?_, by simp [ha], fun e' he => ?_⟩, fun _ => by simp [hb]⟩
    · rw [Attribute.withReading, Settings.reading, if_pos hs, hb, ha]
      rfl
    · cases ha.symm.trans he
      exact ⟨hread, hb⟩

theorem Attribute.Renewed.ungroup {group : Nat} (h : Attribute.Renewed { a with group } b) :
    a.Renewed b :=
  ⟨h.name, h.extension, h.value, h.read⟩

theorem Attribute.name_normalizeThickness (s : Settings) (a : Attribute) :
    (a.normalizeThickness s).name = a.name := by
  unfold normalizeThickness
  split_ifs <;> rfl

theorem Attribute.normalizeThickness_normalizeThickness (s : Settings) (a : Attribute) :
    (a.normalizeThickness s).normalizeThickness s = a.normalizeThickness s := by
  unfold normalizeThickness
  split_ifs with h
  · cases hn : Thickness.normalize? s.thicknessStyle a.value with
    | none => simp [hn]
    | some v => simp [Thickness.normalize?_normal hn]
  · rfl

theorem Attribute.IsRead.normalizeThickness (h : a.IsRead s) : (a.normalizeThickness s).IsRead s := by
  unfold Attribute.normalizeThickness
  split_ifs with hlisted
  · cases hn : Thickness.normalize? s.thicknessStyle a.value with
    | none => exact h
    | some v =>
      rw [Bool.and_eq_true, Option.isNone_iff_eq_none] at hlisted
      obtain ⟨hreading, hcan⟩ :=
        Settings.reading_of_not_looksLike (s := s) (Thickness.looksLike_normal hn)
      exact ⟨hlisted.1.trans hreading.symm, hcan⟩
  · exact h

theorem Attribute.Renewed.normalizeThickness (h : a.Renewed b) (ha : a.normalizeThickness s = a) :
    b.normalizeThickness s = b := by
  unfold Attribute.normalizeThickness at ha ⊢
  split_ifs with hlisted
  · rw [h.extension, h.name] at hlisted
    rw [if_pos hlisted] at ha
    have hvalue := h.value (by simpa using (Bool.and_eq_true_iff.mp hlisted).1)
    have hnormal : (Thickness.normalize? s.thicknessStyle b.value).getD b.value = b.value := by
      rw [hvalue]
      exact congrArg Attribute.value ha
    rw [hnormal]
  · rfl

theorem Attribute.normalizeThickness_of_notMem (h : a.name.written ∉ s.thicknessAttributes) :
    a.normalizeThickness s = a := by
  rw [Attribute.normalizeThickness, if_neg (by simp [h])]

end Values

section Lists

variable {compatibility compatibility' unused unused' : List Chars} {a a' b : Attribute}

def Attribute.stillIgnored (unused : List Chars) (a : Attribute) : List Chars :=
  (Text.words a.value).filter fun w => !unused.contains w

theorem Attribute.dropIgnored?_list (h : a.name.base = "Ignorable".toList)
    (hq : a.name.isQualifiedBy compatibility = true) :
    a.dropIgnored? compatibility unused =
      if (a.stillIgnored unused).isEmpty then none
      else some { a with value := Text.joinWith [' '] (a.stillIgnored unused) } := by
  rw [Attribute.dropIgnored?, if_pos (by simp [h, hq])]
  rfl

theorem Attribute.dropIgnored?_other
    (h : ¬ (a.name.base = "Ignorable".toList ∧ a.name.isQualifiedBy compatibility = true)) :
    a.dropIgnored? compatibility unused = some a := by
  rw [Attribute.dropIgnored?, if_neg (by simpa using h)]

/-- A list of qualifiers to ignore that was shortened is not shortened again by less. -/
theorem Attribute.dropIgnored?_again (h : a.dropIgnored? compatibility unused = some a')
    (hc : compatibility' ⊆ compatibility) (hu : unused' ⊆ unused) (hname : b.name = a.name)
    (hvalue : a.name.base = "Ignorable".toList → b.value = a'.value) :
    b.dropIgnored? compatibility' unused' = some b := by
  by_cases hlist : b.name.base = "Ignorable".toList ∧ b.name.isQualifiedBy compatibility' = true
  · obtain ⟨hbase, hq⟩ := hlist
    have hqualified : a.name.isQualifiedBy compatibility = true := by
      by_contra hnot
      rw [← hname, Bool.not_eq_true] at hnot
      simp [QName.isQualifiedBy_mono hc hnot] at hq
    rw [Attribute.dropIgnored?_list (hname ▸ hbase) hqualified] at h
    split_ifs at h with hempty
    have hjoined : b.value = Text.joinWith [' '] (a.stillIgnored unused) := by
      rw [hvalue (hname ▸ hbase), ← Option.some.inj h]
    have hwords : Text.words b.value = a.stillIgnored unused := by
      rw [hjoined]
      exact Text.words_joinWith fun t ht => Text.mem_words (List.mem_filter.mp ht).1
    have hkept : b.stillIgnored unused' = a.stillIgnored unused := by
      rw [Attribute.stillIgnored, hwords, List.filter_eq_self]
      intro w hw
      have hunused := (List.mem_filter.mp hw).2
      simp only [List.contains_eq_mem, Bool.not_eq_true', decide_eq_false_iff_not] at hunused ⊢
      exact fun hm => hunused (hu hm)
    rw [Attribute.dropIgnored?_list hbase hq, hkept, if_neg hempty, ← hjoined]
  · exact Attribute.dropIgnored?_other hlist

end Lists

/-- Declarations and lists of qualifiers to ignore hold plain text, and the namespaces that the
settings know are not declared for the qualifiers that have a meaning of their own. -/
structure Document.PlainDeclarations (s : Settings) (d : Document) : Prop where
  values : ∀ t ∈ d.tags, ∀ a ∈ t.attributes,
    a.name.declared?.isSome = true ∨ a.name.base = "Ignorable".toList →
      '{' ∉ a.value ∧ a.name.written ∉ s.thicknessAttributes
  reserved : ∀ q ∈ d.declaredQualifiers (compatibilityNamespace :: s.designTimeNamespaces),
    q ≠ "xml".toList ∧ q ≠ "xmlns".toList

/-- What the second document holds when it is read from what the settings make of the first. -/
structure Document.Follows (s : Settings) (d d' : Document) : Prop where
  copied : ∀ q, q ∈ d'.copiedQualifiers ↔ q ∈ d.copiedQualifiers
  declared : ∀ u ∈ d'.tags, ∀ b ∈ u.attributes, b.name.declared?.isSome = true →
    ∃ t ∈ d.tags, ∃ a ∈ t.attributes, a.name = b.name ∧ a.value = b.value
  names : ∀ t ∈ d.tags, ∃ u ∈ d'.tags, u.name = t.name
  attributes : ∀ t ∈ d.tags, ∀ a ∈ t.attributes, ∀ a', d.kept? s a = some a' →
    ∃ u ∈ d'.tags, ∃ b ∈ u.attributes,
      (b.name = a.name ∧ b.value = a.value ∧
        ∀ q, a.name.qualifier = some q → q ∈ d.copiedQualifiers) ∨
      (a'.normalizeThickness s).Renewed b

namespace Document

section Kept

variable {s : Settings} {d : Document} {design : List Chars} {a a' b : Attribute}

theorem thin?_eq_some_iff : d.thin? design a = some a' ↔
    a.name.isQualifiedBy design = false ∧ a.name.declares (d.unusedQualifiers design) = false ∧
      a.dropIgnored? (d.declaredQualifiers [compatibilityNamespace]) (d.unusedQualifiers design) =
        some a' := by
  unfold thin?
  split_ifs with h
  · simp only [Bool.or_eq_true] at h
    obtain h | h := h <;> simp [h]
  · simp only [Bool.or_eq_true, not_or, Bool.not_eq_true] at h
    simp [h]

theorem strip?_eq_some_iff (hd : design ≠ []) : d.strip? design a = some a' ↔
    d.thin? design a = some a' ∧ a'.name.declares (d.idleQualifiers design) = false := by
  rw [strip?, if_neg (by simpa using hd), Option.filter_eq_some_iff]
  simp

theorem kept?_eq_some (h : d.kept? s a = some a') :
    a' = a ∨ a.name.base = "Ignorable".toList ∧
      a.name.isQualifiedBy (d.declaredQualifiers [compatibilityNamespace]) = true ∧
      ∃ unused, a' = { a with value := Text.joinWith [' '] (a.stillIgnored unused) } := by
  unfold kept? at h
  split_ifs at h
  · by_cases hd : d.declaredQualifiers s.designTimeNamespaces = []
    · rw [strip?, if_pos (by simpa using hd)] at h
      exact .inl (Option.some.inj h).symm
    · obtain ⟨-, -, hdrop⟩ := thin?_eq_some_iff.mp ((strip?_eq_some_iff hd).mp h).1
      by_cases hlist : a.name.base = "Ignorable".toList ∧
          a.name.isQualifiedBy (d.declaredQualifiers [compatibilityNamespace]) = true
      · rw [Attribute.dropIgnored?_list hlist.1 hlist.2] at hdrop
        split_ifs at hdrop
        exact .inr ⟨hlist.1, hlist.2, _, (Option.some.inj hdrop).symm⟩
      · rw [Attribute.dropIgnored?_other hlist] at hdrop
        exact .inl (Option.some.inj hdrop).symm
  · exact .inl (Option.some.inj h).symm

theorem name_of_kept? (h : d.kept? s a = some a') : a'.name = a.name := by
  obtain rfl | ⟨-, -, unused, rfl⟩ := kept?_eq_some h <;> rfl

theorem extension_of_kept? (h : d.kept? s a = some a') : a'.extension = a.extension := by
  obtain rfl | ⟨-, -, unused, rfl⟩ := kept?_eq_some h <;> rfl

variable (hplain : d.PlainDeclarations s)

include hplain

theorem PlainDeclarations.not_isQualifiedBy (n : QName) {namespaces : List Chars}
    (hn : namespaces ⊆ compatibilityNamespace :: s.designTimeNamespaces)
    (hq : n.qualifier = some "xml".toList ∨ n.qualifier = some "xmlns".toList) :
    n.isQualifiedBy (d.declaredQualifiers namespaces) = false := by
  by_contra h
  obtain ⟨q, hmem, hname⟩ := QName.isQualifiedBy_iff.mp (by simpa using h)
  obtain ⟨t, ht, a, ha, hdeclared, hv⟩ := mem_declaredQualifiers hmem
  have hreserved := hplain.reserved q (mem_declaredQualifiers_iff.mpr ⟨t, ht, a, ha, hdeclared, hn hv⟩)
  obtain hq | hq := hq
  · exact hreserved.1 (Option.some.inj (hname.symm.trans hq))
  · exact hreserved.2 (Option.some.inj (hname.symm.trans hq))

theorem PlainDeclarations.kept?_declaration (h : d.kept? s a = some a')
    (hdeclared : a.name.declared?.isSome = true) : a' = a := by
  obtain heq | ⟨-, hq, -⟩ := kept?_eq_some h
  · exact heq
  · have hqualifier : a.name.qualifier = some "xmlns".toList := by
      unfold QName.declared? at hdeclared
      split_ifs at hdeclared with hx
      · exact hx
      · cases hdeclared
    rw [hplain.not_isQualifiedBy a.name (by simp) (.inr hqualifier)] at hq
    cases hq

variable {t : Tag} (ht : t ∈ d.tags) (ha : a ∈ t.attributes)

include ht ha

theorem PlainDeclarations.isRead_kept? (hread : a.IsRead s) (h : d.kept? s a = some a') :
    a'.IsRead s := by
  obtain rfl | ⟨hbase, -, unused, rfl⟩ := kept?_eq_some h
  · exact hread
  · have hbrace := (hplain.values t ht a ha (.inr hbase)).1
    refine .of_notMem (hread.extension_eq_none hbrace) fun hm => ?_
    obtain hm | ⟨w, hw, hm⟩ := Text.mem_joinWith hm
    · exact absurd hm (by decide)
    · have hpiece := (List.mem_filter.mp (List.mem_filter.mp hw).1).1
      exact hbrace (Text.mem_piecesBy hpiece _ hm).1

/-- Declarations and lists of qualifiers come back with the value that they were printed with. -/
theorem PlainDeclarations.value_renewed (hread : a.IsRead s) (h : d.kept? s a = some a')
    (hb : (a'.normalizeThickness s).Renewed b)
    (hkind : a.name.declared?.isSome = true ∨ a.name.base = "Ignorable".toList) :
    b.value = a'.value := by
  obtain ⟨hbrace, hlisted⟩ := hplain.values t ht a ha hkind
  rw [Attribute.normalizeThickness_of_notMem (by rwa [name_of_kept? h])] at hb
  exact hb.value ((extension_of_kept? h).trans (hread.extension_eq_none hbrace))

end Kept

theorem name_renewed {s : Settings} {d : Document} {a a' b : Attribute}
    (h : d.kept? s a = some a') (hb : (a'.normalizeThickness s).Renewed b) : b.name = a.name := by
  rw [hb.name, Attribute.name_normalizeThickness, name_of_kept? h]

section Follows

variable {s : Settings} {d d' : Document} {design design' : List Chars} {a a' b : Attribute}
  {t : Tag}

namespace Follows

theorem declaredQualifiers_subset (h : d.Follows s d') (namespaces : List Chars) :
    d'.declaredQualifiers namespaces ⊆ d.declaredQualifiers namespaces := by
  intro q hq
  obtain ⟨u, hu, b, hb, hdeclared, hv⟩ := mem_declaredQualifiers hq
  obtain ⟨t, ht, a, ha, hname, hvalue⟩ := h.declared u hu b hb (by simp [hdeclared])
  exact mem_declaredQualifiers_iff.mpr ⟨t, ht, a, ha, by rwa [hname], by rwa [hvalue]⟩

theorem unusedQualifiers_subset (h : d.Follows s d') (hd : design' ⊆ design) :
    d'.unusedQualifiers design' ⊆ d.unusedQualifiers design := by
  intro q hq
  obtain ⟨hq, hcopied, hnames⟩ := mem_unusedQualifiers_iff.mp hq
  refine mem_unusedQualifiers_iff.mpr ⟨hd hq, fun hc => hcopied ((h.copied q).mpr hc), ?_⟩
  intro t ht
  obtain ⟨u, hu, hname⟩ := h.names t ht
  exact hname ▸ hnames u hu

theorem thin?_again (h : d.Follows s d') (hd : design' ⊆ design)
    (ha : d.thin? design a = some a') (hname : b.name = a.name)
    (hvalue : a.name.base = "Ignorable".toList → b.value = a'.value) :
    d'.thin? design' b = some b := by
  obtain ⟨hqualified, hdeclares, hdrop⟩ := thin?_eq_some_iff.mp ha
  have hunused := h.unusedQualifiers_subset hd
  rw [thin?_eq_some_iff, hname]
  exact ⟨QName.isQualifiedBy_mono hd hqualified, QName.declares_mono hunused hdeclares,
    Attribute.dropIgnored?_again hdrop (h.declaredQualifiers_subset _) hunused hname hvalue⟩

theorem subset_declaredQualifiers (h : d.Follows s d') (hplain : d.PlainDeclarations s)
    (hread : ∀ t ∈ d.tags, ∀ a ∈ t.attributes, a.IsRead s)
    (hs : s.removeDesignTimeReferences = false) (namespaces : List Chars) :
    d.declaredQualifiers namespaces ⊆ d'.declaredQualifiers namespaces := by
  intro q hq
  obtain ⟨t, ht, a, ha, hdeclared, hv⟩ := mem_declaredQualifiers hq
  have hkept : d.kept? s a = some a := by simp [kept?, hs]
  obtain ⟨u, hu, b, hb, ⟨hname, hvalue, -⟩ | hrenewed⟩ := h.attributes t ht a ha a hkept
  · exact mem_declaredQualifiers_iff.mpr ⟨u, hu, b, hb, by rwa [hname], by rwa [hvalue]⟩
  · have hvalue := hplain.value_renewed ht ha (hread t ht a ha) hkept hrenewed
      (.inl (by simp [hdeclared]))
    exact mem_declaredQualifiers_iff.mpr
      ⟨u, hu, b, hb, by rwa [name_renewed hkept hrenewed], by rwa [hvalue]⟩

/-- A qualifier of lists to ignore that is still used at first is still used. -/
theorem usedQualifiers_again (h : d.Follows s d') (hplain : d.PlainDeclarations s)
    (hread : ∀ t ∈ d.tags, ∀ a ∈ t.attributes, a.IsRead s)
    (hs : s.removeDesignTimeReferences = true)
    (hne : d.declaredQualifiers s.designTimeNamespaces ≠ []) {q : Chars}
    (hq : q ∈ d.declaredQualifiers [compatibilityNamespace])
    (hused : q ∈ d.usedQualifiers (d.declaredQualifiers s.designTimeNamespaces)) :
    q ∈ d'.usedQualifiers (d'.declaredQualifiers s.designTimeNamespaces) := by
  have hd := h.declaredQualifiers_subset s.designTimeNamespaces
  rw [mem_usedQualifiers_iff] at hused ⊢
  obtain hcopied | ⟨t, ht, hname | ⟨a, ha, a', hthin, hname⟩⟩ := hused
  · exact .inl ((h.copied q).mpr hcopied)
  · obtain ⟨u, hu, hun⟩ := h.names t ht
    exact .inr ⟨u, hu, .inl (hun ▸ hname)⟩
  · -- only declarations go afterwards, and none of them has this qualifier
    have hdeclares : a'.name.declares (d.idleQualifiers
        (d.declaredQualifiers s.designTimeNamespaces)) = false := by
      by_contra hdeclares
      obtain ⟨r, -, hr⟩ := QName.declares_iff.mp (by simpa using hdeclares)
      have hxmlns : a'.name.qualifier = some "xmlns".toList := by
        unfold QName.declared? at hr
        split_ifs at hr with hx
        exact hx
      have hnot : a'.name.isQualifiedBy (d.declaredQualifiers [compatibilityNamespace]) = false :=
        hplain.not_isQualifiedBy a'.name (by simp) (.inr hxmlns)
      rw [QName.isQualifiedBy_iff.mpr ⟨q, hq, hname⟩] at hnot
      cases hnot
    have hkept : d.kept? s a = some a' := by
      rw [kept?, if_pos hs, strip?_eq_some_iff hne]
      exact ⟨hthin, hdeclares⟩
    have hnames := name_of_kept? hkept
    obtain ⟨u, hu, b, hb, ⟨-, -, hcopied⟩ | hrenewed⟩ := h.attributes t ht a ha a' hkept
    · exact .inl ((h.copied q).mpr (hcopied q (hnames ▸ hname)))
    · have hbname := name_renewed hkept hrenewed
      refine .inr ⟨u, hu, .inr ⟨b, hb, b, h.thin?_again hd hthin hbname fun hbase => ?_, ?_⟩⟩
      · exact hplain.value_renewed ht ha (hread t ht a ha) hkept hrenewed (.inr hbase)
      · rw [hbname, ← hnames, hname]

/-- An attribute that was kept, printed and read is kept as it is. -/
theorem kept?_again (h : d.Follows s d') (hplain : d.PlainDeclarations s)
    (hread : ∀ t ∈ d.tags, ∀ a ∈ t.attributes, a.IsRead s) (ht : t ∈ d.tags)
    (ha : a ∈ t.attributes) (hkept : d.kept? s a = some a')
    (hb : (a'.normalizeThickness s).Renewed b) : d'.kept? s b = some b := by
  rw [kept?]
  split_ifs with hs
  · have hd := h.declaredQualifiers_subset s.designTimeNamespaces
    have hbname := name_renewed hkept hb
    by_cases hne' : d'.declaredQualifiers s.designTimeNamespaces = []
    · rw [strip?, if_pos (by simpa using hne')]
    · have hne : d.declaredQualifiers s.designTimeNamespaces ≠ [] := by
        intro he
        exact hne' (List.subset_nil.mp (he ▸ hd))
      have hstrip := hkept
      rw [kept?, if_pos hs, strip?_eq_some_iff hne] at hstrip
      rw [strip?_eq_some_iff hne']
      refine ⟨h.thin?_again hd hstrip.1 hbname fun hbase => ?_, ?_⟩
      · exact hplain.value_renewed ht ha (hread t ht a ha) hkept hb (.inr hbase)
      · by_contra hdeclares
        obtain ⟨q, hq, hdeclared⟩ := QName.declares_iff.mp (by simpa using hdeclares)
        obtain ⟨hcompatibility, hidle⟩ := List.mem_filter.mp hq
        have hcompatibility := h.declaredQualifiers_subset _ hcompatibility
        have hidle : q ∉ d'.usedQualifiers (d'.declaredQualifiers s.designTimeNamespaces) := by
          simpa using hidle
        have hunused : q ∉ d.usedQualifiers (d.declaredQualifiers s.designTimeNamespaces) :=
          fun hu => hidle (h.usedQualifiers_again hplain hread hs hne hcompatibility hu)
        have hmem : q ∈ d.idleQualifiers (d.declaredQualifiers s.designTimeNamespaces) :=
          List.mem_filter.mpr ⟨hcompatibility, by simpa using hunused⟩
        rw [hbname, ← name_of_kept? hkept] at hdeclared
        rw [QName.declares_iff.mpr ⟨q, hmem, hdeclared⟩] at hstrip
        cases hstrip.2
  · rfl

theorem matchingName_again (h : d.Follows s d') (hplain : d.PlainDeclarations s)
    (hread : ∀ t ∈ d.tags, ∀ a ∈ t.attributes, a.IsRead s) (hkept : d.kept? s a = some a')
    (hb : b.name = a.name) :
    b.matchingName s (d'.declaredQualifiers s.designTimeNamespaces) =
      b.matchingName s (d.declaredQualifiers s.designTimeNamespaces) := by
  have hd := h.declaredQualifiers_subset s.designTimeNamespaces
  have hcontains (q : Chars) (hq : b.name.qualifier = some q) :
      (d'.declaredQualifiers s.designTimeNamespaces).contains q =
        (d.declaredQualifiers s.designTimeNamespaces).contains q := by
    rw [Bool.eq_iff_iff, List.contains_iff_mem, List.contains_iff_mem]
    refine ⟨fun hq => hd hq, fun hmem => ?_⟩
    by_cases hs : s.removeDesignTimeReferences = true
    · have hne : d.declaredQualifiers s.designTimeNamespaces ≠ [] := List.ne_nil_of_mem hmem
      rw [kept?, if_pos hs, strip?_eq_some_iff hne, thin?_eq_some_iff] at hkept
      rw [hb] at hq
      rw [QName.isQualifiedBy_iff.mpr ⟨q, hmem, hq⟩] at hkept
      cases hkept.1.1
    · exact h.subset_declaredQualifiers hplain hread (by simpa using hs) _ hmem
  unfold Attribute.matchingName
  split
  · rw [hcontains _ ‹_›]
  · rfl

end Follows

end Follows

section Tidy

variable {s : Settings} {d d' : Document} {t u : Tag} {a : Attribute}

theorem mem_tidy (h : a ∈ (d.tidy s t).attributes) :
    ∃ b ∈ t.attributes, ∃ b', d.kept? s b = some b' ∧
      ∃ group, a = { b'.normalizeThickness s with group } := by
  have hmem := (orderAttributes_perm _ _ _ _).subset h
  obtain ⟨c, hc, rfl⟩ := List.mem_map.mp hmem
  obtain ⟨b', hb', rfl⟩ := List.mem_map.mp hc
  obtain ⟨b, hb, hkept⟩ := List.mem_filterMap.mp hb'
  exact ⟨b, hb, b', hkept, _, rfl⟩

theorem mem_tidy_of_kept? {b b' : Attribute} (hb : b ∈ t.attributes) (hkept : d.kept? s b = some b') :
    ∃ group, { b'.normalizeThickness s with group } ∈ (d.tidy s t).attributes := by
  refine ⟨_, (orderAttributes_perm _ _ _ _).symm.subset (List.mem_map.mpr
    ⟨b'.normalizeThickness s, List.mem_map.mpr ⟨b', List.mem_filterMap.mpr ⟨b, hb, hkept⟩, rfl⟩, rfl⟩)⟩

theorem distinctNames_kept? (h : DistinctNames t.attributes) : DistinctNames
    ((t.attributes.filterMap (d.kept? s)).map (Attribute.normalizeThickness s)) := by
  rw [DistinctNames, List.Nodup, List.pairwise_map] at h ⊢
  rw [List.pairwise_map]
  refine List.Pairwise.filterMap _ (fun a b hab a' ha' b' hb' => ?_) h
  rwa [Attribute.name_normalizeThickness, name_of_kept? ha', Attribute.name_normalizeThickness,
    name_of_kept? hb']

/-- Tidying a tag that was tidied, printed and read changes nothing that is printed. -/
theorem tidy_again (h : d.Follows s d') (hplain : d.PlainDeclarations s)
    (hread : ∀ t ∈ d.tags, ∀ a ∈ t.attributes, a.IsRead s) (ht : t ∈ d.tags)
    (hdistinct : DistinctNames t.attributes)
    (hu : u.attributes.Pairwise fun a b => a.index < b.index)
    (hrenewed : List.Forall₂ Attribute.Renewed (d.tidy s t).attributes u.attributes) :
    (d'.tidy s u).pinned = (d.tidy s t).pinned ∧
      List.Forall₂ (fun a b => a.Renewed b ∧ b.group = a.group) (d.tidy s t).attributes
        (d'.tidy s u).attributes := by
  have hback : ∀ b ∈ u.attributes, ∃ a ∈ t.attributes, ∃ a', d.kept? s a = some a' ∧
      (a'.normalizeThickness s).Renewed b := by
    intro b hb
    obtain ⟨c, hc, hcb⟩ := exists_of_forall₂ hrenewed b hb
    obtain ⟨a, ha, a', hkept, group, rfl⟩ := mem_tidy hc
    exact ⟨a, ha, a', hkept, hcb.ungroup⟩
  have hkept : u.attributes.filterMap (d'.kept? s) = u.attributes := by
    refine (List.filterMap_congr fun b hb => ?_).trans (List.filterMap_some)
    obtain ⟨a, ha, a', hkept, hab⟩ := hback b hb
    exact h.kept?_again hplain hread ht ha hkept hab
  have hvalues : u.attributes.map (Attribute.normalizeThickness s) = u.attributes := by
    refine (List.map_congr_left fun b hb => ?_).trans (List.map_id _)
    obtain ⟨a, -, a', -, hab⟩ := hback b hb
    exact hab.normalizeThickness (Attribute.normalizeThickness_normalizeThickness s a')
  have htidy : d'.tidy s u = u.orderAttributes (.ofGroups s.attributeGroups) s
      (d'.declaredQualifiers s.designTimeNamespaces) := by
    rw [tidy, hkept, Tag.normalizeThickness, hvalues]
  have hnames : ∀ a ∈ (d.tidy s t).attributes,
      a.matchingName s (d'.declaredQualifiers s.designTimeNamespaces) =
        a.matchingName s (d.declaredQualifiers s.designTimeNamespaces) := by
    intro a ha
    obtain ⟨b, hb, b', hkept, group, rfl⟩ := mem_tidy ha
    refine h.matchingName_again hplain hread hkept ?_
    exact (Attribute.name_normalizeThickness s b').trans (name_of_kept? hkept)
  have hagain := Tag.orderAttributes_again (distinctNames_kept? hdistinct) hu hnames
    (fun a b hab => Attribute.Renewed.name hab) hrenewed
  rw [htidy]
  refine ⟨hagain.1, hagain.2.imp ?_⟩
  rintro a _ ⟨b, hab, rfl⟩
  exact ⟨⟨hab.name, hab.extension, hab.value, hab.read⟩, rfl⟩

end Tidy

end Document
end XamlFormat
