import XamlFormat.Proofs.Layout.Arranged
import XamlFormat.Proofs.Rules.Settled

/-! Tags that were tidied, printed and read. They come back with all that the layout and the order of
children take from them. -/
namespace XamlFormat

open Markup Text StartTag Reference

section Keys

variable {s : Settings} {a b : Attribute} {t u : Tag}

theorem Attribute.Renewed.core (h : a.Renewed b) (hg : b.group = a.group) : b.core = a.core := by
  have htext : b.text = a.text := by
    rw [Attribute.text, Attribute.text, h.extension]
    cases ha : a.extension with
    | none => exact h.value ha
    | some e => rfl
  rw [Attribute.core, Attribute.core, htext, h.name, h.extension, hg]

theorem Tag.core_eq (hname : u.name = t.name) (hpinned : u.pinned = t.pinned)
    (h : List.Forall₂ (fun a b => a.Renewed b ∧ b.group = a.group) t.attributes u.attributes) :
    u.core = t.core := by
  have hattributes : u.attributes.map Attribute.core = t.attributes.map Attribute.core :=
    map_of_forall₂ (fun a b hab => hab.1.core hab.2) h
  rw [Tag.core, Tag.core, hname, hpinned, hattributes]

theorem head?_of_looksLike {value : Chars} (h : Extension.looksLike value = true) :
    ∃ rest, trim value = '{' :: rest := by
  unfold Extension.looksLike at h
  split at h
  · cases h
  · exact ⟨_, ‹_›⟩
  · cases h

theorem int64?_of_looksLike {value : Chars} (h : Extension.looksLike value = true) :
    Number.int64? (trim value) = none := by
  obtain ⟨rest, hrest⟩ := head?_of_looksLike h
  rw [hrest]
  simp [Number.int64?, Number.ofDigits?, show Char.isDigit '{' = false by decide]

theorem binary64?_of_looksLike {value : Chars} (h : Extension.looksLike value = true) :
    Number.binary64? (trim value) = none := by
  obtain ⟨rest, hrest⟩ := head?_of_looksLike h
  rw [hrest]
  simp [Number.binary64?, Number.unsigned?, Number.decimal?, Number.ofDigits?,
    show Char.isDigit '{' = false by decide, show Char.toLower '{' = '{' by decide]

/-- The values that two tags have for a name: none, the same, or extensions. -/
theorem value?_renewed (h : List.Forall₂ Attribute.Renewed t.attributes u.attributes)
    (name : Chars) : u.value? name = t.value? name ∨ ∃ v w, t.value? name = some v ∧
      u.value? name = some w ∧ Extension.looksLike v = true ∧ Extension.looksLike w = true := by
  unfold Tag.value? Tag.attribute?
  obtain ⟨ht, hu⟩ | ⟨a, b, ht, hu, hab, -⟩ :=
    forall₂_find (T := Attribute.Renewed) (fun a b hab => by rw [hab.name]) h name
  · exact .inl (by rw [ht, hu])
  · rw [ht, hu]
    cases ha : a.extension with
    | none => exact .inl (by rw [Option.map_some, Option.map_some, hab.value ha])
    | some e =>
      obtain ⟨hreada, hreadb⟩ := hab.read e ha
      exact .inr ⟨_, _, rfl, rfl, Extension.looksLike_of_read hreada,
        Extension.looksLike_of_read hreadb⟩

theorem positionOf_renewed (h : List.Forall₂ Attribute.Renewed t.attributes u.attributes)
    (container : String) {read : Chars → Option Int}
    (hread : ∀ v, Extension.looksLike v = true → read (trim v) = none) (name : Chars) :
    (positionOf container read u name).toOption = (positionOf container read t name).toOption := by
  unfold positionOf
  obtain hsame | ⟨v, w, hv, hw, hlv, hlw⟩ := value?_renewed h name
  · rw [hsame]
  · simp only [hv, hw, hread v hlv, hread w hlw]
    rfl

theorem toOption_mapM {α β ε : Type} {f g : α → Except ε β}
    (h : ∀ a, (f a).toOption = (g a).toOption) (l : List α) :
    (l.mapM f).toOption = (l.mapM g).toOption := by
  induction l with
  | nil => rfl
  | cons a l ih =>
    have ha := h a
    simp only [List.mapM_cons]
    cases hf : f a <;> cases hg : g a <;> simp_all [Except.toOption, bind, Except.bind]
    cases hfl : l.mapM f <;> cases hgl : l.mapM g <;> simp_all [pure, Except.pure]

theorem sameKeys_of_renewed (parent : QName) (hname : u.name = t.name)
    (h : List.Forall₂ Attribute.Renewed t.attributes u.attributes)
    (hsetter : s.setterOrder ≠ .keep → isSetter t = true → ∀ a ∈ t.attributes,
      a.name.written = "Property".toList ∨ a.name.written = "TargetName".toList →
        a.extension = none) : SameKeys s parent t u where
  name := hname
  position key hkey := by
    unfold positionKey? at hkey
    split_ifs at hkey
    · cases hkey
      exact toOption_mapM (positionOf_renewed h "Grid" fun v => int64?_of_looksLike) _
    · cases hkey
      exact toOption_mapM (positionOf_renewed h "Canvas" fun v => binary64?_of_looksLike) _
  setter hk ht := by
    have hvalue (name : Chars) (hn : name = "Property".toList ∨ name = "TargetName".toList) :
        u.value? name = t.value? name := by
      unfold Tag.value? Tag.attribute?
      obtain ⟨htf, huf⟩ | ⟨a, b, htf, huf, hab, -⟩ :=
        forall₂_find (T := Attribute.Renewed) (fun a b hab => by rw [hab.name]) h name
      · rw [htf, huf]
      · have hwritten : a.name.written = name := by simpa using List.find?_some htf
        have hnone := hsetter hk ht a (List.mem_of_find?_eq_some htf) (hwritten ▸ hn)
        rw [htf, huf, Option.map_some, Option.map_some, hab.value hnone]
    unfold setterKey
    dsimp only
    rw [hvalue "Property".toList (.inl rfl), hvalue "TargetName".toList (.inr rfl)]

end Keys

/-- A tag of the document as the settings make it, of a tag as it was read. -/
def Document.Tidies (s : Settings) (d : Document) (u : Tag) : Prop :=
  ∃ t : Tag, t.Unread ∧ (∀ a ∈ t.attributes, s.CanRead a.value) ∧ t.withReadings s ∈ d.tags ∧
    u = d.tidy s (t.withReadings s)

section Tidies

variable {s : Settings} {d d' : Document} {t u w : Tag}

theorem Document.recast_tidy (s : Settings) (d : Document) (t : Tag) : t.Recast (d.tidy s t) := by
  refine ⟨rfl, rfl, rfl, rfl, fun h => h.of_subperm rfl ?_⟩
  obtain ⟨kept, hsub, hkept⟩ := forall₂_filterMap (R := fun a b : Attribute => b.name = a.name)
    (fun a b hab => name_of_kept? (s := s) (d := d) hab) t.attributes
  have hkept := map_of_forall₂ (fun _ _ h => h) hkept
  have hperm := (orderAttributes_perm (.ofGroups s.attributeGroups) s
    (d.declaredQualifiers s.designTimeNamespaces) (Tag.normalizeThickness s
      { t with attributes := t.attributes.filterMap (d.kept? s) })).map Attribute.name
  rw [List.map_map, Tag.normalizeThickness, List.map_map] at hperm
  have hnames : (Attribute.name ∘ Attribute.grouped (.ofGroups s.attributeGroups) s
      (d.declaredQualifiers s.designTimeNamespaces)) ∘ Attribute.normalizeThickness s =
        Attribute.name := funext fun a => Attribute.name_normalizeThickness s a
  rw [hnames, hkept] at hperm
  exact hperm.subperm.trans (hsub.map _).subperm

theorem Tag.recast_withReadings (s : Settings) (t : Tag) : t.Recast (t.withReadings s) :=
  ⟨rfl, rfl, rfl, rfl, fun h => h.of_subperm rfl (by
    simp [Tag.withReadings, Attribute.withReading, Function.comp_def, List.Subperm.refl])⟩

theorem Tag.Legible.withReadings (h : t.Legible) (s : Settings) : (t.withReadings s).Legible :=
  (Tag.recast_withReadings s t).legible h

namespace Document.Tidies

theorem legible (h : d.Tidies s u) : u.Legible := by
  obtain ⟨t, ht, -, -, rfl⟩ := h
  exact (recast_tidy s d _).legible (ht.legible.withReadings s)

theorem mem_attributes (h : d.Tidies s u) {a : Attribute} (ha : a ∈ u.attributes) :
    ∃ t ∈ d.tags, ∃ b ∈ t.attributes, b.IsRead s ∧ ∃ b', d.kept? s b = some b' ∧
      ∃ group, a = { b'.normalizeThickness s with group } := by
  obtain ⟨t, -, hcan, ht, rfl⟩ := h
  obtain ⟨b, hb, b', hkept, group, rfl⟩ := mem_tidy ha
  obtain ⟨c, hc, rfl⟩ := List.mem_map.mp hb
  exact ⟨_, ht, _, hb, ⟨rfl, hcan c hc⟩, b', hkept, group, rfl⟩

theorem isRead (h : d.Tidies s u) (hplain : d.PlainDeclarations s) :
    ∀ a ∈ u.attributes, a.IsRead s := by
  intro a ha
  obtain ⟨t, ht, b, hb, hread, b', hkept, group, rfl⟩ := h.mem_attributes ha
  have := (hplain.isRead_kept? ht hb hread hkept).normalizeThickness
  exact ⟨this.extension, this.canRead⟩

variable {p : Printer}

/-- What is read of the tag once it is printed, wherever it stands. -/
theorem kept_place (h : d.Tidies s u) (hu : EscapesLineEnds p.unescaped) (hw : Printed p u w)
    (pos stop : Nat) (content : Option Span) :
    (w.place pos stop content).Unread ∧ w.name = u.name ∧
      List.Forall₂ Attribute.Kept u.attributes (w.place pos stop content).attributes := by
  obtain ⟨depth, isRoot, inline, ending, rfl⟩ := hw
  have hspelled : (fresh (p.unixContext depth isRoot inline) u ending).Spelled _ :=
    spelled_fresh rfl hu h.legible ending
  refine ⟨hspelled.unread.place pos stop content, name_fresh h.legible ending, ?_⟩
  rw [Tag.place, List.forall₂_map_right_iff]
  exact (kept_fresh rfl hu h.legible ending).imp fun a b hab => ⟨hab.name, hab.value, hab.extension⟩

theorem canRead (h : d.Tidies s u) (hplain : d.PlainDeclarations s)
    (hu : EscapesLineEnds p.unescaped) (hw : Printed p u w) (pos stop : Nat)
    (content : Option Span) : ∀ b ∈ (w.place pos stop content).attributes, s.CanRead b.value := by
  intro b hb
  obtain ⟨a, ha, hab⟩ := exists_of_forall₂ (h.kept_place hu hw pos stop content).2.2 b hb
  exact ((h.isRead hplain a ha).renewed hab).2

theorem renewed (h : d.Tidies s u) (hplain : d.PlainDeclarations s)
    (hu : EscapesLineEnds p.unescaped) (hw : Printed p u w) (pos stop : Nat)
    (content : Option Span) : List.Forall₂ Attribute.Renewed u.attributes
      ((w.place pos stop content).withReadings s).attributes := by
  rw [Tag.withReadings, List.forall₂_map_right_iff]
  have hkept := (h.kept_place hu hw pos stop content).2.2
  exact ((List.forall₂_and_left _ _).mpr ⟨h.isRead hplain, hkept⟩).imp
    fun a b hab => (hab.1.renewed hab.2).1

/-- Tidying the tag that is read changes nothing that is printed. -/
theorem again (h : d.Tidies s u) (hfollows : d.Follows s d') (hplain : d.PlainDeclarations s)
    (hread : ∀ t ∈ d.tags, ∀ a ∈ t.attributes, a.IsRead s) (hu : EscapesLineEnds p.unescaped)
    (hw : Printed p u w) (pos stop : Nat) (content : Option Span) :
    (d'.tidy s ((w.place pos stop content).withReadings s)).name = u.name ∧
      (d'.tidy s ((w.place pos stop content).withReadings s)).pinned = u.pinned ∧
      List.Forall₂ (fun a b => a.Renewed b ∧ b.group = a.group) u.attributes
        (d'.tidy s ((w.place pos stop content).withReadings s)).attributes := by
  have hrenewed := h.renewed hplain hu hw pos stop content
  obtain ⟨hunread, hname, -⟩ := h.kept_place hu hw pos stop content
  obtain ⟨t, ht, -, hmem, rfl⟩ := h
  exact ⟨hname, tidy_again hfollows hplain hread hmem (ht.legible.withReadings s).distinct
    (List.pairwise_map.mpr hunread.index) hrenewed⟩

end Document.Tidies

end Tidies

section Space

variable {s : Settings} {d : Document} {u w : Tag} {a a' : Attribute}

theorem normalize?_preserve (style : ThicknessStyle) :
    Thickness.normalize? style "preserve".toList = none := by
  cases style <;> decide

theorem normalizeThickness_preserve :
    (a.normalizeThickness s).value = "preserve".toList ↔ a.value = "preserve".toList := by
  unfold Attribute.normalizeThickness
  split_ifs
  · dsimp only
    cases hn : Thickness.normalize? s.thicknessStyle a.value with
    | none => rfl
    | some v =>
      refine ⟨fun hv => ?_, fun hv => ?_⟩
      · have := Thickness.normalize?_normal hn
        rw [show v = "preserve".toList from hv, normalize?_preserve] at this
        cases this
      · rw [hv, normalize?_preserve] at hn
        cases hn
  · rfl

theorem name_of_xmlSpace {n : QName} (h : n.Legible) (hn : n.written = "xml:space".toList) :
    n = ⟨some "xml".toList, "space".toList⟩ := by
  rw [← h.2, hn]
  decide

/-- White space is preserved by an attribute that is always kept. -/
theorem Document.PlainDeclarations.kept?_xmlSpace (hplain : d.PlainDeclarations s)
    (hname : a.name = ⟨some "xml".toList, "space".toList⟩) : d.kept? s a = some a := by
  rw [kept?]
  split_ifs
  · by_cases hd : d.declaredQualifiers s.designTimeNamespaces = []
    · rw [strip?, if_pos (by simpa using hd)]
    · have hdeclares (qualifiers : List Chars) : a.name.declares qualifiers = false := by
        rw [QName.declares, hname]
        rfl
      rw [strip?_eq_some_iff hd, thin?_eq_some_iff]
      refine ⟨⟨?_, hdeclares _, Attribute.dropIgnored?_other fun h => ?_⟩, hdeclares _⟩
      · exact hplain.not_isQualifiedBy a.name (by simp) (.inl (by rw [hname]))
      · rw [hname] at h
        exact absurd h.1 (by decide)
  · rfl

theorem preservesSpace_iff {as : List Attribute} : preservesSpace as = true ↔
    ∃ a ∈ as, a.name.written = "xml:space".toList ∧ a.value = "preserve".toList := by
  simp [preservesSpace]

theorem Document.Tidies.preserveSpace {p : Printer} (h : d.Tidies s u)
    (hplain : d.PlainDeclarations s) (hu : EscapesLineEnds p.unescaped) (hw : Printed p u w) :
    w.preserveSpace = u.preserveSpace := by
  obtain ⟨hunread, -, hkept⟩ := h.kept_place hu hw 0 0 none
  have hisRead := h.isRead hplain
  have hlegible := h.legible
  obtain ⟨t, ht, -, hmem, rfl⟩ := h
  have hspace : w.preserveSpace = preservesSpace (w.place 0 0 none).attributes :=
    hunread.preserveSpace
  have hplainValue : Extension.looksLike "preserve".toList = false := by decide
  change w.preserveSpace = t.preserveSpace
  rw [hspace, ht.preserveSpace, Bool.eq_iff_iff, preservesSpace_iff, preservesSpace_iff]
  constructor
  · rintro ⟨b, hb, hwritten, hvalue⟩
    obtain ⟨a, ha, hab⟩ := exists_of_forall₂ hkept b hb
    have hnone : a.extension = none := by
      cases he : a.extension with
      | none => rfl
      | some e =>
        have hr := (Settings.reading_eq_some ((hisRead a ha).extension ▸ he)).2
        have hl := Extension.looksLike_of_read (hab.extension e a.value he hr)
        rw [hvalue, hplainValue] at hl
        cases hl
    have hlegible := hlegible.attributes a ha
    rw [hab.name] at hwritten
    rw [hab.value hnone] at hvalue
    obtain ⟨c, hc, c', hc', group, rfl⟩ := mem_tidy ha
    have hname := name_of_xmlSpace hlegible hwritten
    change (c'.normalizeThickness s).name = _ at hname
    rw [Attribute.name_normalizeThickness, name_of_kept? hc'] at hname
    obtain rfl : c' = c := Option.some.inj (hc'.symm.trans (hplain.kept?_xmlSpace hname))
    obtain ⟨b, hb, rfl⟩ := List.mem_map.mp hc
    refine ⟨b, hb, ?_, (normalizeThickness_preserve (a := b.withReading s)).mp hvalue⟩
    rw [show b.name = _ from hname]
    decide
  · rintro ⟨a, ha, hwritten, hvalue⟩
    have hname := name_of_xmlSpace (ht.legible.attributes a ha) hwritten
    obtain ⟨group, hx⟩ := mem_tidy_of_kept? (t := t.withReadings s) (List.mem_map_of_mem ha)
      (hplain.kept?_xmlSpace (a := a.withReading s) hname)
    have hpreserve : ((a.withReading s).normalizeThickness s).value = "preserve".toList :=
      normalizeThickness_preserve.mpr hvalue
    obtain ⟨b, hb, hab⟩ := exists_of_forall₂ hkept.flip _ hx
    have hnone := (hisRead _ hx).extension
    rw [show Attribute.value _ = "preserve".toList from hpreserve,
      (Settings.reading_of_not_looksLike hplainValue).1] at hnone
    refine ⟨b, hb, ?_, (hab.value hnone).trans hpreserve⟩
    rw [hab.name, Attribute.name_normalizeThickness, ← hwritten]
    rfl

end Space

end XamlFormat
