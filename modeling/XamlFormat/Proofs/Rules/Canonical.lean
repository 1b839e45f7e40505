import XamlFormat.Proofs.Layout.Successor

/-! Documents without their layout. Where no text is kept and nothing is copied, the source of a
document has no part in what the settings make of it, except for the empty lines in it. -/
namespace XamlFormat

open Markup Cluster

section Definitions

def Attribute.canonical (a : Attribute) : Attribute := { a with offset := 0 }

/-- The tag without its place and its layout. -/
def Tag.canonical (t : Tag) : Tag :=
  { t with
    attributes := t.attributes.map Attribute.canonical
    selfClosing := false
    firstLine := 0
    span := ⟨0, 0⟩
    content := none }

def blankLine (spaced : Bool) : List Node := if spaced then [.text ['\n', '\n'] ⟨0, 0⟩] else []

mutual

def Node.canonical : Node → Node
  | .element t ns => .element t.canonical (canonicalList false ns)
  | .text value _ => .text value ⟨0, 0⟩
  | .raw kind content _ => .raw kind content ⟨0, 0⟩

/-- Nodes without their layout: of the texts between them only empty lines are left. `spaced` says
that there is one in front of them. -/
def canonicalList (spaced : Bool) : List Node → List Node
  | [] => []
  | .text value _ :: ns => canonicalList (2 ≤ value.count '\n') ns
  | n :: ns => blankLine spaced ++ n.canonical :: canonicalList false ns

end

def Document.canonical (d : Document) : Document := { d with nodes := canonicalList false d.nodes }

mutual

/-- Markup only: no text but blanks, no CDATA section, no marker, and no element that preserves its
space. -/
def Node.isStructural : Node → Bool
  | .element t ns => !t.preserveSpace && structuralList ns
  | .text value _ => value.all Text.isXmlBlank
  | .raw kind content span => kind != .cdata && (Node.raw kind content span).marker?.isNone

def structuralList : List Node → Bool
  | [] => true
  | n :: ns => n.isStructural && structuralList ns

end

end Definitions

section Equations

variable {n : Node} (spaced : Bool) (ns : List Node)

theorem Node.eq_text_or (n : Node) : (∃ value span, n = .text value span) ∨ n.isText = false := by
  cases n with
  | text value span => exact .inl ⟨value, span, rfl⟩
  | raw | element => exact .inr rfl

theorem canonicalList_text (value : Chars) (span : Span) :
    canonicalList spaced (.text value span :: ns) = canonicalList (2 ≤ value.count '\n') ns := rfl

theorem canonicalList_node (h : n.isText = false) :
    canonicalList spaced (n :: ns) = blankLine spaced ++ n.canonical :: canonicalList false ns := by
  cases n with
  | text => simp [Node.isText] at h
  | raw | element => rfl

theorem structuralList_iff {ns : List Node} :
    structuralList ns = true ↔ ∀ n ∈ ns, n.isStructural = true := by
  induction ns with
  | nil => simp [structuralList]
  | cons n ns ih => simp [structuralList, ih]

theorem isSignificant_of_isStructural (h : n.isStructural = true) : n.isSignificant = false := by
  cases n with
  | element => rfl
  | text => simpa [Node.isSignificant, Node.isStructural] using h
  | raw kind => cases kind <;> simp_all [Node.isSignificant, Node.isStructural]

theorem marker?_of_isStructural (h : n.isStructural = true) : n.marker? = none := by
  cases n with
  | element | text => rfl
  | raw => simpa [Node.isStructural] using (Bool.and_eq_true_iff.mp h).2

theorem isBlank_of_isStructural (h : n.isStructural = true) : n.isBlank = n.isText := by
  cases n with
  | element | raw => rfl
  | text => exact h

end Equations

section Tags

mutual

theorem Node.tags_canonical : ∀ n : Node, n.canonical.tags = n.tags.map Tag.canonical
  | .element t ns => congrArg (t.canonical :: ·) (tagsList_canonicalList false ns)
  | .text _ _ => rfl
  | .raw _ _ _ => rfl

theorem tagsList_canonicalList : ∀ (spaced : Bool) (ns : List Node),
    tagsList (canonicalList spaced ns) = (tagsList ns).map Tag.canonical
  | _, [] => rfl
  | spaced, n :: ns => by
    obtain ⟨value, span, rfl⟩ | ht := n.eq_text_or
    · exact tagsList_canonicalList _ ns
    · rw [canonicalList_node spaced ns ht, tagsList, List.map_append, ← n.tags_canonical,
        ← tagsList_canonicalList false ns]
      cases spaced <;> rfl

end

mutual

theorem Node.canonical_mapTags {f g : Tag → Tag} : ∀ n : Node,
    (∀ t ∈ n.tags, g t.canonical = (f t).canonical) →
    (n.mapTags f).canonical = n.canonical.mapTags g
  | .element t ns, h => by
    rw [Node.tags, List.forall_mem_cons] at h
    rw [Node.mapTags, Node.canonical, Node.canonical, Node.mapTags, h.1,
      canonicalList_mapTagsList false ns h.2]
  | .text _ _, _ => rfl
  | .raw _ _ _, _ => rfl

theorem canonicalList_mapTagsList {f g : Tag → Tag} : ∀ (spaced : Bool) (ns : List Node),
    (∀ t ∈ tagsList ns, g t.canonical = (f t).canonical) →
    canonicalList spaced (mapTagsList f ns) = mapTagsList g (canonicalList spaced ns)
  | _, [], _ => rfl
  | spaced, n :: ns, h => by
    rw [tagsList, List.forall_mem_append] at h
    obtain ⟨value, span, rfl⟩ | ht := n.eq_text_or
    · exact canonicalList_mapTagsList _ ns h.2
    · have hf : (n.mapTags f).isText = false := by
        cases n <;> simp_all [Node.mapTags, Node.isText]
      rw [mapTagsList, canonicalList_node spaced _ hf, canonicalList_node spaced ns ht,
        n.canonical_mapTags h.1, canonicalList_mapTagsList false ns h.2]
      cases spaced <;> rfl

end

end Tags

section Qualifiers

theorem Tag.preserved?_of_isStructural {t : Tag} {ns : List Node}
    (h : (Node.element t ns).isStructural = true) : t.preserved? = none := by
  have hpreserve : t.preserveSpace = false := by simpa using (Bool.and_eq_true_iff.mp h).1
  rw [Tag.preserved?, hpreserve]
  rfl

mutual

theorem Node.copiedQualifiers_of_isStructural : ∀ n : Node, n.isStructural = true →
    n.copiedQualifiers false = []
  | .element t ns, h => by
    rw [Node.copiedQualifiers, Tag.preserved?_of_isStructural h]
    exact copiedQualifiersList_of_structural ns (Bool.and_eq_true_iff.mp h).2
  | .text _ _, _ => rfl
  | .raw _ _ _, _ => rfl

theorem copiedQualifiersList_of_structural : ∀ ns : List Node, structuralList ns = true →
    copiedQualifiersList false false ns = []
  | [], _ => rfl
  | n :: ns, h => by
    obtain ⟨hn, hns⟩ := Bool.and_eq_true_iff.mp h
    rw [copiedQualifiersList, marker?_of_isStructural hn]
    exact List.append_eq_nil_iff.mpr
      ⟨n.copiedQualifiers_of_isStructural hn, copiedQualifiersList_of_structural ns hns⟩

end

mutual

theorem Node.isStructural_canonical : ∀ n : Node, n.isStructural = true →
    n.canonical.isStructural = true
  | .element t ns, h => by
    obtain ⟨ht, hns⟩ := Bool.and_eq_true_iff.mp h
    exact Bool.and_eq_true_iff.mpr ⟨ht, structuralList_canonicalList false ns hns⟩
  | .text _ _, h => h
  | .raw kind _ _, h => by cases kind <;> exact h

theorem structuralList_canonicalList : ∀ (spaced : Bool) (ns : List Node),
    structuralList ns = true → structuralList (canonicalList spaced ns) = true
  | _, [], _ => rfl
  | spaced, n :: ns, h => by
    obtain ⟨hn, hns⟩ := Bool.and_eq_true_iff.mp h
    obtain ⟨value, span, rfl⟩ | ht := n.eq_text_or
    · exact structuralList_canonicalList _ ns hns
    · have hrest := structuralList_canonicalList false ns hns
      have hhead := n.isStructural_canonical hn
      rw [canonicalList_node spaced ns ht]
      cases spaced <;> simp [blankLine, structuralList, hhead, hrest, Node.isStructural,
        Text.isXmlBlank]

end

theorem filterMap_canonical {f g : Attribute → Option Attribute}
    (hfg : ∀ a, g a.canonical = (f a).map Attribute.canonical) (as : List Attribute) :
    (as.map Attribute.canonical).filterMap g = (as.filterMap f).map Attribute.canonical := by
  rw [List.filterMap_map, List.map_filterMap]
  exact congrArg (List.filterMap · as) (funext hfg)

theorem Attribute.dropIgnored?_canonical (compatibility unused : List Chars) (a : Attribute) :
    a.canonical.dropIgnored? compatibility unused =
      (a.dropIgnored? compatibility unused).map Attribute.canonical := by
  have hname : a.canonical.name = a.name := rfl
  have hvalue : a.canonical.value = a.value := rfl
  simp only [Attribute.dropIgnored?, hname, hvalue]
  split_ifs <;> rfl

namespace Document

variable (d : Document)

theorem tags_canonical : d.canonical.tags = d.tags.map Tag.canonical :=
  tagsList_canonicalList false d.nodes

theorem declaredQualifiers_canonical (namespaces : List Chars) :
    d.canonical.declaredQualifiers namespaces = d.declaredQualifiers namespaces := by
  rw [declaredQualifiers, declaredQualifiers, tags_canonical, List.flatMap_map]
  refine congrArg List.eraseDups (List.flatMap_congr fun t _ => ?_)
  rw [Tag.canonical, List.filterMap_map]
  rfl

variable {d} (h : structuralList d.nodes = true)

include h

theorem copiedQualifiers_canonical : d.canonical.copiedQualifiers = d.copiedQualifiers :=
  (copiedQualifiersList_of_structural _ (structuralList_canonicalList false _ h)).trans
    (copiedQualifiersList_of_structural _ h).symm

theorem unusedQualifiers_canonical (design : List Chars) :
    d.canonical.unusedQualifiers design = d.unusedQualifiers design := by
  simp only [unusedQualifiers, copiedQualifiers_canonical h, tags_canonical, List.filterMap_map]
  rfl

theorem thin?_canonical (design : List Chars) (a : Attribute) :
    d.canonical.thin? design a.canonical = (d.thin? design a).map Attribute.canonical := by
  simp only [thin?, unusedQualifiers_canonical h, declaredQualifiers_canonical]
  have hname : a.canonical.name = a.name := rfl
  rw [hname]
  split_ifs
  · rfl
  · exact a.dropIgnored?_canonical _ _

theorem idleQualifiers_canonical (design : List Chars) :
    d.canonical.idleQualifiers design = d.idleQualifiers design := by
  have hqualifiers (t : Tag) : Tag.qualifiers { t.canonical with
      attributes := t.canonical.attributes.filterMap (d.canonical.thin? design) } =
        Tag.qualifiers { t with attributes := t.attributes.filterMap (d.thin? design) } := by
    have hattributes : t.canonical.attributes.filterMap (d.canonical.thin? design) =
        (t.attributes.filterMap (d.thin? design)).map Attribute.canonical :=
      filterMap_canonical (thin?_canonical h design) t.attributes
    rw [hattributes, Tag.qualifiers, Tag.qualifiers, List.map_map]
    rfl
  have hused : d.canonical.usedQualifiers design = d.usedQualifiers design := by
    simp only [usedQualifiers, copiedQualifiers_canonical h, tags_canonical, List.flatMap_map,
      hqualifiers]
  rw [idleQualifiers, idleQualifiers, hused, declaredQualifiers_canonical]

theorem kept?_canonical (s : Settings) (a : Attribute) :
    d.canonical.kept? s a.canonical = (d.kept? s a).map Attribute.canonical := by
  simp only [kept?, strip?, declaredQualifiers_canonical, idleQualifiers_canonical h,
    thin?_canonical h]
  split_ifs
  · rfl
  · rw [Option.filter_map]
    rfl
  · rfl

end Document

end Qualifiers

section Attributes

/-- Sorting looks at nothing that a map takes away. -/
theorem takeNamed_canonical (names : List Chars) (as : List Attribute) :
    takeNamed names (as.map Attribute.canonical) =
      ((takeNamed names as).1.map Attribute.canonical,
        (takeNamed names as).2.map Attribute.canonical) := by
  induction names generalizing as with
  | nil => rfl
  | cons name names ih =>
    rw [takeNamed, takeNamed, List.find?_map, List.eraseP_map]
    have hname : ((fun a : Attribute => a.name.written == name) ∘ Attribute.canonical) =
        fun a => a.name.written == name := rfl
    rw [hname]
    cases as.find? fun a => a.name.written == name with
    | none => exact ih as
    | some a =>
      rw [ih]
      rfl

variable (s : Settings) (t : Tag)

theorem Tag.orderAttributes_canonical (rules : OrderingRules) (design : List Chars) :
    t.canonical.orderAttributes rules s design = (t.orderAttributes rules s design).canonical := by
  let place (r : Ranked) : Ranked := { r with item := r.item.canonical }
  have hranked : t.canonical.attributes.map (Attribute.ranked rules s design) =
      (t.attributes.map (Attribute.ranked rules s design)).map place := by
    simp only [Tag.canonical, List.map_map]
    rfl
  have hsorted : (if s.enableAttributeReordering then
        stableSort (Ranked.precedes s.orderAttributesByName)
          ((t.attributes.map (Attribute.ranked rules s design)).map place)
      else (t.attributes.map (Attribute.ranked rules s design)).map place) =
      (if s.enableAttributeReordering then
        stableSort (Ranked.precedes s.orderAttributesByName)
          (t.attributes.map (Attribute.ranked rules s design))
      else t.attributes.map (Attribute.ranked rules s design)).map place := by
    split_ifs
    · exact stableSort_map _ _ (fun _ _ => rfl) _
    · rfl
  have hitems (rs : List Ranked) : (rs.map place).map Ranked.item =
      (rs.map Ranked.item).map Attribute.canonical := by
    rw [List.map_map, List.map_map]
    rfl
  simp only [Tag.orderAttributes, hranked, hsorted, hitems, takeNamed_canonical]
  simp only [Tag.canonical, List.map_append, List.length_map]

theorem Tag.normalizeThickness_canonical :
    t.canonical.normalizeThickness s = (t.normalizeThickness s).canonical := by
  have hattribute (a : Attribute) :
      a.canonical.normalizeThickness s = (a.normalizeThickness s).canonical := by
    unfold Attribute.normalizeThickness
    rw [apply_ite Attribute.canonical]
    rfl
  simp only [Tag.normalizeThickness, Tag.canonical, List.map_map, Function.comp_def, hattribute]

theorem Tag.withReadings_canonical : t.canonical.withReadings s = (t.withReadings s).canonical := by
  simp only [Tag.withReadings, Tag.canonical, List.map_map]
  rfl

theorem Document.tidy_canonical {d : Document} (h : structuralList d.nodes = true) :
    d.canonical.tidy s t.canonical = (d.tidy s t).canonical := by
  have hkept : ({ t.canonical with
      attributes := t.canonical.attributes.filterMap (d.canonical.kept? s) } : Tag) =
        Tag.canonical { t with attributes := t.attributes.filterMap (d.kept? s) } := by
    simp only [Tag.canonical, filterMap_canonical (kept?_canonical h s)]
  rw [tidy, tidy, hkept, Tag.normalizeThickness_canonical, Tag.orderAttributes_canonical,
    declaredQualifiers_canonical]

end Attributes

section Clusters

def canonicalLead (spaced : Bool) : List Node → List Node
  | [] => blankLine spaced
  | .text value _ :: ns => canonicalLead (2 ≤ value.count '\n') ns
  | n :: ns => blankLine spaced ++ n.canonical :: canonicalLead false ns

def Cluster.canonical (c : Cluster) : Cluster :=
  ⟨canonicalLead false c.leading, c.tag.canonical, canonicalList false c.children⟩

theorem bare_blankLine (spaced : Bool) : Bare (blankLine spaced) := by
  cases spaced <;> simp [blankLine, Bare, Node.tag?]

theorem Bare.append {ns ms : List Node} (h : Bare ns) (h' : Bare ms) : Bare (ns ++ ms) :=
  List.forall_mem_append.mpr ⟨h, h'⟩

theorem Bare.cons {n : Node} {ns : List Node} (h : n.tag? = none) (h' : Bare ns) :
    Bare (n :: ns) :=
  List.forall_mem_cons.mpr ⟨h, h'⟩

theorem Bare.canonicalLead {ns : List Node} (h : Bare ns) (spaced : Bool) :
    Bare (canonicalLead spaced ns) := by
  induction ns generalizing spaced with
  | nil => exact bare_blankLine spaced
  | cons n ns ih =>
    obtain ⟨hn, hns⟩ := List.forall_mem_cons.mp h
    cases n with
    | element => simp [Node.tag?] at hn
    | text => exact ih hns _
    | raw => exact (bare_blankLine spaced).append (.cons rfl (ih hns _))

theorem Bare.canonicalList {ns : List Node} (h : Bare ns) (spaced : Bool) :
    Bare (canonicalList spaced ns) := by
  induction ns generalizing spaced with
  | nil => simp [Bare, XamlFormat.canonicalList]
  | cons n ns ih =>
    obtain ⟨hn, hns⟩ := List.forall_mem_cons.mp h
    cases n with
    | element => simp [Node.tag?] at hn
    | text => exact ih hns _
    | raw => exact (bare_blankLine spaced).append (.cons rfl (ih hns _))

theorem canonicalList_append_element {l : List Node} (hl : Bare l) (spaced : Bool) (t : Tag)
    (ms ns : List Node) :
    canonicalList spaced (l ++ .element t ms :: ns) = canonicalLead spaced l ++
      .element t.canonical (canonicalList false ms) :: canonicalList false ns := by
  induction l generalizing spaced with
  | nil => rfl
  | cons n l ih =>
    obtain ⟨hn, hrest⟩ := List.forall_mem_cons.mp hl
    cases n with
    | element => simp [Node.tag?] at hn
    | text => exact ih hrest _
    | raw kind content span =>
      rw [List.cons_append, canonicalList_node _ _ rfl, ih hrest, canonicalLead, List.append_assoc]
      · rfl
      · simp

/-- Every cluster starts behind an element, so it has its own empty lines. -/
theorem canonicalList_join {cs : List Cluster} (hcs : Tidy cs) (tail : List Node) :
    canonicalList false (join cs tail) =
      join (cs.map Cluster.canonical) (canonicalList false tail) := by
  induction cs with
  | nil => rfl
  | cons c cs ih =>
    obtain ⟨hc, hcs⟩ := List.forall_mem_cons.mp hcs
    have hjoin (c : Cluster) (cs : List Cluster) (tail : List Node) : join (c :: cs) tail =
        c.leading ++ .element c.tag c.children :: join cs tail := by
      simp [join, nodes]
    rw [hjoin, canonicalList_append_element hc, ih hcs, List.map_cons, hjoin]
    rfl

theorem Cluster.Tidy.canonical {cs : List Cluster} (h : Tidy cs) :
    Tidy (cs.map Cluster.canonical) :=
  List.forall_mem_map.mpr fun c hc => (h c hc).canonicalLead false

theorem split_canonicalList (ns : List Node) :
    split (canonicalList false ns) =
      ((split ns).1.map Cluster.canonical, canonicalList false (split ns).2) := by
  obtain ⟨hcs, ht⟩ := tidy_split ns
  conv_lhs => rw [← join_split ns, canonicalList_join hcs]
  exact split_join hcs.canonical (ht.canonicalList false)

theorem childTags_canonicalList (ns : List Node) :
    childTags (canonicalList false ns) = (childTags ns).map Tag.canonical := by
  rw [childTags_split, split_canonicalList, childTags_split, List.map_map, List.map_map]
  rfl

theorem filter_canonical {p : Cluster → Bool} (hp : ∀ c, p c.canonical = p c)
    (cs : List Cluster) :
    (cs.map Cluster.canonical).filter p = (cs.filter p).map Cluster.canonical := by
  rw [List.filter_map]
  exact congrArg (fun q => (cs.filter q).map Cluster.canonical) (funext hp)

theorem sortPicked_canonicalList {pick : Tag → Bool} {le : Tag → Tag → Bool}
    (hpick : ∀ t : Tag, pick t.canonical = pick t)
    (hle : ∀ t u : Tag, le t.canonical u.canonical = le t u) (ns : List Node) :
    sortPicked pick le (canonicalList false ns) = canonicalList false (sortPicked pick le ns) := by
  have hp (c : Cluster) : pick c.canonical.tag = pick c.tag := hpick c.tag
  have htidy := (tidy_split ns).1.perm (refill_perm (p := fun c => pick c.tag)
    (stableSort_perm (fun a b => le a.tag b.tag) ((split ns).1.filter fun c => pick c.tag)))
  have hsort := stableSort_map (f := Cluster.canonical) (fun a b => le a.tag b.tag)
    (fun a b => le a.tag b.tag) (fun a b => hle a.tag b.tag)
  rw [sortPicked, split_canonicalList, filter_canonical hp, hsort, refill_map hp, sortPicked,
    canonicalList_join htidy]

theorem moveStateGroups_canonicalList (place : StateGroupPlace) (ns : List Node) :
    moveStateGroups place (canonicalList false ns) =
      canonicalList false (moveStateGroups place ns) := by
  have hcs := (tidy_split ns).1
  have hfilter {p : Cluster → Bool} : Tidy ((split ns).1.filter p) :=
    fun c hc => hcs c (List.mem_of_mem_filter hc)
  have hgroups := filter_canonical (p := fun c => c.tag.name.base == stateGroupsName)
    (fun _ => rfl) (split ns).1
  have hothers := filter_canonical (p := fun c => !(c.tag.name.base == stateGroupsName))
    (fun _ => rfl) (split ns).1
  cases place with
  | keep => rfl
  | first =>
    simp only [moveStateGroups, split_canonicalList, hgroups, hothers, ← List.map_append]
    exact (canonicalList_join (List.forall_mem_append.mpr ⟨hfilter, hfilter⟩) _).symm
  | last =>
    simp only [moveStateGroups, split_canonicalList, hgroups, hothers, ← List.map_append]
    exact (canonicalList_join (List.forall_mem_append.mpr ⟨hfilter, hfilter⟩) _).symm

end Clusters

section Arrange

variable (s : Settings)

theorem Tag.value?_canonical (t : Tag) (name : Chars) :
    t.canonical.value? name = t.value? name := by
  simp only [Tag.value?, Tag.attribute?, Tag.canonical, List.find?_map, Option.map_map]
  rfl

theorem positionOf_canonical (container : String) (read : Chars → Option Int) (t : Tag)
    (name : Chars) :
    positionOf container read t.canonical name = positionOf container read t name := by
  rw [positionOf, positionOf, t.value?_canonical]

theorem setterKey_canonical (order : SetterOrder) (t : Tag) :
    setterKey order t.canonical = setterKey order t := by
  simp only [setterKey, t.value?_canonical]

theorem positionKey_canonical {name : QName} {key : Tag → Except Fault (List Int)}
    (h : positionKey? s name = some key) (t : Tag) : key t.canonical = key t := by
  have hgrid : gridKey t.canonical = gridKey t :=
    congrArg gridKeys.mapM (funext (positionOf_canonical _ _ t))
  have hcanvas : canvasKey t.canonical = canvasKey t :=
    congrArg canvasKeys.mapM (funext (positionOf_canonical _ _ t))
  unfold positionKey? at h
  split_ifs at h
  · cases h
    exact hgrid
  · cases h
    exact hcanvas

theorem sortPositioned_canonicalList (name : QName) (ns : List Node) :
    sortPositioned s name (canonicalList false ns) =
      canonicalList false (sortPositioned s name ns) := by
  unfold sortPositioned
  split
  · rfl
  · rename_i key hkey
    have hk := positionKey_canonical s hkey
    have hle (t u : Tag) : byKey (keyOf key) t.canonical u.canonical = byKey (keyOf key) t u := by
      simp only [byKey, keyOf, hk]
    have hall : ((childTags (canonicalList false ns)).all fun t =>
        !isPositioned t || (key t).isOk) =
          (childTags ns).all fun t => !isPositioned t || (key t).isOk := by
      rw [childTags_canonicalList, List.all_map]
      exact congrArg (childTags ns).all (funext fun t => by rw [Function.comp_apply, hk]; rfl)
    rw [hall]
    split_ifs
    · exact sortPicked_canonicalList (fun _ => rfl) hle ns
    · rfl

theorem sortSetters_canonicalList (order : SetterOrder) (ns : List Node) :
    sortSetters order (canonicalList false ns) = canonicalList false (sortSetters order ns) := by
  have hle (t u : Tag) :
      byKey (setterKey order) t.canonical u.canonical = byKey (setterKey order) t u := by
    simp only [byKey, setterKey_canonical]
  rw [sortSetters_eq, sortSetters_eq]
  split_ifs
  · rfl
  · exact sortPicked_canonicalList (fun _ => rfl) hle ns

theorem mayReorder_of_structural {t : Tag} {ns : List Node} (ht : t.preserveSpace = false)
    (h : structuralList ns = true) : mayReorder t ns = true := by
  rw [structuralList_iff] at h
  have hsignificant : ns.any Node.isSignificant = false :=
    List.any_eq_false.mpr fun n hn => by simp [isSignificant_of_isStructural (h n hn)]
  have hmarker : hasMarker ns = false :=
    List.any_eq_false.mpr fun n hn => by simp [marker?_of_isStructural (h n hn)]
  rw [mayReorder, ht, hsignificant, hmarker]
  rfl

theorem arrange_canonicalList {t : Tag} {ns : List Node} (ht : t.preserveSpace = false)
    (h : structuralList ns = true) :
    arrange s t.canonical (canonicalList false ns) = canonicalList false (arrange s t ns) := by
  have hcanonical := structuralList_canonicalList false ns h
  rw [arrange_eq (mayReorder_of_structural (t := t.canonical) ht hcanonical),
    arrange_eq (mayReorder_of_structural ht h), moveStateGroups_canonicalList]
  exact (congrArg _ (sortPositioned_canonicalList s t.name _)).trans
    (sortSetters_canonicalList _ _)

theorem structuralList_arrange {t : Tag} {ns : List Node} (h : structuralList ns = true) :
    structuralList (arrange s t ns) = true := by
  rw [structuralList_iff] at h ⊢
  exact fun n hn => h n ((rearranged_arrange s t ns).perm.subset hn)

mutual

theorem Node.isStructural_mapTags {f : Tag → Tag}
    (hf : ∀ t, (f t).preserveSpace = t.preserveSpace) :
    ∀ n : Node, n.isStructural = true → (n.mapTags f).isStructural = true
  | .element t ns, h => by
    obtain ⟨ht, hns⟩ := Bool.and_eq_true_iff.mp h
    exact Bool.and_eq_true_iff.mpr ⟨by rwa [hf], structuralList_mapTagsList hf ns hns⟩
  | .text _ _, h => h
  | .raw _ _ _, h => h

theorem structuralList_mapTagsList {f : Tag → Tag}
    (hf : ∀ t, (f t).preserveSpace = t.preserveSpace) :
    ∀ ns : List Node, structuralList ns = true → structuralList (mapTagsList f ns) = true
  | [], _ => rfl
  | n :: ns, h => by
    obtain ⟨hn, hns⟩ := Bool.and_eq_true_iff.mp h
    exact Bool.and_eq_true_iff.mpr
      ⟨n.isStructural_mapTags hf hn, structuralList_mapTagsList hf ns hns⟩

end

mutual

theorem Node.isStructural_arrangeAll : ∀ n : Node, n.isStructural = true →
    (n.arrangeAll s).isStructural = true
  | .element t ns, h => by
    obtain ⟨ht, hns⟩ := Bool.and_eq_true_iff.mp h
    exact Bool.and_eq_true_iff.mpr
      ⟨ht, structuralList_arrange s (structuralList_arrangeAllList ns hns)⟩
  | .text _ _, h => h
  | .raw _ _ _, h => h

theorem structuralList_arrangeAllList : ∀ ns : List Node, structuralList ns = true →
    structuralList (arrangeAllList s ns) = true
  | [], _ => rfl
  | n :: ns, h => by
    obtain ⟨hn, hns⟩ := Bool.and_eq_true_iff.mp h
    exact Bool.and_eq_true_iff.mpr
      ⟨n.isStructural_arrangeAll hn, structuralList_arrangeAllList ns hns⟩

end

mutual

theorem Node.arrangeAll_canonical : ∀ n : Node, n.isStructural = true →
    n.canonical.arrangeAll s = (n.arrangeAll s).canonical
  | .element t ns, h => by
    obtain ⟨ht, hns⟩ := Bool.and_eq_true_iff.mp h
    rw [Node.canonical, Node.arrangeAll, arrangeAllList_canonicalList false ns hns,
      arrange_canonicalList s (by simpa using ht) (structuralList_arrangeAllList s ns hns)]
    rfl
  | .text _ _, _ => rfl
  | .raw _ _ _, _ => rfl

theorem arrangeAllList_canonicalList : ∀ (spaced : Bool) (ns : List Node),
    structuralList ns = true →
    arrangeAllList s (canonicalList spaced ns) = canonicalList spaced (arrangeAllList s ns)
  | _, [], _ => rfl
  | spaced, n :: ns, h => by
    obtain ⟨hn, hns⟩ := Bool.and_eq_true_iff.mp h
    obtain ⟨value, span, rfl⟩ | ht := n.eq_text_or
    · exact arrangeAllList_canonicalList _ ns hns
    · have hf : (n.arrangeAll s).isText = false := by
        cases n <;> simp_all [Node.arrangeAll, Node.isText]
      rw [arrangeAllList, canonicalList_node spaced _ hf, canonicalList_node spaced ns ht,
        ← n.arrangeAll_canonical hn, ← arrangeAllList_canonicalList false ns hns]
      cases spaced <;> rfl

end

namespace Document

variable {d : Document}

theorem structuralList_tidyAttributes (h : structuralList d.nodes = true) :
    structuralList (d.tidyAttributes s).nodes = true := by
  rw [tidyAttributes_eq_mapTags]
  exact structuralList_mapTagsList (fun t => (recast_tidy s d t).preserveSpace) d.nodes h

/-- The rules take nothing from the layout but its empty lines. -/
theorem applyRules_canonical (h : structuralList d.nodes = true) :
    d.canonical.applyRules s = (d.applyRules s).canonical := by
  have htidied := structuralList_tidyAttributes s h
  have htidy : d.canonical.tidyAttributes s = (d.tidyAttributes s).canonical := by
    rw [tidyAttributes_eq_mapTags, tidyAttributes_eq_mapTags, canonical, canonical, mapTags,
      mapTags, canonicalList_mapTagsList false d.nodes fun t _ => tidy_canonical s t h]
    rfl
  rw [applyRules, htidy, arrange, canonical, arrangeAllList_canonicalList s false _ htidied]
  rfl

theorem structuralList_applyRules (h : structuralList d.nodes = true) :
    structuralList (d.applyRules s).nodes = true :=
  structuralList_arrangeAllList s _ (structuralList_tidyAttributes s h)

end Document

end Arrange

end XamlFormat
