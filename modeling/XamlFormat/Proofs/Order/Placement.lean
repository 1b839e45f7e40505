import XamlFormat.Proofs.Order.Attributes

/-! The order of attributes as a contract that one tag meets. Whatever meets it is what ordering
gives: an ordered tag that is read again is in order, and tags with the same attributes come out alike
where no attribute is placed by its position. -/
namespace XamlFormat

section Contract

variable (groups : List Chars) (s : Settings) (design : List Chars)

/-- Where a list has the names in front and none behind, leaving them out leaves what is behind. -/
theorem filter_unnamed {l : List Attribute} {names : List Chars} {n : Nat}
    (htake : ∀ name ∈ (l.map fun a => a.name.written).take n, name ∈ names)
    (hdrop : ∀ name ∈ (l.map fun a => a.name.written).drop n, name ∉ names) :
    (l.filter fun a => !names.contains a.name.written) = l.drop n := by
  rw [← List.map_take, List.forall_mem_map] at htake
  rw [← List.map_drop, List.forall_mem_map] at hdrop
  conv_lhs => rw [← List.take_append_drop n l]
  rw [List.filter_append, List.filter_eq_nil_iff.mpr (by simpa using htake), List.nil_append,
    List.filter_eq_self.mpr (by simpa using hdrop)]

namespace Tag

def others (t : Tag) : List Attribute :=
  (t.attributes.map (Attribute.grouped (.ofGroups groups) s design)).filter
    fun a => !s.firstLineAttributes.contains a.name.written

structure Ordered (t u : Tag) : Prop where
  /-- Only attributes change, and of those only groups and places. -/
  frame : u = { t with attributes := u.attributes, pinned := u.pinned }
  perm : u.attributes.Perm (t.attributes.map (Attribute.grouped (.ofGroups groups) s design))
  pinned_le : u.pinned ≤ u.attributes.length
  /-- In front are the attributes of the first line, as their names are mentioned first. -/
  front : ((u.attributes.take u.pinned).map fun a => a.name.written) =
    s.firstLineAttributes.eraseDups.filter
      fun name => name ∈ t.attributes.map fun a => a.name.written
  /-- The others follow in the order of their keys. -/
  sorted : s.enableAttributeReordering = true →
    StableOrder (Attribute.comesFirst (.ofGroups groups) s design) (t.others groups s design)
      (u.attributes.drop u.pinned)
  /-- Without an order they follow as they stood. -/
  kept : s.enableAttributeReordering = false → u.attributes.drop u.pinned = t.others groups s design

variable {groups s design}

theorem ordered_orderAttributes {t : Tag} (hd : DistinctNames t.attributes) :
    Ordered groups s design t (t.orderAttributes (.ofGroups groups) s design) := by
  rw [orderAttributes_eq_place]
  have hplace := placeAttributes_perm groups s design
    (t.attributes.map (Attribute.grouped (.ofGroups groups) s design))
  have hdistinct := (hd.grouped (.ofGroups groups) s design).perm hplace.symm
  have hperm := takeNamed_perm s.firstLineAttributes (placeAttributes groups s design
    (t.attributes.map (Attribute.grouped (.ofGroups groups) s design)))
  have hnames := takeNamed_fst_names s.firstLineAttributes hdistinct
  have hrest := takeNamed_snd s.firstLineAttributes hdistinct
  generalize takeNamed s.firstLineAttributes (placeAttributes groups s design
    (t.attributes.map (Attribute.grouped (.ofGroups groups) s design))) = split
      at hperm hnames hrest ⊢
  have hothers : split.2 = placeAttributes groups s design (t.others groups s design) := by
    rw [hrest, filter_placeAttributes, others]
  have hfront : split.1.map (fun a => a.name.written) = s.firstLineAttributes.eraseDups.filter
      fun name => name ∈ t.attributes.map fun a => a.name.written := by
    rw [hnames]
    refine List.filter_congr fun name _ => decide_eq_decide.mpr ?_
    rw [(hplace.map _).mem_iff, List.map_map]
    rfl
  refine ⟨rfl, hperm.trans hplace, by simp, by simpa using hfront, fun he => ?_, fun he => ?_⟩
  · simp only [List.drop_left, hothers, placeAttributes, he, if_true]
    exact stableOrder_stableSort (Attribute.isPreference_comesFirst _ s design) _
  · simp [hothers, placeAttributes, he]

/-- The contract leaves no choice. -/
theorem Ordered.unique {t u u' : Tag} (hd : DistinctNames t.attributes)
    (h : Ordered groups s design t u) (h' : Ordered groups s design t u') : u = u' := by
  have hfront : u.attributes.take u.pinned = u'.attributes.take u'.pinned :=
    (hd.grouped (.ofGroups groups) s design).eq_of_names
      (List.Subset.trans (List.take_subset _ _) h.perm.subset)
      (List.Subset.trans (List.take_subset _ _) h'.perm.subset)
      (h.front.trans h'.front.symm)
  have hpinned : u.pinned = u'.pinned := by
    have := congrArg List.length hfront
    simpa [h.pinned_le, h'.pinned_le] using this
  have hrest : u.attributes.drop u.pinned = u'.attributes.drop u'.pinned := by
    cases he : s.enableAttributeReordering with
    | false => rw [h.kept he, h'.kept he]
    | true =>
      exact (h.sorted he).unique (fun a _ => by simp [Attribute.comesFirst]) (h'.sorted he)
  have hattributes : u.attributes = u'.attributes := by
    rw [← List.take_append_drop u.pinned u.attributes, hfront, hrest, List.take_append_drop]
  rw [h.frame, h'.frame, hattributes, hpinned]

/-- The attributes of the first line come first as they are mentioned, all others by group, pattern,
name and position, or as they stood. -/
theorem orderAttributes_eq_iff {t u : Tag} (hd : DistinctNames t.attributes) :
    t.orderAttributes (.ofGroups groups) s design = u ↔ Ordered groups s design t u := by
  constructor
  · rintro rfl
    exact ordered_orderAttributes hd
  · exact (ordered_orderAttributes hd).unique hd

def namesSample (names : List String) : Tag where
  name := .ofChars "A".toList
  attributes := names.mapIdx fun i name => ⟨.ofChars name.toList, "1".toList, i, 0, 0, none⟩
  selfClosing := true
  preserveSpace := false
  firstLine := 0
  span := ⟨0, 0⟩

def groupsSample : List Chars := ["x:Name, Name", "Width,,Height", "S*, *s"].map String.toList

/-- Settings that mention one name of the first line twice, and one that no attribute has. -/
def firstLineSample : Settings :=
  { Settings.standard with
    ignoreDesignTimeQualifier := true
    firstLineAttributes := ["Zeta", "None", "Zeta", "Tag"].map String.toList }

/-- Two attributes move to the first line, one is grouped without its qualifier, two are ordered by
their names, and one that no pattern fits comes last. -/
theorem orderAttributes_eq_iff_sample :
    let t := namesSample ["Tag", "d:Height", "Style", "Other", "Width", "Zeta", "Source", "x:Name"]
    let u := t.orderAttributes (.ofGroups groupsSample) firstLineSample ["d".toList]
    DistinctNames t.attributes ∧ Ordered groupsSample firstLineSample ["d".toList] t u ∧
      u.pinned = 2 ∧ (u.attributes.map fun a => (String.ofList a.name.written, a.group)) =
        [("Zeta", 3), ("Tag", 3), ("x:Name", 0), ("Width", 1), ("d:Height", 1), ("Source", 2),
          ("Style", 2), ("Other", 3)] :=
  ⟨by decide +kernel, (orderAttributes_eq_iff (by decide +kernel)).mp rfl, by decide +kernel,
    by decide +kernel⟩

section Again

variable {design' : List Chars} {t u v : Tag} (h : Ordered groups s design t u)
include h

theorem Ordered.grouped_eq : ∀ a ∈ u.attributes, a.grouped (.ofGroups groups) s design = a := by
  intro a ha
  obtain ⟨b, -, rfl⟩ := List.mem_map.mp (h.perm.subset ha)
  rfl

theorem Ordered.mem_names (name : Chars) : name ∈ t.attributes.map (fun a => a.name.written) ↔
    name ∈ u.attributes.map fun a => a.name.written := by
  rw [(h.perm.map _).mem_iff, List.map_map]
  rfl

theorem Ordered.take_named : ∀ name ∈ (u.attributes.map fun a => a.name.written).take u.pinned,
    name ∈ s.firstLineAttributes := by
  intro name hname
  rw [← List.map_take, h.front, List.mem_filter, List.mem_eraseDups] at hname
  exact hname.1

theorem Ordered.drop_unnamed : ∀ name ∈ (u.attributes.map fun a => a.name.written).drop u.pinned,
    name ∉ s.firstLineAttributes := by
  have hperm : (u.attributes.drop u.pinned).Perm (t.others groups s design) := by
    cases he : s.enableAttributeReordering with
    | false => rw [h.kept he]
    | true => exact (h.sorted he).perm
  intro name hname
  rw [← List.map_drop] at hname
  obtain ⟨a, ha, rfl⟩ := List.mem_map.mp hname
  simpa using (List.mem_filter.mp (hperm.subset ha)).2

/-- A tag whose attributes are named like those of an ordered one stays in that order. -/
theorem Ordered.again (hv : v.attributes.Pairwise fun a b => a.index < b.index)
    (hnames : List.Forall₂ (fun a b => b.name.written = a.name.written ∧
      b.matchingName s design' = a.matchingName s design) u.attributes v.attributes) :
    Ordered groups s design' v { v with
      attributes := v.attributes.map (Attribute.grouped (.ofGroups groups) s design')
      pinned := u.pinned } := by
  let w := v.attributes.map (Attribute.grouped (.ofGroups groups) s design')
  have hw : (w.map fun a => a.name.written) = u.attributes.map fun a => a.name.written := by
    rw [List.map_map]
    exact map_of_forall₂ (fun a b hab => hab.1) hnames
  have hothers : v.others groups s design' = w.drop u.pinned :=
    filter_unnamed (hw ▸ h.take_named) (hw ▸ h.drop_unnamed)
  have hstanding : List.Forall₂ (fun a c => c.standing (.ofGroups groups) s design' =
      a.standing (.ofGroups groups) s design) u.attributes w := by
    refine List.forall₂_map_right_iff.mpr (hnames.imp fun a b hab => ?_)
    rw [Attribute.standing, Attribute.standing, ← hab.2]
    rfl
  have hindex : w.Pairwise fun a b => a.index < b.index := List.pairwise_map.mpr hv
  refine ⟨rfl, .refl _, ?_, ?_, fun he => ?_, fun _ => hothers.symm⟩
  · simpa [hnames.length_eq] using h.pinned_le
  · have hv : (v.attributes.map fun a => a.name.written) =
        u.attributes.map fun a => a.name.written :=
      map_of_forall₂ (fun a b hab => hab.1) hnames
    rw [List.map_take, hw, ← List.map_take, h.front, hv]
    simp only [h.mem_names]
  · rw [hothers]
    refine ⟨.refl _, ?_, fun _ _ => rfl⟩
    refine pairwise_of_forall₂ (fun a b a' b' ha hb hab hlt => ?_)
      (List.forall₂_drop u.pinned hstanding) (h.sorted he).sorted hindex.drop
    rw [Attribute.comesFirst_iff] at hab ⊢
    rw [ha, hb]
    exact hab.imp_right fun hab => ⟨hab.1, hlt.le⟩

end Again

/-- Ordering again what was ordered, read with new positions and told by the same names, gives the
same order and the same groups. -/
theorem orderAttributes_again {design' : List Chars} {t u : Tag} (hd : DistinctNames t.attributes)
    (hu : u.attributes.Pairwise fun a b => a.index < b.index)
    (hm : ∀ a ∈ (t.orderAttributes (.ofGroups groups) s design).attributes,
      a.matchingName s design' = a.matchingName s design)
    {T : Attribute → Attribute → Prop} (hT : ∀ a b, T a b → b.name = a.name)
    (h : List.Forall₂ T (t.orderAttributes (.ofGroups groups) s design).attributes u.attributes) :
    (u.orderAttributes (.ofGroups groups) s design').pinned =
        (t.orderAttributes (.ofGroups groups) s design).pinned ∧
      List.Forall₂ (fun a c => ∃ b, T a b ∧ c = { b with group := a.group })
        (t.orderAttributes (.ofGroups groups) s design).attributes
        (u.orderAttributes (.ofGroups groups) s design').attributes := by
  have ht : Ordered groups s design t _ := ordered_orderAttributes hd
  have hnames : List.Forall₂ (fun a b => T a b ∧ b.matchingName s design' = a.matchingName s design)
      (t.orderAttributes (.ofGroups groups) s design).attributes u.attributes := by
    refine ((List.forall₂_and_left _ _).mpr ⟨hm, h⟩).imp fun a b ⟨hname, hab⟩ => ⟨hab, ?_⟩
    rw [← hname, Attribute.matchingName, hT a b hab]
    rfl
  have hdu : DistinctNames u.attributes := by
    rw [DistinctNames, map_of_forall₂ (fun a b hab => congrArg QName.written (hT a b hab)) h]
    exact (hd.grouped _ s design).perm ht.perm.symm
  rw [(ordered_orderAttributes hdu).unique hdu (ht.again hu
    (hnames.imp fun a b hab => ⟨congrArg QName.written (hT a b hab.1), hab.2⟩))]
  refine ⟨rfl, List.forall₂_map_right_iff.mpr ?_⟩
  refine ((List.forall₂_and_left _ _).mpr ⟨ht.grouped_eq, hnames⟩).imp ?_
  rintro a b ⟨hgroup, hab, hname⟩
  refine ⟨b, hab, ?_⟩
  rw [← congrArg Attribute.group hgroup, Attribute.grouped, hname]
  rfl

/-- The tag as it is read again, with its attributes at new positions. -/
def renumbered (t : Tag) : Tag :=
  { t with attributes := t.attributes.mapIdx fun i a => { a with index := i } }

theorem forall₂_renumbered (t : Tag) :
    List.Forall₂ (fun a b => ∃ i, b = { a with index := i }) t.attributes t.renumbered.attributes :=
  List.forall₂_iff_get.mpr ⟨by simp [renumbered], fun i _ _ => ⟨i, by simp [renumbered]⟩⟩

theorem pairwise_renumbered (t : Tag) :
    t.renumbered.attributes.Pairwise fun a b => a.index < b.index :=
  List.pairwise_iff_getElem.mpr fun i j hi hj hij => by simpa [renumbered] using hij

theorem orderAttributes_renumbered {t : Tag} (hd : DistinctNames t.attributes) :
    let u := (t.orderAttributes (.ofGroups groups) s design).renumbered
    u.orderAttributes (.ofGroups groups) s design = u := by
  intro u
  have ht : Ordered groups s design t _ := ordered_orderAttributes hd
  have hsame := forall₂_renumbered (t.orderAttributes (.ofGroups groups) s design)
  have hu : DistinctNames u.attributes := by
    have hnames : (u.attributes.map fun a => a.name.written) =
        (t.orderAttributes (.ofGroups groups) s design).attributes.map fun a => a.name.written :=
      map_of_forall₂ (by rintro a _ ⟨i, rfl⟩; rfl) hsame
    rw [DistinctNames, hnames]
    exact (hd.grouped _ s design).perm ht.perm.symm
  have hgroups : u.attributes.map (Attribute.grouped (.ofGroups groups) s design) =
      u.attributes := by
    refine (List.map_congr_left fun b hb => ?_).trans (List.map_id' _)
    obtain ⟨a, ha, i, rfl⟩ := exists_of_forall₂ hsame b hb
    conv_rhs => rw [← ht.grouped_eq a ha]
    rfl
  rw [(ordered_orderAttributes hu).unique hu (ht.again (pairwise_renumbered _)
    (hsame.imp (by rintro a _ ⟨i, rfl⟩; exact ⟨rfl, rfl⟩))), hgroups]
  rfl

theorem orderAttributes_renumbered_sample :
    let t := namesSample ["Tag", "d:Height", "Style", "Other", "Width", "Zeta", "Source", "x:Name"]
    let u := (t.orderAttributes (.ofGroups groupsSample) firstLineSample ["d".toList]).renumbered
    DistinctNames t.attributes ∧
      u.orderAttributes (.ofGroups groupsSample) firstLineSample ["d".toList] = u ∧
      (u.attributes.map fun a => (String.ofList a.name.written, a.index)) =
        [("Zeta", 0), ("Tag", 1), ("x:Name", 2), ("Width", 3), ("d:Height", 4), ("Source", 5),
          ("Style", 6), ("Other", 7)] :=
  ⟨by decide +kernel, orderAttributes_renumbered (by decide +kernel), by decide +kernel⟩

end Tag

section Shuffled

/-- What an attribute is, apart from its place in the source. -/
def Attribute.bare (a : Attribute) : Attribute :=
  { name := a.name, value := a.value, index := 0, offset := 0, group := a.group }

def Attribute.ofPair (pair : QName × Chars) : Attribute :=
  Attribute.grouped (.ofGroups groups) s design
    { name := pair.1, value := pair.2, index := 0, offset := 0 }

theorem placeAttributes_bare_perm (t : Tag) : ((placeAttributes groups s design
    (t.attributes.map (Attribute.grouped (.ofGroups groups) s design))).map Attribute.bare).Perm
      ((t.attributes.map fun a => (a.name, a.value)).map (Attribute.ofPair groups s design)) := by
  refine ((placeAttributes_perm groups s design _).map _).trans ?_
  rw [List.map_map, List.map_map]
  exact .refl _

variable {groups s design} {t u : Tag}

theorem Attribute.standing_eq {rules : OrderingRules} {a b : Attribute}
    (hab : comesFirst rules s design a b = true) (hba : comesFirst rules s design b a = true) :
    a.standing rules s design = b.standing rules s design := by
  simp only [comesFirst, decide_eq_true_eq] at hab hba
  exact congrArg (fun k => (ofLex k).1) (hab.antisymm hba)

theorem Attribute.matchingName_of_standing (hn : s.orderAttributesByName = true) {a b : Attribute}
    (ha : ((OrderingRules.ofGroups groups).classify (a.matchingName s design)).matched = true)
    (hb : ((OrderingRules.ofGroups groups).classify (b.matchingName s design)).matched = true)
    (h : a.standing (.ofGroups groups) s design = b.standing (.ofGroups groups) s design) :
    a.matchingName s design = b.matchingName s design := by
  simp only [standing, EmbeddingLike.apply_eq_iff_eq, Prod.mk.injEq, hn, ha, hb, Bool.and_self,
    if_true] at h
  exact h.2.2

theorem pairwise_placeAttributes_bare (he : s.enableAttributeReordering = true)
    (l : List Attribute) :
    ((placeAttributes groups s design l).map Attribute.bare).Pairwise fun a b =>
      Attribute.comesFirst (.ofGroups groups) s design a b = true := by
  rw [placeAttributes, if_pos he]
  refine List.pairwise_map.mpr ((pairwise_stableSort
    (Attribute.isPreference_comesFirst _ s design) l).imp fun hab => ?_)
  exact Attribute.comesFirst_renumbered _ s design le_rfl hab

/-- Positions do not count among attributes that are told apart by their names. -/
theorem placeAttributes_shuffled (he : s.enableAttributeReordering = true)
    (hn : s.orderAttributesByName = true)
    (hp : (t.attributes.map fun a => (a.name, a.value)).Perm
      (u.attributes.map fun a => (a.name, a.value)))
    (hm : ∀ a ∈ t.attributes,
      ((OrderingRules.ofGroups groups).classify (a.matchingName s design)).matched = true)
    (hd : (t.attributes.map (Attribute.matchingName s design)).Nodup) :
    (placeAttributes groups s design
      (t.attributes.map (Attribute.grouped (.ofGroups groups) s design))).map Attribute.bare =
    (placeAttributes groups s design
      (u.attributes.map (Attribute.grouped (.ofGroups groups) s design))).map Attribute.bare := by
  have ht := placeAttributes_bare_perm groups s design t
  have hperm := ht.trans ((hp.map _).trans (placeAttributes_bare_perm groups s design u).symm)
  have hnames : (((t.attributes.map fun a => (a.name, a.value)).map
      (Attribute.ofPair groups s design)).map (Attribute.matchingName s design)).Nodup := by
    rw [List.map_map, List.map_map]
    exact hd
  have hmatched : ∀ c ∈ (t.attributes.map fun a => (a.name, a.value)).map
      (Attribute.ofPair groups s design),
      ((OrderingRules.ofGroups groups).classify (c.matchingName s design)).matched = true := by
    rw [List.map_map, List.forall_mem_map]
    exact hm
  -- Both lists are sorted, and two of their members that precede each other have the same name.
  refine List.Perm.eq_of_pairwise (fun a b ha hb hab hba => ?_)
    (pairwise_placeAttributes_bare he _) (pairwise_placeAttributes_bare he _) hperm
  have ha := ht.subset ha
  have hb := ht.subset (hperm.symm.subset hb)
  exact List.inj_on_of_nodup_map hnames ha hb (Attribute.matchingName_of_standing hn
    (hmatched a ha) (hmatched b hb) (Attribute.standing_eq hab hba))

/-- Attributes that patterns match and that have different names for them are ordered alike, however
they stood. -/
theorem Tag.orderAttributes_shuffled (he : s.enableAttributeReordering = true)
    (hn : s.orderAttributesByName = true)
    (hp : (t.attributes.map fun a => (a.name, a.value)).Perm
      (u.attributes.map fun a => (a.name, a.value)))
    (hm : ∀ a ∈ t.attributes, ∃ pattern group priority,
      OrderingRules.Declared groups pattern group priority ∧
        StandsFor pattern (a.matchingName s design))
    (hd : (t.attributes.map (Attribute.matchingName s design)).Nodup) :
    ((t.orderAttributes (.ofGroups groups) s design).attributes.map fun a =>
        (a.name, a.value, a.group)) =
      ((u.orderAttributes (.ofGroups groups) s design).attributes.map fun a =>
        (a.name, a.value, a.group)) ∧
    (t.orderAttributes (.ofGroups groups) s design).pinned =
      (u.orderAttributes (.ofGroups groups) s design).pinned := by
  have hplace := placeAttributes_shuffled he hn hp
    (fun a ha => (OrderingRules.matched_iff groups _).mpr (hm a ha)) hd
  rw [← List.forall₂_eq_eq_eq, List.forall₂_map_left_iff, List.forall₂_map_right_iff] at hplace
  obtain ⟨hfront, hrest⟩ := forall₂_takeNamed s.firstLineAttributes
    (fun a b (hab : a.bare = b.bare) => (congrArg (fun c => c.name.written) hab).symm) hplace
  rw [orderAttributes_eq_place, orderAttributes_eq_place]
  have hlabels (a b : Attribute) (hab : a.bare = b.bare) :
      (b.name, b.value, b.group) = (a.name, a.value, a.group) :=
    (congrArg (fun c => (c.name, c.value, c.group)) hab).symm
  exact ⟨(map_of_forall₂ hlabels (List.rel_append hfront hrest)).symm, hfront.length_eq⟩

/-- The same attributes in two orders, one of them for the first line. -/
theorem Tag.orderAttributes_shuffled_sample :
    let s := { firstLineSample with firstLineAttributes := ["Style".toList] }
    let t := namesSample ["Style", "d:Height", "x:Name", "Source"]
    let u := namesSample ["Source", "x:Name", "Style", "d:Height"]
    ((t.orderAttributes (.ofGroups groupsSample) s ["d".toList]).attributes.map fun a =>
        (a.name, a.value, a.group)) =
      ((u.orderAttributes (.ofGroups groupsSample) s ["d".toList]).attributes.map fun a =>
        (a.name, a.value, a.group)) ∧
    (t.orderAttributes (.ofGroups groupsSample) s ["d".toList]).pinned =
      (u.orderAttributes (.ofGroups groupsSample) s ["d".toList]).pinned ∧
    (u.orderAttributes (.ofGroups groupsSample) s ["d".toList]).pinned = 1 := by
  intro s t u
  have hmatched : ∀ a ∈ t.attributes, ((OrderingRules.ofGroups groupsSample).classify
      (a.matchingName s ["d".toList])).matched = true := by decide +kernel
  obtain ⟨hattributes, hpinned⟩ := Tag.orderAttributes_shuffled (s := s) (t := t) (u := u) rfl rfl
    (by decide +kernel) (fun a ha => (OrderingRules.matched_iff groupsSample _).mp (hmatched a ha))
    (by decide +kernel)
  exact ⟨hattributes, hpinned, by decide +kernel⟩

end Shuffled

end Contract

end XamlFormat
