import XamlFormat.Proofs.Order.Siblings
import XamlFormat.Order.Children

/-! The order of children as a property of their tags. Arranging brings children into it, unless
sorting setters undoes the sorting by position, and leaves children alone that are in it. -/
namespace XamlFormat

open Cluster

def isStateGroup (t : Tag) : Bool := t.name.base == stateGroupsName

/-- The position that children of an element with this name are sorted by. -/
def positionKey? (s : Settings) (name : QName) : Option (Tag → Except Fault (List Int)) :=
  if name = ⟨none, "Grid".toList⟩ ∧ s.reorderGridChildren then some gridKey
  else if name = ⟨none, "Canvas".toList⟩ ∧ s.reorderCanvasChildren then some canvasKey
  else none

def positionKeys (key : Tag → Except Fault (List Int)) (ts : List Tag) : List (Option (List Int)) :=
  (ts.filter isPositioned).map fun t => (key t).toOption

def setterKeys (order : SetterOrder) (ts : List Tag) : List (List Chars) :=
  (ts.filter isSetter).map (setterKey order)

/-- The visual state groups, marked by `true`, are at their end. -/
def GroupsPlaced : StateGroupPlace → List Bool → Prop
  | .keep, _ => True
  | .first, marks => marks.Pairwise fun a b => b = true → a = true
  | .last, marks => marks.Pairwise fun a b => a = true → b = true

def KeysSorted (keys : List (Option (List Int))) : Prop :=
  ∀ ks : List (List Int), keys = ks.map some → ks.Pairwise fun a b => (compare a b).isLE = true

/-- Children of an element with this name that are in the order the settings ask for. -/
structure Arranged (s : Settings) (name : QName) (ts : List Tag) : Prop where
  groups : GroupsPlaced s.stateGroupPlace (ts.map isStateGroup)
  positions : ∀ key, positionKey? s name = some key → KeysSorted (positionKeys key ts)
  setters : s.setterOrder ≠ .keep →
    (setterKeys s.setterOrder ts).Pairwise fun a b => (compare a b).isLE = true

/-- Setters do not differ in the position that their container sorts by. -/
def SettersLevel (s : Settings) (name : QName) (ts : List Tag) : Prop :=
  s.setterOrder ≠ .keep → ∀ key, positionKey? s name = some key →
    ∀ a ∈ ts, ∀ b ∈ ts, isSetter a = true → isSetter b = true → (key a).toOption = (key b).toOption

section Steps

variable {κ : Type} [Ord κ]

def byKey (key : Tag → κ) (a b : Tag) : Bool := (compare (key a) (key b)).isLE

theorem isPreference_byKey [Std.TransOrd κ] (key : Tag → κ) : IsPreference (byKey key) := by
  refine ⟨fun a b => ?_, fun a b c => Std.TransCmp.isLE_trans⟩
  have hswap : compare (key b) (key a) = (compare (key a) (key b)).swap := Std.OrientedCmp.eq_swap
  rw [byKey, byKey, hswap]
  cases compare (key a) (key b) <;> simp

def sortPositioned (s : Settings) (name : QName) (ns : List Node) : List Node :=
  match positionKey? s name with
  | none => ns
  | some key =>
    if (childTags ns).all fun t => !isPositioned t || (key t).isOk then
      sortPicked isPositioned (byKey (keyOf key)) ns
    else ns

theorem sortByPosition_eq (s : Settings) (tag : Tag) (ns : List Node) :
    (sortByPosition s tag ns).1 = sortPositioned s tag.name ns := by
  unfold sortByPosition sortPositioned positionKey?
  split_ifs
  · exact sortSiblings_eq isPositioned gridKey compare ns
  · exact sortSiblings_eq isPositioned canvasKey compare ns
  · rfl

theorem sortSetters_eq (order : SetterOrder) (ns : List Node) :
    sortSetters order ns =
      if order = .keep then ns else sortPicked isSetter (byKey (setterKey order)) ns := by
  have hsort : (sortSiblings (fun t _ => isSetter t)
      (fun t _ => (.ok (setterKey order t) : Except Empty _)) compare ns).1 =
      sortPicked isSetter (byKey (setterKey order)) ns := by
    rw [sortSiblings_eq isSetter (fun t => .ok (setterKey order t)) compare ns,
      if_pos (by simp [Except.isOk, Except.toBool])]
    rfl
  cases order with
  | keep => rfl
  | property | targetName | targetNameThenProperty => exact hsort

theorem arrange_eq {s : Settings} {tag : Tag} {ns : List Node} (h : mayReorder tag ns = true) :
    arrange s tag ns = sortSetters s.setterOrder
      (sortPositioned s tag.name (moveStateGroups s.stateGroupPlace ns)) := by
  rw [arrange, if_pos h, ← sortByPosition_eq]

end Steps

section Groups

variable (place : StateGroupPlace) (ns : List Node)

theorem rearranged_moveStateGroups : Rearranged ns (moveStateGroups place ns) := by
  have hperm := List.filter_append_perm (fun c : Cluster => isStateGroup c.tag) (split ns).1
  cases place with
  | keep => exact .refl ns
  | first => exact ⟨_, hperm, rfl⟩
  | last => exact ⟨_, List.perm_append_comm.trans hperm, rfl⟩

theorem groupsPlaced_moveStateGroups :
    GroupsPlaced place ((childTags (moveStateGroups place ns)).map isStateGroup) := by
  obtain ⟨hcs, ht⟩ := tidy_split ns
  have htags (cs : List Cluster) (h : cs.Perm (split ns).1) :
      (childTags (join cs (split ns).2)).map isStateGroup = cs.map fun c => isStateGroup c.tag := by
    rw [childTags_join (hcs.perm h) ht, List.map_map, Function.comp_def]
  have hperm := List.filter_append_perm (fun c : Cluster => isStateGroup c.tag) (split ns).1
  cases place with
  | keep => trivial
  | first =>
    refine (htags _ hperm).symm ▸ List.pairwise_map.mpr (List.pairwise_append.mpr ⟨?_, ?_, ?_⟩)
    · exact List.pairwise_of_forall_mem_list fun a ha b _ _ => (List.mem_filter.mp ha).2
    · exact List.pairwise_of_forall_mem_list fun a _ b hb h => by
        simpa [h] using (List.mem_filter.mp hb).2
    · exact fun a ha b _ _ => (List.mem_filter.mp ha).2
  | last =>
    refine (htags _ (List.perm_append_comm.trans hperm)).symm ▸
      List.pairwise_map.mpr (List.pairwise_append.mpr ⟨?_, ?_, ?_⟩)
    · exact List.pairwise_of_forall_mem_list fun a ha b _ h => by
        simpa [h] using (List.mem_filter.mp ha).2
    · exact List.pairwise_of_forall_mem_list fun a _ b hb _ => (List.mem_filter.mp hb).2
    · exact fun a _ b hb _ => (List.mem_filter.mp hb).2

theorem filter_append_filter_not {α : Type} {p : α → Bool} {l : List α}
    (h : l.Pairwise fun a b => p b = true → p a = true) :
    l.filter p ++ l.filter (fun a => !p a) = l := by
  induction l with
  | nil => rfl
  | cons a l ih =>
    obtain ⟨ha, hl⟩ := List.pairwise_cons.mp h
    by_cases hp : p a = true
    · simp [hp, ih hl]
    · have hnone : ∀ b ∈ l, p b = false := fun b hb => by
        by_contra hpb
        exact hp (ha b hb (by simpa using hpb))
      rw [List.filter_eq_nil_iff.mpr (by simpa [hp] using hnone), List.nil_append,
        List.filter_eq_self.mpr (by simpa [hp] using hnone)]

theorem moveStateGroups_eq_self (h : GroupsPlaced place ((childTags ns).map isStateGroup)) :
    moveStateGroups place ns = ns := by
  rw [childTags_split, List.map_map] at h
  cases place with
  | keep => rfl
  | first =>
    have hclusters := filter_append_filter_not (List.pairwise_map.mp h)
    exact (congrArg (join · _) hclusters).trans (join_split ns)
  | last =>
    have hclusters := filter_append_filter_not
      (p := fun c : Cluster => !isStateGroup c.tag) (l := (split ns).1)
      ((List.pairwise_map.mp h).imp fun {a b} hab hb => by
        by_contra ha
        exact absurd (hab (by simpa using ha)) (by simpa using hb))
    simp only [Bool.not_not] at hclusters
    exact (congrArg (join · _) hclusters).trans (join_split ns)

end Groups

section Positions

theorem base_of_isStateGroup {t : Tag} (h : isStateGroup t = true) :
    isPositioned t = false ∧ isSetter t = false := by
  have hbase : t.name.base = stateGroupsName := by simpa [isStateGroup] using h
  rw [isPositioned, isSetter, QName.isProperty, hbase]
  decide

theorem isPositioned_of_isSetter {t : Tag} (h : isSetter t = true) : isPositioned t = true := by
  have hbase : t.name.base = "Setter".toList := by simpa [isSetter] using h
  rw [isPositioned, QName.isProperty, hbase]
  decide

variable {key : Tag → Except Fault (List Int)}

theorem keyOf_of_toOption {t : Tag} {k : List Int} (h : (key t).toOption = some k) :
    keyOf key t = k := by
  unfold keyOf
  cases hk : key t with
  | error => simp [hk, Except.toOption] at h
  | ok => simpa [hk, Except.toOption] using h

theorem keysSorted_iff {ts : List Tag} :
    KeysSorted (ts.map fun t => (key t).toOption) ↔ ((∀ t ∈ ts, (key t).isOk = true) →
      ts.Pairwise fun a b => byKey (keyOf key) a b = true) := by
  have hok (t : Tag) : (key t).isOk = true ↔ (key t).toOption = some (keyOf key t) := by
    unfold keyOf
    cases key t <;> simp [Except.isOk, Except.toBool, Except.toOption]
  constructor
  · intro h hall
    have hkeys : ts.map (fun t => (key t).toOption) = (ts.map (keyOf key)).map some := by
      rw [List.map_map]
      exact List.map_congr_left fun t ht => (hok t).mp (hall t ht)
    exact List.pairwise_map.mp (h _ hkeys)
  · intro h ks hks
    have hall : ∀ t ∈ ts, (key t).isOk = true := by
      intro t ht
      have hmem : (key t).toOption ∈ ks.map some := hks ▸ List.mem_map_of_mem ht
      obtain ⟨k, -, hk⟩ := List.mem_map.mp hmem
      rw [hok, ← hk, keyOf_of_toOption hk.symm]
    have hkeys : ks = ts.map (keyOf key) := by
      have hsome : ks.map some = (ts.map (keyOf key)).map some := by
        rw [← hks, List.map_map]
        exact List.map_congr_left fun t ht => (hok t).mp (hall t ht)
      exact List.map_injective_iff.mpr (Option.some_injective _) hsome
    rw [hkeys]
    exact List.pairwise_map.mpr (h hall)

variable (s : Settings) (name : QName) (ns : List Node)

theorem rearranged_sortPositioned : Rearranged ns (sortPositioned s name ns) := by
  unfold sortPositioned
  split
  · exact .refl ns
  · split_ifs
    · exact rearranged_sortPicked ns
    · exact .refl ns

theorem groups_sortPositioned : (childTags (sortPositioned s name ns)).map isStateGroup =
    (childTags ns).map isStateGroup := by
  unfold sortPositioned
  split
  · rfl
  · split_ifs
    · refine map_sortPicked (v := false) ns fun t _ hp => ?_
      by_contra hg
      simp [(base_of_isStateGroup (by simpa using hg)).1] at hp
    · rfl

theorem keysSorted_sortPositioned (hkey : positionKey? s name = some key) :
    KeysSorted (positionKeys key (childTags (sortPositioned s name ns))) := by
  rw [positionKeys, keysSorted_iff, sortPositioned, hkey]
  dsimp only
  split_ifs with hall
  · intro _
    rw [filter_sortPicked]
    exact pairwise_stableSort (isPreference_byKey _) _
  · intro h
    refine absurd (List.all_eq_true.mpr fun t ht => ?_) hall
    by_cases hp : isPositioned t = true
    · simp [h t (List.mem_filter.mpr ⟨ht, hp⟩)]
    · simp [hp]

theorem sortPositioned_eq_self
    (h : ∀ key, positionKey? s name = some key → KeysSorted (positionKeys key (childTags ns))) :
    sortPositioned s name ns = ns := by
  unfold sortPositioned
  split
  · rfl
  · rename_i key hkey
    split_ifs with hall
    · refine sortPicked_eq_self ns (keysSorted_iff.mp (h key hkey) fun t ht => ?_)
      obtain ⟨ht, hp⟩ := List.mem_filter.mp ht
      simpa [hp] using List.all_eq_true.mp hall t ht
    · rfl

end Positions

section Setters

variable (order : SetterOrder) (ns : List Node)

theorem rearranged_sortSetters : Rearranged ns (sortSetters order ns) := by
  rw [sortSetters_eq]
  split_ifs
  · exact .refl ns
  · exact rearranged_sortPicked ns

theorem map_sortSetters {β : Type} {f : Tag → β}
    (h : order ≠ .keep → ∀ a ∈ childTags ns, ∀ b ∈ childTags ns, isSetter a = true →
      isSetter b = true → f a = f b) :
    (childTags (sortSetters order ns)).map f = (childTags ns).map f := by
  rw [sortSetters_eq]
  split_ifs with hk
  · rfl
  · by_cases hex : ∃ a ∈ childTags ns, isSetter a = true
    · obtain ⟨a, ha, has⟩ := hex
      exact map_sortPicked (v := f a) ns fun b hb hbs => h hk b hb a ha hbs has
    · rw [sortPicked_eq_self]
      rw [List.filter_eq_nil_iff.mpr fun t ht hs => hex ⟨t, ht, hs⟩]
      exact .nil

theorem groups_sortSetters : (childTags (sortSetters order ns)).map isStateGroup =
    (childTags ns).map isStateGroup := by
  have hnot {t : Tag} (ht : isSetter t = true) : isStateGroup t = false := by
    by_contra hg
    simp [(base_of_isStateGroup (by simpa using hg)).2] at ht
  exact map_sortSetters order ns fun _ a _ b _ ha hb => by rw [hnot ha, hnot hb]

theorem sorted_sortSetters (h : order ≠ .keep) :
    (setterKeys order (childTags (sortSetters order ns))).Pairwise
      fun a b => (compare a b).isLE = true := by
  rw [sortSetters_eq, if_neg h, setterKeys, filter_sortPicked, List.pairwise_map]
  exact pairwise_stableSort (isPreference_byKey _) _

theorem sortSetters_eq_self (h : order ≠ .keep →
    (setterKeys order (childTags ns)).Pairwise fun a b => (compare a b).isLE = true) :
    sortSetters order ns = ns := by
  rw [sortSetters_eq]
  split_ifs with hk
  · rfl
  · exact sortPicked_eq_self ns (List.pairwise_map.mp (h hk))

end Setters

section Arrange

variable {s : Settings} {tag : Tag} {ns : List Node}

theorem rearranged_arrange (s : Settings) (tag : Tag) (ns : List Node) :
    Rearranged ns (arrange s tag ns) := by
  by_cases h : mayReorder tag ns = true
  · rw [arrange_eq h]
    exact ((rearranged_moveStateGroups _ ns).trans (rearranged_sortPositioned s tag.name _)).trans
      (rearranged_sortSetters _ _)
  · rw [arrange, if_neg h]
    exact .refl ns

theorem mayReorder_arrange (s : Settings) (tag : Tag) (ns : List Node) :
    mayReorder tag (arrange s tag ns) = mayReorder tag ns := by
  have hperm := (rearranged_arrange s tag ns).perm
  rw [mayReorder, mayReorder, hasMarker, hasMarker, hperm.any_eq, hperm.any_eq]

theorem groupsPlaced_arrange (h : mayReorder tag ns = true) :
    GroupsPlaced s.stateGroupPlace ((childTags (arrange s tag ns)).map isStateGroup) := by
  rw [arrange_eq h, groups_sortSetters, groups_sortPositioned]
  exact groupsPlaced_moveStateGroups s.stateGroupPlace ns

theorem arranged_arrange (h : mayReorder tag ns = true)
    (hlevel : SettersLevel s tag.name (childTags ns)) :
    Arranged s tag.name (childTags (arrange s tag ns)) := by
  have hgroups := groupsPlaced_arrange (s := s) h
  rw [arrange_eq h] at hgroups ⊢
  have hmoved := rearranged_moveStateGroups s.stateGroupPlace ns
  generalize moveStateGroups s.stateGroupPlace ns = moved at hmoved hgroups ⊢
  have hplaced := hmoved.trans (rearranged_sortPositioned s tag.name moved)
  have hkeys (key : Tag → Except Fault (List Int)) (hkey : positionKey? s tag.name = some key) :=
    keysSorted_sortPositioned s tag.name moved hkey
  generalize sortPositioned s tag.name moved = placed at hplaced hgroups hkeys ⊢
  have hmem (t : Tag) (ht : t ∈ childTags placed) : t ∈ childTags ns :=
    hplaced.childTags_perm.subset ht
  refine ⟨hgroups, fun key hkey => ?_, sorted_sortSetters _ placed⟩
  have hsame := map_sortSetters s.setterOrder placed
    (f := fun t => (isPositioned t, (key t).toOption)) fun hk a ha b hb has hbs => by
      rw [isPositioned_of_isSetter has, isPositioned_of_isSetter hbs,
        hlevel hk key hkey a (hmem a ha) b (hmem b hb) has hbs]
  have hpositions (ts : List Tag) : positionKeys key ts =
      ((ts.map fun t => (isPositioned t, (key t).toOption)).filter Prod.fst).map Prod.snd := by
    simp [positionKeys, List.filter_map, Function.comp_def]
  rw [hpositions, hsame, ← hpositions]
  exact hkeys key hkey

theorem arrange_eq_self (h : mayReorder tag ns = true → Arranged s tag.name (childTags ns)) :
    arrange s tag ns = ns := by
  by_cases hr : mayReorder tag ns = true
  · obtain ⟨hgroups, hpositions, hsetters⟩ := h hr
    rw [arrange_eq hr, moveStateGroups_eq_self _ ns hgroups, sortPositioned_eq_self _ _ _ hpositions,
      sortSetters_eq_self _ _ hsetters]
  · rw [arrange, if_neg hr]

theorem childTags_arrangeAllList (ns : List Node) : childTags (arrangeAllList s ns) = childTags ns := by
  induction ns with
  | nil => rfl
  | cons n ns ih =>
    have htag : (n.arrangeAll s).tag? = n.tag? := by cases n <;> rfl
    rw [arrangeAllList, childTags, childTags, List.filterMap_cons, List.filterMap_cons, htag]
    cases n.tag? with
    | none => exact ih
    | some t => exact congrArg (t :: ·) ih

end Arrange
end XamlFormat
