import XamlFormat.Proofs.Rules.Families

/-! Children that are arranged twice. Sorting the setters may undo the sorting by position that comes
before it; the next sorting by position then moves the setters among the other children. Where it
finds setters and other children in each other's places again, arranging has settled. -/
namespace XamlFormat

open Cluster

section Sorts

variable {α κ : Type} {le le' : α → α → Bool}

/-- A list is known from the class of each member and from the members of each class. -/
theorem eq_of_filter_eq [DecidableEq κ] {k : α → κ} {l m : List α} (hk : l.map k = m.map k)
    (h : ∀ c, (l.filter fun a => k a = c) = m.filter fun a => k a = c) : l = m := by
  induction l generalizing m with
  | nil => simpa using hk.symm
  | cons a l ih =>
    cases m with
    | nil => simp at hk
    | cons b m =>
      rw [List.map_cons, List.map_cons, List.cons.injEq] at hk
      obtain ⟨hab, hk⟩ := hk
      have hfirst := h (k a)
      rw [List.filter_cons_of_pos (by simp), List.filter_cons_of_pos (by simp [hab])] at hfirst
      obtain rfl := (List.cons.inj hfirst).1
      refine congrArg (a :: ·) (ih hk fun c => ?_)
      have hrest := h c
      rw [List.filter_cons, List.filter_cons] at hrest
      split_ifs at hrest
      · exact (List.cons.inj hrest).2
      · exact hrest

/-- Sorting by one order and then by another settles: what has been sorted so stays as it is. -/
theorem stableSort_settled (hle : IsPreference le) (hle' : IsPreference le') (l : List α) :
    stableSort le' (stableSort le (stableSort le' (stableSort le l))) =
      stableSort le' (stableSort le l) := by
  have hsorted := pairwise_stableSort hle l
  generalize stableSort le l = once at hsorted ⊢
  have hfirst := stableOrder_stableSort hle' once
  refine (stableOrder_stableSort hle' _).unique (fun a _ => (hle'.total a a).elim id id)
    ⟨(stableSort_perm le _).symm, hfirst.sorted, fun x hx => ?_⟩
  -- Elements of one rank stand as they stood when the list was sorted by `le`.
  have hx : x ∈ once := hfirst.perm.subset ((stableSort_perm le _).subset hx)
  rw [filter_stableSort hle, hfirst.stable x hx, stableSort_eq_self (hsorted.filter _)]

/-- Elements of one rank that are in an order in the stable sort. -/
theorem pairwise_of_filter (le : α → α → Bool) {R : α → α → Prop} {l : List α}
    (h : ∀ x ∈ l, (l.filter fun y => le x y && le y x).Pairwise R) :
    l.Pairwise fun a b => le a b = true → le b a = true → le a a = true → R a b := by
  induction l with
  | nil => exact .nil
  | cons a l ih =>
    refine List.pairwise_cons.mpr ⟨fun b hb hab hba haa => ?_, ih fun x hx => ?_⟩
    · have ha := h a List.mem_cons_self
      rw [List.filter_cons_of_pos (by simp [haa])] at ha
      exact (List.pairwise_cons.mp ha).1 b (List.mem_filter.mpr ⟨hb, by simp [hab, hba]⟩)
    · exact (h x (List.mem_cons_of_mem a hx)).sublist ((List.sublist_cons_self a l).filter _)

/-- Where a smaller key for the first order never has a larger one for the second, the second order
keeps the first. -/
theorem pairwise_stableSort_of_agree (hle' : IsPreference le') {l : List α}
    (hl : l.Pairwise fun a b => le a b = true)
    (h : ∀ a ∈ l, ∀ b ∈ l, le b a = false → le' a b = true) :
    (stableSort le' l).Pairwise fun a b => le a b = true := by
  have hsort := stableOrder_stableSort hle' l
  have hties := pairwise_of_filter le' (R := fun a b => le a b = true) (l := stableSort le' l)
    fun x hx => by rw [hsort.stable x (hsort.perm.subset hx)]; exact hl.filter _
  refine (hsort.sorted.and hties).imp_of_mem fun {a b} ha hb hab => ?_
  by_contra hlt
  have hback := h b (hsort.perm.subset hb) a (hsort.perm.subset ha) (by simpa using hlt)
  exact hlt (hab.2 hab.1 hback ((hle'.total a a).elim id id))

/-- As above for keys. Both lists of keys are in order, so they are one list. -/
theorem map_stableSort_of_agree [Ord κ] [Std.TransOrd κ] [Std.LawfulEqOrd κ] (key : α → κ)
    (hle' : IsPreference le') {l : List α}
    (hl : l.Pairwise fun a b => (compare (key a) (key b)).isLE = true)
    (h : ∀ a ∈ l, ∀ b ∈ l, compare (key a) (key b) = .lt → le' a b = true) :
    (stableSort le' l).map key = l.map key := by
  have hsorted := pairwise_stableSort_of_agree hle' hl fun a ha b hb hlt => by
    refine h a ha b hb ?_
    have hswap : compare (key b) (key a) = (compare (key a) (key b)).swap :=
      Std.OrientedCmp.eq_swap
    rw [hswap] at hlt
    cases hk : compare (key a) (key b) <;> simp_all
  refine List.Perm.eq_of_pairwise (fun a b _ _ (hab : (compare a b).isLE = true) hba => ?_)
    (List.pairwise_map.mpr hsorted) (List.pairwise_map.mpr hl) ((stableSort_perm le' l).map key)
  exact Std.LawfulEqCmp.eq_of_compare (Std.OrientedCmp.isLE_antisymm hab hba)

end Sorts

namespace Cluster

section Places

variable {p q : Cluster → Bool} {le le' : Cluster → Cluster → Bool}

/-- The clusters with the picked ones in order, among their own places. -/
def sortPlaces (p : Cluster → Bool) (le : Cluster → Cluster → Bool) (cs : List Cluster) :
    List Cluster :=
  refill p cs (stableSort le (cs.filter p))

theorem picked_of_mem_stableSort {cs : List Cluster} {c : Cluster}
    (h : c ∈ stableSort le (cs.filter p)) : c ∈ cs ∧ p c = true :=
  List.mem_filter.mp ((stableSort_perm _ _).subset h)

theorem sortPlaces_perm (cs : List Cluster) : (sortPlaces p le cs).Perm cs :=
  refill_perm (stableSort_perm _ _)

theorem map_sortPlaces (le : Cluster → Cluster → Bool) {β : Type} {f : Cluster → β} {v : β}
    (h : ∀ c, p c = true → f c = v) (cs : List Cluster) : (sortPlaces p le cs).map f = cs.map f :=
  map_refill (fun c _ => h c) fun c hc => h c (picked_of_mem_stableSort hc).2

theorem filter_sortPlaces (hle : IsPreference le) (hq : ∀ c, q c = true → p c = true)
    (cs : List Cluster) : (sortPlaces p le cs).filter q = stableSort le (cs.filter q) := by
  have hfilter (l : List Cluster) : (l.filter p).filter q = l.filter q := by
    rw [List.filter_filter]
    refine List.filter_congr fun c _ => ?_
    cases hc : q c with
    | false => rfl
    | true => rw [hq c hc]; rfl
  rw [← hfilter, sortPlaces, filter_refill (length_stableSort _ _)
    fun c hc => (picked_of_mem_stableSort hc).2, filter_stableSort hle, hfilter]

theorem filter_refill_of_not (hq : ∀ c, p c = true → q c = false) {cs rs : List Cluster}
    (hrs : ∀ r ∈ rs, p r = true) : (refill p cs rs).filter q = cs.filter q := by
  induction cs generalizing rs with
  | nil => rfl
  | cons c cs ih =>
    by_cases hc : p c = true
    · cases rs with
      | nil => simp [refill, hc, hq c hc, @ih [] (by simp)]
      | cons r rs =>
        obtain ⟨hr, hrs⟩ := List.forall_mem_cons.mp hrs
        simp [refill, hc, hq c hc, hq r hr, ih hrs]
    · simp [refill, hc, List.filter_cons, ih hrs]

theorem filter_sortPlaces_of_not (hq : ∀ c, p c = true → q c = false) (cs : List Cluster) :
    (sortPlaces p le cs).filter q = cs.filter q :=
  filter_refill_of_not hq fun _ hc => (picked_of_mem_stableSort hc).2

theorem sortPlaces_eq_self {cs : List Cluster}
    (h : (cs.filter p).Pairwise fun a b => le a b = true) : sortPlaces p le cs = cs := by
  rw [sortPlaces, stableSort_eq_self h, refill_self]

/-- What the second sort does not pick stays in the order of the first one, and what none of them
picks stays in its own. -/
theorem filter_sortPlaces_twice {r : Cluster → Bool} (hle : IsPreference le)
    (hq : ∀ c, q c = true → r c = false)
    (hr : (∀ c, r c = true → p c = true) ∨ ∀ c, p c = true → r c = false)
    {cs once : List Cluster} (honce : once = sortPlaces q le' (sortPlaces p le cs)) :
    (sortPlaces q le' (sortPlaces p le once)).filter r = once.filter r := by
  rw [filter_sortPlaces_of_not hq]
  obtain hr | hr := hr
  · rw [filter_sortPlaces hle hr, honce, filter_sortPlaces_of_not hq, filter_sortPlaces hle hr,
      stableSort_eq_self (pairwise_stableSort hle _)]
  · exact filter_sortPlaces_of_not hr once

/-- Clusters are sorted by one order, and then some of them by another. The second round changes
nothing, if its first sort leaves those in their places that its second one picks. -/
theorem sortPlaces_settled (hq : ∀ c, q c = true → p c = true) (hle : IsPreference le)
    (hle' : IsPreference le') {cs once : List Cluster}
    (honce : once = sortPlaces q le' (sortPlaces p le cs))
    (h : (sortPlaces p le once).map q = once.map q) :
    sortPlaces q le' (sortPlaces p le once) = once := by
  have hself : ∀ c : Cluster, q c = true → q c = true := fun _ hc => hc
  -- A cluster is picked twice, by the first sort alone, or never.
  refine eq_of_filter_eq (k := fun c => (q c, p c)) ?_ fun ⟨b, b'⟩ => ?_
  · have hpicked := (map_sortPlaces le' hself (sortPlaces p le once)).trans h
    have hplaced := (map_sortPlaces le' hq (sortPlaces p le once)).trans
      (map_sortPlaces le (fun _ hc => hc) once)
    rw [← List.zip_map', ← List.zip_map', hpicked, hplaced]
  · simp only [Prod.mk.injEq]
    cases b with
    | true =>
      have hboth : (fun c => decide (q c = true ∧ p c = b')) = fun c => q c && (b' == true) := by
        funext c
        cases hc : q c with
        | false => simp
        | true => cases b' <;> simp [hq c hc]
      rw [hboth]
      cases b' with
      | false => simp
      | true =>
        simp only [beq_self_eq_true, Bool.and_true]
        rw [filter_sortPlaces hle' hself, filter_sortPlaces hle hq, honce,
          filter_sortPlaces hle' hself, filter_sortPlaces hle hq, stableSort_settled hle hle']
    | false =>
      refine filter_sortPlaces_twice hle (fun c hc => by simp [hc]) ?_ honce
      cases b' with
      | false => exact .inr fun c hc => by simp [hc]
      | true => exact .inl fun c hc => by simp_all

theorem sortPlaces_map (p : Cluster → Bool) (le : Cluster → Cluster → Bool)
    {f : Cluster → Cluster} (hp : ∀ c, p (f c) = p c) (hle : ∀ a b, le (f a) (f b) = le a b) (cs : List Cluster) :
    sortPlaces p le (cs.map f) = (sortPlaces p le cs).map f := by
  rw [sortPlaces, List.filter_map, show p ∘ f = p from funext hp, stableSort_map le le hle,
    refill_map hp, sortPlaces]

theorem map_refill_of_map_eq {β : Type} {f : Cluster → β} {cs rs : List Cluster}
    (h : rs.map f = (cs.filter p).map f) : (refill p cs rs).map f = cs.map f := by
  induction cs generalizing rs with
  | nil => rfl
  | cons c cs ih =>
    by_cases hc : p c = true
    · rw [List.filter_cons_of_pos hc] at h
      cases rs with
      | nil => simp at h
      | cons r rs =>
        rw [List.map_cons, List.map_cons, List.cons.injEq] at h
        simp [refill, hc, h.1, ih h.2]
    · rw [List.filter_cons_of_neg hc] at h
      simp [refill, hc, ih h]

/-- Where a smaller key for the first sort never goes with a larger rank in the second, the order of
the keys outlives the second sort. -/
theorem sortPlaces_of_agree {κ : Type} [Ord κ] [Std.TransOrd κ] [Std.LawfulEqOrd κ]
    (key : Cluster → κ) (hq : ∀ c, q c = true → p c = true)
    (hle : IsPreference fun a b => (compare (key a) (key b)).isLE) (hle' : IsPreference le')
    {cs once : List Cluster}
    (honce : once = sortPlaces q le'
      (sortPlaces p (fun a b => (compare (key a) (key b)).isLE) cs))
    (h : ∀ a ∈ cs, ∀ b ∈ cs, q a = true → q b = true → compare (key a) (key b) = .lt →
      le' a b = true) :
    sortPlaces p (fun a b => (compare (key a) (key b)).isLE) once = once := by
  have hplaced := filter_sortPlaces (p := p) hle (fun _ hc => hc) cs
  have hpicked := filter_sortPlaces (p := p) hle hq cs
  generalize hpl : sortPlaces p (fun a b => (compare (key a) (key b)).isLE) cs = placed
    at honce hplaced hpicked
  have hsorted : (placed.filter q).Pairwise fun a b => (compare (key a) (key b)).isLE = true :=
    hpicked ▸ pairwise_stableSort hle _
  have hmem {c : Cluster} (hc : c ∈ placed.filter q) : c ∈ cs ∧ q c = true := by
    obtain ⟨hc, hcq⟩ := List.mem_filter.mp hc
    exact ⟨(sortPlaces_perm cs).subset (hpl ▸ hc), hcq⟩
  have hkeys := map_stableSort_of_agree key hle' hsorted fun a ha b hb =>
    h a (hmem ha).1 b (hmem hb).1 (hmem ha).2 (hmem hb).2
  have hsame : once.map (fun c => (p c, key c)) = placed.map fun c => (p c, key c) := by
    rw [honce]
    refine map_refill_of_map_eq ?_
    have hpairs (l : List Cluster) (hl : ∀ c ∈ l, q c = true) :
        l.map (fun c => (p c, key c)) = (l.map key).map fun k => (true, k) := by
      rw [List.map_map]
      exact List.map_congr_left fun c hc => by rw [hq c (hl c hc)]; rfl
    rw [hpairs _ fun c hc => (picked_of_mem_stableSort hc).2,
      hpairs _ fun c hc => (List.mem_filter.mp hc).2, hkeys]
  have hfilter (l : List Cluster) : (l.filter p).map key =
      ((l.map fun c => (p c, key c)).filter Prod.fst).map Prod.snd := by
    simp [List.filter_map, Function.comp_def]
  have hinorder : ((once.filter p).map key).Pairwise fun a b => (compare a b).isLE = true := by
    rw [hfilter, hsame, ← hfilter, hplaced]
    exact List.pairwise_map.mpr (pairwise_stableSort hle _)
  exact sortPlaces_eq_self (List.pairwise_map.mp hinorder)

end Places

end Cluster

section Arrange

variable {s : Settings} {tag : Tag} {ns : List Node}

theorem split_sortPicked (pick : Tag → Bool) (le : Tag → Tag → Bool) (ns : List Node) :
    split (sortPicked pick le ns) =
      (sortPlaces (fun c => pick c.tag) (fun a b => le a.tag b.tag) (split ns).1, (split ns).2) :=
  split_join ((tidy_split ns).1.perm (sortPlaces_perm _)) (tidy_split ns).2

theorem eq_of_split_eq {ns ms : List Node} (h : split ns = split ms) : ns = ms := by
  rw [← join_split ns, h, join_split]

theorem isPreference_byKey_tag {κ : Type} [Ord κ] [Std.TransOrd κ] (key : Tag → κ) :
    IsPreference fun a b : Cluster => byKey key a.tag b.tag :=
  ⟨fun a b => (isPreference_byKey key).total a.tag b.tag,
    fun a b c => (isPreference_byKey key).trans a.tag b.tag c.tag⟩

/-- Children that change places are sorted by the same positions, or are none of them sorted. -/
theorem sortPositioned_cases (s : Settings) (name : QName) (ns : List Node) :
    (∀ ms, (childTags ms).Perm (childTags ns) → sortPositioned s name ms = ms) ∨
    ∃ key, positionKey? s name = some key ∧
      (∀ t ∈ childTags ns, isPositioned t = true → (key t).isOk = true) ∧
      ∀ ms, (childTags ms).Perm (childTags ns) →
        sortPositioned s name ms = sortPicked isPositioned (byKey (keyOf key)) ms := by
  cases hkey : positionKey? s name with
  | none => exact .inl fun ms _ => by rw [sortPositioned, hkey]
  | some key =>
    have hsort (ms : List Node) (hms : (childTags ms).Perm (childTags ns)) :
        sortPositioned s name ms =
          if (childTags ns).all fun t => !isPositioned t || (key t).isOk then
            sortPicked isPositioned (byKey (keyOf key)) ms
          else ms := by
      rw [sortPositioned, hkey, ← hms.all_eq]
    by_cases hall : ((childTags ns).all fun t => !isPositioned t || (key t).isOk) = true
    · refine .inr ⟨key, rfl, fun t ht hp => ?_, fun ms hms => by rw [hsort ms hms, if_pos hall]⟩
      simpa [hp] using List.all_eq_true.mp hall t ht
    · exact .inl fun ms hms => by rw [hsort ms hms, if_neg hall]

/-- Among the arranged children, sorting by position once more keeps setters in places of setters. -/
def SettersSettled (s : Settings) (tag : Tag) (ns : List Node) : Prop :=
  mayReorder tag ns = true →
    (childTags (sortByPosition s tag (arrange s tag ns)).1).map isSetter =
      (childTags (arrange s tag ns)).map isSetter

/-- Where children are sorted by position, a setter in front of another by position is not behind it
by what it sets. -/
def SettersAgree (s : Settings) (tag : Tag) (ns : List Node) : Prop :=
  mayReorder tag ns = true → s.setterOrder ≠ .keep → ∀ key, positionKey? s tag.name = some key →
    (∀ t ∈ childTags ns, isPositioned t = true → (key t).isOk = true) →
    ∀ a ∈ childTags ns, ∀ b ∈ childTags ns, isSetter a = true → isSetter b = true →
      ∀ k l, key a = .ok k → key b = .ok l → compare k l = .lt →
        (compare (setterKey s.setterOrder a) (setterKey s.setterOrder b)).isLE = true

theorem eq_ok_of_toOption {ε β : Type} {x : Except ε β} {v : β} (h : x.toOption = some v) :
    x = .ok v := by
  cases x with
  | error => simp [Except.toOption] at h
  | ok => simpa [Except.toOption] using h

instance (s : Settings) (tag : Tag) (ns : List Node) : Decidable (SettersAgree s tag ns) :=
  decidable_of_iff (mayReorder tag ns = true → s.setterOrder ≠ .keep →
    ∀ key ∈ positionKey? s tag.name,
      (∀ t ∈ childTags ns, isPositioned t = true → (key t).isOk = true) →
      ∀ a ∈ childTags ns, ∀ b ∈ childTags ns, isSetter a = true → isSetter b = true →
        ∀ k ∈ (key a).toOption, ∀ l ∈ (key b).toOption, compare k l = .lt →
          (compare (setterKey s.setterOrder a) (setterKey s.setterOrder b)).isLE = true)
    ⟨fun h hmay hkeep key hkey hok a ha b hb hsa hsb k l hk hl =>
      h hmay hkeep key hkey hok a ha b hb hsa hsb k (by simp [hk, Except.toOption]) l
        (by simp [hl, Except.toOption]),
    fun h hmay hkeep key hkey hok a ha b hb hsa hsb k hk l hl =>
      h hmay hkeep key hkey hok a ha b hb hsa hsb k l (eq_ok_of_toOption hk)
        (eq_ok_of_toOption hl)⟩

theorem arrange_arrange (h : mayReorder tag ns = true) :
    arrange s tag (arrange s tag ns) =
      sortSetters s.setterOrder (sortPositioned s tag.name (arrange s tag ns)) := by
  rw [arrange_eq (by rwa [mayReorder_arrange]),
    moveStateGroups_eq_self _ _ (groupsPlaced_arrange h)]

theorem settersSettled_of_childTags
    (h : childTags (arrange s tag (arrange s tag ns)) = childTags (arrange s tag ns)) :
    SettersSettled s tag ns := by
  intro hmay
  have hsetters := map_sortSetters (f := isSetter) s.setterOrder
    (sortPositioned s tag.name (arrange s tag ns)) fun _ a _ b _ ha hb => ha.trans hb.symm
  rw [sortByPosition_eq, ← hsetters, ← arrange_arrange hmay, h]

/-- Either the arranged children are in the order of their positions, or the setters were sorted
after them. -/
theorem arrange_cases (h : mayReorder tag ns = true) :
    sortPositioned s tag.name (arrange s tag ns) = arrange s tag ns ∨
    ∃ key, s.setterOrder ≠ .keep ∧ positionKey? s tag.name = some key ∧
      (∀ t ∈ childTags ns, isPositioned t = true → (key t).isOk = true) ∧
      sortPositioned s tag.name (arrange s tag ns) =
        sortPicked isPositioned (byKey (keyOf key)) (arrange s tag ns) ∧
      arrange s tag ns = sortPicked isSetter (byKey (setterKey s.setterOrder))
        (sortPicked isPositioned (byKey (keyOf key)) (moveStateGroups s.stateGroupPlace ns)) := by
  have hperm := (rearranged_arrange s tag ns).childTags_perm
  have hmoved := (rearranged_moveStateGroups s.stateGroupPlace ns).childTags_perm
  obtain hkeep | hkeep := eq_or_ne s.setterOrder .keep
  · left
    rw [arrange_eq h, sortSetters_eq, if_pos hkeep]
    exact sortPositioned_eq_self _ _ _ fun key => keysSorted_sortPositioned s tag.name _
  · obtain hstay | ⟨key, hkey, hok, hsort⟩ := sortPositioned_cases s tag.name ns
    · exact .inl (hstay _ hperm)
    · refine .inr ⟨key, hkeep, hkey, hok, hsort _ hperm, ?_⟩
      rw [arrange_eq h, hsort _ hmoved, sortSetters_eq, if_neg hkeep]

theorem arrange_arrange_of_settled (h : SettersSettled s tag ns) :
    arrange s tag (arrange s tag ns) = arrange s tag ns := by
  by_cases hmay : mayReorder tag ns = true
  · have hflags := h hmay
    rw [sortByPosition_eq] at hflags
    rw [arrange_arrange hmay]
    obtain hstay | ⟨key, hkeep, -, -, hsort, heq⟩ := arrange_cases (s := s) hmay
    · rw [hstay, arrange_eq hmay]
      exact sortSetters_eq_self _ _ fun hk => sorted_sortSetters _ _ hk
    · rw [hsort] at hflags ⊢
      rw [sortSetters_eq, if_neg hkeep]
      generalize arrange s tag ns = once at hflags heq ⊢
      have honce := congrArg (fun ms => (split ms).1) heq
      simp only [childTags_split, split_sortPicked, List.map_map] at hflags honce
      refine eq_of_split_eq ?_
      rw [split_sortPicked, split_sortPicked]
      exact Prod.ext (sortPlaces_settled (fun c => isPositioned_of_isSetter)
        (isPreference_byKey_tag _) (isPreference_byKey_tag _) honce hflags) rfl
  · rw [arrange, arrange, if_neg hmay, if_neg hmay]

theorem settersSettled_of_agree (h : SettersAgree s tag ns) : SettersSettled s tag ns := by
  intro hmay
  rw [sortByPosition_eq]
  refine congrArg (fun ms => (childTags ms).map isSetter) ?_
  obtain hstay | ⟨key, hkeep, hkey, hok, hsort, heq⟩ := arrange_cases (s := s) hmay
  · exact hstay
  · have hagree := h hmay hkeep key hkey hok
    have hmoved := (rearranged_moveStateGroups s.stateGroupPlace ns).childTags_perm
    have hchild {c : Cluster} (hc : c ∈ (split (moveStateGroups s.stateGroupPlace ns)).1) :
        c.tag ∈ childTags ns :=
      hmoved.subset (childTags_split _ ▸ List.mem_map_of_mem hc)
    have hvalue {t : Tag} (ht : t ∈ childTags ns) (hs : isSetter t = true) :
        key t = .ok (keyOf key t) := by
      have := hok t ht (isPositioned_of_isSetter hs)
      unfold keyOf
      cases hk : key t with
      | error => simp [hk, Except.isOk, Except.toBool] at this
      | ok => rfl
    rw [hsort]
    generalize arrange s tag ns = once at heq ⊢
    have honce := congrArg (fun ms => (split ms).1) heq
    simp only [split_sortPicked] at honce
    refine eq_of_split_eq ?_
    rw [split_sortPicked]
    refine Prod.ext (sortPlaces_of_agree (fun c => keyOf key c.tag)
      (fun c => isPositioned_of_isSetter) (isPreference_byKey_tag _) (isPreference_byKey_tag _)
      honce fun a ha b hb hsa hsb hlt => ?_) rfl
    exact hagree a.tag (hchild ha) b.tag (hchild hb) hsa hsb _ _
      (hvalue (hchild ha) hsa) (hvalue (hchild hb) hsb) hlt

end Arrange

section Inside

variable (s : Settings)

def Cluster.arrangeAll (c : Cluster) : Cluster :=
  { c with children := arrange s c.tag (arrangeAllList s c.children) }

theorem arrangeAllList_eq_map (ns : List Node) : arrangeAllList s ns = ns.map (Node.arrangeAll s) := by
  induction ns with
  | nil => rfl
  | cons n ns ih => rw [arrangeAllList, ih, List.map_cons]

theorem arrangeAllList_bare {ns : List Node} (h : Bare ns) : arrangeAllList s ns = ns := by
  rw [arrangeAllList_eq_map]
  refine (List.map_congr_left fun n hn => ?_).trans (List.map_id ns)
  cases n with
  | element => simpa [Node.tag?] using h _ hn
  | text | raw => rfl

theorem arrangeAllList_join {cs : List Cluster} {tail : List Node} (hcs : Tidy cs)
    (ht : Bare tail) :
    arrangeAllList s (join cs tail) = join (cs.map (Cluster.arrangeAll s)) tail := by
  induction cs with
  | nil => exact arrangeAllList_bare s ht
  | cons c cs ih =>
    obtain ⟨hc, hcs⟩ := List.forall_mem_cons.mp hcs
    have hjoin (c : Cluster) (cs : List Cluster) : join (c :: cs) tail =
        c.leading ++ .element c.tag c.children :: join cs tail := by
      simp [join, nodes]
    have hlead := arrangeAllList_bare s hc
    have hrest := ih hcs
    rw [List.map_cons, hjoin, hjoin, ← hrest]
    rw [arrangeAllList_eq_map] at hlead ⊢
    rw [List.map_append, hlead, List.map_cons, ← arrangeAllList_eq_map]
    rfl

theorem split_arrangeAllList (ns : List Node) :
    split (arrangeAllList s ns) = ((split ns).1.map (Cluster.arrangeAll s), (split ns).2) := by
  obtain ⟨hcs, ht⟩ := tidy_split ns
  conv_lhs => rw [← join_split ns, arrangeAllList_join s hcs ht]
  exact split_join (List.forall_mem_map.mpr fun c hc => hcs c hc) ht

theorem sortPicked_arrangeAllList (pick : Tag → Bool) (le : Tag → Tag → Bool) (ns : List Node) :
    sortPicked pick le (arrangeAllList s ns) = arrangeAllList s (sortPicked pick le ns) := by
  refine eq_of_split_eq ?_
  simp only [split_sortPicked, split_arrangeAllList]
  have hmap := sortPlaces_map (fun c => pick c.tag) (fun a b => le a.tag b.tag)
    (f := Cluster.arrangeAll s) (fun _ => rfl) (fun _ _ => rfl) (split ns).1
  rw [hmap]

theorem moveStateGroups_arrangeAllList (place : StateGroupPlace) (ns : List Node) :
    moveStateGroups place (arrangeAllList s ns) = arrangeAllList s (moveStateGroups place ns) := by
  obtain ⟨hcs, ht⟩ := tidy_split ns
  have hfilter (p : Cluster → Bool) : Tidy ((split ns).1.filter p) := fun c hc =>
    hcs c (List.mem_of_mem_filter hc)
  cases place with
  | keep => rfl
  | first | last =>
    simp only [moveStateGroups, split_arrangeAllList, List.filter_map]
    rw [arrangeAllList_join s (List.forall_mem_append.mpr ⟨hfilter _, hfilter _⟩) ht,
      List.map_append]
    rfl

theorem mayReorder_arrangeAllList (tag : Tag) (ns : List Node) :
    mayReorder tag (arrangeAllList s ns) = mayReorder tag ns := by
  have hany (p : Node → Bool) (hp : ∀ t ms, p (.element t ms) = false) :
      (arrangeAllList s ns).any p = ns.any p := by
    have := any_arrangeAllList (s := s) (g := fun t => t) hp ns
    rwa [mapTagsList_id] at this
  rw [mayReorder, mayReorder, hasMarker, hasMarker, hany _ fun _ _ => rfl, hany _ fun _ _ => rfl]

theorem sortPositioned_arrangeAllList (name : QName) (ns : List Node) :
    sortPositioned s name (arrangeAllList s ns) = arrangeAllList s (sortPositioned s name ns) := by
  unfold sortPositioned
  rw [childTags_arrangeAllList]
  split
  · rfl
  · split_ifs
    · exact sortPicked_arrangeAllList s _ _ ns
    · rfl

/-- It does not matter whether children are arranged before or after what is inside them. -/
theorem arrange_arrangeAllList (tag : Tag) (ns : List Node) :
    arrange s tag (arrangeAllList s ns) = arrangeAllList s (arrange s tag ns) := by
  have hmay := mayReorder_arrangeAllList s tag ns
  by_cases h : mayReorder tag ns = true
  · rw [arrange_eq (hmay.trans h), arrange_eq h, moveStateGroups_arrangeAllList,
      sortPositioned_arrangeAllList, sortSetters_eq, sortSetters_eq]
    split_ifs
    · rfl
    · exact sortPicked_arrangeAllList s _ _ _
  · rw [arrange, arrange, if_neg h, if_neg (by rwa [hmay])]

theorem arrangeAllList_twice_iff (ns : List Node) :
    arrangeAllList s (arrangeAllList s ns) = arrangeAllList s ns ↔
      ∀ n ∈ ns, (n.arrangeAll s).arrangeAll s = n.arrangeAll s := by
  rw [arrangeAllList_eq_map, arrangeAllList_eq_map, List.map_map, List.map_inj_left]
  rfl

/-- An element settles if its own children do, and everything inside them. -/
theorem arrangeAll_element_twice_iff (tag : Tag) (ns : List Node) :
    ((Node.element tag ns).arrangeAll s).arrangeAll s = (Node.element tag ns).arrangeAll s ↔
      SettersSettled s tag ns ∧ arrangeAllList s (arrangeAllList s ns) = arrangeAllList s ns := by
  simp only [Node.arrangeAll, Node.element.injEq, true_and, arrange_arrangeAllList]
  constructor
  · intro h
    have htags := congrArg childTags h
    simp only [childTags_arrangeAllList] at htags
    have hsettled := settersSettled_of_childTags htags
    rw [arrange_arrange_of_settled hsettled, arrangeAllList_twice_iff] at h
    have hperm := (rearranged_arrange s tag ns).perm
    exact ⟨hsettled, (arrangeAllList_twice_iff s ns).mpr fun n hn => h n (hperm.mem_iff.mpr hn)⟩
  · rintro ⟨hsettled, h⟩
    rw [arrange_arrange_of_settled hsettled, ← arrange_arrangeAllList, ← arrange_arrangeAllList, h,
      arrange_arrangeAllList]

mutual

theorem Node.arrangeAll_twice_iff (parent : Option Nat) : ∀ n : Node,
    (n.arrangeAll s).arrangeAll s = n.arrangeAll s ↔
      ∀ f ∈ n.families parent, SettersSettled s f.tag f.children
  | .element tag ns => by
    rw [arrangeAll_element_twice_iff, arrangeAllList_settled_iff (some tag.span.start) ns,
      Node.families, List.forall_mem_cons]
  | .text _ _ => by simp [Node.arrangeAll, Node.families]
  | .raw _ _ _ => by simp [Node.arrangeAll, Node.families]

theorem arrangeAllList_settled_iff (parent : Option Nat) : ∀ ns : List Node,
    arrangeAllList s (arrangeAllList s ns) = arrangeAllList s ns ↔
      ∀ f ∈ familiesList parent ns, SettersSettled s f.tag f.children
  | [] => by simp [arrangeAllList, familiesList]
  | n :: ns => by
    rw [familiesList, List.forall_mem_append, ← n.arrangeAll_twice_iff parent,
      ← arrangeAllList_settled_iff parent ns]
    simp only [arrangeAllList, List.cons.injEq]

end

end Inside

/-- Arranging an element a second time changes nothing exactly if in it and in all elements inside it
sorting the arranged children by position once more keeps setters in places of setters. This is so
where setters agree with their positions. -/
theorem Node.arrangeAll_settles (s : Settings) (n : Node) :
    ((n.arrangeAll s).arrangeAll s = n.arrangeAll s ↔
      ∀ f ∈ n.families none, SettersSettled s f.tag f.children) ∧
    ((∀ f ∈ n.families none, SettersAgree s f.tag f.children) →
      (n.arrangeAll s).arrangeAll s = n.arrangeAll s) := by
  refine ⟨n.arrangeAll_twice_iff s none, fun h => ?_⟩
  rw [n.arrangeAll_twice_iff s none]
  exact fun f hf => settersSettled_of_agree (h f hf)

def setterSettings : Settings :=
  { Settings.standard with
    reorderGridChildren := true
    setterOrder := .property }

def agreeingSample : Chars :=
  "<Grid><Setter Property='b' Grid.Row='1'/><B/><Setter Property='a'/></Grid>".toList

/-- Setters that agree with their positions are moved once. -/
theorem Node.arrangeAll_settles_sample : ∃ d, Document.read agreeingSample = .ok d ∧ ∃ n ∈ d.nodes,
    ((n.arrangeAll setterSettings).tags.map fun t => t.span.start) ≠
      (n.tags.map fun t => t.span.start) ∧
    (∀ f ∈ n.families none, SettersAgree setterSettings f.tag f.children) ∧
    (n.arrangeAll setterSettings).arrangeAll setterSettings = n.arrangeAll setterSettings := by
  have hagree : ∃ d, Document.read agreeingSample = .ok d ∧ ∃ n ∈ d.nodes,
      ((n.arrangeAll setterSettings).tags.map fun t => t.span.start) ≠
        (n.tags.map fun t => t.span.start) ∧
      ∀ f ∈ n.families none, SettersAgree setterSettings f.tag f.children :=
    exists_ok_of_any (by decide +kernel)
  obtain ⟨d, hd, n, hn, hmoved, hagree⟩ := hagree
  exact ⟨d, hd, n, hn, hmoved, hagree, (n.arrangeAll_settles setterSettings).2 hagree⟩

def setterSample : Chars :=
  "<Grid><Setter Property='b'/><B/><Setter Property='a' Grid.Row='1'/></Grid>".toList

/-- The setter of the second row is put first for what it sets, and the next sorting by position
moves it behind the other child of the grid. -/
theorem setters_moved_again : ∃ d, Document.read setterSample = .ok d ∧ ∃ n ∈ d.nodes,
    (n.arrangeAll setterSettings).arrangeAll setterSettings ≠ n.arrangeAll setterSettings := by
  have hstarts : ∃ d, Document.read setterSample = .ok d ∧ ∃ n ∈ d.nodes,
      (((n.arrangeAll setterSettings).arrangeAll setterSettings).tags.map fun t => t.span.start) ≠
        (n.arrangeAll setterSettings).tags.map fun t => t.span.start := by
    refine exists_ok_of_any ?_
    decide +kernel
  obtain ⟨d, hd, n, hn, hne⟩ := hstarts
  exact ⟨d, hd, n, hn, fun h => hne (by rw [h])⟩

end XamlFormat
