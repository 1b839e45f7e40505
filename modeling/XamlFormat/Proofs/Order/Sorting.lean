import XamlFormat.Proofs.Text.Cuts
import XamlFormat.Order.StableSort

/-! The stable sort: what it gives is in order, what is in order stays, and what is left out of a
list can be left out before or after the list is sorted. -/
namespace XamlFormat

section Insertion

variable {α β : Type} {le : α → α → Bool} {l : List α} {x : α}

theorem insertBy_eq_cons (h : ∀ y ∈ l, le x y = true) : insertBy le x l = x :: l := by
  cases l with
  | nil => rfl
  | cons y ys => rw [insertBy, if_pos (h y (by simp))]

theorem stableSort_eq_self (h : l.Pairwise fun a b => le a b = true) : stableSort le l = l := by
  induction l with
  | nil => rfl
  | cons x xs ih =>
    obtain ⟨hx, hxs⟩ := List.pairwise_cons.mp h
    rw [stableSort, ih hxs, insertBy_eq_cons hx]

theorem insertBy_forall₂ {T : α → β → Prop} {le' : β → β → Bool}
    (hT : ∀ a b a' b', T a a' → T b b' → le a b = le' a' b') {x' : β} {l' : List β} (hx : T x x')
    (h : List.Forall₂ T l l') : List.Forall₂ T (insertBy le x l) (insertBy le' x' l') := by
  induction h with
  | nil => exact .cons hx .nil
  | cons hy h ih =>
    rw [insertBy, insertBy, hT _ _ _ _ hx hy]
    split_ifs
    · exact .cons hx (.cons hy h)
    · exact .cons hy ih

theorem stableSort_forall₂ {T : α → β → Prop} {le' : β → β → Bool}
    (hT : ∀ a b a' b', T a a' → T b b' → le a b = le' a' b') {l' : List β}
    (h : List.Forall₂ T l l') : List.Forall₂ T (stableSort le l) (stableSort le' l') := by
  induction h with
  | nil => exact .nil
  | cons hx _ ih => exact insertBy_forall₂ hT hx ih

theorem stableSort_map {f : α → β} (le : α → α → Bool) (le' : β → β → Bool)
    (h : ∀ a b, le' (f a) (f b) = le a b) (l : List α) :
    stableSort le' (l.map f) = (stableSort le l).map f := by
  have hl : List.Forall₂ (fun b a => b = f a) (l.map f) l :=
    List.forall₂_map_left_iff.mpr (List.forall₂_same.mpr fun a _ => rfl)
  have hsort : List.Forall₂ (fun b a => b = f a) (stableSort le' (l.map f)) (stableSort le l) :=
    stableSort_forall₂ (by rintro _ _ a b rfl rfl; exact h a b) hl
  rw [← List.forall₂_eq_eq_eq, List.forall₂_map_right_iff]
  exact hsort

/-- A total preorder. -/
structure IsPreference (le : α → α → Bool) : Prop where
  total : ∀ a b, le a b = true ∨ le b a = true
  trans : ∀ a b c, le a b = true → le b c = true → le a c = true

theorem pairwise_insertBy (hle : IsPreference le) (h : l.Pairwise fun a b => le a b = true) :
    (insertBy le x l).Pairwise fun a b => le a b = true := by
  induction l with
  | nil => simp [insertBy]
  | cons y ys ih =>
    obtain ⟨hy, hys⟩ := List.pairwise_cons.mp h
    rw [insertBy]
    split_ifs with hxy
    · refine List.pairwise_cons.mpr ⟨fun z hz => ?_, h⟩
      obtain rfl | hz := List.mem_cons.mp hz
      · exact hxy
      · exact hle.trans _ _ _ hxy (hy z hz)
    · refine List.pairwise_cons.mpr ⟨fun z hz => ?_, ih hys⟩
      obtain rfl | hz := List.mem_cons.mp ((insertBy_perm le x ys).subset hz)
      · exact (hle.total y z).resolve_right hxy
      · exact hy z hz

theorem pairwise_stableSort (hle : IsPreference le) (l : List α) :
    (stableSort le l).Pairwise fun a b => le a b = true := by
  induction l with
  | nil => exact .nil
  | cons x xs ih => exact pairwise_insertBy hle ih

theorem filter_insertBy (hle : IsPreference le) (p : α → Bool) (h : l.Pairwise fun a b => le a b = true) :
    (insertBy le x l).filter p =
      if p x then insertBy le x (l.filter p) else l.filter p := by
  induction l with
  | nil => cases hp : p x <;> simp [insertBy, hp]
  | cons y ys ih =>
    obtain ⟨hy, hys⟩ := List.pairwise_cons.mp h
    rw [insertBy]
    split_ifs with hxy hx hx
    · rw [List.filter_cons_of_pos hx, insertBy_eq_cons]
      intro z hz
      obtain rfl | hz := List.mem_cons.mp (List.mem_of_mem_filter hz)
      · exact hxy
      · exact hle.trans _ _ _ hxy (hy z hz)
    · rw [List.filter_cons_of_neg hx]
    · rw [List.filter_cons, ih hys, if_pos hx, List.filter_cons]
      split_ifs
      · rw [insertBy, if_neg hxy]
      · rfl
    · rw [List.filter_cons, ih hys, if_neg hx, List.filter_cons]

theorem filter_stableSort (hle : IsPreference le) (p : α → Bool) (l : List α) :
    (stableSort le l).filter p = stableSort le (l.filter p) := by
  induction l with
  | nil => rfl
  | cons x xs ih =>
    rw [stableSort, filter_insertBy hle p (pairwise_stableSort hle xs), ih,
      List.filter_cons]
    split_ifs <;> rfl

/-- The second list is the first one in order, and elements of the same rank stand as they stood. -/
structure StableOrder (le : α → α → Bool) (l m : List α) : Prop where
  perm : m.Perm l
  sorted : m.Pairwise fun a b => le a b = true
  stable : ∀ x ∈ l, (m.filter fun y => le x y && le y x) = l.filter fun y => le x y && le y x

theorem stableOrder_stableSort (hle : IsPreference le) (l : List α) :
    StableOrder le l (stableSort le l) where
  perm := stableSort_perm le l
  sorted := pairwise_stableSort hle l
  stable x _ := by
    rw [filter_stableSort hle]
    refine stableSort_eq_self (List.pairwise_of_forall_mem_list fun a ha b hb => ?_)
    obtain ⟨-, ha⟩ := List.mem_filter.mp ha
    obtain ⟨-, hb⟩ := List.mem_filter.mp hb
    rw [Bool.and_eq_true] at ha hb
    exact hle.trans _ _ _ ha.2 hb.1

theorem StableOrder.map {le' : β → β → Bool} {m : List α} (h : StableOrder le l m) (f : α → β)
    (hf : ∀ a ∈ l, ∀ b ∈ l, le' (f a) (f b) = le a b) : StableOrder le' (l.map f) (m.map f) where
  perm := h.perm.map f
  sorted := List.pairwise_map.mpr (h.sorted.imp_of_mem fun ha hb hab => by
    rwa [hf _ (h.perm.subset ha) _ (h.perm.subset hb)])
  stable y hy := by
    obtain ⟨x, hx, rfl⟩ := List.mem_map.mp hy
    have hfilter (k : List α) (hk : k ⊆ l) :
        ((k.map f).filter fun y => le' (f x) y && le' y (f x)) =
          (k.filter fun y => le x y && le y x).map f := by
      rw [List.filter_map]
      refine congrArg (List.map f) (List.filter_congr fun z hz => ?_)
      simp only [Function.comp_apply, hf x hx z (hk hz), hf z (hk hz) x hx]
    rw [hfilter m h.perm.subset, hfilter l (List.Subset.refl l), h.stable x hx]

/-- Both lists begin with an element that nothing precedes, and of those with the one that stands
first among its equals. -/
theorem eq_of_stable {m m' : List α} (hrefl : ∀ a ∈ m, le a a = true) (hp : m.Perm m')
    (hm : m.Pairwise fun a b => le a b = true) (hm' : m'.Pairwise fun a b => le a b = true)
    (hstable : ∀ x ∈ m,
      (m.filter fun y => le x y && le y x) = m'.filter fun y => le x y && le y x) : m = m' := by
  induction m generalizing m' with
  | nil => exact (List.nil_perm.mp hp).symm
  | cons a t ih =>
    cases m' with
    | nil => exact absurd hp.length_eq (by simp)
    | cons b t' =>
      obtain ⟨ha, ht⟩ := List.pairwise_cons.mp hm
      obtain ⟨hb, ht'⟩ := List.pairwise_cons.mp hm'
      have haa := hrefl a List.mem_cons_self
      have hab : a = b := by
        by_contra hne
        have hle : le a b = true :=
          ha b ((List.mem_cons.mp (hp.mem_iff.mpr List.mem_cons_self)).resolve_left (Ne.symm hne))
        have hge : le b a = true :=
          hb a ((List.mem_cons.mp (hp.mem_iff.mp List.mem_cons_self)).resolve_left hne)
        have hfirst := hstable a List.mem_cons_self
        simp only [List.filter_cons, haa, hle, hge, Bool.and_self, if_true, List.cons.injEq] at hfirst
        exact hne hfirst.1
      subst hab
      refine congrArg (a :: ·) (ih (fun x hx => hrefl x (List.mem_cons_of_mem a hx)) hp.cons_inv
        ht ht' fun x hx => ?_)
      have hsame := hstable x (List.mem_cons_of_mem a hx)
      rw [List.filter_cons, List.filter_cons] at hsame
      split_ifs at hsame
      · exact (List.cons.inj hsame).2
      · exact hsame

theorem StableOrder.unique {m m' : List α} (hrefl : ∀ a ∈ l, le a a = true)
    (h : StableOrder le l m) (h' : StableOrder le l m') : m = m' :=
  eq_of_stable (fun a ha => hrefl a (h.perm.subset ha)) (h.perm.trans h'.perm.symm) h.sorted h'.sorted
    fun x hx => (h.stable x (h.perm.subset hx)).trans (h'.stable x (h.perm.subset hx)).symm

end Insertion

end XamlFormat
