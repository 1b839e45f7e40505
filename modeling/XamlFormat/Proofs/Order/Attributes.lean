import XamlFormat.Proofs.Lists
import XamlFormat.Proofs.Order.Classification
import XamlFormat.Proofs.Order.Sorting
import XamlFormat.Order.Attributes

/-! What ordering the attributes of a tag computes: they are sorted by keys that are compared part
by part, and then those of the first line are taken out. -/
namespace XamlFormat

namespace Ranked

def nameKey (byName : Bool) (r : Ranked) : Chars := if byName && r.rank.matched then r.name else []

/-- The order of attributes without their positions. -/
def preference (byName : Bool) : Ranked → Ranked → Ordering :=
  compareLex (compareOn fun r => r.rank.group)
    (compareLex (compareOn fun r => r.rank.priority) (compareOn (nameKey byName)))

/-- Positions decide between names of the same preference. -/
theorem order_eq {byName : Bool} {a b : Ranked}
    (h : a.rank.group = b.rank.group → a.rank.matched = b.rank.matched) :
    order byName a b = (preference byName a b).then (compare a.item.index b.item.index) := by
  simp only [order, preference, compareLex, compareOn, Ordering.then_assoc]
  by_cases hg : a.rank.group = b.rank.group
  · rw [hg]
    congr 3
    simp only [nameKey, h hg]
    cases byName <;> cases b.rank.matched <;> simp
  · have hne : compare a.rank.group b.rank.group ≠ .eq := by simpa using hg
    cases hc : compare a.rank.group b.rank.group <;> simp_all

end Ranked

def DistinctNames (l : List Attribute) : Prop := (l.map fun a => a.name.written).Nodup

instance (l : List Attribute) : Decidable (DistinctNames l) :=
  inferInstanceAs (Decidable (l.map fun a => a.name.written).Nodup)

theorem DistinctNames.filter {l : List Attribute} (h : DistinctNames l) (p : Attribute → Bool) :
    DistinctNames (l.filter p) :=
  (List.filter_sublist.map _).nodup h

theorem DistinctNames.perm {l l' : List Attribute} (h : DistinctNames l) (hp : l.Perm l') :
    DistinctNames l' :=
  (hp.map _).nodup_iff.mp h

theorem DistinctNames.eq {l : List Attribute} (h : DistinctNames l) {a b : Attribute} (ha : a ∈ l)
    (hb : b ∈ l) (hn : a.name.written = b.name.written) : a = b :=
  List.inj_on_of_nodup_map h ha hb hn

theorem DistinctNames.eq_of_names {l l₁ l₂ : List Attribute} (h : DistinctNames l) (h₁ : l₁ ⊆ l)
    (h₂ : l₂ ⊆ l)
    (hn : (l₁.map fun a => a.name.written) = l₂.map fun a => a.name.written) : l₁ = l₂ := by
  induction l₁ generalizing l₂ with
  | nil => exact (List.map_eq_nil_iff.mp hn.symm).symm
  | cons a l₁ ih =>
    cases l₂ with
    | nil => cases hn
    | cons b l₂ =>
      obtain ⟨ha, h₁⟩ := List.cons_subset.mp h₁
      obtain ⟨hb, h₂⟩ := List.cons_subset.mp h₂
      obtain ⟨hab, hn⟩ := List.cons_eq_cons.mp hn
      rw [h.eq ha hb hab, ih h₁ h₂ hn]

theorem filter_eraseDups (p : Chars → Bool) (names : List Chars) :
    (names.filter p).eraseDups = names.eraseDups.filter p := by
  induction hn : names.length using Nat.strongRecOn generalizing names with
  | ind n ih =>
    cases names with
    | nil => rfl
    | cons name names =>
      have hlength : (names.filter fun x => !x == name).length < n := by
        have := List.length_filter_le (fun x => !x == name) names
        simp only [List.length_cons] at hn
        omega
      have hrest := ih _ hlength _ rfl
      rw [List.eraseDups_cons, List.filter_cons, List.filter_cons, ← hrest, List.filter_filter]
      split_ifs with hp
      · rw [List.eraseDups_cons, List.filter_filter]
        simp only [Bool.and_comm]
      · congr 1
        refine List.filter_congr fun x _ => ?_
        by_cases hx : x = name <;> simp_all

section TakeNamed

variable {l l' : List Attribute}

theorem eraseP_named (h : DistinctNames l) (name : Chars) :
    (l.eraseP fun a => a.name.written == name) = l.filter fun a => !(a.name.written == name) := by
  induction l with
  | nil => rfl
  | cons a as ih =>
    obtain ⟨ha, has⟩ := List.nodup_cons.mp h
    rw [List.eraseP_cons, List.filter_cons]
    by_cases hn : a.name.written = name
    · have hrest : ∀ b ∈ as, !(b.name.written == name) := by
        intro b hb
        have hbn : b.name.written ≠ name := by
          intro hbn
          exact ha (List.mem_map.mpr ⟨b, hb, hbn.trans hn.symm⟩)
        simpa using hbn
      simp [hn, List.filter_eq_self.mpr hrest]
    · have hbeq : (a.name.written == name) = false := by simpa using hn
      simp [hbeq, ih has]

/-- What is left are the attributes with other names, in their order. -/
theorem takeNamed_snd (names : List Chars) (h : DistinctNames l) :
    (takeNamed names l).2 = l.filter fun a => !names.contains a.name.written := by
  induction names generalizing l with
  | nil => simp [takeNamed]
  | cons name names ih =>
    rw [takeNamed]
    split
    · rw [eraseP_named h, ih (h.filter _), List.filter_filter]
      refine List.filter_congr fun a _ => ?_
      by_cases hn : a.name.written = name <;> simp [hn]
    · rename_i hf
      rw [List.find?_eq_none] at hf
      rw [ih h]
      refine List.filter_congr fun a ha => ?_
      have hn := hf a ha
      simp only [beq_iff_eq] at hn
      simp [hn]

/-- The attributes that are taken are those with one of the names, in the order in which the names
are mentioned first. -/
theorem takeNamed_fst_names (names : List Chars) (h : DistinctNames l) :
    (takeNamed names l).1.map (fun a => a.name.written) =
      names.eraseDups.filter fun name => name ∈ l.map fun a => a.name.written := by
  induction names generalizing l with
  | nil => rfl
  | cons name names ih =>
    -- What is searched next is the list without `name`, whether or not it was found.
    have hrest {l' : List Attribute} (hl' : ∀ x, x ∈ l'.map (fun a => a.name.written) ↔
        x ∈ l.map (fun a => a.name.written) ∧ x ≠ name) :
        (names.filter fun x => !x == name).eraseDups.filter
            (fun x => x ∈ l.map fun a => a.name.written) =
          names.eraseDups.filter fun x => x ∈ l'.map fun a => a.name.written := by
      rw [filter_eraseDups, List.filter_filter]
      refine List.filter_congr fun x _ => ?_
      simp only [hl', ne_eq, Bool.decide_and, decide_not, beq_eq_decide]
    rw [takeNamed, List.eraseDups_cons, List.filter_cons]
    split
    · rename_i a hf
      have hname : a.name.written = name := by simpa using List.find?_some hf
      have hmem : name ∈ l.map fun a => a.name.written :=
        List.mem_map.mpr ⟨a, List.mem_of_find?_eq_some hf, hname⟩
      rw [if_pos (by simpa using hmem), eraseP_named h, List.map_cons, hname, ih (h.filter _),
        hrest]
      intro x
      simp only [List.mem_map, List.mem_filter, Bool.not_eq_true', beq_eq_false_iff_ne]
      constructor
      · rintro ⟨b, ⟨hb, hne⟩, rfl⟩
        exact ⟨⟨b, hb, rfl⟩, hne⟩
      · rintro ⟨⟨b, hb, rfl⟩, hne⟩
        exact ⟨b, ⟨hb, hne⟩, rfl⟩
    · rename_i hf
      have hnone : name ∉ l.map fun a => a.name.written := by
        simpa [List.find?_eq_none] using hf
      rw [if_neg (by simpa using hnone), ih h, hrest]
      intro x
      exact ⟨fun hx => ⟨hx, fun heq => hnone (heq ▸ hx)⟩, And.left⟩

theorem takeNamed_perm (names : List Chars) (l : List Attribute) :
    ((takeNamed names l).1 ++ (takeNamed names l).2).Perm l := by
  induction names generalizing l with
  | nil => exact .refl _
  | cons name names ih =>
    rw [takeNamed]
    split
    · rename_i a hf
      obtain ⟨hn, as, bs, rfl, has⟩ := List.find?_eq_some_iff_append.mp hf
      refine ((ih _).cons a).trans ?_
      rw [List.eraseP_append_right _ (by simpa using has), List.eraseP_cons, hn]
      exact List.perm_middle.symm
    · exact ih l

theorem forall₂_find {T : Attribute → Attribute → Prop}
    (hT : ∀ a b, T a b → b.name.written = a.name.written) (h : List.Forall₂ T l l') (name : Chars) :
    (l.find? (fun a => a.name.written == name) = none ∧
        l'.find? (fun a => a.name.written == name) = none) ∨
      ∃ a b, l.find? (fun a => a.name.written == name) = some a ∧
        l'.find? (fun a => a.name.written == name) = some b ∧ T a b ∧
        List.Forall₂ T (l.eraseP fun a => a.name.written == name)
          (l'.eraseP fun a => a.name.written == name) := by
  induction h with
  | nil => exact .inl ⟨rfl, rfl⟩
  | @cons a b as bs hab h ih =>
    have hn := hT a b hab
    by_cases ha : a.name.written = name
    · exact .inr ⟨a, b, by simp [ha], by simp [hn, ha], hab, by simpa [hn, ha] using h⟩
    · have ha' : (a.name.written == name) = false := by simpa using ha
      obtain ⟨h1, h2⟩ | ⟨x, y, h1, h2, hxy, he⟩ := ih
      · exact .inl ⟨by simp [ha', h1], by simp [hn, ha', h2]⟩
      · exact .inr ⟨x, y, by simp [ha', h1], by simp [hn, ha', h2], hxy,
          by simpa [hn, ha'] using ⟨hab, he⟩⟩

theorem forall₂_takeNamed (names : List Chars) {T : Attribute → Attribute → Prop}
    (hT : ∀ a b, T a b → b.name.written = a.name.written) (h : List.Forall₂ T l l') :
    List.Forall₂ T (takeNamed names l).1 (takeNamed names l').1 ∧
      List.Forall₂ T (takeNamed names l).2 (takeNamed names l').2 := by
  induction names generalizing l l' with
  | nil => exact ⟨.nil, h⟩
  | cons name names ih =>
    rw [takeNamed, takeNamed]
    obtain ⟨h1, h2⟩ | ⟨a, b, h1, h2, hab, he⟩ := forall₂_find hT h name
    · rw [h1, h2]
      exact ih h
    · rw [h1, h2]
      exact ⟨.cons hab (ih he).1, (ih he).2⟩

end TakeNamed

theorem compare_chars_eq_lt {a b : Chars} : compare a b = .lt ↔ a < b := by
  induction a generalizing b with
  | nil => cases b <;> simp
  | cons c a ih =>
    cases b with
    | nil => simp
    | cons d b =>
      rw [List.compare_cons_cons, Ordering.then_eq_lt, compare_lt_iff_lt, compare_eq_iff_eq, ih,
        List.cons_lt_cons_iff]

section Keys

variable (rules : OrderingRules) (s : Settings) (design : List Chars)

namespace Attribute

def grouped (a : Attribute) : Attribute :=
  { a with group := (rules.classify (a.matchingName s design)).group }

/-- What an attribute is ordered by: its group, the pattern within the group, and its name where
names count. -/
def standing (a : Attribute) : Nat ×ₗ Nat ×ₗ Chars :=
  let name := a.matchingName s design
  let rank := rules.classify name
  toLex (rank.group, toLex (rank.priority,
    if s.orderAttributesByName && rank.matched then name else []))

/-- Attributes of the same standing are ordered by their positions. -/
def sortKey (a : Attribute) : (Nat ×ₗ Nat ×ₗ Chars) ×ₗ Nat :=
  toLex (a.standing rules s design, a.index)

def comesFirst (a b : Attribute) : Bool := a.sortKey rules s design ≤ b.sortKey rules s design

theorem comesFirst_iff {a b : Attribute} : comesFirst rules s design a b = true ↔
    a.standing rules s design < b.standing rules s design ∨
      a.standing rules s design = b.standing rules s design ∧ a.index ≤ b.index := by
  rw [comesFirst, decide_eq_true_eq, sortKey, sortKey, Prod.Lex.toLex_le_toLex]

theorem comesFirst_renumbered {a b : Attribute} {i j : Nat} (hij : i ≤ j)
    (h : comesFirst rules s design a b = true) :
    comesFirst rules s design { a with index := i } { b with index := j } = true := by
  rw [comesFirst_iff] at h ⊢
  exact h.imp_right fun ⟨heq, _⟩ => ⟨heq, hij⟩

theorem isPreference_comesFirst : IsPreference (comesFirst rules s design) where
  total a b := by
    simp only [comesFirst, decide_eq_true_eq]
    exact le_total _ _
  trans a b c := by
    simp only [comesFirst, decide_eq_true_eq]
    exact le_trans

section Comparison

variable {rules s design}

theorem preference_eq_lt {a b : Attribute} :
    Ranked.preference s.orderAttributesByName (a.ranked rules s design)
        (b.ranked rules s design) = .lt ↔
      a.standing rules s design < b.standing rules s design := by
  simp only [Ranked.preference, compareLex, compareOn, Ordering.then_eq_lt, Nat.compare_eq_lt,
    Nat.compare_eq_eq, compare_chars_eq_lt, standing, Prod.Lex.toLex_lt_toLex]
  rfl

theorem preference_eq_eq {a b : Attribute} :
    Ranked.preference s.orderAttributesByName (a.ranked rules s design)
        (b.ranked rules s design) = .eq ↔
      a.standing rules s design = b.standing rules s design := by
  simp only [Ranked.preference, compareLex, compareOn, Ordering.then_eq_eq, Std.compare_eq_iff_eq,
    standing, EmbeddingLike.apply_eq_iff_eq, Prod.mk.injEq]
  rfl

end Comparison

theorem precedes_ranked (groups : List Chars) (a b : Attribute) :
    Ranked.precedes s.orderAttributesByName (a.ranked (.ofGroups groups) s design)
      (b.ranked (.ofGroups groups) s design) = comesFirst (.ofGroups groups) s design a b := by
  have hmatched : (a.ranked (.ofGroups groups) s design).rank.group =
      (b.ranked (.ofGroups groups) s design).rank.group →
      (a.ranked (.ofGroups groups) s design).rank.matched =
        (b.ranked (.ofGroups groups) s design).rank.matched := by
    intro hg
    have hm := OrderingRules.classify_matched groups
    simp only [Attribute.ranked] at hg ⊢
    rw [hm, hm, hg]
  rw [Bool.eq_iff_iff, Ranked.precedes, Ranked.order_eq hmatched, Ordering.isLE_then_iff_or,
    preference_eq_lt, preference_eq_eq, Nat.isLE_compare, comesFirst_iff]
  rfl

end Attribute

theorem DistinctNames.grouped {l : List Attribute} (h : DistinctNames l) :
    DistinctNames (l.map (Attribute.grouped rules s design)) := by
  simpa [DistinctNames, Function.comp_def, Attribute.grouped] using h

end Keys

section Place

variable (groups : List Chars) (s : Settings) (design : List Chars)

/-- Attributes in the order of their keys, where the settings ask for an order. -/
def placeAttributes (l : List Attribute) : List Attribute :=
  if s.enableAttributeReordering then
    stableSort (Attribute.comesFirst (.ofGroups groups) s design) l
  else l

theorem placeAttributes_perm (l : List Attribute) : (placeAttributes groups s design l).Perm l := by
  unfold placeAttributes
  split_ifs
  · exact stableSort_perm _ _
  · exact .refl _

theorem filter_placeAttributes (p : Attribute → Bool) (l : List Attribute) :
    (placeAttributes groups s design l).filter p =
      placeAttributes groups s design (l.filter p) := by
  unfold placeAttributes
  split_ifs
  · exact filter_stableSort (Attribute.isPreference_comesFirst _ s design) p l
  · rfl

/-- Ordering is sorting by keys and taking out the names of the first line. -/
theorem orderAttributes_eq_place (t : Tag) :
    let split := takeNamed s.firstLineAttributes (placeAttributes groups s design
      (t.attributes.map (Attribute.grouped (.ofGroups groups) s design)))
    t.orderAttributes (.ofGroups groups) s design =
      { t with attributes := split.1 ++ split.2, pinned := split.1.length } := by
  intro split
  let le := Attribute.comesFirst (.ofGroups groups) s design
  have hsorted : (if s.enableAttributeReordering then
      stableSort (Ranked.precedes s.orderAttributesByName)
        (t.attributes.map (Attribute.ranked (.ofGroups groups) s design))
      else t.attributes.map (Attribute.ranked (.ofGroups groups) s design)).map Ranked.item =
        placeAttributes groups s design
          (t.attributes.map (Attribute.grouped (.ofGroups groups) s design)) := by
    have hitem : Ranked.item ∘ Attribute.ranked (.ofGroups groups) s design =
        Attribute.grouped (.ofGroups groups) s design := rfl
    unfold placeAttributes
    split_ifs
    · rw [stableSort_map le _ (Attribute.precedes_ranked s design groups), List.map_map, hitem]
      exact (stableSort_map (f := Attribute.grouped (.ofGroups groups) s design) le le
        (fun _ _ => rfl) t.attributes).symm
    · rw [List.map_map, hitem]
  rw [Tag.orderAttributes]
  simp only [hsorted, split]

end Place

end XamlFormat
