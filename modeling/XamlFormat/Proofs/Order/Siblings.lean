import XamlFormat.Proofs.Order.Sorting
import XamlFormat.Order.Siblings

/-! Siblings that change places. Every change moves whole clusters, so the nodes stay the same and
no two of them that were apart by an element come together. -/
namespace XamlFormat

def childTags (ns : List Node) : List Tag := ns.filterMap Node.tag?

def Node.isText : Node → Bool
  | text _ _ => true
  | _ => false

def Bare (ns : List Node) : Prop := ∀ n ∈ ns, n.tag? = none

namespace Cluster

/-- Clusters that a list of nodes can be split into. -/
def Tidy (cs : List Cluster) : Prop := ∀ c ∈ cs, Bare c.leading

theorem split_cons_bare {n : Node} (hn : n.tag? = none) (ns : List Node) :
    split (n :: ns) = match split ns with
      | ([], tail) => ([], n :: tail)
      | (c :: cs, tail) => ({ c with leading := n :: c.leading } :: cs, tail) := by
  cases n with
  | element => simp [Node.tag?] at hn
  | text | raw => rfl

theorem tidy_split (ns : List Node) : Tidy (split ns).1 ∧ Bare (split ns).2 := by
  induction ns with
  | nil => simp [split, Tidy, Bare]
  | cons n ns ih =>
    cases hn : n.tag? with
    | none =>
      rw [split_cons_bare hn]
      obtain ⟨hcs, ht⟩ := ih
      cases hs : split ns with
      | mk cs tail =>
        rw [hs] at hcs ht
        cases cs with
        | nil => exact ⟨by simp [Tidy], List.forall_mem_cons.mpr ⟨hn, ht⟩⟩
        | cons c cs =>
          obtain ⟨hc, hcs⟩ := List.forall_mem_cons.mp hcs
          exact ⟨List.forall_mem_cons.mpr ⟨List.forall_mem_cons.mpr ⟨hn, hc⟩, hcs⟩, ht⟩
    | some t =>
      cases n with
      | element tag children =>
        exact ⟨List.forall_mem_cons.mpr ⟨by simp [Bare], ih.1⟩, ih.2⟩
      | text | raw => simp [Node.tag?] at hn

theorem split_append_bare {l : List Node} (hl : Bare l) (ns : List Node) :
    split (l ++ ns) = match split ns with
      | ([], tail) => ([], l ++ tail)
      | (c :: cs, tail) => ({ c with leading := l ++ c.leading } :: cs, tail) := by
  induction l with
  | nil =>
    rw [List.nil_append]
    cases split ns with | mk cs tail => cases cs <;> rfl
  | cons n l ih =>
    obtain ⟨hn, hl⟩ := List.forall_mem_cons.mp hl
    rw [List.cons_append, split_cons_bare hn, ih hl]
    cases split ns with | mk cs tail => cases cs <;> rfl

theorem split_join {cs : List Cluster} {tail : List Node} (hcs : Tidy cs) (ht : Bare tail) :
    split (join cs tail) = (cs, tail) := by
  induction cs with
  | nil =>
    have := split_append_bare ht []
    simpa [join, split] using this
  | cons c cs ih =>
    obtain ⟨hc, hcs⟩ := List.forall_mem_cons.mp hcs
    have hjoin : join (c :: cs) tail =
        c.leading ++ .element c.tag c.children :: join cs tail := by
      simp [join, nodes]
    rw [hjoin, split_append_bare hc, split, ih hcs]
    simp

theorem filterMap_bare {ns : List Node} (h : Bare ns) : childTags ns = [] :=
  List.filterMap_eq_nil_iff.mpr h

theorem childTags_join {cs : List Cluster} {tail : List Node} (hcs : Tidy cs) (ht : Bare tail) :
    childTags (join cs tail) = cs.map Cluster.tag := by
  induction cs with
  | nil => simpa [join] using filterMap_bare ht
  | cons c cs ih =>
    obtain ⟨hc, hcs⟩ := List.forall_mem_cons.mp hcs
    have hlead := filterMap_bare hc
    have hrest := ih hcs
    simp only [childTags, join] at hlead hrest ⊢
    simp only [List.flatMap_cons, nodes, List.append_assoc, List.filterMap_append, hlead,
      List.cons_append, List.nil_append, List.map_cons]
    exact congrArg (c.tag :: ·) hrest

theorem childTags_split (ns : List Node) : childTags ns = (split ns).1.map Cluster.tag := by
  conv_lhs => rw [← join_split ns]
  exact childTags_join (tidy_split ns).1 (tidy_split ns).2

theorem join_perm {cs cs' : List Cluster} (h : cs.Perm cs') (tail : List Node) :
    (join cs tail).Perm (join cs' tail) :=
  (h.flatMap_right _).append_right _

theorem Tidy.perm {cs cs' : List Cluster} (h : Tidy cs) (hp : cs'.Perm cs) : Tidy cs' :=
  fun c hc => h c (hp.subset hc)

section Refill

variable {p : Cluster → Bool}

theorem refill_self (cs : List Cluster) : refill p cs (cs.filter p) = cs := by
  induction cs with
  | nil => rfl
  | cons c cs ih =>
    by_cases hc : p c = true
    · simp [refill, hc, ih]
    · simp [refill, hc, ih]

theorem filter_refill {cs rs : List Cluster} (hlen : rs.length = (cs.filter p).length)
    (hrs : ∀ r ∈ rs, p r = true) : (refill p cs rs).filter p = rs := by
  induction cs generalizing rs with
  | nil => simpa [refill] using (List.length_eq_zero_iff.mp hlen).symm
  | cons c cs ih =>
    by_cases hc : p c = true
    · cases rs with
      | nil => simp [hc] at hlen
      | cons r rs =>
        obtain ⟨hr, hrs⟩ := List.forall_mem_cons.mp hrs
        have := ih (by simpa [hc] using hlen) hrs
        simp [refill, hc, hr, this]
    · have := ih (by simpa [hc] using hlen) hrs
      simp [refill, hc, this]

theorem refill_perm_append {cs rs : List Cluster} (h : rs.length = (cs.filter p).length) :
    (refill p cs rs).Perm (rs ++ cs.filter fun c => !p c) := by
  induction cs generalizing rs with
  | nil => simp [refill, List.length_eq_zero_iff.mp h]
  | cons c cs ih =>
    by_cases hc : p c = true
    · cases rs with
      | nil => simp [hc] at h
      | cons r rs =>
        have hlength : rs.length = (cs.filter p).length := by simpa [hc] using h
        simpa [refill, hc] using ih hlength
    · have hlength : rs.length = (cs.filter p).length := by simpa [hc] using h
      have := ih hlength
      simp only [refill, hc, Bool.false_eq_true, if_false, Bool.not_false, List.filter_cons_of_pos]
      exact (this.cons c).trans List.perm_middle.symm

theorem refill_perm {cs rs : List Cluster} (h : rs.Perm (cs.filter p)) :
    (refill p cs rs).Perm cs :=
  (refill_perm_append h.length_eq).trans
    ((h.append_right _).trans (List.filter_append_perm p cs))

theorem refill_map {f : Cluster → Cluster} (hp : ∀ c, p (f c) = p c) (cs rs : List Cluster) :
    refill p (cs.map f) (rs.map f) = (refill p cs rs).map f := by
  induction cs generalizing rs with
  | nil => rfl
  | cons c cs ih =>
    by_cases hc : p c = true
    · cases rs with
      | nil => simpa [refill, hp, hc] using ih []
      | cons r rs => simpa [refill, hp, hc] using ih rs
    · simpa [refill, hp, hc] using ih rs

theorem map_refill {β : Type} {f : Cluster → β} {v : β} {cs rs : List Cluster}
    (hcs : ∀ c ∈ cs, p c = true → f c = v) (hrs : ∀ r ∈ rs, f r = v) :
    (refill p cs rs).map f = cs.map f := by
  induction cs generalizing rs with
  | nil => rfl
  | cons c cs ih =>
    obtain ⟨hc, hcs⟩ := List.forall_mem_cons.mp hcs
    by_cases hp : p c = true
    · cases rs with
      | nil =>
        have := @ih [] hcs (by simp)
        simp [refill, hp, this]
      | cons r rs =>
        obtain ⟨hr, hrs⟩ := List.forall_mem_cons.mp hrs
        simp [refill, hp, ih hcs hrs, hr, hc hp]
    · simp [refill, hp, ih hcs hrs]

end Refill

def Apart (ns : List Node) : Prop := ns.IsChain fun a b => ¬ (a.isText = true ∧ b.isText = true)

theorem apart_join {cs : List Cluster} {tail : List Node} :
    Apart (join cs tail) ↔ (∀ c ∈ cs, Apart c.leading) ∧ Apart tail := by
  have hlead (l ns : List Node) (t : Tag) (ms : List Node) :
      Apart (l ++ .element t ms :: ns) ↔ Apart l ∧ Apart ns := by
    rw [Apart, List.isChain_append, List.isChain_cons]
    simp [Node.isText, Apart]
  induction cs with
  | nil => simp [join]
  | cons c cs ih =>
    have hjoin : join (c :: cs) tail =
        c.leading ++ .element c.tag c.children :: join cs tail := by
      simp [join, nodes]
    rw [hjoin, hlead, List.forall_mem_cons, and_assoc]
    exact and_congr_right fun _ => ih

end Cluster

open Cluster

/-- The nodes, with the picked elements in the order of `le` among their own places. -/
def sortPicked (pick : Tag → Bool) (le : Tag → Tag → Bool) (ns : List Node) : List Node :=
  join (refill (fun c => pick c.tag) (split ns).1
    (stableSort (fun a b => le a.tag b.tag) ((split ns).1.filter fun c => pick c.tag))) (split ns).2

def keyOf {κ ε : Type} [Inhabited κ] (key : Tag → Except ε κ) (t : Tag) : κ :=
  match key t with
  | .ok k => k
  | .error _ => default

section Keys

variable {κ ε : Type}

/-- Either every cluster has its key, or the first one without is reported. -/
theorem mapM_keys_cases (key : Tag → List Node → Except ε κ) (cs : List Cluster) :
    (∃ keyed : List (κ × Cluster),
      (cs.mapM fun c => return (← key c.tag c.children, c)) = .ok keyed ∧
        keyed.map Prod.snd = cs ∧ ∀ x ∈ keyed, key x.2.tag x.2.children = .ok x.1) ∨
    ∃ before c rest e, cs = before ++ c :: rest ∧
      (∀ b ∈ before, (key b.tag b.children).isOk = true) ∧ key c.tag c.children = .error e ∧
        (cs.mapM fun c => return (← key c.tag c.children, c)) =
          (.error e : Except ε (List (κ × Cluster))) := by
  induction cs with
  | nil => exact .inl ⟨[], rfl, rfl, by simp⟩
  | cons c cs ih =>
    rw [List.mapM_cons]
    cases hc : key c.tag c.children with
    | error e => exact .inr ⟨[], c, cs, e, rfl, by simp, hc, rfl⟩
    | ok k =>
      obtain ⟨keyed, heq, hsnd, hkeys⟩ | ⟨before, d, rest, e, rfl, hbefore, hd, heq⟩ := ih
      · refine .inl ⟨(k, c) :: keyed, by simp only [heq]; rfl, by rw [List.map_cons, hsnd], ?_⟩
        exact List.forall_mem_cons.mpr ⟨hc, hkeys⟩
      · refine .inr ⟨c :: before, d, rest, e, rfl, ?_, hd, by simp only [heq]; rfl⟩
        exact List.forall_mem_cons.mpr ⟨by rw [hc]; rfl, hbefore⟩

theorem sortSiblings_cases (candidate : Tag → List Node → Bool) (key : Tag → List Node → Except ε κ)
    (order : κ → κ → Ordering) (ns : List Node) :
    (∃ keyed : List (κ × Cluster),
      keyed.map Prod.snd = (split ns).1.filter (fun c => candidate c.tag c.children) ∧
        (∀ x ∈ keyed, key x.2.tag x.2.children = .ok x.1) ∧
        sortSiblings candidate key order ns =
          (join (refill (fun c => candidate c.tag c.children) (split ns).1
            ((stableSort (fun a b => (order a.1 b.1).isLE) keyed).map Prod.snd)) (split ns).2,
            none)) ∨
    ∃ before c rest e,
      (split ns).1.filter (fun c => candidate c.tag c.children) = before ++ c :: rest ∧
        (∀ b ∈ before, (key b.tag b.children).isOk = true) ∧ key c.tag c.children = .error e ∧
        sortSiblings candidate key order ns = (ns, some e) := by
  obtain ⟨keyed, heq, hsnd, hkeys⟩ | ⟨before, c, rest, e, hcs, hbefore, hc, heq⟩ :=
    mapM_keys_cases key ((split ns).1.filter fun c => candidate c.tag c.children)
  · exact .inl ⟨keyed, hsnd, hkeys, by simp only [sortSiblings, heq]⟩
  · exact .inr ⟨before, c, rest, e, hcs, hbefore, hc, by simp only [sortSiblings, heq, join_split]⟩

/-- Siblings whose keys are known are sorted by them, others stay. -/
theorem sortSiblings_eq [Inhabited κ] (pick : Tag → Bool) (key : Tag → Except ε κ)
    (order : κ → κ → Ordering) (ns : List Node) :
    (sortSiblings (fun t _ => pick t) (fun t _ => key t) order ns).1 =
      if (childTags ns).all fun t => !pick t || (key t).isOk then
        sortPicked pick (fun a b => (order (keyOf key a) (keyOf key b)).isLE) ns
      else ns := by
  obtain ⟨keyed, hsnd, hkeys, heq⟩ | ⟨before, c, rest, e, hcs, -, hc, heq⟩ :=
    sortSiblings_cases (fun t _ => pick t) (fun t _ => key t) order ns
  · have hall : ((childTags ns).all fun t => !pick t || (key t).isOk) = true := by
      rw [childTags_split, List.all_map, List.all_eq_true]
      intro c hc
      by_cases hp : pick c.tag = true
      · have hmem : c ∈ keyed.map Prod.snd := hsnd ▸ List.mem_filter.mpr ⟨hc, hp⟩
        obtain ⟨x, hx, rfl⟩ := List.mem_map.mp hmem
        simp [hkeys x hx, Except.isOk, Except.toBool]
      · simp [hp]
    -- The keys that go along are those of the tags, so the tags can be compared instead.
    have hsorted : List.Forall₂ (fun (x : κ × Cluster) c => x.2 = c ∧ x.1 = keyOf key c.tag)
        (stableSort (fun a b => (order a.1 b.1).isLE) keyed)
        (stableSort (fun a b => (order (keyOf key a.tag) (keyOf key b.tag)).isLE)
          (keyed.map Prod.snd)) := by
      refine stableSort_forall₂ ?_ (List.forall₂_map_right_iff.mpr
        (List.forall₂_same.mpr fun x hx => ⟨rfl, by rw [keyOf, hkeys x hx]⟩))
      rintro x y _ _ ⟨rfl, hx⟩ ⟨rfl, hy⟩
      rw [hx, hy]
    have hmap : (stableSort (fun a b => (order a.1 b.1).isLE) keyed).map Prod.snd =
        stableSort (fun a b => (order (keyOf key a.tag) (keyOf key b.tag)).isLE)
          (keyed.map Prod.snd) := by
      rw [← List.forall₂_eq_eq_eq, List.forall₂_map_left_iff]
      exact hsorted.imp fun x c hx => hx.1
    rw [heq, if_pos hall, hmap, hsnd]
    rfl
  · have hmem : c ∈ (split ns).1.filter fun c => pick c.tag := by simp [hcs]
    obtain ⟨hmem, hp⟩ := List.mem_filter.mp hmem
    have hall : ¬ ((childTags ns).all fun t => !pick t || (key t).isOk) = true := by
      rw [childTags_split, List.all_map, List.all_eq_true]
      intro h
      have := h c hmem
      simp [hp, hc, Except.isOk, Except.toBool] at this
    rw [heq, if_neg hall]

end Keys

/-- The second list has the clusters of the first in some order. -/
def Rearranged (ns ms : List Node) : Prop :=
  ∃ cs, cs.Perm (split ns).1 ∧ ms = join cs (split ns).2

namespace Rearranged

variable {ns ms ls : List Node}

theorem refl (ns : List Node) : Rearranged ns ns := ⟨_, .refl _, (join_split ns).symm⟩

theorem split_eq (h : Rearranged ns ms) :
    (split ms).1.Perm (split ns).1 ∧ (split ms).2 = (split ns).2 := by
  obtain ⟨cs, hp, rfl⟩ := h
  obtain ⟨hcs, ht⟩ := tidy_split ns
  rw [split_join (hcs.perm hp) ht]
  exact ⟨hp, rfl⟩

theorem trans (h : Rearranged ns ms) (h' : Rearranged ms ls) : Rearranged ns ls := by
  obtain ⟨hp, ht⟩ := h.split_eq
  obtain ⟨cs, hcs, rfl⟩ := h'
  exact ⟨cs, hcs.trans hp, by rw [ht]⟩

theorem perm (h : Rearranged ns ms) : ms.Perm ns := by
  obtain ⟨cs, hp, rfl⟩ := h
  exact (join_perm hp _).trans (.of_eq (join_split ns))

theorem childTags_perm (h : Rearranged ns ms) : (childTags ms).Perm (childTags ns) :=
  h.perm.filterMap _

theorem apart (h : Rearranged ns ms) (ha : Apart ns) : Apart ms := by
  obtain ⟨cs, hp, rfl⟩ := h
  rw [← join_split ns, apart_join] at ha
  exact apart_join.mpr ⟨fun c hc => ha.1 c (hp.subset hc), ha.2⟩

end Rearranged

section Picked

variable {pick : Tag → Bool} {le : Tag → Tag → Bool} (ns : List Node)

theorem rearranged_sortPicked : Rearranged ns (sortPicked pick le ns) :=
  ⟨_, refill_perm (stableSort_perm _ _), rfl⟩

theorem childTags_sortPicked : childTags (sortPicked pick le ns) =
    (refill (fun c => pick c.tag) (split ns).1 (stableSort (fun a b => le a.tag b.tag)
      ((split ns).1.filter fun c => pick c.tag))).map Cluster.tag :=
  childTags_join ((tidy_split ns).1.perm (refill_perm (stableSort_perm _ _))) (tidy_split ns).2

theorem filter_sortPicked : (childTags (sortPicked pick le ns)).filter pick =
    stableSort le ((childTags ns).filter pick) := by
  have hpicked : ∀ c ∈ stableSort (fun a b : Cluster => le a.tag b.tag)
      ((split ns).1.filter fun c => pick c.tag), pick c.tag = true := fun c hc =>
    (List.mem_filter.mp ((stableSort_perm _ _).subset hc)).2
  rw [childTags_sortPicked, List.filter_map, Function.comp_def,
    filter_refill (length_stableSort _ _) hpicked, childTags_split, List.filter_map,
    Function.comp_def, ← List.forall₂_eq_eq_eq, List.forall₂_map_left_iff]
  refine stableSort_forall₂ (by rintro a b _ _ rfl rfl; rfl) ?_
  exact List.forall₂_map_right_iff.mpr (List.forall₂_same.mpr fun c _ => rfl)

/-- What the picked elements share does not change in any place. -/
theorem map_sortPicked {β : Type} {f : Tag → β} {v : β}
    (h : ∀ t ∈ childTags ns, pick t = true → f t = v) :
    (childTags (sortPicked pick le ns)).map f = (childTags ns).map f := by
  rw [childTags_split] at h
  rw [childTags_sortPicked, childTags_split, List.map_map, List.map_map]
  have hv : ∀ c ∈ (split ns).1, pick c.tag = true → f c.tag = v := fun c hc =>
    h c.tag (List.mem_map_of_mem hc)
  refine map_refill (v := v) hv fun c hc => ?_
  obtain ⟨hc, hp⟩ := List.mem_filter.mp ((stableSort_perm _ _).subset hc)
  exact hv c hc hp

theorem sortPicked_eq_self (h : ((childTags ns).filter pick).Pairwise fun a b => le a b = true) :
    sortPicked pick le ns = ns := by
  rw [childTags_split, List.filter_map, List.pairwise_map, Function.comp_def] at h
  rw [sortPicked, stableSort_eq_self h]
  exact (congrArg (join · _) (refill_self _)).trans (join_split ns)

end Picked
end XamlFormat
