import XamlFormat.Order.Children
import XamlFormat.Proofs.Order.Siblings

/-! Sorting some of the siblings. The candidates are put in the one stable order of their keys, among
the places where candidates stood; every other cluster, the number of clusters and the tail stay.
Where a candidate has no key nothing moves. -/
namespace XamlFormat

namespace Cluster

/-- The nodes are the clusters, each an element and the other nodes directly before it, and behind
them a tail without elements. -/
structure Clustered (ns : List Node) (cs : List Cluster) (tail : List Node) : Prop where
  nodes : ns = join cs tail
  tidy : Tidy cs
  bare : Bare tail

theorem Clustered.split_eq {ns tail : List Node} {cs : List Cluster} (h : Clustered ns cs tail) :
    split ns = (cs, tail) := by
  rw [h.nodes, split_join h.tidy h.bare]

def places (p : Cluster → Bool) (cs : List Cluster) : List Nat :=
  (List.range cs.length).filter fun i => cs[i]?.any p

def readAt (is : List Nat) (cs : List Cluster) : List Cluster := is.filterMap fun i => cs[i]?

section Refill

variable {p : Cluster → Bool}

theorem places_cons (c : Cluster) (cs : List Cluster) :
    places p (c :: cs) = (if p c then [0] else []) ++ (places p cs).map (· + 1) := by
  have htail : ((List.range cs.length).map Nat.succ).filter (fun i => (c :: cs)[i]?.any p) =
      (places p cs).map (· + 1) := by
    rw [List.filter_map]
    rfl
  rw [places, List.length_cons, List.range_succ_eq_map, List.filter_cons, htail]
  cases hc : p c <;> simp [hc]

theorem readAt_map_succ (is : List Nat) (c : Cluster) (cs : List Cluster) :
    readAt (is.map (· + 1)) (c :: cs) = readAt is cs := by
  simp [readAt, List.filterMap_map]

theorem getElem?_refill {cs : List Cluster} (rs : List Cluster) {i : Nat} {c : Cluster}
    (hi : cs[i]? = some c) (hc : p c = false) : (refill p cs rs)[i]? = some c := by
  induction cs generalizing rs i with
  | nil => simp at hi
  | cons d cs ih =>
    cases i with
    | zero =>
      obtain rfl : d = c := by simpa using hi
      simp [refill, hc]
    | succ i =>
      have hi : cs[i]? = some c := by simpa using hi
      by_cases hd : p d = true
      · cases rs with
        | nil => simpa [refill, hd] using ih [] hi
        | cons r rs => simpa [refill, hd] using ih rs hi
      · simpa [refill, hd] using ih rs hi

theorem readAt_places_refill {cs rs : List Cluster} (h : rs.length = (cs.filter p).length) :
    readAt (places p cs) (refill p cs rs) = rs := by
  induction cs generalizing rs with
  | nil => simpa [readAt, places] using (List.length_eq_zero_iff.mp h).symm
  | cons c cs ih =>
    rw [places_cons]
    by_cases hc : p c = true
    · cases rs with
      | nil => simp [hc] at h
      | cons r rs =>
        have hlength : rs.length = (cs.filter p).length := by simpa [hc] using h
        have hrest := ih hlength
        have hread := readAt_map_succ (places p cs) r (refill p cs rs)
        simp only [readAt] at hrest hread
        simp [refill, hc, readAt, hread, hrest]
    · have hlength : rs.length = (cs.filter p).length := by simpa [hc] using h
      have hrest := ih hlength
      have hread := readAt_map_succ (places p cs) c (refill p cs rs)
      simp only [readAt] at hrest hread
      simp [refill, hc, readAt, hread, hrest]

end Refill

end Cluster

open Cluster

/-- Both clusters have keys, and that of the first is not behind that of the second. -/
def keyLE {κ ε : Type} (key : Tag → List Node → Except ε κ) (order : κ → κ → Ordering)
    (a b : Cluster) : Bool :=
  match key a.tag a.children, key b.tag b.children with
  | .ok k, .ok l => (order k l).isLE
  | _, _ => false

section Keyed

variable {κ ε : Type} {key : Tag → List Node → Except ε κ} {order : κ → κ → Ordering}

theorem isPreference_fst [Std.TransCmp order] :
    IsPreference fun a b : κ × Cluster => (order a.1 b.1).isLE := by
  refine ⟨fun a b => ?_, fun a b c => Std.TransCmp.isLE_trans⟩
  have hswap : order b.1 a.1 = (order a.1 b.1).swap := Std.OrientedCmp.eq_swap
  rw [hswap]
  cases order a.1 b.1 <;> simp

/-- Clusters that carry their keys are sorted as the clusters themselves. -/
theorem stableOrder_keyed (order : κ → κ → Ordering) [Std.TransCmp order] {keyed : List (κ × Cluster)}
    (h : ∀ x ∈ keyed, key x.2.tag x.2.children = .ok x.1) :
    StableOrder (keyLE key order) (keyed.map Prod.snd)
      ((stableSort (fun a b => (order a.1 b.1).isLE) keyed).map Prod.snd) := by
  refine (stableOrder_stableSort isPreference_fst keyed).map Prod.snd fun a ha b hb => ?_
  simp only [keyLE, h a ha, h b hb]

theorem keyLE_refl [Std.TransCmp order] {c : Cluster} (h : (key c.tag c.children).isOk = true) :
    keyLE key order c c = true := by
  cases hk : key c.tag c.children with
  | error => simp [hk, Except.isOk, Except.toBool] at h
  | ok k => simp [keyLE, hk, Std.ReflCmp.compare_self]

end Keyed

/-- Sorting siblings is a stable sort that is confined to the places of the candidates. It leaves
everything as it is where a candidate has no key, and reports the first of those. -/
theorem sortSiblings_confined {κ ε : Type} (candidate : Tag → List Node → Bool)
    (key : Tag → List Node → Except ε κ) (order : κ → κ → Ordering) [Std.TransCmp order]
    {ns tail : List Node} {cs : List Cluster} (h : Clustered ns cs tail) :
    let picks (c : Cluster) : Bool := candidate c.tag c.children
    ((∀ c ∈ cs, picks c = true → (key c.tag c.children).isOk = true) →
      ∃ ms ds, sortSiblings candidate key order ns = (ms, none) ∧ Clustered ms ds tail ∧
        ds.length = cs.length ∧
        (∀ (i : Nat) c, cs[i]? = some c → picks c = false → ds[i]? = some c) ∧
        StableOrder (keyLE key order) (cs.filter picks) (readAt (places picks cs) ds) ∧
        ∀ sorted, StableOrder (keyLE key order) (cs.filter picks) sorted →
          readAt (places picks cs) ds = sorted) ∧
    ((∃ c ∈ cs, picks c = true ∧ (key c.tag c.children).isOk = false) →
      ∃ before c rest e, cs.filter picks = before ++ c :: rest ∧
        (∀ b ∈ before, (key b.tag b.children).isOk = true) ∧ key c.tag c.children = .error e ∧
        sortSiblings candidate key order ns = (ns, some e)) := by
  intro picks
  have hcases := sortSiblings_cases candidate key order ns
  rw [h.split_eq] at hcases
  obtain ⟨keyed, hsnd, hkeys, heq⟩ | ⟨before, c, rest, e, hcs, hbefore, hc, heq⟩ := hcases
  · have hpicked : ∀ c ∈ cs, picks c = true → (key c.tag c.children).isOk = true := by
      intro c hc hp
      have hmem : c ∈ keyed.map Prod.snd := hsnd ▸ List.mem_filter.mpr ⟨hc, hp⟩
      obtain ⟨x, hx, rfl⟩ := List.mem_map.mp hmem
      rw [hkeys x hx]
      rfl
    constructor
    · intro _
      have hstable := stableOrder_keyed order hkeys
      rw [hsnd] at hstable
      generalize (stableSort (fun a b => (order a.1 b.1).isLE) keyed).map Prod.snd = sorted
        at heq hstable
      have hperm : (refill picks cs sorted).Perm cs := refill_perm hstable.perm
      refine ⟨_, refill picks cs sorted, heq, ⟨rfl, h.tidy.perm hperm, h.bare⟩, hperm.length_eq,
        fun i c => getElem?_refill sorted, ?_⟩
      rw [readAt_places_refill hstable.perm.length_eq]
      refine ⟨hstable, fun _ => hstable.unique fun c hc => ?_⟩
      obtain ⟨hc, hp⟩ := List.mem_filter.mp hc
      exact keyLE_refl (hpicked c hc hp)
    · rintro ⟨c, hc, hp, hk⟩
      rw [hpicked c hc hp] at hk
      cases hk
  · have hmem : c ∈ cs.filter picks := hcs ▸ List.mem_append_right before List.mem_cons_self
    obtain ⟨hmem, hp⟩ := List.mem_filter.mp hmem
    constructor
    · intro hall
      have := hall c hmem hp
      rw [hc] at this
      cases this
    · intro _
      exact ⟨before, c, rest, e, hcs, hbefore, hc, heq⟩

def rowSample (name row : String) : Cluster where
  leading := [.raw .comment name.toList ⟨0, 0⟩]
  children := []
  tag :=
    { name := .ofChars name.toList
      attributes := [⟨.ofChars "Grid.Row".toList, row.toList, 0, 0, 0, none⟩]
      selfClosing := true
      preserveSpace := false
      firstLine := 1
      span := ⟨0, 0⟩ }

theorem clustered_rowSamples (rows : List (String × String)) :
    Clustered (join (rows.map fun r => rowSample r.1 r.2) []) (rows.map fun r => rowSample r.1 r.2)
      [] where
  nodes := rfl
  tidy c hc := by
    obtain ⟨r, -, rfl⟩ := List.mem_map.mp hc
    simp [rowSample, Bare, Node.tag?]
  bare := by simp [Bare]

/-- Two children of a grid change places around one that sets a property. Where a row is no number,
none of them moves. -/
theorem sortSiblings_confined_sample :
    (∃ ms ds, sortSiblings (fun t _ => isPositioned t) (fun t _ => gridKey t) compare
        (join [rowSample "B" "1", rowSample "Grid.R" "x", rowSample "A" "0"] []) = (ms, none) ∧
      Clustered ms ds [] ∧ ds.length = 3 ∧ ds[1]? = some (rowSample "Grid.R" "x") ∧
      readAt [0, 2] ds = [rowSample "A" "0", rowSample "B" "1"]) ∧
    ∃ e, sortSiblings (fun t _ => isPositioned t) (fun t _ => gridKey t) compare
        (join [rowSample "B" "1", rowSample "A" "x"] []) =
      (join [rowSample "B" "1", rowSample "A" "x"] [], some e) := by
  have hab : keyLE (fun t _ => gridKey t) compare (rowSample "A" "0") (rowSample "B" "1") = true := by
    decide +kernel
  have hba : keyLE (fun t _ => gridKey t) compare (rowSample "B" "1") (rowSample "A" "0") = false := by
    decide +kernel
  have hsorted : StableOrder (keyLE (fun t _ => gridKey t) compare)
      [rowSample "B" "1", rowSample "A" "0"] [rowSample "A" "0", rowSample "B" "1"] := by
    refine ⟨.swap _ _ _, by simpa using hab, fun x hx => ?_⟩
    obtain rfl | rfl : x = rowSample "B" "1" ∨ x = rowSample "A" "0" := by simpa using hx
    · simp [List.filter_cons, hba]
    · simp [List.filter_cons, hba]
  constructor
  · obtain ⟨ms, ds, heq, hclustered, hlength, hstay, -, hunique⟩ :=
      (sortSiblings_confined (fun t _ => isPositioned t) (fun t _ => gridKey t) compare
        (clustered_rowSamples [("B", "1"), ("Grid.R", "x"), ("A", "0")])).1 (by decide +kernel)
    exact ⟨ms, ds, heq, hclustered, hlength, hstay 1 _ rfl (by decide), hunique _ hsorted⟩
  · obtain ⟨-, -, -, e, -, -, -, heq⟩ :=
      (sortSiblings_confined (fun t _ => isPositioned t) (fun t _ => gridKey t) compare
        (clustered_rowSamples [("B", "1"), ("A", "x")])).2
        ⟨rowSample "A" "x", by simp, by decide +kernel, by decide +kernel⟩
    exact ⟨e, heq⟩

end XamlFormat
