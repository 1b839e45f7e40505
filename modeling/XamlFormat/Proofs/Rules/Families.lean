import XamlFormat.Proofs.Layout.Fidelity
import XamlFormat.Proofs.Order.Children
import XamlFormat.Proofs.Rules.Tidy

/-! What the settings do to the tree. An element is told by where it starts in the source: none is
lost, doubled or moved to another parent, and siblings that change places take with them what stands
directly before them. -/
namespace XamlFormat

open Cluster Text

/-- An element, its children, and where its parent starts, if it has one. -/
structure Family where
  parent : Option Nat
  tag : Tag
  children : List Node

def Family.start (f : Family) : Nat := f.tag.span.start

mutual

/-- The families of a node whose parent starts at `parent`, in document order. -/
def Node.families (parent : Option Nat) : Node → List Family
  | .element t ns => ⟨parent, t, ns⟩ :: familiesList (some t.span.start) ns
  | .text _ _ => []
  | .raw _ _ _ => []

def familiesList (parent : Option Nat) : List Node → List Family
  | [] => []
  | n :: ns => n.families parent ++ familiesList parent ns

end

def Document.families (d : Document) : List Family := familiesList none d.nodes

/-- A child as its parent sees it: an element by where it starts, any other node by itself. -/
def Node.identity : Node → Nat ⊕ Node
  | .element t _ => .inl t.span.start
  | .text v sp => .inr (.text v sp)
  | .raw k c sp => .inr (.raw k c sp)

def outline (ns : List Node) : List (Nat ⊕ Node) := ns.map Node.identity

/-- What stands behind the last element. -/
def lastRun (l : List (Nat ⊕ Node)) : List (Nat ⊕ Node) := l.rtakeWhile Sum.isRight

/-- What stands between the element that starts at `start` and the element before it. -/
def runBefore (start : Nat) (l : List (Nat ⊕ Node)) : List (Nat ⊕ Node) :=
  lastRun (l.takeWhile fun i => i.getLeft? ≠ some start)

structure Family.Reworked (s : Settings) (d : Document) (f g : Family) : Prop where
  parent : g.parent = f.parent
  tag : f.tag.Tidied s d g.tag
  children : (outline g.children).Perm (outline f.children)
  runs : ∀ start, .inl start ∈ outline f.children →
    runBefore start (outline g.children) = runBefore start (outline f.children)
  lastRun : lastRun (outline g.children) = lastRun (outline f.children)
  fixed : f.tag.preserveSpace = true ∨ f.children.any Node.isSignificant = true ∨
    hasMarker f.children = true → outline g.children = outline f.children

section Runs

theorem takeWhile_append_cons_neg {α : Type} {p : α → Bool} {b : α} (h : p b = false)
    (l r : List α) : (l ++ b :: r).takeWhile p = l.takeWhile p := by
  induction l with
  | nil => simp [h]
  | cons a l ih => cases hp : p a <;> simp [hp, ih]

theorem lastRun_append_inl (l r : List (Nat ⊕ Node)) (start : Nat) :
    lastRun (l ++ .inl start :: r) = lastRun r := by
  rw [lastRun, lastRun, List.rtakeWhile, List.rtakeWhile, List.reverse_append, List.reverse_cons,
    List.append_assoc, List.singleton_append, takeWhile_append_cons_neg rfl]

theorem lastRun_map_inr (l : List Node) : lastRun (l.map .inr) = l.map .inr := by
  rw [lastRun, List.rtakeWhile_eq_self_iff]
  simp

theorem outline_bare {ns : List Node} (h : Bare ns) : outline ns = ns.map .inr := by
  refine List.map_congr_left fun n hn => ?_
  have := h n hn
  cases n with
  | element => simp [Node.tag?] at this
  | text | raw => rfl

theorem outline_join_cons {c : Cluster} {cs : List Cluster} {tail : List Node}
    (hc : Bare c.leading) :
    outline (join (c :: cs) tail) =
      c.leading.map .inr ++ .inl c.tag.span.start :: outline (join cs tail) := by
  rw [← outline_bare hc]
  simp [join, nodes, outline, Node.identity]

theorem lastRun_join {cs : List Cluster} {tail : List Node} (hcs : Tidy cs) (ht : Bare tail) :
    lastRun (outline (join cs tail)) = tail.map .inr := by
  induction cs with
  | nil =>
    rw [show join [] tail = tail from rfl, outline_bare ht, lastRun_map_inr]
  | cons c cs ih =>
    obtain ⟨hc, hcs⟩ := List.forall_mem_cons.mp hcs
    rw [outline_join_cons hc, lastRun_append_inl, ih hcs]

theorem runBefore_join {cs : List Cluster} (tail : List Node) (hcs : Tidy cs)
    (hd : (cs.map fun c => c.tag.span.start).Nodup) {c : Cluster} (hc : c ∈ cs) :
    runBefore c.tag.span.start (outline (join cs tail)) = c.leading.map .inr := by
  have hskip (l : List Node) (start : Nat) (r : List (Nat ⊕ Node)) :
      (l.map Sum.inr ++ r).takeWhile (fun i => i.getLeft? ≠ some start) =
        l.map Sum.inr ++ r.takeWhile fun i => i.getLeft? ≠ some start :=
    List.takeWhile_append_of_pos (by simp)
  induction cs with
  | nil => simp at hc
  | cons b cs ih =>
    obtain ⟨hb, hcs⟩ := List.forall_mem_cons.mp hcs
    obtain ⟨hne, hd⟩ := List.nodup_cons.mp hd
    rw [runBefore, outline_join_cons hb, hskip]
    obtain rfl | hc := List.mem_cons.mp hc
    · rw [List.takeWhile_cons_of_neg (by simp), List.append_nil, lastRun_map_inr]
    · have hstart : b.tag.span.start ≠ c.tag.span.start := by
        intro h
        exact hne (List.mem_map.mpr ⟨c, hc, h.symm⟩)
      rw [List.takeWhile_cons_of_pos (by simpa using hstart), lastRun_append_inl]
      exact ih hcs hd hc

theorem starts_outline (ns : List Node) :
    (outline ns).filterMap Sum.getLeft? = (childTags ns).map fun t => t.span.start := by
  rw [outline, childTags, List.filterMap_map, List.map_filterMap]
  refine List.filterMap_congr fun n _ => ?_
  cases n <;> rfl

/-- Clusters that change places keep the run before each element and behind the last one. -/
theorem Rearranged.runs {ns ms : List Node} (h : Rearranged ns ms)
    (hd : ((outline ns).filterMap Sum.getLeft?).Nodup) :
    (∀ start, .inl start ∈ outline ns →
      runBefore start (outline ms) = runBefore start (outline ns)) ∧
      lastRun (outline ms) = lastRun (outline ns) := by
  obtain ⟨cs, hperm, rfl⟩ := h
  obtain ⟨hcs, ht⟩ := tidy_split ns
  rw [starts_outline, childTags_split, List.map_map] at hd
  constructor
  · intro start hstart
    have hmem : start ∈ (outline ns).filterMap Sum.getLeft? :=
      List.mem_filterMap.mpr ⟨_, hstart, rfl⟩
    rw [starts_outline, childTags_split, List.map_map] at hmem
    obtain ⟨c, hc, rfl⟩ := List.mem_map.mp hmem
    have hms := runBefore_join (split ns).2 (hcs.perm hperm)
      ((hperm.map _).nodup_iff.mpr hd) (hperm.mem_iff.mpr hc)
    have hns := runBefore_join (split ns).2 hcs hd hc
    rw [join_split] at hns
    exact hms.trans hns.symm
  · have hns := lastRun_join hcs ht
    rw [join_split] at hns
    rw [lastRun_join (hcs.perm hperm) ht, hns]

end Runs

section Starts

mutual

theorem Node.map_tag_families (parent : Option Nat) :
    ∀ n : Node, (n.families parent).map Family.tag = n.tags
  | .element t ns => by rw [Node.families, Node.tags, List.map_cons, map_tag_familiesList _ ns]
  | .text _ _ => rfl
  | .raw _ _ _ => rfl

theorem map_tag_familiesList (parent : Option Nat) :
    ∀ ns : List Node, (familiesList parent ns).map Family.tag = tagsList ns
  | [] => rfl
  | n :: ns => by
    rw [familiesList, tagsList, List.map_append, n.map_tag_families, map_tag_familiesList _ ns]

end

theorem map_start_familiesList (parent : Option Nat) (ns : List Node) :
    (familiesList parent ns).map Family.start = (tagsList ns).map fun t => t.span.start := by
  rw [← map_tag_familiesList parent ns, List.map_map]
  rfl

mutual

/-- Elements of a part start within it, each behind the one before it. -/
theorem Part.starts_place (depth : Nat) : ∀ (p : Part) (pos : Nat), p.Fits depth →
    ((p.place pos).tags.map fun t => t.span.start).Pairwise (· < ·) ∧
      ∀ t ∈ (p.place pos).tags, pos ≤ t.span.start ∧ t.span.start < pos + byteLength p.spelled
  | .text _ _, _, _ => by simp [Part.place, Node.tags]
  | .raw _ _, _, _ => by simp [Part.place, Node.tags]
  | .element opening tag children closing, pos, h => by
    obtain h | ⟨_, h, -⟩ := h
    · obtain ⟨-, ⟨w, -, rfl, -⟩, -, -, hcs⟩ := h
      have hopen : 0 < byteLength w.text := byteLength_pos (by simp [WrittenTag.text])
      obtain ⟨hlt, hin⟩ := starts_placeList (depth + 1) children (pos + byteLength w.text)
        fun q hq => .inl (hcs.valid q hq)
      simp only [Part.place, Node.tags, List.map_cons, List.pairwise_cons, List.forall_mem_cons,
        Tag.place, Part.spelled, byteLength_append, List.forall_mem_map]
      refine ⟨⟨fun t ht => ?_, hlt⟩, by omega, fun t ht => ?_⟩
      · have := hin t ht
        omega
      · have := hin t ht
        omega
    · cases h

theorem starts_placeList (depth : Nat) : ∀ (parts : List Part) (pos : Nat),
    (∀ p ∈ parts, p.Fits depth) →
    ((tagsList (placeList pos parts)).map fun t => t.span.start).Pairwise (· < ·) ∧
      ∀ t ∈ tagsList (placeList pos parts),
        pos ≤ t.span.start ∧ t.span.start < pos + byteLength (spelledList parts)
  | [], _, _ => by simp [placeList, tagsList]
  | p :: ps, pos, h => by
    obtain ⟨hp, hps⟩ := List.forall_mem_cons.mp h
    obtain ⟨hlt, hin⟩ := p.starts_place depth pos hp
    obtain ⟨hlts, hins⟩ := starts_placeList depth ps (pos + byteLength p.spelled) hps
    simp only [placeList, tagsList, List.map_append, List.pairwise_append, List.forall_mem_map,
      List.mem_append, spelledList, byteLength_append]
    refine ⟨⟨hlt, hlts, fun t ht u hu => ?_⟩, fun t ht => ?_⟩
    · have := hin t ht
      have := hins u hu
      omega
    · obtain ht | ht := ht
      · have := hin t ht
        omega
      · have := hins t ht
        omega

end

mutual

theorem Node.Retagged.map_tags {R : Tag → Tag → Prop} {β : Type} (key : Tag → β)
    (hR : ∀ t u, R t u → key u = key t) :
    ∀ {n m : Node}, n.Retagged R m → m.tags.map key = n.tags.map key
  | .element _ _, .element _ _, ⟨h, hns⟩ => by
    rw [Node.tags, Node.tags, List.map_cons, List.map_cons, hR _ _ h, hns.map_tags key hR]
  | .text _ _, .text _ _, _ => rfl
  | .raw _ _ _, .raw _ _ _, _ => rfl

theorem RetaggedList.map_tags {R : Tag → Tag → Prop} {β : Type} (key : Tag → β)
    (hR : ∀ t u, R t u → key u = key t) :
    ∀ {ns ms : List Node}, RetaggedList R ns ms → (tagsList ms).map key = (tagsList ns).map key
  | [], [], _ => rfl
  | _ :: _, _ :: _, ⟨h, hns⟩ => by
    rw [tagsList, tagsList, List.map_append, List.map_append, h.map_tags key hR, hns.map_tags key hR]

end

mutual

/-- What lies inside a member of a forest lies in the forest. -/
theorem Node.tags_of_mem_families {f : Family} : ∀ {n : Node} {parent : Option Nat},
    f ∈ n.families parent → (tagsList f.children).Sublist n.tags
  | .element t ns, parent, h => by
    rw [Node.families, List.mem_cons] at h
    rw [Node.tags]
    obtain rfl | h := h
    · exact List.sublist_cons_self t _
    · exact (tags_of_mem_familiesList h).cons t
  | .text _ _, _, h => by simp [Node.families] at h
  | .raw _ _ _, _, h => by simp [Node.families] at h

theorem tags_of_mem_familiesList {f : Family} : ∀ {ns : List Node} {parent : Option Nat},
    f ∈ familiesList parent ns → (tagsList f.children).Sublist (tagsList ns)
  | [], _, h => by simp [familiesList] at h
  | n :: ns, parent, h => by
    rw [familiesList, List.mem_append] at h
    rw [tagsList]
    obtain h | h := h
    · exact (n.tags_of_mem_families h).trans (List.sublist_append_left _ _)
    · exact (tags_of_mem_familiesList h).trans (List.sublist_append_right _ _)

end

theorem childTags_sublist (ns : List Node) : (childTags ns).Sublist (tagsList ns) := by
  induction ns with
  | nil => exact .slnil
  | cons n ns ih =>
    rw [tagsList]
    cases n with
    | element t ms => exact (ih.trans (List.sublist_append_right _ _)).cons_cons t
    | text | raw => exact ih

theorem Document.retagged_of_annotated {source : Chars} {d d' : Document}
    (hd : d' = d ∨ d' = (d.annotate source).1) : RetaggedList Tag.Annotates d.nodes d'.nodes := by
  obtain rfl | rfl := hd
  · exact retaggedList_refl Tag.Annotates.refl _
  · exact retaggedList_annotateList _

/-- The elements of a document that was read start in different places. -/
theorem Document.nodup_starts {source : Chars} {d d' : Document} (h : read source = .ok d)
    (hd : d' = d ∨ d' = (d.annotate source).1) :
    (d'.tags.map fun t => t.span.start).Nodup := by
  obtain ⟨parts, hvalid, -, hparts⟩ := read_sound h
  rw [Document.tags, (retagged_of_annotated hd).map_tags (fun t => t.span.start)
    (by rintro t _ ⟨attributes, -, rfl⟩; rfl), hparts]
  exact (starts_placeList 1 parts _ hvalid.fits).1.imp fun h => Nat.ne_of_lt h

end Starts

section Rework

variable {s : Settings} {d : Document} {g : Tag → Tag}

def Family.rework (s : Settings) (g : Tag → Tag) (f : Family) : Family :=
  ⟨f.parent, g f.tag, arrange s (g f.tag) (arrangeAllList s (mapTagsList g f.children))⟩

theorem familiesList_eq_flatMap (parent : Option Nat) (ns : List Node) :
    familiesList parent ns = ns.flatMap (Node.families parent) := by
  induction ns with
  | nil => rfl
  | cons n ns ih => rw [familiesList, List.flatMap_cons, ih]

mutual

/-- Each family is reworked by itself, whatever becomes of the families around it. -/
theorem Node.families_arrangeAll (hg : ∀ t, (g t).span = t.span) (parent : Option Nat) :
    ∀ n : Node, (((n.mapTags g).arrangeAll s).families parent).Perm
      ((n.families parent).map (Family.rework s g))
  | .element t ns => by
    have harrange := (rearranged_arrange s (g t) (arrangeAllList s (mapTagsList g ns))).perm
    have hinner := familiesList_arrangeAllList hg (some t.span.start) ns
    rw [Node.mapTags, Node.arrangeAll, Node.families, Node.families, List.map_cons, hg]
    refine List.Perm.cons _ (List.Perm.trans ?_ hinner)
    rw [familiesList_eq_flatMap, familiesList_eq_flatMap]
    exact harrange.flatMap_right _
  | .text _ _ => .nil
  | .raw _ _ _ => .nil

theorem familiesList_arrangeAllList (hg : ∀ t, (g t).span = t.span) (parent : Option Nat) :
    ∀ ns : List Node, (familiesList parent (arrangeAllList s (mapTagsList g ns))).Perm
      ((familiesList parent ns).map (Family.rework s g))
  | [] => .nil
  | n :: ns => by
    rw [mapTagsList, arrangeAllList, familiesList, familiesList, List.map_append]
    exact (n.families_arrangeAll hg parent).append (familiesList_arrangeAllList hg parent ns)

end

/-- Seen from their parent, the children of an element are arranged as they are. -/
theorem outline_arrangeAllList (hg : ∀ t, (g t).span = t.span) (ns : List Node) :
    outline (arrangeAllList s (mapTagsList g ns)) = outline ns := by
  induction ns with
  | nil => rfl
  | cons n ns ih =>
    have hn : ((n.mapTags g).arrangeAll s).identity = n.identity := by
      cases n <;> simp [Node.mapTags, Node.arrangeAll, Node.identity, hg]
    simp only [outline, mapTagsList, arrangeAllList, List.map_cons, hn]
    exact congrArg _ ih

theorem any_arrangeAllList {p : Node → Bool} (hp : ∀ t ns, p (.element t ns) = false)
    (ns : List Node) : (arrangeAllList s (mapTagsList g ns)).any p = ns.any p := by
  induction ns with
  | nil => rfl
  | cons n ns ih =>
    have hn : p ((n.mapTags g).arrangeAll s) = p n := by
      cases n <;> simp [Node.mapTags, Node.arrangeAll, hp]
    simp only [mapTagsList, arrangeAllList, List.any_cons, hn, ih]

theorem Family.reworked_rework (hg : ∀ t : Tag, t.Tidied s d (g t)) {f : Family}
    (hd : ((childTags f.children).map fun t => t.span.start).Nodup) :
    f.Reworked s d (f.rework s g) := by
  have hspan : ∀ t, (g t).span = t.span := fun t => (hg t).span
  have houtline := outline_arrangeAllList (s := s) hspan f.children
  have harrange := rearranged_arrange s (g f.tag) (arrangeAllList s (mapTagsList g f.children))
  have hruns := harrange.runs (by rwa [houtline, starts_outline])
  rw [houtline] at hruns
  refine ⟨rfl, hg f.tag, ?_, hruns.1, hruns.2, fun hfixed => ?_⟩
  · rw [← houtline]
    exact harrange.perm.map _
  · have hmay : mayReorder (g f.tag) (arrangeAllList s (mapTagsList g f.children)) = false := by
      rw [mayReorder, (hg f.tag).preserveSpace, hasMarker,
        any_arrangeAllList (fun _ _ => rfl), any_arrangeAllList (fun _ _ => rfl)]
      obtain h | h | h := hfixed <;> simp_all [hasMarker]
    rw [← houtline, Family.rework, arrange, if_neg (by simp [hmay])]

theorem Document.applyRules_nodes (s : Settings) (d : Document) :
    ∃ g : Tag → Tag, (∀ t : Tag, t.Tidied s d (g t)) ∧
      (d.applyRules s).nodes = arrangeAllList s (mapTagsList g d.nodes) := by
  obtain ⟨g, hg, htidy⟩ := tidyAttributes_eq s d
  refine ⟨g, hg, ?_⟩
  rw [applyRules, htidy]
  rfl

end Rework

theorem exists_ok_of_any {ε α : Type} {x : Except ε α} {P : α → Prop} [DecidablePred P]
    (h : x.toOption.any (fun a => decide (P a)) = true) : ∃ a, x = .ok a ∧ P a := by
  cases x with
  | error => simp [Except.toOption] at h
  | ok a => exact ⟨a, rfl, by simpa [Except.toOption] using h⟩

namespace Document

/-- The settings never lose, double or re-parent an element. Elements are told by where they start;
each is reworked where it stands, and the top level keeps its order. -/
theorem applyRules_keeps_families {source : Chars} {d d' : Document} (h : read source = .ok d)
    (hd : d' = d ∨ d' = (d.annotate source).1) (s : Settings) :
    (d'.families.map Family.start).Nodup ∧
      ((d'.applyRules s).families.map Family.start).Perm (d'.families.map Family.start) ∧
      outline (d'.applyRules s).nodes = outline d'.nodes ∧
      ∀ f ∈ d'.families, ∀ g ∈ (d'.applyRules s).families, g.start = f.start →
        f.Reworked s d' g := by
  obtain ⟨g, hg, hnodes⟩ := applyRules_nodes s d'
  have hspan : ∀ t, (g t).span = t.span := fun t => (hg t).span
  have hnodup : (d'.families.map Family.start).Nodup := by
    rw [families, map_start_familiesList]
    exact nodup_starts h hd
  have hperm : (d'.applyRules s).families.Perm (d'.families.map (Family.rework s g)) := by
    rw [families, hnodes]
    exact familiesList_arrangeAllList hspan none d'.nodes
  have hstart : Family.start ∘ Family.rework s g = Family.start := by
    funext f
    simp [Family.start, Family.rework, hspan]
  refine ⟨hnodup, ?_, ?_, fun f hf g' hg' heq => ?_⟩
  · have := hperm.map Family.start
    rwa [List.map_map, hstart] at this
  · rw [hnodes, outline_arrangeAllList hspan]
  · obtain ⟨f', hf', rfl⟩ := List.mem_map.mp (hperm.subset hg')
    have hsame : f' = f :=
      List.inj_on_of_nodup_map hnodup hf' hf ((congrFun hstart f').symm.trans heq)
    subst hsame
    refine Family.reworked_rework hg ?_
    have hsub := (childTags_sublist f'.children).trans (tags_of_mem_familiesList hf)
    exact (hsub.map _).nodup (nodup_starts h hd)

theorem applyRules_keeps_families_sample :
    ∃ d, read "<A d='1' c='2'><!--x--><C/><B/>\n</A>".toList = .ok d ∧
      (d.families.map Family.start).Nodup ∧
      ∀ f ∈ d.families, ∀ g ∈ (d.applyRules Settings.standard).families, g.start = f.start →
        f.Reworked Settings.standard d g := by
  have h : ∃ d, read "<A d='1' c='2'><!--x--><C/><B/>\n</A>".toList = .ok d := ⟨_, by cbv⟩
  obtain ⟨d, hd⟩ := h
  obtain ⟨hstarts, -, -, hreworked⟩ := applyRules_keeps_families hd (.inl rfl) Settings.standard
  exact ⟨d, hd, hstarts, hreworked⟩

/-- An attribute that holds no thickness has a value that its name did not have before. -/
def Revalued (s : Settings) (f g : Family) : Prop :=
  ∃ b ∈ g.tag.attributes, b.name.written ∉ s.thicknessAttributes ∧
    ∀ a ∈ f.tag.attributes, a.name = b.name → a.value ≠ b.value

instance (s : Settings) (f g : Family) : Decidable (Revalued s f g) :=
  inferInstanceAs (Decidable (∃ b ∈ g.tag.attributes, b.name.written ∉ s.thicknessAttributes ∧
    ∀ a ∈ f.tag.attributes, a.name = b.name → a.value ≠ b.value))

def strippingSettings : Settings :=
  { Settings.standard with
    removeDesignTimeReferences := true
    designTimeNamespaces := ["d".toList]
    attributeGroups := [] }

def ignorableSample : Chars :=
  ("<A xmlns:d='d' xmlns:m='http://schemas.openxmlformats.org/markup-compatibility/2006' " ++
    "m:Ignorable='d e'/>").toList

/-- Where design-time references go, the attributes that stay need not keep their values: a list of
qualifiers to ignore loses words. -/
theorem ignorable_list_shortened :
    ∃ d, read ignorableSample = .ok d ∧
      ∃ f ∈ d.families, ∃ g ∈ (d.applyRules strippingSettings).families, g.start = f.start ∧
        ¬ ∃ kept : List Attribute, kept.Subperm f.tag.attributes ∧
          List.Forall₂ (fun a b => b.name = a.name ∧
            (a.name.written ∉ strippingSettings.thicknessAttributes → b.value = a.value))
            kept g.tag.attributes := by
  have hrevalued : ∃ d, read ignorableSample = .ok d ∧
      ∃ f ∈ d.families, ∃ g ∈ (d.applyRules strippingSettings).families, g.start = f.start ∧
        Revalued strippingSettings f g := by
    refine exists_ok_of_any ?_
    decide +kernel
  obtain ⟨d, hd, f, hf, g, hg, hstart, b, hb, hlisted, hvalue⟩ := hrevalued
  refine ⟨d, hd, f, hf, g, hg, hstart, fun ⟨kept, hsub, hkept⟩ => ?_⟩
  obtain ⟨a, ha, hname, hsame⟩ := exists_of_forall₂ hkept b hb
  exact hvalue a (hsub.subset ha) hname.symm (hsame (hname ▸ hlisted)).symm

end Document
end XamlFormat
