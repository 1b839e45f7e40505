import XamlFormat.Proofs.Layout.Relayout
import XamlFormat.Proofs.Rules.Families

/-! Parts of a document whose children are arranged. Where children change places, the parts that they
show change places too; where they are in order, nothing changes. -/
namespace XamlFormat

open Markup Text StartTag Cluster

section Unmarked

variable {source : Chars} {contentEnd nest : Nat} {qs : List Part} {ns : List Node}

theorem shownList_iff (h : Unmarked qs) : ShownList source contentEnd false qs ns ↔
    List.Forall₂ (fun q n => q.Alike n ∧ q.Shown source n) qs ns := by
  induction qs generalizing ns with
  | nil =>
    cases ns with
    | nil => exact ⟨fun _ => .nil, fun _ => trivial⟩
    | cons => exact ⟨False.elim, fun h => nomatch h⟩
  | cons q qs ih =>
    cases ns with
    | nil => exact ⟨False.elim, fun h => nomatch h⟩
    | cons n ns =>
      have hq : q.marker? = none := h q (by simp)
      rw [ShownList, h.regionAfter, ih h.tail, List.forall₂_cons]
      simp [hq, and_assoc]

theorem readyList_iff (h : Unmarked qs) :
    ReadyList nest false qs ↔ (∀ q ∈ qs, q.Ready nest) ∧ TextsSplit qs := by
  induction qs with
  | nil => simp [ReadyList, TextsSplit]
  | cons q qs ih =>
    rw [ReadyList, h.regionAfter, ih h.tail, if_neg Bool.false_ne_true, List.forall_mem_cons,
      TextsSplit]
    tauto

theorem ownList_eq_flatMap (h : Unmarked qs) : ownList false qs = qs.flatMap Part.own := by
  induction qs with
  | nil => rfl
  | cons q qs ih =>
    rw [ownList, h.regionAfter, ih h.tail, List.flatMap_cons]
    rfl

theorem copiedTagsList_eq_flatMap (h : Unmarked qs) :
    copiedTagsList false false qs = qs.flatMap (Part.copiedTags false) := by
  induction qs with
  | nil => rfl
  | cons q qs ih =>
    rw [copiedTagsList, h.regionAfter, ih h.tail, List.flatMap_cons]
    rfl

theorem Part.Alike.isText_eq {q : Part} {n : Node} (h : q.Alike n) : n.isText = q.isText := by
  cases q <;> cases n <;> simp_all [Part.Alike, Node.isText, Part.isText]

theorem textsSplit_iff (h : List.Forall₂ Part.Alike qs ns) : TextsSplit qs ↔ Apart ns := by
  induction h with
  | nil => exact ⟨fun _ => .nil, fun _ => trivial⟩
  | @cons q n qs ns hq h ih =>
    rw [TextsSplit, ih, Apart, Apart, List.isChain_cons]
    refine and_congr_left fun _ => ?_
    cases h with
    | nil => simp [Part.headText]
    | cons hq' _ =>
      simp [Part.headText, hq.isText_eq, hq'.isText_eq]

theorem unmarked_of_hasMarker (h : List.Forall₂ Part.Alike qs ns) (hm : hasMarker ns = false) :
    Unmarked qs := by
  induction h with
  | nil => simp [Unmarked]
  | @cons q n qs ns hq _ ih =>
    rw [hasMarker, List.any_cons, Bool.or_eq_false_iff, hq.marker?_eq] at hm
    exact List.forall_mem_cons.mpr ⟨by simpa using hm.1, ih hm.2⟩

end Unmarked

section Arrange

variable {source : Chars}

/-- Children that change places show parts that change places. -/
theorem exists_reordered (s : Settings) (tag : Tag) {contentEnd nest : Nat} {qs : List Part}
    {ns : List Node} (h : ShownList source contentEnd false qs ns) (hr : ReadyList nest false qs) :
    ∃ qs', ShownList source contentEnd false qs' (arrange s tag ns) ∧ ReadyList nest false qs' ∧
      qs'.Perm qs ∧ ((ownList false qs').map Prod.fst).Perm ((ownList false qs).map Prod.fst) ∧
      (copiedTagsList false false qs').Perm (copiedTagsList false false qs) := by
  by_cases hm : mayReorder tag ns = true
  · have hunmarked : Unmarked qs := unmarked_of_hasMarker h.alike (by
      simp only [mayReorder, Bool.and_eq_true, Bool.not_eq_true'] at hm
      exact hm.2)
    have harrange := rearranged_arrange s tag ns
    obtain ⟨qs', hshown, hperm⟩ :=
      List.perm_comp_forall₂ harrange.perm ((shownList_iff hunmarked).mp h).flip
    have hunmarked' : Unmarked qs' := fun q hq => hunmarked q (hperm.subset hq)
    have halike : List.Forall₂ Part.Alike qs' (arrange s tag ns) := hshown.flip.imp fun _ _ h => h.1
    obtain ⟨hready, hsplit⟩ := (readyList_iff hunmarked).mp hr
    refine ⟨qs', (shownList_iff hunmarked').mpr hshown.flip, (readyList_iff hunmarked').mpr ⟨?_, ?_⟩,
      hperm, ?_, ?_⟩
    · exact fun q hq => hready q (hperm.subset hq)
    · exact (textsSplit_iff halike).mpr (harrange.apart ((textsSplit_iff h.alike).mp hsplit))
    · rw [ownList_eq_flatMap hunmarked, ownList_eq_flatMap hunmarked']
      exact (hperm.flatMap_right _).map _
    · rw [copiedTagsList_eq_flatMap hunmarked, copiedTagsList_eq_flatMap hunmarked']
      exact hperm.flatMap_right _
  · rw [arrange, if_neg hm]
    exact ⟨qs, h, hr, .refl _, .refl _, .refl _⟩

def Part.bare? : Part → Option Part
  | .element _ _ _ _ => none
  | q => some q

theorem Part.eq_of_bare? {q q' : Part} (h : q'.bare? = q.bare?) (hq : q.tag? = none) : q' = q := by
  cases q <;> cases q' <;> simp_all [Part.bare?, Part.tag?]

theorem Part.marker?_of_bare? {q q' : Part} (h : q'.bare? = q.bare?) : q'.marker? = q.marker? := by
  cases q <;> cases q' <;> simp_all [Part.bare?, Part.marker?]

theorem Part.isText_of_bare? {q q' : Part} (h : q'.bare? = q.bare?) : q'.isText = q.isText := by
  cases q <;> cases q' <;> simp_all [Part.bare?, Part.isText]

theorem Part.Alike.arrangeAll {q q' : Part} {n : Node} (h : q.Alike n) (s : Settings)
    (hq : q'.bare? = q.bare?) : q'.Alike (n.arrangeAll s) := by
  cases q <;> cases n <;> cases q' <;> simp_all [Part.bare?, Part.Alike, Node.arrangeAll]

theorem headText_of_bare? {qs qs' : List Part} (h : qs'.map Part.bare? = qs.map Part.bare?) :
    Part.headText qs' = Part.headText qs := by
  cases qs with
  | nil => simp_all
  | cons q qs =>
    cases qs' with
    | nil => simp at h
    | cons q' qs' => exact Part.isText_of_bare? (List.cons.inj h).1

theorem TopOrder.of_bare? {rooted : Bool} {qs qs' : List Part}
    (h : TopOrder rooted qs) (hq : qs'.map Part.bare? = qs.map Part.bare?) :
    TopOrder rooted qs' := by
  induction qs generalizing rooted qs' with
  | nil => simp_all
  | cons q qs ih =>
    cases qs' with
    | nil => simp at hq
    | cons q' qs' =>
      rw [List.map_cons, List.map_cons, List.cons.injEq] at hq
      obtain ⟨hq, hqs⟩ := hq
      cases q with
      | text =>
        obtain rfl := Part.eq_of_bare? hq rfl
        exact ⟨h.1, h.2.1, h.2.2.1, ih h.2.2.2 hqs⟩
      | raw =>
        obtain rfl := Part.eq_of_bare? hq rfl
        exact ⟨h.1, h.2.1, ih h.2.2 hqs⟩
      | element =>
        cases q' with
        | text | raw => simp [Part.bare?] at hq
        | element => exact ⟨h.1, ih h.2 hqs⟩

theorem mem_of_bare? {qs qs' : List Part} (h : qs'.map Part.bare? = qs.map Part.bare?) {q : Part}
    (hq : q.tag? = none) (hm : q ∈ qs') : q ∈ qs := by
  have hb : q.bare? ∈ qs.map Part.bare? := h ▸ List.mem_map_of_mem hm
  obtain ⟨r, hr, he⟩ := List.mem_map.mp hb
  rwa [← Part.eq_of_bare? he hq]

theorem regionStop_arrangeAllList (s : Settings) (stop : Nat) (ns : List Node) :
    regionStop stop (arrangeAllList s ns) = regionStop stop ns := by
  induction ns with
  | nil => rfl
  | cons n ns ih => rw [arrangeAllList, regionStop, regionStop, ih]; cases n <;> rfl

mutual

theorem Part.exists_arranged (s : Settings) : ∀ (q : Part) (n : Node) (nest : Nat),
    q.Alike n → q.Shown source n → q.Ready nest →
    ∃ q' : Part, q'.bare? = q.bare? ∧ q'.Shown source (n.arrangeAll s) ∧ q'.Ready nest ∧
      (q'.own.map Prod.fst).Perm (q.own.map Prod.fst) ∧
      (q'.copiedTags false).Perm (q.copiedTags false)
  | .text _ _, _, _, _, _, hr => ⟨_, rfl, trivial, hr, .refl _, .refl _⟩
  | .raw _ _, _, _, _, _, hr => ⟨_, rfl, trivial, hr, .refl _, .refl _⟩
  | .element opening tag children closing, n, nest, ha, hs, hr => by
    cases n with
    | text | raw => exact ha.elim
    | element t ns =>
      obtain ⟨rfl, hs⟩ := hs
      obtain ⟨hdepth, hlegible, hself, hdoctype, hr⟩ := hr
      by_cases hp : (t.preserveSpace && !children.isEmpty) = true
      · rw [if_pos hp] at hs hr
        refine ⟨.element opening t children closing, rfl, ⟨rfl, ?_⟩, ⟨hdepth, hlegible, hself,
          hdoctype, ?_⟩, .refl _, .refl _⟩
        · rwa [if_pos hp]
        · rwa [if_pos hp]
      · rw [if_neg hp] at hs hr
        obtain ⟨inner, hbare, hs', hr', hown, hcopied, -⟩ :=
          exists_arrangedList s children ns (nest + 1) _ false hs.2 hr
        obtain ⟨outer, hs'', hr'', hperm, hown', hcopied'⟩ := exists_reordered s t hs' hr'
        have hempty : outer.isEmpty = children.isEmpty := by
          have hlength : outer.length = children.length :=
            hperm.length_eq.trans (by simpa using congrArg List.length hbare)
          rw [Bool.eq_iff_iff, List.isEmpty_iff_length_eq_zero, List.isEmpty_iff_length_eq_zero, hlength]
        refine ⟨.element opening t outer closing, rfl, ⟨rfl, ?_⟩, ⟨hdepth, hlegible, ?_, ?_, ?_⟩,
          ?_, ?_⟩
        · rw [hempty, if_neg hp]
          exact ⟨hs.1, hs''⟩
        · intro h
          have := hself h
          subst this
          simpa using hempty
        · exact fun content hm => hdoctype content (mem_of_bare? hbare rfl (hperm.subset hm))
        · rwa [hempty, if_neg hp]
        · rw [Part.own, Part.own, hempty, if_neg hp, if_neg hp]
          exact (hown'.trans hown).cons t
        · rw [Part.copiedTags, Part.copiedTags, hempty]
          rw [Bool.not_eq_true] at hp
          rw [hp]
          exact hcopied'.trans hcopied

theorem exists_arrangedList (s : Settings) : ∀ (qs : List Part) (ns : List Node)
    (nest contentEnd : Nat) (suppressed : Bool), ShownList source contentEnd suppressed qs ns →
    ReadyList nest suppressed qs →
    ∃ qs', qs'.map Part.bare? = qs.map Part.bare? ∧
      ShownList source contentEnd suppressed qs' (arrangeAllList s ns) ∧
      ReadyList nest suppressed qs' ∧
      ((ownList suppressed qs').map Prod.fst).Perm ((ownList suppressed qs).map Prod.fst) ∧
      (copiedTagsList false suppressed qs').Perm (copiedTagsList false suppressed qs) ∧
      (suppressed = true → regionText qs' = regionText qs)
  | [], ns, _, _, _, hs, _ => by
    cases ns with
    | nil => exact ⟨[], rfl, trivial, trivial, .refl _, .refl _, fun _ => rfl⟩
    | cons => exact hs.elim
  | q :: qs, ns, nest, contentEnd, suppressed, hs, hr => by
    cases ns with
    | nil => exact hs.elim
    | cons n ns =>
      obtain ⟨ha, hs, hss⟩ := hs
      obtain ⟨hr, htext, hrs⟩ := hr
      obtain ⟨qs', hbare, hss', hrs', hown, hcopied, hregion⟩ :=
        exists_arrangedList s qs ns nest contentEnd _ hss hrs
      have hhead := headText_of_bare? hbare
      cases suppressed with
      | true =>
        refine ⟨q :: qs', congrArg (_ :: ·) hbare, ⟨ha.arrangeAll s rfl, by simp, hss'⟩,
          ⟨hr, fun ht => hhead.trans (htext ht), hrs'⟩, hown, hcopied.append_left _, fun _ => ?_⟩
        rw [regionText, regionText]
        split_ifs with hon
        · rfl
        · rw [hregion (by simp [Part.regionAfter, hon])]
      | false =>
        obtain ⟨hs, hoff⟩ := hs rfl
        obtain ⟨q', hbare', hs', hr', hown', hcopied'⟩ := q.exists_arranged s n nest ha hs hr
        have hmarker := Part.marker?_of_bare? hbare'
        have hafter : q'.regionAfter false = q.regionAfter false := by
          rw [Part.regionAfter, Part.regionAfter, hmarker]
        refine ⟨q' :: qs', ?_, ⟨ha.arrangeAll s hbare', fun _ => ⟨hs', fun h => ?_⟩, ?_⟩,
          ⟨hr', fun ht => ?_, ?_⟩, ?_, ?_, by simp⟩
        · rw [List.map_cons, List.map_cons, hbare', hbare]
        · rw [hmarker] at h
          have hspan : (n.arrangeAll s).span = n.span := by cases n <;> rfl
          rw [regionStop_arrangeAllList, hspan, hoff h, hregion (by simp [Part.regionAfter, h])]
        · rwa [hafter]
        · rw [hhead]
          exact htext (by rwa [← Part.isText_of_bare? hbare'])
        · rwa [hafter]
        · rw [ownList, ownList, hafter, List.map_append, List.map_append]
          exact hown'.append hown
        · rw [copiedTagsList, copiedTagsList, hafter]
          exact hcopied'.append hcopied

end

end Arrange

section Settled

variable {source : Chars} {s : Settings}

theorem partTags_eq_childTags {contentEnd : Nat} {qs : List Part} {ns : List Node}
    (hm : Unmarked qs) (h : ShownList source contentEnd false qs ns) :
    partTags qs = childTags ns := by
  have hshown := (shownList_iff hm).mp h
  clear h hm
  induction hshown with
  | nil => rfl
  | @cons q n qs ns hq _ ih =>
    obtain ⟨ha, hs⟩ := hq
    have htag : q.tag? = n.tag? := by
      cases q with
      | text | raw => cases n <;> first | rfl | exact ha.elim
      | element =>
        cases n with
        | text | raw => exact ha.elim
        | element => exact congrArg some hs.1.symm
    rw [partTags, childTags, List.filterMap_cons, List.filterMap_cons, htag]
    cases n.tag? with
    | none => exact ih
    | some t => exact congrArg (t :: ·) ih

/-- Children that may move are in the order that the settings ask for. -/
def InOrder (s : Settings) (tag : Tag) (children : List Part) : Prop :=
  tag.preserveSpace = false → children.any Part.isSignificant = false → Unmarked children →
    Arranged s tag.name (partTags children)

theorem arrange_of_inOrder {contentEnd : Nat} {tag : Tag} {qs : List Part} {ns : List Node}
    (h : InOrder s tag qs) (hs : ShownList source contentEnd false qs ns) :
    arrange s tag ns = ns := by
  refine arrange_eq_self fun hm => ?_
  simp only [mayReorder, Bool.and_eq_true, Bool.not_eq_true'] at hm
  have hunmarked := unmarked_of_hasMarker hs.alike hm.2
  rw [← partTags_eq_childTags hunmarked hs]
  exact h hm.1.1 (any_isSignificant_eq hs.alike ▸ hm.1.2) hunmarked

mutual

theorem Part.Shown.arrangeAll : ∀ (q : Part) (n : Node), q.Shown source n →
    (∀ x ∈ q.own, InOrder s x.1 x.2) → q.Shown source (n.arrangeAll s)
  | .text _ _, _, _, _ => trivial
  | .raw _ _, _, _, _ => trivial
  | .element opening tag children closing, n, hs, ho => by
    cases n with
    | text | raw => exact hs.elim
    | element t ns =>
      obtain ⟨rfl, hs⟩ := hs
      refine ⟨rfl, ?_⟩
      rw [Part.own, List.forall_mem_cons] at ho
      obtain ⟨horder, ho⟩ := ho
      by_cases hp : (t.preserveSpace && !children.isEmpty) = true
      · rwa [if_pos hp] at hs ⊢
      · rw [if_neg hp] at hs ho ⊢
        have hinner := ShownList.arrangeAll children ns _ false hs.2 ho
        rw [arrange_of_inOrder horder hinner]
        exact ⟨hs.1, hinner⟩

theorem ShownList.arrangeAll : ∀ (qs : List Part) (ns : List Node) (contentEnd : Nat)
    (suppressed : Bool), ShownList source contentEnd suppressed qs ns →
    (∀ x ∈ ownList suppressed qs, InOrder s x.1 x.2) →
    ShownList source contentEnd suppressed qs (arrangeAllList s ns)
  | [], ns, _, _, hs, _ => by
    cases ns with
    | nil => trivial
    | cons => exact hs.elim
  | q :: qs, ns, contentEnd, suppressed, hs, ho => by
    cases ns with
    | nil => exact hs.elim
    | cons n ns =>
      obtain ⟨ha, hs, hss⟩ := hs
      rw [ownList, List.forall_mem_append] at ho
      refine ⟨ha.arrangeAll s rfl, fun hf => ?_, ShownList.arrangeAll qs ns contentEnd _ hss ho.2⟩
      subst hf
      obtain ⟨hs, hoff⟩ := hs rfl
      refine ⟨Part.Shown.arrangeAll q n hs ho.1, fun h => ?_⟩
      have hspan : (n.arrangeAll s).span = n.span := by cases n <;> rfl
      rw [regionStop_arrangeAllList, hspan, hoff h]

end

end Settled

section Families

variable {source : Chars} {s : Settings}

mutual

/-- An element that is laid out shows a family of the node. -/
theorem Part.exists_family : ∀ (q : Part) (n : Node) (parent : Option Nat), q.Shown source n →
    ∀ x ∈ q.own, x.1.preserveSpace = false → ∃ f ∈ n.families parent, f.tag = x.1 ∧
      ∃ contentEnd, ShownList source contentEnd false x.2 f.children
  | .text _ _, _, _, _ => by simp [Part.own]
  | .raw _ _, _, _, _ => by simp [Part.own]
  | .element opening tag children closing, n, parent, hs => by
    cases n with
    | text | raw => exact hs.elim
    | element t ns =>
      obtain ⟨rfl, hs⟩ := hs
      rw [Part.own, List.forall_mem_cons]
      by_cases hp : (t.preserveSpace && !children.isEmpty) = true
      · rw [if_pos hp]
        refine ⟨fun hps => ?_, by simp⟩
        simp [show t.preserveSpace = false from hps] at hp
      · rw [if_neg hp] at hs ⊢
        refine ⟨fun _ => ⟨_, List.mem_cons_self, rfl, _, hs.2⟩, fun x hx hps => ?_⟩
        obtain ⟨f, hf, h⟩ :=
          exists_familyList children ns (some t.span.start) _ false hs.2 x hx hps
        exact ⟨f, List.mem_cons_of_mem _ hf, h⟩

theorem exists_familyList : ∀ (qs : List Part) (ns : List Node) (parent : Option Nat)
    (contentEnd : Nat) (suppressed : Bool), ShownList source contentEnd suppressed qs ns →
    ∀ x ∈ ownList suppressed qs, x.1.preserveSpace = false →
      ∃ f ∈ familiesList parent ns, f.tag = x.1 ∧
        ∃ contentEnd, ShownList source contentEnd false x.2 f.children
  | [], _, _, _, _, _ => by simp [ownList]
  | q :: qs, ns, parent, contentEnd, suppressed, hs => by
    cases ns with
    | nil => exact hs.elim
    | cons n ns =>
      obtain ⟨-, hs, hss⟩ := hs
      rw [ownList, List.forall_mem_append]
      refine ⟨fun x hx hps => ?_, fun x hx hps => ?_⟩
      · cases suppressed with
        | true => simp at hx
        | false =>
          obtain ⟨f, hf, h⟩ := q.exists_family n parent (hs rfl).1 x hx hps
          exact ⟨f, List.mem_append_left _ hf, h⟩
      · obtain ⟨f, hf, h⟩ := exists_familyList qs ns parent contentEnd _ hss x hx hps
        exact ⟨f, List.mem_append_right _ hf, h⟩

end

def Node.isSolid (atEdge : Bool) : Node → Bool
  | .text value _ => !value.all (if atEdge then Text.isBlank else Text.isXmlBlank)
  | .raw .cdata _ _ => true
  | _ => false

/-- Some running text among siblings is left by the layout, which trims it at the edges. -/
def keepsText (isFirst suppressed : Bool) : List Node → Bool
  | [] => false
  | n :: ns =>
    n.isSolid (!suppressed && (isFirst || ns.isEmpty)) || keepsText false (n.regionAfter suppressed) ns

theorem keepsText_eq {qs : List Part} {ns : List Node} (h : List.Forall₂ Part.Alike qs ns)
    (isFirst suppressed : Bool) : keepsText isFirst suppressed ns = hasSolid isFirst suppressed qs := by
  induction h generalizing isFirst suppressed with
  | nil => rfl
  | @cons q n qs ns hq h ih =>
    have hsolid (atEdge : Bool) : n.isSolid atEdge = q.isSolid atEdge := by
      cases q with
      | raw kind content =>
        cases n with
        | text | element => exact hq.elim
        | raw k c =>
          obtain ⟨rfl, -⟩ := hq
          cases k <;> rfl
      | text | element => cases n <;> simp_all [Part.Alike, Node.isSolid, Part.isSolid]
    rw [keepsText, hasSolid, hsolid, isEmpty_eq h, hq.regionAfter_eq, ih]

theorem keepsText_arrangeAllList (s : Settings) (g : Tag → Tag) (isFirst suppressed : Bool)
    (ns : List Node) : keepsText isFirst suppressed (arrangeAllList s (mapTagsList g ns)) =
      keepsText isFirst suppressed ns := by
  induction ns generalizing isFirst suppressed with
  | nil => rfl
  | cons n ns ih =>
    have hsolid (atEdge : Bool) : ((n.mapTags g).arrangeAll s).isSolid atEdge = n.isSolid atEdge := by
      cases n <;> rfl
    have hregion : ((n.mapTags g).arrangeAll s).regionAfter suppressed = n.regionAfter suppressed := by
      cases n <;> rfl
    have hempty : (arrangeAllList s (mapTagsList g ns)).isEmpty = ns.isEmpty := by cases ns <;> rfl
    rw [mapTagsList, arrangeAllList, keepsText, keepsText, hsolid, hregion, hempty, ih]

/-- Where running text is left in every family, it is so in every element that is laid out. Children
with running text among them stay in their places, so that the same texts stand at the edges. -/
theorem solid_arrangeAll {g : Tag → Tag} {ns : List Node} (hspan : ∀ t, (g t).span = t.span)
    (hspace : ∀ t, (g t).preserveSpace = t.preserveSpace) {parent : Option Nat}
    (h : ∀ f ∈ familiesList parent ns, f.tag.preserveSpace = false →
      f.children.any Node.isSignificant = true → keepsText true false f.children = true)
    {contentEnd : Nat} {qs : List Part}
    (hs : ShownList source contentEnd false qs (arrangeAllList s (mapTagsList g ns))) :
    ∀ x ∈ ownList false qs, x.1.preserveSpace = false → x.2.any Part.isSignificant = true →
      hasSolid true false x.2 = true := by
  intro x hx hp hsignificant
  obtain ⟨f', hf', htag, stop, hshown⟩ := exists_familyList qs _ parent _ false hs x hx hp
  obtain ⟨f, hf, rfl⟩ :=
    List.mem_map.mp ((familiesList_arrangeAllList hspan parent ns).subset hf')
  have hperm := (rearranged_arrange s (g f.tag) (arrangeAllList s (mapTagsList g f.children))).perm
  rw [← any_isSignificant_eq hshown.alike, Family.rework, hperm.any_eq] at hsignificant
  have hfixed : ¬ mayReorder (g f.tag) (arrangeAllList s (mapTagsList g f.children)) = true := by
    simp [mayReorder, hsignificant]
  rw [any_arrangeAllList (fun _ _ => rfl)] at hsignificant
  rw [← keepsText_eq hshown.alike, Family.rework, arrange, if_neg hfixed, keepsText_arrangeAllList]
  refine h f hf ?_ hsignificant
  rw [← hspace, ← hp, ← htag]
  rfl

/-- Where setters are level in every family, arranging brings every element into order. -/
theorem inOrder_arrangeAll {ns : List Node} {parent : Option Nat}
    (h : ∀ f ∈ familiesList parent ns, SettersLevel s f.tag.name (childTags f.children))
    {contentEnd : Nat} {qs : List Part}
    (hs : ShownList source contentEnd false qs (arrangeAllList s ns)) :
    ∀ x ∈ ownList false qs, InOrder s x.1 x.2 := by
  intro x hx hp hsignificant hmarkers
  obtain ⟨f', hf', htag, stop, hshown⟩ := exists_familyList qs _ parent _ false hs x hx hp
  have hfamilies := familiesList_arrangeAllList (s := s) (g := fun t => t) (fun _ => rfl) parent ns
  rw [mapTagsList_id] at hfamilies
  obtain ⟨f, hf, rfl⟩ := List.mem_map.mp (hfamilies.subset hf')
  rw [partTags_eq_childTags hmarkers hshown, ← htag]
  rw [← any_isSignificant_eq hshown.alike] at hsignificant
  have hunmarked : hasMarker (f.rework s fun t => t).children = false := by
    rw [hasMarker, List.any_eq_false]
    intro n hn
    obtain ⟨q, hq, ha⟩ := exists_of_forall₂ hshown.alike n hn
    rw [ha.marker?_eq, hmarkers q hq]
    simp
  simp only [Family.rework, mapTagsList_id] at htag hsignificant hunmarked ⊢
  have hperm := (rearranged_arrange s f.tag (arrangeAllList s f.children)).perm
  refine arranged_arrange ?_ (by rw [childTags_arrangeAllList]; exact h f hf)
  rw [hperm.any_eq] at hsignificant
  rw [hasMarker, hperm.any_eq] at hunmarked
  simp [mayReorder, htag, hp, hsignificant, hasMarker, hunmarked]

end Families

section Keys

variable {s : Settings}

/-- Two tags that count the same where children of an element with this name are arranged. -/
structure SameKeys (s : Settings) (parent : QName) (t u : Tag) : Prop where
  name : u.name = t.name
  position : ∀ key, positionKey? s parent = some key → (key u).toOption = (key t).toOption
  setter : s.setterOrder ≠ .keep → isSetter t = true →
    setterKey s.setterOrder u = setterKey s.setterOrder t

theorem Arranged.congr {name : QName} {ts us : List Tag} (h : Arranged s name ts)
    (hkeys : List.Forall₂ (SameKeys s name) ts us) : Arranged s name us where
  groups := by
    have hmarks : us.map isStateGroup = ts.map isStateGroup :=
      map_of_forall₂ (fun t u h => by rw [isStateGroup, isStateGroup, h.name]) hkeys
    rw [hmarks]
    exact h.groups
  positions key hkey := by
    have hpositions : positionKeys key us = positionKeys key ts :=
      map_filter_of_forall₂ (fun t u h => by rw [isPositioned, isPositioned, h.name])
        (fun t u h _ => h.position key hkey) hkeys
    rw [hpositions]
    exact h.positions key hkey
  setters hk := by
    have hsetters : setterKeys s.setterOrder us = setterKeys s.setterOrder ts :=
      map_filter_of_forall₂ (fun t u h => by rw [isSetter, isSetter, h.name])
        (fun t u h ht => h.setter hk ht) hkeys
    rw [hsetters]
    exact h.setters hk

end Keys

section Again

variable {p : Printer} {R : Tag → Tag → Prop} {s : Settings}

theorem partTags_dressList {ps : List Part} (hm : Unmarked ps) {pos : Nat} {ns : List Node}
    (h : RetaggedList R (placeList pos ps) ns) :
    List.Forall₂ (fun w u => ∃ pos stop content, R (w.place pos stop content) u) (partTags ps)
      (partTags (dressList false ps ns)) := by
  induction ps generalizing pos ns with
  | nil => cases ns <;> exact .nil
  | cons q ps ih =>
    cases ns with
    | nil => exact h.elim
    | cons n ns =>
      obtain ⟨hn, hns⟩ := h
      have hrest := ih hm.tail hns
      rw [dressList, hm.regionAfter, if_neg Bool.false_ne_true]
      cases q with
      | text spelling value =>
        rw [dress_text]
        exact hrest
      | raw => cases n <;> exact hrest
      | element =>
        cases n with
        | text | raw => exact hn.elim
        | element => exact .cons ⟨_, _, _, hn.1⟩ hrest

theorem unmarked_dressList {ps : List Part} {pos : Nat} {ns : List Node}
    (h : RetaggedList R (placeList pos ps) ns) (hm : Unmarked (dressList false ps ns)) :
    Unmarked ps := by
  have hmap := map_dressList marker?_dress h false
  intro q hq
  obtain ⟨r, hr, he⟩ := List.mem_map.mp (hmap ▸ List.mem_map_of_mem hq : _ ∈ List.map _ _)
  exact he.symm.trans (hm r hr)

theorem exists_own_of_mem_partTags {qs : List Part} (hm : Unmarked qs) {t : Tag}
    (ht : t ∈ partTags qs) : ∃ cs, (t, cs) ∈ ownList false qs := by
  obtain ⟨q, hq, ht⟩ := List.mem_filterMap.mp ht
  rw [ownList_eq_flatMap hm]
  cases q with
  | text | raw => simp [Part.tag?] at ht
  | element opening tag children closing =>
    cases ht
    exact ⟨children, List.mem_flatMap.mpr ⟨_, hq, List.mem_cons_self⟩⟩

mutual

theorem Part.own_trans : ∀ (q : Part), ∀ x ∈ q.own, x.1.preserveSpace = false →
    ∀ y ∈ ownList false x.2, y ∈ q.own
  | .text _ _ => by simp [Part.own]
  | .raw _ _ => by simp [Part.own]
  | .element opening tag children closing => by
    rw [Part.own, List.forall_mem_cons]
    by_cases hp : (tag.preserveSpace && !children.isEmpty) = true
    · rw [if_pos hp]
      refine ⟨fun hps => ?_, by simp⟩
      simp [show tag.preserveSpace = false from hps] at hp
    · rw [if_neg hp]
      exact ⟨fun _ y hy => List.mem_cons_of_mem _ hy, fun x hx hps y hy =>
        List.mem_cons_of_mem _ (ownList_trans children false x hx hps y hy)⟩

theorem ownList_trans : ∀ (qs : List Part) (suppressed : Bool), ∀ x ∈ ownList suppressed qs,
    x.1.preserveSpace = false → ∀ y ∈ ownList false x.2, y ∈ ownList suppressed qs
  | [], _ => by simp [ownList]
  | q :: qs, suppressed => by
    rw [ownList, List.forall_mem_append]
    refine ⟨fun x hx hps y hy => ?_, fun x hx hps y hy => ?_⟩
    · cases suppressed with
      | true => simp at hx
      | false => exact List.mem_append_left _ (q.own_trans x hx hps y hy)
    · exact List.mem_append_right _ (ownList_trans qs _ x hx hps y hy)

end

/-- What was in order and is laid out and dressed with tags that count the same is in order. -/
theorem inOrder_again (hR : ∀ t u, R t u → t.Recast u) {qs : List Part}
    (hl : ∀ x ∈ ownList false qs, Lasting p R x.1 x.2)
    (ho : ∀ x ∈ ownList false qs, InOrder s x.1 x.2)
    (hkeys : ∀ x ∈ ownList false qs, ∀ name w pos stop content u, Printed p x.1 w →
      R (w.place pos stop content) u → SameKeys s name x.1 u)
    (trailing : Bool) {pos : Nat} {ns : List Node}
    (hn : RetaggedList R (placeList pos (layoutTop p trailing qs)) ns) :
    ∀ z ∈ ownList false (dressList false (layoutTop p trailing qs) ns), InOrder s z.1 z.2 := by
  intro z hz hpreserve hsignificant hmarkers
  have hlayout := (own_layoutTop (p := p) trailing fun x hx => (hl x hx).stable.preserveSpace).1
  obtain ⟨y, hy, ⟨pos', stop, content, hyz⟩, hinner⟩ :=
    exists_of_forall₂ (ownList_dressList hR _ ns pos false hn) z hz
  obtain ⟨x, hx, hprinted, hrelisted⟩ := exists_of_forall₂ hlayout y hy
  have hypreserve : y.1.preserveSpace = false :=
    (hR _ _ hyz).preserveSpace.symm.trans hpreserve
  have hxpreserve : x.1.preserveSpace = false :=
    ((hl x hx).stable.preserveSpace _ hprinted).symm.trans hypreserve
  obtain ⟨inner, ms, hms, hz2⟩ := hinner hypreserve
  have hrelisted := hrelisted hxpreserve
  rw [hz2] at hsignificant hmarkers ⊢
  rw [any_dressList hms] at hsignificant
  have hy2 := unmarked_dressList hms hmarkers
  have hx2 := hrelisted.markers hy2
  have hxsignificant : x.2.any Part.isSignificant = false := by
    by_contra h
    have hsolid := (hl x hx).solid hxpreserve (by simpa using h)
    simp [hrelisted.solid hsolid] at hsignificant
  have hname : z.1.name = x.1.name := (hkeys x hx x.1.name _ _ _ _ _ hprinted hyz).name
  rw [hname]
  refine (ho x hx hxpreserve hxsignificant hx2).congr ?_
  have htags := forall₂_comp (hrelisted.tags hx2) (partTags_dressList hy2 hms)
  have hmem : ∀ t ∈ partTags x.2, ∃ cs, (t, cs) ∈ ownList false qs := fun t ht => by
    obtain ⟨cs, hcs⟩ := exists_own_of_mem_partTags hx2 ht
    exact ⟨cs, ownList_trans qs false x hx hxpreserve _ hcs⟩
  refine ((List.forall₂_and_left _ _).mpr ⟨hmem, htags⟩).imp ?_
  rintro t u ⟨⟨cs, ht⟩, w, hprinted, pos, stop, content, hu⟩
  exact hkeys _ ht _ _ _ _ _ _ hprinted hu

end Again

end XamlFormat
