import XamlFormat.Proofs.Layout.Range
import XamlFormat.Proofs.Layout.Verbatim
import XamlFormat.Proofs.Markup.WellFormed
import XamlFormat.Proofs.Rules.Families

/-! Where copied parts lie. Spans are taken from the source, and tags and children change before they
are used; siblings among which there is a marker keep their order, so every part still starts before
it stops. -/
namespace XamlFormat

open Markup Text

section Bounds

variable {source : Chars}

/-- A copied part lies in the source, from one character to another. -/
structure Verbatim.Sound (source : Chars) (v : Verbatim) : Prop where
  le : v.start ≤ v.stop
  start : IsBoundary source v.start
  stop : IsBoundary source v.stop

/-- The byte stands behind the end of some markup. -/
def FollowsMarkup (source : Chars) (n : Nat) : Prop :=
  ∃ a b, source = a ++ b ∧ n = byteLength a ∧ a.getLast? = some '>'

/-- What the regions among siblings rest on. Siblings with a marker stand in the order of the source;
others need not. -/
structure Anchored (source : Chars) (stop : Nat) (ns : List Node) : Prop where
  boundary : IsBoundary source stop
  stops : ∀ n ∈ ns, IsBoundary source n.span.stop
  follows : ∀ n ∈ ns, n.marker? = some .off → FollowsMarkup source n.span.stop
  bounded : ∀ n ∈ ns, n.marker? = some .off → n.span.stop ≤ stop
  increasing : hasMarker ns = true → (ns.map fun n => n.span.stop).Pairwise (· ≤ ·)

structure Family.Anchored (source : Chars) (f : Family) : Prop where
  children : XamlFormat.Anchored source (Printer.contentEnd f.tag) f.children
  content : ∀ c, f.tag.content = some c →
    c.start ≤ c.stop ∧ IsBoundary source c.start ∧ IsBoundary source c.stop

def Node.edge (n : Node) : Nat × Option Marker := (n.span.stop, n.marker?)

namespace Anchored

variable {stop : Nat} {ns ms : List Node}

theorem tail {n : Node} (h : Anchored source stop (n :: ns)) : Anchored source stop ns where
  boundary := h.boundary
  stops m hm := h.stops m (List.mem_cons_of_mem n hm)
  follows m hm := h.follows m (List.mem_cons_of_mem n hm)
  bounded m hm := h.bounded m (List.mem_cons_of_mem n hm)
  increasing hm := (List.pairwise_cons.mp (h.increasing (by simp_all [hasMarker]))).2

theorem congr (h : Anchored source stop ns) (he : ms.map Node.edge = ns.map Node.edge) :
    Anchored source stop ms := by
  have hmem : ∀ m ∈ ms, ∃ n ∈ ns, n.span.stop = m.span.stop ∧ n.marker? = m.marker? := by
    intro m hm
    obtain ⟨n, hn, hedge⟩ := List.mem_map.mp (he ▸ List.mem_map_of_mem hm : m.edge ∈ ns.map Node.edge)
    exact ⟨n, hn, congrArg Prod.fst hedge, congrArg Prod.snd hedge⟩
  have hmarker : hasMarker ms = hasMarker ns := by
    have := congrArg (List.any · fun e => e.2.isSome) he
    simpa [List.any_map, Function.comp_def, Node.edge, hasMarker] using this
  have hstops : (ms.map fun n => n.span.stop) = ns.map fun n => n.span.stop := by
    have := congrArg (List.map Prod.fst) he
    simpa [Function.comp_def, Node.edge] using this
  refine ⟨h.boundary, fun m hm => ?_, fun m hm hoff => ?_, fun m hm hoff => ?_, fun hm => ?_⟩
  · obtain ⟨n, hn, hstop, -⟩ := hmem m hm
    exact hstop ▸ h.stops n hn
  · obtain ⟨n, hn, hstop, hsame⟩ := hmem m hm
    exact hstop ▸ h.follows n hn (hsame.trans hoff)
  · obtain ⟨n, hn, hstop, hsame⟩ := hmem m hm
    exact hstop ▸ h.bounded n hn (hsame.trans hoff)
  · rw [hstops]
    exact h.increasing (hmarker ▸ hm)

theorem perm (h : Anchored source stop ns) (hn : hasMarker ns = false) (hp : ms.Perm ns) :
    Anchored source stop ms where
  boundary := h.boundary
  stops m hm := h.stops m (hp.subset hm)
  follows m hm := h.follows m (hp.subset hm)
  bounded m hm := h.bounded m (hp.subset hm)
  increasing hm := by
    have : hasMarker ms = hasMarker ns := hp.any_eq
    simp [this, hn] at hm

theorem sound_region {n : Node} (h : Anchored source stop (n :: ns)) (hoff : n.marker? = some .off) :
    Verbatim.Sound source ⟨.marker n, n.span.stop, closeOf stop ns⟩ := by
  have hn := h.stops n List.mem_cons_self
  cases hf : ns.find? fun n => n.marker? == some .on with
  | none =>
    have hclose : closeOf stop ns = stop := by rw [closeOf, hf]
    rw [hclose]
    exact ⟨h.bounded n List.mem_cons_self hoff, hn, h.boundary⟩
  | some m =>
    have hm := List.mem_of_find?_eq_some hf
    have hclose : closeOf stop ns = m.span.stop := by rw [closeOf, hf]
    have hle := (List.pairwise_cons.mp (h.increasing (by simp [hasMarker, hoff]))).1
    rw [hclose]
    exact ⟨hle _ (List.mem_map_of_mem hm), hn, h.stops m (List.mem_cons_of_mem n hm)⟩

end Anchored

theorem Tag.content_of_preserved? {t : Tag} {content : Span} (h : t.preserved? = some content) :
    t.content = some content := by
  unfold Tag.preserved? at h
  split_ifs at h
  exact (Option.filter_eq_some_iff.mp h).1

mutual

theorem Node.sound_verbatim : ∀ (n : Node) (parent : Option Nat),
    (∀ f ∈ n.families parent, f.Anchored source) → ∀ v ∈ n.verbatim, v.Sound source
  | .text _ _, _, _ => by simp [Node.verbatim]
  | .raw _ _ _, _, _ => by simp [Node.verbatim]
  | .element tag children, parent, h => by
    rw [Node.families] at h
    obtain ⟨hf, hfs⟩ := List.forall_mem_cons.mp h
    rw [Node.verbatim]
    split
    · rename_i content hc
      obtain ⟨hle, hstart, hstop⟩ := hf.content content (Tag.content_of_preserved? hc)
      simpa using Verbatim.Sound.mk hle hstart hstop
    · exact sound_verbatimList children _ _ false hf.children hfs

theorem sound_verbatimList : ∀ (ns : List Node) (parent : Option Nat) (stop : Nat) (inside : Bool),
    Anchored source stop ns → (∀ f ∈ familiesList parent ns, f.Anchored source) →
    ∀ v ∈ verbatimList stop inside ns, v.Sound source
  | [], _, _, _, _, _ => by simp [verbatimList]
  | n :: ns, parent, stop, inside, h, hf => by
    rw [familiesList] at hf
    have hn := n.sound_verbatim parent fun f hmem => hf f (List.mem_append_left _ hmem)
    have hns := fun inside => sound_verbatimList ns parent stop inside h.tail
      fun f hmem => hf f (List.mem_append_right _ hmem)
    rw [verbatimList]
    split_ifs with hinside hoff
    · exact hns _
    · exact List.forall_mem_cons.mpr ⟨h.sound_region hoff, hns true⟩
    · exact List.forall_mem_append.mpr ⟨hn, hns false⟩

end

theorem Span.Tile.stops {start stop : Nat} {spans : List Span} (h : Span.Tile start stop spans) :
    start ≤ stop ∧ (∀ s ∈ spans, start ≤ s.stop ∧ s.stop ≤ stop) ∧
      (spans.map Span.stop).Pairwise (· ≤ ·) := by
  induction spans generalizing start with
  | nil => exact ⟨h.le, by simp, .nil⟩
  | cons s ss ih =>
    obtain ⟨rfl, hlt, hss⟩ := h
    obtain ⟨hle, hall, hpair⟩ := ih hss
    refine ⟨by omega, List.forall_mem_cons.mpr ⟨⟨by omega, hle⟩, fun r hr => ?_⟩,
      List.pairwise_cons.mpr ⟨List.forall_mem_map.mpr fun r hr => (hall r hr).1, hpair⟩⟩
    have := hall r hr
    omega

namespace Node.Occurs

variable {n : Node} {k : Nat} {ns ms : List Node}

theorem mono (h : n.Occurs k ns) (hsub : ns ⊆ ms) : n.Occurs k ms := by
  cases h with
  | here h => exact .here (hsub h)
  | inside h h' => exact .inside (hsub h) h'

theorem child {t : Tag} {children : List Node} (h : (Node.element t children).Occurs k ns)
    (hn : n ∈ children) : n.Occurs (k + 1) ns := by
  generalize he : Node.element t children = m at h
  induction h with
  | here h => exact .inside (he ▸ h) (.here hn)
  | inside h _ ih => exact .inside h ih

end Node.Occurs

mutual

theorem Node.occurs_of_mem_families {f : Family} : ∀ {n : Node} {parent : Option Nat},
    f ∈ n.families parent → ∃ k, (Node.element f.tag f.children).Occurs k [n]
  | .element t ns, parent, h => by
    rw [Node.families, List.mem_cons] at h
    obtain rfl | h := h
    · exact ⟨1, .here (by simp)⟩
    · obtain ⟨k, hk⟩ := occurs_of_mem_familiesList h
      exact ⟨k + 1, .inside List.mem_cons_self hk⟩
  | .text _ _, _, h => by simp [Node.families] at h
  | .raw _ _ _, _, h => by simp [Node.families] at h

theorem occurs_of_mem_familiesList {f : Family} : ∀ {ns : List Node} {parent : Option Nat},
    f ∈ familiesList parent ns → ∃ k, (Node.element f.tag f.children).Occurs k ns
  | [], _, h => by simp [familiesList] at h
  | n :: ns, parent, h => by
    rw [familiesList, List.mem_append] at h
    obtain h | h := h
    · obtain ⟨k, hk⟩ := n.occurs_of_mem_families h
      exact ⟨k, hk.mono (by simp)⟩
    · obtain ⟨k, hk⟩ := occurs_of_mem_familiesList h
      exact ⟨k, hk.mono (List.subset_cons_self n ns)⟩

end

theorem Located.children_eq_nil {depth : Nat} {t : Tag} {ns : List Node} {p : Part} {a : Chars}
    (h : Located source depth (.element t ns) p a) (hself : t.selfClosing = true) : ns = [] := by
  obtain ⟨opening, tag, cs, closing, rfl⟩ := h.exists_element
  obtain ⟨-, -, hempty, -, -⟩ := h.valid_element
  have heq := h.eq
  simp only [Part.place, Node.element.injEq] at heq
  obtain ⟨rfl, rfl⟩ := heq
  rw [(hempty hself).1]
  rfl

theorem Located.followsMarkup {depth : Nat} {n : Node} {p : Part} {a : Chars}
    (h : Located source depth n p a) (hp : p.isText = false) : FollowsMarkup source n.span.stop := by
  obtain ⟨b, hb⟩ := h.spelled
  refine ⟨a ++ p.spelled, b, by rw [hb, List.append_assoc], ?_, ?_⟩
  · rw [h.eq, Part.span_place, byteLength_append]
  · rw [List.getLast?_append, h.fits.getLast? hp]
    rfl

theorem Located.isText_of_marker {depth : Nat} {n : Node} {p : Part} {a : Chars}
    (h : Located source depth n p a) (hn : n.marker? = some .off) : p.isText = false := by
  cases p with
  | text => simp [h.eq, Part.place, Node.marker?] at hn
  | raw | element => rfl

/-- Behind markup, the last character that is no blank is still to come. -/
theorem FollowsMarkup.le_trimmed {n : Nat} (h : FollowsMarkup source n) :
    n ≤ byteLength (trimXmlEnd source) := by
  obtain ⟨a, b, rfl, rfl, ha⟩ := h
  rw [trimXmlEnd_append_of_getLast ha, byteLength_append]
  omega

theorem isBoundary_trimmed (source : Chars) : IsBoundary source (byteLength (trimXmlEnd source)) := by
  obtain ⟨-, b, -, hb⟩ := trimXmlEnd_spec source
  exact ⟨_, b, hb, rfl⟩

theorem Document.anchored_of_read {d : Document} (h : read source = .ok d) :
    Anchored source (byteLength (trimXmlEnd source)) d.nodes ∧
      ∀ f ∈ d.families, f.Anchored source := by
  obtain ⟨parts, hvalid, hsource, hd⟩ := read_sound h
  have hnodes : d.nodes = placeList (byteLength (markText d.byteOrderMark)) parts := by
    rw [hd]
    rfl
  have hlocated (n : Node) (k : Nat) (hn : n.Occurs k d.nodes) :
      ∃ p a, Located source (0 + k) n p a :=
    located_of_occurs 0 (b := []) (by simpa using hsource) hvalid.fits (hnodes ▸ hn)
  constructor
  · have htile := tile_placeList hvalid.fits (byteLength (markText d.byteOrderMark))
    rw [← hnodes] at htile
    have hfollows (n : Node) (hn : n ∈ d.nodes) (hoff : n.marker? = some .off) :
        FollowsMarkup source n.span.stop := by
      obtain ⟨p, a, hp⟩ := hlocated n 1 (.here hn)
      exact hp.followsMarkup (hp.isText_of_marker hoff)
    refine ⟨isBoundary_trimmed source, fun n hn => ?_, hfollows,
      fun n hn hoff => (hfollows n hn hoff).le_trimmed, fun _ => ?_⟩
    · obtain ⟨p, a, hp⟩ := hlocated n 1 (.here hn)
      exact hp.boundaries.2
    · simpa [Function.comp_def] using htile.stops.2.2
  · intro f hf
    obtain ⟨k, hk⟩ := occurs_of_mem_familiesList hf
    obtain ⟨p, a, hp⟩ := hlocated _ k hk
    have hchild (n : Node) (hn : n ∈ f.children) : IsBoundary source n.span.stop := by
      obtain ⟨q, b, hq⟩ := hlocated n (k + 1) (hk.child hn)
      exact hq.boundaries.2
    cases hself : f.tag.selfClosing with
    | true =>
      have hnone : f.tag.content = none := by
        simpa [hself] using hp.wellFormed.content
      have hend : Printer.contentEnd f.tag = f.tag.span.stop := by
        rw [Printer.contentEnd, hnone]
      refine ⟨?_, fun c hc => by simp [hnone] at hc⟩
      rw [hp.children_eq_nil hself, hend]
      exact ⟨hp.boundaries.2, by simp, by simp, by simp, by simp [hasMarker]⟩
    | false =>
      obtain ⟨content, hc⟩ := hp.encloses hself
      have hend : Printer.contentEnd f.tag = content.stop := by
        rw [Printer.contentEnd, hc.recorded]
      refine ⟨⟨hend ▸ hc.boundaries.2, hchild, fun n hn hoff => ?_, fun n hn _ => ?_, fun _ => ?_⟩,
        fun c hcontent => ?_⟩
      · obtain ⟨q, b, hq⟩ := hlocated n (k + 1) (hk.child hn)
        exact hq.followsMarkup (hq.isText_of_marker hoff)
      · rw [hend]
        exact (hc.tile.stops.2.1 _ (List.mem_map_of_mem hn)).2
      · simpa [Function.comp_def] using hc.tile.stops.2.2
      · cases hc.recorded.symm.trans hcontent
        exact ⟨hc.le, hc.boundaries⟩

section Retagging

variable {R : Tag → Tag → Prop}

mutual

theorem Node.Retagged.families (hR : ∀ t u, R t u → u.span = t.span) (parent : Option Nat) :
    ∀ {n m : Node}, n.Retagged R m →
      List.Forall₂ (fun f g => R f.tag g.tag ∧ RetaggedList R f.children g.children)
        (n.families parent) (m.families parent)
  | .element t ns, .element u ms, ⟨h, hns⟩ => by
    rw [Node.families, Node.families, hR t u h]
    exact .cons ⟨h, hns⟩ (hns.families hR _)
  | .text _ _, .text _ _, _ => .nil
  | .raw _ _ _, .raw _ _ _, _ => .nil

theorem RetaggedList.families (hR : ∀ t u, R t u → u.span = t.span) (parent : Option Nat) :
    ∀ {ns ms : List Node}, RetaggedList R ns ms →
      List.Forall₂ (fun f g => R f.tag g.tag ∧ RetaggedList R f.children g.children)
        (familiesList parent ns) (familiesList parent ms)
  | [], [], _ => .nil
  | n :: ns, m :: ms, ⟨h, hns⟩ => by
    rw [familiesList, familiesList]
    exact List.rel_append (h.families hR parent) (hns.families hR parent)

end

theorem Node.Retagged.edge_eq (hR : ∀ t u, R t u → u.span = t.span) {n m : Node}
    (h : n.Retagged R m) : m.edge = n.edge := by
  cases n with
  | element t ns =>
    cases m with
    | element u ms => simp [Node.edge, Node.span, Node.marker?, hR t u h.1]
    | text | raw => exact h.elim
  | text value span =>
    cases m with
    | text v sp =>
      obtain ⟨rfl, rfl⟩ := h
      rfl
    | element | raw => exact h.elim
  | raw kind content span =>
    cases m with
    | raw k c sp =>
      obtain ⟨rfl, rfl, rfl⟩ := h
      rfl
    | element | text => exact h.elim

theorem RetaggedList.map_edge (hR : ∀ t u, R t u → u.span = t.span) {ns ms : List Node}
    (h : RetaggedList R ns ms) : ms.map Node.edge = ns.map Node.edge := by
  induction ns generalizing ms with
  | nil =>
    cases ms with
    | nil => rfl
    | cons => exact h.elim
  | cons n ns ih =>
    cases ms with
    | nil => exact h.elim
    | cons m ms => rw [List.map_cons, List.map_cons, h.1.edge_eq hR, ih h.2]

end Retagging

theorem Family.Anchored.retag {f g : Family} (h : f.Anchored source)
    (hspan : g.tag.span = f.tag.span) (hcontent : g.tag.content = f.tag.content)
    (hedges : g.children.map Node.edge = f.children.map Node.edge) : g.Anchored source := by
  have hend : Printer.contentEnd g.tag = Printer.contentEnd f.tag := by
    rw [Printer.contentEnd, Printer.contentEnd, hcontent, hspan]
  exact ⟨hend ▸ h.children.congr hedges, fun c hc => h.content c (hcontent ▸ hc)⟩

section Rework

variable {s : Settings} {g : Tag → Tag}

theorem map_edge_arrangeAllList (hg : ∀ t, (g t).span = t.span) (ns : List Node) :
    (arrangeAllList s (mapTagsList g ns)).map Node.edge = ns.map Node.edge := by
  induction ns with
  | nil => rfl
  | cons n ns ih =>
    have hn : ((n.mapTags g).arrangeAll s).edge = n.edge := by
      cases n <;> simp [Node.mapTags, Node.arrangeAll, Node.edge, Node.span, Node.marker?, hg]
    rw [mapTagsList, arrangeAllList, List.map_cons, List.map_cons, hn, ih]

/-- Siblings with a marker stay in their order, and others have no regions. -/
theorem Family.Anchored.rework {f : Family} (h : f.Anchored source)
    (hspan : ∀ t, (g t).span = t.span) (hcontent : (g f.tag).content = f.tag.content) :
    (f.rework s g).Anchored source := by
  have hinner : Family.Anchored source
      ⟨f.parent, g f.tag, arrangeAllList s (mapTagsList g f.children)⟩ :=
    h.retag (hspan f.tag) hcontent (map_edge_arrangeAllList hspan f.children)
  refine ⟨?_, hinner.content⟩
  by_cases hm : hasMarker (arrangeAllList s (mapTagsList g f.children)) = true
  · have hsame : (f.rework s g).children = arrangeAllList s (mapTagsList g f.children) := by
      rw [Family.rework, arrange, if_neg (by simp [mayReorder, hm])]
    rw [hsame]
    exact hinner.children
  · exact hinner.children.perm (by simpa using hm) (rearranged_arrange s _ _).perm

end Rework

namespace Document

/-- The regions of a document still lie in its source when its tree has changed. -/
theorem anchored_applyRules {d d' : Document} (h : read source = .ok d)
    (hd : d' = d ∨ d' = (d.annotate source).1) (s : Settings) :
    Anchored source (byteLength (trimXmlEnd source)) (d'.applyRules s).nodes ∧
      ∀ f ∈ (d'.applyRules s).families, f.Anchored source := by
  have hspan : ∀ t u : Tag, t.Annotates u → u.span = t.span := by
    rintro t _ ⟨attributes, -, rfl⟩
    rfl
  have hretagged := retagged_of_annotated hd
  obtain ⟨htop, hfamilies⟩ := anchored_of_read h
  have hfamilies' : ∀ f ∈ d'.families, f.Anchored source := by
    intro f hf
    obtain ⟨f', hf', htag, hchildren⟩ := exists_of_forall₂ (hretagged.families hspan none) f hf
    refine (hfamilies f' hf').retag (hspan _ _ htag) ?_ (hchildren.map_edge hspan)
    obtain ⟨attributes, -, heq⟩ := htag
    rw [heq]
  obtain ⟨g, hg, hnodes⟩ := applyRules_nodes s d'
  have hgspan : ∀ t, (g t).span = t.span := fun t => (hg t).span
  constructor
  · rw [hnodes]
    exact (htop.congr (hretagged.map_edge hspan)).congr (map_edge_arrangeAllList hgspan _)
  · intro f hf
    rw [families, hnodes] at hf
    obtain ⟨f', hf', rfl⟩ :=
      List.mem_map.mp ((familiesList_arrangeAllList hgspan none d'.nodes).subset hf)
    exact (hfamilies' f' hf').rework hgspan (hg f'.tag).content

end Document

theorem getLast?_print_marker (p : Printer) {n : Node} (h : n.marker? = some .off) (depth : Nat)
    (isRoot inline : Bool) : (n.print p depth isRoot inline).getLast? = some '>' := by
  obtain ⟨content, span, -, htext⟩ := leads_marker p h depth isRoot inline
  rw [htext, List.getLast?_append]
  rfl

/-- What is left of an open region when the blanks at its end are removed is what it copies when it
ends before them. -/
theorem trimmed_block (p : Printer) (hn : p.newLine = ['\n'] ∨ p.newLine = ['\r', '\n'])
    (lead : Chars) {ns : List Node}
    (h : ∀ n ∈ ns, n.marker? = some .off → FollowsMarkup p.source n.span.stop) :
    let block (stop : Nat) := printBlock p 0 stop true ⟨true, 0, false⟩ ns
    let body := lead ++ (block (byteLength p.source)).1
    (if (block (byteLength p.source)).2 then trimXmlEnd body else body) =
      lead ++ (block (byteLength (trimXmlEnd p.source))).1 := by
  intro block body
  obtain ⟨t, hblock⟩ | ⟨hs, -⟩ | ⟨t, n, hmem, hoff, hblock⟩ :=
    printBlock_shape p 0 true ns ⟨true, 0, false⟩
  · simp only [body, block, hblock, Bool.false_eq_true, if_false]
  · cases hs
  · obtain ⟨a, b, hsource, hstop, ha⟩ := h n hmem hoff
    have hall : slice p.source n.span.stop (byteLength p.source) = b := by
      rw [hsource, hstop, byteLength_append]
      simpa using slice_append a b []
    have htrimmed : slice p.source n.span.stop (byteLength (trimXmlEnd p.source)) =
        trimXmlEnd b := by
      obtain ⟨-, blanks, -, hb⟩ := trimXmlEnd_spec b
      rw [hsource, hstop, trimXmlEnd_append_of_getLast ha, byteLength_append]
      have hslice := slice_append a (trimXmlEnd b) blanks
      rwa [← hb] at hslice
    have hlast : (lead ++ (t ++ n.print p 0 true false)).getLast? = some '>' := by
      simp [List.getLast?_append, getLast?_print_marker p hoff]
    have htrim := trimXmlEnd_withLineEnds (s := b) hn hlast
    simp only [List.append_assoc] at htrim
    simp only [body, block, hblock, if_true, Printer.copiedSource, Printer.copied, hall, htrimmed,
      htrim]

namespace Document

theorem read_of_readWith {s : Settings} {d' : Document} (h : readWith s source = .ok d') :
    ∃ d, read source = .ok d ∧ (d' = d ∨ d' = (d.annotate source).1) := by
  unfold readWith at h
  split at h
  · cases h
  · rename_i d hread
    refine ⟨d, hread, ?_⟩
    split_ifs at h
    · split at h
      · rename_i hd
        cases h
        exact .inr (by rw [hd])
      · cases h
    · cases h
      exact .inl rfl

/-- Copied parts come out as they stood. The tree that is printed has been changed in all the ways
that the settings ask for, and its spans are those of the source. -/
theorem style_copies_verbatim {s : Settings} {dialect : Dialect} {text out : Chars}
    (hs : s.suppressProcessing = false) (h : style s dialect text = .ok out) :
    ∃ d, readWith s (unifyLineEnds text) = .ok d ∧
      Copies ⟨unifyLineEnds text, s, dialect.unescaped s⟩
        ((d.applyRules s).verbatim (unifyLineEnds text)) out ∧
      ∀ v ∈ (d.applyRules s).verbatim (unifyLineEnds text), v.Sound (unifyLineEnds text) := by
  obtain ⟨d, hd, -, rfl⟩ := exists_of_style hs h
  obtain ⟨_, hread, hannotated⟩ := read_of_readWith hd
  obtain ⟨htop, hfamilies⟩ := anchored_applyRules hread hannotated s
  refine ⟨d, hd, ?_, sound_verbatimList _ none _ false htop hfamilies⟩
  have htrimmed := trimmed_block (printer (unifyLineEnds text) s dialect) s.newLine_eq
    (markText (d.applyRules s).byteOrderMark) htop.follows
  have hblock := copies_printBlock (printer (unifyLineEnds text) s dialect) (d.applyRules s).nodes
    0 (byteLength (trimXmlEnd (unifyLineEnds text))) true ⟨true, 0, false⟩
  refine .back ?_ _
  exact htrimmed ▸ hblock.front _

theorem style_copies_verbatim_sample :
    ∃ d, style Settings.standard .xaml "<A><!--xamlfmt:off--> <B  /></A>\r\n".toList =
        .ok "<A>\n    <!--  xamlfmt:off  --> <B  /></A>\n".toList ∧
      readWith Settings.standard "<A><!--xamlfmt:off--> <B  /></A>\n".toList = .ok d ∧
      Copies ⟨"<A><!--xamlfmt:off--> <B  /></A>\n".toList, Settings.standard, []⟩
        ((d.applyRules Settings.standard).verbatim "<A><!--xamlfmt:off--> <B  /></A>\n".toList)
        "<A>\n    <!--  xamlfmt:off  --> <B  /></A>\n".toList := by
  obtain ⟨_, h, rfl⟩ : ∃ out, style Settings.standard .xaml
      "<A><!--xamlfmt:off--> <B  /></A>\r\n".toList = .ok out ∧
      out = "<A>\n    <!--  xamlfmt:off  --> <B  /></A>\n".toList :=
    exists_ok_of_any (by decide +kernel)
  obtain ⟨d, hd, hcopies, -⟩ := style_copies_verbatim rfl h
  exact ⟨d, h, hd, hcopies⟩

end Document

end Bounds

end XamlFormat
