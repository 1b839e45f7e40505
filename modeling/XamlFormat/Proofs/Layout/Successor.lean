import XamlFormat.Proofs.Layout.Restyled

/-! A document and the one that is read from what it prints. Each tag of one is found in the other:
those that are copied as they were, and those that are laid out as the settings made them. -/
namespace XamlFormat

open Markup Text StartTag Reference

section Origin

variable {R : Tag → Tag → Prop}

mutual

/-- Each tag of a node is copied, or it is what an element that is laid out was dressed with. -/
theorem Part.tags_dress (hR : ∀ t u, R t u → t.Recast u) : ∀ (q : Part) (n : Node) (pos : Nat),
    (q.place pos).Retagged R n → ∀ t ∈ (q.place pos).tags, (∃ x ∈ (q.dress n).own, R t x.1) ∨
      ∃ c ∈ q.copiedTags false, ∃ pos stop content, t = c.place pos stop content
  | .text _ _, _, _, _ => by simp [Part.place, Node.tags]
  | .raw _ _, _, _, _ => by simp [Part.place, Node.tags]
  | .element opening tag children closing, n, pos, hn => by
    cases n with
    | text | raw => exact hn.elim
    | element u ms =>
      obtain ⟨hu, hms⟩ := hn
      rw [Part.place, Node.tags, List.forall_mem_cons]
      refine ⟨.inl ⟨_, List.mem_cons_self, hu⟩, fun t ht => ?_⟩
      by_cases hp : (tag.preserveSpace && !children.isEmpty) = true
      · obtain ⟨w, hw, hplace⟩ := exists_of_forall₂ (tagsList_placeList children _) t ht
        refine .inr ⟨w, ?_, hplace⟩
        rw [copiedTags_element, hp, copiedTagsList_true]
        exact hw
      · obtain ⟨x, hx, hxt⟩ | ⟨c, hc, hplace⟩ := tagsList_dress hR children ms _ false hms t ht
        · have hpreserve : u.preserveSpace = tag.preserveSpace := (hR _ _ hu).preserveSpace
          refine .inl ⟨x, ?_, hxt⟩
          rw [Part.dress, Part.own, hpreserve, if_neg hp, isEmpty_dressList hms, if_neg hp]
          exact List.mem_cons_of_mem _ hx
        · refine .inr ⟨c, ?_, hplace⟩
          rw [Bool.not_eq_true] at hp
          rw [copiedTags_element, hp]
          exact hc

theorem tagsList_dress (hR : ∀ t u, R t u → t.Recast u) :
    ∀ (ps : List Part) (ns : List Node) (pos : Nat) (suppressed : Bool),
      RetaggedList R (placeList pos ps) ns → ∀ t ∈ tagsList (placeList pos ps),
      (∃ x ∈ ownList suppressed (dressList suppressed ps ns), R t x.1) ∨
      ∃ c ∈ copiedTagsList false suppressed ps, ∃ pos stop content, t = c.place pos stop content
  | [], _, _, _, _ => by simp [placeList, tagsList]
  | p :: ps, ns, pos, suppressed, hn => by
    cases ns with
    | nil => exact hn.elim
    | cons n ns =>
      obtain ⟨hn, hns⟩ := hn
      have hrest := tagsList_dress hR ps ns _ (p.regionAfter suppressed) hns
      rw [placeList, tagsList, dressList, ownList, copiedTagsList]
      intro t ht
      obtain ht | ht := List.mem_append.mp ht
      · cases suppressed with
        | true =>
          obtain ⟨w, hw, hplace⟩ := exists_of_forall₂ (p.tags_place pos) t ht
          exact .inr ⟨w, List.mem_append_left _ (p.copiedTags_true ▸ hw), hplace⟩
        | false =>
          obtain ⟨x, hx, hxt⟩ | ⟨c, hc, hplace⟩ := p.tags_dress hR n pos hn t ht
          · exact .inl ⟨x, List.mem_append_left _ hx, hxt⟩
          · exact .inr ⟨c, List.mem_append_left _ hc, hplace⟩
      · have hafter : Part.regionAfter suppressed (if suppressed then p else p.dress n) =
            p.regionAfter suppressed := by
          cases suppressed with
          | true => rfl
          | false => exact regionAfter_dress p n false
        rw [hafter]
        obtain ⟨x, hx, hxt⟩ | ⟨c, hc, hplace⟩ := hrest t ht
        · exact .inl ⟨x, List.mem_append_right _ hx, hxt⟩
        · exact .inr ⟨c, List.mem_append_right _ hc, hplace⟩

end

end Origin

/-- The parts that a document shows once the settings are applied to it, and where their tags come
from. -/
structure Document.Shows (s : Settings) (source : Chars) (d : Document) (qs : List Part) : Prop where
  ready : ReadyTop qs
  shown : ShownList source (byteLength source) false qs (d.applyRules s).nodes
  own : ∀ x ∈ ownList false qs, d.Tidies s x.1
  tags : ∀ t ∈ d.tags, (∃ x ∈ ownList false qs, x.1 = d.tidy s t) ∨
    ∃ c ∈ copiedTagsList false false qs, ∃ pos stop content,
      t = (c.place pos stop content).withReadings s
  copied : ∀ c ∈ copiedTagsList false false qs, ∃ pos stop content,
    (c.place pos stop content).withReadings s ∈ d.tags
  qualifiers : d.copiedQualifiers.Perm ((copiedTagsList false false qs).flatMap Tag.qualifiers)

theorem Tag.Recast.trans {t u v : Tag} (h : t.Recast u) (h' : u.Recast v) : t.Recast v :=
  ⟨h'.selfClosing.trans h.selfClosing, h'.preserveSpace.trans h.preserveSpace,
    h'.span.trans h.span, h'.content.trans h.content, fun hl => h'.legible (h.legible hl)⟩

section Shows

variable {s : Settings} {source : Chars} {byteOrderMark : Bool} {parts : List Part}

namespace Document

theorem applyRules_nodes_eq (s : Settings) (d : Document) :
    (d.applyRules s).nodes = arrangeAllList s (mapTagsList (d.tidy s) d.nodes) := by
  rw [applyRules, tidyAttributes_eq_mapTags]
  rfl

theorem mem_tags_of_mem_allTags {w : Tag} (h : w ∈ allTags parts) (s : Settings)
    (byteOrderMark : Bool) : ∃ pos stop content, (w.place pos stop content).withReadings s ∈
      ((ofParts byteOrderMark parts).mapTags (Tag.withReadings s)).tags := by
  obtain ⟨t, ht, pos, stop, content, rfl⟩ :=
    exists_of_forall₂ (tagsList_placeList parts _).flip w h
  refine ⟨pos, stop, content, ?_⟩
  rw [tags_mapTags]
  exact List.mem_map_of_mem ht

theorem exists_of_mem_tags {t : Tag}
    (h : t ∈ ((ofParts byteOrderMark parts).mapTags (Tag.withReadings s)).tags) :
    ∃ w ∈ allTags parts, ∃ pos stop content, t = (w.place pos stop content).withReadings s := by
  rw [tags_mapTags] at h
  obtain ⟨u, hu, rfl⟩ := List.mem_map.mp h
  obtain ⟨w, hw, pos, stop, content, rfl⟩ := exists_of_forall₂ (tagsList_placeList parts _) u hu
  exact ⟨w, hw, pos, stop, content, rfl⟩

theorem copiedQualifiers_eq (hvalid : ValidTop false parts) (s : Settings) (byteOrderMark : Bool) :
    ((ofParts byteOrderMark parts).mapTags (Tag.withReadings s)).copiedQualifiers =
      (copiedTagsList false false parts).flatMap Tag.qualifiers := by
  refine copiedQualifiersList_eq (R := fun t u => u = t.withReadings s) ?_ ?_ parts _ _ 1 false false
    hvalid.fits (retaggedList_mapTagsList _ fun _ _ => rfl)
  · rintro t _ rfl
    exact Tag.recast_withReadings s t
  · rintro t _ rfl
    simp [Tag.qualifiers, Tag.withReadings, Attribute.withReading, Function.comp_def]

theorem exists_shows (hreturn : '\r' ∉ source) (hvalid : ValidTop false parts)
    (hsource : source = markText byteOrderMark ++ spelledList parts)
    (hcan : ∀ t ∈ (ofParts byteOrderMark parts).tags, ∀ a ∈ t.attributes, s.CanRead a.value) :
    ∃ qs, ((ofParts byteOrderMark parts).mapTags (Tag.withReadings s)).Shows s source qs := by
  let d₀ := ofParts byteOrderMark parts
  let d := d₀.mapTags (Tag.withReadings s)
  let R (t u : Tag) : Prop := t ∈ d₀.tags ∧ u = d.tidy s (t.withReadings s)
  have hR : ∀ t u, R t u → t.Recast u := by
    rintro t _ ⟨-, rfl⟩
    exact (Tag.recast_withReadings s t).trans (recast_tidy s d _)
  have hn : RetaggedList R d₀.nodes (mapTagsList (fun t => d.tidy s (t.withReadings s)) d₀.nodes) :=
    retaggedList_mapTagsList _ fun t ht => ⟨ht, rfl⟩
  obtain ⟨hready, hshown⟩ := dress_spec hR hreturn hvalid hsource hn
  have hown := ownList_dressList hR parts _ _ false hn
  have htags := tagsList_dress hR parts _ _ false hn
  have hcopied := copiedTagsList_dressList hR parts _ _ false hn
  generalize dressList false parts _ = qs₀ at hready hshown hown htags hcopied
  obtain ⟨qs, hbare, hshown', hready', hperm, hpermCopied, -⟩ :=
    exists_arrangedList s qs₀ _ 1 _ false hshown hready.ready
  rw [hcopied] at hpermCopied
  have hall := allTags_perm parts false
  refine ⟨qs, ⟨hready', hready.order.of_bare? hbare⟩, ?_, ?_, ?_, ?_, ?_⟩
  · rw [applyRules_nodes_eq, mapTags, mapTagsList_mapTagsList]
    exact hshown'
  · intro x hx
    obtain ⟨y, hy, hyx⟩ := List.mem_map.mp (hperm.subset (List.mem_map_of_mem hx))
    obtain ⟨z, -, ⟨pos, stop, content, hmem, htidy⟩, -⟩ := exists_of_forall₂ hown y hy
    refine ⟨_, unread_tags hvalid byteOrderMark _ hmem, hcan _ hmem, ?_, hyx ▸ htidy⟩
    rw [tags_mapTags]
    exact List.mem_map_of_mem hmem
  · intro t ht
    rw [tags_mapTags] at ht
    obtain ⟨t₀, ht₀, rfl⟩ := List.mem_map.mp ht
    obtain ⟨x, hx, -, htidy⟩ | ⟨c, hc, pos, stop, content, rfl⟩ := htags t₀ ht₀
    · obtain ⟨y, hy, hyx⟩ := List.mem_map.mp (hperm.symm.subset (List.mem_map_of_mem hx))
      exact .inl ⟨y, hy, hyx.trans htidy⟩
    · exact .inr ⟨c, hpermCopied.symm.subset hc, pos, stop, content, rfl⟩
  · intro c hc
    exact mem_tags_of_mem_allTags (hall.symm.subset
      (List.mem_append_right _ (hpermCopied.subset hc))) s byteOrderMark
  · rw [copiedQualifiers_eq hvalid]
    exact hpermCopied.symm.flatMap_right _

end Document

end Shows

section Successor

variable {s : Settings} {source : Chars} {d : Document} {qs : List Part} {p : Printer}

theorem Tag.mem_attributes_place {c : Tag} {pos stop : Nat} {content : Option Span} {a : Attribute}
    (h : a ∈ ((c.place pos stop content).withReadings s).attributes) (pos' stop' : Nat)
    (content' : Option Span) :
    ∃ b ∈ ((c.place pos' stop' content').withReadings s).attributes,
      b.name = a.name ∧ b.value = a.value := by
  obtain ⟨a₁, ha₁, rfl⟩ := List.mem_map.mp h
  obtain ⟨a₀, ha₀, rfl⟩ := List.mem_map.mp ha₁
  exact ⟨_, List.mem_map_of_mem (List.mem_map_of_mem ha₀), rfl, rfl⟩

namespace Document.Shows

variable (h : d.Shows s source qs) (hplain : d.PlainDeclarations s)
  (hu : EscapesLineEnds p.unescaped)

include h hplain hu

theorem own_layout (trailing : Bool) :
    List.Forall₂ (Relaid p) (ownList false qs) (ownList false (layoutTop p trailing qs)) ∧
      copiedTagsList false false (layoutTop p trailing qs) = copiedTagsList false false qs :=
  own_layoutTop trailing fun x hx _ hw => (h.own x hx).preserveSpace hplain hu hw

/-- Every tag of the layout is printed from one that is laid out, or copied. -/
theorem mem_allTags {trailing : Bool} {w : Tag} (hw : w ∈ allTags (layoutTop p trailing qs)) :
    (∃ x ∈ ownList false qs, Printed p x.1 w) ∨ w ∈ copiedTagsList false false qs := by
  obtain ⟨hown, hcopied⟩ := h.own_layout hplain hu trailing
  obtain hw | hw := List.mem_append.mp ((allTags_perm _ false).subset hw)
  · obtain ⟨y, hy, rfl⟩ := List.mem_map.mp hw
    obtain ⟨x, hx, hprinted, -⟩ := exists_of_forall₂ hown y hy
    exact .inl ⟨x, hx, hprinted⟩
  · exact .inr (hcopied ▸ hw)

theorem exists_printed (trailing : Bool) {x : Tag × List Part} (hx : x ∈ ownList false qs) :
    ∃ w ∈ allTags (layoutTop p trailing qs), Printed p x.1 w := by
  obtain ⟨y, hy, hprinted, -⟩ :=
    exists_of_forall₂ (h.own_layout hplain hu trailing).1.flip x hx
  exact ⟨y.1, (allTags_perm _ false).symm.subset
    (List.mem_append_left _ (List.mem_map_of_mem hy)), hprinted⟩

theorem mem_allTags_of_copied (trailing : Bool) {c : Tag} (hc : c ∈ copiedTagsList false false qs) :
    c ∈ allTags (layoutTop p trailing qs) :=
  (allTags_perm _ false).symm.subset
    (List.mem_append_right _ ((h.own_layout hplain hu trailing).2 ▸ hc))

theorem canRead (hread : ∀ t ∈ d.tags, ∀ a ∈ t.attributes, a.IsRead s) (trailing : Bool)
    (byteOrderMark : Bool) :
    ∀ t ∈ (ofParts byteOrderMark (layoutTop p trailing qs)).tags, ∀ a ∈ t.attributes,
      s.CanRead a.value := by
  intro t ht a ha
  obtain ⟨w, hw, pos, stop, content, rfl⟩ := exists_of_forall₂ (tagsList_placeList _ _) t ht
  obtain ⟨x, hx, hprinted⟩ | hw := h.mem_allTags hplain hu hw
  · exact (h.own x hx).canRead hplain hu hprinted pos stop content a ha
  · obtain ⟨pos', stop', content', hmem⟩ := h.copied w hw
    obtain ⟨b, hb, -, hvalue⟩ := Tag.mem_attributes_place (List.mem_map_of_mem ha) pos' stop' content'
    have := (hread _ hmem b hb).canRead
    rwa [hvalue] at this

/-- The document that is read from the layout has nothing more to lose. -/
theorem follows (trailing : Bool) (byteOrderMark : Bool)
    (hvalid : ValidTop false (layoutTop p trailing qs)) :
    d.Follows s ((ofParts byteOrderMark (layoutTop p trailing qs)).mapTags (Tag.withReadings s)) where
  copied q := by
    rw [copiedQualifiers_eq hvalid, (h.own_layout hplain hu trailing).2]
    exact h.qualifiers.mem_iff.symm
  declared u hmem b hb hdeclared := by
    obtain ⟨w, hw, pos, stop, content, rfl⟩ := exists_of_mem_tags hmem
    obtain ⟨x, hx, hprinted⟩ | hw := h.mem_allTags hplain hu hw
    · have hrenewed := (h.own x hx).renewed hplain hu hprinted pos stop content
      obtain ⟨a, ha, hab⟩ := exists_of_forall₂ hrenewed b hb
      obtain ⟨t, ht, c, hc, hcread, c', hkept, group, rfl⟩ := (h.own x hx).mem_attributes ha
      have hname := name_renewed hkept hab.ungroup
      rw [hname] at hdeclared
      have hvalue := hplain.value_renewed ht hc hcread hkept hab.ungroup (.inl hdeclared)
      rw [hplain.kept?_declaration hkept hdeclared] at hvalue
      exact ⟨t, ht, c, hc, hname.symm, hvalue.symm⟩
    · obtain ⟨pos', stop', content', hmem'⟩ := h.copied w hw
      obtain ⟨a, ha, hname, hvalue⟩ := Tag.mem_attributes_place hb pos' stop' content'
      exact ⟨_, hmem', a, ha, hname, hvalue⟩
  names t ht := by
    obtain ⟨x, hx, htidy⟩ | ⟨c, hc, pos, stop, content, rfl⟩ := h.tags t ht
    · obtain ⟨w, hw, hprinted⟩ := h.exists_printed hplain hu trailing hx
      obtain ⟨pos, stop, content, hmem⟩ := mem_tags_of_mem_allTags hw s byteOrderMark
      refine ⟨_, hmem, ?_⟩
      have hname := ((h.own x hx).kept_place hu hprinted pos stop content).2.1
      exact hname.trans (htidy ▸ rfl)
    · obtain ⟨pos', stop', content', hmem⟩ := mem_tags_of_mem_allTags
        (h.mem_allTags_of_copied hplain hu trailing hc) s byteOrderMark
      exact ⟨_, hmem, rfl⟩
  attributes t ht a ha a' hkept := by
    obtain ⟨x, hx, htidy⟩ | ⟨c, hc, pos, stop, content, rfl⟩ := h.tags t ht
    · obtain ⟨w, hw, hprinted⟩ := h.exists_printed hplain hu trailing hx
      obtain ⟨pos, stop, content, hmem⟩ := mem_tags_of_mem_allTags hw s byteOrderMark
      obtain ⟨group, hx'⟩ := mem_tidy_of_kept? ha hkept
      rw [← htidy] at hx'
      have hrenewed := (h.own x hx).renewed hplain hu hprinted pos stop content
      obtain ⟨b, hb, hab⟩ := exists_of_forall₂ hrenewed.flip _ hx'
      exact ⟨_, hmem, b, hb, .inr hab.ungroup⟩
    · obtain ⟨pos', stop', content', hmem⟩ := mem_tags_of_mem_allTags
        (h.mem_allTags_of_copied hplain hu trailing hc) s byteOrderMark
      obtain ⟨b, hb, hname, hvalue⟩ := Tag.mem_attributes_place ha pos' stop' content'
      refine ⟨_, hmem, b, hb, .inl ⟨hname, hvalue, fun q hq => ?_⟩⟩
      refine h.qualifiers.mem_iff.mpr (List.mem_flatMap.mpr ⟨c, hc, ?_⟩)
      obtain ⟨a₁, ha₁, rfl⟩ := List.mem_map.mp ha
      obtain ⟨a₀, ha₀, rfl⟩ := List.mem_map.mp ha₁
      exact List.mem_filterMap.mpr ⟨a₀.name, List.mem_cons_of_mem _ (List.mem_map_of_mem ha₀), hq⟩

end Document.Shows

end Successor

end XamlFormat
