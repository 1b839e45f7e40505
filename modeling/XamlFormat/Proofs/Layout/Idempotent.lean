import XamlFormat.Proofs.Layout.Successor

/-! Styling twice. What was styled is styled as it is, where the document has none of a few oddities
that styling does not settle at once. -/
namespace XamlFormat

open Markup Text StartTag Reference

/-- Documents that are settled once they are styled. -/
structure Document.Regular (s : Settings) (d : Document) : Prop where
  /-- Running text is not all trimmed away at the edges of its element. -/
  texts : ∀ f ∈ d.families, f.tag.preserveSpace = false →
    f.children.any Node.isSignificant = true → keepsText true false f.children = true
  /-- What setters are sorted by holds no extension. -/
  setters : s.setterOrder ≠ .keep → ∀ t ∈ d.tags, isSetter t = true → ∀ a ∈ t.attributes,
    a.name.written = "Property".toList ∨ a.name.written = "TargetName".toList → a.extension = none
  /-- Sorting by position and sorting setters do not undo each other. -/
  level : ∀ f ∈ (d.tidyAttributes s).families, SettersLevel s f.tag.name (childTags f.children)
  declarations : d.PlainDeclarations s

section Decidable

variable (s : Settings) (d : Document)

instance (name : QName) (ts : List Tag) : Decidable (SettersLevel s name ts) :=
  match h : positionKey? s name with
  | none => .isTrue fun _ key hkey => by simp [h] at hkey
  | some key => decidable_of_iff (s.setterOrder ≠ .keep → ∀ a ∈ ts, ∀ b ∈ ts,
      isSetter a = true → isSetter b = true → (key a).toOption = (key b).toOption)
      ⟨fun hlevel hk _ hkey => Option.some.inj (h.symm.trans hkey) ▸ hlevel hk,
        fun hlevel hk => hlevel hk key h⟩

instance : Decidable (d.PlainDeclarations s) :=
  decidable_of_iff
    ((∀ t ∈ d.tags, ∀ a ∈ t.attributes,
      a.name.declared?.isSome = true ∨ a.name.base = "Ignorable".toList →
        '{' ∉ a.value ∧ a.name.written ∉ s.thicknessAttributes) ∧
      ∀ q ∈ d.declaredQualifiers (compatibilityNamespace :: s.designTimeNamespaces),
        q ≠ "xml".toList ∧ q ≠ "xmlns".toList)
    ⟨fun h => ⟨h.1, h.2⟩, fun h => ⟨h.values, h.reserved⟩⟩

instance : Decidable (d.Regular s) :=
  decidable_of_iff
    ((∀ f ∈ d.families, f.tag.preserveSpace = false →
      f.children.any Node.isSignificant = true → keepsText true false f.children = true) ∧
      (s.setterOrder ≠ .keep → ∀ t ∈ d.tags, isSetter t = true → ∀ a ∈ t.attributes,
        a.name.written = "Property".toList ∨ a.name.written = "TargetName".toList →
          a.extension = none) ∧
      (∀ f ∈ (d.tidyAttributes s).families, SettersLevel s f.tag.name (childTags f.children)) ∧
      d.PlainDeclarations s)
    ⟨fun h => ⟨h.1, h.2.1, h.2.2.1, h.2.2.2⟩, fun h => ⟨h.texts, h.setters, h.level, h.declarations⟩⟩

end Decidable

section Lasting

variable {s : Settings} {source : Chars} {d d' : Document} {qs : List Part} {p : Printer}

theorem Attribute.extension_normalizeThickness (s : Settings) (a : Attribute) :
    (a.normalizeThickness s).extension = a.extension := by
  unfold normalizeThickness
  split_ifs <;> rfl

namespace Document.Shows

variable (h : d.Shows s source qs) (hd : d.Regular s)

include h hd

theorem solid : ∀ x ∈ ownList false qs, x.1.preserveSpace = false →
    x.2.any Part.isSignificant = true → hasSolid true false x.2 = true := by
  have hshown := h.shown
  rw [applyRules_nodes_eq] at hshown
  exact solid_arrangeAll (fun t => (recast_tidy s d t).span)
    (fun t => (recast_tidy s d t).preserveSpace) hd.texts hshown

theorem inOrder : ∀ x ∈ ownList false qs, InOrder s x.1 x.2 := by
  have hlevel := hd.level
  rw [families, tidyAttributes_eq_mapTags] at hlevel
  have hshown := h.shown
  rw [applyRules_nodes_eq] at hshown
  exact inOrder_arrangeAll hlevel hshown

theorem setters (hk : s.setterOrder ≠ .keep) : ∀ x ∈ ownList false qs, isSetter x.1 = true →
    ∀ a ∈ x.1.attributes, a.name.written = "Property".toList ∨
      a.name.written = "TargetName".toList → a.extension = none := by
  intro x hx hsetter a ha hname
  obtain ⟨t, -, -, ht, htidy⟩ := h.own x hx
  rw [htidy] at hsetter ha
  obtain ⟨b, hb, b', hkept, group, rfl⟩ := mem_tidy ha
  have hnone := hd.setters hk _ ht hsetter b hb
  dsimp only at hname ⊢
  rw [Attribute.name_normalizeThickness, name_of_kept? hkept] at hname
  rw [Attribute.extension_normalizeThickness, extension_of_kept? hkept, hnone hname]

variable (hu : EscapesLineEnds p.unescaped) (hfollows : d.Follows s d')
  (hread : ∀ t ∈ d.tags, ∀ a ∈ t.attributes, a.IsRead s)

include hu hfollows hread

theorem lasting : ∀ x ∈ ownList false qs,
    Lasting p (fun t u => u = d'.tidy s (t.withReadings s)) x.1 x.2 := by
  intro x hx
  have hown := h.own x hx
  refine ⟨⟨fun w hw => hown.preserveSpace hd.declarations hu hw, ?_⟩, h.solid hd x hx⟩
  rintro w pos stop content _ hw rfl
  obtain ⟨hname, hpinned, hattributes⟩ :=
    hown.again hfollows hd.declarations hread hu hw pos stop content
  exact Tag.core_eq hname hpinned hattributes

theorem sameKeys : ∀ x ∈ ownList false qs, ∀ name w pos stop content u, Printed p x.1 w →
    u = d'.tidy s ((w.place pos stop content).withReadings s) → SameKeys s name x.1 u := by
  rintro x hx name w pos stop content _ hw rfl
  obtain ⟨hname, -, hattributes⟩ :=
    (h.own x hx).again hfollows hd.declarations hread hu hw pos stop content
  exact sameKeys_of_renewed name hname (hattributes.imp fun _ _ hab => hab.1)
    fun hk => h.setters hd hk x hx

end Document.Shows

end Lasting

section Style

variable {s : Settings} {dialect : Dialect}

namespace Document

theorem isRead_withReadings {d₀ : Document}
    (hcan : ∀ t ∈ d₀.tags, ∀ a ∈ t.attributes, s.CanRead a.value) :
    ∀ t ∈ (d₀.mapTags (Tag.withReadings s)).tags, ∀ a ∈ t.attributes, a.IsRead s := by
  rw [tags_mapTags, List.forall_mem_map]
  intro t ht
  rw [Tag.withReadings, List.forall_mem_map]
  exact fun a ha => ⟨rfl, hcan t ht a ha⟩

theorem byteOrderMark_applyRules (s : Settings) (d : Document) :
    (d.applyRules s).byteOrderMark = d.byteOrderMark := by
  rw [applyRules, tidyAttributes_eq_mapTags]
  rfl

theorem trailingNewline_applyRules (s : Settings) (d : Document) :
    (d.applyRules s).trailingNewline = d.trailingNewline := by
  rw [applyRules, tidyAttributes_eq_mapTags]
  rfl

/-- A layout that is read is printed as it is, and what is counted for it is in range as before. -/
theorem Shows.print_layout {source : Chars} {d : Document} {qs layout : List Part}
    (h : d.Shows s source qs) (hd : d.Regular s)
    (hread : ∀ t ∈ d.tags, ∀ a ∈ t.attributes, a.IsRead s)
    (hu : EscapesLineEnds (dialect.unescaped s)) {trailing byteOrderMark : Bool}
    (hlayout : layout = layoutTop (printer source s dialect) trailing qs)
    (hreturn : '\r' ∉ markText byteOrderMark ++ spelledList layout) :
    (((ofParts byteOrderMark layout).mapTags (Tag.withReadings s)).applyRules s).print
        (markText byteOrderMark ++ spelledList layout) s dialect =
      withLineEnds s.newLine (markText byteOrderMark ++ spelledList layout) ∧
    (((ofParts byteOrderMark layout).mapTags (Tag.withReadings s)).applyRules s).inRange
        (markText byteOrderMark ++ spelledList layout) s dialect =
      (d.applyRules s).inRange source s dialect := by
  subst hlayout
  let p := printer source s dialect
  have hp : EscapesLineEnds p.unescaped := hu
  have hvalid : ValidTop false (layoutTop p trailing qs) := validTop_layoutTop hp h.ready trailing
  have hfollows := h.follows hd.declarations hp trailing byteOrderMark hvalid
  let d' := (ofParts byteOrderMark (layoutTop p trailing qs)).mapTags (Tag.withReadings s)
  let R (t u : Tag) : Prop := u = d'.tidy s (t.withReadings s)
  have hR : ∀ t u, R t u → t.Recast u := by
    rintro t _ rfl
    exact (Tag.recast_withReadings s t).trans (recast_tidy s d' _)
  have hn : RetaggedList R (ofParts byteOrderMark (layoutTop p trailing qs)).nodes
      (mapTagsList (fun t => d'.tidy s (t.withReadings s)) _) :=
    retaggedList_mapTagsList _ fun _ _ => rfl
  have hlasting := h.lasting hd hp hfollows hread
  have horder := inOrder_again hR hlasting (h.inOrder hd) (h.sameKeys hd hp hfollows hread) trailing hn
  obtain ⟨hready, hshown⟩ := dress_spec hR hreturn hvalid rfl hn
  have hnodes : (d'.applyRules s).nodes = arrangeAllList s (mapTagsList
      (fun t => d'.tidy s (t.withReadings s)) (ofParts byteOrderMark (layoutTop p trailing qs)).nodes) := by
    rw [applyRules_nodes_eq]
    exact congrArg _ (mapTagsList_mapTagsList _ _ _)
  have harranged := ShownList.arrangeAll _ _ _ false hshown horder
  rw [← hnodes] at harranged
  have htrailing : (d'.applyRules s).trailingNewline = trailing :=
    (trailingNewline_applyRules s d').trans (trailingNewline_layoutTop hp h.ready trailing)
  let source' := markText byteOrderMark ++ spelledList (layoutTop p trailing qs)
  obtain ⟨hagain, hrange⟩ := layoutTop_again hR source' h.ready hlasting trailing hn
  constructor
  · rw [print_eq hu hready harranged, byteOrderMark_applyRules, htrailing]
    exact congrArg (fun l => withLineEnds s.newLine (markText byteOrderMark ++ spelledList l)) hagain
  · calc inRangeList (printer source' s dialect) 0 true false false (d'.applyRules s).nodes
      _ = inRangeList p 0 true false false (d'.applyRules s).nodes :=
        inRangeList_congr (p.countsAlike_source source') _ ..
      _ = partsInRange p 0 true false false (dressList false (layoutTop p trailing qs) _) :=
        harranged.inRange_eq p 0 true false
      _ = partsInRange p 0 true false false qs := hrange
      _ = inRangeList p 0 true false false (d.applyRules s).nodes :=
        (h.shown.inRange_eq p 0 true false).symm

theorem print_again {source : Chars} {d : Document} (hu : EscapesLineEnds (dialect.unescaped s))
    (hreturn : '\r' ∉ source) (h : readWith s source = .ok d) (hd : d.Regular s) :
    ∃ d', readWith s (unifyLineEnds ((d.applyRules s).print source s dialect)) = .ok d' ∧
      (d'.applyRules s).print (unifyLineEnds ((d.applyRules s).print source s dialect)) s dialect =
        (d.applyRules s).print source s dialect ∧
      (d'.applyRules s).inRange (unifyLineEnds ((d.applyRules s).print source s dialect)) s dialect =
        (d.applyRules s).inRange source s dialect := by
  obtain ⟨byteOrderMark, parts, hvalid, hsource, hcan, rfl⟩ := of_readWith h
  have hread := isRead_withReadings hcan
  obtain ⟨qs, hshows⟩ := exists_shows hreturn hvalid hsource hcan
  generalize (ofParts byteOrderMark parts).mapTags (Tag.withReadings s) = d at *
  obtain ⟨hunified, hreread⟩ := read_print hu hshows.ready hshows.shown
  have hprint := print_eq hu hshows.ready hshows.shown
  have hvalid' := validTop_layoutTop (p := printer source s dialect) hu hshows.ready
    (d.applyRules s).trailingNewline
  refine ⟨_, readWith_eq hreread (unread_tags hvalid' _)
    (hshows.canRead hd.declarations hu hread _ _), ?_⟩
  have hreturn' := notMem_unifyLineEnds ((d.applyRules s).print source s dialect)
  rw [hunified] at hreturn' ⊢
  rw [hprint]
  exact hshows.print_layout hd hread hu rfl hreturn'

end Document

/-- Styling is idempotent on regular documents, where line ends in values are escaped. -/
theorem style_idempotent {text out : Chars} (hu : EscapesLineEnds (dialect.unescaped s))
    (hd : ∀ d, Document.readWith s (unifyLineEnds text) = .ok d → d.Regular s)
    (h : style s dialect text = .ok out) : style s dialect out = .ok out := by
  cases hs : s.suppressProcessing with
  | true => rw [style, if_pos hs]
  | false =>
    obtain ⟨d, hread, hrange, rfl⟩ := exists_of_style hs h
    obtain ⟨d', hread', hprint, hrange'⟩ := Document.print_again hu (notMem_unifyLineEnds text)
      hread (hd d hread)
    rw [style_of_readWith hs hread', hprint, hrange', if_pos hrange]

def busySettings : Settings :=
  { Settings.standard with
    removeDesignTimeReferences := true
    designTimeNamespaces := ["d".toList]
    attributeGroups := []
    reorderGridChildren := true
    setterOrder := .property }

def busySample : Chars :=
  ("<Grid xmlns:d='d' d:w='1' Margin='1 2'><B Grid.Row='1'/><A t='{Binding  X}'>a  b</A>" ++
    "<Style><Setter Property='q'/><Setter Property='p'/></Style></Grid>").toList

theorem style_idempotent_sample :
    EscapesLineEnds (Dialect.xaml.unescaped busySettings) ∧
      (∃ d, Document.readWith busySettings (unifyLineEnds busySample) = .ok d ∧ d.Regular busySettings) ∧
      ∃ out, style busySettings .xaml busySample = .ok out ∧ out ≠ busySample ∧
        style busySettings .xaml out = .ok out := by
  have hu : EscapesLineEnds (Dialect.xaml.unescaped busySettings) := by
    simp [EscapesLineEnds, Dialect.unescaped, busySettings, Settings.standard]
  have hregular : ∃ d, Document.readWith busySettings (unifyLineEnds busySample) = .ok d ∧
      d.Regular busySettings := exists_ok_of_any (by decide +kernel)
  have hstyle : ∃ out, style busySettings .xaml busySample = .ok out ∧ out ≠ busySample :=
    exists_ok_of_any (by decide +kernel)
  obtain ⟨out, hout, hne⟩ := hstyle
  refine ⟨hu, hregular, out, hout, hne, style_idempotent hu (fun d hd => ?_) hout⟩
  obtain ⟨d', hd', hregular⟩ := hregular
  cases hd.symm.trans hd'
  exact hregular

/-- Running text of white space that is not XML's own is trimmed away, and only then is the element
found to be empty. -/
theorem blank_text_styled_twice :
    style .standard .xaml "<A>&#xA0;</A>".toList = .ok "<A></A>".toList ∧
      style .standard .xaml "<A></A>".toList = .ok "<A />".toList := by
  have hfirst : ∃ out, style .standard .xaml "<A>&#xA0;</A>".toList = .ok out ∧
      out = "<A></A>".toList := exists_ok_of_any (by decide +kernel)
  have hsecond : ∃ out, style .standard .xaml "<A></A>".toList = .ok out ∧
      out = "<A />".toList := exists_ok_of_any (by decide +kernel)
  obtain ⟨_, hfirst, rfl⟩ := hfirst
  obtain ⟨_, hsecond, rfl⟩ := hsecond
  exact ⟨hfirst, hsecond⟩

end Style

end XamlFormat
