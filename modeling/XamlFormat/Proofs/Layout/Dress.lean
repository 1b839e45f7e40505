import XamlFormat.Proofs.Layout.Document

/-! Documents whose tags have changed since they were read. The printer takes tags from the document
and copied text from the source; the parts here have both. -/
namespace XamlFormat

open Markup Text StartTag Reference

/-- The second tag can stand for the first: it belongs to the same source, and names that can be
written stay so. -/
structure Tag.Recast (t u : Tag) : Prop where
  selfClosing : u.selfClosing = t.selfClosing
  preserveSpace : u.preserveSpace = t.preserveSpace
  span : u.span = t.span
  content : u.content = t.content
  legible : t.Legible → u.Legible

mutual

def Node.Retagged (R : Tag → Tag → Prop) : Node → Node → Prop
  | .element t ns, .element u ms => R t u ∧ RetaggedList R ns ms
  | .text value span, .text v s => v = value ∧ s = span
  | .raw kind content span, .raw k c s => k = kind ∧ c = content ∧ s = span
  | _, _ => False

def RetaggedList (R : Tag → Tag → Prop) : List Node → List Node → Prop
  | [], [] => True
  | n :: ns, m :: ms => n.Retagged R m ∧ RetaggedList R ns ms
  | _, _ => False

end

mutual

theorem Node.retagged_mapTags {R : Tag → Tag → Prop} (g : Tag → Tag) : ∀ {n : Node},
    (∀ t ∈ n.tags, R t (g t)) → n.Retagged R (n.mapTags g)
  | .element t ns, h => by
    rw [Node.tags, List.forall_mem_cons] at h
    exact ⟨h.1, retaggedList_mapTagsList g h.2⟩
  | .text _ _, _ => ⟨rfl, rfl⟩
  | .raw _ _ _, _ => ⟨rfl, rfl, rfl⟩

theorem retaggedList_mapTagsList {R : Tag → Tag → Prop} (g : Tag → Tag) : ∀ {ns : List Node},
    (∀ t ∈ tagsList ns, R t (g t)) → RetaggedList R ns (mapTagsList g ns)
  | [], _ => trivial
  | n :: ns, h => by
    rw [tagsList, List.forall_mem_append] at h
    exact ⟨n.retagged_mapTags g h.1, retaggedList_mapTagsList g h.2⟩

end

mutual

/-- The part with the tags of the node, outside of what is copied. -/
def Part.dress : Part → Node → Part
  | .element opening tag children closing, .element t ns =>
    .element opening t
      (if tag.preserveSpace && !children.isEmpty then children else dressList false children ns)
      closing
  | p, _ => p

def dressList (suppressed : Bool) : List Part → List Node → List Part
  | p :: ps, n :: ns =>
    (if suppressed then p else p.dress n) :: dressList (p.regionAfter suppressed) ps ns
  | _, _ => []

end

section Shape

variable (p : Part) (n : Node)

@[simp] theorem marker?_dress : (p.dress n).marker? = p.marker? := by
  cases p <;> cases n <;> rfl

@[simp] theorem isText_dress : (p.dress n).isText = p.isText := by
  cases p <;> cases n <;> rfl

@[simp] theorem isBlank_dress : (p.dress n).isBlank = p.isBlank := by
  cases p <;> cases n <;> rfl

@[simp] theorem isSignificant_dress : (p.dress n).isSignificant = p.isSignificant := by
  cases p <;> cases n <;> rfl

@[simp] theorem regionAfter_dress (suppressed : Bool) :
    (p.dress n).regionAfter suppressed = p.regionAfter suppressed := by
  simp [Part.regionAfter]

end Shape

theorem WrittenAttribute.map_name_attributes (ws : List WrittenAttribute) (index pos : Nat) :
    (WrittenAttribute.attributes index pos ws).map Attribute.name =
      ws.map fun w => QName.ofChars w.name := by
  induction ws generalizing index pos with
  | nil => rfl
  | cons w ws ih => simp [WrittenAttribute.attributes, ih, WrittenAttribute.toAttribute]

theorem QName.legible_ofChars {name : Chars} (h : IsName name) : (QName.ofChars name).Legible := by
  simpa [QName.Legible] using h

theorem Tag.Spelled.legible {t : Tag} {text : Chars} (h : t.Spelled text) : t.Legible := by
  obtain ⟨w, hw, -, rfl⟩ := h
  have hnames : w.tag.attributes.map Attribute.name =
      w.attributes.map fun a => QName.ofChars a.name :=
    WrittenAttribute.map_name_attributes _ _ _
  refine ⟨QName.legible_ofChars hw.name, fun a ha => ?_, ?_⟩
  · have hmem : a.name ∈ w.tag.attributes.map Attribute.name := List.mem_map_of_mem ha
    rw [hnames] at hmem
    obtain ⟨b, hb, hname⟩ := List.mem_map.mp hmem
    rw [← hname]
    exact QName.legible_ofChars (hw.attributes b hb).name
  · have hwritten : w.tag.attributes.map (fun a => a.name.written) =
        w.attributes.map WrittenAttribute.name := by
      have := congrArg (List.map QName.written) hnames
      simpa [Function.comp_def] using this
    rw [hwritten]
    exact hw.distinct

/-- Names that can be written stay so when attributes move or go. -/
theorem Tag.Legible.of_subperm {t u : Tag} (h : t.Legible) (hname : u.name = t.name)
    (hattributes : (u.attributes.map Attribute.name).Subperm (t.attributes.map Attribute.name)) :
    u.Legible := by
  refine ⟨hname ▸ h.name, fun a ha => ?_, ?_⟩
  · obtain ⟨b, hb, hab⟩ := List.mem_map.mp (hattributes.subset (List.mem_map_of_mem ha))
    exact hab ▸ h.attributes b hb
  · obtain ⟨names, hperm, hsub⟩ := hattributes
    have hdistinct := h.distinct
    rw [← Function.comp_def QName.written Attribute.name, ← List.map_map] at hdistinct ⊢
    exact (hperm.map _).nodup_iff.mp ((hsub.map _).nodup hdistinct)

theorem Tag.Legible.place {t : Tag} (h : t.Legible) (pos stop : Nat) (content : Option Span) :
    (t.place pos stop content).Legible :=
  h.of_subperm rfl (by simp [Tag.place, Function.comp_def, List.Subperm.refl])

def TextsSplit : List Part → Prop
  | [] => True
  | p :: ps => (p.isText = true → Part.headText ps = false) ∧ TextsSplit ps

theorem ValidList.textsSplit {depth : Nat} {ps : List Part} (h : ValidList depth ps) :
    TextsSplit ps := by
  induction ps with
  | nil => trivial
  | cons p ps ih => exact ⟨h.2.1, ih h.2.2⟩

theorem ValidTop.textsSplit {rooted : Bool} {ps : List Part} (h : ValidTop rooted ps) :
    TextsSplit ps := by
  induction ps generalizing rooted with
  | nil => trivial
  | cons p ps ih =>
    cases p with
    | text => exact ⟨fun _ => h.2.2.2.1, ih h.2.2.2.2⟩
    | raw => exact ⟨by simp [Part.isText], ih h.2.2.2⟩
    | element => exact ⟨by simp [Part.isText], ih h.2.2⟩

section Region

variable {R : Tag → Tag → Prop}

theorem Node.Retagged.marker?_eq {q : Part} {pos : Nat} {n : Node}
    (h : (q.place pos).Retagged R n) : n.marker? = q.marker? := by
  cases q <;> cases n <;> simp_all [Part.place, Node.Retagged, Node.marker?, Part.marker?]
  split <;> simp_all

theorem Node.Retagged.span_eq (hR : ∀ t u, R t u → t.Recast u) {m n : Node}
    (h : m.Retagged R n) : n.span = m.span := by
  cases m with
  | element t ns =>
    cases n with
    | element u ms => exact (hR t u h.1).span
    | text | raw => exact h.elim
  | text =>
    cases n with
    | text => exact h.2
    | element | raw => exact h.elim
  | raw =>
    cases n with
    | raw => exact h.2.2
    | element | text => exact h.elim

theorem regionText_dressList {ps : List Part} {pos : Nat} {ns : List Node}
    (h : RetaggedList R (placeList pos ps) ns) :
    regionText (dressList true ps ns) = regionText ps := by
  induction ps generalizing pos ns with
  | nil => cases ns <;> rfl
  | cons p ps ih =>
    cases ns with
    | nil => exact h.elim
    | cons n ns =>
      rw [dressList, if_pos rfl, regionText, regionText]
      split_ifs with hon
      · rfl
      · have hregion : p.regionAfter true = true := by simp [Part.regionAfter, hon]
        rw [hregion, ih h.2]

theorem regionStop_eq (hR : ∀ t u, R t u → t.Recast u) {ps : List Part} {pos : Nat}
    {ns : List Node} (h : RetaggedList R (placeList pos ps) ns) :
    regionStop (pos + byteLength (spelledList ps)) ns = pos + byteLength (regionText ps) := by
  induction ps generalizing pos ns with
  | nil =>
    cases ns with
    | nil => rfl
    | cons => exact h.elim
  | cons p ps ih =>
    cases ns with
    | nil => exact h.elim
    | cons n ns =>
      have := ih h.2
      rw [regionStop, h.1.marker?_eq, h.1.span_eq hR, Part.span_place, regionText, spelledList]
      split_ifs
      · simp
      · simpa [Nat.add_assoc] using this

theorem regionText_isPrefix (ps : List Part) : regionText ps <+: spelledList ps := by
  induction ps with
  | nil => exact List.prefix_refl _
  | cons p ps ih =>
    rw [regionText, spelledList, List.prefix_append_right_inj]
    split_ifs
    · exact List.nil_prefix
    · exact ih

end Region

theorem Node.Retagged.alike {R : Tag → Tag → Prop} {q : Part} {pos : Nat} {n : Node}
    (h : (q.place pos).Retagged R n) : q.Alike n := by
  cases q <;> cases n <;> simp_all [Part.place, Node.Retagged, Part.Alike]

theorem Part.Alike.dress {q : Part} {n : Node} (h : q.Alike n) : (q.dress n).Alike n := by
  cases q <;> cases n <;> simp_all [Part.dress, Part.Alike]

theorem isEmpty_dressList {R : Tag → Tag → Prop} {ps : List Part} {pos : Nat} {ns : List Node}
    (h : RetaggedList R (placeList pos ps) ns) (suppressed : Bool) :
    (dressList suppressed ps ns).isEmpty = ps.isEmpty := by
  cases ps with
  | nil => cases ns <;> rfl
  | cons =>
    cases ns with
    | nil => exact h.elim
    | cons => rfl

section Shown

variable {R : Tag → Tag → Prop} {source : Chars}

theorem ValidList.byteLength_pos {depth : Nat} {ps : List Part} (h : ValidList depth ps)
    (hne : ps ≠ []) : 0 < byteLength (spelledList ps) := by
  cases ps with
  | nil => exact absurd rfl hne
  | cons p ps =>
    have := XamlFormat.byteLength_pos h.1.spelled_ne
    rw [spelledList, byteLength_append]
    omega

theorem Tag.Recast.preserved?_eq {tag t : Tag} {pos stop inner depth : Nat} {children : List Part}
    (h : (tag.place pos stop (if tag.selfClosing then none else
      some ⟨inner, inner + byteLength (spelledList children)⟩)).Recast t)
    (hself : tag.selfClosing = true → children = []) (hvalid : ValidList depth children) :
    t.preserved? = if tag.preserveSpace && !children.isEmpty then
      some ⟨inner, inner + byteLength (spelledList children)⟩ else none := by
  rw [Tag.preserved?, h.preserveSpace, h.content]
  cases hspace : tag.preserveSpace with
  | false => simp [Tag.place, hspace]
  | true =>
    cases children with
    | nil => cases hs : tag.selfClosing <;> simp [Tag.place, hspace, spelledList]
    | cons c cs =>
      have hopen : tag.selfClosing = false := by
        by_contra hs
        simpa using hself (by simpa using hs)
      have hlength := hvalid.byteLength_pos (by simp)
      simp [Tag.place, hspace, hopen, hlength]

mutual

theorem Part.shown_dress (hR : ∀ t u, R t u → t.Recast u) :
    ∀ (q : Part) (n : Node) (a b : Chars) (nest : Nat), q.Fits nest →
      source = a ++ (q.spelled ++ b) → (q.place (byteLength a)).Retagged R n →
      (q.dress n).Shown source n
  | .text spelling value, n, a, b, nest, _, _, _ => by
    rw [Part.dress]
    · simp [Part.Shown]
    · simp
  | .raw kind content, n, a, b, nest, _, _, _ => by
    rw [Part.dress]
    · simp [Part.Shown]
    · simp
  | .element opening tag children closing, n, a, b, nest, hf, hsource, hn => by
    cases n with
    | text | raw => exact hn.elim
    | element t ns =>
      obtain ⟨ht, hns⟩ := hn
      rw [← byteLength_append] at ht hns
      have hrecast := hR _ t ht
      obtain ⟨-, -, hself, -, hvalid⟩ := hf.valid (by simp)
      have hpreserve : t.preserveSpace = tag.preserveSpace := hrecast.preserveSpace
      have hinner : source = (a ++ opening) ++ (spelledList children ++ (closing ++ b)) := by
        rw [hsource, Part.spelled]
        simp
      have hpreserved := hrecast.preserved?_eq (fun hs => (hself hs).1) hvalid
      rw [Part.dress, Part.Shown, hpreserve]
      refine ⟨rfl, ?_⟩
      by_cases hp : (tag.preserveSpace && !children.isEmpty) = true
      · rw [if_pos hp, if_pos hp]
        exact ⟨_, by rw [hpreserved, if_pos hp], slice_eq hinner⟩
      · rw [if_neg hp, isEmpty_dressList hns, if_neg hp]
        refine ⟨by rw [hpreserved, if_neg hp], ?_⟩
        by_cases hs : tag.selfClosing = true
        · obtain ⟨rfl, -⟩ := hself hs
          cases ns with
          | cons => exact hns.elim
          | nil => simp [dressList, ShownList]
        · have hcontent : t.content = some ⟨byteLength (a ++ opening),
              byteLength (a ++ opening) + byteLength (spelledList children)⟩ := by
            rw [hrecast.content]
            simp [Tag.place, hs]
          rw [Printer.contentEnd, hcontent]
          exact shownList_dressList hR children ns (a ++ opening) (closing ++ b) (nest + 1) false
            (fun p hp => .inl (hvalid.valid p hp)) hinner hns

theorem shownList_dressList (hR : ∀ t u, R t u → t.Recast u) :
    ∀ (ps : List Part) (ns : List Node) (a b : Chars) (nest : Nat) (suppressed : Bool),
      (∀ p ∈ ps, p.Fits nest) → source = a ++ (spelledList ps ++ b) →
      RetaggedList R (placeList (byteLength a) ps) ns →
      ShownList source (byteLength a + byteLength (spelledList ps)) suppressed
        (dressList suppressed ps ns) ns
  | [], ns, a, b, nest, suppressed, _, _, hn => by
    cases ns with
    | nil => trivial
    | cons => exact hn.elim
  | p :: ps, ns, a, b, nest, suppressed, hf, hsource, hn => by
    cases ns with
    | nil => exact hn.elim
    | cons n ns =>
      obtain ⟨hp, hps⟩ := List.forall_mem_cons.mp hf
      obtain ⟨hn, hns⟩ := hn
      have hbehind : source = (a ++ p.spelled) ++ (spelledList ps ++ b) := by
        rw [hsource, spelledList]
        simp
      have hend : byteLength a + byteLength (spelledList (p :: ps)) =
          byteLength (a ++ p.spelled) + byteLength (spelledList ps) := by
        simp [spelledList, Nat.add_assoc]
      rw [← byteLength_append] at hns
      have hrest := shownList_dressList hR ps ns (a ++ p.spelled) b nest
        (p.regionAfter suppressed) hps hbehind hns
      rw [hend, dressList]
      cases suppressed with
      | true => exact ⟨hn.alike, by simp, hrest⟩
      | false =>
        refine ⟨hn.alike.dress, fun _ => ⟨?_, fun hoff => ?_⟩, ?_⟩
        · refine Part.shown_dress hR p n a (spelledList ps ++ b) nest hp ?_ hn
          rw [hsource, spelledList, List.append_assoc]
        · rw [if_neg Bool.false_ne_true, marker?_dress] at hoff
          have hregion : p.regionAfter false = true := by simp [Part.regionAfter, hoff]
          obtain ⟨rest, hrest⟩ := regionText_isPrefix ps
          rw [hregion, regionText_dressList hns, regionStop_eq hR hns, hn.span_eq hR,
            Part.span_place, ← byteLength_append]
          refine slice_eq (b := rest ++ b) ?_
          rw [hbehind, ← hrest]
          simp
        · rw [if_neg Bool.false_ne_true, regionAfter_dress]
          exact hrest

end

end Shown

/-- Dressing changes nothing that is not told by the tags. -/
theorem map_dressList {R : Tag → Tag → Prop} {α : Type} {f : Part → α}
    (hf : ∀ p n, f (Part.dress p n) = f p) {ps : List Part} {pos : Nat} {ns : List Node}
    (h : RetaggedList R (placeList pos ps) ns) (suppressed : Bool) :
    (dressList suppressed ps ns).map f = ps.map f := by
  induction ps generalizing pos ns suppressed with
  | nil => cases ns <;> rfl
  | cons p ps ih =>
    cases ns with
    | nil => exact h.elim
    | cons n ns =>
      rw [dressList, List.map_cons, List.map_cons, ih h.2]
      split_ifs
      · rfl
      · rw [hf]

theorem all_dressList {R : Tag → Tag → Prop} {children : List Part} {pos : Nat} {ms : List Node}
    (h : RetaggedList R (placeList pos children) ms) (suppressed : Bool) :
    (dressList suppressed children ms).all Part.isBlank = children.all Part.isBlank := by
  have := congrArg (List.all · id) (map_dressList isBlank_dress h suppressed)
  simpa [List.all_map] using this

theorem any_dressList {R : Tag → Tag → Prop} {children : List Part} {pos : Nat} {ms : List Node}
    (h : RetaggedList R (placeList pos children) ms) (suppressed : Bool) :
    (dressList suppressed children ms).any Part.isSignificant =
      children.any Part.isSignificant := by
  have := congrArg (List.any · id) (map_dressList isSignificant_dress h suppressed)
  simpa [List.any_map] using this

section Ready

variable {R : Tag → Tag → Prop}

theorem RawKind.notMem_content {kind : RawKind} {content : Chars}
    (h : '\r' ∉ kind.markup content) : '\r' ∉ content := by
  cases kind with
  | comment | cdata =>
    simp only [RawKind.markup, List.mem_append, not_or] at h
    exact h.2.1
  | instruction | doctype => exact h

theorem headText_dressList {ps : List Part} {pos : Nat} {ns : List Node}
    (h : RetaggedList R (placeList pos ps) ns) (suppressed : Bool) :
    Part.headText (dressList suppressed ps ns) = Part.headText ps := by
  cases ps with
  | nil => cases ns <;> rfl
  | cons p ps =>
    cases ns with
    | nil => exact h.elim
    | cons n ns =>
      rw [dressList]
      cases suppressed
      · exact isText_dress p n
      · rfl

theorem mem_dressList {content : Chars} {suppressed : Bool} {ps : List Part} {ns : List Node}
    (h : .raw .doctype content ∈ dressList suppressed ps ns) : .raw .doctype content ∈ ps := by
  induction ps generalizing ns suppressed with
  | nil => cases ns <;> simp [dressList] at h
  | cons p ps ih =>
    cases ns with
    | nil => simp [dressList] at h
    | cons n ns =>
      rw [dressList, List.mem_cons] at h
      obtain h | h := h
      · cases suppressed with
        | true => exact List.mem_cons.mpr (.inl h)
        | false =>
          rw [if_neg Bool.false_ne_true] at h
          cases p <;> cases n <;> simp_all [Part.dress]
      · exact List.mem_cons_of_mem p (ih h)

theorem ValidList.notMem_doctype {depth : Nat} {ps : List Part} (h : ValidList depth ps)
    (content : Chars) : .raw .doctype content ∉ ps :=
  fun hm => (h.valid _ hm).1 rfl

mutual

theorem Part.ready_dress (hR : ∀ t u, R t u → t.Recast u) :
    ∀ (q : Part) (n : Node) (pos nest : Nat), q.Fits nest → '\r' ∉ q.spelled →
      (q.place pos).Retagged R n → (q.dress n).Ready nest
  | .text spelling value, n, pos, nest, _, _, _ => by
    rw [Part.dress]
    · simp [Part.Ready]
    · simp
  | .raw kind content, n, pos, nest, hf, hr, _ => by
    rw [Part.dress]
    · exact ⟨hf.closed, RawKind.notMem_content hr⟩
    · simp
  | .element opening tag children closing, n, pos, nest, hf, hr, hn => by
    cases n with
    | text | raw => exact hn.elim
    | element t ns =>
      obtain ⟨ht, hns⟩ := hn
      have hrecast := hR _ t ht
      obtain ⟨hd, hspelled, hself, -, hvalid⟩ := hf.valid (by simp)
      have hpreserve : t.preserveSpace = tag.preserveSpace := hrecast.preserveSpace
      have hselfClosing : t.selfClosing = tag.selfClosing := hrecast.selfClosing
      rw [Part.spelled, List.mem_append, List.mem_append, not_or, not_or] at hr
      rw [Part.dress, Part.Ready, hpreserve, hselfClosing]
      refine ⟨hd, hrecast.legible (hspelled.legible.place _ _ _), ?_⟩
      by_cases hp : (tag.preserveSpace && !children.isEmpty) = true
      · rw [if_pos hp, if_pos hp]
        exact ⟨fun hs => (hself hs).1, hvalid.notMem_doctype, hvalid, hr.2.1⟩
      · rw [if_neg hp, isEmpty_dressList hns, if_neg hp]
        refine ⟨fun hs => ?_, fun content hm => hvalid.notMem_doctype content (mem_dressList hm), ?_⟩
        · obtain ⟨rfl, -⟩ := hself hs
          cases ns <;> rfl
        · exact readyList_dressList hR children ns _ (nest + 1) false
            (fun p hp => .inl (hvalid.valid p hp)) hvalid.textsSplit hr.2.1 hns

theorem readyList_dressList (hR : ∀ t u, R t u → t.Recast u) :
    ∀ (ps : List Part) (ns : List Node) (pos nest : Nat) (suppressed : Bool),
      (∀ p ∈ ps, p.Fits nest) → TextsSplit ps → '\r' ∉ spelledList ps →
      RetaggedList R (placeList pos ps) ns → ReadyList nest suppressed (dressList suppressed ps ns)
  | [], ns, pos, nest, suppressed, _, _, _, hn => by
    cases ns with
    | nil => trivial
    | cons => exact hn.elim
  | p :: ps, ns, pos, nest, suppressed, hf, hsplit, hr, hn => by
    cases ns with
    | nil => exact hn.elim
    | cons n ns =>
      obtain ⟨hp, hps⟩ := List.forall_mem_cons.mp hf
      obtain ⟨hn, hns⟩ := hn
      rw [spelledList, List.mem_append, not_or] at hr
      have hrest := readyList_dressList hR ps ns _ nest (p.regionAfter suppressed) hps hsplit.2
        hr.2 hns
      have hhead := headText_dressList hns (p.regionAfter suppressed)
      rw [dressList]
      cases suppressed with
      | true => exact ⟨⟨hp, hr.1⟩, fun ht => hhead.trans (hsplit.1 ht), hrest⟩
      | false =>
        rw [if_neg Bool.false_ne_true]
        refine ⟨Part.ready_dress hR p n pos nest hp hr.1 hn, fun ht => ?_, ?_⟩
        · rw [isText_dress] at ht
          exact hhead.trans (hsplit.1 ht)
        · rw [regionAfter_dress]
          exact hrest

end

theorem TopOrder.dressList {ps : List Part} {pos : Nat} {ns : List Node} {rooted : Bool}
    (h : TopOrder rooted ps) (hn : RetaggedList R (placeList pos ps) ns) (suppressed : Bool) :
    TopOrder rooted (dressList suppressed ps ns) := by
  induction ps generalizing ns rooted suppressed pos with
  | nil =>
    cases ns with
    | nil => exact h
    | cons => exact hn.elim
  | cons p ps ih =>
    cases ns with
    | nil => exact hn.elim
    | cons n ns =>
      obtain ⟨hn, hns⟩ := hn
      rw [XamlFormat.dressList]
      cases p with
      | text spelling value =>
        have hp : (if suppressed then .text spelling value else (Part.text spelling value).dress n) =
            .text spelling value := by
          cases suppressed <;> cases n <;> rfl
        rw [hp]
        exact ⟨h.1, h.2.1, h.2.2.1, ih h.2.2.2 hns _⟩
      | raw kind content =>
        have hp : (if suppressed then .raw kind content else (Part.raw kind content).dress n) =
            .raw kind content := by
          cases suppressed <;> cases n <;> rfl
        rw [hp]
        exact ⟨h.1, h.2.1, ih h.2.2 hns _⟩
      | element opening tag children closing =>
        cases n with
        | text | raw => exact hn.elim
        | element t ms =>
          cases suppressed
          · exact ⟨h.1, ih h.2 hns _⟩
          · exact ⟨h.1, ih h.2 hns _⟩

end Ready

/-- A document that was read, with other tags: its parts are ready to be laid out, and they are what
it prints. -/
theorem Document.dress_spec {R : Tag → Tag → Prop} (hR : ∀ t u, R t u → t.Recast u)
    {source : Chars} {byteOrderMark : Bool} {parts : List Part} {ns : List Node}
    (hreturn : '\r' ∉ source) (hvalid : ValidTop false parts)
    (hsource : source = markText byteOrderMark ++ spelledList parts)
    (hn : RetaggedList R (ofParts byteOrderMark parts).nodes ns) :
    ReadyTop (dressList false parts ns) ∧
      ShownList source (byteLength source) false (dressList false parts ns) ns := by
  have hend : byteLength source =
      byteLength (markText byteOrderMark) + byteLength (spelledList parts) := by
    rw [hsource, byteLength_append]
  rw [hsource, List.mem_append, not_or] at hreturn
  refine ⟨⟨?_, hvalid.order.dressList hn false⟩, ?_⟩
  · exact readyList_dressList hR parts ns _ 1 false hvalid.fits hvalid.textsSplit hreturn.2 hn
  · rw [hend]
    refine shownList_dressList hR parts ns _ [] 1 false hvalid.fits ?_ hn
    rw [List.append_nil]
    exact hsource

end XamlFormat
