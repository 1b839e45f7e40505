import XamlFormat.Proofs.Layout.LaidOutElements
import XamlFormat.Proofs.Markup.WellFormed
import XamlFormat.Proofs.Rules.Tidy

/-! Reading the extensions of a document, attribute by attribute. It fails where a value is nested too
deep, and otherwise what is read depends on nothing but the value. -/
namespace XamlFormat

open Markup

def Settings.reading (s : Settings) (value : Chars) : Option Extension :=
  if s.formatExtensions then (Extension.read value).toOption else none

def Attribute.withReading (s : Settings) (a : Attribute) : Attribute :=
  { a with extension := s.reading a.value }

def Tag.withReadings (s : Settings) (t : Tag) : Tag :=
  { t with attributes := t.attributes.map (Attribute.withReading s) }

/-- A value that can be read, or that is no extension at all. -/
def Settings.CanRead (s : Settings) (value : Chars) : Prop :=
  s.formatExtensions = true → Extension.read value ≠ .error .tooDeep

/-- A tag as it is read from a source, before its extensions are. -/
structure Tag.Unread (t : Tag) : Prop where
  legible : t.Legible
  index : t.attributes.Pairwise fun a b => a.index < b.index
  extension : ∀ a ∈ t.attributes, a.extension = none
  preserveSpace : t.preserveSpace = preservesSpace t.attributes

section Reading

variable {s : Settings}

theorem Extension.read_of_not_looksLike {value : Chars} (h : looksLike value = false) :
    (read value).toOption = none ∧ read value ≠ .error .tooDeep := by
  rw [read, if_neg (by simp [h])]
  exact ⟨rfl, by simp⟩

theorem Settings.reading_of_not_looksLike {value : Chars} (h : Extension.looksLike value = false) :
    s.reading value = none ∧ s.CanRead value := by
  obtain ⟨hnone, hread⟩ := Extension.read_of_not_looksLike h
  refine ⟨?_, fun _ => hread⟩
  rw [reading, hnone, ite_self]

theorem annotateAttributes_cons (hs : s.formatExtensions = true) {a : Attribute} (ha : a.extension = none)
    (hcan : s.CanRead a.value) (as : List Attribute) :
    annotateAttributes (a :: as) =
      (a.withReading s :: (annotateAttributes as).1, (annotateAttributes as).2) := by
  -- a value that is no extension leaves the attribute as it is
  have hplain (hnone : (Extension.read a.value).toOption = none) : a.withReading s = a := by
    rw [Attribute.withReading, Settings.reading, if_pos hs, hnone, ← ha]
  rw [annotateAttributes]
  split_ifs with hl
  · cases hr : Extension.read a.value with
    | ok e =>
      rw [Attribute.withReading, Settings.reading, if_pos hs, hr]
      rfl
    | error reason =>
      have hdeep : reason ≠ .tooDeep := fun he => hcan hs (by rw [hr, he])
      rw [hplain (by rw [hr]; rfl)]
      cases reason with
      | tooDeep => exact absurd rfl hdeep
      | _ => rfl
  · rw [hplain (Extension.read_of_not_looksLike (by simpa using hl)).1]

theorem annotateAttributes_fault (hs : s.formatExtensions = true) {a : Attribute} (hcan : ¬ s.CanRead a.value)
    (as : List Attribute) : (annotateAttributes (a :: as)).2 ≠ none := by
  have hr : Extension.read a.value = .error .tooDeep := by
    simpa [Settings.CanRead, hs] using hcan
  have hl : Extension.looksLike a.value = true := by
    by_contra hl
    exact (Extension.read_of_not_looksLike (by simpa using hl)).2 hr
  rw [annotateAttributes, if_pos hl, hr]
  simp

theorem annotateAttributes_eq (hs : s.formatExtensions = true) {as : List Attribute} (h : ∀ a ∈ as, a.extension = none)
    (hcan : ∀ a ∈ as, s.CanRead a.value) :
    annotateAttributes as = (as.map (Attribute.withReading s), none) := by
  induction as with
  | nil => rfl
  | cons a as ih =>
    obtain ⟨ha, has⟩ := List.forall_mem_cons.mp h
    obtain ⟨hca, hcas⟩ := List.forall_mem_cons.mp hcan
    rw [annotateAttributes_cons hs ha hca, ih has hcas, List.map_cons]

theorem canRead_of_annotateAttributes (hs : s.formatExtensions = true) {as : List Attribute} (h : ∀ a ∈ as, a.extension = none)
    (hnone : (annotateAttributes as).2 = none) : ∀ a ∈ as, s.CanRead a.value := by
  induction as with
  | nil => simp
  | cons a as ih =>
    obtain ⟨ha, has⟩ := List.forall_mem_cons.mp h
    by_cases hcan : s.CanRead a.value
    · rw [annotateAttributes_cons hs ha hcan] at hnone
      exact List.forall_mem_cons.mpr ⟨hcan, ih has hnone⟩
    · exact absurd hnone (annotateAttributes_fault hs hcan as)

mutual

theorem Node.annotate_eq (hs : s.formatExtensions = true) :
    ∀ n : Node, (∀ t ∈ n.tags, ∀ a ∈ t.attributes, a.extension = none) →
    (∀ t ∈ n.tags, ∀ a ∈ t.attributes, s.CanRead a.value) →
    n.annotate = (n.mapTags (Tag.withReadings s), none)
  | .element t ns, h, hcan => by
    rw [Node.tags, List.forall_mem_cons] at h hcan
    rw [Node.annotate, annotateAttributes_eq hs h.1 hcan.1, annotateList_eq hs ns h.2 hcan.2]
    rfl
  | .text _ _, _, _ => rfl
  | .raw _ _ _, _, _ => rfl

theorem annotateList_eq (hs : s.formatExtensions = true) :
    ∀ ns : List Node,
    (∀ t ∈ tagsList ns, ∀ a ∈ t.attributes, a.extension = none) →
    (∀ t ∈ tagsList ns, ∀ a ∈ t.attributes, s.CanRead a.value) →
    annotateList ns = (mapTagsList (Tag.withReadings s) ns, none)
  | [], _, _ => rfl
  | n :: ns, h, hcan => by
    rw [tagsList, List.forall_mem_append] at h hcan
    rw [annotateList, n.annotate_eq hs h.1 hcan.1, annotateList_eq hs ns h.2 hcan.2]
    rfl

end

mutual

theorem Node.canRead_of_annotate (hs : s.formatExtensions = true) :
    ∀ n : Node,
    (∀ t ∈ n.tags, ∀ a ∈ t.attributes, a.extension = none) → n.annotate.2 = none →
    ∀ t ∈ n.tags, ∀ a ∈ t.attributes, s.CanRead a.value
  | .element t ns, h, hnone => by
    rw [Node.tags, List.forall_mem_cons] at h ⊢
    cases hf : (annotateAttributes t.attributes).2 with
    | some offset => simp [Node.annotate, hf] at hnone
    | none =>
      refine ⟨canRead_of_annotateAttributes hs h.1 hf, canRead_of_annotateList hs ns h.2 ?_⟩
      simpa [Node.annotate, hf] using hnone
  | .text _ _, _, _ => by simp [Node.tags]
  | .raw _ _ _, _, _ => by simp [Node.tags]

theorem canRead_of_annotateList (hs : s.formatExtensions = true) :
    ∀ ns : List Node,
    (∀ t ∈ tagsList ns, ∀ a ∈ t.attributes, a.extension = none) → (annotateList ns).2 = none →
    ∀ t ∈ tagsList ns, ∀ a ∈ t.attributes, s.CanRead a.value
  | [], _, _ => by simp [tagsList]
  | n :: ns, h, hnone => by
    rw [tagsList, List.forall_mem_append] at h ⊢
    cases hf : n.annotate.2 with
    | some offset => simp [annotateList, hf] at hnone
    | none =>
      refine ⟨n.canRead_of_annotate hs h.1 hf, canRead_of_annotateList hs ns h.2 ?_⟩
      simpa [annotateList, hf] using hnone

end

end Reading

section Unread

theorem Tag.Spelled.unread {t : Tag} {text : Chars} (h : t.Spelled text) : t.Unread := by
  refine ⟨h.legible, ?_, h.extension, ?_⟩
  · obtain ⟨w, -, -, rfl⟩ := h
    have hindex : w.tag.attributes.map Attribute.index = List.range' 0 w.attributes.length :=
      index_attributes _ _ _
    rw [← List.pairwise_map (f := Attribute.index), hindex]
    exact List.pairwise_lt_range'
  · obtain ⟨w, -, -, rfl⟩ := h
    rfl

theorem Tag.Unread.place {t : Tag} (h : t.Unread) (pos stop : Nat) (content : Option Span) :
    (t.place pos stop content).Unread where
  legible := h.legible.place pos stop content
  index := List.pairwise_map.mpr h.index
  extension := List.forall_mem_map.mpr h.extension
  preserveSpace := by
    rw [preservesSpace, Tag.place, List.any_map]
    exact h.preserveSpace

mutual

theorem Part.Fits.spelled_tags : ∀ {q : Part} {nest : Nat}, q.Fits nest →
    ∀ t ∈ q.tags, ∃ text, t.Spelled text
  | .text _ _, _, _ => by simp [Part.tags]
  | .raw _ _, _, _ => by simp [Part.tags]
  | .element opening tag children closing, nest, h => by
    obtain ⟨-, hspelled, -, -, hvalid⟩ := h.valid (by simp)
    rw [Part.tags, List.forall_mem_cons]
    have hfits : ∀ p ∈ children, p.Fits (nest + 1) := fun p hp => .inl (hvalid.valid p hp)
    exact ⟨⟨opening, hspelled⟩, spelled_allTags hfits⟩

theorem spelled_allTags : ∀ {ps : List Part} {nest : Nat}, (∀ p ∈ ps, p.Fits nest) →
    ∀ t ∈ allTags ps, ∃ text, t.Spelled text
  | [], _, _ => by simp [allTags]
  | p :: ps, nest, h => by
    obtain ⟨hp, hps⟩ := List.forall_mem_cons.mp h
    rw [allTags, List.forall_mem_append]
    exact ⟨hp.spelled_tags, spelled_allTags hps⟩

end

theorem Document.spelled_tags {parts : List Part} (h : ValidTop false parts)
    (byteOrderMark : Bool) : ∀ t ∈ (ofParts byteOrderMark parts).tags,
      ∃ w text pos stop content, w.Spelled text ∧ t = Tag.place pos stop content w := by
  intro t ht
  obtain ⟨w, hw, pos, stop, content, rfl⟩ := exists_of_forall₂ (tagsList_placeList parts _) t ht
  obtain ⟨text, hspelled⟩ := spelled_allTags h.fits w hw
  exact ⟨w, text, pos, stop, content, hspelled, rfl⟩

theorem Document.unread_tags {parts : List Part} (h : ValidTop false parts) (byteOrderMark : Bool) :
    ∀ t ∈ (ofParts byteOrderMark parts).tags, t.Unread := by
  intro t ht
  obtain ⟨w, text, pos, stop, content, hspelled, rfl⟩ := spelled_tags h byteOrderMark t ht
  exact hspelled.unread.place pos stop content

end Unread

section Document

mutual

theorem Node.mapTags_congr {f g : Tag → Tag} : ∀ {n : Node}, (∀ t ∈ n.tags, f t = g t) →
    n.mapTags f = n.mapTags g
  | .element t ns, h => by
    rw [Node.tags, List.forall_mem_cons] at h
    rw [Node.mapTags, Node.mapTags, h.1, mapTagsList_congr h.2]
  | .text _ _, _ => rfl
  | .raw _ _ _, _ => rfl

theorem mapTagsList_congr {f g : Tag → Tag} : ∀ {ns : List Node}, (∀ t ∈ tagsList ns, f t = g t) →
    mapTagsList f ns = mapTagsList g ns
  | [], _ => rfl
  | n :: ns, h => by
    rw [tagsList, List.forall_mem_append] at h
    rw [mapTagsList, mapTagsList, Node.mapTags_congr h.1, mapTagsList_congr h.2]

end

namespace Document

variable {s : Settings} {source : Chars} {d : Document}

theorem withReadings_of_unread (hs : s.formatExtensions = false) (h : ∀ t ∈ d.tags, t.Unread) :
    d.mapTags (Tag.withReadings s) = d := by
  have hid : mapTagsList (Tag.withReadings s) d.nodes = d.nodes := by
    refine (mapTagsList_congr fun t ht => ?_).trans (mapTagsList_id d.nodes)
    have hattributes : t.attributes.map (Attribute.withReading s) = t.attributes := by
      refine (List.map_congr_left fun a ha => ?_).trans (List.map_id _)
      rw [Attribute.withReading, Settings.reading, hs, if_neg Bool.false_ne_true,
        ← (h t ht).extension a ha]
      rfl
    rw [Tag.withReadings, hattributes]
  rw [mapTags, hid]

/-- A document whose values can be read, with what they are read as. -/
theorem readWith_eq (hread : read source = .ok d) (h : ∀ t ∈ d.tags, t.Unread)
    (hcan : ∀ t ∈ d.tags, ∀ a ∈ t.attributes, s.CanRead a.value) :
    readWith s source = .ok (d.mapTags (Tag.withReadings s)) := by
  rw [readWith, hread]
  cases hs : s.formatExtensions with
  | false => rw [withReadings_of_unread hs h]; rfl
  | true =>
    have hannotate : d.annotate source = (d.mapTags (Tag.withReadings s), none) := by
      rw [annotate, annotateList_eq hs d.nodes (fun t ht => (h t ht).extension) hcan]
      rfl
    simp [hannotate]

theorem of_readWith {d' : Document} (h : readWith s source = .ok d') :
    ∃ byteOrderMark parts, ValidTop false parts ∧
      source = markText byteOrderMark ++ spelledList parts ∧
      (∀ t ∈ (ofParts byteOrderMark parts).tags, ∀ a ∈ t.attributes, s.CanRead a.value) ∧
      d' = (ofParts byteOrderMark parts).mapTags (Tag.withReadings s) := by
  cases hread : read source with
  | error e => simp [readWith, hread] at h
  | ok d =>
    obtain ⟨parts, hvalid, hsource, hd⟩ := read_sound hread
    have hunread := unread_tags hvalid d.byteOrderMark
    rw [← hd] at hunread
    have hcan : ∀ t ∈ d.tags, ∀ a ∈ t.attributes, s.CanRead a.value := by
      cases hs : s.formatExtensions with
      | false => exact fun t _ a _ hf => by simp [hs] at hf
      | true =>
        refine canRead_of_annotateList hs d.nodes (fun t ht => (hunread t ht).extension) ?_
        by_contra hfault
        obtain ⟨offset, hoffset⟩ := Option.ne_none_iff_exists'.mp hfault
        simp [readWith, hread, hs, annotate, hoffset] at h
    rw [readWith_eq hread hunread hcan] at h
    cases h
    exact ⟨d.byteOrderMark, parts, hvalid, hsource, hd ▸ hcan, by rw [← hd]⟩

/-- A value that is nested too deep is all that can go wrong. -/
theorem readWith_error (hread : read source = .ok d) (h : ∀ t ∈ d.tags, t.Unread)
    (hcan : ¬ ∀ t ∈ d.tags, ∀ a ∈ t.attributes, s.CanRead a.value) :
    ∃ place, readWith s source = .error (.tooDeep Extension.maxDepth place) := by
  have hs : s.formatExtensions = true := by
    by_contra hs
    exact hcan fun t _ a _ hf => absurd hf hs
  have hfault : (annotateList d.nodes).2 ≠ none := fun hnone =>
    hcan (canRead_of_annotateList hs d.nodes (fun t ht => (h t ht).extension) hnone)
  obtain ⟨offset, hoffset⟩ := Option.ne_none_iff_exists'.mp hfault
  exact ⟨Place.ofOffset source offset, by simp [readWith, hread, hs, annotate, hoffset]⟩

end Document

end Document

end XamlFormat
