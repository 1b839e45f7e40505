import XamlFormat.Proofs.Markup.Coverage

/-! Every document that is read is well formed: one root with only blanks, comments and instructions
around it, a bounded nesting, and elements whose tags and children are consistent. -/
namespace XamlFormat

open Markup

/-- The run of XML blanks that ends at byte `offset`. -/
def Text.blanksBefore (source : Chars) (offset : Nat) : Chars :=
  ((takeBytes offset source).reverse.takeWhile isXmlBlank).reverse

def Tag.startTagStop (t : Tag) : Nat :=
  match t.content with
  | some content => content.start
  | none => t.span.stop

structure Tag.WellFormed (source : Chars) (t : Tag) : Prop where
  distinct : (t.attributes.map fun a => a.name.written).Nodup
  index : t.attributes.map Attribute.index = List.range t.attributes.length
  increasing : (t.attributes.map Attribute.offset).Pairwise (· < ·)
  inside : ∀ a ∈ t.attributes, t.span.start < a.offset ∧ a.offset < t.startTagStop
  firstLine : t.firstLine = (t.attributes.takeWhile fun a =>
    !(Text.blanksBefore source a.offset).contains '\n').length
  preserveSpace : t.preserveSpace = true ↔
    ∃ a ∈ t.attributes, a.name.written = "xml:space".toList ∧ a.value = "preserve".toList
  content : t.content.isSome = !t.selfClosing

/-- Siblings among which no text is empty and no text follows another one. -/
structure TextsApart (nodes : List Node) : Prop where
  nonempty : ∀ v s, .text v s ∈ nodes → v ≠ []
  apart : ∀ before v s v' s' after, nodes ≠ before ++ .text v s :: .text v' s' :: after

/-- The nodes of a document with one root, as seen from outside the root. -/
structure OneRoot (nodes : List Node) : Prop where
  root : nodes.countP Node.isElement = 1
  margins : ∀ v s, .text v s ∈ nodes → v.all Text.isXmlBlank = true
  cdata : ∀ c s, .raw .cdata c s ∉ nodes
  doctype : ∀ before t children after, nodes = before ++ .element t children :: after →
    ∀ c s, .raw .doctype c s ∉ after

section Attributes

theorem index_attributes (index pos : Nat) (ws : List WrittenAttribute) :
    (WrittenAttribute.attributes index pos ws).map Attribute.index =
      List.range' index ws.length := by
  induction ws generalizing index pos with
  | nil => rfl
  | cons w ws ih =>
    simp [WrittenAttribute.attributes, WrittenAttribute.toAttribute, ih, List.range'_succ]

theorem length_attributes (index pos : Nat) (ws : List WrittenAttribute) :
    (WrittenAttribute.attributes index pos ws).length = ws.length := by
  simpa using congrArg List.length (index_attributes index pos ws)

theorem WrittenAttribute.byteLength_body_pos (w : WrittenAttribute) :
    0 < Text.byteLength w.body := by
  simp only [body, Text.byteLength_append, Text.byteLength_cons]
  have := ('=' : Char).utf8Size_pos
  omega

theorem offset_attributes {index pos : Nat} {ws : List WrittenAttribute} {a : Attribute}
    (h : a ∈ WrittenAttribute.attributes index pos ws) :
    pos ≤ a.offset ∧ a.offset < pos + Text.byteLength (ws.flatMap WrittenAttribute.text) := by
  induction ws generalizing index pos with
  | nil => simp [WrittenAttribute.attributes] at h
  | cons w ws ih =>
    have hbody := w.byteLength_body_pos
    rw [WrittenAttribute.attributes, List.mem_cons] at h
    simp only [List.flatMap_cons, Text.byteLength_append]
    obtain rfl | h := h
    · simp only [WrittenAttribute.toAttribute, WrittenAttribute.text, Text.byteLength_append]
      omega
    · have := ih h
      omega

theorem increasing_attributes (index pos : Nat) (ws : List WrittenAttribute) :
    ((WrittenAttribute.attributes index pos ws).map Attribute.offset).Pairwise (· < ·) := by
  induction ws generalizing index pos with
  | nil => simp [WrittenAttribute.attributes]
  | cons w ws ih =>
    have hbody := w.byteLength_body_pos
    rw [WrittenAttribute.attributes, List.map_cons, List.pairwise_cons]
    refine ⟨?_, ih _ _⟩
    intro offset ho
    obtain ⟨a, ha, rfl⟩ := List.mem_map.mp ho
    have := (offset_attributes ha).1
    simp only [WrittenAttribute.toAttribute, WrittenAttribute.text, Text.byteLength_append] at this ⊢
    omega

/-- The text ends with a character that is no XML blank. -/
def Text.EndsSolid (s : Chars) : Prop := ∃ a c, s = a ++ [c] ∧ isXmlBlank c = false

theorem Text.EndsSolid.append {s : Chars} (h : EndsSolid s) (t : Chars) : EndsSolid (t ++ s) := by
  obtain ⟨a, c, rfl, hc⟩ := h
  exact ⟨t ++ a, c, (List.append_assoc _ _ _).symm, hc⟩

theorem Text.blanksBefore_eq {pre gap rest : Chars} (hpre : EndsSolid pre) (hgap : Blanks gap) :
    blanksBefore (pre ++ (gap ++ rest)) (byteLength pre + byteLength gap) = gap := by
  obtain ⟨a, c, rfl, hc⟩ := hpre
  rw [blanksBefore, ← byteLength_append, ← List.append_assoc, takeBytes_append,
    List.reverse_append, takeWhile_append_halts (by simpa [Blanks] using hgap) (by simpa using hc),
    List.reverse_reverse]

theorem IsName.endsSolid {name : Chars} (h : IsName name) : Text.EndsSolid name := by
  obtain ⟨a, c, rfl⟩ := (List.eq_nil_or_concat' name).resolve_left fun he => by
    simp [he, IsName] at h
  refine ⟨a, c, rfl, ?_⟩
  by_contra hc
  have hb : Text.isXmlBlank c = true := by simpa using hc
  cases a with
  | nil =>
    have h1 := h.1
    simp [isNameStart_of_isXmlBlank hb] at h1
  | cons d ds =>
    have h1 := h.2 c (by simp)
    simp [isNameChar_of_isXmlBlank hb] at h1

theorem WrittenAttribute.Valid.endsSolid {w : WrittenAttribute} (h : w.Valid) :
    Text.EndsSolid w.text := by
  refine ⟨w.gap ++ (w.name ++ (w.before ++ '=' :: (w.after ++ w.quote :: w.raw))), w.quote, ?_, ?_⟩
  · simp [text, body]
  · obtain hq | hq := h.quote <;> rw [hq] <;> rfl

theorem blanksBefore_attributes {ws : List WrittenAttribute} (hws : ∀ w ∈ ws, w.Valid)
    {pre : Chars} (hpre : Text.EndsSolid pre) (index : Nat) (rest : Chars) :
    (WrittenAttribute.attributes index (Text.byteLength pre) ws).map (fun a =>
        Text.blanksBefore (pre ++ (ws.flatMap WrittenAttribute.text ++ rest)) a.offset) =
      ws.map WrittenAttribute.gap := by
  induction ws generalizing pre index with
  | nil => rfl
  | cons w ws ih =>
    obtain ⟨hw, hws⟩ := List.forall_mem_cons.mp hws
    have hrest := ih hws (hw.endsSolid.append pre) (index + 1)
    rw [Text.byteLength_append] at hrest
    rw [WrittenAttribute.attributes, List.map_cons, List.map_cons]
    congr 1
    · rw [List.flatMap_cons, WrittenAttribute.text, List.append_assoc, List.append_assoc]
      exact Text.blanksBefore_eq hpre hw.gap
    · simpa using hrest

theorem firstLine_attributes {ws : List WrittenAttribute} (hws : ∀ w ∈ ws, w.Valid)
    {pre : Chars} (hpre : Text.EndsSolid pre) (index : Nat) (rest : Chars) :
    WrittenAttribute.firstLine ws =
      ((WrittenAttribute.attributes index (Text.byteLength pre) ws).takeWhile fun a =>
        !(Text.blanksBefore (pre ++ (ws.flatMap WrittenAttribute.text ++ rest)) a.offset).contains
          '\n').length := by
  have h := congrArg (fun gaps => (gaps.takeWhile fun gap => !gap.contains '\n').length)
    (blanksBefore_attributes hws hpre index rest)
  simpa only [WrittenAttribute.firstLine, List.takeWhile_map, List.length_map,
    Function.comp_def] using h.symm

end Attributes

theorem Located.wellFormed {source : Chars} {depth : Nat} {t : Tag} {children : List Node}
    {p : Part} {a : Chars} (h : Located source depth (.element t children) p a) :
    t.WellFormed source := by
  obtain ⟨opening, tag, cs, closing, rfl⟩ := h.exists_element
  obtain ⟨b, hb⟩ := h.spelled
  obtain ⟨-, ⟨w, hw, rfl, rfl⟩, hself, -, -⟩ := h.valid_element
  have heq := h.eq
  simp only [Part.place, Node.element.injEq] at heq
  have ht := heq.1
  -- the attributes as they stand behind the name of the tag
  let pre := a ++ '<' :: w.name
  have hpre : Text.EndsSolid pre := by
    simpa [pre] using (IsName.endsSolid hw.name).append (a ++ ['<'])
  have hattributes :
      t.attributes = WrittenAttribute.attributes 0 (Text.byteLength pre) w.attributes := by
    have : Text.byteLength pre = Text.byteLength a + (1 + Text.byteLength w.name) := by
      rw [Text.byteLength_append, Text.byteLength_cons]
      rfl
    rw [ht, this, attributes_add]
    rfl
  have hsource : source = pre ++ (w.attributes.flatMap WrittenAttribute.text ++
      (w.gap ++ (WrittenTag.bracket w.selfClosing ++ (spelledList cs ++ (closing ++ b))))) := by
    rw [hb]
    simp [pre, Part.spelled, WrittenTag.text]
  have hstart : t.span.start = Text.byteLength a := by rw [ht]; rfl
  have hstop : t.startTagStop = Text.byteLength (a ++ w.text) := by
    rw [ht]
    cases hsc : w.tag.selfClosing with
    | true =>
      obtain ⟨rfl, rfl⟩ := hself hsc
      simp [Tag.startTagStop, Tag.place, spelledList]
    | false => simp [Tag.startTagStop, Tag.place]
  exact
    { distinct := by
        have : (t.attributes.map fun a => a.name.written) =
            w.attributes.map WrittenAttribute.name := by
          have := congrArg (List.map QName.written) (name_attributes 0 (Text.byteLength pre)
            w.attributes)
          simpa [hattributes, Function.comp_def] using this
        rw [this]
        exact hw.distinct
      index := by
        rw [hattributes, index_attributes, length_attributes, List.range_eq_range']
      increasing := by
        rw [hattributes]
        exact increasing_attributes _ _ _
      inside := by
        intro x hx
        rw [hattributes] at hx
        obtain ⟨h1, h2⟩ := offset_attributes hx
        rw [hstart, hstop]
        simp only [pre, Text.byteLength_append, Text.byteLength_cons, WrittenTag.text] at h1 h2 ⊢
        have := ('<' : Char).utf8Size_pos
        omega
      firstLine := by
        have : t.firstLine = WrittenAttribute.firstLine w.attributes := by rw [ht]; rfl
        rw [this, hattributes, hsource]
        exact firstLine_attributes hw.attributes hpre 0 _
      preserveSpace := by
        have : t.preserveSpace = preservesSpace t.attributes := by
          rw [ht]
          exact (preservesSpace_map_offset _ _).symm
        simp [this, preservesSpace]
      content := by
        rw [ht]
        cases hsc : w.tag.selfClosing <;> simp [Tag.place, hsc] }

def Part.Apart (parts : List Part) : Prop :=
  parts.IsChain fun p q => p.isText = true → q.isText = false

theorem Part.apart_cons {p : Part} {ps : List Part} :
    Part.Apart (p :: ps) ↔ (p.isText = true → Part.headText ps = false) ∧ Part.Apart ps := by
  cases ps with
  | nil => simp [Part.Apart, Part.headText]
  | cons q qs => simp [Part.Apart, Part.headText]

theorem ValidList.apart {depth : Nat} {parts : List Part} (h : ValidList depth parts) :
    Part.Apart parts := by
  induction parts with
  | nil => simp [Part.Apart]
  | cons p ps ih => exact Part.apart_cons.mpr ⟨h.2.1, ih h.2.2⟩

theorem ValidTop.apart {rooted : Bool} {parts : List Part} (h : ValidTop rooted parts) :
    Part.Apart parts := by
  induction parts generalizing rooted with
  | nil => simp [Part.Apart]
  | cons p ps ih =>
    rw [Part.apart_cons]
    cases p with
    | text spelling value => exact ⟨fun _ => h.2.2.2.1, ih h.2.2.2.2⟩
    | raw kind content => exact ⟨by simp [Part.isText], ih h.2.2.2⟩
    | element opening tag children closing => exact ⟨by simp [Part.isText], ih h.2.2⟩

theorem Part.isText_of_place {p : Part} {pos : Nat} {v : Chars} {s : Span}
    (h : p.place pos = .text v s) : p.isText = true := by
  cases p with
  | text => rfl
  | raw | element => simp [Part.place] at h

theorem textsApart_placeList {depth : Nat} {parts : List Part} (hf : ∀ p ∈ parts, p.Fits depth)
    (ha : Part.Apart parts) (pos : Nat) : TextsApart (placeList pos parts) where
  nonempty v s h := by
    obtain ⟨ps, p, qs, rfl, hp⟩ := exists_of_mem_placeList h
    cases p with
    | raw | element => simp [Part.place] at hp
    | text spelling value =>
      cases hp
      obtain h | ⟨_, h, -⟩ := hf (.text spelling v) (by simp)
      · exact Reference.decode_ne_nil h.2.2 h.1
      · cases h
  apart before v s v' s' after h := by
    induction before generalizing pos parts with
    | nil =>
      obtain _ | ⟨p, _ | ⟨q, qs⟩⟩ := parts
      · simp [placeList] at h
      · simp [placeList] at h
      · simp only [placeList, List.nil_append, List.cons.injEq] at h
        have hp := Part.isText_of_place h.1
        have hq := Part.isText_of_place h.2.1
        have := (Part.apart_cons.mp ha).1 hp
        simp [Part.headText, hq] at this
    | cons n before ih =>
      cases parts with
      | nil => simp [placeList] at h
      | cons p ps =>
        simp only [placeList, List.cons_append, List.cons.injEq] at h
        exact ih (List.forall_mem_cons.mp hf).2 (Part.apart_cons.mp ha).2 _ h.2

theorem ValidList.doctype_notMem {depth : Nat} {parts : List Part} (h : ValidList depth parts)
    (pos : Nat) (c : Chars) (s : Span) : .raw .doctype c s ∉ placeList pos parts := by
  intro hm
  obtain ⟨ps, p, qs, rfl, hp⟩ := exists_of_mem_placeList hm
  cases p with
  | text | element => simp [Part.place] at hp
  | raw kind content =>
    cases hp
    exact (h.valid (.raw .doctype c) (by simp)).1 rfl

namespace ValidTop

variable {rooted : Bool} {parts : List Part}

theorem countP_isElement (h : ValidTop rooted parts) (pos : Nat) :
    (placeList pos parts).countP Node.isElement = if rooted then 0 else 1 := by
  induction parts generalizing rooted pos with
  | nil => simpa [placeList, ValidTop] using h
  | cons p ps ih =>
    rw [placeList, List.countP_cons]
    cases p with
    | text spelling value => simp [ih h.2.2.2.2, Part.place, Node.isElement]
    | raw kind content => simp [ih h.2.2.2, Part.place, Node.isElement]
    | element opening tag children closing =>
      obtain ⟨rfl, -, hps⟩ := h
      simp [ih hps, Part.place, Node.isElement]

theorem margin (h : ValidTop rooted parts) (pos : Nat) :
    (∀ v s, .text v s ∈ placeList pos parts → v.all Text.isXmlBlank = true) ∧
      (∀ c s, .raw .cdata c s ∉ placeList pos parts) ∧
      (rooted = true → ∀ c s, .raw .doctype c s ∉ placeList pos parts) := by
  induction parts generalizing rooted pos with
  | nil => simp [placeList]
  | cons p ps ih =>
    cases p with
    | text spelling value =>
      obtain ⟨-, hb, rfl, -, hps⟩ := h
      obtain ⟨h1, h2, h3⟩ := ih hps (pos + Text.byteLength value)
      simp only [placeList, Part.place, Part.spelled, List.mem_cons]
      refine ⟨?_, by simpa using h2, by simpa using h3⟩
      rintro v s (hv | hv)
      · cases hv
        simpa [Blanks] using hb
      · exact h1 v s hv
    | raw kind content =>
      obtain ⟨hk, hd, -, hps⟩ := h
      obtain ⟨h1, h2, h3⟩ := ih hps (pos + Text.byteLength (kind.markup content))
      simp only [placeList, Part.place, Part.spelled, List.mem_cons]
      refine ⟨by simpa using h1, ?_, ?_⟩
      · rintro c s (hc | hc)
        · cases hc
          exact hk rfl
        · exact h2 c s hc
      · rintro hr c s (hc | hc)
        · cases hc
          simp [hr] at hd
        · exact h3 hr c s hc
    | element opening tag children closing =>
      obtain ⟨rfl, -, hps⟩ := h
      obtain ⟨h1, h2, -⟩ := ih hps (pos + Text.byteLength
        (Part.element opening tag children closing).spelled)
      simp only [placeList, Part.place, List.mem_cons]
      exact ⟨by simpa using h1, by simpa using h2, by simp⟩

theorem doctype_notMem (h : ValidTop rooted parts) (pos : Nat) {before after : List Node} {t : Tag}
    {children : List Node} (heq : placeList pos parts = before ++ .element t children :: after)
    (c : Chars) (s : Span) : .raw .doctype c s ∉ after := by
  induction before generalizing rooted parts pos with
  | nil =>
    obtain _ | ⟨p, ps⟩ := parts
    · simp [placeList] at heq
    · simp only [placeList, List.nil_append, List.cons.injEq] at heq
      cases p with
      | text | raw => simp [Part.place] at heq
      | element opening tag cs closing =>
        rw [← heq.2]
        exact (margin h.2.2 _).2.2 rfl c s
  | cons n before ih =>
    obtain _ | ⟨p, ps⟩ := parts
    · simp [placeList] at heq
    · simp only [placeList, List.cons_append, List.cons.injEq] at heq
      cases p with
      | text => exact ih h.2.2.2.2 _ heq.2
      | raw => exact ih h.2.2.2 _ heq.2
      | element => exact ih h.2.2 _ heq.2

theorem oneRoot (h : ValidTop false parts) (pos : Nat) : OneRoot (placeList pos parts) where
  root := h.countP_isElement pos
  margins := (h.margin pos).1
  cdata := (h.margin pos).2.1
  doctype _ _ _ _ heq := h.doctype_notMem pos heq

end ValidTop

namespace Document

/-- A document that is read has one root with nothing but blanks, comments, instructions and at most
a leading doctype around it. Its elements are nested at most `maxDepth` deep, their start tags are
well formed, and their children are proper content. -/
theorem read_wellFormed {source : Chars} {d : Document} (h : read source = .ok d) :
    OneRoot d.nodes ∧ TextsApart d.nodes ∧
      ∀ t children k, (Node.element t children).Occurs k d.nodes →
        k ≤ maxDepth ∧ t.WellFormed source ∧ (t.selfClosing = true → children = []) ∧
          TextsApart children ∧ ∀ c s, .raw .doctype c s ∉ children := by
  obtain ⟨parts, hvalid, hsource, hd⟩ := read_sound h
  have hfits := hvalid.fits
  have hnodes : d.nodes = placeList (Text.byteLength (markText d.byteOrderMark)) parts := by
    conv_lhs => rw [hd]
    rfl
  refine ⟨?_, ?_, ?_⟩
  · rw [hnodes]
    exact hvalid.oneRoot _
  · rw [hnodes]
    exact textsApart_placeList hfits hvalid.apart _
  · intro t children k hn
    rw [hnodes] at hn
    obtain ⟨p, a, hp⟩ := located_of_occurs 0 (b := []) (by simpa using hsource) hfits hn
    rw [Nat.zero_add] at hp
    have hwell := hp.wellFormed
    obtain ⟨opening, tag, cs, closing, rfl⟩ := hp.exists_element
    obtain ⟨hdepth, -, hself, -, hcs⟩ := hp.valid_element
    have heq := hp.eq
    simp only [Part.place, Node.element.injEq] at heq
    obtain ⟨rfl, rfl⟩ := heq
    refine ⟨hdepth, hwell, fun hsc => ?_, textsApart_placeList (fun q hq => .inl (hcs.valid q hq))
      hcs.apart _, hcs.doctype_notMem _⟩
    rw [(hself hsc).1]
    rfl

theorem read_wellFormed_sample :
    ∃ d, read "<!--c--><A b='1'\n c=\"2\"><B/>x</A>\n".toList = .ok d ∧ OneRoot d.nodes ∧
      TextsApart d.nodes := by
  have h : ∃ d, read "<!--c--><A b='1'\n c=\"2\"><B/>x</A>\n".toList = .ok d := ⟨_, by cbv⟩
  obtain ⟨d, hd⟩ := h
  have hwell := read_wellFormed hd
  exact ⟨d, hd, hwell.1, hwell.2.1⟩

end Document
end XamlFormat
