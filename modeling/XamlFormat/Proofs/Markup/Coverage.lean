import XamlFormat.Proofs.Markup.Sound

/-! Reading drops nothing: the nodes of a document tile its text, the children of an element tile
what stands between its tags, and every node records the bytes that its span delimits. -/
namespace XamlFormat

open Markup

/-- The node lies in the forest, `k` levels deep; the nodes of the forest itself are at level one. -/
inductive Node.Occurs (n : Node) : Nat → List Node → Prop
  | here {ns : List Node} (h : n ∈ ns) : Node.Occurs n 1 ns
  | inside {ns : List Node} {t : Tag} {children : List Node} {k : Nat}
    (h : .element t children ∈ ns) (h' : Node.Occurs n k children) : Node.Occurs n (k + 1) ns

/-- The spans follow each other without gap or overlap from byte `start` to byte `stop`. -/
def Span.Tile (start stop : Nat) : List Span → Prop
  | [] => start = stop
  | s :: ss => s.start = start ∧ s.start < s.stop ∧ Span.Tile s.stop stop ss

/-- Byte `n` of the source is where a character starts, or where the source ends. -/
def Text.IsBoundary (source : Chars) (n : Nat) : Prop :=
  ∃ a b, source = a ++ b ∧ n = byteLength a

def IsStartTag (name : Chars) (selfClosing : Bool) (text : Chars) : Prop :=
  ∃ w : WrittenTag, w.Valid ∧ w.name = name ∧ w.selfClosing = selfClosing ∧ w.text = text

/-- An element whose tags stand at the two ends of its span, and whose children tile what is between
them. -/
structure Tag.Encloses (source : Chars) (t : Tag) (children : List Node) (content : Span) :
    Prop where
  recorded : t.content = some content
  start_lt : t.span.start < content.start
  le : content.start ≤ content.stop
  lt_stop : content.stop < t.span.stop
  boundaries : Text.IsBoundary source content.start ∧ Text.IsBoundary source content.stop
  startTag : IsStartTag t.name.written false (Text.slice source t.span.start content.start)
  endTag : IsEndTag t.name.written (Text.slice source content.stop t.span.stop)
  tile : Span.Tile content.start content.stop (children.map Node.span)

/-- The slice of the source is what the node records. -/
def Node.Recorded (source : Chars) : Node → Prop
  | .text value s =>
    '<' ∉ Text.slice source s.start s.stop ∧
      Reference.decode (Text.slice source s.start s.stop) = .ok value
  | .raw .comment content s =>
    Text.slice source s.start s.stop = commentOpen ++ content ++ commentClose
  | .raw .cdata content s => Text.slice source s.start s.stop = cdataOpen ++ content ++ cdataClose
  | .raw .instruction content s => Text.slice source s.start s.stop = content
  | .raw .doctype content s => Text.slice source s.start s.stop = content
  | .element t children =>
    if t.selfClosing then IsStartTag t.name.written true (Text.slice source t.span.start t.span.stop)
    else ∃ content, t.Encloses source children content

/-- A part that may stand at nesting `depth`, or a doctype, which has its place outside the root. -/
def Part.Fits (depth : Nat) (p : Part) : Prop :=
  p.Valid depth ∨ ∃ content, p = .raw .doctype content ∧ RawKind.doctype.Closed content

theorem ValidList.valid {depth : Nat} {parts : List Part} (h : ValidList depth parts) :
    ∀ p ∈ parts, p.Valid depth := by
  induction parts with
  | nil => simp
  | cons p ps ih => simpa using ⟨h.1, ih h.2.2⟩

theorem ValidTop.fits {rooted : Bool} {parts : List Part} (h : ValidTop rooted parts) :
    ∀ p ∈ parts, p.Fits 1 := by
  induction parts generalizing rooted with
  | nil => simp
  | cons p ps ih =>
    cases p with
    | text spelling value =>
      obtain ⟨hne, hb, rfl, -, hps⟩ := h
      have hplain : ∀ d, Text.isXmlBlank d = false → d ∉ value := fun d hd hm => by
        simp [hb d hm] at hd
      refine List.forall_mem_cons.mpr ⟨.inl ⟨hne, hplain _ rfl, ?_⟩, ih hps⟩
      exact Reference.decode_plain (hplain _ rfl)
    | raw kind content =>
      obtain ⟨hk, -, hc, hps⟩ := h
      refine List.forall_mem_cons.mpr ⟨?_, ih hps⟩
      by_cases hd : kind = .doctype
      · subst hd
        exact .inr ⟨content, rfl, hc⟩
      · exact .inl ⟨hd, hc⟩
    | element opening tag children closing =>
      exact List.forall_mem_cons.mpr ⟨.inl h.2.1, ih h.2.2⟩

theorem exists_of_mem_placeList {n : Node} {parts : List Part} {pos : Nat}
    (h : n ∈ placeList pos parts) :
    ∃ ps p qs, parts = ps ++ p :: qs ∧ n = p.place (pos + Text.byteLength (spelledList ps)) := by
  induction parts generalizing pos with
  | nil => simp [placeList] at h
  | cons p ps ih =>
    rw [placeList, List.mem_cons] at h
    obtain rfl | h := h
    · exact ⟨[], p, ps, rfl, rfl⟩
    · obtain ⟨ps', q, qs, rfl, rfl⟩ := ih h
      refine ⟨p :: ps', q, qs, rfl, ?_⟩
      simp [spelledList, Nat.add_assoc]

/-- A part that stands in the source behind the text `a`, and the node that was read for it. -/
structure Located (source : Chars) (depth : Nat) (n : Node) (p : Part) (a : Chars) : Prop where
  fits : p.Fits depth
  eq : n = p.place (Text.byteLength a)
  spelled : ∃ b, source = a ++ (p.spelled ++ b)

namespace Located

variable {source : Chars} {depth : Nat} {t : Tag} {children : List Node} {p : Part} {a : Chars}

theorem exists_element (h : Located source depth (.element t children) p a) :
    ∃ opening tag cs closing, p = .element opening tag cs closing := by
  have := h.eq
  cases p with
  | text | raw => simp [Part.place] at this
  | element opening tag cs closing => exact ⟨opening, tag, cs, closing, rfl⟩

theorem valid_element {n : Node} {opening closing : Chars} {tag : Tag} {cs : List Part}
    (h : Located source depth n (.element opening tag cs closing) a) :
    (Part.element opening tag cs closing).Valid depth := by
  obtain h | ⟨_, h, -⟩ := h.fits
  · exact h
  · cases h

theorem valid_children {n : Node} {opening closing : Chars} {tag : Tag} {cs : List Part}
    (h : Located source depth n (.element opening tag cs closing) a) :
    ∀ q ∈ cs, q.Valid (depth + 1) :=
  h.valid_element.2.2.2.2.valid

end Located

theorem located_of_mem {source : Chars} {depth : Nat} {n : Node} {parts : List Part} {a b : Chars}
    (hs : source = a ++ (spelledList parts ++ b)) (hf : ∀ p ∈ parts, p.Fits depth)
    (h : n ∈ placeList (Text.byteLength a) parts) : ∃ p a', Located source depth n p a' := by
  obtain ⟨ps, p, qs, rfl, rfl⟩ := exists_of_mem_placeList h
  refine ⟨p, a ++ spelledList ps, hf p (by simp), by simp, spelledList qs ++ b, ?_⟩
  rw [hs, spelledList_append]
  simp [spelledList]

/-- Every node of the document stands for a part of the source, at its own nesting. -/
theorem located_of_occurs {source : Chars} (depth : Nat) {k : Nat} {n : Node} {parts : List Part}
    {a b : Chars} (hs : source = a ++ (spelledList parts ++ b))
    (hf : ∀ p ∈ parts, p.Fits (depth + 1))
    (h : n.Occurs k (placeList (Text.byteLength a) parts)) :
    ∃ p a', Located source (depth + k) n p a' := by
  generalize hns : placeList (Text.byteLength a) parts = ns at h
  induction h generalizing depth parts a b with
  | here h =>
    subst hns
    exact located_of_mem hs hf h
  | @inside ns t children k h h' ih =>
    subst hns
    obtain ⟨p, a', hp⟩ := located_of_mem hs hf h
    obtain ⟨opening, tag, cs, closing, rfl⟩ := hp.exists_element
    obtain ⟨b', hb'⟩ := hp.spelled
    have hchildren : children = placeList (Text.byteLength (a' ++ opening)) cs := by
      have := hp.eq
      simp only [Part.place, Node.element.injEq] at this
      simpa using this.2
    rw [← Nat.add_assoc, Nat.add_right_comm]
    refine ih _ (a := a' ++ opening) (b := closing ++ b') ?_ ?_ hchildren.symm
    · rw [hb']
      simp [Part.spelled]
    · exact fun q hq => .inl (hp.valid_children q hq)

theorem Text.slice_eq {source a b text : Chars} (h : source = a ++ (text ++ b)) :
    slice source (byteLength a) (byteLength a + byteLength text) = text := by
  rw [h, slice_append]

theorem byteLength_pos {s : Chars} (h : s ≠ []) : 0 < Text.byteLength s := by
  obtain ⟨c, cs, rfl⟩ := List.exists_cons_of_ne_nil h
  have := c.utf8Size_pos
  rw [Text.byteLength_cons]
  omega

theorem Part.Fits.spelled_ne {depth : Nat} {p : Part} (h : p.Fits depth) : p.spelled ≠ [] := by
  obtain h | ⟨content, rfl, h⟩ := h
  · exact h.spelled_ne
  · intro he
    simpa [show RawKind.doctype.markup content = [] from he] using h.head

theorem Part.span_place (p : Part) (pos : Nat) :
    (p.place pos).span = ⟨pos, pos + Text.byteLength p.spelled⟩ := by
  cases p <;> simp [Part.place, Node.span, Part.spelled, Tag.place, Nat.add_assoc]

theorem tile_placeList {depth : Nat} {parts : List Part} (h : ∀ p ∈ parts, p.Fits depth)
    (pos : Nat) :
    Span.Tile pos (pos + Text.byteLength (spelledList parts))
      ((placeList pos parts).map Node.span) := by
  induction parts generalizing pos with
  | nil => rfl
  | cons p ps ih =>
    obtain ⟨hp, hps⟩ := List.forall_mem_cons.mp h
    have hpos := byteLength_pos hp.spelled_ne
    simp only [placeList, List.map_cons, Part.span_place, Span.Tile, spelledList,
      Text.byteLength_append, ← Nat.add_assoc]
    exact ⟨trivial, by omega, ih hps _⟩

namespace Located

variable {source : Chars} {depth : Nat} {n : Node} {p : Part} {a : Chars}

theorem boundaries (h : Located source depth n p a) :
    Text.IsBoundary source n.span.start ∧ Text.IsBoundary source n.span.stop := by
  obtain ⟨b, hb⟩ := h.spelled
  rw [h.eq, Part.span_place]
  refine ⟨⟨a, _, hb, rfl⟩, a ++ p.spelled, b, ?_, ?_⟩
  · rw [hb, List.append_assoc]
  · rw [Text.byteLength_append]

theorem slice (h : Located source depth n p a) :
    Text.slice source n.span.start n.span.stop = p.spelled := by
  obtain ⟨b, hb⟩ := h.spelled
  rw [h.eq, Part.span_place]
  exact Text.slice_eq hb

theorem encloses {t : Tag} {children : List Node}
    (h : Located source depth (.element t children) p a) (hself : t.selfClosing = false) :
    ∃ content, t.Encloses source children content := by
  obtain ⟨opening, tag, cs, closing, rfl⟩ := h.exists_element
  obtain ⟨b, hb⟩ := h.spelled
  obtain ⟨-, ⟨w, hw, rfl, rfl⟩, -, hend, hcs⟩ := h.valid_element
  have heq := h.eq
  simp only [Part.place, Node.element.injEq] at heq
  obtain ⟨rfl, rfl⟩ := heq
  rw [place_selfClosing] at hself
  have hend := hend hself
  have hopen : 0 < Text.byteLength w.text := byteLength_pos (by simp [WrittenTag.text])
  have hclose : 0 < Text.byteLength closing := by
    obtain ⟨gap, -, rfl⟩ := hend
    exact byteLength_pos (by simp)
  simp only [Part.spelled, List.append_assoc] at hb
  have h1 : source = (a ++ w.text) ++ (spelledList cs ++ (closing ++ b)) := by
    rw [hb, List.append_assoc]
  have h2 : source = (a ++ w.text ++ spelledList cs) ++ (closing ++ b) := by
    rw [hb, List.append_assoc, List.append_assoc]
  have hslice1 := Text.slice_eq hb
  have hslice2 := Text.slice_eq h2
  simp only [Text.byteLength_append] at hslice2
  exact ⟨⟨Text.byteLength a + Text.byteLength w.text,
      Text.byteLength a + Text.byteLength w.text + Text.byteLength (spelledList cs)⟩,
    { recorded := by simp [Tag.place, hself]
      start_lt := Nat.lt_add_of_pos_right hopen
      le := Nat.le_add_right _ _
      lt_stop := Nat.lt_add_of_pos_right hclose
      boundaries := ⟨⟨_, _, h1, by simp⟩, ⟨_, _, h2, by simp [Nat.add_assoc]⟩⟩
      startTag := ⟨w, hw, by simp [Tag.place, WrittenTag.tag], hself, hslice1.symm⟩
      endTag := by
        simp only [Tag.place]
        rw [hslice2]
        exact hend
      tile := tile_placeList (fun q hq => .inl (hcs.valid q hq)) _ }⟩

theorem recorded (h : Located source depth n p a) : n.Recorded source := by
  have hslice := h.slice
  have heq := h.eq
  cases n with
  | text value s =>
    cases p with
    | raw | element => simp [Part.place] at heq
    | text spelling value' =>
      cases heq
      obtain h | ⟨_, h, -⟩ := h.fits
      · simp only [Node.span, Part.spelled] at hslice
        rw [Node.Recorded, hslice]
        exact h.2
      · cases h
  | raw kind content s =>
    cases p with
    | text | element => simp [Part.place] at heq
    | raw kind' content' =>
      cases heq
      cases kind <;>
        simpa [Node.Recorded, Node.span, Part.spelled, RawKind.markup] using hslice
  | element t children =>
    rw [Node.Recorded]
    split
    · rename_i hself
      obtain ⟨opening, tag, cs, closing, rfl⟩ := h.exists_element
      obtain ⟨-, ⟨w, hw, rfl, rfl⟩, hempty, -⟩ := h.valid_element
      simp only [Part.place, Node.element.injEq] at heq
      obtain ⟨rfl, rfl⟩ := heq
      obtain ⟨rfl, rfl⟩ := hempty hself
      simp only [Part.spelled, spelledList, List.append_nil] at hslice
      exact ⟨w, hw, by simp [Tag.place, WrittenTag.tag], hself, hslice.symm⟩
    · rename_i hself
      exact h.encloses (by simpa using hself)

end Located

namespace Document

/-- The nodes of a document tile its text behind the byte order mark, and every node at any level
has a span of whole characters whose bytes it records. -/
theorem read_covers {source : Chars} {d : Document} (h : read source = .ok d) :
    Span.Tile (if source.head? = some mark then 3 else 0) (Text.byteLength source)
        (d.nodes.map Node.span) ∧
      ∀ (n : Node) k, n.Occurs k d.nodes →
        Text.IsBoundary source n.span.start ∧ Text.IsBoundary source n.span.stop ∧
          n.Recorded source := by
  obtain ⟨parts, hvalid, hsource, hd⟩ := read_sound h
  have hfits := hvalid.fits
  have hmark : (if source.head? = some mark then 3 else 0) =
      Text.byteLength (markText d.byteOrderMark) := by
    rw [byteOrderMark_of_read h]
    by_cases hm : source.head? = some mark
    · rw [if_pos hm, hm]
      rfl
    · simp [markText, hm]
  have hlength : Text.byteLength source =
      Text.byteLength (markText d.byteOrderMark) + Text.byteLength (spelledList parts) := by
    rw [← Text.byteLength_append, ← hsource]
  constructor
  · rw [hmark, hlength, hd]
    exact tile_placeList hfits _
  · intro n k hn
    rw [hd] at hn
    obtain ⟨p, a, hp⟩ := located_of_occurs 0 (b := []) (by simpa using hsource) hfits hn
    exact ⟨hp.boundaries.1, hp.boundaries.2, hp.recorded⟩

theorem read_covers_sample :
    ∃ d, read "<A b='1'>x&amp;<!-- c --></A>\n".toList = .ok d ∧
      Span.Tile 0 30 (d.nodes.map Node.span) ∧
      ∀ (n : Node) k, n.Occurs k d.nodes →
        n.Recorded "<A b='1'>x&amp;<!-- c --></A>\n".toList := by
  have h : ∃ d, read "<A b='1'>x&amp;<!-- c --></A>\n".toList = .ok d := ⟨_, by cbv⟩
  obtain ⟨d, hd⟩ := h
  have hcovers := read_covers hd
  exact ⟨d, hd, hcovers.1, fun n k hn => (hcovers.2 n k hn).2.2⟩

end Document
end XamlFormat
