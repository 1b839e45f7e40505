import XamlFormat.Proofs.Markup.Part

/-! What the reader accepts: every document that is read consists of valid parts, in the order of
the text and without anything left over between them. -/
namespace XamlFormat

namespace Cursor

/-- The second cursor comes right behind the text that the first one stands at. -/
def Advances (c : Cursor) (text : Chars) (next : Cursor) : Prop :=
  c.rest = text ++ next.rest ∧ next.pos = c.pos + Text.byteLength text

theorem Advances.refl (c : Cursor) : c.Advances [] c := by
  simp [Advances]

theorem Advances.trans {a b c : Cursor} {s t : Chars} (h : a.Advances s b) (h' : b.Advances t c) :
    a.Advances (s ++ t) c := by
  obtain ⟨h1, h2⟩ := h
  obtain ⟨h3, h4⟩ := h'
  refine ⟨by rw [h1, h3, List.append_assoc], ?_⟩
  rw [h4, h2, Text.byteLength_append, Nat.add_assoc]

theorem advances_drop {c : Cursor} {a b : Chars} (h : c.rest = a ++ b) :
    c.Advances a (c.drop a.length) := by
  simp [Advances, drop, h]

theorem rest_drop {c : Cursor} {a b : Chars} (h : c.rest = a ++ b) :
    (c.drop a.length).rest = b := by
  simp [drop, h]

theorem advances_dropWhile (c : Cursor) (p : Char → Bool) :
    c.Advances (c.rest.takeWhile p) (c.dropWhile p) := by
  simp [Advances, dropWhile]

end Cursor

namespace Markup

open Text

theorem advances_skipBlanks (c : Cursor) : ∃ gap, Blanks gap ∧ c.Advances gap c.skipBlanks :=
  ⟨_, fun _ hd => List.mem_takeWhile_imp hd, c.advances_dropWhile isXmlBlank⟩

def Lead.Fits : Lead → Chars → Prop
  | finish, s => s = []
  | endTag, s => ['<', '/'] <+: s
  | comment, s => commentOpen <+: s
  | cdata, s => cdataOpen <+: s
  | instruction, s => instructionOpen <+: s
  | doctype, s => doctypeOpen <+: s
  | declaration, s => ['<', '!'] <+: s
  | element, s => ['<'] <+: s
  | text, s => ∃ c t, s = c :: t ∧ c ≠ '<'

theorem fits_lead (s : Chars) : (lead s).Fits s := by
  unfold lead
  split
  · rfl
  · exact ⟨_, rfl⟩
  · exact ⟨_, rfl⟩
  · split_ifs with h1 h2 h3
    · exact List.isPrefixOf_iff_prefix.mp h1
    · exact List.isPrefixOf_iff_prefix.mp h2
    · exact List.isPrefixOf_iff_prefix.mp h3
    · exact ⟨_, rfl⟩
  · exact ⟨_, rfl⟩
  · rename_i h1 _ _ _ h2
    cases s with
    | nil => exact absurd rfl h1
    | cons c t => exact ⟨c, t, rfl, fun h => h2 t (by rw [h])⟩

theorem readDelimited_sound {opening closing content : Chars} {kind : RawKind} {c next : Cursor}
    (hc : closing ≠ []) (ho : opening <+: c.rest)
    (h : readDelimited opening closing kind c = .ok (content, next)) :
    c.Advances (opening ++ (content ++ closing)) next ∧ Ends closing content := by
  obtain ⟨body, hbody⟩ := ho
  have hrest := Cursor.rest_drop hbody.symm
  unfold readDelimited at h
  simp only [hrest] at h
  split at h
  · simp at h
  · rename_i found rest hcut
    simp only [Except.ok.injEq, Prod.mk.injEq] at h
    obtain ⟨rfl, rfl⟩ := h
    obtain ⟨hb, he⟩ := (cutAtMark_eq_some hc).mp hcut
    refine ⟨(Cursor.advances_drop hbody.symm).trans ?_, he⟩
    rw [← List.length_append]
    apply Cursor.advances_drop (b := rest)
    rw [hrest, hb, List.append_assoc]

/-- The node between the cursors is the part. -/
def Reads (c : Cursor) (n : Node) (next : Cursor) (p : Part) : Prop :=
  n = p.place c.pos ∧ c.Advances p.spelled next

theorem reads_raw {c next : Cursor} {kind : RawKind} {content : Chars}
    (h : c.Advances (kind.markup content) next) :
    Reads c (.raw kind content ⟨c.pos, next.pos⟩) next (.raw kind content) := by
  refine ⟨?_, h⟩
  rw [Part.place, h.2]

theorem readComment_sound {c next : Cursor} {n : Node} (ho : commentOpen <+: c.rest)
    (h : readComment c = .ok (n, next)) :
    ∃ content, Reads c n next (.raw .comment content) ∧ RawKind.comment.Closed content := by
  simp only [readComment, bind_eq_ok, Prod.exists] at h
  obtain ⟨content, last, h, hn⟩ := h
  cases hn
  obtain ⟨ha, he⟩ := readDelimited_sound (by decide) ho h
  exact ⟨content, reads_raw ha, he⟩

theorem readCData_sound {c next : Cursor} {n : Node} (ho : cdataOpen <+: c.rest)
    (h : readCData c = .ok (n, next)) :
    ∃ content, Reads c n next (.raw .cdata content) ∧ RawKind.cdata.Closed content := by
  simp only [readCData, bind_eq_ok, Prod.exists] at h
  obtain ⟨content, last, h, hn⟩ := h
  cases hn
  obtain ⟨ha, he⟩ := readDelimited_sound (by decide) ho h
  exact ⟨content, reads_raw ha, he⟩

theorem readInstruction_sound {c next : Cursor} {n : Node} (ho : instructionOpen <+: c.rest)
    (h : readInstruction c = .ok (n, next)) :
    ∃ content, Reads c n next (.raw .instruction content) ∧
      RawKind.instruction.Closed content := by
  simp only [readInstruction, bind_eq_ok, Prod.exists] at h
  obtain ⟨body, last, h, hn⟩ := h
  cases hn
  obtain ⟨ha, he⟩ := readDelimited_sound (by decide) ho h
  rw [List.append_assoc]
  exact ⟨_, reads_raw ha, body, rfl, he⟩

theorem scanDoctype_spec {quote : Option Char} {brackets : Nat} {s t : Chars}
    (h : scanDoctype quote brackets s = some t) :
    ∃ rest, s = t ++ rest ∧ ∀ rest', scanDoctype quote brackets (t ++ rest') = some t := by
  induction s generalizing quote brackets t with
  | nil => simp [scanDoctype] at h
  | cons c cs ih =>
    have step {quote' : Option Char} {brackets' : Nat}
        (h : (scanDoctype quote' brackets' cs).map (c :: ·) = some t) :
        ∃ u rest, t = c :: u ∧ cs = u ++ rest ∧
          ∀ rest', scanDoctype quote' brackets' (u ++ rest') = some u := by
      obtain ⟨u, hu, rfl⟩ := Option.map_eq_some_iff.mp h
      obtain ⟨rest, hrest, hall⟩ := ih hu
      exact ⟨u, rest, rfl, hrest, hall⟩
    cases quote with
    | some q =>
      simp only [scanDoctype] at h
      obtain ⟨u, rest, rfl, rfl, hall⟩ := step h
      exact ⟨rest, rfl, fun rest' => by simp [scanDoctype, hall]⟩
    | none =>
      simp only [scanDoctype] at h
      split_ifs at h with h1 h2 h3 h4
      · obtain ⟨u, rest, rfl, rfl, hall⟩ := step h
        exact ⟨rest, rfl, fun rest' => by simp [scanDoctype, hall, h1]⟩
      · obtain ⟨u, rest, rfl, rfl, hall⟩ := step h
        exact ⟨rest, rfl, fun rest' => by simp [scanDoctype, hall, h2]⟩
      · obtain ⟨u, rest, rfl, rfl, hall⟩ := step h
        exact ⟨rest, rfl, fun rest' => by simp [scanDoctype, hall, h3]⟩
      · cases h
        exact ⟨cs, rfl, fun rest' => by simp [scanDoctype, h4]⟩
      · obtain ⟨u, rest, rfl, rfl, hall⟩ := step h
        refine ⟨rest, rfl, fun rest' => ?_⟩
        rw [List.cons_append, scanDoctype, if_neg h1, if_neg h2, if_neg h3, if_neg h4, hall]
        rfl

theorem scanDoctype_plain {a : Chars} (h : ∀ c ∈ a, c ∉ ['"', '\'', '[', ']', '>']) (s : Chars) :
    scanDoctype none 0 (a ++ s) = (scanDoctype none 0 s).map (a ++ ·) := by
  induction a with
  | nil => simp
  | cons c cs ih =>
    have hc := h c (by simp)
    simp only [List.mem_cons, List.not_mem_nil, or_false, not_or] at hc
    rw [List.cons_append, scanDoctype, if_neg (by simp [hc]), if_neg hc.2.2.1, if_neg hc.2.2.2.1,
      if_neg (by simp [hc]), ih fun d hd => h d (by simp [hd]), Option.map_map]
    rfl

theorem readDoctype_sound {c next : Cursor} {n : Node} (ho : doctypeOpen <+: c.rest)
    (h : readDoctype c = .ok (n, next)) :
    ∃ content, Reads c n next (.raw .doctype content) ∧ RawKind.doctype.Closed content := by
  unfold readDoctype at h
  split at h
  · simp at h
  · rename_i content hscan
    cases h
    obtain ⟨rest, hrest, hall⟩ := scanDoctype_spec hscan
    refine ⟨content, reads_raw (Cursor.advances_drop hrest), ?_, by simpa using hall []⟩
    obtain ⟨body, hbody⟩ := ho
    rw [← hbody, scanDoctype_plain (by simp [doctypeOpen_eq])] at hscan
    obtain ⟨u, -, rfl⟩ := Option.map_eq_some_iff.mp hscan
    exact List.prefix_append _ _

theorem decodeAt_eq_ok {base : Nat} {s v : Chars} :
    decodeAt base s = .ok v ↔ Reference.decode s = .ok v := by
  unfold decodeAt
  split <;> simp_all

theorem readText_sound {c next : Cursor} {n : Node} (ho : Lead.text.Fits c.rest)
    (h : readText c = .ok (n, next)) :
    ∃ spelling value, Reads c n next (.text spelling value) ∧ spelling ≠ [] ∧ '<' ∉ spelling ∧
      Reference.decode spelling = .ok value ∧ Halts (· != '<') next.rest := by
  simp only [readText, bind_eq_ok, decodeAt_eq_ok] at h
  obtain ⟨value, h, hn⟩ := h
  cases hn
  have ha := c.advances_dropWhile (· != '<')
  refine ⟨_, value, ⟨?_, ha⟩, ?_, ?_, h, halts_dropWhile _ _⟩
  · rw [Part.place, ha.2]
  · obtain ⟨d, t, hd, hne⟩ := ho
    simp [hd, hne]
  · intro hmem
    simpa using List.mem_takeWhile_imp hmem

theorem readMargin_sound {c next : Cursor} {n : Node} (ho : Lead.text.Fits c.rest)
    (h : readMargin c = .ok (n, next)) :
    ∃ spelling, Reads c n next (.text spelling spelling) ∧ spelling ≠ [] ∧ Blanks spelling ∧
      Halts (· != '<') next.rest := by
  simp only [readMargin] at h
  split_ifs at h with hb
  cases h
  have ha := c.advances_dropWhile (· != '<')
  refine ⟨_, ⟨?_, ha⟩, ?_, ?_, halts_dropWhile _ _⟩
  · rw [Part.place, ha.2]
  · obtain ⟨d, t, hd, hne⟩ := ho
    simp [hd, hne]
  · simpa [Blanks] using hb

theorem readValue_sound {offset : Nat} {name value : Chars} {c next : Cursor}
    (h : readValue offset name c = .ok (value, next)) :
    ∃ q raw, (q = '"' ∨ q = '\'') ∧ q ∉ raw ∧ Reference.decode (flattenValue raw) = .ok value ∧
      c.Advances (q :: (raw ++ [q])) next := by
  unfold readValue at h
  split at h
  · rename_i q rest hrest
    split_ifs at h with hq
    split at h
    · simp at h
    · rename_i raw after hcut
      simp only [bind_eq_ok, decodeAt_eq_ok] at h
      obtain ⟨v, hv, hn⟩ := h
      cases hn
      refine ⟨q, raw, hq, notMem_of_cutAt hcut, hv, ?_⟩
      have hl : raw.length + 2 = (q :: (raw ++ [q])).length := by simp
      rw [hl]
      apply Cursor.advances_drop (b := after)
      rw [hrest, eq_of_cutAt hcut]
      simp
  · simp at h

theorem readAttribute_sound {index : Nat} {a : Attribute} {gap : Chars} {c₀ c next : Cursor}
    (hb : Blanks gap) (hne : gap ≠ []) (hg : c₀.Advances gap c)
    (h : readAttribute index c = .ok (a, next)) :
    ∃ w : WrittenAttribute, w.gap = gap ∧ w.Valid ∧ c₀.Advances w.text next ∧
      a = w.toAttribute index c₀.pos := by
  unfold readAttribute at h
  split at h
  · simp at h
  · rename_i hname
    obtain ⟨hn, rest, hrest, -⟩ := nameAt_spec rfl hname
    have h1 := Cursor.advances_drop hrest
    obtain ⟨before, hbefore, h2⟩ := advances_skipBlanks (c.drop (nameAt c.rest).length)
    dsimp only at h
    split at h
    · rename_i after heq
      simp only [bind_eq_ok, Prod.exists] at h
      obtain ⟨value, last, h, ha⟩ := h
      cases ha
      have h3 := Cursor.advances_drop (a := ['=']) heq
      obtain ⟨after, hafter, h4⟩ :=
        advances_skipBlanks ((c.drop (nameAt c.rest).length).skipBlanks.drop 1)
      obtain ⟨q, raw, hq, hraw, hv, h5⟩ := readValue_sound h
      refine ⟨⟨gap, nameAt c.rest, before, after, q, raw⟩, rfl,
        ⟨hne, hb, hn, hbefore, hafter, hq, hraw, ⟨value, hv⟩⟩, ?_, ?_⟩
      · have := hg.trans (h1.trans (h2.trans (h3.trans (h4.trans h5))))
        simpa [WrittenAttribute.text, WrittenAttribute.body] using this
      · simp [WrittenAttribute.toAttribute, WrittenAttribute.value, hv, hg.2]
    · simp at h

theorem readAttributes_sound {start : Nat} {name : Chars} {fuel firstLine : Nat}
    {seen : List Attribute} {broken : Bool} {c : Cursor} {r : TagRest}
    (hseen : (seen.map Attribute.name).Nodup)
    (h : readAttributes start name fuel seen firstLine broken c = .ok r) :
    ∃ ws gap, (∀ w ∈ ws, WrittenAttribute.Valid w) ∧ Blanks gap ∧
      c.Advances (ws.flatMap WrittenAttribute.text ++ (gap ++ WrittenTag.bracket r.selfClosing))
        r.next ∧
      r.attributes = seen ++ WrittenAttribute.attributes seen.length c.pos ws ∧
      r.firstLine = firstLine + (if broken then 0 else WrittenAttribute.firstLine ws) ∧
      (r.attributes.map Attribute.name).Nodup := by
  induction fuel generalizing seen firstLine broken c with
  | zero => simp [readAttributes] at h
  | succ fuel ih =>
    have hblank : Blanks (c.rest.takeWhile isXmlBlank) := fun d hd => List.mem_takeWhile_imp hd
    have h1 : c.Advances (c.rest.takeWhile isXmlBlank) c.skipBlanks :=
      c.advances_dropWhile isXmlBlank
    simp only [readAttributes] at h
    split at h
    · rename_i hrest
      cases h
      have h2 := Cursor.advances_drop (a := ['/', '>']) hrest
      exact ⟨[], _, by simp, hblank, by simpa [WrittenTag.bracket] using h1.trans h2, by
        simp [WrittenAttribute.attributes], by simp, hseen⟩
    · rename_i hrest
      cases h
      have h2 := Cursor.advances_drop (a := ['>']) hrest
      exact ⟨[], _, by simp, hblank, by simpa [WrittenTag.bracket] using h1.trans h2, by
        simp [WrittenAttribute.attributes], by simp, hseen⟩
    · simp at h
    · split at h
      · simp at h
      · rename_i hempty
        simp only [bind_eq_ok, Prod.exists] at h
        obtain ⟨a, next, ha, h⟩ := h
        split at h
        · simp [throw, throwThe, MonadExceptOf.throw, bind, Except.bind] at h
        · rename_i hdup
          obtain ⟨w, hw, hvalid, h2, rfl⟩ :=
            readAttribute_sound hblank (by simpa using hempty) h1 ha
          have hnew : ((seen ++ [w.toAttribute seen.length c.pos]).map Attribute.name).Nodup := by
            simp only [List.any_eq_true, beq_iff_eq, not_exists, not_and] at hdup
            rw [List.map_append]
            refine List.Nodup.append hseen (by simp) ?_
            simpa [List.disjoint_left, List.mem_map] using hdup
          obtain ⟨ws, gap, hws, hgap, h3, hattrs, hfirst, hnodup⟩ := ih hnew h
          refine ⟨w :: ws, gap, ?_, hgap, ?_, ?_, ?_, hnodup⟩
          · simpa using ⟨hvalid, hws⟩
          · simpa using h2.trans h3
          · rw [hattrs, h2.2]
            simp [WrittenAttribute.attributes]
          · rw [hfirst, ← hw, WrittenAttribute.firstLine_cons]
            cases broken <;> cases w.gap.contains '\n' <;> (simp; try omega)

theorem attributes_add (index pos n : Nat) (ws : List WrittenAttribute) :
    WrittenAttribute.attributes index (pos + n) ws =
      (WrittenAttribute.attributes index n ws).map fun a => { a with offset := pos + a.offset } := by
  induction ws generalizing index n with
  | nil => rfl
  | cons w ws ih =>
    simp only [WrittenAttribute.attributes, List.map_cons, Nat.add_assoc, ih]
    simp [WrittenAttribute.toAttribute, Nat.add_assoc]

theorem name_attributes (index pos : Nat) (ws : List WrittenAttribute) :
    (WrittenAttribute.attributes index pos ws).map Attribute.name =
      (ws.map WrittenAttribute.name).map QName.ofChars := by
  induction ws generalizing index pos with
  | nil => rfl
  | cons w ws ih => simp [WrittenAttribute.attributes, ih, WrittenAttribute.toAttribute]

theorem preservesSpace_map_offset (f : Attribute → Nat) (as : List Attribute) :
    preservesSpace (as.map fun a => { a with offset := f a }) = preservesSpace as := by
  simp [preservesSpace, List.any_map, Function.comp_def]

theorem readStartTag_sound {depth : Nat} {tag : Tag} {c next : Cursor} (ho : ['<'] <+: c.rest)
    (h : readStartTag depth c = .ok (tag, next)) :
    depth ≤ maxDepth ∧ ∃ t text, Tag.Spelled t text ∧ c.Advances text next ∧
      tag = t.place c.pos next.pos none := by
  unfold readStartTag at h
  split at h
  · simp at h
  · rename_i hdepth
    obtain ⟨after, hafter⟩ := ho
    have h1 := Cursor.advances_drop hafter.symm
    refine ⟨Nat.le_of_not_lt hdepth, ?_⟩
    dsimp only at h
    split at h
    · simp at h
    · rename_i hname
      obtain ⟨hn, rest, hrest, -⟩ := nameAt_spec rfl hname
      have h2 := Cursor.advances_drop hrest
      simp only [bind_eq_ok] at h
      obtain ⟨r, hr, h⟩ := h
      cases h
      obtain ⟨ws, gap, hws, hgap, h3, hattrs, hfirst, hnodup⟩ :=
        readAttributes_sound (by simp) hr
      let w : WrittenTag := ⟨nameAt (c.drop 1).rest, ws, gap, r.selfClosing⟩
      have hadv : c.Advances w.text r.next := by
        simpa [WrittenTag.text, w] using h1.trans (h2.trans h3)
      have hpos := (h1.trans h2).2
      refine ⟨w.tag, w.text, ⟨w, ⟨hn, hws, ?_, hgap⟩, rfl, rfl⟩, hadv, ?_⟩
      · rw [hattrs, List.nil_append, name_attributes] at hnodup
        exact hnodup.of_map
      · have he : r.attributes =
            w.tag.attributes.map fun a => { a with offset := c.pos + a.offset } := by
          rw [hattrs, List.nil_append, hpos]
          exact attributes_add 0 c.pos (1 + byteLength (nameAt (c.drop 1).rest)) ws
        have hspace : preservesSpace r.attributes = w.tag.preserveSpace := by
          rw [he, preservesSpace_map_offset]
          rfl
        simpa [Tag.place, hspace, hfirst, WrittenTag.tag, w] using he

theorem readEndTag_sound {start : Nat} {name : Chars} {c next : Cursor}
    (h : readEndTag start name c = .ok next) :
    ∃ text, IsEndTag name text ∧ c.Advances text next := by
  unfold readEndTag at h
  split at h
  · rename_i rest hrest
    dsimp only at h
    split at h
    · rename_i hname
      have hr : c.rest = ('<' :: '/' :: name) ++ rest.drop name.length := by
        rw [hrest, ← hname]
        simp [List.prefix_iff_eq_append.mp (nameAt_isPrefix rest)]
      obtain ⟨gap, hgap, h2⟩ := advances_skipBlanks (c.drop (2 + name.length))
      split at h
      · rename_i t ht
        cases h
        have h1 := Cursor.advances_drop hr
        have hl : ('<' :: '/' :: name).length = 2 + name.length := by
          simp only [List.length_cons]
          omega
        rw [hl] at h1
        have h3 := Cursor.advances_drop (a := ['>']) ht
        exact ⟨_, ⟨gap, hgap, rfl⟩, by simpa using h1.trans (h2.trans h3)⟩
      · simp at h
    · simp at h
  · simp at h

theorem place_selfClosing (t : Tag) (pos stop : Nat) (content : Option Span) :
    (t.place pos stop content).selfClosing = t.selfClosing := rfl

/-- An element is read as a valid part, if its content is. -/
theorem readElement_sound {content : Cursor → Except Defect (List Node × Cursor)} {depth : Nat}
    {c next : Cursor} {n : Node} (ho : ['<'] <+: c.rest)
    (hcontent : ∀ c nodes last, content c = .ok (nodes, last) →
      ∃ parts, ValidList (depth + 1) parts ∧ nodes = placeList c.pos parts ∧
        c.Advances (spelledList parts) last)
    (h : readElement content depth c = .ok (n, next)) :
    ∃ opening tag children closing,
      Reads c n next (.element opening tag children closing) ∧
        (Part.element opening tag children closing).Valid depth := by
  simp only [readElement, bind_eq_ok, Prod.exists] at h
  obtain ⟨tag, inner, htag, h⟩ := h
  obtain ⟨hdepth, t, opening, hspelled, h1, rfl⟩ := readStartTag_sound ho htag
  split at h
  · rename_i hself
    cases h
    refine ⟨opening, t, [], [], ⟨?_, ?_⟩, hdepth, hspelled, fun _ => ⟨rfl, rfl⟩, ?_, trivial⟩
    · simp_all [Part.place, placeList, spelledList, h1.2, place_selfClosing]
    · simpa [Part.spelled, spelledList] using h1
    · simp_all [place_selfClosing]
  · rename_i hself
    simp only [bind_eq_ok, Prod.exists] at h
    obtain ⟨children, outer, hch, last, hend, h⟩ := h
    cases h
    obtain ⟨parts, hvalid, rfl, h2⟩ := hcontent _ _ _ hch
    obtain ⟨closing, hclosing, h3⟩ := readEndTag_sound hend
    have hopen : t.selfClosing = false := by simpa [place_selfClosing] using hself
    refine ⟨opening, t, parts, closing, ⟨?_, ?_⟩, hdepth, hspelled, ?_, fun _ => hclosing, hvalid⟩
    · simp [Part.place, Tag.place, hopen, h1.2, h2.2, h3.2]
    · simpa [Part.spelled] using h1.trans (h2.trans h3)
    · simp [hopen]

theorem readNode_sound {content : Cursor → Except Defect (List Node × Cursor)} {depth : Nat}
    {c next : Cursor} {n : Node}
    (hcontent : ∀ c nodes last, content c = .ok (nodes, last) →
      ∃ parts, ValidList (depth + 1) parts ∧ nodes = placeList c.pos parts ∧
        c.Advances (spelledList parts) last)
    (h : readNode content depth c = .ok (some (n, next))) :
    ∃ p, Reads c n next p ∧ p.Valid depth ∧ (p.isText = true → Halts (· != '<') next.rest) := by
  have hfits := fits_lead c.rest
  unfold readNode at h
  split at h <;> rename_i hlead <;> rw [hlead] at hfits <;> simp [map_eq_ok] at h
  · obtain ⟨content, hr, hc⟩ := readComment_sound hfits h
    exact ⟨_, hr, ⟨by simp, hc⟩, by simp [Part.isText]⟩
  · obtain ⟨content, hr, hc⟩ := readCData_sound hfits h
    exact ⟨_, hr, ⟨by simp, hc⟩, by simp [Part.isText]⟩
  · obtain ⟨content, hr, hc⟩ := readInstruction_sound hfits h
    exact ⟨_, hr, ⟨by simp, hc⟩, by simp [Part.isText]⟩
  · obtain ⟨opening, tag, children, closing, hr, hv⟩ := readElement_sound hfits hcontent h
    exact ⟨_, hr, hv, by simp [Part.isText]⟩
  · obtain ⟨spelling, value, hr, hne, hmem, hd, hh⟩ := readText_sound hfits h
    exact ⟨_, hr, ⟨hne, hmem, hd⟩, fun _ => hh⟩

theorem headText_eq_false {depth : Nat} {parts : List Part} {rest : Chars}
    (hv : ValidList depth parts) (h : Halts (· != '<') (spelledList parts ++ rest)) :
    Part.headText parts = false := by
  cases parts with
  | nil => rfl
  | cons p ps =>
    cases p with
    | text spelling value =>
      obtain ⟨⟨hne, hmem, -⟩, -⟩ := hv
      cases spelling with
      | nil => exact absurd rfl hne
      | cons d ds =>
        simp only [spelledList, Part.spelled, List.cons_append, halts_cons] at h
        simp_all
    | raw kind content => rfl
    | element opening tag children closing => rfl

/-- The content of an element is a list of valid parts. -/
theorem readContent_sound {fuel depth : Nat} {c last : Cursor} {nodes : List Node}
    (h : readContent fuel depth c = .ok (nodes, last)) :
    ∃ parts, ValidList depth parts ∧ nodes = placeList c.pos parts ∧
      c.Advances (spelledList parts) last := by
  induction fuel generalizing depth c nodes last with
  | zero =>
    simp only [readContent, Except.ok.injEq, Prod.mk.injEq] at h
    obtain ⟨rfl, rfl⟩ := h
    exact ⟨[], trivial, rfl, .refl c⟩
  | succ fuel ih =>
    simp only [readContent, bind_eq_ok] at h
    obtain ⟨found, hfound, h⟩ := h
    split at h
    · cases h
      exact ⟨[], trivial, rfl, .refl c⟩
    · rename_i node next
      simp only [bind_eq_ok, Prod.exists] at h
      obtain ⟨rest, last', hrest, h⟩ := h
      cases h
      obtain ⟨p, hp, hvalid, htext⟩ := readNode_sound (fun _ _ _ h => ih h) hfound
      obtain ⟨ps, hps, rfl, hadv⟩ := ih hrest
      refine ⟨p :: ps, ⟨hvalid, ?_, hps⟩, ?_, hp.2.trans hadv⟩
      · intro ht
        have := htext ht
        rw [hadv.1] at this
        exact headText_eq_false hps this
      · rw [placeList, ← hp.1, hp.2.2]

/-- The node between the cursors, outside the root element or as the root, is the part. -/
structure ReadsTop (rooted : Bool) (c : Cursor) (n : Node) (next : Cursor) (p : Part) : Prop where
  reads : Reads c n next p
  spelled_ne : p.spelled ≠ []
  halts : p.isText = true → Halts (· != '<') next.rest
  valid : ∀ ps, (p.isText = true → Part.headText ps = false) →
    ValidTop (rooted || n.isElement) ps → ValidTop rooted (p :: ps)

theorem readsTop_raw {rooted : Bool} {c next : Cursor} {n : Node} {kind : RawKind}
    {content : Chars} (hr : Reads c n next (.raw kind content)) (hk : kind ≠ .cdata)
    (hd : kind = .doctype → rooted = false) (hc : kind.Closed content) :
    ReadsTop rooted c n next (.raw kind content) where
  reads := hr
  spelled_ne he := by
    have := hc.head
    simp_all [Part.spelled]
  halts := by simp [Part.isText]
  valid ps _ hps := by
    rw [hr.1] at hps
    exact ⟨hk, hd, hc, by simpa [Part.place, Node.isElement] using hps⟩

theorem readRoot_sound {content : Cursor → Except Defect (List Node × Cursor)} {rooted : Bool}
    {c next : Cursor} {n : Node} (ho : ['<'] <+: c.rest)
    (hcontent : ∀ c nodes last, content c = .ok (nodes, last) →
      ∃ parts, ValidList 2 parts ∧ nodes = placeList c.pos parts ∧
        c.Advances (spelledList parts) last)
    (h : (if rooted then .error ⟨c.pos, .secondRoot⟩ else some <$> readElement content 1 c :
      Except Defect (Option (Node × Cursor))) = .ok (some (n, next))) :
    ∃ p, ReadsTop rooted c n next p := by
  split_ifs at h with hrooted
  simp only [map_eq_ok, Option.some.injEq, exists_eq_right] at h
  obtain ⟨opening, tag, children, closing, hr, hv⟩ := readElement_sound ho hcontent h
  refine ⟨_, hr, hv.spelled_ne, by simp [Part.isText], fun ps _ hps => ?_⟩
  rw [hr.1] at hps
  exact ⟨by simpa using hrooted, hv, by simpa [Part.place, Node.isElement] using hps⟩

theorem readTopNode_sound {content : Cursor → Except Defect (List Node × Cursor)} {rooted : Bool}
    {c next : Cursor} {n : Node}
    (hcontent : ∀ c nodes last, content c = .ok (nodes, last) →
      ∃ parts, ValidList 2 parts ∧ nodes = placeList c.pos parts ∧
        c.Advances (spelledList parts) last)
    (h : readTopNode content rooted c = .ok (some (n, next))) :
    ∃ p, ReadsTop rooted c n next p := by
  have hfits := fits_lead c.rest
  unfold readTopNode at h
  dsimp only at h
  split at h <;> rename_i hlead <;> rw [hlead] at hfits
  · simp at h
  · simp only [map_eq_ok, Option.some.injEq, exists_eq_right] at h
    obtain ⟨spelling, hr, hne, hb, hh⟩ := readMargin_sound hfits h
    refine ⟨_, hr, hne, fun _ => hh, fun ps hps hv => ?_⟩
    rw [hr.1] at hv
    exact ⟨hne, hb, rfl, hps rfl, by simpa [Part.place, Node.isElement] using hv⟩
  · simp only [map_eq_ok, Option.some.injEq, exists_eq_right] at h
    obtain ⟨content, hr, hc⟩ := readInstruction_sound hfits h
    exact ⟨_, readsTop_raw hr (by simp) (by simp) hc⟩
  · simp only [map_eq_ok, Option.some.injEq, exists_eq_right] at h
    obtain ⟨content, hr, hc⟩ := readComment_sound hfits h
    exact ⟨_, readsTop_raw hr (by simp) (by simp) hc⟩
  · split_ifs at h with hrooted
    simp only [map_eq_ok, Option.some.injEq, exists_eq_right] at h
    obtain ⟨content, hr, hc⟩ := readDoctype_sound hfits h
    exact ⟨_, readsTop_raw hr (by simp) (by simpa using hrooted) hc⟩
  · simp at h
  · simp at h
  · exact readRoot_sound ((List.prefix_append ['<'] ['!']).trans hfits) hcontent h
  · exact readRoot_sound hfits hcontent h

theorem rest_of_readTopNode_none {content : Cursor → Except Defect (List Node × Cursor)}
    {rooted : Bool} {c : Cursor} (h : readTopNode content rooted c = .ok none) : c.rest = [] := by
  have hfits := fits_lead c.rest
  unfold readTopNode at h
  dsimp only at h
  split at h <;> rename_i hlead
  · rwa [hlead] at hfits
  all_goals
    try split_ifs at h
    all_goals simp [map_eq_ok] at h

theorem headText_eq_false_top {rooted : Bool} {parts : List Part} (hv : ValidTop rooted parts)
    (h : Halts (· != '<') (spelledList parts)) : Part.headText parts = false := by
  cases parts with
  | nil => rfl
  | cons p ps =>
    cases p with
    | text spelling value =>
      obtain ⟨hne, hb, -⟩ := hv
      cases spelling with
      | nil => exact absurd rfl hne
      | cons d ds =>
        simp only [spelledList, Part.spelled, List.cons_append, halts_cons] at h
        have := hb d (by simp)
        simp_all [isXmlBlank]
    | raw kind content => rfl
    | element opening tag children closing => rfl

theorem readTopLevel_sound {fuel : Nat} {rooted : Bool} {c : Cursor} {nodes : List Node}
    (hfuel : c.rest.length ≤ fuel) (h : readTopLevel fuel rooted c = .ok nodes) :
    ∃ parts, ValidTop rooted parts ∧ nodes = placeList c.pos parts ∧
      c.rest = spelledList parts := by
  induction fuel generalizing rooted c nodes with
  | zero =>
    have hrest : c.rest = [] := List.length_eq_zero_iff.mp (Nat.le_zero.mp hfuel)
    simp only [readTopLevel] at h
    split_ifs at h with hrooted
    cases h
    exact ⟨[], hrooted, rfl, hrest⟩
  | succ fuel ih =>
    simp only [readTopLevel, bind_eq_ok] at h
    obtain ⟨found, hfound, h⟩ := h
    split at h
    · split_ifs at h with hrooted
      cases h
      exact ⟨[], hrooted, rfl, rest_of_readTopNode_none hfound⟩
    · rename_i node next
      simp only [bind_eq_ok] at h
      obtain ⟨rest, hrest, h⟩ := h
      cases h
      obtain ⟨p, hp⟩ := readTopNode_sound (fun _ _ _ h => readContent_sound h) hfound
      have hlt : next.rest.length ≤ fuel := by
        have := List.length_pos_iff.mpr hp.spelled_ne
        rw [hp.reads.2.1, List.length_append] at hfuel
        omega
      obtain ⟨ps, hps, rfl, hadv⟩ := ih hlt hrest
      refine ⟨p :: ps, hp.valid ps (fun ht => ?_) hps, ?_, ?_⟩
      · apply headText_eq_false_top hps
        rw [← hadv]
        exact hp.halts ht
      · rw [placeList, ← hp.reads.1, hp.reads.2.2]
      · rw [spelledList, ← hadv, ← hp.reads.2.1]

end Markup

namespace Document

def markText (byteOrderMark : Bool) : Chars := if byteOrderMark then [mark] else []

def ofParts (byteOrderMark : Bool) (parts : List Part) : Document where
  nodes := placeList (Text.byteLength (markText byteOrderMark)) parts
  byteOrderMark
  trailingNewline := (spelledList parts).getLast? == some '\n'

theorem start_eq (source : Chars) :
    (start source).pos = Text.byteLength (markText (source.head? == some mark)) ∧
      source = markText (source.head? == some mark) ++ (start source).rest := by
  cases source with
  | nil => simp [start, markText]
  | cons c cs =>
    by_cases hc : c = mark <;> simp [start, markText, Cursor.drop, hc]

theorem byteOrderMark_of_read {source : Chars} {d : Document} (h : read source = .ok d) :
    d.byteOrderMark = (source.head? == some mark) := by
  simp only [read, bind_eq_ok] at h
  obtain ⟨nodes, -, hd⟩ := h
  cases hd
  rfl

/-- A document that is read consists of valid parts, which the text is made of. -/
theorem read_sound {source : Chars} {d : Document} (h : read source = .ok d) :
    ∃ parts, ValidTop false parts ∧ source = markText d.byteOrderMark ++ spelledList parts ∧
      d = ofParts d.byteOrderMark parts := by
  simp only [read, bind_eq_ok] at h
  obtain ⟨nodes, h, hd⟩ := h
  cases hd
  obtain ⟨parts, hvalid, rfl, hrest⟩ := Markup.readTopLevel_sound le_rfl h
  obtain ⟨hpos, hsource⟩ := start_eq source
  rw [hrest] at hsource
  refine ⟨parts, hvalid, hsource, ?_⟩
  have hlast : source.getLast? = (spelledList parts).getLast? := by
    obtain ⟨hr, -⟩ | ⟨c, cs, hcs, -⟩ := hvalid.head
    · simp at hr
    · conv_lhs => rw [hsource, hcs]
      rw [List.getLast?_append, hcs]
      simp [List.getLast?_cons]
  simp only [ofParts, hlast, hpos]

end Document
end XamlFormat
