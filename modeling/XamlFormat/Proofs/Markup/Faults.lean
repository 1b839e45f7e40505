import XamlFormat.Proofs.Markup.Complete
import XamlFormat.Proofs.Markup.References
import XamlFormat.Proofs.Text.Places

/-! Where the reader finds fault with a text. A reference that stands for no character is reported at
its `&`, the first such one in its value or run of text, and an element nested too deep at its `<`. -/
namespace XamlFormat

namespace Reference

open Markup Text

section Strays

variable {signed : Bool} {s t raw good bad : Chars}

theorem FirstStray.decode_eq_error (h : FirstStray true raw good bad) :
    ∃ text, decode raw = .error ⟨byteLength good, text⟩ := by
  cases hdecode : decode raw with
  | ok v => exact absurd ((obeys_decode raw).accepts.mp ⟨v, hdecode⟩) h.not_all
  | error e =>
    obtain ⟨good', bad', h', hoffset⟩ := decode_error hdecode
    have hgood : good' = good := by
      have hparts := h'.parts.symm.trans h.parts
      rw [h'.unique h] at hparts
      exact List.append_cancel_right hparts
    exact ⟨e.text, by rw [← hgood, ← hoffset]⟩

theorem byteLength_flattenValue (s : Chars) : byteLength (flattenValue s) = byteLength s := by
  induction s with
  | nil => rfl
  | cons c s ih =>
    rw [flattenValue, List.map_cons, byteLength_cons, byteLength_cons, ← flattenValue, ih]
    split_ifs with hc
    · obtain rfl | rfl | rfl := hc <;> rfl
    · rfl

theorem eq_of_flattenValue_eq (h : flattenValue s = t) (ht : ' ' ∉ t) : s = t := by
  subst h
  have hsame : ∀ c ∈ s, (if c = '\t' ∨ c = '\n' ∨ c = '\r' then ' ' else c) = c := by
    intro c hc
    refine if_neg fun hblank => ht (List.mem_map.mpr ⟨c, hc, if_pos hblank⟩)
  exact ((List.map_congr_left hsame).trans (List.map_id s)).symm

theorem flattenValue_of_notMem (h : ∀ c ∈ ['\t', '\n', '\r'], c ∉ s) : flattenValue s = s := by
  have hsame : ∀ c ∈ s, (if c = '\t' ∨ c = '\n' ∨ c = '\r' then ' ' else c) = c := by
    intro c hc
    refine if_neg fun hblank => h c (by simpa using hblank) hc
  exact (List.map_congr_left hsame).trans (List.map_id s)

theorem flattenValue_append (s t : Chars) :
    flattenValue (s ++ t) = flattenValue s ++ flattenValue t :=
  List.map_append

theorem flattenValue_cons_of_ne {c : Char} (hc : c ∉ ['\t', '\n', '\r']) (s : Chars) :
    flattenValue (c :: s) = c :: flattenValue s := by
  rw [flattenValue, List.map_cons, if_neg (by simpa using hc), ← flattenValue]

/-- A flattened text that is cut at a character other than the space comes from a text that is. -/
theorem flattenValue_eq_append_cons {c : Char} (hc : c ≠ ' ')
    (h : flattenValue s = good ++ c :: bad) :
    ∃ good' bad', s = good' ++ c :: bad' ∧ flattenValue good' = good ∧ flattenValue bad' = bad := by
  obtain ⟨good', rest, rfl, hgood, hrest⟩ := List.map_eq_append_iff.mp h
  obtain ⟨d, bad', rfl, hd, hbad⟩ := List.map_eq_cons_iff.mp hrest
  have hdc : d = c := by
    split_ifs at hd with hblank
    · exact absurd hd.symm hc
    · exact hd
  exact ⟨good', bad', by rw [hdc], hgood, hbad⟩

/-- Flattening makes no reference, and breaks none. -/
theorem startsReference_flattenValue :
    StartsReference signed (flattenValue s) ↔ StartsReference signed s := by
  constructor
  · rintro ⟨name, c, rest, hn, h⟩
    obtain ⟨name', rest', rfl, hname, -⟩ := flattenValue_eq_append_cons (by decide) h
    have hspace : ' ' ∉ name := hn.notMem (by decide) (by decide)
    exact ⟨name, c, rest', hn, by rw [eq_of_flattenValue_eq hname hspace]⟩
  · rintro ⟨name, c, rest, hn, rfl⟩
    refine ⟨name, c, flattenValue rest, hn, ?_⟩
    rw [flattenValue_append, flattenValue_cons_of_ne (by decide), flattenValue_of_notMem]
    intro d hd
    fin_cases hd <;> exact hn.notMem (by decide) (by decide)

theorem length_flattenValue (s : Chars) : (flattenValue s).length = s.length :=
  List.length_map _

theorem FirstStray.of_flattenValue (h : FirstStray signed (flattenValue raw) good bad) :
    ∃ good' bad', FirstStray signed raw good' bad' ∧ byteLength good' = byteLength good := by
  obtain ⟨good', bad', rfl, rfl, rfl⟩ := flattenValue_eq_append_cons (by decide) h.parts
  refine ⟨good', bad', ⟨rfl, fun hs => h.stray (startsReference_flattenValue.mpr hs), ?_⟩,
    (byteLength_flattenValue good').symm⟩
  intro other ⟨front, hs⟩ hlen
  refine startsReference_flattenValue.mp (h.first (flattenValue other) ⟨flattenValue front, ?_⟩ ?_)
  · rw [← hs, flattenValue_append, flattenValue_cons_of_ne (by decide)]
  · rwa [length_flattenValue, length_flattenValue]

theorem FirstStray.flattenValue (h : FirstStray signed raw good bad) :
    FirstStray signed (flattenValue raw) (flattenValue good) (flattenValue bad) where
  parts := by rw [h.parts, flattenValue_append, flattenValue_cons_of_ne (by decide)]
  stray hs := h.stray (startsReference_flattenValue.mp hs)
  first other hs hlen := by
    obtain ⟨front, hs⟩ := hs
    obtain ⟨front', other', hraw, -, rfl⟩ := flattenValue_eq_append_cons (by decide) hs.symm
    rw [length_flattenValue, length_flattenValue] at hlen
    exact startsReference_flattenValue.mpr (h.first other' ⟨front', hraw.symm⟩ hlen)

end Strays

end Reference

open Markup Text Reference

section Culprits

/-- What stands in front of the value of an attribute, from the gap on. -/
def LeadsToValue (quote : Char) (text : Chars) : Prop :=
  ∃ gap name before after, gap ≠ [] ∧ Blanks gap ∧ IsName name ∧ Blanks before ∧ Blanks after ∧
    (quote = '"' ∨ quote = '\'') ∧ text = gap ++ (name ++ (before ++ '=' :: (after ++ [quote])))

/-- A start tag up to the value of one of its attributes. -/
def CutAtValue (quote : Char) (text : Chars) : Prop :=
  ∃ (name : Chars) (ws : List WrittenAttribute) (lead : Chars),
    IsName name ∧ (∀ w ∈ ws, w.Valid) ∧ (ws.map WrittenAttribute.name).Nodup ∧
      LeadsToValue quote lead ∧ text = '<' :: (name ++ (ws.flatMap WrittenAttribute.text ++ lead))

def Part.endsText (parts : List Part) : Bool := parts.getLast?.any isText

def Prolog : List Part → Prop
  | [] => True
  | .text spelling value :: ps =>
    spelling ≠ [] ∧ Blanks spelling ∧ value = spelling ∧ Part.headText ps = false ∧ Prolog ps
  | .raw kind content :: ps => kind ≠ .cdata ∧ kind.Closed content ∧ Prolog ps
  | .element _ _ _ _ :: _ => False

/-- Complete nodes that may stand in front of an element of nesting `depth`. -/
def Siblings (depth : Nat) (parts : List Part) : Prop :=
  if depth = 1 then Prolog parts else ValidList depth parts

/-- A text that starts among nodes of nesting `depth` and leaves `n` elements open. The innermost of
them, or the place where the text starts if there is none, has `parts` as its complete nodes. -/
inductive Opens : Nat → Nat → List Part → Chars → Prop
  | level {depth : Nat} {parts : List Part} (hparts : Siblings depth parts) :
    Opens depth 0 parts (spelledList parts)
  | inside {depth n : Nat} {outer parts : List Part} {tag : Tag} {opening inner : Chars}
    (houter : Siblings depth outer) (hdepth : depth ≤ maxDepth) (htag : tag.Spelled opening)
    (hopen : tag.selfClosing = false) (hinner : Opens (depth + 1) n parts inner) :
    Opens depth (n + 1) parts (spelledList outer ++ (opening ++ inner))

/-- A run of characters in which references are replaced: the whole of a text, which may stand inside
of elements only, or of a value. It follows `parts` and `lead`, and `rest` follows it. -/
inductive DecodedRun (depth : Nat) (parts : List Part) : Chars → Chars → Chars → Prop
  | text {run rest : Chars} (hdepth : 1 < depth) (hparts : Part.endsText parts = false)
    (hne : run ≠ []) (hrun : '<' ∉ run) (hrest : Halts (· != '<') rest) :
    DecodedRun depth parts [] run rest
  | value {quote : Char} {lead run rest : Chars} (hdepth : depth ≤ maxDepth)
    (hlead : CutAtValue quote lead) (hrun : quote ∉ run) :
    DecodedRun depth parts lead run (quote :: rest)

/-- What a defect is about, behind `lead`: an element nested too deep, or the first `&` of a run that
starts no reference. -/
inductive Culprit (depth : Nat) (parts : List Part) : Chars → Chars → Defect.Cause → Prop
  | tooDeep {rest : Chars} (hdepth : maxDepth < depth) (hrest : lead rest = .element) :
    Culprit depth parts [] rest (.tooDeep maxDepth)
  | stray {lead run rest good bad text : Chars} (hrun : DecodedRun depth parts lead run rest)
    (hstray : FirstStray true run good bad) :
    Culprit depth parts (lead ++ good) ('&' :: (bad ++ rest)) (.invalidReference text)

/-- The defect is reported at what it is about, somewhere behind the cursor. -/
def Blames (depth : Nat) (c : Cursor) (d : Defect) : Prop :=
  ∃ n parts before lead rest, c.rest = before ++ (lead ++ rest) ∧ Opens depth n parts before ∧
    Culprit (depth + n) parts lead rest d.cause ∧ d.offset = c.pos + byteLength (before ++ lead)

/-- The causes that are reported at what they are about. -/
def Defect.Cause.Pinned : Defect.Cause → Prop
  | .invalidReference _ => True
  | .tooDeep _ => True
  | _ => False

end Culprits

section Steps

variable {depth : Nat} {c next : Cursor} {d : Defect}

theorem Siblings.headText {parts : List Part} {rest : Chars} (h : Siblings depth parts)
    (hrest : Halts (· != '<') (spelledList parts ++ rest)) : Part.headText parts = false := by
  unfold Siblings at h
  split_ifs at h
  · cases parts with
    | nil => rfl
    | cons p ps =>
      cases p with
      | text spelling value =>
        obtain ⟨hne, hb, -⟩ := h
        obtain ⟨a, as, rfl⟩ := List.exists_cons_of_ne_nil hne
        have ha := hb a (by simp)
        simp only [spelledList, Part.spelled, List.cons_append, halts_cons] at hrest
        simp_all [isXmlBlank]
      | raw kind content => rfl
      | element => rfl
  · exact headText_eq_false h hrest

theorem Culprit.cons {parts : List Part} {lead rest : Chars} {cause : Defect.Cause} {p : Part}
    (h : Culprit depth parts lead rest cause)
    (hp : p.isText = true → Halts (· != '<') (spelledList parts ++ (lead ++ rest))) :
    Culprit depth (p :: parts) lead rest cause := by
  cases h with
  | tooDeep hdepth hrest => exact .tooDeep hdepth hrest
  | @stray lead run rest good bad text hrun hstray =>
    refine .stray ?_ hstray
    cases hrun with
    | value hdepth hlead hrun => exact .value hdepth hlead hrun
    | text hdepth hparts hne hrun hrest =>
      refine .text hdepth ?_ hne hrun hrest
      cases parts with
      | cons q qs => simpa [Part.endsText] using hparts
      | nil =>
        -- a text in front of the run would have gone on with it
        obtain ⟨a, as, rfl⟩ := List.exists_cons_of_ne_nil hne
        have hsplit : good ++ '&' :: (bad ++ rest) = a :: (as ++ rest) := by
          simpa using (congrArg (· ++ rest) hstray.parts).symm
        by_contra htext
        have hhalts := hp (by simpa [Part.endsText] using htext)
        simp only [spelledList, List.nil_append, hsplit, halts_cons, bne_eq_false_iff_eq] at hhalts
        simp [hhalts] at hrun

/-- One step: a complete node in front changes nothing about the defect. -/
theorem Blames.cons {p : Part}
    (hcons : ∀ ps, (p.isText = true → Part.headText ps = false) → Siblings depth ps →
      Siblings depth (p :: ps))
    (hadv : c.Advances p.spelled next) (hp : p.isText = true → Halts (· != '<') next.rest)
    (h : Blames depth next d) : Blames depth c d := by
  obtain ⟨n, parts, before, lead, rest, hrest, hopens, hculprit, hoffset⟩ := h
  have hoffset' : d.offset = c.pos + byteLength (p.spelled ++ before ++ lead) := by
    rw [hoffset, hadv.2, List.append_assoc, byteLength_append p.spelled, Nat.add_assoc]
  rw [hrest] at hp
  have hrest' : c.rest = p.spelled ++ before ++ (lead ++ rest) := by
    rw [hadv.1, hrest, List.append_assoc]
  cases hopens with
  | level hparts =>
    refine ⟨0, p :: parts, _, lead, rest, hrest', .level (hcons _ (fun ht => ?_) hparts),
      hculprit.cons hp, hoffset'⟩
    exact hparts.headText (hp ht)
  | @inside _ n outer _ tag opening inner houter hdepth htag hopen hinner =>
    have hspelled : p.spelled ++ (spelledList outer ++ (opening ++ inner)) =
        spelledList (p :: outer) ++ (opening ++ inner) := by
      rw [spelledList, List.append_assoc]
    refine ⟨n + 1, parts, _, lead, rest, hrest', ?_, hculprit, hoffset'⟩
    rw [hspelled]
    refine .inside (hcons _ (fun ht => ?_) houter) hdepth htag hopen hinner
    have := hp ht
    rw [List.append_assoc] at this
    exact houter.headText this

/-- One step: an open start tag in front makes one more open element. -/
theorem Blames.inside {tag : Tag} {opening : Chars} (hsiblings : Siblings depth [])
    (hdepth : depth ≤ maxDepth) (htag : tag.Spelled opening) (hopen : tag.selfClosing = false)
    (hadv : c.Advances opening next) (h : Blames (depth + 1) next d) : Blames depth c d := by
  obtain ⟨n, parts, before, lead, rest, hrest, hopens, hculprit, hoffset⟩ := h
  refine ⟨n + 1, parts, _, lead, rest, ?_, .inside hsiblings hdepth htag hopen hopens, ?_, ?_⟩
  · rw [hadv.1, hrest]
    simp [spelledList]
  · rwa [Nat.add_right_comm, Nat.add_assoc] at hculprit
  · rw [hoffset, hadv.2]
    simp [spelledList, Nat.add_assoc]

end Steps

section Errors

variable {depth : Nat} {c c₀ next : Cursor} {d : Defect} {q : Char}

/-- The defect is the first stray of a value that `lead` stands in front of. -/
def StrayBehind (c : Cursor) (quote : Char) (lead : Chars) (d : Defect) : Prop :=
  ∃ run rest good bad text, quote ∉ run ∧ c.rest = lead ++ (run ++ quote :: rest) ∧
    FirstStray true run good bad ∧
    d = ⟨c.pos + byteLength (lead ++ good), .invalidReference text⟩

theorem StrayBehind.advance {text lead : Chars} (hadv : c.Advances text next)
    (h : StrayBehind next q lead d) : StrayBehind c q (text ++ lead) d := by
  obtain ⟨run, rest, good, bad, reference, hrun, hrest, hstray, rfl⟩ := h
  refine ⟨run, rest, good, bad, reference, hrun, ?_, hstray, ?_⟩
  · rw [hadv.1, hrest, List.append_assoc]
  · rw [hadv.2, List.append_assoc, byteLength_append text, Nat.add_assoc]

theorem decodeAt_error {base : Nat} {s : Chars} (h : decodeAt base s = .error d) :
    ∃ e, decode s = .error e ∧ d = ⟨base + e.offset, .invalidReference e.text⟩ := by
  unfold decodeAt at h
  split at h
  · cases h
  · rename_i e he
    cases h
    exact ⟨e, he, rfl⟩

theorem readValue_error {offset : Nat} {name : Chars} (hd : d.cause.Pinned)
    (h : readValue offset name c = .error d) :
    ∃ q, (q = '"' ∨ q = '\'') ∧ StrayBehind c q [q] d := by
  unfold readValue at h
  split at h
  · rename_i q rest hrest
    split_ifs at h with hq
    · split at h
      · cases h
        exact hd.elim
      · rename_i raw after hcut
        rw [bind_eq_error] at h
        obtain h | ⟨v, -, h⟩ := h
        · obtain ⟨e, he, rfl⟩ := decodeAt_error h
          obtain ⟨good', bad', hstray', hoffset⟩ := decode_error he
          obtain ⟨good, bad, hstray, hgood⟩ := hstray'.of_flattenValue
          refine ⟨q, hq, raw, after, good, bad, e.text, notMem_of_cutAt hcut, ?_, hstray, ?_⟩
          · rw [hrest, eq_of_cutAt hcut]
            rfl
          · have hadv := Cursor.advances_drop (a := [q]) hrest
            rw [hoffset, ← hgood, byteLength_append, ← Nat.add_assoc]
            exact congrArg (Defect.mk · _) (congrArg (· + byteLength good) hadv.2)
        · cases h
    · cases h
      exact hd.elim
  · cases h
    exact hd.elim

/-- A fault in an attribute that follows a gap is in its value. -/
theorem readAttribute_error {index : Nat} {gap : Chars} (hd : d.cause.Pinned) (hb : Blanks gap)
    (hne : gap ≠ []) (hg : c₀.Advances gap c) (h : readAttribute index c = .error d) :
    ∃ q lead, LeadsToValue q lead ∧ StrayBehind c₀ q lead d := by
  unfold readAttribute at h
  split at h
  · cases h
    exact hd.elim
  · rename_i hname
    obtain ⟨hn, rest, hrest, -⟩ := nameAt_spec rfl hname
    have h1 := Cursor.advances_drop hrest
    obtain ⟨before, hbefore, h2⟩ := advances_skipBlanks (c.drop (nameAt c.rest).length)
    dsimp only at h
    split at h
    · rename_i after heq
      rw [bind_eq_error] at h
      obtain h | ⟨v, -, h⟩ := h
      · have h3 := Cursor.advances_drop (a := ['=']) heq
        obtain ⟨after, hafter, h4⟩ :=
          advances_skipBlanks ((c.drop (nameAt c.rest).length).skipBlanks.drop 1)
        obtain ⟨q, hq, hstray⟩ := readValue_error hd h
        refine ⟨q, _, ⟨gap, nameAt c.rest, before, after, hne, hb, hn, hbefore, hafter, hq, rfl⟩, ?_⟩
        have := hstray.advance (hg.trans (h1.trans (h2.trans (h3.trans h4))))
        simpa using this
      · cases h
    · cases h
      exact hd.elim

/-- One more attribute is read, and either it has the fault or what follows it. -/
theorem readAttributes_error_cases {start fuel firstLine : Nat} {name : Chars}
    {seen : List Attribute} {broken : Bool} (hd : d.cause.Pinned)
    (h : readAttributes start name (fuel + 1) seen firstLine broken c = .error d) :
    c.rest.takeWhile isXmlBlank ≠ [] ∧
      (readAttribute seen.length c.skipBlanks = .error d ∨
        ∃ a next firstLine' broken', readAttribute seen.length c.skipBlanks = .ok (a, next) ∧
          (∀ b ∈ seen, b.name ≠ a.name) ∧
          readAttributes start name fuel (seen ++ [a]) firstLine' broken' next = .error d) := by
  simp only [readAttributes] at h
  split at h
  · cases h
  · cases h
  · cases h
    exact hd.elim
  · split at h
    · cases h
      exact hd.elim
    · rename_i hempty
      refine ⟨by simpa using hempty, ?_⟩
      rw [bind_eq_error] at h
      obtain h | ⟨⟨a, next⟩, ha, h⟩ := h
      · exact .inl h
      · split at h
        · cases h
          exact hd.elim
        · rename_i hdup
          exact .inr ⟨a, next, _, _, ha, by simpa using hdup, h⟩

theorem readAttributes_error {start fuel firstLine : Nat} {name : Chars} {seen : List Attribute}
    {broken : Bool} (hseen : (seen.map Attribute.name).Nodup) (hd : d.cause.Pinned)
    (h : readAttributes start name fuel seen firstLine broken c = .error d) :
    ∃ q ws lead, (∀ w ∈ ws, WrittenAttribute.Valid w) ∧
      ((seen ++ WrittenAttribute.attributes seen.length c.pos ws).map Attribute.name).Nodup ∧
      LeadsToValue q lead ∧ StrayBehind c q (ws.flatMap WrittenAttribute.text ++ lead) d := by
  induction fuel generalizing seen firstLine broken c with
  | zero =>
    cases h
    exact hd.elim
  | succ fuel ih =>
    have hblank : Blanks (c.rest.takeWhile isXmlBlank) := fun _ hc => List.mem_takeWhile_imp hc
    have hadv : c.Advances (c.rest.takeWhile isXmlBlank) c.skipBlanks :=
      c.advances_dropWhile isXmlBlank
    obtain ⟨hne, ha | ⟨a, next, firstLine', broken', ha, hnew, h⟩⟩ := readAttributes_error_cases hd h
    · obtain ⟨q, lead, hlead, hstray⟩ := readAttribute_error hd hblank hne hadv ha
      exact ⟨q, [], lead, by simp, by simpa [WrittenAttribute.attributes] using hseen, hlead, hstray⟩
    · obtain ⟨w, -, hw, hadv', rfl⟩ := readAttribute_sound hblank hne hadv ha
      have hseen' : ((seen ++ [w.toAttribute seen.length c.pos]).map Attribute.name).Nodup := by
        rw [List.map_append]
        refine List.Nodup.append hseen (by simp) ?_
        simpa [List.disjoint_left, List.mem_map] using hnew
      obtain ⟨q, ws, lead, hws, hnodup, hlead, hstray⟩ := ih hseen' h
      refine ⟨q, w :: ws, lead, List.forall_mem_cons.mpr ⟨hw, hws⟩, ?_, hlead, ?_⟩
      · rw [hadv'.2] at hnodup
        simpa [WrittenAttribute.attributes] using hnodup
      · simpa using hstray.advance hadv'

theorem readStartTag_error (hd : d.cause.Pinned) (ho : ['<'] <+: c.rest)
    (h : readStartTag depth c = .error d) :
    maxDepth < depth ∧ d = ⟨c.pos, .tooDeep maxDepth⟩ ∨
      depth ≤ maxDepth ∧ ∃ q lead, CutAtValue q lead ∧ StrayBehind c q lead d := by
  unfold readStartTag at h
  split_ifs at h with hdepth
  · cases h
    exact .inl ⟨hdepth, rfl⟩
  · refine .inr ⟨Nat.le_of_not_lt hdepth, ?_⟩
    obtain ⟨after, hafter⟩ := ho
    have h1 := Cursor.advances_drop hafter.symm
    dsimp only at h
    split at h
    · cases h
      exact hd.elim
    · rename_i hname
      obtain ⟨hn, rest, hrest, -⟩ := nameAt_spec rfl hname
      have h2 := Cursor.advances_drop hrest
      rw [bind_eq_error] at h
      obtain h | ⟨r, -, h⟩ := h
      · obtain ⟨q, ws, lead, hws, hnodup, hlead, hstray⟩ := readAttributes_error (by simp) hd h
        rw [List.nil_append, name_attributes] at hnodup
        refine ⟨q, _, ⟨_, ws, lead, hn, hws, hnodup.of_map, hlead, rfl⟩, ?_⟩
        simpa using hstray.advance (h1.trans h2)
      · cases h

theorem blames_value {lead : Chars} (hsiblings : Siblings depth []) (hdepth : depth ≤ maxDepth)
    (hlead : CutAtValue q lead) (h : StrayBehind c q lead d) : Blames depth c d := by
  obtain ⟨run, rest, good, bad, text, hrun, hrest, hstray, rfl⟩ := h
  refine ⟨0, [], [], lead ++ good, '&' :: (bad ++ q :: rest), ?_, .level hsiblings,
    .stray (.value hdepth hlead hrun) hstray, rfl⟩
  rw [hrest, hstray.parts]
  simp

theorem siblings_nil (depth : Nat) : Siblings depth [] := by
  unfold Siblings
  split_ifs <;> exact trivial

theorem readEndTag_error {start : Nat} {name : Chars} (h : readEndTag start name c = .error d) :
    ¬ d.cause.Pinned := by
  unfold readEndTag at h
  dsimp only at h
  split at h
  · split at h
    · split at h
      · cases h
      · cases h
        exact id
    · cases h
      exact id
  · cases h
    exact id

theorem readElement_error {content : Cursor → Except Defect (List Node × Cursor)}
    (hd : d.cause.Pinned) (ho : ['<'] <+: c.rest)
    (hlead : maxDepth < depth → lead c.rest = .element)
    (hcontent : ∀ c, content c = .error d → Blames (depth + 1) c d)
    (h : readElement content depth c = .error d) : Blames depth c d := by
  simp only [readElement] at h
  rw [bind_eq_error] at h
  obtain h | ⟨⟨tag, inner⟩, htag, h⟩ := h
  · obtain ⟨hdepth, rfl⟩ | ⟨hdepth, q, text, htext, hstray⟩ := readStartTag_error hd ho h
    · exact ⟨0, [], [], [], c.rest, rfl, .level (siblings_nil depth),
        .tooDeep hdepth (hlead hdepth), rfl⟩
    · exact blames_value (siblings_nil depth) hdepth htext hstray
  · obtain ⟨hdepth, t, opening, hspelled, hadv, rfl⟩ := readStartTag_sound ho htag
    split at h
    · cases h
    · rename_i hself
      rw [bind_eq_error] at h
      obtain h | ⟨⟨children, outer⟩, -, h⟩ := h
      · exact .inside (siblings_nil depth) hdepth hspelled (by simpa [place_selfClosing] using hself)
          hadv (hcontent _ h)
      · rw [bind_eq_error] at h
        obtain h | ⟨last, -, h⟩ := h
        · exact absurd hd (readEndTag_error h)
        · cases h

/-- Comments, sections and instructions fail for want of their end only. -/
theorem readDelimited_error {α : Type} {opening closing : Chars} {kind : RawKind}
    {finish : Chars × Cursor → Except Defect α} (hfinish : ∀ r, ∃ v, finish r = .ok v)
    (h : (readDelimited opening closing kind c >>= finish) = .error d) : ¬ d.cause.Pinned := by
  rw [bind_eq_error] at h
  obtain h | ⟨r, -, h⟩ := h
  · unfold readDelimited at h
    dsimp only at h
    split at h
    · cases h
      exact id
    · cases h
  · obtain ⟨v, hv⟩ := hfinish r
    rw [hv] at h
    cases h

theorem readText_error (hdepth : 1 < depth) (ho : Lead.text.Fits c.rest)
    (h : readText c = .error d) : Blames depth c d := by
  rw [readText, bind_eq_error] at h
  obtain h | ⟨v, -, h⟩ := h
  · obtain ⟨e, he, rfl⟩ := decodeAt_error h
    obtain ⟨good, bad, hstray, hoffset⟩ := decode_error he
    have hadv := c.advances_dropWhile (· != '<')
    have hne : c.rest.takeWhile (· != '<') ≠ [] := by
      obtain ⟨a, s, hs, ha⟩ := ho
      simp [hs, ha]
    have hrun : '<' ∉ c.rest.takeWhile (· != '<') := fun hm => by
      simpa using List.mem_takeWhile_imp hm
    refine ⟨0, [], [], good, '&' :: (bad ++ (c.dropWhile (· != '<')).rest), ?_,
      .level (siblings_nil depth), ?_, by rw [hoffset]; rfl⟩
    · rw [hadv.1, hstray.parts]
      simp
    · change Culprit depth [] ([] ++ good) _ _
      exact .stray (.text hdepth rfl hne hrun (halts_dropWhile _ _)) hstray
  · cases h

theorem readNode_error {content : Cursor → Except Defect (List Node × Cursor)}
    (hdepth : 1 < depth) (hd : d.cause.Pinned)
    (hcontent : ∀ c, content c = .error d → Blames (depth + 1) c d)
    (h : readNode content depth c = .error d) : Blames depth c d := by
  have hfits := fits_lead c.rest
  unfold readNode at h
  split at h <;> rename_i hlead <;> rw [hlead] at hfits <;> try rw [map_eq_error] at h
  · cases h
  · cases h
  · exact absurd hd (readDelimited_error (fun _ => ⟨_, rfl⟩) h)
  · exact absurd hd (readDelimited_error (fun _ => ⟨_, rfl⟩) h)
  · exact absurd hd (readDelimited_error (fun _ => ⟨_, rfl⟩) h)
  · cases h
    exact hd.elim
  · cases h
    exact hd.elim
  · exact readElement_error hd hfits (fun _ => hlead) hcontent h
  · exact readText_error hdepth hfits h

/-- A fault in the content of an element is at what it is about. -/
theorem readContent_error {fuel : Nat} (hdepth : 1 < depth) (hd : d.cause.Pinned)
    (h : readContent fuel depth c = .error d) : Blames depth c d := by
  induction fuel generalizing depth c with
  | zero => cases h
  | succ fuel ih =>
    rw [readContent, bind_eq_error] at h
    obtain h | ⟨found, hfound, h⟩ := h
    · exact readNode_error hdepth hd (fun c h => ih (by omega) h) h
    · split at h
      · cases h
      · rename_i node next
        rw [bind_eq_error] at h
        obtain h | ⟨_, -, h⟩ := h
        · obtain ⟨p, hp, hvalid, htext⟩ := readNode_sound (fun _ _ _ h => readContent_sound h) hfound
          refine .cons (fun ps hps hsiblings => ?_) hp.2 htext (ih hdepth h)
          have hne : depth ≠ 1 := by omega
          rw [Siblings, if_neg hne] at hsiblings ⊢
          exact ⟨hvalid, hps, hsiblings⟩
        · cases h

theorem readMargin_error (h : readMargin c = .error d) : ¬ d.cause.Pinned := by
  simp only [readMargin] at h
  split_ifs at h
  cases h
  exact id

theorem readDoctype_error (h : readDoctype c = .error d) : ¬ d.cause.Pinned := by
  unfold readDoctype at h
  split at h
  · cases h
    exact id
  · cases h

/-- Outside of the root element only the root itself can have the fault. -/
theorem readTopNode_error {content : Cursor → Except Defect (List Node × Cursor)} {rooted : Bool}
    (hd : d.cause.Pinned) (hcontent : ∀ c, content c = .error d → Blames 2 c d)
    (h : readTopNode content rooted c = .error d) : rooted = false ∧ Blames 1 c d := by
  have hfits := fits_lead c.rest
  have root (ho : ['<'] <+: c.rest)
      (h : (if rooted then .error ⟨c.pos, .secondRoot⟩ else some <$> readElement content 1 c :
        Except Defect (Option (Node × Cursor))) = .error d) : rooted = false ∧ Blames 1 c d := by
    split_ifs at h with hrooted
    · cases h
      exact hd.elim
    · rw [map_eq_error] at h
      refine ⟨by simpa using hrooted, readElement_error hd ho (fun hlt => ?_) hcontent h⟩
      exact absurd hlt (by decide)
  unfold readTopNode at h
  dsimp only at h
  split at h <;> rename_i hlead <;> rw [hlead] at hfits
  · cases h
  · exact absurd hd (readMargin_error (map_eq_error.mp h))
  · exact absurd hd (readDelimited_error (fun _ => ⟨_, rfl⟩) (map_eq_error.mp h))
  · exact absurd hd (readDelimited_error (fun _ => ⟨_, rfl⟩) (map_eq_error.mp h))
  · split_ifs at h
    · cases h
      exact hd.elim
    · exact absurd hd (readDoctype_error (map_eq_error.mp h))
  · cases h
    exact hd.elim
  · cases h
    exact hd.elim
  · exact root ((List.prefix_append ['<'] ['!']).trans hfits) h
  · exact root hfits h

theorem isElement_of_readElement {content : Cursor → Except Defect (List Node × Cursor)} {n : Node}
    (h : readElement content depth c = .ok (n, next)) : n.isElement = true := by
  simp only [readElement, bind_eq_ok] at h
  obtain ⟨⟨tag, inner⟩, -, h⟩ := h
  split at h
  · cases h
    rfl
  · simp only [bind_eq_ok] at h
    obtain ⟨_, -, _, -, h⟩ := h
    cases h
    rfl

/-- A node that is read in front of the root, other than the root, belongs to the prolog. -/
theorem readTopNode_prolog {content : Cursor → Except Defect (List Node × Cursor)} {n : Node}
    (hn : n.isElement = false) (h : readTopNode content false c = .ok (some (n, next))) :
    ∃ p, c.Advances p.spelled next ∧ (p.isText = true → Halts (· != '<') next.rest) ∧
      ∀ ps, (p.isText = true → Part.headText ps = false) → Prolog ps → Prolog (p :: ps) := by
  have raw {kind : RawKind} {content : Chars} (hr : Reads c n next (.raw kind content))
      (hk : kind ≠ .cdata) (hc : kind.Closed content) :
      ∃ p, c.Advances p.spelled next ∧ (p.isText = true → Halts (· != '<') next.rest) ∧
        ∀ ps, (p.isText = true → Part.headText ps = false) → Prolog ps → Prolog (p :: ps) :=
    ⟨_, hr.2, by simp [Part.isText], fun ps _ hps => ⟨hk, hc, hps⟩⟩
  have hfits := fits_lead c.rest
  simp only [readTopNode, Bool.false_eq_true, if_false] at h
  split at h <;> rename_i hlead <;> rw [hlead] at hfits
  all_goals try simp only [map_eq_ok, Option.some.injEq, exists_eq_right] at h
  · cases h
  · obtain ⟨spelling, hr, hne, hb, hh⟩ := readMargin_sound hfits h
    exact ⟨_, hr.2, fun _ => hh, fun ps hps hprolog => ⟨hne, hb, rfl, hps rfl, hprolog⟩⟩
  · obtain ⟨content, hr, hc⟩ := readInstruction_sound hfits h
    exact raw hr (by simp) hc
  · obtain ⟨content, hr, hc⟩ := readComment_sound hfits h
    exact raw hr (by simp) hc
  · obtain ⟨content, hr, hc⟩ := readDoctype_sound hfits h
    exact raw hr (by simp) hc
  · cases h
  · cases h
  · simp [isElement_of_readElement h] at hn
  · simp [isElement_of_readElement h] at hn

theorem readTopLevel_error {fuel : Nat} {rooted : Bool} (hd : d.cause.Pinned)
    (h : readTopLevel fuel rooted c = .error d) : rooted = false ∧ Blames 1 c d := by
  induction fuel generalizing rooted c with
  | zero =>
    rw [readTopLevel] at h
    split_ifs at h
    cases h
    exact hd.elim
  | succ fuel ih =>
    rw [readTopLevel, bind_eq_error] at h
    obtain h | ⟨found, hfound, h⟩ := h
    · exact readTopNode_error hd (fun c h => readContent_error (by decide) hd h) h
    · split at h
      · split_ifs at h
        · cases h
        · cases h
          exact hd.elim
      · rename_i node next
        rw [bind_eq_error] at h
        obtain h | ⟨_, -, h⟩ := h
        · obtain ⟨hrooted, hblames⟩ := ih h
          obtain ⟨rfl, hnode⟩ := Bool.or_eq_false_iff.mp hrooted
          obtain ⟨p, hadv, htext, hprolog⟩ := readTopNode_prolog hnode hfound
          exact ⟨rfl, hblames.cons hprolog hadv htext⟩
        · cases h

end Errors

end XamlFormat
