import XamlFormat.Proofs.Markup.Faults

/-! What the reader reports. Behind complete nodes and open start tags, a reference that stands for
no character and an element nested too deep make the reader fail, and it reports their places. -/
namespace XamlFormat

open Markup Text Reference

section Failures

variable {depth : Nat} {d : Defect} {tail : Chars}

/-- Reading nodes of nesting `depth` from the cursor on fails with the defect. -/
def ReadFails (depth : Nat) (c : Cursor) (d : Defect) : Prop :=
  ∀ fuel, c.rest.length ≤ fuel →
    if depth = 1 then readTopLevel fuel false c = .error d else readContent fuel depth c = .error d

/-- One step: a complete node in front changes nothing about a failure. -/
theorem ReadFails.cons {p : Part} {ps : List Part} {pos : Nat} (hsiblings : Siblings depth (p :: ps))
    (hp : p.isText = true → Halts (· != '<') tail)
    (h : ReadFails depth ⟨pos + byteLength p.spelled, tail⟩ d) :
    ReadFails depth ⟨pos, p.spelled ++ tail⟩ d := by
  intro fuel hfuel
  simp only [List.length_append] at hfuel
  unfold Siblings at hsiblings
  split_ifs at hsiblings ⊢ with hdepth
  · subst hdepth
    -- one node of the prolog, and the failure behind it
    have step (hne : p.spelled ≠ []) (he : (p.place pos).isElement = false)
        (hnode : ∀ content, readTopNode content false ⟨pos, p.spelled ++ tail⟩ =
          .ok (some (p.place pos, behind pos p tail))) :
        readTopLevel fuel false ⟨pos, p.spelled ++ tail⟩ = .error d := by
      have := List.length_pos_iff.mpr hne
      obtain ⟨fuel, rfl⟩ : ∃ n, fuel = n + 1 := ⟨fuel - 1, by omega⟩
      have hnext : readTopLevel fuel false (behind pos p tail) = .error d :=
        h fuel (by dsimp only; omega)
      rw [readTopLevel, hnode]
      simp only [bind, Except.bind, he, Bool.or_false, hnext]
    cases p with
    | text spelling value =>
      obtain ⟨hne, hb, rfl, -⟩ := hsiblings
      exact step hne rfl fun content => readTopNode_margin hne hb (hp rfl) content false pos
    | raw kind content =>
      obtain ⟨hk, hc, -⟩ := hsiblings
      refine step (fun he => ?_) rfl fun content => readTopNode_raw hk (fun _ => rfl) hc _ pos tail
      simpa [show kind.markup content = [] from he] using hc.head
    | element => exact hsiblings.elim
  · obtain ⟨hvalid, -, -⟩ := hsiblings
    have := List.length_pos_iff.mpr hvalid.spelled_ne
    obtain ⟨fuel, rfl⟩ : ∃ n, fuel = n + 1 := ⟨fuel - 1, by omega⟩
    have hnext : readContent fuel depth (behind pos p tail) = .error d := by
      have := h fuel (by dsimp only; omega)
      rwa [if_neg hdepth] at this
    rw [readContent, readNode_complete hvalid ?_ pos tail hp]
    · simp only [bind, Except.bind, hnext]
    · rintro opening tag children closing rfl pos rest hr
      refine readContent_complete hvalid.2.2.2.2 hr ?_ pos
      obtain ⟨cs, rfl⟩ := List.head?_eq_some_iff.mp hvalid.2.1.head
      simp only [Part.spelled, List.length_append, List.length_cons] at hfuel
      omega

theorem Siblings.of_cons {p : Part} {ps : List Part} (h : Siblings depth (p :: ps)) :
    Siblings depth ps ∧ (p.isText = true → Part.headText ps = false) ∧
      (p.isText = false → p.spelled.head? = some '<') := by
  unfold Siblings at h ⊢
  split_ifs at h ⊢
  · cases p with
    | text => exact ⟨h.2.2.2.2, fun _ => h.2.2.2.1, by simp [Part.isText]⟩
    | raw => exact ⟨h.2.2, by simp [Part.isText], fun _ => h.2.1.head⟩
    | element => exact h.elim
  · refine ⟨h.2.2, h.2.1, fun hp => ?_⟩
    cases p with
    | text => simp [Part.isText] at hp
    | raw => exact h.1.2.head
    | element opening tag children closing =>
      rw [Part.spelled, List.head?_append, h.1.2.1.head]
      rfl

theorem Siblings.halts {parts : List Part} (h : Siblings depth parts)
    (hhead : Part.headText parts = false) (htail : parts = [] → Halts (· != '<') tail) :
    Halts (· != '<') (spelledList parts ++ tail) := by
  cases parts with
  | nil => exact htail rfl
  | cons p ps =>
    rw [spelledList, List.append_assoc]
    exact halts_append_open (h.of_cons.2.2 (by simpa [Part.headText] using hhead)) _

theorem ReadFails.behind_siblings {parts : List Part} {pos : Nat} (hparts : Siblings depth parts)
    (hend : Part.endsText parts = true → Halts (· != '<') tail)
    (h : ReadFails depth ⟨pos + byteLength (spelledList parts), tail⟩ d) :
    ReadFails depth ⟨pos, spelledList parts ++ tail⟩ d := by
  induction parts generalizing pos with
  | nil => simpa [spelledList] using h
  | cons p ps ih =>
    obtain ⟨hps, hhead, -⟩ := hparts.of_cons
    rw [spelledList, List.append_assoc]
    refine .cons hparts (fun hp => hps.halts (hhead hp) ?_) (ih hps (fun he => hend ?_) ?_)
    · rintro rfl
      exact hend (by simpa [Part.endsText] using hp)
    · cases ps with
      | nil => simp [Part.endsText] at he
      | cons q qs => simpa [Part.endsText] using he
    · rwa [spelledList, byteLength_append, ← Nat.add_assoc] at h

theorem ReadFails.of_element {pos : Nat} (hlead : lead tail = .element)
    (h : ∀ fuel, tail.length ≤ fuel + 1 →
      readElement (readContent fuel (depth + 1)) depth ⟨pos, tail⟩ = .error d) :
    ReadFails depth ⟨pos, tail⟩ d := by
  intro fuel hfuel
  have hpos : 0 < tail.length := List.length_pos_iff.mpr (by rintro rfl; cases hlead)
  obtain ⟨fuel, rfl⟩ : ∃ n, fuel = n + 1 := ⟨fuel - 1, by dsimp only at hfuel; omega⟩
  have helement := h fuel hfuel
  split_ifs with hdepth
  · subst hdepth
    simp only [readTopLevel, readTopNode, hlead, Bool.false_eq_true, if_false, helement]
    rfl
  · simp only [readContent, readNode, hlead, helement]
    rfl

/-- One step: an open start tag in front changes nothing about a failure inside. -/
theorem ReadFails.inside {tag : Tag} {opening : Chars} {pos : Nat} (hdepth : 0 < depth)
    (hmax : depth ≤ maxDepth) (htag : tag.Spelled opening) (hopen : tag.selfClosing = false)
    (h : ReadFails (depth + 1) ⟨pos + byteLength opening, tail⟩ d) :
    ReadFails depth ⟨pos, opening ++ tail⟩ d := by
  refine .of_element (lead_spelled htag tail) fun fuel hfuel => ?_
  obtain ⟨cs, rfl⟩ := List.head?_eq_some_iff.mp htag.head
  have hcontent : readContent fuel (depth + 1) ⟨pos + byteLength ('<' :: cs), tail⟩ = .error d := by
    have hne : depth + 1 ≠ 1 := by omega
    have := h fuel (by simp only [List.length_append, List.length_cons] at hfuel ⊢; omega)
    rwa [if_neg hne] at this
  simp only [readElement, readStartTag_complete htag hmax, bind, Except.bind, place_selfClosing,
    hopen, Bool.false_eq_true, if_false, hcontent]

/-- Behind a text that leaves elements open, the reader fails as it does at its end. -/
theorem Opens.fails {n pos : Nat} {parts : List Part} {before : Chars}
    (h : Opens depth n parts before) (hdepth : 0 < depth)
    (hend : Part.endsText parts = true → Halts (· != '<') tail)
    (hfails : ReadFails (depth + n) ⟨pos + byteLength before, tail⟩ d) :
    ReadFails depth ⟨pos, before ++ tail⟩ d := by
  induction h generalizing pos with
  | level hparts => exact .behind_siblings hparts hend hfails
  | @inside depth n outer parts tag opening inner houter hmax htag hopen _ ih =>
    rw [List.append_assoc, List.append_assoc]
    refine .behind_siblings houter (fun _ => halts_append_open htag.head _)
      (.inside hdepth hmax htag hopen (ih (Nat.succ_pos depth) hend ?_))
    rw [Nat.add_right_comm, Nat.add_assoc, Nat.add_assoc, Nat.add_assoc, ← byteLength_append,
      ← byteLength_append]
    exact hfails

end Failures

section Culprits

variable {depth : Nat} {tail run rest good bad : Chars} {q : Char}

theorem fails_tooDeep (hdepth : maxDepth < depth) (hlead : lead tail = .element) (pos : Nat) :
    ReadFails depth ⟨pos, tail⟩ ⟨pos, .tooDeep maxDepth⟩ := by
  refine .of_element hlead fun fuel _ => ?_
  rw [readElement, readStartTag, if_pos hdepth]
  rfl

theorem decodeAt_stray (h : FirstStray true run good bad) :
    ∃ text, ∀ base, decodeAt base run = .error ⟨base + byteLength good, .invalidReference text⟩ := by
  obtain ⟨text, hdecode⟩ := h.decode_eq_error
  exact ⟨text, fun base => by rw [decodeAt, hdecode]⟩

theorem readValue_stray (hq : q = '"' ∨ q = '\'') (hrun : q ∉ run)
    (h : FirstStray true run good bad) :
    ∃ text, ∀ offset name pos rest, readValue offset name ⟨pos, q :: (run ++ q :: rest)⟩ =
      .error ⟨pos + byteLength (q :: good), .invalidReference text⟩ := by
  obtain ⟨text, hdecode⟩ := decodeAt_stray h.flattenValue
  refine ⟨text, fun offset name pos rest => ?_⟩
  simp only [readValue, if_pos hq, cutAt_append rest hrun, hdecode, byteLength_flattenValue]
  simp [bind, Except.bind, Cursor.drop, Nat.add_assoc]

variable {front : Chars} {cause : Defect.Cause}

/-- Behind complete attributes, the reader fails as it does at the value that they lead to. -/
theorem readAttributes_stray {ws : List WrittenAttribute} (hws : ∀ w ∈ ws, w.Valid)
    (hfront : LeadsToValue q front)
    (hvalue : ∀ offset name pos, readValue offset name ⟨pos, q :: tail⟩ =
      .error ⟨pos + byteLength (q :: good), cause⟩)
    (start : Nat) (name : Chars) {fuel : Nat} (hfuel : ws.length < fuel) {seen : List Attribute}
    (hnodup : (seen.map Attribute.name ++
      (ws.map WrittenAttribute.name).map QName.ofChars).Nodup)
    (firstLine : Nat) (broken : Bool) (pos : Nat) :
    readAttributes start name fuel seen firstLine broken
        ⟨pos, ws.flatMap WrittenAttribute.text ++ (front ++ tail)⟩ =
      .error ⟨pos + byteLength (ws.flatMap WrittenAttribute.text ++ (front ++ good)), cause⟩ := by
  induction ws generalizing fuel seen firstLine broken pos with
  | nil =>
    obtain ⟨fuel, rfl⟩ := Nat.exists_eq_add_one_of_ne_zero (Nat.ne_zero_of_lt hfuel)
    obtain ⟨gap, key, before, after, hne, hgap, hkey, hbefore, hafter, hq, rfl⟩ := hfront
    simp only [List.flatMap_nil, List.nil_append, List.append_assoc, List.cons_append]
    rw [readAttributes_eq hgap hne hkey, readAttribute_eq hkey hbefore hafter hq, hvalue]
    simp [bind, Except.bind, Nat.add_assoc]
  | cons w ws ih =>
    obtain ⟨fuel, rfl⟩ := Nat.exists_eq_add_one_of_ne_zero (Nat.ne_zero_of_lt hfuel)
    have hnew : QName.ofChars w.name ∉ seen.map Attribute.name := by
      intro hm
      exact (List.disjoint_of_nodup_append hnodup) hm (by simp)
    rw [List.flatMap_cons, List.append_assoc,
      readAttributes_cons (hws w (by simp)) start name fuel _ _ _ _ hnew,
      ih (fun w hw => hws w (by simp [hw])) (by simpa using hfuel)
        (by simpa [WrittenAttribute.toAttribute] using hnodup)]
    simp [Nat.add_assoc]

theorem readStartTag_stray (hdepth : depth ≤ maxDepth) (hfront : CutAtValue q front)
    (hvalue : ∀ offset name pos, readValue offset name ⟨pos, q :: tail⟩ =
      .error ⟨pos + byteLength (q :: good), cause⟩) (pos : Nat) :
    readStartTag depth ⟨pos, front ++ tail⟩ = .error ⟨pos + byteLength (front ++ good), cause⟩ := by
  obtain ⟨name, ws, lead, hname, hws, hdistinct, hlead, rfl⟩ := hfront
  have hhalts : Halts isNameChar (ws.flatMap WrittenAttribute.text ++ (lead ++ tail)) := by
    obtain ⟨gap, key, before, after, hne, hgap, -, -, -, -, rfl⟩ := hlead
    refine halts_name_attributes hws ?_
    rw [List.append_assoc]
    exact hgap.halts_name hne _
  have hfuel : ws.length < (ws.flatMap WrittenAttribute.text ++ (lead ++ tail)).length := by
    obtain ⟨gap, key, before, after, -, -, -, -, -, -, rfl⟩ := hlead
    have := length_le_flatMap ws
    simp only [List.length_append, List.length_cons]
    omega
  have hnodup : (([] : List Attribute).map Attribute.name ++
      (ws.map WrittenAttribute.name).map QName.ofChars).Nodup :=
    hdistinct.map fun a b hab => by simpa using congrArg QName.written hab
  have htext : '<' :: (name ++ (ws.flatMap WrittenAttribute.text ++ lead)) ++ tail =
      '<' :: (name ++ (ws.flatMap WrittenAttribute.text ++ (lead ++ tail))) := by
    simp
  rw [htext, readStartTag_eq hdepth hname hhalts,
    readAttributes_stray hws hlead hvalue pos name hfuel hnodup]
  simp [bind, Except.bind, Nat.add_assoc]

theorem CutAtValue.lead_eq (h : CutAtValue q front) (tail : Chars) :
    lead (front ++ tail) = .element := by
  obtain ⟨name, ws, lead, hname, -, -, -, rfl⟩ := h
  obtain ⟨c, cs, rfl, hc⟩ := hname.exists_cons
  exact lead_element hc _

/-- A run of characters with a stray makes the reader fail there. -/
theorem DecodedRun.fails {parts : List Part} (hrun : DecodedRun depth parts front run rest)
    (hstray : FirstStray true run good bad) (pos : Nat) :
    ∃ text, ReadFails depth ⟨pos, front ++ (run ++ rest)⟩
      ⟨pos + byteLength (front ++ good), .invalidReference text⟩ := by
  cases hrun with
  | text hdepth _ hne hrun hrest =>
    obtain ⟨text, hdecode⟩ := decodeAt_stray hstray
    refine ⟨text, fun fuel hfuel => ?_⟩
    obtain ⟨a, as, rfl⟩ := List.exists_cons_of_ne_nil hne
    obtain ⟨fuel, rfl⟩ : ∃ n, fuel = n + 1 := ⟨fuel - 1, by simp at hfuel; omega⟩
    have hone : depth ≠ 1 := by omega
    have hlead : lead (a :: as ++ rest) = .text := lead_text (fun ha => hrun (by simp [ha])) _
    rw [if_neg hone]
    simp only [List.nil_append, readContent, readNode, hlead, readText,
      takeWhile_append_halts (ne_of_notMem hrun) hrest, hdecode]
    rfl
  | @value q _ _ rest hdepth hfront hrun =>
    have hq : q = '"' ∨ q = '\'' := by
      obtain ⟨-, -, -, -, -, -, ⟨-, -, -, -, -, -, -, -, -, hq, -⟩, -⟩ := hfront
      exact hq
    obtain ⟨text, hvalue⟩ := readValue_stray hq hrun hstray
    refine ⟨text, .of_element (hfront.lead_eq _) fun fuel _ => ?_⟩
    rw [readElement, readStartTag_stray hdepth hfront fun offset name pos =>
      hvalue offset name pos rest]
    rfl

theorem head_of_lead (h : lead tail = .element) : tail.head? = some '<' := by
  have hfits := fits_lead tail
  rw [h] at hfits
  obtain ⟨cs, rfl⟩ := hfits
  rfl

theorem DecodedRun.head {parts : List Part} (h : DecodedRun depth parts front run rest)
    (hvalue : depth = 1 ∨ Part.endsText parts = true) :
    (front ++ (run ++ rest)).head? = some '<' := by
  cases h with
  | text hdepth hparts =>
    obtain rfl | hend := hvalue
    · exact absurd hdepth (by decide)
    · simp [hend] at hparts
  | value _ hfront => exact head_of_lead (hfront.lead_eq _)

end Culprits

section Places

theorem Opens.le_maxDepth {depth n : Nat} {parts : List Part} {text : Chars}
    (h : Opens depth n parts text) (hdepth : depth ≤ maxDepth + 1) : depth + n ≤ maxDepth + 1 := by
  induction h with
  | level => exact hdepth
  | inside _ hle _ _ _ ih =>
    have := ih (Nat.succ_le_succ hle)
    omega

/-- The start of a document, up to a place where `n` elements are open. -/
def LeavesOpen (n : Nat) (parts : List Part) (before : Chars) : Prop :=
  ∃ byteOrderMark inner, before = Document.markText byteOrderMark ++ inner ∧ Opens 1 n parts inner

/-- A document that is not over starts with markup or with a blank. -/
theorem Opens.head {n : Nat} {parts : List Part} {before tail : Chars} (h : Opens 1 n parts before)
    (htail : n = 0 → tail.head? = some '<') :
    ∃ c cs, before ++ tail = c :: cs ∧ (c = '<' ∨ isXmlBlank c = true) := by
  have hprolog {outer : List Part} {s : Chars} (houter : Siblings 1 outer) (hs : s.head? = some '<') :
      ∃ c cs, spelledList outer ++ s = c :: cs ∧ (c = '<' ∨ isXmlBlank c = true) := by
    rw [Siblings, if_pos rfl] at houter
    cases outer with
    | nil =>
      obtain ⟨cs, rfl⟩ := List.head?_eq_some_iff.mp hs
      exact ⟨'<', cs, rfl, .inl rfl⟩
    | cons p ps =>
      cases p with
      | text spelling value =>
        obtain ⟨hne, hb, -⟩ := houter
        obtain ⟨c, cs, rfl⟩ := List.exists_cons_of_ne_nil hne
        exact ⟨c, _, rfl, .inr (hb c (by simp))⟩
      | raw kind content =>
        obtain ⟨cs, hcs⟩ := List.head?_eq_some_iff.mp houter.2.1.head
        exact ⟨'<', cs ++ spelledList ps ++ s, by simp [spelledList, Part.spelled, hcs], .inl rfl⟩
      | element => exact houter.elim
  cases h with
  | level hparts => exact hprolog hparts (htail rfl)
  | inside houter _ htag _ _ =>
    rw [List.append_assoc]
    refine hprolog houter ?_
    rw [List.append_assoc, List.head?_append, htag.head]
    rfl

theorem Defect.Cause.invalidReference_of_message {cause : Defect.Cause} {text : String}
    (h : cause.message = "invalid reference " ++ text) : ∃ text, cause = .invalidReference text := by
  have hhead : cause.message.toList.head? = some 'i' := by simp [h]
  cases cause with
  | invalidReference text => exact ⟨text, rfl⟩
  | _ =>
    -- `delta`, as the equations of a table of texts are too slow to derive
    delta Defect.Cause.message at hhead
    simp at hhead

namespace Document

variable {source tail : Chars} {d : Defect} {n : Nat} {parts : List Part} {before : Chars}

theorem read_of_fails (hopen : LeavesOpen n parts before)
    (htail : n + 1 = 1 ∨ Part.endsText parts = true → tail.head? = some '<')
    (h : ReadFails (n + 1) ⟨byteLength before, tail⟩ d) :
    read (before ++ tail) = .error d := by
  obtain ⟨byteOrderMark, inner, rfl, hopens⟩ := hopen
  obtain ⟨c, cs, hcs, hc⟩ := hopens.head fun hn => htail (.inl (by omega))
  have hmark : (inner ++ tail).head? ≠ some mark := by
    rw [hcs]
    rintro hm
    cases hm
    obtain hc | hc := hc <;> exact absurd hc (by decide)
  rw [byteLength_append, Nat.add_comm n] at h
  have hend (hparts : Part.endsText parts = true) : Halts (· != '<') tail := by
    simpa using halts_append_open (htail (.inr hparts)) []
  have hfails := hopens.fails Nat.one_pos hend h (inner ++ tail).length le_rfl
  rw [if_pos rfl] at hfails
  simp only [read, List.append_assoc, start_markText hmark, hfails]
  rfl

theorem read_blames (h : read source = .error d) (hd : d.cause.Pinned) :
    ∃ n parts before lead rest, source = before ++ (lead ++ rest) ∧ LeavesOpen n parts before ∧
      Culprit (n + 1) parts lead rest d.cause ∧ d.offset = byteLength (before ++ lead) := by
  simp only [read] at h
  rw [bind_eq_error] at h
  obtain h | ⟨_, -, h⟩ := h
  · obtain ⟨-, n, parts, before, lead, rest, hrest, hopens, hculprit, hoffset⟩ :=
      readTopLevel_error hd h
    obtain ⟨hpos, hsource⟩ := start_eq source
    refine ⟨n, parts, _, lead, rest, ?_, ⟨source.head? == some mark, before, rfl, hopens⟩, ?_, ?_⟩
    · rw [List.append_assoc, ← hrest, ← hsource]
    · rwa [Nat.add_comm] at hculprit
    · rw [hoffset, hpos, ← byteLength_append, List.append_assoc]
  · cases h

def Refused (source : Chars) (fault : Fault) : Prop :=
  ∃ d, read source = .error d ∧ Fault.ofDefect source d = fault

/-- A stray reference is reported where it is, and nothing else is reported as one. -/
theorem refused_reference_iff {place : Place} :
    (∃ text, Refused source (.malformed ("invalid reference " ++ text) place)) ↔
      ∃ n parts before lead run rest good bad, source = before ++ (lead ++ (run ++ rest)) ∧
        LeavesOpen n parts before ∧ DecodedRun (n + 1) parts lead run rest ∧
        FirstStray true run good bad ∧ place = Place.behind (before ++ (lead ++ good)) := by
  constructor
  · rintro ⟨text, d, hread, hfault⟩
    obtain ⟨reference, hcause⟩ : ∃ text, d.cause = .invalidReference text := by
      unfold Fault.ofDefect at hfault
      split at hfault
      · cases hfault
      · exact Defect.Cause.invalidReference_of_message (Fault.malformed.inj hfault).1
    obtain ⟨n, parts, before, front, rest, hsource, hopen, hculprit, hoffset⟩ :=
      read_blames hread (by rw [hcause]; trivial)
    rw [Fault.ofDefect, hcause] at hfault
    rw [hcause] at hculprit
    cases hculprit with
    | @stray lead run rest good bad _ hrun hstray =>
      have hsplit : source = before ++ (lead ++ good) ++ '&' :: (bad ++ rest) := by
        rw [hsource, List.append_assoc before]
      refine ⟨n, parts, before, lead, run, rest, good, bad, ?_, hopen, hrun, hstray, ?_⟩
      · rw [hsplit, hstray.parts]
        simp
      · rw [← (Fault.malformed.inj hfault).2, hoffset, hsplit, Place.ofOffset_append]
  · rintro ⟨n, parts, before, front, run, rest, good, bad, rfl, hopen, hrun, hstray, rfl⟩
    obtain ⟨text, hfails⟩ := hrun.fails hstray (byteLength before)
    have hsplit : before ++ (front ++ (run ++ rest)) =
        before ++ (front ++ good) ++ '&' :: (bad ++ rest) := by
      rw [hstray.parts]
      simp
    refine ⟨String.ofList text, _, read_of_fails hopen hrun.head hfails, ?_⟩
    rw [← byteLength_append, hsplit]
    exact congrArg (Fault.malformed _) (Place.ofOffset_append _ _)

/-- An element nested too deep is reported where it starts. -/
theorem refused_tooDeep_iff {limit : Nat} {place : Place} :
    Refused source (.tooDeep limit place) ↔
      limit = 256 ∧ ∃ parts before rest, source = before ++ '<' :: rest ∧
        LeavesOpen 256 parts before ∧ lead ('<' :: rest) = .element ∧ place = Place.behind before := by
  constructor
  · rintro ⟨d, hread, hfault⟩
    obtain ⟨hcause, rfl⟩ : d.cause = .tooDeep limit ∧ Place.ofOffset source d.offset = place := by
      unfold Fault.ofDefect at hfault
      split at hfault
      · cases hfault
        exact ⟨‹_›, rfl⟩
      · cases hfault
    obtain ⟨n, parts, before, front, rest, hsource, hopen, hculprit, hoffset⟩ :=
      read_blames hread (by rw [hcause]; trivial)
    rw [hcause] at hculprit
    cases hculprit with
    | tooDeep hdepth hrest =>
      obtain rfl : n = 256 := by
        obtain ⟨_, _, -, hopens⟩ := hopen
        have := hopens.le_maxDepth (by decide)
        simp only [maxDepth] at this hdepth
        omega
      obtain ⟨tail, rfl⟩ := List.head?_eq_some_iff.mp (head_of_lead hrest)
      refine ⟨rfl, parts, before, tail, hsource, hopen, hrest, ?_⟩
      rw [hoffset, hsource, List.append_nil]
      exact Place.ofOffset_append before ('<' :: tail)
  · rintro ⟨rfl, parts, before, rest, rfl, hopen, hlead, rfl⟩
    have hfails : ReadFails (256 + 1) ⟨byteLength before, '<' :: rest⟩
        ⟨byteLength before, .tooDeep maxDepth⟩ := fails_tooDeep (by decide) hlead _
    refine ⟨_, read_of_fails hopen (fun _ => rfl) hfails, ?_⟩
    exact congrArg (Fault.tooDeep 256) (Place.ofOffset_append before ('<' :: rest))

/-- The reports on a document that cannot be read say where the fault is. One is about a reference
exactly if some `&` starts none (a code may have a sign), and has the place of the first such `&` of
its value or run of text. One is about the nesting exactly if an element starts inside of as many
elements as may be open, and has the place of its `<`. Lines and columns are counted from the text in
front, and tell all positions apart. -/
theorem read_error_places (source : Chars) :
    (∀ place, (∃ text, Refused source (.malformed ("invalid reference " ++ text) place)) ↔
      ∃ n parts before lead run rest good bad, source = before ++ (lead ++ (run ++ rest)) ∧
        LeavesOpen n parts before ∧ DecodedRun (n + 1) parts lead run rest ∧
        FirstStray true run good bad ∧ place = Place.behind (before ++ (lead ++ good))) ∧
    (∀ limit place, Refused source (.tooDeep limit place) ↔
      limit = 256 ∧ ∃ parts before rest, source = before ++ '<' :: rest ∧
        LeavesOpen 256 parts before ∧ lead ('<' :: rest) = .element ∧ place = Place.behind before) ∧
    (∀ a b, source = a ++ b → Place.ofOffset source (byteLength a) = Place.behind a) ∧
    ∀ a b, a <+: source → b <+: source → Place.behind a = Place.behind b → a = b := by
  refine ⟨fun _ => refused_reference_iff, fun _ _ => refused_tooDeep_iff, ?_,
    fun _ _ => Place.eq_of_behind_eq⟩
  rintro a b rfl
  exact Place.ofOffset_append a b

/-- As many start tags as may be open, and one more. -/
def nestedTooDeep : Chars := (List.replicate 257 "<a>".toList).flatten

theorem read_nestedTooDeep : read nestedTooDeep = .error ⟨768, .tooDeep 256⟩ := by
  have h : (match read nestedTooDeep with
      | .error d => decide (d = ⟨768, .tooDeep 256⟩)
      | .ok _ => false) = true := by
    decide +kernel
  split at h
  · rename_i d hd
    rw [hd, of_decide_eq_true h]
  · cases h

/-- Neither an earlier reference nor a tab nor a character of several bytes moves the place. -/
theorem read_error_places_sample :
    (∃ n parts before lead run rest good bad,
      "<A>\n<B c='&lt;\t\u00e9&#0;'/></A>".toList = before ++ (lead ++ (run ++ rest)) ∧
        LeavesOpen n parts before ∧ DecodedRun (n + 1) parts lead run rest ∧
        FirstStray true run good bad ∧ ⟨2, 13⟩ = Place.behind (before ++ (lead ++ good))) ∧
    ∃ parts before rest, nestedTooDeep = before ++ '<' :: rest ∧ LeavesOpen 256 parts before ∧
      lead ('<' :: rest) = .element ∧ ⟨1, 769⟩ = Place.behind before := by
  have href : Refused "<A>\n<B c='&lt;\t\u00e9&#0;'/></A>".toList
      (.malformed ("invalid reference " ++ "&#0;") ⟨2, 13⟩) := by
    refine ⟨⟨17, .invalidReference "&#0;".toList⟩, by cbv, ?_⟩
    decide +kernel
  have hdeep : Refused nestedTooDeep (.tooDeep 256 ⟨1, 769⟩) :=
    ⟨_, read_nestedTooDeep, by decide +kernel⟩
  exact ⟨((read_error_places _).1 _).mp ⟨_, href⟩, (((read_error_places _).2.1 _ _).mp hdeep).2⟩

end Document
end Places
end XamlFormat
