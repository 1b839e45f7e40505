import XamlFormat.Proofs.Layout.StartTag

/-! Packing attributes onto lines. What may stand on a line is said of the finished line: few enough
attributes, a row that is not too wide, and one group. Filling each line as far as it goes gives lines
of this kind, and no other division into such lines has fewer of them. -/
namespace XamlFormat
namespace StartTag

section Rules

structure Together (s : Settings) (line : List Rendered) : Prop where
  count : line.length ≤ s.maxAttributesPerLine
  width : 0 < s.maxAttributeCharactersPerLine →
    (inRow line).length ≤ s.maxAttributeCharactersPerLine
  groups : s.groupsOnSeparateLines = true →
    ∀ a ∈ line, ∀ b ∈ line, a.item.group = b.item.group

/-- A division of the attributes into lines. A single attribute may be as wide as it is. -/
structure Division (s : Settings) (rendered : List Rendered) (lines : List (List Rendered)) :
    Prop where
  flatten : lines.flatten = rendered
  nonempty : ∀ line ∈ lines, line ≠ []
  admitted : ∀ line ∈ lines, line.length = 1 ∨ Together s line

end Rules

section Width

theorem lineWidth_cons_cons (r q : Rendered) (rest : List Rendered) :
    lineWidth (r :: q :: rest) = r.text.length + 1 + lineWidth (q :: rest) := rfl

/-- Each attribute counts with one space, of which the last is not there. -/
theorem lineWidth_eq_sum (line : List Rendered) :
    lineWidth line = (line.map fun r => r.text.length + 1).sum - 1 := by
  induction line with
  | nil => rfl
  | cons r rest ih =>
    cases rest with
    | nil => simp [lineWidth]
    | cons q rest =>
      rw [lineWidth_cons_cons, ih]
      simp only [List.map_cons, List.sum_cons]
      omega

theorem length_inRow (line : List Rendered) : (inRow line).length = lineWidth line := by
  induction line with
  | nil => rfl
  | cons r rest ih =>
    cases rest with
    | nil => rfl
    | cons q rest =>
      rw [lineWidth_cons_cons, ← ih]
      simp [inRow, Text.joinWith, Nat.add_assoc, Nat.add_comm]

theorem lineWidth_append_singleton {line : List Rendered} (hne : line ≠ []) (r : Rendered) :
    lineWidth (line ++ [r]) = lineWidth line + 1 + r.text.length := by
  obtain ⟨q, qs, rfl⟩ := List.exists_cons_of_ne_nil hne
  simp only [lineWidth_eq_sum, List.map_append, List.map_cons, List.map_nil, List.sum_append,
    List.sum_cons, List.sum_nil]
  omega

theorem lineWidth_le_of_sublist {line longer : List Rendered} (h : line.Sublist longer) :
    lineWidth line ≤ lineWidth longer := by
  rw [lineWidth_eq_sum, lineWidth_eq_sum]
  exact Nat.sub_le_sub_right ((h.map _).sum_le_sum fun _ _ => Nat.zero_le _) 1

end Width

section Lines

variable {s : Settings} {line : List Rendered} {r : Rendered}

theorem Together.sublist {longer : List Rendered} (h : Together s longer)
    (hsub : line.Sublist longer) : Together s line where
  count := hsub.length_le.trans h.count
  width hpos := by
    rw [length_inRow]
    exact (lineWidth_le_of_sublist hsub).trans (length_inRow longer ▸ h.width hpos)
  groups hs a ha b hb := h.groups hs a (hsub.subset ha) b (hsub.subset hb)

/-- A line that is not full takes the next attribute, and a full one does not. Only the last
attribute of the line is compared with the next one; the others are of its group. -/
theorem isFull_eq_false_iff (hne : line ≠ []) (hline : line.length = 1 ∨ Together s line) :
    isFull s line r = false ↔ Together s (line ++ [r]) := by
  obtain ⟨front, last, rfl⟩ := List.eq_nil_or_concat' line |>.resolve_left hne
  have hcount : (front ++ [last] ++ [r]).length = (front ++ [last]).length + 1 := by simp
  have hwidth : (inRow (front ++ [last] ++ [r])).length =
      lineWidth (front ++ [last]) + 1 + r.text.length := by
    rw [length_inRow, lineWidth_append_singleton hne]
  have hgroup : s.groupsOnSeparateLines = true →
      ∀ a ∈ front ++ [last], a.item.group = last.item.group := by
    intro hs a ha
    obtain hone | htogether := hline
    · obtain rfl : front = [] := by simpa using hone
      rw [List.mem_singleton.mp ha]
    · exact htogether.groups hs a ha last (by simp)
  have hfull : isFull s (front ++ [last]) r = false ↔
      (front ++ [last]).length < s.maxAttributesPerLine ∧
        (0 < s.maxAttributeCharactersPerLine →
          lineWidth (front ++ [last]) + 1 + r.text.length ≤ s.maxAttributeCharactersPerLine) ∧
        (s.groupsOnSeparateLines = true → last.item.group = r.item.group) := by
    simp [isFull, and_assoc]
  rw [hfull]
  constructor
  · rintro ⟨hlt, hbudget, hsame⟩
    refine ⟨hcount.trans_le hlt, fun hpos => hwidth.trans_le (hbudget hpos), ?_⟩
    have hall : s.groupsOnSeparateLines = true →
        ∀ a ∈ front ++ [last] ++ [r], a.item.group = last.item.group := by
      intro hs a ha
      obtain ha | ha := List.mem_append.mp ha
      · exact hgroup hs a ha
      · rw [List.mem_singleton.mp ha, hsame hs]
    exact fun hs a ha b hb => (hall hs a ha).trans (hall hs b hb).symm
  · rintro ⟨hle, hbudget, hsame⟩
    exact ⟨hcount.symm.trans_le hle, fun hpos => hwidth ▸ hbudget hpos,
      fun hs => hsame hs last (by simp) r (by simp)⟩

/-- One step: what may stand on a line still may after the next attribute has joined it. -/
theorem admitted_append (hline : line = [] ∨ line.length = 1 ∨ Together s line)
    (hfull : isFull s line r = false) : (line ++ [r]).length = 1 ∨ Together s (line ++ [r]) := by
  by_cases hne : line = []
  · exact .inl (by simp [hne])
  · exact .inr ((isFull_eq_false_iff hne (hline.resolve_left hne)).mp hfull)

theorem admitted_of_mem_packFrom {rendered l : List Rendered}
    (hline : line = [] ∨ line.length = 1 ∨ Together s line) (h : l ∈ packFrom s line rendered) :
    l.length = 1 ∨ Together s l := by
  induction rendered generalizing line with
  | nil =>
    have hne := ne_nil_of_mem_packFrom h
    rw [packFrom] at h
    split_ifs at h with hempty
    · simp at h
    · obtain rfl := List.mem_singleton.mp h
      exact hline.resolve_left hne
  | cons r rest ih =>
    have hne := ne_nil_of_mem_packFrom h
    rw [packFrom] at h
    split_ifs at h with hfull
    · obtain rfl | h := List.mem_cons.mp h
      · exact hline.resolve_left hne
      · exact ih (.inr (.inl rfl)) h
    · exact ih (.inr (admitted_append hline (by simpa using hfull))) h

end Lines

section Fewest

variable {s : Settings}

/-- A division of these attributes behind others has no fewer lines. Where a line is full, any division
has a line end inside of that line or behind it, so that what remains to be packed starts within its
second line at the latest. -/
theorem length_packFrom_le {front line rendered : List Rendered} {lines : List (List Rendered)}
    (hflat : lines.flatten = front ++ (line ++ rendered))
    (hlines : ∀ l ∈ lines, l.length = 1 ∨ Together s l)
    (hline : line = [] ∨ line.length = 1 ∨ Together s line) :
    (packFrom s line rendered).length ≤ lines.length := by
  induction rendered generalizing front line lines with
  | nil =>
    cases line with
    | nil => simp [packFrom]
    | cons r rest =>
      have hne : lines ≠ [] := by
        rintro rfl
        simp at hflat
      exact List.length_pos_iff.mpr hne
  | cons r rest ih =>
    rw [packFrom]
    split_ifs with hfull
    · have hne : line ≠ [] := by
        rintro rfl
        simp [isFull] at hfull
      obtain ⟨first, u, v, back, rfl, hbefore, rfl⟩ :=
        exists_of_flatten_eq (hflat.trans (List.append_assoc _ _ _).symm)
      have hfirst : first ≠ [] := by
        -- otherwise the line of `r` would hold the whole full line in front of it
        rintro rfl
        obtain rfl : front ++ line = u := by simpa using hbefore
        obtain hone | htogether := hlines (front ++ line ++ r :: v) (by simp)
        · have := List.length_pos_iff.mpr hne
          simp only [List.length_append, List.length_cons] at hone
          omega
        · have hsub : (line ++ [r]).Sublist (front ++ line ++ r :: v) := by
            have hsplit : front ++ line ++ r :: v = front ++ (line ++ [r] ++ v) := by simp
            rw [hsplit]
            exact (List.sublist_append_left _ v).trans (List.sublist_append_right front _)
          have := (isFull_eq_false_iff hne (hline.resolve_left hne)).mpr (htogether.sublist hsub)
          simp [this] at hfull
      have hback : ((u ++ r :: v) :: back).flatten = u ++ ([r] ++ (v ++ back.flatten)) := by simp
      have hrest := ih hback (fun l hl => hlines l (List.mem_append_right _ hl)) (.inr (.inl rfl))
      have := List.length_pos_iff.mpr hfirst
      simp only [List.length_cons, List.length_append] at hrest ⊢
      omega
    · exact ih (by simpa using hflat) hlines
        (.inr (admitted_append hline (by simpa using hfull)))

/-- The attributes from `start` on are packed into lines in their order, each line may stand as it is,
and no division into such lines has fewer of them. -/
theorem pack_fewest_lines (s : Settings) (rendered : List Rendered) (start : Nat) :
    Division s (rendered.drop start) (pack s (rendered.drop start)) ∧
      ∀ lines, Division s (rendered.drop start) lines →
        (pack s (rendered.drop start)).length ≤ lines.length := by
  refine ⟨⟨?_, fun _ => ne_nil_of_mem_packFrom, fun _ => admitted_of_mem_packFrom (.inl rfl)⟩, ?_⟩
  · exact packFrom_flatten s [] (rendered.drop start)
  · intro lines h
    have hflat : lines.flatten = [] ++ ([] ++ rendered.drop start) := h.flatten
    exact length_packFrom_le hflat h.admitted (.inl rfl)

/-- Of three attributes two fit on a line. They may also be divided with the first by itself. -/
theorem pack_fewest_lines_sample :
    let s : Settings :=
      { Settings.standard with maxAttributesPerLine := 3, maxAttributeCharactersPerLine := 11 }
    let r (c : Char) : Rendered := ⟨⟨QName.ofChars [c], ['1'], 0, 0, 0, none⟩, [c, '=', '"', '1', '"']⟩
    Division s [r 'b', r 'c', r 'd'] [[r 'b'], [r 'c', r 'd']] ∧
      pack s ([r 'a', r 'b', r 'c', r 'd'].drop 1) = [[r 'b', r 'c'], [r 'd']] ∧
      (pack s ([r 'a', r 'b', r 'c', r 'd'].drop 1)).length ≤ [[r 'b'], [r 'c', r 'd']].length := by
  intro s r
  have hdivision : Division s [r 'b', r 'c', r 'd'] [[r 'b'], [r 'c', r 'd']] := by
    refine ⟨rfl, by simp, fun line hline => ?_⟩
    obtain rfl | hline := List.mem_cons.mp hline
    · exact .inl rfl
    · rw [List.mem_singleton.mp hline]
      exact .inr ⟨by decide, fun _ => by decide, fun hs => absurd hs (by decide)⟩
  exact ⟨hdivision, rfl, (pack_fewest_lines s [r 'a', r 'b', r 'c', r 'd'] 1).2 _ hdivision⟩

end Fewest

end StartTag
end XamlFormat
