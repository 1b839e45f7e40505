import XamlFormat.Proofs.Layout.Fidelity

/-! What stays the same when the pieces of a layout are laid out again: the text of a start tag, which
depends on little of the tag, and running text, comments and the white space of a block. -/
namespace XamlFormat

open Markup Text StartTag Reference

def Attribute.core (a : Attribute) : Attribute :=
  { a with value := a.text, index := 0, offset := 0 }

/-- What the text of a start tag takes from the tag. -/
def Tag.core (t : Tag) : Tag where
  name := t.name
  attributes := t.attributes.map Attribute.core
  selfClosing := false
  preserveSpace := false
  firstLine := 0
  pinned := t.pinned
  span := ⟨0, 0⟩

namespace StartTag

section Core

variable {ctx : TagContext}

theorem text_core (a : Attribute) : a.core.text = a.text := by
  unfold Attribute.core Attribute.text
  cases a.extension <;> rfl

def coreOf (r : Rendered) : Rendered := ⟨r.item.core, r.text⟩

theorem renderAll_core (unescaped : Chars) (as : List Attribute) :
    renderAll unescaped (as.map Attribute.core) = (renderAll unescaped as).map coreOf := by
  simp only [renderAll, List.map_map]
  refine List.map_congr_left fun a _ => ?_
  simp only [Function.comp_apply, coreOf, Attribute.render, text_core]
  rfl

theorem lineWidth_core (rs : List Rendered) : lineWidth (rs.map coreOf) = lineWidth rs := by
  induction rs with
  | nil => rfl
  | cons r rs ih =>
    cases rs with
    | nil => rfl
    | cons q rs => exact congrArg (r.text.length + 1 + ·) ih

theorem isFull_core (s : Settings) (line : List Rendered) (next : Rendered) :
    isFull s (line.map coreOf) (coreOf next) = isFull s line next := by
  unfold isFull
  rw [List.getLast?_map, List.length_map, lineWidth_core]
  cases line.getLast? <;> rfl

theorem packFrom_core (s : Settings) (line rs : List Rendered) :
    packFrom s (line.map coreOf) (rs.map coreOf) = (packFrom s line rs).map (List.map coreOf) := by
  induction rs generalizing line with
  | nil =>
    rw [List.map_nil, packFrom, packFrom, List.isEmpty_map]
    split_ifs <;> rfl
  | cons r rs ih =>
    rw [List.map_cons, packFrom, packFrom, isFull_core]
    split_ifs
    · rw [List.map_cons]
      exact congrArg _ (ih [r])
    · have := ih (line ++ [r])
      rwa [List.map_append] at this

theorem writePlain_core (unescaped gap : Chars) (a : Attribute) :
    writePlain unescaped gap a.core = writePlain unescaped gap a := by
  rw [writePlain, writePlain, text_core]
  rfl

theorem writeAlone_core (gap : Chars) (column : Nat) (a : Attribute) :
    writeAlone ctx gap column a.core = writeAlone ctx gap column a := by
  have hplain := writePlain_core ctx.unescaped gap a
  unfold writeAlone
  rw [hplain]
  rfl

theorem map_writePlain_core (rs : List Rendered) :
    ((rs.map coreOf).map fun r => writePlain ctx.unescaped [' '] r.item) =
      rs.map fun r => writePlain ctx.unescaped [' '] r.item := by
  rw [List.map_map]
  exact List.map_congr_left fun r _ => writePlain_core _ _ _

theorem writeLine_core (column : Nat) (line : List Rendered) :
    writeLine ctx column (line.map coreOf) = writeLine ctx column line := by
  obtain _ | ⟨r, _ | ⟨q, rs⟩⟩ := line
  · rfl
  · exact congrArg (fun w => [w]) (writeAlone_core _ _ r.item)
  · exact congrArg₂ List.cons (writePlain_core _ _ r.item) (map_writePlain_core (q :: rs))

theorem writeFirst_core {t : Tag} (lines : List (List Rendered)) (first : List Rendered) :
    writeFirst ctx t.core (lines.map (List.map coreOf)) (first.map coreOf) =
      writeFirst ctx t lines first := by
  obtain _ | ⟨l, ls⟩ := lines <;> obtain _ | ⟨r, _ | ⟨q, rs⟩⟩ := first
  · rfl
  · exact congrArg (fun w => [w]) (writeAlone_core _ _ r.item)
  · exact map_writePlain_core (r :: q :: rs)
  · rfl
  · exact map_writePlain_core [r]
  · exact map_writePlain_core (r :: q :: rs)

theorem leadCount_core (t : Tag) : leadCount ctx t.core = leadCount ctx t := by
  rw [leadCount, leadCount]
  simp only [Tag.core, List.length_map]

theorem wrapColumn_core (t : Tag) : wrapColumn ctx t.core = wrapColumn ctx t := by
  rw [wrapColumn, wrapColumn, leadCount_core]
  rfl

theorem pack_drop_core (n : Nat) (rs : List Rendered) :
    pack ctx.settings ((rs.map coreOf).drop n) =
      (pack ctx.settings (rs.drop n)).map (List.map coreOf) := by
  rw [← List.map_drop]
  exact packFrom_core _ [] _

theorem writeWrapped_core (t : Tag) (rs : List Rendered) :
    writeWrapped ctx t.core (rs.map coreOf) = writeWrapped ctx t rs := by
  rw [writeWrapped, writeWrapped, leadCount_core, wrapColumn_core, pack_drop_core, ← List.map_take,
    writeFirst_core, List.flatMap_map]
  exact congrArg _ (List.flatMap_congr fun line _ => writeLine_core _ line)

theorem wraps?_core (t : Tag) (rs : List Rendered) :
    wraps? ctx t.core (rs.map coreOf) = wraps? ctx t rs := by
  unfold wraps?
  rw [List.length_map, lineWidth_core, List.isEmpty_map]
  rfl

theorem wraps_core (t : Tag) (rs : List Rendered) :
    wraps ctx t.core (rs.map coreOf) = wraps ctx t rs := by
  rw [wraps, wraps, wraps?_core]

theorem lineColumns_core (column : Nat) (line : List Rendered) :
    lineColumns ctx column (line.map coreOf) = lineColumns ctx column line := by
  obtain _ | ⟨r, _ | ⟨q, rs⟩⟩ := line <;> rfl

theorem firstColumns_core {t : Tag} (lines : List (List Rendered)) (first : List Rendered) :
    firstColumns ctx t.core (lines.map (List.map coreOf)) (first.map coreOf) =
      firstColumns ctx t lines first := by
  obtain _ | ⟨l, ls⟩ := lines <;> obtain _ | ⟨r, _ | ⟨q, rs⟩⟩ := first <;> rfl

theorem wrappedColumns_core (t : Tag) (rs : List Rendered) :
    wrappedColumns ctx t.core (rs.map coreOf) = wrappedColumns ctx t rs := by
  rw [wrappedColumns, wrappedColumns, leadCount_core, wrapColumn_core, pack_drop_core,
    ← List.map_take, firstColumns_core, List.flatMap_map]
  exact congrArg _ (List.flatMap_congr fun line _ => lineColumns_core _ line)

theorem written_core (ctx : TagContext) (t : Tag) (ending : TagEnd) :
    written ctx t.core ending = written ctx t ending := by
  have hattributes : t.core.attributes = t.attributes.map Attribute.core := rfl
  simp only [written, writeAttributes, endGap, hattributes, renderAll_core, wraps_core,
    writeWrapped_core, map_writePlain_core]
  rfl

theorem written_congr (ctx : TagContext) {t u : Tag} (h : u.core = t.core) (ending : TagEnd) :
    written ctx u ending = written ctx t ending := by
  rw [← written_core, h, written_core]

theorem print_congr (ctx : TagContext) {t u : Tag} (h : u.core = t.core) (ending : TagEnd) :
    print ctx u ending = print ctx t ending := by
  rw [← text_written, written_congr ctx h, text_written]

theorem inRange_core (ctx : TagContext) (t : Tag) : inRange ctx t.core = inRange ctx t := by
  have hattributes : t.core.attributes = t.attributes.map Attribute.core := rfl
  simp only [inRange, hattributes, renderAll_core, wraps?_core, wrappedColumns_core]

theorem inRange_congr (ctx : TagContext) {t u : Tag} (h : u.core = t.core) :
    inRange ctx u = inRange ctx t := by
  rw [← inRange_core, h, inRange_core]

end Core

end StartTag

section Texts

/-- No run of blanks is left in a text that is collapsed. -/
structure Collapsed (s : Chars) : Prop where
  spaces : ∀ c ∈ s, isXmlBlank c = true → c = ' '
  apart : s.IsChain fun a b => isXmlBlank a = true → isXmlBlank b = false

theorem Collapsed.of_isInfix {s t : Chars} (h : Collapsed t) (hs : s <:+: t) : Collapsed s :=
  ⟨fun c hc => h.spaces c (hs.subset hc), List.IsChain.infix h.apart hs⟩

theorem Collapsed.collapse_eq {s : Chars} (h : Collapsed s) : collapse s = s := by
  induction s using collapse.induct with
  | case1 => rfl
  | case2 c hc => simp [collapse, h.spaces c (by simp) hc]
  | case3 c hc => simp [collapse, hc]
  | case4 c d cs hc hd ih =>
    have := (List.isChain_cons_cons.mp h.apart).1 hc
    simp [this] at hd
  | case5 c d cs hc hd ih =>
    rw [collapse, if_pos hc, if_neg hd, ih (h.of_isInfix (List.suffix_cons c _).isInfix),
      h.spaces c (by simp) hc]
  | case6 c d cs hc ih =>
    rw [collapse, if_neg hc, ih (h.of_isInfix (List.suffix_cons c _).isInfix)]

theorem head?_collapse (d : Char) (cs : Chars) :
    (collapse (d :: cs)).head? = some (if isXmlBlank d then ' ' else d) := by
  induction cs generalizing d with
  | nil => rw [collapse]; split_ifs <;> rfl
  | cons e cs ih =>
    rw [collapse]
    split_ifs with hd he
    · rw [ih, if_pos he]
    · rfl
    · rfl

theorem collapsed_collapse (s : Chars) : Collapsed (collapse s) := by
  refine ⟨fun c hc hb => ?_, ?_⟩
  · obtain rfl | ⟨h, -⟩ := mem_collapse hc
    · rfl
    · simp [h] at hb
  · induction s using collapse.induct with
    | case1 => exact .nil
    | case2 c hc => simp [collapse, hc]
    | case3 c hc => simp [collapse, hc]
    | case4 c d cs hc hd ih => rwa [collapse, if_pos hc, if_pos hd]
    | case5 c d cs hc hd ih =>
      rw [collapse, if_pos hc, if_neg hd, List.isChain_cons]
      refine ⟨fun e he _ => ?_, ih⟩
      rw [head?_collapse, if_neg hd] at he
      cases he
      simpa using hd
    | case6 c d cs hc ih =>
      rw [collapse, if_neg hc, List.isChain_cons]
      exact ⟨fun e _ h => absurd h hc, ih⟩

theorem runningValue_again (value : Chars) (isFirst isLast : Bool) :
    Printer.runningValue (Printer.runningValue value isFirst isLast) isFirst isLast =
      Printer.runningValue value isFirst isLast := by
  let ended := if isLast then trimEnd (collapse value) else collapse value
  have hended : ended <+: collapse value := by
    unfold ended
    split_ifs
    · rw [trimEnd_eq]
      exact List.rdropWhile_prefix _ _
    · exact List.prefix_refl _
  have hlast : ∀ s, s <:+ ended → (if isLast then trimEnd s else s) = s := by
    intro s hs
    split_ifs with hl
    · rw [trimEnd_eq, List.rdropWhile_eq_self_iff]
      intro hne
      have hne' : ended ≠ [] := fun h => hne (List.suffix_nil.mp (h ▸ hs))
      have : ended = (collapse value).rdropWhile isBlank := by
        rw [← trimEnd_eq]
        exact if_pos hl
      have hnot := List.rdropWhile_last_not isBlank (collapse value) (this ▸ hne')
      rw [hs.getLast hne]
      simpa [this] using hnot
    · rfl
  have hrun (s : Chars) (hs : s <:+ ended) : Printer.runningValue s isFirst isLast =
      if isFirst then trimStart s else s := by
    have hc : collapse s = s :=
      ((collapsed_collapse value).of_isInfix (hs.isInfix.trans hended.isInfix)).collapse_eq
    simp only [Printer.runningValue, hc, hlast s hs]
  have hvalue : Printer.runningValue value isFirst isLast =
      if isFirst then trimStart ended else ended := rfl
  rw [hvalue]
  split_ifs with hf
  · rw [hrun (trimStart ended) (List.dropWhile_suffix _), if_pos hf]
    exact List.dropWhile_idempotent _ _
  · rw [hrun _ (List.suffix_refl _), if_neg hf]

end Texts

section Gaps

variable (p : Printer)

theorem marker?_layout (q : Part) (depth : Nat) (isRoot inline : Bool) :
    (q.layout p depth isRoot inline).marker? = q.marker? := by
  cases q with
  | text => rfl
  | element opening tag children closing =>
    obtain ⟨_, _, _, he⟩ := Part.exists_layout p depth isRoot inline tag children opening closing
    rw [he]
    rfl
  | raw kind content =>
    rw [Part.layout]
    cases kind with
    | comment =>
      exact p.ofComment?_rawContent content
    | cdata | instruction | doctype => rfl

theorem regionAfter_layout (q : Part) (suppressed : Bool) (depth : Nat) (isRoot inline : Bool) :
    (q.layout p depth isRoot inline).regionAfter suppressed = q.regionAfter suppressed := by
  rw [Part.regionAfter, Part.regionAfter, marker?_layout]

theorem count_level (i : Indent) (depth : Nat) : (i.level depth).count '\n' = 0 :=
  List.count_eq_zero.mpr (oneLine_level i depth).1

/-- The line feeds in front of a node call for the same white space again. -/
theorem blockGap_again (depth : Nat) (top fresh suppressed suppressed' : Bool) (breaks : Nat) :
    p.blockGap depth top ⟨fresh, (p.blockGap depth top ⟨fresh, breaks, suppressed⟩).count '\n',
      suppressed'⟩ = p.blockGap depth top ⟨fresh, breaks, suppressed⟩ := by
  cases fresh with
  | true => simp [Printer.blockGap]
  | false =>
    by_cases hb : breaks ≥ 2
    · simp [Printer.blockGap, hb, count_level]
    · simp [Printer.blockGap, hb, count_level]

theorem blockGap_of_eq_nil {depth : Nat} {top fresh suppressed : Bool} {breaks : Nat}
    (h : p.blockGap depth top ⟨fresh, breaks, suppressed⟩ = []) (breaks' : Nat)
    (suppressed' : Bool) : p.blockGap depth top ⟨fresh, breaks', suppressed'⟩ = [] := by
  unfold Printer.blockGap at h ⊢
  cases fresh <;> cases top <;> simp_all

/-- White space that was put in front of a node is put there again, whatever else is counted. -/
theorem blockGap_reread (depth : Nat) (top fresh : Bool) (breaks breaks' : Nat) :
    p.blockGap depth top ⟨fresh, if p.blockGap depth top ⟨fresh, breaks, false⟩ = [] then breaks'
      else (p.blockGap depth top ⟨fresh, breaks, false⟩).count '\n', false⟩ =
      p.blockGap depth top ⟨fresh, breaks, false⟩ := by
  split_ifs with hgap
  · rw [hgap]
    exact blockGap_of_eq_nil p hgap breaks' false
  · exact blockGap_again p depth top fresh false false breaks

end Gaps
end XamlFormat
