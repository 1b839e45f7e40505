import XamlFormat.Project.Discovery
import XamlFormat.Proofs.Layout.Packing

/-! Which start tags are wrapped. A tag stays on one line as long as its attributes are few enough and
their row is not too wide, where no other rule decides. How many are few enough is the sum of two
settings. Raising the two keeps a tag on its line, where their sum is still a number of 64 bits. -/
namespace XamlFormat

namespace Settings

/-- The second settings raise the two limits on the number of attributes and change nothing else. -/
structure RaisedTo (s raised : Settings) : Prop where
  others : raised = { s with
    maxAttributesPerLine := raised.maxAttributesPerLine
    attributesTolerance := raised.attributesTolerance }
  perLine : s.maxAttributesPerLine ≤ raised.maxAttributesPerLine
  tolerance : s.attributesTolerance ≤ raised.attributesTolerance

/-- The number of attributes that the limits allow on one line, however large it is. -/
def allowance (s : Settings) : Nat := s.maxAttributesPerLine + s.attributesTolerance

theorem RaisedTo.allowance_le {s raised : Settings} (h : s.RaisedTo raised) :
    s.allowance ≤ raised.allowance :=
  Nat.add_le_add h.perLine h.tolerance

end Settings

namespace StartTag

open Settings (wordSize)

theorem countLimit?_eq (s : Settings) :
    countLimit? s = if s.allowance < wordSize then some s.allowance else none := rfl

section Wrapping

variable {ctx : TagContext} {tag : Tag} {rendered : List Rendered}

/-- The attributes are wrapped for being those of the root element. -/
@[mk_iff]
structure Forced (ctx : TagContext) (rendered : List Rendered) : Prop where
  nonempty : rendered ≠ []
  block : ctx.inline = false
  root : ctx.isRoot = true
  always : ctx.settings.rootWrap = .always

/-- Whether the tag is wrapped depends on the number and the width of its attributes. -/
@[mk_iff]
structure Measured (ctx : TagContext) (tag : Tag) (rendered : List Rendered) : Prop where
  nonempty : rendered ≠ []
  block : ctx.inline = false
  root : ctx.isRoot = true → ctx.settings.rootWrap = .standard
  name : tag.name.written ∉ ctx.settings.noNewLineElements

def RowFits (s : Settings) (rendered : List Rendered) : Prop :=
  0 < s.maxAttributeCharactersPerLine → (inRow rendered).length ≤ s.maxAttributeCharactersPerLine

structure FitsLine (s : Settings) (rendered : List Rendered) : Prop where
  count : rendered.length ≤ s.allowance
  row : RowFits s rendered

theorem not_rowFits_iff {s : Settings} : ¬ RowFits s rendered ↔
    0 < s.maxAttributeCharactersPerLine ∧ s.maxAttributeCharactersPerLine < lineWidth rendered := by
  rw [RowFits, length_inRow, Classical.not_imp, Nat.not_le]

theorem wraps?_of_measured (h : Measured ctx tag rendered) :
    wraps? ctx tag rendered = (countLimit? ctx.settings).map fun limit =>
      rendered.length > limit || (ctx.settings.maxAttributeCharactersPerLine > 0 &&
        lineWidth rendered > ctx.settings.maxAttributeCharactersPerLine) := by
  cases hroot : ctx.isRoot with
  | false => simp [wraps?, h.block, h.name, hroot, h.nonempty]
  | true => simp [wraps?, h.block, h.name, h.root hroot, hroot, h.nonempty]

/-- Inside running text, under a rule for the root element and for an element that is never wrapped,
neither number nor width matters. -/
theorem wraps?_of_not_measured (h : ¬ Measured ctx tag rendered) :
    wraps? ctx tag rendered ≠ none ∧
      (wraps? ctx tag rendered = some true ↔ Forced ctx rendered) := by
  rw [measured_iff] at h
  rw [forced_iff]
  obtain rfl | hne := eq_or_ne rendered []
  · simp [wraps?]
  cases hinline : ctx.inline with
  | true => simp [wraps?, hinline]
  | false =>
    cases hroot : ctx.isRoot with
    | false =>
      have hname : tag.name.written ∈ ctx.settings.noNewLineElements := by
        simpa [hinline, hroot, hne] using h
      simp [wraps?, hroot, hname]
    | true =>
      cases hrule : ctx.settings.rootWrap with
      | always => simp [wraps?, hinline, hroot, hrule, hne]
      | never => simp [wraps?, hroot, hrule]
      | standard =>
        have hname : tag.name.written ∈ ctx.settings.noNewLineElements := by
          simpa [hinline, hrule, hne] using h
        simp [wraps?, hroot, hrule, hname]

theorem Measured.not_forced (h : Measured ctx tag rendered) : ¬ Forced ctx rendered := by
  intro hforced
  have hstandard := h.root hforced.root
  rw [hforced.always] at hstandard
  cases hstandard

theorem wraps?_eq_none_iff : wraps? ctx tag rendered = none ↔
    Measured ctx tag rendered ∧ wordSize ≤ ctx.settings.allowance := by
  by_cases h : Measured ctx tag rendered
  · rw [wraps?_of_measured h, countLimit?_eq, Option.map_eq_none_iff, ite_eq_right_iff]
    simp [h]
  · simp [h, (wraps?_of_not_measured h).1]

theorem wraps?_eq_true_iff : wraps? ctx tag rendered = some true ↔
    Forced ctx rendered ∨ Measured ctx tag rendered ∧ ctx.settings.allowance < wordSize ∧
      ¬ FitsLine ctx.settings rendered := by
  by_cases h : Measured ctx tag rendered
  · have hfits : ¬ FitsLine ctx.settings rendered ↔
        ctx.settings.allowance < rendered.length ∨ ¬ RowFits ctx.settings rendered :=
      ⟨fun hno => or_iff_not_imp_left.mpr fun hle hrow => hno ⟨Nat.not_lt.mp hle, hrow⟩,
        fun hor hfits => hor.elim (Nat.not_lt.mpr hfits.count) fun hrow => hrow hfits.row⟩
    rw [wraps?_of_measured h, countLimit?_eq, hfits, not_rowFits_iff]
    by_cases hsum : ctx.settings.allowance < wordSize <;> simp [h, h.not_forced, hsum]
  · simp [h, (wraps?_of_not_measured h).2]

section Raised

variable {raised : Settings} (h : ctx.settings.RaisedTo raised)

include h

theorem forced_raised : Forced { ctx with settings := raised } rendered ↔ Forced ctx rendered := by
  rw [h.others, forced_iff, forced_iff]

theorem measured_raised :
    Measured { ctx with settings := raised } tag rendered ↔ Measured ctx tag rendered := by
  rw [h.others, measured_iff, measured_iff]

theorem FitsLine.of_raisedTo (hfits : FitsLine ctx.settings rendered) : FitsLine raised rendered := by
  have hrow : RowFits raised rendered ↔ RowFits ctx.settings rendered := by
    rw [h.others, RowFits, RowFits]
  exact ⟨hfits.count.trans h.allowance_le, hrow.mpr hfits.row⟩

/-- A tag that is on one line is not wrapped when the limits are raised. It stays on its line, unless
its attributes are counted and the new limit is no number of 64 bits. -/
theorem raised_keeps_line_iff (hline : wraps? ctx tag rendered = some false) :
    wraps? { ctx with settings := raised } tag rendered ≠ some true ∧
      (wraps? { ctx with settings := raised } tag rendered = some false ↔
        ¬ (Measured ctx tag rendered ∧ wordSize ≤ raised.allowance)) := by
  have hstays : ¬ (Forced ctx rendered ∨ Measured ctx tag rendered ∧
      ctx.settings.allowance < wordSize ∧ ¬ FitsLine ctx.settings rendered) := by
    rw [← wraps?_eq_true_iff, hline]
    simp
  have hnever : wraps? { ctx with settings := raised } tag rendered ≠ some true := by
    rw [Ne, wraps?_eq_true_iff, forced_raised h, measured_raised h]
    rintro (hforced | ⟨hmeasured, hsum, hwide⟩)
    · exact hstays (.inl hforced)
    · exact hstays (.inr ⟨hmeasured, h.allowance_le.trans_lt hsum, fun hfits =>
        hwide (hfits.of_raisedTo h)⟩)
  have hnone : wraps? { ctx with settings := raised } tag rendered = none ↔
      Measured ctx tag rendered ∧ wordSize ≤ raised.allowance :=
    wraps?_eq_none_iff.trans (and_congr_left' (measured_raised h))
  refine ⟨hnever, ?_⟩
  rw [← hnone]
  cases hraised : wraps? { ctx with settings := raised } tag rendered with
  | none => simp
  | some wrapped =>
    cases wrapped with
    | true => exact absurd hraised hnever
    | false => simp

end Raised

def twoAttributes : Tag where
  name := ⟨none, ['A']⟩
  attributes := [⟨⟨none, ['a']⟩, ['1'], 0, 3, 0, none⟩, ⟨⟨none, ['b']⟩, ['2'], 1, 9, 0, none⟩]
  selfClosing := true
  preserveSpace := false
  firstLine := 2
  span := ⟨0, 17⟩

def standardContext : TagContext := ⟨Settings.standard, [], ['\n'], 0, true, false⟩

/-- The sum of the raised limits is the largest number of 64 bits. -/
theorem raised_keeps_line_sample :
    let raised := Settings.standard.change
      [.maxAttributesPerLine 0xFFFFFFFF00000000, .attributesTolerance 0xFFFFFFFF]
    let rendered := renderAll [] twoAttributes.attributes
    Settings.standard.RaisedTo raised ∧ wraps? standardContext twoAttributes rendered = some false ∧
      wraps? { standardContext with settings := raised } twoAttributes rendered = some false := by
  intro raised rendered
  have h : standardContext.settings.RaisedTo raised := ⟨rfl, by decide, by decide⟩
  have hline : wraps? standardContext twoAttributes rendered = some false := by decide
  refine ⟨h, hline, (raised_keeps_line_iff h hline).2.mpr ?_⟩
  rintro ⟨-, hoverflow⟩
  exact absurd hoverflow (by decide)

/-- With the largest limit that a settings file can set, and the standard tolerance, there is no answer
for a tag of two attributes, which the standard limits leave on its line; and the text is not
styled. -/
theorem largest_limit_stops :
    let raised := Settings.standard.change [.maxAttributesPerLine 18446744073709551615]
    let rendered := renderAll [] twoAttributes.attributes
    SettingsFile.readText? .json
        "\x7b\"max_attributes_per_line\": 18446744073709551615\x7d".toList =
      some [.maxAttributesPerLine 18446744073709551615] ∧
    Settings.standard.problem? = none ∧ raised.problem? = none ∧
    Settings.standard.RaisedTo raised ∧
    wraps? standardContext twoAttributes rendered = some false ∧
    wraps? { standardContext with settings := raised } twoAttributes rendered = none ∧
    style .standard .xaml "<A a=\"1\" b=\"2\" />".toList =
      .ok "<A a=\"1\" b=\"2\" />".toList ∧
    style raised .xaml "<A a=\"1\" b=\"2\" />".toList = .error .overflow := by
  intro raised rendered
  have h : Settings.standard.RaisedTo raised := ⟨rfl, by decide, by decide⟩
  exact ⟨by decide +kernel, rfl, rfl, h, by decide, by decide, by decide +kernel, by decide +kernel⟩

end Wrapping
end StartTag
end XamlFormat
