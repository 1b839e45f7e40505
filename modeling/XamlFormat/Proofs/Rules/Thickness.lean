import XamlFormat.Proofs.Extension.Literal
import XamlFormat.Thickness

/-! Thickness values in the style of the settings. A value that was normalized has the components that
it had, so what it becomes in any style does not depend on the styles it went through; and none of
these values is an extension. -/
namespace XamlFormat

open Text

namespace Thickness

def isNumeral (c : Char) : Bool := isDecimal c || "+-.eE".toList.contains c

theorem isDecimal_of_isBlank {c : Char} (h : isBlank c = true) : isDecimal c = false :=
  forall_blank (P := fun c => isDecimal c = false) (by decide +kernel) h

theorem isBlank_of_isNumeral {c : Char} (h : isNumeral c = true) : isBlank c = false := by
  by_contra hb
  rw [Bool.not_eq_false] at hb
  rw [isNumeral, isDecimal_of_isBlank hb, Bool.false_or] at h
  exact absurd hb (by
    simp only [List.contains_eq_mem, decide_eq_true_eq] at h
    fin_cases h <;> decide)

theorem ne_of_isNumeral {c d : Char} (h : isNumeral c = true) (hd : isNumeral d = false) :
    c ≠ d := by
  rintro rfl
  simp [h] at hd

theorem all_takeWhile_isDecimal (s : Chars) : (s.takeWhile isDecimal).all isNumeral = true := by
  rw [List.all_eq_true]
  intro c hc
  simp [isNumeral, List.mem_takeWhile_imp hc]

theorem all_dropSign {s : Chars} (h : (dropSign s).all isNumeral = true) :
    s.all isNumeral = true := by
  unfold dropSign at h
  split at h
  · simpa [show isNumeral '+' = true by decide] using h
  · simpa [show isNumeral '-' = true by decide] using h
  · exact h

theorem all_of_dropWhile {s : Chars} (h : (s.dropWhile isDecimal).all isNumeral = true) :
    s.all isNumeral = true := by
  rw [← List.takeWhile_append_dropWhile (p := isDecimal) (l := s), List.all_append,
    all_takeWhile_isDecimal, h]
  rfl

theorem all_afterMantissa {s rest : Chars} (h : afterMantissa? s = some rest)
    (hrest : rest.all isNumeral = true) : s.all isNumeral = true := by
  have hpoint : isNumeral '.' = true := by decide
  refine all_of_dropWhile ?_
  unfold afterMantissa? at h
  dsimp only at h
  split_ifs at h with hempty
  · split at h
    · rename_i t ht
      split_ifs at h
      cases h
      rw [ht, List.all_cons, hpoint, all_of_dropWhile hrest]
      rfl
    · cases h
  · split at h
    · rename_i t ht
      cases h
      rw [ht, List.all_cons, hpoint, all_of_dropWhile hrest]
      rfl
    · cases h
      exact hrest

theorem all_isExponent {s : Chars} (h : isExponent s = true) : s.all isNumeral = true := by
  cases s with
  | nil => rfl
  | cons c rest =>
    simp only [isExponent, Bool.and_eq_true, Bool.or_eq_true, beq_iff_eq] at h
    obtain ⟨⟨hc, -⟩, hdigits⟩ := h
    have hrest : rest.all isNumeral = true := by
      refine all_dropSign (List.all_eq_true.mpr fun d hd => ?_)
      simp [isNumeral, List.all_eq_true.mp hdigits d hd]
    rw [List.all_cons, hrest]
    obtain rfl | rfl := hc <;> decide

theorem numerals_of_isComponent {s : Chars} (h : isComponent s = true) :
    s ≠ [] ∧ ∀ c ∈ s, isNumeral c = true := by
  refine ⟨?_, List.all_eq_true.mp ?_⟩
  · rintro rfl
    exact absurd h (by decide)
  · unfold isComponent at h
    split at h
    · exact all_dropSign (all_afterMantissa ‹_› (all_isExponent h))
    · cases h

section Normalize

variable {style : ThicknessStyle} {value normal : Chars}

structure IsThickness (value : Chars) : Prop where
  one_le : 1 ≤ (components value).length
  le_four : (components value).length ≤ 4
  numbers : ∀ t ∈ components value, isComponent t = true

theorem separator?_eq_some {separator : Chars} (h : separator? style = some separator) :
    separator = [','] ∨ separator = [' '] := by
  cases style with
  | keep => cases h
  | comma => exact .inl (Option.some.inj h).symm
  | space => exact .inr (Option.some.inj h).symm

/-- A normalized value is a thickness with the separator of the style between its components. -/
theorem normalize?_eq_some_iff :
    normalize? style value = some normal ↔ IsThickness value ∧
      ∃ separator, separator? style = some separator ∧
        normal = joinWith separator (components value) := by
  have hthickness : IsThickness value ↔ 1 ≤ (components value).length ∧
      (components value).length ≤ 4 ∧ (components value).all isComponent = true :=
    ⟨fun h => ⟨h.one_le, h.le_four, List.all_eq_true.mpr h.numbers⟩,
      fun h => ⟨h.1, h.2.1, List.all_eq_true.mp h.2.2⟩⟩
  unfold normalize?
  split
  · simp [‹separator? style = none›]
  · rename_i separator hs
    rw [hthickness, hs]
    dsimp only
    split_ifs with hparts
    · rw [Option.some.injEq, and_iff_right hparts]
      exact ⟨fun h => ⟨separator, rfl, h.symm⟩, fun ⟨_, he, h⟩ => by rw [h, Option.some.inj he]⟩
    · exact ⟨nofun, fun h => absurd h.1 hparts⟩

theorem components_joinWith {separator : Chars} (hs : separator = [','] ∨ separator = [' '])
    {parts : List Chars} (hne : parts ≠ []) (h : ∀ t ∈ parts, isComponent t = true) :
    components (joinWith separator parts) = parts := by
  have hwords : ∀ t ∈ parts, t ≠ [] ∧ ∀ c ∈ t, isBlank c = false := fun t ht =>
    ⟨(numerals_of_isComponent (h t ht)).1, fun c hc =>
      isBlank_of_isNumeral ((numerals_of_isComponent (h t ht)).2 c hc)⟩
  have hcomma : ∀ t ∈ parts, ∀ c ∈ t, (c == ',') = false := fun t ht c hc => by
    simpa using ne_of_isNumeral ((numerals_of_isComponent (h t ht)).2 c hc) (by decide)
  have hnone : ',' ∉ joinWith [' '] parts := by
    intro hm
    obtain hm | ⟨t, ht, hc⟩ := mem_joinWith hm
    · exact absurd hm (by decide)
    · exact absurd (hcomma t ht _ hc) (by decide)
  have hspace : components (joinWith [' '] parts) = parts := by
    rw [components, if_neg (by simpa using hnone), words_joinWith hwords]
  obtain rfl | rfl := hs
  · obtain _ | ⟨t, _ | ⟨u, us⟩⟩ := parts
    · exact absurd rfl hne
    · exact hspace
    · rw [components, if_pos (by simp [joinWith]), pieces, piecesBy_joinWith (by decide) hne hcomma]
      exact (List.map_congr_left fun t ht => trim_of_none (hwords t ht).2).trans (List.map_id _)
  · exact hspace

theorem components_normal (h : normalize? style value = some normal) :
    components normal = components value := by
  obtain ⟨hvalue, separator, hs, rfl⟩ := normalize?_eq_some_iff.mp h
  exact components_joinWith (separator?_eq_some hs) (List.ne_nil_of_length_pos hvalue.one_le)
    hvalue.numbers

theorem normalize?_congr {a b : Chars} (h : components a = components b) (style : ThicknessStyle) :
    normalize? style a = normalize? style b := by
  simp only [normalize?, h]

theorem normalize?_normal (h : normalize? style value = some normal) :
    normalize? style normal = some normal :=
  (normalize?_congr (components_normal h) style).trans h

/-- Each style but the one that keeps values has a form for every thickness. -/
theorem exists_normalize? (h : IsThickness value) (hstyle : style ≠ .keep) :
    ∃ w, normalize? style value = some w := by
  cases style with
  | keep => exact absurd rfl hstyle
  | comma | space => exact ⟨_, normalize?_eq_some_iff.mpr ⟨h, _, rfl, rfl⟩⟩

theorem looksLike_normal (h : normalize? style value = some normal) :
    Extension.looksLike normal = false := by
  obtain ⟨hvalue, separator, hs, rfl⟩ := normalize?_eq_some_iff.mp h
  have hbrace : '{' ∉ joinWith separator (components value) := by
    intro hm
    obtain hm | ⟨t, ht, hc⟩ := mem_joinWith hm
    · obtain rfl | rfl := separator?_eq_some hs <;> exact absurd hm (by decide)
    · exact absurd ((numerals_of_isComponent (hvalue.numbers t ht)).2 _ hc) (by decide)
  exact Extension.looksLike_of_notMem hbrace

/-- What a value becomes does not depend on how it was normalized before. So a second time changes
nothing, and a value that goes through another style comes back as it was. The one to four components
stay the same all along. -/
theorem normalize?_path_independent (h : normalize? style value = some normal) :
    (∀ other, normalize? other normal = normalize? other value) ∧
      normalize? style normal = some normal ∧
      (∀ other, other ≠ .keep →
        ∃ between, normalize? other normal = some between ∧ normalize? style between = some normal) ∧
      components normal = components value ∧ 1 ≤ (components value).length ∧
      (components value).length ≤ 4 := by
  have hcomponents := components_normal h
  have hvalue := (normalize?_eq_some_iff.mp h).1
  refine ⟨normalize?_congr hcomponents, normalize?_normal h, fun other hother => ?_, hcomponents,
    hvalue.one_le, hvalue.le_four⟩
  obtain ⟨between, hbetween⟩ := exists_normalize? hvalue hother
  refine ⟨between, (normalize?_congr hcomponents other).trans hbetween, ?_⟩
  exact (normalize?_congr (components_normal hbetween) style).trans h

/-- Between commas stand blanks of any kind, and a digit of any script is a digit. -/
theorem normalize?_path_independent_sample :
    normalize? .space " 1.,\u00a0-.5e3 ,\u0663".toList = some "1. -.5e3 \u0663".toList ∧
      (∀ other, normalize? other "1. -.5e3 \u0663".toList =
        normalize? other " 1.,\u00a0-.5e3 ,\u0663".toList) ∧
      normalize? .space "1. -.5e3 \u0663".toList = some "1. -.5e3 \u0663".toList ∧
      (∀ other, other ≠ .keep → ∃ between,
        normalize? other "1. -.5e3 \u0663".toList = some between ∧
          normalize? .space between = some "1. -.5e3 \u0663".toList) ∧
      components "1. -.5e3 \u0663".toList = components " 1.,\u00a0-.5e3 ,\u0663".toList ∧
      1 ≤ (components " 1.,\u00a0-.5e3 ,\u0663".toList).length ∧
      (components " 1.,\u00a0-.5e3 ,\u0663".toList).length ≤ 4 := by
  have h : normalize? .space " 1.,\u00a0-.5e3 ,\u0663".toList = some "1. -.5e3 \u0663".toList := by
    decide +kernel
  exact ⟨h, normalize?_path_independent h⟩

end Normalize

end Thickness
end XamlFormat
