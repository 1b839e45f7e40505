import Mathlib
import XamlFormat.Text.Place

/-! Lines and columns. The place of an offset is counted from the text in front of it, and no two
positions of a text have the same place. -/
namespace XamlFormat
namespace Place

open Text

/-- The place behind a text: one line for each line feed, one column for each character since the
last one, both counted from one. -/
def behind (before : Chars) : Place :=
  ⟨before.count '\n' + 1, (before.rtakeWhile (· != '\n')).length + 1⟩

theorem behind_concat (before : Chars) (c : Char) :
    behind (before ++ [c]) = (behind before).next c := by
  by_cases hc : c = '\n' <;> simp [behind, next, hc]

theorem behind_eq_foldl (before : Chars) : behind before = before.foldl next ⟨1, 1⟩ := by
  induction before using List.reverseRecOn with
  | nil => rfl
  | append_singleton before c ih => rw [behind_concat, ih, List.foldl_concat]

theorem after_append (p : Place) (a b : Chars) :
    after p (byteLength a) (a ++ b) = a.foldl next p := by
  induction a generalizing p with
  | nil =>
    cases b with
    | nil => rfl
    | cons c cs => simp [after, Nat.not_le.mpr c.utf8Size_pos]
  | cons c cs ih => simp [after, ih]

/-- The offset of a character has the place behind the text in front of it. -/
theorem ofOffset_append (a b : Chars) : ofOffset (a ++ b) (byteLength a) = behind a := by
  rw [ofOffset, after_append, behind_eq_foldl]

theorem column_append {t : Chars} (ht : '\n' ∉ t) (a : Chars) :
    (behind (a ++ t)).column = (behind a).column + t.length := by
  have hall : ∀ c ∈ t.reverse, (c != '\n') = true := by
    intro c hc
    simpa using ne_of_mem_of_not_mem (List.mem_reverse.mp hc) ht
  simp only [behind, List.rtakeWhile, List.reverse_append, List.length_reverse,
    List.takeWhile_append_of_pos hall, List.length_append]
  omega

theorem eq_nil_of_behind_append {a t : Chars} (h : behind (a ++ t) = behind a) : t = [] := by
  have hline : '\n' ∉ t := by
    have : (behind (a ++ t)).line = (behind a).line := by rw [h]
    exact List.count_eq_zero.mp (by simpa [behind] using this)
  have hcolumn := column_append hline a
  rw [h] at hcolumn
  exact List.length_eq_zero_iff.mp (by omega)

/-- Positions of one text that have the same place are the same. -/
theorem eq_of_behind_eq {source a b : Chars} (ha : a <+: source) (hb : b <+: source)
    (h : behind a = behind b) : a = b := by
  obtain ⟨t, rfl⟩ | ⟨t, rfl⟩ := List.prefix_or_prefix_of_prefix ha hb
  · rw [eq_nil_of_behind_append h.symm, List.append_nil]
  · rw [eq_nil_of_behind_append h, List.append_nil]

end Place
end XamlFormat
