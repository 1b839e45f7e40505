import XamlFormat.Proofs.Layout.Printed
import XamlFormat.Proofs.Markup.Complete

/-! Comments and other raw markup as they are written. A comment that is written is read to where it
ends, it says what it said, it is the same marker, and it is written so again. -/
namespace XamlFormat

open Markup Text

section Marks

variable {mark s : Chars} {c : Char}

theorem infix_cons_of_head (h : mark.head? ≠ some c) (hm : mark ≠ []) :
    mark <:+: c :: s ↔ mark <:+: s := by
  rw [List.infix_cons_iff, or_iff_right]
  intro hp
  cases mark with
  | nil => exact hm rfl
  | cons d ds => exact h (by rw [List.head?_cons, (List.cons_prefix_cons.mp hp).1])

theorem infix_concat_of_getLast (h : mark.getLast? ≠ some c) (hm : mark ≠ []) :
    mark <:+: s ++ [c] ↔ mark <:+: s := by
  rw [List.infix_concat_iff, or_iff_right]
  intro hs
  obtain rfl | ⟨t, rfl, -⟩ := List.suffix_concat_iff.mp hs
  · exact hm rfl
  · simp at h

/-- Characters that the mark neither starts nor ends with do not complete it. -/
theorem infix_padded (hhead : mark.head? ≠ some c) (hlast : mark.getLast? ≠ some c)
    (hm : mark ≠ []) (m n : Nat) :
    mark <:+: List.replicate m c ++ s ++ List.replicate n c ↔ mark <:+: s := by
  have hback : mark <:+: s ++ List.replicate n c ↔ mark <:+: s := by
    induction n with
    | zero => simp
    | succ n ih =>
      rw [List.replicate_succ', ← List.append_assoc, infix_concat_of_getLast hlast hm, ih]
  rw [List.append_assoc]
  induction m with
  | zero => exact hback
  | succ m ih =>
    rw [List.replicate_succ, List.cons_append, infix_cons_of_head hhead hm]
    exact ih

theorem ends_commentClose : Ends commentClose s ↔ ¬ commentClose <:+: s := by
  have hdrop : commentClose.dropLast = List.replicate 2 '-' := rfl
  rw [Ends, hdrop, not_iff_not, commentClose_eq]
  rw [List.replicate_succ', ← List.append_assoc, infix_concat_of_getLast (by decide) (by simp)]
  exact infix_concat_of_getLast (by decide) (by simp)

end Marks

section Contents

theorem Printer.closed_paddedComment (p : Printer) {s : Chars} (h : RawKind.comment.Closed s) :
    RawKind.comment.Closed (p.paddedComment s) := by
  have htrim : trim s <:+: s := by
    rw [trim, trimEnd_eq]
    exact (List.rdropWhile_prefix _ _).isInfix.trans (List.dropWhile_suffix _).isInfix
  simp only [RawKind.Closed, ends_commentClose] at h ⊢
  unfold paddedComment
  split
  · rw [commentClose_eq]
    decide
  · dsimp only
    rw [infix_padded (by decide) (by decide) (by decide)]
    exact fun hm => h (hm.trans htrim)

theorem Printer.closed_rawContent (p : Printer) {kind : RawKind} {s : Chars} (h : kind.Closed s) :
    kind.Closed (p.rawContent kind s) := by
  unfold rawContent
  split_ifs with hk
  · obtain ⟨rfl, -⟩ := hk
    exact p.closed_paddedComment h
  · exact h

theorem RawKind.notMem_markup {kind : RawKind} {content : Chars} (h : '\r' ∉ content) :
    '\r' ∉ kind.markup content := by
  cases kind with
  | comment => simp [RawKind.markup, commentOpen_eq, commentClose_eq, h]
  | cdata => simp [RawKind.markup, cdataOpen_eq, cdataClose_eq, h]
  | instruction | doctype => exact h

theorem Printer.notMem_rawContent (p : Printer) {kind : RawKind} {content : Chars}
    (h : '\r' ∉ content) : '\r' ∉ p.rawContent kind content := by
  unfold rawContent
  split_ifs with hk
  · exact (oneLine_paddedComment ⟨by simpa using hk.2, h⟩).2
  · exact h

theorem trim_paddedComment (p : Printer) (content : Chars) :
    trim (p.paddedComment content) = trim content := by
  have hspaces (n : Nat) : ∀ c ∈ List.replicate n ' ', isBlank c = true := by
    intro c hc
    rw [List.eq_of_mem_replicate hc]
    rfl
  unfold Printer.paddedComment
  split
  · rw [‹trim content = []›]
    rfl
  · exact (trim_padded (hspaces _) (hspaces _) _).trans (trim_trim content)

theorem rawContent_again (p : Printer) (kind : RawKind) (content : Chars) :
    p.rawContent kind (p.rawContent kind content) = p.rawContent kind content := by
  have hpadded : p.paddedComment (p.paddedComment content) = p.paddedComment content := by
    rw [Printer.paddedComment, trim_paddedComment, ← Printer.paddedComment]
  by_cases h : kind = .comment ∧ !content.contains '\n'
  · rw [Printer.rawContent, Printer.rawContent, if_pos h]
    split_ifs
    · exact hpadded
    · rfl
  · rw [Printer.rawContent, Printer.rawContent, if_neg h, if_neg h]

theorem Printer.ofComment?_rawContent (p : Printer) (content : Chars) :
    Marker.ofComment? (p.rawContent .comment content) = Marker.ofComment? content := by
  unfold rawContent
  split_ifs
  · rw [Marker.ofComment?, trim_paddedComment, ← Marker.ofComment?]
  · rfl

end Contents

section Written

theorem Printer.unifyLineEnds_rawMarkup (p : Printer) (kind : RawKind) {content : Chars}
    (hr : '\r' ∉ content) :
    unifyLineEnds (p.rawMarkup kind content) = kind.markup (p.rawContent kind content) := by
  rw [p.rawMarkup_eq kind hr]
  exact unifyLineEnds_withLineEnds p.settings.newLineStyle.chars_eq
    (RawKind.notMem_markup (p.notMem_rawContent hr))

theorem Printer.unifyLineEnds_comment_append (p : Printer) {content : Chars}
    (hr : '\r' ∉ content) (text : Chars) :
    unifyLineEnds (p.rawMarkup .comment content ++ text) =
      RawKind.comment.markup (p.rawContent .comment content) ++ unifyLineEnds text := by
  have hlast : (p.rawMarkup .comment content).getLast? = some '>' := by
    change (commentOpen ++ p.commentBody content ++ commentClose).getLast? = some '>'
    rw [List.getLast?_append, commentClose_eq]
    rfl
  rw [unifyLineEnds_append (.inl (by simp [hlast])), p.unifyLineEnds_rawMarkup .comment hr]

/-- A comment that is written is read again, whatever follows it, and ends where it was written to.
Over several lines it is unchanged, on one line it keeps what it says between the blanks; it is the
same marker as before, and it is written in the same way. -/
theorem Printer.comment_read_back (p : Printer) {content : Chars}
    (hclose : ¬ commentClose <:+: content) (hr : '\r' ∉ content) (pos : Nat) (text : Chars) :
    ∃ content' stop, stop = pos + byteLength (unifyLineEnds (p.rawMarkup .comment content)) ∧
      readComment ⟨pos, unifyLineEnds (p.rawMarkup .comment content ++ text)⟩ =
        .ok (.raw .comment content' ⟨pos, stop⟩, ⟨stop, unifyLineEnds text⟩) ∧
      ('\n' ∈ content → content' = content) ∧
      ('\n' ∉ content → trim content' = trim content) ∧
      Marker.ofComment? content' = Marker.ofComment? content ∧
      p.rawMarkup .comment content' = p.rawMarkup .comment content := by
  have hclosed : RawKind.comment.Closed (p.rawContent .comment content) :=
    p.closed_rawContent (ends_commentClose.mpr hclose)
  refine ⟨p.rawContent .comment content, _, rfl, ?_, fun h => ?_, fun h => ?_,
    p.ofComment?_rawContent content, ?_⟩
  · rw [p.unifyLineEnds_comment_append hr, p.unifyLineEnds_rawMarkup .comment hr]
    exact readComment_complete hclosed pos (unifyLineEnds text)
  · simp [rawContent, h]
  · simpa [rawContent, h] using trim_paddedComment p content
  · rw [p.rawMarkup_eq .comment (p.notMem_rawContent hr), rawContent_again, p.rawMarkup_eq .comment hr]

/-- Writes comments without padding, and lines with the line ends of Windows. -/
def Printer.tight : Printer :=
  ⟨[], { Settings.standard with commentSpaces := 0, newLineStyle := .windows }, []⟩

/-- Hyphens at both ends of a comment are kept off its delimiters. -/
theorem Printer.comment_read_back_sample :
    tight.rawMarkup .comment "->\u00a0off-".toList = "<!-- ->\u00a0off- -->".toList ∧
      ∃ content' stop, stop = 3 + byteLength
          (unifyLineEnds (tight.rawMarkup .comment "->\u00a0off-".toList)) ∧
        readComment
            ⟨3, unifyLineEnds (tight.rawMarkup .comment "->\u00a0off-".toList ++ "\r\n-->".toList)⟩ =
          .ok (.raw .comment content' ⟨3, stop⟩, ⟨stop, unifyLineEnds "\r\n-->".toList⟩) ∧
        ('\n' ∈ "->\u00a0off-".toList → content' = "->\u00a0off-".toList) ∧
        ('\n' ∉ "->\u00a0off-".toList → trim content' = trim "->\u00a0off-".toList) ∧
        Marker.ofComment? content' = Marker.ofComment? "->\u00a0off-".toList ∧
        tight.rawMarkup .comment content' = tight.rawMarkup .comment "->\u00a0off-".toList :=
  ⟨by decide, tight.comment_read_back (by decide) (by decide) 3 "\r\n-->".toList⟩

end Written
end XamlFormat
