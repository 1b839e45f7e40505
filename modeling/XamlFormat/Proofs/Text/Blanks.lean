import XamlFormat.Proofs.Text.Cuts
import XamlFormat.Text.Letter

/-! Blank characters one by one, texts without the blanks at their ends, and lists of such texts. -/
namespace XamlFormat
namespace Text

def blankCodes : List Nat :=
  [0x9, 0xa, 0xb, 0xc, 0xd, 0x20, 0x85, 0xa0, 0x1680, 0x2000, 0x2001, 0x2002, 0x2003, 0x2004, 0x2005,
    0x2006, 0x2007, 0x2008, 0x2009, 0x200a, 0x2028, 0x2029, 0x202f, 0x205f, 0x3000]

theorem forall_blank {P : Char → Prop} (h : ∀ n ∈ blankCodes, P (Char.ofNat n)) {c : Char}
    (hc : isBlank c = true) : P c := by
  have hmem : c.toNat ∈ blankCodes := by
    simp only [isBlank, Bool.or_eq_true, Bool.and_eq_true, beq_iff_eq, decide_eq_true_eq] at hc
    simp only [blankCodes, List.mem_cons, List.not_mem_nil, or_false]
    omega
  simpa using h c.toNat hmem

theorem isLetter_of_isBlank {c : Char} (h : isBlank c = true) : isLetter c = false :=
  forall_blank (P := fun c => isLetter c = false) (by decide +kernel) h

theorem rdropWhile_cons (p : Char → Bool) (c : Char) (cs : Chars) :
    (c :: cs).rdropWhile p =
      if cs.rdropWhile p = [] then (if p c then [] else [c]) else c :: cs.rdropWhile p := by
  simp only [List.rdropWhile, List.reverse_cons, List.dropWhile_append, List.reverse_eq_nil_iff,
    List.isEmpty_iff]
  split_ifs with h1 h2 <;> simp_all

theorem trimEnd_eq (s : Chars) : trimEnd s = s.rdropWhile isBlank := by
  induction s with
  | nil => rfl
  | cons c cs ih =>
    rw [trimEnd, ih, rdropWhile_cons]
    split <;> simp_all

theorem trimXmlEnd_eq (s : Chars) : trimXmlEnd s = s.rdropWhile isXmlBlank := by
  induction s with
  | nil => rfl
  | cons c cs ih =>
    rw [trimXmlEnd, ih, rdropWhile_cons]
    split <;> simp_all

theorem trimEnd_sublist (s : Chars) : (trimEnd s).Sublist s := by
  rw [trimEnd_eq]
  exact (List.rdropWhile_prefix _ _).sublist

theorem trimStart_sublist (s : Chars) : (trimStart s).Sublist s :=
  (List.dropWhile_suffix _).sublist

theorem trim_sublist (s : Chars) : (trim s).Sublist s :=
  (trimEnd_sublist _).trans (trimStart_sublist s)

theorem trim_between {c d : Char} (hc : isBlank c = false) (hd : isBlank d = false) (s : Chars) :
    trim (c :: (s ++ [d])) = c :: (s ++ [d]) := by
  rw [trim, trimStart, List.dropWhile_cons_of_neg (by simp [hc]), trimEnd_eq, ← List.cons_append,
    List.rdropWhile_concat_neg _ _ _ (by simp [hd])]

theorem rdropWhile_append_of_all {α : Type} {p : α → Bool} (a : List α) {b : List α}
    (hb : ∀ c ∈ b, p c = true) : (a ++ b).rdropWhile p = a.rdropWhile p := by
  induction b using List.reverseRecOn with
  | nil => rw [List.append_nil]
  | append_singleton b c ih =>
    rw [← List.append_assoc, List.rdropWhile_concat_pos _ _ _ (hb c (by simp))]
    exact ih fun d hd => hb d (by simp [hd])

theorem trim_padded {a b : Chars} (ha : ∀ c ∈ a, isBlank c = true)
    (hb : ∀ c ∈ b, isBlank c = true) (s : Chars) : trim (a ++ s ++ b) = trim s := by
  have hdrop : b.dropWhile isBlank = [] := List.dropWhile_eq_nil_iff.mpr hb
  rw [trim, trimStart, trimEnd_eq, List.append_assoc, List.dropWhile_append_of_pos ha,
    List.dropWhile_append, trim, trimStart, trimEnd_eq]
  split_ifs with h
  · rw [hdrop, List.isEmpty_iff.mp h]
  · rw [rdropWhile_append_of_all _ hb]

theorem trimStart_trim (s : Chars) : trimStart (trim s) = trim s := by
  rw [trim, trimEnd_eq]
  obtain ⟨b, hb⟩ := List.rdropWhile_prefix isBlank (trimStart s)
  refine dropWhile_of_halts ?_
  have hstart := halts_dropWhile isBlank s
  cases hr : (trimStart s).rdropWhile isBlank with
  | nil => simp [Halts]
  | cons c cs =>
    rw [hr] at hb
    rw [trimStart] at hb
    rw [← hb] at hstart
    simpa [Halts] using hstart

theorem trim_trim (s : Chars) : trim (trim s) = trim s := by
  conv_lhs => rw [trim, trimStart_trim]
  rw [trim, trimEnd_eq, trimEnd_eq, List.rdropWhile_idempotent]

/-- The text `t` is `s` without the blanks at its ends. -/
structure Trimmed (s t : Chars) : Prop where
  padded : ∃ a b, s = a ++ t ++ b ∧ (∀ c ∈ a, isBlank c = true) ∧ ∀ c ∈ b, isBlank c = true
  head : ∀ c ∈ t.head?, isBlank c = false
  last : ∀ c ∈ t.getLast?, isBlank c = false

theorem trimmed_trim (s : Chars) : Trimmed s (trim s) where
  padded := by
    refine ⟨s.takeWhile isBlank, (trimStart s).rtakeWhile isBlank, ?_,
      fun c => List.mem_takeWhile_imp, fun c => List.mem_rtakeWhile_imp⟩
    rw [trim, trimEnd_eq, List.append_assoc, List.rdropWhile_append_rtakeWhile, trimStart,
      List.takeWhile_append_dropWhile]
  head := by
    rw [← trimStart_trim]
    exact halts_dropWhile isBlank (trim s)
  last c hc := by
    rw [trim, trimEnd_eq] at hc
    obtain ⟨hne, rfl⟩ := List.mem_getLast?_eq_getLast hc
    simpa using List.rdropWhile_last_not isBlank (trimStart s) hne

theorem Trimmed.eq_trim {s t : Chars} (h : Trimmed s t) : t = trim s := by
  obtain ⟨a, b, rfl, ha, hb⟩ := h.padded
  have hlast : trimEnd t = t := by
    rw [trimEnd_eq, List.rdropWhile_eq_self_iff]
    intro hne
    simp [h.last _ (List.getLast_mem_getLast? hne)]
  rw [trim_padded ha hb, trim, trimStart, dropWhile_of_halts h.head, hlast]

theorem mem_words {s t : Chars} (h : t ∈ words s) : t ≠ [] ∧ ∀ c ∈ t, isBlank c = false := by
  obtain ⟨hmem, hne⟩ := List.mem_filter.mp h
  exact ⟨by simpa using hne, fun c hc => (mem_piecesBy hmem c hc).2⟩

theorem words_joinWith {ts : List Chars} (h : ∀ t ∈ ts, t ≠ [] ∧ ∀ c ∈ t, isBlank c = false) :
    words (joinWith [' '] ts) = ts := by
  cases ts with
  | nil => rfl
  | cons t ts =>
    rw [words, piecesBy_joinWith (by decide) (by simp) fun t ht => (h t ht).2]
    exact List.filter_eq_self.mpr fun t ht => by simpa using (h t ht).1

theorem trim_of_none {s : Chars} (h : ∀ c ∈ s, isBlank c = false) : trim s = s := by
  have hstart : trimStart s = s := by
    cases s with
    | nil => rfl
    | cons c cs => rw [trimStart, List.dropWhile_cons_of_neg (by simp [h c (by simp)])]
  rw [trim, hstart, trimEnd_eq, List.rdropWhile_eq_self_iff]
  exact fun hne => by simp [h _ (List.getLast_mem hne)]

/-- The entries of a comma separated list, without the blanks around them and without those that
are empty then. -/
def Entries (list : Chars) (entries : List Chars) : Prop :=
  ∃ trimmed, List.Forall₂ Trimmed (list.splitOn ',') trimmed ∧
    entries = trimmed.filter fun t => t ≠ []

theorem entries_iff {list : Chars} {entries : List Chars} :
    Entries list entries ↔ entries = nameList list := by
  have hpieces : pieces ',' list = list.splitOn ',' := piecesBy_eq_splitOnP _ list
  have hlist : nameList list = ((list.splitOn ',').map trim).filter fun t => t ≠ [] := by
    rw [nameList, hpieces]
    refine List.filter_congr fun t _ => ?_
    cases t <;> rfl
  rw [hlist]
  constructor
  · rintro ⟨trimmed, h, rfl⟩
    have heq : List.Forall₂ (· = ·) ((list.splitOn ',').map trim) trimmed :=
      List.forall₂_map_left_iff.mpr (h.imp fun s t hst => hst.eq_trim.symm)
    rw [List.forall₂_eq_eq_eq] at heq
    rw [heq]
  · rintro rfl
    exact ⟨_, List.forall₂_map_right_iff.mpr (List.forall₂_same.mpr fun s _ => trimmed_trim s), rfl⟩

end Text
end XamlFormat
