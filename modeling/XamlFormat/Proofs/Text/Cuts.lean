import Mathlib
import XamlFormat.Text.Blank

/-! Cuts of a text seen from both sides: what a cut finds, and which texts are cut where they were
put together. The second direction is what lets a written text be read again. -/
namespace XamlFormat
namespace Text

/-- The text does not go on with a character that `p` accepts. -/
def Halts (p : Char → Bool) (s : Chars) : Prop := ∀ c ∈ s.head?, p c = false

@[simp] theorem halts_nil (p : Char → Bool) : Halts p [] := by
  simp [Halts]

@[simp] theorem halts_cons (p : Char → Bool) (c : Char) (cs : Chars) :
    Halts p (c :: cs) ↔ p c = false := by
  simp [Halts]

theorem halts_append {p : Char → Bool} {a b : Chars} (ha : a ≠ []) (h : Halts p a) :
    Halts p (a ++ b) := by
  cases a with
  | nil => exact absurd rfl ha
  | cons c cs => simpa using h

theorem halts_dropWhile (p : Char → Bool) (s : Chars) : Halts p (s.dropWhile p) := by
  induction s with
  | nil => simp
  | cons c cs ih =>
    by_cases hc : p c = true
    · simpa [List.dropWhile, hc] using ih
    · simp [List.dropWhile, hc]

theorem takeWhile_of_halts {p : Char → Bool} {s : Chars} (h : Halts p s) :
    s.takeWhile p = [] := by
  cases s with
  | nil => rfl
  | cons c cs => simp [(halts_cons p c cs).mp h]

theorem dropWhile_of_halts {p : Char → Bool} {s : Chars} (h : Halts p s) :
    s.dropWhile p = s := by
  cases s with
  | nil => rfl
  | cons c cs => simp [(halts_cons p c cs).mp h]

theorem takeWhile_append_halts {p : Char → Bool} {a b : Chars} (ha : ∀ c ∈ a, p c = true)
    (hb : Halts p b) : (a ++ b).takeWhile p = a := by
  rw [List.takeWhile_append_of_pos ha, takeWhile_of_halts hb, List.append_nil]

theorem dropWhile_append_halts {p : Char → Bool} {a b : Chars} (ha : ∀ c ∈ a, p c = true)
    (hb : Halts p b) : (a ++ b).dropWhile p = b := by
  rw [List.dropWhile_append_of_pos ha, dropWhile_of_halts hb]

theorem notMem_of_cutAt {d : Char} {s a b : Chars} (h : cutAt d s = some (a, b)) : d ∉ a := by
  induction s generalizing a with
  | nil => simp [cutAt] at h
  | cons c cs ih =>
    by_cases hc : c = d
    · simp only [cutAt, hc, ↓reduceIte, Option.some.injEq, Prod.mk.injEq] at h
      simp [← h.1]
    · simp only [cutAt, hc, ↓reduceIte, Option.map_eq_some_iff, Prod.exists] at h
      obtain ⟨a', b', h, h'⟩ := h
      cases h'
      simp [ih h, Ne.symm hc]

theorem cutAt_append {d : Char} {a : Chars} (b : Chars) (h : d ∉ a) :
    cutAt d (a ++ d :: b) = some (a, b) := by
  induction a with
  | nil => simp [cutAt]
  | cons c cs ih =>
    have hc : c ≠ d := fun hc => h (by simp [hc])
    have hcs : d ∉ cs := fun hd => h (by simp [hd])
    simp [cutAt, hc, ih hcs]

/-- Behind `s` the mark stands at once, and nowhere earlier. -/
def Ends (mark s : Chars) : Prop := ¬ mark <:+: s ++ mark.dropLast

theorem ends_cons {mark s : Chars} {c : Char} :
    Ends mark (c :: s) ↔ ¬ mark <+: c :: s ++ mark ∧ Ends mark s := by
  have key : mark <+: c :: s ++ mark ↔ mark <+: c :: s ++ mark.dropLast := by
    have hl : mark.length ≤ (c :: s ++ mark.dropLast).length := by
      simp only [List.cons_append, List.length_cons, List.length_append, List.length_dropLast]
      omega
    have hp : c :: s ++ mark.dropLast <+: c :: s ++ mark :=
      (List.prefix_append_right_inj _).mpr (List.dropLast_prefix mark)
    exact ⟨fun h => List.prefix_of_prefix_length_le h hp hl, fun h => h.trans hp⟩
  rw [key]
  simp only [Ends, List.cons_append, List.infix_cons_iff, not_or]

theorem cutAtMark_eq_some {mark s a b : Chars} (hm : mark ≠ []) :
    cutAtMark mark s = some (a, b) ↔ s = a ++ (mark ++ b) ∧ Ends mark a := by
  induction s generalizing a with
  | nil =>
    simp only [cutAtMark, List.isEmpty_iff, hm, if_false, reduceCtorEq, false_iff, not_and]
    intro h
    simp [hm] at h
  | cons c cs ih =>
    cases hp : mark.isPrefixOf? (c :: cs) with
    | some rest =>
      simp only [cutAtMark, hp, Option.some.injEq, Prod.mk.injEq]
      have hs := List.isPrefixOf?_eq_some_iff_append_eq.mp hp
      constructor
      · rintro ⟨rfl, rfl⟩
        refine ⟨hs.symm, ?_⟩
        intro hi
        have := hi.length_le
        have := List.length_pos_iff.mpr hm
        simp only [List.nil_append, List.length_dropLast] at *
        omega
      · rintro ⟨h, he⟩
        cases a with
        | nil =>
          refine ⟨rfl, ?_⟩
          rw [← hs] at h
          simpa using h
        | cons d ds =>
          refine absurd ?_ (ends_cons.mp he).1
          have hd : mark <+: d :: ds ++ mark ++ b := by
            rw [List.append_assoc, ← h]
            exact ⟨rest, hs⟩
          refine List.prefix_of_prefix_length_le hd (List.prefix_append _ _) ?_
          simp only [List.length_append, List.length_cons]
          omega
    | none =>
      have hnot : ¬ mark <+: c :: cs := by
        rintro ⟨rest, hs⟩
        rw [List.isPrefixOf?_eq_some_iff_append_eq.mpr hs] at hp
        simp at hp
      simp only [cutAtMark, hp, Option.map_eq_some_iff, Prod.exists, Prod.mk.injEq]
      constructor
      · rintro ⟨a', b', h, rfl, rfl⟩
        obtain ⟨h, he⟩ := (ih (a := a')).mp h
        subst h
        refine ⟨rfl, ends_cons.mpr ⟨fun hpre => hnot ?_, he⟩⟩
        rw [← List.append_assoc, ← List.cons_append]
        exact hpre.trans (List.prefix_append _ _)
      · rintro ⟨h, he⟩
        cases a with
        | nil => exact absurd ⟨b, h.symm⟩ hnot
        | cons d ds =>
          simp only [List.cons_append, List.cons.injEq] at h
          exact ⟨ds, b, ih.mpr ⟨h.2, (ends_cons.mp he).2⟩, by rw [h.1], rfl⟩

section Pieces

variable {p : Char → Bool} {a : Chars}

theorem piecesBy_of_none (h : ∀ c ∈ a, p c = false) : piecesBy p a = [a] := by
  induction a with
  | nil => rfl
  | cons c a ih =>
    obtain ⟨hc, ha⟩ := List.forall_mem_cons.mp h
    simp [piecesBy, hc, ih ha]

theorem piecesBy_append (h : ∀ c ∈ a, p c = false) {d : Char} (hd : p d = true) (b : Chars) :
    piecesBy p (a ++ d :: b) = a :: piecesBy p b := by
  induction a with
  | nil => simp [piecesBy, hd]
  | cons c a ih =>
    obtain ⟨hc, ha⟩ := List.forall_mem_cons.mp h
    simp [piecesBy, hc, ih ha]

theorem piecesBy_joinWith {d : Char} (hd : p d = true) {ts : List Chars} (hne : ts ≠ [])
    (h : ∀ t ∈ ts, ∀ c ∈ t, p c = false) : piecesBy p (joinWith [d] ts) = ts := by
  induction ts with
  | nil => exact absurd rfl hne
  | cons t ts ih =>
    obtain ⟨ht, hts⟩ := List.forall_mem_cons.mp h
    cases ts with
    | nil => exact piecesBy_of_none ht
    | cons u us =>
      rw [joinWith, List.append_assoc, List.singleton_append, piecesBy_append ht hd,
        ih (by simp) hts]
      simp

theorem mem_piecesBy {s t : Chars} (h : t ∈ piecesBy p s) : ∀ c ∈ t, c ∈ s ∧ p c = false := by
  induction s generalizing t with
  | nil => simp_all [piecesBy]
  | cons c s ih =>
    have hrest {u : Chars} (hu : u ∈ piecesBy p s) : ∀ x ∈ u, x ∈ c :: s ∧ p x = false :=
      fun x hx => ⟨List.mem_cons_of_mem c (ih hu x hx).1, (ih hu x hx).2⟩
    rw [piecesBy] at h
    split_ifs at h with hc
    · obtain rfl | h := List.mem_cons.mp h
      · simp
      · exact hrest h
    · split at h
      · simp_all
      · rename_i u us hu
        obtain rfl | h := List.mem_cons.mp h
        · exact List.forall_mem_cons.mpr
            ⟨⟨List.mem_cons_self, by simpa using hc⟩, hrest (by simp [hu])⟩
        · exact hrest (by simp [hu, h])

theorem piecesBy_eq_splitOnP (p : Char → Bool) (s : Chars) : piecesBy p s = s.splitOnP p := by
  induction s with
  | nil => rfl
  | cons c s ih =>
    rw [piecesBy, List.splitOnP_cons_eq_if_modifyHead, ih]
    split_ifs
    · rfl
    · cases hs : s.splitOnP p with
      | nil => exact absurd hs (List.splitOnP_ne_nil p s)
      | cons t ts => rfl

theorem mem_joinWith {separator : Chars} {ts : List Chars} {c : Char}
    (h : c ∈ joinWith separator ts) : c ∈ separator ∨ ∃ t ∈ ts, c ∈ t := by
  induction ts using joinWith.induct with
  | case1 => simp [joinWith] at h
  | case2 t => exact .inr ⟨t, by simp, h⟩
  | case3 t ts hts ih =>
    rw [joinWith, List.mem_append, List.mem_append] at h
    · obtain (h | h) | h := h
      · exact .inr ⟨t, by simp, h⟩
      · exact .inl h
      · obtain h | ⟨u, hu, hc⟩ := ih h
        · exact .inl h
        · exact .inr ⟨u, by simp [hu], hc⟩
    · exact hts

end Pieces

end Text
end XamlFormat
