import XamlFormat.Proofs.Text.Cuts
import XamlFormat.Text.LineBreak

/-! Line ends: what is written with any line end is the same once the line ends are unified. -/
namespace XamlFormat
namespace Text

@[simp] theorem withLineEnds_nil (newLine : Chars) : withLineEnds newLine [] = [] := rfl

theorem withLineEnds_cons (newLine : Chars) (c : Char) (cs : Chars) :
    withLineEnds newLine (c :: cs) =
      (if c = '\n' then newLine else [c]) ++ withLineEnds newLine cs := rfl

theorem withLineEnds_eq_flatMap (newLine s : Chars) :
    withLineEnds newLine s = s.flatMap fun c => if c = '\n' then newLine else [c] := by
  induction s with
  | nil => rfl
  | cons c cs ih => rw [withLineEnds_cons, ih, List.flatMap_cons]

theorem withLineEnds_of_notMem {newLine s : Chars} (h : '\n' ∉ s) : withLineEnds newLine s = s := by
  induction s with
  | nil => rfl
  | cons c cs ih =>
    simp only [List.mem_cons, not_or] at h
    rw [withLineEnds_cons, if_neg (Ne.symm h.1), ih h.2]
    rfl

def OneLine (s : Chars) : Prop := '\n' ∉ s ∧ '\r' ∉ s

theorem oneLine_append {s t : Chars} : OneLine (s ++ t) ↔ OneLine s ∧ OneLine t := by
  simp only [OneLine, List.mem_append, not_or]
  tauto

theorem oneLine_replicate {c : Char} (hn : c ≠ '\n') (hr : c ≠ '\r') (n : Nat) :
    OneLine (List.replicate n c) :=
  ⟨fun h => hn (List.eq_of_mem_replicate h).symm, fun h => hr (List.eq_of_mem_replicate h).symm⟩

theorem OneLine.sublist {s t : Chars} (h : OneLine t) (hs : s.Sublist t) : OneLine s :=
  ⟨fun hm => h.1 (hs.subset hm), fun hm => h.2 (hs.subset hm)⟩

theorem withLineEnds_oneLine {newLine s : Chars} (h : OneLine s) : withLineEnds newLine s = s :=
  withLineEnds_of_notMem h.1

@[simp] theorem withLineEnds_lineBreak (newLine : Chars) : withLineEnds newLine ['\n'] = newLine := by
  simp [withLineEnds]

theorem withLineEnds_lineFeed_cons (newLine s : Chars) :
    withLineEnds newLine ('\n' :: s) = newLine ++ withLineEnds newLine s := by
  rw [withLineEnds_cons, if_pos rfl]

theorem withLineEnds_cons_of_ne {c : Char} (hc : c ≠ '\n') (newLine s : Chars) :
    withLineEnds newLine (c :: s) = c :: withLineEnds newLine s := by
  rw [withLineEnds_cons, if_neg hc, List.singleton_append]

theorem withLineEnds_flatMap {α : Type} (newLine : Chars) (l : List α) (f : α → Chars) :
    withLineEnds newLine (l.flatMap f) = l.flatMap fun a => withLineEnds newLine (f a) := by
  induction l with
  | nil => rfl
  | cons a l ih => rw [List.flatMap_cons, withLineEnds_append, ih, List.flatMap_cons]

theorem withLineEnds_lineFeed (s : Chars) : withLineEnds ['\n'] s = s := by
  induction s with
  | nil => rfl
  | cons c cs ih =>
    rw [withLineEnds_cons, ih]
    split_ifs with h
    · rw [h]
      rfl
    · rfl

theorem unifyLineEnds_cons {c : Char} (hc : c ≠ '\r') (cs : Chars) :
    unifyLineEnds (c :: cs) = c :: unifyLineEnds cs := by
  rw [unifyLineEnds.eq_def]
  split <;> simp_all

theorem unifyLineEnds_return {cs : Chars} (h : cs.head? ≠ some '\n') :
    unifyLineEnds ('\r' :: cs) = '\n' :: unifyLineEnds cs := by
  cases cs with
  | nil => rfl
  | cons d ds =>
    rw [unifyLineEnds, if_pos rfl]
    rintro es - hes
    simp_all

theorem unifyLineEnds_of_notMem {s : Chars} (h : '\r' ∉ s) : unifyLineEnds s = s := by
  induction s with
  | nil => rfl
  | cons c cs ih =>
    simp only [List.mem_cons, not_or] at h
    rw [unifyLineEnds_cons (Ne.symm h.1), ih h.2]

theorem unifyLineEnds_withLineEnds {newLine s : Chars} (hn : newLine = ['\n'] ∨ newLine = ['\r', '\n'])
    (h : '\r' ∉ s) : unifyLineEnds (withLineEnds newLine s) = s := by
  obtain rfl | rfl := hn
  · rw [withLineEnds_lineFeed, unifyLineEnds_of_notMem h]
  · induction s with
    | nil => rfl
    | cons c cs ih =>
      simp only [List.mem_cons, not_or] at h
      rw [withLineEnds_cons]
      split_ifs with hc
      · rw [hc]
        exact congrArg ('\n' :: ·) (ih h.2)
      · rw [List.singleton_append, unifyLineEnds_cons (Ne.symm h.1), ih h.2]

/-- Line ends are unified piece by piece, unless a cut goes through one. -/
theorem unifyLineEnds_append {a b : Chars} (h : a.getLast? ≠ some '\r' ∨ b.head? ≠ some '\n') :
    unifyLineEnds (a ++ b) = unifyLineEnds a ++ unifyLineEnds b := by
  fun_induction unifyLineEnds a with
  | case1 => rfl
  | case2 cs ih =>
    have hcs : cs.getLast? ≠ some '\r' ∨ b.head? ≠ some '\n' := by
      cases cs with
      | nil => simp
      | cons => simpa using h
    exact congrArg ('\n' :: ·) (ih hcs)
  | case3 c cs hcut ih =>
    have hcs : cs.getLast? ≠ some '\r' ∨ b.head? ≠ some '\n' := by
      cases cs with
      | nil => simp
      | cons => simpa using h
    by_cases hc : c = '\r'
    · have hhead : (cs ++ b).head? ≠ some '\n' := by
        cases cs with
        | nil => simpa [hc] using h
        | cons d ds => exact fun hd => hcut ds hc (by simpa using hd)
      rw [List.cons_append, hc, unifyLineEnds_return hhead, ih hcs]
      rfl
    · rw [List.cons_append, unifyLineEnds_cons hc, ih hcs, if_neg hc]
      rfl

theorem unifyLineEnds_oneLine_append {a : Chars} (h : OneLine a) (b : Chars) :
    unifyLineEnds (a ++ b) = a ++ unifyLineEnds b := by
  rw [unifyLineEnds_append (.inl fun hl => h.2 (List.mem_of_getLast? hl)),
    unifyLineEnds_of_notMem h.2]

theorem mem_unifyLineEnds {c : Char} {s : Chars} (h : c ∈ unifyLineEnds s) : c ∈ s ∨ c = '\n' := by
  fun_induction unifyLineEnds s with
  | case1 => exact .inl h
  | case2 cs ih =>
    obtain rfl | h := List.mem_cons.mp h
    · exact .inr rfl
    · exact (ih h).imp (by simp_all) id
  | case3 d cs _ ih =>
    obtain hd | h := List.mem_cons.mp h
    · split_ifs at hd
      · exact .inr hd
      · exact .inl (by simp [hd])
    · exact (ih h).imp (List.mem_cons_of_mem d) id

theorem unifyLineEnds_ne_nil {s : Chars} (h : s ≠ []) : unifyLineEnds s ≠ [] := by
  fun_induction unifyLineEnds s <;> simp_all

theorem notMem_unifyLineEnds (s : Chars) : '\r' ∉ unifyLineEnds s := by
  fun_induction unifyLineEnds s with
  | case1 => simp
  | case2 cs ih => simpa using ih
  | case3 c cs _ ih =>
    simp only [List.mem_cons, not_or]
    refine ⟨?_, ih⟩
    split_ifs with hc
    · decide
    · exact Ne.symm hc

end Text
end XamlFormat
