import XamlFormat.Proofs.Markup.Decode
import XamlFormat.Proofs.Text.Blanks
import XamlFormat.Extension.Reader

/-! Literals of markup extensions: which texts are read as literals, and that a literal that was read
once is read the same wherever a character follows that ends it. -/
namespace XamlFormat
namespace Extension

theorem looksLike_of_notMem {value : Chars} (h : '{' ∉ value) : looksLike value = false := by
  have htrim : '{' ∉ Text.trim value := fun hm => h ((Text.trim_sublist value).subset hm)
  unfold looksLike
  split <;> simp_all

theorem looksLike_of_read {value : Chars} {e : Extension} (h : read value = .ok e) :
    looksLike value = true := by
  by_contra hl
  rw [read, if_neg hl] at h
  cases h

/-- Induction along a literal, where a backslash and the character behind it come together. -/
theorem literal_induction {motive : Chars → Prop} (nil : motive []) (lone : motive ['\\'])
    (escaped : ∀ c cs, motive cs → motive ('\\' :: c :: cs))
    (char : ∀ c cs, c ≠ '\\' → motive cs → motive (c :: cs)) (s : Chars) : motive s := by
  induction hn : s.length using Nat.strong_induction_on generalizing s with
  | _ n ih =>
    subst hn
    obtain _ | ⟨c, cs⟩ := s
    · exact nil
    · by_cases hc : c = '\\'
      · subst hc
        obtain _ | ⟨d, ds⟩ := cs
        · exact lone
        · exact escaped d ds (ih _ (by simp only [List.length_cons]; omega) ds rfl)
      · exact char c cs hc (ih _ (by simp) cs rfl)

/-- What ends a literal outside quotes and inner braces. -/
def EndsLiteral (keyed : Bool) (c : Char) : Prop := c = '}' ∨ c = ',' ∨ (c = '=' ∧ keyed = true)

theorem EndsLiteral.ne_backslash {keyed : Bool} {c : Char} (h : EndsLiteral keyed c) :
    c ≠ '\\' := by
  obtain rfl | rfl | ⟨rfl, -⟩ := h <;> decide

/-- The open quote and the number of open braces behind a character; none where it ends the
literal. -/
def scanStep (keyed : Bool) (quote : Option Char) (depth : Nat) (c : Char) :
    Option (Option Char × Nat) :=
  match quote with
  | some q => some (if c = q then none else some q, depth)
  | none =>
    if c = '\'' ∨ c = '"' then some (some c, depth)
    else if c = '{' then some (none, depth + 1)
    else if c = '}' ∧ 0 < depth then some (none, depth - 1)
    else if depth = 0 ∧ (c = '}' ∨ c = ',' ∨ (c = '=' ∧ keyed = true)) then none
    else some (none, depth)

theorem scanLiteral_cons {c : Char} (hc : c ≠ '\\') (keyed : Bool) (quote : Option Char)
    (depth : Nat) (cs : Chars) :
    scanLiteral keyed quote depth (c :: cs) =
      match scanStep keyed quote depth c with
      | none => some ([], c :: cs)
      | some (quote, depth) =>
        (scanLiteral keyed quote depth cs).map fun p => (c :: p.1, p.2) := by
  rw [scanLiteral.eq_def]
  split
  · simp_all
  · simp_all
  · simp_all
  · rename_i heq
    cases heq
    cases quote with
    | some q => rfl
    | none =>
      simp only [scanStep]
      split_ifs <;> rfl

theorem scanLiteral_escaped (keyed : Bool) (quote : Option Char) (depth : Nat) (c : Char)
    (cs : Chars) :
    scanLiteral keyed quote depth ('\\' :: c :: cs) =
      (scanLiteral keyed quote depth cs).map fun p => ('\\' :: c :: p.1, p.2) := by
  rw [scanLiteral]

theorem scanStep_eq_none {keyed : Bool} {quote : Option Char} {depth : Nat} {c : Char} :
    scanStep keyed quote depth c = none ↔ quote = none ∧ depth = 0 ∧ EndsLiteral keyed c := by
  cases quote with
  | some q => simp [scanStep]
  | none =>
    simp only [scanStep, EndsLiteral, true_and]
    split_ifs with h1 h2 h3 h4
    · obtain rfl | rfl := h1 <;> simp
    · simp [h2]
    · simp only [false_iff, not_and]
      omega
    · simpa using h4
    · simpa using h4

/-- Scanning from the given state consumes the text up to where a literal may end. -/
def Scans (keyed : Bool) (quote : Option Char) (depth : Nat) (text : Chars) : Prop :=
  ∀ c rest, EndsLiteral keyed c →
    scanLiteral keyed quote depth (text ++ c :: rest) = some (text, c :: rest)

theorem scans_nil {keyed : Bool} {quote : Option Char} {depth : Nat}
    (h : Scans keyed quote depth []) : quote = none ∧ depth = 0 := by
  have h := h '}' [] (.inl rfl)
  rw [List.nil_append, scanLiteral_cons (by decide)] at h
  cases hs : scanStep keyed quote depth '}' with
  | none => exact ⟨(scanStep_eq_none.mp hs).1, (scanStep_eq_none.mp hs).2.1⟩
  | some state =>
    simp only [hs, Option.map_eq_some_iff] at h
    simp at h

theorem scans_of_end (keyed : Bool) : Scans keyed none 0 [] := by
  intro c rest hc
  rw [List.nil_append, scanLiteral_cons hc.ne_backslash, scanStep_eq_none.mpr ⟨rfl, rfl, hc⟩]

theorem scans_escaped {keyed : Bool} {quote : Option Char} {depth : Nat} {c : Char} {cs : Chars} :
    Scans keyed quote depth ('\\' :: c :: cs) ↔ Scans keyed quote depth cs := by
  refine forall_congr' fun d => forall_congr' fun rest => imp_congr_right fun _ => ?_
  simp [scanLiteral_escaped, Option.map_eq_some_iff]

theorem scans_char {keyed : Bool} {quote : Option Char} {depth : Nat} {c : Char} {cs : Chars}
    (hc : c ≠ '\\') :
    Scans keyed quote depth (c :: cs) ↔
      ∃ state, scanStep keyed quote depth c = some state ∧ Scans keyed state.1 state.2 cs := by
  have unfolded (d : Char) (rest : Chars) :
      scanLiteral keyed quote depth (c :: cs ++ d :: rest) = some (c :: cs, d :: rest) ↔
        ∃ state, scanStep keyed quote depth c = some state ∧
          scanLiteral keyed state.1 state.2 (cs ++ d :: rest) = some (cs, d :: rest) := by
    rw [List.cons_append, scanLiteral_cons hc]
    cases scanStep keyed quote depth c <;> simp [Option.map_eq_some_iff]
  constructor
  · intro h
    obtain ⟨state, hstate, -⟩ := (unfolded '}' []).mp (h '}' [] (.inl rfl))
    refine ⟨state, hstate, fun d rest hd => ?_⟩
    obtain ⟨state', hstate', h'⟩ := (unfolded d rest).mp (h d rest hd)
    rw [hstate] at hstate'
    cases hstate'
    exact h'
  · rintro ⟨state, hstate, h⟩ d rest hd
    exact (unfolded d rest).mpr ⟨state, hstate, h d rest hd⟩

theorem scanLiteral_append {keyed : Bool} {quote : Option Char} {depth : Nat} {s raw rest : Chars}
    (h : scanLiteral keyed quote depth s = some (raw, rest)) : s = raw ++ rest := by
  induction s using literal_induction generalizing quote depth raw with
  | nil =>
    simp only [scanLiteral, Option.ite_none_left_eq_some, Option.some.injEq, Prod.mk.injEq] at h
    obtain ⟨-, rfl, rfl⟩ := h
    rfl
  | lone => simp [scanLiteral] at h
  | escaped d cs ih =>
    simp only [scanLiteral_escaped, Option.map_eq_some_iff, Prod.mk.injEq, Prod.exists] at h
    obtain ⟨t, _, h, rfl, rfl⟩ := h
    rw [ih h]
    rfl
  | char d cs hd ih =>
    rw [scanLiteral_cons hd] at h
    cases hstep : scanStep keyed quote depth d with
    | none =>
      simp only [hstep, Option.some.injEq, Prod.mk.injEq] at h
      obtain ⟨rfl, rfl⟩ := h
      rfl
    | some state =>
      simp only [hstep, Option.map_eq_some_iff, Prod.mk.injEq, Prod.exists] at h
      obtain ⟨t, _, h, rfl, rfl⟩ := h
      rw [ih h]
      rfl

/-- A literal that a character ends is the text up to that character, and is scanned the same before
every other character that ends it. -/
theorem scanLiteral_spec {keyed : Bool} {quote : Option Char} {depth : Nat} {s raw rest : Chars}
    {c : Char} (h : scanLiteral keyed quote depth s = some (raw, c :: rest)) :
    s = raw ++ c :: rest ∧ EndsLiteral keyed c ∧ Scans keyed quote depth raw := by
  refine ⟨scanLiteral_append h, ?_⟩
  induction s using literal_induction generalizing quote depth raw with
  | nil => simp [scanLiteral] at h
  | lone => simp [scanLiteral] at h
  | escaped d cs ih =>
    simp only [scanLiteral_escaped, Option.map_eq_some_iff, Prod.mk.injEq, Prod.exists] at h
    obtain ⟨t, _, h, rfl, rfl⟩ := h
    obtain ⟨hc, hs⟩ := ih h
    exact ⟨hc, scans_escaped.mpr hs⟩
  | char d cs hd ih =>
    rw [scanLiteral_cons hd] at h
    cases hstep : scanStep keyed quote depth d with
    | none =>
      simp only [hstep, Option.some.injEq, Prod.mk.injEq] at h
      obtain ⟨rfl, hcons⟩ := h
      cases hcons
      obtain ⟨rfl, rfl, hend⟩ := scanStep_eq_none.mp hstep
      exact ⟨hend, scans_of_end keyed⟩
    | some state =>
      simp only [hstep, Option.map_eq_some_iff, Prod.mk.injEq, Prod.exists] at h
      obtain ⟨t, _, h, rfl, rfl⟩ := h
      obtain ⟨hc, hs⟩ := ih h
      exact ⟨hc, (scans_char hd).mpr ⟨state, hstep, hs⟩⟩

theorem trimLiteral_escaped (c : Char) (cs : Chars) :
    trimLiteral ('\\' :: c :: cs) = '\\' :: c :: trimLiteral cs := by
  rw [trimLiteral]

theorem trimLiteral_char {c : Char} (hc : c ≠ '\\') (cs : Chars) :
    trimLiteral (c :: cs) =
      if trimLiteral cs = [] then (if Text.isBlank c then [] else [c]) else c :: trimLiteral cs := by
  rw [trimLiteral.eq_def]
  split
  · simp_all
  · simp_all
  · rename_i heq
    cases heq
    split <;> simp_all

theorem trimLiteral_append (s : Chars) :
    ∃ gap, (∀ c ∈ gap, Text.isBlank c = true) ∧ s = trimLiteral s ++ gap := by
  induction s using literal_induction with
  | nil => exact ⟨[], by simp, rfl⟩
  | lone => exact ⟨[], by simp, rfl⟩
  | escaped c cs ih =>
    obtain ⟨gap, hgap, h⟩ := ih
    refine ⟨gap, hgap, ?_⟩
    rw [trimLiteral_escaped, List.cons_append, List.cons_append, ← h]
  | char c cs hc ih =>
    obtain ⟨gap, hgap, h⟩ := ih
    rw [trimLiteral_char hc]
    split_ifs with h1 h2
    · rw [h1, List.nil_append] at h
      exact ⟨c :: cs, by simpa [h2, h] using hgap, rfl⟩
    · rw [h1, List.nil_append] at h
      exact ⟨cs, by simpa [h] using hgap, rfl⟩
    · exact ⟨gap, hgap, by rw [List.cons_append, ← h]⟩

theorem trimLiteral_isPrefix (s : Chars) : trimLiteral s <+: s := by
  obtain ⟨gap, -, h⟩ := trimLiteral_append s
  exact ⟨gap, h.symm⟩

theorem trimLiteral_trimLiteral (s : Chars) : trimLiteral (trimLiteral s) = trimLiteral s := by
  induction s using literal_induction with
  | nil => rfl
  | lone => rfl
  | escaped c cs ih => simp [trimLiteral_escaped, ih]
  | char c cs hc ih =>
    rw [trimLiteral_char hc]
    split_ifs with h1 h2
    · rfl
    · rw [trimLiteral_char hc]
      simp [trimLiteral, h2]
    · rw [trimLiteral_char hc, ih, if_neg h1]

theorem scanStep_blank {keyed : Bool} {quote : Option Char} {depth : Nat} {c : Char}
    (hq : ∀ q ∈ quote, Text.isBlank q = false) (hc : Text.isBlank c = true)
    {state : Option Char × Nat} (h : scanStep keyed quote depth c = some state) :
    state = (quote, depth) := by
  have ne {d : Char} (hd : Text.isBlank d = false) : c ≠ d := by
    rintro rfl
    simp [hc] at hd
  cases quote with
  | some q => simp_all [scanStep, ne (hq q rfl)]
  | none =>
    have h1 := ne (d := '\'') (by decide)
    have h2 := ne (d := '"') (by decide)
    have h3 := ne (d := '{') (by decide)
    have h4 := ne (d := '}') (by decide)
    have h5 := ne (d := ',') (by decide)
    have h6 := ne (d := '=') (by decide)
    simp_all [scanStep]

theorem blank_scanStep {keyed : Bool} {quote : Option Char} {depth : Nat} {c : Char}
    {state : Option Char × Nat} (hq : ∀ q ∈ quote, Text.isBlank q = false)
    (h : scanStep keyed quote depth c = some state) : ∀ q ∈ state.1, Text.isBlank q = false := by
  cases quote with
  | some q =>
    simp only [scanStep, Option.some.injEq] at h
    subst h
    dsimp only
    split_ifs
    · simp
    · exact hq
  | none =>
    simp only [scanStep] at h
    split_ifs at h with h1 <;> cases h
    · obtain rfl | rfl := h1 <;> simp <;> decide
    all_goals simp

theorem Scans.trim {keyed : Bool} {quote : Option Char} {depth : Nat} {s : Chars}
    (hq : ∀ q ∈ quote, Text.isBlank q = false) (h : Scans keyed quote depth s) :
    Scans keyed quote depth (trimLiteral s) := by
  induction s using literal_induction generalizing quote depth with
  | nil => exact h
  | lone => exact h
  | escaped c cs ih =>
    rw [trimLiteral_escaped, scans_escaped]
    exact ih hq (scans_escaped.mp h)
  | char c cs hc ih =>
    obtain ⟨state, hstate, hs⟩ := (scans_char hc).mp h
    have hs := ih (blank_scanStep hq hstate) hs
    rw [trimLiteral_char hc]
    split_ifs with h1 h2
    · rw [scanStep_blank hq h2 hstate, h1] at hs
      exact hs
    · rw [h1] at hs
      exact (scans_char hc).mpr ⟨state, hstate, hs⟩
    · exact (scans_char hc).mpr ⟨state, hstate, hs⟩

/-- A text that is read as a literal, or as a key where an equals sign follows. -/
structure IsLiteral (keyed : Bool) (text : Chars) : Prop where
  ne_nil : text ≠ []
  scans : Scans keyed none 0 text
  trimmed : trimLiteral text = text
  halts : Text.Halts Text.isBlank text
  plain : ∀ rest, opensNested (text ++ rest) = false

theorem readLiteral_complete {keyed : Bool} {text rest : Chars} {c : Char}
    (h : IsLiteral keyed text) (hc : EndsLiteral keyed c) :
    readLiteral keyed (text ++ c :: rest) = .ok (text, c :: rest) := by
  rw [readLiteral, h.scans c rest hc]
  simp only [h.trimmed]

theorem opensNested_eq_true {s : Chars} :
    opensNested s = true ↔ ∃ t, s = '{' :: t ∧ t.head? ≠ some '}' := by
  unfold opensNested
  split <;> simp_all [List.head?_eq_some_iff]

theorem readLiteral_sound {keyed : Bool} {s text rest : Chars} {c : Char}
    (h : readLiteral keyed s = .ok (text, c :: rest)) (hne : text ≠ [])
    (hs : Text.Halts Text.isBlank s) (hn : opensNested s = false) :
    IsLiteral keyed text ∧ EndsLiteral keyed c := by
  unfold readLiteral at h
  split at h
  · simp at h
  · rename_i raw rest' hscan
    simp only [Except.ok.injEq, Prod.mk.injEq] at h
    obtain ⟨rfl, rfl⟩ := h
    obtain ⟨rfl, hc, hscans⟩ := scanLiteral_spec hscan
    have hscans := hscans.trim (by simp)
    have hprefix : trimLiteral raw <+: raw ++ c :: rest :=
      (trimLiteral_isPrefix raw).trans (List.prefix_append _ _)
    obtain ⟨more, hmore⟩ := hprefix
    refine ⟨⟨hne, hscans, trimLiteral_trimLiteral raw, ?_, ?_⟩, hc⟩
    · intro d hd
      refine hs d ?_
      rw [← hmore]
      exact List.mem_head?_append_of_mem_head? hd
    · intro tail
      by_contra hopen
      obtain ⟨t, ht, htail⟩ := opensNested_eq_true.mp (Bool.eq_true_of_not_eq_false hopen)
      cases htrim : trimLiteral raw with
      | nil => exact hne htrim
      | cons d ds =>
        rw [htrim] at ht hmore hscans
        simp only [List.cons_append, List.cons.injEq] at ht
        obtain ⟨rfl, rfl⟩ := ht
        cases ds with
        | nil =>
          obtain ⟨state, hstate, hend⟩ := (scans_char (by decide)).mp hscans
          have := scans_nil hend
          simp [scanStep] at hstate
          simp [← hstate] at this
        | cons e es =>
          have : opensNested (raw ++ c :: rest) = true := by
            rw [← hmore]
            exact opensNested_eq_true.mpr ⟨_, rfl, by simpa using htail⟩
          simp [this] at hn

end Extension
end XamlFormat
