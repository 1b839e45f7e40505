import XamlFormat.Proofs.Text.Cuts
import XamlFormat.Markup.Reader

/-! References seen character by character. What a text decodes to does not depend on where it
stands, two texts that decode do so side by side, and an escaped text decodes to what was
escaped. -/
namespace XamlFormat
variable {ε α β : Type}

theorem bind_eq_ok {x : Except ε α} {f : α → Except ε β} {b : β} :
    x >>= f = .ok b ↔ ∃ a, x = .ok a ∧ f a = .ok b := by
  cases x <;> simp [bind, Except.bind]

theorem bind_eq_error {x : Except ε α} {f : α → Except ε β} {e : ε} :
    x >>= f = .error e ↔ x = .error e ∨ ∃ a, x = .ok a ∧ f a = .error e := by
  cases x <;> simp [bind, Except.bind]

theorem map_eq_ok {x : Except ε α} {f : α → β} {b : β} :
    f <$> x = .ok b ↔ ∃ a, x = .ok a ∧ f a = b := by
  cases x <;> simp [Functor.map, Except.map]

theorem map_eq_error {x : Except ε α} {f : α → β} {e : ε} : f <$> x = .error e ↔ x = .error e := by
  cases x <;> simp [Functor.map, Except.map]

namespace Reference

open Text

@[simp] theorem decode_nil : decode [] = .ok [] := by
  simp [decode, decodeFrom]

/-- A text that decodes at one place decodes to the same at every other. -/
theorem decodeFrom_eq_ok {pos : Nat} {s v : Chars} (h : decodeFrom pos s = .ok v) (pos' : Nat) :
    decodeFrom pos' s = .ok v := by
  fun_induction decodeFrom pos s generalizing pos' v with
  | case1 => simpa [decodeFrom] using h
  | case2 => simp at h
  | case3 => simp at h
  | case4 pos cs name rest hcut d hd ih =>
    obtain ⟨u, hu, rfl⟩ := map_eq_ok.mp h
    rw [decodeFrom, if_pos rfl]
    split <;> rename_i heq <;> simp only [hcut, reduceCtorEq, Option.some.injEq, Prod.mk.injEq] at heq
    obtain ⟨rfl, rfl⟩ := heq
    simp only [hd]
    exact map_eq_ok.mpr ⟨u, ih hu _, rfl⟩
  | case5 pos c cs hc ih =>
    obtain ⟨u, hu, rfl⟩ := map_eq_ok.mp h
    rw [decodeFrom, if_neg hc]
    exact map_eq_ok.mpr ⟨u, ih hu _, rfl⟩

theorem decode_cons {c : Char} (hc : c ≠ '&') {s v : Chars} :
    decode (c :: s) = .ok v ↔ ∃ u, decode s = .ok u ∧ c :: u = v := by
  rw [decode, decodeFrom, if_neg hc, map_eq_ok]
  exact exists_congr fun u => and_congr_left' ⟨fun h => decodeFrom_eq_ok h 0, fun h => decodeFrom_eq_ok h _⟩

theorem decode_reference {name : Chars} {d : Char} (hn : ';' ∉ name) (hd : resolve name = some d)
    {s v : Chars} :
    decode ('&' :: (name ++ ';' :: s)) = .ok v ↔ ∃ u, decode s = .ok u ∧ d :: u = v := by
  have hcut := cutAt_append s hn
  rw [decode, decodeFrom, if_pos rfl]
  split <;> rename_i heq <;> simp only [hcut, reduceCtorEq, Option.some.injEq, Prod.mk.injEq] at heq
  obtain ⟨rfl, rfl⟩ := heq
  simp only [hd]
  rw [map_eq_ok]
  exact exists_congr fun u => and_congr_left' ⟨fun h => decodeFrom_eq_ok h 0, fun h => decodeFrom_eq_ok h _⟩

/-- The text decodes to the value: an ordinary character or a reference comes first. -/
inductive Decodes : Chars → Chars → Prop
  | nil : Decodes [] []
  | char {c : Char} {s v : Chars} (hc : c ≠ '&') (h : Decodes s v) : Decodes (c :: s) (c :: v)
  | reference {name : Chars} {d : Char} {s v : Chars} (hn : ';' ∉ name)
    (hd : resolve name = some d) (h : Decodes s v) :
    Decodes ('&' :: (name ++ ';' :: s)) (d :: v)

theorem decode_eq_ok_iff {s v : Chars} : decode s = .ok v ↔ Decodes s v := by
  constructor
  · intro h
    rw [decode] at h
    generalize 0 = pos at h
    fun_induction decodeFrom pos s generalizing v with
    | case1 =>
      cases h
      exact .nil
    | case2 => simp at h
    | case3 => simp at h
    | case4 pos cs name rest hcut d hd ih =>
      obtain ⟨u, hu, rfl⟩ := map_eq_ok.mp h
      rw [eq_of_cutAt hcut]
      exact .reference (notMem_of_cutAt hcut) hd (ih hu)
    | case5 pos c cs hc ih =>
      obtain ⟨u, hu, rfl⟩ := map_eq_ok.mp h
      exact .char hc (ih hu)
  · intro h
    induction h with
    | nil => simp
    | char hc _ ih => exact (decode_cons hc).mpr ⟨_, ih, rfl⟩
    | reference hn hd _ ih => exact (decode_reference hn hd).mpr ⟨_, ih, rfl⟩

theorem decode_append {a b u v : Chars} (ha : decode a = .ok u) (hb : decode b = .ok v) :
    decode (a ++ b) = .ok (u ++ v) := by
  induction decode_eq_ok_iff.mp ha with
  | nil => exact hb
  | char hc h ih => exact (decode_cons hc).mpr ⟨_, ih (decode_eq_ok_iff.mpr h), rfl⟩
  | reference hn hd h ih =>
    rw [List.cons_append, List.append_assoc]
    exact (decode_reference hn hd).mpr ⟨_, ih (decode_eq_ok_iff.mpr h), rfl⟩

theorem decode_ne_nil {s v : Chars} (h : decode s = .ok v) (hs : s ≠ []) : v ≠ [] := by
  cases decode_eq_ok_iff.mp h with
  | nil => exact hs
  | char | reference => simp

theorem decode_plain {s : Chars} (h : '&' ∉ s) : decode s = .ok s := by
  induction s with
  | nil => simp
  | cons c s ih =>
    simp only [List.mem_cons, not_or] at h
    exact (decode_cons (Ne.symm h.1)).mpr ⟨s, ih h.2, rfl⟩

theorem decode_flatMap {f : Char → Chars} {s : Chars} (h : ∀ c ∈ s, decode (f c) = .ok [c]) :
    decode (s.flatMap f) = .ok s := by
  induction s with
  | nil => simp
  | cons c s ih =>
    rw [List.flatMap_cons]
    exact decode_append (h c (by simp)) (ih fun d hd => h d (by simp [hd]))

theorem decode_named (name : Chars) {d : Char} (hn : ';' ∉ name) (hd : resolve name = some d) :
    decode ('&' :: (name ++ [';'])) = .ok [d] :=
  (decode_reference hn hd).mpr ⟨[], decode_nil, rfl⟩

section Escapes

/-- The characters that are special between double quotes or between tags, the ampersand apart. -/
def special : Chars := ['"', '<', '>', '\t', '\n', '\r']

/-- How a character is written: as it is where `kept` holds of it, or as a reference to it. -/
inductive Written (kept : Char → Prop) (c : Char) : Chars → Prop
  | asIs (h : kept c) : Written kept c [c]
  | reference (name : Chars) (hn : ∀ d ∈ ';' :: special, d ∉ name) (hr : resolve name = some c) :
    Written kept c ('&' :: (name ++ [';']))

variable {kept : Char → Prop} {c : Char} {s : Chars}

theorem Written.decode (h : Written kept c s) (hk : ¬ kept '&') :
    Reference.decode s = .ok [c] := by
  cases h with
  | asIs h =>
    refine decode_plain fun hm => hk ?_
    rwa [List.mem_singleton.mp hm]
  | reference name hn hr => exact decode_named name (hn _ List.mem_cons_self) hr

theorem Written.eq_of_mem (h : Written kept c s) {d : Char} (hd : d ∈ special) (hm : d ∈ s) :
    d = c ∧ kept c := by
  cases h with
  | asIs h => exact ⟨List.mem_singleton.mp hm, h⟩
  | reference name hn hr =>
    simp only [List.mem_cons, List.mem_append, List.not_mem_nil, or_false] at hm
    obtain rfl | hm | rfl := hm
    · exact absurd hd (by decide)
    · exact absurd hm (hn d (List.mem_cons_of_mem _ hd))
    · exact absurd hd (by decide)

theorem decode_written {f : Char → Chars} (h : ∀ c, Written kept c (f c)) (hk : ¬ kept '&')
    (v : Chars) : decode (v.flatMap f) = .ok v :=
  decode_flatMap fun c _ => (h c).decode hk

theorem mem_written {f : Char → Chars} (h : ∀ c, Written kept c (f c)) {d : Char} {v : Chars}
    (hd : d ∈ special) (hm : d ∈ v.flatMap f) : d ∈ v ∧ kept d := by
  obtain ⟨c, hc, hm⟩ := List.mem_flatMap.mp hm
  obtain ⟨rfl, hk⟩ := (h c).eq_of_mem hd hm
  exact ⟨hc, hk⟩

def KeptInText (c : Char) : Prop := c ∉ ['&', '<', '>']

theorem written_escapeTextChar (c : Char) : Written KeptInText c (escapeTextChar c) := by
  unfold escapeTextChar
  split
  · exact .reference ['a', 'm', 'p'] (by simp [special]) (by decide)
  · exact .reference ['l', 't'] (by simp [special]) (by decide)
  · exact .reference ['g', 't'] (by simp [special]) (by decide)
  · exact .asIs (by simp_all [KeptInText])

def KeptInAttribute (unescaped : Chars) (c : Char) : Prop :=
  c ∉ ['&', '"'] ∧ (c ∈ ['<', '>', '\t', '\n', '\r'] → c ∈ unescaped)

theorem written_escapeAttributeChar (unescaped : Chars) (c : Char) :
    Written (KeptInAttribute unescaped) c (escapeAttributeChar unescaped c) := by
  have listed {d : Char} {t : Chars} (hd : d ∉ ['&', '"'])
      (ht : Written (KeptInAttribute unescaped) d t) :
      Written (KeptInAttribute unescaped) d (if unescaped.contains d then [d] else t) := by
    split_ifs with hu
    · exact .asIs ⟨hd, fun _ => by simpa using hu⟩
    · exact ht
  unfold escapeAttributeChar
  split
  · exact .reference ['a', 'm', 'p'] (by simp [special]) (by decide)
  · exact .reference ['q', 'u', 'o', 't'] (by simp [special]) (by decide)
  · exact listed (by decide) (.reference ['l', 't'] (by simp [special]) (by decide))
  · exact listed (by decide) (.reference ['g', 't'] (by simp [special]) (by decide))
  · exact listed (by decide) (.reference ['#', 'x', 'A'] (by simp [special]) (by decide))
  · exact listed (by decide) (.reference ['#', 'x', 'D'] (by simp [special]) (by decide))
  · exact listed (by decide) (.reference ['#', 'x', '9'] (by simp [special]) (by decide))
  · exact .asIs (by simp_all [KeptInAttribute])

theorem decode_escapeText (v : Chars) : decode (escapeText v) = .ok v :=
  decode_written written_escapeTextChar (by simp [KeptInText]) v

theorem notMem_escapeText_of_mem {d : Char} (hd : d ∈ ['<', '>']) (v : Chars) :
    d ∉ escapeText v := by
  have hspecial : d ∈ special := by
    simp only [special, List.mem_cons] at hd ⊢
    tauto
  intro hm
  exact (mem_written written_escapeTextChar hspecial hm).2 (List.mem_cons_of_mem _ hd)

theorem notMem_escapeAttribute (unescaped v : Chars) : '"' ∉ escapeAttribute unescaped v :=
  fun hm => (mem_written (written_escapeAttributeChar unescaped) (by decide) hm).2.1 (by simp)

/-- A bracket, tab or line end stands in an escaped value only where it is listed. -/
theorem mem_unescaped {d : Char} (hd : d ∈ ['<', '>', '\t', '\n', '\r']) {unescaped v : Chars}
    (hm : d ∈ escapeAttribute unescaped v) : d ∈ unescaped :=
  (mem_written (written_escapeAttributeChar unescaped) (List.mem_cons_of_mem _ hd) hm).2.2 hd

/-- Decoding undoes both escapes, whichever characters are left as they are, and what has a meaning
of its own at the place is not in the escaped text. -/
theorem escapes_undone (unescaped v : Chars) :
    decode (escapeAttribute unescaped v) = .ok v ∧ decode (escapeText v) = .ok v ∧
      '"' ∉ escapeAttribute unescaped v ∧
      (∀ c ∈ ['<', '>', '\t', '\n', '\r'], c ∈ escapeAttribute unescaped v → c ∈ unescaped) ∧
      '<' ∉ escapeText v ∧ '>' ∉ escapeText v :=
  ⟨decode_written (written_escapeAttributeChar unescaped) (by simp [KeptInAttribute]) v,
    decode_escapeText v, notMem_escapeAttribute unescaped v, fun _ hc hm => mem_unescaped hc hm,
    notMem_escapeText_of_mem (by simp) v, notMem_escapeText_of_mem (by simp) v⟩

/-- A value that looks like a reference, with an ampersand and a line feed on the list. -/
theorem escapes_undone_sample :
    escapeAttribute ['&', '\n'] "&lt;\n\t\"".toList = "&amp;lt;\n&#x9;&quot;".toList ∧
      decode (escapeAttribute ['&', '\n'] "&lt;\n\t\"".toList) = .ok "&lt;\n\t\"".toList ∧
      ('\n' ∈ ['<', '>', '\t', '\n', '\r'] ∧
        '\n' ∈ escapeAttribute ['&', '\n'] "&lt;\n\t\"".toList ∧ '\n' ∈ ['&', '\n']) := by
  obtain ⟨hdecode, -, -, hlisted, -⟩ := escapes_undone ['&', '\n'] "&lt;\n\t\"".toList
  exact ⟨by decide, hdecode, by decide, by decide, hlisted '\n' (by decide) (by decide)⟩

/-- Tabs and line ends are written as references. -/
def EscapesLineEnds (unescaped : Chars) : Prop :=
  '\t' ∉ unescaped ∧ '\n' ∉ unescaped ∧ '\r' ∉ unescaped

theorem flattenValue_escapeAttribute {unescaped : Chars} (h : EscapesLineEnds unescaped) (v : Chars) :
    Markup.flattenValue (escapeAttribute unescaped v) = escapeAttribute unescaped v := by
  obtain ⟨ht, hn, hr⟩ := h
  refine (List.map_congr_left fun c hc => if_neg ?_).trans (List.map_id _)
  rintro (rfl | rfl | rfl)
  · exact ht (mem_unescaped (by simp) hc)
  · exact hn (mem_unescaped (by simp) hc)
  · exact hr (mem_unescaped (by simp) hc)

theorem decode_escapeAttribute {unescaped : Chars} (h : EscapesLineEnds unescaped) (v : Chars) :
    decode (Markup.flattenValue (escapeAttribute unescaped v)) = .ok v := by
  rw [flattenValue_escapeAttribute h]
  exact decode_written (written_escapeAttributeChar unescaped) (by simp [KeptInAttribute]) v

end Escapes

end Reference
end XamlFormat
