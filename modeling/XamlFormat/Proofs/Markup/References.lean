import XamlFormat.Proofs.Markup.Decode

/-! The grammar of references, told without the decoder, and where the decoder follows it. Five names
and the character codes in decimal and hexadecimal digits are references. The decoder takes one thing
more, a plus sign in front of a code; up to the first such reference it accepts, replaces and refuses
exactly what the grammar says. -/
namespace XamlFormat
namespace Reference

open Text

section Grammar

/-- The character is the digit `d` of the base, a letter in either case. -/
def IsDigit (base : Nat) (c : Char) (d : Nat) : Prop := d < base ∧ c.toLower = d.digitChar

/-- One or more digits of the base, the highest first, that make up the number. -/
def IsNumeral (base : Nat) (text : Chars) (n : Nat) : Prop :=
  text ≠ [] ∧ ∃ digits, List.Forall₂ (IsDigit base) text digits ∧
    n = Nat.ofDigits base digits.reverse

/-- A numeral. Where codes are `signed` it may follow a plus sign. -/
def IsCode (signed : Bool) (base : Nat) (text : Chars) (n : Nat) : Prop :=
  IsNumeral base text n ∨ signed = true ∧ ∃ digits, text = '+' :: digits ∧ IsNumeral base digits n

/-- The text between `&` and `;` stands for the character. -/
inductive Denotes (signed : Bool) : Chars → Char → Prop
  | amp : Denotes signed "amp".toList '&'
  | lt : Denotes signed "lt".toList '<'
  | gt : Denotes signed "gt".toList '>'
  | quot : Denotes signed "quot".toList '"'
  | apos : Denotes signed "apos".toList '\''
  | decimal {code : Chars} {c : Char} (h : IsCode signed 10 code c.toNat) (hc : c ≠ '\x00') :
    Denotes signed ('#' :: code) c
  | hexadecimal {code : Chars} {c : Char} (h : IsCode signed 16 code c.toNat) (hc : c ≠ '\x00') :
    Denotes signed ('#' :: 'x' :: code) c

/-- What follows an `&` makes it a reference. -/
def StartsReference (signed : Bool) (behind : Chars) : Prop :=
  ∃ name c rest, Denotes signed name c ∧ behind = name ++ ';' :: rest

def AllReferences (signed : Bool) (raw : Chars) : Prop :=
  ∀ behind, '&' :: behind <:+ raw → StartsReference signed behind

/-- The `&` behind `before` is the first that starts no reference. -/
structure FirstStray (signed : Bool) (raw before behind : Chars) : Prop where
  parts : raw = before ++ '&' :: behind
  stray : ¬ StartsReference signed behind
  first : ∀ other, '&' :: other <:+ raw → behind.length < other.length → StartsReference signed other

inductive Replaced (signed : Bool) : Chars → Chars → Prop
  | nil : Replaced signed [] []
  | char {c : Char} {s v : Chars} (hc : c ≠ '&') (h : Replaced signed s v) :
    Replaced signed (c :: s) (c :: v)
  | reference {name : Chars} {c : Char} {s v : Chars} (hn : Denotes signed name c)
    (h : Replaced signed s v) : Replaced signed ('&' :: (name ++ ';' :: s)) (c :: v)

/-- The result of decoding is the one that the grammar asks for. -/
structure Obeys (signed : Bool) (raw : Chars) (result : Except Invalid Chars) : Prop where
  accepts : (∃ v, result = .ok v) ↔ AllReferences signed raw
  replaces : ∀ v, result = .ok v → Replaced signed raw v
  locates : ∀ e, result = .error e →
    ∃ before behind, FirstStray signed raw before behind ∧ e.offset = byteLength before

end Grammar

section Names

theorem toLower_of_large {c : Char} (hc : ¬ c.toNat < 128) : c.toLower = c := by
  rw [Char.toLower, dif_neg]
  rintro ⟨-, h⟩
  have hle : c.toNat ≤ 'Z'.toNat := h
  exact hc (hle.trans_lt (by decide))

theorem digitValue_eq_some_iff {c : Char} {d : Nat} : digitValue c = some d ↔ IsDigit 16 c d := by
  by_cases hc : c.toNat < 128
  · have ascii : ∀ n < 128, (∀ d ∈ digitValue (Char.ofNat n), d < 16) ∧
        ∀ d < 16, digitValue (Char.ofNat n) = some d ↔ (Char.ofNat n).toLower = d.digitChar := by
      decide +kernel
    obtain ⟨hlt, hiff⟩ := ascii c.toNat hc
    rw [Char.ofNat_toNat] at hlt hiff
    exact ⟨fun h => ⟨hlt d h, (hiff d (hlt d h)).mp h⟩, fun h => (hiff d h.1).mpr h.2⟩
  · have hle {a : Char} (ha : a.toNat < 128) : ¬ c ≤ a := fun h => hc (lt_of_le_of_lt h ha)
    have hnone : digitValue c = none := by
      simp [digitValue, hle (show '9'.toNat < 128 by decide), hle (show 'f'.toNat < 128 by decide),
        hle (show 'F'.toNat < 128 by decide)]
    have hdigit : ¬ IsDigit 16 c d := by
      rintro ⟨hd, h⟩
      have small : ∀ d < 16, d.digitChar.toNat < 128 := by decide
      rw [toLower_of_large hc] at h
      exact hc (h ▸ small d hd)
    simp [hnone, hdigit]

theorem IsDigit.digitValue {base : Nat} (hb : base ≤ 16) {c : Char} {d : Nat} (h : IsDigit base c d) :
    digitValue c = some d :=
  digitValue_eq_some_iff.mpr ⟨h.1.trans_le hb, h.2⟩

theorem readDigits_cons {base value n : Nat} (hb : base ≤ 16) {c : Char} {cs : Chars} :
    readDigits base value (c :: cs) = some n ↔
      ∃ d, IsDigit base c d ∧ readDigits base (value * base + d) cs = some n := by
  have hdigit (d : Nat) : IsDigit base c d ↔ digitValue c = some d ∧ d < base :=
    ⟨fun h => ⟨h.digitValue hb, h.1⟩, fun h => ⟨h.2, (digitValue_eq_some_iff.mp h.1).2⟩⟩
  simp only [hdigit, readDigits]
  cases digitValue c with
  | none => simp
  | some d => by_cases hd : d < base <;> simp [hd]

/-- The value read so far counts as one more digit in front. -/
theorem readDigits_eq_some_iff {base value n : Nat} (hb : base ≤ 16) {s : Chars} :
    readDigits base value s = some n ↔ ∃ digits, List.Forall₂ (IsDigit base) s digits ∧
      n = Nat.ofDigits base (digits.reverse ++ [value]) := by
  induction s generalizing value with
  | nil => simp [readDigits, eq_comm]
  | cons c cs ih =>
    have horner (d : Nat) (digits : List Nat) :
        Nat.ofDigits base (digits.reverse ++ [value * base + d]) =
          Nat.ofDigits base ((d :: digits).reverse ++ [value]) := by
      simp [Nat.ofDigits_append, Nat.ofDigits_cons, mul_comm, add_comm]
    simp only [readDigits_cons hb, ih, List.forall₂_cons_left_iff]
    constructor
    · rintro ⟨d, hd, digits, hdigits, rfl⟩
      exact ⟨d :: digits, ⟨d, digits, hd, hdigits, rfl⟩, horner d digits⟩
    · rintro ⟨_, ⟨d, digits, hd, hdigits, rfl⟩, rfl⟩
      exact ⟨d, hd, digits, hdigits, (horner d digits).symm⟩

theorem readDigits_zero {base n : Nat} (hb : base ≤ 16) {s : Chars} (hs : s ≠ []) :
    readDigits base 0 s = some n ↔ IsNumeral base s n := by
  rw [readDigits_eq_some_iff hb, IsNumeral]
  simp [hs, Nat.ofDigits_append]

theorem IsNumeral.digitValue_of_mem {base n : Nat} (hb : base ≤ 16) {text : Chars}
    (h : IsNumeral base text n) : ∀ c ∈ text, ∃ d, digitValue c = some d := by
  obtain ⟨-, digits, hdigits, -⟩ := h
  induction hdigits with
  | nil => simp
  | cons hd _ ih => exact List.forall_mem_cons.mpr ⟨⟨_, hd.digitValue hb⟩, ih⟩

theorem not_isNumeral {base n : Nat} (hb : base ≤ 16) {c : Char} {cs : Chars}
    (hc : digitValue c = none) : ¬ IsNumeral base (c :: cs) n := by
  intro h
  obtain ⟨d, hd⟩ := h.digitValue_of_mem hb c List.mem_cons_self
  simp [hc] at hd

theorem readCode_eq_some_iff {base n : Nat} (hb : base ≤ 16) {text : Chars} :
    readCode base text = some n ↔ IsCode true base text n := by
  have hplus (digits : Chars) : ¬ IsNumeral base ('+' :: digits) n := not_isNumeral hb (by decide)
  have hnil : ¬ IsNumeral base [] n := fun h => h.1 rfl
  unfold readCode
  split
  · simp [IsCode, hnil]
  · simp [IsCode, hplus, hnil]
  · rename_i digits hne
    rw [readDigits_zero hb (by simpa using hne)]
    simp [IsCode, hplus]
  · rename_i hne _ hfirst
    rw [readDigits_zero hb hne]
    simp only [IsCode, true_and]
    exact ⟨.inl, fun h => h.resolve_right fun ⟨digits, he, _⟩ => hfirst digits he⟩

theorem ofCode_eq_some_iff {n : Nat} {c : Char} :
    ofCode n = some c ↔ n = c.toNat ∧ c ≠ '\x00' := by
  have hzero : c.toNat = 0 ↔ c = '\x00' :=
    ⟨fun h => by rw [← Char.ofNat_toNat c, h], fun h => by rw [h]; rfl⟩
  unfold ofCode
  split_ifs with h
  · rw [Option.some.injEq]
    constructor
    · rintro rfl
      rw [Ne, ← hzero, Char.toNat_ofNat, if_pos h.1]
      exact ⟨rfl, h.2⟩
    · rintro ⟨rfl, -⟩
      exact Char.ofNat_toNat c
  · simp only [false_iff, not_and, not_not]
    rintro rfl
    by_contra hne
    exact h ⟨c.valid, fun h0 => hne (hzero.mp h0)⟩

theorem resolveCode_code {base : Nat} (hb : base ≤ 16) {code : Chars} {c : Char} :
    (readCode base code).bind ofCode = some c ↔ IsCode true base code c.toNat ∧ c ≠ '\x00' := by
  simp [Option.bind_eq_some_iff, readCode_eq_some_iff hb, ofCode_eq_some_iff]

/-- The decoder resolves the references of the grammar in which codes may have a sign. -/
theorem resolve_eq_some_iff {name : Chars} {c : Char} :
    resolve name = some c ↔ Denotes true name c := by
  constructor
  · intro h
    unfold resolve at h
    split at h
    · rename_i d hd
      cases h
      obtain ⟨l₁, l₂, hl, -⟩ := List.lookup_eq_some_iff.mp hd
      have hmem : (name, c) ∈ named := by simp [hl]
      simp only [named, List.mem_cons, Prod.mk.injEq, List.not_mem_nil, or_false] at hmem
      obtain ⟨rfl, rfl⟩ | ⟨rfl, rfl⟩ | ⟨rfl, rfl⟩ | ⟨rfl, rfl⟩ | ⟨rfl, rfl⟩ := hmem
      · exact .amp
      · exact .lt
      · exact .gt
      · exact .quot
      · exact .apos
    · unfold resolveCode at h
      split at h
      · obtain ⟨hcode, hc⟩ := (resolveCode_code (by decide)).mp h
        exact .hexadecimal hcode hc
      · obtain ⟨hcode, hc⟩ := (resolveCode_code (by decide)).mp h
        exact .decimal hcode hc
      · cases h
  · intro h
    cases h with
    | amp | lt | gt | quot | apos => rfl
    | @decimal code _ h hc =>
      have hx : ∀ rest, code ≠ 'x' :: rest := by
        rintro rest rfl
        obtain h | ⟨-, digits, hd, -⟩ := h
        · exact not_isNumeral (by decide) (by decide) h
        · simp at hd
      have hresolve : resolve ('#' :: code) = (readCode 10 code).bind ofCode := by
        change resolveCode ('#' :: code) = _
        unfold resolveCode
        split
        · rename_i rest heq
          exact absurd (List.cons.inj heq).2 (hx rest)
        · rename_i heq
          rw [(List.cons.inj heq).2]
        · simp_all
      rw [hresolve, resolveCode_code (by decide)]
      exact ⟨h, hc⟩
    | hexadecimal h hc => exact (resolveCode_code (by decide)).mpr ⟨h, hc⟩

theorem Denotes.mono {signed : Bool} {name : Chars} {c : Char} (h : Denotes signed name c) :
    Denotes true name c := by
  have code {base n : Nat} {text : Chars} (h : IsCode signed base text n) :
      IsCode true base text n := h.imp id fun h => ⟨rfl, h.2⟩
  cases h with
  | amp => exact .amp
  | lt => exact .lt
  | gt => exact .gt
  | quot => exact .quot
  | apos => exact .apos
  | decimal h hc => exact .decimal (code h) hc
  | hexadecimal h hc => exact .hexadecimal (code h) hc

theorem Denotes.resolve {signed : Bool} {name : Chars} {c : Char} (h : Denotes signed name c) :
    Reference.resolve name = some c :=
  resolve_eq_some_iff.mpr h.mono

/-- What is neither a digit nor one of these characters is no part of a name; so the marks of a
reference and blanks are none. -/
theorem Denotes.notMem {signed : Bool} {name : Chars} {c d : Char} (h : Denotes signed name c)
    (hdigit : digitValue d = none) (hd : d ∉ "ampltgquos#x+".toList) : d ∉ name := by
  have code {base n : Nat} (hb : base ≤ 16) {text : Chars} (h : IsCode signed base text n) :
      d ∉ text := by
    have numeral {text : Chars} (h : IsNumeral base text n) : d ∉ text := by
      intro hm
      obtain ⟨e, he⟩ := h.digitValue_of_mem hb d hm
      simp [hdigit] at he
    obtain h | ⟨-, digits, rfl, h⟩ := h
    · exact numeral h
    · simp_all
  cases h with
  | amp | lt | gt | quot | apos => simp_all
  | decimal h _ =>
    have := code (by decide) h
    simp_all
  | hexadecimal h _ =>
    have := code (by decide) h
    simp_all

theorem Denotes.notMem_semicolon {signed : Bool} {name : Chars} {c : Char}
    (h : Denotes signed name c) : ';' ∉ name :=
  h.notMem (by decide) (by decide)

theorem Denotes.notMem_ampersand {signed : Bool} {name : Chars} {c : Char}
    (h : Denotes signed name c) : '&' ∉ name :=
  h.notMem (by decide) (by decide)

end Names

section Strays

variable {signed : Bool} {c : Char} {s t v raw before behind : Chars}

/-- The name of a reference is what stands before the first semicolon. -/
theorem startsReference_iff :
    StartsReference signed behind ↔
      ∃ name rest c, cutAt ';' behind = some (name, rest) ∧ Denotes signed name c := by
  constructor
  · rintro ⟨name, c, rest, h, rfl⟩
    exact ⟨name, rest, c, cutAt_append rest h.notMem_semicolon, h⟩
  · rintro ⟨name, rest, c, hcut, h⟩
    exact ⟨name, c, rest, h, eq_of_cutAt hcut⟩

theorem StartsReference.mono (h : StartsReference signed behind) : StartsReference true behind := by
  obtain ⟨name, c, rest, h, rfl⟩ := h
  exact ⟨name, c, rest, h.mono, rfl⟩

theorem AllReferences.cons (h : AllReferences signed s) (hc : c = '&' → StartsReference signed s) :
    AllReferences signed (c :: s) := by
  intro behind hs
  obtain heq | hs := List.suffix_cons_iff.mp hs
  · cases heq
    exact hc rfl
  · exact h behind hs

theorem AllReferences.append (h : AllReferences signed s) (ht : '&' ∉ t) :
    AllReferences signed (t ++ s) := by
  induction t with
  | nil => exact h
  | cons c t ih =>
    simp only [List.mem_cons, not_or] at ht
    exact (ih ht.2).cons fun hc => absurd hc.symm ht.1

theorem FirstStray.cons (h : FirstStray signed s before behind)
    (hc : c = '&' → StartsReference signed s) : FirstStray signed (c :: s) (c :: before) behind where
  parts := by rw [h.parts, List.cons_append]
  stray := h.stray
  first other hs hlen := by
    obtain heq | hs := List.suffix_cons_iff.mp hs
    · cases heq
      exact hc rfl
    · exact h.first other hs hlen

theorem FirstStray.append (h : FirstStray signed s before behind) (ht : '&' ∉ t) :
    FirstStray signed (t ++ s) (t ++ before) behind := by
  induction t with
  | nil => exact h
  | cons c t ih =>
    simp only [List.mem_cons, not_or] at ht
    exact (ih ht.2).cons fun hc => absurd hc.symm ht.1

theorem firstStray_head (h : ¬ StartsReference signed s) : FirstStray signed ('&' :: s) [] s where
  parts := rfl
  stray := h
  first other hs hlen := by
    have := hs.length_le
    simp only [List.length_cons] at this
    omega

theorem FirstStray.suffix (h : FirstStray signed raw before behind) : '&' :: behind <:+ raw :=
  ⟨before, h.parts.symm⟩

theorem FirstStray.not_all (h : FirstStray signed raw before behind) : ¬ AllReferences signed raw :=
  fun hall => h.stray (hall behind h.suffix)

/-- A text in which some `&` starts no reference has a first one. -/
theorem exists_firstStray (h : ¬ AllReferences signed raw) :
    ∃ before behind, FirstStray signed raw before behind := by
  induction raw with
  | nil => exact absurd (fun behind hs => by simp at hs) h
  | cons c s ih =>
    by_cases hc : c = '&' → StartsReference signed s
    · obtain ⟨before, behind, hstray⟩ := ih fun hall => h (hall.cons hc)
      exact ⟨_, behind, hstray.cons hc⟩
    · simp only [Classical.not_imp] at hc
      obtain ⟨rfl, hc⟩ := hc
      exact ⟨[], s, firstStray_head hc⟩

theorem FirstStray.unique {before' behind' : Chars} (h : FirstStray signed raw before behind)
    (h' : FirstStray signed raw before' behind') : behind = behind' := by
  have hlen : behind.length = behind'.length := by
    rcases Nat.lt_trichotomy behind.length behind'.length with hlt | heq | hlt
    · exact absurd (h.first behind' h'.suffix hlt) h'.stray
    · exact heq
    · exact absurd (h'.first behind h.suffix hlt) h.stray
  have heq := (List.suffix_of_suffix_length_le h.suffix h'.suffix (by simp [hlen])).eq_of_length
    (by simp [hlen])
  exact (List.cons.inj heq).2

end Strays

section Decoder

variable {signed : Bool} {s v raw : Chars}

/-- An error of the decoder is at the first stray. -/
theorem decodeFrom_error {pos : Nat} {e : Invalid} (h : decodeFrom pos s = .error e) :
    ∃ before behind, FirstStray true s before behind ∧ e.offset = pos + byteLength before := by
  fun_induction decodeFrom pos s with
  | case1 => simp at h
  | case2 pos cs hcut =>
    cases h
    refine ⟨[], cs, firstStray_head fun hs => ?_, by simp⟩
    obtain ⟨name, rest, c, hcut', -⟩ := startsReference_iff.mp hs
    simp [hcut] at hcut'
  | case3 pos cs name rest hcut hr =>
    cases h
    refine ⟨[], cs, firstStray_head fun hs => ?_, by simp⟩
    obtain ⟨name, rest, c, hcut', hn⟩ := startsReference_iff.mp hs
    rw [hcut, Option.some.injEq, Prod.mk.injEq] at hcut'
    obtain ⟨rfl, rfl⟩ := hcut'
    simp [hn.resolve] at hr
  | case4 pos cs name rest hcut d hd ih =>
    obtain ⟨before, behind, hstray, hoffset⟩ := ih (map_eq_error.mp h)
    have hn : Denotes true name d := resolve_eq_some_iff.mp hd
    have hcs : cs = name ++ ';' :: rest := eq_of_cutAt hcut
    refine ⟨'&' :: (name ++ ';' :: before), behind, ?_, ?_⟩
    · rw [hcs]
      exact ((hstray.cons (by simp)).append hn.notMem_ampersand).cons fun _ =>
        ⟨name, d, rest, hn, rfl⟩
    · simp only [hoffset, byteLength_cons, byteLength_append, show '&'.utf8Size = 1 from rfl,
        show ';'.utf8Size = 1 from rfl]
      omega
  | case5 pos c cs hc ih =>
    obtain ⟨before, behind, hstray, hoffset⟩ := ih (map_eq_error.mp h)
    refine ⟨c :: before, behind, hstray.cons fun he => absurd he hc, ?_⟩
    rw [hoffset, byteLength_cons, Nat.add_assoc]

theorem Decodes.allReferences (h : Decodes s v) : AllReferences true s := by
  induction h with
  | nil => exact fun behind hs => by simp at hs
  | char hc _ ih => exact ih.cons fun he => absurd he hc
  | @reference name d s v _ hd _ ih =>
    have hn : Denotes true name d := resolve_eq_some_iff.mp hd
    exact ((ih.cons (by simp)).append hn.notMem_ampersand).cons fun _ => ⟨name, d, s, hn, rfl⟩

/-- The value is the one of the grammar wherever the grammar has all the references. -/
theorem Decodes.replaced (h : Decodes s v) (hall : AllReferences signed s) :
    Replaced signed s v := by
  induction h with
  | nil => exact .nil
  | char hc _ ih =>
    exact .char hc (ih fun behind hs => hall behind (hs.trans (List.suffix_cons _ _)))
  | @reference name d s v hsemi hd _ ih =>
    obtain ⟨name', rest, c, hcut, hn⟩ := startsReference_iff.mp (hall _ List.suffix_rfl)
    rw [cutAt_append s hsemi, Option.some.injEq, Prod.mk.injEq] at hcut
    obtain ⟨rfl, rfl⟩ := hcut
    rw [hn.resolve, Option.some.injEq] at hd
    subst hd
    refine .reference hn (ih fun behind hs => hall behind (hs.trans ?_))
    exact ⟨'&' :: (name ++ [';']), by simp⟩

theorem decode_error {e : Invalid} (h : decode raw = .error e) :
    ∃ before behind, FirstStray true raw before behind ∧ e.offset = byteLength before := by
  simpa using decodeFrom_error h

/-- The decoder obeys the grammar in which codes may have a sign. -/
theorem obeys_decode (raw : Chars) : Obeys true raw (decode raw) where
  accepts := by
    cases h : decode raw with
    | ok v => exact ⟨fun _ => (decode_eq_ok_iff.mp h).allReferences, fun _ => ⟨v, rfl⟩⟩
    | error e =>
      obtain ⟨before, behind, hstray, -⟩ := decode_error h
      exact ⟨fun ⟨v, hv⟩ => by simp at hv, fun hall => absurd hall hstray.not_all⟩
  replaces v h := by
    have hv := decode_eq_ok_iff.mp h
    exact hv.replaced hv.allReferences
  locates _ h := decode_error h

/-- The first `&` that starts no reference without a sign starts none with a sign either. -/
def StrayUnsigned (raw : Chars) : Prop :=
  ∀ before behind, FirstStray false raw before behind → ¬ StartsReference true behind

theorem FirstStray.unsigned {before behind : Chars} (h : FirstStray true raw before behind)
    (hraw : StrayUnsigned raw) : FirstStray false raw before behind where
  parts := h.parts
  stray hs := h.stray hs.mono
  first other hs hlt := by
    -- an earlier stray would be one that only a sign makes a reference
    by_contra hbad
    obtain ⟨before', behind', h'⟩ := exists_firstStray fun hall => hbad (hall other hs)
    have hle : other.length ≤ behind'.length := by
      by_contra hgt
      exact hbad (h'.first other hs (Nat.lt_of_not_le hgt))
    exact hraw before' behind' h' (h.first behind' h'.suffix (hlt.trans_le hle))

theorem obeys_unsigned (hraw : StrayUnsigned raw) : Obeys false raw (decode raw) := by
  have hall : AllReferences true raw → AllReferences false raw := by
    intro hall
    by_contra hnot
    obtain ⟨before, behind, hstray⟩ := exists_firstStray hnot
    exact hraw before behind hstray (hall behind hstray.suffix)
  have hobeys := obeys_decode raw
  refine ⟨hobeys.accepts.trans ⟨hall, fun h behind hs => (h behind hs).mono⟩, fun v h => ?_, ?_⟩
  · exact (decode_eq_ok_iff.mp h).replaced (hall (hobeys.accepts.mp ⟨v, h⟩))
  · intro e h
    obtain ⟨before, behind, hstray, hoffset⟩ := hobeys.locates e h
    exact ⟨before, behind, hstray.unsigned hraw, hoffset⟩

theorem FirstStray.eq_of_byteLength {signed' : Bool} {before behind before' behind' : Chars}
    (h : FirstStray signed raw before behind) (h' : FirstStray signed' raw before' behind')
    (hlen : byteLength before = byteLength before') : behind = behind' := by
  have hbefore : before = before' := by
    rw [← takeBytes_append before ('&' :: behind), ← h.parts, hlen, h'.parts, takeBytes_append]
  have heq : before ++ '&' :: behind = before' ++ '&' :: behind' := h.parts.symm.trans h'.parts
  rw [hbefore] at heq
  exact (List.cons.inj (List.append_cancel_left heq)).2

theorem strayUnsigned_of_obeys (h : Obeys false raw (decode raw)) : StrayUnsigned raw := by
  intro before behind hstray hsigned
  cases hdecode : decode raw with
  | ok v => exact hstray.not_all (h.accepts.mp ⟨v, hdecode⟩)
  | error e =>
    obtain ⟨before₁, behind₁, h₁, hoffset₁⟩ := h.locates e hdecode
    obtain ⟨before₂, behind₂, h₂, hoffset₂⟩ := (obeys_decode raw).locates e hdecode
    have hbehind : behind₂ = behind :=
      (h₂.eq_of_byteLength h₁ (hoffset₂.symm.trans hoffset₁)).trans (h₁.unique hstray)
    exact h₂.stray (hbehind ▸ hsigned)

/-- The decoder accepts, replaces and refuses what the grammar says, if a plus sign may stand in
front of a code. By the grammar without signs it does so exactly for the texts in which the first `&`
that is no reference is none with a sign either. -/
theorem decode_obeys_iff (raw : Chars) :
    Obeys true raw (decode raw) ∧ (Obeys false raw (decode raw) ↔ StrayUnsigned raw) :=
  ⟨obeys_decode raw, strayUnsigned_of_obeys, obeys_unsigned⟩

/-- A code with a plus sign is taken for a reference. -/
theorem plusSign_decoded :
    decode "&#+65;".toList = .ok ['A'] ∧ ¬ AllReferences false "&#+65;".toList ∧
      ¬ Obeys false "&#+65;".toList (decode "&#+65;".toList) := by
  have hdecode : decode "&#+65;".toList = .ok ['A'] :=
    decode_named ['#', '+', '6', '5'] (by decide) (by decide)
  have hall : ¬ AllReferences false "&#+65;".toList := by
    intro hall
    obtain ⟨name, rest, c, hcut, hn⟩ := startsReference_iff.mp (hall _ List.suffix_rfl)
    have hname : (['#', '+', '6', '5'], []) = (name, rest) := Option.some.inj hcut
    cases hname
    cases hn with
    | decimal h hc =>
      obtain h | ⟨hsigned, -⟩ := h
      · exact not_isNumeral (by decide) (by decide) h
      · simp at hsigned
  exact ⟨hdecode, hall, fun h => hall (h.accepts.mp ⟨_, hdecode⟩)⟩

end Decoder

end Reference
end XamlFormat
