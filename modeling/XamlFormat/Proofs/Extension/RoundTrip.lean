import XamlFormat.Proofs.Extension.Literal

/-! Markup extensions are read back from every text that renders them, such as their one line form.
Any blanks may stand behind the commas. -/
namespace XamlFormat

namespace Extension

/-- What the reader takes as the name of an extension. -/
def IsName : Chars → Prop
  | [] => False
  | c :: cs => isNameStart c = true ∧ ∀ d ∈ cs, isNameChar d = true

def Blanks (s : Chars) : Prop := ∀ c ∈ s, Text.isBlank c = true

theorem blanks_nil : Blanks [] := by
  simp [Blanks]

end Extension

open Extension

mutual

/-- A value that the reader can produce inside an extension at nesting `depth`. -/
def Value.Proper (depth : Nat) (keyed : Bool) : Value → Prop
  | .literal text => IsLiteral keyed text
  | .extension name arguments =>
    depth < maxDepth ∧ Extension.IsName name ∧ ProperArguments (depth + 1) arguments

def Argument.Proper (depth : Nat) : Argument → Prop
  | .mk none v => v.Proper depth true
  | .mk (some k) v => IsLiteral true k ∧ v.Proper depth false

def ProperArguments (depth : Nat) : List Argument → Prop
  | [] => True
  | a :: rest => a.Proper depth ∧ ProperArguments depth rest

end

mutual

def Value.Renders : Value → Chars → Prop
  | .literal text, s => s = text
  | .extension name arguments, s =>
    (arguments = [] ∧ s = '{' :: (name ++ ['}'])) ∨
      ∃ t, RendersArguments arguments t ∧ s = '{' :: (name ++ ' ' :: (t ++ ['}']))

def Argument.Renders : Argument → Chars → Prop
  | .mk none v, s => v.Renders s
  | .mk (some k) v, s => ∃ t, v.Renders t ∧ s = k ++ '=' :: t

/-- The text is a rendering of at least one argument, with blanks behind each comma. -/
def RendersArguments : List Argument → Chars → Prop
  | [], _ => False
  | a :: rest, s =>
    (rest = [] ∧ a.Renders s) ∨
      ∃ t gap u, a.Renders t ∧ Extension.Blanks gap ∧ RendersArguments rest u ∧
        s = t ++ ',' :: (gap ++ u)

end

namespace Extension

def readValue (fuel depth : Nat) (start : ArgumentStart) : Except Fault (Value × Chars) :=
  match start.literal with
  | some text => pure (Value.literal text, start.rest)
  | none => do
    if maxDepth ≤ depth then throw .tooDeep
    let (name, rest) ← readName start.rest
    match rest with
    | '}' :: rest => pure (Value.extension name [], rest)
    | rest =>
      let (arguments, rest) ← readArguments fuel (depth + 1) rest
      pure (Value.extension name arguments, rest)

theorem readArguments_succ (fuel depth : Nat) (s : Chars) :
    readArguments (fuel + 1) depth s = (do
      let start ← readArgumentStart (skipBlanks s)
      let (value, rest) ← readValue fuel depth start
      match skipBlanks rest with
      | ',' :: rest =>
        let (arguments, rest) ← readArguments fuel depth rest
        pure (⟨start.key, value⟩ :: arguments, rest)
      | '}' :: rest => pure ([⟨start.key, value⟩], rest)
      | [] => throw .missingBrace
      | _ => throw .expectedSeparator) := by
  rw [readArguments]
  refine bind_congr fun start => ?_
  unfold readValue
  cases start.literal with
  | some text => rfl
  | none =>
    dsimp only
    split_ifs
    · rfl
    · cases readName start.rest with
      | error e => rfl
      | ok r =>
        dsimp only [bind, Except.bind]
        generalize r.2 = rest
        cases rest with
        | nil =>
          dsimp only
          cases readArguments fuel (depth + 1) [] <;> rfl
        | cons c cs =>
          by_cases hc : c = '}'
          · subst hc
            rfl
          · simp only [List.cons.injEq, hc, false_and, imp_self, implies_true]
            cases readArguments fuel (depth + 1) (c :: cs) <;> rfl

theorem skipBlanks_append {gap s : Chars} (hg : Blanks gap) (hs : Text.Halts Text.isBlank s) :
    skipBlanks (gap ++ s) = s :=
  Text.dropWhile_append_halts hg hs

theorem skipBlanks_of_halts {s : Chars} (hs : Text.Halts Text.isBlank s) : skipBlanks s = s :=
  Text.dropWhile_of_halts hs

theorem IsLiteral.halts_append {keyed : Bool} {text : Chars} (h : IsLiteral keyed text)
    (rest : Chars) : Text.Halts Text.isBlank (text ++ rest) :=
  Text.halts_append h.ne_nil h.halts

theorem readNamedValue_literal {key text rest : Chars} {c : Char} (h : IsLiteral false text)
    (hc : EndsLiteral false c) :
    readNamedValue key (text ++ c :: rest) = .ok ⟨some key, some text, c :: rest⟩ := by
  rw [readNamedValue, h.plain, if_neg (by simp), readLiteral_complete h hc]
  have := h.ne_nil
  cases text <;> simp_all

theorem readNamedValue_nested {key body : Chars} (hb : body.head? ≠ some '}') :
    readNamedValue key ('{' :: body) = .ok ⟨some key, none, body⟩ := by
  rw [readNamedValue, if_pos (opensNested_eq_true.mpr ⟨body, rfl, hb⟩)]
  rfl

theorem readArgumentStart_named {key rest : Chars} (h : IsLiteral true key)
    (hr : Text.Halts Text.isBlank rest) :
    readArgumentStart (key ++ '=' :: rest) = readNamedValue key rest := by
  rw [readArgumentStart, h.plain, if_neg (by simp),
    readLiteral_complete h (.inr (.inr ⟨rfl, rfl⟩))]
  simp only [List.isEmpty_iff, h.ne_nil, if_false, skipBlanks_of_halts hr]

theorem readArgumentStart_literal {text rest : Chars} {c : Char} (h : IsLiteral true text)
    (hc : EndsLiteral false c) :
    readArgumentStart (text ++ c :: rest) = .ok ⟨none, some text, c :: rest⟩ := by
  have hne : c ≠ '=' := by
    obtain rfl | rfl | ⟨-, h⟩ := hc
    · decide
    · decide
    · simp at h
  have hc : EndsLiteral true c := by
    obtain h | h | ⟨-, h⟩ := hc
    · exact .inl h
    · exact .inr (.inl h)
    · simp at h
  rw [readArgumentStart, h.plain, if_neg (by simp), readLiteral_complete h hc]
  simp [hne, h.ne_nil]

theorem readArgumentStart_nested {body : Chars} (hb : body.head? ≠ some '}') :
    readArgumentStart ('{' :: body) = .ok ⟨none, none, body⟩ := by
  rw [readArgumentStart, if_pos (opensNested_eq_true.mpr ⟨body, rfl, hb⟩)]
  rfl

theorem IsName.halts {name : Chars} (h : IsName name) (rest : Chars) :
    Text.Halts Text.isBlank (name ++ rest) := by
  cases name with
  | nil => exact h.elim
  | cons c cs =>
    simp only [List.cons_append, Text.halts_cons]
    by_contra hc
    have hb : Text.isBlank c = true := by simpa using hc
    have h1 := h.1
    have h2 : c ≠ '_' := by
      rintro rfl
      exact absurd hb (by decide)
    simp [isNameStart, Text.isLetter_of_isBlank hb, h2] at h1

theorem IsName.head_ne {name : Chars} (h : IsName name) (rest : Chars) :
    (name ++ rest).head? ≠ some '}' := by
  cases name with
  | nil => exact h.elim
  | cons c cs =>
    intro hc
    simp only [List.cons_append, List.head?_cons, Option.some.injEq] at hc
    subst hc
    exact absurd h.1 (by decide)

theorem readName_complete {name rest : Chars} (h : IsName name) (hr : Text.Halts isNameChar rest)
    (hc : rest.head? ≠ some ',') : readName (name ++ rest) = .ok (name, skipBlanks rest) := by
  rw [readName, skipBlanks_of_halts (h.halts rest)]
  cases name with
  | nil => exact h.elim
  | cons c cs =>
    simp only [List.cons_append, h.1, if_true, Text.dropWhile_append_halts h.2 hr,
      Text.takeWhile_append_halts h.2 hr]
    split
    · simp at hc
    · rfl

theorem readName_empty {name : Chars} (h : IsName name) (rest : Chars) :
    readName (name ++ '}' :: rest) = .ok (name, '}' :: rest) := by
  rw [readName_complete h (by simp [isNameChar, Text.isLetterOrNumber]) (by simp)]
  rfl

theorem readName_arguments {name s : Chars} (h : IsName name) (hs : Text.Halts Text.isBlank s) :
    readName (name ++ ' ' :: s) = .ok (name, s) := by
  have hgap : Blanks [' '] := by simp [Blanks, Text.isBlank]
  rw [readName_complete h (by simp [isNameChar, Text.isLetterOrNumber]) (by simp)]
  exact congrArg (fun t => Except.ok (name, t)) (skipBlanks_append hgap hs)

theorem halts_value {depth : Nat} {keyed : Bool} {v : Value} {t : Chars}
    (hp : v.Proper depth keyed) (hr : v.Renders t) (rest : Chars) :
    Text.Halts Text.isBlank (t ++ rest) := by
  cases v with
  | literal text =>
    cases hr
    exact IsLiteral.halts_append hp rest
  | extension name arguments =>
    obtain ⟨-, rfl⟩ | ⟨u, -, rfl⟩ := hr <;> simp [Text.isBlank]

theorem halts_argument {depth : Nat} {a : Argument} {t : Chars} (hp : a.Proper depth)
    (hr : a.Renders t) (rest : Chars) : Text.Halts Text.isBlank (t ++ rest) := by
  obtain ⟨_ | k, v⟩ := a
  · exact halts_value hp hr rest
  · obtain ⟨u, -, rfl⟩ := hr
    rw [List.append_assoc]
    exact IsLiteral.halts_append hp.1 _

theorem halts_arguments {depth : Nat} {as : List Argument} {t : Chars} (hp : ProperArguments depth as)
    (hr : RendersArguments as t) (rest : Chars) : Text.Halts Text.isBlank (t ++ rest) := by
  cases as with
  | nil => exact hr.elim
  | cons a as =>
    obtain ⟨-, ha⟩ | ⟨t, gap, u, ha, -, -, rfl⟩ := hr
    · exact halts_argument hp.1 ha rest
    · rw [List.append_assoc]
      exact halts_argument hp.1 ha _

theorem IsLiteral.head_ne {keyed : Bool} {text : Chars} (h : IsLiteral keyed text) (rest : Chars) :
    (text ++ rest).head? ≠ some '}' := by
  have hs := h.scans
  cases text with
  | nil => exact absurd rfl h.ne_nil
  | cons c cs =>
    intro hc
    simp only [List.cons_append, List.head?_cons, Option.some.injEq] at hc
    subst hc
    obtain ⟨state, hstate, -⟩ := (scans_char (by decide)).mp hs
    simp [scanStep] at hstate

theorem head_argument_ne {depth : Nat} {a : Argument} {t : Chars} (hp : a.Proper depth)
    (hr : a.Renders t) (rest : Chars) : (t ++ rest).head? ≠ some '}' := by
  obtain ⟨_ | k, text | ⟨name, arguments⟩⟩ := a
  · cases hr
    exact IsLiteral.head_ne hp rest
  · obtain ⟨-, rfl⟩ | ⟨u, -, rfl⟩ := hr <;> simp
  all_goals
    obtain ⟨u, -, rfl⟩ := hr
    rw [List.append_assoc]
    exact IsLiteral.head_ne hp.1 _

theorem head_arguments_ne {depth : Nat} {as : List Argument} {t : Chars}
    (hp : ProperArguments depth as) (hr : RendersArguments as t) (rest : Chars) :
    (t ++ rest).head? ≠ some '}' := by
  cases as with
  | nil => exact hr.elim
  | cons a as =>
    obtain ⟨-, ha⟩ | ⟨t, gap, u, ha, -, -, rfl⟩ := hr
    · exact head_argument_ne hp.1 ha rest
    · rw [List.append_assoc]
      exact head_argument_ne hp.1 ha _

theorem renders_extension {name t : Chars} {arguments : List Argument}
    (hr : (Value.extension name arguments).Renders t) : ∃ u, t = '{' :: (name ++ u) := by
  obtain ⟨-, rfl⟩ | ⟨u, -, rfl⟩ := hr <;> exact ⟨_, rfl⟩

/-- What the start of an argument says about the argument, before the rest that ends it. -/
def ArgumentStart.Announces (start : ArgumentStart) (a : Argument) (t rest : Chars) : Prop :=
  start.key = a.key ∧
    match a.value with
    | .literal text => start.literal = some text ∧ start.rest = rest
    | .extension name arguments => start.literal = none ∧
      ∃ u, (Value.extension name arguments).Renders ('{' :: u) ∧ u.length < t.length ∧
        start.rest = u ++ rest

theorem readArgumentStart_complete {depth : Nat} {a : Argument} {t : Chars} {c : Char}
    (rest : Chars) (hp : a.Proper depth) (hr : a.Renders t) (hc : EndsLiteral false c) :
    ∃ start, readArgumentStart (t ++ c :: rest) = .ok start ∧
      ArgumentStart.Announces start a t (c :: rest) := by
  obtain ⟨_ | k, text | ⟨name, arguments⟩⟩ := a
  · cases hr
    exact ⟨_, readArgumentStart_literal hp hc, rfl, rfl, rfl⟩
  · obtain ⟨u, rfl⟩ := renders_extension hr
    have hb : (name ++ u ++ c :: rest).head? ≠ some '}' := by
      rw [List.append_assoc]
      exact IsName.head_ne hp.2.1 _
    exact ⟨_, readArgumentStart_nested hb, rfl, rfl, _, hr, by simp, rfl⟩
  · obtain ⟨t, ht, rfl⟩ := hr
    cases ht
    rw [List.append_assoc, List.cons_append, readArgumentStart_named hp.1 (hp.2.halts_append _),
      readNamedValue_literal hp.2 hc]
    exact ⟨_, rfl, rfl, rfl, rfl⟩
  · obtain ⟨t, ht, rfl⟩ := hr
    obtain ⟨u, rfl⟩ := renders_extension ht
    have hb : (name ++ u ++ c :: rest).head? ≠ some '}' := by
      rw [List.append_assoc]
      exact IsName.head_ne hp.2.2.1 _
    rw [List.append_assoc, List.cons_append, readArgumentStart_named hp.1 (halts_value hp.2 ht _)]
    refine ⟨_, readNamedValue_nested hb, rfl, rfl, _, ht, ?_, rfl⟩
    simp only [List.length_append, List.length_cons]
    omega

/-- The value of an argument is read up to what ends it, if inner arguments are. -/
theorem readValue_complete {fuel depth : Nat} {a : Argument} {t : Chars} {c : Char} (more : Chars)
    (hp : a.Proper depth) (hr : a.Renders t) (hc : EndsLiteral false c)
    (inner : ∀ as u rest, ProperArguments (depth + 1) as → RendersArguments as u →
      u.length < t.length → readArguments fuel (depth + 1) (u ++ '}' :: rest) = .ok (as, rest)) :
    ∃ start, readArgumentStart (t ++ c :: more) = .ok start ∧ start.key = a.key ∧
      readValue fuel depth start = .ok (a.value, c :: more) := by
  obtain ⟨start, hstart, hkey, hann⟩ := readArgumentStart_complete more hp hr hc
  refine ⟨start, hstart, hkey, ?_⟩
  have hv : ∃ keyed, a.value.Proper depth keyed := by
    obtain ⟨_ | k, v⟩ := a
    · exact ⟨_, hp⟩
    · exact ⟨_, hp.2⟩
  obtain ⟨keyed, hv⟩ := hv
  cases hval : a.value with
  | literal text =>
    rw [hval] at hann
    rw [readValue, hann.1, hann.2]
    rfl
  | extension name arguments =>
    rw [hval] at hann hv
    obtain ⟨hnone, u, hu, hlt, hrest⟩ := hann
    obtain ⟨hdepth, hname, harguments⟩ := hv
    rw [readValue, hnone, hrest]
    simp only [if_neg (Nat.not_le.mpr hdepth), bind, Except.bind, pure, Except.pure]
    obtain ⟨rfl, hu⟩ | ⟨w, hw, hu⟩ := hu <;> cases hu
    · rw [List.append_assoc, List.singleton_append, readName_empty hname]
      rfl
    · have hlt : w.length < t.length := by
        simp only [List.length_append, List.length_cons] at hlt
        omega
      have hhalts := halts_arguments harguments hw ('}' :: c :: more)
      rw [List.append_assoc, List.cons_append, List.append_assoc, List.singleton_append,
        readName_arguments hname hhalts]
      dsimp only
      split
      · rename_i heq
        exact absurd (congrArg List.head? heq) (head_arguments_ne harguments hw _)
      · rw [inner arguments w _ harguments hw hlt]

theorem Argument.eta (a : Argument) : Argument.mk a.key a.value = a := by
  cases a
  rfl

theorem readArguments_complete {fuel depth : Nat} {as : List Argument} {gap t : Chars}
    (hp : ProperArguments depth as) (hr : RendersArguments as t) (hg : Blanks gap)
    (hfuel : t.length < fuel) (rest : Chars) :
    readArguments fuel depth (gap ++ (t ++ '}' :: rest)) = .ok (as, rest) := by
  induction fuel generalizing depth as gap t rest with
  | zero => simp at hfuel
  | succ fuel ih =>
    cases as with
    | nil => exact hr.elim
    | cons a as =>
      have inner {t : Chars} (ht : t.length < fuel + 1) : ∀ as u rest,
          ProperArguments (depth + 1) as → RendersArguments as u → u.length < t.length →
            readArguments fuel (depth + 1) (u ++ '}' :: rest) = .ok (as, rest) := by
        intro as u rest hp hr hlt
        exact ih hp hr blanks_nil (by omega) rest
      rw [readArguments_succ, skipBlanks_append hg (halts_arguments hp hr _)]
      obtain ⟨rfl, ha⟩ | ⟨t, gap', u, ha, hgap', hu, rfl⟩ := hr
      · obtain ⟨start, hstart, hkey, hvalue⟩ :=
          readValue_complete rest hp.1 ha (.inl rfl) (inner hfuel)
        simp only [hstart, hvalue, bind, Except.bind]
        rw [skipBlanks_of_halts (by simp [Text.isBlank])]
        simp [hkey, pure, Except.pure, Argument.eta]
      · simp only [List.length_append, List.length_cons] at hfuel
        obtain ⟨start, hstart, hkey, hvalue⟩ :=
          readValue_complete (gap' ++ (u ++ '}' :: rest)) hp.1 ha (.inr (.inl rfl))
            (inner (by omega))
        simp only [List.append_assoc, List.cons_append, hstart, hvalue, bind, Except.bind]
        rw [skipBlanks_of_halts (by simp [Text.isBlank])]
        simp only [ih hp.2 hu hgap' (by omega)]
        simp [hkey, pure, Except.pure, Argument.eta]

def Proper (e : Extension) : Prop := IsName e.name ∧ ProperArguments 1 e.arguments

/-- Every rendering of an extension is read back as the extension. -/
theorem read_complete {e : Extension} {t : Chars} (hp : e.Proper) (hr : e.toValue.Renders t) :
    read t = .ok e := by
  have hname := hp.1
  have shape : ∃ u, t = '{' :: (e.name ++ (u ++ ['}'])) := by
    obtain ⟨-, rfl⟩ | ⟨u, -, rfl⟩ := hr
    · exact ⟨[], rfl⟩
    · exact ⟨' ' :: u, by simp⟩
  obtain ⟨u, ht⟩ := shape
  have htrim : Text.trim t = t := by
    rw [ht, ← List.append_assoc]
    exact Text.trim_between (by decide) (by decide) _
  have hlooks : looksLike t = true := by
    rw [looksLike, htrim, ht]
    cases hn : e.name with
    | nil => simp [hn, IsName] at hname
    | cons c cs =>
      have hc : c ≠ '}' := by
        rintro rfl
        rw [hn] at hname
        exact absurd hname.1 (by decide)
      simp [hc, List.getLast?_cons]
  have hbody : readBody t.tail = .ok (e, []) := by
    obtain ⟨hnil, rfl⟩ | ⟨w, hw, rfl⟩ := hr
    · rw [List.tail_cons, readBody, readName_empty hname]
      simp [bind, Except.bind, pure, Except.pure, ← hnil]
    · have hhalts := halts_arguments hp.2 hw ['}']
      rw [List.tail_cons, readBody, readName_arguments hname hhalts]
      simp only [bind, Except.bind, pure, Except.pure]
      split
      · rename_i heq
        exact absurd (congrArg List.head? heq) (head_arguments_ne hp.2 hw _)
      · have hlt : w.length < (w ++ ['}']).length := by simp
        have hread := readArguments_complete hp.2 hw blanks_nil hlt []
        rw [List.nil_append] at hread
        rw [hread]
  rw [read, if_pos hlooks, htrim, hbody]

section Cases

variable {fuel depth : Nat} {s rest after : Chars} {start : ArgumentStart}

theorem readName_cases {name : Chars} (h : readName s = .ok (name, rest)) :
    ∃ c cs, skipBlanks s = c :: cs ∧ isNameStart c = true ∧ name = c :: cs.takeWhile isNameChar ∧
      rest = skipBlanks (cs.dropWhile isNameChar) := by
  unfold readName at h
  split at h
  · simp at h
  · rename_i c cs hs
    split_ifs at h with hc
    dsimp only at h
    split at h
    · simp at h
    · simp only [Except.ok.injEq, Prod.mk.injEq] at h
      exact ⟨c, cs, hs, hc, h.1.symm, h.2.symm⟩

theorem readNamedValue_cases {key : Chars} (h : readNamedValue key s = .ok start) :
    (opensNested s = true ∧ start = ⟨some key, none, s.tail⟩) ∨
      opensNested s = false ∧ ∃ text rest, readLiteral false s = .ok (text, rest) ∧ text ≠ [] ∧
        start = ⟨some key, some text, rest⟩ := by
  unfold readNamedValue at h
  split_ifs at h with hn
  · cases h
    exact .inl ⟨hn, rfl⟩
  · split at h
    · simp at h
    · simp at h
    · rename_i text rest hne hread
      cases h
      exact .inr ⟨by simpa using hn, text, rest, hread, hne, rfl⟩

/-- An argument starts with a nested extension, with a key, or with a literal. -/
theorem readArgumentStart_cases (h : readArgumentStart s = .ok start) :
    (opensNested s = true ∧ start = ⟨none, none, s.tail⟩) ∨
      opensNested s = false ∧ ∃ text rest, text ≠ [] ∧
        ((readLiteral true s = .ok (text, '=' :: rest) ∧
            readNamedValue text (skipBlanks rest) = .ok start) ∨
          (readLiteral true s = .ok (text, rest) ∧ start = ⟨none, some text, rest⟩)) := by
  unfold readArgumentStart at h
  split_ifs at h with hn
  · cases h
    exact .inl ⟨hn, rfl⟩
  · refine .inr ⟨by simpa using hn, ?_⟩
    split at h
    · simp at h
    · rename_i text rest hread
      split_ifs at h with hempty
      exact ⟨text, rest, by simpa using hempty, .inl ⟨hread, h⟩⟩
    · rename_i text rest _ hread
      split_ifs at h with hempty
      cases h
      exact ⟨text, rest, by simpa using hempty, .inr ⟨hread, rfl⟩⟩

/-- The value of an argument is its literal, or a nested extension with or without arguments. -/
theorem readValue_cases {v : Value} (h : readValue fuel depth start = .ok (v, after)) :
    (∃ text, start.literal = some text ∧ v = .literal text ∧ after = start.rest) ∨
      start.literal = none ∧ depth < maxDepth ∧ ∃ name rest, readName start.rest = .ok (name, rest) ∧
        ((rest = '}' :: after ∧ v = .extension name []) ∨
          ∃ as, readArguments fuel (depth + 1) rest = .ok (as, after) ∧ v = .extension name as) := by
  unfold readValue at h
  split at h
  · rename_i text htext
    cases h
    exact .inl ⟨text, htext, rfl, rfl⟩
  · rename_i hnone
    dsimp only at h
    split_ifs at h with hdepth
    · simp [throw, throwThe, MonadExceptOf.throw, bind, Except.bind] at h
    · simp only [bind_eq_ok, Prod.exists] at h
      obtain ⟨name, rest, hname, h⟩ := h
      refine .inr ⟨hnone, Nat.lt_of_not_le hdepth, name, rest, hname, ?_⟩
      split at h
      · cases h
        exact .inl ⟨rfl, rfl⟩
      · simp only [bind_eq_ok, Prod.exists] at h
        obtain ⟨as, rest', hread, h⟩ := h
        cases h
        exact .inr ⟨as, hread, rfl⟩

/-- Behind an argument there is a comma and more arguments, or the closing brace. -/
theorem readArguments_cases {as : List Argument}
    (h : readArguments (fuel + 1) depth s = .ok (as, rest)) :
    ∃ start v after, readArgumentStart (skipBlanks s) = .ok start ∧
      readValue fuel depth start = .ok (v, after) ∧
      ((∃ more as', skipBlanks after = ',' :: more ∧ readArguments fuel depth more = .ok (as', rest) ∧
          as = ⟨start.key, v⟩ :: as') ∨
        (skipBlanks after = '}' :: rest ∧ as = [⟨start.key, v⟩])) := by
  rw [readArguments_succ] at h
  simp only [bind_eq_ok, Prod.exists] at h
  obtain ⟨start, hstart, v, after, hvalue, h⟩ := h
  refine ⟨start, v, after, hstart, hvalue, ?_⟩
  split at h
  · rename_i more hafter
    simp only [bind_eq_ok, Prod.exists] at h
    obtain ⟨as', rest', h, heq⟩ := h
    cases heq
    exact .inl ⟨more, as', hafter, h, rfl⟩
  · rename_i more hafter
    cases h
    exact .inr ⟨hafter, rfl⟩
  · simp [throw, throwThe, MonadExceptOf.throw] at h
  · simp [throw, throwThe, MonadExceptOf.throw] at h

theorem readBody_cases {e : Extension} (h : readBody s = .ok (e, rest)) :
    ∃ more, readName s = .ok (e.name, more) ∧
      ((more = '}' :: rest ∧ e.arguments = []) ∨
        readArguments more.length 1 more = .ok (e.arguments, rest)) := by
  simp only [readBody, bind_eq_ok, Prod.exists] at h
  obtain ⟨name, more, hname, h⟩ := h
  split at h
  · cases h
    exact ⟨_, hname, .inl ⟨rfl, rfl⟩⟩
  · simp only [bind_eq_ok, Prod.exists] at h
    obtain ⟨as, rest', hread, h⟩ := h
    cases h
    exact ⟨more, hname, .inr hread⟩

theorem readBody_of_read {value : Chars} {e : Extension} (h : read value = .ok e) :
    readBody (Text.trim value).tail = .ok (e, []) := by
  unfold read at h
  split_ifs at h
  split at h
  · simp at h
  · rename_i hbody
    cases h
    exact hbody
  · simp at h

end Cases

section Soundness

theorem readName_sound {s name rest : Chars} (h : readName s = .ok (name, rest)) : IsName name := by
  obtain ⟨c, cs, -, hc, rfl, -⟩ := readName_cases h
  exact ⟨hc, fun d hd => List.mem_takeWhile_imp hd⟩

theorem halts_skipBlanks (s : Chars) : Text.Halts Text.isBlank (skipBlanks s) :=
  Text.halts_dropWhile _ _

theorem readNamedValue_sound {key s : Chars} {start : ArgumentStart}
    (hs : Text.Halts Text.isBlank s) (h : readNamedValue key s = .ok start) :
    start.key = some key ∧
      ∀ text, start.literal = some text → start.rest ≠ [] → IsLiteral false text := by
  obtain ⟨-, rfl⟩ | ⟨hn, text, rest, hread, hne, rfl⟩ := readNamedValue_cases h
  · exact ⟨rfl, by simp⟩
  · refine ⟨rfl, fun t ht hr => ?_⟩
    cases ht
    obtain ⟨c, rest, rfl⟩ := List.exists_cons_of_ne_nil hr
    exact (readLiteral_sound hread hne hs hn).1

theorem readArgumentStart_sound {s : Chars} {start : ArgumentStart}
    (hs : Text.Halts Text.isBlank s) (h : readArgumentStart s = .ok start) :
    (∀ k, start.key = some k → IsLiteral true k) ∧
      ∀ text, start.literal = some text → start.rest ≠ [] → IsLiteral start.key.isNone text := by
  obtain ⟨-, rfl⟩ | ⟨hn, text, rest, hne, ⟨hread, h⟩ | ⟨hread, rfl⟩⟩ := readArgumentStart_cases h
  · simp
  · have hkey := (readLiteral_sound hread hne hs hn).1
    obtain ⟨hk, hl⟩ := readNamedValue_sound (halts_skipBlanks rest) h
    rw [hk]
    exact ⟨fun k hk => by cases hk; exact hkey, hl⟩
  · refine ⟨by simp, fun t ht hr => ?_⟩
    cases ht
    obtain ⟨c, rest, rfl⟩ := List.exists_cons_of_ne_nil hr
    exact (readLiteral_sound hread hne hs hn).1

theorem readValue_sound {fuel depth : Nat} {start : ArgumentStart} {v : Value} {after : Chars}
    {keyed : Bool} (inner : ∀ s as rest, readArguments fuel (depth + 1) s = .ok (as, rest) →
      ProperArguments (depth + 1) as)
    (hliteral : ∀ text, start.literal = some text → start.rest ≠ [] → IsLiteral keyed text)
    (h : readValue fuel depth start = .ok (v, after)) (hne : after ≠ []) :
    v.Proper depth keyed := by
  obtain ⟨text, htext, rfl, rfl⟩ | ⟨-, hdepth, name, rest, hname, hcases⟩ := readValue_cases h
  · exact hliteral text htext hne
  · have hisName := readName_sound hname
    obtain ⟨-, rfl⟩ | ⟨as, hread, rfl⟩ := hcases
    · exact ⟨hdepth, hisName, trivial⟩
    · exact ⟨hdepth, hisName, inner _ _ _ hread⟩

theorem readArguments_sound {fuel depth : Nat} {s rest : Chars} {as : List Argument}
    (h : readArguments fuel depth s = .ok (as, rest)) : as ≠ [] ∧ ProperArguments depth as := by
  induction fuel generalizing depth s as rest with
  | zero => simp [readArguments] at h
  | succ fuel ih =>
    obtain ⟨start, value, after, hstart, hvalue, hcases⟩ := readArguments_cases h
    obtain ⟨hkey, hliteral⟩ := readArgumentStart_sound (halts_skipBlanks s) hstart
    have hargument (hne : after ≠ []) : (Argument.mk start.key value).Proper depth := by
      have hproper := readValue_sound (fun _ _ _ h => (ih h).2) hliteral hvalue hne
      cases hk : start.key with
      | none => simpa [hk, Argument.Proper] using hproper
      | some k => exact ⟨hkey k hk, by simpa [hk] using hproper⟩
    obtain ⟨more, as', hafter, hread, rfl⟩ | ⟨hafter, rfl⟩ := hcases
    · exact ⟨by simp, hargument (by rintro rfl; simp [skipBlanks] at hafter), (ih hread).2⟩
    · exact ⟨by simp, hargument (by rintro rfl; simp [skipBlanks] at hafter), trivial⟩

theorem read_sound {value : Chars} {e : Extension} (h : read value = .ok e) : e.Proper := by
  obtain ⟨more, hname, hcases⟩ := readBody_cases (readBody_of_read h)
  refine ⟨readName_sound hname, ?_⟩
  obtain ⟨-, hnil⟩ | hread := hcases
  · rw [hnil]
    trivial
  · exact (readArguments_sound hread).2

end Soundness

end Extension
mutual

theorem Value.renders_print : ∀ v : Value, v.Renders v.print
  | .literal text => rfl
  | .extension name arguments => by
    cases harguments : arguments with
    | nil => exact .inl ⟨rfl, by simp [Value.print, printArguments]⟩
    | cons a rest =>
      obtain ⟨t, ht, hr⟩ := rendersArguments_print [' '] arguments (by simp [harguments])
      rw [harguments] at ht hr
      exact .inr ⟨t, hr, by simp [Value.print, ht]⟩

theorem Argument.renders_print : ∀ a : Argument, a.Renders a.print
  | .mk none v => v.renders_print
  | .mk (some _) v => ⟨_, v.renders_print, rfl⟩

theorem rendersArguments_print (lead : Chars) : ∀ arguments : List Argument, arguments ≠ [] →
    ∃ t, printArguments lead arguments = lead ++ t ∧ RendersArguments arguments t
  | [], h => absurd rfl h
  | a :: rest, _ => by
    cases hrest : rest with
    | nil => exact ⟨a.print, by simp [printArguments], .inl ⟨rfl, a.renders_print⟩⟩
    | cons b more =>
      obtain ⟨t, ht, hr⟩ := rendersArguments_print [',', ' '] rest (by simp [hrest])
      rw [hrest] at ht hr
      refine ⟨_, rfl, .inr ⟨a.print, [' '], t, a.renders_print, ?_, hr, ?_⟩⟩
      · simp [Extension.Blanks, Text.isBlank]
      · simp [ht]

end

namespace Extension

/-- An extension that was read is read back from every text that renders it. -/
theorem read_rendered {value t : Chars} {e : Extension} (h : read value = .ok e)
    (ht : e.toValue.Renders t) : read t = .ok e :=
  read_complete (read_sound h) ht

theorem read_one_line {value : Chars} {e : Extension} (h : read value = .ok e) :
    read e.print = .ok e :=
  read_rendered h e.toValue.renders_print

/-- Blanks around every part, an escaped comma, quotes, inner braces, the `{}` mark and a nested
extension. -/
theorem read_one_line_sample :
    ∃ e, read ("\x7b A  b\\, , 'c\x7d' , k = \x7b\x7d d\x7be\x7d ,".toList ++
        "\x7bx:F  \x7bG\x7d\x7d \x7d".toList) = .ok e ∧
      e.print = "\x7bA b\\,, 'c\x7d', k=\x7b\x7d d\x7be\x7d, \x7bx:F \x7bG\x7d\x7d\x7d".toList ∧
      read e.print = .ok e := by
  have h : read ("\x7b A  b\\, , 'c\x7d' , k = \x7b\x7d d\x7be\x7d ,".toList ++
        "\x7bx:F  \x7bG\x7d\x7d \x7d".toList) =
      .ok ⟨['A'], [⟨none, .literal "b\\,".toList⟩, ⟨none, .literal "'c\x7d'".toList⟩,
        ⟨some ['k'], .literal "\x7b\x7d d\x7be\x7d".toList⟩,
        ⟨none, .extension "x:F".toList [⟨none, .extension ['G'] []⟩]⟩]⟩ := rfl
  exact ⟨_, h, rfl, read_one_line h⟩

end Extension
end XamlFormat
