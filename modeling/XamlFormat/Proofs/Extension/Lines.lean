import XamlFormat.Proofs.Extension.RoundTrip
import XamlFormat.Extension.Layout

/-! The lines of an extension are the extension: joined by single spaces they are its one line form,
and joined by whatever blanks they are read back as the extension. Both follow from one induction
along the lines. -/
namespace XamlFormat

namespace Text

/-- The texts in order, with something between neighbours of which `P` holds. -/
def Joined (P : Chars → Prop) : List Chars → Chars → Prop
  | [], s => s = []
  | [t], s => s = t
  | t :: u :: ts, s => ∃ gap rest, P gap ∧ Joined P (u :: ts) rest ∧ s = t ++ (gap ++ rest)

section Joined

variable {P : Chars → Prop} {ts us : List Chars} {s : Chars}

theorem joined_joinWith (separator : Chars) (ts : List Chars) :
    Joined (· = separator) ts (joinWith separator ts) := by
  induction ts with
  | nil => rfl
  | cons t ts ih =>
    cases ts with
    | nil => rfl
    | cons u us => exact ⟨separator, _, rfl, ih, by simp [joinWith]⟩

theorem Joined.append (hts : ts ≠ []) (hus : us ≠ []) (h : Joined P (ts ++ us) s) :
    ∃ a gap b, Joined P ts a ∧ P gap ∧ Joined P us b ∧ s = a ++ (gap ++ b) := by
  induction ts generalizing s with
  | nil => exact absurd rfl hts
  | cons t ts ih =>
    cases ts with
    | nil =>
      obtain ⟨u, us, rfl⟩ := List.exists_cons_of_ne_nil hus
      obtain ⟨gap, rest, hgap, hrest, rfl⟩ := h
      exact ⟨t, gap, rest, rfl, hgap, hrest, rfl⟩
    | cons u ts =>
      obtain ⟨gap, rest, hgap, hrest, rfl⟩ := h
      obtain ⟨a, gap', b, ha, hgap', hb, rfl⟩ := ih (by simp) hrest
      exact ⟨t ++ (gap ++ a), gap', b, ⟨gap, a, hgap, ha, rfl⟩, hgap', hb, by simp⟩

theorem Joined.lead {lead t : Chars} (h : Joined P ((lead ++ t) :: ts) s) :
    ∃ r, Joined P (t :: ts) r ∧ s = lead ++ r := by
  cases ts with
  | nil => exact ⟨t, rfl, h⟩
  | cons u ts =>
    obtain ⟨gap, rest, hgap, hrest, rfl⟩ := h
    exact ⟨t ++ (gap ++ rest), ⟨gap, rest, hgap, hrest, rfl⟩, by simp⟩

theorem Joined.last {t : Chars} {c : Char} (h : Joined P (ts ++ [t ++ [c]]) s) :
    ∃ r, Joined P (ts ++ [t]) r ∧ s = r ++ [c] := by
  induction ts generalizing s with
  | nil => exact ⟨t, rfl, h⟩
  | cons u ts ih =>
    cases ts with
    | nil | cons =>
      obtain ⟨gap, rest, hgap, hrest, rfl⟩ := h
      obtain ⟨r, hr, rfl⟩ := ih hrest
      exact ⟨u ++ (gap ++ r), ⟨gap, r, hgap, hr, rfl⟩, by simp⟩

end Joined

end Text

open Text Extension

namespace ExtensionLine

/-- The lines one after the other, where what comes in front of each but the first depends on its
column. -/
def join (gap : Nat → Chars) : List ExtensionLine → Chars
  | [] => []
  | l :: ls => l.text ++ ls.flatMap fun m => gap m.column ++ m.text

variable {P : Chars → Prop} {ls : List ExtensionLine} {s : Chars}

theorem joined_join {gap : Nat → Chars} (hg : ∀ n, P (gap n)) (ls : List ExtensionLine) :
    Joined P (ls.map text) (join gap ls) := by
  cases ls with
  | nil => rfl
  | cons l ls =>
    induction ls generalizing l with
    | nil => exact List.append_nil _
    | cons m ls ih => exact ⟨gap m.column, _, hg _, ih m, by simp [join]⟩

theorem endWith_concat (c : Char) (ms : List ExtensionLine) (m : ExtensionLine) :
    endWith c (ms ++ [m]) = ms ++ [{ m with text := m.text ++ [c] }] := by
  induction ms with
  | nil => rfl
  | cons l ms ih => cases ms <;> simp_all [endWith]

theorem endWith_ne_nil {c : Char} (hls : ls ≠ []) : endWith c ls ≠ [] := by
  obtain ⟨ms, m, rfl⟩ := (List.eq_nil_or_concat' ls).resolve_left hls
  simp [endWith_concat]

theorem map_text_shift (columns : Nat) (ls : List ExtensionLine) :
    (ls.map (shift columns)).map text = ls.map text := by
  simp [shift]

theorem joined_startWith {lead : Chars} (hls : ls ≠ [])
    (h : Joined P ((startWith lead ls).map text) s) : ∃ r, Joined P (ls.map text) r ∧ s = lead ++ r := by
  obtain ⟨l, ls, rfl⟩ := List.exists_cons_of_ne_nil hls
  exact Joined.lead h

theorem joined_labelled {label : Chars} (hls : ls ≠ [])
    (h : Joined P ((labelled label ls).map text) s) : ∃ r, Joined P (ls.map text) r ∧ s = label ++ r := by
  obtain ⟨l, ls, rfl⟩ := List.exists_cons_of_ne_nil hls
  rw [labelled, List.map_cons, map_text_shift] at h
  exact Joined.lead h

theorem joined_endWith {c : Char} (hls : ls ≠ []) (h : Joined P ((endWith c ls).map text) s) :
    ∃ r, Joined P (ls.map text) r ∧ s = r ++ [c] := by
  obtain ⟨ms, m, rfl⟩ := (List.eq_nil_or_concat' ls).resolve_left hls
  rw [endWith_concat, List.map_append] at h
  obtain ⟨r, hr, rfl⟩ := Joined.last h
  exact ⟨r, by simpa using hr, rfl⟩

theorem joined_flushFirst (h : Joined P ((flushFirst ls).map text) s) : Joined P (ls.map text) s := by
  cases ls <;> exact h

end ExtensionLine

open ExtensionLine

mutual

theorem Value.lines_ne_nil (s : Settings) : ∀ v : Value, v.lines s ≠ []
  | .literal _ => by simp [Value.lines]
  | .extension name arguments => by
    rw [Value.lines]
    split_ifs with h
    · have harguments : arguments ≠ [] := by
        rintro rfl
        simp [Extension.splits] at h
      have := argumentLines_ne_nil s (name.length + 2) arguments harguments
      cases hl : argumentLines s (name.length + 2) arguments with
      | nil => exact absurd hl this
      | cons l ls => simp [ExtensionLine.startWith, ExtensionLine.flushFirst]
    · simp

theorem Argument.lines_ne_nil (s : Settings) : ∀ a : Argument, a.lines s ≠ []
  | .mk none v => v.lines_ne_nil s
  | .mk (some k) v => by
    have := v.lines_ne_nil s
    rw [Argument.lines]
    cases hl : v.lines s with
    | nil => exact absurd hl this
    | cons l ls => simp [ExtensionLine.labelled]

theorem argumentLines_ne_nil (s : Settings) (column : Nat) :
    ∀ arguments : List Argument, arguments ≠ [] → argumentLines s column arguments ≠ []
  | [], h => absurd rfl h
  | a :: rest, _ => by
    rw [argumentLines]
    exact List.append_ne_nil_of_left_ne_nil (endWith_ne_nil (by simpa using a.lines_ne_nil s)) _

end

/-- What a family of relations between values, arguments and texts has to fulfil to hold of the lines
of each value, joined by gaps of which `P` holds. -/
structure Composes (P : Chars → Prop) (V : Value → Chars → Prop) (A : Argument → Chars → Prop)
    (L : List Argument → Chars → Prop) : Prop where
  literal : ∀ text, V (.literal text) text
  whole : ∀ name arguments, V (.extension name arguments) (Value.extension name arguments).print
  split : ∀ name arguments t, arguments ≠ [] → L arguments t →
    V (.extension name arguments) ('{' :: (name ++ ' ' :: (t ++ ['}'])))
  positional : ∀ v t, V v t → A (.mk none v) t
  named : ∀ k v t, V v t → A (.mk (some k) v) (k ++ '=' :: t)
  last : ∀ a t, A a t → L [a] t
  more : ∀ a rest t gap u, rest ≠ [] → A a t → P gap → L rest u →
    L (a :: rest) (t ++ ',' :: (gap ++ u))

section Composes

variable {P : Chars → Prop} {V : Value → Chars → Prop} {A : Argument → Chars → Prop}
  {L : List Argument → Chars → Prop}

mutual

theorem Value.composed_lines (h : Composes P V A L) (s : Settings) :
    ∀ (v : Value) (t : Chars), Joined P ((v.lines s).map text) t → V v t
  | .literal text, t, ht => by
    cases ht
    exact h.literal text
  | .extension name arguments, t, ht => by
    rw [Value.lines] at ht
    split_ifs at ht with hsplits
    · have harguments : arguments ≠ [] := by
        rintro rfl
        simp [Extension.splits] at hsplits
      obtain ⟨r, hr, rfl⟩ := joined_startWith
        (argumentLines_ne_nil s (name.length + 2) arguments harguments) (joined_flushFirst ht)
      obtain ⟨u, rfl, hu⟩ := composed_argumentLines h s (name.length + 2) arguments harguments r hr
      simpa using h.split name arguments u harguments hu
    · cases ht
      exact h.whole name arguments

theorem Argument.composed_lines (h : Composes P V A L) (s : Settings) :
    ∀ (a : Argument) (t : Chars), Joined P ((a.lines s).map text) t → A a t
  | .mk none v, t, ht => h.positional v t (v.composed_lines h s t ht)
  | .mk (some k) v, t, ht => by
    obtain ⟨r, hr, rfl⟩ := joined_labelled (v.lines_ne_nil s) ht
    simpa using h.named k v r (v.composed_lines h s r hr)

theorem composed_argumentLines (h : Composes P V A L) (s : Settings) (column : Nat) :
    ∀ arguments : List Argument, arguments ≠ [] → ∀ t : Chars,
      Joined P ((argumentLines s column arguments).map text) t → ∃ u, t = u ++ ['}'] ∧ L arguments u
  | [], hne, _, _ => absurd rfl hne
  | a :: rest, _, t, ht => by
    have hlines : (a.lines s).map (shift column) ≠ [] := by simpa using a.lines_ne_nil s
    rw [argumentLines] at ht
    cases hrest : rest with
    | nil =>
      simp only [hrest, argumentLines, List.append_nil, List.isEmpty_nil, if_true] at ht
      obtain ⟨r, hr, rfl⟩ := joined_endWith hlines ht
      rw [map_text_shift] at hr
      exact ⟨r, rfl, h.last a r (a.composed_lines h s r hr)⟩
    | cons b more =>
      have hmore : rest ≠ [] := by simp [hrest]
      have hcomma : (if rest.isEmpty then '}' else ',') = ',' := by simp [hrest]
      rw [hcomma, List.map_append] at ht
      obtain ⟨x, gap, y, hx, hgap, hy, rfl⟩ := Joined.append
        (by simpa using endWith_ne_nil hlines)
        (by simpa using argumentLines_ne_nil s column rest hmore) ht
      obtain ⟨r, hr, rfl⟩ := joined_endWith hlines hx
      rw [map_text_shift] at hr
      obtain ⟨u, rfl, hu⟩ := composed_argumentLines h s column rest hmore y hy
      rw [← hrest]
      exact ⟨_, by simp, h.more a rest r gap u hmore (a.composed_lines h s r hr) hgap hu⟩

end

end Composes

theorem printArguments_lead (lead : Chars) {arguments : List Argument} (h : arguments ≠ []) :
    printArguments lead arguments = lead ++ printArguments [] arguments := by
  cases arguments with
  | nil => exact absurd rfl h
  | cons a rest => simp [printArguments]

/-- With single spaces as gaps the lines make up the one line form. -/
theorem composes_print : Composes (· = [' ']) (fun v t => t = v.print) (fun a t => t = a.print)
    (fun arguments t => t = printArguments [] arguments) where
  literal _ := rfl
  whole _ _ := rfl
  split name arguments t hne ht := by
    rw [ht, Value.print, printArguments_lead [' '] hne]
    simp
  positional _ _ ht := ht
  named k v t ht := by rw [ht, Argument.print]
  last a t ht := by simp [ht, printArguments]
  more a rest t gap u hne ht hgap hu := by
    rw [ht, hgap, hu, printArguments, printArguments_lead [',', ' '] hne]
    simp

theorem composes_renders : Composes Blanks Value.Renders Argument.Renders RendersArguments where
  literal _ := rfl
  whole name arguments := Value.renders_print (.extension name arguments)
  split _ _ t _ ht := .inr ⟨t, ht, rfl⟩
  positional _ _ ht := ht
  named _ _ t ht := ⟨t, ht, rfl⟩
  last _ _ ht := .inl ⟨rfl, ht⟩
  more _ _ t gap u _ ht hgap hu := .inr ⟨t, gap, u, ht, hgap, hu, rfl⟩

namespace Extension

/-- An extension that was read is read back from its lines, whatever blanks stand between them. -/
theorem read_joined {value t : Chars} {e : Extension} (h : read value = .ok e) (s : Settings)
    (ht : Joined Blanks ((e.lines s).map ExtensionLine.text) t) : read t = .ok e :=
  read_rendered h (e.toValue.composed_lines composes_renders s t ht)

theorem read_lines {value : Chars} {e : Extension} (h : read value = .ok e) (s : Settings)
    {gap : Nat → Chars} (hg : ∀ n, Blanks (gap n)) :
    read (ExtensionLine.join gap (e.lines s)) = .ok e :=
  read_joined h s (joined_join hg (e.lines s))

/-- Splitting an extension over lines does not change it: single spaces between the lines give its
one line form, and with any blanks between them an extension that was read is read again. -/
theorem lines_keep_extension (s : Settings) (e : Extension) :
    joinWith [' '] ((e.lines s).map ExtensionLine.text) = e.print ∧
      ∀ value, read value = .ok e →
        ∀ t, Joined Blanks ((e.lines s).map ExtensionLine.text) t → read t = .ok e :=
  ⟨e.toValue.composed_lines composes_print s _ (joined_joinWith _ _),
    fun _ h _ ht => read_joined h s ht⟩

/-- Two levels that are both split, with nothing behind the first line and a line end and a tab behind
the second. -/
theorem lines_keep_extension_sample :
    ∃ e, read "\x7bOuter A , Key=\x7bInner x,y\x7d\x7d".toList = .ok e ∧
      (e.lines .standard).map ExtensionLine.text =
        ["\x7bOuter A,".toList, "Key=\x7bInner x,".toList, "y\x7d\x7d".toList] ∧
      joinWith [' '] ((e.lines .standard).map ExtensionLine.text) = e.print ∧
      read "\x7bOuter A,Key=\x7bInner x,\n\ty\x7d\x7d".toList = .ok e := by
  have h : read "\x7bOuter A , Key=\x7bInner x,y\x7d\x7d".toList =
      .ok ⟨"Outer".toList, [⟨none, .literal ['A']⟩, ⟨some "Key".toList,
        .extension "Inner".toList [⟨none, .literal ['x']⟩, ⟨none, .literal ['y']⟩]⟩]⟩ := rfl
  obtain ⟨hjoin, hread⟩ := lines_keep_extension .standard ⟨"Outer".toList,
    [⟨none, .literal ['A']⟩, ⟨some "Key".toList,
      .extension "Inner".toList [⟨none, .literal ['x']⟩, ⟨none, .literal ['y']⟩]⟩]⟩
  refine ⟨_, h, rfl, hjoin, hread _ h _ ⟨[], _, blanks_nil, ⟨['\n', '\t'], _, ?_, rfl, rfl⟩, rfl⟩⟩
  simp [Blanks, isBlank]

end Extension
end XamlFormat
