import XamlFormat.Proofs.Extension.RoundTrip

/-! A value that is read as an extension holds the tokens of the extension in order, with nothing but
blanks between them, and so does the one line form. Normalising a value therefore changes blanks
only, and leaves those inside of literals and keys alone. -/
namespace XamlFormat

open Extension

mutual

def Value.tokens : Value → List Chars
  | .literal text => [text]
  | .extension name arguments => ['{'] :: name :: (argumentTokens [] arguments ++ [['}']])

def Argument.tokens : Argument → List Chars
  | .mk none v => v.tokens
  | .mk (some k) v => k :: ['='] :: v.tokens

/-- The tokens of the arguments. The first one follows `lead`, the others a comma. -/
def argumentTokens (lead : List Chars) : List Argument → List Chars
  | [] => []
  | a :: rest => lead ++ (a.tokens ++ argumentTokens [[',']] rest)

end

mutual

def Value.texts : Value → List Chars
  | .literal text => [text]
  | .extension _ arguments => argumentTexts arguments

def Argument.texts : Argument → List Chars
  | .mk none v => v.texts
  | .mk (some k) v => k :: v.texts

def argumentTexts : List Argument → List Chars
  | [] => []
  | a :: rest => a.texts ++ argumentTexts rest

end

mutual

theorem Value.texts_sublist : ∀ v : Value, v.texts.Sublist v.tokens
  | .literal _ => List.Sublist.refl _
  | .extension _ arguments => by
    have h := argumentTexts_sublist [] arguments
    exact ((h.trans (List.sublist_append_left _ _)).cons _).cons _

theorem Argument.texts_sublist : ∀ a : Argument, a.texts.Sublist a.tokens
  | .mk none v => v.texts_sublist
  | .mk (some _) v => (v.texts_sublist.cons _).cons_cons _

theorem argumentTexts_sublist (lead : List Chars) :
    ∀ arguments : List Argument, (argumentTexts arguments).Sublist (argumentTokens lead arguments)
  | [] => List.Sublist.refl _
  | a :: rest =>
    (a.texts_sublist.append (argumentTexts_sublist _ rest)).trans (List.sublist_append_right _ _)

end

namespace Extension

theorem Blanks.append {s t : Chars} (hs : Blanks s) (ht : Blanks t) : Blanks (s ++ t) :=
  List.forall_mem_append.mpr ⟨hs, ht⟩

/-- The tokens in order, with blanks before, between and behind them. -/
def Spread : List Chars → Chars → Prop
  | [], s => Blanks s
  | t :: ts, s => ∃ gap rest, Blanks gap ∧ Spread ts rest ∧ s = gap ++ (t ++ rest)

/-- The texts in order as pieces of `s` that do not overlap. -/
def InOrder : List Chars → Chars → Prop
  | [], _ => True
  | t :: ts, s => ∃ before behind, s = before ++ (t ++ behind) ∧ InOrder ts behind

def inked (s : Chars) : Chars := s.filter fun c => !Text.isBlank c

section Spread

variable {ts us : List Chars} {gap s r : Chars}

theorem spread_token (t : Chars) : Spread [t] t := ⟨[], [], blanks_nil, blanks_nil, by simp⟩

theorem Spread.blanks_append (hg : Blanks gap) (h : Spread ts s) : Spread ts (gap ++ s) := by
  cases ts with
  | nil => exact hg.append h
  | cons t ts =>
    obtain ⟨gap', rest, hgap', hrest, rfl⟩ := h
    exact ⟨gap ++ gap', rest, hg.append hgap', hrest, by simp⟩

theorem Spread.append (h : Spread ts s) (h' : Spread us r) : Spread (ts ++ us) (s ++ r) := by
  induction ts generalizing s with
  | nil => exact h'.blanks_append h
  | cons t ts ih =>
    obtain ⟨gap, rest, hgap, hrest, rfl⟩ := h
    exact ⟨gap, rest ++ r, hgap, ih hrest, by simp⟩

theorem inked_blanks (h : Blanks s) : inked s = [] :=
  List.filter_eq_nil_iff.mpr fun c hc => by simp [h c hc]

theorem inked_append (s t : Chars) : inked (s ++ t) = inked s ++ inked t := List.filter_append ..

theorem Spread.inked_eq (h : Spread ts s) : inked s = inked ts.flatten := by
  induction ts generalizing s with
  | nil => exact inked_blanks h
  | cons t ts ih =>
    obtain ⟨gap, rest, hgap, hrest, rfl⟩ := h
    rw [List.flatten_cons, inked_append, inked_append, inked_append, inked_blanks hgap, ih hrest,
      List.nil_append]

theorem InOrder.append (h : InOrder us s) (t : Chars) : InOrder us (t ++ s) := by
  cases us with
  | nil => trivial
  | cons u us =>
    obtain ⟨before, behind, rfl, h⟩ := h
    exact ⟨t ++ before, behind, by simp, h⟩

theorem Spread.inOrder (h : Spread ts s) (hsub : us.Sublist ts) : InOrder us s := by
  induction hsub generalizing s with
  | slnil => trivial
  | cons t _ ih =>
    obtain ⟨gap, rest, -, hrest, rfl⟩ := h
    exact ((ih hrest).append t).append gap
  | cons_cons t _ ih =>
    obtain ⟨gap, rest, -, hrest, rfl⟩ := h
    exact ⟨gap, rest, rfl, ih hrest⟩

end Spread

end Extension

mutual

theorem Value.spread_print : ∀ v : Value, Spread v.tokens v.print
  | .literal text => spread_token text
  | .extension name arguments => by
    have harguments : Spread (argumentTokens [] arguments) (printArguments [' '] arguments) :=
      spread_printArguments (by simp [Blanks, Spread, Text.isBlank]) arguments
    have h := (spread_token ['{']).append
      ((spread_token name).append (harguments.append (spread_token ['}'])))
    simpa [Value.tokens, Value.print] using h

theorem Argument.spread_print : ∀ a : Argument, Spread a.tokens a.print
  | .mk none v => v.spread_print
  | .mk (some k) v => by
    have h := (spread_token k).append ((spread_token ['=']).append v.spread_print)
    simpa [Argument.tokens, Argument.print] using h

theorem spread_printArguments {lead : Chars} {tokens : List Chars} (hlead : Spread tokens lead) :
    ∀ arguments : List Argument,
      Spread (argumentTokens tokens arguments) (printArguments lead arguments)
  | [] => blanks_nil
  | a :: rest => by
    have hcomma : Spread [[',']] [',', ' '] :=
      ⟨[], [' '], blanks_nil, by simp [Blanks, Spread, Text.isBlank], rfl⟩
    exact hlead.append (a.spread_print.append (spread_printArguments hcomma rest))

end

namespace Extension

section Reader

variable {ts us : List Chars} {s r rest : Chars}

/-- Reading on from `s` to `rest` takes the tokens, and blanks around them. -/
def Takes (tokens : List Chars) (s rest : Chars) : Prop := ∃ used, Spread tokens used ∧ s = used ++ rest

theorem Takes.trans (h : Takes ts s r) (h' : Takes us r rest) : Takes (ts ++ us) s rest := by
  obtain ⟨a, ha, rfl⟩ := h
  obtain ⟨b, hb, rfl⟩ := h'
  exact ⟨a ++ b, ha.append hb, by simp⟩

theorem takes_token (t rest : Chars) : Takes [t] (t ++ rest) rest := ⟨t, spread_token t, rfl⟩

theorem takes_skipBlanks (s : Chars) : Takes [] s (skipBlanks s) :=
  ⟨s.takeWhile Text.isBlank, fun _ => List.mem_takeWhile_imp, (List.takeWhile_append_dropWhile ..).symm⟩

theorem takes_readName {name : Chars} (h : readName s = .ok (name, rest)) : Takes [name] s rest := by
  obtain ⟨c, cs, hs, -, rfl, rfl⟩ := readName_cases h
  have hname := takes_token (c :: cs.takeWhile isNameChar) (cs.dropWhile isNameChar)
  rw [List.cons_append, List.takeWhile_append_dropWhile, ← hs] at hname
  exact ((takes_skipBlanks s).trans hname).trans (takes_skipBlanks _)

theorem takes_readLiteral {keyed : Bool} {text : Chars} (h : readLiteral keyed s = .ok (text, rest)) :
    Takes [text] s rest := by
  unfold readLiteral at h
  split at h
  · simp at h
  · rename_i raw rest' hscan
    simp only [Except.ok.injEq, Prod.mk.injEq] at h
    obtain ⟨rfl, rfl⟩ := h
    obtain ⟨gap, hgap, hraw⟩ := trimLiteral_append raw
    refine ⟨raw, ⟨[], gap, blanks_nil, hgap, hraw⟩, scanLiteral_append hscan⟩

theorem takes_nested (h : opensNested s = true) : Takes [['{']] s s.tail := by
  obtain ⟨t, rfl, -⟩ := opensNested_eq_true.mp h
  exact takes_token ['{'] t

/-- The tokens up to the end of the literal, or up to the brace of the nested extension. -/
def ArgumentStart.tokens (start : ArgumentStart) : List Chars :=
  match start.key with
  | some k => [k, ['='], start.literal.getD ['{']]
  | none => [start.literal.getD ['{']]

theorem takes_readNamedValue {key : Chars} {start : ArgumentStart}
    (h : readNamedValue key s = .ok start) :
    start.key = some key ∧ Takes [start.literal.getD ['{']] s start.rest := by
  obtain ⟨hn, rfl⟩ | ⟨-, text, rest, hread, -, rfl⟩ := readNamedValue_cases h
  · exact ⟨rfl, takes_nested hn⟩
  · exact ⟨rfl, takes_readLiteral hread⟩

theorem takes_readArgumentStart {start : ArgumentStart} (h : readArgumentStart s = .ok start) :
    Takes start.tokens s start.rest := by
  obtain ⟨hn, rfl⟩ | ⟨-, text, rest, -, ⟨hread, h⟩ | ⟨hread, rfl⟩⟩ := readArgumentStart_cases h
  · exact takes_nested hn
  · obtain ⟨hkey, hvalue⟩ := takes_readNamedValue h
    have hequals : Takes [['=']] ('=' :: rest) rest := takes_token ['='] rest
    have hall := (takes_readLiteral hread).trans
      (hequals.trans ((takes_skipBlanks rest).trans hvalue))
    simpa [ArgumentStart.tokens, hkey] using hall
  · exact takes_readLiteral hread

theorem argumentTokens_comma {arguments : List Argument} (h : arguments ≠ []) :
    argumentTokens [[',']] arguments = [','] :: argumentTokens [] arguments := by
  cases arguments with
  | nil => exact absurd rfl h
  | cons a rest => simp [argumentTokens]

theorem takes_readValue {fuel depth : Nat} {start : ArgumentStart} {v : Value} {after : Chars}
    (inner : ∀ s as rest, readArguments fuel (depth + 1) s = .ok (as, rest) →
      Takes (argumentTokens [] as ++ [['}']]) s rest)
    (h : readValue fuel depth start = .ok (v, after)) :
    ∃ us, (Argument.mk start.key v).tokens = start.tokens ++ us ∧ Takes us start.rest after := by
  have split (us : List Chars) (hv : v.tokens = start.literal.getD ['{'] :: us) :
      (Argument.mk start.key v).tokens = start.tokens ++ us := by
    cases hk : start.key <;> simp [ArgumentStart.tokens, Argument.tokens, hk, hv]
  obtain ⟨text, htext, rfl, rfl⟩ | ⟨hnone, -, name, rest, hname, hcases⟩ := readValue_cases h
  · exact ⟨[], split [] (by simp [Value.tokens, htext]), [], blanks_nil, rfl⟩
  · have htokens := takes_readName hname
    obtain ⟨rfl, rfl⟩ | ⟨as, hread, rfl⟩ := hcases
    · exact ⟨_, split [name, ['}']] (by simp [Value.tokens, argumentTokens, hnone]),
        htokens.trans (takes_token ['}'] after)⟩
    · exact ⟨_, split (name :: (argumentTokens [] as ++ [['}']])) (by simp [Value.tokens, hnone]),
        htokens.trans (inner _ _ _ hread)⟩

theorem takes_readArguments {fuel depth : Nat} {as : List Argument}
    (h : readArguments fuel depth s = .ok (as, rest)) :
    Takes (argumentTokens [] as ++ [['}']]) s rest := by
  induction fuel generalizing depth s as rest with
  | zero => simp [readArguments] at h
  | succ fuel ih =>
    obtain ⟨start, value, after, hstart, hvalue, hcases⟩ := readArguments_cases h
    obtain ⟨us, htokens, hus⟩ := takes_readValue (fun _ _ _ h => ih h) hvalue
    have hargument : Takes (Argument.mk start.key value).tokens s (skipBlanks after) := by
      have h := (takes_skipBlanks s).trans
        (((takes_readArgumentStart hstart).trans hus).trans (takes_skipBlanks after))
      simpa [htokens] using h
    obtain ⟨more, as', hafter, hread, rfl⟩ | ⟨hafter, rfl⟩ := hcases
    · rw [hafter] at hargument
      have hall := hargument.trans ((takes_token [','] more).trans (ih hread))
      simpa [argumentTokens, argumentTokens_comma (readArguments_sound hread).1] using hall
    · rw [hafter] at hargument
      simpa [argumentTokens] using hargument.trans (takes_token ['}'] rest)

theorem takes_readBody {e : Extension} (h : readBody s = .ok (e, rest)) :
    Takes (e.name :: (argumentTokens [] e.arguments ++ [['}']])) s rest := by
  obtain ⟨more, hname, ⟨rfl, hnil⟩ | hread⟩ := readBody_cases h
  · rw [hnil]
    exact (takes_readName hname).trans (takes_token ['}'] rest)
  · exact (takes_readName hname).trans (takes_readArguments hread)

theorem trim_of_looksLike {value : Chars} (h : looksLike value = true) :
    Text.trim value = '{' :: (Text.trim value).tail := by
  unfold looksLike at h
  split at h
  · simp at h
  · rename_i heq
    rw [heq, List.tail_cons]
  · simp at h

/-- A value that is read as an extension spreads the tokens of the extension. -/
theorem spread_of_read {value : Chars} {e : Extension} (h : read value = .ok e) :
    Spread e.toValue.tokens value := by
  have htrim := trim_of_looksLike (looksLike_of_read h)
  obtain ⟨before, behind, hvalue, hbefore, hbehind⟩ := (Text.trimmed_trim value).padded
  obtain ⟨used, hused, hrest⟩ :=
    (takes_token ['{'] _).trans (takes_readBody (readBody_of_read h))
  rw [List.append_nil] at hrest
  have hbehind : Spread [] behind := hbehind
  have hspread := (hused.append hbehind).blanks_append hbefore
  rw [List.append_nil, ← hrest] at hspread
  rw [hvalue, htrim, List.append_assoc]
  exact hspread

end Reader

/-- The one line form of a value that was read differs from it in blanks only, and every key and
literal stands in the value as it is, in order. -/
theorem read_changes_blanks {value : Chars} {e : Extension} (h : read value = .ok e) :
    inked e.print = inked value ∧ InOrder e.toValue.texts value := by
  have hvalue := spread_of_read h
  refine ⟨?_, hvalue.inOrder e.toValue.texts_sublist⟩
  rw [hvalue.inked_eq]
  exact e.toValue.spread_print.inked_eq

/-- Blanks around every part and inside of a literal, a blank behind a backslash, quotes and a nested
extension. -/
theorem read_changes_blanks_sample :
    ∃ e, read " \x7b A\tb  c\\  , k = 'x , y' ,\x7bx:F\x7d \x7d".toList = .ok e ∧
      e.print = "\x7bA b  c\\ , k='x , y', \x7bx:F\x7d\x7d".toList ∧
      e.toValue.texts = ["b  c\\ ".toList, "k".toList, "'x , y'".toList] ∧
      inked e.print = inked " \x7b A\tb  c\\  , k = 'x , y' ,\x7bx:F\x7d \x7d".toList ∧
      InOrder e.toValue.texts " \x7b A\tb  c\\  , k = 'x , y' ,\x7bx:F\x7d \x7d".toList := by
  have h : read " \x7b A\tb  c\\  , k = 'x , y' ,\x7bx:F\x7d \x7d".toList =
      .ok ⟨['A'], [⟨none, .literal "b  c\\ ".toList⟩, ⟨some ['k'], .literal "'x , y'".toList⟩,
        ⟨none, .extension "x:F".toList []⟩]⟩ := rfl
  obtain ⟨hinked, horder⟩ := read_changes_blanks h
  exact ⟨_, h, rfl, rfl, hinked, horder⟩

end Extension
end XamlFormat
