import XamlFormat.Command.Run
import XamlFormat.Proofs.Command.Inquiry

/-! What a task comes to. Its result says whether the file is restyled, fails, is left alone or ends
the program. A check decides as formatting does, and carrying a result out puts at most one new text
into at most one file. -/
namespace XamlFormat

namespace Contents

@[simp] theorem text?_ofText (text : Chars) : text? (ofText text) = some text := by
  have hvalid : (String.ofList text).toUTF8.IsValidUTF8 := (String.ofList text).isValidUTF8
  rw [text?, ofText, String.fromUTF8?, dif_pos hvalid]
  exact congrArg some String.toList_ofList

theorem size_ofText (text : Chars) : (ofText text).size = Text.byteLength text := by
  rw [ofText, String.toUTF8_eq_toByteArray, String.toByteArray_ofList]
  induction text with
  | nil => rfl
  | cons c text ih =>
    rw [List.utf8Encode_cons, ByteArray.size_append, List.utf8Encode_singleton, ih, Text.byteLength]
    simp

end Contents

def Invocation.isInPlace (i : Invocation) : Bool := !i.passive && !i.writeToOutput

def Invocation.inPlace (i : Invocation) : Invocation :=
  { i with passive := false, writeToOutput := false }

@[simp] theorem Invocation.isInPlace_inPlace (i : Invocation) : i.inPlace.isInPlace = true := rfl

theorem Invocation.passive_of_isInPlace {i : Invocation} (h : i.isInPlace = true) :
    i.passive = false := by
  simp only [isInPlace, Bool.and_eq_true, Bool.not_eq_true'] at h
  exact h.1

namespace FileTask

def settings? (t : FileTree) (i : Invocation) (common : Option Settings) (p : Path) :
    Option Settings :=
  match common with
  | some s => some s
  | none => (i.settingsFor t p).1.toOption

def isOversized (t : FileTree) (p : Path) : Bool :=
  match t.read p with
  | .ok bytes => maxBytes < bytes.size
  | .error _ => false

/-- The file is not too large, and styling it succeeds with a text that differs from its own. -/
inductive Restyles (t : FileTree) (i : Invocation) (common : Option Settings) (p : Path)
    (styled : Chars) : Prop
  | intro {s : Settings} {bytes : ByteArray} {text : Chars}
    (settings : settings? t i common p = some s) (contents : t.read p = .ok bytes)
    (size : bytes.size ≤ maxBytes) (isText : Contents.text? bytes = some text)
    (styling : style s (Dialect.ofPath p) text = .ok styled) (differs : styled ≠ text) :
    Restyles t i common p styled

/-- Something is wrong with the settings, with the file or with its text. -/
inductive Fails (t : FileTree) (i : Invocation) (common : Option Settings) (p : Path) : Prop
  | noSettings (settings : settings? t i common p = none) : Fails t i common p
  | unreadable {why : FileTree.Unreadable} (contents : t.read p = .error why) : Fails t i common p
  | notText {bytes : ByteArray} (contents : t.read p = .ok bytes) (size : bytes.size ≤ maxBytes)
    (isText : Contents.text? bytes = none) : Fails t i common p
  | notStyled {s : Settings} {bytes : ByteArray} {text : Chars} {fault : Fault}
    (settings : settings? t i common p = some s) (contents : t.read p = .ok bytes)
    (size : bytes.size ≤ maxBytes) (isText : Contents.text? bytes = some text)
    (styling : style s (Dialect.ofPath p) text = .error fault) (reported : fault ≠ .overflow) :
    Fails t i common p

/-- Styling the file ends the program. -/
inductive Stops (t : FileTree) (i : Invocation) (common : Option Settings) (p : Path) : Prop
  | intro {s : Settings} {bytes : ByteArray} {text : Chars}
    (settings : settings? t i common p = some s) (contents : t.read p = .ok bytes)
    (size : bytes.size ≤ maxBytes) (isText : Contents.text? bytes = some text)
    (styling : style s (Dialect.ofPath p) text = .error .overflow) : Stops t i common p

def verdict (t : FileTree) (i : Invocation) (common : Option Settings) (p : Path) : Result :=
  (look t i common p).1

namespace Result

def ofStyled (i : Invocation) (styled : Chars) (changed : Bool) : Result :=
  if i.passive then .checked changed else .formatted (Contents.ofText styled) changed

/-- What is left of a result where the file is only checked. -/
def asCheck : Result → Result
  | formatted _ changed => checked changed
  | r => r

section

variable (i : Invocation) (styled : Chars) (changed : Bool)

@[simp] theorem isChanged_ofStyled : (ofStyled i styled changed).isChanged = changed := by
  unfold ofStyled
  split_ifs <;> rfl

@[simp] theorem isStopped_ofStyled : (ofStyled i styled changed).isStopped = false := by
  unfold ofStyled
  split_ifs <;> rfl

@[simp] theorem isFailure_ofStyled (passive : Bool) :
    (ofStyled i styled changed).isFailure passive = (passive && changed) := by
  unfold ofStyled
  split_ifs <;> rfl

theorem new?_ofStyled : (ofStyled i styled changed).new? i =
    if i.isInPlace && changed then some (Contents.ofText styled) else none := by
  unfold ofStyled Invocation.isInPlace
  cases i.passive <;> cases hout : i.writeToOutput <;> cases changed <;> simp [new?, hout]

end

theorem exists_ofFault {fault : Fault} (h : fault ≠ .overflow) (place : String) :
    ∃ chain, ofFault place fault = .failed chain := by
  cases fault with
  | overflow => exact absurd rfl h
  | _ => exact ⟨_, rfl⟩

theorem isFailure_asCheck (r : Result) :
    r.asCheck.isFailure true = (r.isChanged || r.isFailure false) := by
  cases r <;> simp [asCheck, isFailure, isChanged]

theorem carryOut_eq_update (i : Invocation) (p : Path) (t : FileTree) (r : Result) :
    r.carryOut i p t = t.update p (r.new? i) := by
  rw [carryOut]
  cases r.new? i <;> rfl

end Result

section Styling

variable (s : Settings) (p : Path) (text : Chars)

theorem check_eq : check s p text = match style s (Dialect.ofPath p) text with
    | .error fault => .ofFault p.toString fault
    | .ok styled => .checked (styled ≠ text) := by
  rw [check, XamlFormat.check]
  cases style s (Dialect.ofPath p) text with
  | error fault => rfl
  | ok styled => by_cases h : styled = text <;> simp [h]

theorem format_eq : format s p text = match style s (Dialect.ofPath p) text with
    | .error fault => .ofFault p.toString fault
    | .ok styled => .formatted (Contents.ofText styled) (styled ≠ text) := by
  rw [format, Contents.format, Contents.text?_ofText]
  dsimp only
  cases style s (Dialect.ofPath p) text <;> rfl

/-- A check decides as formatting does. -/
theorem check_eq_asCheck : check s p text = (format s p text).asCheck := by
  rw [check_eq, format_eq]
  cases style s (Dialect.ofPath p) text with
  | error fault => cases fault <;> rfl
  | ok styled => rfl

theorem judge_of_text {bytes : ByteArray} (i : Invocation)
    (h : Contents.text? bytes = some text) :
    (judge i s p bytes).1 = match style s (Dialect.ofPath p) text with
      | .error fault => .ofFault p.toString fault
      | .ok styled => .ofStyled i styled (styled ≠ text) := by
  simp only [judge, h, Result.ofStyled]
  split_ifs
  · exact check_eq s p text
  · exact format_eq s p text

theorem judge_of_passive {i : Invocation} (hi : i.passive = true) (bytes : ByteArray) :
    (judge i s p bytes).1 = (judge i.inPlace s p bytes).1.asCheck := by
  rw [judge, judge]
  cases Contents.text? bytes with
  | none => rfl
  | some text => exact (if_pos hi).trans (check_eq_asCheck s p text)

end Styling

section Verdict

variable {t : FileTree} {i : Invocation} {common : Option Settings} {p : Path} {s : Settings}
  {bytes : ByteArray} {text styled : Chars}

theorem verdict_of_settings (h : settings? t i common p = some s) :
    verdict t i common p = (inspect t i s p).1 := by
  cases common with
  | some s' =>
    obtain rfl : s' = s := Option.some.inj h
    rfl
  | none =>
    rw [verdict, look]
    rw [settings?] at h
    revert h
    obtain ⟨found, messages⟩ := i.settingsFor t p
    intro h
    cases found with
    | error report => cases h
    | ok s' =>
      obtain rfl : s' = s := Option.some.inj h
      rfl

theorem verdict_of_noSettings (h : settings? t i common p = none) :
    ∃ chain, verdict t i common p = .failed chain ∧ verdict t i.inPlace common p = .failed chain := by
  cases common with
  | some s => cases h
  | none =>
    have hsettings : i.inPlace.settingsFor t p = i.settingsFor t p := rfl
    rw [verdict, verdict, look, look, hsettings]
    rw [settings?] at h
    revert h
    obtain ⟨found, messages⟩ := i.settingsFor t p
    intro h
    cases found with
    | error report => exact ⟨_, rfl, rfl⟩
    | ok s => cases h

/-- The result for a file that is only checked is that of formatting it, without the text. -/
theorem verdict_of_passive (hi : i.passive = true) (t : FileTree) (common : Option Settings)
    (p : Path) : verdict t i common p = (verdict t i.inPlace common p).asCheck := by
  cases hsettings : settings? t i common p with
  | none =>
    obtain ⟨chain, hv, hv'⟩ := verdict_of_noSettings hsettings
    rw [hv, hv']
    rfl
  | some s =>
    rw [verdict_of_settings hsettings, verdict_of_settings (i := i.inPlace) hsettings, inspect,
      inspect]
    cases t.read p with
    | error why => rfl
    | ok bytes =>
      dsimp only
      split_ifs
      · rfl
      · exact judge_of_passive s p hi bytes

theorem inspect_of_large (hread : t.read p = .ok bytes) (hsize : maxBytes < bytes.size) :
    (inspect t i s p).1 = .skipped := by
  simp [inspect, hread, hsize]

theorem inspect_of_size (hread : t.read p = .ok bytes) (hsize : bytes.size ≤ maxBytes) :
    inspect t i s p = judge i s p bytes := by
  simp [inspect, hread, Nat.not_lt.mpr hsize]

theorem verdict_of_text (hsettings : settings? t i common p = some s) (hread : t.read p = .ok bytes)
    (hsize : bytes.size ≤ maxBytes) (htext : Contents.text? bytes = some text) :
    verdict t i common p = match style s (Dialect.ofPath p) text with
      | .error fault => .ofFault p.toString fault
      | .ok styled => .ofStyled i styled (styled ≠ text) := by
  rw [verdict_of_settings hsettings, inspect_of_size hread hsize, judge_of_text s p text i htext]

inductive ComesTo (t : FileTree) (i : Invocation) (common : Option Settings) (p : Path) :
    Result → Prop
  | failed (chain : List String) (h : Fails t i common p) : ComesTo t i common p (.failed chain)
  | stopped (h : Stops t i common p) : ComesTo t i common p .stopped
  | skipped (h : isOversized t p = true) : ComesTo t i common p .skipped
  | kept (text : Chars) (h : isOversized t p = false) :
    ComesTo t i common p (.ofStyled i text false)
  | restyled {styled : Chars} (h : Restyles t i common p styled) :
    ComesTo t i common p (.ofStyled i styled true)

theorem comesTo_verdict (t : FileTree) (i : Invocation) (common : Option Settings) (p : Path) :
    ComesTo t i common p (verdict t i common p) := by
  cases hsettings : settings? t i common p with
  | none =>
    obtain ⟨chain, hv, -⟩ := verdict_of_noSettings hsettings
    rw [hv]
    exact .failed chain (.noSettings hsettings)
  | some s =>
    cases hread : t.read p with
    | error why =>
      rw [verdict_of_settings hsettings, inspect, hread]
      exact .failed _ (.unreadable hread)
    | ok bytes =>
      have hoversized : isOversized t p = decide (maxBytes < bytes.size) := by
        rw [isOversized, hread]
      by_cases hsize : maxBytes < bytes.size
      · rw [verdict_of_settings hsettings, inspect_of_large hread hsize]
        exact .skipped (by simpa [hoversized] using hsize)
      replace hsize := Nat.not_lt.mp hsize
      cases htext : Contents.text? bytes with
      | none =>
        rw [verdict_of_settings hsettings, inspect_of_size hread hsize, judge, htext]
        exact .failed _ (.notText hread hsize htext)
      | some text =>
        rw [verdict_of_text hsettings hread hsize htext]
        cases hstyle : style s (Dialect.ofPath p) text with
        | error fault =>
          by_cases hfault : fault = .overflow
          · subst hfault
            exact .stopped (.intro hsettings hread hsize htext hstyle)
          · obtain ⟨chain, hchain⟩ := Result.exists_ofFault hfault p.toString
            simp only [hchain]
            exact .failed chain (.notStyled hsettings hread hsize htext hstyle hfault)
        | ok styled =>
          by_cases heq : styled = text
          · simp only [heq, ne_eq, not_true_eq_false, decide_false]
            exact .kept text (by simpa [hoversized] using hsize)
          · simp only [heq, ne_eq, not_false_eq_true, decide_true]
            exact .restyled (.intro hsettings hread hsize htext hstyle heq)

theorem Restyles.verdict (h : Restyles t i common p styled) :
    verdict t i common p = .ofStyled i styled true := by
  obtain ⟨hsettings, hread, hsize, htext, hstyle, hne⟩ := h
  rw [verdict_of_text hsettings hread hsize htext, hstyle]
  simp [hne]

theorem Stops.verdict (h : Stops t i common p) : verdict t i common p = .stopped := by
  obtain ⟨hsettings, hread, hsize, htext, hstyle⟩ := h
  rw [verdict_of_text hsettings hread hsize htext, hstyle]
  rfl

theorem Fails.verdict (h : Fails t i common p) : ∃ chain, verdict t i common p = .failed chain := by
  cases hsettings : settings? t i common p with
  | none =>
    obtain ⟨chain, hv, -⟩ := verdict_of_noSettings hsettings
    exact ⟨chain, hv⟩
  | some s =>
    cases h with
    | noSettings h => rw [h] at hsettings; cases hsettings
    | unreadable hread => simp [verdict_of_settings hsettings, inspect, hread]
    | notText hread hsize htext =>
      simp [verdict_of_settings hsettings, inspect_of_size hread hsize, judge, htext]
    | notStyled hs hread hsize htext hstyle hfault =>
      rw [verdict_of_text hs hread hsize htext, hstyle]
      exact Result.exists_ofFault hfault p.toString

theorem exists_restyles_iff :
    (∃ styled, Restyles t i common p styled) ↔ (verdict t i common p).isChanged = true := by
  refine ⟨fun ⟨styled, h⟩ => by rw [h.verdict, Result.isChanged_ofStyled], fun h => ?_⟩
  have hcomes := comesTo_verdict t i common p
  generalize FileTask.verdict t i common p = r at h hcomes
  cases hcomes with
  | failed | stopped | skipped => cases h
  | kept => rw [Result.isChanged_ofStyled] at h; cases h
  | restyled hstyled => exact ⟨_, hstyled⟩

theorem stops_iff : Stops t i common p ↔ (verdict t i common p).isStopped = true := by
  refine ⟨fun h => by rw [h.verdict]; rfl, fun h => ?_⟩
  have hcomes := comesTo_verdict t i common p
  generalize FileTask.verdict t i common p = r at h hcomes
  cases hcomes with
  | failed | skipped => cases h
  | kept | restyled => rw [Result.isStopped_ofStyled] at h; cases h
  | stopped hstops => exact hstops

theorem stops_inPlace_iff : Stops t i.inPlace common p ↔ Stops t i common p :=
  ⟨fun ⟨hsettings, hread, hsize, htext, hstyle⟩ => ⟨hsettings, hread, hsize, htext, hstyle⟩,
    fun ⟨hsettings, hread, hsize, htext, hstyle⟩ => ⟨hsettings, hread, hsize, htext, hstyle⟩⟩

theorem isFailure_verdict_iff :
    (verdict t i common p).isFailure i.passive = true ↔
      Fails t i common p ∨ i.passive = true ∧ ∃ styled, Restyles t i common p styled := by
  rw [exists_restyles_iff]
  constructor
  · intro h
    have hcomes := comesTo_verdict t i common p
    generalize FileTask.verdict t i common p = r at h hcomes ⊢
    cases hcomes with
    | failed chain hfails => exact .inl hfails
    | stopped | skipped => simp [Result.isFailure, Result.isChanged] at h
    | kept => simp at h
    | restyled => exact .inr (by simpa using h)
  · rintro (hfails | ⟨hi, hchanged⟩)
    · obtain ⟨chain, hv⟩ := hfails.verdict
      rw [hv]
      rfl
    · cases hv : FileTask.verdict t i common p <;> simp_all [Result.isFailure, Result.isChanged]

end Verdict

section Modes

variable {t : FileTree} {i : Invocation} {common : Option Settings} {p : Path} {styled : Chars}

theorem new?_verdict (h : Restyles t i common p styled) (hi : i.isInPlace = true) :
    (verdict t i common p).new? i = some (Contents.ofText styled) := by
  rw [h.verdict, Result.new?_ofStyled, hi]
  rfl

theorem isSome_new?_verdict_iff :
    ((verdict t i common p).new? i).isSome = true ↔
      i.isInPlace = true ∧ ∃ styled, Restyles t i common p styled := by
  refine ⟨fun h => ?_, fun ⟨hi, styled, h⟩ => by rw [new?_verdict h hi]; rfl⟩
  have hcomes := comesTo_verdict t i common p
  generalize FileTask.verdict t i common p = r at h hcomes
  cases hcomes with
  | failed | stopped | skipped => cases h
  | kept => simp [Result.new?_ofStyled] at h
  | restyled hstyled =>
    rw [Result.new?_ofStyled, Bool.and_true] at h
    split_ifs at h with hi
    · exact ⟨hi, _, hstyled⟩
    · cases h

/-- The line for a file that is only checked. A file that is too large for formatting has none. -/
def checkLine (t : FileTree) (fails : Bool) (p : Path) : Chars :=
  if fails then ("FAIL " ++ p.toString ++ "\n").toList
  else if isOversized t p then []
  else ("PASS " ++ p.toString ++ "\n").toList

theorem output_verdict (hi : i.passive = true) (hgo : ¬ Stops t i common p) :
    (verdict t i common p).output i p =
      checkLine t ((verdict t i common p).isFailure i.passive) p := by
  have hcomes := comesTo_verdict t i common p
  generalize FileTask.verdict t i common p = r at hcomes ⊢
  cases hcomes with
  | failed chain => simp [Result.output, Result.isFailure, checkLine, hi]
  | stopped hstops => exact absurd hstops hgo
  | skipped h => simp [Result.output, Result.isFailure, Result.isChanged, checkLine, hi, h]
  | kept text h =>
    simp [Result.ofStyled, Result.output, Result.isFailure, Result.isChanged, checkLine, hi, h]
  | restyled => simp [Result.ofStyled, Result.output, Result.isFailure, Result.isChanged, checkLine, hi]

end Modes

end FileTask
end XamlFormat
