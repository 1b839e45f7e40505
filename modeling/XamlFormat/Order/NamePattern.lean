import XamlFormat.Text.Blank
import XamlFormat.Text.Tails

/-! Name patterns. A pattern is a name, or a text in which each `*` stands for any run of characters
of one line. Patterns come in groups; a name belongs to the group of the pattern that fits it
best. -/
namespace XamlFormat

/-- Which tails of a name a pattern fits. -/
def fitRow : Chars → Chars → List Bool
  | [], name => Tails.row List.isEmpty name
  | c :: pattern, name =>
    if c = '*' then Tails.run (· != '\n') name (fitRow pattern name)
    else Tails.one (· == c) name (fitRow pattern name)

def fits (pattern name : Chars) : Bool := Tails.whole (fitRow pattern name)

theorem fitRow_eq (pattern name : Chars) : fitRow pattern name = Tails.row (fits pattern) name := by
  obtain ⟨f, h⟩ : ∃ f, ∀ name, fitRow pattern name = Tails.row f name := by
    induction pattern with
    | nil => exact ⟨_, fun _ => rfl⟩
    | cons c pattern ih =>
      obtain ⟨f, h⟩ := ih
      by_cases hc : c = '*'
      · exact ⟨Tails.startsWithRun (· != '\n') f, fun name => by
          rw [fitRow, if_pos hc, h, Tails.run_row]⟩
      · exact ⟨Tails.startsWithOne (· == c) f, fun name => by
          rw [fitRow, if_neg hc, h, Tails.one_row]⟩
  have hf : fits pattern = f := funext fun s => by rw [fits, h, Tails.whole_row]
  rw [h, hf]

theorem fits_nil (name : Chars) : fits [] name = name.isEmpty := Tails.whole_row _ _

/-- A star stands for a run of characters of one line. -/
theorem fits_star (pattern name : Chars) :
    fits ('*' :: pattern) name = Tails.startsWithRun (· != '\n') (fits pattern) name := by
  rw [fits, fitRow, if_pos rfl, fitRow_eq, Tails.run_row, Tails.whole_row]

theorem fits_char {c : Char} (hc : c ≠ '*') (pattern name : Chars) :
    fits (c :: pattern) name = Tails.startsWithOne (· == c) (fits pattern) name := by
  rw [fits, fitRow, if_neg hc, fitRow_eq, Tails.one_row, Tails.whole_row]

structure NamePattern where
  pattern : Chars
  group : Nat
  /-- Position within the group. -/
  priority : Nat
deriving DecidableEq, Repr

/-- Where a name goes. Names that no pattern fits come after all groups. -/
structure Rank where
  group : Nat
  priority : Nat
  matched : Bool
deriving DecidableEq, Repr

namespace NamePattern

def isWildcard (p : NamePattern) : Bool := p.pattern.contains '*'

/-- Characters that are not wildcards. -/
def specificity (p : NamePattern) : Nat := (p.pattern.filter (· != '*')).length

def rank (p : NamePattern) : Rank := ⟨p.group, p.priority, true⟩

/-- The first of the most specific wildcards that fit the name. -/
def bestWildcard (name : Chars) : List NamePattern → Option NamePattern
  | [] => none
  | p :: ps =>
    let later := bestWildcard name ps
    if p.isWildcard && fits p.pattern name then
      match later with
      | some q => if q.specificity > p.specificity then some q else some p
      | none => some p
    else later

end NamePattern

structure OrderingRules where
  patterns : List NamePattern
  groupCount : Nat

namespace OrderingRules

def ofGroups (groups : List Chars) : OrderingRules where
  patterns := groups.zipIdx.flatMap fun (patterns, group) =>
    (Text.nameList patterns).zipIdx.map fun (pattern, priority) => ⟨pattern, group, priority⟩
  groupCount := groups.length

/-- A name goes with the first pattern that is that name, otherwise with the most specific wildcard
that fits it. -/
def classify (rules : OrderingRules) (name : Chars) : Rank :=
  match rules.patterns.find? fun p => !p.isWildcard && p.pattern == name with
  | some p => p.rank
  | none =>
    match NamePattern.bestWildcard name rules.patterns with
    | some p => p.rank
    | none => ⟨rules.groupCount, 0, false⟩

end OrderingRules
end XamlFormat
