import XamlFormat.Proofs.Text.Blanks
import XamlFormat.Order.NamePattern

/-! Which pattern a name goes with. Patterns have a meaning of their own, told by how a name is
divided among their stars; the rank of a name is told by the patterns that are declared, not by how
they are looked up. -/
namespace XamlFormat

namespace Tails

theorem startsWithRun_iff {allowed : Char → Bool} {f : Chars → Bool} {s : Chars} :
    startsWithRun allowed f s = true ↔
      ∃ run rest, s = run ++ rest ∧ (∀ c ∈ run, allowed c = true) ∧ f rest = true := by
  induction s with
  | nil => simp [startsWithRun]
  | cons c s ih =>
    rw [startsWithRun, Bool.or_eq_true, Bool.and_eq_true, ih]
    constructor
    · rintro (h | ⟨hc, run, rest, rfl, hrun, h⟩)
      · exact ⟨[], c :: s, rfl, by simp, h⟩
      · exact ⟨c :: run, rest, rfl, List.forall_mem_cons.mpr ⟨hc, hrun⟩, h⟩
    · rintro ⟨run, rest, heq, hrun, h⟩
      cases run with
      | nil => exact .inl (by rwa [heq])
      | cons d run =>
        obtain ⟨rfl, rfl⟩ : c = d ∧ s = run ++ rest := by simpa using heq
        obtain ⟨hc, hrun⟩ := List.forall_mem_cons.mp hrun
        exact .inr ⟨hc, run, rest, rfl, hrun, h⟩

end Tails

/-- The pattern stands for the name: each star for a run of characters without a line feed, each
other character for itself. -/
inductive StandsFor : Chars → Chars → Prop
  | nil : StandsFor [] []
  | star {run pattern name : Chars} (hrun : '\n' ∉ run) (h : StandsFor pattern name) :
      StandsFor ('*' :: pattern) (run ++ name)
  | char {c : Char} {pattern name : Chars} (hc : c ≠ '*') (h : StandsFor pattern name) :
      StandsFor (c :: pattern) (c :: name)

theorem standsFor_nil {name : Chars} : StandsFor [] name ↔ name = [] := by
  constructor
  · rintro ⟨⟩
    rfl
  · rintro rfl
    exact .nil

theorem standsFor_star {pattern name : Chars} :
    StandsFor ('*' :: pattern) name ↔
      ∃ run rest, name = run ++ rest ∧ '\n' ∉ run ∧ StandsFor pattern rest := by
  constructor
  · intro h
    cases h with
    | star hrun h => exact ⟨_, _, rfl, hrun, h⟩
    | char hc => exact absurd rfl hc
  · rintro ⟨run, rest, rfl, hrun, h⟩
    exact .star hrun h

theorem standsFor_char {c : Char} (hc : c ≠ '*') {pattern name : Chars} :
    StandsFor (c :: pattern) name ↔ ∃ rest, name = c :: rest ∧ StandsFor pattern rest := by
  constructor
  · intro h
    cases h with
    | star => exact absurd rfl hc
    | char _ h => exact ⟨_, rfl, h⟩
  · rintro ⟨rest, rfl, h⟩
    exact .char hc h

/-- Matching by rows finds a division of the name wherever there is one. -/
theorem fits_iff {pattern name : Chars} : fits pattern name = true ↔ StandsFor pattern name := by
  induction pattern generalizing name with
  | nil => rw [fits_nil, List.isEmpty_iff, standsFor_nil]
  | cons c pattern ih =>
    by_cases hc : c = '*'
    · have hrun (run : Chars) : (∀ d ∈ run, (d != '\n') = true) ↔ '\n' ∉ run := by
        simp only [bne_iff_ne]
        exact ⟨fun h hmem => h _ hmem rfl, fun h d hd hline => h (hline ▸ hd)⟩
      rw [hc, fits_star, Tails.startsWithRun_iff, standsFor_star]
      simp only [hrun, ih]
    · rw [fits_char hc, standsFor_char hc]
      cases name with
      | nil => simp [Tails.startsWithOne]
      | cons d name => simp [Tails.startsWithOne, ih, and_comm]

theorem standsFor_of_notMem {pattern name : Chars} (h : '*' ∉ pattern) :
    StandsFor pattern name ↔ pattern = name := by
  induction pattern generalizing name with
  | nil => rw [standsFor_nil, eq_comm]
  | cons c pattern ih =>
    obtain ⟨hc, hpattern⟩ : c ≠ '*' ∧ '*' ∉ pattern := by simpa [eq_comm] using h
    rw [standsFor_char hc]
    constructor
    · rintro ⟨rest, rfl, hrest⟩
      rw [(ih hpattern).mp hrest]
    · rintro rfl
      exact ⟨pattern, rfl, (ih hpattern).mpr rfl⟩

namespace NamePattern

def place (p : NamePattern) : Nat ×ₗ Nat := toLex (p.group, p.priority)

def Suits (name : Chars) (p : NamePattern) : Prop := '*' ∈ p.pattern ∧ StandsFor p.pattern name

theorem suits_iff {name : Chars} {p : NamePattern} :
    (p.isWildcard && fits p.pattern name) = true ↔ p.Suits name := by
  simp [isWildcard, Suits, fits_iff]

theorem isName_iff {name : Chars} {p : NamePattern} :
    (!p.isWildcard && p.pattern == name) = true ↔ '*' ∉ name ∧ p.pattern = name := by
  simp only [isWildcard, Bool.and_eq_true, Bool.not_eq_true', beq_iff_eq, ← Bool.not_eq_true,
    List.contains_iff_mem]
  exact and_congr_left fun h => by rw [h]

theorem specificity_eq (p : NamePattern) : p.specificity = p.pattern.countP (· ≠ '*') := by
  rw [specificity, List.countP_eq_length_filter]
  refine congrArg List.length (List.filter_congr fun c _ => ?_)
  simp only [bne, ne_eq, decide_not, beq_eq_decide]

theorem bestWildcard_eq_none {name : Chars} {ps : List NamePattern} :
    bestWildcard name ps = none ↔ ∀ p ∈ ps, ¬ p.Suits name := by
  induction ps with
  | nil => simp [bestWildcard]
  | cons p ps ih =>
    rw [bestWildcard, List.forall_mem_cons, ← ih, ← suits_iff]
    cases hlater : bestWildcard name ps <;> split_ifs with hp <;> simp [hp]
    split_ifs <;> simp

/-- The wildcard that is taken is more specific than those before it, and not less so than those
behind it. -/
theorem bestWildcard_eq_some {name : Chars} {ps : List NamePattern} {p : NamePattern}
    (h : bestWildcard name ps = some p) :
    p.Suits name ∧ ∃ before after, ps = before ++ p :: after ∧
      (∀ q ∈ before, q.Suits name → q.specificity < p.specificity) ∧
      ∀ q ∈ p :: after, q.Suits name → q.specificity ≤ p.specificity := by
  induction ps generalizing p with
  | nil => simp [bestWildcard] at h
  | cons q ps ih =>
    rw [bestWildcard] at h
    by_cases hq : (q.isWildcard && fits q.pattern name) = true
    · rw [if_pos hq] at h
      cases hlater : bestWildcard name ps with
      | none =>
        obtain rfl : q = p := by simpa [hlater] using h
        exact ⟨suits_iff.mp hq, [], ps, rfl, by simp, List.forall_mem_cons.mpr ⟨fun _ => le_rfl,
          fun x hx hsuits => absurd hsuits (bestWildcard_eq_none.mp hlater x hx)⟩⟩
      | some r =>
        obtain ⟨hr, before, after, rfl, hbefore, hafter⟩ := ih hlater
        simp only [hlater] at h
        split_ifs at h with hmore
        · obtain rfl : r = p := by simpa using h
          exact ⟨hr, q :: before, after, rfl,
            List.forall_mem_cons.mpr ⟨fun _ => hmore, hbefore⟩, hafter⟩
        · obtain rfl : q = p := by simpa using h
          refine ⟨suits_iff.mp hq, [], _, rfl, by simp,
            List.forall_mem_cons.mpr ⟨fun _ => le_rfl, fun x hx hsuits => ?_⟩⟩
          have hle : x.specificity ≤ r.specificity := by
            obtain hx | hx := List.mem_append.mp hx
            · exact (hbefore x hx hsuits).le
            · exact hafter x hx hsuits
          omega
    · rw [if_neg hq] at h
      obtain ⟨hp, before, after, rfl, hbefore, hafter⟩ := ih h
      exact ⟨hp, q :: before, after, rfl,
        List.forall_mem_cons.mpr ⟨fun hsuits => absurd (suits_iff.mpr hsuits) hq, hbefore⟩, hafter⟩

end NamePattern

theorem pairwise_zipIdx {α : Type} (l : List α) : l.zipIdx.Pairwise fun a b => a.2 < b.2 := by
  rw [← List.pairwise_map (f := Prod.snd) (R := (· < ·)), List.zipIdx_map_snd]
  exact List.pairwise_lt_range'

namespace OrderingRules

/-- Group number `group` has the pattern as entry number `priority`. -/
def Declared (groups : List Chars) (pattern : Chars) (group priority : Nat) : Prop :=
  ∃ list entries, groups[group]? = some list ∧ Text.Entries list entries ∧
    entries[priority]? = some pattern

theorem Declared.group_lt {groups : List Chars} {pattern : Chars} {group priority : Nat}
    (h : Declared groups pattern group priority) : group < groups.length := by
  obtain ⟨list, -, hlist, -⟩ := h
  exact (List.getElem?_eq_some_iff.mp hlist).1

theorem mem_patterns {groups : List Chars} {pattern : Chars} {group priority : Nat} :
    ⟨pattern, group, priority⟩ ∈ (ofGroups groups).patterns ↔
      Declared groups pattern group priority := by
  simp only [ofGroups, List.mem_flatMap, List.mem_map, Prod.exists, Declared, Text.entries_iff,
    List.mem_zipIdx_iff_getElem?]
  constructor
  · rintro ⟨list, _, hlist, _, _, hpattern, ⟨⟩⟩
    exact ⟨list, _, hlist, rfl, hpattern⟩
  · rintro ⟨list, _, hlist, rfl, hpattern⟩
    exact ⟨list, group, hlist, pattern, priority, hpattern, rfl⟩

theorem pairwise_patterns (groups : List Chars) :
    (ofGroups groups).patterns.Pairwise fun p q => p.place < q.place := by
  refine List.pairwise_flatMap.mpr ⟨fun a _ => ?_, (pairwise_zipIdx groups).imp ?_⟩
  · refine List.pairwise_map.mpr ((pairwise_zipIdx _).imp fun {x y} hxy => ?_)
    exact Prod.Lex.toLex_lt_toLex.mpr (.inr ⟨rfl, hxy⟩)
  · intro a b hab p hp q hq
    obtain ⟨x, -, rfl⟩ := List.mem_map.mp hp
    obtain ⟨y, -, rfl⟩ := List.mem_map.mp hq
    exact Prod.Lex.toLex_lt_toLex.mpr (.inl hab)

inductive Classified (groups : List Chars) (name : Chars) : Rank → Prop
  /-- The name is declared as a pattern without stars. Its first declaration counts. -/
  | exact {group priority : Nat} (hstar : '*' ∉ name) (h : Declared groups name group priority)
      (hfirst : ∀ group' priority', Declared groups name group' priority' →
        toLex (group, priority) ≤ toLex (group', priority')) :
      Classified groups name ⟨group, priority, true⟩
  /-- Otherwise a wildcard stands for the name. No other one that does has more characters besides
  its stars, and those with as many are declared later. -/
  | wildcard {pattern : Chars} {group priority : Nat}
      (hexact : '*' ∉ name → ∀ group' priority', ¬ Declared groups name group' priority')
      (h : Declared groups pattern group priority) (hstar : '*' ∈ pattern)
      (hname : StandsFor pattern name)
      (hbest : ∀ pattern' group' priority', Declared groups pattern' group' priority' →
        '*' ∈ pattern' → StandsFor pattern' name →
          pattern'.countP (· ≠ '*') < pattern.countP (· ≠ '*') ∨
            pattern'.countP (· ≠ '*') = pattern.countP (· ≠ '*') ∧
              toLex (group, priority) ≤ toLex (group', priority')) :
      Classified groups name ⟨group, priority, true⟩
  /-- No pattern is the name, and no wildcard stands for it. -/
  | unmatched
      (hexact : '*' ∉ name → ∀ group' priority', ¬ Declared groups name group' priority')
      (hwildcard : ∀ pattern group priority, Declared groups pattern group priority →
        '*' ∈ pattern → ¬ StandsFor pattern name) :
      Classified groups name ⟨groups.length, 0, false⟩

theorem place_le {groups : List Chars} {before after : List NamePattern} {p q : NamePattern}
    (h : (ofGroups groups).patterns = before ++ p :: after) (hq : q ∈ p :: after) :
    p.place ≤ q.place := by
  have hsorted := pairwise_patterns groups
  rw [h] at hsorted
  obtain ⟨-, hsorted, -⟩ := List.pairwise_append.mp hsorted
  obtain rfl | hq := List.mem_cons.mp hq
  · exact le_rfl
  · exact ((List.pairwise_cons.mp hsorted).1 q hq).le

theorem classified_exact {groups : List Chars} {name : Chars} {p : NamePattern}
    (h : ((ofGroups groups).patterns.find? fun p => !p.isWildcard && p.pattern == name) = some p) :
    Classified groups name p.rank := by
  obtain ⟨hp, before, after, hsplit, hbefore⟩ := List.find?_eq_some_iff_append.mp h
  obtain ⟨hstar, hname⟩ := NamePattern.isName_iff.mp hp
  refine .exact hstar (hname ▸ mem_patterns.mp (List.mem_of_find?_eq_some h)) ?_
  intro group priority hdeclared
  have hmem := mem_patterns.mpr hdeclared
  rw [hsplit, List.mem_append] at hmem
  obtain hmem | hmem := hmem
  · have hnot := hbefore _ hmem
    rw [NamePattern.isName_iff.mpr ⟨hstar, rfl⟩] at hnot
    cases hnot
  · exact place_le hsplit hmem

theorem classified_wildcard {groups : List Chars} {name : Chars} {p : NamePattern}
    (hexact : '*' ∉ name → ∀ group priority, ¬ Declared groups name group priority)
    (h : NamePattern.bestWildcard name (ofGroups groups).patterns = some p) :
    Classified groups name p.rank := by
  obtain ⟨⟨hstar, hname⟩, before, after, hsplit, hbefore, hafter⟩ :=
    NamePattern.bestWildcard_eq_some h
  have hp : p ∈ (ofGroups groups).patterns := by simp [hsplit]
  refine .wildcard hexact (mem_patterns.mp hp) hstar hname ?_
  intro pattern group priority hdeclared hstar' hname'
  have hmem := mem_patterns.mpr hdeclared
  rw [hsplit, List.mem_append] at hmem
  obtain hmem | hmem := hmem
  · have hlt := hbefore _ hmem ⟨hstar', hname'⟩
    rw [NamePattern.specificity_eq, NamePattern.specificity_eq] at hlt
    exact .inl hlt
  · have hle := hafter _ hmem ⟨hstar', hname'⟩
    rw [NamePattern.specificity_eq, NamePattern.specificity_eq] at hle
    exact hle.lt_or_eq.imp_right fun heq => ⟨heq, place_le hsplit hmem⟩

theorem classified (groups : List Chars) (name : Chars) :
    Classified groups name ((ofGroups groups).classify name) := by
  rw [classify]
  cases hfind : (ofGroups groups).patterns.find? fun p => !p.isWildcard && p.pattern == name with
  | some p => exact classified_exact hfind
  | none =>
    have hexact : '*' ∉ name → ∀ group priority, ¬ Declared groups name group priority := by
      intro hstar group priority h
      exact List.find?_eq_none.mp hfind _ (mem_patterns.mpr h)
        (NamePattern.isName_iff.mpr ⟨hstar, rfl⟩)
    cases hbest : NamePattern.bestWildcard name (ofGroups groups).patterns with
    | some p => exact classified_wildcard hexact hbest
    | none =>
      refine .unmatched hexact fun pattern group priority h hstar hname => ?_
      exact NamePattern.bestWildcard_eq_none.mp hbest _ (mem_patterns.mpr h) ⟨hstar, hname⟩

theorem Classified.unique {groups : List Chars} {name : Chars} {r r' : Rank}
    (h : Classified groups name r) (h' : Classified groups name r') : r = r' := by
  have hplace {g i g' i' : Nat} (hle : toLex (g, i) ≤ toLex (g', i'))
      (hge : toLex (g', i') ≤ toLex (g, i)) : (⟨g, i, true⟩ : Rank) = ⟨g', i', true⟩ := by
    obtain ⟨rfl, rfl⟩ := Prod.mk.inj (toLex.injective (hle.antisymm hge))
    rfl
  cases h with
  | exact hstar h hfirst =>
    cases h' with
    | exact _ h' hfirst' => exact hplace (hfirst _ _ h') (hfirst' _ _ h)
    | wildcard hexact => exact absurd h (hexact hstar _ _)
    | unmatched hexact => exact absurd h (hexact hstar _ _)
  | wildcard hexact h hstar hname hbest =>
    cases h' with
    | exact hstar' h' => exact absurd h' (hexact hstar' _ _)
    | wildcard _ h' hstar' hname' hbest' =>
      obtain hlt | ⟨heq, hle⟩ := hbest _ _ _ h' hstar' hname'
      · obtain hlt' | ⟨heq', -⟩ := hbest' _ _ _ h hstar hname
        · omega
        · omega
      · obtain hlt' | ⟨-, hge⟩ := hbest' _ _ _ h hstar hname
        · omega
        · exact hplace hle hge
    | unmatched _ hwildcard => exact absurd hname (hwildcard _ _ _ h hstar)
  | unmatched hexact hwildcard =>
    cases h' with
    | exact hstar h' => exact absurd h' (hexact hstar _ _)
    | wildcard _ h' hstar' hname' => exact absurd hname' (hwildcard _ _ _ h' hstar')
    | unmatched => rfl

/-- Whether a pattern fits a name can be told from its group. -/
theorem classify_matched (groups : List Chars) (name : Chars) :
    ((ofGroups groups).classify name).matched =
      decide (((ofGroups groups).classify name).group < groups.length) := by
  have h := classified groups name
  generalize (ofGroups groups).classify name = rank at h
  cases h with
  | exact _ h => simp [h.group_lt]
  | wildcard _ h => simp [h.group_lt]
  | unmatched => simp

/-- A name is matched where some declared pattern stands for it. -/
theorem matched_iff (groups : List Chars) (name : Chars) :
    ((ofGroups groups).classify name).matched = true ↔
      ∃ pattern group priority,
        Declared groups pattern group priority ∧ StandsFor pattern name := by
  have h := classified groups name
  generalize (ofGroups groups).classify name = rank at h
  cases h with
  | exact hstar h =>
    exact iff_of_true rfl ⟨name, _, _, h, (standsFor_of_notMem hstar).mpr rfl⟩
  | wildcard _ h _ hname => exact iff_of_true rfl ⟨_, _, _, h, hname⟩
  | unmatched hexact hwildcard =>
    refine iff_of_false Bool.false_ne_true ?_
    rintro ⟨pattern, group, priority, h, hname⟩
    by_cases hstar : '*' ∈ pattern
    · exact hwildcard pattern group priority h hstar hname
    · obtain rfl := (standsFor_of_notMem hstar).mp hname
      exact hexact hstar group priority h

/-- A name goes with its first declaration, otherwise with the first of the most specific wildcards
that stand for it, otherwise behind all groups. -/
theorem classify_eq_iff (groups : List Chars) (name : Chars) (rank : Rank) :
    (ofGroups groups).classify name = rank ↔ Classified groups name rank := by
  constructor
  · rintro rfl
    exact classified groups name
  · exact (classified groups name).unique

example : (ofGroups (["*", "*:*, xmlns:*", "*:Name", "x:Name"].map String.toList)).classify
    "x:Name".toList = ⟨3, 0, true⟩ := by decide +kernel

end OrderingRules

end XamlFormat
