import XamlFormat.Proofs.Layout.Verbatim
import XamlFormat.Proofs.Rules.Canonical

/-! What the styled text of a document without running text depends on: its markup in order, and
between which nodes the source has an empty line. -/
namespace XamlFormat

open Markup Text

/-- Markup without places. `spaced` says that there is an empty line in front of it. -/
inductive Skeleton where
  | element (spaced : Bool) (name : QName) (attributes : List (QName × Chars))
    (children : List Skeleton)
  | raw (spaced : Bool) (kind : RawKind) (content : Chars)

mutual

def Skeleton.decideEq : (k l : Skeleton) → Decidable (k = l)
  | .element spaced name attributes children, .element spaced' name' attributes' children' =>
    have := skeletonsDecideEq children children'
    decidable_of_iff
      (spaced = spaced' ∧ name = name' ∧ attributes = attributes' ∧ children = children') (by simp)
  | .raw spaced kind content, .raw spaced' kind' content' =>
    decidable_of_iff (spaced = spaced' ∧ kind = kind' ∧ content = content') (by simp)
  | .element _ _ _ _, .raw _ _ _ => .isFalse nofun
  | .raw _ _ _, .element _ _ _ _ => .isFalse nofun

def skeletonsDecideEq : (ks ls : List Skeleton) → Decidable (ks = ls)
  | [], [] => .isTrue rfl
  | k :: ks, l :: ls =>
    have := k.decideEq l
    have := skeletonsDecideEq ks ls
    decidable_of_iff (k = l ∧ ks = ls) (by simp)
  | [], _ :: _ => .isFalse nofun
  | _ :: _, [] => .isFalse nofun

end

instance : DecidableEq Skeleton := Skeleton.decideEq

def Tag.pairs (t : Tag) : List (QName × Chars) := t.attributes.map fun a => (a.name, a.value)

mutual

def Node.skeleton? (spaced : Bool) : Node → Option Skeleton
  | .element t ns => some (.element spaced t.name t.pairs (skeletonList false ns))
  | .text _ _ => none
  | .raw kind content _ => some (.raw spaced kind content)

/-- The markup of nodes, where a text with two line breaks is an empty line in front of the next. -/
def skeletonList (spaced : Bool) : List Node → List Skeleton
  | [] => []
  | n :: ns => (n.skeleton? spaced).toList ++ skeletonList (2 ≤ n.lineBreaks) ns

end

def Fault.unplaced : Fault → Fault
  | .malformed detail _ => .malformed detail ⟨0, 0⟩
  | .tooDeep limit _ => .tooDeep limit ⟨0, 0⟩
  | fault => fault

section Skeleton

/-- A tag with these attributes in order, as it is read where there is nothing else to it. -/
def Tag.ofPairs (name : QName) (pairs : List (QName × Chars)) : Tag where
  name := name
  attributes := pairs.zipIdx.map fun p =>
    { name := p.1.1, value := p.1.2, index := p.2, offset := 0 }
  selfClosing := false
  preserveSpace := false
  firstLine := 0
  span := ⟨0, 0⟩

mutual

def Skeleton.nodes : Skeleton → List Node
  | .element spaced name pairs children =>
    blankLine spaced ++ [.element (Tag.ofPairs name pairs) (skeletonNodes children)]
  | .raw spaced kind content => blankLine spaced ++ [.raw kind content ⟨0, 0⟩]

def skeletonNodes : List Skeleton → List Node
  | [] => []
  | k :: ks => k.nodes ++ skeletonNodes ks

end

theorem skeletonNodes_append (ks ls : List Skeleton) :
    skeletonNodes (ks ++ ls) = skeletonNodes ks ++ skeletonNodes ls := by
  induction ks with
  | nil => rfl
  | cons k ks ih => simp [skeletonNodes, ih]

/-- Apart from its place, a tag is told by its name and its attributes. -/
def Tag.IsPlain (t : Tag) : Prop := t.canonical = Tag.ofPairs t.name t.pairs

theorem canonical_attributes (index pos shift : Nat) (ws : List WrittenAttribute) :
    (WrittenAttribute.attributes index pos ws).map
        (fun a => Attribute.canonical { a with offset := shift + a.offset }) =
      (((WrittenAttribute.attributes index pos ws).map fun a => (a.name, a.value)).zipIdx index).map
        fun p => { name := p.1.1, value := p.1.2, index := p.2, offset := 0 } := by
  induction ws generalizing index pos with
  | nil => rfl
  | cons w ws ih =>
    rw [WrittenAttribute.attributes, List.map_cons, List.map_cons, List.zipIdx_cons, List.map_cons,
      ih]
    rfl

theorem Tag.Spelled.isPlain_place {t : Tag} {text : Chars} (h : t.Spelled text)
    (hp : t.preserveSpace = false) (pos stop : Nat) (content : Option Span) :
    (t.place pos stop content).IsPlain := by
  obtain ⟨w, -, -, rfl⟩ := h
  have hpairs : (w.tag.place pos stop content).pairs = w.tag.pairs := by
    simp only [Tag.pairs, Tag.place, List.map_map]
    rfl
  have hattributes := canonical_attributes 0 (1 + byteLength w.name) pos w.attributes
  rw [Tag.IsPlain, hpairs]
  simp only [Tag.canonical, Tag.ofPairs, Tag.place, List.map_map, hp]
  exact congrArg (fun attributes : List Attribute =>
    (⟨w.tag.name, attributes, false, false, 0, 0, ⟨0, 0⟩, none⟩ : Tag)) hattributes

mutual

theorem Node.preserveSpace_of_isStructural : ∀ n : Node, n.isStructural = true →
    ∀ t ∈ n.tags, t.preserveSpace = false
  | .element t ns, h => by
    obtain ⟨ht, hns⟩ := Bool.and_eq_true_iff.mp h
    exact List.forall_mem_cons.mpr ⟨by simpa using ht, preserveSpace_of_structural ns hns⟩
  | .text _ _, _ => by simp [Node.tags]
  | .raw _ _ _, _ => by simp [Node.tags]

theorem preserveSpace_of_structural : ∀ ns : List Node, structuralList ns = true →
    ∀ t ∈ tagsList ns, t.preserveSpace = false
  | [], _ => by simp [tagsList]
  | n :: ns, h => by
    obtain ⟨hn, hns⟩ := Bool.and_eq_true_iff.mp h
    exact List.forall_mem_append.mpr
      ⟨n.preserveSpace_of_isStructural hn, preserveSpace_of_structural ns hns⟩

end

theorem Document.isPlain_tags {source : Chars} {d : Document} (h : read source = .ok d)
    (hd : structuralList d.nodes = true) : ∀ t ∈ d.tags, t.IsPlain := by
  intro t ht
  have hpreserve := preserveSpace_of_structural d.nodes hd t ht
  obtain ⟨parts, hvalid, -, hparts⟩ := read_sound h
  rw [hparts] at ht
  obtain ⟨w, text, pos, stop, content, hspelled, rfl⟩ := spelled_tags hvalid d.byteOrderMark t ht
  exact hspelled.isPlain_place hpreserve pos stop content

mutual

theorem Node.canonical_eq_skeleton : ∀ (n : Node) (spaced : Bool), n.isText = false →
    (∀ t ∈ n.tags, t.IsPlain) →
    blankLine spaced ++ [n.canonical] = skeletonNodes (n.skeleton? spaced).toList
  | .element t ns, spaced, _, h => by
    rw [Node.tags, List.forall_mem_cons] at h
    rw [Node.canonical, h.1, canonicalList_eq_skeleton ns false h.2]
    exact (List.append_nil _).symm
  | .text _ _, _, ht, _ => by simp [Node.isText] at ht
  | .raw _ _ _, _, _, _ => (List.append_nil _).symm

/-- Without its layout a document is told by its skeleton. -/
theorem canonicalList_eq_skeleton : ∀ (ns : List Node) (spaced : Bool),
    (∀ t ∈ tagsList ns, t.IsPlain) →
    canonicalList spaced ns = skeletonNodes (skeletonList spaced ns)
  | [], _, _ => rfl
  | n :: ns, spaced, h => by
    rw [tagsList, List.forall_mem_append] at h
    obtain ⟨value, span, rfl⟩ | ht := n.eq_text_or
    · exact canonicalList_eq_skeleton ns _ h.2
    · have hbreaks : decide (2 ≤ n.lineBreaks) = false := by
        cases n <;> simp_all [Node.isText, Node.lineBreaks]
      rw [canonicalList_node _ _ ht, skeletonList, hbreaks, skeletonNodes_append,
        ← n.canonical_eq_skeleton spaced ht h.1, ← canonicalList_eq_skeleton ns false h.2]
      simp

end

end Skeleton

section Printing

variable {p : Printer}

theorem StartTag.core_canonical (t : Tag) : t.canonical.core = t.core := by
  simp only [Tag.core, Tag.canonical, List.map_map]
  rfl

theorem all_isBlank_canonicalList (spaced : Bool) {ns : List Node} (h : structuralList ns = true) :
    (canonicalList spaced ns).all Node.isBlank = ns.all Node.isBlank := by
  induction ns generalizing spaced with
  | nil => rfl
  | cons n ns ih =>
    obtain ⟨hn, hns⟩ := Bool.and_eq_true_iff.mp h
    have hblank := isBlank_of_isStructural hn
    obtain ⟨value, span, rfl⟩ | ht := n.eq_text_or
    · rw [canonicalList_text, ih _ hns, List.all_cons, hblank]
      rfl
    · have hcanonical : n.canonical.isBlank = false := by
        cases n <;> simp_all [Node.canonical, Node.isBlank]
      rw [canonicalList_node _ _ ht, List.all_append, List.all_cons, hcanonical, List.all_cons,
        hblank, ht]
      simp

theorem any_isSignificant_of_structural {ns : List Node} (h : structuralList ns = true) :
    ns.any Node.isSignificant = false :=
  List.any_eq_false.mpr fun n hn => by
    simp [isSignificant_of_isStructural (structuralList_iff.mp h n hn)]

theorem printBlock_blankLine (depth stop : Nat) (top fresh spaced : Bool) (breaks : Nat)
    (ns : List Node) :
    printBlock p depth stop top ⟨fresh, breaks, false⟩ (blankLine spaced ++ ns) =
      printBlock p depth stop top ⟨fresh, if spaced then 2 else breaks, false⟩ ns := by
  cases spaced with
  | false => rfl
  | true => exact printBlock_of_isBlank p depth stop top fresh breaks rfl ns

theorem printBlock_unmarked (depth stop : Nat) (top fresh : Bool) (breaks : Nat) {n : Node}
    (hb : n.isBlank = false) (hm : n.marker? = none) (ns : List Node) :
    printBlock p depth stop top ⟨fresh, breaks, false⟩ (n :: ns) =
      ((if !fresh && breaks ≥ 2 then p.newLine else []) ++
        ((if fresh && top then p.indent.level depth else p.lineStart depth) ++
          (n.print p depth top false ++ (printBlock p depth stop top ⟨false, 0, false⟩ ns).1)),
        (printBlock p depth stop top ⟨false, 0, false⟩ ns).2) := by
  rw [printBlock_node _ _ _ _ _ _ hb, hm]
  rfl

mutual

theorem Node.print_canonical (hr : p.settings.removeEndTagOfEmptyElement = true) (source : Chars) :
    ∀ (n : Node) (depth : Nat) (isRoot : Bool), n.isText = false → n.isStructural = true →
    n.canonical.print { p with source } depth isRoot false = n.print p depth isRoot false
  | .text _ _, _, _, ht, _ => by simp [Node.isText] at ht
  | .raw _ _ _, _, _, _, _ => rfl
  | .element t ns, depth, isRoot, _, h => by
    obtain ⟨ht, hns⟩ := Bool.and_eq_true_iff.mp h
    have hcanonical := structuralList_canonicalList false ns hns
    have hstart (ending : TagEnd) : Printer.startTag { p with source } t.canonical ending depth
        isRoot false = p.startTag t ending depth isRoot false :=
      StartTag.print_congr _ (StartTag.core_canonical t) ending
    have hpreserved := Tag.preserved?_of_isStructural h
    have hpreserved' : t.canonical.preserved? = none :=
      Tag.preserved?_of_isStructural ((Node.element t ns).isStructural_canonical h)
    rw [Node.canonical, Node.print, Node.print, hpreserved, hpreserved']
    dsimp only
    rw [all_isBlank_canonicalList false hns, any_isSignificant_of_structural hns,
      any_isSignificant_of_structural hcanonical, hr, hstart, hstart]
    by_cases hb : ns.all Node.isBlank = true
    · rw [if_pos hb, if_pos hb]
      rfl
    · have hblock := printBlock_canonicalList hr source ns (depth + 1)
        (Printer.contentEnd t.canonical) (Printer.contentEnd t) false true false 0 0 (by omega) rfl
        hns
      rw [if_neg hb, if_neg hb, hblock]
      rfl

/-- The printer counts line breaks only up to two. -/
theorem printBlock_canonicalList (hr : p.settings.removeEndTagOfEmptyElement = true)
    (source : Chars) : ∀ (ns : List Node) (depth stop stop' : Nat) (top fresh spaced : Bool)
    (breaks breaks' : Nat), breaks < 2 → spaced = decide (2 ≤ breaks') → structuralList ns = true →
    printBlock { p with source } depth stop top ⟨fresh, breaks, false⟩ (canonicalList spaced ns) =
      printBlock p depth stop' top ⟨fresh, breaks', false⟩ ns
  | [], _, _, _, _, _, _, _, _, _, _, _ => rfl
  | n :: ns, depth, stop, stop', top, fresh, spaced, breaks, breaks', hb, hspaced, h => by
    obtain ⟨hn, hns⟩ := Bool.and_eq_true_iff.mp h
    have hblank := isBlank_of_isStructural hn
    obtain ⟨value, span, rfl⟩ | ht := n.eq_text_or
    · rw [printBlock_of_isBlank p depth stop' top fresh breaks' hblank]
      exact printBlock_canonicalList hr source ns depth stop stop' top fresh _ breaks _ hb rfl hns
    · have hrest := printBlock_canonicalList hr source ns depth stop stop' top false false 0 0
        (by omega) rfl hns
      have hprint := n.print_canonical hr source depth top ht hn
      have hcanonical := n.isStructural_canonical hn
      have hblank' : n.canonical.isBlank = false := by
        rw [isBlank_of_isStructural hcanonical]
        cases n <;> simp_all [Node.canonical, Node.isText]
      have hgap : decide ((if spaced = true then 2 else breaks) ≥ 2) = decide (breaks' ≥ 2) := by
        by_cases hbreaks : 2 ≤ breaks'
        · simp [hspaced, hbreaks]
        · simp [hspaced, hbreaks, hb]
      rw [canonicalList_node _ _ ht, printBlock_blankLine,
        printBlock_unmarked _ _ _ _ _ hblank' (marker?_of_isStructural hcanonical),
        printBlock_unmarked _ _ _ _ _ (hblank.trans ht) (marker?_of_isStructural hn), hprint, hrest,
        hgap]
      rfl

end

theorem Document.print_canonical {s : Settings} (hr : s.removeEndTagOfEmptyElement = true)
    {d : Document} (h : structuralList d.nodes = true) (source : Chars) (dialect : Dialect) :
    d.print source s dialect = d.canonical.print [] s dialect := by
  have hblock := printBlock_canonicalList (p := printer source s dialect) hr [] d.nodes 0
    (byteLength ([] : Chars)) (byteLength source) true true false 0 0 (by omega) rfl h
  have hnodes : printBlock ⟨[], s, dialect.unescaped s⟩ 0 (byteLength ([] : Chars)) true
      ⟨true, 0, false⟩ d.canonical.nodes = printBlock ⟨source, s, dialect.unescaped s⟩ 0
        (byteLength source) true ⟨true, 0, false⟩ d.nodes := hblock
  rw [Document.print, Document.print, hnodes]
  rfl

mutual

theorem Node.inRange_canonical : ∀ (n : Node) (depth : Nat) (isRoot : Bool),
    n.isStructural = true → n.canonical.inRange p depth isRoot false = n.inRange p depth isRoot false
  | .text _ _, _, _, _ => rfl
  | .raw _ _ _, _, _, _ => rfl
  | .element t ns, depth, isRoot, h => by
    obtain ⟨-, hns⟩ := Bool.and_eq_true_iff.mp h
    have hcanonical := structuralList_canonicalList false ns hns
    have hpreserved' : t.canonical.preserved? = none :=
      Tag.preserved?_of_isStructural ((Node.element t ns).isStructural_canonical h)
    rw [Node.canonical, Node.inRange, Node.inRange, Tag.preserved?_of_isStructural h, hpreserved',
      all_isBlank_canonicalList false hns, any_isSignificant_of_structural hns,
      any_isSignificant_of_structural hcanonical,
      StartTag.inRange_congr _ (StartTag.core_canonical t), Bool.or_false,
      inRangeList_canonicalList ns (depth + 1) false false hns]

theorem inRangeList_canonicalList : ∀ (ns : List Node) (depth : Nat) (isRoot spaced : Bool),
    structuralList ns = true →
    inRangeList p depth isRoot false false (canonicalList spaced ns) =
      inRangeList p depth isRoot false false ns
  | [], _, _, _, _ => rfl
  | n :: ns, depth, isRoot, spaced, h => by
    obtain ⟨hn, hns⟩ := Bool.and_eq_true_iff.mp h
    obtain ⟨value, span, rfl⟩ | ht := n.eq_text_or
    · exact inRangeList_canonicalList ns depth isRoot _ hns
    · have hrest := inRangeList_canonicalList ns depth isRoot false hns
      have hblank : inRangeList p depth isRoot false false
          (blankLine spaced ++ n.canonical :: canonicalList false ns) =
            inRangeList p depth isRoot false false (n.canonical :: canonicalList false ns) := by
        cases spaced <;> rfl
      rw [canonicalList_node _ _ ht, hblank, inRangeList, inRangeList,
        n.inRange_canonical depth isRoot hn, marker?_of_isStructural hn,
        marker?_of_isStructural (n.isStructural_canonical hn)]
      exact congrArg _ hrest

end

theorem Document.inRange_canonical {s : Settings} {d : Document} (h : structuralList d.nodes = true)
    (source : Chars) (dialect : Dialect) :
    d.inRange source s dialect = d.canonical.inRange [] s dialect := by
  have hcounts := (printer [] s dialect).countsAlike_source source
  exact (inRangeList_congr hcounts d.nodes ..).trans
    (inRangeList_canonicalList d.nodes 0 true false h).symm

end Printing

section Style

variable {s : Settings} {dialect : Dialect} {text : Chars} {d e : Document}

namespace Document

theorem unread_of_read {source : Chars} (h : read source = .ok d) : ∀ t ∈ d.tags, t.Unread := by
  obtain ⟨parts, hvalid, -, hparts⟩ := read_sound h
  rw [hparts]
  exact unread_tags hvalid d.byteOrderMark

def CanRead (s : Settings) (d : Document) : Prop :=
  ∀ t ∈ d.tags, ∀ a ∈ t.attributes, s.CanRead a.value

theorem canRead_canonical : d.canonical.CanRead s ↔ d.CanRead s := by
  simp only [CanRead, tags_canonical, List.forall_mem_map, Tag.canonical]
  rfl

theorem withReadings_canonical :
    (d.mapTags (Tag.withReadings s)).canonical = d.canonical.mapTags (Tag.withReadings s) := by
  rw [canonical, canonical, mapTags, mapTags,
    canonicalList_mapTagsList false d.nodes fun t _ => t.withReadings_canonical s]

end Document

section Single

variable (hs : s.suppressProcessing = false) (h : Document.read (unifyLineEnds text) = .ok d)

include hs h

theorem style_of_canRead (hr : s.removeEndTagOfEmptyElement = true)
    (hd : structuralList d.nodes = true) (hcan : d.CanRead s) :
    style s dialect text =
      if ((d.canonical.mapTags (Tag.withReadings s)).applyRules s).inRange [] s dialect then
        .ok (((d.canonical.mapTags (Tag.withReadings s)).applyRules s).print [] s dialect)
      else .error .overflow := by
  have hread : structuralList (d.mapTags (Tag.withReadings s)).nodes = true :=
    structuralList_mapTagsList (f := Tag.withReadings s) (fun _ => rfl) d.nodes hd
  have hrules := Document.structuralList_applyRules s hread
  rw [style_of_readWith hs (Document.readWith_eq h (Document.unread_of_read h) hcan),
    Document.print_canonical hr hrules, Document.inRange_canonical hrules,
    ← Document.applyRules_canonical s hread, Document.withReadings_canonical]

theorem style_of_not_canRead (dialect : Dialect) (hcan : ¬ d.CanRead s) :
    ∃ place, style s dialect text = .error (.tooDeep Extension.maxDepth place) := by
  obtain ⟨place, hplace⟩ := Document.readWith_error h (Document.unread_of_read h) hcan
  exact ⟨place, style_of_readWith_error hs dialect hplace⟩

end Single

/-- Layout shows only through empty lines: documents of markup only that have the same skeleton are
styled alike, or fail alike up to the place that is reported. -/
theorem style_eq_of_skeleton {a b : Chars} (hs : s.suppressProcessing = false)
    (hr : s.removeEndTagOfEmptyElement = true)
    (ha : Document.read (unifyLineEnds a) = .ok d) (hb : Document.read (unifyLineEnds b) = .ok e)
    (hd : structuralList d.nodes = true) (he : structuralList e.nodes = true)
    (hmark : d.byteOrderMark = e.byteOrderMark) (hnewline : d.trailingNewline = e.trailingNewline)
    (hskeleton : skeletonList false d.nodes = skeletonList false e.nodes) :
    (style s dialect a).mapError Fault.unplaced = (style s dialect b).mapError Fault.unplaced := by
  have hcanonical : d.canonical = e.canonical := by
    have hnodes : canonicalList false d.nodes = canonicalList false e.nodes := by
      rw [canonicalList_eq_skeleton d.nodes false (Document.isPlain_tags ha hd), hskeleton,
        canonicalList_eq_skeleton e.nodes false (Document.isPlain_tags hb he)]
    rw [Document.canonical, Document.canonical, hnodes, hmark, hnewline]
  have hcan : d.CanRead s ↔ e.CanRead s := by
    rw [← Document.canRead_canonical, hcanonical, Document.canRead_canonical]
  by_cases hread : d.CanRead s
  · rw [style_of_canRead hs ha hr hd hread, style_of_canRead hs hb hr he (hcan.mp hread),
      hcanonical]
  · obtain ⟨place, hplace⟩ := style_of_not_canRead hs ha dialect hread
    obtain ⟨place', hplace'⟩ := style_of_not_canRead hs hb dialect (hread ∘ hcan.mpr)
    rw [hplace, hplace']
    rfl

theorem style_eq_of_skeleton_sample :
    ∃ d e, Document.read "<A x='1'><!--c-->\n\n<B/></A>".toList = .ok d ∧
      Document.read "<A\n x=\"1\" >\n<!--c-->\n\n\n<B></B>\n</A>".toList = .ok e ∧
      structuralList d.nodes = true ∧ structuralList e.nodes = true ∧
      skeletonList false d.nodes = skeletonList false e.nodes ∧
      (style .standard .xaml "<A x='1'><!--c-->\n\n<B/></A>".toList).mapError Fault.unplaced =
        (style .standard .xaml
          "<A\n x=\"1\" >\n<!--c-->\n\n\n<B></B>\n</A>".toList).mapError Fault.unplaced := by
  let skeleton : List Skeleton := [.element false ⟨none, ['A']⟩ [(⟨none, ['x']⟩, ['1'])]
    [.raw false .comment ['c'], .element true ⟨none, ['B']⟩ [] []]]
  have hfirst : ∃ d, Document.read "<A x='1'><!--c-->\n\n<B/></A>".toList = .ok d ∧
      structuralList d.nodes = true ∧ d.byteOrderMark = false ∧ d.trailingNewline = false ∧
        skeletonList false d.nodes = skeleton := exists_ok_of_any (by decide +kernel)
  have hsecond : ∃ e, Document.read "<A\n x=\"1\" >\n<!--c-->\n\n\n<B></B>\n</A>".toList = .ok e ∧
      structuralList e.nodes = true ∧ e.byteOrderMark = false ∧ e.trailingNewline = false ∧
        skeletonList false e.nodes = skeleton := exists_ok_of_any (by decide +kernel)
  obtain ⟨d, hd, hds, hdm, hdn, hdk⟩ := hfirst
  obtain ⟨e, he, hes, hem, hen, hek⟩ := hsecond
  exact ⟨d, e, hd, he, hds, hes, hdk.trans hek.symm, style_eq_of_skeleton rfl rfl hd he hds hes
    (hdm.trans hem.symm) (hdn.trans hen.symm) (hdk.trans hek.symm)⟩

/-- A text that is read as markup only, with this skeleton, and styled to this output. -/
def StyledFrom (s : Settings) (skeleton : List Skeleton) (text out : Chars) : Prop :=
  (∃ d, Document.read text = .ok d ∧ structuralList d.nodes = true ∧ d.byteOrderMark = false ∧
    d.trailingNewline = false ∧ skeletonList false d.nodes = skeleton) ∧
  style s .xaml text = .ok out

/-- The layout stays where processing is suppressed; and a value that holds carriage returns is read
as another one once line ends are unified, which happens before a text is styled. -/
theorem skeleton_not_enough :
    (StyledFrom { Settings.standard with suppressProcessing := true }
        [.element false ⟨none, ['A']⟩ [] []] "<A/>".toList "<A/>".toList ∧
      StyledFrom { Settings.standard with suppressProcessing := true }
        [.element false ⟨none, ['A']⟩ [] []] "<A />".toList "<A />".toList) ∧
    (StyledFrom .standard
        [.element false ⟨none, ['A']⟩ [(⟨none, ['a']⟩, ['x', ' ', ' ', 'y'])] []]
        "<A a=\"x\r\ny\"/>".toList "<A a=\"x y\" />".toList ∧
      StyledFrom .standard
        [.element false ⟨none, ['A']⟩ [(⟨none, ['a']⟩, ['x', ' ', ' ', 'y'])] []]
        "<A a=\"x  y\"/>".toList "<A a=\"x  y\" />".toList) := by
  have hstyled {s : Settings} {text out : Chars}
      (h : (style s .xaml text).toOption.any (fun o => decide (o = out)) = true) :
      style s .xaml text = .ok out := by
    obtain ⟨_, hstyle, rfl⟩ := exists_ok_of_any h
    exact hstyle
  refine ⟨⟨⟨?_, rfl⟩, ⟨?_, rfl⟩⟩, ⟨?_, hstyled (by decide +kernel)⟩,
    ⟨?_, hstyled (by decide +kernel)⟩⟩
  · exact exists_ok_of_any (by decide +kernel)
  · exact exists_ok_of_any (by decide +kernel)
  · exact exists_ok_of_any (by decide +kernel)
  · exact exists_ok_of_any (by decide +kernel)

end Style
end XamlFormat
