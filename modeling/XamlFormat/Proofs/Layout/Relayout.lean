import XamlFormat.Proofs.Layout.LaidOutElements
import XamlFormat.Proofs.Layout.Range

/-! Laying out twice. What was laid out, read and dressed with tags of the same text is laid out as
it is: no decision of the layout comes out differently on its own result, and nothing else is
counted. -/
namespace XamlFormat

open Markup Text StartTag Reference

/-- However the tag is printed and read, it comes back with the same text. -/
structure Tag.Stable (p : Printer) (R : Tag → Tag → Prop) (t : Tag) : Prop where
  preserveSpace : ∀ w, Printed p t w → w.preserveSpace = t.preserveSpace
  core : ∀ w pos stop content u, Printed p t w → R (w.place pos stop content) u → u.core = t.core

/-- An element that is laid out a second time as it is the first time. -/
structure Lasting (p : Printer) (R : Tag → Tag → Prop) (tag : Tag) (children : List Part) :
    Prop where
  stable : tag.Stable p R
  solid : tag.preserveSpace = false → children.any Part.isSignificant = true →
    hasSolid true false children = true

section Again

variable {p : Printer} {R : Tag → Tag → Prop}

theorem Printer.element_congr (ctx : TagContext) {t u : Tag} (h : u.core = t.core)
    (ending : TagEnd) (children : List Part) (closing : Chars) :
    Printer.element ctx u ending children closing = Printer.element ctx t ending children closing := by
  rw [Printer.element, Printer.element, print_congr ctx h, fresh, written_congr ctx h, fresh]

theorem Printer.endTag_congr {t u : Tag} (h : u.core = t.core) :
    Printer.endTag u = Printer.endTag t := by
  have hname : u.core.name = t.core.name := congrArg Tag.name h
  change u.name = t.name at hname
  rw [Printer.endTag, Printer.endTag, hname]

/-- A printed element with the tag that it gets when it is read. -/
theorem dress_element (hR : ∀ t u, R t u → t.Recast u) {tag : Tag} (ht : tag.Stable p R)
    {depth pos : Nat} {isRoot inline : Bool} {ending : TagEnd} {children : List Part}
    {closing : Chars} {n : Node}
    (hn : ((Printer.element (p.unixContext depth isRoot inline) tag ending children
      closing).place pos).Retagged R n) :
    ∃ u ms, n = .element u ms ∧ u.core = tag.core ∧ u.preserveSpace = tag.preserveSpace ∧
      u.selfClosing = (ending == .selfClosing) ∧
      (∃ inner, RetaggedList R (placeList inner children) ms) ∧
      (Printer.element (p.unixContext depth isRoot inline) tag ending children closing).dress n =
        .element (print (p.unixContext depth isRoot inline) tag ending) u
          (if tag.preserveSpace && !children.isEmpty then children else dressList false children ms)
          closing := by
  cases n with
  | text | raw => exact hn.elim
  | element u ms =>
    obtain ⟨hu, hms⟩ := hn
    have hrecast := hR _ _ hu
    have hprinted : Printed p tag (fresh (p.unixContext depth isRoot inline) tag ending) :=
      ⟨_, _, _, _, rfl⟩
    have hspace := ht.preserveSpace _ hprinted
    refine ⟨u, ms, rfl, ht.core _ _ _ _ _ hprinted hu, ?_, hrecast.selfClosing, ⟨_, hms⟩, ?_⟩
    · exact hrecast.preserveSpace.trans hspace
    · rw [Printer.element, Part.dress, hspace]

theorem dressList_append {ps tail : List Part} (ht : ∀ t ∈ tail, t.isText = true) {pos : Nat}
    {ms : List Node} (h : RetaggedList R (placeList pos (ps ++ tail)) ms) (suppressed : Bool) :
    ∃ ms', RetaggedList R (placeList pos ps) ms' ∧
      dressList suppressed (ps ++ tail) ms = dressList suppressed ps ms' ++ tail := by
  induction ps generalizing pos ms suppressed with
  | nil =>
    refine ⟨[], trivial, ?_⟩
    rw [List.nil_append] at h ⊢
    induction tail generalizing pos ms suppressed with
    | nil => cases ms <;> rfl
    | cons t ts ih =>
      obtain ⟨htext, hts⟩ := List.forall_mem_cons.mp ht
      cases ms with
      | nil => exact h.elim
      | cons m ms =>
        obtain ⟨spelling, value, rfl⟩ := Part.exists_of_isText htext
        rw [dressList, dress_text, ite_self, ih hts h.2]
        rfl
  | cons p ps ih =>
    cases ms with
    | nil => exact h.elim
    | cons m ms =>
      obtain ⟨ms', hms, hdress⟩ := ih h.2 (p.regionAfter suppressed)
      refine ⟨m :: ms', ⟨h.1, hms⟩, ?_⟩
      rw [List.cons_append, dressList, hdress, dressList]
      rfl

theorem dressList_textParts (value : Chars) {ps : List Part} {pos : Nat} {ms : List Node}
    (h : RetaggedList R (placeList pos (textParts value ++ ps)) ms) :
    ∃ pos' ms', RetaggedList R (placeList pos' ps) ms' ∧
      dressList false (textParts value ++ ps) ms = textParts value ++ dressList false ps ms' := by
  by_cases hv : value = []
  · rw [textParts, if_pos hv, List.nil_append] at h ⊢
    exact ⟨pos, ms, h, rfl⟩
  · rw [textParts, if_neg hv, List.singleton_append] at h ⊢
    cases ms with
    | nil => exact h.elim
    | cons m ms =>
      refine ⟨_, ms, h.2, ?_⟩
      rw [dressList, dress_text, ite_self, regionAfter_of_isText rfl, List.singleton_append]

theorem isEmpty_layoutInline {depth : Nat} {isFirst : Bool} {qs : List Part}
    (h : Part.headText qs = false) :
    (layoutInline p depth isFirst false qs).isEmpty = qs.isEmpty := by
  cases qs with
  | nil => rfl
  | cons q qs =>
    rw [layoutInline_node p depth isFirst (by simpa [Part.headText] using h)]
    rfl

/-- White space in front of a block counts as its line feeds. -/
theorem layoutBlock_textParts (depth : Nat) (top fresh : Bool) (breaks : Nat) {gap : Chars}
    (hg : Spacing gap) (qs : List Part) :
    layoutBlock p depth top ⟨fresh, breaks, false⟩ (textParts gap ++ qs) =
      layoutBlock p depth top ⟨fresh, if gap = [] then breaks else gap.count '\n', false⟩ qs := by
  unfold textParts
  split_ifs with hgap
  · rfl
  · have hblank : (Part.text (escapeText gap) gap).isBlank = true := List.all_eq_true.mpr hg.blanks
    exact layoutBlock_of_isBlank _ _ _ _ hblank qs

/-- White space at the end of a block is left out, or copied where a region is open. -/
theorem layoutBlock_append (depth : Nat) (top : Bool) (state : BlockState) (qs : List Part)
    {tail : List Part} (ht : ∀ t ∈ tail, t.isBlank = true) :
    layoutBlock p depth top state (qs ++ tail) =
      ((layoutBlock p depth top state qs).1 ++
        (if (layoutBlock p depth top state qs).2 then tail else []),
        (layoutBlock p depth top state qs).2) := by
  induction qs generalizing state with
  | nil =>
    obtain ⟨fresh, breaks, suppressed⟩ := state
    rw [List.nil_append]
    induction tail generalizing breaks with
    | nil => cases suppressed <;> rfl
    | cons t ts ih =>
      obtain ⟨hblank, hts⟩ := List.forall_mem_cons.mp ht
      cases suppressed with
      | true =>
        rw [layoutBlock_of_suppressed, regionAfter_of_isText (Part.isText_of_isBlank hblank),
          ih hts]
        rfl
      | false =>
        rw [layoutBlock_of_isBlank _ _ _ _ hblank, ih hts]
        rfl
  | cons q qs ih =>
    obtain ⟨fresh, breaks, suppressed⟩ := state
    rw [List.cons_append]
    cases suppressed with
    | true => simp only [layoutBlock_of_suppressed, ih, List.cons_append]
    | false =>
      cases hb : q.isBlank with
      | true => simp only [layoutBlock_of_isBlank _ _ _ _ hb, ih]
      | false => simp only [layoutBlock_node _ _ _ _ hb, ih, List.append_assoc, List.cons_append]

/-- White space in front of an end tag changes nothing in the block. -/
theorem layoutBlock_append_blockEnd {depth : Nat} {top : Bool} {state : BlockState}
    {qs : List Part} {block : List Part × Bool} (h : layoutBlock p depth top state qs = block)
    (r : Printer) (level : Nat) :
    layoutBlock p depth top state (qs ++ r.blockEnd level block.2) = block := by
  rw [layoutBlock_append _ _ _ _ Printer.isBlank_of_mem_blockEnd, h]
  obtain ⟨inside, _ | _⟩ := block
  · exact congrArg (·, false) (List.append_nil inside)
  · exact congrArg (·, true) (List.append_nil inside)

theorem not_blank_layoutInline (depth : Nat) {qs : List Part}
    (hs : qs.any Part.isSignificant = true → hasSolid true false qs = true)
    (hb : qs.all Part.isBlank = false) :
    (layoutInline p depth true false qs).all Part.isBlank = false := by
  rw [not_blank_iff, any_isSignificant_layoutInline,
    any_layoutInline not_isText_layout not_isText_runningValue]
  exact (not_blank_iff.mp hb).imp_left hs

section Blocks

variable (depth : Nat) {qs tail : List Part} (hs : qs.any Part.isSignificant = false)

include hs

theorem not_blank_layoutBlock (hb : qs.all Part.isBlank = false) :
    ((layoutBlock p depth false ⟨true, 0, false⟩ qs).1 ++ tail).all Part.isBlank = false := by
  have htexts := Part.isBlank_of_any_isSignificant hs
  have hnode : qs.any (fun q => !q.isText) = true := by
    obtain ⟨q, hq, hbl⟩ := List.all_eq_false.mp hb
    exact List.any_eq_true.mpr ⟨q, hq, by simpa using fun ht => hbl (htexts q hq ht)⟩
  refine not_blank_iff.mpr (.inr ?_)
  rw [List.any_append, any_layoutBlock not_isText_layout
    (fun _ h => by simp [Part.isText_of_isBlank h]) _ _ _ htexts, hnode, Bool.true_or]

theorem quiet_layoutBlock (ht : ∀ t ∈ tail, t.isBlank = true) :
    ((layoutBlock p depth false ⟨true, 0, false⟩ qs).1 ++ tail).any Part.isSignificant = false := by
  rw [List.any_append, any_layoutBlock isSignificant_layout
    (fun _ => Part.isSignificant_of_isBlank) _ _ _ (Part.isBlank_of_any_isSignificant hs), hs,
    Bool.false_or, List.any_eq_false]
  exact fun t h => by simp [Part.isSignificant_of_isBlank (ht t h)]

end Blocks

mutual

/-- A part that was laid out, read and dressed again is laid out as it is. -/
theorem Part.layout_again (hR : ∀ t u, R t u → t.Recast u) (source : Chars) :
    ∀ (q : Part) (n : Node) (depth pos nest : Nat) (isRoot inline : Bool), q.isText = false →
      q.Ready nest → (∀ x ∈ q.own, Lasting p R x.1 x.2) →
      ((q.layout p depth isRoot inline).place pos).Retagged R n →
      ((q.layout p depth isRoot inline).dress n).layout { p with source } depth isRoot inline =
        q.layout p depth isRoot inline ∧
      ((q.layout p depth isRoot inline).dress n).inRange p depth isRoot inline =
        q.inRange p depth isRoot inline
  | .text _ _, _, _, _, _, _, _, ht, _, _, _ => by simp [Part.isText] at ht
  | .raw kind content, n, depth, pos, nest, isRoot, inline, _, _, _, hn => by
    have hdress : ((Part.raw kind content).layout p depth isRoot inline).dress n =
        .raw kind (p.rawContent kind content) := by
      rw [Part.layout]
      cases n <;> rfl
    rw [hdress, Part.layout, Part.layout]
    exact ⟨congrArg _ (rawContent_again p kind content), rfl⟩
  | .element opening tag children closing, n, depth, pos, nest, isRoot, inline, _, hr, he, hn => by
    rw [Part.own, List.forall_mem_cons] at he
    obtain ⟨hlast, hevery⟩ := he
    have hctx : Printer.unixContext { p with source } depth isRoot inline =
        p.unixContext depth isRoot inline := rfl
    have hnil (ms : List Node) : dressList false [] ms = [] := by cases ms <;> rfl
    obtain ⟨out, hlaid⟩ := p.exists_laysOut depth isRoot inline tag children
    rw [hlaid.layout_eq] at hn ⊢
    -- the second layout decides as the first one did, in each of its cases
    cases hlaid with
    | copied hp =>
      obtain ⟨u, ms, rfl, hcore, hspace, -, -, hdress⟩ := dress_element hR hlast.stable hn
      have hp' : (u.preserveSpace && !children.isEmpty) = true := by rwa [hspace]
      rw [hdress, if_pos hp, (Printer.LaysOut.copied hp').layout_eq, hctx,
        Printer.element_congr _ hcore, Printer.endTag_congr hcore]
      refine ⟨rfl, ?_⟩
      rw [inRange_childless _ _ (by rw [hp', Bool.true_or]),
        inRange_childless _ _ (by rw [hp, Bool.true_or]), inRange_congr _ hcore]
    | selfClosed _ hb =>
      obtain ⟨u, ms, rfl, hcore, -, hself, -, hdress⟩ := dress_element hR hlast.stable hn
      rw [hdress, hnil, ite_self,
        (Printer.LaysOut.selfClosed (by simp) rfl (by simp [hself])).layout_eq, hctx,
        Printer.element_congr _ hcore]
      refine ⟨rfl, ?_⟩
      rw [inRange_childless _ _ (by simp), inRange_childless _ _ (by rw [hb, Bool.or_true]),
        inRange_congr _ hcore]
    | empty _ hb hs =>
      obtain ⟨u, ms, rfl, hcore, -, hself, -, hdress⟩ := dress_element hR hlast.stable hn
      obtain ⟨hremove, -⟩ := Bool.or_eq_false_iff.mp hs
      rw [hdress, hnil, ite_self,
        (Printer.LaysOut.empty (by simp) rfl (by simp [hself, hremove])).layout_eq, hctx,
        Printer.element_congr _ hcore, Printer.endTag_congr hcore]
      refine ⟨rfl, ?_⟩
      rw [inRange_childless _ _ (by simp), inRange_childless _ _ (by rw [hb, Bool.or_true]),
        inRange_congr _ hcore]
    | running hp hb hi =>
      rw [hp, Bool.false_and, if_neg Bool.false_ne_true] at hevery
      obtain ⟨u, ms, rfl, hcore, hspace, -, ⟨inner, hms⟩, hdress⟩ :=
        dress_element hR hlast.stable hn
      have hinline : (inline || (layoutInline p depth true false children).any
          Part.isSignificant) = true := by
        obtain h | h := Bool.or_eq_true_iff.mp hi
        · rw [h, Bool.true_or]
        · rw [any_isSignificant_layoutInline, hlast.solid hp h, Bool.or_true]
      obtain ⟨hagain, hrange⟩ := layoutInline_again hR source children ms depth inner (nest + 1) true
        true false (hr.children (by simp [hp])) hevery (fun _ => rfl) hms
      have hblank := (all_dressList hms false).trans
        (not_blank_layoutInline depth (hlast.solid hp) hb)
      rw [← any_dressList hms false] at hinline
      have hspace := hspace.trans hp
      rw [hdress, hp, Bool.false_and, if_neg Bool.false_ne_true,
        (Printer.LaysOut.running hspace hblank hinline).layout_eq, hagain, hctx,
        Printer.element_congr _ hcore, Printer.endTag_congr hcore]
      refine ⟨rfl, ?_⟩
      rw [inRange_running _ _ hspace hblank hinline, inRange_running _ _ hp hb hi, hrange,
        inRange_congr _ hcore]
    | block hp hb hi hs =>
      rw [hp, Bool.false_and, if_neg Bool.false_ne_true] at hevery
      obtain ⟨u, ms, rfl, hcore, hspace, -, ⟨inner, hms⟩, hdress⟩ :=
        dress_element hR hlast.stable hn
      obtain ⟨ms', hms', hdressed⟩ := dressList_append Printer.isText_of_mem_blockEnd hms false
      obtain ⟨hagain, hrange⟩ := layoutBlock_again hR source children ms' (depth + 1) inner (nest + 1)
        0 0 false true false (Part.isBlank_of_any_isSignificant hs) (hr.children (by simp [hp]))
        hevery hms'
      have hblank := (all_dressList hms false).trans (not_blank_layoutBlock _ hs hb)
      have hquiet := (any_dressList hms false).trans
        (quiet_layoutBlock _ hs Printer.isBlank_of_mem_blockEnd)
      have hspace := hspace.trans hp
      rw [hdress, hp, Bool.false_and, if_neg Bool.false_ne_true,
        inRange_block _ _ hspace hblank hi hquiet,
        (Printer.LaysOut.block hspace hblank hi hquiet).layout_eq, hdressed,
        layoutBlock_append_blockEnd hagain, hctx, Printer.element_congr _ hcore,
        Printer.endTag_congr hcore]
      refine ⟨rfl, ?_⟩
      rw [partsInRange_append Printer.isText_of_mem_blockEnd, hrange, inRange_congr _ hcore,
        inRange_block _ _ hp hb hi hs]

theorem layoutBlock_again (hR : ∀ t u, R t u → t.Recast u) (source : Chars) :
    ∀ (qs : List Part) (ns : List Node) (depth pos nest breaks breaks' : Nat)
      (top fresh suppressed : Bool), (∀ q ∈ qs, q.isText = true → q.isBlank = true) →
      ReadyList nest suppressed qs → (∀ x ∈ ownList suppressed qs, Lasting p R x.1 x.2) →
      RetaggedList R
        (placeList pos (layoutBlock p depth top ⟨fresh, breaks, suppressed⟩ qs).1) ns →
      layoutBlock { p with source } depth top ⟨fresh, breaks', suppressed⟩
          (dressList suppressed (layoutBlock p depth top ⟨fresh, breaks, suppressed⟩ qs).1 ns) =
        layoutBlock p depth top ⟨fresh, breaks, suppressed⟩ qs ∧
      partsInRange p depth top false suppressed
          (dressList suppressed (layoutBlock p depth top ⟨fresh, breaks, suppressed⟩ qs).1 ns) =
        partsInRange p depth top false suppressed qs
  | [], ns, depth, pos, nest, breaks, breaks', top, fresh, suppressed, _, _, _, hn => by
    cases ns with
    | nil => exact ⟨rfl, rfl⟩
    | cons => exact hn.elim
  | q :: qs, ns, depth, pos, nest, breaks, breaks', top, fresh, suppressed, hb, hr, he, hn => by
    obtain ⟨hbq, hb⟩ := List.forall_mem_cons.mp hb
    obtain ⟨hrq, htext, hr⟩ := hr
    rw [ownList, List.forall_mem_append] at he
    obtain ⟨heq, he⟩ := he
    cases suppressed with
    | true =>
      rw [layoutBlock_of_suppressed] at hn ⊢
      cases ns with
      | nil => exact hn.elim
      | cons n ns =>
        obtain ⟨hrest, hrange⟩ := layoutBlock_again hR source qs ns depth _ nest breaks breaks' top
          fresh (q.regionAfter true) hb hr he hn.2
        rw [dressList, if_pos rfl, layoutBlock_of_suppressed, hrest, partsInRange, hrange]
        exact ⟨rfl, rfl⟩
    | false =>
      cases hbl : q.isBlank with
      | true =>
        have ht := Part.isText_of_isBlank hbl
        rw [regionAfter_of_isText ht] at hr he
        rw [layoutBlock_of_isBlank _ _ _ _ hbl] at hn ⊢
        rw [partsInRange_text ht]
        exact layoutBlock_again hR source qs ns depth pos nest q.lineBreaks breaks' top fresh false
          hb hr he hn
      | false =>
        have ht := Part.isText_eq_false hbq hbl
        rw [layoutBlock_node _ _ _ _ hbl] at hn ⊢
        obtain ⟨pos', ms, hms, hdress⟩ := dressList_textParts _ hn
        cases ms with
        | nil => exact hms.elim
        | cons n ms =>
          have hnode : ((q.layout p depth top false).dress n).isBlank = false := by
            rw [isBlank_dress]
            exact Part.isBlank_of_not_isText (isText_layout p _ _ _ ht)
          obtain ⟨hlayout, hcount⟩ := Part.layout_again hR source q n depth pos' nest top false ht hrq
            heq hms.1
          obtain ⟨hrest, hrange⟩ := layoutBlock_again hR source qs ms depth _ nest 0 0 top false
            (q.regionAfter false) hb hr he hms.2
          rw [hdress, layoutBlock_textParts _ _ _ _ (Printer.spacing_blockGap _ _ _),
            partsInRange_textParts, dressList, if_neg Bool.false_ne_true,
            layoutBlock_node _ _ _ _ hnode, partsInRange, partsInRange, regionAfter_dress,
            regionAfter_layout, hlayout, hrest, hcount, hrange]
          exact ⟨congrArg (fun gap => (textParts gap ++ _, _))
            (blockGap_reread p depth top fresh breaks breaks'), rfl⟩

theorem layoutInline_again (hR : ∀ t u, R t u → t.Recast u) (source : Chars) :
    ∀ (qs : List Part) (ns : List Node) (depth pos nest : Nat) (isFirst isFirst' suppressed : Bool),
      ReadyList nest suppressed qs → (∀ x ∈ ownList suppressed qs, Lasting p R x.1 x.2) →
      (Part.headText qs = true → isFirst' = isFirst) →
      RetaggedList R (placeList pos (layoutInline p depth isFirst suppressed qs)) ns →
      layoutInline { p with source } depth isFirst' suppressed
          (dressList suppressed (layoutInline p depth isFirst suppressed qs) ns) =
        layoutInline p depth isFirst suppressed qs ∧
      partsInRange p (depth + 1) false true suppressed
          (dressList suppressed (layoutInline p depth isFirst suppressed qs) ns) =
        partsInRange p (depth + 1) false true suppressed qs
  | [], ns, depth, pos, nest, isFirst, isFirst', suppressed, _, _, _, hn => by
    cases ns with
    | nil => exact ⟨rfl, rfl⟩
    | cons => exact hn.elim
  | q :: qs, ns, depth, pos, nest, isFirst, isFirst', suppressed, hr, he, hf, hn => by
    obtain ⟨hrq, htext, hr⟩ := hr
    rw [ownList, List.forall_mem_append] at he
    obtain ⟨heq, he⟩ := he
    cases suppressed with
    | true =>
      rw [layoutInline_suppressed] at hn ⊢
      cases ns with
      | nil => exact hn.elim
      | cons n ns =>
        obtain ⟨hrest, hrange⟩ := layoutInline_again hR source qs ns depth _ nest false false
          (q.regionAfter true) hr he (fun _ => rfl) hn.2
        rw [dressList, if_pos rfl, layoutInline_suppressed, hrest, partsInRange, hrange]
        exact ⟨rfl, rfl⟩
    | false =>
      obtain ⟨spelling, value, rfl⟩ | ht := q.eq_text_or
      · have hhead : Part.headText qs = false := htext rfl
        rw [layoutInline_text] at hn ⊢
        obtain ⟨pos', ms, hms, hdress⟩ := dressList_textParts _ hn
        rw [hdress, partsInRange_textParts, partsInRange_text rfl]
        by_cases hv : Printer.runningValue value isFirst qs.isEmpty = []
        · rw [textParts, if_pos hv, List.nil_append, List.nil_append]
          exact layoutInline_again hR source qs ms depth pos' nest false isFirst' false hr he
            (by simp [hhead]) hms
        · obtain ⟨hrest, hrange⟩ := layoutInline_again hR source qs ms depth pos' nest false false
            false hr he (fun _ => rfl) hms
          have hempty : (dressList false (layoutInline p depth false false qs) ms).isEmpty =
              qs.isEmpty := by
            rw [isEmpty_dressList hms, isEmpty_layoutInline hhead]
          rw [textParts, if_neg hv, List.singleton_append, layoutInline_text, hempty, hf rfl,
            runningValue_again, hrest, textParts, if_neg hv]
          exact ⟨rfl, hrange⟩
      · rw [layoutInline_node p depth isFirst ht] at hn ⊢
        cases ns with
        | nil => exact hn.elim
        | cons n ns =>
          have hnode : ((q.layout p (depth + 1) false true).dress n).isText = false := by
            rw [isText_dress]
            exact isText_layout p _ _ _ ht
          obtain ⟨hlayout, hcount⟩ := Part.layout_again hR source q n (depth + 1) pos nest false true
            ht hrq heq hn.1
          obtain ⟨hrest, hrange⟩ := layoutInline_again hR source qs ns depth _ nest false false
            (q.regionAfter false) hr he (fun _ => rfl) hn.2
          rw [dressList, if_neg Bool.false_ne_true, layoutInline_node _ _ _ hnode, hlayout,
            partsInRange, partsInRange, regionAfter_dress, regionAfter_layout, hrest, hcount, hrange]
          exact ⟨rfl, rfl⟩

end

theorem ReadyList.of_append {nest : Nat} {suppressed : Bool} {ps qs : List Part}
    (h : ReadyList nest suppressed (ps ++ qs)) : ReadyList nest suppressed ps := by
  induction ps generalizing suppressed with
  | nil => trivial
  | cons p ps ih =>
    refine ⟨h.1, fun ht => ?_, ih h.2.2⟩
    cases ps with
    | nil => rfl
    | cons => exact h.2.1 ht

theorem mem_ownList_append {suppressed : Bool} {ps qs : List Part} {x : Tag × List Part}
    (h : x ∈ ownList suppressed ps) : x ∈ ownList suppressed (ps ++ qs) := by
  induction ps generalizing suppressed with
  | nil => simp [ownList] at h
  | cons p ps ih =>
    rw [ownList, List.mem_append] at h
    rw [List.cons_append, ownList, List.mem_append]
    exact h.imp id ih

/-- A block ends with a text only where its parts do. -/
theorem exists_getLast_layoutBlock (depth : Nat) (top : Bool) (state : BlockState)
    {qs : List Part} (hne : qs ≠ []) (hlast : (qs.getLast hne).isText = false) :
    ∃ r ∈ (layoutBlock p depth top state qs).1.getLast?, r.isText = false := by
  induction qs generalizing state with
  | nil => exact absurd rfl hne
  | cons q qs ih =>
    obtain ⟨fresh, breaks, suppressed⟩ := state
    cases qs with
    | nil =>
      rw [List.getLast_singleton] at hlast
      cases suppressed with
      | true => exact ⟨q, by rw [layoutBlock_of_suppressed]; rfl, hlast⟩
      | false =>
        refine ⟨q.layout p depth top false, ?_, isText_layout p _ _ _ hlast⟩
        rw [layoutBlock_node _ _ _ _ (Part.isBlank_of_not_isText hlast), layoutBlock,
          List.getLast?_append]
        rfl
    | cons q' qs =>
      rw [List.getLast_cons_cons] at hlast
      have hrest (state : BlockState) := ih state (by simp) hlast
      have hbehind (state : BlockState) (l : List Part) :
          ∃ r ∈ (l ++ (layoutBlock p depth top state (q' :: qs)).1).getLast?, r.isText = false := by
        obtain ⟨r, hr, ht⟩ := hrest state
        exact ⟨r, by rw [List.getLast?_append, Option.mem_def.mp hr]; rfl, ht⟩
      cases suppressed with
      | true =>
        rw [layoutBlock_of_suppressed]
        exact hbehind _ [q]
      | false =>
        cases hbl : q.isBlank with
        | true =>
          rw [layoutBlock_of_isBlank _ _ _ _ hbl]
          exact hrest _
        | false =>
          rw [layoutBlock_node _ _ _ _ hbl, ← List.singleton_append, ← List.append_assoc]
          exact hbehind _ _

theorem rdropWhile_layoutBlock (depth : Nat) (top : Bool) (state : BlockState) {qs : List Part}
    (hlast : qs.rdropWhile Part.isText = qs) :
    (layoutBlock p depth top state qs).1.rdropWhile Part.isText =
      (layoutBlock p depth top state qs).1 := by
  by_cases hne : qs = []
  · rw [hne, layoutBlock]
    rfl
  · rw [List.rdropWhile_eq_self_iff] at hlast ⊢
    intro hne'
    obtain ⟨r, hr, ht⟩ := exists_getLast_layoutBlock (p := p) depth top state hne
      (by simpa using hlast hne)
    rw [List.getLast?_eq_getLast_of_ne_nil hne'] at hr
    cases hr
    simp [ht]

/-- The layout of a document stays as it is when what was laid out is read and laid out again. -/
theorem layoutTop_again (hR : ∀ t u, R t u → t.Recast u) (source : Chars) {qs : List Part}
    (hready : ReadyTop qs) (he : ∀ x ∈ ownList false qs, Lasting p R x.1 x.2) (trailing : Bool) {pos : Nat}
    {ns : List Node} (hn : RetaggedList R (placeList pos (layoutTop p trailing qs)) ns) :
    layoutTop { p with source } trailing (dressList false (layoutTop p trailing qs) ns) =
        layoutTop p trailing qs ∧
      partsInRange p 0 true false false (dressList false (layoutTop p trailing qs) ns) =
        partsInRange p 0 true false false qs := by
  have hsplit := List.rdropWhile_append_rtakeWhile (p := Part.isText) (l := qs)
  have hblank := hready.order.blank
  have htexts : ∀ t ∈ qs.rtakeWhile Part.isText, t.isBlank = true := fun t ht =>
    hblank t ((List.rtakeWhile_suffix _ _).subset ht) (List.mem_rtakeWhile_imp ht)
  have hbody : ∀ q ∈ qs.rdropWhile Part.isText, q.isText = true → q.isBlank = true := fun q hq =>
    hblank q ((List.rdropWhile_prefix _ _).subset hq)
  have hready' : ReadyList 1 false (qs.rdropWhile Part.isText) :=
    (hsplit.symm ▸ hready.ready : ReadyList 1 false (_ ++ _)).of_append
  have he' : ∀ x ∈ ownList false (qs.rdropWhile Part.isText), Lasting p R x.1 x.2 := by
    intro x hx
    refine he x ?_
    rw [← hsplit]
    exact mem_ownList_append hx
  have hlast := rdropWhile_layoutBlock (p := p) 0 true ⟨true, 0, false⟩
    (List.rdropWhile_idempotent Part.isText qs)
  have hlayout : layoutTop p trailing qs =
      (layoutBlock p 0 true ⟨true, 0, false⟩ (qs.rdropWhile Part.isText)).1 ++
        if trailing then [.text ['\n'] ['\n']] else [] := by
    have hblock := layoutBlock_append (p := p) 0 true ⟨true, 0, false⟩ (qs.rdropWhile Part.isText)
      htexts
    rw [hsplit] at hblock
    rw [layoutTop, hblock, rdropWhile_append_of_all, hlast]
    exact fun t ht => Part.isText_of_isBlank (htexts t (List.mem_ite_nil_right.mp ht).2)
  have hend : ∀ t ∈ (if trailing then [Part.text ['\n'] ['\n']] else []), t.isBlank = true := by
    intro t ht
    rw [List.mem_singleton.mp (List.mem_ite_nil_right.mp ht).2]
    rfl
  rw [hlayout] at hn ⊢
  obtain ⟨ms, hms, hdress⟩ :=
    dressList_append (fun t ht => Part.isText_of_isBlank (hend t ht)) hn false
  obtain ⟨hagain, hrange⟩ :=
    layoutBlock_again hR source _ ms 0 pos 1 0 0 true true false hbody hready' he' hms
  constructor
  · rw [hdress, layoutTop, layoutBlock_append _ _ _ _ hend, hagain, rdropWhile_append_of_all, hlast]
    exact fun t ht => Part.isText_of_isBlank (hend t (List.mem_ite_nil_right.mp ht).2)
  · conv_rhs => rw [← hsplit]
    rw [hdress, partsInRange_append (fun t ht => Part.isText_of_isBlank (hend t ht)), hrange,
      partsInRange_append (fun t ht => List.mem_rtakeWhile_imp ht)]

end Again
end XamlFormat
