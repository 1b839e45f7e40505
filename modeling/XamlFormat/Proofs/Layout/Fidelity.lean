import XamlFormat.Proofs.Layout.Dress
import XamlFormat.Style

/-! Printing keeps the document: what is printed is read as the same nodes, up to white space. -/
namespace XamlFormat

open Markup Text StartTag Reference

/-- A text of Unicode white space only. -/
def Node.isFiller : Node → Bool
  | .text value _ => value.all Text.isBlank
  | _ => false

mutual

/-- The node without the fillers inside it. -/
def Node.prune : Node → Node
  | .element tag children => .element tag (pruneList children)
  | .text value span => .text value span
  | .raw kind content span => .raw kind content span

def pruneList : List Node → List Node
  | [] => []
  | n :: ns => if n.isFiller then pruneList ns else n.prune :: pruneList ns

end

/-- The second attribute has the name of the first, and its value or one that is read as the same
extension. -/
structure Attribute.Same (a b : Attribute) : Prop where
  name : b.name = a.name
  value : a.extension = none → b.value = a.value
  extension : ∀ e, a.extension = some e → Extension.read b.value = .ok e

structure Tag.Same (t u : Tag) : Prop where
  name : u.name = t.name
  attributes : List.Forall₂ Attribute.Same t.attributes u.attributes

mutual

/-- The nodes agree in everything but white space around and inside of text and around the words of
one line comments. -/
def Node.Same : Node → Node → Prop
  | .element t ns, .element u ms => t.Same u ∧ SameNodes ns ms
  | .text value _, .text v _ =>
    (v.filter fun c => !isBlank c) = value.filter fun c => !isBlank c
  | .raw kind content _, .raw k c _ =>
    k = kind ∧ if kind = .comment ∧ '\n' ∉ content then trim c = trim content else c = content
  | _, _ => False

def SameNodes : List Node → List Node → Prop
  | [], [] => True
  | n :: ns, m :: ms => n.Same m ∧ SameNodes ns ms
  | _, _ => False

end

section Annotation

/-- The second attribute is the first, with its extension or without it. -/
def Attribute.Annotates (a b : Attribute) : Prop :=
  b = a ∨ ∃ e, Extension.read a.value = .ok e ∧ b = { a with extension := some e }

def Tag.Annotates (t u : Tag) : Prop :=
  ∃ attributes, List.Forall₂ Attribute.Annotates t.attributes attributes ∧ u = { t with attributes }

theorem Attribute.Annotates.refl (a : Attribute) : a.Annotates a := .inl rfl

theorem Tag.Annotates.refl (t : Tag) : t.Annotates t :=
  ⟨t.attributes, List.forall₂_same.mpr fun a _ => .refl a, rfl⟩

mutual

theorem Node.retagged_refl {R : Tag → Tag → Prop} (h : ∀ t, R t t) :
    ∀ n : Node, n.Retagged R n
  | .element t ns => ⟨h t, retaggedList_refl h ns⟩
  | .text _ _ => ⟨rfl, rfl⟩
  | .raw _ _ _ => ⟨rfl, rfl, rfl⟩

theorem retaggedList_refl {R : Tag → Tag → Prop} (h : ∀ t, R t t) :
    ∀ ns : List Node, RetaggedList R ns ns
  | [] => trivial
  | n :: ns => ⟨n.retagged_refl h, retaggedList_refl h ns⟩

end

theorem annotates_annotateAttributes (as : List Attribute) :
    List.Forall₂ Attribute.Annotates as (annotateAttributes as).1 := by
  induction as with
  | nil => exact .nil
  | cons a rest ih =>
    rw [annotateAttributes]
    split_ifs
    · split
      · exact List.forall₂_same.mpr fun b _ => .refl b
      · exact .cons (.refl a) ih
      · exact .cons (.inr ⟨_, ‹_›, rfl⟩) ih
    · exact .cons (.refl a) ih

mutual

theorem Node.retagged_annotate : ∀ n : Node, n.Retagged Tag.Annotates n.annotate.1
  | .element t ns => by
    rw [Node.annotate]
    have htag : t.Annotates { t with attributes := (annotateAttributes t.attributes).1 } :=
      ⟨_, annotates_annotateAttributes t.attributes, rfl⟩
    dsimp only
    split
    · exact ⟨htag, retaggedList_refl Tag.Annotates.refl ns⟩
    · exact ⟨htag, retaggedList_annotateList ns⟩
  | .text _ _ => ⟨rfl, rfl⟩
  | .raw _ _ _ => ⟨rfl, rfl, rfl⟩

theorem retaggedList_annotateList :
    ∀ ns : List Node, RetaggedList Tag.Annotates ns (annotateList ns).1
  | [] => trivial
  | n :: ns => by
    rw [annotateList]
    dsimp only
    split
    · exact ⟨n.retagged_annotate, retaggedList_refl Tag.Annotates.refl ns⟩
    · exact ⟨n.retagged_annotate, retaggedList_annotateList ns⟩

end

theorem Attribute.Annotates.name_eq {a b : Attribute} (h : a.Annotates b) : b.name = a.name := by
  obtain rfl | ⟨e, -, rfl⟩ := h <;> rfl

theorem map_name_of_annotates {as bs : List Attribute}
    (h : List.Forall₂ Attribute.Annotates as bs) :
    bs.map Attribute.name = as.map Attribute.name :=
  map_of_forall₂ (fun _ _ ha => ha.name_eq) h

theorem Tag.Annotates.recast {t u : Tag} (h : t.Annotates u) : t.Recast u := by
  obtain ⟨attributes, has, rfl⟩ := h
  refine ⟨rfl, rfl, rfl, rfl, fun hl => hl.of_subperm rfl ?_⟩
  exact (map_name_of_annotates has) ▸ List.Subperm.refl _

end Annotation

section Lists

theorem pruneList_append (ns ms : List Node) :
    pruneList (ns ++ ms) = pruneList ns ++ pruneList ms := by
  induction ns with
  | nil => rfl
  | cons n ns ih =>
    rw [List.cons_append, pruneList, pruneList, ih]
    split_ifs <;> rfl

theorem placeList_append (ps qs : List Part) (pos : Nat) :
    placeList pos (ps ++ qs) =
      placeList pos ps ++ placeList (pos + byteLength (spelledList ps)) qs := by
  induction ps generalizing pos with
  | nil => simp [placeList, spelledList]
  | cons p ps ih => simp [placeList, spelledList, ih, Nat.add_assoc]

theorem pruneList_textParts (value : Chars) (pos : Nat) :
    pruneList (placeList pos (textParts value)) =
      if value.all isBlank then [] else [.text value ⟨pos, pos + byteLength (escapeText value)⟩] := by
  unfold textParts
  split_ifs with hv hb hb
  · rfl
  · simp [hv] at hb
  · simp [placeList, Part.place, pruneList, Node.isFiller, hb]
  · simp [placeList, Part.place, pruneList, Node.isFiller, hb, Node.prune]

theorem all_isBlank_of_spacing {s : Chars} (h : Spacing s) : s.all isBlank = true := by
  rw [List.all_eq_true]
  intro c hc
  exact isBlank_of_isXmlBlank (h.blanks c hc)

theorem pruneList_placeList_blank {ps : List Part} (h : ∀ p ∈ ps, p.isBlank = true) (pos : Nat) :
    pruneList (placeList pos ps) = [] := by
  induction ps generalizing pos with
  | nil => rfl
  | cons p ps ih =>
    obtain ⟨hp, hps⟩ := List.forall_mem_cons.mp h
    cases p with
    | raw | element => simp [Part.isBlank] at hp
    | text spelling value =>
      have hfill : value.all isBlank = true := by
        simp only [Part.isBlank, List.all_eq_true] at hp ⊢
        exact fun c hc => isBlank_of_isXmlBlank (hp c hc)
      simp [placeList, Part.place, pruneList, Node.isFiller, hfill, ih hps]

end Lists

section Texts

theorem filter_collapse {f : Char → Bool} (hf : ∀ c, isXmlBlank c = true → f c = true)
    (s : Chars) : ((collapse s).filter fun c => !f c) = s.filter fun c => !f c := by
  have hspace : f ' ' = true := hf ' ' (by decide)
  induction s using collapse.induct with
  | case1 => rfl
  | case2 c hc => simp [collapse, hc, hspace, hf c hc]
  | case3 c hc => simp [collapse, hc]
  | case4 c d cs hc hd ih =>
    rw [collapse, if_pos hc, if_pos hd, ih]
    simp [List.filter_cons, hf c hc]
  | case5 c d cs hc hd ih =>
    rw [collapse, if_pos hc, if_neg hd, List.filter_cons, ih]
    simp [List.filter_cons, hspace, hf c hc]
  | case6 c d cs hc ih =>
    rw [collapse, if_neg hc, List.filter_cons, ih]
    simp only [List.filter_cons]

theorem filter_trimStart (s : Chars) :
    ((trimStart s).filter fun c => !isBlank c) = s.filter fun c => !isBlank c := by
  conv_rhs => rw [← List.takeWhile_append_dropWhile (p := isBlank) (l := s)]
  have htake : ((s.takeWhile isBlank).filter fun c => !isBlank c) = [] := by
    rw [List.filter_eq_nil_iff]
    intro c hc
    simp [List.mem_takeWhile_imp hc]
  rw [List.filter_append, htake]
  rfl

theorem filter_trimEnd (s : Chars) :
    ((trimEnd s).filter fun c => !isBlank c) = s.filter fun c => !isBlank c := by
  conv_rhs => rw [← List.rdropWhile_append_rtakeWhile (p := isBlank) (l := s)]
  have htake : ((s.rtakeWhile isBlank).filter fun c => !isBlank c) = [] := by
    rw [List.filter_eq_nil_iff]
    intro c hc
    simp [List.mem_rtakeWhile_imp hc]
  rw [List.filter_append, htake, List.append_nil, trimEnd_eq]

theorem filter_runningValue (value : Chars) (isFirst isLast : Bool) :
    ((Printer.runningValue value isFirst isLast).filter fun c => !isBlank c) =
      value.filter fun c => !isBlank c := by
  unfold Printer.runningValue
  have hcollapse := filter_collapse (fun _ => isBlank_of_isXmlBlank) value
  cases isFirst <;> cases isLast <;>
    simp [filter_trimStart, filter_trimEnd, hcollapse]

theorem all_iff_filter {f : Char → Bool} {s : Chars} :
    s.all f = true ↔ (s.filter fun c => !f c) = [] := by
  simp [List.filter_eq_nil_iff]

theorem trimStart_eq_nil {s : Chars} (h : s.all isBlank = true) : trimStart s = [] := by
  simpa [trimStart] using h

theorem trimEnd_eq_nil {s : Chars} (h : s.all isBlank = true) : trimEnd s = [] := by
  simpa [trimEnd_eq] using h

/-- A text at an edge of the content is left with blanks alone where it is white space; any other
text where it is made of the blanks of XML. -/
theorem all_runningValue (value : Chars) (isFirst isLast : Bool) :
    (Printer.runningValue value isFirst isLast).all isXmlBlank =
      value.all (if isFirst || isLast then isBlank else isXmlBlank) := by
  rw [Bool.eq_iff_iff]
  cases hedge : isFirst || isLast with
  | false =>
    obtain ⟨rfl, rfl⟩ := Bool.or_eq_false_iff.mp hedge
    have hcollapse := filter_collapse (fun _ h => h) value
    exact all_iff_filter.trans (hcollapse ▸ all_iff_filter.symm)
  | true =>
    refine ⟨fun h => ?_, fun h => ?_⟩
    · rw [if_pos rfl, all_iff_filter, ← filter_runningValue value isFirst isLast, ← all_iff_filter]
      exact List.all_eq_true.mpr fun c hc => isBlank_of_isXmlBlank (List.all_eq_true.mp h c hc)
    · have hcollapse : (collapse value).all isBlank = true := by
        rw [all_iff_filter, filter_collapse fun _ => isBlank_of_isXmlBlank, ← all_iff_filter]
        exact h
      have hnil : Printer.runningValue value isFirst isLast = [] := by
        cases isLast with
        | true => simp [Printer.runningValue, trimEnd_eq_nil hcollapse, trimStart]
        | false =>
          obtain rfl : isFirst = true := by simpa using hedge
          exact trimStart_eq_nil hcollapse
      rw [hnil]
      rfl

end Texts

section Tags

def Attribute.Sound (a : Attribute) : Prop :=
  ∀ e, a.extension = some e → Extension.read a.value = .ok e

theorem Tag.Same.place {t u : Tag} (h : t.Same u) (pos stop : Nat) (content : Option Span) :
    t.Same (u.place pos stop content) := by
  refine ⟨h.name, ?_⟩
  rw [Tag.place, List.forall₂_map_right_iff]
  exact h.attributes.imp fun a b hab => ⟨hab.name, hab.value, hab.extension⟩

theorem WrittenAttribute.extension_attributes (ws : List WrittenAttribute) (index pos : Nat) :
    ∀ a ∈ WrittenAttribute.attributes index pos ws, a.extension = none := by
  induction ws generalizing index pos with
  | nil => simp [WrittenAttribute.attributes]
  | cons w ws ih =>
    rw [WrittenAttribute.attributes]
    exact List.forall_mem_cons.mpr ⟨rfl, ih _ _⟩

theorem Tag.Spelled.extension {t : Tag} {text : Chars} (h : t.Spelled text) :
    ∀ a ∈ t.attributes, a.extension = none := by
  obtain ⟨w, -, -, rfl⟩ := h
  exact WrittenAttribute.extension_attributes _ _ _

theorem Attribute.Annotates.sound {a b : Attribute} (h : a.Annotates b) (ha : a.extension = none) :
    b.Sound ∧ b.Same a := by
  obtain rfl | ⟨e, he, rfl⟩ := h
  · exact ⟨by simp [Attribute.Sound, ha], rfl, fun _ => rfl, by simp [ha]⟩
  · refine ⟨fun e' he' => ?_, rfl, fun _ => rfl, fun e' he' => ?_⟩
    · rw [← Option.some.inj he']
      exact he
    · rw [← Option.some.inj he']
      exact he

theorem sound_of_annotates {pos : Nat} {as bs : List Attribute}
    (h : List.Forall₂ (fun a b => Attribute.Annotates { a with offset := pos + a.offset } b) as bs)
    (ha : ∀ a ∈ as, a.extension = none) :
    (∀ b ∈ bs, b.Sound) ∧ List.Forall₂ Attribute.Same bs as := by
  induction h with
  | nil => exact ⟨by simp, .nil⟩
  | @cons a b as bs hab _ ih =>
    obtain ⟨hnone, has⟩ := List.forall_mem_cons.mp ha
    obtain ⟨hsound, hsame⟩ := hab.sound hnone
    obtain ⟨hsounds, hsames⟩ := ih has
    exact ⟨List.forall_mem_cons.mpr ⟨hsound, hsounds⟩,
      .cons ⟨hsame.name, hsame.value, hsame.extension⟩ hsames⟩

variable {t u : Tag} {pos stop : Nat} {content : Option Span}

theorem Tag.Annotates.sound (h : (t.place pos stop content).Annotates u)
    (ht : ∀ a ∈ t.attributes, a.extension = none) :
    (∀ a ∈ u.attributes, a.Sound) ∧ u.Same t := by
  obtain ⟨attributes, has, rfl⟩ := h
  rw [Tag.place, List.forall₂_map_left_iff] at has
  obtain ⟨hsound, hsame⟩ := sound_of_annotates has ht
  exact ⟨hsound, rfl, hsame⟩

theorem same_fresh {ctx : TagContext} (hn : ctx.newLine = ['\n'])
    (hu : EscapesLineEnds ctx.unescaped) (ht : t.Legible) (hs : ∀ a ∈ t.attributes, a.Sound)
    (ending : TagEnd) : t.Same (fresh ctx t ending) := by
  refine ⟨name_fresh ht ending, ?_⟩
  have hkept := kept_fresh hn hu ht ending
  rw [List.forall₂_iff_zip] at hkept ⊢
  refine ⟨hkept.1, fun {a b} hab => ?_⟩
  have hk := hkept.2 hab
  exact ⟨hk.name, hk.value, fun e he =>
    hk.extension e a.value he (hs a (List.of_mem_zip hab).1 e he)⟩

end Tags

mutual

theorem Part.same_copied : ∀ (q : Part) (n : Node) (pos pos' nest : Nat), q.Fits nest →
    (q.place pos).Retagged Tag.Annotates n → n.prune.Same (q.place pos').prune
  | .text spelling value, n, pos, pos', nest, _, hn => by
    cases n with
    | text v s =>
      obtain ⟨rfl, -⟩ := hn
      exact rfl
    | raw | element => exact hn.elim
  | .raw kind content, n, pos, pos', nest, _, hn => by
    cases n with
    | raw k c s =>
      obtain ⟨rfl, rfl, -⟩ := hn
      exact ⟨rfl, by split_ifs <;> rfl⟩
    | text | element => exact hn.elim
  | .element opening tag children closing, n, pos, pos', nest, hf, hn => by
    cases n with
    | text | raw => exact hn.elim
    | element t ns =>
      obtain ⟨ht, hns⟩ := hn
      obtain ⟨-, hspelled, -, -, hvalid⟩ := hf.valid (by simp)
      obtain ⟨-, hsame⟩ := ht.sound hspelled.extension
      rw [Part.place, Node.prune, Node.prune]
      exact ⟨hsame.place _ _ _, same_copiedList children ns _ _ (nest + 1)
        (fun p hp => .inl (hvalid.valid p hp)) hns⟩

theorem same_copiedList : ∀ (ps : List Part) (ns : List Node) (pos pos' nest : Nat),
    (∀ p ∈ ps, p.Fits nest) → RetaggedList Tag.Annotates (placeList pos ps) ns →
    SameNodes (pruneList ns) (pruneList (placeList pos' ps))
  | [], ns, pos, pos', nest, _, hn => by
    cases ns with
    | nil => trivial
    | cons => exact hn.elim
  | p :: ps, ns, pos, pos', nest, hf, hn => by
    cases ns with
    | nil => exact hn.elim
    | cons n ns =>
      obtain ⟨hp, hps⟩ := List.forall_mem_cons.mp hf
      obtain ⟨hn, hns⟩ := hn
      have hfiller : n.isFiller = (p.place pos').isFiller := by
        cases p <;> cases n <;> simp_all [Part.place, Node.Retagged, Node.isFiller]
      have hrest := same_copiedList ps ns _ (pos' + byteLength p.spelled) nest hps hns
      rw [placeList, pruneList, pruneList, hfiller]
      split_ifs
      · exact hrest
      · exact ⟨Part.same_copied p n pos pos' nest hp hn, hrest⟩

end

theorem sameNodes_append {ns ms ns' ms' : List Node} (h : SameNodes ns ms)
    (h' : SameNodes ns' ms') : SameNodes (ns ++ ns') (ms ++ ms') := by
  induction ns generalizing ms with
  | nil =>
    cases ms with
    | nil => exact h'
    | cons => exact h.elim
  | cons n ns ih =>
    cases ms with
    | nil => exact h.elim
    | cons m ms => exact ⟨h.1, ih h.2⟩

theorem sameNodes_cons {n m : Node} {ns ms : List Node}
    (h : SameNodes (pruneList [n]) (pruneList [m])) (hrest : SameNodes (pruneList ns) (pruneList ms)) :
    SameNodes (pruneList (n :: ns)) (pruneList (m :: ms)) := by
  rw [← List.singleton_append, pruneList_append, ← List.singleton_append (x := m), pruneList_append]
  exact sameNodes_append h hrest

theorem isFiller_of_isBlank {q : Part} (h : q.isBlank = true) (pos : Nat) :
    (q.place pos).isFiller = true := by
  cases q with
  | raw | element => simp [Part.isBlank] at h
  | text spelling value =>
    simp only [Part.isBlank, List.all_eq_true] at h
    simpa [Part.place, Node.isFiller] using fun c hc => isBlank_of_isXmlBlank (h c hc)

/-- Running text is read with the same characters, or is nothing but white space before and after. -/
theorem same_runningText (value : Chars) (span : Span) (pos : Nat) (isFirst isLast : Bool) :
    SameNodes (pruneList [.text value span])
      (pruneList (placeList pos (textParts (Printer.runningValue value isFirst isLast)))) := by
  have hfilter := filter_runningValue value isFirst isLast
  have hblank : (Printer.runningValue value isFirst isLast).all isBlank = value.all isBlank := by
    rw [Bool.eq_iff_iff, all_iff_filter, all_iff_filter, hfilter]
  rw [pruneList_textParts, hblank, pruneList, Node.isFiller]
  split_ifs
  · trivial
  · exact ⟨hfilter, trivial⟩

theorem isFiller_place {q : Part} (h : q.isText = false) (pos : Nat) :
    (q.place pos).isFiller = false := by
  cases q with
  | text => simp [Part.isText] at h
  | raw | element => rfl

theorem Node.Retagged.isFiller_eq {R : Tag → Tag → Prop} {m n : Node} (h : m.Retagged R n) :
    n.isFiller = m.isFiller := by
  cases m <;> cases n <;> simp_all [Node.Retagged, Node.isFiller]

mutual

/-- A part that is laid out is read as the same node. -/
theorem Part.same_layout (p : Printer) (hu : EscapesLineEnds p.unescaped) :
    ∀ (q : Part) (n : Node) (depth pos pos' nest : Nat) (isRoot inline : Bool),
      q.isText = false → q.Fits nest → (q.place pos).Retagged Tag.Annotates n →
      n.prune.Same (((q.dress n).layout p depth isRoot inline).place pos').prune
  | .text spelling value, n, depth, pos, pos', nest, isRoot, inline, ht, _, _ => by
    simp [Part.isText] at ht
  | .raw kind content, n, depth, pos, pos', nest, isRoot, inline, _, _, hn => by
    cases n with
    | raw k c s =>
      obtain ⟨rfl, rfl, -⟩ := hn
      rw [Part.dress, Part.layout]
      · refine ⟨rfl, ?_⟩
        split_ifs with hk
        · rw [Printer.rawContent, if_pos (by simpa using hk)]
          exact trim_paddedComment p c
        · rw [Printer.rawContent, if_neg (by simpa using hk)]
      · simp
    | text | element => exact hn.elim
  | .element opening tag children closing, n, depth, pos, pos', nest, isRoot, inline, _, hf, hn => by
    cases n with
    | text | raw => exact hn.elim
    | element t ns =>
      obtain ⟨ht, hns⟩ := hn
      obtain ⟨-, hspelled, -, -, hvalid⟩ := hf.valid (by simp)
      obtain ⟨hsound, -⟩ := ht.sound hspelled.extension
      have hlegible := ht.recast.legible (hspelled.legible.place _ _ _)
      have hctx : EscapesLineEnds (p.unixContext depth isRoot inline).unescaped := hu
      have hfits : ∀ q ∈ children, q.Fits (nest + 1) := fun q hq => .inl (hvalid.valid q hq)
      -- the start tag is the same, so only the children are left to compare
      have hchildren {ending : TagEnd} {cs : List Part} {closing' : Chars}
          (h : ∀ pos, SameNodes (pruneList ns) (pruneList (placeList pos cs))) :
          (Node.element t ns).prune.Same ((Printer.element (p.unixContext depth isRoot inline) t
            ending cs closing').place pos').prune := by
        rw [Printer.element, Part.place, Node.prune, Node.prune]
        exact ⟨(same_fresh rfl hctx hlegible hsound ending).place _ _ _, h _⟩
      have hpreserve : t.preserveSpace = tag.preserveSpace := ht.recast.preserveSpace
      rw [Part.dress]
      by_cases hp : (tag.preserveSpace && !children.isEmpty) = true
      · rw [if_pos hp, (Printer.LaysOut.copied (by rwa [hpreserve])).layout_eq]
        exact hchildren fun pos => same_copiedList children ns _ pos (nest + 1) hfits hns
      · rw [if_neg hp]
        obtain ⟨out, hlaid⟩ := p.exists_laysOut depth isRoot inline t (dressList false children ns)
        rw [hlaid.layout_eq]
        cases hlaid with
        | copied hp' =>
          rw [hpreserve, isEmpty_dressList hns] at hp'
          exact absurd hp' hp
        | selfClosed _ hb | empty _ hb =>
          rw [all_dressList hns] at hb
          refine hchildren fun pos => ?_
          have hcopied := same_copiedList children ns _ pos (nest + 1) hfits hns
          rwa [pruneList_placeList_blank (List.all_eq_true.mp hb)] at hcopied
        | running =>
          exact hchildren fun pos =>
            same_layoutInline p hu children ns depth _ pos (nest + 1) true false hfits hns
        | block _ _ _ hs =>
          rw [any_dressList hns] at hs
          refine hchildren fun pos => ?_
          rw [placeList_append, pruneList_append,
            pruneList_placeList_blank Printer.isBlank_of_mem_blockEnd, List.append_nil]
          exact same_layoutBlock p hu children ns (depth + 1) _ pos (nest + 1) false
            ⟨true, 0, false⟩ hfits (Part.isBlank_of_any_isSignificant hs) hns

theorem same_layoutBlock (p : Printer) (hu : EscapesLineEnds p.unescaped) :
    ∀ (ps : List Part) (ns : List Node) (depth pos pos' nest : Nat) (top : Bool)
      (state : BlockState), (∀ q ∈ ps, q.Fits nest) → (∀ q ∈ ps, q.isText = true → q.isBlank = true) →
      RetaggedList Tag.Annotates (placeList pos ps) ns →
      SameNodes (pruneList ns) (pruneList (placeList pos'
        (layoutBlock p depth top state (dressList state.suppressed ps ns)).1))
  | [], ns, depth, pos, pos', nest, top, state, _, _, hn => by
    cases ns with
    | nil =>
      rw [dressList, layoutBlock]
      · trivial
      · simp
    | cons => exact hn.elim
  | q :: ps, ns, depth, pos, pos', nest, top, ⟨fresh, breaks, suppressed⟩, hf, hb, hn => by
    cases ns with
    | nil => exact hn.elim
    | cons n ns =>
      obtain ⟨hq, hps⟩ := List.forall_mem_cons.mp hf
      obtain ⟨hbq, hb⟩ := List.forall_mem_cons.mp hb
      obtain ⟨hn, hns⟩ := hn
      have hfiller := hn.isFiller_eq
      have hfollowing := fun fresh breaks pos' => same_layoutBlock p hu ps ns depth _ pos' nest top
        ⟨fresh, breaks, q.regionAfter suppressed⟩ hps hb hns
      rw [dressList]
      cases suppressed with
      | true =>
        have hcopy := same_copiedList [q] [n] pos pos' nest (by simpa using hq) ⟨hn, trivial⟩
        rw [if_pos rfl, layoutBlock_of_suppressed]
        exact sameNodes_cons hcopy (hfollowing fresh breaks _)
      | false =>
        rw [if_neg Bool.false_ne_true]
        cases hbl : q.isBlank with
        | true =>
          have hstep := hfollowing fresh (q.dress n).lineBreaks pos'
          rw [regionAfter_of_isText (Part.isText_of_isBlank hbl)] at hstep ⊢
          rw [layoutBlock_of_isBlank _ _ _ _ (by rwa [isBlank_dress]), pruneList,
            if_pos (hfiller.trans (isFiller_of_isBlank hbl pos))]
          exact hstep
        | false =>
          have ht := Part.isText_eq_false hbq hbl
          rw [layoutBlock_node _ _ _ _ (by rwa [isBlank_dress]), placeList_append, pruneList_append,
            pruneList_textParts, if_pos (all_isBlank_of_spacing (Printer.spacing_blockGap _ _ _)),
            List.nil_append, placeList, pruneList, pruneList, hfiller, isFiller_place ht,
            isFiller_place (isText_layout p depth top false (by simpa using ht)), regionAfter_dress]
          exact ⟨Part.same_layout p hu q n depth pos _ nest top false ht hq hn, hfollowing false 0 _⟩

theorem same_layoutInline (p : Printer) (hu : EscapesLineEnds p.unescaped) :
    ∀ (ps : List Part) (ns : List Node) (depth pos pos' nest : Nat) (isFirst suppressed : Bool),
      (∀ q ∈ ps, q.Fits nest) → RetaggedList Tag.Annotates (placeList pos ps) ns →
      SameNodes (pruneList ns) (pruneList (placeList pos'
        (layoutInline p depth isFirst suppressed (dressList suppressed ps ns))))
  | [], ns, depth, pos, pos', nest, isFirst, suppressed, _, hn => by
    cases ns with
    | nil =>
      rw [dressList, layoutInline]
      · trivial
      · simp
    | cons => exact hn.elim
  | q :: ps, ns, depth, pos, pos', nest, isFirst, suppressed, hf, hn => by
    cases ns with
    | nil => exact hn.elim
    | cons n ns =>
      obtain ⟨hq, hps⟩ := List.forall_mem_cons.mp hf
      obtain ⟨hn, hns⟩ := hn
      have hfiller := hn.isFiller_eq
      rw [dressList]
      cases suppressed with
      | true =>
        have hrest := same_layoutInline p hu ps ns depth _ (pos' + byteLength q.spelled) nest false
          (q.regionAfter true) hps hns
        have hcopy := same_copiedList [q] [n] pos pos' nest (by simpa using hq) ⟨hn, trivial⟩
        rw [if_pos rfl, layoutInline_suppressed]
        exact sameNodes_cons hcopy hrest
      | false =>
        rw [if_neg Bool.false_ne_true]
        obtain ⟨spelling, value, rfl⟩ | ht := q.eq_text_or
        · cases n with
          | raw | element => exact hn.elim
          | text v span =>
            obtain ⟨rfl, -⟩ := hn
            rw [Part.dress, layoutInline_text, placeList_append, pruneList_append,
              ← List.singleton_append (l := ns), pruneList_append]
            · refine sameNodes_append ?_ (same_layoutInline p hu ps ns depth _ _ nest false false
                hps hns)
              exact same_runningText _ _ _ _ _
            · simp
        · rw [layoutInline_node p depth isFirst (by simpa using ht), placeList, pruneList, pruneList,
            hfiller, isFiller_place ht,
            isFiller_place (isText_layout p (depth + 1) false true (by simpa using ht)),
            regionAfter_dress]
          exact ⟨Part.same_layout p hu q n (depth + 1) pos pos' nest false true ht hq hn,
            same_layoutInline p hu ps ns depth _ _ nest false (q.regionAfter false) hps hns⟩

end

theorem isBlank_of_mem_dropped {p : Printer} {qs : List Part} (hu : EscapesLineEnds p.unescaped)
    (h : ReadyTop qs) {q : Part}
    (hq : q ∈ (layoutBlock p 0 true ⟨true, 0, false⟩ qs).1.rtakeWhile Part.isText) :
    q.isBlank = true := by
  have hvalid := validTop_layoutBlock p hu 0 qs false ⟨true, 0, false⟩ h.ready h.order
  exact hvalid.order.blank q ((List.rtakeWhile_suffix _ _).subset hq) (List.mem_rtakeWhile_imp hq)

theorem pruneList_layoutTop {p : Printer} {qs : List Part} (hu : EscapesLineEnds p.unescaped)
    (h : ReadyTop qs) (trailing : Bool) (pos : Nat) :
    pruneList (placeList pos (layoutTop p trailing qs)) =
      pruneList (placeList pos (layoutBlock p 0 true ⟨true, 0, false⟩ qs).1) := by
  have hline (pos : Nat) : pruneList (placeList pos
      (if trailing then [.text ['\n'] ['\n']] else [])) = [] := by
    cases trailing <;> rfl
  conv_rhs => rw [← List.rdropWhile_append_rtakeWhile (p := Part.isText) (l := Prod.fst _)]
  rw [layoutTop, placeList_append, pruneList_append, placeList_append, pruneList_append, hline]
  exact congrArg _ (pruneList_placeList_blank (fun q hq => isBlank_of_mem_dropped hu h hq) _).symm

namespace Document

/-- Printing keeps the document: the output is read as a document with the same flags and, white
space texts aside, with the same nodes in the same order at every level. -/
theorem print_faithful {source : Chars} {d d' : Document} {s : Settings} {dialect : Dialect}
    (hreturn : '\r' ∉ source) (h : read source = .ok d)
    (hd : d' = d ∨ d' = (d.annotate source).1) (hu : EscapesLineEnds (dialect.unescaped s)) :
    ∃ r, read (unifyLineEnds (d'.print source s dialect)) = .ok r ∧
      r.byteOrderMark = d.byteOrderMark ∧ r.trailingNewline = d.trailingNewline ∧
      SameNodes (pruneList d'.nodes) (pruneList r.nodes) := by
  obtain ⟨parts, hvalid, hsource, hparts⟩ := read_sound h
  have hflags : d'.byteOrderMark = d.byteOrderMark ∧ d'.trailingNewline = d.trailingNewline := by
    obtain rfl | rfl := hd <;> exact ⟨rfl, rfl⟩
  have hretagged : RetaggedList Tag.Annotates d.nodes d'.nodes := by
    obtain rfl | rfl := hd
    · exact retaggedList_refl Tag.Annotates.refl _
    · exact retaggedList_annotateList _
  have hp : EscapesLineEnds (printer source s dialect).unescaped := hu
  rw [hparts] at hretagged
  obtain ⟨hready, hshown⟩ := dress_spec (fun _ _ h => h.recast) hreturn hvalid hsource hretagged
  obtain ⟨-, hread⟩ := read_print hu hready hshown
  refine ⟨_, hread, hflags.1, ?_, ?_⟩
  · exact (trailingNewline_layoutTop hp hready _).trans hflags.2
  · rw [ofParts, pruneList_layoutTop hp hready]
    exact same_layoutBlock _ hp parts d'.nodes 0 _ _ 1 true ⟨true, 0, false⟩ hvalid.fits
      hvalid.order.blank hretagged

theorem print_faithful_sample :
    ∃ d r, read "<A b='{X y}'>t <B/></A>".toList = .ok d ∧
      read (unifyLineEnds ((d.annotate "<A b='{X y}'>t <B/></A>".toList).1.print
        "<A b='{X y}'>t <B/></A>".toList Settings.standard .xaml)) = .ok r ∧
      SameNodes (pruneList (d.annotate "<A b='{X y}'>t <B/></A>".toList).1.nodes)
        (pruneList r.nodes) := by
  have h : ∃ d, read "<A b='{X y}'>t <B/></A>".toList = .ok d := ⟨_, by cbv⟩
  obtain ⟨d, hd⟩ := h
  have hu : EscapesLineEnds (Dialect.xaml.unescaped Settings.standard) := by
    refine ⟨?_, ?_, ?_⟩ <;> decide
  obtain ⟨r, hr, -, -, hsame⟩ := print_faithful (by decide) hd (.inr rfl) hu
  exact ⟨d, r, hd, hr, hsame⟩

end Document
end XamlFormat
