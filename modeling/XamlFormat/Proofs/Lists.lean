import Mathlib

/-! Lists that are matched member by member, and lists of lists. -/
namespace XamlFormat

section Matched

variable {α β γ : Type} {R : α → β → Prop} {l : List α} {l' : List β}

theorem exists_of_forall₂ (h : List.Forall₂ R l l') : ∀ b ∈ l', ∃ a ∈ l, R a b := by
  induction h with
  | nil => simp
  | cons hR _ ih =>
    refine List.forall_mem_cons.mpr ⟨⟨_, List.mem_cons_self, hR⟩, fun b hb => ?_⟩
    obtain ⟨a, ha, hab⟩ := ih b hb
    exact ⟨a, List.mem_cons_of_mem _ ha, hab⟩

theorem map_of_forall₂ {f : α → γ} {g : β → γ} (hR : ∀ a b, R a b → g b = f a)
    (h : List.Forall₂ R l l') : l'.map g = l.map f := by
  induction h with
  | nil => rfl
  | @cons a b l l' hab _ ih => rw [List.map_cons, List.map_cons, hR a b hab, ih]

theorem map_filter_of_forall₂ {p : α → Bool} {q : β → Bool} {f : α → γ} {g : β → γ}
    (hp : ∀ a b, R a b → q b = p a) (hf : ∀ a b, R a b → p a = true → g b = f a)
    (h : List.Forall₂ R l l') : (l'.filter q).map g = (l.filter p).map f := by
  induction h with
  | nil => rfl
  | @cons a b l l' hab _ ih =>
    rw [List.filter_cons, List.filter_cons, hp a b hab]
    split_ifs with ha
    · rw [List.map_cons, List.map_cons, ih, hf a b hab ha]
    · exact ih

theorem forall₂_comp {S : β → γ → Prop} {l'' : List γ} (h : List.Forall₂ R l l')
    (h' : List.Forall₂ S l' l'') : List.Forall₂ (fun a c => ∃ b, R a b ∧ S b c) l l'' := by
  induction h generalizing l'' with
  | nil =>
    cases h'
    exact .nil
  | cons hab _ ih =>
    cases h' with
    | cons hbc h' => exact .cons ⟨_, hab, hbc⟩ (ih h')

theorem pairwise_of_forall₂ {P : α → α → Prop} {Q S : β → β → Prop}
    (hS : ∀ a b a' b', R a a' → R b b' → P a b → Q a' b' → S a' b') (h : List.Forall₂ R l l')
    (hP : l.Pairwise P) (hQ : l'.Pairwise Q) : l'.Pairwise S := by
  induction h with
  | nil => exact .nil
  | cons hR h ih =>
    obtain ⟨hP, hPs⟩ := List.pairwise_cons.mp hP
    obtain ⟨hQ, hQs⟩ := List.pairwise_cons.mp hQ
    refine List.pairwise_cons.mpr ⟨fun b' hb' => ?_, ih hPs hQs⟩
    obtain ⟨b, hb, hbb'⟩ := exists_of_forall₂ h b' hb'
    exact hS _ b _ b' hR hbb' (hP b hb) (hQ b' hb')

theorem forall₂_filterMap {f : α → Option β} (h : ∀ a b, f a = some b → R a b) (l : List α) :
    ∃ kept : List α, kept.Sublist l ∧ List.Forall₂ R kept (l.filterMap f) := by
  induction l with
  | nil => exact ⟨[], .slnil, .nil⟩
  | cons a l ih =>
    obtain ⟨kept, hkept, hR⟩ := ih
    cases hf : f a with
    | none => exact ⟨kept, hkept.cons a, by rwa [List.filterMap_cons_none hf]⟩
    | some b =>
      refine ⟨a :: kept, hkept.cons_cons a, ?_⟩
      rw [List.filterMap_cons_some hf]
      exact .cons (h a b hf) hR

theorem forall₂_flatMap {f : List α → List β} (ls : List (List α))
    (h : ∀ l ∈ ls, List.Forall₂ R l (f l)) : List.Forall₂ R ls.flatten (ls.flatMap f) := by
  induction ls with
  | nil => exact .nil
  | cons l ls ih =>
    simp only [List.flatten_cons, List.flatMap_cons]
    exact List.rel_append (h l (by simp)) (ih fun l hl => h l (by simp [hl]))

end Matched

/-- The list that an element of a joined list comes from, and what stands around the element. -/
theorem exists_of_flatten_eq {α : Type} {lines : List (List α)} {before behind : List α} {a : α}
    (h : lines.flatten = before ++ a :: behind) :
    ∃ front u v back, lines = front ++ (u ++ a :: v) :: back ∧ before = front.flatten ++ u ∧
      behind = v ++ back.flatten := by
  obtain ⟨as, bs, rfl, rfl, hbs⟩ | ⟨as, u, c, v, back, rfl, rfl, hc⟩ :=
    List.flatten_eq_append_iff.mp h
  · obtain ⟨empty, v, back, rfl, hempty, rfl⟩ := List.flatten_eq_cons_iff.mp hbs.symm
    exact ⟨as ++ empty, [], v, back, by simp, by simpa using hempty, rfl⟩
  · cases hc
    exact ⟨as, u, v, back, rfl, rfl, rfl⟩

end XamlFormat
