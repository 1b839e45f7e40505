import XamlFormat.Project.FileTree
import XamlFormat.Proofs.Lists

/-! New contents for files. Overwriting keeps the shape of a tree, which alone decides where paths
lead; what stands elsewhere stays as it is, and files at different places may be overwritten in any
order. -/
namespace XamlFormat

theorem lookup_map_snd {α β γ : Type} [BEq α] [LawfulBEq α] (f : α → β → γ) (a : α)
    (l : List (α × β)) :
    (l.map fun x => (x.1, f x.1 x.2)).lookup a = (l.lookup a).map (f a) := by
  induction l with
  | nil => rfl
  | cons x l ih =>
    obtain ⟨b, c⟩ := x
    simp only [List.map_cons, List.lookup_cons]
    split
    · rename_i h
      rw [eq_of_beq h, Option.map_some]
    · exact ih

namespace Entry

mutual

/-- An entry without the contents of its files. -/
def shape : Entry → Entry
  | file _ => file ByteArray.empty
  | folder children => folder (shapeList children)

def shapeList : List (Chars × Entry) → List (Chars × Entry)
  | [] => []
  | (name, child) :: rest => (name, shape child) :: shapeList rest

end

theorem shapeList_eq_map (children : List (Chars × Entry)) :
    shapeList children = children.map fun c => (c.1, c.2.shape) := by
  induction children with
  | nil => rfl
  | cons c rest ih => rw [shapeList, ih, List.map_cons]

@[simp] theorem isFolder_shape (e : Entry) : e.shape.isFolder = e.isFolder := by
  cases e <;> simp [shape, isFolder]

theorem children_shape (e : Entry) : e.shape.children = shapeList e.children := by
  cases e <;> simp [shape, children, shapeList]

theorem lookup_shapeList (name : Chars) (children : List (Chars × Entry)) :
    (shapeList children).lookup name = (children.lookup name).map shape := by
  rw [shapeList_eq_map]
  exact lookup_map_snd (fun _ e => e.shape) name children

theorem get?_shape (e : Entry) (loc : Location) : e.shape.get? loc = (e.get? loc).map shape := by
  induction loc generalizing e with
  | nil => rfl
  | cons name rest ih =>
    rw [get?, get?, children_shape, lookup_shapeList]
    cases e.children.lookup name with
    | none => rfl
    | some child => exact ih child

def bytes? : Entry → Option ByteArray
  | file bytes => some bytes
  | folder _ => none

section Modify

variable (e : Entry) {loc loc' : Location}

theorem get?_modify_cons (name name' : Chars) (rest rest' : Location) (f : Entry → Entry) :
    (e.modify (name :: rest) f).get? (name' :: rest') =
      (e.children.lookup name').bind fun child =>
        (if name' = name then child.modify rest f else child).get? rest' := by
  cases e with
  | file bytes => rfl
  | folder children =>
    simp only [modify, get?, Entry.children]
    have hlookup := lookup_map_snd
      (fun n (child : Entry) => if n = name then child.modify rest f else child) name' children
    rw [hlookup, Option.bind_map]
    rfl

theorem shape_modify_withBytes (loc : Location) (bytes : ByteArray) :
    (e.modify loc (withBytes bytes)).shape = e.shape := by
  induction loc generalizing e with
  | nil => cases e <;> rfl
  | cons name rest ih =>
    cases e with
    | file _ => rfl
    | folder children =>
      simp only [modify, shape, shapeList_eq_map, List.map_map, folder.injEq]
      refine List.map_congr_left fun c _ => ?_
      simp only [Function.comp_apply]
      split_ifs
      · rw [ih]
      · rfl

theorem get?_modify_same (loc : Location) (f : Entry → Entry) :
    (e.modify loc f).get? loc = (e.get? loc).map f := by
  induction loc generalizing e with
  | nil => cases e <;> rfl
  | cons name rest ih =>
    rw [get?_modify_cons, get?]
    cases e.children.lookup name with
    | none => rfl
    | some child => simp [ih]

/-- Elsewhere the files keep their contents; a folder on the way holds another entry, and stays a
folder. -/
theorem bytes?_modify_of_ne (bytes : ByteArray) (h : loc' ≠ loc) :
    ((e.modify loc (withBytes bytes)).get? loc').map bytes? = (e.get? loc').map bytes? := by
  induction loc generalizing e loc' with
  | nil =>
    cases loc' with
    | nil => exact absurd rfl h
    | cons name' rest' => cases e <;> rfl
  | cons name rest ih =>
    cases loc' with
    | nil => cases e <;> rfl
    | cons name' rest' =>
      rw [get?_modify_cons, get?]
      cases e.children.lookup name' with
      | none => rfl
      | some child =>
        simp only [Option.bind_some]
        split_ifs with hname
        · exact ih child fun hrest => h (by rw [hname, hrest])
        · rfl

theorem modify_modify_same (bytes bytes' : ByteArray) :
    (e.modify loc (withBytes bytes)).modify loc (withBytes bytes') =
      e.modify loc (withBytes bytes') := by
  induction loc generalizing e with
  | nil => cases e <;> rfl
  | cons name rest ih =>
    cases e with
    | file _ => rfl
    | folder children =>
      simp only [modify, List.map_map, folder.injEq]
      refine List.map_congr_left fun c _ => ?_
      simp only [Function.comp_apply]
      split_ifs
      · rw [ih]
      · rfl

theorem modify_modify_comm (bytes bytes' : ByteArray) (h : loc ≠ loc') :
    (e.modify loc (withBytes bytes)).modify loc' (withBytes bytes') =
      (e.modify loc' (withBytes bytes')).modify loc (withBytes bytes) := by
  induction loc generalizing e loc' with
  | nil =>
    cases loc' with
    | nil => exact absurd rfl h
    | cons name' rest' => cases e <;> rfl
  | cons name rest ih =>
    cases e with
    | file _ => cases loc' <;> rfl
    | folder children =>
      cases loc' with
      | nil => rfl
      | cons name' rest' =>
        simp only [modify, List.map_map, folder.injEq]
        refine List.map_congr_left fun c _ => ?_
        simp only [Function.comp_apply]
        by_cases hname : c.1 = name
        · by_cases hname' : c.1 = name'
          · have hrest : rest ≠ rest' := fun hrest => h (by rw [← hname, hname', hrest])
            rw [if_pos hname, if_pos hname', if_pos hname', if_pos hname, ih c.2 hrest]
          · simp [hname']
        · simp [hname]

end Modify

end Entry

namespace FileTree

variable {t u : FileTree} {p q : Path} {bytes : ByteArray}

def shape (t : FileTree) : FileTree := { t with root := t.root.shape }

def Trail.shape (trail : Trail) : Trail := trail.map fun c => (c.1, c.2.shape)

theorem entryAt_shape (t : FileTree) (trail : Trail) :
    t.shape.entryAt trail.shape = (t.entryAt trail).shape := by
  cases trail <;> rfl

theorem follow_shape (t : FileTree) (trail : Trail) (segments : List Chars) :
    t.shape.follow trail.shape segments = (t.follow trail segments).map Trail.shape := by
  induction segments generalizing trail with
  | nil => rfl
  | cons segment rest ih =>
    rw [follow, follow, entryAt_shape]
    cases t.entryAt trail with
    | file _ => rfl
    | folder children =>
      simp only [Entry.shape]
      by_cases hsilent : Path.isSilent segment = true
      · rw [if_pos hsilent, if_pos hsilent, ih]
      rw [if_neg hsilent, if_neg hsilent]
      by_cases hup : segment = ['.', '.']
      · rw [if_pos hup, if_pos hup, ← ih, Trail.shape, Trail.shape, List.map_tail]
      rw [if_neg hup, if_neg hup, Entry.lookup_shapeList]
      cases children.lookup segment with
      | none => rfl
      | some e => exact ih ((segment, e) :: trail)

@[simp] theorem locate_shape (t : FileTree) (p : Path) : t.shape.locate p = t.locate p := by
  have hfollow (segments : List Chars) :
      ((t.shape.follow [] segments).map fun trail => (trail.map Prod.fst).reverse) =
        (t.follow [] segments).map fun trail => (trail.map Prod.fst).reverse := by
    have hshape : t.shape.follow [] segments = (t.follow [] segments).map Trail.shape :=
      follow_shape t [] segments
    rw [hshape]
    cases t.follow [] segments with
    | error _ => rfl
    | ok trail => simp [Except.map, Trail.shape, Function.comp_def]
  unfold locate
  simp only [hfollow]
  rfl

theorem find?_shape (t : FileTree) (p : Path) : t.shape.find? p = (t.find? p).map Entry.shape := by
  rw [find?, find?, locate_shape]
  cases t.locate p with
  | error _ => rfl
  | ok loc => exact Entry.get?_shape t.root loc

@[simp] theorem isFile_shape (t : FileTree) (p : Path) : t.shape.isFile p = t.isFile p := by
  rw [isFile, isFile, find?_shape]
  cases t.find? p <;> simp

@[simp] theorem isFolder_shape (t : FileTree) (p : Path) : t.shape.isFolder p = t.isFolder p := by
  rw [isFolder, isFolder, find?_shape]
  cases t.find? p <;> simp

@[simp] theorem isPresent_shape (t : FileTree) (p : Path) :
    t.shape.isPresent p = t.isPresent p := by
  rw [isPresent, isPresent, find?_shape, Option.isSome_map]

@[simp] theorem workingPath_shape (t : FileTree) : t.shape.workingPath = t.workingPath := rfl

theorem locate_eq_of_shape (h : u.shape = t.shape) (p : Path) : u.locate p = t.locate p := by
  rw [← locate_shape u, h, locate_shape]

theorem read_eq (t : FileTree) (p : Path) :
    t.read p = match t.locate p with
      | .error why => .error (.lost why)
      | .ok loc =>
        match (t.get? loc).map Entry.bytes? with
        | some (some bytes) => .ok bytes
        | some none => .error .folder
        | none => .error (.lost .missing) := by
  rw [read]
  cases t.locate p with
  | error _ => rfl
  | ok loc =>
    cases hget : t.get? loc with
    | none => simp [hget]
    | some e => cases e <;> simp [hget, Entry.bytes?]

theorem exists_of_isFile (h : t.isFile p = true) :
    ∃ loc bytes, t.locate p = .ok loc ∧ t.get? loc = some (.file bytes) := by
  rw [isFile, find?] at h
  cases hlocate : t.locate p with
  | error _ => simp [hlocate] at h
  | ok loc =>
    cases hget : t.get? loc with
    | none => simp [hlocate, hget] at h
    | some e =>
      cases e with
      | file bytes => exact ⟨loc, bytes, rfl, hget⟩
      | folder _ => simp [hlocate, hget, Entry.isFolder] at h

section Overwrite

@[simp] theorem shape_overwrite (t : FileTree) (p : Path) (bytes : ByteArray) :
    (t.overwrite p bytes).shape = t.shape := by
  rw [overwrite]
  cases t.locate p with
  | error _ => rfl
  | ok loc => simp [shape, Entry.shape_modify_withBytes]

@[simp] theorem locate_overwrite (t : FileTree) (p q : Path) (bytes : ByteArray) :
    (t.overwrite p bytes).locate q = t.locate q :=
  locate_eq_of_shape (shape_overwrite t p bytes) q

theorem overwrite_of_locate {loc : Location} (h : t.locate p = .ok loc) :
    t.overwrite p bytes = { t with root := t.root.modify loc (Entry.withBytes bytes) } := by
  rw [overwrite, h]

theorem overwrite_of_lost {why : Lost} (h : t.locate p = .error why) :
    t.overwrite p bytes = t := by
  rw [overwrite, h]

theorem read_overwrite_of_ne (h : t.locate q ≠ t.locate p) :
    (t.overwrite p bytes).read q = t.read q := by
  rw [read_eq, read_eq t, locate_overwrite]
  cases hq : t.locate q with
  | error _ => rfl
  | ok loc' =>
    cases hp : t.locate p with
    | error _ => rw [overwrite_of_lost hp]
    | ok loc =>
      have hne : loc' ≠ loc := fun heq => h (by rw [hq, hp, heq])
      rw [overwrite_of_locate hp]
      simp only [get?, Entry.bytes?_modify_of_ne t.root bytes hne]

theorem read_overwrite_same (h : t.isFile p = true) : (t.overwrite p bytes).read p = .ok bytes := by
  obtain ⟨loc, old, hlocate, hget⟩ := exists_of_isFile h
  have hnew : (t.root.modify loc (Entry.withBytes bytes)).get? loc = some (.file bytes) := by
    rw [Entry.get?_modify_same, show t.root.get? loc = _ from hget]
    rfl
  rw [read, locate_overwrite, hlocate, overwrite_of_locate hlocate]
  simp only [get?, hnew]

theorem overwrite_overwrite_same (t : FileTree) (p : Path) (bytes bytes' : ByteArray) :
    (t.overwrite p bytes).overwrite p bytes' = t.overwrite p bytes' := by
  cases hp : t.locate p with
  | error _ => rw [overwrite_of_lost hp]
  | ok loc =>
    rw [overwrite_of_locate ((locate_overwrite t p p bytes).trans hp), overwrite_of_locate hp,
      overwrite_of_locate hp, Entry.modify_modify_same]

theorem overwrite_overwrite_comm (bytes bytes' : ByteArray) (h : t.locate p ≠ t.locate q) :
    (t.overwrite p bytes).overwrite q bytes' = (t.overwrite q bytes').overwrite p bytes := by
  have hp' := locate_overwrite t q p bytes'
  have hq' := locate_overwrite t p q bytes
  cases hp : t.locate p with
  | error _ => rw [overwrite_of_lost hp, overwrite_of_lost (hp'.trans hp)]
  | ok loc =>
    cases hq : t.locate q with
    | error _ => rw [overwrite_of_lost (hq'.trans hq), overwrite_of_lost hq]
    | ok loc' =>
      have hne : loc ≠ loc' := fun heq => h (by rw [hp, hq, heq])
      rw [overwrite_of_locate (hq'.trans hq), overwrite_of_locate (hp'.trans hp),
        overwrite_of_locate hp, overwrite_of_locate hq, Entry.modify_modify_comm _ _ _ hne]

end Overwrite

/-- Puts contents into a file, if there are any to put. -/
def update (t : FileTree) (p : Path) : Option ByteArray → FileTree
  | none => t
  | some bytes => t.overwrite p bytes

def updateAll (w : Path → Option ByteArray) (t : FileTree) (paths : List Path) : FileTree :=
  paths.foldl (fun t p => t.update p (w p)) t

section Update

variable {w w' : Path → Option ByteArray} {paths paths' : List Path}

theorem updateAll_cons (w : Path → Option ByteArray) (t : FileTree) (p : Path)
    (paths : List Path) : updateAll w t (p :: paths) = updateAll w (t.update p (w p)) paths := rfl

@[simp] theorem shape_update (t : FileTree) (p : Path) (new : Option ByteArray) :
    (t.update p new).shape = t.shape := by
  cases new with
  | none => rfl
  | some bytes => exact shape_overwrite t p bytes

@[simp] theorem locate_update (t : FileTree) (p q : Path) (new : Option ByteArray) :
    (t.update p new).locate q = t.locate q :=
  locate_eq_of_shape (shape_update t p new) q

theorem read_update_of_ne (new : Option ByteArray) (h : t.locate q ≠ t.locate p) :
    (t.update p new).read q = t.read q := by
  cases new with
  | none => rfl
  | some bytes => exact read_overwrite_of_ne h

theorem update_update_comm (new new' : Option ByteArray) (h : t.locate p ≠ t.locate q) :
    (t.update p new).update q new' = (t.update q new').update p new := by
  cases new with
  | none => rfl
  | some bytes =>
    cases new' with
    | none => rfl
    | some bytes' => exact overwrite_overwrite_comm bytes bytes' h

theorem overwrite_update_same (t : FileTree) (p : Path) (new : Option ByteArray)
    (bytes : ByteArray) : (t.update p new).overwrite p bytes = t.overwrite p bytes := by
  cases new with
  | none => rfl
  | some old => exact overwrite_overwrite_same t p old bytes

@[simp] theorem shape_updateAll (w : Path → Option ByteArray) (t : FileTree)
    (paths : List Path) : (updateAll w t paths).shape = t.shape := by
  induction paths generalizing t with
  | nil => rfl
  | cons p paths ih => rw [updateAll_cons, ih, shape_update]

theorem updateAll_congr (h : ∀ p ∈ paths, w p = w' p) :
    updateAll w t paths = updateAll w' t paths := by
  induction paths generalizing t with
  | nil => rfl
  | cons p paths ih =>
    rw [updateAll_cons, updateAll_cons, h p List.mem_cons_self,
      ih fun q hq => h q (List.mem_cons_of_mem p hq)]

theorem updateAll_none (h : ∀ p ∈ paths, w p = none) : updateAll w t paths = t := by
  induction paths generalizing t with
  | nil => rfl
  | cons p paths ih =>
    rw [updateAll_cons, h p List.mem_cons_self]
    exact ih fun q hq => h q (List.mem_cons_of_mem p hq)

theorem read_updateAll_of_ne
    (h : ∀ p ∈ paths, w p ≠ none → t.locate q ≠ t.locate p) :
    (updateAll w t paths).read q = t.read q := by
  induction paths generalizing t with
  | nil => rfl
  | cons p paths ih =>
    obtain ⟨hp, hpaths⟩ := List.forall_mem_cons.mp h
    rw [updateAll_cons, ih fun p' hp' hw => by simpa using hpaths p' hp' hw]
    cases hw : w p with
    | none => rfl
    | some bytes => exact read_update_of_ne _ (hp (by simp [hw]))

theorem update_updateAll_of_ne (new : Option ByteArray)
    (h : ∀ q ∈ paths, t.locate p ≠ t.locate q) :
    (updateAll w t paths).update p new = updateAll w (t.update p new) paths := by
  induction paths generalizing t with
  | nil => rfl
  | cons q paths ih =>
    obtain ⟨hq, hpaths⟩ := List.forall_mem_cons.mp h
    rw [updateAll_cons, updateAll_cons, ih (by simpa using hpaths), update_update_comm _ _ hq.symm]

/-- Overwriting one of the files once more is the same as putting the last contents into it at
once. -/
theorem overwrite_updateAll (h : paths.Pairwise fun p q => t.locate p ≠ t.locate q)
    (hp : p ∈ paths) :
    (updateAll w t paths).overwrite p bytes =
      updateAll (Function.update w p (some bytes)) t paths := by
  induction paths generalizing t with
  | nil => cases hp
  | cons q paths ih =>
    obtain ⟨hq, hpaths⟩ := List.pairwise_cons.mp h
    have hfresh : ∀ p' ∈ paths, q ≠ p' := fun p' hp' heq => hq p' hp' (congrArg t.locate heq)
    rw [updateAll_cons, updateAll_cons]
    rcases List.mem_cons.mp hp with rfl | hp
    · have hw : ∀ p' ∈ paths, Function.update w p (some bytes) p' = w p' :=
        fun p' hp' => Function.update_of_ne (hfresh p' hp').symm _ _
      rw [Function.update_self, updateAll_congr hw]
      have hmove := update_updateAll_of_ne (t := t.update p (w p)) (w := w) (some bytes)
        (by simpa using hq)
      rw [update] at hmove
      rw [hmove, update, update, overwrite_update_same]
    · rw [Function.update_of_ne (hfresh p hp)]
      exact ih (by simpa using hpaths) hp

theorem read_updateAll_of_mem (h : paths.Pairwise fun p q => t.locate p ≠ t.locate q)
    (hp : p ∈ paths) (hfile : t.isFile p = true) (hw : w p = some bytes) :
    (updateAll w t paths).read p = .ok bytes := by
  have hfile' : (updateAll w t paths).isFile p = true := by
    rw [← isFile_shape, shape_updateAll, isFile_shape, hfile]
  have hsame : Function.update w p (some bytes) = w := by rw [← hw, Function.update_eq_self]
  rw [← read_overwrite_same hfile', overwrite_updateAll h hp, hsame]

theorem updateAll_perm (hperm : paths.Perm paths')
    (h : paths.Pairwise fun p q => t.locate p ≠ t.locate q) :
    updateAll w t paths = updateAll w t paths' := by
  induction hperm generalizing t with
  | nil => rfl
  | cons p _ ih =>
    rw [updateAll_cons, updateAll_cons]
    exact ih (by simpa using (List.pairwise_cons.mp h).2)
  | swap p q paths =>
    have hne := (List.pairwise_cons.mp h).1 p List.mem_cons_self
    simp only [updateAll_cons]
    rw [update_update_comm _ _ hne]
  | trans hperm _ ih ih' =>
    exact (ih h).trans (ih' ((hperm.pairwise_iff fun h => h.symm).mp h))

end Update

end FileTree
end XamlFormat
