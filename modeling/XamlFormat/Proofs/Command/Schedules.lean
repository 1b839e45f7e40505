import XamlFormat.Command.Program
import XamlFormat.Proofs.Command.Verdict
import XamlFormat.Proofs.Layout.Skeleton

/-! Tasks that work side by side. A board has the files and how far each task has come; a step of
any task may follow a step of any other. All schedules end with the same files and the same failed
files, and working on one file after the other is one of them. -/
namespace XamlFormat

open FileTask (Result verdict Restyles Fails Stops)

inductive Stage where
  | looking (inquiry : Inquiry (Result × List Message))
  | writing (result : Result)
  | reporting (result : Result)
  | finished

structure Board where
  files : FileTree
  stage : Path → Stage
  /-- The results that are reported, in order. -/
  reports : List (Path × Result)

namespace Board

def start (t : FileTree) (i : Invocation) (common : Option Settings) : Board :=
  { files := t
    stage := fun p => .looking (Inquiry.look t.workingPath i common p)
    reports := [] }

def set (b : Board) (p : Path) (s : Stage) : Board :=
  { b with stage := Function.update b.stage p s }

/-- What one of the tasks may do next. While a file is being written, anything may stand in it. A task
that ends the program comes to no decision. -/
inductive Step (i : Invocation) (paths : List Path) (b : Board) : Board → Prop
  | ask {p : Path} {q : Question} {next : Bool → Inquiry (Result × List Message)}
    (hp : p ∈ paths) (h : b.stage p = .looking (.ask q next)) :
    Step i paths b (b.set p (.looking (next (q.answer b.files))))
  | read {p file : Path}
    {next : Except FileTree.Unreadable ByteArray → Inquiry (Result × List Message)}
    (hp : p ∈ paths) (h : b.stage p = .looking (.read file next)) :
    Step i paths b (b.set p (.looking (next (b.files.read file))))
  | decide {p : Path} {found : Result × List Message}
    (hp : p ∈ paths) (h : b.stage p = .looking (.done found)) (hgo : found.1.isStopped = false) :
    Step i paths b (b.set p (.writing found.1))
  | touch {p : Path} {r : Result} (bytes : ByteArray)
    (hp : p ∈ paths) (h : b.stage p = .writing r) (hr : r.new? i ≠ none) :
    Step i paths b { b with files := b.files.overwrite p bytes }
  | write {p : Path} {r : Result} (hp : p ∈ paths) (h : b.stage p = .writing r) :
    Step i paths b { b.set p (.reporting r) with files := r.carryOut i p b.files }
  | report {p : Path} {r : Result} (hp : p ∈ paths) (h : b.stage p = .reporting r) :
    Step i paths b { b.set p .finished with reports := b.reports ++ [(p, r)] }

def Reaches (i : Invocation) (paths : List Path) : Board → Board → Prop :=
  Relation.ReflTransGen (Step i paths)

def IsComplete (paths : List Path) (b : Board) : Prop := ∀ p ∈ paths, b.stage p = .finished

def failed (i : Invocation) (b : Board) : List Path :=
  (b.reports.filter fun x => x.2.isFailure i.passive).map Prod.fst

def written (i : Invocation) (b : Board) : List Path :=
  (b.reports.filter fun x => (x.2.new? i).isSome).map Prod.fst

def output (i : Invocation) (b : Board) : Chars := b.reports.flatMap fun x => x.2.output i x.1

@[simp] theorem set_files (b : Board) (p : Path) (s : Stage) : (b.set p s).files = b.files := rfl

@[simp] theorem set_stage (b : Board) (p : Path) (s : Stage) :
    (b.set p s).stage = Function.update b.stage p s := rfl

@[simp] theorem set_reports (b : Board) (p : Path) (s : Stage) :
    (b.set p s).reports = b.reports := rfl

end Board

/-- Regular files that tasks can work on side by side: they stand at different places, and none of
them has settings for one of them. -/
structure Independent (t : FileTree) (i : Invocation) (common : Option Settings)
    (paths : List Path) : Prop where
  isFile : ∀ p ∈ paths, t.isFile p = true
  apart : paths.Pairwise fun p q => t.locate p ≠ t.locate q
  settings : ∀ p ∈ paths, ∀ file, Inquiry.settingsFile? t i common p = some file →
    ∀ q ∈ paths, t.locate file ≠ t.locate q

section Schedules

variable {t : FileTree} {i : Invocation} {common : Option Settings} {paths : List Path} {p : Path}
  {b b' : Board} {w : Path → Option ByteArray} {order : List Path}

theorem Independent.nodup (h : Independent t i common paths) : paths.Nodup :=
  h.apart.imp fun hne heq => hne (congrArg t.locate heq)

theorem Independent.perm {paths' : List Path} (h : Independent t i common paths)
    (hperm : paths'.Perm paths) : Independent t i common paths' where
  isFile p hp := h.isFile p (hperm.mem_iff.mp hp)
  apart := (hperm.pairwise_iff fun hne => hne.symm).mpr h.apart
  settings p hp file hfile q hq :=
    h.settings p (hperm.mem_iff.mp hp) file hfile q (hperm.mem_iff.mp hq)

theorem Independent.inPlace (h : Independent t i common paths) :
    Independent t i.inPlace common paths :=
  ⟨h.isFile, h.apart, h.settings⟩

/-- The path leads to none of the files but perhaps the one that a task is for. -/
def IsOwn (t : FileTree) (paths : List Path) (p q : Path) : Prop :=
  ∀ p' ∈ paths, p' ≠ p → t.locate q ≠ t.locate p'

theorem Independent.isOwn_self (h : Independent t i common paths) (hp : p ∈ paths) :
    IsOwn t paths p p := by
  have hsymm : Std.Symm fun p q => t.locate p ≠ t.locate q := ⟨fun _ _ hne => hne.symm⟩
  exact fun p' hp' hne => h.apart.forall hp hp' hne.symm

theorem Independent.readsOnly_look (h : Independent t i common paths) (hp : p ∈ paths) :
    (Inquiry.look t.workingPath i common p).ReadsOnly t (IsOwn t paths p) :=
  Inquiry.readsOnly_look (h.isOwn_self hp) fun file hfile q hq _ => h.settings p hp file hfile q hq

theorem read_updateAll_of_isOwn {q : Path} (hw : w p = none) (hq : IsOwn t paths p q) :
    (FileTree.updateAll w t paths).read q = t.read q :=
  FileTree.read_updateAll_of_ne fun p' hp' hne => hq p' hp' fun heq => hne (heq ▸ hw)

/-- What the stage of a task says about its inquiry, its result and the contents that its file has
been given so far. -/
def Stage.Fits (t : FileTree) (i : Invocation) (common : Option Settings) (paths : List Path)
    (p : Path) (new : Option ByteArray) : Stage → Prop
  | looking x => x.run t = FileTask.look t i common p ∧ x.ReadsOnly t (IsOwn t paths p) ∧ new = none
  | writing r => r = verdict t i common p ∧ (r.new? i = none → new = none)
  | reporting r => r = verdict t i common p ∧ new = r.new? i
  | finished => new = (verdict t i common p).new? i

/-- Only a task whose result is written gives its file other contents. -/
theorem Stage.Fits.new?_ne_none {new : Option ByteArray} {s : Stage}
    (h : s.Fits t i common paths p new) (hnew : new ≠ none) :
    (verdict t i common p).new? i ≠ none := by
  cases s with
  | looking x => exact absurd h.2.2 hnew
  | writing r => exact fun hnone => hnew (h.2 (h.1 ▸ hnone))
  | reporting r => exact fun hnone => hnew (h.2.trans (h.1 ▸ hnone))
  | finished => exact fun hnone => hnew (h.trans hnone)

namespace Board

/-- The board as a whole: the files are the ones from the start with the contents `w`, and the tasks
of `order` have reported what the files from the start come to. -/
structure Consistent (t : FileTree) (i : Invocation) (common : Option Settings)
    (paths : List Path) (w : Path → Option ByteArray) (order : List Path) (b : Board) : Prop where
  files : b.files = FileTree.updateAll w t paths
  stages : ∀ p ∈ paths, (b.stage p).Fits t i common paths p (w p)
  reports : b.reports = order.map fun p => (p, verdict t i common p)
  nodup : order.Nodup
  mem_order : ∀ p, p ∈ order ↔ p ∈ paths ∧ b.stage p = .finished

theorem consistent_start (h : Independent t i common paths) :
    (start t i common).Consistent t i common paths (fun _ => none) [] where
  files := (FileTree.updateAll_none fun _ _ => rfl).symm
  stages p hp := ⟨Inquiry.run_look t i common p, h.readsOnly_look hp, rfl⟩
  reports := rfl
  nodup := .nil
  mem_order p := by simp [start]

theorem Consistent.shape (h : b.Consistent t i common paths w order) :
    b.files.shape = t.shape := by
  rw [h.files, FileTree.shape_updateAll]

theorem Consistent.fits (h : b.Consistent t i common paths w order) (hp : p ∈ paths) {s : Stage}
    (hstage : b.stage p = s) : s.Fits t i common paths p (w p) :=
  hstage ▸ h.stages p hp

/-- A task that does not finish changes its own stage and its own file. -/
theorem Consistent.advance (h : b.Consistent t i common paths w order) {files : FileTree}
    {s : Stage} {new : Option ByteArray}
    (hfiles : files = FileTree.updateAll (Function.update w p new) t paths)
    (hold : b.stage p ≠ .finished) (hs : s ≠ .finished) (hfits : s.Fits t i common paths p new) :
    Consistent t i common paths (Function.update w p new) order
      { b.set p s with files := files } where
  files := hfiles
  stages q hq := by
    by_cases hqp : q = p
    · subst hqp
      simpa using hfits
    · simpa [hqp] using h.stages q hq
  reports := h.reports
  nodup := h.nodup
  mem_order q := by
    rw [h.mem_order]
    by_cases hqp : q = p
    · subst hqp
      simp [hold, hs]
    · simp [hqp]

theorem Consistent.proceed (h : b.Consistent t i common paths w order) {s : Stage}
    (hold : b.stage p ≠ .finished) (hs : s ≠ .finished) (hfits : s.Fits t i common paths p (w p)) :
    (b.set p s).Consistent t i common paths w order := by
  have hfiles : b.files = FileTree.updateAll (Function.update w p (w p)) t paths := by
    rw [Function.update_eq_self, h.files]
  have := h.advance hfiles hold hs hfits
  rwa [Function.update_eq_self] at this

theorem Consistent.report (h : b.Consistent t i common paths w order) {r : Result}
    (hp : p ∈ paths) (hstage : b.stage p = .reporting r) :
    Consistent t i common paths w (order ++ [p])
      { b.set p .finished with reports := b.reports ++ [(p, r)] } := by
  obtain ⟨hr, hnew⟩ := h.fits hp hstage
  have hfresh : p ∉ order := fun hmem => by
    rw [h.mem_order, hstage] at hmem
    cases hmem.2
  refine ⟨h.files, fun q hq => ?_, ?_, ?_, fun q => ?_⟩
  · by_cases hqp : q = p
    · subst hqp
      simpa [Stage.Fits, ← hr] using hnew
    · simpa [hqp] using h.stages q hq
  · rw [List.map_append, ← h.reports, hr]
    rfl
  · exact List.nodup_append.mpr ⟨h.nodup, List.nodup_singleton p, fun a ha c hc heq =>
      hfresh (List.mem_singleton.mp hc ▸ heq ▸ ha)⟩
  · rw [List.mem_append, h.mem_order, List.mem_singleton]
    by_cases hqp : q = p
    · subst hqp
      simp [hp]
    · simp [hqp]

theorem Consistent.map_fst_reports (h : b.Consistent t i common paths w order) :
    b.reports.map Prod.fst = order := by
  rw [h.reports, List.map_map]
  exact List.map_id order

/-- A step keeps a board consistent. -/
theorem Consistent.step (hi : Independent t i common paths)
    (h : b.Consistent t i common paths w order) (hstep : Step i paths b b') :
    ∃ w' order', b'.Consistent t i common paths w' order' := by
  cases hstep with
  | @ask p q next hp hstage =>
    obtain ⟨hrun, hreads, hnew⟩ := h.fits hp hstage
    refine ⟨w, order, h.proceed (by simp [hstage]) (by simp) ?_⟩
    rw [q.answer_eq_of_shape h.shape]
    exact ⟨hrun, hreads, hnew⟩
  | @read p file next hp hstage =>
    obtain ⟨hrun, hreads, hnew⟩ := h.fits hp hstage
    refine ⟨w, order, h.proceed (by simp [hstage]) (by simp) ?_⟩
    rw [h.files, read_updateAll_of_isOwn hnew hreads.1]
    exact ⟨hrun, hreads.2, hnew⟩
  | @decide p found hp hstage hgo =>
    obtain ⟨hrun, -, hnew⟩ := h.fits hp hstage
    exact ⟨w, order, h.proceed (by simp [hstage]) (by simp)
      ⟨congrArg Prod.fst hrun, fun _ => hnew⟩⟩
  | @touch p r bytes hp hstage hr =>
    obtain ⟨hverdict, -⟩ := h.fits hp hstage
    have hfiles : b.files.overwrite p bytes =
        FileTree.updateAll (Function.update w p (some bytes)) t paths := by
      rw [h.files, FileTree.overwrite_updateAll hi.apart hp]
    have hb := h.advance (s := .writing r) hfiles (by simp [hstage]) (by simp)
      ⟨hverdict, fun hnone => absurd hnone hr⟩
    refine ⟨Function.update w p (some bytes), order, ?_⟩
    simpa [set, ← hstage] using hb
  | @write p r hp hstage =>
    obtain ⟨hverdict, hnone⟩ := h.fits hp hstage
    refine ⟨Function.update w p (r.new? i), order,
      h.advance ?_ (by simp [hstage]) (by simp) ⟨hverdict, rfl⟩⟩
    rw [Result.carryOut_eq_update, h.files]
    cases hnew : r.new? i with
    | none => rw [← hnone hnew, Function.update_eq_self, hnone hnew, FileTree.update]
    | some bytes => exact FileTree.overwrite_updateAll hi.apart hp
  | report hp hstage => exact ⟨w, _, h.report hp hstage⟩

theorem Reaches.consistent (hi : Independent t i common paths)
    (h : Reaches i paths (start t i common) b) :
    ∃ w order, b.Consistent t i common paths w order := by
  induction h with
  | refl => exact ⟨_, _, consistent_start hi⟩
  | tail _ hstep ih =>
    obtain ⟨w, order, hb⟩ := ih
    exact hb.step hi hstep

theorem Consistent.files_of_isComplete (h : b.Consistent t i common paths w order)
    (hb : b.IsComplete paths) :
    b.files = FileTree.updateAll (fun p => (verdict t i common p).new? i) t paths := by
  rw [h.files]
  exact FileTree.updateAll_congr fun p hp => h.fits hp (hb p hp)

theorem Consistent.perm_of_isComplete (hi : Independent t i common paths)
    (h : b.Consistent t i common paths w order) (hb : b.IsComplete paths) : order.Perm paths := by
  refine (List.perm_ext_iff_of_nodup h.nodup hi.nodup).mpr fun p => ?_
  rw [h.mem_order]
  exact ⟨And.left, fun hp => ⟨hp, hb p hp⟩⟩

section Reports

variable (h : b.reports = order.map fun p => (p, verdict t i common p))
include h

theorem failed_of_reports :
    b.failed i = order.filter fun p => (verdict t i common p).isFailure i.passive := by
  rw [failed, h, List.filter_map, List.map_map]
  exact List.map_id _

theorem written_of_reports :
    b.written i = order.filter fun p => ((verdict t i common p).new? i).isSome := by
  rw [written, h, List.filter_map, List.map_map]
  exact List.map_id _

theorem output_of_reports :
    b.output i = order.flatMap fun p => (verdict t i common p).output i p := by
  rw [output, h, List.flatMap_map]

end Reports

def finish (i : Invocation) (b : Board) (p : Path) (r : Result) : Board :=
  { files := r.carryOut i p b.files
    stage := Function.update b.stage p .finished
    reports := b.reports ++ [(p, r)] }

@[simp] theorem stage_finish (i : Invocation) (b : Board) (p : Path) (r : Result) :
    (b.finish i p r).stage = Function.update b.stage p .finished := rfl

theorem failed_finish (i : Invocation) (b : Board) (p : Path) (r : Result) :
    (b.finish i p r).failed i = b.failed i ++ if r.isFailure i.passive then [p] else [] := by
  simp only [failed, finish, List.filter_append, List.map_append, List.filter_singleton]
  cases r.isFailure i.passive <;> rfl

theorem written_finish (i : Invocation) (b : Board) (p : Path) (r : Result) :
    (b.finish i p r).written i = b.written i ++ if (r.new? i).isSome then [p] else [] := by
  simp only [written, finish, List.filter_append, List.map_append, List.filter_singleton]
  cases (r.new? i).isSome <;> rfl

theorem output_finish (i : Invocation) (b : Board) (p : Path) (r : Result) :
    (b.finish i p r).output i = b.output i ++ r.output i p := by
  simp [output, finish]

theorem reaches_of_reporting {r : Result} (hp : p ∈ paths) (h : b.stage p = .reporting r) :
    Reaches i paths b { b.set p .finished with reports := b.reports ++ [(p, r)] } :=
  .single (.report hp h)

theorem reaches_of_writing {r : Result} (hp : p ∈ paths) (h : b.stage p = .writing r) :
    Reaches i paths b (b.finish i p r) := by
  refine .head (.write hp h) ?_
  have hlast := reaches_of_reporting (i := i) (r := r)
    (b := { b.set p (.reporting r) with files := r.carryOut i p b.files }) hp (by simp)
  simpa [finish, set, Reaches] using hlast

/-- A task that is not interrupted finishes with what its inquiry comes to. -/
theorem reaches_of_looking {x : Inquiry (Result × List Message)} (hp : p ∈ paths)
    (h : b.stage p = .looking x) (hgo : (x.run b.files).1.isStopped = false) :
    Reaches i paths b (b.finish i p (x.run b.files).1) := by
  induction x generalizing b with
  | done found =>
    refine .head (.decide hp h hgo) ?_
    have hrest := reaches_of_writing (i := i) (r := found.1) (b := b.set p (.writing found.1)) hp
      (by simp)
    simpa [finish, Reaches, Inquiry.run] using hrest
  | ask q next ih =>
    refine .head (.ask hp h) ?_
    have hrest := ih (q.answer b.files) (b := b.set p (.looking (next (q.answer b.files))))
      (by simp) hgo
    simpa [finish, Reaches, Inquiry.run] using hrest
  | read file next ih =>
    refine .head (.read hp h) ?_
    have hrest := ih (b.files.read file) (b := b.set p (.looking (next (b.files.read file))))
      (by simp) hgo
    simpa [finish, Reaches, Inquiry.run] using hrest

/-- What a task will come to is decided by the files from the start. -/
theorem run_of_looking (hi : Independent t i common paths)
    (hreach : Reaches i paths (start t i common) b) (hp : p ∈ paths)
    {x : Inquiry (Result × List Message)} (h : b.stage p = .looking x) :
    x.run b.files = FileTask.look t i common p := by
  obtain ⟨w, order, hb⟩ := hreach.consistent hi
  obtain ⟨hrun, hreads, hnew⟩ := hb.fits hp h
  rw [← hrun]
  exact hreads.run_eq hb.shape fun q hq => hb.files ▸ read_updateAll_of_isOwn hnew hq

section Complete

variable (hi : Independent t i common paths) (hgo : ∀ p ∈ paths, ¬ Stops t i common p)

include hi hgo

theorem reaches_finish (hreach : Reaches i paths (start t i common) b) (hp : p ∈ paths)
    {x : Inquiry (Result × List Message)} (h : b.stage p = .looking x) :
    Reaches i paths b (b.finish i p (verdict t i common p)) := by
  have hrun := run_of_looking hi hreach hp h
  have hstop : (verdict t i common p).isStopped = false := by
    simpa [FileTask.stops_iff] using hgo p hp
  have hfinish := reaches_of_looking (i := i) hp h (by rwa [hrun])
  rwa [hrun] at hfinish

theorem exists_finished (hreach : Reaches i paths (start t i common) b) (hp : p ∈ paths) :
    ∃ b', Reaches i paths b b' ∧ b'.stage = Function.update b.stage p .finished := by
  cases h : b.stage p with
  | looking x => exact ⟨_, reaches_finish hi hgo hreach hp h, rfl⟩
  | writing r => exact ⟨_, reaches_of_writing hp h, rfl⟩
  | reporting r => exact ⟨_, reaches_of_reporting hp h, rfl⟩
  | finished => exact ⟨b, .refl, by rw [← h, Function.update_eq_self]⟩

theorem exists_isComplete (hreach : Reaches i paths (start t i common) b) :
    ∃ b', Reaches i paths b b' ∧ b'.IsComplete paths := by
  -- The tasks are finished one by one; those before stay finished.
  have hpart (l : List Path) (hl : l ⊆ paths) :
      ∃ b', Reaches i paths b b' ∧ ∀ p ∈ l, b'.stage p = .finished := by
    induction l with
    | nil => exact ⟨b, .refl, by simp⟩
    | cons p l ih =>
      obtain ⟨hp, hl⟩ := List.cons_subset.mp hl
      obtain ⟨b₁, hreach₁, hdone⟩ := ih hl
      obtain ⟨b₂, hreach₂, hstage⟩ := exists_finished hi hgo (hreach.trans hreach₁) hp
      refine ⟨b₂, hreach₁.trans hreach₂, fun q hq => ?_⟩
      by_cases hqp : q = p
      · simp [hstage, hqp]
      · simp [hstage, hqp, hdone q ((List.mem_cons.mp hq).resolve_left hqp)]
  exact hpart paths fun _ hp => hp

end Complete

/-- Work on one file after the other has come as far as the tasks of a board. -/
structure Mirrors (i : Invocation) (b : Board) (progress : Progress) : Prop where
  files : progress.files = b.files
  output : progress.output = b.output i
  written : progress.written = b.written i
  failed : progress.failed = b.failed i
  goesOn : progress.stopped = false

theorem Mirrors.step {progress : Progress} (h : b.Mirrors i progress)
    (hlook : FileTask.look b.files i common p = FileTask.look t i common p)
    (hgo : ¬ Stops t i common p) :
    (b.finish i p (verdict t i common p)).Mirrors i (progress.step i common p) := by
  obtain ⟨hfiles, houtput, hwritten, hfailed, hgoesOn⟩ := h
  have hstep : progress.step i common p =
      progress.add i p (verdict t i common p) (FileTask.look t i common p).2 := by
    rw [Progress.step, hgoesOn, if_neg Bool.false_ne_true, hfiles, hlook]
    rfl
  rw [hstep]
  refine ⟨?_, ?_, ?_, ?_, ?_⟩
  · rw [Progress.add, finish, hfiles]
  · rw [output_finish, ← houtput, Progress.add]
  · rw [written_finish, ← hwritten, Progress.add]
  · rw [failed_finish, ← hfailed, Progress.add]
  · simpa [FileTask.stops_iff, Progress.add] using hgo

theorem workingPath_finish (i : Invocation) (b : Board) (p : Path) (r : Result) :
    (b.finish i p r).files.workingPath = b.files.workingPath := by
  rw [← FileTree.workingPath_shape, finish, Result.carryOut_eq_update, FileTree.shape_update,
    FileTree.workingPath_shape]

/-- Tasks that start and finish one after the other do what work in this order does. -/
theorem Mirrors.reaches {progress : Progress} (hi : Independent t i common paths)
    (hgo : ∀ p ∈ paths, ¬ Stops t i common p) (h : b.Mirrors i progress)
    (hreach : Reaches i paths (start t i common) b) (hsub : order ⊆ paths) (hnodup : order.Nodup)
    (hstart : ∀ p ∈ order, b.stage p = .looking (Inquiry.look b.files.workingPath i common p)) :
    ∃ b', Reaches i paths (start t i common) b' ∧
      b'.Mirrors i (order.foldl (Progress.step i common) progress) ∧
      b'.reports.map Prod.fst = b.reports.map Prod.fst ++ order ∧
      ∀ p, p ∈ order ∨ b.stage p = .finished → b'.stage p = .finished := by
  induction order generalizing b progress with
  | nil => exact ⟨b, hreach, h, by simp, by simp⟩
  | cons p order ih =>
    obtain ⟨hp, hsub⟩ := List.cons_subset.mp hsub
    obtain ⟨hfresh, hnodup⟩ := List.nodup_cons.mp hnodup
    have hlooking := hstart p List.mem_cons_self
    have hlook := run_of_looking hi hreach hp hlooking
    rw [Inquiry.run_look] at hlook
    have hfirst := hreach.trans (reaches_finish hi hgo hreach hp hlooking)
    have hstart' : ∀ q ∈ order, (b.finish i p (verdict t i common p)).stage q =
        .looking (Inquiry.look (b.finish i p (verdict t i common p)).files.workingPath i
          common q) := fun q hq => by
      have hne : q ≠ p := fun heq => hfresh (heq ▸ hq)
      rw [workingPath_finish, stage_finish, Function.update_of_ne hne]
      exact hstart q (List.mem_cons_of_mem p hq)
    obtain ⟨b', hreach', hmirrors, hreports, hdone⟩ :=
      ih (h.step hlook (hgo p hp)) hfirst hsub hnodup hstart'
    refine ⟨b', hreach', hmirrors, ?_, fun q hq => hdone q ?_⟩
    · simp [hreports, finish]
    · by_cases hqp : q = p
      · exact .inr (by simp [hqp])
      · simpa [hqp] using hq

/-- Work on one file after the other is one of the schedules. -/
theorem exists_mirrors_ofFiles (hi : Independent t i common order)
    (hgo : ∀ p ∈ order, ¬ Stops t i common p) :
    ∃ b, Reaches i order (start t i common) b ∧ b.IsComplete order ∧
      b.reports.map Prod.fst = order ∧ b.Mirrors i (Progress.ofFiles t i common order) := by
  have hstart : (start t i common).Mirrors i { files := t } := ⟨rfl, rfl, rfl, rfl, rfl⟩
  obtain ⟨b, hreach, hmirrors, hreports, hdone⟩ :=
    hstart.reaches hi hgo .refl (fun _ hp => hp) hi.nodup fun _ _ => rfl
  exact ⟨b, hreach, fun p hp => hdone p (.inl hp), hreports, hmirrors⟩

end Board

/-- What work on files in an order leaves behind where each comes to what it comes to alone. -/
structure Progress.Adds (t : FileTree) (i : Invocation) (common : Option Settings)
    (order : List Path) (progress : Progress) : Prop where
  files : progress.files = FileTree.updateAll (fun p => (verdict t i common p).new? i) t order
  output : progress.output = order.flatMap fun p => (verdict t i common p).output i p
  written : progress.written = order.filter fun p => ((verdict t i common p).new? i).isSome
  failed : progress.failed = order.filter fun p => (verdict t i common p).isFailure i.passive
  goesOn : progress.stopped = false

open Board in
theorem Progress.adds_ofFiles (h : Independent t i common order)
    (hgo : ∀ p ∈ order, ¬ Stops t i common p) :
    (ofFiles t i common order).Adds t i common order := by
  obtain ⟨b, hreach, hdone, horder, hfiles, houtput, hwritten, hfailed, hgoesOn⟩ :=
    exists_mirrors_ofFiles h hgo
  obtain ⟨w, order', hb⟩ := hreach.consistent h
  have hreports := hb.reports
  obtain rfl : order' = order := hb.map_fst_reports.symm.trans horder
  exact ⟨hfiles.trans (hb.files_of_isComplete hdone), houtput.trans (output_of_reports hreports),
    hwritten.trans (written_of_reports hreports), hfailed.trans (failed_of_reports hreports),
    hgoesOn⟩

section Run

variable (h : Independent t i common paths) (hgo : ∀ p ∈ paths, ¬ Stops t i common p)

include h hgo

theorem Run.files_onFiles : (onFiles t i common paths).files =
    FileTree.updateAll (fun p => (verdict t i common p).new? i) t paths :=
  (Progress.adds_ofFiles h hgo).files

theorem Run.mem_written_onFiles : p ∈ (onFiles t i common paths).written ↔
    p ∈ paths ∧ ((verdict t i common p).new? i).isSome = true := by
  rw [show (onFiles t i common paths).written = _ from (Progress.adds_ofFiles h hgo).written,
    List.mem_filter]

theorem Run.status_onFiles : (onFiles t i common paths).status =
    if (Progress.ofFiles t i common paths).failed = [] then 0 else 1 := by
  simp only [onFiles, (Progress.adds_ofFiles h hgo).goesOn, List.isEmpty_iff, Bool.false_eq_true,
    if_false]

/-- A complete schedule has come to what the run comes to. -/
theorem Board.files_failed_of_isComplete (hreach : Reaches i paths (start t i common) b)
    (hb : b.IsComplete paths) :
    b.files = (Run.onFiles t i common paths).files ∧
      (b.failed i).Perm (Progress.ofFiles t i common paths).failed := by
  obtain ⟨w, order, hconsistent⟩ := hreach.consistent h
  rw [Run.files_onFiles h hgo, (Progress.adds_ofFiles h hgo).failed,
    failed_of_reports hconsistent.reports]
  exact ⟨hconsistent.files_of_isComplete hb, (hconsistent.perm_of_isComplete h hb).filter _⟩

/-- So has a run that works on the files in another order. -/
theorem Run.files_status_failed_of_perm (horder : order.Perm paths) :
    (onFiles t i common order).files = (onFiles t i common paths).files ∧
      (onFiles t i common order).status = (onFiles t i common paths).status ∧
      (Progress.ofFiles t i common order).failed.Perm
        (Progress.ofFiles t i common paths).failed := by
  have hgo' : ∀ p ∈ order, ¬ Stops t i common p := fun p hp => hgo p (horder.mem_iff.mp hp)
  have hfailed : (Progress.ofFiles t i common order).failed.Perm
      (Progress.ofFiles t i common paths).failed := by
    rw [(Progress.adds_ofFiles (h.perm horder) hgo').failed, (Progress.adds_ofFiles h hgo).failed]
    exact horder.filter _
  refine ⟨?_, ?_, hfailed⟩
  · rw [files_onFiles h hgo, files_onFiles (h.perm horder) hgo']
    exact FileTree.updateAll_perm horder (h.perm horder).apart
  · rw [status_onFiles h hgo, status_onFiles (h.perm horder) hgo']
    congr 1
    exact propext ⟨fun hnil => (hnil ▸ hfailed).nil_eq.symm, fun hnil => (hnil ▸ hfailed).eq_nil⟩

theorem mem_failed_ofFiles : p ∈ (Progress.ofFiles t i common paths).failed ↔
    p ∈ paths ∧ (verdict t i common p).isFailure i.passive = true := by
  rw [(Progress.adds_ofFiles h hgo).failed, List.mem_filter]

end Run

/-- In a schedule only files that are restyled in place ever have other contents. -/
theorem Board.read_of_reaches (h : Independent t i common paths)
    (hreach : Reaches i paths (start t i common) b) {q : Path}
    (hq : i.isInPlace = true →
      ∀ p ∈ paths, (∃ styled, Restyles t i common p styled) → t.locate q ≠ t.locate p) :
    b.files.read q = t.read q := by
  obtain ⟨w, order, hb⟩ := hreach.consistent h
  rw [hb.files]
  refine FileTree.read_updateAll_of_ne fun p hp hw => ?_
  have hnew := (hb.stages p hp).new?_ne_none hw
  obtain ⟨hi, hstyled⟩ := FileTask.isSome_new?_verdict_iff.mp (Option.isSome_iff_ne_none.mpr hnew)
  exact hq hi p hp hstyled

theorem Board.files_of_passive (h : Independent t i common paths)
    (hreach : Reaches i paths (start t i common) b) (hi : i.passive = true) : b.files = t := by
  obtain ⟨w, order, hb⟩ := hreach.consistent h
  rw [hb.files]
  refine FileTree.updateAll_none fun p hp => Decidable.byContradiction fun hw => ?_
  have hnew := (hb.stages p hp).new?_ne_none hw
  have hplace := (FileTask.isSome_new?_verdict_iff.mp (Option.isSome_iff_ne_none.mpr hnew)).1
  rw [Invocation.passive_of_isInPlace hplace] at hi
  cases hi

theorem Board.read_of_fails (h : Independent t i common paths)
    (hreach : Reaches i paths (start t i common) b) (hp : p ∈ paths)
    (hfails : Fails t i common p) : b.files.read p = t.read p := by
  refine read_of_reaches h hreach fun _ p' hp' hstyled => ?_
  refine h.isOwn_self hp p' hp' fun heq => ?_
  obtain ⟨chain, hfailed⟩ := hfails.verdict
  rw [heq, FileTask.exists_restyles_iff, hfailed] at hstyled
  cases hstyled

section InPlace

variable (h : Independent t i common paths) (hgo : ∀ p ∈ paths, ¬ Stops t i common p)
  (hi : i.isInPlace = true)

include h hgo hi

theorem mem_failed_of_isInPlace :
    p ∈ (Progress.ofFiles t i common paths).failed ↔ p ∈ paths ∧ Fails t i common p := by
  rw [mem_failed_ofFiles h hgo, FileTask.isFailure_verdict_iff, Invocation.passive_of_isInPlace hi]
  simp

theorem mem_written_of_isInPlace :
    p ∈ (Run.onFiles t i common paths).written ↔
      p ∈ paths ∧ ∃ styled, Restyles t i common p styled := by
  rw [Run.mem_written_onFiles h hgo, FileTask.isSome_new?_verdict_iff, hi]
  simp

theorem read_onFiles_of_restyles {styled : Chars} (hp : p ∈ paths)
    (hstyled : Restyles t i common p styled) :
    (Run.onFiles t i common paths).files.read p = .ok (Contents.ofText styled) := by
  rw [Run.files_onFiles h hgo]
  exact FileTree.read_updateAll_of_mem h.apart hp (h.isFile p hp) (FileTask.new?_verdict hstyled hi)

end InPlace

section Passive

variable (h : Independent t i common paths) (hgo : ∀ p ∈ paths, ¬ Stops t i common p)
  (hi : i.passive = true)

include h hgo hi

/-- The files that fail a check are those which work in place would write or fail on. -/
theorem mem_failed_of_passive :
    p ∈ (Progress.ofFiles t i common paths).failed ↔
      p ∈ (Run.onFiles t i.inPlace common paths).written ∨
        p ∈ (Progress.ofFiles t i.inPlace common paths).failed := by
  have hgo' : ∀ p ∈ paths, ¬ Stops t i.inPlace common p := fun p hp =>
    FileTask.stops_inPlace_iff.not.mpr (hgo p hp)
  have hdecide : (verdict t i common p).isFailure true = true ↔
      (∃ styled, Restyles t i.inPlace common p styled) ∨
        (verdict t i.inPlace common p).isFailure false = true := by
    rw [FileTask.verdict_of_passive hi, Result.isFailure_asCheck, Bool.or_eq_true,
      FileTask.exists_restyles_iff]
  rw [mem_failed_ofFiles h hgo, mem_failed_ofFiles h.inPlace hgo',
    mem_written_of_isInPlace h.inPlace hgo' i.isInPlace_inPlace, ← and_or_left, hi]
  exact and_congr_right fun _ => hdecide

theorem flatMap_output_verdict (horder : order.Perm paths) :
    (order.flatMap fun p => (verdict t i common p).output i p) =
      order.flatMap fun p =>
        FileTask.checkLine t (decide (p ∈ (Progress.ofFiles t i common paths).failed)) p := by
  refine List.flatMap_congr fun p hp => ?_
  have hp' := horder.mem_iff.mp hp
  rw [FileTask.output_verdict hi (hgo p hp')]
  simp [mem_failed_ofFiles h hgo, hp']

theorem Board.output_of_isComplete (hreach : Reaches i paths (start t i common) b)
    (hb : b.IsComplete paths) :
    (b.reports.map Prod.fst).Perm paths ∧
      b.output i = (b.reports.map Prod.fst).flatMap fun p =>
        FileTask.checkLine t (decide (p ∈ (Progress.ofFiles t i common paths).failed)) p := by
  obtain ⟨w, order, hconsistent⟩ := hreach.consistent h
  have hperm := hconsistent.perm_of_isComplete h hb
  rw [hconsistent.map_fst_reports, output_of_reports hconsistent.reports,
    flatMap_output_verdict h hgo hi hperm]
  exact ⟨hperm, rfl⟩

theorem Progress.output_of_perm (horder : order.Perm paths) :
    (ofFiles t i common order).output = order.flatMap fun p =>
      FileTask.checkLine t (decide (p ∈ (ofFiles t i common paths).failed)) p := by
  have hgo' : ∀ p ∈ order, ¬ Stops t i common p := fun p hp => hgo p (horder.mem_iff.mp hp)
  rw [(adds_ofFiles (h.perm horder) hgo').output, flatMap_output_verdict h hgo hi horder]

end Passive

/-- Work on independent files comes to the same whatever the schedule, unless it ends the program. -/
theorem onFiles_agrees_with_schedules (h : Independent t i common paths)
    (hgo : ∀ p ∈ paths, ¬ Stops t i common p) :
    let run := Run.onFiles t i common paths
    let failed := (Progress.ofFiles t i common paths).failed
    -- Any schedule can be completed, and then it has come to what the run comes to.
    (∀ b, Board.Reaches i paths (.start t i common) b →
      (∃ b', Board.Reaches i paths b b' ∧ b'.IsComplete paths) ∧
      (b.IsComplete paths → b.files = run.files ∧ (b.failed i).Perm failed)) ∧
    (∀ order : List Path, order.Perm paths →
      (Run.onFiles t i common order).files = run.files ∧
      (Run.onFiles t i common order).status = run.status ∧
      (Progress.ofFiles t i common order).failed.Perm failed) ∧
    run.status = (if failed = [] then 0 else 1) ∧
    -- In place, the files that are restyled get their styled text, and no other file ever changes.
    (i.isInPlace = true →
      (∀ p, p ∈ failed ↔ p ∈ paths ∧ Fails t i common p) ∧
      (∀ p, p ∈ run.written ↔ p ∈ paths ∧ ∃ styled, Restyles t i common p styled) ∧
      (∀ p ∈ paths, ∀ styled, Restyles t i common p styled →
        run.files.read p = .ok (Contents.ofText styled)) ∧
      ∀ b, Board.Reaches i paths (.start t i common) b →
        (∀ p ∈ failed, b.files.read p = t.read p) ∧
        ∀ q, (∀ p ∈ run.written, t.locate q ≠ t.locate p) → b.files.read q = t.read q) ∧
    -- A check never writes, and a file gets the line `FAIL` if and only if work in place would
    -- write it or fail on it.
    (i.passive = true →
      (∀ b, Board.Reaches i paths (.start t i common) b → b.files = t) ∧
      (∀ p, p ∈ failed ↔ p ∈ (Run.onFiles t i.inPlace common paths).written ∨
        p ∈ (Progress.ofFiles t i.inPlace common paths).failed) ∧
      (∀ b, Board.Reaches i paths (.start t i common) b → b.IsComplete paths →
        (b.reports.map Prod.fst).Perm paths ∧
        b.output i = (b.reports.map Prod.fst).flatMap fun p =>
          FileTask.checkLine t (decide (p ∈ failed)) p) ∧
      ∀ order : List Path, order.Perm paths →
        (Progress.ofFiles t i common order).output = order.flatMap fun p =>
          FileTask.checkLine t (decide (p ∈ failed)) p) := by
  intro run failed
  refine ⟨fun b hreach => ⟨Board.exists_isComplete h hgo hreach,
      Board.files_failed_of_isComplete h hgo hreach⟩,
    fun order => Run.files_status_failed_of_perm h hgo, Run.status_onFiles h hgo, fun hi => ?_,
    fun hi => ?_⟩
  · refine ⟨fun p => mem_failed_of_isInPlace h hgo hi, fun p => mem_written_of_isInPlace h hgo hi,
      fun p hp styled => read_onFiles_of_restyles h hgo hi hp,
      fun b hreach => ⟨fun p hp => ?_, fun q hq => ?_⟩⟩
    · obtain ⟨hp, hfails⟩ := (mem_failed_of_isInPlace h hgo hi).mp hp
      exact Board.read_of_fails h hreach hp hfails
    · exact Board.read_of_reaches h hreach fun _ p hp hstyled =>
        hq p ((mem_written_of_isInPlace h hgo hi).mpr ⟨hp, hstyled⟩)
  · exact ⟨fun b hreach => Board.files_of_passive h hreach hi,
      fun p => mem_failed_of_passive h hgo hi, fun b => Board.output_of_isComplete h hgo hi,
      fun order => Progress.output_of_perm h hgo hi⟩

end Schedules

/-- A folder with a settings file, a file that is restyled, one that is left alone and one that
fails. -/
def sampleFolder : FileTree where
  root := .folder [("xamlfmt.toml".toList, .file "".toUTF8), ("a.xaml".toList, .file "<A/>".toUTF8),
    ("b.xaml".toList, .file "<B />".toUTF8), ("c.xaml".toList, .file "<C".toUTF8)]
  workingFolder := []

def samplePaths : List Path := ["a.xaml", "b.xaml", "c.xaml"].map Path.ofString

theorem independent_sample (passive : Bool) :
    Independent sampleFolder { passive } none samplePaths where
  isFile := by decide +kernel
  apart := by decide +kernel
  settings p hp file hfile := by
    have hfound : ∀ p ∈ samplePaths,
        Inquiry.settingsFile? sampleFolder {} none p = some (Path.ofString "xamlfmt.toml") := by
      decide +kernel
    obtain rfl := Option.some.inj ((hfound p hp).symm.trans hfile)
    decide +kernel

theorem not_stops_sample (passive : Bool) :
    ∀ p ∈ samplePaths, ¬ Stops sampleFolder { passive } none p := by
  have hinPlace : ∀ p ∈ samplePaths, ¬ (verdict sampleFolder {} none p).isStopped = true := by
    decide +kernel
  exact fun p hp =>
    FileTask.stops_inPlace_iff.not.mp (FileTask.stops_iff.not.mpr (hinPlace p hp))

theorem onFiles_agrees_with_schedules_sample :
    Independent sampleFolder {} none samplePaths ∧
    (∀ p ∈ samplePaths, ¬ Stops sampleFolder {} none p) ∧
    (Run.onFiles sampleFolder {} none samplePaths).status = 1 ∧
    (∀ b, Board.Reaches {} samplePaths (.start sampleFolder {} none) b → b.IsComplete samplePaths →
      b.files.read (Path.ofString "a.xaml") = .ok (Contents.ofText "<A />".toList) ∧
      b.files.read (Path.ofString "b.xaml") = sampleFolder.read (Path.ofString "b.xaml") ∧
      (b.failed {}).Perm [Path.ofString "c.xaml"]) ∧
    (Run.onFiles sampleFolder { passive := true } none samplePaths).status = 1 ∧
    ∀ b, Board.Reaches { passive := true } samplePaths
        (.start sampleFolder { passive := true } none) b → b.IsComplete samplePaths →
      b.files = sampleFolder ∧
      (b.failed { passive := true }).Perm [Path.ofString "a.xaml", Path.ofString "c.xaml"] := by
  refine ⟨independent_sample false, not_stops_sample false, ?_⟩
  obtain ⟨hends, -, hstatus, hinPlace, -⟩ :=
    onFiles_agrees_with_schedules (independent_sample false) (not_stops_sample false)
  obtain ⟨hends', -, hstatus', -, hpassive⟩ :=
    onFiles_agrees_with_schedules (independent_sample true) (not_stops_sample true)
  obtain ⟨-, -, hrestyled, hkept⟩ := hinPlace rfl
  have hfailed : (Progress.ofFiles sampleFolder {} none samplePaths).failed =
      [Path.ofString "c.xaml"] := by decide +kernel
  have hfailed' : (Progress.ofFiles sampleFolder { passive := true } none samplePaths).failed =
      [Path.ofString "a.xaml", Path.ofString "c.xaml"] := by decide +kernel
  have hwritten : (Run.onFiles sampleFolder {} none samplePaths).written =
      [Path.ofString "a.xaml"] := by decide +kernel
  obtain ⟨styled, hstyled⟩ : ∃ styled,
      Restyles sampleFolder {} none (Path.ofString "a.xaml") styled :=
    FileTask.exists_restyles_iff.mpr (by decide +kernel)
  have hnew : (verdict sampleFolder {} none (Path.ofString "a.xaml")).new? {} =
      some (Contents.ofText "<A />".toList) := by decide +kernel
  have htext := Option.some.inj ((FileTask.new?_verdict hstyled rfl).symm.trans hnew)
  refine ⟨?_, fun b hreach hb => ?_, ?_, fun b hreach hb => ?_⟩
  · rw [hstatus, hfailed]
    rfl
  · obtain ⟨hfiles, hperm⟩ := (hends b hreach).2 hb
    refine ⟨?_, ?_, hfailed ▸ hperm⟩
    · rw [hfiles, hrestyled _ (by decide) _ hstyled, htext]
    · refine (hkept b hreach).2 _ fun p hp => ?_
      rw [hwritten] at hp
      rw [List.mem_singleton.mp hp]
      decide +kernel
  · rw [hstatus', hfailed']
    rfl
  · exact ⟨(hpassive rfl).1 b hreach, hfailed' ▸ ((hends' b hreach).2 hb).2⟩

section Exceptions

open Text

/-- An empty element with line ends behind it. -/
def paddedParts (n : Nat) : List Part :=
  let tag : WrittenTag := ⟨['A'], [], [], true⟩
  [.element tag.text tag.tag [] [],
    .text (List.replicate (n + 1) '\n') (List.replicate (n + 1) '\n')]

theorem validTop_paddedParts (n : Nat) : ValidTop false (paddedParts n) := by
  have htag : (⟨['A'], [], [], true⟩ : WrittenTag).Valid :=
    ⟨⟨by decide, by simp⟩, by simp, by simp, by simp⟩
  refine ⟨rfl, ⟨by decide, ⟨_, htag, rfl, rfl⟩, fun _ => ⟨rfl, rfl⟩, nofun, trivial⟩, by simp,
    fun c hc => ?_, rfl, rfl, rfl⟩
  rw [List.eq_of_mem_replicate hc]
  rfl

theorem canonical_paddedParts (n : Nat) :
    (Document.ofParts false (paddedParts n)).canonical =
      (Document.ofParts false (paddedParts 0)).canonical := by
  have hlast (n : Nat) : (spelledList (paddedParts n)).getLast? = some '\n' := by
    simp [paddedParts, spelledList, Part.spelled, List.getLast?_replicate]
  simp only [Document.canonical, Document.ofParts, hlast]
  rfl

theorem style_paddedParts (n : Nat) :
    style .standard .xaml (spelledList (paddedParts n)) = .ok "<A />\n".toList := by
  have hread (n : Nat) : Document.read (unifyLineEnds (spelledList (paddedParts n))) =
      .ok (Document.ofParts false (paddedParts n)) := by
    rw [unifyLineEnds_of_notMem]
    · exact Document.read_complete (validTop_paddedParts n) false
    · simp [paddedParts, spelledList, Part.spelled, WrittenTag.text, WrittenTag.bracket]
  have hstructural (n : Nat) :
      structuralList (Document.ofParts false (paddedParts n)).nodes = true := by
    simp [Document.ofParts, paddedParts, placeList, structuralList, Part.place, Node.isStructural,
      WrittenTag.tag, Tag.place, isXmlBlank]
    rfl
  have hcan (n : Nat) : (Document.ofParts false (paddedParts n)).CanRead .standard := by
    simp [Document.CanRead, Document.tags, Document.ofParts, paddedParts, placeList, tagsList,
      Part.place, Node.tags, WrittenTag.tag, Tag.place, WrittenAttribute.attributes]
  have hstyle (n : Nat) : style .standard .xaml (spelledList (paddedParts n)) = _ :=
    style_of_canRead rfl (hread n) rfl (hstructural n) (hcan n)
  obtain ⟨_, hout, rfl⟩ : ∃ out, style .standard .xaml (spelledList (paddedParts 0)) = .ok out ∧
      out = "<A />\n".toList := exists_ok_of_any (by decide +kernel)
  rw [hstyle n, canonical_paddedParts n, ← hstyle 0, hout]

theorem length_le_byteLength (s : Chars) : s.length ≤ byteLength s := by
  induction s with
  | nil => exact le_rfl
  | cons c s ih =>
    have hc := c.utf8Size_pos
    rw [List.length_cons, byteLength]
    omega

theorem onFiles_of_large {t : FileTree} {p : Path} {bytes : ByteArray} (s : Settings)
    (hp : t.isFile p = true) (hread : t.read p = .ok bytes) (hsize : FileTask.maxBytes < bytes.size) :
    Independent t {} (some s) [p] ∧ (Run.onFiles t {} (some s) [p]).files = t ∧
      (Run.onFiles t {} (some s) [p]).status = 0 := by
  have hverdict : verdict t {} (some s) p = .skipped := FileTask.inspect_of_large hread hsize
  have hi : Independent t {} (some s) [p] :=
    ⟨by simpa using hp, List.pairwise_singleton _ _, nofun⟩
  have hgo : ∀ q ∈ [p], ¬ Stops t {} (some s) q := by
    simp [FileTask.stops_iff, hverdict, Result.isStopped]
  refine ⟨hi, ?_, ?_⟩
  · rw [Run.files_onFiles hi hgo]
    exact FileTree.updateAll_none (by simp [hverdict, Result.new?])
  · rw [Run.status_onFiles hi hgo, (Progress.adds_ofFiles hi hgo).failed]
    simp [hverdict, Result.isFailure, Result.isChanged]

/-- A folder with a file whose attributes cannot be counted under the largest limit. -/
def overflowFolder : FileTree where
  root := .folder [("a.xaml".toList, .file "<A a=\"1\" b=\"2\" />".toUTF8),
    ("b.xaml".toList, .file "<B/>".toUTF8)]
  workingFolder := []

/-- Not every file that styling gives another text is written: a large one is left as it is, and
none is worked on after one that ends the program. -/
theorem restyled_files_not_written :
    (∃ (t : FileTree) (p : Path) (text styled : Chars),
      Independent t {} (some .standard) [p] ∧ t.read p = .ok (Contents.ofText text) ∧
      style .standard (Dialect.ofPath p) text = .ok styled ∧ styled ≠ text ∧
      (Run.onFiles t {} (some .standard) [p]).files = t ∧
      (Run.onFiles t {} (some .standard) [p]).status = 0) ∧
    let run (words : List String) := runProgram overflowFolder ByteArray.empty id
      ("-j1" :: "--max-attributes-per-line=18446744073709551615" :: words)
    (run ["a.xaml", "b.xaml"]).status = Run.abortStatus ∧
      (run ["a.xaml", "b.xaml"]).written = [] ∧
      (run ["b.xaml", "a.xaml"]).written = [Path.ofString "b.xaml"] := by
  refine ⟨?_, by decide +kernel⟩
  let p := Path.ofString "a.xaml"
  let text := spelledList (paddedParts FileTask.maxBytes)
  have hlength : FileTask.maxBytes < text.length := by
    simp only [text, paddedParts, spelledList, Part.spelled, List.length_append,
      List.length_replicate]
    omega
  have hsize : FileTask.maxBytes < (Contents.ofText text).size := by
    rw [Contents.size_ofText]
    exact hlength.trans_le (length_le_byteLength text)
  have hp : sampleFolder.isFile p = true := by decide +kernel
  let t := sampleFolder.overwrite p (Contents.ofText text)
  have hread : t.read p = .ok (Contents.ofText text) := FileTree.read_overwrite_same hp
  have hp' : t.isFile p = true := by
    have hshape : t.shape = sampleFolder.shape := FileTree.shape_update _ _ (some _)
    rw [← FileTree.isFile_shape, hshape, FileTree.isFile_shape, hp]
  obtain ⟨hi, hfiles, hstatus⟩ := onFiles_of_large .standard hp' hread hsize
  have hdialect : Dialect.ofPath p = .xaml := by decide +kernel
  refine ⟨t, p, text, "<A />\n".toList, hi, hread, ?_, fun heq => ?_, hfiles, hstatus⟩
  · rw [hdialect]
    exact style_paddedParts _
  · rw [← heq] at hlength
    exact absurd hlength (by decide)

end Exceptions

end XamlFormat
