import XamlFormat.Command.FileTask
import XamlFormat.Proofs.Project.Overwriting

/-! What a task asks of the files, one question at a time, so that files may change between two
questions. With a tree that does not change the inquiry of a task comes to the result of the task,
and it reads the file of the task and the settings file for it only. -/
namespace XamlFormat

/-- A question that the shape of a tree answers. -/
inductive Question where
  | isFile (p : Path)
  | isFolder (p : Path)
  | isPresent (p : Path)

def Question.answer (t : FileTree) : Question → Bool
  | isFile p => t.isFile p
  | isFolder p => t.isFolder p
  | isPresent p => t.isPresent p

theorem Question.answer_eq_of_shape {t u : FileTree} (h : u.shape = t.shape) (q : Question) :
    q.answer u = q.answer t := by
  cases q with
  | isFile p => rw [answer, answer, ← FileTree.isFile_shape, h, FileTree.isFile_shape]
  | isFolder p => rw [answer, answer, ← FileTree.isFolder_shape, h, FileTree.isFolder_shape]
  | isPresent p => rw [answer, answer, ← FileTree.isPresent_shape, h, FileTree.isPresent_shape]

/-- A computation that asks for each thing it has to know of a tree. -/
inductive Inquiry (α : Type) where
  | done (a : α)
  | ask (q : Question) (next : Bool → Inquiry α)
  | read (p : Path) (next : Except FileTree.Unreadable ByteArray → Inquiry α)

namespace Inquiry

variable {α β : Type} {t : FileTree} {S : Path → Prop}

/-- What an inquiry comes to in a tree that does not change. -/
def run (t : FileTree) : Inquiry α → α
  | done a => a
  | ask q next => (next (q.answer t)).run t
  | read p next => (next (t.read p)).run t

def bind (x : Inquiry α) (f : α → Inquiry β) : Inquiry β :=
  match x with
  | done a => f a
  | ask q next => ask q fun yes => (next yes).bind f
  | read p next => read p fun contents => (next contents).bind f

/-- In a tree the inquiry reads only files of a kind. -/
def ReadsOnly (t : FileTree) (S : Path → Prop) : Inquiry α → Prop
  | done _ => True
  | ask q next => (next (q.answer t)).ReadsOnly t S
  | read p next => S p ∧ (next (t.read p)).ReadsOnly t S

@[simp] theorem run_bind (t : FileTree) (x : Inquiry α) (f : α → Inquiry β) :
    (x.bind f).run t = (f (x.run t)).run t := by
  induction x with
  | done a => rfl
  | ask q next ih => exact ih (q.answer t)
  | read p next ih => exact ih (t.read p)

theorem ReadsOnly.bind {x : Inquiry α} {f : α → Inquiry β} (hx : x.ReadsOnly t S)
    (hf : (f (x.run t)).ReadsOnly t S) : (x.bind f).ReadsOnly t S := by
  induction x with
  | done a => exact hf
  | ask q next ih => exact ih (q.answer t) hx hf
  | read p next ih => exact ⟨hx.1, ih (t.read p) hx.2 hf⟩

/-- Files of the same shape that agree on what an inquiry reads give it the same answers. -/
theorem ReadsOnly.run_eq {x : Inquiry α} {u : FileTree} (h : x.ReadsOnly t S)
    (hshape : u.shape = t.shape) (hread : ∀ p, S p → u.read p = t.read p) : x.run u = x.run t := by
  induction x with
  | done a => rfl
  | ask q next ih =>
    rw [run, run, q.answer_eq_of_shape hshape]
    exact ih _ h
  | read p next ih =>
    rw [run, run, hread p h.1]
    exact ih _ h.2

section Search

open SettingsFile

def firstFile : List Path → Inquiry (Option Path)
  | [] => done none
  | p :: rest => ask (.isFile p) fun yes => if yes then done (some p) else firstFile rest

def anyPresent : List Path → Inquiry Bool
  | [] => done false
  | p :: rest => ask (.isPresent p) fun yes => if yes then done true else anyPresent rest

def searchFolders : List Path → Inquiry Search
  | [] => done .exhausted
  | folder :: rest =>
    (firstFile (fileNames.map folder.join)).bind fun
      | some file => done (.found file)
      | none =>
        (anyPresent (projectMarkers.map folder.join)).bind fun stops =>
          if stops then done (.stopped folder) else searchFolders rest

def startFolder (working start : Path) : Inquiry Path :=
  ask (.isFile start) fun isFile =>
    if isFile then done (start.parent?.getD start)
    else ask (.isFolder start) fun isFolder => done (if isFolder then start else working)

def search (working start : Path) : Inquiry Search :=
  (startFolder working start).bind fun folder => searchFolders folder.ancestors

theorem run_firstFile (t : FileTree) (paths : List Path) :
    (firstFile paths).run t = paths.find? t.isFile := by
  induction paths with
  | nil => rfl
  | cons p rest ih =>
    rw [firstFile, run, Question.answer, List.find?_cons]
    cases t.isFile p with
    | true => rfl
    | false => exact ih

theorem run_anyPresent (t : FileTree) (paths : List Path) :
    (anyPresent paths).run t = paths.any t.isPresent := by
  induction paths with
  | nil => rfl
  | cons p rest ih =>
    rw [anyPresent, run, Question.answer, List.any_cons]
    cases t.isPresent p with
    | true => rfl
    | false => exact ih

theorem run_searchFolders (t : FileTree) (folders : List Path) :
    (searchFolders folders).run t = SettingsFile.searchFolders t folders := by
  induction folders with
  | nil => rfl
  | cons folder rest ih =>
    rw [searchFolders, run_bind, run_firstFile, SettingsFile.searchFolders]
    cases (fileNames.map folder.join).find? t.isFile with
    | some file => rfl
    | none =>
      simp only [run_bind, run_anyPresent, List.any_map, Function.comp_def]
      split_ifs
      · rfl
      · exact ih

theorem run_startFolder (t : FileTree) (start : Path) :
    (startFolder t.workingPath start).run t = SettingsFile.startFolder t start := by
  rw [startFolder, run, Question.answer, SettingsFile.startFolder]
  cases t.isFile start with
  | true => rfl
  | false => rfl

theorem run_search (t : FileTree) (start : Path) :
    (search t.workingPath start).run t = SettingsFile.search t start := by
  rw [search, run_bind, run_startFolder, run_searchFolders, SettingsFile.search]

theorem readsOnly_firstFile (paths : List Path) : (firstFile paths).ReadsOnly t S := by
  induction paths with
  | nil => trivial
  | cons p rest ih =>
    rw [firstFile, ReadsOnly]
    split_ifs
    · trivial
    · exact ih

theorem readsOnly_anyPresent (paths : List Path) : (anyPresent paths).ReadsOnly t S := by
  induction paths with
  | nil => trivial
  | cons p rest ih =>
    rw [anyPresent, ReadsOnly]
    split_ifs
    · trivial
    · exact ih

theorem readsOnly_searchFolders (folders : List Path) : (searchFolders folders).ReadsOnly t S := by
  induction folders with
  | nil => trivial
  | cons folder rest ih =>
    refine (readsOnly_firstFile _).bind ?_
    cases (firstFile (fileNames.map folder.join)).run t with
    | some file => trivial
    | none =>
      refine (readsOnly_anyPresent _).bind ?_
      split_ifs
      · trivial
      · exact ih

theorem readsOnly_search (working start : Path) : (search working start).ReadsOnly t S := by
  refine ReadsOnly.bind ?_ (readsOnly_searchFolders _)
  rw [startFolder, ReadsOnly]
  split_ifs <;> trivial

end Search

section Settings

open SettingsFile

def loaded (p : Path) (contents : Except FileTree.Unreadable ByteArray) :
    Except SettingsFile.Fault (List Change) :=
  match contents with
  | .error why => .error (.unreadable why)
  | .ok bytes =>
    match Contents.text? bytes with
    | none => .error .notText
    | some text =>
      match readText? (formatOf p) text with
      | none => .error (.malformed (formatOf p))
      | some changes => .ok changes

theorem load_eq (t : FileTree) (p : Path) : load t p = loaded p (t.read p) := rfl

def discover (working start : Path) : Inquiry (List Change × List Message) :=
  (search working start).bind fun result =>
    match result.file? with
    | none => done ([], result.messages)
    | some file =>
      read file fun contents =>
        match loaded file contents with
        | .ok changes => done (changes, result.messages)
        | .error fault =>
          done ([], result.messages ++
            [.warning ("failed to load " ++ file.toString ++ ": " ++ fault.message)])

def finished (i : Invocation) (changes : List Change) : Except String Settings :=
  let s := (Settings.standard.change changes).change i.changes
  match s.problem? with
  | some problem => .error ("Invalid configuration: " ++ problem.message)
  | none => .ok s

def settingsFor (working : Path) (i : Invocation) (start : Path) :
    Inquiry (Except String Settings × List Message) :=
  match i.settingsFile with
  | some file =>
    read file fun contents =>
      let messages := [.debug ("Using explicit config file: " ++ file.toString)]
      match loaded file contents with
      | .error fault => done (.error fault.message, messages)
      | .ok changes => done (finished i changes, messages)
  | none => (discover working start).bind fun found => done (finished i found.1, found.2)

theorem run_discover (t : FileTree) (start : Path) :
    (discover t.workingPath start).run t = SettingsFile.discover t start := by
  rw [discover, run_bind, run_search, SettingsFile.discover]
  cases hfile : (SettingsFile.search t start).file? with
  | none => rfl
  | some file =>
    simp only [run, load_eq]
    cases loaded file (t.read file) <;> rfl

theorem run_settingsFor (t : FileTree) (i : Invocation) (start : Path) :
    (settingsFor t.workingPath i start).run t = i.settingsFor t start := by
  rw [settingsFor, Invocation.settingsFor]
  cases i.settingsFile with
  | none =>
    simp only [run_bind, run_discover, run]
    rfl
  | some file =>
    simp only [run, load_eq]
    cases loaded file (t.read file) <;> rfl

theorem readsOnly_discover {start : Path}
    (h : ∀ file, (SettingsFile.search t start).file? = some file → S file) :
    (discover t.workingPath start).ReadsOnly t S := by
  refine (readsOnly_search _ _).bind ?_
  rw [run_search]
  cases hfile : (SettingsFile.search t start).file? with
  | none => trivial
  | some file =>
    refine ⟨h file hfile, ?_⟩
    dsimp only
    cases loaded file (t.read file) <;> trivial

end Settings

section Look

open FileTask

/-- The size of a file is looked at first, and its contents then. -/
def inspect (i : Invocation) (s : Settings) (p : Path) : Inquiry (Result × List Message) :=
  read p fun
    | .error why => done (.failed [why.message], [])
    | .ok bytes =>
      if maxBytes < bytes.size then
        done (.skipped,
          [.warning ("Skipping " ++ p.toString ++ " (" ++ megabytes bytes.size ++
            " exceeds limit of " ++ megabytes maxBytes ++ ")")])
      else
        read p fun
          | .error why => done (.failed ["failed to read " ++ p.toString, why.message], [])
          | .ok bytes => done (judge i s p bytes)

def look (working : Path) (i : Invocation) (common : Option Settings) (p : Path) :
    Inquiry (Result × List Message) :=
  match common with
  | some s => inspect i s p
  | none =>
    (settingsFor working i p).bind fun
      | (.error report, messages) => done (.failed [report], messages)
      | (.ok s, messages) =>
        (inspect i s p).bind fun found => done (found.1, messages ++ found.2)

def settingsFile? (t : FileTree) (i : Invocation) (common : Option Settings) (p : Path) :
    Option Path :=
  match common, i.settingsFile with
  | some _, _ => none
  | none, some file => some file
  | none, none => (SettingsFile.search t p).file?

theorem run_inspect (t : FileTree) (i : Invocation) (s : Settings) (p : Path) :
    (inspect i s p).run t = FileTask.inspect t i s p := by
  rw [inspect, run, FileTask.inspect]
  cases hread : t.read p with
  | error why => rfl
  | ok bytes =>
    dsimp only
    split_ifs
    · rfl
    · simp only [run, hread]

theorem run_look (t : FileTree) (i : Invocation) (common : Option Settings) (p : Path) :
    (look t.workingPath i common p).run t = FileTask.look t i common p := by
  cases common with
  | some s => exact run_inspect t i s p
  | none =>
    rw [look, FileTask.look]
    simp only [run_bind, run_settingsFor]
    obtain ⟨settings, messages⟩ := i.settingsFor t p
    cases settings with
    | error report => rfl
    | ok s => simp only [run_bind, run_inspect, run]

theorem readsOnly_inspect {i : Invocation} {s : Settings} {p : Path} (hp : S p) :
    (inspect i s p).ReadsOnly t S := by
  refine ⟨hp, ?_⟩
  cases t.read p with
  | error why => trivial
  | ok bytes =>
    dsimp only
    split_ifs
    · trivial
    · refine ⟨hp, ?_⟩
      cases t.read p <;> trivial

theorem readsOnly_settingsFor {i : Invocation} {p : Path}
    (h : ∀ file, settingsFile? t i none p = some file → S file) :
    (settingsFor t.workingPath i p).ReadsOnly t S := by
  rw [settingsFor]
  simp only [settingsFile?] at h
  cases hfile : i.settingsFile with
  | none =>
    rw [hfile] at h
    exact (readsOnly_discover h).bind trivial
  | some file =>
    rw [hfile] at h
    refine ⟨h file rfl, ?_⟩
    dsimp only
    cases loaded file (t.read file) <;> trivial

/-- The task for a file reads this file and the settings file for it. -/
theorem readsOnly_look {i : Invocation} {common : Option Settings} {p : Path} (hp : S p)
    (h : ∀ file, settingsFile? t i common p = some file → S file) :
    (look t.workingPath i common p).ReadsOnly t S := by
  cases common with
  | some s => exact readsOnly_inspect hp
  | none =>
    rw [look]
    refine (readsOnly_settingsFor h).bind ?_
    rw [run_settingsFor]
    obtain ⟨settings, messages⟩ := i.settingsFor t p
    cases settings with
    | error report => trivial
    | ok s => exact (readsOnly_inspect hp).bind trivial

end Look

end Inquiry
end XamlFormat
