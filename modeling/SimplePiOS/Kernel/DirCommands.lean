import SimplePiOS.Kernel.PathLookup

/-! The commands of shell.c that look up a path, and what they do with the arrays of dirents. -/
namespace SimplePiOS.Kernel
open Libpi

/-- A mounted volume, by what comes of reading it: a directory, a file, and a program that is
run from a file. -/
structure Volume where
  readDir : Option Dirent → Except Stop (List Dirent)
  readFile : Dirent → Except Stop Unit
  execFile : Dirent → Except Stop Unit

section Commands
variable (vol : Volume)

/-- The end of `do_ls`; `dir` has not been set for the root directory. -/
def lsEntries (entry : Option DirentPtr) (dir : Option DirArray) : Blocks Unit := do
  let listDir ← fat32ReadDir vol.readDir entry
  if listDir.dirs ≠ [] then record (.read listDir.id)
  record (.kfree (some listDir.id))
  record (.kfree (dir.map (·.id)))

def doLs (path : List UInt8) : Blocks Unit := do
  if path.head? ≠ some slash then return
  else if path.tail ≠ [] then
    let (entry, dir) ← pathLookup vol.readDir none path.tail
    match entry with
    | none => return
    | some entry =>
      let e ← entry.deref
      if ¬ e.isDirP then record (.kfree (some dir.id))
      else lsEntries vol (some entry) (some dir)
  else lsEntries vol none none

/-- `fat32_read_file`, whose data is a block. -/
def DirentPtr.readFile (entry : DirentPtr) : Blocks ℕ := do
  let e ← entry.deref
  outcome (vol.readFile e)
  newBlock

def doRead (path : List UInt8) : Blocks Unit := do
  if path.head? ≠ some slash then return
  else if path.tail = [] then return
  else
    let (entry, dir) ← pathLookup vol.readDir none path.tail
    match entry with
    | none => record (.kfree (some dir.id))
    | some entry =>
      let e ← entry.deref
      if e.isDirP then record (.kfree (some dir.id))
      else
        let data ← entry.readFile vol
        record (.read data)
        record (.kfree (some data))
        record (.kfree (some dir.id))

def DirentPtr.execFile (entry : DirentPtr) : Blocks Unit := do
  let e ← entry.deref
  outcome (vol.execFile e)

def doRun (path : List UInt8) : Blocks Unit := do
  if path.head? ≠ some slash then return
  else if path.tail = [] then return
  else
    let (entry, dir) ← pathLookup vol.readDir none path.tail
    match entry with
    | none => record (.kfree (some dir.id))
    | some entry =>
      let e ← entry.deref
      if e.isDirP then record (.kfree (some dir.id))
      else
        entry.execFile vol
        record (.kfree (some dir.id))

/-- The commands that take a path. -/
inductive Command where
  | ls
  | cat
  | run

def Command.exec : Command → List UInt8 → Blocks Unit
  | .ls => doLs vol
  | .cat => doRead vol
  | .run => doRun vol

end Commands

section Record
variable {α β : Type} {m : Blocks α} {f : α → Blocks β} {log log' : List BlockEvent} {a : α}

/-- The record only gets longer. -/
abbrev Recording (m : Blocks α) : Prop := Lib.Grows (fun log => log) m

theorem recording_record (e : BlockEvent) : Recording (record e) :=
  Lib.Traced.step (f := (e :: ·)) (e := fun _ => e) (fun _ => rfl) (fun _ => rfl)
    fun _ _ _ => ⟨trivial, trivial⟩

theorem recording_pure (a : α) : Recording (pure a : Blocks α) := .pure fun _ _ => trivial

theorem recording_outcome (x : Except Stop α) : Recording (outcome x) := by
  cases x with
  | ok a => exact recording_pure a
  | error e => exact .throw

theorem recording_bind (hm : Recording m) (hf : ∀ a, Recording (f a)) : Recording (m >>= f) :=
  .bind hm hf

theorem recording_newBlock : Recording newBlock := by
  apply Lib.Traced.intro
  · intro s a t hr
    cases hr
    exact ⟨[.kmalloc s.length], rfl, fun _ _ => ⟨trivial, fun _ _ => trivial⟩⟩
  · intro s e t hr
    cases hr

theorem recording_deref (p : DirentPtr) : Recording p.deref := by
  unfold DirentPtr.deref
  cases p.block with
  | none => exact recording_bind (recording_pure _) fun _ => recording_pure _
  | some id => exact recording_bind (recording_record _) fun _ => recording_pure _

theorem recording_fat32ReadDir (readDir : Option Dirent → Except Stop (List Dirent))
    (d : Option DirentPtr) : Recording (fat32ReadDir readDir d) := by
  have hrest : ∀ x, Recording (do
      let dirs ← outcome x
      let id ← newBlock
      return (⟨id, dirs⟩ : DirArray)) := by
    intro x
    apply recording_bind (recording_outcome x)
    intro dirs
    exact recording_bind recording_newBlock fun _ => recording_pure _
  cases d with
  | none => exact hrest _
  | some d => exact recording_bind (recording_deref d) fun _ => hrest _

theorem recording_lsEntries (vol : Volume) (entry : Option DirentPtr) (dir : Option DirArray) :
    Recording (lsEntries vol entry dir) := by
  apply recording_bind (recording_fat32ReadDir vol.readDir entry)
  intro listDir
  have hfrees : Recording (do
      record (.kfree (some listDir.id))
      record (.kfree (dir.map (·.id)))) :=
    recording_bind (recording_record _) fun _ => recording_record _
  by_cases hdirs : listDir.dirs ≠ []
  · rw [if_pos hdirs]
    exact recording_bind (recording_record _) fun _ => hfrees
  · rw [if_neg hdirs]
    exact hfrees

/-- What has gone wrong stays on record. -/
theorem not_freedOnce_bind (hm : m.run log = .ok a log') (hbad : ¬ FreedOnce log')
    (hf : Recording (f a)) : ¬ FreedOnce (Lib.endState ((m >>= f).run log)) := by
  rw [Lib.bind_ok hm]
  obtain ⟨new, hnew, -⟩ := Lib.Traced.at_end hf log'
  intro hgood
  apply hbad
  rw [show Lib.endState ((f a).run log') = new ++ log' from hnew] at hgood
  exact freedOnce_of_append hgood

theorem not_freedOnce_found {d : DirArray} (h : Closed log d.id) :
    ¬ FreedOnce (.found d.id :: log) := fun hgood => hgood.1 h.freed

theorem not_freedOnce_twice {d : DirArray} (h : Closed log d.id) :
    ¬ FreedOnce (.kfree (some d.id) :: log) := fun hgood => hgood.1 h.freed

end Record

section FreedOnce
variable {vol : Volume} {path : List UInt8}

/-- Whether nothing goes wrong with the arrays: no path is looked up, or the lookup stops. For
`ls`, which leaves the array alone when nothing is found, the path may lead nowhere; but it has
no array to free at the end of a listing of the root. -/
def Harmless (vol : Volume) (path : List UInt8) : Command → Prop
  | .ls => path.head? = some slash →
      if path.tail = [] then ∃ e, vol.readDir none = .error e
      else ∀ entry, walkFrom vol.readDir none path.tail ≠ .ok (some entry)
  | _ => path.head? = some slash → path.tail ≠ [] →
      ∃ e, walkFrom vol.readDir none path.tail = .error e

theorem lsEntries_root : FreedOnce (Lib.endState ((lsEntries vol none none).run [])) ↔
    ∃ e, vol.readDir none = .error e := by
  have hread : (fat32ReadDir vol.readDir none).run [] = _ := fat32ReadDir_start vol.readDir none
  unfold lsEntries
  cases hroot : vol.readDir none with
  | error e =>
    rw [hroot] at hread
    rw [Lib.bind_error hread]
    exact ⟨fun _ => ⟨e, rfl⟩, fun _ => trivial⟩
  | ok dirs =>
    rw [hroot] at hread
    rw [Lib.bind_ok hread]
    constructor
    · intro hgood
      by_cases hdirs : dirs ≠ []
      · rw [if_pos hdirs] at hgood
        exact hgood.1.elim
      · rw [if_neg hdirs] at hgood
        exact hgood.1.elim
    · rintro ⟨e, he⟩
      cases he

theorem doLs_freedOnce_iff :
    FreedOnce (Lib.endState ((doLs vol path).run [])) ↔ Harmless vol path .ls := by
  unfold Harmless doLs
  by_cases hslash : path.head? = some slash
  · rw [if_neg (by simpa using hslash)]
    simp only [hslash, true_imp_iff]
    by_cases htail : path.tail = []
    · rw [if_neg (by simpa using htail), if_pos htail]
      exact lsEntries_root
    · rw [if_pos htail, if_neg htail]
      have hrun : LookupEnd _ ((pathLookup vol.readDir none path.tail).run []) :=
        pathLookup_run vol.readDir none path.tail
      generalize walkFrom vol.readDir none path.tail = result at hrun ⊢
      generalize hlookup : (pathLookup vol.readDir none path.tail).run [] = lookupEnd at hrun
      cases hrun with
      | stopped h =>
        rw [Lib.bind_error hlookup]
        exact ⟨fun _ _ heq => (by cases heq), fun _ => h⟩
      | missing h =>
        rw [Lib.bind_ok hlookup]
        exact ⟨fun _ _ heq => (by cases heq), fun _ => h.good⟩
      | found h =>
        constructor
        · intro hgood
          refine absurd hgood (not_freedOnce_bind hlookup (not_freedOnce_found h) ?_)
          apply recording_bind (recording_deref _)
          intro e
          exact .ite (fun _ => recording_record _) fun _ => recording_lsEntries vol _ _
        · intro hno
          exact absurd rfl (hno _)
  · rw [if_pos hslash]
    exact ⟨fun _ hs => absurd hs hslash, fun _ => trivial⟩

/-- `cat` and `run`: both free the array again, whether or not there is a file. -/
theorem lookupFile_freedOnce_iff {f : Option DirentPtr × DirArray → Blocks Unit}
    (hnone : ∀ dir, f (none, dir) = record (.kfree (some dir.id)))
    (hsome : ∀ entry dir, Recording (f (some entry, dir))) :
    FreedOnce (Lib.endState ((pathLookup vol.readDir none path >>= f).run [])) ↔
    ∃ e, walkFrom vol.readDir none path = .error e := by
  have hrun : LookupEnd _ ((pathLookup vol.readDir none path).run []) := pathLookup_run vol.readDir none path
  generalize walkFrom vol.readDir none path = result at hrun ⊢
  generalize hlookup : (pathLookup vol.readDir none path).run [] = lookupEnd at hrun
  cases hrun with
  | stopped h =>
    rw [Lib.bind_error hlookup]
    exact ⟨fun _ => ⟨_, rfl⟩, fun _ => h⟩
  | missing h =>
    rw [Lib.bind_ok hlookup, hnone]
    exact ⟨fun hgood => absurd hgood (not_freedOnce_twice h), fun he => by cases he.choose_spec⟩
  | found h =>
    constructor
    · intro hgood
      exact absurd hgood (not_freedOnce_bind hlookup (not_freedOnce_found h) (hsome _ _))
    · rintro ⟨e, he⟩
      cases he

theorem doRead_freedOnce_iff :
    FreedOnce (Lib.endState ((doRead vol path).run [])) ↔ Harmless vol path .cat := by
  unfold Harmless doRead
  by_cases hslash : path.head? = some slash
  · rw [if_neg (by simpa using hslash)]
    by_cases htail : path.tail = []
    · rw [if_pos htail]
      exact ⟨fun _ _ hne => absurd htail hne, fun _ => trivial⟩
    · rw [if_neg htail]
      apply Iff.trans (b := ∃ e, walkFrom vol.readDir none path.tail = .error e) _
        ⟨fun h _ _ => h, fun h => h hslash htail⟩
      apply lookupFile_freedOnce_iff (fun _ => rfl)
      intro entry dir
      apply recording_bind (recording_deref entry)
      intro e
      apply Lib.Traced.ite
      · exact fun _ => recording_record _
      · intro _
        apply recording_bind
        · apply recording_bind (recording_deref entry)
          exact fun e => recording_bind (recording_outcome _) fun _ => recording_newBlock
        · intro data
          apply recording_bind (recording_record _)
          exact fun _ => recording_bind (recording_record _) fun _ => recording_record _
  · rw [if_pos hslash]
    exact ⟨fun _ hs => absurd hs hslash, fun _ => trivial⟩

theorem doRun_freedOnce_iff :
    FreedOnce (Lib.endState ((doRun vol path).run [])) ↔ Harmless vol path .run := by
  unfold Harmless doRun
  by_cases hslash : path.head? = some slash
  · rw [if_neg (by simpa using hslash)]
    by_cases htail : path.tail = []
    · rw [if_pos htail]
      exact ⟨fun _ _ hne => absurd htail hne, fun _ => trivial⟩
    · rw [if_neg htail]
      apply Iff.trans (b := ∃ e, walkFrom vol.readDir none path.tail = .error e) _
        ⟨fun h _ _ => h, fun h => h hslash htail⟩
      apply lookupFile_freedOnce_iff (fun _ => rfl)
      intro entry dir
      apply recording_bind (recording_deref entry)
      intro e
      apply Lib.Traced.ite
      · exact fun _ => recording_record _
      · intro _
        apply recording_bind
        · exact recording_bind (recording_deref entry) fun e => recording_outcome _
        · exact fun _ => recording_record _
  · rw [if_pos hslash]
    exact ⟨fun _ hs => absurd hs hslash, fun _ => trivial⟩

/-- A command frees each array once and after its last use exactly when it is harmless. -/
theorem freedOnce_iff_harmless (vol : Volume) (cmd : Command) (path : List UInt8) :
    FreedOnce (Lib.endState ((cmd.exec vol path).run [])) ↔ Harmless vol path cmd := by
  cases cmd with
  | ls => exact doLs_freedOnce_iff
  | cat => exact doRead_freedOnce_iff
  | run => exact doRun_freedOnce_iff

/-- A volume without files. -/
def emptyVolume : Volume where
  readDir _ := .ok []
  readFile _ := .ok ()
  execFile _ := .ok ()

/-- Listing its root frees what `dir` happens to hold. -/
theorem ls_root_frees_unset : ¬ ∀ (vol : Volume) (cmd : Command) (path : List UInt8),
    FreedOnce (Lib.endState ((cmd.exec vol path).run [])) := by
  intro h
  exact (h emptyVolume .ls [slash]).1

end FreedOnce
end SimplePiOS.Kernel
