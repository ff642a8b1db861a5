import SimplePiOS.Kernel.Dirent
import SimplePiOS.Lib.Trace

/-! `path_lookup` of disk/fs.c, with a record of what becomes of the arrays it reads. -/
namespace SimplePiOS.Kernel
open Libpi

/-- What is done with a block from `kmalloc`; a block is named after the time it comes, and an
unset variable holds none. `found` is the return of `path_lookup` with an entry, and the array
of its `last_dir`. -/
inductive BlockEvent where
  | kmalloc (id : ℕ)
  | read (id : ℕ)
  | kfree (id : Option ℕ)
  | found (id : ℕ)
  deriving DecidableEq

/-- Code that works with blocks; the last event comes first. -/
abbrev Blocks := EStateM Stop (List BlockEvent)

def record (e : BlockEvent) : Blocks Unit := modify (e :: ·)

def newBlock : Blocks ℕ := do
  let id := (← get).length
  record (.kmalloc id)
  return id

/-- Code that has no business with blocks, by its outcome. -/
def outcome {α : Type} (x : Except Stop α) : Blocks α :=
  match x with
  | .ok a => pure a
  | .error e => throw e

/-- A `pi_dir_t` whose array is a block. -/
structure DirArray where
  id : ℕ
  dirs : List Dirent

/-- A `dirent_t *`, and the block it points into. -/
structure DirentPtr where
  entry : Dirent
  block : Option ℕ

def DirentPtr.deref (p : DirentPtr) : Blocks Dirent := do
  match p.block with
  | some id => record (.read id)
  | none => pure ()
  return p.entry

abbrev slash : UInt8 := 0x2f

def strchr (s : List UInt8) (c : UInt8) : Option ℕ := s.findIdx? (· = c)

section Lookup
variable (readDir : Option Dirent → Except Stop (List Dirent))

def fat32ReadDir : Option DirentPtr → Blocks DirArray
  | none => do
    let dirs ← outcome (readDir none)
    let id ← newBlock
    return ⟨id, dirs⟩
  | some d => do
    let entry ← d.deref
    let dirs ← outcome (readDir (some entry))
    let id ← newBlock
    return ⟨id, dirs⟩

/-- `dir_lookup` in the array of a directory. -/
def DirArray.lookup (d : DirArray) (name : List UInt8) : Blocks (Option DirentPtr) := do
  if d.dirs ≠ [] then record (.read d.id)
  return (dirLookup d.dirs name).map (⟨·, some d.id⟩)

/-- The label `clean_exit`. -/
def cleanExit (lastDir : DirArray) (searchDir : Option DirentPtr) :
    Blocks (Option DirentPtr × DirArray) := do
  record (.kfree (some lastDir.id))
  return (searchDir, lastDir)

theorem strchr_lt {s : List UInt8} {c : UInt8} {i : ℕ} (h : strchr s c = some i) :
    i < s.length := by
  obtain ⟨hi, -⟩ := List.findIdx?_eq_some_iff_getElem.mp h
  exact hi

/-- The loop of `path_lookup` and what follows it. -/
def pathLoop (lastDir : DirArray) (path : List UInt8) : Blocks (Option DirentPtr × DirArray) :=
  match _h : strchr path slash with
  | some sep => do
    assert (sep < 256) "filename is too long"
    let name := path.take sep
    match ← lastDir.lookup name with
    | none => cleanExit lastDir none
    | some searchDir => do
      let entry ← searchDir.deref
      if entry.isDirP then
        let nextDir ← fat32ReadDir readDir (some searchDir)
        record (.kfree (some lastDir.id))
        pathLoop nextDir (path.drop (sep + 1))
      else cleanExit lastDir none
  | none => do
    let searchDir ← lastDir.lookup path
    cleanExit lastDir searchDir
  termination_by path.length
  decreasing_by
    have := strchr_lt _h
    rw [List.length_drop]
    omega

def pathLookup (searchDir : Option DirentPtr) (path : List UInt8) :
    Blocks (Option DirentPtr × DirArray) := do
  let lastDir ← fat32ReadDir readDir searchDir
  let (entry, lastDir) ← pathLoop readDir lastDir path
  match entry with
  | some _ => record (.found lastDir.id)
  | none => pure ()
  return (entry, lastDir)

/-- The walk along the components, from the array of a directory: each one is looked up, and
the directories are read on the way. -/
def walk : List Dirent → List (List UInt8) → Except Stop (Option Dirent)
  | _, [] => .ok none
  | dirs, [name] => .ok (dirLookup dirs name)
  | dirs, name :: name' :: names => do
    check (name.length < 256) "filename is too long"
    match dirLookup dirs name with
    | none => return none
    | some entry =>
      if entry.isDirP then
        let dirs ← readDir (some entry)
        walk dirs (name' :: names)
      else return none

/-- The components of a path from a directory. -/
def walkFrom (start : Option Dirent) (path : List UInt8) : Except Stop (Option Dirent) := do
  let dirs ← readDir start
  walk readDir dirs (path.splitOn slash)

end Lookup

section Blocks
variable {log : List BlockEvent} {id : ℕ}

/-- The event leaves alone what has been freed, and frees a block. -/
def Respects (before : List BlockEvent) : BlockEvent → Prop
  | .kmalloc _ => True
  | .read id => .kfree (some id) ∉ before
  | .kfree none => False
  | .kfree (some id) => .kfree (some id) ∉ before
  | .found id => .kfree (some id) ∉ before

def FreedOnce : List BlockEvent → Prop
  | [] => True
  | e :: before => Respects before e ∧ FreedOnce before

/-- A good record, in which the block is not freed yet. -/
structure Open (log : List BlockEvent) (id : ℕ) : Prop where
  good : FreedOnce log
  named : ∀ i, .kfree (some i) ∈ log → i < log.length
  live : .kfree (some id) ∉ log
  lt : id < log.length

/-- A good record, in which the block has been freed. -/
structure Closed (log : List BlockEvent) (id : ℕ) : Prop where
  good : FreedOnce log
  freed : .kfree (some id) ∈ log

namespace Open

/-- An event that frees nothing. -/
theorem cons (h : Open log id) {e : BlockEvent} (he : Respects log e)
    (hkeep : ∀ i, e ≠ .kfree (some i)) : Open (e :: log) id := by
  have hmem : ∀ i, .kfree (some i) ∈ e :: log → .kfree (some i) ∈ log := by
    intro i hi
    exact (List.mem_cons.mp hi).resolve_left fun heq => hkeep i heq.symm
  refine ⟨⟨he, h.good⟩, ?_, fun hfreed => h.live (hmem id hfreed), ?_⟩
  · intro i hi
    exact Nat.lt_succ_of_lt (h.named i (hmem i hi))
  · exact Nat.lt_succ_of_lt h.lt

theorem read (h : Open log id) : Open (.read id :: log) id :=
  h.cons h.live fun _ => nofun

/-- A new block is unlike any other. -/
theorem kmalloc (h : Open log id) : Open (.kmalloc log.length :: log) id ∧
    Open (.kmalloc log.length :: log) log.length := by
  have hold : Open (.kmalloc log.length :: log) id := h.cons trivial fun _ => nofun
  refine ⟨hold, hold.good, hold.named, ?_, Nat.lt_succ_self _⟩
  intro hfreed
  rcases List.mem_cons.mp hfreed with hfreed | hfreed
  · cases hfreed
  · exact absurd (h.named _ hfreed) (Nat.lt_irrefl _)

theorem kfree (h : Open log id) : Closed (.kfree (some id) :: log) id :=
  ⟨⟨h.live, h.good⟩, List.mem_cons_self⟩

theorem kfree_other (h : Open log id) {other : ℕ} (ho : Open log other) (hne : id ≠ other) :
    Open (.kfree (some other) :: log) id := by
  refine ⟨ho.kfree.good, ?_, ?_, Nat.lt_succ_of_lt h.lt⟩
  · intro i hi
    rcases List.mem_cons.mp hi with hi | hi
    · cases hi
      exact Nat.lt_succ_of_lt ho.lt
    · exact Nat.lt_succ_of_lt (h.named i hi)
  · intro hfreed
    rcases List.mem_cons.mp hfreed with hfreed | hfreed
    · cases hfreed
      exact hne rfl
    · exact h.live hfreed

/-- The first block. -/
theorem first : Open [.kmalloc 0] 0 := by
  refine ⟨⟨trivial, trivial⟩, ?_, ?_, Nat.zero_lt_one⟩
  · intro i hi
    cases List.mem_singleton.mp hi
  · intro hfreed
    cases List.mem_singleton.mp hfreed

end Open

theorem freedOnce_of_append {new log : List BlockEvent} (h : FreedOnce (new ++ log)) :
    FreedOnce log := by
  induction new with
  | nil => exact h
  | cons e new ih => exact ih h.2

end Blocks

section Run
variable {readDir : Option Dirent → Except Stop (List Dirent)} {log : List BlockEvent}

theorem lookup_run {d : DirArray} (h : Open log d.id) (name : List UInt8) :
    ∃ log', (d.lookup name).run log = .ok ((dirLookup d.dirs name).map (⟨·, some d.id⟩)) log' ∧
      Open log' d.id := by
  by_cases hdirs : d.dirs ≠ []
  · refine ⟨.read d.id :: log, ?_, h.read⟩
    unfold DirArray.lookup
    rw [if_pos hdirs]
    rfl
  · refine ⟨log, ?_, h⟩
    unfold DirArray.lookup
    rw [if_neg hdirs]
    rfl

theorem deref_run (entry : Dirent) (id : ℕ) :
    (DirentPtr.deref ⟨entry, some id⟩).run log = .ok entry (.read id :: log) := rfl

/-- Reading a subdirectory gives an array of its own. -/
theorem fat32ReadDir_run (readDir : Option Dirent → Except Stop (List Dirent)) {id : ℕ} (h : Open log id) (entry : Dirent) :
    (∃ e log', readDir (some entry) = .error e ∧
      (fat32ReadDir readDir (some ⟨entry, some id⟩)).run log = .error e log' ∧ FreedOnce log') ∨
    ∃ dirs d log', readDir (some entry) = .ok dirs ∧ d.dirs = dirs ∧
      (fat32ReadDir readDir (some ⟨entry, some id⟩)).run log = .ok d log' ∧
      Open log' id ∧ Open log' d.id ∧ d.id ≠ id := by
  cases hread : readDir (some entry) with
  | error e =>
    refine .inl ⟨e, .read id :: log, rfl, ?_, h.read.good⟩
    unfold fat32ReadDir
    rw [Lib.bind_ok (deref_run entry id), hread]
    rfl
  | ok dirs =>
    have hnew := h.read.kmalloc
    refine .inr ⟨dirs, ⟨_, dirs⟩, _, rfl, rfl, ?_, hnew.1, hnew.2, ?_⟩
    · unfold fat32ReadDir
      rw [Lib.bind_ok (deref_run entry id), hread]
      rfl
    · exact Nat.ne_of_gt (Nat.lt_succ_of_lt h.lt)

/-- How the loop ends, next to the walk: with the array it has come to freed. -/
inductive LoopEnd : Except Stop (Option Dirent) →
    EStateM.Result Stop (List BlockEvent) (Option DirentPtr × DirArray) → Prop
  | stopped {e log} (h : FreedOnce log) : LoopEnd (.error e) (.error e log)
  | missing {d log} (h : Closed log d.id) : LoopEnd (.ok none) (.ok (none, d) log)
  | found {entry d log} (h : Closed log d.id) :
      LoopEnd (.ok (some entry)) (.ok (some ⟨entry, some d.id⟩, d) log)

theorem cleanExit_run {d : DirArray} (h : Open log d.id) (entry : Option Dirent) :
    LoopEnd (.ok entry) ((cleanExit d (entry.map (⟨·, some d.id⟩))).run log) := by
  cases entry with
  | none => exact .missing h.kfree
  | some entry => exact .found h.kfree

theorem splitOn_strchr_some {path : List UInt8} {sep : ℕ} (h : strchr path slash = some sep) :
    (path.take sep).length = sep ∧
      path.splitOn slash = path.take sep :: (path.drop (sep + 1)).splitOn slash := by
  obtain ⟨hsep, hslash, hbefore⟩ := List.findIdx?_eq_some_iff_getElem.mp h
  have hlen : (path.take sep).length = sep := by
    rw [List.length_take]
    omega
  have hnot : slash ∉ path.take sep := by
    intro hmem
    obtain ⟨j, hj, heq⟩ := List.getElem_of_mem hmem
    rw [List.getElem_take] at heq
    exact hbefore j (by omega) (by simpa using heq)
  refine ⟨hlen, ?_⟩
  conv_lhs => rw [← List.take_append_drop sep path, List.drop_eq_getElem_cons hsep]
  rw [of_decide_eq_true hslash]
  exact List.splitOn_append_cons_self_of_not_mem hnot _

theorem splitOn_strchr_none {path : List UInt8} (h : strchr path slash = none) :
    path.splitOn slash = [path] := by
  apply List.splitOn_eq_singleton
  intro hmem
  have hall := List.findIdx?_eq_none_iff.mp h slash hmem
  simp at hall

/-- The walk past a component that fits the buffer. -/
theorem walk_cons {names : List (List UInt8)} (hnames : names ≠ []) (dirs : List Dirent)
    {name : List UInt8} (h : name.length < 256) :
    walk readDir dirs (name :: names) = match dirLookup dirs name with
      | none => .ok none
      | some entry =>
        if entry.isDirP then readDir (some entry) >>= fun dirs => walk readDir dirs names
        else .ok none := by
  cases names with
  | nil => exact absurd rfl hnames
  | cons name' names =>
    rw [walk]
    unfold check
    rw [if_pos h]
    rfl

theorem walk_long {names : List (List UInt8)} (hnames : names ≠ []) (dirs : List Dirent)
    {name : List UInt8} (h : ¬ name.length < 256) :
    walk readDir dirs (name :: names) = .error (.panic "filename is too long") := by
  cases names with
  | nil => exact absurd rfl hnames
  | cons name' names =>
    rw [walk]
    unfold check
    rw [if_neg h]
    rfl

/-- The loop does the walk, and has freed each array it leaves. -/
theorem pathLoop_run (readDir : Option Dirent → Except Stop (List Dirent)) (lastDir : DirArray)
    (path : List UInt8) (h : Open log lastDir.id) :
    LoopEnd (walk readDir lastDir.dirs (path.splitOn slash))
      ((pathLoop readDir lastDir path).run log) := by
  induction hn : path.length using Nat.strongRecOn generalizing path lastDir log with
  | _ n ih =>
  unfold pathLoop
  split
  · next sep hsep =>
    obtain ⟨hlen, hsplit⟩ := splitOn_strchr_some hsep
    rw [hsplit]
    by_cases hlong : sep < 256
    · rw [walk_cons (List.splitOn_ne_nil _ _) _ (by rwa [hlen]),
        Lib.bind_ok (run_assert hlong _ log)]
      obtain ⟨log₁, hlookup, hopen⟩ := lookup_run h (path.take sep)
      rw [Lib.bind_ok hlookup]
      cases dirLookup lastDir.dirs (path.take sep) with
      | none => exact cleanExit_run hopen none
      | some entry =>
        change LoopEnd (if entry.isDirP then _ else _) (EStateM.run (_ >>= _) log₁)
        rw [Lib.bind_ok (deref_run entry lastDir.id)]
        by_cases hdir : entry.isDirP
        · rw [if_pos hdir, if_pos hdir]
          rcases fat32ReadDir_run readDir hopen.read entry with
            ⟨e, log₂, hread, hrun, hgood⟩ | ⟨dirs, d, log₂, hread, rfl, hrun, hlast, hnext, hne⟩
          · rw [hread, Lib.bind_error hrun]
            exact .stopped hgood
          · rw [hread, Lib.bind_ok hrun]
            change LoopEnd (walk readDir d.dirs _) ((pathLoop readDir d _).run _)
            apply ih _ _ _ _ (hnext.kfree_other hlast hne) rfl
            have hlt := strchr_lt hsep
            rw [List.length_drop]
            omega
        · rw [if_neg hdir, if_neg hdir]
          exact cleanExit_run hopen.read none
    · rw [walk_long (List.splitOn_ne_nil _ _) _ (by rwa [hlen])]
      have hstop : (assert (sep < 256) "filename is too long" : Blocks Unit).run log =
          .error (.panic "filename is too long") log := by
        unfold assert
        rw [if_neg hlong]
        rfl
      rw [Lib.bind_error hstop]
      exact .stopped h.good
  · next hsep =>
    rw [splitOn_strchr_none hsep]
    obtain ⟨log₁, hlookup, hopen⟩ := lookup_run h path
    rw [Lib.bind_ok hlookup]
    exact cleanExit_run hopen (dirLookup lastDir.dirs path)

/-- How `path_lookup` ends; the entry that it returns is in an array it has freed. -/
inductive LookupEnd : Except Stop (Option Dirent) →
    EStateM.Result Stop (List BlockEvent) (Option DirentPtr × DirArray) → Prop
  | stopped {e log} (h : FreedOnce log) : LookupEnd (.error e) (.error e log)
  | missing {d log} (h : Closed log d.id) : LookupEnd (.ok none) (.ok (none, d) log)
  | found {entry d log} (h : Closed log d.id) : LookupEnd (.ok (some entry))
      (.ok (some ⟨entry, some d.id⟩, d) (.found d.id :: log))

/-- The first directory is given by an entry that is in no array. -/
theorem fat32ReadDir_start (readDir : Option Dirent → Except Stop (List Dirent)) (start : Option Dirent) :
    (fat32ReadDir readDir (start.map (⟨·, none⟩))).run [] =
      match readDir start with
      | .error e => .error e []
      | .ok dirs => .ok ⟨0, dirs⟩ [.kmalloc 0] := by
  cases start with
  | none =>
    cases hread : readDir none with
    | error e => unfold fat32ReadDir; simp only [Option.map_none]; rw [hread]; rfl
    | ok dirs => unfold fat32ReadDir; simp only [Option.map_none]; rw [hread]; rfl
  | some entry =>
    have hderef : (DirentPtr.deref ⟨entry, none⟩).run [] = .ok entry [] := rfl
    unfold fat32ReadDir
    change EStateM.run (_ >>= _) [] = _
    rw [Lib.bind_ok hderef]
    cases readDir (some entry) with
    | error e => rfl
    | ok dirs => rfl

theorem pathLookup_run (readDir : Option Dirent → Except Stop (List Dirent)) (start : Option Dirent)
    (path : List UInt8) :
    LookupEnd (walkFrom readDir start path)
      ((pathLookup readDir (start.map (⟨·, none⟩)) path).run []) := by
  have hfirst := fat32ReadDir_start readDir start
  unfold walkFrom pathLookup
  cases hread : readDir start with
  | error e =>
    rw [hread] at hfirst
    rw [Lib.bind_error hfirst]
    exact .stopped trivial
  | ok dirs =>
    rw [hread] at hfirst
    rw [Lib.bind_ok hfirst]
    have hloop := pathLoop_run readDir ⟨0, dirs⟩ path .first
    change LookupEnd (walk readDir dirs _) _
    generalize walk readDir dirs (path.splitOn slash) = result at hloop ⊢
    generalize hrun : (pathLoop readDir ⟨0, dirs⟩ path).run _ = loopEnd at hloop
    cases hloop with
    | stopped h =>
      rw [Lib.bind_error hrun]
      exact .stopped h
    | missing h =>
      rw [Lib.bind_ok hrun]
      exact .missing h
    | found h =>
      rw [Lib.bind_ok hrun]
      exact .found h

end Run

section Resolve

/-- The resolution of the components of a path in a tree of directories: each is the name of the
first entry of that name, and all but the last have to be directories. -/
def resolve (readDir : Option Dirent → List Dirent) : Option Dirent → List (List UInt8) → Option Dirent
  | _, [] => none
  | start, [name] => (readDir start).find? (·.name = name)
  | start, name :: name' :: names =>
    match (readDir start).find? (·.name = name) with
    | some entry => if entry.isDirP then resolve readDir (some entry) (name' :: names) else none
    | none => none

/-- The walk is the resolution, up to a component that is too long. -/
theorem walk_resolves (readDir : Option Dirent → List Dirent) (start : Option Dirent)
    (names : List (List UInt8)) :
    walk (fun d => .ok (readDir d)) (readDir start) names = .ok (resolve readDir start names) ∨
    walk (fun d => .ok (readDir d)) (readDir start) names = .error (.panic "filename is too long") ∧
      ∃ name ∈ names.dropLast, 256 ≤ name.length := by
  induction names generalizing start with
  | nil => exact .inl rfl
  | cons name names ih =>
    cases names with
    | nil => exact .inl rfl
    | cons name' names =>
      by_cases hlong : name.length < 256
      · rw [walk_cons (by simp) _ hlong]
        unfold resolve dirLookup
        cases (readDir start).find? (·.name = name) with
        | none => exact .inl rfl
        | some entry =>
          by_cases hdir : entry.isDirP
          · simp only [hdir, if_true]
            rcases ih (some entry) with hok | ⟨hstop, long, hmem, hlen⟩
            · exact .inl hok
            · exact .inr ⟨hstop, long, by simp [hmem], hlen⟩
          · simp only [hdir]
            exact .inl rfl
      · rw [walk_long (by simp) _ hlong]
        exact .inr ⟨rfl, name, by simp, Nat.le_of_not_lt hlong⟩

/-- `path_lookup` returns what the path resolves to, or none if it does not; it stops only for
a component before a slash that does not fit the buffer. -/
theorem pathLookup_resolves (readDir : Option Dirent → List Dirent) (start : Option Dirent)
    (path : List UInt8) :
    match (pathLookup (fun d => .ok (readDir d)) (start.map (⟨·, none⟩)) path).run [] with
    | .error e _ => e = .panic "filename is too long" ∧
        ∃ name ∈ (path.splitOn slash).dropLast, 256 ≤ name.length
    | .ok (entry, _) _ => entry.map (·.entry) = resolve readDir start (path.splitOn slash) := by
  have hrun := pathLookup_run (fun d => .ok (readDir d)) start path
  have hwalk : walkFrom (fun d => .ok (readDir d)) start path =
      walk (fun d => .ok (readDir d)) (readDir start) (path.splitOn slash) := rfl
  rw [hwalk] at hrun
  rcases walk_resolves readDir start (path.splitOn slash) with hok | ⟨hstop, hlong⟩
  · rw [hok] at hrun
    generalize resolve readDir start _ = result at hrun ⊢
    generalize EStateM.run _ _ = lookupEnd at hrun ⊢
    cases hrun with
    | missing h => rfl
    | found h => rfl
  · rw [hstop] at hrun
    generalize EStateM.run _ _ = lookupEnd at hrun ⊢
    cases hrun with
    | stopped h => exact ⟨rfl, hlong⟩

end Resolve
end SimplePiOS.Kernel
