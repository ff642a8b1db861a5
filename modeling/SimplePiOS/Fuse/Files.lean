import SimplePiOS.Shell.Commands

/-! The files of the FUSE file system, and the lists of bytes they stand for. `none` as a result is
an access outside a file's block. -/
namespace SimplePiOS.Fuse
open Libpi Shell

section Code

structure FileT where
  data : List Byte
  nAlloc : ℕ
  nData : ℕ

/-- The constant part of a `dirent_t`: its name, its permissions, and whether writes go to a handler. -/
structure Dirent where
  name : List Byte
  flags : ℕ
  onWr : Bool

/-- The field `f` of each entry. -/
abbrev Files := ℕ → Option FileT

def permRd : ℕ := 0o444
def permWr : ℕ := 0o222
def permExec : ℕ := 0o111
def permRw : ℕ := permRd ||| permWr ||| permExec

def enoent : Int := 2
def enomem : Int := 12
def eacces : Int := 13

def root : List Dirent :=
  [⟨lit "/echo.cmd", permRw, true⟩, ⟨lit "/reboot.cmd", permRw, true⟩,
    ⟨lit "/run.cmd", permRw, true⟩, ⟨lit "/console", permRd, false⟩]

def hasPerm (x p : ℕ) : Prop := x &&& p = p

instance (x p : ℕ) : Decidable (hasPerm x p) := inferInstanceAs (Decidable (x &&& p = p))

def fileNew (hint : ℕ) : FileT :=
  let hint := (if hint < 8192 then 8192 else hint) * 2
  ⟨List.replicate hint 0, hint, 0⟩

/-- The entry with a path, and its place in the table. -/
def entry (root : List Dirent) (path : List Byte) : Option (Dirent × ℕ) :=
  if path.head? = some slash then root.zipIdx.find? fun e => e.1.name = path else none

def allocate (i : ℕ) (fs : Files) : Files :=
  if (fs i).isNone then Function.update fs i (some (fileNew 8)) else fs

def entLookup (root : List Dirent) (path : List Byte) (fs : Files) : Option (Dirent × ℕ) × Files :=
  match entry root path with
  | none => (none, fs)
  | some e => (some e, allocate e.2 fs)

def fileLookup (root : List Dirent) (path : List Byte) (perm : ℕ) (fs : Files) :
    Except Int (Dirent × ℕ) × Files :=
  match entLookup root path fs with
  | (none, fs) => (.error (-enoent), fs)
  | (some e, fs) => if hasPerm e.1.flags perm then (.ok e, fs) else (.error (-eacces), fs)

/-- A `size_t` returned as an `int`. -/
def asInt (n : ℕ) : Int := (BitVec.ofNat 32 n).toInt

def loadBytes (data : List Byte) (p n : ℕ) : Option (List Byte) :=
  if p + n ≤ data.length then some ((data.drop p).take n) else none

def storeBytes (data : List Byte) (p : ℕ) (buf : List Byte) : Option (List Byte) :=
  if p + buf.length ≤ data.length then some (data.take p ++ buf ++ data.drop (p + buf.length))
  else none

/-- What the allocator does with a request: nothing, or a block whose new part holds these bytes. -/
abbrev Allocator := ℕ → Option (ℕ → Byte)

/-- A request for more than `PTRDIFF_MAX` bytes always fails. -/
def realloc (r : Allocator) (data : List Byte) (n : ℕ) : Option (List Byte) :=
  if n < 2 ^ 63 then (r n).map fun fresh => (List.range n).map fun i => data.getD i (fresh i)
  else none

/-- What an operation gives its caller; `handler` when a write goes to the entry's own handler. -/
inductive Outcome where
  | returned (retv : Int) (bytes : List Byte)
  | handler
  deriving DecidableEq

/-- `offset > n_data` and `length < n_data` compare a signed offset as an unsigned number. -/
def piRead (root : List Dirent) (path : List Byte) (size : ℕ) (offset : BitVec 64) (fs : Files) :
    Option (Outcome × Files) :=
  match fileLookup root path permRd fs with
  | (.error retv, fs) => some (.returned retv [], fs)
  | (.ok e, fs) => do
    let f ← fs e.2
    if offset.toNat > f.nData then return (.returned 0 [], fs)
    let size := min size (f.nData - offset.toNat)
    let bytes ← loadBytes f.data offset.toNat size
    return (.returned (asInt size) bytes, fs)

/-- The first half of `append_to_file`: room for `needed` bytes. -/
def grow (r : Allocator) (f : FileT) (needed : ℕ) : Option FileT :=
  if needed > f.nAlloc then
    (realloc r f.data needed).map fun data => { f with data := data, nAlloc := needed }
  else some f

def appendToFile (r : Allocator) (f : FileT) (buf : List Byte) (offset : BitVec 64) :
    Option (Int × FileT) :=
  let needed := (offset.toNat + buf.length) % 2 ^ 64
  match grow r f needed with
  | none => some (-enomem, f)
  | some f => do
    let data ← storeBytes f.data offset.toNat buf
    return (asInt buf.length, { f with data := data, nData := max f.nData needed })

def piWrite (root : List Dirent) (r : Allocator) (path buf : List Byte) (offset : BitVec 64)
    (fs : Files) : Option (Outcome × Files) :=
  match fileLookup root path permWr fs with
  | (.error retv, fs) => some (.returned retv [], fs)
  | (.ok e, fs) => do
    if e.1.onWr then return (.handler, fs)
    let f ← fs e.2
    if offset.toNat > f.nData then return (.returned 0 [], fs)
    let (retv, f) ← appendToFile r f buf offset
    return (.returned retv [], Function.update fs e.2 (some f))

def piTruncate (root : List Dirent) (path : List Byte) (length : BitVec 64) (fs : Files) :
    Option (Outcome × Files) :=
  match fileLookup root path permWr fs with
  | (.error retv, fs) => some (.returned retv [], fs)
  | (.ok e, fs) => do
    let f ← fs e.2
    let f := if length.toNat < f.nData then { f with nData := length.toNat } else f
    return (.returned 0 [], Function.update fs e.2 (some f))

def wrConsole (console : ℕ) (r : Allocator) (i : BitVec 32) (fs : Files) :
    Option (Outcome × Files) := do
  let c : Byte := i.setWidth 8
  let f ← fs console
  let (_, f) ← appendToFile r f [c] (BitVec.ofNat 64 f.nData)
  return (.returned 0 [], Function.update fs console (some f))

def assertLookup (root : List Dirent) (path : List Byte) (fs : Files) :
    Option ((Dirent × ℕ) × Files) :=
  match entLookup root path fs with
  | (none, _) => none
  | (some e, fs) => some (e, fs)

/-- How `main` begins: it asserts that the four names are there, and keeps the entry of the console. -/
def start (root : List Dirent) : Option (ℕ × Files) := do
  let (_, fs) ← assertLookup root (lit "/console") fun _ => none
  let (_, fs) ← assertLookup root (lit "/echo.cmd") fs
  let (_, fs) ← assertLookup root (lit "/reboot.cmd") fs
  let (_, fs) ← assertLookup root (lit "/run.cmd") fs
  let (e, fs) ← assertLookup root (lit "/console") fs
  return (e.2, fs)

inductive Op where
  | read (path : List Byte) (size : ℕ) (offset : BitVec 64)
  | write (path buf : List Byte) (offset : BitVec 64) (r : Allocator)
  | console (i : BitVec 32) (r : Allocator)
  | truncate (path : List Byte) (length : BitVec 64)

def step (root : List Dirent) (console : ℕ) (fs : Files) : Op → Option (Outcome × Files)
  | .read path size offset => piRead root path size offset fs
  | .write path buf offset r => piWrite root r path buf offset fs
  | .console i r => wrConsole console r i fs
  | .truncate path length => piTruncate root path length fs

def run (root : List Dirent) (console : ℕ) : Files → List Op → Option (List Outcome × Files)
  | fs, [] => some ([], fs)
  | fs, op :: ops => do
    let (out, fs) ← step root console fs op
    let (outs, fs) ← run root console fs ops
    return (out :: outs, fs)

end Code

section Lists

def readList (l : List Byte) (size : ℕ) (offset : Int) : List Byte :=
  if 0 ≤ offset ∧ offset ≤ l.length then (l.drop offset.toNat).take size else []

def writeList (l : List Byte) (offset : Int) (buf : List Byte) : List Byte :=
  if 0 ≤ offset ∧ offset ≤ l.length then
    l.take offset.toNat ++ buf ++ l.drop (offset.toNat + buf.length)
  else l

def truncateList (l : List Byte) (length : Int) : List Byte :=
  if 0 ≤ length ∧ length < l.length then l.take length.toNat else l

/-- The allocator does not give a block of `n` bytes. -/
def Refuses (r : Allocator) (n : ℕ) : Prop := 2 ^ 63 ≤ n ∨ r n = none

/-- The path an operation looks up, and the permission it needs. -/
def Op.access : Op → Option (List Byte × ℕ)
  | .read path _ _ => some (path, permRd)
  | .write path _ _ _ => some (path, permWr)
  | .console _ _ => none
  | .truncate path _ => some (path, permWr)

/-- One operation on files that are lists of bytes. A write can only fail when the allocator refuses
the room for it, and then changes nothing; what a handler does to the console is its own steps. -/
inductive ListStep (root : List Dirent) (console : ℕ) (m : ℕ → List Byte) :
    Op → Outcome → (ℕ → List Byte) → Prop where
  | missing {op path perm} (hop : op.access = some (path, perm)) (hentry : entry root path = none) :
    ListStep root console m op (.returned (-enoent) []) m
  | forbidden {op path perm e} (hop : op.access = some (path, perm))
      (hentry : entry root path = some e) (hperm : ¬ hasPerm e.1.flags perm) :
    ListStep root console m op (.returned (-eacces) []) m
  | read {path size} {offset : BitVec 64} {e} (hentry : entry root path = some e)
      (hperm : hasPerm e.1.flags permRd) :
    ListStep root console m (.read path size offset)
      (.returned (readList (m e.2) size offset.toInt).length
        (readList (m e.2) size offset.toInt)) m
  | handler {path buf} {offset : BitVec 64} {r e} (hentry : entry root path = some e)
      (hperm : hasPerm e.1.flags permWr) (hwr : e.1.onWr = true) :
    ListStep root console m (.write path buf offset r) .handler m
  | write {path buf} {offset : BitVec 64} {r e} (hentry : entry root path = some e)
      (hperm : hasPerm e.1.flags permWr) (hwr : e.1.onWr = false)
      (hin : 0 ≤ offset.toInt ∧ offset.toInt ≤ (m e.2).length) :
    ListStep root console m (.write path buf offset r) (.returned buf.length [])
      (Function.update m e.2 (writeList (m e.2) offset.toInt buf))
  | beyond {path buf} {offset : BitVec 64} {r e} (hentry : entry root path = some e)
      (hperm : hasPerm e.1.flags permWr) (hwr : e.1.onWr = false)
      (hout : ¬ (0 ≤ offset.toInt ∧ offset.toInt ≤ (m e.2).length)) :
    ListStep root console m (.write path buf offset r) (.returned 0 []) m
  | writeFailed {path buf} {offset : BitVec 64} {r e} (hentry : entry root path = some e)
      (hperm : hasPerm e.1.flags permWr) (hwr : e.1.onWr = false)
      (hin : 0 ≤ offset.toInt ∧ offset.toInt ≤ (m e.2).length)
      (hr : Refuses r (offset.toInt.toNat + buf.length)) :
    ListStep root console m (.write path buf offset r) (.returned (-enomem) []) m
  | console {i r} : ListStep root console m (.console i r) (.returned 0 [])
      (Function.update m console (m console ++ [i.setWidth 8]))
  | consoleFailed {i r} (hr : Refuses r ((m console).length + 1)) :
    ListStep root console m (.console i r) (.returned 0 []) m
  | truncate {path} {length : BitVec 64} {e} (hentry : entry root path = some e)
      (hperm : hasPerm e.1.flags permWr) :
    ListStep root console m (.truncate path length) (.returned 0 [])
      (Function.update m e.2 (truncateList (m e.2) length.toInt))

inductive ListRun (root : List Dirent) (console : ℕ) :
    (ℕ → List Byte) → List Op → List Outcome → (ℕ → List Byte) → Prop where
  | nil {m} : ListRun root console m [] [] m
  | cons {m m' m'' op ops out outs} (h : ListStep root console m op out m')
      (hs : ListRun root console m' ops outs m'') :
    ListRun root console m (op :: ops) (out :: outs) m''

end Lists

section Refinement

def FileT.bytes (f : FileT) : List Byte := f.data.take f.nData

/-- The list a file stands for. A file that has not been allocated yet is empty. -/
def contents (fs : Files) (i : ℕ) : List Byte := ((fs i).map FileT.bytes).getD []

structure FileT.Ok (f : FileT) : Prop where
  length : f.data.length = f.nAlloc
  le : f.nData ≤ f.nAlloc
  lt : f.nAlloc < 2 ^ 63

def AllOk (fs : Files) : Prop := ∀ i f, fs i = some f → f.Ok

/-- The state of the files between two operations: the console has been allocated at the start. -/
structure FilesOk (console : ℕ) (fs : Files) : Prop where
  ok : AllOk fs
  console : ∃ f, fs console = some f

variable {root : List Dirent} {console : ℕ} {fs : Files} {f : FileT}

theorem FileT.Ok.length_bytes (h : f.Ok) : f.bytes.length = f.nData := by
  rw [FileT.bytes, List.length_take, h.length, Nat.min_eq_left h.le]

theorem fileNew_eight : fileNew 8 = ⟨List.replicate 16384 0, 16384, 0⟩ := rfl

theorem ok_fileNew : (fileNew 8).Ok := by
  rw [fileNew_eight]
  exact ⟨List.length_replicate, Nat.zero_le _, show 16384 < 2 ^ 63 by decide⟩

theorem contents_of_eq {i : ℕ} (h : fs i = some f) : contents fs i = f.bytes := by
  simp [contents, h]

theorem contents_update (fs : Files) (i : ℕ) (f : FileT) :
    contents (Function.update fs i (some f)) = Function.update (contents fs) i f.bytes := by
  funext j
  by_cases h : j = i
  · subst h
    simp [contents]
  · simp [contents, h]

theorem contents_allocate (i : ℕ) (fs : Files) : contents (allocate i fs) = contents fs := by
  unfold allocate
  split
  · next h =>
    have hnone : contents fs i = (fileNew 8).bytes := by
      rw [Option.isNone_iff_eq_none] at h
      rw [contents, h, fileNew_eight, FileT.bytes, List.take_zero]; rfl
    rw [contents_update, ← hnone, Function.update_eq_self]
  · rfl

theorem AllOk.update (h : AllOk fs) (hf : f.Ok) (i : ℕ) :
    AllOk (Function.update fs i (some f)) := by
  intro j g hg
  by_cases hj : j = i
  · subst hj
    rw [Function.update_self] at hg
    cases hg
    exact hf
  · rw [Function.update_of_ne hj] at hg
    exact h j g hg

theorem AllOk.allocate (h : AllOk fs) (i : ℕ) : AllOk (allocate i fs) := by
  unfold Fuse.allocate
  split
  · exact h.update ok_fileNew i
  · exact h

theorem FilesOk.update (h : FilesOk console fs) (hf : f.Ok) (i : ℕ) :
    FilesOk console (Function.update fs i (some f)) where
  ok := h.ok.update hf i
  console := by
    by_cases hi : console = i
    · exact ⟨f, by rw [hi, Function.update_self]⟩
    · rw [Function.update_of_ne hi]
      exact h.console

theorem FilesOk.allocate (h : FilesOk console fs) (i : ℕ) : FilesOk console (allocate i fs) := by
  unfold Fuse.allocate
  split
  · exact h.update ok_fileNew i
  · exact h

theorem allocate_isSome (i : ℕ) (fs : Files) : ∃ f, allocate i fs i = some f := by
  unfold allocate
  split
  · exact ⟨_, Function.update_self ..⟩
  · next h => exact Option.ne_none_iff_exists'.mp (by simpa using h)

theorem toNat_le_iff (offset : BitVec 64) {n : ℕ} (hn : n < 2 ^ 63) :
    offset.toNat ≤ n ↔ 0 ≤ offset.toInt ∧ offset.toInt ≤ n := by
  rw [BitVec.toInt_eq_toNat_cond]
  have := offset.isLt
  split <;> omega

theorem toNat_toInt {offset : BitVec 64} (h : 0 ≤ offset.toInt) :
    offset.toInt.toNat = offset.toNat := by
  rw [BitVec.toInt_eq_toNat_cond] at h ⊢
  have := offset.isLt
  split <;> omega

theorem asInt_eq {n : ℕ} (h : n < 2 ^ 31) : asInt n = n := by
  rw [asInt, BitVec.toInt_eq_toNat_cond, BitVec.toNat_ofNat]
  omega

/-- A write into a block with room for it: bytes past the length, left by a truncation, stay past it or
are written over. -/
theorem storeBytes_splice {data buf : List Byte} {p n : ℕ} (hp : p ≤ n) (hn : n ≤ data.length)
    (hroom : p + buf.length ≤ data.length) :
    ∃ data', storeBytes data p buf = some data' ∧ data'.length = data.length ∧
      data'.take (max n (p + buf.length)) =
        (data.take n).take p ++ buf ++ (data.take n).drop (p + buf.length) := by
  refine ⟨_, if_pos hroom, ?_, ?_⟩
  · simp only [List.length_append, List.length_take, List.length_drop]
    omega
  · have hlen : (data.take p ++ buf).length = p + buf.length := by
      rw [List.length_append, List.length_take, Nat.min_eq_left (by omega)]
    rw [List.take_append, hlen, List.take_of_length_le (by omega), List.take_take,
      Nat.min_eq_left hp, List.drop_take]
    congr 2
    omega

theorem realloc_eq_some {r : Allocator} {data data' : List Byte} {n : ℕ}
    (h : realloc r data n = some data') : n < 2 ^ 63 ∧ data'.length = n ∧
      ∀ k ≤ data.length, k ≤ n → data'.take k = data.take k := by
  unfold realloc at h
  split at h
  · next hn =>
    obtain ⟨fresh, -, rfl⟩ := Option.map_eq_some_iff.mp h
    refine ⟨hn, by simp, fun k hk hkn => List.ext_getElem? fun i => ?_⟩
    rcases Nat.lt_or_ge i k with hi | hi
    · have hget : data[i]? = some data[i] := List.getElem?_eq_getElem (by omega)
      simp [List.getElem?_take_of_lt hi, show i < n by omega, hget, List.getD_eq_getElem?_getD]
    · rw [List.getElem?_take_eq_none hi, List.getElem?_take_eq_none hi]
  · cases h

theorem realloc_eq_none {r : Allocator} {data : List Byte} {n : ℕ} (h : realloc r data n = none) :
    Refuses r n := by
  unfold realloc at h
  split at h
  · exact .inr (by simpa using h)
  · exact .inl (by omega)

/-- Growing keeps the bytes of a file, or the allocator has refused. -/
theorem grow_cases (r : Allocator) (hf : f.Ok) (needed : ℕ) :
    (∃ g, grow r f needed = some g ∧ g.Ok ∧ g.nData = f.nData ∧ g.bytes = f.bytes ∧
      needed ≤ g.nAlloc) ∨ grow r f needed = none ∧ Refuses r needed := by
  have hle := hf.le
  unfold grow
  split
  · next hcap =>
    cases hre : realloc r f.data needed with
    | none => exact .inr ⟨rfl, realloc_eq_none hre⟩
    | some data =>
      obtain ⟨hlt, hlength, htake⟩ := realloc_eq_some hre
      refine .inl ⟨_, rfl, ⟨hlength, show f.nData ≤ needed by omega, hlt⟩, rfl, ?_, Nat.le_refl _⟩
      exact htake f.nData (by rw [hf.length]; exact hle) (by omega)
  · next hcap => exact .inl ⟨f, rfl, hf, rfl, rfl, Nat.le_of_not_lt hcap⟩

theorem appendToFile_refines (r : Allocator) (hf : f.Ok) {buf : List Byte} {offset : BitVec 64}
    (hoff : offset.toNat ≤ f.nData) (hlen : buf.length < 2 ^ 31) :
    ∃ retv f', appendToFile r f buf offset = some (retv, f') ∧ f'.Ok ∧
      (retv = buf.length ∧ f'.bytes = f.bytes.take offset.toNat ++ buf ++
          f.bytes.drop (offset.toNat + buf.length) ∨
        retv = -enomem ∧ f' = f ∧ Refuses r (offset.toNat + buf.length)) := by
  have hneeded : (offset.toNat + buf.length) % 2 ^ 64 = offset.toNat + buf.length := by
    have hle := hf.le
    have hlt := hf.lt
    exact Nat.mod_eq_of_lt (by omega)
  rcases grow_cases r hf (offset.toNat + buf.length) with
    ⟨g, hgrow, hg, hdata, hbytes, hroom⟩ | ⟨hgrow, hrefuses⟩
  · rw [← hdata] at hoff
    rw [← hg.length] at hroom
    obtain ⟨data, hstore, hlength, htake⟩ := storeBytes_splice hoff (hg.length ▸ hg.le) hroom
    refine ⟨buf.length, ⟨data, g.nAlloc, max g.nData (offset.toNat + buf.length)⟩, ?_,
      ⟨?_, ?_, hg.lt⟩, .inl ⟨rfl, ?_⟩⟩
    · simp only [appendToFile, hneeded, hgrow, hstore, asInt_eq hlen]
      rfl
    · exact hlength.trans hg.length
    · exact Nat.max_le.mpr ⟨hg.le, hg.length ▸ hroom⟩
    · rw [← hbytes]
      exact htake
  · refine ⟨-enomem, f, ?_, hf, .inr ⟨rfl, rfl, hrefuses⟩⟩
    simp only [appendToFile, hneeded, hgrow]

/-- The lookup an operation begins with: it ends the operation with an error, or gives an entry whose
file is allocated. -/
theorem fileLookup_refines (hfs : FilesOk console fs) (op : Op) {path : List Byte} {perm : ℕ}
    (hop : op.access = some (path, perm)) :
    (∃ retv fs', fileLookup root path perm fs = (.error retv, fs') ∧ FilesOk console fs' ∧
      ListStep root console (contents fs) op (.returned retv []) (contents fs')) ∨
    ∃ e fs' f, fileLookup root path perm fs = (.ok e, fs') ∧ FilesOk console fs' ∧
      contents fs' = contents fs ∧ fs' e.2 = some f ∧ entry root path = some e ∧
      hasPerm e.1.flags perm := by
  cases h : entry root path with
  | none =>
    exact .inl ⟨_, fs, by simp only [fileLookup, entLookup, h], hfs, .missing hop h⟩
  | some e =>
    by_cases hperm : hasPerm e.1.flags perm
    · obtain ⟨f, hf⟩ := allocate_isSome e.2 fs
      exact .inr ⟨e, allocate e.2 fs, f, by simp only [fileLookup, entLookup, h, if_pos hperm],
        hfs.allocate _, contents_allocate _ _, hf, rfl, hperm⟩
    · refine .inl ⟨-eacces, allocate e.2 fs, ?_, hfs.allocate _, ?_⟩
      · simp only [fileLookup, entLookup, h, if_neg hperm]
      · rw [contents_allocate]
        exact .forbidden hop h hperm

/-- A step of the code stays inside the blocks, keeps the files in order, and does on the contents
what the step on lists does. -/
def Refines (root : List Dirent) (console : ℕ) (fs : Files) (op : Op) : Prop :=
  ∃ out fs', step root console fs op = some (out, fs') ∧ FilesOk console fs' ∧
    ListStep root console (contents fs) op out (contents fs')

theorem FileT.Ok.inside_iff (hf : f.Ok) (offset : BitVec 64) :
    offset.toNat ≤ f.nData ↔ 0 ≤ offset.toInt ∧ offset.toInt ≤ f.bytes.length := by
  rw [hf.length_bytes]
  exact toNat_le_iff offset (by have := hf.le; have := hf.lt; omega)

theorem loadBytes_bytes (hf : f.Ok) {p : ℕ} (hp : p ≤ f.nData) (size : ℕ) :
    loadBytes f.data p (min size (f.nData - p)) = some ((f.bytes.drop p).take size) := by
  have hle := hf.le
  have hlength := hf.length
  rw [loadBytes, if_pos (by omega), FileT.bytes, List.drop_take, List.take_take]

theorem piRead_refines (hfs : FilesOk console fs) (path : List Byte) {size : ℕ}
    (hsize : size < 2 ^ 31) (offset : BitVec 64) :
    Refines root console fs (.read path size offset) := by
  rcases fileLookup_refines hfs (.read path size offset) rfl with
    ⟨retv, fs', hlook, hfs', hstep⟩ | ⟨e, fs', f, hlook, hfs', hm, hf, hentry, hperm⟩
  · exact ⟨_, fs', by simp only [step, piRead, hlook], hfs', hstep⟩
  have hok := hfs'.ok _ _ hf
  have hread : ListStep root console (contents fs') (.read path size offset) _ (contents fs') :=
    .read hentry hperm
  rw [contents_of_eq hf, readList] at hread
  rw [Refines, ← hm]
  by_cases hin : offset.toNat ≤ f.nData
  · have hinside := (hok.inside_iff offset).mp hin
    rw [if_pos hinside, toNat_toInt hinside.1] at hread
    refine ⟨_, fs', ?_, hfs', hread⟩
    have hlen : min size (f.nData - offset.toNat) < 2 ^ 31 := by omega
    simp only [step, piRead, hlook, hf, Option.bind_eq_bind, Option.bind_some,
      if_neg (Nat.not_lt.mpr hin), loadBytes_bytes hok hin, asInt_eq hlen, List.length_take,
      List.length_drop, hok.length_bytes]
    rfl
  · rw [if_neg (mt (hok.inside_iff offset).mpr hin)] at hread
    refine ⟨_, fs', ?_, hfs', hread⟩
    simp only [step, piRead, hlook, hf]
    exact if_pos (by omega)

theorem piWrite_refines (hfs : FilesOk console fs) (path : List Byte) {buf : List Byte}
    (hsize : buf.length < 2 ^ 31) (offset : BitVec 64) (r : Allocator) :
    Refines root console fs (.write path buf offset r) := by
  rcases fileLookup_refines hfs (.write path buf offset r) rfl with
    ⟨retv, fs', hlook, hfs', hstep⟩ | ⟨e, fs', f, hlook, hfs', hm, hf, hentry, hperm⟩
  · exact ⟨_, fs', by simp only [step, piWrite, hlook], hfs', hstep⟩
  have hok := hfs'.ok _ _ hf
  have hbytes := contents_of_eq hf
  rw [Refines, ← hm]
  cases hwr : e.1.onWr with
  | true =>
    exact ⟨_, fs', by simp only [step, piWrite, hlook, hwr]; rfl, hfs', .handler hentry hperm hwr⟩
  | false =>
    have hinside := hok.inside_iff offset
    rw [← hbytes] at hinside
    by_cases hin : offset.toNat ≤ f.nData
    · have hnat := toNat_toInt (hinside.mp hin).1
      obtain ⟨retv, f', happend, hok', hcases⟩ := appendToFile_refines r hok hin hsize
      refine ⟨.returned retv [], _, ?_, hfs'.update hok' e.2, ?_⟩
      · simp only [step, piWrite, hlook, hwr, hf, Option.bind_eq_bind, Option.bind_some,
          if_neg (Nat.not_lt.mpr hin), happend]
        rfl
      rw [contents_update]
      rcases hcases with ⟨rfl, hdata⟩ | ⟨rfl, rfl, hrefuses⟩
      · have hwrite : ListStep root console (contents fs') (.write path buf offset r) _ _ :=
          .write hentry hperm hwr (hinside.mp hin)
        rw [writeList, if_pos (hinside.mp hin), hnat, hbytes] at hwrite
        rw [hdata]
        exact hwrite
      · rw [← hbytes, Function.update_eq_self]
        exact .writeFailed hentry hperm hwr (hinside.mp hin) (hnat ▸ hrefuses)
    · refine ⟨_, fs', ?_, hfs', .beyond hentry hperm hwr (mt hinside.mpr hin)⟩
      simp only [step, piWrite, hlook, hwr, hf, Option.bind_eq_bind, Option.bind_some,
        if_pos (Nat.lt_of_not_le hin)]
      rfl

theorem piTruncate_refines (hfs : FilesOk console fs) (path : List Byte) (length : BitVec 64) :
    Refines root console fs (.truncate path length) := by
  rcases fileLookup_refines hfs (.truncate path length) rfl with
    ⟨retv, fs', hlook, hfs', hstep⟩ | ⟨e, fs', f, hlook, hfs', hm, hf, hentry, hperm⟩
  · exact ⟨_, fs', by simp only [step, piTruncate, hlook], hfs', hstep⟩
  have hok := hfs'.ok _ _ hf
  have htrunc : ListStep root console (contents fs') (.truncate path length) _ _ :=
    .truncate hentry hperm
  rw [contents_of_eq hf, truncateList] at htrunc
  rw [Refines, ← hm]
  have hcond : (0 ≤ length.toInt ∧ length.toInt < f.bytes.length) ↔ length.toNat < f.nData := by
    rw [hok.length_bytes, BitVec.toInt_eq_toNat_cond]
    have hle := hok.le
    have hlt := hok.lt
    have := length.isLt
    split <;> omega
  by_cases hlt : length.toNat < f.nData
  · rw [if_pos (hcond.mpr hlt), toNat_toInt (hcond.mpr hlt).1] at htrunc
    have hcut : FileT.Ok ⟨f.data, f.nAlloc, length.toNat⟩ :=
      ⟨hok.length, Nat.le_trans (Nat.le_of_lt hlt) hok.le, hok.lt⟩
    refine ⟨.returned 0 [], Function.update fs' e.2 (some ⟨f.data, f.nAlloc, length.toNat⟩), ?_,
      hfs'.update hcut e.2, ?_⟩
    · simp only [step, piTruncate, hlook, hf, Option.bind_eq_bind, Option.bind_some, if_pos hlt]
      rfl
    · rw [contents_update]
      convert htrunc using 2
      rw [FileT.bytes, FileT.bytes, List.take_take, Nat.min_eq_left (Nat.le_of_lt hlt)]
  · rw [if_neg (mt hcond.mp hlt)] at htrunc
    refine ⟨.returned 0 [], Function.update fs' e.2 (some f), ?_, hfs'.update hok e.2, ?_⟩
    · simp only [step, piTruncate, hlook, hf, Option.bind_eq_bind, Option.bind_some, if_neg hlt]
      rfl
    · rw [contents_update]
      exact htrunc

theorem wrConsole_refines (hfs : FilesOk console fs) (i : BitVec 32) (r : Allocator) :
    Refines root console fs (.console i r) := by
  obtain ⟨f, hf⟩ := hfs.console
  have hok := hfs.ok _ _ hf
  have hnat : (BitVec.ofNat 64 f.nData).toNat = f.nData := by
    have hle := hok.le
    have hlt := hok.lt
    rw [BitVec.toNat_ofNat, Nat.mod_eq_of_lt (by omega)]
  have hone : [(i.setWidth 8 : Byte)].length < 2 ^ 31 := show 1 < 2 ^ 31 by decide
  obtain ⟨retv, f', happend, hok', hcases⟩ :=
    appendToFile_refines r hok (Nat.le_of_eq hnat) hone
  refine ⟨.returned 0 [], _, ?_, hfs.update hok' console, ?_⟩
  · simp only [step, wrConsole, hf, Option.bind_eq_bind, Option.bind_some, happend]
    rfl
  rw [contents_update]
  have hbytes := contents_of_eq hf
  rw [hnat, ← hok.length_bytes, ← hbytes] at hcases
  rcases hcases with ⟨-, hdata⟩ | ⟨-, rfl, hrefuses⟩
  · rw [List.take_length, List.drop_eq_nil_of_le (by omega), List.append_nil] at hdata
    rw [hdata]
    exact .console
  · rw [← hbytes, Function.update_eq_self]
    exact .consoleFailed hrefuses

end Refinement

section Runs

variable {root : List Dirent} {console : ℕ} {fs : Files}

/-- The `size` an operation passes to `pi_read` or `pi_write`. -/
def Op.size : Op → ℕ
  | .read _ size _ => size
  | .write _ buf _ _ => buf.length
  | _ => 0

theorem step_refines (hfs : FilesOk console fs) (op : Op) (hsize : op.size < 2 ^ 31) :
    Refines root console fs op := by
  cases op with
  | read path size offset => exact piRead_refines hfs path hsize offset
  | write path buf offset r => exact piWrite_refines hfs path hsize offset r
  | console i r => exact wrConsole_refines hfs i r
  | truncate path length => exact piTruncate_refines hfs path length

theorem run_refines (hfs : FilesOk console fs) (ops : List Op) (hsize : ∀ op ∈ ops, op.size < 2 ^ 31) :
    ∃ outs fs', run root console fs ops = some (outs, fs') ∧ FilesOk console fs' ∧
      ListRun root console (contents fs) ops outs (contents fs') := by
  induction ops generalizing fs with
  | nil => exact ⟨[], fs, rfl, hfs, .nil⟩
  | cons op ops ih =>
    obtain ⟨hop, hops⟩ := List.forall_mem_cons.mp hsize
    have hrefines : Refines root console fs op := step_refines hfs op hop
    obtain ⟨out, fs₁, hstep, hfs₁, hlist⟩ := hrefines
    obtain ⟨outs, fs₂, hrun, hfs₂, hlists⟩ := ih hfs₁ hops
    exact ⟨out :: outs, fs₂, by simp [run, hstep, hrun], hfs₂, .cons hlist hlists⟩

/-- No file is longer than its block, and all are empty. -/
def Fresh (fs : Files) : Prop := AllOk fs ∧ contents fs = fun _ => []

theorem Fresh.assertLookup {path : List Byte} {e : Dirent × ℕ} {fs' : Files} (h : Fresh fs)
    (hlook : assertLookup root path fs = some (e, fs')) :
    Fresh fs' ∧ ∃ f, fs' e.2 = some f := by
  unfold Fuse.assertLookup entLookup at hlook
  cases hentry : entry root path with
  | none => simp [hentry] at hlook
  | some e' =>
    simp only [hentry, Option.some.injEq, Prod.mk.injEq] at hlook
    obtain ⟨rfl, rfl⟩ := hlook
    exact ⟨⟨h.1.allocate _, (contents_allocate _ _).trans h.2⟩, allocate_isSome _ _⟩

theorem start_fresh (h : start root = some (console, fs)) :
    FilesOk console fs ∧ contents fs = fun _ => [] := by
  have hnone : Fresh fun _ => none := ⟨fun i f hf => (nomatch hf), rfl⟩
  simp only [start, Option.bind_eq_bind, Option.bind_eq_some_iff, Prod.exists] at h
  obtain ⟨_, _, fs₁, h₁, _, _, fs₂, h₂, _, _, fs₃, h₃, _, _, fs₄, h₄, e, i, fs₅, h₅, heq⟩ := h
  cases heq
  obtain ⟨hfresh, f, hf⟩ := ((((hnone.assertLookup h₁).1.assertLookup h₂).1.assertLookup
    h₃).1.assertLookup h₄).1.assertLookup h₅
  exact ⟨⟨hfresh.1, f, hf⟩, hfresh.2⟩

/-- From the start of the program on, every sequence of operations does on the files what it does on
lists of bytes, whatever the allocator refuses, and no file is ever longer than its block. -/
theorem files_refine_lists (hstart : start root = some (console, fs)) (ops : List Op)
    (hsize : ∀ op ∈ ops, op.size < 2 ^ 31) :
    ∃ outs fs', run root console fs ops = some (outs, fs') ∧
      ListRun root console (fun _ => []) ops outs (contents fs') ∧
      ∀ i f, fs' i = some f → f.nData ≤ f.nAlloc := by
  obtain ⟨hfs, hempty⟩ := start_fresh hstart
  obtain ⟨outs, fs', hrun, hfs', hlist⟩ := run_refines hfs ops hsize
  rw [hempty] at hlist
  exact ⟨outs, fs', hrun, hlist, fun i f hf => (hfs'.ok i f hf).le⟩

end Runs

/-- The table of the program, with a character of the Pi's output and a read of the console. -/
theorem files_refine_lists_root : ∃ console fs, start root = some (console, fs) ∧
    ∃ outs fs', run root console fs
        [.console 65 fun _ => none, .read (lit "/console") 2 0] = some (outs, fs') ∧
      ListRun root console (fun _ => [])
        [.console 65 fun _ => none, .read (lit "/console") 2 0] outs (contents fs') ∧
      ∀ i f, fs' i = some f → f.nData ≤ f.nAlloc :=
  ⟨3, _, rfl, files_refine_lists (show start root = some (3, _) from rfl) _ (by simp [Op.size])⟩

end SimplePiOS.Fuse
