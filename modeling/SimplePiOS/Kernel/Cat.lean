import SimplePiOS.Kernel.ExecRun
import SimplePiOS.Kernel.HeapLimit
import SimplePiOS.Libpi.Printf

/-! The end of `do_read`: the file it found is read, and `printk` gets it for a string. -/
namespace SimplePiOS.Kernel
open Lib Libpi

def newline : UInt8 := '\n'.toUInt8

/-- The bytes `va_printk` reads of a string at `a` when it has room for so many. -/
def cstringAt (a : ℕ) : ℕ → Kern (List UInt8)
  | 0 => return []
  | room + 1 => do
    let c ← mmu.load a
    if c = 0 then return []
    let cs ← cstringAt (a + 1) room
    return c :: cs

/-- `sizeof buf` in `printk`. -/
abbrev printkSize : ℕ := 1024

/-- `for(i = 0; buf[i]; i++) rpi_putchar(buf[i])`. -/
def sentBytes (buf : ℕ → UInt8) : List UInt8 :=
  ((List.range printkSize).map buf).takeWhile (· ≠ 0)

/-- `printk("%s\n", s)`: what it sends. `buf` is what an earlier call left there. -/
def printkLine (buf : ℕ → UInt8) (s : ℕ) : Kern (List UInt8) := do
  let str ← cstringAt s (printkSize - 1)
  match vaPrintk buf printkSize ['%'.toUInt8, 's'.toUInt8, newline] [.str (cstr str)] with
  | .ok (_, out) => return sentBytes out
  | .error _ => throw (.panic "printk")

/-- `do_read` from the entry it looked up, up to the bytes it sends. The `pi_file_t` is passed
by value, so the word `va_arg` takes for the string is its first one, `data`. -/
def doReadEntry (disk : Disk) (fuel : ℕ) (fs : Fat32) (entry : Dirent) (buf : ℕ → UInt8) :
    Kern (List UInt8) := do
  let file ← fat32ReadFile kernel disk fuel fs entry
  printkLine buf file.data

section Line
variable {s t : Machine} {a room : ℕ} {str bs : List UInt8}

/-- A string at `a`, or its first `room` bytes. -/
structure IsCString (s : Machine) (a room : ℕ) (str : List UInt8) : Prop where
  holds : s.Holds a str
  ne_zero : (0 : UInt8) ∉ str
  ends : str.length = room ∨ str.length < room ∧ s.view (a + str.length) = some 0

theorem holds_nil (s : Machine) (a : ℕ) : s.Holds a [] := by
  intro i b hb
  cases hb

theorem IsCString.cons {c : UInt8} : IsCString s a (room + 1) (c :: str) ↔
    s.view a = some c ∧ c ≠ 0 ∧ IsCString s (a + 1) room str := by
  have hshift : ∀ i, a + 1 + i = a + (i + 1) := by
    intro i
    omega
  constructor
  · intro h
    obtain ⟨hc, hstr⟩ := not_or.mp (List.mem_cons.not.mp h.ne_zero)
    refine ⟨h.holds 0 c rfl, Ne.symm hc, ⟨?_, hstr, ?_⟩⟩
    · intro i b hb
      rw [hshift]
      exact h.holds (i + 1) b hb
    · rw [hshift]
      have hends := h.ends
      rw [List.length_cons] at hends
      rcases hends with hlen | ⟨hlen, hzero⟩
      · exact .inl (Nat.succ_injective hlen)
      · exact .inr ⟨Nat.lt_of_succ_lt_succ hlen, hzero⟩
  · rintro ⟨hview, hc, h⟩
    refine ⟨?_, ?_, ?_⟩
    · intro i b hb
      cases i with
      | zero =>
        cases hb
        exact hview
      | succ i =>
        rw [← hshift]
        exact h.holds i b hb
    · exact List.mem_cons.not.mpr (not_or.mpr ⟨Ne.symm hc, h.ne_zero⟩)
    · rw [List.length_cons, ← hshift]
      rcases h.ends with hlen | ⟨hlen, hzero⟩
      · exact .inl (congrArg Nat.succ hlen)
      · exact .inr ⟨Nat.succ_lt_succ hlen, hzero⟩

theorem IsCString.nil : IsCString s a (room + 1) [] ↔ s.view a = some 0 := by
  constructor
  · intro h
    rcases h.ends with hlen | ⟨-, hzero⟩
    · cases hlen
    · exact hzero
  · intro h
    exact ⟨holds_nil s a, by simp, .inr ⟨Nat.succ_pos room, h⟩⟩

/-- What is read is the string, and nothing else happens. -/
theorem cstringAt_ok_iff : (cstringAt a room).run s = .ok str t ↔ IsCString s a room str ∧ t = s := by
  induction room generalizing a str t with
  | zero =>
    constructor
    · intro h
      cases h
      exact ⟨⟨holds_nil s a, by simp, .inl rfl⟩, rfl⟩
    · rintro ⟨h, rfl⟩
      have hnil : str = [] := by
        rcases h.ends with hlen | ⟨hlen, -⟩
        · exact List.length_eq_zero_iff.mp hlen
        · exact absurd hlen (Nat.not_lt_zero _)
      subst hnil
      rfl
  | succ room ih =>
    have hload : (mmu.load a).run s = _ := run_loadByte a s
    unfold cstringAt
    cases hview : s.view a with
    | none =>
      rw [hview] at hload
      rw [bind_error hload]
      constructor
      · intro h
        cases h
      · rintro ⟨h, -⟩
        cases str with
        | nil =>
          rw [IsCString.nil.mp h] at hview
          cases hview
        | cons c str =>
          rw [(IsCString.cons.mp h).1] at hview
          cases hview
    | some c =>
      rw [hview] at hload
      rw [bind_ok hload]
      by_cases hc : c = 0
      · rw [if_pos hc]
        subst hc
        constructor
        · intro h
          cases h
          exact ⟨IsCString.nil.mpr hview, rfl⟩
        · rintro ⟨h, rfl⟩
          cases str with
          | nil => rfl
          | cons c str =>
            obtain ⟨hview', hc, -⟩ := IsCString.cons.mp h
            rw [hview] at hview'
            exact absurd (Option.some.inj hview').symm hc
      · rw [if_neg hc]
        constructor
        · intro h
          obtain ⟨cs, s', hrest, hret⟩ := of_bind_ok h
          obtain ⟨hcs, rfl⟩ := ih.mp hrest
          cases hret
          exact ⟨IsCString.cons.mpr ⟨hview, hc, hcs⟩, rfl⟩
        · rintro ⟨h, rfl⟩
          cases str with
          | nil =>
            rw [IsCString.nil.mp h] at hview
            exact absurd (Option.some.inj hview).symm hc
          | cons d str =>
            obtain ⟨hview', -, hcs⟩ := IsCString.cons.mp h
            rw [hview] at hview'
            cases hview'
            rw [bind_ok (ih.mpr ⟨hcs, rfl⟩)]
            rfl

/-- A string without its NUL, as the format's one conversion prints it. -/
def lineItems (str : List UInt8) (h : (0 : UInt8) ∉ str) : List Item :=
  [.str ⟨[], by simp, by decide⟩ ⟨cstr str, str.length, by
      intro i hi hzero
      apply h
      rw [cstr, List.getD_eq_getElem?_getD, List.getElem?_eq_getElem hi] at hzero
      rw [← hzero]
      exact List.getElem_mem hi, by
      rw [cstr, List.getD_eq_getElem?_getD, List.getElem?_eq_none le_rfl]
      rfl⟩,
   .lit newline (by decide)]

theorem expansion_lineItems (h : (0 : UInt8) ∉ str) :
    expansion (lineItems str h) = str ++ [newline] := by
  have hchars : (List.range str.length).map (cstr str) = str := by
    apply List.ext_getElem
    · simp
    · intro i hi hi'
      rw [List.getElem_map, List.getElem_range, cstr, List.getD_eq_getElem?_getD,
        List.getElem?_eq_getElem hi']
      rfl
  change (List.range str.length).map (cstr str) ++ ([newline] ++ []) = _
  rw [hchars, List.append_nil]

theorem newline_ne_zero : newline ≠ 0 := by decide

/-- A buffer with a NUL behind bytes that are none. -/
theorem sentBytes_eq {out : ℕ → UInt8} (hlen : bs.length < printkSize) (h : (0 : UInt8) ∉ bs)
    (hbs : ∀ i b, bs[i]? = some b → out i = b) (hend : out bs.length = 0) : sentBytes out = bs := by
  obtain ⟨rest, hrest⟩ : ∃ rest, printkSize - bs.length = rest + 1 :=
    ⟨printkSize - bs.length - 1, by omega⟩
  have hsplit : printkSize = bs.length + (rest + 1) := by omega
  have hfirst : (List.range bs.length).map out = bs := by
    apply List.ext_getElem
    · simp
    · intro i hi hi'
      rw [List.getElem_map, List.getElem_range]
      exact hbs i _ (List.getElem?_eq_getElem hi')
  have hne : ∀ b ∈ bs, decide (b ≠ 0) = true := by
    intro b hb
    apply decide_eq_true
    intro hzero
    exact h (hzero ▸ hb)
  unfold sentBytes
  rw [hsplit, List.range_add, List.map_append, hfirst, List.takeWhile_append_of_pos hne,
    List.range_succ_eq_map]
  simp [hend]

/-- What `printk` sends of a string: what it read of it and the newline, up to its buffer. -/
theorem printkLine_ok_iff {buf : ℕ → UInt8} {sent : List UInt8} :
    (printkLine buf a).run s = .ok sent t ↔ ∃ str, IsCString s a (printkSize - 1) str ∧
      sent = (str ++ [newline]).take (printkSize - 1) ∧ t = s := by
  have hprints : ∀ str, (0 : UInt8) ∉ str → ∃ out,
      vaPrintk buf printkSize ['%'.toUInt8, 's'.toUInt8, newline] [.str (cstr str)] =
        .ok (min (printkSize - 1) (str ++ [newline]).length + 1, out) ∧
      sentBytes out = (str ++ [newline]).take (printkSize - 1) := by
    intro str hstr
    have hprint := vaPrintk_eq printkSize (lineItems str hstr) buf
    rw [expansion_lineItems hstr] at hprint
    refine ⟨_, hprint, ?_⟩
    have hlen : ((str ++ [newline]).take (printkSize - 1)).length =
        min (printkSize - 1) (str ++ [newline]).length := List.length_take
    apply sentBytes_eq
    · rw [hlen]
      exact Nat.lt_of_le_of_lt (Nat.min_le_left _ _) (by decide)
    · intro hmem
      rcases List.mem_append.mp (List.mem_of_mem_take hmem) with hin | hin
      · exact hstr hin
      · exact newline_ne_zero (List.mem_singleton.mp hin).symm
    · intro i b hb
      have hi := (List.getElem?_eq_some_iff.mp hb).1
      rw [hlen] at hi
      rw [if_neg (Nat.ne_of_lt hi), List.getD_eq_getElem?_getD, hb]
      rfl
    · rw [hlen]
      exact if_pos rfl
  unfold printkLine
  constructor
  · intro h
    obtain ⟨str, s', hread, hprint⟩ := of_bind_ok h
    obtain ⟨hstr, rfl⟩ := cstringAt_ok_iff.mp hread
    obtain ⟨out, hout, hsent⟩ := hprints str hstr.ne_zero
    rw [hout] at hprint
    obtain ⟨rfl, rfl⟩ := EStateM.Result.ok.inj hprint
    exact ⟨str, hstr, hsent, rfl⟩
  · rintro ⟨str, hstr, rfl, rfl⟩
    obtain ⟨out, hout, hsent⟩ := hprints str hstr.ne_zero
    rw [bind_ok (cstringAt_ok_iff.mpr ⟨hstr, rfl⟩), hout, ← hsent]
    rfl

/-- A line is sent whole exactly if its text has no NUL, one stands behind it, and the buffer
has room; or the newline is there already and fills the buffer. -/
theorem printkLine_whole_iff (buf : ℕ → UInt8) (h : s.Holds a bs) :
    (∃ t, (printkLine buf a).run s = .ok (bs ++ [newline]) t) ↔
      (0 : UInt8) ∉ bs ∧
        (bs.length + 1 < printkSize ∧ s.view (a + bs.length) = some 0 ∨
          bs.length + 2 = printkSize ∧ s.view (a + bs.length) = some newline) := by
  have hsize : printkSize = 1024 := rfl
  constructor
  · rintro ⟨t, hrun⟩
    obtain ⟨str, hstr, hsent, -⟩ := printkLine_ok_iff.mp hrun
    have hne : (0 : UInt8) ∉ str ++ [newline] := by
      intro hmem
      rcases List.mem_append.mp hmem with hin | hin
      · exact hstr.ne_zero hin
      · exact newline_ne_zero (List.mem_singleton.mp hin).symm
    have hnone : (0 : UInt8) ∉ bs := by
      intro hmem
      apply hne
      apply List.mem_of_mem_take (i := printkSize - 1)
      rw [← hsent]
      exact List.mem_append_left _ hmem
    refine ⟨hnone, ?_⟩
    rcases hstr.ends with hlen | ⟨hlen, hzero⟩
    · right
      have htake : (str ++ [newline]).take (printkSize - 1) = str := by
        rw [← hlen]
        exact List.take_left
      rw [htake] at hsent
      rw [← hsent, List.length_append, List.length_singleton] at hlen
      refine ⟨by omega, ?_⟩
      have hholds := hstr.holds
      rw [← hsent] at hholds
      apply hholds
      simp
    · left
      have htake : (str ++ [newline]).take (printkSize - 1) = str ++ [newline] := by
        apply List.take_of_length_le
        rw [List.length_append, List.length_singleton]
        omega
      rw [htake] at hsent
      have hsame : bs = str := List.append_cancel_right hsent
      rw [hsame]
      exact ⟨by omega, hzero⟩
  · rintro ⟨hnone, ⟨hlen, hzero⟩ | ⟨hlen, hnl⟩⟩
    · refine ⟨s, printkLine_ok_iff.mpr ⟨bs, ⟨h, hnone, .inr ⟨by omega, hzero⟩⟩, ?_, rfl⟩⟩
      rw [List.take_of_length_le]
      rw [List.length_append, List.length_singleton]
      omega
    · have hfull : (bs ++ [newline]).length = printkSize - 1 := by
        rw [List.length_append, List.length_singleton]
        omega
      refine ⟨s, printkLine_ok_iff.mpr ⟨bs ++ [newline], ⟨?_, ?_, .inl hfull⟩, ?_, rfl⟩⟩
      · intro i b hb
        by_cases hi : i < bs.length
        · rw [List.getElem?_append_left hi] at hb
          exact h i b hb
        · have hlt := (List.getElem?_eq_some_iff.mp hb).1
          rw [List.length_append, List.length_singleton] at hlt
          have hlast : i = bs.length := by omega
          subst hlast
          have hb' : newline = b := by simpa using hb
          rw [hnl, hb']
      · intro hmem
        rcases List.mem_append.mp hmem with hin | hin
        · exact hnone hin
        · exact newline_ne_zero (List.mem_singleton.mp hin).symm
      · rw [← hfull]
        exact List.take_left.symm

end Line

section File
variable {s t : Machine} {disk : Disk} {fuel : ℕ} {fs : Fat32} {entry : Dirent} {file : PiFile}

/-- The contents of a file that was read in. -/
def Machine.fileBytes (s : Machine) (file : PiFile) : List UInt8 :=
  (List.range file.nData).map fun i => (s.view (file.data + i)).getD 0

theorem length_fileBytes (s : Machine) (file : PiFile) :
    (s.fileBytes file).length = file.nData := by
  rw [Machine.fileBytes, List.length_map, List.length_range]

theorem fileBytes_getElem? (s : Machine) {file : PiFile} {i : ℕ} (hi : i < file.nData) :
    (s.fileBytes file)[i]? = some ((s.view (file.data + i)).getD 0) := by
  rw [Machine.fileBytes, List.getElem?_map, List.getElem?_range hi]
  rfl

/-- The checksum was taken of bytes that can be read. -/
theorem of_crc32Loop_ok {p n : ℕ} {crc r : BitVec 32}
    (hrun : (crc32Loop mmu p n crc).run s = .ok r t) :
    t = s ∧ ∀ i < n, ∃ b, s.view (p + i) = some b := by
  induction n generalizing p crc with
  | zero =>
    cases hrun
    exact ⟨rfl, fun i hi => absurd hi (Nat.not_lt_zero i)⟩
  | succ n ih =>
    have hload : (mmu.load p).run s = _ := run_loadByte p s
    unfold crc32Loop at hrun
    cases hview : s.view p with
    | none =>
      rw [hview] at hload
      rw [bind_error hload] at hrun
      cases hrun
    | some b =>
      rw [hview] at hload
      rw [bind_ok hload] at hrun
      obtain ⟨hsame, hrest⟩ := ih hrun
      refine ⟨hsame, ?_⟩
      intro i hi
      cases i with
      | zero => exact ⟨b, hview⟩
      | succ i =>
        rw [Nat.add_comm i, ← Nat.add_assoc]
        exact hrest i (Nat.lt_of_succ_lt_succ hi)

theorem holds_fileBytes (hrun : (fat32ReadFile kernel disk fuel fs entry).run s = .ok file t) :
    t.Holds file.data (t.fileBytes file) := by
  unfold fat32ReadFile at hrun
  obtain ⟨nClusters, s₁, -, hrun⟩ := of_bind_ok hrun
  obtain ⟨data, s₂, -, hrun⟩ := of_bind_ok hrun
  obtain ⟨_, s₃, -, hrun⟩ := of_bind_ok hrun
  obtain ⟨cksum, s₄, hcrc, hret⟩ := of_bind_ok hrun
  obtain ⟨r, s₅, hloop, hret'⟩ := of_bind_ok hcrc
  obtain ⟨rfl, hreadable⟩ := of_crc32Loop_ok hloop
  obtain ⟨-, rfl⟩ := EStateM.Result.ok.inj hret'
  obtain ⟨rfl, rfl⟩ := EStateM.Result.ok.inj hret
  intro i b hb
  have hi := (List.getElem?_eq_some_iff.mp hb).1
  rw [length_fileBytes] at hi
  obtain ⟨c, hc⟩ := hreadable i hi
  rw [fileBytes_getElem? _ hi] at hb
  change s₅.view (data + i) = some b
  rw [← hb]
  change s₅.view (data + i) = some ((s₅.view (data + i)).getD 0)
  rw [hc]
  rfl

/-- `cat` sends a file and a newline exactly if the file has no NUL, is short enough for the
buffer of `printk` and has a NUL behind it in memory; or it ends one byte before the buffer
does and what follows it is the newline. -/
theorem doRead_sends_file_iff (buf : ℕ → UInt8)
    (hread : (fat32ReadFile kernel disk fuel fs entry).run s = .ok file t) :
    (∃ u, (doReadEntry disk fuel fs entry buf).run s = .ok (t.fileBytes file ++ [newline]) u) ↔
      (0 : UInt8) ∉ t.fileBytes file ∧
        (file.nData + 1 < printkSize ∧ t.view (file.data + file.nData) = some 0 ∨
          file.nData + 2 = printkSize ∧ t.view (file.data + file.nData) = some newline) := by
  have hwhole := printkLine_whole_iff buf (holds_fileBytes hread)
  rw [length_fileBytes] at hwhole
  unfold doReadEntry
  rw [bind_ok hread]
  exact hwhole

/-- The bytes in question on the disk: the file's own, and the one behind it in its cluster. -/
theorem doRead_sends_chain_iff {e : ℕ} {size : FatSize} {cs : List ℕ} (buf : ℕ → UInt8)
    (h : HeapAt e s) (hchain : Chain fs size entry.clusterId cs) (hspc : 1 ≤ fs.sectorsPerCluster)
    (hfuel : cs.length < fuel)
    (hroom : s.cursor + cs.length * fs.sectorsPerCluster * 512 ≤
      (e + (freeSecs s.vm).card) * 2 ^ 20)
    (hdata : entry.nbytes < cs.length * fs.sectorsPerCluster * 512) :
    (∃ u, (doReadEntry disk fuel fs entry buf).run s =
        .ok ((chainBytes disk fs cs).take entry.nbytes ++ [newline]) u) ↔
      (0 : UInt8) ∉ (chainBytes disk fs cs).take entry.nbytes ∧
        (entry.nbytes + 1 < printkSize ∧ (chainBytes disk fs cs)[entry.nbytes]? = some 0 ∨
          entry.nbytes + 2 = printkSize ∧
            (chainBytes disk fs cs)[entry.nbytes]? = some newline) := by
  have hlimit := h.limit
  have hphys : nPhysPages = 512 := rfl
  obtain ⟨k, t, cksum, hread, -, -, -, -, -, -, hholds⟩ := fat32ReadFile_run disk fs size entry cs fuel
    h hchain hspc hfuel hroom (by omega) hdata.le
  have hlen : (chainBytes disk fs cs).length = cs.length * fs.sectorsPerCluster * 512 := by
    rw [length_chainBytes, Nat.mul_assoc]
  have hview : ∀ i, i < cs.length * fs.sectorsPerCluster * 512 →
      t.view (s.cursor + i) = (chainBytes disk fs cs)[i]? := by
    intro i hi
    have hi' : i < (chainBytes disk fs cs).length := by omega
    rw [List.getElem?_eq_getElem hi']
    exact hholds i _ (List.getElem?_eq_getElem hi')
  have hbytes : t.fileBytes ⟨s.cursor, cksum, cs.length * fs.sectorsPerCluster * 512,
      entry.nbytes⟩ = (chainBytes disk fs cs).take entry.nbytes := by
    apply List.ext_getElem?
    intro i
    by_cases hi : i < entry.nbytes
    · have hin : i < (chainBytes disk fs cs).length := by omega
      rw [fileBytes_getElem? t hi, List.getElem?_take_of_lt hi, hview i (by omega),
        List.getElem?_eq_getElem hin]
      rfl
    · rw [List.getElem?_eq_none, List.getElem?_eq_none]
      · rw [List.length_take]
        omega
      · rw [length_fileBytes]
        exact Nat.not_lt.mp hi
  have hsends := doRead_sends_file_iff buf hread
  rw [hbytes, hview _ hdata] at hsends
  exact hsends

/-- The one file of a disk with one sector is read by a kernel that has just started. -/
theorem sectorFile_read (bs : List UInt8) (hlen : bs.length ≤ 512) :
    ∃ s file t, notmainInit.run powerOn = .ok () s ∧
      (fat32ReadFile kernel (sectorDisk bs) 2 sectorFs (sectorFile bs)).run s = .ok file t ∧
      file.nData = bs.length ∧ t.fileBytes file = bs := by
  obtain ⟨s, hboot, h, hfree, hcur, -⟩ := notmainInit_run powerOn rfl
  have hchain : Chain sectorFs ⟨8, by decide⟩ 5 [5] := .last (by omega) (by decide) (by decide)
  have hcard : (freeSecs s.vm).card = 507 := by
    rw [hfree, Nat.card_Ico]
    rfl
  have hheap : kernelHeapAddr = 5 * 2 ^ 20 := rfl
  have hsize : [5].length * sectorFs.sectorsPerCluster * 512 = 512 := rfl
  obtain ⟨k, t, cksum, hread, -, -, -, -, -, -, hholds⟩ := fat32ReadFile_run (sectorDisk bs) sectorFs
    _ (sectorFile bs) [5] 2 h hchain (by decide) (by decide) (by rw [hsize]; omega)
    (by rw [hsize]; omega) (by rw [hsize]; exact hlen)
  refine ⟨s, _, t, hboot, hread, rfl, ?_⟩
  have hbytes := chainBytes_sectorDisk hlen
  apply List.ext_getElem?
  intro i
  by_cases hi : i < bs.length
  · have hbyte : (chainBytes (sectorDisk bs) sectorFs [5])[i]? = some bs[i] := by
      rw [← List.getElem?_take_of_lt hi, hbytes, List.getElem?_eq_getElem hi]
    rw [fileBytes_getElem? t hi, List.getElem?_eq_getElem hi]
    change some ((t.view (s.cursor + i)).getD 0) = _
    rw [hholds i _ hbyte]
    rfl
  · rw [List.getElem?_eq_none, List.getElem?_eq_none (Nat.not_lt.mp hi)]
    rw [length_fileBytes]
    exact Nat.not_lt.mp hi

/-- Two letters, and a disk that has zeros behind them. -/
def hiText : List UInt8 := ['h'.toUInt8, 'i'.toUInt8]

theorem doRead_sends_file_hi : ∃ s file t, notmainInit.run powerOn = .ok () s ∧
    (fat32ReadFile kernel (sectorDisk hiText) 2 sectorFs (sectorFile hiText)).run s = .ok file t ∧
    ((∃ u, (doReadEntry (sectorDisk hiText) 2 sectorFs (sectorFile hiText) fun _ => 0).run s =
        .ok (t.fileBytes file ++ [newline]) u) ↔
      (0 : UInt8) ∉ t.fileBytes file ∧
        (file.nData + 1 < printkSize ∧ t.view (file.data + file.nData) = some 0 ∨
          file.nData + 2 = printkSize ∧ t.view (file.data + file.nData) = some newline)) := by
  obtain ⟨s, file, t, hboot, hread, -⟩ := sectorFile_read hiText (by decide)
  exact ⟨s, file, t, hboot, hread, doRead_sends_file_iff _ hread⟩

/-- The letters with a NUL between them. -/
def splitText : List UInt8 := ['h'.toUInt8, 0, 'i'.toUInt8]

/-- Nothing is sent of what stands behind the NUL. -/
theorem splitText_cut : ∃ s file t, notmainInit.run powerOn = .ok () s ∧
    (fat32ReadFile kernel (sectorDisk splitText) 2 sectorFs (sectorFile splitText)).run s =
      .ok file t ∧ t.fileBytes file = splitText ∧
    ¬ ∃ u, (doReadEntry (sectorDisk splitText) 2 sectorFs (sectorFile splitText) fun _ => 0).run s =
      .ok (t.fileBytes file ++ [newline]) u := by
  obtain ⟨s, file, t, hboot, hread, -, hbytes⟩ := sectorFile_read splitText (by decide)
  refine ⟨s, file, t, hboot, hread, hbytes, ?_⟩
  intro hsent
  unfold doReadEntry at hsent
  rw [bind_ok hread, printkLine_whole_iff _ (holds_fileBytes hread), hbytes] at hsent
  exact hsent.1 (by decide)

end File
end SimplePiOS.Kernel
