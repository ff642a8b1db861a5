import SimplePiOS.Kernel.Fs

/-! The directory part of disk/fat32-helpers.c and disk/fs.c, and disk/unicode-utf8.c: an
array of 32-byte entries is turned into dirents. -/
namespace SimplePiOS.Kernel
open Libpi

/-- `fat32_dir_t` and `lfn_dir_t`, two readings of the same 32 bytes. -/
abbrev Fat32Dir := Fin 32 → UInt8

/-- For the offsets in an entry. -/
instance neZeroEntry : NeZero 32 := ⟨by decide⟩

abbrev fat32LongFileName : UInt8 := 0x0f
abbrev fat32VolumeLabel : UInt8 := 0x08
abbrev fat32Dir : UInt8 := 0x10
abbrev fat32Archive : UInt8 := 0x20

/-- Sizes of the buffer in `lfn_get_name` and of `dirent_t.name`. -/
abbrev filenameSize : ℕ := 512
abbrev maxName : ℕ := 256

namespace Fat32Dir
variable (d : Fat32Dir)

def filename : List UInt8 := [d 0, d 1, d 2, d 3, d 4, d 5, d 6, d 7, d 8, d 9, d 10]
def attr : UInt8 := d 11
def reserved0 : UInt8 := d 12
def hiStart : ℕ := (d 20).toNat + 2 ^ 8 * (d 21).toNat
def loStart : ℕ := (d 26).toNat + 2 ^ 8 * (d 27).toNat
def fileNbytes : ℕ :=
  (d 28).toNat + 2 ^ 8 * (d 29).toNat + 2 ^ 16 * (d 30).toNat + 2 ^ 24 * (d 31).toNat

def seqno : UInt8 := d 0
def name1_5 : List UInt8 := [d 1, d 2, d 3, d 4, d 5, d 6, d 7, d 8, d 9, d 10]
def cksum : UInt8 := d 13
def name6_11 : List UInt8 :=
  [d 14, d 15, d 16, d 17, d 18, d 19, d 20, d 21, d 22, d 23, d 24, d 25]
def name12_13 : List UInt8 := [d 28, d 29, d 30, d 31]

/-- What the code takes for a part of a long name. -/
def IsLong : Prop := d.attr = fat32LongFileName

instance : Decidable d.IsLong := inferInstanceAs (Decidable (_ = _))

end Fat32Dir

/-- `assert` and `demand` in code without state. -/
def check (p : Prop) [Decidable p] (msg : String) : Except Stop Unit :=
  if p then .ok () else .error (.panic msg)

def isAttr (x flag : UInt8) : Prop := x &&& flag = flag

instance (x flag : UInt8) : Decidable (isAttr x flag) := inferInstanceAs (Decidable (_ = _))

def lfnChecksum (name : List UInt8) : UInt8 :=
  name.foldl (fun sum b => ((sum &&& 1) <<< 7) + (sum >>> 1) + b) 0

def lfnIsLast (seqno : UInt8) : Prop := seqno &&& 0x40 ≠ 0
def lfnIsFirst (seqno : UInt8) : Prop := seqno &&& 0xbf = 1
def lfnIsDeleted (seqno : UInt8) : Prop := seqno &&& 0xe5 = 0xe5

instance (n : UInt8) : Decidable (lfnIsLast n) := inferInstanceAs (Decidable (_ ≠ _))
instance (n : UInt8) : Decidable (lfnIsFirst n) := inferInstanceAs (Decidable (_ = _))
instance (n : UInt8) : Decidable (lfnIsDeleted n) := inferInstanceAs (Decidable (_ = _))

def fat32DirentFree (d : Fat32Dir) : Prop :=
  if d.IsLong then lfnIsDeleted d.seqno else d 0 = 0 ∨ d 0 = 0xe5

instance (d : Fat32Dir) : Decidable (fat32DirentFree d) := by
  unfold fat32DirentFree
  infer_instance

/-- `utf_t`. -/
structure Utf where
  mask : ℕ
  lead : ℕ
  beg : ℕ
  end_ : ℕ
  bitsStored : ℕ

def utf : List Utf := [
  ⟨0x3f, 0x80, 0, 0, 6⟩,
  ⟨0x7f, 0x00, 0, 0o177, 7⟩,
  ⟨0x1f, 0xc0, 0o200, 0o3777, 5⟩,
  ⟨0x0f, 0xe0, 0o4000, 0o177777, 4⟩,
  ⟨0x07, 0xf0, 0o200000, 0o4177777, 3⟩,
  ⟨0, 0, 0, 0, 0⟩]

/-- The position of the first range that has the code point in it. The table ends with an entry
where the loops wait for a null pointer, so if there is none they read on behind it: `none`, about
which C says nothing. Position 5 is never the first, so `-1` does not come back. -/
def codepointLen (cp : ℕ) : Option ℕ := utf.findIdx? fun u => u.beg ≤ cp ∧ cp ≤ u.end_

/-- Byte `i` of the encoding in `bytes` bytes. -/
def utf8Byte (cp bytes i : ℕ) : UInt8 :=
  let u := utf.getD (if i = 0 then bytes else 0) ⟨0, 0, 0, 0, 0⟩
  UInt8.ofNat ((cp >>> (6 * (bytes - 1 - i))) &&& u.mask ||| u.lead)

/-- For code point 0 it shifts by a negative count, about which C says nothing either. -/
def toUtf8 (cp : ℕ) : Option (List UInt8) :=
  match codepointLen cp with
  | some (k + 1) => some ((List.range (k + 1)).map (utf8Byte cp (k + 1)))
  | _ => none

def lfnTerminator (x0 x1 : UInt8) : Prop := (x0 = 0 ∧ x1 = 0) ∨ (x0 = 0xff ∧ x1 = 0xff)

instance (x0 x1 : UInt8) : Decidable (lfnTerminator x0 x1) := inferInstanceAs (Decidable (_ ∨ _))

/-- `strcat` at the end of the name so far, which with its terminator has the whole buffer. -/
def strcatName (buf utf8 : List UInt8) : Except Stop (List UInt8) :=
  if buf.length + utf8.length < filenameSize then .ok (buf ++ utf8)
  else .error (.clobber filenameSize)

/-- Units are two bytes, the low one first. -/
def utf8Append (buf : List UInt8) : List UInt8 → Except Stop (List UInt8)
  | x0 :: x1 :: unicode =>
    if lfnTerminator x0 x1 then .ok buf
    else
      match toUtf8 (x0.toNat ||| x1.toNat <<< 8) with
      | some utf8 => do
        let buf ← strcatName buf utf8
        utf8Append buf unicode
      | none => .error (.clobber 0)
  | _ => .ok buf

def utf8AppendEntry (buf : List UInt8) (l : Fat32Dir) : Except Stop (List UInt8) := do
  check l.IsLong "l->attr == FAT32_LONG_FILE_NAME"
  let buf ← utf8Append buf l.name1_5
  let buf ← utf8Append buf l.name6_11
  utf8Append buf l.name12_13

/-- The entries are taken from the last one back. -/
def lfnGetName (s : List Fat32Dir) : Except Stop (List UInt8) := s.reverse.foldlM utf8AppendEntry []

/-- `strcpy` into a `dirent_t`. -/
def strcpyName (name : List UInt8) : Except Stop (List UInt8) :=
  if name.length < maxName then .ok name else .error (.clobber maxName)

def lowerCase (lowerCaseP : Bool) (c : UInt8) : UInt8 :=
  if lowerCaseP ∧ 0x41 ≤ c ∧ c ≤ 0x5a then c + 32 else c

/-- The string a buffer holds; names are such strings. -/
def cString (buf : List UInt8) : List UInt8 := buf.takeWhile (· ≠ 0)

/-- Spaces of the base are skipped, those of the extension are not. -/
def shortName (d : Fat32Dir) : List UInt8 :=
  let lowerCaseP : Bool := d.reserved0 = 0x18
  cString (((d.filename.take 8).filter (· ≠ 0x20)).map (lowerCase lowerCaseP) ++ [0x2e] ++
    (d.filename.drop 8).map (lowerCase lowerCaseP))

/-- The name of the entry `d`, the entries `rest` being behind it, and how far behind `d` the
entry with the file's data is. -/
def fat32DirFilename (d : Fat32Dir) (rest : List Fat32Dir) : Except Stop (List UInt8 × ℕ) := do
  check (¬ fat32DirentFree d) "!fat32_dirent_free(d)"
  if d.IsLong then
    let group := d :: rest.takeWhile (·.IsLong)
    match rest.dropWhile (·.IsLong) with
    | [] => .error (.panic "cnt < n")
    | e :: _ =>
      check (isAttr e.attr fat32Dir ∨ isAttr e.attr fat32Archive)
        "is_attr(d[cnt].attr, FAT32_DIR) || is_attr(d[cnt].attr, FAT32_ARCHIVE)"
      let filename ← lfnGetName group
      let name ← strcpyName filename
      return (name, group.length)
  else
    check (isAttr d.attr fat32Dir ∨ isAttr d.attr fat32Archive ∨ isAttr d.attr fat32VolumeLabel)
      "is_attr(x, FAT32_DIR) || is_attr(x, FAT32_ARCHIVE) || is_attr(x, FAT32_VOLUME_LABEL)"
    return (shortName d, 0)

/-- Neither free nor a part of a long name. -/
def Fat32Dir.Live (d : Fat32Dir) : Prop := ¬ fat32DirentFree d ∧ ¬ d.IsLong

instance (d : Fat32Dir) : Decidable d.Live := inferInstanceAs (Decidable (_ ∧ _))

def fat32DirCntEntries (d : List Fat32Dir) : ℕ := d.countP (·.Live)

/-- The fields that are taken over as they are. -/
def direntOf (name : List UInt8) (d : Fat32Dir) : Dirent where
  name := name
  clusterId := (d.hiStart * 2 ^ 16 + d.loStart) % 2 ^ 32
  isDirP := d.attr &&& fat32Dir ≠ 0
  nbytes := d.fileNbytes

/-- The loop of `fat32_to_dirent`; `dirs` is what has been filled of an array of `n`. -/
def fillDirents (n : ℕ) (dirs : List Dirent) : List Fat32Dir → Except Stop (List Dirent)
  | [] => .ok dirs
  | d :: rest =>
    if fat32DirentFree d then fillDirents n dirs rest
    else do
      check (dirs.length + 1 ≤ n) "used <= p.n"
      let (name, cnt) ← fat32DirFilename d rest
      fillDirents n (dirs ++ [direntOf name ((d :: rest).getD cnt d)]) (rest.drop cnt)
  termination_by l => l.length

/-- `pi_dir_t`. -/
structure PiDir where
  dirs : List Dirent
  n : ℕ
  deriving DecidableEq

/-- `fat32_to_dirent`; the array comes from `kmalloc`. -/
def fat32ToDirent (d : List Fat32Dir) : Except Stop PiDir := do
  let n := fat32DirCntEntries d
  let dirs ← fillDirents n [] d
  return ⟨dirs, n⟩

/-- `strcmp` of two names is zero. -/
def dirLookup (dirs : List Dirent) (name : List UInt8) : Option Dirent :=
  dirs.find? fun e => e.name = name

end SimplePiOS.Kernel
