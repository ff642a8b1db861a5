import SimplePiOS.Libpi.Uart

/-! The two shells: `do_builtin_cmd` of the Unix side, and the command loop of the kernel. -/
namespace SimplePiOS.Shell
open Lib Lib.Fifo Libpi

/-- The bytes of a C string literal. -/
def lit (s : String) : List Byte := s.toList.map fun c => BitVec.ofNat 8 c.toNat

def newline : Byte := 10
def slash : Byte := 47

def putBytes (bs : List Byte) : Prog Byte Unit := forM bs sendByte

section Host

/-- Where `do_builtin_cmd` is or how it ended: `echoing` is the loop of `echo_until`, with the
position of its matcher. -/
inductive Host where
  | returned (code : ℕ)
  | panicked (msg : String)
  | exited
  | echoing (pos : ℕ)
  deriving DecidableEq

/-- What the Pi sends at the end of a command. -/
def cmdDone : List Byte := lit "CMD-DONE\n"
def hostPiDone : List Byte := lit "PI REBOOT!!!"

/-- `fsm_chr_done`: the new position, or `none` when the whole string has been seen. A mismatch
starts again at the next character. -/
def fsmChrDone (msg : List Byte) (pos : ℕ) (c : Byte) : Option ℕ :=
  if msg[pos]? ≠ some c then some 0
  else if pos + 1 = msg.length then none
  else some (pos + 1)

/-- One turn of the loop of `echo_until`. -/
def nextHost : Host → Option (Prog Byte Host)
  | .echoing pos => some <| do
    let c ← getByte
    match fsmChrDone cmdDone pos c with
    | none => return .returned 1
    | some pos => return .echoing pos
  | _ => none

def echoUntil : Prog Byte Host := return .echoing 0

def piPut (buf : List Byte) (p : Prog Byte Host) : Prog Byte Host := do
  if buf.length = 0 then return .panicked "sending 0 byte string"
  else
    putBytes buf
    p

/-- `pi_readline` into a buffer with room for `sz` more characters. -/
def piReadline : ℕ → List Byte → (List Byte → Prog Byte Host) → Prog Byte Host
  | 0, _, _ => return .panicked "too big!"
  | sz + 1, buf, k => do
    let c ← getByte
    if c = newline then k buf else piReadline sz (buf ++ [c]) k

/-- The arguments with blanks between them and a newline behind. -/
def putArgs : List (List Byte) → Prog Byte Host → Prog Byte Host
  | [], p => p
  | [arg], p => piPut arg <| piPut [newline] p
  | arg :: args, p => piPut arg <| piPut (lit " ") <| putArgs args p

/-- What `echo` adds up while it sends: `strnlen(argv[i], 256) + 1` each, and one. -/
def echoSize (argv : List (List Byte)) : ℕ := (argv.map fun arg => min arg.length 256 + 1).sum + 1

def sendReboot : Prog Byte Host :=
  piPut (lit "reboot\n") <| piReadline 256 [] fun buf =>
    if buf = hostPiDone then return .exited else return .panicked "unexpected reboot response"

/-- A command of one argument, as `ls`, `cat` and `run`. -/
def putCommand (name : String) (argv : List (List Byte)) : Prog Byte Host :=
  match argv with
  | [_, path] => piPut (lit name ++ lit " ") <| piPut path <| piPut [newline] echoUntil
  | _ => return .returned 1

def doBuiltinCmd (argv : List (List Byte)) : Prog Byte Host :=
  match argv with
  | [] => return .returned 0
  | cmd :: _ =>
    if cmd = lit "echo" then
      putArgs argv <|
        if echoSize argv > 256 then return .panicked "echo payload is too big"
        else piReadline 256 [] fun _ => return .returned 1
    else if cmd = lit "ls" then putCommand "ls" argv
    else if cmd = lit "cat" then putCommand "cat" argv
    else if cmd = lit "run" then putCommand "run" argv
    else if cmd = lit "reboot" then sendReboot
    else return .returned 0

end Host

section Pi

/-- A call of kernel code: what it prints, and its result if it returns at all. -/
structure Call (α : Type) where
  printed : List Byte
  result : Option α

instance : Monad Call where
  pure a := ⟨[], some a⟩
  bind c f :=
    match c.result with
    | none => ⟨c.printed, none⟩
    | some a => ⟨c.printed ++ (f a).printed, (f a).result⟩

/-- A C string ends at its first NUL. -/
def cString (s : List Byte) : List Byte := s.takeWhile (· ≠ 0)

/-- `printk` formats into a buffer of 1024 bytes and drops the rest. -/
def printk (s : List Byte) : Call Unit := ⟨(cString s).take 1023, some ()⟩

/-- The file system and the programs on it, as far as the shell sees them: any of these calls
may print, and may not return. -/
structure Files (Dirent : Type) where
  isDirP : Dirent → Bool
  pathLookup : List Byte → Call (Option Dirent)
  readDir : Option Dirent → Call (List (List Byte))
  readFile : Dirent → Call (List Byte)
  execFile : Dirent → Call Unit

variable {Dirent : Type} (fs : Files Dirent)

def doLs (path : List Byte) : Call Unit := do
  if path.head? ≠ some slash then printk (lit "Expected absolute path\n")
  else
    printk (path ++ lit ":\n")
    if path.tail = [] then
      let names ← fs.readDir none
      forM names fun name => printk (name ++ [newline])
    else
      match ← fs.pathLookup path.tail with
      | none => return ()
      | some entry =>
        if !fs.isDirP entry then printk (path ++ lit " is not a directory\n")
        else
          let names ← fs.readDir (some entry)
          forM names fun name => printk (name ++ [newline])

def doRead (path : List Byte) : Call Unit := do
  if path.head? ≠ some slash then printk (lit "Expected absolute path\n")
  else
    printk (path ++ lit ":\n")
    if path.tail = [] then return ()
    else
      match ← fs.pathLookup path.tail with
      | none => printk (path ++ lit " is a directory\n")
      | some entry =>
        if fs.isDirP entry then printk (path ++ lit " is a directory\n")
        else
          let text ← fs.readFile entry
          printk (cString text ++ [newline])

def doRun (path : List Byte) : Call Unit := do
  if path.head? ≠ some slash then printk (lit "Expected absolute path\n")
  else
    printk (path ++ lit ":\n")
    if path.tail = [] then return ()
    else
      match ← fs.pathLookup path.tail with
      | none => printk (path ++ lit " is a directory\n")
      | some entry =>
        if fs.isDirP entry then printk (path ++ lit " is a directory\n")
        else fs.execFile entry

/-- The kernel is back at the top of its command loop, or it has panicked, rebooted or is
stuck. -/
inductive Loop where
  | ready
  | dead
  deriving DecidableEq

def runCall (c : Call Unit) : Prog Byte Loop := do
  putBytes c.printed
  match c.result with
  | none => return .dead
  | some () => return .ready

/-- `readline` with room for `sz` more characters; `none` when there is none. -/
def readline : ℕ → List Byte → Prog Byte (Option (List Byte))
  | 0, _ => return none
  | sz + 1, buf => do
    let c ← getByte
    if c = newline then return some buf else readline sz (buf ++ [c])

/-- `strncmp(buf, s, strlen(s)) == 0`. -/
def startsWith (buf : List Byte) (s : String) : Prop := lit s <+: cString buf

instance (buf : List Byte) (s : String) : Decidable (startsWith buf s) :=
  inferInstanceAs (Decidable (lit s <+: cString buf))

/-- The commands; `load` is the branch that loads and runs a program from the Unix side. -/
def dispatch (load : Prog Byte Loop) (buf : List Byte) : Prog Byte Loop :=
  if startsWith buf "echo " then runCall (printk (buf.drop 5 ++ [newline]))
  else if cString buf = lit "reboot" then runCall ⟨lit "PI REBOOT!!!\n", none⟩
  else if startsWith buf "ls " then
    runCall do
      doLs fs (cString (buf.drop 3))
      printk cmdDone
  else if startsWith buf "cat " then
    runCall do
      doRead fs (cString (buf.drop 4))
      printk cmdDone
  else if startsWith buf "run " then
    runCall do
      doRun fs (cString (buf.drop 4))
      printk cmdDone
  else if startsWith buf "load" then load
  else return .ready

/-- One turn of the command loop of `notmain`. -/
def command (load : Prog Byte Loop) : Prog Byte Loop := do
  match ← readline 1024 [] with
  | none => runCall ⟨lit "PANIC:shell.c:readline:30:size too small\n\n", none⟩
  | some buf =>
    if buf = [] then runCall ⟨lit "DONE!!!\n", none⟩ else dispatch fs load buf

end Pi
end SimplePiOS.Shell
