import SimplePiOS.Lib.Talk
import SimplePiOS.Shell.Loader
import SimplePiOS.Shell.Markers
import SimplePiOS.Shell.Tokenize

/-! Whole sessions: the loop of the Unix-side shell and the command loop of the kernel. -/
namespace SimplePiOS.Shell
open Lib Lib.Fifo Lib.Runs Libpi
open Boot (ack eot)
open Lib.Matcher (feed restart)

section Host

/-- What the host waits for before its first prompt. -/
def readyMsg : List Byte := lit "READY\n"

/-- What `fgets` stores in the 8192 bytes of `buf`. -/
structure Typed where
  text : List Byte
  nonempty : text ≠ []
  noNul : 0 ∉ text
  fits : text.length < 8192

/-- The typed lines are followed by the end of the input, or by Control-C. -/
inductive Ending where
  | eof
  | interrupt
  deriving DecidableEq

/-- The tokens of a line. Its last character, most often the newline, is overwritten. -/
def argvOf (line : Typed) : Except Halt (List (List Byte)) := do
  let (nargs, argv, buf) ← tokenize (fun _ => none) 32 (line.text.dropLast ++ 0 :: 0 :: [])
  return (List.range nargs).map fun i => cString (buf.drop ((argv i).getD 0))

def isPiProg (prog : List Byte) : Bool :=
  let n := min prog.length 256
  if n < 5 then false else prog.drop (n - 4) = lit ".bin"

/-- The buffer of `read_file`: zeros behind the file up to a multiple of four. -/
def readFile (file : List Byte) : List Byte :=
  let size := (file.length + 3) / 4 * 4
  file ++ List.replicate (size - file.length) 0

/-- Where the shell is, or how it died: `command` is `do_builtin_cmd` and what comes after it. -/
inductive Stage where
  | greeting (pos : ℕ)
  | prompt
  | command (argv : List (List Byte)) (host : Host)
  | sending (sent : Sent)
  | died
  deriving DecidableEq

/-- The stage and the lines still to be read. -/
abbrev Place := Stage × List Typed

/-- The file of a program, if it could be read, is sent. -/
def sendFile (typed : List Typed) : Option (List Byte) → Prog Byte Place
  | none => return (.died, typed)
  | some file => do
    let sent ← sendProg (readFile file)
    return (.sending sent, typed)

/-- `run_pi_prog`, and `do_unix_cmd`, which has nothing to do with the Pi. The file is opened after the
first bytes have been sent. -/
def runPiProg (unix : List Byte → Option (List Byte)) (argv : List (List Byte)) (typed : List Typed) :
    Prog Byte Place :=
  if isPiProg (argv.headD []) then do
    putBytes (lit "load\n")
    sendFile typed (unix (argv.headD []))
  else return (.prompt, typed)

/-- One turn of the loop of `shell` for a line with these tokens. -/
def runLine (argv : Except Halt (List (List Byte))) (typed : List Typed) : Prog Byte Place :=
  match argv with
  | .error _ => return (.died, typed)
  | .ok [] => return (.prompt, typed)
  | .ok argv => do
    let host ← doBuiltinCmd argv
    return (.command argv host, typed)

def nextShell (unix : List Byte → Option (List Byte)) (ending : Ending) :
    Place → Option (Prog Byte Place)
  | (.greeting pos, typed) => some do
    let c ← getByte
    match fsmChrDone readyMsg pos c with
    | none => return (.prompt, typed)
    | some pos => return (.greeting pos, typed)
  | (.prompt, line :: typed) => some (runLine (argvOf line) typed)
  | (.prompt, []) =>
    if ending = .interrupt then some do
      let host ← sendReboot
      return (.command [] host, [])
    else none
  | (.command argv (.returned 0), typed) => some (runPiProg unix argv typed)
  | (.command _ (.returned _), typed) => some (return (.prompt, typed))
  | (.command argv host, typed) => (nextHost host).map fun p => do
    let host ← p
    return (.command argv host, typed)
  | (.sending .returned, typed) => some do
    let host ← echoUntil
    return (.command [] host, typed)
  | (.sending _, _) => none
  | (.died, _) => none

def shell (typed : List Typed) : Prog Byte Place := return (.greeting 0, typed)

end Host

section Kernel
variable {Dirent : Type}

/-- What the kernel has before it when a command comes: its files, its memory, and what the code at an
address does when it is branched to. -/
structure World (Dirent : Type) where
  files : Files Dirent
  mem : Mem
  branchTo : BitVec 32 → Mem → Call Unit

/-- No image has more words than this. -/
def loadTurns : ℕ := 2 ^ 30

/-- The `load` command, from the result of `load_code` on. -/
def branch (world : World Dirent) : Option Loaded → Prog Byte Loop
  | none => return .dead
  | some loaded =>
    if loaded.entry = 0 then return .ready
    else
      runCall do
        world.branchTo loaded.entry loaded.mem
        printk cmdDone

def loadAndBranch (world : World Dirent) : Prog Byte Loop := loadCode loadTurns world.mem >>= branch world

/-- One turn of the command loop, with the number of commands there have been. What a command finds
may depend on anything that has gone before. -/
def kernelTurn (world : ℕ → World Dirent) (n : ℕ) : Prog Byte (Loop × ℕ) := do
  let loop ← command (world n).files (loadAndBranch (world n))
  return (loop, n + 1)

def nextKernel (world : ℕ → World Dirent) : Loop × ℕ → Option (Prog Byte (Loop × ℕ))
  | (.dead, _) => none
  | (.ready, n) => some (kernelTurn world n)

/-- `notmain`; `booted` is what the initialisation prints. -/
def notmain (booted : List Byte) : Prog Byte (Loop × ℕ) := do
  putBytes booted
  putBytes readyMsg
  return (.ready, 0)

end Kernel

section Tokens
variable {line buf : List Byte} {argv argv' : Argv} {buf' : List Byte} {typed : Typed}

/-- The words of a line. -/
def wordsOf (line : List Byte) : List (List Byte) :=
  (runs isSpace line).map fun r => (line.drop r.1).take (r.2 - r.1)

theorem cString_append {word tail : List Byte} (h : 0 ∉ word) : cString (word ++ 0 :: tail) = word := by
  unfold cString
  rw [List.takeWhile_append_of_pos]
  · simp
  · intro c hc
    simpa using fun h0 : c = 0 => h (h0 ▸ hc)

theorem Tokenized.cString_eq (h : Tokenized argv line buf argv' buf') (hline : 0 ∉ line) {r : ℕ × ℕ}
    (hr : r ∈ runs isSpace line) : cString (buf'.drop r.1) = (line.drop r.1).take (r.2 - r.1) := by
  have hrun := mem_runs.mp hr
  have hlt := hrun.lt
  have hle := hrun.le
  obtain ⟨hend, hnul⟩ := List.getElem?_eq_some_iff.mp (h.nul r hr)
  have hword : (buf'.drop r.1).take (r.2 - r.1) = (line.drop r.1).take (r.2 - r.1) := by
    apply List.ext_getElem?
    intro q
    by_cases hq : q < r.2 - r.1
    · simp only [List.getElem?_take, if_pos hq, List.getElem?_drop]
      exact h.text r hr (r.1 + q) (by omega) (by omega)
    · rw [List.getElem?_take, List.getElem?_take, if_neg hq, if_neg hq]
  have hsplit : buf'.drop r.1 = (line.drop r.1).take (r.2 - r.1) ++ 0 :: buf'.drop (r.2 + 1) := by
    rw [← hword, ← hnul, ← List.drop_eq_getElem_cons hend]
    have hrest : buf'.drop r.2 = (buf'.drop r.1).drop (r.2 - r.1) := by
      rw [List.drop_drop]
      congr 1
      omega
    rw [hrest, List.take_append_drop]
  rw [hsplit]
  exact cString_append fun hmem => hline (List.mem_of_mem_drop (List.mem_of_mem_take hmem))

/-- The tokens are the words of the line, if there are not too many. -/
theorem argvOf_eq (typed : Typed) (h : (wordsOf typed.text.dropLast).length ≤ 30) :
    argvOf typed = .ok (wordsOf typed.text.dropLast) := by
  have hline : 0 ∉ typed.text.dropLast := fun hmem => typed.noNul (List.dropLast_subset _ hmem)
  rw [wordsOf, List.length_map] at h
  have hloop := tokenizeLoop_eq 31 (fun _ => none) 0
    (show (typed.text.dropLast ++ 0 :: 0 :: []).drop 0 = typed.text.dropLast ++ 0 :: 0 :: [] from rfl)
    hline fun _ => rfl
  have htok : Tokenized (fun _ => none) typed.text.dropLast (typed.text.dropLast ++ 0 :: 0 :: []) _ _ :=
    tokenized_cut (fun _ => none) []
  simp only [Nat.zero_add] at hloop
  unfold argvOf tokenize
  rw [hloop, if_pos (show (runsFrom isSpace none 0 typed.text.dropLast).length < 31 from by
    change (runs isSpace typed.text.dropLast).length < 31
    omega)]
  change Except.ok _ = _
  congr 1
  apply List.ext_getElem
  · simp [wordsOf, runs]
  · intro i hi hi'
    have hlt : i < (runs isSpace typed.text.dropLast).length := by simpa [wordsOf] using hi'
    simp only [wordsOf, List.getElem_map, List.getElem_range]
    have hstart := htok.start i _ (List.getElem?_eq_getElem hlt)
    simp only [runs] at hstart ⊢
    rw [hstart]
    exact htok.cString_eq hline (List.getElem_mem hlt)

theorem isToken_of_mem_wordsOf {line word : List Byte} (hline : 0 ∉ line) (h : word ∈ wordsOf line) :
    IsToken word := by
  obtain ⟨r, hr, rfl⟩ := List.mem_map.mp h
  have hrun := mem_runs.mp hr
  have hlt := hrun.lt
  have hle := hrun.le
  refine ⟨?_, fun hmem => hline (List.mem_of_mem_drop (List.mem_of_mem_take hmem)), fun c hc => ?_⟩
  · apply List.ne_nil_of_length_pos
    rw [List.length_take, List.length_drop]
    omega
  · obtain ⟨i, hi, rfl⟩ := List.mem_iff_getElem.mp hc
    simp only [List.length_take, List.length_drop] at hi
    apply hrun.noSep (r.1 + i) _ (by omega) (by omega)
    simp [List.getElem?_eq_getElem (show r.1 + i < line.length by omega)]

end Tokens

section Download
variable {Dirent : Type} {world : World Dirent} {image printed : List Byte}

theorem length_readFile (file : List Byte) : (readFile file).length % 4 = 0 := by
  simp only [readFile, List.length_append, List.length_replicate]
  omega

/-- The kernel accepts the image, and what it branches to prints this and comes back. -/
structure Loads (world : World Dirent) (image printed : List Byte) : Prop where
  short : image.length < 2 ^ 31
  header : HeaderOk (version image) (loadAddr image) (BitVec.ofNat 32 image.length)
  noWrap : (loadAddr image).toNat + image.length < 2 ^ 32
  returns : world.branchTo (loadAddr image + 8)
    (storeWords world.mem (loadAddr image).toNat (toWords image)) = ⟨printed, some ()⟩
  clear : scan 0 printed = some 0

theorem Loads.entry_ne_zero (h : Loads world image printed) : loadAddr image + 8 ≠ 0 := by
  have hlow : (lastUsedAddresses : BitVec 32).toNat ≤ (loadAddr image).toNat :=
    BitVec.le_def.mp h.header.low
  have hhigh : (loadAddr image + BitVec.ofNat 32 image.length).toNat ≤ (maxAddress : BitVec 32).toNat :=
    BitVec.le_def.mp h.header.high
  have hshort := h.short
  have hwrap := h.noWrap
  have hlow' : (lastUsedAddresses : BitVec 32).toNat = 0x9000000 := rfl
  have hhigh' : (maxAddress : BitVec 32).toNat = 0x16000000 := rfl
  intro hzero
  have hsum := congrArg BitVec.toNat hzero
  rw [BitVec.toNat_add] at hsum hhigh
  rw [BitVec.toNat_ofNat] at hhigh
  change ((loadAddr image).toNat + 8) % 2 ^ 32 = 0 at hsum
  omega

/-- What the kernel says while a program is loaded and run. -/
theorem loadAndBranch_answers (h : Loads world image printed) (h4 : image.length % 4 = 0) :
    ∃ q q', Solo nextLoop (loadAndBranch world) [] (leBytes ack) q ∧
      Solo nextLoop q (progHeader image) (leBytes ack) q' ∧
      Solo nextLoop q' (image ++ leBytes eot) (leBytes ack ++ (printed ++ cmdDone)) (.done .ready) := by
  have hshort := h.short
  have hsize : (BitVec.ofNat 32 image.length).toNat = image.length := by
    rw [BitVec.toNat_ofNat]
    omega
  have hwords := wordBytes_toWords image h4
  have hlen : 4 * (toWords image).length = image.length := by
    rw [← length_wordBytes, hwords]
  obtain ⟨q, hready, -, hok⟩ := solo_loadCode loadTurns world.mem (version image) (loadAddr image)
    (BitVec.ofNat 32 image.length) (crc32 image)
  have hturns : (toWords image).length < loadTurns := by
    have : loadTurns = 2 ^ 30 := rfl
    omega
  have hwrap : (loadAddr image).toNat + (BitVec.ofNat 32 image.length).toNat < 2 ^ 32 := by
    rw [hsize]
    exact h.noWrap
  obtain ⟨q', hheader, hbody⟩ := hok h.header hwrap (toWords image) (by omega) hturns (by rw [hwords])
  rw [hwords] at hbody
  have hlast := hbody.once (fun _ => rfl) nextLoop (branch world)
  have hrun := solo_runCall (world.branchTo (loadAddr image + 8)
    (storeWords world.mem (loadAddr image).toNat (toWords image)) >>= fun _ => printk cmdDone)
  rw [h.returns, marked_of_result rfl] at hrun
  simp only [Prog.done_bind, branch, if_neg h.entry_ne_zero, h.returns, marked_of_result] at hlast
  have hdone := hlast.trans hrun
  rw [List.append_nil] at hdone
  exact ⟨_, _, hready.once (fun _ => rfl) nextLoop _, hheader.once (fun _ => rfl) nextLoop _, hdone⟩

end Download

section Exchange
variable {Dirent : Type} {unix : List Byte → Option (List Byte)} {ending : Ending}
  {world : ℕ → World Dirent} {line : Typed} {typed : List Typed} {argv : List (List Byte)} {n : ℕ}
  {sent got : List Byte}

/-- The host before a line, and the kernel before its `n`-th command. -/
abbrev atPrompt (typed : List Typed) : Prog Byte Place := .done (.prompt, typed)
abbrev atLoop (n : ℕ) : Prog Byte (Loop × ℕ) := .done (.ready, n)

theorem embeds_command (unix : List Byte → Option (List Byte)) (ending : Ending)
    (argv : List (List Byte)) (typed : List Typed) :
    Embeds nextHost (nextShell unix ending) fun host => (Stage.command argv host, typed) := by
  intro host p hp
  cases host with
  | echoing pos =>
    unfold nextShell
    simp only [hp, Option.map_some]
  | returned code => cases hp
  | panicked msg => cases hp
  | exited => cases hp

theorem solo_line (hargs : argvOf line = .ok argv) {q : Prog Byte Place} {ins outs : List Byte}
    (h : Solo (nextShell unix ending) (runLine (.ok argv) typed) ins outs q) :
    Solo (nextShell unix ending) (atPrompt (line :: typed)) ins outs q := by
  refine .next ?_ h
  rw [← hargs]
  rfl

theorem solo_builtin (hne : argv ≠ []) {p : Prog Byte Host} {ins outs : List Byte}
    (h : Solo nextHost (doBuiltinCmd argv) ins outs p) :
    Solo (nextShell unix ending) (runLine (.ok argv) typed) ins outs
      (p >>= fun host => return (.command argv host, typed)) := by
  cases argv with
  | nil => exact absurd rfl hne
  | cons cmd args => exact h.embed (embeds_command unix ending (cmd :: args) typed)

/-- The kernel's turn. -/
theorem solo_turn {q : Prog Byte Loop} {ins outs : List Byte}
    (h : Solo nextLoop (command (world n).files (loadAndBranch (world n))) ins outs q) :
    Solo (nextKernel world) (atLoop n) ins outs (q >>= fun loop => return (loop, n + 1)) :=
  .next rfl (h.once (fun _ => rfl) (nextKernel world) _)

theorem solo_returned (argv : List (List Byte)) (typed : List Typed) :
    Solo (nextShell unix ending) (.done (.command argv (.returned 1), typed)) [] [] (atPrompt typed) :=
  .next rfl (.refl _)

/-- A command that is put, carried out and waited for. -/
theorem talk_builtin {p : Prog Byte Host} (hargs : argvOf line = .ok argv) (hne : argv ≠ [])
    (hput : Solo nextHost (doBuiltinCmd argv) [] sent p)
    (hrun : Solo nextLoop (command (world n).files (loadAndBranch (world n))) sent got (.done .ready))
    (hwait : Solo nextHost p got [] (.done (.returned 1))) :
    Talk (nextShell unix ending) (nextKernel world) (atPrompt (line :: typed)) (atLoop n) sent got
      (atPrompt typed) (atLoop (n + 1)) := by
  have hheard := (hwait.embed (embeds_command unix ending argv typed)).trans (solo_returned argv typed)
  rw [List.append_nil, List.append_nil] at hheard
  exact Talk.ask (solo_line hargs (solo_builtin hne hput)) (solo_turn hrun) hheard

/-- A line that needs nothing of the kernel: it is blank, or `ls`, `cat` or `run` without its one path,
or a command for the Unix side. -/
inductive Quiet : List (List Byte) → Prop where
  | blank : Quiet []
  | usage {args : List (List Byte)} (cmd : PathCmd) (h : args.length ≠ 1) : Quiet (lit cmd.name :: args)
  | unix {prog : List Byte} {args : List (List Byte)}
    (h : doBuiltinCmd (prog :: args) = return .returned 0) (hprog : isPiProg prog = false) :
    Quiet (prog :: args)

theorem talk_quiet (hargs : argvOf line = .ok argv) (h : Quiet argv) :
    Talk (nextShell unix ending) (nextKernel world) (atPrompt (line :: typed)) (atLoop n) [] []
      (atPrompt typed) (atLoop n) := by
  apply Talk.alone
  apply solo_line hargs
  cases h with
  | blank => exact .refl _
  | @usage args cmd h =>
    have hcmd : doBuiltinCmd (lit cmd.name :: args) = return .returned 1 := by
      have hput : doBuiltinCmd (lit cmd.name :: args) = putCommand cmd.name (lit cmd.name :: args) := by
        cases cmd <;> rfl
      rw [hput]
      match args with
      | [] => rfl
      | [path] => exact absurd rfl h
      | _ :: _ :: _ => rfl
    change Solo _ (doBuiltinCmd _ >>= _) _ _ _
    rw [hcmd]
    exact solo_returned _ typed
  | @unix prog args h hprog =>
    change Solo _ (doBuiltinCmd _ >>= _) _ _ _
    rw [h]
    refine .next rfl ?_
    unfold runPiProg
    rw [List.headD_cons, if_neg (by simp [hprog])]
    exact .refl _

theorem talk_echo {args : List (List Byte)} (hargs : argvOf line = .ok (lit "echo" :: args))
    (htok : ∀ arg ∈ args, IsToken arg) (hne : args ≠ []) (hsize : echoSize (lit "echo" :: args) ≤ 256) :
    Talk (nextShell unix ending) (nextKernel world) (atPrompt (line :: typed)) (atLoop n)
      (argLine (lit "echo" :: args) ++ [newline]) (argLine args ++ [newline])
      (atPrompt typed) (atLoop (n + 1)) := by
  have hall : ∀ arg ∈ lit "echo" :: args, arg ≠ [] := by
    intro arg harg
    rcases List.mem_cons.mp harg with rfl | harg
    · decide
    · exact (htok arg harg).nonempty
  have hsum : ((lit "echo" :: args).map fun arg => min arg.length 256 + 1).sum ≤ 255 :=
    Nat.le_of_succ_le_succ hsize
  have hlen := (length_argLine _ hsum).trans hsum
  have hline : argLine (lit "echo" :: args) = lit "echo " ++ argLine args := by
    cases args with
    | nil => exact absurd rfl hne
    | cons b bs => rfl
  have hnul : 0 ∉ argLine args := notMem_argLine (by decide) fun arg harg => (htok arg harg).noNul
  have hnewline : newline ∉ argLine args :=
    notMem_argLine (by decide) fun arg harg => (htok arg harg).noNewline
  have hput : Solo nextHost (doBuiltinCmd (lit "echo" :: args)) []
      (argLine (lit "echo" :: args) ++ [newline]) (piReadline 256 [] fun _ => return .returned 1) := by
    rw [doBuiltinCmd_echo, if_neg (Nat.not_lt.mpr hsize)]
    exact solo_putArgs (List.cons_ne_nil _ _) hall (.refl _)
  rw [hline, List.length_append] at hlen
  have hfive : (lit "echo ").length = 5 := rfl
  have hecho : startsWith (lit "echo " ++ argLine args) "echo " := by
    rw [startsWith_iff fun h => (List.mem_append.mp h).elim (by decide) hnul]
    exact List.prefix_append _ _
  have hdispatch : dispatch (world n).files (loadAndBranch (world n)) (lit "echo " ++ argLine args) =
      runCall ⟨argLine args ++ [newline], some ()⟩ := by
    unfold dispatch
    rw [if_pos hecho, ← printk_line hnul (by omega)]
    rfl
  have hrun : Solo nextLoop (command (world n).files (loadAndBranch (world n)))
      (argLine (lit "echo" :: args) ++ [newline]) (argLine args ++ [newline]) (.done .ready) := by
    rw [hline]
    apply solo_command _ _ _ hdispatch
    · exact List.append_ne_nil_of_left_ne_nil (by decide) _
    · exact fun h => (List.mem_append.mp h).elim (by decide) hnewline
    · rw [List.length_append]
      omega
  exact talk_builtin hargs (List.cons_ne_nil _ _) hput hrun
    (solo_piReadline hnewline (by omega) (.refl _))

theorem talk_path (cmd : PathCmd) {path : List Byte} (hargs : argvOf line = .ok [lit cmd.name, path])
    (hpath : IsToken path) (hlen : (cmd.line path).length < 1024)
    (hbody : (cmd.body (world n).files path).result = some ())
    (hscan : scan 0 (cmd.body (world n).files path).printed = some 0) :
    Talk (nextShell unix ending) (nextKernel world) (atPrompt (line :: typed)) (atLoop n)
      (cmd.line path ++ [newline]) ((cmd.body (world n).files path).printed ++ cmdDone)
      (atPrompt typed) (atLoop (n + 1)) := by
  have hnl : [newline] ≠ [] := List.cons_ne_nil _ _
  have hput : Solo nextHost (doBuiltinCmd [lit cmd.name, path]) []
      (lit cmd.name ++ lit " " ++ (path ++ ([newline] ++ []))) echoUntil := by
    rw [doBuiltinCmd_pathCmd]
    exact solo_piPut cmd.name_ne_nil (solo_piPut hpath.nonempty (solo_piPut hnl (.refl _)))
  rw [List.append_nil, ← List.append_assoc] at hput
  have hdispatch : dispatch (world n).files (loadAndBranch (world n)) (cmd.line path) =
      runCall (cmd.body (world n).files path >>= fun _ => printk cmdDone) :=
    dispatch_pathCmd cmd hpath.noNul
  rw [marked_of_result hbody] at hdispatch
  have hrun := solo_command (cmd.line_ne_nil path) (cmd.noNewline_line hpath.noNewline) hlen hdispatch
  exact talk_builtin hargs (List.cons_ne_nil _ _) hput hrun (solo_echoing ((endsWith_reply _).mpr hscan))

/-- The kernel gets to `load_code`. -/
theorem solo_load_line (files : Files Dirent) (load : Prog Byte Loop) :
    Solo nextLoop (command files load) (lit "load\n") [] load := by
  have hload : dispatch files load (lit "load") = load := rfl
  have hsplit : lit "load\n" = lit "load" ++ newline :: [] := rfl
  unfold command
  rw [hsplit]
  apply solo_readline (by decide) (by decide)
  change Solo nextLoop (dispatch files load (lit "load")) [] [] load
  rw [hload]
  exact .refl _

/-- The parts of `send_prog`, between its waits. -/
theorem sendProg_parts {image : List Byte} (h4 : image.length % 4 = 0) : ∃ p p',
    sendProg image = expectVal ack p ∧ Solo nextSender p [] (progHeader image) (expectVal ack p') ∧
      Solo nextSender p' [] (image ++ leBytes eot) (expectVal ack (return .returned)) := by
  have hbody : image ++ leBytes eot = wordBytes (toWords image) ++ (leBytes eot ++ []) := by
    rw [List.append_nil, wordBytes_toWords image h4]
  have hhead : progHeader image = leBytes (version image) ++ (leBytes (loadAddr image) ++
      (leBytes (BitVec.ofNat 32 image.length) ++ (leBytes (crc32 image) ++ []))) := by
    rw [progHeader, List.append_nil]
  unfold sendProg
  rw [if_neg (not_not_intro h4), hhead, hbody]
  exact ⟨_, _, rfl, solo_putUint _ (solo_putUint _ (solo_putUint _ (solo_putUint _ (.refl _)))),
    solo_putWords _ (solo_putUint _ (.refl _))⟩

theorem talk_load {prog file printed : List Byte} {args : List (List Byte)}
    (hargs : argvOf line = .ok (prog :: args)) (hcmd : doBuiltinCmd (prog :: args) = return .returned 0)
    (hprog : isPiProg prog = true) (hfile : unix prog = some file)
    (h : Loads (world n) (readFile file) printed) :
    Talk (nextShell unix ending) (nextKernel world) (atPrompt (line :: typed)) (atLoop n)
      (lit "load\n" ++ (progHeader (readFile file) ++ (readFile file ++ leBytes eot)))
      (leBytes ack ++ (leBytes ack ++ (leBytes ack ++ (printed ++ cmdDone))))
      (atPrompt typed) (atLoop (n + 1)) := by
  have h4 := length_readFile file
  obtain ⟨p, p', hsend, hheader, himage⟩ := sendProg_parts h4
  obtain ⟨q, q', hready, hchecked, hran⟩ := loadAndBranch_answers h h4
  -- the host's side, up to its first wait
  have hload : Solo (nextShell unix ending) (atPrompt (line :: typed)) [] (lit "load\n")
      (expectVal ack p >>= fun sent => return (.sending sent, typed)) := by
    apply solo_line hargs
    change Solo _ (doBuiltinCmd _ >>= _) _ _ _
    rw [hcmd]
    refine .next rfl ?_
    unfold runPiProg
    rw [List.headD_cons, if_pos hprog, hfile, ← List.append_nil (lit "load\n")]
    apply solo_putBytes
    change Solo _ (sendProg (readFile file) >>= _) _ _ _
    rw [hsend]
    exact .refl _
  have hack {p₀ : Prog Byte Sent} : Solo (nextShell unix ending)
      (expectVal ack p₀ >>= fun sent => return (.sending sent, typed)) (leBytes ack) []
      (p₀ >>= fun sent => return (.sending sent, typed)) := by
    have hexpect : Solo nextSender (expectVal ack p₀) (leBytes ack ++ []) [] p₀ :=
      solo_expectVal (.refl _)
    rw [List.append_nil] at hexpect
    exact hexpect.once (fun _ => rfl) _ _
  have hwait : Solo (nextShell unix ending)
      ((return .returned : Prog Byte Sent) >>= fun sent => return (.sending sent, typed))
      (printed ++ cmdDone) [] (atPrompt typed) := by
    have hecho := solo_echoing ((endsWith_reply _).mpr h.clear)
    have hheard := (hecho.embed (embeds_command unix ending [] typed)).trans (solo_returned [] typed)
    rw [List.append_nil, List.append_nil] at hheard
    exact .next rfl hheard
  have hfirst := (solo_load_line (world n).files (loadAndBranch (world n))).trans hready
  rw [List.append_nil, List.nil_append] at hfirst
  apply Talk.trans (Talk.ask hload (solo_turn hfirst) hack)
  apply Talk.trans (Talk.ask (hheader.once (fun _ => rfl) _ _) (hchecked.once (fun _ => rfl) _ _) hack)
  have hend := hack.trans hwait
  exact Talk.ask (himage.once (fun _ => rfl) _ _) (hran.once (fun _ => rfl) _ _) hend

/-- A line that is forwarded, what the host sends for it, and what the kernel replies when it finds
the world like this. -/
inductive Exchange (unix : List Byte → Option (List Byte)) (world : World Dirent) :
    List (List Byte) → List Byte → List Byte → Prop where
  | echo {args : List (List Byte)} (hne : args ≠ []) (hsize : echoSize (lit "echo" :: args) ≤ 256) :
    Exchange unix world (lit "echo" :: args) (argLine (lit "echo" :: args) ++ [newline])
      (argLine args ++ [newline])
  | path (cmd : PathCmd) {path : List Byte} (hlen : (cmd.line path).length < 1024)
    (hbody : (cmd.body world.files path).result = some ())
    (hscan : scan 0 (cmd.body world.files path).printed = some 0) :
    Exchange unix world [lit cmd.name, path] (cmd.line path ++ [newline])
      ((cmd.body world.files path).printed ++ cmdDone)
  | load {prog file printed : List Byte} {args : List (List Byte)}
    (hcmd : doBuiltinCmd (prog :: args) = return .returned 0) (hprog : isPiProg prog = true)
    (hfile : unix prog = some file) (h : Loads world (readFile file) printed) :
    Exchange unix world (prog :: args)
      (lit "load\n" ++ (progHeader (readFile file) ++ (readFile file ++ leBytes eot)))
      (leBytes ack ++ (leBytes ack ++ (leBytes ack ++ (printed ++ cmdDone))))

theorem talk_exchange (hargs : argvOf line = .ok argv) (htok : ∀ arg ∈ argv, IsToken arg)
    (h : Exchange unix (world n) argv sent got) :
    Talk (nextShell unix ending) (nextKernel world) (atPrompt (line :: typed)) (atLoop n) sent got
      (atPrompt typed) (atLoop (n + 1)) := by
  cases h with
  | echo hne hsize => exact talk_echo hargs (List.forall_mem_cons.mp htok).2 hne hsize
  | path cmd hlen hbody hscan => exact talk_path cmd hargs (htok _ (by simp)) hlen hbody hscan
  | load hcmd hprog hfile h => exact talk_load hargs hcmd hprog hfile h

/-- Typed lines that are worked off from the `n`-th command on, with all that goes over the two
channels. -/
inductive Worked (unix : List Byte → Option (List Byte)) (world : ℕ → World Dirent) :
    ℕ → List Typed → ℕ → List Byte → List Byte → Prop where
  | nil {n : ℕ} : Worked unix world n [] n [] []
  | quiet {n m : ℕ} {line : Typed} {typed : List Typed} {sent got : List Byte}
    (hwords : (wordsOf line.text.dropLast).length ≤ 30) (h : Quiet (wordsOf line.text.dropLast))
    (hrest : Worked unix world n typed m sent got) : Worked unix world n (line :: typed) m sent got
  | exchange {n m : ℕ} {line : Typed} {typed : List Typed} {sent sent' got got' : List Byte}
    (hwords : (wordsOf line.text.dropLast).length ≤ 30)
    (h : Exchange unix (world n) (wordsOf line.text.dropLast) sent got)
    (hrest : Worked unix world (n + 1) typed m sent' got') :
    Worked unix world n (line :: typed) m (sent ++ sent') (got ++ got')

theorem talk_worked {m : ℕ} (h : Worked unix world n typed m sent got) (rest : List Typed) :
    Talk (nextShell unix ending) (nextKernel world) (atPrompt (typed ++ rest)) (atLoop n) sent got
      (atPrompt rest) (atLoop m) := by
  induction h with
  | nil => exact .refl _ _
  | @quiet n m line typed sent got hwords h _ ih => exact (talk_quiet (argvOf_eq line hwords) h).trans ih
  | @exchange n m line typed sent sent' got got' hwords h _ ih =>
    have htok : ∀ arg ∈ wordsOf line.text.dropLast, IsToken arg := fun arg harg =>
      isToken_of_mem_wordsOf (fun hmem => line.noNul (List.dropLast_subset _ hmem)) harg
    exact (talk_exchange (argvOf_eq line hwords) htok h).trans ih

end Exchange

section Session
variable {Dirent : Type} {unix : List Byte → Option (List Byte)} {ending : Ending}
  {world : ℕ → World Dirent} {typed : List Typed} {n : ℕ} {booted sent got : List Byte}

/-- The host waits for its greeting. -/
theorem solo_greeting {pos : ℕ} {bs : List Byte} (h : feed (restart readyMsg) pos bs = .seen []) :
    Solo (nextShell unix ending) (.done (.greeting pos, typed)) bs [] (atPrompt typed) := by
  induction bs generalizing pos with
  | nil => cases h
  | cons c bs ih =>
    refine .next rfl (solo_getByte ?_)
    unfold feed at h
    rw [restart_eq_fsmChrDone] at h
    cases hc : fsmChrDone readyMsg pos c with
    | none =>
      simp only [hc, Option.elim, Matcher.Outcome.seen.injEq] at h
      subst h
      exact .refl _
    | some pos' =>
      simp only [hc, Option.elim] at h
      exact ih h

theorem talk_greeting (typed : List Typed)
    (h : feed (restart readyMsg) 0 (booted ++ readyMsg) = .seen []) :
    Talk (nextShell unix ending) (nextKernel world) (shell typed) (notmain booted) []
      (booted ++ readyMsg) (atPrompt typed) (atLoop 0) := by
  have htell : Solo (nextKernel world) (notmain booted) [] (booted ++ (readyMsg ++ [])) (atLoop 0) :=
    solo_putBytes booted (solo_putBytes readyMsg (.refl _))
  rw [List.append_nil] at htell
  exact Talk.hear htell (solo_greeting h)

/-- Both sides before they say anything. -/
def sessionStart (typed : List Typed) (booted : List Byte) : Config Byte Place (Loop × ℕ) :=
  ⟨shell typed, notmain booted, [], [], 0⟩

abbrev SessionStep (unix : List Byte → Option (List Byte)) (ending : Ending)
    (world : ℕ → World Dirent) : Config Byte Place (Loop × ℕ) → Config Byte Place (Loop × ℕ) → Prop :=
  Step (nextShell unix ending) (nextKernel world) fun _ => id

theorem exists_kernelTurn (world : ℕ → World Dirent) (n : ℕ) : ∃ k, kernelTurn world n = .recv k :=
  ⟨_, rfl⟩

/-- The input is used up, and the kernel waits for a line; nothing is in flight. -/
structure InStep (unix : List Byte → Option (List Byte)) (world : ℕ → World Dirent) (n : ℕ)
    (typed : List Typed) (booted sent got : List Byte) (c : Config Byte Place (Loop × ℕ)) : Prop where
  host : c.a = atPrompt []
  pi : c.b = kernelTurn world n
  toPi : c.ab = []
  toHost : c.ba = []
  heard : Solo (nextShell unix .eof) (shell typed) (booted ++ readyMsg ++ got) sent c.a
  done : Solo (nextKernel world) (notmain booted) sent (booted ++ readyMsg ++ got) c.b

/-- However the two sides interleave, they get through any lines that can be worked off: the host hears
the greeting and the replies and nothing else, and at the end both wait. -/
theorem session_in_step (hboot : feed (restart readyMsg) 0 (booted ++ readyMsg) = .seen [])
    (h : Worked unix world 0 typed n sent got) :
    ∃ c, Inevitable (SessionStep unix .eof world) (sessionStart typed booted) c ∧
      InStep unix world n typed booted sent got c := by
  have hwork : Talk (nextShell unix .eof) (nextKernel world) (atPrompt (typed ++ [])) (atLoop 0) sent got
      (atPrompt []) (atLoop n) := talk_worked h []
  rw [List.append_nil] at hwork
  have hwait : Talk (nextShell unix .eof) (nextKernel world) (atPrompt []) (atLoop n) [] []
      (atPrompt []) (kernelTurn world n) := Talk.ask (.refl _) (.next rfl (.refl _)) (.refl _)
  have htalk := ((talk_greeting typed hboot).trans hwork).trans hwait
  rw [List.nil_append, List.append_nil, List.append_nil] at htalk
  have hend := htalk.inevitable 0 (stuck_waiting (.inr ⟨_, rfl, rfl⟩) (.inl (exists_kernelTurn world n)))
  exact ⟨_, hend, rfl, rfl, rfl, rfl, htalk.first, htalk.second⟩

/-- The session is to be shut down: Control-C at a prompt, or the command; `rest` is not read. -/
inductive Shutdown (ending : Ending) : List Typed → List (List Byte) → List Typed → Prop where
  | interrupt (h : ending = .interrupt) : Shutdown ending [] [] []
  | command {line : Typed} {rest : List Typed} {args : List (List Byte)}
    (hwords : (wordsOf line.text.dropLast).length ≤ 30)
    (h : wordsOf line.text.dropLast = lit "reboot" :: args) :
    Shutdown ending (line :: rest) (lit "reboot" :: args) rest

/-- What `send_reboot` sends, and what it accepts. -/
theorem solo_sendReboot : ∃ p, Solo nextHost sendReboot [] (lit "reboot\n") p ∧
    Solo nextHost p (lit "PI REBOOT!!!\n") [] (.done .exited) := by
  have hne : lit "reboot\n" ≠ [] := by decide
  have hput : Solo nextHost sendReboot [] (lit "reboot\n" ++ []) _ := solo_piPut hne (.refl _)
  have hreply : lit "PI REBOOT!!!\n" = lit "PI REBOOT!!!" ++ newline :: [] := rfl
  rw [List.append_nil] at hput
  rw [hreply]
  exact ⟨_, hput, solo_piReadline (by decide) (by decide) (.refl _)⟩

theorem solo_reboot (files : Files Dirent) (load : Prog Byte Loop) :
    Solo nextLoop (command files load) (lit "reboot\n") (lit "PI REBOOT!!!\n") (.done .dead) := by
  have hdispatch : dispatch files load (lit "reboot") = runCall ⟨lit "PI REBOOT!!!\n", none⟩ := rfl
  exact solo_command (by decide) (by decide) (by decide) hdispatch

theorem talk_shutdown {rest rest' : List Typed} {argv : List (List Byte)}
    (h : Shutdown ending rest argv rest') :
    Talk (nextShell unix ending) (nextKernel world) (atPrompt rest) (atLoop n) (lit "reboot\n")
      (lit "PI REBOOT!!!\n") (.done (.command argv .exited, rest')) (.done (.dead, n + 1)) := by
  obtain ⟨p, hput, hhear⟩ := solo_sendReboot
  have hrun := solo_reboot (world n).files (loadAndBranch (world n))
  cases h with
  | interrupt h =>
    subst h
    exact Talk.ask (.next rfl (hput.embed (embeds_command unix .interrupt [] []))) (solo_turn hrun)
      (hhear.embed (embeds_command unix .interrupt [] []))
  | @command line _ args hwords h =>
    have hargs := argvOf_eq line hwords
    rw [h] at hargs
    have hcmd : doBuiltinCmd (lit "reboot" :: args) = sendReboot := rfl
    rw [← hcmd] at hput
    exact Talk.ask (solo_line hargs (solo_builtin (List.cons_ne_nil _ _) hput)) (solo_turn hrun)
      (hhear.embed (embeds_command unix ending _ rest'))

/-- Both sides have ended, with nothing in flight. -/
structure ShutDown (n : ℕ) (argv : List (List Byte)) (rest : List Typed)
    (c : Config Byte Place (Loop × ℕ)) : Prop where
  host : c.a = .done (.command argv .exited, rest)
  pi : c.b = .done (.dead, n + 1)
  toPi : c.ab = []
  toHost : c.ba = []

theorem session_ends (hboot : feed (restart readyMsg) 0 (booted ++ readyMsg) = .seen [])
    (h : Worked unix world 0 typed n sent got) {rest rest' : List Typed} {argv : List (List Byte)}
    (hdown : Shutdown ending rest argv rest') :
    ∃ c, Inevitable (SessionStep unix ending world) (sessionStart (typed ++ rest) booted) c ∧
      ShutDown n argv rest' c := by
  have htalk := ((talk_greeting (typed ++ rest) hboot).trans (talk_worked h rest)).trans
    (talk_shutdown hdown)
  have hend : nextShell unix ending (.command argv .exited, rest') = none := rfl
  exact ⟨_, htalk.inevitable 0 (stuck_waiting (.inr ⟨_, rfl, hend⟩) (.inr ⟨_, rfl, rfl⟩)), rfl, rfl, rfl, rfl⟩

/-- However the two sides interleave, a session that is to be shut down ends on both sides, after all
lines that come before; the lines behind are never looked at. -/
theorem session_shuts_down (hboot : feed (restart readyMsg) 0 (booted ++ readyMsg) = .seen [])
    (h : Worked unix world 0 typed n sent got) {rest rest' : List Typed} {argv : List (List Byte)}
    (hdown : Shutdown ending rest argv rest') :
    ∃ c, Inevitable (SessionStep unix ending world) (sessionStart (typed ++ rest) booted) c ∧
      ShutDown n argv rest' c :=
  session_ends hboot h hdown

end Session

section Example

/-- Every program is the smallest image that is accepted, and says one line when it runs. -/
def smallWorld (_ : ℕ) : World Unit := ⟨oneFile (lit "hi"), fun _ => 0, fun _ _ => ⟨lit "ran\n", some ()⟩⟩

def smallestImage : List Byte := [2, 0, 0, 0, 0, 0, 0, 9]
def allSmall (_ : List Byte) : Option (List Byte) := some smallestImage

theorem smallestImage_loads (n : ℕ) : Loads (smallWorld n) (readFile smallestImage) (lit "ran\n") where
  short := by decide
  header := ⟨by decide, by decide, by decide, by decide⟩
  noWrap := by decide
  returns := rfl
  clear := by decide

def echoLine : Typed := ⟨lit "echo hi\n", by decide, by decide, by decide⟩
def blankLine : Typed := ⟨lit " \n", by decide, by decide, by decide⟩
def catLine : Typed := ⟨lit "cat /a\n", by decide, by decide, by decide⟩
def progLine : Typed := ⟨lit "a.bin\n", by decide, by decide, by decide⟩
def rebootLine : Typed := ⟨lit "reboot\n", by decide, by decide, by decide⟩

theorem worked_four : ∃ sent got,
    Worked allSmall smallWorld 0 [echoLine, blankLine, catLine, progLine] 3 sent got := by
  have hecho : wordsOf echoLine.text.dropLast = [lit "echo", lit "hi"] := by decide
  have hblank : wordsOf blankLine.text.dropLast = [] := by decide
  have hcat : wordsOf catLine.text.dropLast = [lit PathCmd.cat.name, lit "/a"] := by decide
  have hprog : wordsOf progLine.text.dropLast = [lit "a.bin"] := by decide
  have hfirst : Exchange allSmall (smallWorld 0) [lit "echo", lit "hi"] _ _ := .echo (by decide) (by decide)
  have hthird : Exchange allSmall (smallWorld 1) [lit PathCmd.cat.name, lit "/a"] _ _ :=
    .path .cat (by decide) rfl (by decide)
  have hfourth : Exchange allSmall (smallWorld 2) [lit "a.bin"] _ _ :=
    .load rfl (by decide) rfl (smallestImage_loads 2)
  rw [← hecho] at hfirst
  rw [← hcat] at hthird
  rw [← hprog] at hfourth
  have hquiet : Quiet (wordsOf blankLine.text.dropLast) := by
    rw [hblank]
    exact .blank
  exact ⟨_, _, .exchange (by decide) hfirst (.quiet (by decide) hquiet
    (.exchange (by decide) hthird (.exchange (by decide) hfourth .nil)))⟩

theorem session_in_step_four : ∃ sent got c,
    Inevitable (SessionStep allSmall .eof smallWorld)
      (sessionStart [echoLine, blankLine, catLine, progLine] (lit "EMMC: reset OK\n")) c ∧
    InStep allSmall smallWorld 3 [echoLine, blankLine, catLine, progLine] (lit "EMMC: reset OK\n") sent got
      c := by
  obtain ⟨sent, got, hworked⟩ := worked_four
  have hboot : feed (restart readyMsg) 0 (lit "EMMC: reset OK\n" ++ readyMsg) = .seen [] := by decide
  obtain ⟨c, hend, hstep⟩ := session_in_step hboot hworked
  exact ⟨sent, got, c, hend, hstep⟩

theorem session_shuts_down_four : ∃ c,
    Inevitable (SessionStep allSmall .eof smallWorld)
      (sessionStart ([echoLine, blankLine, catLine, progLine] ++ [rebootLine, catLine]) []) c ∧
    ShutDown 3 [lit "reboot"] [catLine] c := by
  obtain ⟨sent, got, hworked⟩ := worked_four
  have hwords : wordsOf rebootLine.text.dropLast = [lit "reboot"] := by decide
  have hboot : feed (restart readyMsg) 0 ([] ++ readyMsg) = .seen [] := by decide
  exact session_shuts_down hboot hworked (.command (by decide) hwords)

end Example
end SimplePiOS.Shell
