import Mathlib.Data.List.TakeWhile
import SimplePiOS.Shell.Commands

/-! Where the host stops reading the reply to a command. -/
namespace SimplePiOS.Shell
open Lib Lib.Fifo Libpi

section Matcher
variable {pos : ℕ} {bs tail : List Byte}

/-- The matcher of `echo_until`, from `pos` on, completes exactly with the last byte. -/
def endsWith : ℕ → List Byte → Bool
  | _, [] => false
  | pos, c :: bs =>
    match fsmChrDone cmdDone pos c with
    | none => bs.isEmpty
    | some pos => endsWith pos bs

/-- Its position after some bytes, as long as it has not completed. -/
def scan : ℕ → List Byte → Option ℕ
  | pos, [] => some pos
  | pos, c :: bs =>
    match fsmChrDone cmdDone pos c with
    | none => none
    | some pos => scan pos bs

theorem fsmChrDone_lt {pos' : ℕ} {c : Byte} (hpos : pos < 9)
    (h : fsmChrDone cmdDone pos c = some pos') : pos' < 9 := by
  have hlen : cmdDone.length = 9 := rfl
  unfold fsmChrDone at h
  split_ifs at h with hc hend
  · cases h
    exact Nat.zero_lt_succ 8
  · cases h
    omega

theorem scan_lt {pos' : ℕ} (hpos : pos < 9) (h : scan pos bs = some pos') : pos' < 9 := by
  induction bs generalizing pos with
  | nil =>
    cases h
    exact hpos
  | cons c bs ih =>
    unfold scan at h
    cases hc : fsmChrDone cmdDone pos c with
    | none => simp [hc] at h
    | some p =>
      simp only [hc] at h
      exact ih (fsmChrDone_lt hpos hc) h

theorem endsWith_append (htail : tail ≠ []) : endsWith pos (bs ++ tail) = true ↔
    ∃ pos', scan pos bs = some pos' ∧ endsWith pos' tail = true := by
  induction bs generalizing pos with
  | nil => simp [scan]
  | cons c bs ih =>
    simp only [List.cons_append, endsWith, scan]
    cases fsmChrDone cmdDone pos c with
    | none => simp [htail]
    | some p => exact ih

/-- The marker is seen by a matcher that is at its start, and by no other: within a partial
match its first character only ends that. -/
theorem endsWith_cmdDone : ∀ pos < 9, endsWith pos cmdDone = true ↔ pos = 0 := by
  decide

theorem endsWith_reply (bs : List Byte) :
    endsWith 0 (bs ++ cmdDone) = true ↔ scan 0 bs = some 0 := by
  have hne : cmdDone ≠ [] := by decide
  rw [endsWith_append hne]
  constructor
  · rintro ⟨pos, hscan, hend⟩
    rw [hscan, (endsWith_cmdDone pos (scan_lt (by omega) hscan)).mp hend]
  · intro h
    exact ⟨0, h, (endsWith_cmdDone 0 (by omega)).mpr rfl⟩

end Matcher

section Bytes
variable {α : Type} {next : α → Option (Prog Byte α)} {q : Prog Byte α} {ins outs : List Byte}

theorem solo_putBytes (bs : List Byte) {p : Unit → Prog Byte α} (h : Solo next (p ()) ins outs q) :
    Solo next (putBytes bs >>= p) ins (bs ++ outs) q := by
  induction bs with
  | nil => exact h
  | cons b bs ih => exact .send ih

theorem solo_of_putBytes {bs : List Byte} {p : Unit → Prog Byte α}
    (h : Solo next (putBytes bs >>= p) ins outs q) (hq : q.IsDone) :
    ∃ outs', outs = bs ++ outs' ∧ Solo next (p ()) ins outs' q := by
  induction bs generalizing outs with
  | nil => exact ⟨outs, rfl, h⟩
  | cons b bs ih =>
    obtain ⟨outs1, rfl, h1⟩ := Solo.of_send h (.inr hq)
    obtain ⟨outs2, rfl, h2⟩ := ih h1
    exact ⟨outs2, rfl, h2⟩

theorem solo_getByte {c : Byte} {k : Byte → Prog Byte α} (h : Solo next (k c) ins outs q) :
    Solo next (getByte >>= k) (c :: ins) outs q := .recv h

theorem solo_of_getByte {k : Byte → Prog Byte α} (h : Solo next (getByte >>= k) ins outs q)
    (hq : q.IsDone) : ∃ c ins', ins = c :: ins' ∧ Solo next (k c) ins' outs q :=
  Solo.of_recv h (.inr hq)

end Bytes

section Host
variable {ins outs : List Byte} {q p : Prog Byte Host} {n : ℕ}

theorem solo_echoing {pos : ℕ} {bs : List Byte} (h : endsWith pos bs = true) :
    Solo nextHost (.done (.echoing pos)) bs [] (.done (.returned 1)) := by
  induction bs generalizing pos with
  | nil => cases h
  | cons c bs ih =>
    refine .next rfl (solo_getByte ?_)
    unfold endsWith at h
    cases hc : fsmChrDone cmdDone pos c with
    | none =>
      simp only [hc, List.isEmpty_iff] at h
      subst h
      exact .refl _
    | some pos' =>
      simp only [hc] at h ⊢
      exact ih h

theorem solo_of_echoing {pos : ℕ}
    (h : Solo nextHost (.done (.echoing pos)) ins outs (.done (.returned n))) :
    endsWith pos ins = true ∧ outs = [] := by
  induction ins generalizing pos with
  | nil =>
    cases h with
    | next hx h =>
      cases hx
      obtain ⟨c, ins', hins, -⟩ := solo_of_getByte h trivial
      cases hins
  | cons c ins ih =>
    cases h with
    | next hx h =>
      cases hx
      obtain ⟨c', ins', hins, h1⟩ := solo_of_getByte h trivial
      cases hins
      unfold endsWith
      cases hc : fsmChrDone cmdDone pos c with
      | none =>
        simp only [hc] at h1 ⊢
        obtain ⟨rfl, rfl, -⟩ := Solo.of_done h1 rfl
        exact ⟨rfl, rfl⟩
      | some pos' =>
        simp only [hc] at h1 ⊢
        exact ih h1

theorem solo_piPut {bs : List Byte} (hbs : bs ≠ []) (h : Solo nextHost p ins outs q) :
    Solo nextHost (piPut bs p) ins (bs ++ outs) q := by
  unfold piPut
  rw [if_neg fun hlen => hbs (List.length_eq_zero_iff.mp hlen)]
  exact solo_putBytes bs h

theorem solo_of_piPut {bs : List Byte} (hbs : bs ≠ [])
    (h : Solo nextHost (piPut bs p) ins outs (.done (.returned n))) :
    ∃ outs', outs = bs ++ outs' ∧ Solo nextHost p ins outs' (.done (.returned n)) := by
  unfold piPut at h
  rw [if_neg fun hlen => hbs (List.length_eq_zero_iff.mp hlen)] at h
  exact solo_of_putBytes h trivial

theorem solo_piReadline {sz : ℕ} {buf line : List Byte} {k : List Byte → Prog Byte Host}
    (hline : newline ∉ line) (hsz : line.length < sz) (h : Solo nextHost (k (buf ++ line)) ins outs q) :
    Solo nextHost (piReadline sz buf k) (line ++ newline :: ins) outs q := by
  induction line generalizing sz buf with
  | nil =>
    obtain ⟨sz, rfl⟩ : ∃ m, sz = m + 1 := ⟨sz - 1, by simp at hsz; omega⟩
    apply solo_getByte
    rw [if_pos rfl]
    rwa [List.append_nil] at h
  | cons c line ih =>
    obtain ⟨hc, hrest⟩ := not_or.mp (List.mem_cons.not.mp hline)
    rw [List.length_cons] at hsz
    obtain ⟨sz, rfl⟩ : ∃ m, sz = m + 1 := ⟨sz - 1, by omega⟩
    apply solo_getByte
    rw [if_neg (Ne.symm hc)]
    apply ih hrest (by omega)
    rw [List.append_assoc]
    exact h

theorem solo_of_piReadline {sz : ℕ} {buf : List Byte} {k : List Byte → Prog Byte Host}
    (h : Solo nextHost (piReadline sz buf k) ins outs (.done (.returned n))) :
    ∃ line ins', ins = line ++ newline :: ins' ∧
      Solo nextHost (k (buf ++ line)) ins' outs (.done (.returned n)) := by
  induction sz generalizing buf ins with
  | zero =>
    obtain ⟨-, -, hq⟩ := Solo.of_done h rfl
    cases hq
  | succ sz ih =>
    obtain ⟨c, ins', rfl, h1⟩ := solo_of_getByte h trivial
    by_cases hc : c = newline
    · rw [if_pos hc] at h1
      subst hc
      refine ⟨[], ins', rfl, ?_⟩
      rwa [List.append_nil]
    · rw [if_neg hc] at h1
      obtain ⟨line, ins2, rfl, h2⟩ := ih h1
      refine ⟨c :: line, ins2, rfl, ?_⟩
      rwa [List.append_assoc] at h2

/-- The line `echo` sends, without its newline. -/
def argLine : List (List Byte) → List Byte
  | [] => []
  | [arg] => arg
  | arg :: args => arg ++ (lit " " ++ argLine args)

theorem solo_putArgs {argv : List (List Byte)} (hne : argv ≠ []) (htok : ∀ arg ∈ argv, arg ≠ [])
    (h : Solo nextHost p ins outs q) :
    Solo nextHost (putArgs argv p) ins (argLine argv ++ newline :: outs) q := by
  induction argv using argLine.induct with
  | case1 => exact absurd rfl hne
  | case2 arg =>
    have harg := htok arg (List.mem_singleton_self arg)
    exact solo_piPut harg (solo_piPut (List.cons_ne_nil newline []) h)
  | case3 arg args hargs ih =>
    have harg := htok arg List.mem_cons_self
    have hrest := ih hargs fun a ha => htok a (List.mem_cons_of_mem arg ha)
    cases args with
    | nil => exact absurd rfl hargs
    | cons b bs =>
      change Solo nextHost (piPut arg (piPut (lit " ") (putArgs (b :: bs) p))) ins
        (arg ++ (lit " " ++ argLine (b :: bs)) ++ newline :: outs) q
      rw [List.append_assoc, List.append_assoc]
      exact solo_piPut harg (solo_piPut (List.cons_ne_nil _ _) hrest)

theorem solo_of_putArgs {argv : List (List Byte)} (hne : argv ≠ [])
    (htok : ∀ arg ∈ argv, arg ≠ [])
    (h : Solo nextHost (putArgs argv p) ins outs (.done (.returned n))) :
    ∃ outs', outs = argLine argv ++ newline :: outs' ∧
      Solo nextHost p ins outs' (.done (.returned n)) := by
  induction argv using argLine.induct generalizing outs with
  | case1 => exact absurd rfl hne
  | case2 arg =>
    have harg := htok arg (List.mem_singleton_self arg)
    obtain ⟨o1, rfl, h1⟩ := solo_of_piPut harg h
    obtain ⟨o2, rfl, h2⟩ := solo_of_piPut (List.cons_ne_nil newline []) h1
    exact ⟨o2, rfl, h2⟩
  | case3 arg args hargs ih =>
    have harg := htok arg List.mem_cons_self
    cases args with
    | nil => exact absurd rfl hargs
    | cons b bs =>
      change Solo nextHost (piPut arg (piPut (lit " ") (putArgs (b :: bs) p))) ins outs _ at h
      obtain ⟨o1, rfl, h1⟩ := solo_of_piPut harg h
      have hblank : lit " " ≠ [] := by decide
      obtain ⟨o2, rfl, h2⟩ := solo_of_piPut hblank h1
      obtain ⟨o3, rfl, h3⟩ := ih hargs (fun a ha => htok a (List.mem_cons_of_mem arg ha)) h2
      refine ⟨o3, ?_, h3⟩
      change _ = arg ++ (lit " " ++ argLine (b :: bs)) ++ newline :: o3
      rw [List.append_assoc, List.append_assoc]

end Host

section Pi
variable {Dirent : Type} {fs : Files Dirent} {load : Prog Byte Loop} {ins outs : List Byte}
  {q : Prog Byte Loop}

/-- The kernel's loop is watched for one turn. -/
def nextLoop (_ : Loop) : Option (Prog Byte Loop) := none

/-- How a command leaves the loop. -/
def after (c : Call Unit) : Loop := if c.result = some () then .ready else .dead

theorem solo_runCall (c : Call Unit) :
    Solo nextLoop (runCall c) [] c.printed (.done (after c)) := by
  rw [← List.append_nil c.printed]
  apply solo_putBytes c.printed
  unfold after
  cases c.result with
  | none => exact .refl _
  | some u => exact .refl _

theorem solo_readline {sz : ℕ} {buf line : List Byte} {k : Option (List Byte) → Prog Byte Loop}
    (hline : newline ∉ line) (hsz : line.length < sz)
    (h : Solo nextLoop (k (some (buf ++ line))) ins outs q) :
    Solo nextLoop (readline sz buf >>= k) (line ++ newline :: ins) outs q := by
  induction line generalizing sz buf with
  | nil =>
    obtain ⟨sz, rfl⟩ : ∃ m, sz = m + 1 := ⟨sz - 1, by simp at hsz; omega⟩
    unfold readline
    rw [bind_assoc]
    apply solo_getByte
    rw [if_pos rfl]
    rwa [List.append_nil] at h
  | cons c line ih =>
    obtain ⟨hc, hrest⟩ := not_or.mp (List.mem_cons.not.mp hline)
    rw [List.length_cons] at hsz
    obtain ⟨sz, rfl⟩ : ∃ m, sz = m + 1 := ⟨sz - 1, by omega⟩
    unfold readline
    rw [bind_assoc]
    apply solo_getByte
    rw [if_neg (Ne.symm hc)]
    apply ih hrest (by omega)
    rw [List.append_assoc]
    exact h

theorem solo_readline_full {sz : ℕ} {buf line : List Byte}
    {k : Option (List Byte) → Prog Byte Loop} (hline : newline ∉ line) (hsz : line.length = sz)
    (h : Solo nextLoop (k none) ins outs q) :
    Solo nextLoop (readline sz buf >>= k) (line ++ ins) outs q := by
  induction line generalizing sz buf with
  | nil =>
    subst hsz
    exact h
  | cons c line ih =>
    obtain ⟨hc, hrest⟩ := not_or.mp (List.mem_cons.not.mp hline)
    subst hsz
    rw [List.length_cons]
    unfold readline
    rw [bind_assoc]
    apply solo_getByte
    rw [if_neg (Ne.symm hc)]
    exact ih hrest rfl

/-- The kernel's turn on a line that fits its buffer. -/
theorem solo_command {line : List Byte} {c : Call Unit} (hne : line ≠ []) (hline : newline ∉ line)
    (hlen : line.length < 1024) (hcall : dispatch fs load line = runCall c) :
    Solo nextLoop (command fs load) (line ++ [newline]) c.printed (.done (after c)) := by
  unfold command
  apply solo_readline hline hlen
  change Solo nextLoop (if line = [] then _ else dispatch fs load line) [] _ _
  rw [if_neg hne, hcall]
  exact solo_runCall c

/-- On a longer line it panics, with the rest unread. -/
theorem solo_command_full {line : List Byte} (hline : newline ∉ line) (hlen : line.length = 1024) :
    ∃ outs, Solo nextLoop (command fs load) line outs (.done .dead) := by
  refine ⟨lit "PANIC:shell.c:readline:30:size too small\n\n", ?_⟩
  rw [← List.append_nil line]
  unfold command
  apply solo_readline_full hline hlen
  exact solo_runCall ⟨_, none⟩

/-- The kernel is back in its loop after a line only if the line fits, and then it has sent what
the command prints. -/
theorem command_ready {line : List Byte} {c : Call Unit} (hne : line ≠ []) (hline : newline ∉ line)
    (hcall : line.length < 1024 → dispatch fs load line = runCall c)
    (h : Solo nextLoop (command fs load) (line ++ [newline]) outs (.done .ready)) :
    line.length < 1024 ∧ c.result = some () ∧ outs = c.printed := by
  by_cases hlen : line.length < 1024
  · have hfits := solo_command hne hline hlen (hcall hlen)
    obtain ⟨-, hout, hready⟩ := h.det hfits rfl rfl (rfl : line ++ [newline] ++ [] = _)
    refine ⟨hlen, ?_, hout⟩
    by_contra hres
    rw [after, if_neg hres] at hready
    cases hready
  · have hpart : newline ∉ line.take 1024 := fun hmem => hline (List.mem_of_mem_take hmem)
    have htake : (line.take 1024).length = 1024 := by
      rw [List.length_take]
      omega
    obtain ⟨outs', hfull⟩ := solo_command_full hpart htake
    have hsplit : line.take 1024 ++ (line.drop 1024 ++ [newline]) = line ++ [newline] ++ [] := by
      rw [← List.append_assoc, List.take_append_drop, List.append_nil]
    obtain ⟨-, -, hdead⟩ := hfull.det h rfl rfl hsplit
    cases hdead

end Pi

section Session
variable {Dirent : Type} {fs : Files Dirent} {load : Prog Byte Loop} {argv : List (List Byte)}

/-- Every run of the two sides ends, with the host's wait over, the kernel back in its loop, and
nothing unread in either direction. -/
def Framed (fs : Files Dirent) (load : Prog Byte Loop) (argv : List (List Byte)) : Prop :=
  ∃ c, Inevitable (Step nextHost nextLoop fun _ => id)
      ⟨doBuiltinCmd argv, command fs load, [], [], 0⟩ c ∧
    c.a = .done (.returned 1) ∧ c.b = .done .ready ∧ c.ab = [] ∧ c.ba = []

theorem Framed.solo (h : Framed fs load argv) : ∃ outs ins,
    Solo nextHost (doBuiltinCmd argv) ins outs (.done (.returned 1)) ∧
    Solo nextLoop (command fs load) outs ins (.done .ready) := by
  obtain ⟨c, hend, ha, hb, hab, hba⟩ := h
  obtain ⟨insA, outsA, insB, outsB, hA, hB, hsent, hread, -⟩ := Reach.history (hend.reach .refl)
  rw [hab, List.append_nil, noised_id] at hsent
  rw [hba, List.append_nil] at hread
  subst hsent hread
  rw [ha] at hA
  rw [hb] at hB
  exact ⟨insB, insA, hA, hB⟩

theorem framed_of_solo {p : Prog Byte Host} {line reply : List Byte}
    (hsend : Solo nextHost (doBuiltinCmd argv) [] line p)
    (hpi : Solo nextLoop (command fs load) line reply (.done .ready))
    (hread : Solo nextHost p reply [] (.done (.returned 1))) : Framed fs load argv := by
  rw [← noised_id 0 line] at hpi
  obtain ⟨k, hk⟩ := turn (fun _ => id) 0 hsend hpi
  obtain ⟨l, hl⟩ := turn (fun _ => id) (0 + line.length) hread (.idle nextLoop (.done .ready))
  exact ⟨_, (hk.trans hl).inevitable diamond (stuck_done rfl rfl), rfl, rfl, rfl, rfl⟩

/-- `tokenize` splits at white space. -/
def isSpace (c : Byte) : Prop := c = 32 ∨ 9 ≤ c ∧ c ≤ 13

structure IsToken (arg : List Byte) : Prop where
  nonempty : arg ≠ []
  noNul : 0 ∉ arg
  noSpace : ∀ c ∈ arg, ¬ isSpace c

theorem IsToken.noNewline {arg : List Byte} (h : IsToken arg) : newline ∉ arg := fun hmem =>
  h.noSpace newline hmem (.inr (by decide))

/-- The commands with a path. -/
inductive PathCmd where
  | ls | cat | run

namespace PathCmd

def name : PathCmd → String
  | ls => "ls"
  | cat => "cat"
  | run => "run"

/-- What the kernel does before it prints the marker. -/
def body (fs : Files Dirent) : PathCmd → List Byte → Call Unit
  | ls => doLs fs
  | cat => doRead fs
  | run => doRun fs

/-- The line the host sends, without its newline. -/
def line (cmd : PathCmd) (path : List Byte) : List Byte := lit cmd.name ++ lit " " ++ path

end PathCmd

theorem cString_of_noNul {s : List Byte} (h : 0 ∉ s) : cString s = s := by
  unfold cString
  apply List.takeWhile_eq_self_iff.mpr
  intro b hb
  have hne : b ≠ 0 := fun hb0 => h (hb0 ▸ hb)
  simpa using hne

theorem startsWith_iff {buf : List Byte} (h : 0 ∉ buf) (s : String) :
    startsWith buf s ↔ lit s <+: buf := by
  unfold startsWith
  rw [cString_of_noNul h]

theorem PathCmd.noNul_line (cmd : PathCmd) {path : List Byte} (hpath : 0 ∉ path) :
    0 ∉ cmd.line path := by
  have hname : 0 ∉ lit cmd.name ++ lit " " := by cases cmd <;> decide
  exact fun h => (List.mem_append.mp h).elim hname hpath

theorem dispatch_pathCmd (cmd : PathCmd) {path : List Byte} (hpath : 0 ∉ path) :
    dispatch fs load (cmd.line path) = runCall (do
      cmd.body fs path
      printk cmdDone) := by
  have hnul := cmd.noNul_line hpath
  have hecho : ¬ startsWith (cmd.line path) "echo " := by
    rw [startsWith_iff hnul]
    cases cmd <;> simp [PathCmd.line, PathCmd.name, lit]
  have hreboot : ¬ cString (cmd.line path) = lit "reboot" := by
    rw [cString_of_noNul hnul]
    cases cmd <;> simp [PathCmd.line, PathCmd.name, lit]
  have hstarts : ∀ s, startsWith (cmd.line path) s ↔ lit s <+: cmd.line path :=
    startsWith_iff hnul
  unfold dispatch
  rw [if_neg hecho, if_neg hreboot]
  cases cmd with
  | ls =>
    have hls : startsWith (PathCmd.ls.line path) "ls " :=
      (hstarts _).mpr (List.prefix_append _ _)
    rw [if_pos hls]
    change runCall (doLs fs (cString path) >>= _) = _
    rw [cString_of_noNul hpath]
    rfl
  | cat =>
    have hls : ¬ startsWith (PathCmd.cat.line path) "ls " := by
      rw [hstarts]
      simp [PathCmd.line, PathCmd.name, lit]
    have hcat : startsWith (PathCmd.cat.line path) "cat " :=
      (hstarts _).mpr (List.prefix_append _ _)
    rw [if_neg hls, if_pos hcat]
    change runCall (doRead fs (cString path) >>= _) = _
    rw [cString_of_noNul hpath]
    rfl
  | run =>
    have hls : ¬ startsWith (PathCmd.run.line path) "ls " := by
      rw [hstarts]
      simp [PathCmd.line, PathCmd.name, lit]
    have hcat : ¬ startsWith (PathCmd.run.line path) "cat " := by
      rw [hstarts]
      simp [PathCmd.line, PathCmd.name, lit]
    have hrun : startsWith (PathCmd.run.line path) "run " :=
      (hstarts _).mpr (List.prefix_append _ _)
    rw [if_neg hls, if_neg hcat, if_pos hrun]
    change runCall (doRun fs (cString path) >>= _) = _
    rw [cString_of_noNul hpath]
    rfl

/-- The command's own output, and then the marker if it returns. -/
theorem marked_of_result {c : Call Unit} (h : c.result = some ()) :
    (c >>= fun _ => printk cmdDone) = ⟨c.printed ++ cmdDone, some ()⟩ := by
  have hmark : printk cmdDone = ⟨cmdDone, some ()⟩ := rfl
  obtain ⟨printed, result⟩ := c
  cases h
  rw [hmark]
  rfl

theorem result_of_marked {c : Call Unit}
    (h : (c >>= fun _ => printk cmdDone).result = some ()) : c.result = some () := by
  obtain ⟨printed, result⟩ := c
  cases result with
  | none => cases h
  | some u => rfl

theorem doBuiltinCmd_pathCmd (cmd : PathCmd) (path : List Byte) :
    doBuiltinCmd [lit cmd.name, path] = putCommand cmd.name [lit cmd.name, path] := by
  cases cmd <;> rfl

theorem PathCmd.name_ne_nil (cmd : PathCmd) : lit cmd.name ++ lit " " ≠ [] := by
  cases cmd <;> decide

theorem PathCmd.noNewline_line (cmd : PathCmd) {path : List Byte} (hpath : newline ∉ path) :
    newline ∉ cmd.line path := by
  have hname : newline ∉ lit cmd.name ++ lit " " := by cases cmd <;> decide
  exact fun h => (List.mem_append.mp h).elim hname hpath

theorem PathCmd.line_ne_nil (cmd : PathCmd) (path : List Byte) : cmd.line path ≠ [] :=
  List.append_ne_nil_of_left_ne_nil cmd.name_ne_nil path

theorem framed_pathCmd (cmd : PathCmd) {path : List Byte} (hpath : IsToken path) :
    Framed fs load [lit cmd.name, path] ↔ (cmd.line path).length < 1024 ∧
      (cmd.body fs path).result = some () ∧ scan 0 (cmd.body fs path).printed = some 0 := by
  have hdispatch : dispatch fs load (cmd.line path) =
      runCall (cmd.body fs path >>= fun _ => printk cmdDone) := dispatch_pathCmd cmd hpath.noNul
  have hnewline := cmd.noNewline_line hpath.noNewline
  have hnl : [newline] ≠ [] := List.cons_ne_nil _ _
  constructor
  · intro h
    obtain ⟨outs, ins, hhost, hpi⟩ := h.solo
    rw [doBuiltinCmd_pathCmd] at hhost
    obtain ⟨o1, rfl, h1⟩ := solo_of_piPut cmd.name_ne_nil hhost
    obtain ⟨o2, rfl, h2⟩ := solo_of_piPut hpath.nonempty h1
    obtain ⟨o3, rfl, h3⟩ := solo_of_piPut hnl h2
    obtain ⟨hends, rfl⟩ := solo_of_echoing h3
    rw [List.append_nil, ← List.append_assoc] at hpi
    obtain ⟨hlen, hres, rfl⟩ := command_ready (cmd.line_ne_nil path) hnewline
      (fun _ => hdispatch) hpi
    have hbody := result_of_marked hres
    rw [marked_of_result hbody, endsWith_reply] at hends
    exact ⟨hlen, hbody, hends⟩
  · rintro ⟨hlen, hbody, hscan⟩
    have hsend : Solo nextHost (doBuiltinCmd [lit cmd.name, path]) []
        (lit cmd.name ++ lit " " ++ (path ++ ([newline] ++ []))) echoUntil := by
      rw [doBuiltinCmd_pathCmd]
      exact solo_piPut cmd.name_ne_nil (solo_piPut hpath.nonempty (solo_piPut hnl (.refl _)))
    rw [List.append_nil, ← List.append_assoc] at hsend
    have hpi := solo_command (cmd.line_ne_nil path) hnewline hlen hdispatch
    rw [marked_of_result hbody] at hpi
    have hends := (endsWith_reply _).mpr hscan
    exact framed_of_solo hsend hpi (solo_echoing hends)

/-- The line and the buffers of `echo` leave room for its reply. -/
theorem length_argLine (argv : List (List Byte))
    (h : (argv.map fun arg => min arg.length 256 + 1).sum ≤ 255) :
    (argLine argv).length ≤ (argv.map fun arg => min arg.length 256 + 1).sum := by
  induction argv using argLine.induct with
  | case1 => exact Nat.le_refl _
  | case2 arg =>
    simp only [List.map_cons, List.map_nil, List.sum_cons, List.sum_nil] at h ⊢
    have hlen : (argLine [arg]).length = arg.length := rfl
    omega
  | case3 arg args hargs ih =>
    cases args with
    | nil => exact absurd rfl hargs
    | cons b bs =>
      rw [List.map_cons, List.sum_cons] at h ⊢
      have hrest := ih (by omega)
      have hlen : (argLine (arg :: b :: bs)).length =
          arg.length + (1 + (argLine (b :: bs)).length) := by
        change (arg ++ (lit " " ++ argLine (b :: bs))).length = _
        rw [List.length_append, List.length_append]
        rfl
      omega

theorem notMem_argLine {x : Byte} (hx : x ∉ lit " ") {argv : List (List Byte)}
    (h : ∀ arg ∈ argv, x ∉ arg) : x ∉ argLine argv := by
  induction argv using argLine.induct with
  | case1 => exact List.not_mem_nil
  | case2 arg => exact h arg (List.mem_singleton_self arg)
  | case3 arg args hargs ih =>
    cases args with
    | nil => exact absurd rfl hargs
    | cons b bs =>
      have hrest := ih fun a ha => h a (List.mem_cons_of_mem arg ha)
      intro hmem
      rcases List.mem_append.mp hmem with hmem | hmem
      · exact h arg List.mem_cons_self hmem
      · exact (List.mem_append.mp hmem).elim hx hrest

theorem doBuiltinCmd_echo (args : List (List Byte)) :
    doBuiltinCmd (lit "echo" :: args) = putArgs (lit "echo" :: args)
      (if echoSize (lit "echo" :: args) > 256 then return .panicked "echo payload is too big"
        else piReadline 256 [] fun _ => return .returned 1) := by
  unfold doBuiltinCmd
  exact if_pos rfl

theorem printk_line {text : List Byte} (hnul : 0 ∉ text) (hlen : text.length < 1023) :
    printk (text ++ [newline]) = ⟨text ++ [newline], some ()⟩ := by
  have hall : 0 ∉ text ++ [newline] := fun h =>
    (List.mem_append.mp h).elim hnul (by decide)
  have htake : (text ++ [newline]).length ≤ 1023 := by
    rw [List.length_append]
    exact hlen
  unfold printk
  rw [cString_of_noNul hall, List.take_of_length_le htake]

theorem framed_echo {args : List (List Byte)} (htok : ∀ arg ∈ args, IsToken arg) :
    Framed fs load (lit "echo" :: args) ↔
      args ≠ [] ∧ echoSize (lit "echo" :: args) ≤ 256 := by
  have hne : ∀ arg ∈ lit "echo" :: args, arg ≠ [] := by
    intro arg harg
    rcases List.mem_cons.mp harg with rfl | harg
    · decide
    · exact (htok arg harg).nonempty
  have hcons : lit "echo" :: args ≠ [] := List.cons_ne_nil _ _
  constructor
  · intro h
    obtain ⟨outs, ins, hhost, hpi⟩ := h.solo
    rw [doBuiltinCmd_echo] at hhost
    obtain ⟨o1, rfl, h1⟩ := solo_of_putArgs hcons hne hhost
    by_cases hsize : echoSize (lit "echo" :: args) > 256
    · rw [if_pos hsize] at h1
      obtain ⟨-, -, hq⟩ := Solo.of_done h1 rfl
      cases hq
    · rw [if_neg hsize] at h1
      obtain ⟨line, ins', rfl, h2⟩ := solo_of_piReadline h1
      obtain ⟨rfl, rfl, -⟩ := Solo.of_done h2 rfl
      refine ⟨?_, Nat.not_lt.mp hsize⟩
      rintro rfl
      have hsilent : dispatch fs load (lit "echo") = runCall ⟨[], some ()⟩ := rfl
      obtain ⟨-, -, hreply⟩ := command_ready (by decide) (by decide) (fun _ => hsilent) hpi
      exact absurd hreply (by simp)
  · rintro ⟨hargs, hsize⟩
    have hsum : ((lit "echo" :: args).map fun arg => min arg.length 256 + 1).sum ≤ 255 :=
      Nat.le_of_succ_le_succ hsize
    have hlen := (length_argLine _ hsum).trans hsum
    have hline : argLine (lit "echo" :: args) = lit "echo " ++ argLine args := by
      cases args with
      | nil => exact absurd rfl hargs
      | cons b bs => rfl
    have hnul : 0 ∉ argLine args := notMem_argLine (by decide) fun arg harg => (htok arg harg).noNul
    have hnewline : newline ∉ argLine args :=
      notMem_argLine (by decide) fun arg harg => (htok arg harg).noNewline
    rw [hline, List.length_append] at hlen
    have hfive : (lit "echo ").length = 5 := rfl
    have hecho : startsWith (lit "echo " ++ argLine args) "echo " := by
      rw [startsWith_iff fun h => (List.mem_append.mp h).elim (by decide) hnul]
      exact List.prefix_append _ _
    have hdispatch : dispatch fs load (lit "echo " ++ argLine args) =
        runCall ⟨argLine args ++ [newline], some ()⟩ := by
      unfold dispatch
      rw [if_pos hecho, ← printk_line hnul (by omega)]
      rfl
    have hsend : Solo nextHost (doBuiltinCmd (lit "echo" :: args)) []
        (argLine (lit "echo" :: args) ++ newline :: [])
        (piReadline 256 [] fun _ => return .returned 1) := by
      rw [doBuiltinCmd_echo, if_neg (Nat.not_lt.mpr hsize)]
      exact solo_putArgs hcons hne (.refl _)
    rw [hline] at hsend
    have hpi : Solo nextLoop (command fs load) (lit "echo " ++ argLine args ++ [newline])
        (argLine args ++ [newline]) (.done .ready) := by
      refine solo_command ?_ ?_ ?_ hdispatch
      · exact List.append_ne_nil_of_left_ne_nil (by decide) _
      · exact fun h => (List.mem_append.mp h).elim (by decide) hnewline
      · rw [List.length_append]
        omega
    exact framed_of_solo hsend hpi (solo_piReadline hnewline (by omega) (.refl _))

/-- The command lines that `do_builtin_cmd` forwards. -/
inductive Forwarded : List (List Byte) → Prop where
  | echo {args : List (List Byte)} (h : ∀ arg ∈ args, IsToken arg) : Forwarded (lit "echo" :: args)
  | path (cmd : PathCmd) {path : List Byte} (h : IsToken path) : Forwarded [lit cmd.name, path]

/-- `echo` has something to say and room for the reply; the line of the other commands fits the
kernel's buffer, the command returns, and the matcher is at its start when the marker comes. -/
def FramedWhen (fs : Files Dirent) (argv : List (List Byte)) : Prop :=
  (∀ args, argv = lit "echo" :: args → args ≠ [] ∧ echoSize argv ≤ 256) ∧
  ∀ (cmd : PathCmd) path, argv = [lit cmd.name, path] → (cmd.line path).length < 1024 ∧
    (cmd.body fs path).result = some () ∧ scan 0 (cmd.body fs path).printed = some 0

theorem PathCmd.name_ne_echo (cmd : PathCmd) : lit cmd.name ≠ lit "echo" := by
  cases cmd <;> decide

theorem PathCmd.name_injective {cmd cmd' : PathCmd} (h : lit cmd.name = lit cmd'.name) :
    cmd = cmd' := by
  cases cmd <;> cases cmd' <;> first | rfl | exact absurd h (by decide)

theorem reply_framed_iff (fs : Files Dirent) (load : Prog Byte Loop) {argv : List (List Byte)}
    (h : Forwarded argv) : Framed fs load argv ↔ FramedWhen fs argv := by
  cases h with
  | @echo args htok =>
    rw [framed_echo htok]
    constructor
    · refine fun hecho => ⟨fun args' hargs => ?_, fun cmd path hcmd => ?_⟩
      · cases hargs
        exact hecho
      · exact absurd (List.cons.inj hcmd).1.symm cmd.name_ne_echo
    · exact fun hwhen => hwhen.1 args rfl
  | @path cmd path hpath =>
    rw [framed_pathCmd cmd hpath]
    constructor
    · refine fun hcmd => ⟨fun args hargs => ?_, fun cmd' path' hcmd' => ?_⟩
      · exact absurd (List.cons.inj hargs).1 cmd.name_ne_echo
      · obtain ⟨hname, hrest⟩ := List.cons.inj hcmd'
        cases cmd.name_injective hname
        cases hrest
        exact hcmd
    · exact fun hwhen => hwhen.2 cmd path rfl

/-- Under these conditions the host stops reading exactly where the reply ends. -/
theorem reply_framed (fs : Files Dirent) (load : Prog Byte Loop) {argv : List (List Byte)}
    (h : Forwarded argv) (hwhen : FramedWhen fs argv) : Framed fs load argv :=
  (reply_framed_iff fs load h).mpr hwhen

end Session

section Example

/-- A disk on which every path is a file with the given text. -/
def oneFile (text : List Byte) : Files Unit where
  isDirP := fun _ => false
  pathLookup := fun _ => return some ()
  readDir := fun _ => return []
  readFile := fun _ => return text
  execFile := fun _ => return ()

theorem isToken_path : IsToken (lit "/a") where
  nonempty := by decide
  noNul := by decide
  noSpace := by simp [lit, isSpace]

theorem reply_framed_cat : Framed (oneFile (lit "hi")) (return .ready) [lit "cat", lit "/a"] :=
  reply_framed (oneFile (lit "hi")) (return .ready) (.path .cat isToken_path)
    ⟨fun _ hargs => absurd (List.cons.inj hargs).1 PathCmd.cat.name_ne_echo, fun cmd path hcmd => by
      obtain ⟨hname, hrest⟩ := List.cons.inj hcmd
      have hcmd : PathCmd.cat = cmd := PathCmd.name_injective hname
      subst hcmd
      cases hrest
      exact ⟨by decide, rfl, rfl⟩⟩

/-- The marker is in-band: a file that contains it ends the host's wait too early. -/
theorem marker_file_not_framed :
    ¬ Framed (oneFile (lit "CMD-DONE\n")) (return .ready) [lit "cat", lit "/a"] := by
  intro h
  obtain ⟨-, -, hscan⟩ := (framed_pathCmd .cat isToken_path).mp h
  exact absurd hscan (by decide)

end Example
end SimplePiOS.Shell
