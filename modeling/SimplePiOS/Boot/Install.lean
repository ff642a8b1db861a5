import SimplePiOS.Boot.Agreement
import SimplePiOS.Shell.Session

/-! Whole boot sessions: one after the other until an image is accepted, and from my-install to the last
output of the program. -/
namespace SimplePiOS.Boot
open Lib Lib.Fifo Libpi
open Lib.Matcher (feed restart feed_append)
open Shell (cString cString_of_noNul done done_eq_feed exitString length_readFile lit putBytes readFile solo_putBytes)

section Retry
variable {fuel n : ℕ} {m : Mem} {buf : List Byte} {noise : ℕ → Byte → Byte} {ws : List (BitVec 32)}

/-- The ways a session fails: a word of the header comes as another, or the words of the image do, under a
checksum that tells. `ws` is what the Pi stores of it. -/
inductive Damaged (noise : ℕ → Byte → Byte) (buf : List Byte) : List (BitVec 32) → Prop where
  | start {u v w : BitVec 32} (hu : u ≠ soh) (hv : v ≠ soh) (hw : w ≠ soh)
    (hheader : noised noise 0 (headerBytes buf) = leBytes u ++ (leBytes v ++ leBytes w))
    (hnak : noised noise 12 (leBytes nak) = leBytes nak) : Damaged noise buf []
  | size {v w : BitVec 32} (hv : v ≠ BitVec.ofNat 32 buf.length)
    (hheader : noised noise 0 (headerBytes buf) = leBytes soh ++ (leBytes v ++ leBytes w))
    (hnak : noised noise 12 (leBytes nak) = leBytes nak) : Damaged noise buf []
  | code {w : BitVec 32} (hw : w ≠ crc32 buf)
    (hheader : noised noise 0 (headerBytes buf) =
      leBytes soh ++ (leBytes (BitVec.ofNat 32 buf.length) ++ leBytes w))
    (hnak : noised noise 12 (leBytes nak) = leBytes nak) : Damaged noise buf []
  | image {ws : List (BitVec 32)} (hws : 4 * ws.length = buf.length) (hcrc : crc32 (wordBytes ws) ≠ crc32 buf)
    (hheader : noised noise 0 (headerBytes buf) = headerBytes buf)
    (hbody : noised noise 12 (bodyBytes buf) = leBytes ack ++ (wordBytes ws ++ leBytes eot))
    (hnak : noised noise (buf.length + 20) (leBytes nak) = leBytes nak) : Damaged noise buf ws

/-- What the host waits for after the header. -/
def awaitEcho (buf : List Byte) : Prog Byte Outcome :=
  expect "bad SOH" soh <|
    expect "bad size cksum" (crc32 (leBytes (BitVec.ofNat 32 buf.length))) <|
    expect "bad code cksum" (crc32 buf) do
      putUint ack
      forM (toWords buf) putUint
      putUint eot
      awaitAck

theorem solo_header (h4 : buf.length % 4 = 0) :
    Solo nextHost (simpleBoot buf) [] (headerBytes buf) (awaitEcho buf) := by
  have hhead : headerBytes buf = leBytes soh ++ (leBytes (BitVec.ofNat 32 buf.length) ++
      (leBytes (crc32 buf) ++ [])) := by
    rw [headerBytes, List.append_nil]
  unfold simpleBoot
  rw [if_neg (not_not_intro h4), hhead]
  exact solo_putUint _ (solo_putUint _ (solo_putUint _ (.refl _)))

/-- A wrong word makes the host give up. -/
theorem solo_unexpected {msg : String} {u v : BitVec 32} {p : Prog Byte Outcome} (h : u ≠ v) :
    Solo nextHost (expect msg v p) (leBytes u) (leBytes nak) (.done (.panicked msg)) := by
  rw [← List.append_nil (leBytes u), ← List.append_nil (leBytes nak)]
  apply solo_getUint
  rw [if_pos h]
  exact solo_putUint _ (.refl _)

variable (fuel m) in
/-- Whatever is not the start of a header is refused. -/
theorem solo_not_start {u : BitVec 32} (h : u ≠ soh) :
    Solo (nextAttempt fuel) (attempt fuel m) (leBytes u) (leBytes nak) (attempt fuel m) := by
  rw [← List.append_nil (leBytes u), ← List.append_nil (leBytes nak)]
  conv in attempt fuel m => unfold attempt receiveImage
  rw [bind_assoc]
  apply solo_getUint
  rw [if_pos h]
  apply solo_putUint
  exact .next rfl (.refl _)

variable (fuel m) in
/-- A header is echoed, and unless it is confirmed the attempt is over. -/
theorem solo_unconfirmed (v w : BitVec 32) :
    ∃ q, Solo (nextAttempt fuel) (attempt fuel m) (leBytes soh ++ (leBytes v ++ leBytes w))
        (leBytes soh ++ (leBytes (crc32 (leBytes v)) ++ leBytes w)) q ∧
      Solo (nextAttempt fuel) q (leBytes nak) (leBytes nak) (attempt fuel m) := by
  rw [← List.append_nil (leBytes w), ← List.append_nil (leBytes nak)]
  unfold attempt receiveImage
  refine ⟨?rest, ?header, ?answer⟩
  case header =>
    rw [bind_assoc]
    apply solo_getUint
    rw [if_neg (not_not_intro rfl), bind_assoc]
    apply solo_getUint
    rw [bind_assoc]
    apply solo_getUint
    rw [bind_assoc]
    apply solo_putUint
    rw [bind_assoc]
    apply solo_putUint
    rw [bind_assoc]
    apply solo_putUint
    exact .refl _
  case answer =>
    rw [bind_assoc]
    apply solo_getUint
    rw [if_pos (show nak ≠ ack by decide)]
    apply solo_putUint
    exact .next rfl (.refl _)

/-- The host reads what makes it give up, and its last word is refused. -/
theorem run_give_up {msg : String} {p : Prog Byte Outcome} {q : Prog Byte (Option Received)} {ins : List Byte}
    (ba : List Byte)
    (hhost : Solo nextHost p ins (leBytes nak) (.done (.panicked msg)))
    (hpi : Solo (nextAttempt fuel) q (leBytes nak) (leBytes nak) (attempt fuel m))
    (hnak : noised noise n (leBytes nak) = leBytes nak) :
    ∃ k, RunN (BootStep fuel noise) k ⟨p, q, [], ins ++ ba, n⟩
      ⟨.done (.panicked msg), attempt fuel m, [], ba ++ leBytes nak, n + 4⟩ := by
  obtain ⟨k, hk⟩ : ∃ k, RunN (BootStep fuel noise) k ⟨p, q, [], ins ++ ba, n⟩
      ⟨.done (.panicked msg), q, [] ++ noised noise n (leBytes nak), ba, n + 4⟩ := hhost.runA q [] ba n
  obtain ⟨l, hl⟩ : ∃ l, RunN (BootStep fuel noise) l
      ⟨.done (.panicked msg), q, leBytes nak ++ [], ba, n + 4⟩
      ⟨.done (.panicked msg), attempt fuel m, [], ba ++ leBytes nak, n + 4⟩ := hpi.runB _ [] ba (n + 4)
  rw [hnak, List.nil_append] at hk
  rw [List.append_nil] at hl
  exact ⟨k + l, hk.trans hl⟩

/-- The host has given up, and the Pi is at the start of its next attempt with nothing on its way to it. -/
structure GivenUp (fuel : ℕ) (m : Mem) (c : Config Byte Outcome (Option Received)) : Prop where
  host : ∃ msg, c.a = .done (.panicked msg)
  pi : c.b = attempt fuel m
  toPi : c.ab = []

theorem GivenUp.stuck {c : Config Byte Outcome (Option Received)} (h : GivenUp fuel m c) :
    Stuck (BootStep fuel noise) c := by
  obtain ⟨a, b, ab, ba, count⟩ := c
  obtain ⟨⟨msg, rfl⟩, rfl, rfl⟩ := h
  intro d hd
  rcases hd with hd | hd <;> cases hd

theorem refused (m : Mem) (h4 : buf.length % 4 = 0) (hn : buf.length < 2 ^ 31) (hfuel : buf.length / 4 < fuel)
    (h : Damaged noise buf ws) :
    ∃ c, Inevitable (BootStep fuel noise) (bootStart fuel buf m) c ∧
      GivenUp fuel (storeWords m armbase ws) c := by
  suffices hrun : ∃ k c, RunN (BootStep fuel noise) k (bootStart fuel buf m) c ∧
      GivenUp fuel (storeWords m armbase ws) c by
    obtain ⟨k, c, hk, hc⟩ := hrun
    exact ⟨c, hk.inevitable diamond hc.stuck, hc⟩
  have hturn : ∀ {outs : List Byte} {q : Prog Byte (Option Received)},
      Solo (nextAttempt fuel) (attempt fuel m) (noised noise 0 (headerBytes buf)) outs q →
      ∃ k, RunN (BootStep fuel noise) k (bootStart fuel buf m) ⟨awaitEcho buf, q, [], outs, 12⟩ := fun hpi =>
    turn noise 0 (solo_header h4) hpi
  cases h with
  | @start u v w hu hv hw hheader hnak =>
    have hpi := (solo_not_start fuel m hu).trans ((solo_not_start fuel m hv).trans (solo_not_start fuel m hw))
    obtain ⟨k, hk⟩ := hturn (by rw [hheader]; exact hpi)
    obtain ⟨l, hl⟩ := run_give_up (leBytes nak ++ leBytes nak) (solo_unexpected (show nak ≠ soh by decide))
      (solo_not_start fuel m (show nak ≠ soh by decide)) hnak
    exact ⟨k + l, _, hk.trans hl, ⟨_, rfl⟩, rfl, rfl⟩
  | @size v w hv hheader hnak =>
    obtain ⟨q, hpi, hrefuse⟩ := solo_unconfirmed fuel m v w
    obtain ⟨k, hk⟩ := hturn (by rw [hheader]; exact hpi)
    have hcrc : crc32 (leBytes v) ≠ crc32 (leBytes (BitVec.ofNat 32 buf.length)) := fun heq =>
      hv (crc32_leBytes_injective heq)
    have hhost : Solo nextHost (awaitEcho buf) (leBytes soh ++ leBytes (crc32 (leBytes v))) (leBytes nak)
        (.done (.panicked "bad size cksum")) := solo_expect (solo_unexpected hcrc)
    obtain ⟨l, hl⟩ := run_give_up (leBytes w) hhost hrefuse hnak
    rw [List.append_assoc] at hl
    exact ⟨k + l, _, hk.trans hl, ⟨_, rfl⟩, rfl, rfl⟩
  | @code w hw hheader hnak =>
    obtain ⟨q, hpi, hrefuse⟩ := solo_unconfirmed fuel m (BitVec.ofNat 32 buf.length) w
    obtain ⟨k, hk⟩ := hturn (by rw [hheader]; exact hpi)
    have hhost : Solo nextHost (awaitEcho buf)
        (leBytes soh ++ (leBytes (crc32 (leBytes (BitVec.ofNat 32 buf.length))) ++ leBytes w)) (leBytes nak)
        (.done (.panicked "bad code cksum")) := solo_expect (solo_expect (solo_unexpected hw))
    obtain ⟨l, hl⟩ := run_give_up [] hhost hrefuse hnak
    rw [List.append_nil] at hl
    exact ⟨k + l, _, hk.trans hl, ⟨_, rfl⟩, rfl, rfl⟩
  | image hws hcrc hheader hbody hnak =>
    have hresponse : (verdict m ws (crc32 buf)).response = nak := by
      rw [verdict, if_pos hcrc]
    obtain ⟨k, hk⟩ := run_to_reply (m := m) hn hws hfuel hheader hbody
    rw [hresponse] at hk
    have hnext : nextAttempt fuel (some (verdict m ws (crc32 buf))) =
        some (attempt fuel (storeWords m armbase ws)) := by
      change (if _ ≠ ack then some _ else none) = _
      rw [hresponse, if_pos (show nak ≠ ack by decide)]
      rfl
    obtain ⟨l, hl⟩ := run_give_up [] (solo_unexpected (show nak ≠ ack by decide))
      (.next hnext (solo_not_start _ _ (show nak ≠ soh by decide))) hnak
    rw [List.append_nil] at hl
    exact ⟨k + l, _, hk.trans hl, ⟨_, rfl⟩, rfl, rfl⟩

/-- A session that fails. -/
structure Try where
  buf : List Byte
  noise : ℕ → Byte → Byte
  words : List (BitVec 32)
  aligned : buf.length % 4 = 0
  short : buf.length < 2 ^ 31
  damaged : Damaged noise buf words

/-- Sessions that all fail, and what they leave in memory. What the host has not read is dropped when it
closes the line. -/
inductive Refusals (fuel : ℕ) : Mem → List Try → Mem → Prop where
  | nil (m : Mem) : Refusals fuel m [] m
  | cons {m m₁ m₂ : Mem} {t : Try} {ts : List Try} {c : Config Byte Outcome (Option Received)}
    (hend : Inevitable (BootStep fuel t.noise) (bootStart fuel t.buf m) c) (h : GivenUp fuel m₁ c)
    (hrest : Refusals fuel m₁ ts m₂) : Refusals fuel m (t :: ts) m₂

/-- The addresses an image is loaded to. -/
def InImage (buf : List Byte) (x : ℕ) : Prop := armbase ≤ x ∧ x < armbase + buf.length

theorem Damaged.length_le (h : Damaged noise buf ws) : 4 * ws.length ≤ buf.length := by
  cases h with
  | start => exact Nat.zero_le _
  | size => exact Nat.zero_le _
  | code => exact Nat.zero_le _
  | image hws => exact Nat.le_of_eq hws

theorem storeWords_outside_image (hws : 4 * ws.length ≤ buf.length) (hn : buf.length < 2 ^ 31) {x : ℕ}
    (hx : ¬ InImage buf x) : storeWords m armbase ws x = m x := by
  unfold InImage at hx
  exact storeWords_outside ws (by omega) (by unfold armbase; omega)

theorem refusals (ts : List Try) (hfuel : ∀ t ∈ ts, t.buf.length / 4 < fuel) :
    ∃ m', Refusals fuel m ts m' ∧ ∀ x, (∀ t ∈ ts, ¬ InImage t.buf x) → m' x = m x := by
  induction ts generalizing m with
  | nil => exact ⟨m, .nil m, fun _ _ => rfl⟩
  | cons t ts ih =>
    obtain ⟨c, hend, hgiven⟩ := refused m t.aligned t.short (hfuel t List.mem_cons_self) t.damaged
    obtain ⟨m', hrest, hframe⟩ := ih (m := storeWords m armbase t.words)
      fun u hu => hfuel u (List.mem_cons_of_mem t hu)
    refine ⟨m', .cons hend hgiven hrest, fun x hx => ?_⟩
    rw [hframe x fun u hu => hx u (List.mem_cons_of_mem t hu)]
    exact storeWords_outside_image t.damaged.length_le t.short (hx t List.mem_cons_self)

theorem length_toWords (h4 : buf.length % 4 = 0) : 4 * (toWords buf).length = buf.length := by
  rw [← length_wordBytes, wordBytes_toWords buf h4]

/-- The memory with an image in place. -/
def loaded (m : Mem) (buf : List Byte) : Mem := storeWords m armbase (toWords buf)

theorem readBytes_loaded (h4 : buf.length % 4 = 0) (hn : buf.length < 2 ^ 31) :
    readBytes (loaded m buf) armbase buf.length = buf := by
  have hread : readBytes (loaded m buf) armbase (4 * (toWords buf).length) = wordBytes (toWords buf) :=
    readBytes_storeWords _ (by have := length_toWords h4; unfold armbase; omega)
  rwa [length_toWords h4, wordBytes_toWords buf h4] at hread

/-- What an attempt makes of an image that comes intact. -/
theorem verdict_intact (h4 : buf.length % 4 = 0) :
    verdict m (toWords buf) (crc32 buf) = ⟨ack, loaded m buf, buf.length⟩ := by
  rw [verdict, wordBytes_toWords buf h4, length_toWords h4, if_neg (not_not_intro rfl)]
  rfl

theorem accepted (h4 : buf.length % 4 = 0) (hn : buf.length < 2 ^ 31)
    (hfuel : buf.length / 4 < fuel) :
    Inevitable (BootStep fuel fun _ => id) (bootStart fuel buf m)
      ⟨.done .returned, .done (some ⟨ack, loaded m buf, buf.length⟩), [], [], buf.length + 20⟩ := by
  have hbody : noised (fun _ => id) 12 (bodyBytes buf) =
      leBytes ack ++ (wordBytes (toWords buf) ++ leBytes eot) := by
    rw [noised_id, wordBytes_toWords buf h4, bodyBytes]
  obtain ⟨k, hk⟩ := run_to_reply (m := m) hn (length_toWords h4) hfuel (noised_id 0 _) hbody
  rw [verdict_intact h4] at hk
  have hlast : Solo nextHost awaitAck (leBytes ack ++ []) [] (.done .returned) := solo_expect (.refl _)
  obtain ⟨l, hl⟩ := turn (fun _ => id) (buf.length + 20) hlast
    (.idle (nextAttempt fuel) (.done (some ⟨ack, loaded m buf, buf.length⟩)))
  exact (hk.trans hl).inevitable diamond (stuck_done rfl rfl)

/-- However many sessions have failed, the next one that comes intact is accepted: every interleaving of
its session ends with both sides agreed on it, and but for the places of the images the memory is as at first. -/
theorem boot_recovers (ts : List Try) (buf : List Byte) (m : Mem) (h4 : buf.length % 4 = 0)
    (hn : buf.length < 2 ^ 31) (hfuel : buf.length / 4 < fuel) (hts : ∀ t ∈ ts, t.buf.length / 4 < fuel) :
    ∃ m' m'' c, Refusals fuel m ts m' ∧ Inevitable (BootStep fuel fun _ => id) (bootStart fuel buf m') c ∧
      c.a = .done .returned ∧ c.b = .done (some ⟨ack, m'', buf.length⟩) ∧
      readBytes m'' armbase buf.length = buf ∧
      ∀ x, (∀ t ∈ ts, ¬ InImage t.buf x) → ¬ InImage buf x → m'' x = m x := by
  obtain ⟨m', hrefusals, hframe⟩ := refusals (m := m) ts hts
  refine ⟨m', loaded m' buf, _, hrefusals, accepted h4 hn hfuel, rfl, rfl, readBytes_loaded h4 hn, ?_⟩
  intro x hx hout
  rw [← hframe x hx]
  exact storeWords_outside_image (Nat.le_of_eq (length_toWords h4)) hn hout

/-- First the start word comes as another, then the image. -/
theorem boot_recovers_twice : ∃ ts : List Try, ts.length = 2 ∧ ∃ m' m'' c,
    Refusals 2 (fun _ => 0) ts m' ∧ Inevitable (BootStep 2 fun _ => id) (bootStart 2 [1, 2, 3, 4] m') c ∧
    c.a = .done .returned ∧ c.b = .done (some ⟨ack, m'', 4⟩) ∧ readBytes m'' armbase 4 = [1, 2, 3, 4] ∧
    ∀ x, (∀ t ∈ ts, ¬ InImage t.buf x) → ¬ InImage [1, 2, 3, 4] x → m'' x = 0 := by
  have hfirst : Damaged (fun i b => if i = 0 then 0x79 else b) [1, 2, 3, 4] [] :=
    .start (u := ofLeBytes 0x79 0x56 0x34 0x12) (v := 4) (w := crc32 [1, 2, 3, 4]) (by decide) (by decide)
      (by decide +kernel) (by decide +kernel) (by decide)
  have hsecond : Damaged (fun i b => if i = 16 then 9 else b) [1, 2, 3, 4] [ofLeBytes 9 2 3 4] :=
    .image rfl (by decide +kernel) (by decide +kernel) (by decide +kernel) (by decide)
  refine ⟨[⟨_, _, _, rfl, by decide, hfirst⟩, ⟨_, _, _, rfl, by decide, hsecond⟩], rfl, ?_⟩
  apply boot_recovers _ [1, 2, 3, 4] (fun _ => 0) rfl (by decide) (by decide)
  intro t ht
  simp only [List.mem_cons, List.not_mem_nil, or_false] at ht
  obtain rfl | rfl := ht
  · exact show 4 / 4 < 2 by decide
  · exact show 4 / 4 < 2 by decide

end Retry

section Install

/-- Where my-install is, or how it ended. `cuts` says how many bytes each `read` of `echo` returns. -/
inductive Install where
  | echoing (pos : ℕ) (printed : List Byte) (cuts : List ℕ)
  | exited (printed : List Byte)
  | panicked (msg : String)
  | failed
  deriving DecidableEq

def getBytes : ℕ → Prog Byte (List Byte)
  | 0 => return []
  | n + 1 => do
    let b ← getByte
    let bs ← getBytes n
    return b :: bs

/-- `main` of install.c from `simple_boot` on, for a program without `-exec` and `-silent`. -/
def afterBoot (cuts : List ℕ) : Outcome → Prog Byte Install
  | .panicked msg => return .panicked msg
  | .returned => return .echoing 0 [] cuts

def install (cuts : List ℕ) : Option (List Byte) → Prog Byte Install
  | none => return .panicked "Failed to open file"
  | some file => simpleBoot (readFile file) >>= afterBoot cuts

/-- What `echo` makes of a buffer. It prints up to the first NUL. -/
def echoBuf (pos : ℕ) (printed : List Byte) (cuts : List ℕ) (buf : List Byte) : Install :=
  match done pos buf with
  | .more pos => .echoing pos (printed ++ cString buf) cuts
  | .seen _ => .exited (printed ++ cString buf)
  | .failed => .failed

/-- The loop of `echo`. -/
def nextInstall : Install → Option (Prog Byte Install)
  | .echoing pos printed (n :: cuts) => some do
    let buf ← getBytes n
    return echoBuf pos printed cuts buf
  | _ => none

/-- The Pi in its bootloader, and after the branch. -/
inductive PiStage where
  | loading (r : Option Received)
  | rebooted

/-- `notmain` of bootloader.c; `runs` is what the code at `ARMBASE` prints before it reboots. -/
def nextPi (fuel : ℕ) (runs : Mem → List Byte) : PiStage → Option (Prog Byte PiStage)
  | .loading none => none
  | .loading (some r) => some <|
    if r.response ≠ ack then do
      let r ← attempt fuel r.mem
      return .loading r
    else do
      putBytes (runs r.mem)
      return .rebooted
  | .rebooted => none

abbrev InstallStep (fuel : ℕ) (runs : Mem → List Byte) :
    Config Byte Install PiStage → Config Byte Install PiStage → Prop :=
  Step nextInstall (nextPi fuel runs) fun _ => id

def installStart (fuel : ℕ) (file : List Byte) (cuts : List ℕ) (m : Mem) : Config Byte Install PiStage :=
  ⟨install cuts (some file), attempt fuel m >>= fun r => return .loading r, [], [], 0⟩

section Echo
variable {ins outs out : List Byte} {q : Prog Byte Install} {next : Install → Option (Prog Byte Install)} {pos : ℕ}
  {cuts : List ℕ}

theorem solo_getBytes (bs : List Byte) {k : List Byte → Prog Byte Install} (h : Solo next (k bs) ins outs q) :
    Solo next (getBytes bs.length >>= k) (bs ++ ins) outs q := by
  induction bs generalizing k with
  | nil => exact h
  | cons b bs ih =>
    rw [List.length_cons, getBytes, bind_assoc]
    apply Solo.recv
    change Solo next ((getBytes bs.length >>= fun bs => return b :: bs) >>= k) (bs ++ ins) outs q
    rw [bind_assoc]
    exact ih h

/-- The bytes of the first `i` reads. -/
def readsOf (cuts : List ℕ) (out : List Byte) (i : ℕ) : List Byte := out.take (cuts.take i).sum

@[simp] theorem readsOf_zero (cuts : List ℕ) (out : List Byte) : readsOf cuts out 0 = [] := by
  simp [readsOf]

theorem readsOf_cons (n i : ℕ) (cuts : List ℕ) (out : List Byte) :
    readsOf (n :: cuts) out (i + 1) = out.take n ++ readsOf cuts (out.drop n) i := by
  simp [readsOf, List.take_add]

/-- One turn of the loop. -/
theorem solo_turn (pos n : ℕ) (cuts : List ℕ) (printed : List Byte) {buf : List Byte} (hbuf : buf.length = n) :
    Solo nextInstall (.done (.echoing pos printed (n :: cuts))) buf [] (.done (echoBuf pos printed cuts buf)) := by
  subst hbuf
  have hread : Solo nextInstall (getBytes buf.length >>= fun buf => return echoBuf pos printed cuts buf) (buf ++ [])
      [] (.done (echoBuf pos printed cuts buf)) := solo_getBytes buf (.refl _)
  rw [List.append_nil] at hread
  exact .next rfl hread

/-- The loop stops after the read in which the exit string is completed, and has printed what it has read. -/
theorem solo_echo (cuts : List ℕ) (printed : List Byte) (hpos : pos < exitString.length) (h0 : 0 ∉ out)
    (hcuts : cuts.sum = out.length) (hseen : (feed (restart exitString) pos out).Seen) :
    ∃ i, (feed (restart exitString) pos (readsOf cuts out (i + 1))).Seen ∧
      ¬ (feed (restart exitString) pos (readsOf cuts out i)).Seen ∧
      Solo nextInstall (.done (.echoing pos printed cuts)) (readsOf cuts out (i + 1)) []
        (.done (.exited (printed ++ readsOf cuts out (i + 1)))) := by
  induction cuts generalizing pos out printed with
  | nil =>
    have hnil : out = [] := List.eq_nil_of_length_eq_zero hcuts.symm
    rw [hnil] at hseen
    exact absurd hseen Matcher.not_seen_more
  | cons n cuts ih =>
    rw [List.sum_cons] at hcuts
    have hbuf : (out.take n).length = n := by
      rw [List.length_take]
      omega
    have hclean : 0 ∉ out.take n := fun hmem => h0 (List.mem_of_mem_take hmem)
    have hturn := solo_turn pos n cuts printed hbuf
    unfold echoBuf at hturn
    rw [done_eq_feed hpos hclean, cString_of_noNul hclean] at hturn
    simp only [readsOf_cons]
    rw [← List.take_append_drop n out, feed_append] at hseen
    cases hfeed : feed (restart exitString) pos (out.take n) with
    | seen unread =>
      simp only [hfeed] at hturn
      refine ⟨0, ?_, ?_, ?_⟩
      · simp [hfeed]
      · simp [feed]
      · simpa using hturn
    | more pos' =>
      simp only [hfeed] at hturn hseen
      obtain ⟨i, hlast, hbefore, hsolo⟩ := ih (printed ++ out.take n) (Matcher.feed_restart_lt hpos hfeed)
        (fun hmem => h0 (List.mem_of_mem_drop hmem)) (by rw [List.length_drop]; omega) hseen
      refine ⟨i + 1, ?_, ?_, ?_⟩
      · rwa [feed_append, hfeed]
      · rwa [readsOf_cons, feed_append, hfeed]
      · rw [← List.append_assoc]
        exact hturn.trans hsolo
    | failed =>
      simp only [hfeed] at hseen
      exact absurd hseen Matcher.not_seen_failed

end Echo

section Run
variable {fuel : ℕ} {runs : Mem → List Byte} {m : Mem} {buf : List Byte}

theorem embeds_attempt (fuel : ℕ) (runs : Mem → List Byte) :
    Embeds (nextAttempt fuel) (nextPi fuel runs) PiStage.loading := by
  intro x p hp
  cases x with
  | none => cases hp
  | some r =>
    by_cases hack : r.response ≠ ack
    · have hattempt : nextAttempt fuel (some r) = some (attempt fuel r.mem) := if_pos hack
      rw [hattempt] at hp
      cases hp
      simp [nextPi, hack]
    · have hnone : nextAttempt fuel (some r) = none := if_neg hack
      rw [hnone] at hp
      cases hp

variable (runs m) in
/-- The Pi accepts the image and runs it. -/
theorem solo_pi (hn : buf.length < 2 ^ 31) (h4 : buf.length % 4 = 0) (hfuel : buf.length / 4 < fuel) :
    ∃ q, Solo (nextPi fuel runs) (attempt fuel m >>= fun r => return .loading r) (headerBytes buf)
        (echoBytes buf) q ∧
      Solo (nextPi fuel runs) q (bodyBytes buf) (leBytes ack ++ runs (loaded m buf)) (.done .rebooted) := by
  have hws := length_toWords h4
  obtain ⟨q, hheader, hbody⟩ := solo_attempt m (crc32 buf) (toWords buf) (by omega) (show _ < fuel by omega)
  rw [verdict_intact h4, wordBytes_toWords buf h4] at hbody
  rw [hws] at hheader
  have hrun : Solo (nextPi fuel runs) (.done (.loading (some ⟨ack, loaded m buf, buf.length⟩))) []
      (runs (loaded m buf) ++ []) (.done .rebooted) := by
    refine .next rfl ?_
    rw [if_neg (not_not_intro rfl)]
    exact solo_putBytes _ (.refl _)
  rw [List.append_nil] at hrun
  have hlast := (hbody.embed (embeds_attempt fuel runs)).trans hrun
  rw [List.append_nil] at hlast
  exact ⟨_, hheader.embed (embeds_attempt fuel runs), hlast⟩

/-- my-install on a file of any length: every interleaving ends, whatever the reads of the output return each time.
The file, with zeros up to a multiple of four, is in memory when the Pi branches to it and nothing else has changed,
and the host has printed all it has read up to the read in which the exit string was completed. -/
theorem install_runs (fuel : ℕ) (runs : Mem → List Byte) (file : List Byte) (cuts : List ℕ) (m : Mem)
    (hn : (readFile file).length < 2 ^ 31) (hfuel : (readFile file).length / 4 < fuel) :
    ∃ m', readBytes m' armbase (readFile file).length = readFile file ∧
      (∀ x, ¬ InImage (readFile file) x → m' x = m x) ∧
      ∀ out, runs m' = out → 0 ∉ out → cuts.sum = out.length → (feed (restart exitString) 0 out).Seen →
        ∃ i c, Inevitable (InstallStep fuel runs) (installStart fuel file cuts m) c ∧
          c.a = .done (.exited (readsOf cuts out (i + 1))) ∧ c.b = .done .rebooted ∧
          (feed (restart exitString) 0 (readsOf cuts out (i + 1))).Seen ∧
          ¬ (feed (restart exitString) 0 (readsOf cuts out i)).Seen := by
  have h4 := length_readFile file
  refine ⟨loaded m (readFile file), readBytes_loaded h4 hn, fun x hx => ?_, ?_⟩
  · exact storeWords_outside_image (Nat.le_of_eq (length_toWords h4)) hn hx
  rintro out rfl h0 hcuts hseen
  obtain ⟨p, hask, hsend⟩ := solo_simpleBoot (readFile file) h4
  obtain ⟨q, hecho, hrun⟩ := solo_pi runs m hn h4 hfuel
  obtain ⟨i, hlast, hbefore, hprint⟩ := solo_echo cuts [] (by decide) h0 hcuts hseen
  have hnone : ∀ x, nextHost x = none := fun _ => rfl
  have hwait : Solo nextHost awaitAck (leBytes ack ++ []) [] (.done .returned) := solo_expect (.refl _)
  have hwait' := (hwait.once hnone nextInstall (afterBoot cuts)).trans hprint
  rw [List.append_nil, List.append_nil] at hwait'
  obtain ⟨k, hk⟩ := turn (fun _ => id) 0 (hask.once hnone nextInstall (afterBoot cuts))
    (by rw [noised_id]; exact hecho)
  obtain ⟨l, hl⟩ := turn (fun _ => id) (0 + (headerBytes (readFile file)).length)
    (hsend.once hnone nextInstall (afterBoot cuts)) (by rw [noised_id]; exact hrun)
  have hsplit : leBytes ack ++ runs (loaded m (readFile file)) =
      leBytes ack ++ readsOf cuts (runs (loaded m (readFile file))) (i + 1) ++
        (runs (loaded m (readFile file))).drop (cuts.take (i + 1)).sum := by
    rw [List.append_assoc, readsOf, List.take_append_drop]
  rw [hsplit] at hl
  obtain ⟨j, hj⟩ : ∃ j, RunN (InstallStep fuel runs) j _ ⟨_, .done PiStage.rebooted, [], _, _⟩ :=
    hwait'.runA (.done PiStage.rebooted) [] _ _
  exact ⟨i, _, ((hk.trans hl).trans hj).inevitable diamond (stuck_done rfl rfl), rfl, rfl, hlast, hbefore⟩

/-- A file of six bytes, and a program that says hi. The second read has the end of it. -/
theorem install_runs_hi : ∃ i c,
    Inevitable (InstallStep 3 fun _ => lit "hi\nDONE!!!\n")
      (installStart 3 [1, 2, 3, 4, 5, 6] [5, 6] fun _ => 0) c ∧
    c.a = .done (.exited (readsOf [5, 6] (lit "hi\nDONE!!!\n") (i + 1))) ∧ c.b = .done .rebooted ∧
    (feed (restart exitString) 0 (readsOf [5, 6] (lit "hi\nDONE!!!\n") (i + 1))).Seen ∧
    ¬ (feed (restart exitString) 0 (readsOf [5, 6] (lit "hi\nDONE!!!\n") i)).Seen := by
  have hseen : feed (restart exitString) 0 (lit "hi\nDONE!!!\n") = .seen [] := by decide
  obtain ⟨m', -, -, hrun⟩ := install_runs 3 (fun _ => lit "hi\nDONE!!!\n") [1, 2, 3, 4, 5, 6] [5, 6] (fun _ => 0)
    (by decide) (by decide)
  exact hrun _ rfl (by decide) (by decide) ⟨[], hseen⟩

end Run

end Install
end SimplePiOS.Boot
