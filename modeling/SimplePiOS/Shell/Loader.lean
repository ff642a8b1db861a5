import SimplePiOS.Boot.Protocol

/-! Program download: `send_prog` of the Unix shell and `load_code` of the kernel. -/
namespace SimplePiOS.Shell
open Lib Lib.Fifo Libpi
open Boot (ack nak eot)

/-- kernel/shell.h. -/
def protocolVersion : BitVec 32 := 2
def lastUsedAddresses : BitVec 32 := 0x9000000
def maxAddress : BitVec 32 := 0x16000000

/-- How `send_prog` ends. -/
inductive Sent where
  | returned
  | panicked (expected got : BitVec 32)
  | assertFailed
  deriving DecidableEq

/-- Read a word and go on if it is the expected one. -/
def expectVal (v : BitVec 32) (p : Prog Byte Sent) : Prog Byte Sent := do
  let got ← getUint
  if v ≠ got then return .panicked v got else p

/-- The image carries its own header: the version and the load address are its first words. -/
def sendProg (prog : List Byte) : Prog Byte Sent :=
  let code := toWords prog
  if prog.length % 4 ≠ 0 then return .assertFailed
  else expectVal ack do
    putUint (code.getD 0 0)
    putUint (code.getD 1 0)
    putUint (BitVec.ofNat 32 prog.length)
    putUint (crc32 prog)
    expectVal ack do
      forM code putUint
      putUint eot
      expectVal ack (return .returned)

/-- What `load_code` returns, and the memory it leaves. -/
structure Loaded where
  entry : BitVec 32
  mem : Mem

def reject (m : Mem) : Prog Byte (Option Loaded) := do
  putUint nak
  return some ⟨0, m⟩

/-- `none` when the bound on the turns of the copying loop is used up. -/
def loadCode (fuel : ℕ) (m : Mem) : Prog Byte (Option Loaded) := do
  putUint ack
  let version ← getUint
  let addr ← getUint
  let nbytes ← getUint
  let checksum ← getUint
  if version ≠ protocolVersion then reject m
  else if addr < lastUsedAddresses ∨ addr + nbytes > maxAddress then reject m
  else if nbytes % 4 ≠ 0 then reject m
  else
    putUint ack
    match ← loadWords addr.toNat nbytes.toNat fuel 0 m with
    | none => return none
    | some m =>
      let last ← getUint
      if last ≠ eot then reject m
      else if crc32 (readBytes m addr.toNat nbytes.toNat) ≠ checksum then reject m
      else
        putUint ack
        return some ⟨addr + 8, m⟩

/-- Each side runs once. -/
def nextSender (_ : Sent) : Option (Prog Byte Sent) := none
def nextLoader (_ : Option Loaded) : Option (Prog Byte (Option Loaded)) := none

/-- Both sides at the start, nothing in flight. -/
def downloadStart (fuel : ℕ) (prog : List Byte) (m : Mem) :
    Config Byte Sent (Option Loaded) :=
  ⟨sendProg prog, loadCode fuel m, [], [], 0⟩

/-- Any interleaving of the two sides, over intact channels. -/
abbrev DownloadStep : Config Byte Sent (Option Loaded) → Config Byte Sent (Option Loaded) → Prop :=
  Step nextSender nextLoader fun _ => id

/-- The version and the address in the image's first words. -/
def version (prog : List Byte) : BitVec 32 := (toWords prog).getD 0 0
def loadAddr (prog : List Byte) : BitVec 32 := (toWords prog).getD 1 0

/-- The header passes the checks of `load_code`. -/
structure HeaderOk (version addr nbytes : BitVec 32) : Prop where
  version : version = protocolVersion
  low : lastUsedAddresses ≤ addr
  high : addr + nbytes ≤ maxAddress
  aligned : nbytes % 4 = 0

section Sides
variable {prog : List Byte} {fuel : ℕ} {m : Mem} {ins outs : List Byte}

theorem solo_expectVal {v : BitVec 32} {p q : Prog Byte Sent} (h : Solo nextSender p ins outs q) :
    Solo nextSender (expectVal v p) (leBytes v ++ ins) outs q := by
  apply solo_getUint
  rw [if_neg (not_not_intro rfl)]
  exact h

theorem solo_expectVal_of_ne {v u : BitVec 32} {p : Prog Byte Sent} (h : v ≠ u) :
    Solo nextSender (expectVal v p) (leBytes u) [] (.done (.panicked v u)) := by
  rw [← List.append_nil (leBytes u)]
  apply solo_getUint
  rw [if_pos h]
  exact .refl _

/-- The four words `send_prog` sends before the image. -/
def progHeader (prog : List Byte) : List Byte :=
  leBytes (version prog) ++ (leBytes (loadAddr prog) ++
    (leBytes (BitVec.ofNat 32 prog.length) ++ leBytes (crc32 prog)))

@[simp] theorem length_progHeader (prog : List Byte) : (progHeader prog).length = 16 := rfl

/-- The sender after the header. -/
def sendBody (prog : List Byte) : Prog Byte Sent := expectVal ack do
  forM (toWords prog) putUint
  putUint eot
  expectVal ack (return .returned)

theorem solo_sendProg (h4 : prog.length % 4 = 0) :
    Solo nextSender (sendProg prog) (leBytes ack) (progHeader prog) (sendBody prog) := by
  have hhead : progHeader prog = leBytes (version prog) ++ (leBytes (loadAddr prog) ++
      (leBytes (BitVec.ofNat 32 prog.length) ++ (leBytes (crc32 prog) ++ []))) := by
    rw [progHeader, List.append_nil]
  unfold sendProg
  rw [if_neg (not_not_intro h4), hhead, ← List.append_nil (leBytes ack)]
  apply solo_expectVal
  exact solo_putUint _ (solo_putUint _ (solo_putUint _ (solo_putUint _ (.refl _))))

theorem solo_sendBody (h4 : prog.length % 4 = 0) :
    Solo nextSender (sendBody prog) (leBytes ack) (prog ++ leBytes eot)
      (expectVal ack (return .returned)) := by
  have hbody : prog ++ leBytes eot = wordBytes (toWords prog) ++ (leBytes eot ++ []) := by
    rw [List.append_nil, wordBytes_toWords prog h4]
  unfold sendBody
  rw [hbody, ← List.append_nil (leBytes ack)]
  apply solo_expectVal
  exact solo_putWords _ (solo_putUint _ (.refl _))

theorem HeaderOk.checks {v a n : BitVec 32} (h : HeaderOk v a n) :
    ¬ v ≠ protocolVersion ∧ ¬ (a < lastUsedAddresses ∨ a + n > maxAddress) ∧ ¬ n % 4 ≠ 0 :=
  ⟨not_not_intro h.version, not_or.mpr ⟨BitVec.not_lt.mpr h.low, BitVec.not_lt.mpr h.high⟩,
    not_not_intro h.aligned⟩

/-- `load_code` announces itself, and answers the header by NAK or ACK. -/
theorem solo_loadCode (fuel : ℕ) (m : Mem) (v a n c : BitVec 32) :
    ∃ q, Solo nextLoader (loadCode fuel m) [] (leBytes ack) q ∧
      (¬ HeaderOk v a n → Solo nextLoader q
        (leBytes v ++ (leBytes a ++ (leBytes n ++ leBytes c))) (leBytes nak)
        (.done (some ⟨0, m⟩))) ∧
      (HeaderOk v a n → a.toNat + n.toNat < 2 ^ 32 → ∀ ws : List (BitVec 32),
        4 * ws.length = n.toNat → ws.length < fuel → crc32 (wordBytes ws) = c →
        ∃ q', Solo nextLoader q (leBytes v ++ (leBytes a ++ (leBytes n ++ leBytes c)))
            (leBytes ack) q' ∧
          Solo nextLoader q' (wordBytes ws ++ leBytes eot) (leBytes ack)
            (.done (some ⟨a + 8, storeWords m a.toNat ws⟩))) := by
  rw [← List.append_nil (leBytes ack), ← List.append_nil (leBytes nak),
    ← List.append_nil (leBytes c), ← List.append_nil (leBytes eot)]
  unfold loadCode
  refine ⟨_, solo_putUint _ (.refl _), fun hbad => ?rejected, fun hok hwrap ws hlen hfuel hcrc => ?accepted⟩
  case rejected =>
    apply solo_getUint
    apply solo_getUint
    apply solo_getUint
    apply solo_getUint
    have hreply : Solo nextLoader (reject m) [] (leBytes nak ++ []) (.done (some ⟨0, m⟩)) :=
      solo_putUint _ (.refl _)
    by_cases hv : v ≠ protocolVersion
    · rw [if_pos hv]
      exact hreply
    · rw [if_neg hv]
      by_cases haddr : a < lastUsedAddresses ∨ a + n > maxAddress
      · rw [if_pos haddr]
        exact hreply
      · rw [if_neg haddr]
        by_cases hn : n % 4 ≠ 0
        · rw [if_pos hn]
          exact hreply
        · obtain ⟨hlow, hhigh⟩ := not_or.mp haddr
          exact absurd ⟨not_not.mp hv, BitVec.not_lt.mp hlow, BitVec.not_lt.mp hhigh,
            not_not.mp hn⟩ hbad
  case accepted =>
    obtain ⟨hv, haddr, hn⟩ := hok.checks
    have hread : readBytes (storeWords m a.toNat ws) a.toNat n.toNat = wordBytes ws := by
      rw [← hlen]
      exact readBytes_storeWords ws (by omega)
    refine ⟨?rest, ?header, ?image⟩
    case header =>
      apply solo_getUint
      apply solo_getUint
      apply solo_getUint
      apply solo_getUint
      rw [if_neg hv, if_neg haddr, if_neg hn]
      apply solo_putUint
      exact .refl _
    case image =>
      apply solo_loadWords ws (by omega) n.isLt hfuel
      have haddr0 : add32 a.toNat 0 = a.toNat := Nat.mod_eq_of_lt a.isLt
      rw [haddr0]
      apply solo_getUint
      rw [if_neg (not_not_intro rfl), hread, if_neg (not_not_intro hcrc)]
      exact solo_putUint _ (.refl _)

end Sides

section Session
variable {prog : List Byte} {fuel : ℕ} {m : Mem}

/-- The image is in place: both sides have returned and read all that was sent. -/
structure Downloaded (prog : List Byte) (m : Mem) (c : Config Byte Sent (Option Loaded))
    (m' : Mem) : Prop where
  host : c.a = .done .returned
  pi : c.b = .done (some ⟨loadAddr prog + 8, m'⟩)
  image : readBytes m' (loadAddr prog).toNat prog.length = prog
  frame : ∀ x, x < (loadAddr prog).toNat ∨ (loadAddr prog).toNat + prog.length ≤ x → m' x = m x
  toPi : c.ab = []
  toHost : c.ba = []

/-- The image is refused: the host has read NAK with only its header sent, and the Pi has read
all of that. -/
structure Refused (m : Mem) (c : Config Byte Sent (Option Loaded)) : Prop where
  host : c.a = .done (.panicked ack nak)
  pi : c.b = .done (some ⟨0, m⟩)
  sent : c.count = 16
  toPi : c.ab = []
  toHost : c.ba = []

/-- However the two sides interleave, they end together, and the checks of the header decide
how. -/
theorem loadCode_agreement (h4 : prog.length % 4 = 0) (hn : prog.length < 2 ^ 31)
    (hfuel : prog.length / 4 < fuel) :
    (HeaderOk (version prog) (loadAddr prog) (BitVec.ofNat 32 prog.length) →
      (loadAddr prog).toNat + prog.length < 2 ^ 32 →
      ∃ c m', Inevitable DownloadStep (downloadStart fuel prog m) c ∧ Downloaded prog m c m') ∧
    (¬ HeaderOk (version prog) (loadAddr prog) (BitVec.ofNat 32 prog.length) →
      ∃ c, Inevitable DownloadStep (downloadStart fuel prog m) c ∧ Refused m c) := by
  have hsize : (BitVec.ofNat 32 prog.length).toNat = prog.length := by
    rw [BitVec.toNat_ofNat]
    omega
  have hwords : wordBytes (toWords prog) = prog := wordBytes_toWords prog h4
  have hlen : 4 * (toWords prog).length = prog.length := by
    rw [← length_wordBytes, hwords]
  obtain ⟨q, hready, hbad, hok⟩ := solo_loadCode fuel m (version prog) (loadAddr prog)
    (BitVec.ofNat 32 prog.length) (crc32 prog)
  obtain ⟨k1, h1⟩ := turn (fun _ => id) 0 (.idle nextSender (sendProg prog)) hready
  have hhost := solo_sendProg h4
  constructor
  · intro hheader hwrap
    obtain ⟨q', hpi, hpi'⟩ := hok hheader (by omega) (toWords prog) (by omega) (by omega)
      (by rw [hwords])
    rw [hwords] at hpi'
    rw [← noised_id (0 + [].length) (leBytes (version prog) ++ _)] at hpi
    obtain ⟨k2, h2⟩ := turn (fun _ => id) (0 + [].length) hhost hpi
    rw [← noised_id (0 + [].length + (progHeader prog).length) (prog ++ leBytes eot)] at hpi'
    obtain ⟨k3, h3⟩ := turn (fun _ => id) (0 + [].length + (progHeader prog).length)
      (solo_sendBody h4) hpi'
    have hlast : Solo nextSender (expectVal ack (return .returned)) (leBytes ack ++ []) []
        (.done .returned) := solo_expectVal (.refl _)
    obtain ⟨k4, h4'⟩ := turn (fun _ => id)
      (0 + [].length + (progHeader prog).length + (prog ++ leBytes eot).length) hlast
      (.idle nextLoader
        (.done (some ⟨loadAddr prog + 8, storeWords m (loadAddr prog).toNat (toWords prog)⟩)))
    have hrun := ((h1.trans h2).trans h3).trans h4'
    refine ⟨_, _, hrun.inevitable diamond (stuck_done rfl rfl), rfl, rfl, ?_, ?_, rfl, rfl⟩
    · rw [← hlen, readBytes_storeWords _ (by omega), hwords]
    · intro x hx
      rw [← hlen] at hx
      exact storeWords_outside _ hx (by omega)
  · intro hheader
    have hpi := hbad hheader
    rw [← noised_id (0 + [].length) (leBytes (version prog) ++ _)] at hpi
    obtain ⟨k2, h2⟩ := turn (fun _ => id) (0 + [].length) hhost hpi
    have hlast : Solo nextSender (sendBody prog) (leBytes nak) [] (.done (.panicked ack nak)) :=
      solo_expectVal_of_ne (by decide)
    obtain ⟨k3, h3⟩ := turn (fun _ => id) (0 + [].length + (progHeader prog).length)
      hlast (.idle nextLoader (.done (some ⟨0, m⟩)))
    have hrun := (h1.trans h2).trans h3
    exact ⟨_, hrun.inevitable diamond (stuck_done rfl rfl), rfl, rfl, rfl, rfl, rfl⟩

/-- Two words, version 2 and address 0x9000000, the lowest that is accepted. -/
theorem loadCode_agreement_smallest :
    ∃ c m', Inevitable DownloadStep (downloadStart 3 [2, 0, 0, 0, 0, 0, 0, 9] fun _ => 0) c ∧
      Downloaded [2, 0, 0, 0, 0, 0, 0, 9] (fun _ => 0) c m' :=
  (loadCode_agreement rfl (by decide) (by decide)).1
    ⟨by decide, by decide, by decide, by decide⟩ (by decide)

end Session
end SimplePiOS.Shell
