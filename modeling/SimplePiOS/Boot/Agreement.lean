import SimplePiOS.Boot.Protocol

/-! What the two ends agree on, whatever happens to the words on their way to the Pi. -/
namespace SimplePiOS.Boot
open Lib Lib.Fifo Libpi

section Host
variable {ins outs : List Byte} {buf : List Byte} {x : Outcome}

theorem solo_of_expect {msg : String} {v : BitVec 32} {p : Prog Byte Outcome}
    (h : Solo nextHost (expect msg v p) ins outs (.done .returned)) :
    ∃ ins', ins = leBytes v ++ ins' ∧ Solo nextHost p ins' outs (.done .returned) := by
  obtain ⟨u, ins', rfl, h1⟩ := solo_of_getUint h (.inr trivial)
  by_cases hu : u = v
  · subst hu
    rw [if_neg (not_not_intro rfl)] at h1
    exact ⟨ins', rfl, h1⟩
  · rw [if_pos hu] at h1
    obtain ⟨outs', _, h2⟩ := solo_of_putUint h1 (.inr trivial)
    obtain ⟨_, _, hdone⟩ := Solo.of_done h2 rfl
    cases hdone

/-- What the host sends: the header, and after the echo the image. -/
def headerBytes (buf : List Byte) : List Byte :=
  leBytes soh ++ (leBytes (BitVec.ofNat 32 buf.length) ++ leBytes (crc32 buf))

def bodyBytes (buf : List Byte) : List Byte := leBytes ack ++ (buf ++ leBytes eot)

/-- What it has read when it returns. -/
def echoBytes (buf : List Byte) : List Byte :=
  leBytes soh ++ (leBytes (crc32 (leBytes (BitVec.ofNat 32 buf.length))) ++ leBytes (crc32 buf))

theorem solo_of_simpleBoot (h4 : buf.length % 4 = 0)
    (h : Solo nextHost (simpleBoot buf) ins outs (.done .returned)) :
    ins = echoBytes buf ++ leBytes ack ∧ outs = headerBytes buf ++ bodyBytes buf := by
  unfold simpleBoot at h
  rw [if_neg (not_not_intro h4)] at h
  obtain ⟨o1, rfl, h1⟩ := solo_of_putUint h (.inr trivial)
  obtain ⟨o2, rfl, h2⟩ := solo_of_putUint h1 (.inr trivial)
  obtain ⟨o3, rfl, h3⟩ := solo_of_putUint h2 (.inr trivial)
  obtain ⟨i1, rfl, h4'⟩ := solo_of_expect h3
  obtain ⟨i2, rfl, h5⟩ := solo_of_expect h4'
  obtain ⟨i3, rfl, h6⟩ := solo_of_expect h5
  obtain ⟨o4, rfl, h7⟩ := solo_of_putUint h6 (.inr trivial)
  obtain ⟨o5, rfl, h8⟩ := solo_of_putWords h7 trivial
  obtain ⟨o6, rfl, h9⟩ := solo_of_putUint h8 (.inr trivial)
  obtain ⟨i4, rfl, h10⟩ := solo_of_expect h9
  obtain ⟨rfl, rfl, -⟩ := Solo.of_done h10 rfl
  unfold echoBytes headerBytes bodyBytes
  rw [wordBytes_toWords buf h4]
  simp only [List.append_assoc, List.append_nil, and_self]

theorem solo_expect {msg : String} {v : BitVec 32} {p q : Prog Byte Outcome}
    (h : Solo nextHost p ins outs q) : Solo nextHost (expect msg v p) (leBytes v ++ ins) outs q := by
  apply solo_getUint
  rw [if_neg (not_not_intro rfl)]
  exact h

/-- The host's last wait. -/
def awaitAck : Prog Byte Outcome := expect "no ACK" ack (return .returned)

/-- It stops after the header until the echo has come. -/
theorem solo_simpleBoot (buf : List Byte) (h4 : buf.length % 4 = 0) :
    ∃ p, Solo nextHost (simpleBoot buf) [] (headerBytes buf) p ∧
      Solo nextHost p (echoBytes buf) (bodyBytes buf) awaitAck := by
  have hhead : headerBytes buf = leBytes soh ++ (leBytes (BitVec.ofNat 32 buf.length) ++
      (leBytes (crc32 buf) ++ [])) := by
    rw [headerBytes, List.append_nil]
  have hecho : echoBytes buf = leBytes soh ++
      (leBytes (crc32 (leBytes (BitVec.ofNat 32 buf.length))) ++ (leBytes (crc32 buf) ++ [])) := by
    rw [echoBytes, List.append_nil]
  have hbody : bodyBytes buf = leBytes ack ++ (wordBytes (toWords buf) ++ (leBytes eot ++ [])) := by
    rw [bodyBytes, List.append_nil, wordBytes_toWords buf h4]
  unfold simpleBoot
  rw [if_neg (not_not_intro h4), hhead, hecho, hbody]
  refine ⟨_, solo_putUint _ (solo_putUint _ (solo_putUint _ (.refl _))), ?_⟩
  apply solo_expect
  apply solo_expect
  apply solo_expect
  exact solo_putUint _ (solo_putWords _ (solo_putUint _ (.refl _)))

end Host

section Pi
variable {fuel : ℕ} {m : Mem} {ins outs ba : List Byte} {q : Prog Byte (Option Received)}

/-- A reply of one word, then whatever comes next. -/
theorem solo_of_reply {r : Received} {u : BitVec 32} {outs : List Byte}
    (h : Solo (nextAttempt fuel) (putUint r.response >>= fun _ => .done (some r)) ins
      (leBytes u ++ outs) q) :
    r.response = u ∧ Solo (nextAttempt fuel) (.done (some r)) ins outs q := by
  have hlen : 4 ≤ (leBytes u ++ outs).length := by
    rw [List.length_append, length_leBytes]
    omega
  obtain ⟨outs', hsplit, h1⟩ := solo_of_putUint h (.inl hlen)
  obtain ⟨rfl, rfl⟩ := leBytes_append_inj hsplit
  exact ⟨rfl, h1⟩

/-- An attempt that echoes a header and then answers ACK used the echoed checksum. -/
theorem solo_of_attempt {size code : BitVec 32} (h4 : size.toNat % 4 = 0)
    (h : Solo (nextAttempt fuel) (attempt fuel m) ins
      (leBytes soh ++ (leBytes (crc32 (leBytes size)) ++ (leBytes code ++ (leBytes ack ++ ba)))) q) :
    ∃ ws, ins = leBytes soh ++ (leBytes size ++ (leBytes code ++
        (leBytes ack ++ (wordBytes ws ++ leBytes eot)))) ∧
      4 * ws.length = size.toNat ∧
      crc32 (readBytes (storeWords m armbase ws) armbase size.toNat) = code ∧
      q = .done (some ⟨ack, storeWords m armbase ws, size.toNat⟩) ∧ ba = [] := by
  have hne : ∀ (u : BitVec 32) (bs : List Byte), leBytes u ++ bs ≠ [] := fun u bs => by simp [leBytes]
  have hlen : ∀ (u : BitVec 32) (bs : List Byte), 4 ≤ (leBytes u ++ bs).length := fun u bs => by
    rw [List.length_append, length_leBytes]
    omega
  have hnak : nak ≠ ack := by decide
  unfold attempt receiveImage at h
  rw [bind_assoc] at h
  obtain ⟨start, i1, rfl, h1⟩ := solo_of_getUint h (.inl (hne _ _))
  by_cases hstart : start = soh
  swap
  · rw [if_pos hstart] at h1
    exact absurd (solo_of_reply h1).1 (show nak ≠ soh by decide)
  rw [if_neg (not_not_intro hstart), bind_assoc] at h1
  obtain ⟨size', i2, rfl, h2⟩ := solo_of_getUint h1 (.inl (hne _ _))
  rw [bind_assoc] at h2
  obtain ⟨code', i3, rfl, h3⟩ := solo_of_getUint h2 (.inl (hne _ _))
  rw [bind_assoc] at h3
  obtain ⟨o1, ho1, h3'⟩ := solo_of_putUint h3 (.inl (hlen _ _))
  obtain ⟨-, rfl⟩ := leBytes_append_inj ho1
  rw [bind_assoc] at h3'
  obtain ⟨o2, ho2, h5⟩ := solo_of_putUint h3' (.inl (hlen _ _))
  obtain ⟨hsize, rfl⟩ := leBytes_append_inj ho2
  rw [bind_assoc] at h5
  obtain ⟨o3, ho3, h6⟩ := solo_of_putUint h5 (.inl (hlen _ _))
  obtain ⟨rfl, rfl⟩ := leBytes_append_inj ho3
  have hsize' := crc32_leBytes_injective hsize
  subst hsize' hstart
  rw [bind_assoc] at h6
  obtain ⟨answer, i4, rfl, h7⟩ := solo_of_getUint h6 (.inl (hne _ _))
  by_cases hanswer : answer = ack
  swap
  · rw [if_pos hanswer] at h7
    exact absurd (solo_of_reply h7).1 hnak
  subst hanswer
  rw [if_neg (not_not_intro rfl), bind_assoc] at h7
  rcases solo_of_loadWords (Nat.zero_mod 4) (Nat.zero_le _) h4 size.isLt h7 (.inl (hne _ _)) with
    ⟨i5, h8⟩ | ⟨ws, i5, rfl, hws, h8⟩
  · obtain ⟨-, hout, -⟩ := Solo.of_done h8 rfl
    exact absurd hout (hne _ _)
  rw [bind_assoc] at h8
  obtain ⟨last, i6, rfl, h9⟩ := solo_of_getUint h8 (.inl (hne _ _))
  by_cases hlast : last = eot
  swap
  · rw [if_pos hlast] at h9
    exact absurd (solo_of_reply h9).1 hnak
  subst hlast
  rw [if_neg (not_not_intro rfl)] at h9
  by_cases hcrc : crc32 (readBytes (storeWords m (add32 armbase 0) ws) armbase size.toNat) = code
  swap
  · rw [if_pos hcrc] at h9
    exact absurd (solo_of_reply h9).1 hnak
  rw [if_neg (not_not_intro hcrc)] at h9
  obtain ⟨rfl, rfl, hq⟩ := Solo.of_done (solo_of_reply h9).2 rfl
  exact ⟨ws, by rw [List.append_nil], by omega, hcrc, hq, rfl⟩

/-- The reply to an image that came as `ws` under the checksum `code`. -/
def verdict (m : Mem) (ws : List (BitVec 32)) (code : BitVec 32) : Received :=
  ⟨if crc32 (wordBytes ws) ≠ code then nak else ack, storeWords m armbase ws, 4 * ws.length⟩

theorem solo_attempt (m : Mem) (code : BitVec 32) (ws : List (BitVec 32))
    (hws : 4 * ws.length < 2 ^ 31) (hfuel : ws.length < fuel) :
    ∃ p, Solo (nextAttempt fuel) (attempt fuel m)
        (leBytes soh ++ (leBytes (BitVec.ofNat 32 (4 * ws.length)) ++ leBytes code))
        (leBytes soh ++ (leBytes (crc32 (leBytes (BitVec.ofNat 32 (4 * ws.length)))) ++
          leBytes code)) p ∧
      Solo (nextAttempt fuel) p (leBytes ack ++ (wordBytes ws ++ leBytes eot))
        (leBytes (verdict m ws code).response) (.done (some (verdict m ws code))) := by
  have hsize : (BitVec.ofNat 32 (4 * ws.length)).toNat = 4 * ws.length := by
    rw [BitVec.toNat_ofNat]
    omega
  have hread : readBytes (storeWords m armbase ws) armbase (4 * ws.length) = wordBytes ws :=
    readBytes_storeWords ws (by unfold armbase; omega)
  generalize hn : BitVec.ofNat 32 (4 * ws.length) = n at hsize ⊢
  rw [← List.append_nil (leBytes code), ← List.append_nil (leBytes eot),
    ← List.append_nil (leBytes (verdict m ws code).response)]
  unfold attempt receiveImage
  refine ⟨?rest, ?header, ?image⟩
  case header =>
    rw [bind_assoc]
    apply solo_getUint
    rw [if_neg (not_not_intro rfl), bind_assoc]
    apply solo_getUint
    rw [bind_assoc]
    apply solo_getUint
    rw [bind_assoc]
    apply solo_putUint
    rw [bind_assoc]
    apply solo_putUint
    rw [bind_assoc]
    apply solo_putUint
    exact .refl _
  case image =>
    rw [bind_assoc]
    apply solo_getUint
    rw [if_neg (not_not_intro rfl), bind_assoc, hsize]
    apply solo_loadWords ws (Nat.zero_add _) (by omega) hfuel
    change Solo _ ((getUint >>= _) >>= _) _ _ _
    rw [bind_assoc]
    apply solo_getUint
    rw [if_neg (not_not_intro rfl)]
    change Solo _ ((if crc32 (readBytes (storeWords m armbase ws) armbase (4 * ws.length)) ≠ code
      then _ else _) >>= _) _ _ _
    rw [hread]
    by_cases hcrc : crc32 (wordBytes ws) = code
    · rw [verdict, if_neg (not_not_intro hcrc), if_neg (not_not_intro hcrc)]
      exact solo_putUint _ (.refl _)
    · rw [verdict, if_pos hcrc, if_pos hcrc]
      exact solo_putUint _ (.refl _)

end Pi

section Session
variable {fuel : ℕ} {noise : ℕ → Byte → Byte} {buf : List Byte} {m : Mem}

@[simp] theorem length_headerBytes (buf : List Byte) : (headerBytes buf).length = 12 := rfl

@[simp] theorem length_bodyBytes (buf : List Byte) : (bodyBytes buf).length = buf.length + 8 := by
  unfold bodyBytes
  simp only [List.length_append, length_leBytes]
  omega

/-- Whatever words come in place of the image, the session gets as far as the reply to them. -/
theorem run_to_reply {ws : List (BitVec 32)} (hn : buf.length < 2 ^ 31)
    (hws : 4 * ws.length = buf.length) (hfuel : buf.length / 4 < fuel)
    (hhead : noised noise 0 (headerBytes buf) = headerBytes buf)
    (hbody : noised noise 12 (bodyBytes buf) = leBytes ack ++ (wordBytes ws ++ leBytes eot)) :
    ∃ k, RunN (BootStep fuel noise) k (bootStart fuel buf m)
      ⟨awaitAck, .done (some (verdict m ws (crc32 buf))), [],
        leBytes (verdict m ws (crc32 buf)).response, buf.length + 20⟩ := by
  obtain ⟨p, hhost, hhost'⟩ := solo_simpleBoot buf (by omega)
  have hlen : ws.length < fuel := by omega
  obtain ⟨q, hpi, hpi'⟩ := solo_attempt m (crc32 buf) ws (by omega) hlen
  rw [hws] at hpi
  have hpi1 : Solo (nextAttempt fuel) (attempt fuel m) (noised noise 0 (headerBytes buf))
      (echoBytes buf) q := by
    rw [hhead]
    exact hpi
  obtain ⟨k, hk⟩ := turn noise 0 hhost hpi1
  rw [length_headerBytes, Nat.zero_add] at hk
  rw [← hbody] at hpi'
  obtain ⟨l, hl⟩ := turn noise 12 hhost' hpi'
  have hcount : 12 + (bodyBytes buf).length = buf.length + 20 := by
    rw [length_bodyBytes]
    omega
  rw [hcount] at hl
  exact ⟨k + l, hk.trans hl⟩

/-- The attempt the Pi accepted: its size is the image's, it wrote `[ARMBASE, ARMBASE + n)` and
nothing else, and what lies there has the image's checksum. -/
structure Booted (buf : List Byte) (m m' : Mem)
    (c : Config Byte Outcome (Option Received)) : Prop where
  pi : c.b = .done (some ⟨ack, m', buf.length⟩)
  checksum : crc32 (readBytes m' armbase buf.length) = crc32 buf
  frame : ∀ x, x < armbase ∨ armbase + buf.length ≤ x → m' x = m x

/-- If the host returns, the Pi has read the host's own words in place of the image. -/
theorem returned_history {c : Config Byte Outcome (Option Received)} (h4 : buf.length % 4 = 0)
    (hn : buf.length < 2 ^ 31)
    (h : Reach nextHost (nextAttempt fuel) noise (bootStart fuel buf m) c)
    (hret : c.a = .done .returned) :
    ∃ ws, 4 * ws.length = buf.length ∧ crc32 (wordBytes ws) = crc32 buf ∧
      c.b = .done (some ⟨ack, storeWords m armbase ws, buf.length⟩) := by
  obtain ⟨insA, outsA, insB, outsB, hA, hB, -, hba, -⟩ := Reach.history h
  rw [hret] at hA
  obtain ⟨rfl, -⟩ := solo_of_simpleBoot h4 hA
  have hsize : (BitVec.ofNat 32 buf.length).toNat = buf.length := by
    rw [BitVec.toNat_ofNat]
    omega
  have hread : outsB = leBytes soh ++
      (leBytes (crc32 (leBytes (BitVec.ofNat 32 buf.length))) ++
        (leBytes (crc32 buf) ++ (leBytes ack ++ c.ba))) := by
    rw [← hba, echoBytes, List.append_assoc, List.append_assoc, List.append_assoc]
  rw [hread] at hB
  obtain ⟨ws, -, hlen, hcrc, hq, -⟩ := solo_of_attempt (by omega) hB
  rw [hsize] at hlen hcrc hq
  rw [← hlen, readBytes_storeWords ws (by unfold armbase; omega)] at hcrc
  exact ⟨ws, hlen, hcrc, hq⟩

/-- Whatever happens to the words on their way to the Pi, a host that returns has booted an
image of its own size and checksum; over an intact channel it returns, with its own image. -/
theorem simpleBoot_agreement (fuel : ℕ) (buf : List Byte) (m : Mem) (h4 : buf.length % 4 = 0)
    (hn : buf.length < 2 ^ 31) :
    (∀ noise c, Reach nextHost (nextAttempt fuel) noise (bootStart fuel buf m) c →
      c.a = .done .returned → ∃ m', Booted buf m m' c) ∧
    (buf.length / 4 < fuel → ∃ c m', Inevitable (BootStep fuel fun _ => id) (bootStart fuel buf m) c ∧
      c.a = .done .returned ∧ Booted buf m m' c ∧ readBytes m' armbase buf.length = buf) := by
  have hframe : ∀ ws : List (BitVec 32), 4 * ws.length = buf.length → ∀ x,
      x < armbase ∨ armbase + buf.length ≤ x → storeWords m armbase ws x = m x := by
    intro ws hws x hx
    rw [← hws] at hx hn
    exact storeWords_outside ws hx (by unfold armbase; omega)
  constructor
  · intro noise c h hret
    obtain ⟨ws, hws, hcrc, hpi⟩ := returned_history h4 hn h hret
    refine ⟨storeWords m armbase ws, hpi, ?_, hframe ws hws⟩
    rw [← hws, readBytes_storeWords ws (by unfold armbase; omega)]
    exact hcrc
  · intro hfuel
    have hwords : wordBytes (toWords buf) = buf := wordBytes_toWords buf h4
    have hws : 4 * (toWords buf).length = buf.length := by
      rw [← length_wordBytes, hwords]
    have hread : readBytes (storeWords m armbase (toWords buf)) armbase buf.length = buf := by
      rw [← hws, readBytes_storeWords _ (by unfold armbase; omega), hwords]
    have hbody : noised (fun _ => id) 12 (bodyBytes buf) =
        leBytes ack ++ (wordBytes (toWords buf) ++ leBytes eot) := by
      rw [noised_id, hwords, bodyBytes]
    obtain ⟨k, hk⟩ := run_to_reply (m := m) hn hws hfuel (noised_id 0 _) hbody
    have hverdict : verdict m (toWords buf) (crc32 buf) =
        ⟨ack, storeWords m armbase (toWords buf), buf.length⟩ := by
      rw [verdict, hwords, hws, if_neg (not_not_intro rfl)]
    rw [hverdict] at hk
    have hlast : Solo nextHost awaitAck (leBytes ack ++ []) [] (.done .returned) :=
      solo_expect (.refl _)
    obtain ⟨l, hl⟩ := turn (fun _ => id) (buf.length + 20) hlast
      (.idle (nextAttempt fuel)
        (.done (some ⟨ack, storeWords m armbase (toWords buf), buf.length⟩)))
    exact ⟨_, _, (hk.trans hl).inevitable diamond (stuck_done rfl rfl), rfl, ⟨rfl, by rw [hread], hframe _ hws⟩,
      hread⟩

theorem simpleBoot_agreement_word :
    ∃ c m', Inevitable (BootStep 2 fun _ => id) (bootStart 2 [1, 2, 3, 4] fun _ => 0) c ∧
      c.a = .done .returned ∧ Booted [1, 2, 3, 4] (fun _ => 0) m' c ∧
      readBytes m' armbase 4 = [1, 2, 3, 4] :=
  (simpleBoot_agreement 2 [1, 2, 3, 4] (fun _ => 0) rfl (by decide)).2 (by decide)

/-- The Pi has refused an image: it waits in the next attempt, and has not answered ACK. -/
def Waiting (p : Prog Byte (Option Received)) : Prop := ∃ k, p = .recv k

/-- The host gives up on NAK and sends one itself, which the Pi reads as the start of the next
session. -/
theorem run_after_nak (fuel : ℕ) (noise : ℕ → Byte → Byte) {r : Received} (hr : r.response = nak) (n : ℕ) :
    ∃ k c, RunN (BootStep fuel noise) k ⟨awaitAck, .done (some r), [], leBytes nak, n⟩ c ∧
      c.a = .done (.panicked "no ACK") ∧ Waiting c.b ∧ c.ab = [] := by
  have hhost : Solo nextHost awaitAck (leBytes nak ++ []) (leBytes nak ++ [])
      (.done (.panicked "no ACK")) := by
    apply solo_getUint
    rw [if_pos (show nak ≠ ack by decide)]
    exact solo_putUint _ (.refl _)
  rw [List.append_nil] at hhost
  have hnext : nextAttempt fuel (some r) = some (attempt fuel r.mem) := by
    change (if r.response ≠ ack then some (attempt fuel r.mem) else none) = _
    rw [hr, if_pos (show nak ≠ ack by decide)]
  obtain ⟨u, hu⟩ : ∃ u, noised noise n (leBytes nak) = leBytes u ++ [] := by
    refine ⟨ofLeBytes (noise n 6) (noise (n + 1) 0) (noise (n + 2) 0) (noise (n + 3) 0), ?_⟩
    rw [leBytes_ofLeBytes]
    rfl
  by_cases hsoh : u = soh
  · obtain ⟨j, hpi⟩ : ∃ j, Solo (nextAttempt fuel) (.done (some r))
        (noised noise n (leBytes nak)) [] (.recv j) := by
      rw [hu]
      refine ⟨?rest, ?read⟩
      case read =>
        apply Solo.next hnext
        unfold attempt receiveImage
        rw [bind_assoc]
        apply solo_getUint
        rw [if_neg (not_not_intro hsoh), bind_assoc]
        exact .refl _
    obtain ⟨k, hk⟩ := turn noise n hhost hpi
    exact ⟨k, _, hk, rfl, ⟨j, rfl⟩, rfl⟩
  · have hpi : Solo (nextAttempt fuel) (.done (some r)) (noised noise n (leBytes nak))
        (leBytes nak ++ []) (attempt fuel r.mem) := by
      rw [hu]
      apply Solo.next hnext
      unfold attempt receiveImage
      rw [bind_assoc]
      apply solo_getUint
      rw [if_pos hsoh]
      apply solo_putUint
      exact .next rfl (.refl _)
    obtain ⟨k, hk⟩ := turn noise n hhost hpi
    exact ⟨k, _, hk, rfl, ⟨_, rfl⟩, rfl⟩

/-- What arrives of the host's words: one word of the image comes as another, and all else is
intact. -/
def OneWordReplaced (noise : ℕ → Byte → Byte) (buf : List Byte) : Prop :=
  ∃ before u w after, toWords buf = before ++ u :: after ∧ w ≠ u ∧
    noised noise 0 (headerBytes buf ++ bodyBytes buf) =
      headerBytes buf ++ (leBytes ack ++ (wordBytes (before ++ w :: after) ++ leBytes eot))

/-- The checksum catches every replaced word, so the Pi never answers ACK and the host does
not return: it gives up, and the Pi waits for another session. -/
theorem oneWordReplaced_not_booted (buf : List Byte) (hn : buf.length < 2 ^ 31) (h4 : buf.length % 4 = 0)
    (hfuel : buf.length / 4 < fuel) (hnoise : OneWordReplaced noise buf) :
    (∀ c, Reach nextHost (nextAttempt fuel) noise (bootStart fuel buf m) c →
      c.a ≠ .done .returned ∧ ∀ r, r.response = ack → c.b ≠ .done (some r)) ∧
    ∃ c, Inevitable (BootStep fuel noise) (bootStart fuel buf m) c ∧
      c.a = .done (.panicked "no ACK") ∧ Waiting c.b := by
  obtain ⟨before, u, w, after, hwords, hne, harrive⟩ := hnoise
  rw [noised_append, length_headerBytes, Nat.zero_add] at harrive
  obtain ⟨hhead, hbody⟩ := List.append_inj harrive (by rw [length_noised])
  have hbuf : wordBytes (before ++ u :: after) = buf := by
    rw [← hwords, wordBytes_toWords buf h4]
  have hws : 4 * (before ++ w :: after).length = buf.length := by
    rw [← hbuf, length_wordBytes, List.length_append, List.length_append, List.length_cons,
      List.length_cons]
  have hcrc : crc32 (wordBytes (before ++ w :: after)) ≠ crc32 buf := by
    intro heq
    have hsplit : ∀ v, wordBytes (before ++ v :: after) =
        wordBytes before ++ leBytes v ++ wordBytes after := by
      intro v
      simp only [wordBytes, List.flatMap_append, List.flatMap_cons, List.append_assoc]
    rw [← hbuf, hsplit, hsplit] at heq
    exact hne (crc32_replace_word _ _ heq)
  have hnak : (verdict m (before ++ w :: after) (crc32 buf)).response = nak := by
    rw [verdict, if_pos hcrc]
  obtain ⟨k, hk⟩ := run_to_reply (m := m) hn hws hfuel hhead hbody
  rw [hnak] at hk
  obtain ⟨l, c, hl, hhost, ⟨j, hpi⟩, hempty⟩ :=
    run_after_nak fuel noise hnak (buf.length + 20)
  have hstuck : Stuck (BootStep fuel noise) c := by
    intro d hd
    obtain ⟨a, b, ab, ba, count⟩ := c
    subst hhost hpi hempty
    rcases hd with hd | hd <;> cases hd
  have hend : Inevitable (BootStep fuel noise) (bootStart fuel buf m) c :=
    (hk.trans hl).inevitable diamond hstuck
  refine ⟨fun d hd => ⟨fun hret => ?_, fun r hr hack => ?_⟩, c, hend, hhost, j, hpi⟩
  · have hsame := Reach.a_done rfl (hend.reach hd) hret
    rw [hhost] at hsame
    cases hsame
  · have hlast : nextAttempt fuel (some r) = none := if_neg (not_not_intro hr)
    have hsame := Reach.b_done hlast (hend.reach hd) hack
    rw [hpi] at hsame
    cases hsame

theorem oneWordReplaced_not_booted_word :
    ∃ c, Inevitable (BootStep 2 fun i b => if i = 16 then 9 else b)
        (bootStart 2 [1, 2, 3, 4] fun _ => 0) c ∧
      c.a = .done (.panicked "no ACK") ∧ Waiting c.b :=
  (oneWordReplaced_not_booted [1, 2, 3, 4] (by decide) rfl (by decide)
    ⟨[], ofLeBytes 1 2 3 4, ofLeBytes 9 2 3 4, [], rfl, by decide, by decide +kernel⟩).2

end Session
end SimplePiOS.Boot
