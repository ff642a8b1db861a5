import SimplePiOS.Kernel.Sd
import SimplePiOS.Lib.Rules

/-! `sd_readblock` and `sd_writeblock` on any controller: what goes over the wire and what
becomes of the buffer. -/
namespace SimplePiOS.Kernel.Sd
open Lib Libpi

/-- What a card takes notice of: its commands, their arguments, and the data either way. -/
inductive Signal where
  | put (r : Emmc) (v : BitVec 32)
  | got (v : BitVec 32)
  deriving DecidableEq

def Access.signal (dev : Device) (log : List Access) : Access → Option Signal
  | .read .data => some (.got (dev log .data))
  | .write .data v => some (.put .data v)
  | .write .arg1 v => some (.put .arg1 v)
  | .write .cmdtm v => some (.put .cmdtm v)
  | .write .blksizecnt v => some (.put .blksizecnt v)
  | _ => none

/-- What went over the wire, the first signal first. -/
def wire (dev : Device) : List Access → List Signal
  | [] => []
  | a :: log => wire dev log ++ (a.signal dev log).toList

/-- A state of the driver up to the accesses that are not on the wire. -/
structure Held {σ : Type} (dev : Device) (W : List Signal) (v : Statics) (e : BitVec 32) (x : σ)
    (s : State σ) : Prop where
  wire : wire dev s.log = W
  statics : s.statics = v
  err : s.err = e
  mach : s.mach = x

variable {σ α : Type} {W : List Signal} {v : Statics} {e : BitVec 32} {x : σ} {E : State σ → Prop}
  {dev : Device}

section Access

theorem wire_none {a : Access} {log : List Access} (h : a.signal dev log = none) :
    wire dev (a :: log) = wire dev log := by
  simp [wire, h]

theorem wire_some {a : Access} {log : List Access} {g : Signal} (h : a.signal dev log = some g) :
    wire dev (a :: log) = wire dev log ++ [g] := by
  simp [wire, h]

theorem read_held {r : Emmc} (h : ∀ log, (Access.read r).signal dev log = none) :
    Keeps (Held dev W v e x) E (read dev r) := by
  intro s hs
  exact ⟨(wire_none (h _)).trans hs.wire, hs.statics, hs.err, hs.mach⟩

theorem write_held {r : Emmc} {u : BitVec 32} (h : ∀ log, (Access.write r u).signal dev log = none) :
    Keeps (Held dev W v e x) E (write r u) := by
  intro s hs
  exact ⟨(wire_none (h _)).trans hs.wire, hs.statics, hs.err, hs.mach⟩

theorem write_wire {r : Emmc} {u : BitVec 32}
    (h : ∀ log, (Access.write r u).signal dev log = some (.put r u)) :
    Triple (Held dev W v e x) (write r u) (fun _ => Held dev (W ++ [.put r u]) v e x) E := by
  intro s hs
  refine ⟨(wire_some (h _)).trans ?_, hs.statics, hs.err, hs.mach⟩
  rw [hs.wire]

theorem waitMsec_held (n : ℕ) : Keeps (Held dev W v e x) E (waitMsec n) := by
  intro s hs
  exact ⟨(wire_none rfl).trans hs.wire, hs.statics, hs.err, hs.mach⟩

theorem setErr_held (e' : BitVec 32) :
    Triple (Held dev W v e x) (setErr e') (fun _ => Held dev W v e' x) E := by
  intro s hs
  exact ⟨hs.wire, hs.statics, rfl, hs.mach⟩

theorem getErr_run (s : State σ) : getErr.run s = .ok s.err s := rfl

theorem statics_held : Triple (Held dev W v e x) statics (fun r s => r = v ∧ Held dev W v e x s) E := by
  intro s hs
  exact ⟨hs.statics, hs⟩

theorem poll_held {busy : SdM σ Bool} {delay : SdM σ Unit} (hbusy : Keeps (Held dev W v e x) E busy)
    (hdelay : Keeps (Held dev W v e x) E delay) (cnt : ℕ) :
    Keeps (Held dev W v e x) E (poll busy delay cnt) := by
  induction cnt with
  | zero =>
    unfold poll
    apply Triple.bind hbusy
    intro b
    apply Triple.ite
    · intro _
      exact .pure fun _ hs => hs
    · intro _
      exact .pure fun _ hs => hs
  | succ cnt ih =>
    unfold poll
    apply Triple.bind hbusy
    intro b
    apply Triple.ite
    · intro _
      exact .bind hdelay fun _ => ih
    · intro _
      exact .pure fun _ hs => hs

theorem sdStatus_held (mask : BitVec 32) : Keeps (Held dev W v e x) E (sdStatus dev mask) := by
  have hintr : Keeps (Held dev W v e x) E (read dev .interrupt) := read_held fun _ => rfl
  unfold sdStatus
  apply Triple.bind
  · apply poll_held _ (waitMsec_held 1)
    apply Triple.bind (read_held fun _ => rfl)
    intro u
    apply Triple.ite
    · intro _
      exact .pure fun _ hs => hs
    · intro _
      exact .bind hintr fun _ => .pure fun _ hs => hs
  · intro cnt
    apply Triple.ite
    · intro _
      exact .pure fun _ hs => hs
    · intro _
      apply Triple.bind hintr
      intro u
      apply Triple.ite
      · intro _
        exact .pure fun _ hs => hs
      · intro _
        exact .pure fun _ hs => hs

theorem sdInt_held (mask : BitVec 32) : Keeps (Held dev W v e x) E (sdInt dev mask) := by
  have hintr : Keeps (Held dev W v e x) E (read dev .interrupt) := read_held fun _ => rfl
  have hwrite (u : BitVec 32) (r : BitVec 32) : Keeps (Held dev W v e x) E (do
      write .interrupt u
      return r) := .bind (write_held fun _ => rfl) fun _ => .pure fun _ hs => hs
  unfold sdInt
  apply Triple.bind (poll_held (.bind hintr fun _ => .pure fun _ hs => hs) (waitMsec_held 1) _)
  intro cnt
  apply Triple.bind hintr
  intro r
  apply Triple.ite
  · intro _
    exact hwrite _ _
  · intro _
    apply Triple.ite
    · intro _
      exact hwrite _ _
    · intro _
      exact hwrite _ _

end Access

section Command

/-- A command with its argument. -/
def command (code arg : BitVec 32) : List Signal := [.put .arg1 arg, .put .cmdtm code]

/-- The response sets `sd_err` for one command only. -/
theorem sdResponse_held (code arg : BitVec 32) :
    Triple (Held dev W v e x) (sdResponse dev code arg)
      (fun _ s => ∃ e', Held dev W v e' x s ∧ (code ≠ cmdSendRelAddr → e' = e)) E := by
  have hpure (u : BitVec 32) : Triple (Held dev W v e x) (pure u : SdM σ (BitVec 32))
      (fun _ s => ∃ e', Held dev W v e' x s ∧ (code ≠ cmdSendRelAddr → e' = e)) E :=
    .pure fun _ hs => ⟨e, hs, fun _ => rfl⟩
  unfold sdResponse
  apply Triple.bind (read_held fun _ => rfl)
  intro r
  refine .ite (fun _ => hpure _) fun _ => .ite (fun _ => hpure _) fun _ =>
    .ite (fun _ => hpure _) fun _ => .ite (fun _ => hpure _) fun _ => .ite ?cid fun _ =>
    .ite ?rel fun _ => hpure _
  case cid =>
    intro _
    apply Triple.bind (read_held fun _ => rfl)
    intro r3
    apply Triple.bind (read_held fun _ => rfl)
    intro r2
    apply Triple.bind (read_held fun _ => rfl)
    intro r1
    exact hpure _
  case rel =>
    intro hrel
    apply Triple.bind (setErr_held _)
    intro _
    exact .pure fun s hs => ⟨_, hs, fun hne => absurd hrel hne⟩

theorem sdSettle_held (code : BitVec 32) : Keeps (Held dev W v e x) E (sdSettle code) :=
  .ite (fun _ => waitMsec_held _) fun _ => .ite (fun _ => waitMsec_held _) fun _ =>
    .pure fun _ hs => hs

/-- What a command leaves: all of it went over the wire, or `sd_err` is set and some of it may have. -/
structure Sent (dev : Device) (W : List Signal) (v : Statics) (x : σ) (sent : List Signal)
    (s : State σ) : Prop where
  mach : s.mach = x
  statics : s.statics = v
  wire : ∃ W', wire dev s.log = W ++ W' ∧ W' <+: sent ∧ (s.err = sdOk → W' = sent)

/-- A command that was carried out went over the wire; one that was not leaves `sd_err` set. -/
theorem sdSend_held (code arg : BitVec 32) :
    Triple (Held dev W v e x) (sdSend dev code arg) (fun _ s => Sent dev W v x (command code arg) s ∧
      (code ≠ cmdSendRelAddr → s.err = sdOk → e = sdOk)) E := by
  unfold sdSend
  apply Triple.bind (sdStatus_held _)
  intro busy
  apply Triple.ite
  · intro _
    apply Triple.bind (setErr_held sdTimeout)
    intro _
    apply Triple.pure
    intro s hs
    have herr : s.err ≠ sdOk := by
      rw [hs.err]
      decide
    refine ⟨⟨hs.mach, hs.statics, [], by simpa using hs.wire, List.nil_prefix, ?_⟩, ?_⟩
    · exact fun h => absurd h herr
    · exact fun _ h => absurd h herr
  · intro _
    apply Triple.bind (read_held fun _ => rfl)
    intro pending
    apply Triple.bind (write_held fun _ => rfl)
    intro _
    apply Triple.bind (write_wire fun _ => rfl)
    intro _
    apply Triple.bind (write_wire fun _ => rfl)
    intro _
    have hwire : W ++ [.put .arg1 arg] ++ [.put .cmdtm code] = W ++ command code arg := by
      simp [command]
    rw [hwire]
    apply Triple.bind (sdSettle_held code)
    intro _
    apply Triple.bind (sdInt_held _)
    intro r
    apply Triple.ite
    · intro hr
      apply Triple.bind (setErr_held r)
      intro _
      exact .pure fun s hs => ⟨⟨hs.mach, hs.statics, _, hs.wire, List.prefix_rfl, fun _ => rfl⟩,
        fun _ he => absurd (hs.err.symm.trans he) hr⟩
    · intro _
      apply Triple.post (sdResponse_held code arg)
      intro u s hs
      obtain ⟨e', hs, he⟩ := hs
      exact ⟨⟨hs.mach, hs.statics, _, hs.wire, List.prefix_rfl, fun _ => rfl⟩,
        fun hne herr => (he hne).symm.trans (hs.err.symm.trans herr)⟩

/-- A command that is not an application command. -/
theorem sdCmd_plain {code : BitVec 32} (h : code &&& cmdNeedApp = 0) (arg : BitVec 32) :
    Triple (Held dev W v e x) (sdCmd dev code arg) (fun _ s => Sent dev W v x (command code arg) s) E := by
  unfold sdCmd
  apply Triple.bind (setErr_held sdOk)
  intro _
  rw [if_pos h]
  apply Triple.post (sdSend_held code arg)
  intro _ s hs
  exact hs.1

/-- Whether a command went well, and what it left. -/
def Done (dev : Device) (W : List Signal) (v : Statics) (x : σ) (sent : List Signal) (ok : Bool)
    (s : State σ) : Prop :=
  (ok = true ∧ Held dev (W ++ sent) v sdOk x s) ∨
    (ok = false ∧ s.err ≠ sdOk ∧ ∃ W', Held dev (W ++ W') v s.err x s ∧ W' <+: sent)

theorem sdCmdOk_plain {code : BitVec 32} (h : code &&& cmdNeedApp = 0) (arg : BitVec 32) :
    Triple (Held dev W v e x) (sdCmdOk dev code arg) (Done dev W v x (command code arg)) E := by
  unfold sdCmdOk
  apply Triple.bind (sdCmd_plain h arg)
  intro _ s hs
  change Done dev W v x _ (decide (s.err = sdOk)) s
  obtain ⟨W', hwire, hprefix, hall⟩ := hs.wire
  by_cases he : s.err = sdOk
  · rw [hall he] at hwire
    exact .inl ⟨by simp [he], hwire, hs.statics, he, hs.mach⟩
  · exact .inr ⟨by simp [he], he, W', ⟨hwire, hs.statics, rfl, hs.mach⟩, hprefix⟩

end Command

section Blocks

/-- Words `ws` moved one after the other between the controller and the buffer at `a`. -/
inductive Moved (step : ℕ → BitVec 32 → σ → σ → Prop) : ℕ → List (BitVec 32) → σ → σ → Prop
  | nil {a : ℕ} {x : σ} : Moved step a [] x x
  | cons {a : ℕ} {w : BitVec 32} {ws : List (BitVec 32)} {x y z : σ} :
    step a w x y → Moved step (a + 4) ws y z → Moved step a (w :: ws) x z

variable {step : ℕ → BitVec 32 → σ → σ → Prop}

theorem Moved.append {a : ℕ} {ws ws' : List (BitVec 32)} {x y z : σ} (h : Moved step a ws x y)
    (h' : Moved step (a + 4 * ws.length) ws' y z) : Moved step a (ws ++ ws') x z := by
  induction h with
  | nil => simpa using h'
  | @cons a w ws x y y' hstep _ ih =>
    refine .cons hstep (ih ?_)
    have ha : a + 4 * (w :: ws).length = a + 4 + 4 * ws.length := by
      simp only [List.length_cons]
      omega
    rwa [ha] at h'

theorem Moved.split {a : ℕ} {ws ws' : List (BitVec 32)} {x z : σ} (h : Moved step a (ws ++ ws') x z) :
    ∃ y, Moved step a ws x y ∧ Moved step (a + 4 * ws.length) ws' y z := by
  induction ws generalizing a x with
  | nil => exact ⟨x, .nil, by simpa using h⟩
  | cons w ws ih =>
    cases h with
    | @cons _ _ _ _ y _ hstep hrest =>
      obtain ⟨y', hws, hws'⟩ := ih hrest
      refine ⟨y', .cons hstep hws, ?_⟩
      have ha : a + 4 * (w :: ws).length = a + 4 + 4 * ws.length := by
        simp only [List.length_cons]
        omega
      rwa [ha]

/-- How a transfer moves a word: `access` is what the wire sees of it. -/
structure Moves (dev : Device) (T : Transfer σ) (access : BitVec 32 → Signal)
    (step : ℕ → BitVec 32 → σ → σ → Prop) : Prop where
  single : T.single &&& cmdNeedApp = 0
  multi : T.multi &&& cmdNeedApp = 0
  word (W : List Signal) (v : Statics) (e : BitVec 32) (x : σ) (a : ℕ) :
    Triple (Held dev W v e x) (T.word a)
      (fun _ s => ∃ w y, Held dev (W ++ [access w]) v e y s ∧ step a w x y) fun _ => True

variable {T : Transfer σ} {access : BitVec 32 → Signal}

theorem forM_word (hT : Moves dev T access step) (buf n : ℕ) :
    Triple (Held dev W v e x) (forM (List.range n) fun d => T.word (buf + 4 * d))
      (fun _ s => ∃ ws y, ws.length = n ∧ Held dev (W ++ ws.map access) v e y s ∧ Moved step buf ws x y)
      fun _ => True := by
  induction n with
  | zero => exact .pure fun s hs => ⟨[], x, rfl, by simpa using hs, .nil⟩
  | succ n ih =>
    rw [List.range_succ, List.forM_append]
    apply Triple.bind ih
    intro _
    apply Triple.choose
    intro ws
    apply Triple.choose
    intro y
    apply Triple.assume
    intro hlen
    rw [List.forM_cons]
    intro s hs
    obtain ⟨hheld, hmoved⟩ := hs
    refine (Triple.bind (hT.word _ v e y (buf + 4 * n)) fun _ => ?_) s hheld
    apply Triple.pure
    intro t ht
    obtain ⟨w, z, hw, hstep⟩ := ht
    refine ⟨ws ++ [w], z, by simp [hlen], by simpa using hw, hmoved.append ?_⟩
    rw [hlen]
    exact .cons hstep .nil

def startCcsWire (T : Transfer σ) (lba num : ℕ) : List Signal :=
  .put .blksizecnt (BitVec.ofNat 32 num <<< 16 ||| 512) ::
    command (if num = 1 then T.single else T.multi) (BitVec.ofNat 32 lba)

/-- What the wire sees before the first block. -/
def startWire (T : Transfer σ) (v : Statics) (lba num : ℕ) : List Signal :=
  if hasCcs v then
    if num > 1 ∧ hasSetBlkcnt v then
      command cmdSetBlockcnt (BitVec.ofNat 32 num) ++ startCcsWire T lba num
    else startCcsWire T lba num
  else [.put .blksizecnt (1 <<< 16 ||| 512)]

def stopWire (v : Statics) (num : ℕ) : List Signal :=
  if num > 1 ∧ ¬ hasSetBlkcnt v ∧ hasCcs v then command cmdStopTrans 0 else []

/-- The state before the first block: `sd_err` is clear if a command has been sent. -/
def Started (dev : Device) (T : Transfer σ) (W : List Signal) (v : Statics) (x : σ) (lba num : ℕ) (ok : Bool)
    (s : State σ) : Prop :=
  (ok = true ∧ ∃ e, Held dev (W ++ startWire T v lba num) v e x s ∧ (hasCcs v → e = sdOk)) ∨
    (ok = false ∧ s.err ≠ sdOk ∧ ∃ W', Held dev (W ++ W') v s.err x s ∧ W' <+: startWire T v lba num)

theorem startCcs_held (hT : Moves dev T access step) {lba num : ℕ} {W' : List Signal}
    (hW' : startWire T v lba num = W' ++ startCcsWire T lba num) :
    Triple (Held dev (W ++ W') v e x) (startCcs dev T lba num) (Started dev T W v x lba num) E := by
  have hcode : (if num = 1 then T.single else T.multi) &&& cmdNeedApp = 0 := by
    split
    · exact hT.single
    · exact hT.multi
  apply Triple.bind (write_wire fun _ => rfl)
  intro _
  apply Triple.post (sdCmdOk_plain hcode _)
  intro ok s hs
  rcases hs with ⟨hok, hheld⟩ | ⟨hok, herr, P, hheld, hP⟩
  · refine .inl ⟨hok, sdOk, ?_, fun _ => rfl⟩
    simpa [hW', startCcsWire] using hheld
  · refine .inr ⟨hok, herr, W' ++ .put .blksizecnt (BitVec.ofNat 32 num <<< 16 ||| 512) :: P, ?_, ?_⟩
    · simpa using hheld
    · rw [hW', List.prefix_append_right_inj, startCcsWire]
      exact List.cons_prefix_cons.mpr ⟨rfl, hP⟩

theorem startBlocks_held (hT : Moves dev T access step) (lba num : ℕ) :
    Triple (Held dev W v e x) (startBlocks dev T lba num) (Started dev T W v x lba num) E := by
  unfold startBlocks
  apply Triple.bind statics_held
  intro v'
  apply Triple.assume
  intro hv
  subst hv
  refine .ite (fun h => .ite (fun hnum => ?many) fun hnum => ?one) fun h => ?bytes
  case many =>
    have hwire : startWire T v' lba num =
        command cmdSetBlockcnt (BitVec.ofNat 32 num) ++ startCcsWire T lba num := by
      rw [startWire, if_pos h, if_pos hnum]
    apply Triple.bind (sdCmdOk_plain (by decide) _)
    intro ok
    cases ok with
    | false =>
      apply Triple.pure
      intro s hs
      rcases hs with ⟨hok, -⟩ | ⟨-, herr, P, hheld, hP⟩
      · cases hok
      · exact .inr ⟨rfl, herr, P, hheld, hwire ▸ hP.trans (List.prefix_append _ _)⟩
    | true =>
      apply Triple.pre (startCcs_held (e := sdOk) hT hwire)
      intro s hs
      rcases hs with ⟨-, hheld⟩ | ⟨hok, -⟩
      · exact hheld
      · cases hok
  case one =>
    have hwire : startWire T v' lba num = [] ++ startCcsWire T lba num := by
      rw [startWire, if_pos h, if_neg hnum, List.nil_append]
    apply Triple.pre (startCcs_held (e := e) hT hwire)
    intro s hs
    simpa using hs
  case bytes =>
    apply Triple.bind (write_wire fun _ => rfl)
    intro _
    apply Triple.pure
    intro s hs
    have hwire : startWire T v' lba num = [.put .blksizecnt (1 <<< 16 ||| 512)] := if_neg h
    exact .inl ⟨rfl, e, by rwa [hwire], fun hc => absurd hc h⟩

/-- What the wire sees before block `c` of the request. -/
def blockWire (T : Transfer σ) (v : Statics) (lba c : ℕ) : List Signal :=
  if hasCcs v then [] else command T.single (BitVec.ofNat 32 ((lba + c) * 512))

theorem startBlock_held (hT : Moves dev T access step) (lba c : ℕ) (he : hasCcs v → e = sdOk) :
    Triple (Held dev W v e x) (startBlock dev T lba c) (Done dev W v x (blockWire T v lba c)) E := by
  unfold startBlock blockWire
  apply Triple.bind statics_held
  intro v'
  apply Triple.assume
  intro hv
  subst hv
  apply Triple.ite
  · intro h
    have hok := he h
    subst hok
    rw [if_pos h]
    exact .pure fun s hs => .inl ⟨rfl, by simpa using hs⟩
  · intro h
    rw [if_neg h]
    exact sdCmdOk_plain hT.single _

/-- What it sees of the blocks from block `c` of the request on. -/
def blocksWire (T : Transfer σ) (access : BitVec 32 → Signal) (v : Statics) (lba : ℕ) :
    ℕ → List (List (BitVec 32)) → List Signal
  | _, [] => []
  | c, b :: bs => blockWire T v lba c ++ (b.map access ++ blocksWire T access v lba (c + 1) bs)

/-- Whole blocks moved, as many as asked for or fewer. -/
structure Blocks (step : ℕ → BitVec 32 → σ → σ → Prop) (buf : ℕ) (bs : List (List (BitVec 32)))
    (x y : σ) : Prop where
  whole : ∀ b ∈ bs, b.length = 128
  moved : Moved step buf bs.flatten x y

theorem Blocks.nil {buf : ℕ} : Blocks step buf [] x x := ⟨by simp, .nil⟩

theorem Blocks.cons {buf : ℕ} {b : List (BitVec 32)} {bs : List (List (BitVec 32))} {x y z : σ}
    (hlen : b.length = 128) (h : Moved step buf b x y) (h' : Blocks step (buf + 512) bs y z) :
    Blocks step buf (b :: bs) x z := by
  refine ⟨List.forall_mem_cons.mpr ⟨hlen, h'.whole⟩, ?_⟩
  rw [List.flatten_cons]
  apply h.append
  rw [hlen]
  exact h'.moved

/-- The end of the loop: all `k` blocks are moved, or `sd_err` is set and blocks are missing. -/
structure Looped (dev : Device) (T : Transfer σ) (access : BitVec 32 → Signal)
    (step : ℕ → BitVec 32 → σ → σ → Prop) (W : List Signal) (v : Statics) (x : σ) (lba k c buf : ℕ)
    (bs : List (List (BitVec 32))) (W' : List Signal) (ok : Bool) (s : State σ) : Prop where
  blocks : Blocks step buf bs x s.mach
  statics : s.statics = v
  wire : wire dev s.log = W ++ blocksWire T access v lba c bs ++ W'
  ends : (ok = true ∧ bs.length = k ∧ s.err = sdOk ∧ W' = []) ∨
    (ok = false ∧ bs.length < k ∧ s.err ≠ sdOk ∧ W' <+: blockWire T v lba (c + bs.length))

theorem moveBlocks_held (hT : Moves dev T access step) (lba k c buf : ℕ)
    (he : hasCcs v ∨ k = 0 → e = sdOk) :
    Triple (Held dev W v e x) (moveBlocks dev T lba k c buf)
      (fun ok s => ∃ bs W', Looped dev T access step W v x lba k c buf bs W' ok s) fun _ => True := by
  induction k generalizing W e x c buf with
  | zero =>
    apply Triple.pure
    intro s hs
    refine ⟨[], [], ?_, hs.statics, by simpa [blocksWire] using hs.wire, .inl ⟨rfl, rfl, ?_, rfl⟩⟩
    · rw [hs.mach]
      exact .nil
    · exact hs.err.trans (he (.inr rfl))
  | succ k ih =>
    have hgiveup {W' : List Signal} {s : State σ} (hs : Held dev (W ++ W') v s.err x s)
        (herr : s.err ≠ sdOk) (hW' : W' <+: blockWire T v lba c) :
        ∃ bs W', Looped dev T access step W v x lba (k + 1) c buf bs W' false s := by
      refine ⟨[], W', ?_, hs.statics, by simpa [blocksWire] using hs.wire, .inr ⟨rfl, ?_, herr, hW'⟩⟩
      · rw [hs.mach]
        exact .nil
      · simp
    unfold moveBlocks
    apply Triple.bind (startBlock_held hT lba c fun h => he (.inl h))
    intro ok
    cases ok with
    | false =>
      apply Triple.pure
      intro s hs
      rcases hs with ⟨hok, -⟩ | ⟨-, herr, W', hheld, hW'⟩
      · cases hok
      · exact hgiveup hheld herr hW'
    | true =>
      refine Triple.pre (P := Held dev (W ++ blockWire T v lba c) v sdOk x) ?_ fun s hs => ?_
      · apply Triple.bind (sdInt_held T.ready)
        intro r
        apply Triple.ite
        · intro hr
          apply Triple.bind (setErr_held r)
          intro _
          apply Triple.pure
          intro s hs
          exact hgiveup ⟨hs.wire, hs.statics, rfl, hs.mach⟩ (fun h => hr (hs.err.symm.trans h))
            List.prefix_rfl
        · intro _
          apply Triple.bind (forM_word hT buf 128)
          intro _
          apply Triple.choose
          intro ws
          apply Triple.choose
          intro y
          apply Triple.assume
          intro hlen s hs
          obtain ⟨hheld, hmoved⟩ := hs
          have hrest := ih (W := W ++ blockWire T v lba c ++ ws.map access) (e := sdOk) (x := y)
            (c + 1) (buf + 512) (fun _ => rfl)
          refine (hrest.post fun ok t ht => ?_) s hheld
          obtain ⟨bs, W', ht⟩ := ht
          refine ⟨ws :: bs, W', .cons hlen hmoved ht.blocks, ht.statics, ?_, ?_⟩
          · rw [ht.wire]
            simp [blocksWire]
          · rcases ht.ends with ⟨hok, hk, herr, hW'⟩ | ⟨hok, hk, herr, hW'⟩
            · exact .inl ⟨hok, by simp [hk], herr, hW'⟩
            · have hc : c + (ws :: bs).length = c + 1 + bs.length := by
                simp only [List.length_cons]
                omega
              rw [← hc] at hW'
              exact .inr ⟨hok, by simpa using hk, herr, hW'⟩
      · rcases hs with ⟨-, hheld⟩ | ⟨hok, -⟩
        · exact hheld
        · cases hok

theorem stopBlocks_held (num : ℕ) :
    Triple (Held dev W v sdOk x) (stopBlocks dev num) (fun _ s => Sent dev W v x (stopWire v num) s) E := by
  unfold stopBlocks
  apply Triple.bind statics_held
  intro v'
  apply Triple.assume
  intro hv
  subst hv
  apply Triple.ite
  · intro h
    rw [stopWire, if_pos h]
    apply Triple.bind (sdCmd_plain (by decide) 0)
    intro _
    exact .pure fun s hs => hs
  · intro h
    rw [stopWire, if_neg h]
    exact .pure fun s hs => ⟨hs.mach, hs.statics, [], by simpa using hs.wire, List.nil_prefix,
      fun _ => rfl⟩

/-- The end of a call that returns `r`, with `bs` the blocks it moved: before them the wire saw
`A`, after them `B`. -/
structure Transferred (dev : Device) (T : Transfer σ) (access : BitVec 32 → Signal)
    (step : ℕ → BitVec 32 → σ → σ → Prop) (lba buffer num : ℕ) (s : State σ) (r : ℕ) (t : State σ)
    (bs : List (List (BitVec 32))) (A B : List Signal) : Prop where
  blocks : Blocks step buffer bs s.mach t.mach
  statics : t.statics = s.statics
  fits : bs.length ≤ max 1 num
  result : r = if t.err = sdOk then max 1 num * 512 % 2 ^ 32 else 0
  wire : wire dev t.log = wire dev s.log ++ A ++ blocksWire T access s.statics lba 0 bs ++ B
  before : A <+: startWire T s.statics lba (max 1 num)
  started : bs ≠ [] → A = startWire T s.statics lba (max 1 num)
  after : ∃ code arg, B <+: command code arg
  done : t.err = sdOk → bs.length = max 1 num ∧ A = startWire T s.statics lba (max 1 num) ∧
    B = stopWire s.statics (max 1 num)

theorem exists_blockWire (T : Transfer σ) (v : Statics) (lba c : ℕ) :
    ∃ code arg, blockWire T v lba c <+: command code arg := by
  unfold blockWire
  split
  · exact ⟨0, 0, List.nil_prefix⟩
  · exact ⟨_, _, List.prefix_rfl⟩

theorem exists_stopWire (v : Statics) (num : ℕ) : ∃ code arg, stopWire v num <+: command code arg := by
  unfold stopWire
  split
  · exact ⟨_, _, List.prefix_rfl⟩
  · exact ⟨0, 0, List.nil_prefix⟩

theorem sdBlocks_transferred (hT : Moves dev T access step) (lba buffer num : ℕ) {s t : State σ} {r : ℕ}
    (h : (sdBlocks dev T lba buffer num).run s = .ok r t) :
    ∃ bs A B, Transferred dev T access step lba buffer num s r t bs A B := by
  have hnum : (if num < 1 then 1 else num) = max 1 num := by
    split <;> omega
  have hfail {W' : List Signal} {u : State σ} (hu : Held dev (wire dev s.log ++ W') s.statics u.err s.mach u)
      (herr : u.err ≠ sdOk) (hW' : W' <+: startWire T s.statics lba (max 1 num)) :
      ∃ bs A B, Transferred dev T access step lba buffer num s 0 u bs A B := by
    refine ⟨[], W', [], ?_, hu.statics, by simp, by rw [if_neg herr], ?_, hW', fun h => absurd rfl h,
      ⟨0, 0, List.nil_prefix⟩, fun he => absurd he herr⟩
    · rw [hu.mach]
      exact .nil
    · simpa [blocksWire] using hu.wire
  refine Triple.of_ok (P := Held dev (wire dev s.log) s.statics s.err s.mach) (E := fun _ => True)
    (Q := fun r t => ∃ bs A B, Transferred dev T access step lba buffer num s r t bs A B) ?_
    ⟨rfl, rfl, rfl, rfl⟩ h
  unfold sdBlocks
  simp only [hnum]
  apply Triple.bind (sdStatus_held T.inhibit)
  intro busy
  apply Triple.ite
  · intro _
    apply Triple.bind (setErr_held sdTimeout)
    intro _
    apply Triple.pure
    intro u hu
    have hheld : Held dev (wire dev s.log ++ []) s.statics u.err s.mach u :=
      ⟨by simpa using hu.wire, hu.statics, rfl, hu.mach⟩
    apply hfail hheld
    · rw [hu.err]
      decide
    · exact List.nil_prefix
  · intro _
    apply Triple.bind (startBlocks_held hT lba (max 1 num))
    intro ok
    cases ok with
    | false =>
      apply Triple.pure
      intro u hu
      rcases hu with ⟨hok, -⟩ | ⟨-, herr, W', hheld, hW'⟩
      · cases hok
      · exact hfail hheld herr hW'
    | true =>
      intro u hu
      rcases hu with ⟨-, e, hheld, he⟩ | ⟨hok, -⟩
      · refine Triple.bind (moveBlocks_held hT lba (max 1 num) 0 buffer ?_) (fun ok => ?_) u hheld
        · intro hcase
          rcases hcase with hccs | hzero
          · exact he hccs
          · omega
        apply Triple.choose
        intro bs
        apply Triple.choose
        intro W' u hu
        cases ok with
        | false =>
          rcases hu.ends with ⟨hok, -⟩ | ⟨-, hlt, herr, hW'⟩
          · cases hok
          · obtain ⟨code, arg, hblock⟩ := exists_blockWire T s.statics lba (0 + bs.length)
            exact ⟨bs, _, W', hu.blocks, hu.statics, by omega, by rw [if_neg herr], hu.wire,
              List.prefix_rfl, fun _ => rfl, ⟨code, arg, hW'.trans hblock⟩, fun he => absurd he herr⟩
        | true =>
          rcases hu.ends with ⟨-, hlen, herr, hW'⟩ | ⟨hok, -⟩
          · have hwire := hu.wire
            rw [hW', List.append_nil] at hwire
            refine Triple.bind (stopBlocks_held (max 1 num)) (fun _ => ?_) u ⟨hwire, hu.statics, herr, rfl⟩
            intro u' hu'
            have hblocks := hu.blocks
            rw [← hu'.mach] at hblocks
            obtain ⟨B, hwire', hB, hall⟩ := hu'.wire
            obtain ⟨code, arg, hstop⟩ := exists_stopWire s.statics (max 1 num)
            have hafter : ∃ code arg, B <+: command code arg := ⟨code, arg, hB.trans hstop⟩
            rw [bind_ok (getErr_run u')]
            by_cases herr' : u'.err = sdOk
            · rw [if_neg (not_not.mpr herr')]
              exact ⟨bs, _, B, hblocks, hu'.statics, Nat.le_of_eq hlen, by rw [if_pos herr'], hwire',
                List.prefix_rfl, fun _ => rfl, hafter, fun _ => ⟨hlen, rfl, hall herr'⟩⟩
            · rw [if_pos herr']
              exact ⟨bs, _, B, hblocks, hu'.statics, Nat.le_of_eq hlen, by rw [if_neg herr'], hwire',
                List.prefix_rfl, fun _ => rfl, hafter, fun he => absurd he herr'⟩
          · cases hok
      · cases hok

end Blocks

section Directions
variable {bus : Bus σ}

/-- A word of the card stored in the buffer. -/
def stores (bus : Bus σ) (a : ℕ) (w : BitVec 32) (x y : σ) : Prop := (store32 bus a w).run x = .ok () y

/-- A word of the buffer loaded for the card. -/
def loads (bus : Bus σ) (a : ℕ) (w : BitVec 32) (x y : σ) : Prop :=
  ∃ n, (load32 bus a).run x = .ok n y ∧ w = BitVec.ofNat 32 n

theorem onMach_held (m : EStateM Stop σ α) :
    Triple (Held dev W v e x) (onMach m) (fun u s => ∃ y, m.run x = .ok u y ∧ Held dev W v e y s)
      fun _ => True := by
  intro s hs
  unfold onMach EStateM.run
  simp only [hs.mach]
  cases m x with
  | ok u y => exact ⟨y, rfl, hs.wire, hs.statics, hs.err, rfl⟩
  | error _ _ => trivial

theorem readTransfer_moves : Moves dev (readTransfer dev bus) .got (stores bus) where
  single := (by decide : cmdReadSingle &&& cmdNeedApp = 0)
  multi := (by decide : cmdReadMulti &&& cmdNeedApp = 0)
  word W v e x a := by
    have hread : Triple (Held dev W v e x) (read dev .data) (fun u => Held dev (W ++ [.got u]) v e x)
        fun _ => True := by
      intro s hs
      refine ⟨(wire_some rfl).trans ?_, hs.statics, hs.err, hs.mach⟩
      rw [hs.wire]
    apply Triple.bind hread
    intro w
    apply Triple.post (onMach_held _)
    intro _ s hs
    obtain ⟨y, hrun, hheld⟩ := hs
    exact ⟨w, y, hheld, hrun⟩

theorem writeTransfer_moves : Moves dev (writeTransfer bus) (.put .data) (loads bus) where
  single := (by decide : cmdWriteSingle &&& cmdNeedApp = 0)
  multi := (by decide : cmdWriteMulti &&& cmdNeedApp = 0)
  word W v e x a := by
    apply Triple.bind (onMach_held _)
    intro n
    apply Triple.choose
    intro y
    apply Triple.assume
    intro hrun
    apply Triple.post (write_wire fun _ => rfl)
    intro _ s hs
    exact ⟨BitVec.ofNat 32 n, y, hs, n, hrun, rfl⟩

/-- Byte `i` of the words a card delivers, the low byte of a word first. -/
def wordByte (ws : List (BitVec 32)) (i : ℕ) : UInt8 :=
  UInt8.ofBitVec ((ws.getD (i / 4) 0).extractLsb' (8 * (i % 4)) 8)

/-- The sectors from `lba` on as they were delivered. -/
def delivered (lba : ℕ) (bs : List (List (BitVec 32))) : Disk := fun l => wordByte (bs.getD (l - lba) [])

theorem wordByte_cons (w : BitVec 32) (ws : List (BitVec 32)) (i : ℕ) :
    wordByte (w :: ws) (4 + i) = wordByte ws i := by
  have hdiv : (4 + i) / 4 = i / 4 + 1 := by omega
  have hmod : (4 + i) % 4 = i % 4 := by omega
  simp [wordByte, hdiv, hmod]

/-- Stored word by word is stored byte by byte. -/
theorem forM_wordByte {a : ℕ} {ws : List (BitVec 32)} {x y : σ} (h : Moved (stores bus) a ws x y) :
    (forM (List.range (4 * ws.length)) fun d => bus.store (a + d) (wordByte ws d)).run x = .ok ⟨⟩ y := by
  induction h with
  | nil => rfl
  | @cons a w ws x y z hstep _ ih =>
    have hfirst : (forM (List.range 4) fun d => bus.store (a + d) (wordByte (w :: ws) d)) =
        store32 bus a w := by
      unfold store32
      rfl
    have hlen : 4 * (w :: ws).length = 4 + 4 * ws.length := by
      simp only [List.length_cons]
      omega
    rw [hlen, List.range_add, List.forM_append, hfirst, bind_ok hstep, List.forM_map]
    simp only [wordByte_cons, ← Nat.add_assoc]
    exact ih

theorem forM_readSector {buf : ℕ} {bs : List (List (BitVec 32))} {x y : σ}
    (h : Blocks (stores bus) buf bs x y) :
    (forM (List.range bs.length) fun c =>
      readSector bus (wordByte (bs.getD c [])) (buf + 512 * c)).run x = .ok ⟨⟩ y := by
  induction bs generalizing buf x with
  | nil =>
    have hmoved := h.moved
    cases hmoved
    rfl
  | cons b bs ih =>
    obtain ⟨hlen, hwhole⟩ := List.forall_mem_cons.mp h.whole
    have hmoved := h.moved
    rw [List.flatten_cons] at hmoved
    obtain ⟨z, hb, hbs⟩ := hmoved.split
    have hfirst := forM_wordByte hb
    rw [hlen] at hfirst hbs
    rw [List.length_cons, List.range_succ_eq_map, List.forM_cons]
    have hsector : (readSector bus (wordByte ((b :: bs).getD 0 [])) (buf + 512 * 0)).run x =
        .ok ⟨⟩ z := hfirst
    rw [bind_ok hsector, List.forM_map]
    have hblocks : Blocks (stores bus) (buf + 512) bs z y := ⟨hwhole, hbs⟩
    have hrest := ih hblocks
    simp only [List.getD_cons_succ, Nat.mul_succ]
    simp only [Nat.add_assoc, Nat.add_comm 512] at hrest ⊢
    exact hrest

/-- `sd_readblock` over any controller, when it returns: either `sd_err` is set, it returns 0 and
it has stored whole sectors only, not more than it was asked for; or the card was sent the commands for
these sectors, and the memory is what the file system's view of the call makes of it, on a disk that
has the delivered words in these sectors. -/
theorem sdReadblock_refines (dev : Device) (bus : Bus σ) (lba buffer num r : ℕ) (s t : State σ)
    (h : (sdReadblock dev bus lba buffer num).run s = .ok r t) :
    ∃ bs A B, Transferred dev (readTransfer dev bus) .got (stores bus) lba buffer num s r t bs A B ∧
      (t.err = sdOk → (Kernel.sdReadblock bus (delivered lba bs) lba buffer num).run s.mach =
        .ok r t.mach) := by
  obtain ⟨bs, A, B, hT⟩ := sdBlocks_transferred readTransfer_moves lba buffer num h
  refine ⟨bs, A, B, hT, ?_⟩
  intro herr
  obtain ⟨hlen, -, -⟩ := hT.done herr
  have hrun := forM_readSector hT.blocks
  have hr : r = max 1 num * 512 % 2 ^ 32 := by
    rw [hT.result, if_pos herr]
  have hnum : (if num < 1 then 1 else num) = max 1 num := by
    split <;> omega
  unfold Kernel.sdReadblock
  simp only [hnum, delivered, Nat.add_sub_cancel_left]
  rw [hlen] at hrun
  rw [bind_ok hrun, hr]
  rfl

end Directions

end SimplePiOS.Kernel.Sd
