import Mathlib.Tactic.IntervalCases
import SimplePiOS.Kernel.SdStore
import SimplePiOS.Libpi.Flat

/-! A controller that never keeps the driver waiting, and the bytes that travel to the card and
back. -/
namespace SimplePiOS.Kernel.Sd
open Lib Libpi

/-- Each time the driver looks, it may go on. -/
structure Prompt (dev : Device) : Prop where
  status (log : List Access) : dev log .status = 0
  error (log : List Access) : dev log .interrupt &&& intErrorMask = 0
  timeout (log : List Access) : dev log .interrupt &&& intCmdTimeout = 0
  cmdDone (log : List Access) : dev log .interrupt &&& intCmdDone ≠ 0
  readRdy (log : List Access) : dev log .interrupt &&& intReadRdy ≠ 0
  writeRdy (log : List Access) : dev log .interrupt &&& intWriteRdy ≠ 0

variable {σ α : Type} {dev : Device} {v : Statics} {e : BitVec 32} {E : State σ → Prop}

/-- A state up to its log and its memory. -/
def Clear (v : Statics) (e : BitVec 32) (s : State σ) : Prop := s.statics = v ∧ s.err = e

section Prompt

theorem read_clear (r : Emmc) :
    Triple (Clear v e) (read (σ := σ) dev r) (fun u s => (∃ log, u = dev log r) ∧ Clear v e s) E := by
  intro s hs
  exact ⟨⟨s.log, rfl⟩, hs⟩

theorem write_clear (r : Emmc) (u : BitVec 32) : Keeps (Clear (σ := σ) v e) E (write r u) :=
  fun _ hs => hs

theorem waitMsec_clear (n : ℕ) : Keeps (Clear (σ := σ) v e) E (waitMsec n) := fun _ hs => hs

/-- A poll that need not wait leaves its count as it is. -/
theorem poll_clear {busy : SdM σ Bool} {delay : SdM σ Unit} {cnt : ℕ}
    (h : Triple (Clear v e) busy (fun b s => b = false ∧ Clear v e s) E) (hcnt : 0 < cnt) :
    Triple (Clear v e) (poll busy delay cnt) (fun r s => 0 < r ∧ Clear v e s) E := by
  cases cnt with
  | zero => cases hcnt
  | succ cnt =>
    unfold poll
    apply Triple.bind h
    intro b
    apply Triple.assume
    intro hb
    subst hb
    exact .pure fun s hs => ⟨by omega, hs⟩

theorem sdStatus_clear (h : Prompt dev) (mask : BitVec 32) :
    Triple (Clear v e) (sdStatus (σ := σ) dev mask) (fun r s => r = sdOk ∧ Clear v e s) E := by
  unfold sdStatus
  apply Triple.bind
  · apply poll_clear _ (by decide)
    apply Triple.bind (read_clear .status)
    intro u
    apply Triple.assume
    intro hu
    obtain ⟨log, rfl⟩ := hu
    rw [h.status, if_pos (by simp)]
    exact .pure fun s hs => ⟨rfl, hs⟩
  · intro cnt
    apply Triple.assume
    intro hcnt
    rw [if_neg (by omega)]
    apply Triple.bind (read_clear .interrupt)
    intro u
    apply Triple.assume
    intro hu
    obtain ⟨log, rfl⟩ := hu
    rw [if_neg (not_not.mpr (h.error log))]
    exact .pure fun s hs => ⟨rfl, hs⟩

/-- The bits of a mask and of another one are shown together. -/
theorem or_ne_zero {u m : BitVec 32} (h : u &&& m ≠ 0) (m' : BitVec 32) :
    u &&& (m ||| m') ≠ 0 := by
  intro hor
  apply h
  have hand : u &&& m = (u &&& (m ||| m')) &&& m := by
    ext i hi
    simp only [BitVec.getElem_and, BitVec.getElem_or]
    cases u[i] <;> cases m[i] <;> simp
  rw [hand, hor]
  exact BitVec.zero_and

theorem sdInt_clear (h : Prompt dev) {mask : BitVec 32} (hmask : ∀ log, dev log .interrupt &&& mask ≠ 0) :
    Triple (Clear v e) (sdInt (σ := σ) dev mask) (fun r s => r = sdOk ∧ Clear v e s) E := by
  have hread : Triple (Clear v e) (read (σ := σ) dev .interrupt)
      (fun u s => (∃ log, u = dev log .interrupt) ∧ Clear v e s) E := read_clear _
  unfold sdInt
  apply Triple.bind
  · apply poll_clear _ (by decide)
    apply Triple.bind hread
    intro u
    apply Triple.assume
    intro hu
    obtain ⟨log, rfl⟩ := hu
    exact .pure fun s hs => ⟨decide_eq_false (or_ne_zero (hmask log) _), hs⟩
  · intro cnt
    apply Triple.assume
    intro hcnt
    apply Triple.bind hread
    intro u
    apply Triple.assume
    intro hu
    obtain ⟨log, rfl⟩ := hu
    have hdata : dev log .interrupt &&& intDataTimeout = 0 := by
      by_contra hne
      exact or_ne_zero hne intErrorMask (by
        have hmask : intDataTimeout ||| intErrorMask = intErrorMask := by decide
        rw [hmask]
        exact h.error log)
    rw [if_neg, if_neg (not_not.mpr (h.error log))]
    · apply Triple.bind (write_clear _ _)
      intro _
      exact .pure fun s hs => ⟨rfl, hs⟩
    · intro hor
      rcases hor with hcnt' | hcmd | hdat
      · omega
      · exact hcmd (h.timeout log)
      · exact hdat hdata

theorem sdResponse_clear {code : BitVec 32} (hrel : code ≠ cmdSendRelAddr) (arg : BitVec 32) :
    Keeps (Clear (σ := σ) v e) E (sdResponse dev code arg) := by
  have hread (r : Emmc) : Keeps (Clear v e) E (read (σ := σ) dev r) := fun _ hs => hs
  have hpure (u : BitVec 32) : Keeps (Clear v e) E (pure u : SdM σ (BitVec 32)) := .pure fun _ hs => hs
  unfold sdResponse
  apply Triple.bind (hread .resp0)
  intro r
  refine .ite (fun _ => hpure _) fun _ => .ite (fun _ => hpure _) fun _ =>
    .ite (fun _ => hpure _) fun _ => .ite (fun _ => hpure _) fun _ => .ite ?cid fun _ =>
    .ite (fun h => absurd h hrel) fun _ => hpure _
  case cid =>
    intro _
    exact .bind (hread .resp3) fun _ => .bind (hread .resp2) fun _ => .bind (hread .resp1) fun _ => hpure _

theorem sdSend_clear (h : Prompt dev) {code : BitVec 32} (hrel : code ≠ cmdSendRelAddr) (arg : BitVec 32) :
    Keeps (Clear (σ := σ) v e) E (sdSend dev code arg) := by
  have hsettle : Keeps (Clear (σ := σ) v e) E (sdSettle code) :=
    .ite (fun _ => waitMsec_clear _) fun _ => .ite (fun _ => waitMsec_clear _) fun _ =>
      .pure fun _ hs => hs
  unfold sdSend
  apply Triple.bind (sdStatus_clear h _)
  intro busy
  apply Triple.assume
  intro hbusy
  rw [if_neg (not_not.mpr hbusy)]
  have hread : Keeps (Clear (σ := σ) v e) E (read dev .interrupt) := fun _ hs => hs
  refine .bind hread fun u =>
    .bind (write_clear _ _) fun _ => .bind (write_clear _ _) fun _ => .bind (write_clear _ _) fun _ =>
    .bind hsettle fun _ => .bind (sdInt_clear h h.cmdDone) fun r => .assume fun hr => ?_
  rw [if_neg (not_not.mpr hr)]
  exact sdResponse_clear hrel arg

theorem sdCmd_clear (h : Prompt dev) {code : BitVec 32} (hplain : code &&& cmdNeedApp = 0)
    (hrel : code ≠ cmdSendRelAddr) (arg : BitVec 32) :
    Triple (Clear v e) (sdCmd (σ := σ) dev code arg) (fun _ => Clear v sdOk) E := by
  have herr : Triple (Clear v e) (setErr (σ := σ) sdOk) (fun _ => Clear v sdOk) E :=
    fun s hs => ⟨hs.1, rfl⟩
  unfold sdCmd
  apply Triple.bind herr
  intro _
  rw [if_pos hplain]
  exact sdSend_clear h hrel arg

theorem sdCmdOk_clear (h : Prompt dev) {code : BitVec 32} (hplain : code &&& cmdNeedApp = 0)
    (hrel : code ≠ cmdSendRelAddr) (arg : BitVec 32) :
    Triple (Clear v e) (sdCmdOk (σ := σ) dev code arg) (fun ok s => ok = true ∧ Clear v sdOk s) E := by
  unfold sdCmdOk
  apply Triple.bind (sdCmd_clear h hplain hrel arg)
  intro _ s hs
  rw [bind_ok (getErr_run s)]
  exact ⟨decide_eq_true hs.2, hs⟩

theorem statics_clear : Triple (Clear v e) (statics (σ := σ)) (fun r s => r = v ∧ Clear v e s) E :=
  fun _ hs => ⟨hs.1, hs⟩

end Prompt

section Transfer
variable {T : Transfer σ}

/-- A transfer whose words can all be moved. -/
structure Obliging (dev : Device) (T : Transfer σ) : Prop where
  single : T.single &&& cmdNeedApp = 0
  multi : T.multi &&& cmdNeedApp = 0
  single_ne : T.single ≠ cmdSendRelAddr
  multi_ne : T.multi ≠ cmdSendRelAddr
  ready (log : List Access) : dev log .interrupt &&& T.ready ≠ 0
  word (v : Statics) (e : BitVec 32) (a : ℕ) : Keeps (Clear v e) (fun _ => False) (T.word a)

theorem startBlocks_clear (h : Prompt dev) (hT : Obliging dev T) (lba num : ℕ) :
    Triple (Clear v e) (startBlocks dev T lba num)
      (fun ok s => ok = true ∧ ∃ e', Clear v e' s ∧ (hasCcs v → e' = sdOk)) E := by
  have hccs (e : BitVec 32) : Triple (Clear v e) (startCcs dev T lba num)
      (fun ok s => ok = true ∧ ∃ e', Clear v e' s ∧ (hasCcs v → e' = sdOk)) E := by
    apply Triple.bind (write_clear _ _)
    intro _
    apply Triple.post (sdCmdOk_clear h _ _ _)
    · exact fun ok s hs => ⟨hs.1, sdOk, hs.2, fun _ => rfl⟩
    · split
      · exact hT.single
      · exact hT.multi
    · split
      · exact hT.single_ne
      · exact hT.multi_ne
  unfold startBlocks
  apply Triple.bind statics_clear
  intro v'
  apply Triple.assume
  intro hv
  subst hv
  refine .ite (fun _ => .ite (fun _ => ?many) fun _ => hccs e) fun hno => ?bytes
  case many =>
    apply Triple.bind (sdCmdOk_clear h (by decide) (by decide) _)
    intro ok
    apply Triple.assume
    intro hok
    subst hok
    exact hccs sdOk
  case bytes =>
    apply Triple.bind (write_clear _ _)
    intro _
    exact .pure fun s hs => ⟨rfl, e, hs, fun hc => absurd hc hno⟩

theorem startBlock_clear (h : Prompt dev) (hT : Obliging dev T) (lba c : ℕ) (he : hasCcs v → e = sdOk) :
    Triple (Clear v e) (startBlock dev T lba c) (fun ok s => ok = true ∧ Clear v sdOk s) E := by
  unfold startBlock
  apply Triple.bind statics_clear
  intro v'
  apply Triple.assume
  intro hv
  subst hv
  apply Triple.ite
  · intro hccs
    rw [he hccs]
    exact .pure fun s hs => ⟨rfl, hs⟩
  · intro _
    exact sdCmdOk_clear h hT.single hT.single_ne _

theorem moveBlocks_clear (h : Prompt dev) (hT : Obliging dev T) (lba k c buf : ℕ)
    (he : hasCcs v ∨ k = 0 → e = sdOk) :
    Triple (Clear v e) (moveBlocks dev T lba k c buf) (fun ok s => ok = true ∧ Clear v sdOk s)
      fun _ => False := by
  induction k generalizing e c buf with
  | zero =>
    rw [he (.inr rfl)]
    exact .pure fun s hs => ⟨rfl, hs⟩
  | succ k ih =>
    unfold moveBlocks
    apply Triple.bind (startBlock_clear h hT lba c fun hccs => he (.inl hccs))
    intro ok
    apply Triple.assume
    intro hok
    subst hok
    apply Triple.bind (sdInt_clear h hT.ready)
    intro r
    apply Triple.assume
    intro hr
    change Triple _ (if r ≠ sdOk then _ else _) _ _
    rw [if_neg (not_not.mpr hr)]
    apply Triple.bind (Keeps.forM fun d _ => hT.word v sdOk (buf + 4 * d))
    intro _
    exact ih (c + 1) (buf + 512) fun _ => rfl

theorem stopBlocks_clear (h : Prompt dev) (num : ℕ) :
    Triple (Clear v sdOk) (stopBlocks (σ := σ) dev num) (fun _ => Clear v sdOk) E := by
  unfold stopBlocks
  apply Triple.bind statics_clear
  intro v'
  apply Triple.assume
  intro hv
  subst hv
  apply Triple.ite
  · intro _
    apply Triple.bind (sdCmd_clear h (by decide) (by decide) 0)
    intro _
    exact .pure fun _ hs => hs
  · intro _
    exact .pure fun _ hs => hs

/-- A call goes well when nothing keeps it from doing so. -/
theorem sdBlocks_prompt (h : Prompt dev) (hT : Obliging dev T) (lba buffer num : ℕ) (s : State σ) :
    ∃ t, (sdBlocks dev T lba buffer num).run s = .ok (max 1 num * 512 % 2 ^ 32) t ∧ t.err = sdOk := by
  have hnum : (if num < 1 then 1 else num) = max 1 num := by
    split <;> omega
  have hrun : Triple (Clear s.statics s.err) (sdBlocks dev T lba buffer num)
      (fun r t => r = max 1 num * 512 % 2 ^ 32 ∧ t.err = sdOk) fun _ => False := by
    unfold sdBlocks
    simp only [hnum]
    apply Triple.bind (sdStatus_clear h _)
    intro busy
    apply Triple.assume
    intro hbusy
    rw [if_neg (not_not.mpr hbusy)]
    apply Triple.bind (startBlocks_clear h hT _ _)
    intro ok
    apply Triple.assume
    intro hok
    subst hok
    apply Triple.choose
    intro e t ht
    obtain ⟨ht, he⟩ := ht
    refine (Triple.bind (moveBlocks_clear h hT lba (max 1 num) 0 buffer ?_) fun ok => ?_) t ht
    · intro hcase
      rcases hcase with hccs | hzero
      · exact he hccs
      · omega
    · apply Triple.assume
      intro hok
      subst hok
      apply Triple.bind (stopBlocks_clear h _)
      intro _ u hu
      rw [bind_ok (getErr_run u), if_neg (not_not.mpr hu.2)]
      exact ⟨rfl, hu.2⟩
  obtain ⟨r, t, hok, hr, herr⟩ := hrun.returns ⟨rfl, rfl⟩
  exact ⟨t, by rw [hok, hr], herr⟩

end Transfer

section Bytes
variable {bus : Bus σ} {base n o : ℕ} {x y : σ} {ws : List (BitVec 32)}

theorem load16_block (B : Block bus base n) (h : B.inv x) (ho : o + 2 ≤ n) :
    (load16 bus (base + o)).run x =
      .ok ((B.get x o).toNat + 2 ^ 8 * (B.get x (o + 1)).toNat) x := by
  have hnext : (bus.load (base + o + 1)).run x = .ok (B.get x (o + 1)) x := by
    rw [Nat.add_assoc]
    exact B.load_eq h (by omega)
  unfold load16
  rw [bind_ok (B.load_eq h (by omega)), bind_ok hnext]
  rfl

theorem load32_block (B : Block bus base n) (h : B.inv x) (ho : o + 4 ≤ n) :
    (load32 bus (base + o)).run x = .ok ((B.get x o).toNat + 2 ^ 8 * (B.get x (o + 1)).toNat +
      2 ^ 16 * ((B.get x (o + 2)).toNat + 2 ^ 8 * (B.get x (o + 3)).toNat)) x := by
  have hnext := load16_block B h (o := o + 2) (by omega)
  rw [← Nat.add_assoc] at hnext
  unfold load32
  rw [bind_ok (load16_block B h (by omega)), bind_ok hnext]
  rfl

/-- The bytes of a word, by their place in it. -/
theorem extractLsb'_ofBytes (b0 b1 b2 b3 : UInt8) (i : ℕ) (hi : i < 4) :
    UInt8.ofBitVec ((BitVec.ofNat 32 (b0.toNat + 2 ^ 8 * b1.toNat +
      2 ^ 16 * (b2.toNat + 2 ^ 8 * b3.toNat))).extractLsb' (8 * i) 8) = [b0, b1, b2, b3].getD i 0 := by
  have h0 := b0.toNat_lt
  have h1 := b1.toNat_lt
  have h2 := b2.toNat_lt
  have h3 := b3.toNat_lt
  apply UInt8.toNat_inj.mp
  rw [UInt8.toNat_ofBitVec, BitVec.extractLsb'_toNat, BitVec.toNat_ofNat, Nat.shiftRight_eq_div_pow]
  interval_cases i <;> simp <;> omega

/-- Words loaded from a block are its bytes. -/
theorem Moved.loaded (B : Block bus base n) (h : Moved (loads bus) (base + o) ws x y) (hx : B.inv x)
    (ho : o + 4 * ws.length ≤ n) : y = x ∧ ∀ i < 4 * ws.length, wordByte ws i = B.get x (o + i) := by
  induction ws generalizing o x with
  | nil =>
    cases h
    simp
  | cons w ws ih =>
    cases h with
    | @cons _ _ _ _ z _ hstep hrest =>
      simp only [List.length_cons] at ho
      obtain ⟨m, hrun, rfl⟩ := hstep
      obtain ⟨rfl, rfl⟩ := EStateM.Result.ok.inj ((load32_block B hx (by omega)).symm.trans hrun)
      rw [Nat.add_assoc] at hrest
      obtain ⟨rfl, hws⟩ := ih hrest hx (by omega)
      refine ⟨rfl, fun i hi => ?_⟩
      by_cases hlt : i < 4
      · have hdiv : i / 4 = 0 := by omega
        have hmod : i % 4 = i := by omega
        rw [wordByte, hdiv, hmod, List.getD_cons_zero, extractLsb'_ofBytes _ _ _ _ i hlt]
        interval_cases i <;> rfl
      · obtain ⟨j, rfl⟩ : ∃ j, i = 4 + j := ⟨i - 4, by omega⟩
        simp only [List.length_cons] at hi
        rw [wordByte_cons, hws j (by omega), Nat.add_assoc]

/-- Words stored in a block are its bytes afterwards. -/
theorem Moved.stored (B : Block bus base n) (h : Moved (stores bus) base ws x y) (hx : B.inv x)
    (hn : 4 * ws.length = n) : ∀ i < n, B.get y i = wordByte ws i := by
  obtain ⟨z, hrun, hst⟩ := B.forM_store (o := 0) (wordByte ws) (4 * ws.length) hx (by omega)
  obtain ⟨-, rfl⟩ := EStateM.Result.ok.inj (hrun.symm.trans (forM_wordByte h))
  intro i hi
  rw [hst.get_eq i hi]
  have hi' : i < 4 * ws.length := by omega
  simp [hi']

theorem length_flatten {bs : List (List (BitVec 32))} (h : ∀ b ∈ bs, b.length = 128) :
    bs.flatten.length = 128 * bs.length := by
  induction bs with
  | nil => rfl
  | cons b bs ih =>
    obtain ⟨hb, hbs⟩ := List.forall_mem_cons.mp h
    rw [List.flatten_cons, List.length_append, hb, ih hbs, List.length_cons]
    omega

/-- Sectors written from one buffer and read into another one later arrive byte for byte, whatever
calls go to other sectors in between and whether or not these fail. -/
theorem written_bytes_read_back (dev : Device) (bus : Bus σ) (ccs : Bool) (c₀ : Card)
    (src dst lba num r r' : ℕ) (s s₁ s₂ t : State σ) (calls : List (Call × Bool))
    (B : Block bus src (512 * max 1 num)) (B' : Block bus dst (512 * max 1 num))
    (hdev : Serves dev ccs c₀) (hwhole : c₀.image.Whole) (haddr : Addressed ccs s.statics lba (max 1 num))
    (hsrc : B.inv s.mach) (hdst : B'.inv s₂.mach)
    (hwrite : (sdWriteblock dev bus src lba num).run s = .ok r s₁) (hwritten : s₁.err = sdOk)
    (hcalls : Calls dev bus s₁ calls s₂) (hfits : ∀ call ∈ calls, call.1.Fits ccs s.statics)
    (havoids : ∀ call ∈ calls, call.1.Avoids lba (max 1 num))
    (hread : (sdReadblock dev bus lba dst num).run s₂ = .ok r' t) (hdone : t.err = sdOk) :
    ∀ i < 512 * max 1 num, B'.get t.mach i = B.get s.mach i := by
  obtain ⟨bs, hlen, hloads, hstores⟩ := written_reads_back dev bus ccs c₀ src dst lba num r r' s s₁ s₂ t
    calls hdev hwhole haddr hwrite hwritten hcalls hfits havoids hread hdone
  have hwords := length_flatten hloads.whole
  have hbytes : 4 * bs.flatten.length = 512 * max 1 num := by
    rw [hwords, hlen]
    omega
  obtain ⟨-, hloaded⟩ := Moved.loaded (o := 0) B hloads.moved hsrc (by omega)
  intro i hi
  rw [hstores.moved.stored B' hdst hbytes i hi, hloaded i (by omega), Nat.zero_add]

end Bytes

section Example

def readyBits : BitVec 32 := intCmdDone ||| intReadRdy ||| intWriteRdy

/-- The controller of a card that is always ready. -/
def cardDevice (ccs : Bool) (c : Card) : Device := fun log r =>
  match r with
  | .data => match (c.after ccs (wire (fun _ _ => 0) log)).mode with
    | .reading _ b w => ((c.after ccs (wire (fun _ _ => 0) log)).image b).getD w 0
    | _ => 0
  | .interrupt => readyBits
  | _ => 0

/-- What a card does depends on the data it takes in, not on the data it hands out. -/
theorem after_wire_eq (dev dev' : Device) (ccs : Bool) (c : Card) (log : List Access) :
    c.after ccs (wire dev log) = c.after ccs (wire dev' log) := by
  induction log with
  | nil => rfl
  | cons a log ih =>
    rw [wire, wire, after_append, after_append, ih]
    cases a with
    | read r => cases r <;> rfl
    | write r v => cases r <;> rfl
    | waitUs n => rfl

theorem cardDevice_serves (ccs : Bool) (c : Card) : Serves (cardDevice ccs c) ccs c := by
  intro log many b w hmode
  rw [after_wire_eq _ fun _ _ => 0] at hmode ⊢
  unfold cardDevice
  simp only [hmode]

theorem cardDevice_prompt (ccs : Bool) (c : Card) : Prompt (cardDevice ccs c) where
  status _ := rfl
  error _ := (by decide : readyBits &&& intErrorMask = 0)
  timeout _ := (by decide : readyBits &&& intCmdTimeout = 0)
  cmdDone _ := (by decide : readyBits &&& intCmdDone ≠ 0)
  readRdy _ := (by decide : readyBits &&& intReadRdy ≠ 0)
  writeRdy _ := (by decide : readyBits &&& intWriteRdy ≠ 0)

theorem onMach_clear {m : EStateM Stop σ α} (h : ∀ x, ∃ u y, m.run x = .ok u y) :
    Keeps (Clear v e) (fun _ => False) (onMach m) := by
  intro s hs
  obtain ⟨u, y, hrun⟩ := h s.mach
  unfold onMach
  unfold EStateM.run at hrun ⊢
  simp only [hrun]
  exact hs

theorem readTransfer_obliging (h : Prompt dev) : Obliging dev (readTransfer dev flat.toBus) where
  single := (by decide : cmdReadSingle &&& cmdNeedApp = 0)
  multi := (by decide : cmdReadMulti &&& cmdNeedApp = 0)
  single_ne := (by decide : cmdReadSingle ≠ cmdSendRelAddr)
  multi_ne := (by decide : cmdReadMulti ≠ cmdSendRelAddr)
  ready := h.readRdy
  word v e a := by
    have hread : Keeps (Clear v e) (fun _ => False) (read (σ := Flat) dev .data) := fun _ hs => hs
    exact .bind hread fun w => onMach_clear fun x => ⟨_, _, rfl⟩

theorem writeTransfer_obliging (h : Prompt dev) : Obliging dev (writeTransfer flat.toBus) where
  single := (by decide : cmdWriteSingle &&& cmdNeedApp = 0)
  multi := (by decide : cmdWriteMulti &&& cmdNeedApp = 0)
  single_ne := (by decide : cmdWriteSingle ≠ cmdSendRelAddr)
  multi_ne := (by decide : cmdWriteMulti ≠ cmdSendRelAddr)
  ready := h.writeRdy
  word v e a := .bind (onMach_clear fun x => ⟨_, _, rfl⟩) fun _ => write_clear _ _

/-- A card of blank sectors. -/
def blankCard : Card := ⟨fun _ => List.replicate 128 0, 0, .idle⟩

theorem blankCard_whole : blankCard.image.Whole := fun _ => List.length_replicate

/-- The driver at its start, on a memory that counts through the bytes. -/
def sdStart : State Flat := ⟨⟨fun _ => 1, 0⟩, 0, [], ⟨UInt8.ofNat, 0, ⟨0, 0, 0⟩⟩⟩

theorem sdReadblock_refines_blank : ∃ t, (sdReadblock (cardDevice true blankCard) flat.toBus 5 0x1000 2).run
      sdStart = .ok 1024 t ∧ ∃ bs A B,
    Transferred (cardDevice true blankCard) (readTransfer (cardDevice true blankCard) flat.toBus) .got
      (stores flat.toBus) 5 0x1000 2 sdStart 1024 t bs A B ∧
    (t.err = sdOk → (Kernel.sdReadblock flat.toBus (delivered 5 bs) 5 0x1000 2).run sdStart.mach =
      .ok 1024 t.mach) := by
  have hprompt := cardDevice_prompt true blankCard
  obtain ⟨t, hrun, -⟩ := sdBlocks_prompt hprompt (readTransfer_obliging hprompt) 5 0x1000 2 sdStart
  exact ⟨t, hrun, sdReadblock_refines _ flat.toBus 5 0x1000 2 1024 sdStart t hrun⟩

theorem written_bytes_read_back_two : ∃ s₁ s₂ t,
    (sdWriteblock (cardDevice true blankCard) flat.toBus 0x1000 5 2).run sdStart = .ok 1024 s₁ ∧
    Calls (cardDevice true blankCard) flat.toBus s₁ [(.write 0x3000 9 1, true)] s₂ ∧
    (sdReadblock (cardDevice true blankCard) flat.toBus 5 0x2000 2).run s₂ = .ok 1024 t ∧
    ∀ i < 1024, t.mach.mem (0x2000 + i) = sdStart.mach.mem (0x1000 + i) := by
  have hprompt := cardDevice_prompt true blankCard
  have hwrites := writeTransfer_obliging hprompt
  obtain ⟨s₁, hrun₁, herr₁⟩ := sdBlocks_prompt hprompt hwrites 5 0x1000 2 sdStart
  obtain ⟨s₂, hrun₂, herr₂⟩ := sdBlocks_prompt hprompt hwrites 9 0x3000 1 s₁
  obtain ⟨t, hrun₃, herr₃⟩ := sdBlocks_prompt hprompt (readTransfer_obliging hprompt) 5 0x2000 2 s₂
  have hcalls : Calls (cardDevice true blankCard) flat.toBus s₁ [(.write 0x3000 9 1, true)] s₂ := by
    have hcall : ((Call.write 0x3000 9 1).run (cardDevice true blankCard) flat.toBus).run s₁ =
        .ok 512 s₂ :=
      hrun₂
    have hcalls := Calls.cons hcall .nil
    rwa [herr₂] at hcalls
  refine ⟨s₁, s₂, t, hrun₁, hcalls, hrun₃, ?_⟩
  have haddr (lba num : ℕ) (h : lba < 2 ^ 32) : Addressed true sdStart.statics lba num :=
    ⟨iff_of_true (by decide) rfl, h, fun hno => absurd (by decide) hno⟩
  exact written_bytes_read_back _ flat.toBus true blankCard 0x1000 0x2000 5 2 1024 1024 sdStart s₁ s₂ t
    [(.write 0x3000 9 1, true)] (flatBlock sdStart.mach 0x1000 1024 (by decide))
    (flatBlock s₂.mach 0x2000 1024 (by decide)) (cardDevice_serves _ _) blankCard_whole
    (haddr 5 2 (by decide)) (fun _ _ => rfl) (fun _ _ => rfl) hrun₁ herr₁ hcalls
    (List.forall_mem_singleton.mpr (haddr 9 1 (by decide)))
    (List.forall_mem_singleton.mpr (.inr (by decide))) hrun₃ herr₃

end Example

end SimplePiOS.Kernel.Sd
