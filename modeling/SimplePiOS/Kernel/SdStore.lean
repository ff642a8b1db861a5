import SimplePiOS.Kernel.SdBlocks

/-! The driver over a card: whatever calls are made and whichever of them fail, the card is a
store of sectors to its caller. -/
namespace SimplePiOS.Kernel.Sd
open Lib Libpi

/-- The contents of a card, sector by sector. -/
abbrev Sectors := ℕ → List (BitVec 32)

def Sectors.Whole (im : Sectors) : Prop := ∀ b, (im b).length = 128

/-- The sectors from `lba` on replaced. -/
def Sectors.put (im : Sectors) (lba : ℕ) (bs : List (List (BitVec 32))) : Sectors := fun b =>
  if lba ≤ b ∧ b < lba + bs.length then bs.getD (b - lba) [] else im b

/-- What a card does with its data lines: the word of a sector that is next, and whether it goes
on with the next sector. -/
inductive Mode where
  | idle
  | reading (many : Bool) (block word : ℕ)
  | writing (many : Bool) (block word : ℕ)
  deriving DecidableEq

structure Card where
  image : Sectors
  arg : BitVec 32
  mode : Mode

/-- A card with `SCR_SUPP_CCS` is addressed by sectors, another one by bytes. -/
def Card.sector (ccs : Bool) (c : Card) : ℕ := if ccs then c.arg.toNat else c.arg.toNat / 512

def Card.command (ccs : Bool) (c : Card) (code : BitVec 32) : Mode :=
  if code = cmdReadSingle then .reading false (c.sector ccs) 0
  else if code = cmdReadMulti then .reading true (c.sector ccs) 0
  else if code = cmdWriteSingle then .writing false (c.sector ccs) 0
  else if code = cmdWriteMulti then .writing true (c.sector ccs) 0
  else if code = cmdStopTrans then .idle
  else c.mode

def moveOn (go : ℕ → ℕ → Mode) (many : Bool) (b w : ℕ) : Mode :=
  if w + 1 < 128 then go b (w + 1) else if many then go (b + 1) 0 else .idle

/-- A card notes the argument, obeys the command, and hands out or takes in one word at a time. -/
def Card.signal (ccs : Bool) (c : Card) : Signal → Card
  | .put .arg1 u => { c with arg := u }
  | .put .cmdtm code => { c with mode := c.command ccs code }
  | .put .data u => match c.mode with
    | .writing many b w =>
      { c with
        image := Function.update c.image b ((c.image b).set w u)
        mode := moveOn (.writing many) many b w }
    | _ => c
  | .got _ => match c.mode with
    | .reading many b w => { c with mode := moveOn (.reading many) many b w }
    | _ => c
  | _ => c

def Card.after (ccs : Bool) (c : Card) (W : List Signal) : Card := W.foldl (Card.signal ccs) c

/-- While a sector is read, the data register yields its words. -/
def Serves (dev : Device) (ccs : Bool) (c : Card) : Prop :=
  ∀ log many b w, (c.after ccs (wire dev log)).mode = .reading many b w →
    dev log .data = ((c.after ccs (wire dev log)).image b).getD w 0

/-- Each word got from the card is the one it is to hand out. -/
def Told (ccs : Bool) : Card → List Signal → Prop
  | _, [] => True
  | c, g :: W => (∀ u many b w, g = .got u → c.mode = .reading many b w → u = (c.image b).getD w 0) ∧
    Told ccs (c.signal ccs g) W

variable {dev : Device} {ccs : Bool} {c c₀ : Card}

section Card

@[simp] theorem after_nil : c.after ccs [] = c := rfl

@[simp] theorem after_cons (g : Signal) (W : List Signal) :
    c.after ccs (g :: W) = (c.signal ccs g).after ccs W := rfl

theorem after_append (A B : List Signal) : c.after ccs (A ++ B) = (c.after ccs A).after ccs B :=
  List.foldl_append

theorem told_append {A B : List Signal} :
    Told ccs c (A ++ B) ↔ Told ccs c A ∧ Told ccs (c.after ccs A) B := by
  induction A generalizing c with
  | nil => simp [Told]
  | cons g A ih => simp only [List.cons_append, Told, ih, after_cons, and_assoc]

theorem told_wire (h : Serves dev ccs c₀) (log : List Access) : Told ccs c₀ (wire dev log) := by
  induction log with
  | nil => trivial
  | cons a log ih =>
    rw [wire, told_append]
    refine ⟨ih, ?_⟩
    cases hg : a.signal dev log with
    | none => trivial
    | some g =>
      refine ⟨?_, trivial⟩
      intro u many b w hu hmode
      subst hu
      have hdata : u = dev log .data := by
        cases a with
        | read r => cases r <;> simp_all [Access.signal]
        | write r v => cases r <;> simp_all [Access.signal]
        | waitUs n => simp [Access.signal] at hg
      rw [hdata]
      exact h log many b w hmode

/-- Only data put to the card changes a sector. -/
theorem image_after {W : List Signal} (h : ∀ u, .put .data u ∉ W) : (c.after ccs W).image = c.image := by
  induction W generalizing c with
  | nil => rfl
  | cons g W ih =>
    rw [after_cons, ih fun u hu => h u (by simp [hu])]
    have hg : ∀ u, g ≠ .put .data u := fun u hu => h u (by simp [hu])
    unfold Card.signal
    split
    · rfl
    · rfl
    · next u => exact absurd rfl (hg u)
    · split <;> rfl
    · rfl

theorem whole_signal (h : c.image.Whole) (g : Signal) : (c.signal ccs g).image.Whole := by
  unfold Card.signal
  split
  · exact h
  · exact h
  · split
    · next many b w _ =>
      intro b'
      by_cases hb : b' = b
      · subst hb
        simp [h b']
      · simp [hb, h b']
    · exact h
  · split <;> exact h
  · exact h

theorem whole_after (ccs : Bool) (h : c.image.Whole) (W : List Signal) : (c.after ccs W).image.Whole := by
  induction W generalizing c with
  | nil => exact h
  | cons g W ih => exact ih (whole_signal h g)

end Card

section Sector
variable {many : Bool} {b w : ℕ} {ws : List (BitVec 32)}

theorem moveOn_last (go : ℕ → ℕ → Mode) (h : ¬ w + 1 < 128) :
    moveOn go many b w = if many then go (b + 1) 0 else .idle := if_neg h

/-- What is handed out from word `w` of a sector on is the rest of the sector. -/
theorem after_got (hmode : c.mode = .reading many b w) (hlen : w + ws.length = 128) (hne : ws ≠ [])
    (hwhole : (c.image b).length = 128) (htold : Told ccs c (ws.map .got)) :
    ws = (c.image b).drop w ∧ c.after ccs (ws.map .got) =
      { c with mode := if many then .reading many (b + 1) 0 else .idle } := by
  induction ws generalizing c w with
  | nil => exact absurd rfl hne
  | cons u ws ih =>
    obtain ⟨hfirst, hrest⟩ := htold
    have hu := hfirst u many b w rfl hmode
    have hw : w < (c.image b).length := by
      simp only [List.length_cons] at hlen
      omega
    have hsignal : c.signal ccs (.got u) = { c with mode := moveOn (.reading many) many b w } := by
      simp [Card.signal, hmode]
    have hdrop : (c.image b).drop w = u :: (c.image b).drop (w + 1) := by
      rw [List.drop_eq_getElem_cons hw, hu]
      simp [hw]
    rw [List.map_cons, after_cons, hdrop]
    by_cases hlast : w + 1 < 128
    · have hmode' : (c.signal ccs (.got u)).mode = .reading many b (w + 1) := by
        rw [hsignal]
        exact if_pos hlast
      have himage : (c.signal ccs (.got u)).image = c.image := by rw [hsignal]
      have hlen' : w + 1 + ws.length = 128 := by
        simp only [List.length_cons] at hlen
        omega
      have hne' : ws ≠ [] := by
        intro h
        rw [h] at hlen'
        simp only [List.length_nil] at hlen'
        omega
      obtain ⟨hws, hafter⟩ := ih hmode' hlen' hne' (by rwa [himage]) hrest
      rw [himage] at hws
      refine ⟨by rw [← hws], ?_⟩
      rw [hafter, hsignal]
    · have hws : ws = [] := by
        apply List.eq_nil_of_length_eq_zero
        simp only [List.length_cons] at hlen
        omega
      subst hws
      rw [List.drop_of_length_le (by omega), hsignal, moveOn_last _ hlast]
      exact ⟨rfl, rfl⟩

/-- What is taken in from word `w` of a sector on replaces the rest of the sector. -/
theorem after_put (ccs : Bool) (hmode : c.mode = .writing many b w) (hlen : w + ws.length = 128)
    (hne : ws ≠ []) (hwhole : (c.image b).length = 128) :
    c.after ccs (ws.map (.put .data)) =
      { c with
        image := Function.update c.image b ((c.image b).take w ++ ws)
        mode := if many then .writing many (b + 1) 0 else .idle } := by
  induction ws generalizing c w with
  | nil => exact absurd rfl hne
  | cons u ws ih =>
    have hw : w < (c.image b).length := by
      simp only [List.length_cons] at hlen
      omega
    have hsignal : c.signal ccs (.put .data u) =
        { c with
          image := Function.update c.image b ((c.image b).set w u)
          mode := moveOn (.writing many) many b w } := by
      simp [Card.signal, hmode]
    have htake : ((c.image b).set w u).take (w + 1) = (c.image b).take w ++ [u] := by
      rw [List.take_succ_eq_append_getElem (by simpa using hw)]
      simp [List.take_set_of_le]
    rw [List.map_cons, after_cons]
    by_cases hlast : w + 1 < 128
    · have hmode' : (c.signal ccs (.put .data u)).mode = .writing many b (w + 1) := by
        rw [hsignal]
        exact if_pos hlast
      have himage : (c.signal ccs (.put .data u)).image =
          Function.update c.image b ((c.image b).set w u) := by rw [hsignal]
      have hlen' : w + 1 + ws.length = 128 := by
        simp only [List.length_cons] at hlen
        omega
      have hne' : ws ≠ [] := by
        intro h
        rw [h] at hlen'
        simp only [List.length_nil] at hlen'
        omega
      rw [ih hmode' hlen' hne' (by simp [himage, hwhole]), himage, hsignal]
      simp [htake]
    · have hws : ws = [] := by
        apply List.eq_nil_of_length_eq_zero
        simp only [List.length_cons] at hlen
        omega
      subst hws
      have hset : (c.image b).set w u = (c.image b).take w ++ [u] := by
        rw [← htake, List.take_of_length_le]
        simp only [List.length_set]
        omega
      rw [List.map_nil, after_nil, hsignal, moveOn_last _ hlast, hset]

end Sector

section Blocks
variable {σ : Type} {T : Transfer σ} {go : Bool → ℕ → ℕ → Mode} {v : Statics} {lba num i : ℕ}

/-- The commands of a transfer start it at the sector of the argument. -/
structure Directs (T : Transfer σ) (go : Bool → ℕ → ℕ → Mode) : Prop where
  single (ccs : Bool) (c : Card) : c.command ccs T.single = go false (c.sector ccs) 0
  multi (ccs : Bool) (c : Card) : c.command ccs T.multi = go true (c.sector ccs) 0

theorem readTransfer_directs (dev : Device) (bus : Bus σ) : Directs (readTransfer dev bus) .reading where
  single ccs c := if_pos rfl
  multi ccs c := by
    change c.command ccs cmdReadMulti = _
    simp [Card.command, cmdReadMulti, cmdReadSingle]

theorem writeTransfer_directs (bus : Bus σ) : Directs (writeTransfer bus) .writing where
  single ccs c := by
    change c.command ccs cmdWriteSingle = _
    simp [Card.command, cmdReadMulti, cmdReadSingle, cmdWriteSingle]
  multi ccs c := by
    change c.command ccs cmdWriteMulti = _
    simp [Card.command, cmdReadMulti, cmdReadSingle, cmdWriteSingle, cmdWriteMulti]

/-- The driver knows how the card is addressed, and the addresses of the sectors fit a word. -/
structure Addressed (ccs : Bool) (v : Statics) (lba num : ℕ) : Prop where
  kind : hasCcs v ↔ ccs = true
  lba_lt : lba < 2 ^ 32
  bytes : ¬ hasCcs v → (lba + num) * 512 ≤ 2 ^ 32

theorem Addressed.mono {n : ℕ} (h : Addressed ccs v lba num) (hn : n ≤ num) : Addressed ccs v lba n := by
  refine ⟨h.kind, h.lba_lt, fun hccs => Nat.le_trans ?_ (h.bytes hccs)⟩
  exact Nat.mul_le_mul_right 512 (Nat.add_le_add_left hn lba)

theorem after_command (code arg : BitVec 32) :
    c.after ccs (command code arg) = { c with arg := arg, mode := { c with arg := arg }.command ccs code } :=
  rfl

theorem command_noData {code arg : BitVec 32} (u : BitVec 32) : .put .data u ∉ command code arg := by
  simp [command]

theorem startWire_noData (u : BitVec 32) : .put .data u ∉ startWire T v lba num := by
  unfold startWire startCcsWire
  split
  · split <;> simp [command]
  · simp

/-- A card with `SCR_SUPP_CCS` is set on its way before the first block. -/
theorem after_startWire (hT : Directs T go) (h : Addressed ccs v lba num) (hccs : hasCcs v) :
    (c.after ccs (startWire T v lba num)).mode = go (decide (num ≠ 1)) lba 0 := by
  have harg : (BitVec.ofNat 32 lba).toNat = lba := by
    rw [BitVec.toNat_ofNat, Nat.mod_eq_of_lt h.lba_lt]
  have hkind := h.kind.mp hccs
  have hstart (c : Card) : (c.after ccs (startCcsWire T lba num)).mode = go (decide (num ≠ 1)) lba 0 := by
    rw [startCcsWire, after_cons, after_command]
    by_cases hnum : num = 1
    · rw [if_pos hnum]
      exact (hT.single _ _).trans (by simp [Card.sector, hkind, harg, hnum])
    · rw [if_neg hnum]
      exact (hT.multi _ _).trans (by simp [Card.sector, hkind, harg, hnum])
  rw [startWire, if_pos hccs]
  split
  · rw [after_append]
    exact hstart _
  · exact hstart c

/-- Before each block the card is at its first word. -/
theorem after_blockWire (hT : Directs T go) {many : Bool} (h : Addressed ccs v lba (i + 1))
    (hmode : hasCcs v → c.mode = go many (lba + i) 0) :
    (c.after ccs (blockWire T v lba i)).mode = go (if hasCcs v then many else false) (lba + i) 0 := by
  unfold blockWire
  by_cases hccs : hasCcs v
  · simpa [hccs] using hmode hccs
  · have hbytes := h.bytes hccs
    have harg : (BitVec.ofNat 32 ((lba + i) * 512)).toNat / 512 = lba + i := by
      rw [BitVec.toNat_ofNat, Nat.mod_eq_of_lt (by omega)]
      omega
    have hkind : ccs = false := by
      have := h.kind
      cases ccs
      · rfl
      · exact absurd (this.mpr rfl) hccs
    have hsector : ({ c with arg := BitVec.ofNat 32 ((lba + i) * 512) } : Card).sector ccs = lba + i := by
      rw [Card.sector, hkind]
      exact harg
    rw [if_neg hccs, if_neg hccs, after_command]
    exact (hT.single _ _).trans (by rw [hsector])

theorem image_blockWire : (c.after ccs (blockWire T v lba i)).image = c.image := by
  apply image_after
  intro u
  unfold blockWire
  split
  · simp
  · exact command_noData u

variable {many : Bool} {b : List (BitVec 32)} {bs : List (List (BitVec 32))}

theorem Addressed.tail (h : Addressed ccs v lba (i + (b :: bs).length)) :
    Addressed ccs v lba (i + 1 + bs.length) := by
  apply h.mono
  simp only [List.length_cons]
  omega

/-- Only a transfer of many blocks has a block to come. -/
theorem many_tail (h : many = false → (b :: bs).length ≤ 1) (hne : bs ≠ []) : many = true := by
  cases hm : many with
  | false =>
    have hone := h hm
    have hpos := List.length_pos_of_ne_nil hne
    simp only [List.length_cons] at hone
    omega
  | true => rfl

/-- Behind a block, a transfer of many blocks is at the next one. -/
theorem next_mode (h : many = false → (b :: bs).length ≤ 1) (hne : bs ≠ []) (hccs : hasCcs v) :
    (if (if hasCcs v then many else false) = true then go (if hasCcs v then many else false) (lba + i + 1) 0
      else .idle) = go many (lba + (i + 1)) 0 := by
  simp [many_tail h hne, hccs, Nat.add_assoc]

theorem ne_nil_of_whole (h : b.length = 128) : b ≠ [] := by
  intro hb
  simp [hb] at h

/-- The blocks got from a card are its sectors. -/
theorem after_blocks_got (dev : Device) (bus : Bus σ) (h : Addressed ccs v lba (i + bs.length))
    (hmany : many = false → bs.length ≤ 1)
    (hmode : bs ≠ [] → hasCcs v → c.mode = .reading many (lba + i) 0) (hwhole : c.image.Whole)
    (hbs : ∀ b ∈ bs, b.length = 128)
    (htold : Told ccs c (blocksWire (readTransfer dev bus) .got v lba i bs)) :
    bs = (List.range' (lba + i) bs.length).map c.image ∧
      (c.after ccs (blocksWire (readTransfer dev bus) .got v lba i bs)).image = c.image := by
  induction bs generalizing c i with
  | nil => exact ⟨rfl, rfl⟩
  | cons b bs ih =>
    obtain ⟨hlen, hbs⟩ := List.forall_mem_cons.mp hbs
    rw [blocksWire, told_append, told_append] at htold
    obtain ⟨-, hb, hrest⟩ := htold
    have hstart := after_blockWire (readTransfer_directs dev bus) (h.mono (by simp)) (hmode (by simp))
    have himage : (c.after ccs (blockWire (readTransfer dev bus) v lba i)).image = c.image :=
      image_blockWire
    have hsector_len := hwhole (lba + i)
    rw [← himage] at hsector_len
    obtain ⟨hsector, hafter⟩ := after_got hstart (by rw [hlen]) (ne_nil_of_whole hlen) hsector_len hb
    rw [himage, List.drop_zero] at hsector
    rw [hafter] at hrest
    have hmany' : many = false → bs.length ≤ 1 := fun hm =>
      Nat.le_trans (Nat.le_succ bs.length) (hmany hm)
    obtain ⟨hrest', himage'⟩ := ih h.tail hmany' (next_mode hmany) (by rw [himage]; exact hwhole)
      hbs hrest
    refine ⟨?_, ?_⟩
    · rw [List.length_cons, List.range'_succ, List.map_cons, ← hsector]
      congr 1
      rw [himage] at hrest'
      exact hrest'
    · rw [blocksWire, after_append, after_append, hafter, himage', himage]

/-- One sector replaced, and then the sectors behind it. -/
theorem put_update (im : Sectors) {lba : ℕ} :
    Sectors.put (Function.update im lba b) (lba + 1) bs = im.put lba (b :: bs) := by
  funext l
  unfold Sectors.put
  rw [List.length_cons]
  by_cases hl : l = lba
  · subst hl
    have hout : ¬ (l + 1 ≤ l ∧ l < l + 1 + bs.length) := by omega
    have hin : l ≤ l ∧ l < l + (bs.length + 1) := by omega
    rw [if_neg hout, if_pos hin, Function.update_self, Nat.sub_self, List.getD_cons_zero]
  · by_cases hin : lba ≤ l ∧ l < lba + (bs.length + 1)
    · have hin' : lba + 1 ≤ l ∧ l < lba + 1 + bs.length := by omega
      have hsub : l - lba = l - (lba + 1) + 1 := by omega
      rw [if_pos hin, if_pos hin', hsub, List.getD_cons_succ]
    · have hout : ¬ (lba + 1 ≤ l ∧ l < lba + 1 + bs.length) := by omega
      rw [if_neg hin, if_neg hout, Function.update_of_ne hl]

theorem put_nil (im : Sectors) {lba : ℕ} : im.put lba [] = im := by
  funext l
  have hout : ¬ (lba ≤ l ∧ l < lba + ([] : List (List (BitVec 32))).length) := by simp
  exact if_neg hout

/-- The blocks put to a card become its sectors. -/
theorem after_blocks_put (bus : Bus σ) (h : Addressed ccs v lba (i + bs.length))
    (hmany : many = false → bs.length ≤ 1)
    (hmode : bs ≠ [] → hasCcs v → c.mode = .writing many (lba + i) 0) (hwhole : c.image.Whole)
    (hbs : ∀ b ∈ bs, b.length = 128) :
    (c.after ccs (blocksWire (writeTransfer bus) (.put .data) v lba i bs)).image =
      c.image.put (lba + i) bs := by
  induction bs generalizing c i with
  | nil => exact (put_nil _).symm
  | cons b bs ih =>
    obtain ⟨hlen, hbs⟩ := List.forall_mem_cons.mp hbs
    have hstart := after_blockWire (writeTransfer_directs bus) (h.mono (by simp)) (hmode (by simp))
    have himage : (c.after ccs (blockWire (writeTransfer bus) v lba i)).image = c.image :=
      image_blockWire
    have hsector_len := hwhole (lba + i)
    rw [← himage] at hsector_len
    have hafter := after_put ccs hstart (by rw [hlen]) (ne_nil_of_whole hlen) hsector_len
    rw [himage, List.take_zero, List.nil_append] at hafter
    have hwhole' := whole_after ccs hwhole
      (blockWire (writeTransfer bus) v lba i ++ b.map (.put .data))
    rw [after_append, hafter] at hwhole'
    have hmany' : many = false → bs.length ≤ 1 := fun hm =>
      Nat.le_trans (Nat.le_succ bs.length) (hmany hm)
    have hrest := ih h.tail hmany' (next_mode hmany) hwhole' hbs
    rw [blocksWire, after_append, after_append, hafter, hrest]
    exact put_update _

end Blocks

section Calls
variable {σ : Type} {bus : Bus σ} {s t u : State σ}

/-- A call of the driver, with the buffer first where the source has it first. -/
inductive Call where
  | read (lba buffer num : ℕ)
  | write (buffer lba num : ℕ)

def Call.run (dev : Device) (bus : Bus σ) : Call → SdM σ ℕ
  | .read lba buffer num => sdReadblock dev bus lba buffer num
  | .write buffer lba num => sdWriteblock dev bus buffer lba num

/-- The addresses of the sectors of a call fit a word. -/
def Call.Fits (ccs : Bool) (v : Statics) : Call → Prop
  | .read lba _ num => Addressed ccs v lba (max 1 num)
  | .write _ lba num => Addressed ccs v lba (max 1 num)

/-- Calls one after the other, each with whether it left `sd_err` clear. -/
inductive Calls (dev : Device) (bus : Bus σ) : State σ → List (Call × Bool) → State σ → Prop
  | nil {s : State σ} : Calls dev bus s [] s
  | cons {s t u : State σ} {call : Call} {r : ℕ} {calls : List (Call × Bool)} :
    (call.run dev bus).run s = .ok r t → Calls dev bus t calls u →
      Calls dev bus s ((call, decide (t.err = sdOk)) :: calls) u

/-- What a call is to do: a read stores sectors in the buffer, a write replaces sectors by the words of
the buffer. One that fails does so with the first few of them. -/
inductive SectorStep (bus : Bus σ) : Sectors × σ → Call × Bool → Sectors × σ → Prop
  | read {im : Sectors} {x y : σ} {lba buffer num k : ℕ} {ok : Bool} :
    Blocks (stores bus) buffer ((List.range' lba k).map im) x y → k ≤ max 1 num →
      (ok = true → k = max 1 num) → SectorStep bus (im, x) (.read lba buffer num, ok) (im, y)
  | write {im : Sectors} {x y : σ} {lba buffer num : ℕ} {bs : List (List (BitVec 32))} {ok : Bool} :
    Blocks (loads bus) buffer bs x y → bs.length ≤ max 1 num →
      (ok = true → bs.length = max 1 num) →
      SectorStep bus (im, x) (.write buffer lba num, ok) (im.put lba bs, y)

inductive SectorSteps (bus : Bus σ) : Sectors × σ → List (Call × Bool) → Sectors × σ → Prop
  | nil {z : Sectors × σ} : SectorSteps bus z [] z
  | cons {z z' z'' : Sectors × σ} {call : Call × Bool} {calls : List (Call × Bool)} :
    SectorStep bus z call z' → SectorSteps bus z' calls z'' → SectorSteps bus z (call :: calls) z''

/-- The sectors of the card, after all that it was told so far. -/
def held (ccs : Bool) (c₀ : Card) (dev : Device) (s : State σ) : Sectors :=
  (c₀.after ccs (wire dev s.log)).image

variable {T : Transfer σ} {access : BitVec 32 → Signal} {step : ℕ → BitVec 32 → σ → σ → Prop}
  {go : Bool → ℕ → ℕ → Mode} {lba buffer num r : ℕ} {bs : List (List (BitVec 32))} {A B : List Signal}

/-- Where the card stands when the first block of a call is moved. -/
theorem Transferred.mode (h : Transferred dev T access step lba buffer num s r t bs A B)
    (hT : Directs T go) (haddr : Addressed ccs s.statics lba (max 1 num)) (hne : bs ≠ [])
    (hccs : hasCcs s.statics) : (c.after ccs A).mode = go (decide (max 1 num ≠ 1)) (lba + 0) 0 := by
  rw [h.started hne]
  exact after_startWire hT haddr hccs

theorem Transferred.one (h : Transferred dev T access step lba buffer num s r t bs A B)
    (hmany : decide (max 1 num ≠ 1) = false) : bs.length ≤ 1 := by
  have hfits := h.fits
  simp only [ne_eq, decide_not, Bool.not_eq_false', decide_eq_true_eq] at hmany
  rwa [hmany] at hfits

theorem Transferred.image_before (h : Transferred dev T access step lba buffer num s r t bs A B) :
    (c.after ccs A).image = c.image :=
  image_after fun u hu => startWire_noData u (h.before.subset hu)

theorem Transferred.image_behind (h : Transferred dev T access step lba buffer num s r t bs A B) :
    (c.after ccs B).image = c.image := by
  obtain ⟨code, arg, hB⟩ := h.after
  exact image_after fun u hu => command_noData u (hB.subset hu)

theorem Transferred.blocks_addressed (h : Transferred dev T access step lba buffer num s r t bs A B)
    (haddr : Addressed ccs s.statics lba (max 1 num)) : Addressed ccs s.statics lba (0 + bs.length) := by
  apply haddr.mono
  rw [Nat.zero_add]
  exact h.fits

/-- A read hands out sectors of the card and leaves them as they are. -/
theorem read_held_sectors
    (h : Transferred dev (readTransfer dev bus) .got (stores bus) lba buffer num s r t bs A B)
    (hdev : Serves dev ccs c₀) (hwhole : c₀.image.Whole)
    (haddr : Addressed ccs s.statics lba (max 1 num)) :
    bs = (List.range' lba bs.length).map (held ccs c₀ dev s) ∧
      held ccs c₀ dev t = held ccs c₀ dev s := by
  have htold := told_wire hdev t.log
  rw [h.wire, told_append, told_append, told_append] at htold
  obtain ⟨⟨-, htold⟩, -⟩ := htold
  have hwhole' : ((c₀.after ccs (wire dev s.log)).after ccs A).image.Whole :=
    whole_after ccs (whole_after ccs hwhole _) A
  obtain ⟨hbs, himage⟩ := after_blocks_got dev bus (h.blocks_addressed haddr) h.one
    (h.mode (readTransfer_directs dev bus) haddr) hwhole' h.blocks.whole
    (by rwa [after_append] at htold)
  rw [h.image_before, Nat.add_zero] at hbs
  refine ⟨hbs, ?_⟩
  unfold held
  rw [h.wire, after_append, after_append, after_append, h.image_behind, himage, h.image_before]

/-- A write replaces sectors of the card, and no others. -/
theorem write_held_sectors
    (h : Transferred dev (writeTransfer bus) (.put .data) (loads bus) lba buffer num s r t bs A B)
    (hwhole : c₀.image.Whole) (haddr : Addressed ccs s.statics lba (max 1 num)) :
    held ccs c₀ dev t = (held ccs c₀ dev s).put lba bs := by
  have hwhole' : ((c₀.after ccs (wire dev s.log)).after ccs A).image.Whole :=
    whole_after ccs (whole_after ccs hwhole _) A
  have himage := after_blocks_put (c := (c₀.after ccs (wire dev s.log)).after ccs A) bus
    (h.blocks_addressed haddr) h.one (h.mode (writeTransfer_directs bus) haddr) hwhole'
    h.blocks.whole
  unfold held
  rw [h.wire, after_append, after_append, after_append, h.image_behind, himage, h.image_before,
    Nat.add_zero]

theorem Call.statics_eq {call : Call} (h : (call.run dev bus).run s = .ok r t) : t.statics = s.statics := by
  cases call with
  | read lba buffer num =>
    obtain ⟨bs, A, B, hT⟩ := sdBlocks_transferred readTransfer_moves lba buffer num h
    exact hT.statics
  | write buffer lba num =>
    obtain ⟨bs, A, B, hT⟩ := sdBlocks_transferred writeTransfer_moves lba buffer num h
    exact hT.statics

theorem Calls.statics_eq {calls : List (Call × Bool)} (h : Calls dev bus s calls t) :
    t.statics = s.statics := by
  induction h with
  | nil => rfl
  | cons hrun _ ih => exact ih.trans (Call.statics_eq hrun)

theorem Call.sectorStep (hdev : Serves dev ccs c₀) (hwhole : c₀.image.Whole) {call : Call}
    (hfits : call.Fits ccs s.statics) (h : (call.run dev bus).run s = .ok r t) :
    SectorStep bus (held ccs c₀ dev s, s.mach) (call, decide (t.err = sdOk))
      (held ccs c₀ dev t, t.mach) := by
  cases call with
  | read lba buffer num =>
    obtain ⟨bs, A, B, hT⟩ := sdBlocks_transferred readTransfer_moves lba buffer num h
    obtain ⟨hbs, himage⟩ := read_held_sectors hT hdev hwhole hfits
    have hblocks := hT.blocks
    rw [hbs] at hblocks
    rw [himage]
    exact .read hblocks hT.fits fun hok => (hT.done (of_decide_eq_true hok)).1
  | write buffer lba num =>
    obtain ⟨bs, A, B, hT⟩ := sdBlocks_transferred writeTransfer_moves lba buffer num h
    rw [write_held_sectors hT hwhole hfits]
    exact .write hT.blocks hT.fits fun hok => (hT.done (of_decide_eq_true hok)).1

/-- Over a card, whatever calls are made and whichever of them fail, the driver is a store of
sectors. -/
theorem calls_sectorSteps (hdev : Serves dev ccs c₀) (hwhole : c₀.image.Whole)
    {calls : List (Call × Bool)} (hfits : ∀ call ∈ calls, call.1.Fits ccs s.statics)
    (h : Calls dev bus s calls t) :
    SectorSteps bus (held ccs c₀ dev s, s.mach) calls (held ccs c₀ dev t, t.mach) := by
  induction h with
  | nil => exact .nil
  | @cons s t u call r calls hrun _ ih =>
    obtain ⟨hfirst, hrest⟩ := List.forall_mem_cons.mp hfits
    refine .cons (Call.sectorStep hdev hwhole hfirst hrun) (ih ?_)
    rw [Call.statics_eq hrun]
    exact hrest

/-- A call that writes none of the `n` sectors from `lba` on. -/
def Call.Avoids (lba n : ℕ) : Call → Prop
  | .read _ _ _ => True
  | .write _ lba' num => lba' + max 1 num ≤ lba ∨ lba + n ≤ lba'

theorem put_of_avoids {im : Sectors} {lba' n l : ℕ} (h : lba' + n ≤ lba ∨ lba + num ≤ lba')
    (hbs : bs.length ≤ n) (hl : lba ≤ l) (hl' : l < lba + num) : im.put lba' bs l = im l := by
  have hout : ¬ (lba' ≤ l ∧ l < lba' + bs.length) := by omega
  exact if_neg hout

theorem SectorSteps.avoids {z z' : Sectors × σ} {calls : List (Call × Bool)} {l : ℕ}
    (h : SectorSteps bus z calls z') (havoids : ∀ call ∈ calls, call.1.Avoids lba num)
    (hl : lba ≤ l) (hl' : l < lba + num) : z'.1 l = z.1 l := by
  induction h with
  | nil => rfl
  | cons hstep _ ih =>
    obtain ⟨hfirst, hrest⟩ := List.forall_mem_cons.mp havoids
    rw [ih hrest]
    cases hstep with
    | read => rfl
    | write _ hfits _ => exact put_of_avoids hfirst hfits hl hl'

theorem map_put (lba : ℕ) (bs : List (List (BitVec 32))) (im : Sectors) :
    (List.range' lba bs.length).map (im.put lba bs) = bs := by
  apply List.ext_getElem
  · simp
  · intro i hi hi'
    have hin : lba ≤ lba + i ∧ lba + i < lba + bs.length := by omega
    simp [Sectors.put, hin, hi']

/-- What a write took from a buffer, a later read of the same sectors puts into its own, when no
call in between writes any of them. Calls in between may fail. -/
theorem written_reads_back (dev : Device) (bus : Bus σ) (ccs : Bool) (c₀ : Card) (src dst lba num r r' : ℕ)
    (s s₁ s₂ t : State σ) (calls : List (Call × Bool)) (hdev : Serves dev ccs c₀)
    (hwhole : c₀.image.Whole) (haddr : Addressed ccs s.statics lba (max 1 num))
    (hwrite : (sdWriteblock dev bus src lba num).run s = .ok r s₁) (hwritten : s₁.err = sdOk)
    (hcalls : Calls dev bus s₁ calls s₂) (hfits : ∀ call ∈ calls, call.1.Fits ccs s.statics)
    (havoids : ∀ call ∈ calls, call.1.Avoids lba (max 1 num))
    (hread : (sdReadblock dev bus lba dst num).run s₂ = .ok r' t) (hdone : t.err = sdOk) :
    ∃ bs, bs.length = max 1 num ∧ Blocks (loads bus) src bs s.mach s₁.mach ∧
      Blocks (stores bus) dst bs s₂.mach t.mach := by
  obtain ⟨bs, A, B, hw⟩ := sdBlocks_transferred writeTransfer_moves lba src num hwrite
  obtain ⟨bs', A', B', hr⟩ := sdBlocks_transferred readTransfer_moves lba dst num hread
  obtain ⟨hlen, -, -⟩ := hw.done hwritten
  obtain ⟨hlen', -, -⟩ := hr.done hdone
  have hstatics : s₂.statics = s.statics := by
    rw [← hw.statics]
    exact hcalls.statics_eq
  have hsteps := calls_sectorSteps hdev hwhole (by rwa [hw.statics]) hcalls
  obtain ⟨hbs', -⟩ := read_held_sectors hr hdev hwhole (by rwa [hstatics])
  have hbs : bs' = bs := by
    rw [hbs', hlen', ← map_put lba bs (held ccs c₀ dev s), hlen]
    apply List.map_congr_left
    intro l hl
    obtain ⟨hge, hlt⟩ := List.mem_range'_1.mp hl
    have hkept : held ccs c₀ dev s₂ l = held ccs c₀ dev s₁ l := hsteps.avoids havoids hge hlt
    rw [hkept, write_held_sectors hw hwhole haddr]
  have hblocks := hr.blocks
  rw [hbs] at hblocks
  exact ⟨bs, hlen, hw.blocks, hblocks⟩

end Calls

end SimplePiOS.Kernel.Sd
