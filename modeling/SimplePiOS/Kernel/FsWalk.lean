import Mathlib.Data.Fintype.Pigeonhole
import Mathlib.Logic.Function.Iterate
import SimplePiOS.Kernel.FsRead

/-! The walks of fs.c over an arbitrary table: which ids they use and when they end. -/
namespace SimplePiOS.Kernel
open Lib Libpi

/-- The id in hand at step `i`, for as long as the walk lasts. -/
def walkId (fs : Fat32) (start i : ℕ) : ℕ := (nextId fs)^[i] start

/-- Ids the loops go on with: everything but the last and the reserved values. -/
def Continues (v : ℕ) : Prop := v % 2 ^ 28 < 0xFFFFFF0 ∨ v % 2 ^ 28 = 0xFFFFFF7

/-- Ids at which the loops end. -/
def IsLast (v : ℕ) : Prop := 0xFFFFFF8 ≤ v % 2 ^ 28

instance (v : ℕ) : Decidable (Continues v) := inferInstanceAs (Decidable (_ ∨ _))
instance (v : ℕ) : Decidable (IsLast v) := inferInstanceAs (Decidable (_ ≤ _))

section Classify
variable {σ : Type} {v : ℕ}

theorem fat32FatEntryType_continues (h : Continues v) :
    ∃ ty, ty ≠ .last ∧ (fat32FatEntryType v : EStateM Stop σ ClusterType) = pure ty := by
  have hx : v * 2 ^ 4 % 2 ^ 32 / 2 ^ 4 = v % 2 ^ 28 := by omega
  unfold Continues at h
  unfold fat32FatEntryType
  simp only [hx]
  split_ifs
  · exact ⟨.free, by decide, rfl⟩
  · exact ⟨.reserved, by decide, rfl⟩
  · exact ⟨.bad, by decide, rfl⟩
  · exact ⟨.used, by decide, rfl⟩
  · omega
  · omega
  · omega

theorem fat32FatEntryType_isLast (h : IsLast v) :
    (fat32FatEntryType v : EStateM Stop σ ClusterType) = pure .last := by
  have hx : v * 2 ^ 4 % 2 ^ 32 / 2 ^ 4 = v % 2 ^ 28 := by omega
  unfold IsLast at h
  unfold fat32FatEntryType
  simp only [hx]
  rw [if_neg (by omega), if_neg (by omega), if_neg (by omega), if_neg (by omega),
    if_neg (by omega), if_pos (by omega)]

theorem fat32FatEntryType_panics (hc : ¬ Continues v) (hl : ¬ IsLast v) :
    (fat32FatEntryType v : EStateM Stop σ ClusterType) = throw (.panic "reserved value") := by
  have hx : v * 2 ^ 4 % 2 ^ 32 / 2 ^ 4 = v % 2 ^ 28 := by omega
  unfold Continues at hc
  unfold IsLast at hl
  unfold fat32FatEntryType
  simp only [hx]
  rw [if_neg (by omega), if_neg (by omega), if_neg (by omega), if_neg (by omega),
    if_pos (by omega)]

end Classify

section Walk
variable {σ β : Type} {fs : Fat32} {start : ℕ} (body : β → ℕ → EStateM Stop σ β)

theorem walkId_succ (fs : Fat32) (start i : ℕ) :
    walkId fs start (i + 1) = walkId fs (nextId fs start) i :=
  Function.iterate_succ_apply ..

theorem walkId_succ' (fs : Fat32) (start i : ℕ) :
    walkId fs start (i + 1) = nextId fs (walkId fs start i) :=
  Function.iterate_succ_apply' ..

theorem forClusters_continues (h : Continues start) (fuel : ℕ) (b : β) :
    forClusters fs body (fuel + 1) start b =
      body b start >>= forClusters fs body fuel (nextId fs start) := by
  obtain ⟨ty, hne, hty⟩ := fat32FatEntryType_continues (σ := σ) h
  unfold forClusters
  rw [hty]
  simp [hne]

theorem forClusters_ends (h : ¬ Continues start) (fuel : ℕ) (b : β) :
    forClusters fs body (fuel + 1) start b =
      if IsLast start then pure b else throw (.panic "reserved value") := by
  unfold forClusters
  split_ifs with hl
  · rw [fat32FatEntryType_isLast hl]
    simp
  · rw [fat32FatEntryType_panics h hl]
    rfl

/-- As long as the ids continue, a walk is its body folded over them. -/
theorem forClusters_steps (k fuel : ℕ) (b : β) (h : ∀ i < k, Continues (walkId fs start i)) :
    forClusters fs body (fuel + k) start b =
      ((List.range k).map (walkId fs start)).foldlM body b >>=
        forClusters fs body fuel (walkId fs start k) := by
  induction k generalizing start b with
  | zero =>
    simp
    rfl
  | succ k ih =>
    have hrest : ∀ i < k, Continues (walkId fs (nextId fs start) i) := by
      intro i hi
      rw [← walkId_succ]
      exact h (i + 1) (by omega)
    have hids : (List.range (k + 1)).map (walkId fs start) =
        start :: (List.range k).map (walkId fs (nextId fs start)) := by
      rw [List.range_succ_eq_map, List.map_cons, List.map_map]
      congr 1
    have hstart : Continues start := h 0 (by omega)
    rw [← Nat.add_assoc, forClusters_continues body hstart, hids, List.foldlM_cons,
      bind_assoc, walkId_succ]
    congr 1
    funext b'
    exact ih b' hrest

/-- A walk that stops being able to go on ends there, with enough fuel. -/
theorem forClusters_ends_at (k fuel : ℕ) (b : β) (h : ∀ i < k, Continues (walkId fs start i))
    (hk : ¬ Continues (walkId fs start k)) (hfuel : k < fuel) :
    forClusters fs body fuel start b =
      ((List.range k).map (walkId fs start)).foldlM body b >>= fun b =>
        if IsLast (walkId fs start k) then pure b else throw (.panic "reserved value") := by
  obtain ⟨m, rfl⟩ : ∃ m, fuel = m + 1 + k := ⟨fuel - k - 1, by omega⟩
  rw [forClusters_steps body k (m + 1) b h]
  congr 1
  funext b'
  exact forClusters_ends body hk m b'

/-- A walk that can always go on uses up any fuel. -/
theorem forClusters_diverges (fuel : ℕ) (b : β) (h : ∀ i, Continues (walkId fs start i)) :
    forClusters fs body fuel start b =
      ((List.range fuel).map (walkId fs start)).foldlM body b >>= fun _ => throw .diverge := by
  have hsteps := forClusters_steps body fuel 0 b fun i _ => h i
  rw [Nat.zero_add] at hsteps
  rw [hsteps]
  rfl

/-- After a repetition the walk goes round and round. -/
theorem walkId_periodic {i j : ℕ} (h : walkId fs start i = walkId fs start j) (m : ℕ) :
    walkId fs start (m + i) = walkId fs start (m + j) := by
  unfold walkId at h ⊢
  rw [Function.iterate_add_apply, Function.iterate_add_apply, h]

theorem continues_of_repeat {i j : ℕ} (hij : i < j) (h : walkId fs start i = walkId fs start j)
    (hall : ∀ m ≤ j, Continues (walkId fs start m)) (m : ℕ) : Continues (walkId fs start m) := by
  induction m using Nat.strong_induction_on with
  | _ m ih =>
    by_cases hm : m ≤ j
    · exact hall m hm
    · have hback : walkId fs start (m - j + i) = walkId fs start (m - j + j) :=
        walkId_periodic h (m - j)
      rw [Nat.sub_add_cancel (by omega)] at hback
      rw [← hback]
      exact ih (m - j + i) (by omega)

/-- Among more ids than the table has entries two agree. -/
theorem exists_repeat {n : ℕ} (hin : ∀ i ≤ n, walkId fs start i < n) :
    ∃ i j, i < j ∧ j ≤ n ∧ walkId fs start i = walkId fs start j := by
  let f : Fin (n + 1) → Fin n := fun i => ⟨walkId fs start i, hin i (by omega)⟩
  obtain ⟨i, j, hne, heq⟩ := Fintype.exists_ne_map_eq_of_card_lt f (by simp)
  have hids : walkId fs start i = walkId fs start j := congrArg Fin.val heq
  rcases lt_or_gt_of_ne hne with hlt | hgt
  · exact ⟨i, j, hlt, by omega, hids⟩
  · exact ⟨j, i, hgt, by omega, hids.symm⟩

end Walk

/-- A walk inside a table of `n` entries ends after at most `n` steps, at a last id or in a
panic, unless it comes back to an id it has used; then it goes on forever. -/
theorem forClusters_ends_or_repeats (fs : Fat32) (n start : ℕ)
    (hin : ∀ i, (∀ j ≤ i, Continues (walkId fs start j)) → walkId fs start i < n) :
    (∃ k ≤ n, (∀ i < k, Continues (walkId fs start i)) ∧
      ∀ (β : Type) (body : β → ℕ → EStateM Stop Flat β) (b : β) (fuel : ℕ), k < fuel →
        forClusters fs body fuel start b =
          ((List.range k).map (walkId fs start)).foldlM body b >>= fun b =>
            if IsLast (walkId fs start k) then pure b else throw (.panic "reserved value")) ∨
    (∃ i j, i < j ∧ j ≤ n ∧ walkId fs start i = walkId fs start j ∧
      ∀ (β : Type) (body : β → ℕ → EStateM Stop Flat β) (b : β) (fuel : ℕ),
        forClusters fs body fuel start b =
          ((List.range fuel).map (walkId fs start)).foldlM body b >>= fun _ => throw .diverge) := by
  by_cases hall : ∀ i ≤ n, Continues (walkId fs start i)
  · right
    have hlt : ∀ i ≤ n, walkId fs start i < n :=
      fun i hi => hin i fun j hj => hall j (by omega)
    obtain ⟨i, j, hij, hj, hids⟩ := exists_repeat hlt
    have hforever := continues_of_repeat hij hids fun m hm => hall m (by omega)
    exact ⟨i, j, hij, hj, hids, fun β body b fuel => forClusters_diverges body fuel b hforever⟩
  · left
    push Not at hall
    obtain ⟨hk, hstop⟩ := Nat.find_spec hall
    have hbefore : ∀ i < Nat.find hall, Continues (walkId fs start i) := by
      intro i hi
      by_contra hno
      exact Nat.find_min hall hi ⟨by omega, hno⟩
    exact ⟨Nat.find hall, hk, hbefore,
      fun β body b fuel hfuel => forClusters_ends_at body _ fuel b hbefore hstop hfuel⟩

/-- Cluster 2 is followed by itself. -/
def loopFs : Fat32 := { scatteredFs with fat := fun _ => 2 }

theorem forClusters_ends_or_repeats_loop :
    (∃ k ≤ 128, (∀ i < k, Continues (walkId loopFs 2 i)) ∧
      ∀ (β : Type) (body : β → ℕ → EStateM Stop Flat β) (b : β) (fuel : ℕ), k < fuel →
        forClusters loopFs body fuel 2 b =
          ((List.range k).map (walkId loopFs 2)).foldlM body b >>= fun b =>
            if IsLast (walkId loopFs 2 k) then pure b else throw (.panic "reserved value")) ∨
    (∃ i j, i < j ∧ j ≤ 128 ∧ walkId loopFs 2 i = walkId loopFs 2 j ∧
      ∀ (β : Type) (body : β → ℕ → EStateM Stop Flat β) (b : β) (fuel : ℕ),
        forClusters loopFs body fuel 2 b =
          ((List.range fuel).map (walkId loopFs 2)).foldlM body b >>= fun _ => throw .diverge) := by
  apply forClusters_ends_or_repeats loopFs 128 2
  intro i _
  cases i with
  | zero => decide
  | succ i =>
    rw [walkId_succ']
    change 2 < 128
    decide

/-- The count of the looping chain ends with no amount of fuel, and without a panic. -/
theorem countClusters_loop_diverges :
    ¬ ∃ (fuel : ℕ) (s : Flat), (countClusters fuel loopFs 2).run s ≠ .error .diverge s := by
  rintro ⟨fuel, s, hends⟩
  apply hends
  clear hends
  unfold countClusters
  generalize 0 = count
  induction fuel generalizing count with
  | zero => rfl
  | succ fuel ih =>
    rw [forClusters_continues _ (by decide), pure_bind]
    exact ih (add32 count 1)

section Used
variable {fs : Fat32} {start n : ℕ}

/-- A loop body that only notes the id it is given: the one the loops hand to
`cluster_to_lba` and index the table with. -/
def recordId (_ : Unit) (id : ℕ) : EStateM Stop (List ℕ) Unit := fun ids => .ok () (ids ++ [id])

/-- The ids a walk uses before it ends, however it ends. -/
def usedIds (fs : Fat32) (fuel start : ℕ) : List ℕ :=
  endState ((forClusters fs recordId fuel start ()).run [])

theorem mem_recorded (fuel : ℕ) (ids : List ℕ) (id : ℕ) :
    id ∈ endState ((forClusters fs recordId fuel start ()).run ids) ↔
      id ∈ ids ∨ ∃ i < fuel, (∀ j ≤ i, Continues (walkId fs start j)) ∧ id = walkId fs start i := by
  induction fuel generalizing start ids with
  | zero =>
    change id ∈ ids ↔ _
    simp
  | succ fuel ih =>
    by_cases hc : Continues start
    · have hrun : (recordId () start).run ids = .ok () (ids ++ [start]) := rfl
      rw [forClusters_continues _ hc, bind_ok hrun, ih]
      constructor
      · rintro (hmem | ⟨i, hi, hbefore, rfl⟩)
        · rcases List.mem_append.mp hmem with hold | hnew
          · exact .inl hold
          · refine .inr ⟨0, by omega, ?_, List.mem_singleton.mp hnew⟩
            intro j hj
            rw [Nat.le_zero.mp hj]
            exact hc
        · refine .inr ⟨i + 1, by omega, ?_, (walkId_succ ..).symm⟩
          intro j hj
          cases j with
          | zero => exact hc
          | succ j =>
            rw [walkId_succ]
            exact hbefore j (by omega)
      · rintro (hold | ⟨i, hi, hbefore, rfl⟩)
        · exact .inl (List.mem_append_left _ hold)
        · cases i with
          | zero => exact .inl (List.mem_append_right _ (List.mem_singleton.mpr rfl))
          | succ i =>
            refine .inr ⟨i, by omega, ?_, walkId_succ ..⟩
            intro j hj
            rw [← walkId_succ]
            exact hbefore (j + 1) (by omega)
    · have hrun : endState ((forClusters fs recordId (fuel + 1) start ()).run ids) = ids := by
        rw [forClusters_ends _ hc]
        split <;> rfl
      rw [hrun]
      constructor
      · exact .inl
      · rintro (hold | ⟨i, _, hbefore, _⟩)
        · exact hold
        · exact absurd (hbefore 0 (Nat.zero_le i)) hc

/-- Data clusters of a table of `n` entries. -/
def IsData (n id : ℕ) : Prop := 2 ≤ id ∧ id < n

instance (n id : ℕ) : Decidable (IsData n id) := inferInstanceAs (Decidable (_ ∧ _))

/-- The data clusters linked to the start over data clusters only. -/
inductive DataReach (fs : Fat32) (n start : ℕ) : ℕ → Prop where
  | start (h : IsData n start) : DataReach fs n start start
  | link {c : ℕ} (hc : DataReach fs n start c) (h : IsData n (fs.fat c)) :
      DataReach fs n start (fs.fat c)

theorem DataReach.isData {c : ℕ} (h : DataReach fs n start c) : IsData n c := by
  cases h with
  | start h => exact h
  | link _ h => exact h

theorem IsData.continues {size : FatSize} {id : ℕ} (h : IsData size.n id) : Continues id := by
  have hfit : 4 * size.n ≤ 512 * 2 ^ 20 := size.fits
  unfold IsData at h
  unfold Continues
  omega

/-- Reached clusters are the ids of a walk that has not left the data clusters. -/
theorem DataReach.exists_walkId {size : FatSize} {c : ℕ} (h : DataReach fs size.n start c) :
    ∃ i, walkId fs start i = c ∧ ∀ j ≤ i, IsData size.n (walkId fs start j) := by
  induction h with
  | start h =>
    refine ⟨0, rfl, ?_⟩
    intro j hj
    rw [Nat.le_zero.mp hj]
    exact h
  | link hc h ih =>
    obtain ⟨i, rfl, hbefore⟩ := ih
    have hnext : walkId fs start (i + 1) = fs.fat (walkId fs start i) := by
      rw [walkId_succ', nextId_eq (hbefore i le_rfl).2]
    refine ⟨i + 1, hnext, ?_⟩
    intro j hj
    rcases Nat.lt_or_ge j (i + 1) with hlt | hge
    · exact hbefore j (by omega)
    · rw [show j = i + 1 by omega, hnext]
      exact h

/-- The walks use data clusters only exactly when the start cluster, and the entry of every
data cluster they get to, is a data cluster or ends the walk on the spot. -/
theorem usedIds_isData_iff (fs : Fat32) (size : FatSize) (start : ℕ) :
    (∀ fuel, ∀ id ∈ usedIds fs fuel start, IsData size.n id) ↔
      (Continues start → IsData size.n start) ∧
      ∀ c, DataReach fs size.n start c → Continues (fs.fat c) → IsData size.n (fs.fat c) := by
  have hused : ∀ i, (∀ j ≤ i, Continues (walkId fs start j)) →
      walkId fs start i ∈ usedIds fs (i + 1) start := by
    intro i hi
    exact (mem_recorded (i + 1) [] _).mpr (.inr ⟨i, by omega, hi, rfl⟩)
  constructor
  · intro h
    constructor
    · intro hc
      apply h 1
      apply hused 0
      intro j hj
      rw [Nat.le_zero.mp hj]
      exact hc
    · intro c hreach hc
      obtain ⟨i, rfl, hbefore⟩ := hreach.exists_walkId
      have hnext : walkId fs start (i + 1) = fs.fat (walkId fs start i) := by
        rw [walkId_succ', nextId_eq (hbefore i le_rfl).2]
      rw [← hnext]
      apply h (i + 2)
      apply hused (i + 1)
      intro j hj
      rcases Nat.lt_or_ge j (i + 1) with hlt | hge
      · exact (hbefore j (by omega)).continues
      · rw [show j = i + 1 by omega, hnext]
        exact hc
  · rintro ⟨hstart, hlink⟩
    -- The invariant of the walk: the id in hand is reached over data clusters.
    have hinv : ∀ i, (∀ j ≤ i, Continues (walkId fs start j)) →
        DataReach fs size.n start (walkId fs start i) := by
      intro i
      induction i with
      | zero =>
        intro hc
        exact .start (hstart (hc 0 le_rfl))
      | succ i ih =>
        intro hc
        have hreach := ih fun j hj => hc j (by omega)
        have hcont := hc (i + 1) le_rfl
        rw [walkId_succ', nextId_eq hreach.isData.2] at hcont ⊢
        exact .link hreach (hlink _ hreach hcont)
    intro fuel id hid
    rcases (mem_recorded fuel [] id).mp hid with hnil | ⟨i, _, hbefore, rfl⟩
    · cases hnil
    · exact (hinv i hbefore).isData

end Used

/-- The first entry of every volume is the media descriptor, an end-of-chain value. -/
def emptyFileFs : Fat32 := { scatteredFs with fat := fun id => if id = 0 then 0xFFFFFF8 else 0 }

/-- The start cluster of an empty file is 0; it is counted and read. -/
theorem emptyFile_usedIds :
    ¬ ∀ fuel, ∀ id ∈ usedIds emptyFileFs fuel 0, IsData scatteredSize.n id := by
  intro h
  exact absurd (h 2 0 (by decide)) (by decide)

section TopBits
variable {fs : Fat32} {size : FatSize} {c : ℕ} {cs : List ℕ} {fat' : ℕ → ℕ}

/-- `fat'` differs from `fat` in bits 28 to 31 of some of the `n` entries only. -/
structure TopBitsVariant (n : ℕ) (fat fat' : ℕ → ℕ) : Prop where
  low : ∀ i < n, fat' i % 2 ^ 28 = fat i % 2 ^ 28
  high : ∀ i < n, fat' i / 2 ^ 32 = fat i / 2 ^ 32
  rest : ∀ i, n ≤ i → fat' i = fat i

/-- With the other table the same clusters are counted, the same sectors are read and the
same file is returned. -/
def SameReads (fs : Fat32) (fat' : ℕ → ℕ) (fuel c : ℕ) : Prop :=
  (countClusters fuel { fs with fat := fat' } c : EStateM Stop Flat ℕ) = countClusters fuel fs c ∧
  (usedIds { fs with fat := fat' } fuel c).map (clusterToLba fs) =
    (usedIds fs fuel c).map (clusterToLba fs) ∧
  ∀ disk d, d.clusterId = c →
    fat32ReadFile flat disk fuel { fs with fat := fat' } d = fat32ReadFile flat disk fuel fs d

/-- A table with the links of the chain as they are and any end-of-chain value at its end
has the same chain. -/
theorem Chain.of_links (h : Chain fs size c cs)
    (hlow : ∀ i < size.n, fat' i % 2 ^ 28 = fs.fat i % 2 ^ 28)
    (hhigh : ∀ i < size.n, fat' i / 2 ^ 32 = fs.fat i / 2 ^ 32)
    (hlinks : ∀ id ∈ cs.dropLast, fat' id = fs.fat id) :
    Chain { fs with fat := fat' } size c cs := by
  induction h with
  | @last c hlo hhi hend =>
    obtain ⟨hword, hlast⟩ := hend
    have hl := hlow c hhi
    have hh := hhigh c hhi
    refine .last hlo hhi ⟨?_, ?_⟩
    · change fat' c < 2 ^ 32
      omega
    · change 0xFFFFFF8 ≤ fat' c % 2 ^ 28
      omega
  | @next c cs hlo hhi htop hcs ih =>
    rw [List.dropLast_cons_of_ne_nil hcs.ne_nil] at hlinks
    have hc : fat' c = fs.fat c := hlinks c (List.mem_cons_self ..)
    refine .next hlo hhi ?_ ?_
    · change fat' c < 2 ^ 28
      rw [hc]
      exact htop
    · change Chain _ size (fat' c) cs
      rw [hc]
      exact ih fun id hid => hlinks id (List.mem_cons_of_mem _ hid)

theorem Chain.isData (h : Chain fs size c cs) : IsData size.n c := by
  cases h with
  | last hlo hhi _ => exact ⟨hlo, hhi⟩
  | next hlo hhi _ _ => exact ⟨hlo, hhi⟩

theorem Chain.mem_lt (h : Chain fs size c cs) {id : ℕ} (hid : id ∈ cs) : id < size.n := by
  induction h with
  | last _ hhi _ =>
    rw [List.mem_singleton.mp hid]
    exact hhi
  | next _ hhi _ _ ih =>
    rcases List.mem_cons.mp hid with rfl | htail
    · exact hhi
    · exact ih htail

/-- Both tables have the chain: every walk is the same fold. -/
theorem sameReads_of_chain (h : Chain fs size c cs) (h' : Chain { fs with fat := fat' } size c cs)
    {fuel : ℕ} (hfuel : cs.length < fuel) : SameReads fs fat' fuel c := by
  have hwalk : ∀ {σ β : Type} (body : β → ℕ → EStateM Stop σ β) (b : β),
      forClusters { fs with fat := fat' } body fuel c b = forClusters fs body fuel c b := by
    intro σ β body b
    rw [forClusters_chain body h hfuel, forClusters_chain body h' hfuel]
  refine ⟨hwalk _ _, ?_, ?_⟩
  · unfold usedIds
    rw [hwalk]
  · intro disk d hd
    subst hd
    unfold fat32ReadFile countClusters
    simp only [hwalk]
    rfl

/-- A link with a top bit set leads behind the table. -/
theorem countClusters_changed_link (fs : Fat32) {c₂ : ℕ} {rest : ℕ → ℕ} (hc : IsData size.n c)
    (hc₂ : IsData size.n c₂) (hlink : fat' c = c₂ + 2 ^ 28)
    (hrest : ∀ i, size.n ≤ i → fat' i = rest i) (hpanic : ∀ i, rest i = 0xFFFFFF0)
    {fuel : ℕ} (hfuel : 2 < fuel) (s : Flat) :
    (countClusters fuel { fs with fat := fat' } c).run s = .error (.panic "reserved value") s := by
  have hfit : 4 * size.n ≤ 512 * 2 ^ 20 := size.fits
  have hlt := hc₂.2
  have h0 : nextId { fs with fat := fat' } c = c₂ + 2 ^ 28 := by
    rw [nextId_eq hc.2]
    exact hlink
  have h1 : nextId { fs with fat := fat' } (c₂ + 2 ^ 28) = 0xFFFFFF0 := by
    unfold nextId
    rw [Nat.mod_eq_of_lt (by omega)]
    change fat' _ = _
    rw [hrest _ (by omega), hpanic]
  have hcont : Continues (c₂ + 2 ^ 28) := by
    unfold Continues
    omega
  obtain ⟨m, rfl⟩ : ∃ m, fuel = m + 3 := ⟨fuel - 3, by omega⟩
  unfold countClusters
  rw [forClusters_continues _ hc.continues, pure_bind, h0, forClusters_continues _ hcont,
    pure_bind, h1, forClusters_ends _ (by decide), if_neg (by decide)]
  rfl

end TopBits

/-- The memory of `fs` with other words behind the table. -/
def withRest (fs : Fat32) (n : ℕ) (rest : ℕ → ℕ) : Fat32 :=
  { fs with fat := fun i => if i < n then fs.fat i else rest i }

/-- A change of reserved bits goes unnoticed when no link of the chain is changed; every
such change goes unnoticed, whatever lies behind the table, only on a chain without links. -/
theorem reservedBits_ignored (fs : Fat32) (size : FatSize) (c : ℕ) (cs : List ℕ) (fuel : ℕ)
    (h : Chain fs size c cs) (hfuel : cs.length < fuel) :
    (∀ fat', TopBitsVariant size.n fs.fat fat' → (∀ id ∈ cs.dropLast, fat' id = fs.fat id) →
      SameReads fs fat' fuel c) ∧
    ((∀ rest fat', TopBitsVariant size.n (withRest fs size.n rest).fat fat' →
      SameReads (withRest fs size.n rest) fat' fuel c) ↔ cs.length = 1) := by
  have hsame : ∀ (fs : Fat32), Chain fs size c cs → ∀ fat', TopBitsVariant size.n fs.fat fat' →
      (∀ id ∈ cs.dropLast, fat' id = fs.fat id) → SameReads fs fat' fuel c := by
    intro fs h fat' hv hlinks
    exact sameReads_of_chain h (h.of_links hv.low hv.high hlinks) hfuel
  have hin : ∀ rest i, i < size.n → (withRest fs size.n rest).fat i = fs.fat i :=
    fun rest i hi => if_pos hi
  have hrest : ∀ rest, Chain (withRest fs size.n rest) size c cs := by
    intro rest
    refine h.of_links (fun i hi => ?_) (fun i hi => ?_) fun id hid => hin rest id ?_
    · rw [if_pos hi]
    · rw [if_pos hi]
    · exact h.mem_lt (List.dropLast_subset cs hid)
  refine ⟨hsame fs h, ?_⟩
  constructor
  · intro hall
    cases h with
    | last hlo hhi hend => rfl
    | @next c cs hlo hhi htop hcs =>
      exfalso
      let rest : ℕ → ℕ := fun _ => 0xFFFFFF0
      let fatR := (withRest fs size.n rest).fat
      let fat' := Function.update fatR c (fs.fat c + 2 ^ 28)
      have hother : ∀ i, i ≠ c → fat' i = fatR i := fun i hi => Function.update_of_ne hi ..
      have hlink : fat' c = fs.fat c + 2 ^ 28 := Function.update_self ..
      have hc : fatR c = fs.fat c := hin rest c hhi
      have hv : TopBitsVariant size.n fatR fat' := by
        constructor
        · intro i hi
          by_cases hic : i = c
          · rw [hic, hlink, hc]
            omega
          · rw [hother i hic]
        · intro i hi
          by_cases hic : i = c
          · rw [hic, hlink, hc]
            omega
          · rw [hother i hic]
        · intro i hi
          exact hother i (by omega)
      have hbehind : ∀ i, size.n ≤ i → fat' i = rest i := by
        intro i hi
        rw [hv.rest i hi]
        exact if_neg (by omega)
      have hnext : IsData size.n (fs.fat c) := hcs.isData
      have hlen : 2 < fuel := by
        have hpos := List.length_pos_iff.mpr hcs.ne_nil
        rw [List.length_cons] at hfuel
        omega
      -- The changed table makes the count panic; the other one returns a number.
      have hcount := congrArg (fun m => m.run emptyFlat) (hall rest fat' hv).1
      have hpanics := countClusters_changed_link (withRest fs size.n rest) ⟨hlo, hhi⟩ hnext
        hlink hbehind (fun _ => rfl) hlen emptyFlat
      change (countClusters fuel _ c).run emptyFlat = (countClusters fuel _ c).run emptyFlat at hcount
      rw [hpanics, countClusters_chain (hrest rest) hfuel] at hcount
      cases hcount
  · intro hone rest fat' hv
    refine hsame _ (hrest rest) fat' hv ?_
    obtain ⟨id, rfl⟩ := List.length_eq_one_iff.mp hone
    simp

theorem scattered_reservedBits_ignored :
    (∀ fat', TopBitsVariant scatteredSize.n scatteredFs.fat fat' →
      (∀ id ∈ [2, 5].dropLast, fat' id = scatteredFs.fat id) →
      SameReads scatteredFs fat' 3 2) ∧
    ((∀ rest fat',
      TopBitsVariant scatteredSize.n (withRest scatteredFs scatteredSize.n rest).fat fat' →
      SameReads (withRest scatteredFs scatteredSize.n rest) fat' 3 2) ↔ [2, 5].length = 1) :=
  reservedBits_ignored scatteredFs scatteredSize 2 [2, 5] 3 scattered_chain (by decide)

/-- With bit 28 of entry 2 set, the walk reads far behind cluster 5. -/
theorem scattered_reservedBits_differ :
    ¬ ∀ fat', TopBitsVariant scatteredSize.n scatteredFs.fat fat' →
      SameReads scatteredFs fat' 3 2 := by
  intro h
  let fat' : ℕ → ℕ := fun id => if id = 2 then 0x10000005 else 0xFFFFFFF
  have hv : TopBitsVariant scatteredSize.n scatteredFs.fat fat' := by
    constructor
    · intro i _
      by_cases hi : i = 2
      · subst hi
        decide
      · simp [fat', scatteredFs, hi]
    · intro i _
      by_cases hi : i = 2
      · subst hi
        decide
      · simp [fat', scatteredFs, hi]
    · intro i hi
      have hne : i ≠ 2 := by
        rintro rfl
        exact absurd hi (by decide)
      simp [fat', scatteredFs, hne]
  exact absurd (h fat' hv).2.1 (by decide)

end SimplePiOS.Kernel
