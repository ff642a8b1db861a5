import SimplePiOS.Kernel.Threads

/-! How many blocks the thread package takes from `kmalloc`. -/
namespace SimplePiOS.Kernel

/-- One round: the main code forks `forks` threads and calls `rpi_thread_start`, and the threads make
these calls until it returns. -/
structure Round where
  forks : ℕ
  calls : List ThreadCall

namespace Round

def all (r : Round) : List ThreadCall := List.replicate r.forks .mainFork ++ .start :: r.calls

/-- The largest number of threads that are live at once, from `n` on. -/
def peakFrom : ℕ → List ThreadCall → ℕ
  | n, [] => n
  | n, .fork :: cs => max n (peakFrom (n + 1) cs)
  | n, .exit :: cs => max n (peakFrom (n - 1) cs)
  | n, _ :: cs => max n (peakFrom n cs)

def peak (r : Round) : ℕ := peakFrom r.forks r.calls

end Round

def ThreadCall.OfThread (c : ThreadCall) : Prop := c ≠ .mainFork ∧ c ≠ .start

/-- Rounds one after the other, each up to the return of its `rpi_thread_start`. -/
inductive Played : Threads → List Round → Threads → Prop where
  | nil (s : Threads) : Played s [] s
  | cons {s s' s'' : Threads} {r : Round} {rs : List Round}
      (hthread : ∀ c ∈ r.calls, c.OfThread) (hrun : Threads.Run s r.all s')
      (hback : s'.control = .main) (hrest : Played s' rs s'') : Played s (r :: rs) s''

/-- The rounds that fork a thread, as their largest numbers of live threads. -/
def busy (rs : List Round) : List ℕ := (rs.map Round.peak).filter (0 < ·)

def largest (ls : List ℕ) : ℕ := ls.foldr max 0

section Runs
variable {s s' t : Threads} {cs cs' : List ThreadCall} {l f : List ℕ}

theorem Threads.Run.append_iff :
    Threads.Run s (cs ++ cs') s' ↔ ∃ t, Threads.Run s cs t ∧ Threads.Run t cs' s' := by
  induction cs generalizing s with
  | nil =>
    constructor
    · exact fun h => ⟨s, .nil s, h⟩
    · rintro ⟨t, ⟨⟩, h⟩
      exact h
  | cons c cs ih =>
    constructor
    · rintro (_ | ⟨henabled, hstep, hrun⟩)
      obtain ⟨t, ht, hrest⟩ := ih.mp hrun
      exact ⟨t, .cons henabled hstep ht, hrest⟩
    · rintro ⟨t, _ | ⟨henabled, hstep, hrun⟩, hrest⟩
      exact .cons henabled hstep (ih.mpr ⟨t, hrun, hrest⟩)

theorem Threads.Run.det (h : Threads.Run s cs s') (h' : Threads.Run s cs t) : s' = t := by
  induction h with
  | nil s =>
    cases h'
    rfl
  | cons _ hstep _ ih =>
    obtain _ | ⟨-, hstep', hrun'⟩ := h'
    rw [hstep] at hstep'
    cases hstep'
    exact ih hrun'

theorem Threads.Sound.inUse_le (h : s.Sound l f) : s.inUse ≤ s.taken := by
  have hlive := h.live.length_eq
  have hblocks := h.blocks
  rw [List.length_append] at hblocks
  rw [Threads.inUse]
  omega

theorem le_peakFrom (n : ℕ) (cs : List ThreadCall) : n ≤ Round.peakFrom n cs := by
  cases cs with
  | nil => exact Nat.le_refl n
  | cons c cs => cases c <;> exact Nat.le_max_left _ _

/-- The forks of the main code. -/
theorem run_mainForks (n : ℕ) (h : s.Sound l f) (hmain : s.control = .main)
    (hrun : Threads.Run s (List.replicate n .mainFork) s') :
    (∃ l' f', s'.Sound l' f') ∧ s'.control = .main ∧ starts s'.log = starts s.log ∧
      (live s'.log).length = (live s.log).length + n ∧ s'.taken = max s.taken (s.inUse + n) := by
  induction n generalizing s l f with
  | zero =>
    cases hrun
    exact ⟨⟨l, f, h⟩, hmain, rfl, rfl, (Nat.max_eq_left h.inUse_le).symm⟩
  | succ n ih =>
    rw [List.replicate_succ] at hrun
    obtain _ | ⟨-, hstep, hrest⟩ := hrun
    obtain ⟨s₁, u, f₁, hfork, hs₁, hcontrol, hlog, htaken⟩ := rpiFork_sound h
    change ThreadCall.fork.step s = some _ at hstep
    rw [hfork] at hstep
    have heq := Option.some.inj hstep
    subst heq
    obtain ⟨hsound, hmain', hstarts, hlive, htaken'⟩ := ih hs₁ (hcontrol.trans hmain) hrest
    have huse : s₁.inUse = s.inUse + 1 := by
      simp only [Threads.inUse, hlog, live_forked, starts_forked, List.length_append,
        List.length_singleton]
      omega
    rw [hlog, live_forked, List.length_append, List.length_singleton] at hlive
    rw [hlog, starts_forked] at hstarts
    exact ⟨hsound, hmain', hstarts, by omega, by omega⟩

/-- Once control is back in the main code no thread can make a call. -/
theorem run_main (hthread : ∀ c ∈ cs, c.OfThread) (hmain : s.control = .main)
    (hrun : Threads.Run s cs s') : cs = [] ∧ s' = s := by
  cases hrun with
  | nil => exact ⟨rfl, rfl⟩
  | @cons _ _ _ c cs henabled =>
    obtain ⟨hfork, hstart⟩ := hthread c List.mem_cons_self
    cases c with
    | mainFork => exact absurd rfl hfork
    | start => exact absurd rfl hstart
    | fork | yield | exit =>
      obtain ⟨t, ht⟩ := henabled
      exact absurd (hmain.symm.trans ht) Control.noConfusion

/-- The calls of the threads. -/
theorem run_threads (hthread : ∀ c ∈ cs, c.OfThread) (h : s.Sound l f)
    (hrun : Threads.Run s cs s') : (∃ l' f', s'.Sound l' f') ∧ starts s'.log = starts s.log ∧
      s'.taken = max s.taken (starts s.log + Round.peakFrom (live s.log).length cs) ∧
      (s.control ≠ .main → s'.control = .main → live s'.log = []) := by
  induction hrun generalizing l f with
  | nil s =>
    have hle := h.inUse_le
    rw [Threads.inUse] at hle
    refine ⟨⟨l, f, h⟩, rfl, ?_, fun hne heq => absurd heq hne⟩
    rw [Round.peakFrom]
    omega
  | @cons s s₁ s₂ c cs henabled hstep hrest ih =>
    obtain ⟨hc, hcs⟩ := List.forall_mem_cons.mp hthread
    have hle := h.inUse_le
    rw [Threads.inUse] at hle
    cases c with
    | mainFork => exact absurd rfl hc.1
    | start => exact absurd rfl hc.2
    | fork =>
      obtain ⟨u, hu⟩ := henabled
      obtain ⟨s₁', v, f₁, hfork, hs₁, hcontrol, hlog, htaken⟩ := rpiFork_sound h
      change ThreadCall.fork.step s = some _ at hstep
      rw [hfork] at hstep
      cases hstep
      obtain ⟨hsound, hstarts, htaken', hback⟩ := ih hcs hs₁
      rw [hlog, starts_forked] at hstarts htaken'
      rw [live_forked, List.length_append, List.length_singleton, htaken, Threads.inUse] at htaken'
      have hpeak := le_peakFrom ((live s.log).length + 1) cs
      refine ⟨hsound, hstarts, ?_, fun hne => hback (hcontrol ▸ hne)⟩
      rw [Round.peakFrom]
      omega
    | yield =>
      obtain ⟨u, hu⟩ := henabled
      obtain ⟨s₁', l₁, hyield, hs₁, ⟨v, hv⟩, htaken, hlive, hstarts₁, -⟩ := rpiYield_sound h hu
      change ThreadCall.yield.step s = some _ at hstep
      rw [hyield] at hstep
      cases hstep
      obtain ⟨hsound, hstarts, htaken', hback⟩ := ih hcs hs₁
      rw [hstarts₁] at hstarts htaken'
      rw [hlive, htaken] at htaken'
      have hpeak := le_peakFrom (live s.log).length cs
      refine ⟨hsound, hstarts, ?_, fun _ => hback (by rw [hv]; exact Control.noConfusion)⟩
      rw [Round.peakFrom]
      omega
      all_goals exact ThreadCall.noConfusion
    | exit =>
      obtain ⟨u, hu⟩ := henabled
      obtain ⟨s₁', l₁, f₁, hexit, hs₁, htaken, hlive, hstarts₁, hgone⟩ := rpiExit_sound h hu
      change ThreadCall.exit.step s = some _ at hstep
      rw [hexit] at hstep
      cases hstep
      obtain ⟨hsound, hstarts, htaken', hback⟩ := ih hcs hs₁
      rw [hstarts₁] at hstarts htaken'
      rw [htaken, show (live s₁.log).length = (live s.log).length - 1 by omega] at htaken'
      refine ⟨hsound, hstarts, ?_, fun _ hmain => ?_⟩
      · have hpeak := le_peakFrom ((live s.log).length - 1) cs
        rw [Round.peakFrom]
        omega
      · by_cases hmid : s₁.control = .main
        · rw [(run_main hcs hmid hrest).2]
          exact hgone hmid
        · exact hback hmid hmain

/-- A round takes a block for each thread that lives while no other is free, and one more for the
scheduler, which never comes back. -/
theorem run_round {r : Round} (hthread : ∀ c ∈ r.calls, c.OfThread) (h : s.Sound l f)
    (hmain : s.control = .main) (hlive : live s.log = []) (hrun : Threads.Run s r.all s')
    (hback : s'.control = .main) : (∃ l' f', s'.Sound l' f') ∧ live s'.log = [] ∧
      (r.peak = 0 ∧ starts s'.log = starts s.log ∧ s'.taken = s.taken ∨
        0 < r.peak ∧ starts s'.log = starts s.log + 1 ∧
          s'.taken = max s.taken (starts s.log + 1 + r.peak)) := by
  obtain ⟨s₁, hforks, hrest⟩ := Threads.Run.append_iff.mp hrun
  obtain ⟨⟨l₁, f₁, hs₁⟩, hmain₁, hstarts₁, hlive₁, htaken₁⟩ := run_mainForks r.forks h hmain hforks
  obtain _ | ⟨-, hstep, hthreads⟩ := hrest
  obtain ⟨s₂, l₂, f₂, hstart, hs₂, hlive₂, hcases⟩ := rpiThreadStart_sound hs₁ hmain₁
  change ThreadCall.start.step s₁ = some _ at hstep
  rw [hstart] at hstep
  have heq := Option.some.inj hstep
  subst heq
  have hle := h.inUse_le
  have hnone : s₁.control.running = [] := by rw [hmain₁]; rfl
  have hcount := hs₁.live.length_eq
  rw [Threads.inUse, hlive, List.length_nil, Nat.zero_add] at hle htaken₁
  rw [hlive, List.length_nil, Nat.zero_add] at hlive₁
  rw [hnone, List.nil_append, hlive₁] at hcount
  rcases hcases with ⟨rfl, hmain₂, htaken₂, hstarts₂⟩ | ⟨hne, hmain₂, htaken₂, hstarts₂⟩
  · -- no thread was forked
    obtain ⟨hcalls, rfl⟩ := run_main hthread hmain₂ hthreads
    rw [List.length_nil] at hcount
    refine ⟨⟨l₂, f₂, hs₂⟩, ?_, .inl ⟨?_, hstarts₂.trans hstarts₁, by omega⟩⟩
    · rw [hlive₂]
      exact List.length_eq_zero_iff.mp (hlive₁.trans hcount.symm)
    · rw [Round.peak, hcalls, ← hcount]
      rfl
  · obtain ⟨hsound, hstarts, htaken, hgone⟩ := run_threads hthread hs₂ hthreads
    have hforked : 0 < r.forks := by
      have := List.length_pos_of_ne_nil hne
      omega
    rw [hlive₂, hlive₁, ← Round.peak, htaken₂, htaken₁, hstarts₂, Threads.inUse, hlive₁] at htaken
    have hpeak : r.forks ≤ r.peak := le_peakFrom r.forks r.calls
    refine ⟨hsound, hgone hmain₂ hback, .inr ⟨by omega, by omega, by omega⟩⟩

/-- Each round with a thread needs its live threads, its scheduler and the schedulers of the rounds
before it. -/
theorem played_taken_le {rs : List Round} (hplayed : Played s rs s') (h : s.Sound l f)
    (hmain : s.control = .main) (hlive : live s.log = []) (k : ℕ) : s'.taken ≤ k ↔
      s.taken ≤ k ∧ ∀ j n, (busy rs)[j]? = some n → starts s.log + 1 + j + n ≤ k := by
  induction hplayed generalizing l f with
  | nil s => simp [busy]
  | @cons s s₁ s₂ r rs hthread hrun hback _ ih =>
    obtain ⟨⟨l₁, f₁, hs₁⟩, hlive₁, hcases⟩ := run_round hthread h hmain hlive hrun hback
    rw [ih hs₁ hback hlive₁]
    rcases hcases with ⟨hpeak, hstarts, htaken⟩ | ⟨hpeak, hstarts, htaken⟩
    · have hbusy : busy (r :: rs) = busy rs := by simp [busy, hpeak]
      rw [hbusy, hstarts, htaken]
    · have hbusy : busy (r :: rs) = r.peak :: busy rs := by simp [busy, hpeak]
      rw [hbusy, hstarts, htaken]
      constructor
      · rintro ⟨hfirst, hrest⟩
        refine ⟨by omega, fun j n hj => ?_⟩
        cases j with
        | zero =>
          obtain rfl : r.peak = n := by simpa using hj
          omega
        | succ j =>
          have := hrest j n (by simpa using hj)
          omega
      · rintro ⟨hfirst, hall⟩
        refine ⟨?_, fun j n hj => ?_⟩
        · have := hall 0 r.peak rfl
          omega
        · have := hall (j + 1) n (by simpa using hj)
          omega

theorem step_taken_le (h : s.Sound l f) {c : ThreadCall} (hc : c.Enabled s) (hstep : c.step s = some s') :
    s.taken ≤ s'.taken := by
  cases c with
  | mainFork | fork =>
    obtain ⟨s₁, u, f₁, hfork, -, -, -, htaken⟩ := rpiFork_sound h
    cases hfork.symm.trans hstep
    omega
  | start =>
    obtain ⟨s₁, l₁, f₁, hstart, -, -, ⟨-, -, htaken, -⟩ | ⟨-, -, htaken, -⟩⟩ := rpiThreadStart_sound h hc
    · cases hstart.symm.trans hstep
      omega
    · cases hstart.symm.trans hstep
      omega
  | yield =>
    obtain ⟨u, hu⟩ := hc
    obtain ⟨s₁, l₁, hyield, -, -, htaken, -⟩ := rpiYield_sound h hu
    cases hyield.symm.trans hstep
    omega
  | exit =>
    obtain ⟨u, hu⟩ := hc
    obtain ⟨s₁, l₁, f₁, hexit, -, htaken, -⟩ := rpiExit_sound h hu
    cases hexit.symm.trans hstep
    omega

theorem Threads.Run.taken_le (h : s.Sound l f) (hrun : Threads.Run s cs s') : s.taken ≤ s'.taken := by
  induction hrun generalizing l f with
  | nil s => exact Nat.le_refl _
  | @cons s s₁ s₂ c cs henabled hstep _ ih =>
    obtain ⟨s₁', l₁, f₁, hstep', hs₁⟩ := step_sound h henabled
    rw [hstep] at hstep'
    cases hstep'
    exact Nat.le_trans (step_taken_le h henabled hstep) (ih hs₁)

end Runs

section Recycling

/-- All calls of some rounds. -/
def allCalls (rs : List Round) : List ThreadCall := rs.flatMap Round.all

theorem Played.run {s s' : Threads} {rs : List Round} (h : Played s rs s') :
    Threads.Run s (allCalls rs) s' := by
  induction h with
  | nil s => exact .nil s
  | cons _ hrun _ _ ih => exact Threads.Run.append_iff.mpr ⟨_, hrun, ih⟩

/-- The blocks taken never exceed the largest number of live threads plus one exactly if each round
that forks a thread has as many threads fewer than that as there were such rounds before it:
`rpi_thread_start` takes a block for itself and does not give it back. -/
theorem blocks_recycled_iff (next : ℕ → Option ℕ) (sp : ℕ → Option Control) {rs : List Round}
    {s : Threads} (h : Played (Threads.init next sp) rs s) :
    (∀ cs t, cs <+: allCalls rs → Threads.Run (Threads.init next sp) cs t →
      t.taken ≤ largest (rs.map Round.peak) + 1) ↔
      ∀ j n, (busy rs)[j]? = some n → n + j ≤ largest (rs.map Round.peak) := by
  have hsound := Threads.sound_init next sp
  have htaken := played_taken_le h hsound rfl rfl (largest (rs.map Round.peak) + 1)
  have hfinal : s.taken ≤ largest (rs.map Round.peak) + 1 ↔
      ∀ j n, (busy rs)[j]? = some n → n + j ≤ largest (rs.map Round.peak) := by
    rw [htaken]
    constructor
    · rintro ⟨-, hall⟩ j n hj
      have := hall j n hj
      omega
    · intro hall
      refine ⟨Nat.zero_le _, fun j n hj => ?_⟩
      have := hall j n hj
      have hstarts : starts (Threads.init next sp).log = 0 := rfl
      omega
  rw [← hfinal]
  constructor
  · intro hall
    exact hall _ s (List.prefix_refl _) h.run
  · rintro hle cs t ⟨cs', hcs⟩ ht
    have hrun := h.run
    rw [← hcs] at hrun
    obtain ⟨t', ht', hrest⟩ := Threads.Run.append_iff.mp hrun
    obtain rfl := ht.det ht'
    obtain ⟨l, f, hsound'⟩ := run_sound ht hsound
    exact Nat.le_trans (hrest.taken_le hsound') hle

/-- A round of two threads and a round of one. -/
theorem blocks_recycled_iff_two : ∃ s,
    Played (Threads.init (fun _ => none) fun _ => none) [⟨2, [.exit, .exit]⟩, ⟨1, [.exit]⟩] s ∧
    ((∀ cs t, cs <+: allCalls [⟨2, [.exit, .exit]⟩, ⟨1, [.exit]⟩] →
      Threads.Run (Threads.init (fun _ => none) fun _ => none) cs t →
        t.taken ≤ largest ([⟨2, [.exit, .exit]⟩, ⟨1, [.exit]⟩].map Round.peak) + 1) ↔
      ∀ j n, (busy [⟨2, [.exit, .exit]⟩, ⟨1, [.exit]⟩])[j]? = some n →
        n + j ≤ largest ([⟨2, [.exit, .exit]⟩, ⟨1, [.exit]⟩].map Round.peak)) := by
  have hplayed : ∃ s, Played (Threads.init (fun _ => none) fun _ => none)
      [⟨2, [.exit, .exit]⟩, ⟨1, [.exit]⟩] s :=
    ⟨_, .cons (by simp [ThreadCall.OfThread])
      (.cons rfl rfl (.cons rfl rfl (.cons rfl rfl (.cons ⟨0, rfl⟩ rfl (.cons ⟨1, rfl⟩ rfl (.nil _))))))
      rfl (.cons (by simp [ThreadCall.OfThread])
        (.cons rfl rfl (.cons rfl rfl (.cons ⟨0, rfl⟩ rfl (.nil _)))) rfl (.nil _))⟩
  obtain ⟨s, hplayed⟩ := hplayed
  exact ⟨s, hplayed, blocks_recycled_iff _ _ hplayed⟩

/-- With one thread in each of two rounds three blocks are taken. -/
theorem blocks_not_recycled : ¬ ∀ (next : ℕ → Option ℕ) (sp : ℕ → Option Control) (rs : List Round)
    (s : Threads), Played (Threads.init next sp) rs s → ∀ cs t, cs <+: allCalls rs →
      Threads.Run (Threads.init next sp) cs t → t.taken ≤ largest (rs.map Round.peak) + 1 := by
  intro h
  have hplayed : ∃ s, Played (Threads.init (fun _ => none) fun _ => none)
      [⟨1, [.exit]⟩, ⟨1, [.exit]⟩] s ∧ s.taken = 3 :=
    ⟨_, .cons (by simp [ThreadCall.OfThread])
      (.cons rfl rfl (.cons rfl rfl (.cons ⟨0, rfl⟩ rfl (.nil _))))
      rfl (.cons (by simp [ThreadCall.OfThread])
        (.cons rfl rfl (.cons rfl rfl (.cons ⟨0, rfl⟩ rfl (.nil _)))) rfl (.nil _)), rfl⟩
  obtain ⟨s, hplayed, htaken⟩ := hplayed
  have hle := h _ _ _ s hplayed _ s (List.prefix_refl _) hplayed.run
  rw [htaken] at hle
  revert hle
  decide

end Recycling

end SimplePiOS.Kernel
