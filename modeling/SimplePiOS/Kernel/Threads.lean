import SimplePiOS.Kernel.Queue
import Mathlib.Data.List.Nodup
import Mathlib.Data.List.Perm.Basic

/-! The thread package of rpi-thread.c. A context switch transfers control to the code whose context
the block holds; there is no preemption, so a call runs to its end or to its switch. -/
namespace SimplePiOS.Kernel

section Code

/-- The code that runs: the caller of `rpi_thread_start`, or the thread of a block. -/
inductive Control where
  | main
  | thread (t : ℕ)
  deriving DecidableEq

def Control.running : Control → List ℕ
  | .main => []
  | .thread t => [t]

inductive ThreadEvent where
  | forked (t : ℕ)
  | yielded (t : ℕ)
  | resumed (t : ℕ)
  | exited (t : ℕ)
  | started
  | returned
  deriving DecidableEq

/-- What happens to the code that control goes to. -/
def Control.gets : Control → ThreadEvent
  | .main => .returned
  | .thread t => .resumed t

/-- Blocks are numbered in the order in which `kmalloc` gave them out. `sp` is the code whose context
a block's stack pointer leads to. -/
structure Threads where
  next : ℕ → Option ℕ
  sp : ℕ → Option Control
  runq : Q ℕ
  freeq : Q ℕ
  curThread : Option ℕ
  schedulerThread : Option ℕ
  taken : ℕ
  control : Control
  /-- Ghost: what has happened so far. The functions do not write it. -/
  log : List ThreadEvent

namespace Threads

def record (es : List ThreadEvent) (s : Threads) : Threads := { s with log := s.log ++ es }

/-- The state before the first fork; `next` and `sp` are what the memory of the blocks holds. -/
def init (next : ℕ → Option ℕ) (sp : ℕ → Option Control) : Threads where
  next := next
  sp := sp
  runq := Q.empty
  freeq := Q.empty
  curThread := none
  schedulerThread := none
  taken := 0
  control := .main
  log := []

end Threads

/-- The functions give `none` where a `demand` fails or a null pointer is followed. -/
def mkThread (s : Threads) : Option (ℕ × Threads) := do
  let (t, freeq) ← qPop s.next s.freeq
  match t with
  | some t => return (t, { s with freeq := freeq })
  | none => return (s.taken, { s with freeq := freeq, taken := s.taken + 1 })

def rpiFork (s : Threads) : Option (ℕ × Threads) := do
  let (t, s) ← mkThread s
  let s := { s with sp := Function.update s.sp t (some (.thread t)) }
  let (next, runq) := qAppend s.next s.runq t
  return (t, { s with next := next, runq := runq })

/-- `rpi_cswitch(sp_old, &cur_thread->sp)`, when the context of the running code is saved. -/
def switchToCur (s : Threads) : Option Threads := do
  let t ← s.curThread
  let c ← s.sp t
  return { s with control := c }

def rpiExit (s : Threads) : Option Threads := do
  let t ← s.curThread
  -- memset
  let s := { s with next := Function.update s.next t none, sp := Function.update s.sp t none }
  let (next, freeq) := qAppend s.next s.freeq t
  let s := { s with next := next, freeq := freeq, curThread := none }
  let (cur, runq) ← qPop s.next s.runq
  let s := { s with curThread := cur, runq := runq }
  match cur with
  | some _ => switchToCur s
  | none => switchToCur { s with curThread := s.schedulerThread }

def rpiYield (s : Threads) : Option Threads := do
  let (nextThread, runq) ← qPop s.next s.runq
  let s := { s with runq := runq }
  match nextThread with
  | none => return s
  | some t =>
    let last ← s.curThread
    let (next, runq) := qAppend s.next s.runq last
    let s := { s with next := next, runq := runq, curThread := some t }
    switchToCur { s with sp := Function.update s.sp last (some s.control) }

/-- `rpi_thread_start(0)`, up to the switch to the first thread; the call returns when control comes
back. -/
def rpiThreadStart (s : Threads) : Option Threads := do
  let (cur, runq) ← qPop s.next s.runq
  let s := { s with curThread := cur, runq := runq }
  match cur with
  | none => return s
  | some _ =>
    let (scheduler, s) ← mkThread s
    let s := { s with schedulerThread := some scheduler }
    switchToCur { s with sp := Function.update s.sp scheduler (some s.control) }

inductive ThreadCall where
  | mainFork
  | start
  | fork
  | yield
  | exit
  deriving DecidableEq

/-- Who makes which calls. -/
def ThreadCall.Enabled (s : Threads) : ThreadCall → Prop
  | .mainFork | .start => s.control = .main
  | .fork | .yield | .exit => ∃ t, s.control = .thread t

/-- A call, and what it adds to the history: by who has made it, what `rpi_fork` returns and where
control goes. Nothing happens in a yield after which its caller goes on. -/
def ThreadCall.step : ThreadCall → Threads → Option Threads
  | .mainFork, s | .fork, s => do
    let (t, s') ← rpiFork s
    return s'.record [.forked t]
  | .start, s => do
    let s' ← rpiThreadStart s
    return s'.record ((s'.control.running.map fun _ => .started) ++ [s'.control.gets])
  | .yield, s => do
    let s' ← rpiYield s
    return if s'.control = s.control then s'
      else s'.record (s.control.running.map .yielded ++ [s'.control.gets])
  | .exit, s => do
    let s' ← rpiExit s
    return s'.record (s.control.running.map .exited ++ [s'.control.gets])

inductive Threads.Run : Threads → List ThreadCall → Threads → Prop where
  | nil (s : Threads) : Run s [] s
  | cons {s s' s'' : Threads} {c : ThreadCall} {cs : List ThreadCall} (henabled : c.Enabled s)
      (hstep : c.step s = some s') (hrun : Run s' cs s'') : Run s (c :: cs) s''

end Code

section History

/-- The threads that have been forked and have not exited. -/
def liveStep (live : List ℕ) : ThreadEvent → List ℕ
  | .forked t => live ++ [t]
  | .exited t => live.erase t
  | _ => live

def live (log : List ThreadEvent) : List ℕ := log.foldl liveStep []

/-- The blocks in the order in which they went into the run queue. -/
def enqueued (log : List ThreadEvent) : List ℕ :=
  log.filterMap fun
    | .forked t | .yielded t => some t
    | _ => none

def resumed (log : List ThreadEvent) : List ℕ :=
  log.filterMap fun
    | .resumed t => some t
    | _ => none

/-- The calls of `rpi_thread_start` that found a thread to run. -/
def starts (log : List ThreadEvent) : ℕ := log.count .started

end History

section Invariant

/-- The state between two calls: `l` waits in the run queue and `f` in the free queue. Every block that
`kmalloc` has given out belongs to a live thread, is free, or went to a call of `rpi_thread_start`. -/
structure Threads.Sound (s : Threads) (l f : List ℕ) : Prop where
  runq : s.runq.Holds s.next l
  freeq : s.freeq.Holds s.next f
  distinct : (s.control.running ++ l ++ f).Nodup
  given : ∀ t ∈ s.control.running ++ l ++ f, t < s.taken
  context : ∀ t ∈ l, s.sp t = some (.thread t)
  current : ∀ t, s.control = .thread t → s.curThread = some t
  scheduler : s.control ≠ .main → ∃ t, s.schedulerThread = some t ∧ s.sp t = some .main ∧
    t < s.taken ∧ t ∉ s.control.running ++ l ++ f
  live : (s.control.running ++ l).Perm (live s.log)
  fifo : enqueued s.log = resumed s.log ++ l
  blocks : s.taken = (s.control.running ++ l ++ f).length + starts s.log
  back : s.log.getLast? = some .returned → Kernel.live s.log = []

variable {s : Threads} {l f : List ℕ}

theorem Threads.sound_init (next : ℕ → Option ℕ) (sp : ℕ → Option Control) :
    (init next sp).Sound [] [] where
  runq := Q.holds_empty next
  freeq := Q.holds_empty next
  distinct := List.nodup_nil
  given := by simp [init, Control.running]
  context := by simp
  current := by simp [init]
  scheduler := by simp [init]
  live := .refl _
  fifo := rfl
  blocks := rfl
  back := by simp [init]

section Events
variable (log : List ThreadEvent) (t : ℕ)

theorem live_append (e : ThreadEvent) : live (log ++ [e]) = liveStep (live log) e := by
  simp [live]

@[simp] theorem live_forked : live (log ++ [.forked t]) = live log ++ [t] := live_append log _
@[simp] theorem live_yielded : live (log ++ [.yielded t]) = live log := live_append log _
@[simp] theorem live_resumed : live (log ++ [.resumed t]) = live log := live_append log _
@[simp] theorem live_exited : live (log ++ [.exited t]) = (live log).erase t := live_append log _
@[simp] theorem live_started : live (log ++ [.started]) = live log := live_append log _
@[simp] theorem live_returned : live (log ++ [.returned]) = live log := live_append log _

@[simp] theorem enqueued_forked : enqueued (log ++ [.forked t]) = enqueued log ++ [t] := by
  simp [enqueued]
@[simp] theorem enqueued_yielded : enqueued (log ++ [.yielded t]) = enqueued log ++ [t] := by
  simp [enqueued]
@[simp] theorem enqueued_resumed : enqueued (log ++ [.resumed t]) = enqueued log := by
  simp [enqueued]
@[simp] theorem enqueued_exited : enqueued (log ++ [.exited t]) = enqueued log := by
  simp [enqueued]
@[simp] theorem enqueued_started : enqueued (log ++ [.started]) = enqueued log := by
  simp [enqueued]
@[simp] theorem enqueued_returned : enqueued (log ++ [.returned]) = enqueued log := by
  simp [enqueued]

@[simp] theorem resumed_forked : resumed (log ++ [.forked t]) = resumed log := by simp [resumed]
@[simp] theorem resumed_yielded : resumed (log ++ [.yielded t]) = resumed log := by simp [resumed]
@[simp] theorem resumed_resumed : resumed (log ++ [.resumed t]) = resumed log ++ [t] := by
  simp [resumed]
@[simp] theorem resumed_exited : resumed (log ++ [.exited t]) = resumed log := by simp [resumed]
@[simp] theorem resumed_started : resumed (log ++ [.started]) = resumed log := by simp [resumed]
@[simp] theorem resumed_returned : resumed (log ++ [.returned]) = resumed log := by simp [resumed]

@[simp] theorem starts_forked : starts (log ++ [.forked t]) = starts log := by simp [starts]
@[simp] theorem starts_yielded : starts (log ++ [.yielded t]) = starts log := by simp [starts]
@[simp] theorem starts_resumed : starts (log ++ [.resumed t]) = starts log := by simp [starts]
@[simp] theorem starts_exited : starts (log ++ [.exited t]) = starts log := by simp [starts]
@[simp] theorem starts_started : starts (log ++ [.started]) = starts log + 1 := by simp [starts]
@[simp] theorem starts_returned : starts (log ++ [.returned]) = starts log := by simp [starts]

end Events

/-- The blocks in the hands of threads and of `rpi_thread_start`. -/
def Threads.inUse (s : Threads) : ℕ := (Kernel.live s.log).length + starts s.log

/-- `mk_thread` takes the first free block, or the next one from `kmalloc` when there is none. -/
structure Made (s : Threads) (l f : List ℕ) (t : ℕ) (f' : List ℕ) (n : ℕ) : Prop where
  distinct : (s.control.running ++ l ++ t :: f').Nodup
  given : ∀ u ∈ s.control.running ++ l ++ t :: f', u < n
  blocks : n = (s.control.running ++ l ++ t :: f').length + starts s.log
  taken : n = max s.taken (s.inUse + 1)
  others : ∀ u < s.taken, u ∉ s.control.running ++ l ++ f →
    u < n ∧ u ∉ s.control.running ++ l ++ t :: f'

theorem mkThread_sound (h : s.Sound l f) : ∃ t q f' n,
    mkThread s = some (t, { s with freeq := q, taken := n }) ∧ q.Holds s.next f' ∧
      Made s l f t f' n := by
  have hlive := h.live.length_eq
  have hblocks := h.blocks
  have huse : s.inUse = (s.control.running ++ l).length + starts s.log := by
    rw [Threads.inUse, hlive]
  rw [List.length_append, ← Nat.add_right_comm, ← huse] at hblocks
  cases f with
  | nil =>
    have hdistinct := h.distinct
    have hgiven := h.given
    rw [List.append_nil] at hdistinct hgiven
    have hnew : s.taken ∉ s.control.running ++ l := fun hmem => Nat.lt_irrefl _ (hgiven _ hmem)
    refine ⟨s.taken, s.freeq, [], s.taken + 1, by simp [mkThread, qPop_nil h.freeq], h.freeq, ?_⟩
    refine ⟨?_, ?_, ?_, ?_, ?_⟩
    · exact List.nodup_append.mpr ⟨hdistinct, by simp, by
        rintro u hu _ hv rfl
        rw [List.mem_singleton] at hv
        exact hnew (hv ▸ hu)⟩
    · intro u hu
      rcases List.mem_append.mp hu with hu | hu
      · exact Nat.lt_succ_of_lt (hgiven u hu)
      · rw [List.mem_singleton] at hu
        omega
    · rw [List.length_append, List.length_singleton]
      rw [List.length_nil] at hblocks
      omega
    · rw [List.length_nil] at hblocks
      omega
    · intro u hu hmem
      rw [List.append_nil] at hmem
      refine ⟨Nat.lt_succ_of_lt hu, fun hmem' => ?_⟩
      rcases List.mem_append.mp hmem' with hmem' | hmem'
      · exact hmem hmem'
      · rw [List.mem_singleton] at hmem'
        omega
  | cons t f' =>
    obtain ⟨q, hpop, hq⟩ := qPop_cons h.freeq
    refine ⟨t, q, f', s.taken, by simp [mkThread, hpop], hq, h.distinct, h.given, h.blocks, ?_,
      fun u hu hmem => ⟨hu, hmem⟩⟩
    rw [List.length_cons] at hblocks
    omega

theorem Made.fresh {t n : ℕ} {f' : List ℕ} (h : Made s l f t f' n) :
    t ∉ l ∧ t ∉ f' ∧ ∀ u ∈ l, u ∉ f' := by
  have hdistinct := h.distinct
  rw [List.append_assoc, List.nodup_append] at hdistinct
  have hqueues := hdistinct.2.1
  rw [List.nodup_append] at hqueues
  obtain ⟨-, hfree, hapart⟩ := hqueues
  exact ⟨fun hmem => hapart t hmem t List.mem_cons_self rfl, (List.nodup_cons.mp hfree).1,
    fun u hu hmem => hapart u hu u (List.mem_cons_of_mem _ hmem) rfl⟩

theorem rpiFork_sound (h : s.Sound l f) : ∃ s' t f', ThreadCall.fork.step s = some s' ∧ s'.Sound (l ++ [t]) f' ∧
    s'.control = s.control ∧ s'.log = s.log ++ [.forked t] ∧
      s'.taken = max s.taken (s.inUse + 1) := by
  obtain ⟨t, q, f', n, hmk, hq, hmade⟩ := mkThread_sound h
  have hperm : (s.control.running ++ (l ++ [t]) ++ f').Perm (s.control.running ++ l ++ t :: f') := by
    simp
  obtain ⟨htl, htf, hlf⟩ := hmade.fresh
  refine ⟨{ s with
      next := (qAppend s.next s.runq t).1
      sp := Function.update s.sp t (some (.thread t))
      runq := (qAppend s.next s.runq t).2
      freeq := q
      taken := n
      log := s.log ++ [.forked t] }, t, f', ?_, ?_, rfl, rfl, hmade.taken⟩
  · simp only [ThreadCall.step, rpiFork, hmk, Option.bind_eq_bind, Option.bind_some]
    rfl
  constructor
  case runq => exact qAppend_holds h.runq htl
  case freeq => exact qAppend_frame h.runq hq htf hlf
  case distinct => exact hperm.nodup_iff.mpr hmade.distinct
  case given => exact fun u hu => hmade.given u (hperm.mem_iff.mp hu)
  case context =>
    intro u hu
    show Function.update s.sp t (some (.thread t)) u = _
    rcases List.mem_append.mp hu with hu | hu
    · have hne : u ≠ t := fun heq => htl (heq ▸ hu)
      rw [Function.update_of_ne hne, h.context u hu]
    · rw [List.mem_singleton.mp hu, Function.update_self]
  case current => exact h.current
  case scheduler =>
    intro hmain
    obtain ⟨u, hsched, hsp, hlt, hout⟩ := h.scheduler hmain
    obtain ⟨hn, hout⟩ := hmade.others u hlt hout
    have hne : u ≠ t := fun heq => hout (heq ▸ List.mem_append_right _ List.mem_cons_self)
    refine ⟨u, hsched, ?_, hn, fun hmem => hout (hperm.mem_iff.mp hmem)⟩
    show Function.update s.sp t (some (.thread t)) u = _
    rw [Function.update_of_ne hne, hsp]
  case live =>
    show (s.control.running ++ (l ++ [t])).Perm (Kernel.live (s.log ++ [.forked t]))
    rw [live_forked, ← List.append_assoc]
    exact h.live.append_right [t]
  case fifo =>
    show enqueued (s.log ++ [.forked t]) = resumed (s.log ++ [.forked t]) ++ (l ++ [t])
    rw [enqueued_forked, resumed_forked, h.fifo, List.append_assoc]
  case blocks =>
    show n = (s.control.running ++ (l ++ [t]) ++ f').length + starts (s.log ++ [.forked t])
    rw [starts_forked, hperm.length_eq, hmade.blocks]
  case back =>
    intro hlast
    simp at hlast

theorem rpiYield_sound (h : s.Sound l f) {c : ℕ} (hc : s.control = .thread c) :
    ∃ s' l', ThreadCall.yield.step s = some s' ∧ s'.Sound l' f ∧ (∃ c', s'.control = .thread c') ∧
      s'.taken = s.taken ∧ live s'.log = live s.log ∧ starts s'.log = starts s.log ∧
      (l = [] ∧ s' = s ∨ ∃ t tl, l = t :: tl ∧ s'.log = s.log ++ [.yielded c] ++ [.resumed t]) := by
  cases l with
  | nil =>
    refine ⟨s, [], ?_, h, ⟨c, hc⟩, rfl, rfl, rfl, .inl ⟨rfl, rfl⟩⟩
    simp [ThreadCall.step, rpiYield, qPop_nil h.runq]
  | cons t l' =>
    obtain ⟨q, hpop, hq⟩ := qPop_cons h.runq
    have hdistinct : (c :: (t :: l' ++ f)).Nodup := by
      have hall := h.distinct
      rwa [hc] at hall
    have hperm : ([t] ++ (l' ++ [c]) ++ f).Perm (s.control.running ++ t :: l' ++ f) := by
      rw [hc]
      refine List.Perm.append_right f ?_
      simpa [Control.running] using
        (List.perm_append_comm : (t :: l' ++ [c]).Perm ([c] ++ t :: l'))
    obtain ⟨hct, hcl, hcf, hlf⟩ : t ≠ c ∧ c ∉ l' ∧ c ∉ f ∧ ∀ u ∈ l', u ∉ f := by
      simp only [List.cons_append, List.nodup_cons, List.mem_cons, List.mem_append, not_or,
        List.nodup_append] at hdistinct
      exact ⟨fun heq => hdistinct.1.1 heq.symm, hdistinct.1.2.1, hdistinct.1.2.2,
        fun u hu huf => hdistinct.2.2.2.2 u hu u huf rfl⟩
    have hcontext : s.sp t = some (.thread t) := h.context t List.mem_cons_self
    refine ⟨{ s with
        next := (qAppend s.next q c).1
        runq := (qAppend s.next q c).2
        sp := Function.update s.sp c (some s.control)
        curThread := some t
        control := .thread t
        log := s.log ++ [.yielded c] ++ [.resumed t] }, l' ++ [c], ?_, ?_, ⟨t, rfl⟩, rfl, ?_, ?_, .inr ⟨t, l', rfl, rfl⟩⟩
    · simp [ThreadCall.step, rpiYield, hpop, h.current c hc, switchToCur, hcontext, Threads.record, hc,
        hct, Control.running, Control.gets]
    · constructor
      case runq => exact qAppend_holds hq hcl
      case freeq => exact qAppend_frame hq h.freeq hcf hlf
      case distinct => exact hperm.nodup_iff.mpr h.distinct
      case given => exact fun u hu => h.given u (hperm.mem_iff.mp hu)
      case context =>
        intro u hu
        show Function.update s.sp c (some s.control) u = _
        rcases List.mem_append.mp hu with hu | hu
        · have hne : u ≠ c := fun heq => hcl (heq ▸ hu)
          rw [Function.update_of_ne hne, h.context u (List.mem_cons_of_mem _ hu)]
        · rw [List.mem_singleton.mp hu, Function.update_self, hc]
      case current =>
        rintro u ⟨⟩
        rfl
      case scheduler =>
        intro _
        obtain ⟨u, hsched, hsp, hlt, hout⟩ := h.scheduler (by rw [hc]; exact Control.noConfusion)
        have hne : u ≠ c := fun heq => hout (by rw [hc, heq]; exact List.mem_cons_self)
        refine ⟨u, hsched, ?_, hlt, fun hmem => hout (hperm.mem_iff.mp hmem)⟩
        show Function.update s.sp c (some s.control) u = _
        rw [Function.update_of_ne hne, hsp]
      case live =>
        show ([t] ++ (l' ++ [c])).Perm (Kernel.live (s.log ++ [.yielded c] ++ [.resumed t]))
        rw [live_resumed, live_yielded]
        refine List.Perm.trans ?_ h.live
        exact (List.perm_append_right_iff f).mp hperm
      case fifo =>
        show enqueued (s.log ++ [.yielded c] ++ [.resumed t]) =
          resumed (s.log ++ [.yielded c] ++ [.resumed t]) ++ (l' ++ [c])
        rw [enqueued_resumed, enqueued_yielded, resumed_resumed, resumed_yielded, h.fifo]
        simp
      case blocks =>
        show s.taken = ([t] ++ (l' ++ [c]) ++ f).length +
          starts (s.log ++ [.yielded c] ++ [.resumed t])
        rw [starts_resumed, starts_yielded, hperm.length_eq, h.blocks]
      case back =>
        intro hlast
        simp at hlast
    · show live (s.log ++ [.yielded c] ++ [.resumed t]) = live s.log
      rw [live_resumed, live_yielded]
    · show starts (s.log ++ [.yielded c] ++ [.resumed t]) = starts s.log
      rw [starts_resumed, starts_yielded]

/-- What `rpi_exit` has done before it looks for the next thread. -/
theorem release_sound (h : s.Sound l f) {c : ℕ} (hc : s.control = .thread c) :
    (qAppend (Function.update s.next c none) s.freeq c).2.Holds
        (qAppend (Function.update s.next c none) s.freeq c).1 (f ++ [c]) ∧
      s.runq.Holds (qAppend (Function.update s.next c none) s.freeq c).1 l ∧
      ((live s.log).erase c).Perm l ∧ (l ++ (f ++ [c])).Perm (s.control.running ++ l ++ f) ∧
      ∀ u ∈ l, u ≠ c := by
  have hdistinct : (c :: (l ++ f)).Nodup := by
    have hall := h.distinct
    rwa [hc] at hall
  obtain ⟨hout, hqueues⟩ := List.nodup_cons.mp hdistinct
  obtain ⟨hcl, hcf⟩ := not_or.mp (List.mem_append.not.mp hout)
  have hlf := (List.nodup_append.mp hqueues).2.2
  have hkeep : ∀ m : List ℕ, c ∉ m → ∀ u ∈ m, Function.update s.next c none u = s.next u := by
    intro m hm u hu
    have hne : u ≠ c := fun heq => hm (heq ▸ hu)
    rw [Function.update_of_ne hne]
  have hfree := h.freeq.congr (hkeep f hcf)
  have hrun := h.runq.congr (hkeep l hcl)
  have hlive := h.live.symm.erase c
  rw [hc] at hlive ⊢
  refine ⟨qAppend_holds hfree hcf, qAppend_frame hfree hrun hcl ?_, ?_, ?_, ?_⟩
  · exact fun u hu hmem => hlf u hmem u hu rfl
  · simpa [Control.running] using hlive
  · rw [← List.append_assoc]
    exact List.perm_append_comm
  · exact fun u hu heq => hcl (heq ▸ hu)

theorem rpiExit_sound (h : s.Sound l f) {c : ℕ} (hc : s.control = .thread c) :
    ∃ s' l' f', ThreadCall.exit.step s = some s' ∧ s'.Sound l' f' ∧ s'.taken = s.taken ∧
      (live s'.log).length + 1 = (live s.log).length ∧ starts s'.log = starts s.log ∧
        (s'.control = .main → live s'.log = []) := by
  obtain ⟨hfree, hrun, hlive, hperm, hne⟩ := release_sound h hc
  obtain ⟨sch, hsched, hschsp, hschlt, hschout⟩ :=
    h.scheduler (by rw [hc]; exact Control.noConfusion)
  have hschc : sch ≠ c := fun heq => hschout (by rw [hc, heq]; exact List.mem_cons_self)
  have hcount : ((live s.log).erase c).length + 1 = (live s.log).length := by
    rw [hlive.length_eq, ← h.live.length_eq, hc]
    rfl
  have hblocks := h.blocks
  rw [← hperm.length_eq] at hblocks
  cases l with
  | nil =>
    have hmain : Function.update s.sp c none sch = some .main := by
      rw [Function.update_of_ne hschc, hschsp]
    have hgone : live (s.log ++ [.exited c] ++ [.returned]) = [] := by
      rw [live_returned, live_exited]
      exact hlive.eq_nil
    refine ⟨{ s with
        next := (qAppend (Function.update s.next c none) s.freeq c).1
        sp := Function.update s.sp c none
        freeq := (qAppend (Function.update s.next c none) s.freeq c).2
        curThread := s.schedulerThread
        control := .main
        log := s.log ++ [.exited c] ++ [.returned] }, [], f ++ [c], ?_, ?_, rfl, ?_, ?_,
      fun _ => hgone⟩
    · simp [ThreadCall.step, rpiExit, h.current c hc, qPop_nil hrun, switchToCur, hsched, hmain,
        Threads.record, hc, Control.running, Control.gets]
    · constructor
      case runq => exact hrun
      case freeq => exact hfree
      case distinct => exact hperm.nodup_iff.mpr h.distinct
      case given => exact fun u hu => h.given u (hperm.mem_iff.mp hu)
      case context => exact fun u hu => absurd hu List.not_mem_nil
      case current => exact fun u hu => Control.noConfusion hu
      case scheduler => exact fun hne => absurd rfl hne
      case live => rw [hgone]; exact .refl _
      case fifo =>
        show enqueued (s.log ++ [.exited c] ++ [.returned]) =
          resumed (s.log ++ [.exited c] ++ [.returned]) ++ []
        rw [enqueued_returned, enqueued_exited, resumed_returned, resumed_exited, h.fifo]
      case blocks =>
        show s.taken = _ + starts (s.log ++ [.exited c] ++ [.returned])
        rw [starts_returned, starts_exited]
        exact hblocks
      case back => exact fun _ => hgone
    · show (live (s.log ++ [.exited c] ++ [.returned])).length + 1 = _
      rw [live_returned, live_exited, hcount]
    · show starts (s.log ++ [.exited c] ++ [.returned]) = _
      rw [starts_returned, starts_exited]
  | cons t l' =>
    obtain ⟨q, hpop, hq⟩ := qPop_cons hrun
    have hcontext : Function.update s.sp c none t = some (.thread t) := by
      rw [Function.update_of_ne (hne t List.mem_cons_self), h.context t List.mem_cons_self]
    refine ⟨{ s with
        next := (qAppend (Function.update s.next c none) s.freeq c).1
        sp := Function.update s.sp c none
        freeq := (qAppend (Function.update s.next c none) s.freeq c).2
        runq := q
        curThread := some t
        control := .thread t
        log := s.log ++ [.exited c] ++ [.resumed t] }, l', f ++ [c], ?_, ?_, rfl, ?_, ?_,
      fun hmain => Control.noConfusion hmain⟩
    · simp [ThreadCall.step, rpiExit, h.current c hc, hpop, switchToCur, hcontext,
        Threads.record, hc, Control.running, Control.gets]
    · constructor
      case runq => exact hq
      case freeq => exact hfree
      case distinct => exact hperm.nodup_iff.mpr h.distinct
      case given => exact fun u hu => h.given u (hperm.mem_iff.mp hu)
      case context =>
        intro u hu
        show Function.update s.sp c none u = _
        rw [Function.update_of_ne (hne u (List.mem_cons_of_mem _ hu)),
          h.context u (List.mem_cons_of_mem _ hu)]
      case current =>
        rintro u ⟨⟩
        rfl
      case scheduler =>
        intro _
        refine ⟨sch, hsched, ?_, hschlt, fun hmem => hschout (hperm.mem_iff.mp hmem)⟩
        show Function.update s.sp c none sch = _
        rw [Function.update_of_ne hschc, hschsp]
      case live =>
        show ([t] ++ l').Perm (Kernel.live (s.log ++ [.exited c] ++ [.resumed t]))
        rw [live_resumed, live_exited]
        exact hlive.symm
      case fifo =>
        show enqueued (s.log ++ [.exited c] ++ [.resumed t]) =
          resumed (s.log ++ [.exited c] ++ [.resumed t]) ++ l'
        rw [enqueued_resumed, enqueued_exited, resumed_resumed, resumed_exited, h.fifo]
        simp
      case blocks =>
        show s.taken = _ + starts (s.log ++ [.exited c] ++ [.resumed t])
        rw [starts_resumed, starts_exited]
        exact hblocks
      case back =>
        intro hlast
        simp at hlast
    · show (live (s.log ++ [.exited c] ++ [.resumed t])).length + 1 = _
      rw [live_resumed, live_exited, hcount]
    · show starts (s.log ++ [.exited c] ++ [.resumed t]) = _
      rw [starts_resumed, starts_exited]

theorem mkThread_frame (s : Threads) (cur : Option ℕ) (runq : Q ℕ) :
    mkThread { s with curThread := cur, runq := runq } =
      (mkThread s).map fun r => (r.1, { r.2 with curThread := cur, runq := runq }) := by
  unfold mkThread
  cases hpop : qPop s.next s.freeq with
  | none => rfl
  | some r =>
    obtain ⟨_ | t, q⟩ := r
    · rfl
    · rfl

theorem rpiThreadStart_sound (h : s.Sound l f) (hc : s.control = .main) :
    ∃ s' l' f', ThreadCall.start.step s = some s' ∧ s'.Sound l' f' ∧ live s'.log = live s.log ∧
      (l = [] ∧ s'.control = .main ∧ s'.taken = s.taken ∧ starts s'.log = starts s.log ∨
        l ≠ [] ∧ s'.control ≠ .main ∧ s'.taken = max s.taken (s.inUse + 1) ∧
          starts s'.log = starts s.log + 1) := by
  have hmain : s.control.running = [] := by rw [hc]; rfl
  cases l with
  | nil =>
    refine ⟨{ s with curThread := none, log := s.log ++ [.returned] }, [], f, ?_, ?_, ?_,
      .inl ⟨rfl, hc, rfl, ?_⟩⟩
    · simp [ThreadCall.step, rpiThreadStart, qPop_nil h.runq, Threads.record, hc, Control.running,
        Control.gets]
    · have hlive := h.live
      rw [hmain] at hlive
      constructor
      case runq => exact h.runq
      case freeq => exact h.freeq
      case distinct => exact h.distinct
      case given => exact h.given
      case context => exact h.context
      case current => exact fun t ht => absurd (hc.symm.trans ht) Control.noConfusion
      case scheduler => exact fun hne => absurd hc hne
      case live =>
        show (s.control.running ++ []).Perm (Kernel.live (s.log ++ [ThreadEvent.returned]))
        rw [live_returned]
        exact h.live
      case fifo =>
        show enqueued (s.log ++ [.returned]) = resumed (s.log ++ [.returned]) ++ []
        rw [enqueued_returned, resumed_returned, h.fifo]
      case blocks =>
        show s.taken = _ + starts (s.log ++ [.returned])
        rw [starts_returned]
        exact h.blocks
      case back =>
        intro _
        show Kernel.live (s.log ++ [.returned]) = []
        rw [live_returned]
        exact hlive.symm.eq_nil
    · exact live_returned _
    · exact starts_returned _
  | cons t l' =>
    obtain ⟨q, hpop, hq⟩ := qPop_cons h.runq
    obtain ⟨sch, qf, f', n, hmk, hqf, hmade⟩ := mkThread_sound h
    obtain ⟨hschl, hschf, hlf⟩ := hmade.fresh
    have hblocks := hmade.blocks
    have hdistinct := hmade.distinct
    have hgiven := hmade.given
    rw [hmain] at hblocks hdistinct hgiven
    have htsch : t ≠ sch := fun heq => hschl (heq ▸ List.mem_cons_self)
    have hcontext : Function.update s.sp sch (some s.control) t = some (.thread t) := by
      rw [Function.update_of_ne htsch, h.context t List.mem_cons_self]
    refine ⟨{ s with
        sp := Function.update s.sp sch (some s.control)
        runq := q
        freeq := qf
        curThread := some t
        schedulerThread := some sch
        taken := n
        control := .thread t
        log := s.log ++ [.started] ++ [.resumed t] }, l', f', ?_, ?_, ?_,
      .inr ⟨List.cons_ne_nil _ _, Control.noConfusion, hmade.taken, ?_⟩⟩
    · simp [ThreadCall.step, rpiThreadStart, hpop, mkThread_frame, hmk, switchToCur, hcontext,
        Threads.record, Control.running, Control.gets]
    · constructor
      case runq => exact hq
      case freeq => exact hqf
      case distinct =>
        exact hdistinct.sublist (by simp [Control.running])
      case given =>
        exact fun u hu => hgiven u (by simp [Control.running] at hu ⊢; tauto)
      case context =>
        intro u hu
        have hne : u ≠ sch := fun heq => hschl (heq ▸ List.mem_cons_of_mem _ hu)
        show Function.update s.sp sch (some s.control) u = _
        rw [Function.update_of_ne hne, h.context u (List.mem_cons_of_mem _ hu)]
      case current =>
        rintro u ⟨⟩
        rfl
      case scheduler =>
        intro _
        refine ⟨sch, rfl, ?_, hgiven sch (by simp), ?_⟩
        · show Function.update s.sp sch (some s.control) sch = _
          rw [Function.update_self, hc]
        · show sch ∉ t :: l' ++ f'
          exact fun hmem => (List.mem_append.mp hmem).elim hschl hschf
      case live =>
        show ([t] ++ l').Perm (Kernel.live (s.log ++ [.started] ++ [.resumed t]))
        have hlive := h.live
        rw [hmain] at hlive
        rw [live_resumed, live_started]
        exact hlive
      case fifo =>
        show enqueued (s.log ++ [.started] ++ [.resumed t]) =
          resumed (s.log ++ [.started] ++ [.resumed t]) ++ l'
        rw [enqueued_resumed, enqueued_started, resumed_resumed, resumed_started, h.fifo]
        simp
      case blocks =>
        show n = ([t] ++ l' ++ f').length + starts (s.log ++ [.started] ++ [.resumed t])
        rw [starts_resumed, starts_started, hblocks]
        simp only [List.length_append, List.length_cons, List.length_nil]
        omega
      case back =>
        intro hlast
        simp at hlast
    · show live (s.log ++ [.started] ++ [.resumed t]) = _
      rw [live_resumed, live_started]
    · show starts (s.log ++ [.started] ++ [.resumed t]) = _
      rw [starts_resumed, starts_started]

theorem step_sound (h : s.Sound l f) {c : ThreadCall} (hc : c.Enabled s) :
    ∃ s' l' f', c.step s = some s' ∧ s'.Sound l' f' := by
  cases c with
  | mainFork =>
    obtain ⟨s', t, f', hfork, hs', -⟩ := rpiFork_sound h
    exact ⟨s', _, f', hfork, hs'⟩
  | start =>
    obtain ⟨s', l', f', hstart, hs', -⟩ := rpiThreadStart_sound h hc
    exact ⟨s', l', f', hstart, hs'⟩
  | fork =>
    obtain ⟨s', t, f', hfork, hs', -⟩ := rpiFork_sound h
    exact ⟨s', _, f', hfork, hs'⟩
  | yield =>
    obtain ⟨t, ht⟩ := hc
    obtain ⟨s', l', hyield, hs', -⟩ := rpiYield_sound h ht
    exact ⟨s', l', f, hyield, hs'⟩
  | exit =>
    obtain ⟨t, ht⟩ := hc
    obtain ⟨s', l', f', hexit, hs', -⟩ := rpiExit_sound h ht
    exact ⟨s', l', f', hexit, hs'⟩

theorem run_sound {s' : Threads} {cs : List ThreadCall} (hrun : Threads.Run s cs s') (h : s.Sound l f) :
    ∃ l' f', s'.Sound l' f' := by
  induction hrun generalizing l f with
  | nil s => exact ⟨l, f, h⟩
  | cons henabled hstep _ ih =>
    obtain ⟨s₁, l₁, f₁, hstep', hs₁⟩ := step_sound h henabled
    rw [hstep] at hstep'
    cases hstep'
    exact ih hs₁

end Invariant

section Safety

/-- A live thread is the one that runs or waits once in the run queue, an exited one does not wait;
the two queues share no block; threads are resumed in the order in which they were enqueued; and
`rpi_thread_start` has not returned while a thread lives. -/
structure Threads.Safe (s : Threads) (l f : List ℕ) : Prop where
  runq : s.runq.Holds s.next l
  freeq : s.freeq.Holds s.next f
  live : ∀ t ∈ live s.log, (s.control = .thread t ∧ s.curThread = some t ∧ l.count t = 0) ∨
    (s.control ≠ .thread t ∧ l.count t = 1)
  exited : ∀ t, t ∉ Kernel.live s.log → t ∉ l
  disjoint : ∀ t ∈ l, t ∉ f
  fifo : enqueued s.log = resumed s.log ++ l
  returned : s.log.getLast? = some .returned → Kernel.live s.log = []

theorem Threads.Sound.safe {s : Threads} {l f : List ℕ} (h : s.Sound l f) : s.Safe l f where
  runq := h.runq
  freeq := h.freeq
  live t ht := by
    have hdistinct := h.distinct
    rw [List.append_assoc, List.nodup_append] at hdistinct
    have hl := (List.nodup_append.mp hdistinct.2.1).1
    rcases List.mem_append.mp (h.live.symm.mem_iff.mp ht) with hrun | hwait
    · have hcontrol : s.control = .thread t := by
        cases hc : s.control with
        | main => rw [hc] at hrun; exact absurd hrun List.not_mem_nil
        | thread u => rw [hc] at hrun; rw [List.mem_singleton.mp hrun]
      have hout : t ∉ l := fun hmem =>
        hdistinct.2.2 t hrun t (List.mem_append_left _ hmem) rfl
      exact .inl ⟨hcontrol, h.current t hcontrol, List.count_eq_zero.mpr hout⟩
    · refine .inr ⟨fun hcontrol => ?_, List.count_eq_one_of_mem hl hwait⟩
      have hrun : t ∈ s.control.running := by
        rw [hcontrol]
        exact List.mem_cons_self
      exact hdistinct.2.2 t hrun t (List.mem_append_left _ hwait) rfl
  exited t ht hmem := ht (h.live.mem_iff.mp (List.mem_append_right _ hmem))
  disjoint t ht hmem := by
    have hdistinct := h.distinct
    rw [List.append_assoc, List.nodup_append] at hdistinct
    exact (List.nodup_append.mp hdistinct.2.1).2.2 t ht t hmem rfl
  fifo := h.fifo
  returned := h.back

/-- Whatever the main code and the threads call, and in whatever order: no call fails, and the queues
hold what they should. -/
theorem scheduler_safe (next : ℕ → Option ℕ) (sp : ℕ → Option Control) {cs : List ThreadCall}
    {s : Threads} (hrun : Threads.Run (Threads.init next sp) cs s) :
    (∃ l f, s.Safe l f) ∧ ∀ c : ThreadCall, c.Enabled s → ∃ s', c.step s = some s' := by
  obtain ⟨l, f, h⟩ := run_sound hrun (Threads.sound_init next sp)
  refine ⟨⟨l, f, h.safe⟩, fun c hc => ?_⟩
  obtain ⟨s', -, -, hstep, -⟩ := step_sound h hc
  exact ⟨s', hstep⟩

/-- Two threads; the first one yields, and both exit. -/
theorem scheduler_safe_two : ∃ s, Threads.Run (Threads.init (fun _ => none) fun _ => none)
    [.mainFork, .mainFork, .start, .yield, .exit, .exit] s ∧
    (∃ l f, s.Safe l f) ∧ ∀ c : ThreadCall, c.Enabled s → ∃ s', c.step s = some s' := by
  have hrun : ∃ s, Threads.Run (Threads.init (fun _ => none) fun _ => none)
      [.mainFork, .mainFork, .start, .yield, .exit, .exit] s :=
    ⟨_, .cons rfl rfl (.cons rfl rfl (.cons rfl rfl (.cons ⟨0, rfl⟩ rfl (.cons ⟨1, rfl⟩ rfl
      (.cons ⟨0, rfl⟩ rfl (.nil _))))))⟩
  obtain ⟨s, hrun⟩ := hrun
  exact ⟨s, hrun, scheduler_safe _ _ hrun⟩

end Safety

end SimplePiOS.Kernel
