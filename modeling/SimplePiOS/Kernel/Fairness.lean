import SimplePiOS.Kernel.Threads

/-! How long a thread waits for its turn. -/
namespace SimplePiOS.Kernel

section Log
variable {s s' : Threads} {cs : List ThreadCall}

theorem mkThread_log {t : ℕ} (h : mkThread s = some (t, s')) : s'.log = s.log := by
  unfold mkThread at h
  cases hpop : qPop s.next s.freeq with
  | none => simp [hpop] at h
  | some r =>
    obtain ⟨u, q⟩ := r
    cases u with
    | none =>
      simp [hpop] at h
      rw [← h.2]
    | some u =>
      simp [hpop] at h
      rw [← h.2]

theorem switchToCur_log (h : switchToCur s = some s') : s'.log = s.log := by
  unfold switchToCur at h
  simp only [Option.bind_eq_bind, Option.bind_eq_some_iff] at h
  obtain ⟨t, -, c, -, h⟩ := h
  cases h
  rfl

theorem rpiFork_log {t : ℕ} (h : rpiFork s = some (t, s')) : s'.log = s.log := by
  unfold rpiFork at h
  simp only [Option.bind_eq_bind, Option.bind_eq_some_iff] at h
  obtain ⟨⟨u, s₁⟩, hmk, h⟩ := h
  have hlog := mkThread_log hmk
  cases h
  exact hlog

theorem rpiYield_log (h : rpiYield s = some s') : s'.log = s.log := by
  unfold rpiYield at h
  simp only [Option.bind_eq_bind, Option.bind_eq_some_iff] at h
  obtain ⟨⟨t, q⟩, -, h⟩ := h
  cases t with
  | none =>
    cases h
    rfl
  | some t =>
    simp only [Option.bind_eq_some_iff] at h
    obtain ⟨c, -, h⟩ := h
    rw [switchToCur_log h]

theorem rpiExit_log (h : rpiExit s = some s') : s'.log = s.log := by
  unfold rpiExit at h
  simp only [Option.bind_eq_bind, Option.bind_eq_some_iff] at h
  obtain ⟨c, -, ⟨t, q⟩, -, h⟩ := h
  cases t with
  | none => rw [switchToCur_log h]
  | some t => rw [switchToCur_log h]

theorem rpiThreadStart_log (h : rpiThreadStart s = some s') : s'.log = s.log := by
  unfold rpiThreadStart at h
  simp only [Option.bind_eq_bind, Option.bind_eq_some_iff] at h
  obtain ⟨⟨t, q⟩, -, h⟩ := h
  cases t with
  | none =>
    cases h
    rfl
  | some t =>
    simp only [Option.bind_eq_some_iff] at h
    obtain ⟨⟨u, s₁⟩, hmk, h⟩ := h
    have hlog := mkThread_log hmk
    rw [switchToCur_log h]
    exact hlog

theorem prefix_record (h : s'.log = s.log) (es : List ThreadEvent) : s.log <+: (s'.record es).log :=
  ⟨es, by rw [Threads.record, h]⟩

/-- Nothing is taken back from the log. -/
theorem step_log {c : ThreadCall} (h : c.step s = some s') : s.log <+: s'.log := by
  cases c with
  | mainFork | fork =>
    simp only [ThreadCall.step, Option.bind_eq_bind, Option.bind_eq_some_iff] at h
    obtain ⟨⟨t, s₁⟩, hfork, h⟩ := h
    cases h
    exact prefix_record (rpiFork_log hfork) _
  | start =>
    simp only [ThreadCall.step, Option.bind_eq_bind, Option.bind_eq_some_iff] at h
    obtain ⟨s₁, hstart, h⟩ := h
    cases h
    exact prefix_record (rpiThreadStart_log hstart) _
  | yield =>
    simp only [ThreadCall.step, Option.bind_eq_bind, Option.bind_eq_some_iff] at h
    obtain ⟨s₁, hyield, h⟩ := h
    cases h
    split
    · exact ⟨[], by rw [List.append_nil, rpiYield_log hyield]⟩
    · exact prefix_record (rpiYield_log hyield) _
  | exit =>
    simp only [ThreadCall.step, Option.bind_eq_bind, Option.bind_eq_some_iff] at h
    obtain ⟨s₁, hexit, h⟩ := h
    cases h
    exact prefix_record (rpiExit_log hexit) _

theorem run_log (h : Threads.Run s cs s') : s.log <+: s'.log := by
  induction h with
  | nil s => exact List.prefix_rfl
  | cons _ hstep _ ih => exact (step_log hstep).trans ih

end Log

section Turns
variable {s s' : Threads} {l f l' f' : List ℕ} {new : List ThreadEvent}

theorem enqueued_append (log new : List ThreadEvent) : enqueued (log ++ new) = enqueued log ++ enqueued new :=
  List.filterMap_append

theorem resumed_append (log new : List ThreadEvent) : resumed (log ++ new) = resumed log ++ resumed new :=
  List.filterMap_append

/-- Who waits comes first, and then who has been enqueued since. -/
theorem turns_eq (h : s.Sound l f) (h' : s'.Sound l' f') (hlog : s'.log = s.log ++ new) :
    l ++ enqueued new = resumed new ++ l' := by
  have hfifo := h'.fifo
  rw [hlog, enqueued_append, resumed_append, h.fifo, List.append_assoc, List.append_assoc] at hfifo
  exact List.append_cancel_left hfifo

/-- Those who wait are resumed in order before anyone else is. -/
theorem turns_comparable {waiting rest : List ℕ} (h : waiting ++ rest = resumed new ++ l') :
    resumed new <+: waiting ∨ waiting <+: resumed new :=
  List.prefix_or_prefix_of_prefix ⟨l', h.symm⟩ ⟨rest, rfl⟩

theorem waiting_nodup (h : s.Sound l f) {c : ℕ} (hc : s.control = .thread c) : (l ++ [c]).Nodup := by
  have hall := (List.nodup_append.mp h.distinct).1
  rw [hc] at hall
  exact List.perm_append_comm.nodup_iff.mp hall

/-- When a thread yields while others wait, then in every further run each of these is resumed once, in the
order in which they wait, and the thread itself next, before anyone is resumed again; a thread that yields
while no other waits goes on. -/
theorem yield_round_robin (next : ℕ → Option ℕ) (sp : ℕ → Option Control) {before after : List ThreadCall}
    {s₁ : Threads} {c : ℕ} (hbefore : Threads.Run (Threads.init next sp) before s) (hc : s.control = .thread c)
    (hyield : ThreadCall.yield.step s = some s₁) (hafter : Threads.Run s₁ after s') :
    ∃ l new, s.runq.Holds s.next l ∧ s'.log = s.log ++ new ∧ (l ++ [c]).Nodup ∧
      (l = [] ∧ s₁ = s ∨ l ≠ [] ∧ (resumed new <+: l ++ [c] ∨ l ++ [c] <+: resumed new)) := by
  obtain ⟨l, f, h⟩ := run_sound hbefore (Threads.sound_init next sp)
  obtain ⟨new, hnew⟩ := run_log hafter
  obtain ⟨s₂, l₁, hyield', h₁, -, -, -, -, hlog⟩ := rpiYield_sound h hc
  rw [hyield] at hyield'
  cases hyield'
  obtain ⟨l', f', h'⟩ := run_sound hafter h₁
  obtain ⟨rfl, rfl⟩ | ⟨t, tl, rfl, hlog⟩ := hlog
  · exact ⟨[], new, h.runq, hnew.symm, waiting_nodup h hc, .inl ⟨rfl, rfl⟩⟩
  · have hall : s'.log = s.log ++ (.yielded c :: .resumed t :: new) := by
      rw [← hnew, hlog, List.append_assoc, List.append_assoc]
      rfl
    have hturns : t :: tl ++ [c] ++ enqueued (.resumed t :: new) =
        resumed (.yielded c :: .resumed t :: new) ++ l' := by
      rw [← turns_eq h h' hall, List.append_assoc]
      rfl
    exact ⟨t :: tl, _, h.runq, hall, waiting_nodup h hc,
      .inr ⟨List.cons_ne_nil t tl, turns_comparable hturns⟩⟩

/-- Of two threads the first yields, and gets its next turn after the other. -/
theorem yield_round_robin_two : ∃ s s₁ s', ThreadCall.yield.step s = some s₁ ∧ Threads.Run s₁ [.yield, .exit, .exit] s' ∧
    ∃ l new, s.runq.Holds s.next l ∧ s'.log = s.log ++ new ∧ (l ++ [0]).Nodup ∧
      (l = [] ∧ s₁ = s ∨ l ≠ [] ∧ (resumed new <+: l ++ [0] ∨ l ++ [0] <+: resumed new)) := by
  have hbefore : ∃ s, s.control = .thread 0 ∧
      Threads.Run (Threads.init (fun _ => none) fun _ => none) [.mainFork, .mainFork, .start] s ∧
      ∃ s₁ s', ThreadCall.yield.step s = some s₁ ∧ Threads.Run s₁ [.yield, .exit, .exit] s' :=
    ⟨_, rfl, .cons rfl rfl (.cons rfl rfl (.cons rfl rfl (.nil _))), _, _, rfl,
      .cons ⟨1, rfl⟩ rfl (.cons ⟨0, rfl⟩ rfl (.cons ⟨1, rfl⟩ rfl (.nil _)))⟩
  obtain ⟨s, hc, hrun, s₁, s', hyield, hafter⟩ := hbefore
  exact ⟨s, s₁, s', hyield, hafter, yield_round_robin _ _ hrun hc hyield hafter⟩

end Turns
end SimplePiOS.Kernel
