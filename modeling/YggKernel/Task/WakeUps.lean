import YggKernel.Task.WaitSteps

namespace YggKernel.Task

open Lib.Program Lib.BitWords Lib.ByteMemory Lib.Chains Lib.Runs

section Switches

variable {idle : Nat} {s : WaitState}

theorem onSched_run {α : Type} {p : Prog Fault Sched α} {k k' : Kernel} {a : α} (h : onSched p k = .ok (a, k')) :
    ∃ u, p k.sched = .ok (a, u) ∧ k' = { k with sched := u } := by
  unfold onSched at h
  cases hp : p k.sched with
  | error e =>
    rw [hp] at h
    cases h
  | ok r =>
    rw [hp] at h
    cases h
    exact ⟨r.2, rfl, rfl⟩

theorem wp_taskEnable_new {s : Sched} {t : Nat} {task : X86Task} (hnew : t ≠ s.last) (hctl : task.ctl.isSome) :
    wp (taskEnable t) noFault (fun _ u => (u.task t).esp0 = task.esp0 ∧ pidOf u t = u.lastPid ∧
      u.lastPid = u32 (s.lastPid + 1) ∧ u.systime = s.systime) (writeTask s t task) := by
  obtain ⟨ctl, hctl⟩ := Option.isSome_iff_exists.mp hctl
  have hctl' : ((writeTask s t task).task t).ctl = some ctl := by simp [writeTask, hctl]
  rw [taskEnable, wp_bind, wp_ctlOf hctl', wp_bind, wp_modify, wp_bind, wp_get, wp_bind, wp_setTask,
    wp_bind, wp_get, wp_bind, wp_setTask, wp_modify]
  refine ⟨?_, ?_, rfl, rfl⟩
  · simp [writeTask, hnew]
  · simp [pidOf, writeTask, hnew]

theorem Enabled.fields {s u : Sched} {t : Nat} (h : Enabled s t u) {x : Nat} (hx : x ≠ t) :
    (u.task x).flag = (s.task x).flag ∧ (u.task x).waitType = (s.task x).waitType ∧
      (u.task x).ctl = (s.task x).ctl ∧ (u.task x).esp0 = (s.task x).esp0 := by
  by_cases hlast : x = s.last
  · rw [hlast, h.link]
    exact ⟨rfl, rfl, rfl, rfl⟩
  · rw [h.other x hx hlast]
    exact ⟨rfl, rfl, rfl, rfl⟩

theorem Enabled.same {s u : Sched} {t : Nat} (h : Enabled s t u) {x : Nat} (hx : x ≠ t) :
    SameWait s u x ∧ (u.task x).esp0 = (s.task x).esp0 := by
  obtain ⟨hflag, htype, hctl, hesp0⟩ := h.fields hx
  exact ⟨⟨by rw [hasFlag, hflag, hasFlag], htype, hctl⟩, hesp0⟩

theorem Matches.of_sameWait {s t : Sched} {x : Nat} {w : Wait} (h : Matches s x w) (hsame : SameWait s t x) :
    Matches t x w :=
  h.of_same hsame.waitType hsame.ctl

theorem pidOf_of_sameWait {s t : Sched} {x : Nat} (h : SameWait s t x) : pidOf t x = pidOf s x := by
  rw [pidOf, h.ctl, pidOf]

theorem inv_enableWait {k : Kernel} {x : Nat} {task : X86Task} {g : TaskSignal} (h : WaitInv idle s) (h0 : x ≠ 0)
    (hlt : x < 4294967296) (hnew : x ∉ s.tasks) (hcreated : Created task g)
    (hrun : onSched (taskEnable x) (writeKernel s.kernel x task g) = .ok ((), k)) :
    WaitInv idle ⟨k, s.tasks ++ [x], s.enabled + 1, Function.update s.handling x false,
      Function.update s.began x none⟩ := by
  obtain ⟨u, hu, rfl⟩ := onSched_run hrun
  have hlast := (ne_of_mem_of_not_mem (List.mem_of_getLast? h.sched.listed.last) hnew).symm
  have hidle : idle ∈ s.tasks := h.sched.first ▸ List.mem_of_mem_head? h.sched.listed.first
  have henabled := of_run (wp_taskEnable hlast hcreated.next hcreated.ctl) hu
  obtain ⟨hesp0, hpid, hlastPid, -⟩ := of_run (wp_taskEnable_new hlast hcreated.ctl) hu
  have hne : ∀ y ∈ s.tasks, y ≠ x := fun y hy he => hnew (he ▸ hy)
  have hold : ∀ y ∈ s.tasks, SameWait s.kernel.sched u y ∧ (u.task y).esp0 = (s.kernel.sched.task y).esp0 :=
    fun y hy => henabled.same (hne y hy)
  refine ⟨inv_enable h.sched h0 hlt hnew henabled, (hold idle hidle).1.ctl.trans h.idle_ctl, fun y hy hyi hfree => ?_,
    fun y hy hyi hctx => ?_, fun y hy hwait => ?_, fun hbound => ?_⟩
  · rcases List.mem_append.mp hy with hy | hy
    · simp only [writeKernel, Function.update_of_ne (hne y hy)] at hfree ⊢
      exact (hold y hy).2.trans (h.frame y hy hyi hfree)
    · rw [List.mem_singleton.mp hy]
      simp only [writeKernel, Function.update_self]
      exact hesp0.trans hcreated.esp0
  · rcases List.mem_append.mp hy with hy | hy
    · simp only [writeKernel, Function.update_of_ne (hne y hy)] at hctx ⊢
      exact h.apart y hy hyi hctx
    · rw [List.mem_singleton.mp hy] at hctx ⊢
      simp only [writeKernel, Function.update_self] at hctx ⊢
      exact hcreated.sigctx hctx
  · rcases List.mem_append.mp hy with hy | hy
    · obtain ⟨w, hbegan, hmatch⟩ := h.began y hy ((hold y hy).1.wait ▸ hwait)
      exact ⟨w, (Function.update_of_ne (hne y hy) ..).trans hbegan, hmatch.of_sameWait (hold y hy).1⟩
    · rw [List.mem_singleton.mp hy] at hwait
      have hclear : hasFlag u taskFlgWait x = false := hasFlag_eq_false.mpr (by rw [henabled.new.1, BitVec.zero_and])
      rw [hclear] at hwait
      cases hwait
  · dsimp only at hbound ⊢
    obtain ⟨hcount, hnodup, hpids⟩ := h.pids (by omega)
    have hfresh : pidOf u x = s.enabled + 1 := by
      rw [hpid, hlastPid, hcount, u32_of_lt (by omega)]
    have hsame : s.tasks.map (pidOf u) = s.tasks.map (pidOf s.kernel.sched) :=
      List.map_congr_left fun y hy => pidOf_of_sameWait (hold y hy).1
    refine ⟨hpid ▸ hfresh, ?_, fun y hy => ?_⟩
    · rw [List.map_append, hsame, List.map_singleton, hfresh]
      refine List.nodup_append.mpr ⟨hnodup, List.nodup_singleton _, fun p hp q hq => ?_⟩
      obtain ⟨y, hy, rfl⟩ := List.mem_map.mp hp
      have hle := hpids y hy
      rw [List.mem_singleton.mp hq]
      omega
    · rcases List.mem_append.mp hy with hy | hy
      · rw [pidOf_of_sameWait (hold y hy).1]
        exact (hpids y hy).trans (by omega)
      · rw [List.mem_singleton.mp hy, hfresh]

theorem inv_tickWait {time : Nat} (h : WaitInv idle s) :
    WaitInv idle { s with kernel := { s.kernel with sched := { s.kernel.sched with systime := time } } } := by
  refine ⟨h.sched.of_same rfl rfl rfl rfl, h.idle_ctl, h.frame, h.apart, fun x hx hwait => ?_, h.pids⟩
  obtain ⟨w, hbegan, hmatch⟩ := h.began x hx hwait
  exact ⟨w, hbegan, hmatch.of_same rfl rfl⟩

theorem switch_cases {k : Kernel} (h : WaitInv idle s) (hspared : InitSpared s.kernel.sched s.tasks)
    (hrun : onSched (x86TaskSwitch idle) s.kernel = .ok ((), k)) :
    ∃ u, k = { s.kernel with sched := u } ∧
      (s.kernel.sched.taskingEntry = true ∧ u = { s.kernel.sched with
          space := s.kernel.sched.mmKernel, taskingEntry := false } ∨
        s.kernel.sched.taskingEntry = false ∧ SchedInv idle u (alive s.kernel.sched s.tasks) ∧
          Roused s.kernel.sched [] s.tasks u) := by
  obtain ⟨u, hu, rfl⟩ := onSched_run hrun
  refine ⟨u, rfl, ?_⟩
  cases hentry : s.kernel.sched.taskingEntry with
  | true => exact .inl ⟨rfl, of_run (wp_switch_entry hentry) hu⟩
  | false => exact .inr ⟨rfl, (of_run (wp_switch h.sched hentry hspared) hu).2⟩

theorem inv_switchWait {k : Kernel} (h : WaitInv idle s) (hspared : InitSpared s.kernel.sched s.tasks)
    (hrun : onSched (x86TaskSwitch idle) s.kernel = .ok ((), k)) :
    WaitInv idle { s with
      kernel := k
      tasks := if s.kernel.sched.taskingEntry then s.tasks else alive s.kernel.sched s.tasks } := by
  obtain ⟨u, rfl, ⟨hentry, rfl⟩ | ⟨hentry, hinv, hroused⟩⟩ := switch_cases h hspared hrun
  · rw [hentry, if_pos rfl]
    refine ⟨h.sched.of_same rfl rfl rfl rfl, h.idle_ctl, h.frame, h.apart, fun x hx hwait => ?_, h.pids⟩
    obtain ⟨w, hbegan, hmatch⟩ := h.began x hx hwait
    exact ⟨w, hbegan, hmatch.of_same rfl rfl⟩
  · rw [hentry, if_neg (by decide)]
    have hmem : ∀ x ∈ alive s.kernel.sched s.tasks, x ∈ s.tasks := fun x hx => List.mem_of_mem_filter hx
    have hpid : pidOf u = pidOf s.kernel.sched := funext hroused.pid
    have hsame : ∀ x ∈ s.tasks, hasFlag u taskFlgWait x = true → SameWait s.kernel.sched u x := by
      intro x hx hwait
      obtain ⟨pre, post, hsplit⟩ := List.append_of_mem hx
      rcases hroused.looked pre x post hsplit with hsame | ⟨-, hwoken, -⟩
      · exact hsame
      · rw [hwoken] at hwait
        cases hwait
    refine ⟨hinv, ?_, fun x hx hxi hfree => ?_, fun x hx => h.apart x (hmem x hx), fun x hx hwait => ?_,
      fun hbound => ?_⟩
    · have hidle : idle ∈ s.tasks := h.sched.first ▸ List.mem_of_mem_head? h.sched.listed.first
      obtain ⟨pre, post, hsplit⟩ := List.append_of_mem hidle
      rcases hroused.looked pre idle post hsplit with hsame | ⟨hwait, -, -⟩
      · exact hsame.ctl.trans h.idle_ctl
      · have hfree := h.sched.idle_free.1
        rw [waits, hwait] at hfree
        cases hfree
    · exact (hroused.esp0 x).trans (h.frame x (hmem x hx) hxi hfree)
    · have hkept := hsame x (hmem x hx) hwait
      obtain ⟨w, hbegan, hmatch⟩ := h.began x (hmem x hx) (hkept.wait ▸ hwait)
      exact ⟨w, hbegan, hmatch.of_sameWait hkept⟩
    · obtain ⟨hcount, hnodup, hpids⟩ := h.pids hbound
      rw [hpid]
      exact ⟨hroused.counters.2.trans hcount, hnodup.sublist (List.filter_sublist.map _),
        fun x hx => hpids x (hmem x hx)⟩

theorem inv_waitStep {op : TaskOp} {t : WaitState} (h : WaitInv idle s) (hstep : WaitStep idle s op t) :
    WaitInv idle t := by
  rcases step_wrote h hstep with ⟨x, task, hw⟩ | rfl | ⟨time, rfl⟩ | rfl | ⟨x, task, g, rfl⟩
  · exact hw.inv h
  · exact h
  · cases hstep with
    | tick => exact inv_tickWait h
  · cases hstep with
    | switch hspared hrun => exact inv_switchWait h hspared hrun
  · cases hstep with
    | enable h0 hlt hnew hcreated hrun => exact inv_enableWait h h0 hlt hnew hcreated hrun

theorem woken_switch {k : Kernel} {x : Nat} {tasks : List Nat} (h : WaitInv idle s)
    (hspared : InitSpared s.kernel.sched s.tasks) (hrun : onSched (x86TaskSwitch idle) s.kernel = .ok ((), k))
    (hx : x ∈ s.tasks) (hwait : hasFlag s.kernel.sched taskFlgWait x = true)
    (hwoken : hasFlag k.sched taskFlgWait x = false) :
    WokenBy s .switch { s with kernel := k, tasks := tasks } x := by
  obtain ⟨u, rfl, ⟨-, rfl⟩ | ⟨-, -, hroused⟩⟩ := switch_cases h hspared hrun
  · have hsame : hasFlag s.kernel.sched taskFlgWait x = false := hwoken
    rw [hwait] at hsame
    cases hsame
  · obtain ⟨pre, post, hsplit⟩ := List.append_of_mem hx
    obtain ⟨w, hbegan, hmatch⟩ := h.began x hx hwait
    rcases hroused.looked pre x post hsplit with hsame | ⟨-, -, hreason⟩
    · have := hsame.wait
      rw [hwait] at this
      rw [this] at hwoken
      cases hwoken
    · cases hreason with
      | sleep ctl hctl htype htime =>
        cases w with
        | pid p =>
          rw [hmatch.1] at htype
          exact absurd htype (by decide)
        | sleep d =>
          obtain ⟨-, ctl', hctl', hd⟩ := hmatch
          rw [hctl] at hctl'
          obtain rfl := Option.some.inj hctl'
          exact .sleep d hbegan rfl (hd ▸ htime)
      | pid ctl hctl htype hnone =>
        cases w with
        | pid p =>
          obtain ⟨-, ctl', hctl', hp⟩ := hmatch
          rw [hctl] at hctl'
          obtain rfl := Option.some.inj hctl'
          rw [hp] at hnone
          exact .pid p hbegan rfl pre post hsplit hnone
        | sleep d =>
          rw [hmatch.1] at htype
          exact absurd htype (by decide)

theorem woken_step {op : TaskOp} {t : WaitState} {x : Nat} (h : WaitInv idle s) (hstep : WaitStep idle s op t)
    (hx : x ∈ s.tasks) (hwait : hasFlag s.kernel.sched taskFlgWait x = true)
    (hwoken : hasFlag t.kernel.sched taskFlgWait x = false) : WokenBy s op t x := by
  rcases step_wrote h hstep with ⟨y, task, hw⟩ | rfl | ⟨time, rfl⟩ | rfl | ⟨y, task, g, rfl⟩
  · exact hw.woken hwait hwoken
  · rw [hwait] at hwoken
    cases hwoken
  · cases hstep with
    | tick =>
      have hsame : hasFlag s.kernel.sched taskFlgWait x = false := hwoken
      rw [hwait] at hsame
      cases hsame
  · cases hstep with
    | switch hspared hrun => exact woken_switch h hspared hrun hx hwait hwoken
  · cases hstep with
    | enable h0 hlt hnew hcreated hrun =>
      obtain ⟨u, hu, rfl⟩ := onSched_run hrun
      have hlast := (ne_of_mem_of_not_mem (List.mem_of_getLast? h.sched.listed.last) hnew).symm
      have henabled := of_run (wp_taskEnable hlast hcreated.next hcreated.ctl) hu
      have hsame := (henabled.same fun he => hnew (he ▸ hx)).1.wait
      rw [hwait] at hsame
      rw [hsame] at hwoken
      cases hwoken

theorem step_pids {op : TaskOp} {t : WaitState} (h : WaitInv idle s) (hstep : WaitStep idle s op t) :
    s.enabled ≤ t.enabled ∧ (t.enabled < 2 ^ 31 → ∀ x ∈ t.tasks,
      x ∈ s.tasks ∧ pidOf t.kernel.sched x = pidOf s.kernel.sched x ∨ s.enabled < pidOf t.kernel.sched x) := by
  rcases step_wrote h hstep with ⟨y, task, hw⟩ | rfl | ⟨time, rfl⟩ | rfl | ⟨y, task, g, rfl⟩
  · rw [hw.tasks.1, hw.tasks.2, hw.pidOf]
    exact ⟨le_rfl, fun _ x hx => .inl ⟨hx, rfl⟩⟩
  · exact ⟨le_rfl, fun _ x hx => .inl ⟨hx, rfl⟩⟩
  · cases hstep with
    | tick => exact ⟨le_rfl, fun _ x hx => .inl ⟨hx, rfl⟩⟩
  · cases hstep with
    | switch hspared hrun =>
      refine ⟨le_rfl, fun _ x hx => .inl ?_⟩
      dsimp only at hx ⊢
      obtain ⟨u, rfl, ⟨hentry, rfl⟩ | ⟨hentry, -, hroused⟩⟩ := switch_cases h hspared hrun
      · rw [hentry, if_pos rfl] at hx
        exact ⟨hx, rfl⟩
      · rw [hentry, if_neg (by decide)] at hx
        exact ⟨List.mem_of_mem_filter hx, hroused.pid x⟩
  · cases hstep with
    | enable h0 hlt hnew hcreated hrun =>
      refine ⟨Nat.le_succ _, fun hbound x hx => ?_⟩
      dsimp only at hbound hx ⊢
      obtain ⟨u, hu, rfl⟩ := onSched_run hrun
      have hlast := (ne_of_mem_of_not_mem (List.mem_of_getLast? h.sched.listed.last) hnew).symm
      have henabled := of_run (wp_taskEnable hlast hcreated.next hcreated.ctl) hu
      rcases List.mem_append.mp hx with hx | hx
      · exact .inl ⟨hx, pidOf_of_sameWait (henabled.same fun he => hnew (he ▸ hx)).1⟩
      · obtain ⟨-, hpid, hlastPid, -⟩ := of_run (wp_taskEnable_new hlast hcreated.ctl) hu
        refine .inr ?_
        dsimp only
        rw [List.mem_singleton.mp hx, hpid, hlastPid, (h.pids (by omega)).1, u32_of_lt (by omega)]
        omega

/-- A process id that was given to a task and that no task in the list has any more. -/
def Gone (p : Nat) (s : WaitState) : Prop :=
  p ≤ s.enabled ∧ ∀ x ∈ s.tasks, pidOf s.kernel.sched x ≠ p

theorem gone_of_removed {op : TaskOp} {t : WaitState} {x : Nat} (h : WaitInv idle s) (hstep : WaitStep idle s op t)
    (hx : x ∈ s.tasks) (hremoved : x ∉ t.tasks) (hbound : t.enabled < 2 ^ 31) :
    Gone (pidOf s.kernel.sched x) t := by
  obtain ⟨hle, hpids⟩ := step_pids h hstep
  obtain ⟨-, hnodup, hbelow⟩ := h.pids (by omega)
  refine ⟨(hbelow x hx).trans hle, fun y hy he => ?_⟩
  rcases hpids hbound y hy with ⟨hmem, hsame⟩ | hnew
  · rw [hsame] at he
    obtain rfl := List.inj_on_of_nodup_map hnodup hmem hx he
    exact hremoved hy
  · have := hbelow x hx
    omega

theorem gone_run {p : Nat} {t : WaitState} (h : WaitInv idle s) (hrun : WaitRun idle s t) (hbound : t.enabled < 2 ^ 31)
    (hgone : s.enabled < 2 ^ 31 → Gone p s) : WaitInv idle t ∧ Gone p t := by
  have hall : WaitInv idle t ∧ (t.enabled < 2 ^ 31 → Gone p t) := by
    refine hrun.invariant (fun u => WaitInv idle u ∧ (u.enabled < 2 ^ 31 → Gone p u)) ?_ ⟨h, hgone⟩
    rintro u op v ⟨hu, hgone⟩ hstep -
    refine ⟨inv_waitStep hu hstep, fun hbound => ?_⟩
    obtain ⟨hle, hpids⟩ := step_pids hu hstep
    obtain ⟨hp, hnone⟩ := hgone (by omega)
    refine ⟨hp.trans hle, fun x hx => ?_⟩
    rcases hpids hbound x hx with ⟨hmem, hsame⟩ | hnew
    · rw [hsame]
      exact hnone x hmem
    · omega
  exact ⟨hall.1, hall.2 hbound⟩

theorem taskByPid_gone {p : Nat} (h : WaitInv idle s) (hgone : Gone p s) :
    wp (taskByPid p) noFault (fun r t => r = 0 ∧ t = s.kernel.sched) s.kernel.sched := by
  refine wp_imp (h.sched.find p) ?_
  rintro r t ⟨rfl, ⟨rfl, -⟩ | ⟨hmem, hpid⟩⟩
  · exact ⟨rfl, rfl⟩
  · exact absurd hpid (hgone.2 r hmem)

/-- The state right after the scheduler was set up, when no task has been enabled. -/
def startState (idle : Nat) (k : Kernel) : WaitState := ⟨k, [idle], 0, fun _ => false, fun _ => none⟩

theorem inv_start {esp0 : Nat} (h0 : idle ≠ 0) (hlt : idle < 4294967296) {k : Kernel} (hpid : k.sched.lastPid = 0) :
    wp (onSched (x86TaskInit idle esp0)) noFault (fun _ k => WaitInv idle (startState idle k)) k := by
  have hinit : wp (x86TaskInit idle esp0) noFault (fun _ t => SchedInv idle t [idle] ∧
      t.taskingEntry = k.sched.taskingEntry) k.sched := inv_init h0 hlt k.sched
  have hfields : wp (x86TaskInit idle esp0) noFault (fun _ t => (t.task idle).ctl = none ∧
      (t.task idle).flag = 0#32 ∧ t.lastPid = 0) k.sched := by
    rw [x86TaskInit, wp_bind, wp_get, wp_bind, wp_setTask, wp_modify]
    exact ⟨by simp, by simp, hpid⟩
  rw [wp_onSched]
  refine wp_imp (wp_and hinit hfields) ?_
  rintro _ t ⟨⟨hinv, -⟩, hctl, hflag, hlast⟩
  have hidle : ∀ x ∈ [idle], x ≠ idle → False := fun x hx hne => hne (List.mem_singleton.mp hx)
  refine ⟨hinv, hctl, fun x hx hne => (hidle x hx hne).elim, fun x hx hne => (hidle x hx hne).elim,
    fun x hx hwait => ?_, fun _ => ⟨hlast, List.nodup_singleton _, fun x hx => ?_⟩⟩
  · have hclear : hasFlag t taskFlgWait idle = false := hasFlag_eq_false.mpr (by rw [hflag, BitVec.zero_and])
    rw [List.mem_singleton.mp hx] at hwait
    rw [show hasFlag t taskFlgWait idle = true from hwait] at hclear
    cases hclear
  · rw [List.mem_singleton.mp hx]
    exact le_of_eq (by rw [pidOf, startState, hctl]; rfl)

/-- In every step of every run after the scheduler was set up, a task that waits is woken up only
when what it waits for has happened, or by a signal; and a removed process is never found again. -/
theorem no_early_wakeup (h0 : idle ≠ 0) (hlt : idle < 4294967296) (esp0 : Nat) {k₀ : Kernel}
    (hpid : k₀.sched.lastPid = 0) :
    wp (onSched (x86TaskInit idle esp0)) noFault (fun _ k => ∀ s, WaitRun idle (startState idle k) s →
      ∀ op t, WaitStep idle s op t → ∀ x ∈ s.tasks,
        (hasFlag s.kernel.sched taskFlgWait x = true → hasFlag t.kernel.sched taskFlgWait x = false →
          WokenBy s op t x) ∧
        (x ∉ t.tasks → ∀ v, WaitRun idle t v → v.enabled < 2 ^ 31 →
          wp (taskByPid (pidOf s.kernel.sched x)) noFault (fun r u => r = 0 ∧ u = v.kernel.sched) v.kernel.sched)) k₀ := by
  refine wp_imp (inv_start h0 hlt hpid) fun _ k hk s hrun op t hstep x hx => ?_
  have hs : WaitInv idle s := hrun.invariant (WaitInv idle) (fun _ _ _ h hstep _ => inv_waitStep h hstep) hk
  have ht := inv_waitStep hs hstep
  refine ⟨woken_step hs hstep hx, fun hremoved v hv hbound => ?_⟩
  obtain ⟨hinv, hgone⟩ := gone_run ht hv hbound (gone_of_removed hs hstep hx hremoved)
  exact taskByPid_gone hinv hgone

end Switches

def createdSignal : TaskSignal := ⟨0x8000, 0, 0, 0, 0⟩

def bootKernel : Kernel := ⟨emptySched, fun _ => createdSignal, fun _ => 0, 0⟩

def bootedKernel : Kernel := after (onSched (x86TaskInit 0x1000 0x2000)) bootKernel

theorem bootedKernel_init : onSched (x86TaskInit 0x1000 0x2000) bootKernel = .ok ((), bootedKernel) :=
  run_after (by decide +kernel)

def waitingTask : X86Task := { createdTask with esp0 := mainFrame createdSignal }

/-- A task waits for a process that is not there, and the next switch wakes it up. -/
theorem no_early_wakeup_one_wait : ∃ s t, WaitStep 0x1000 s .switch t ∧
    hasFlag s.kernel.sched taskFlgWait 0x4000 = true ∧ hasFlag t.kernel.sched taskFlgWait 0x4000 = false ∧
      WokenBy s .switch t 0x4000 := by
  let k₁ := after (onSched (x86TaskInit 0x1000 0x2000)) bootKernel
  let k₂ := after (onSched (taskEnable 0x4000)) (writeKernel k₁ 0x4000 waitingTask createdSignal)
  let s₂ : WaitState := ⟨k₂, [0x1000] ++ [0x4000], 1, Function.update (fun _ => false) 0x4000 false,
    Function.update (fun _ => none) 0x4000 none⟩
  let switched (s : WaitState) : WaitState := { s with
    kernel := after (onSched (x86TaskSwitch 0x1000)) s.kernel
    tasks := if s.kernel.sched.taskingEntry then s.tasks else alive s.kernel.sched s.tasks }
  let s₄ := switched (switched s₂)
  let s₅ : WaitState := { s₄ with
    kernel := after (blockOnPid 7) s₄.kernel
    began := Function.update s₄.began s₄.kernel.sched.current (some (.pid 7)) }
  have hinit : onSched (x86TaskInit 0x1000 0x2000) bootKernel = .ok ((), k₁) := run_after (by decide +kernel)
  have hall := of_run (no_early_wakeup (show 0x1000 ≠ 0 by decide) (by decide) 0x2000 rfl) hinit
  have henable : WaitStep 0x1000 (startState 0x1000 k₁) (.enable 0x4000 waitingTask createdSignal) s₂ :=
    .enable (by decide) (by decide) (by decide) ⟨rfl, rfl, rfl, fun h => absurd rfl h⟩ (run_after (by decide +kernel))
  have hswitch : ∀ s, (∀ x ∈ s.tasks, hasFlag s.kernel.sched taskFlgStop x = false) →
      (onSched (x86TaskSwitch 0x1000) s.kernel).isOk = true → WaitStep 0x1000 s .switch (switched s) := by
    refine fun s hstop hok => .switch (fun x hx hstopped => ?_) (run_after hok)
    rw [hstop x hx] at hstopped
    cases hstopped
  have hblock : WaitStep 0x1000 s₄ (.waitpid 7) s₅ :=
    .waitpid (by decide +kernel) (by decide) (run_after (by decide +kernel))
  have hrun : WaitRun 0x1000 (startState 0x1000 k₁) s₅ :=
    ((((Run.refl _).tail henable trivial).tail (hswitch s₂ (by decide +kernel) (by decide +kernel)) trivial).tail
      (hswitch (switched s₂) (by decide +kernel) (by decide +kernel)) trivial).tail hblock trivial
  have hlast := hswitch s₅ (by decide +kernel) (by decide +kernel)
  exact ⟨_, _, hlast, by decide +kernel, by decide +kernel,
    (hall _ hrun _ _ hlast 0x4000 (by decide +kernel)).1 (by decide +kernel) (by decide +kernel)⟩

end YggKernel.Task
