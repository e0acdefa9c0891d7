import YggKernel.Task.Selection

namespace YggKernel.Task

open Lib.Program Lib.BitWords Lib.Chains Lib.Runs

/-- The scheduler with the tasks that are enabled and not yet removed, in the order
in which they were enabled. -/
structure RunState where
  sched : Sched
  tasks : List Nat

inductive SchedOp
  | enable (t : Nat) (task : X86Task)
  | mark (t : Nat) (task : X86Task)
  | tick (time : Nat)
  | switch

/-- What the rest of the kernel may do to a task: anything but change its link, make
idle wait or stop, or stop a task that is not the current one. -/
structure MarkOk (idle : Nat) (s : Sched) (t : Nat) (task : X86Task) : Prop where
  next : task.next = (s.task t).next
  ctl : t ≠ idle → task.ctl.isSome
  idle : t = idle → task.flag &&& taskFlgWait = 0#32 ∧ task.flag &&& taskFlgBusy = 0#32 ∧
    task.flag &&& taskFlgStop = 0#32
  other : t ≠ s.current → task.flag &&& taskFlgStop = 0#32 ∧ task.flag &&& taskFlgRunning = 0#32

def writeTask (s : Sched) (t : Nat) (task : X86Task) : Sched :=
  { s with task := Function.update s.task t task }

def InitSpared (s : Sched) (l : List Nat) : Prop :=
  ∀ x ∈ l, hasFlag s taskFlgStop x = true → (s.task x).ctl.map TaskCtl.pid ≠ some 1

/-- The steps of a run. A task is enabled at an address that no enabled task has, as
`task_create` has made it. -/
inductive SchedStep (idle : Nat) : RunState → SchedOp → RunState → Prop
  | enable {s u : Sched} {tasks : List Nat} {t : Nat} {task : X86Task} : t ≠ 0 → t < 4294967296 →
      t ∉ tasks → task.next = 0 → task.ctl.isSome →
      taskEnable t (writeTask s t task) = .ok ((), u) →
      SchedStep idle ⟨s, tasks⟩ (.enable t task) ⟨u, tasks ++ [t]⟩
  | mark {s : Sched} {tasks : List Nat} {t : Nat} {task : X86Task} : MarkOk idle s t task →
      SchedStep idle ⟨s, tasks⟩ (.mark t task) ⟨writeTask s t task, tasks⟩
  | tick {s : Sched} {tasks : List Nat} {time : Nat} :
      SchedStep idle ⟨s, tasks⟩ (.tick time) ⟨{ s with systime := time }, tasks⟩
  | switch {s u : Sched} {tasks : List Nat} : InitSpared s tasks → x86TaskSwitch idle s = .ok ((), u) →
      SchedStep idle ⟨s, tasks⟩ .switch ⟨u, if s.taskingEntry then tasks else alive s tasks⟩

def SchedRun (idle : Nat) : RunState → RunState → Prop := Run (SchedStep idle) always

theorem hasFlag_eq_false {s : Sched} {f : BitVec 32} {x : Nat} :
    hasFlag s f x = false ↔ (s.task x).flag &&& f = 0#32 := by
  simp [hasFlag]

theorem waits_eq_false {s : Sched} {x : Nat} : waits s x = false ↔
    (s.task x).flag &&& taskFlgWait = 0#32 ∧ (s.task x).flag &&& taskFlgBusy = 0#32 := by
  rw [waits, Bool.or_eq_false_iff, hasFlag_eq_false, hasFlag_eq_false]

theorem inv_init {idle esp0 : Nat} (h0 : idle ≠ 0) (hlt : idle < 4294967296) (s : Sched) :
    wp (x86TaskInit idle esp0) noFault
      (fun _ t => SchedInv idle t [idle] ∧ t.taskingEntry = s.taskingEntry) s := by
  rw [x86TaskInit, wp_bind, wp_get, wp_bind, wp_setTask, wp_modify]
  refine ⟨⟨⟨⟨⟨h0, ?_⟩, trivial⟩, rfl, rfl, List.nodup_singleton _⟩, rfl, ?_, ?_, ⟨?_, ?_⟩, ?_, ?_⟩, rfl⟩
  · simp
  · simpa using hlt
  · simp
  · simp [waits_eq_false]
  · simp [hasFlag_eq_false]
  · simp
  · simp

structure Enabled (s : Sched) (t : Nat) (u : Sched) : Prop where
  new : (u.task t).flag = 0#32 ∧ (u.task t).next = 0 ∧ (u.task t).ctl.isSome
  link : u.task s.last = { s.task s.last with next := t }
  other : ∀ x, x ≠ t → x ≠ s.last → u.task x = s.task x
  first : u.first = s.first
  last : u.last = t
  current : u.current = s.current
  taskingEntry : u.taskingEntry = s.taskingEntry

theorem wp_taskEnable {s : Sched} {t : Nat} {task : X86Task} (hnew : t ≠ s.last) (hnext : task.next = 0)
    (hctl : task.ctl.isSome) :
    wp (taskEnable t) noFault (fun _ => Enabled s t) (writeTask s t task) := by
  obtain ⟨ctl, hctl⟩ := Option.isSome_iff_exists.mp hctl
  have hctl' : ((writeTask s t task).task t).ctl = some ctl := by simp [writeTask, hctl]
  rw [taskEnable, wp_bind, wp_ctlOf hctl', wp_bind, wp_modify, wp_bind, wp_get, wp_bind, wp_setTask,
    wp_bind, wp_get, wp_bind, wp_setTask, wp_modify]
  refine ⟨?_, ?_, fun x h1 h2 => ?_, rfl, rfl, rfl, rfl⟩
  · simp [writeTask, hnew, hnext]
  · simp [writeTask, hnew.symm]
  · simp [writeTask, h1, h2]

theorem inv_enable {idle : Nat} {s u : Sched} {l : List Nat} (h : SchedInv idle s l) {t : Nat}
    (h0 : t ≠ 0) (hlt : t < 4294967296) (hnew : t ∉ l) (hu : Enabled s t u) :
    SchedInv idle u (l ++ [t]) := by
  obtain ⟨l', hl'⟩ := List.getLast?_eq_some_iff.mp h.listed.last
  have hlast : s.last ∈ l := List.mem_of_getLast? h.listed.last
  have hidle : idle ∈ l := h.first ▸ List.mem_of_mem_head? h.listed.first
  have hne : ∀ x ∈ l, x ≠ t := fun x hx e => hnew (e ▸ hx)
  have hsame : ∀ x ∈ l, (u.task x).flag = (s.task x).flag ∧ (u.task x).ctl = (s.task x).ctl := by
    intro x hx
    by_cases hxl : x = s.last
    · rw [hxl, hu.link]
      exact ⟨rfl, rfl⟩
    · rw [hu.other x (hne x hx) hxl]
      exact ⟨rfl, rfl⟩
  have hflag : ∀ x ∈ l, ∀ f, hasFlag u f x = hasFlag s f x := fun x hx f => by
    rw [hasFlag, (hsame x hx).1, hasFlag]
  have hnot : ∀ f, hasFlag u f t = false := fun f => by simp [hasFlag, hu.new.1]
  refine ⟨⟨?_, ?_, ?_, ?_⟩, hu.first.trans h.first, fun x hx => ?_, ?_, ⟨?_, ?_⟩, fun x hx hxc => ?_,
    fun x hx hxi => ?_⟩
  · have hold := h.listed.linked
    have hnodup := h.listed.nodup
    rw [hl'] at hold hnodup
    obtain ⟨hold', hend, _⟩ := (linked_append id (Succ s) l' [s.last] 0).mp hold
    rw [hl', List.append_assoc, linked_append]
    refine ⟨hold'.imp fun x hx n hn => ⟨hn.1, ?_⟩, ⟨hend.1, ?_⟩, ⟨h0, hu.new.2.1⟩, trivial⟩
    · have hxl : x ≠ s.last := fun e => by
        rw [List.nodup_append] at hnodup
        exact hnodup.2.2 x hx s.last (by simp) e
      rw [hu.other x (hne x (by simp [hl', hx])) hxl]
      exact hn.2
    · rw [hu.link]
      rfl
  · rw [hu.first, List.head?_append, h.listed.first, Option.some_or]
  · rw [hu.last, List.getLast?_concat]
  · exact List.nodup_append.mpr ⟨h.listed.nodup, List.nodup_singleton t, fun x hx y hy => by
      rw [List.mem_singleton.mp hy]
      exact hne x hx⟩
  · rcases List.mem_append.mp hx with hx | hx
    · exact h.below x hx
    · rwa [List.mem_singleton.mp hx]
  · exact List.mem_append_left _ (hu.current ▸ h.current)
  · rw [waits, hflag idle hidle, hflag idle hidle]
    exact h.idle_free.1
  · rw [hflag idle hidle]
    exact h.idle_free.2
  · rcases List.mem_append.mp hx with hx | hx
    · rw [hflag x hx, hflag x hx]
      exact h.others x hx (hu.current ▸ hxc)
    · rw [List.mem_singleton.mp hx]
      exact ⟨hnot _, hnot _⟩
  · rcases List.mem_append.mp hx with hx | hx
    · rw [(hsame x hx).2]
      exact h.ctl x hx hxi
    · rw [List.mem_singleton.mp hx]
      exact hu.new.2.2

theorem inv_mark {idle : Nat} {s : Sched} {l : List Nat} (h : SchedInv idle s l) {t : Nat}
    {task : X86Task} (hok : MarkOk idle s t task) : SchedInv idle (writeTask s t task) l := by
  have hself : (writeTask s t task).task t = task := Function.update_self ..
  have hother : ∀ x, x ≠ t → (writeTask s t task).task x = s.task x :=
    fun x hx => Function.update_of_ne hx ..
  have hflag : ∀ x, x ≠ t → ∀ f, hasFlag (writeTask s t task) f x = hasFlag s f x := fun x hx f => by
    rw [hasFlag, hother x hx, hasFlag]
  refine ⟨⟨h.listed.linked.imp fun x _ n hx => ⟨hx.1, ?_⟩, h.listed.first, h.listed.last, h.listed.nodup⟩,
    h.first, h.below, h.current, ?_, fun x hx hxc => ?_, fun x hx hxi => ?_⟩
  · by_cases hxt : x = t
    · rw [hxt, hself, hok.next, ← hxt]
      exact hx.2
    · rw [hother x hxt]
      exact hx.2
  · by_cases hit : idle = t
    · obtain ⟨hw, hb, hs⟩ := hok.idle hit.symm
      rw [waits_eq_false, hasFlag_eq_false, hit, hself]
      exact ⟨⟨hw, hb⟩, hs⟩
    · rw [waits, hflag idle hit, hflag idle hit, hflag idle hit]
      exact h.idle_free
  · by_cases hxt : x = t
    · rw [hasFlag_eq_false, hasFlag_eq_false, hxt, hself]
      exact hok.other (hxt ▸ hxc)
    · rw [hflag x hxt, hflag x hxt]
      exact h.others x hx hxc
  · by_cases hxt : x = t
    · rw [hxt, hself]
      exact hok.ctl (hxt ▸ hxi)
    · rw [hother x hxt]
      exact h.ctl x hx hxi

theorem wp_switch_entry {idle : Nat} {s : Sched} (hentry : s.taskingEntry = true) :
    wp (x86TaskSwitch idle) noFault
      (fun _ t => t = { s with space := s.mmKernel, taskingEntry := false }) s := by
  rw [x86TaskSwitch, wp_bind, wp_get, wp_bind, mmSet, wp_modify, wp_bind, wp_get]
  dsimp only
  rw [if_pos hentry, wp_bind, wp_modify, wp_pure]

theorem SchedInv.of_same {idle : Nat} {s t : Sched} {l : List Nat} (h : SchedInv idle s l)
    (htask : t.task = s.task) (hfirst : t.first = s.first) (hlast : t.last = s.last)
    (hcurrent : t.current = s.current) : SchedInv idle t l := by
  have hflag : ∀ f x, hasFlag t f x = hasFlag s f x := fun f x => by rw [hasFlag, htask, hasFlag]
  have hlink : Linked id (Succ t) l 0 := h.listed.linked.imp fun x _ n hx => ⟨hx.1, htask ▸ hx.2⟩
  refine ⟨⟨hlink, hfirst ▸ h.listed.first, hlast ▸ h.listed.last, h.listed.nodup⟩,
    hfirst.trans h.first, h.below, hcurrent ▸ h.current, ?_, fun x hx hne => ?_, htask ▸ h.ctl⟩
  · rw [waits, hflag, hflag, hflag]
    exact h.idle_free
  · rw [hflag, hflag]
    exact h.others x hx (hcurrent ▸ hne)

theorem inv_schedStep {idle : Nat} (s : RunState) (op : SchedOp) (t : RunState)
    (h : SchedInv idle s.sched s.tasks) (hstep : SchedStep idle s op t) :
    SchedInv idle t.sched t.tasks := by
  cases hstep with
  | enable h0 hlt hnew hnext hctl hrun =>
    have hlast := List.mem_of_getLast? h.listed.last
    have hne := (ne_of_mem_of_not_mem hlast hnew).symm
    exact inv_enable h h0 hlt hnew (of_run (wp_taskEnable hne hnext hctl) hrun)
  | mark hok => exact inv_mark h hok
  | tick => exact h.of_same rfl rfl rfl rfl
  | @switch s u tasks hpid hrun =>
    cases hentry : s.taskingEntry with
    | true =>
      obtain rfl := of_run (wp_switch_entry hentry) hrun
      rw [if_pos rfl]
      exact h.of_same rfl rfl rfl rfl
    | false =>
      rw [if_neg (by simp)]
      exact (of_run (wp_switch h hentry hpid) hrun).2.1

/-- In every state reached after the scheduler was set up, the enabled tasks are its
list, and a call of `x86_task_switch` after the first one ends, removes the stopped
task and selects the next one that does not wait. -/
theorem switch_selects {idle : Nat} (h0 : idle ≠ 0) (hlt : idle < 4294967296) (esp0 : Nat) (s₀ : Sched) :
    wp (x86TaskInit idle esp0) noFault
      (fun _ u => ∀ s, SchedRun idle ⟨u, [idle]⟩ s →
        Listed s.sched s.tasks ∧
          (s.sched.taskingEntry = false → InitSpared s.sched s.tasks →
            wp (x86TaskSwitch idle) noFault (fun _ t => Switched s.sched s.tasks t) s.sched)) s₀ := by
  refine wp_imp (inv_init h0 hlt s₀) fun _ u hu s hrun => ?_
  have h : SchedInv idle s.sched s.tasks :=
    hrun.invariant (fun s => SchedInv idle s.sched s.tasks)
      (fun s op t h hstep _ => inv_schedStep s op t h hstep) hu.1
  exact ⟨h.listed, fun hentry hpid => wp_imp (wp_switch h hentry hpid) fun _ _ ht => ht.1⟩

def createdTask : X86Task := ⟨0x2000, 0#32, 0, 0x3000, some ⟨[0, 0, 0, 0], 0, 0⟩, 0⟩

def emptySched : Sched := ⟨fun _ => createdTask, 0, 0, 0, true, 0, 0, 0xC0001000, 0xC0001000, []⟩

/-- One task is enabled next to idle; from the second switch on the next one is selected. -/
theorem switch_selects_one_task :
    ∃ s : RunState, s.tasks = [0x1000, 0x4000] ∧ Listed s.sched s.tasks ∧
      wp (x86TaskSwitch 0x1000) noFault (fun _ t => Switched s.sched s.tasks t) s.sched := by
  obtain ⟨_, u, hinit, hall⟩ :=
    run_of_wp (switch_selects (show 0x1000 ≠ 0 by decide) (by decide) 0x2000 emptySched)
  obtain ⟨hinv, hentry⟩ := of_run (inv_init (by decide) (by decide) emptySched) hinit
  have hnew : (0x4000 : Nat) ∉ [0x1000] := by decide
  have hlast : 0x4000 ≠ u.last := (ne_of_mem_of_not_mem (List.mem_of_getLast? hinv.listed.last) hnew).symm
  have hready := wp_taskEnable hlast (show createdTask.next = 0 by rfl) (show createdTask.ctl.isSome by rfl)
  obtain ⟨_, v, henable, hv⟩ := run_of_wp hready
  have hspared : InitSpared v [0x1000, 0x4000] := fun x hx hstop => by
    have hvinv := inv_enable hinv (by decide) (by decide) hnew hv
    by_cases hx1 : x = 0x1000
    · rw [hx1, hvinv.idle_free.2] at hstop
      cases hstop
    · have hcur : v.current = 0x1000 := by simpa using hv.current.trans (List.mem_singleton.mp hinv.current)
      rw [(hvinv.others x hx (hcur ▸ hx1)).1] at hstop
      cases hstop
  have hentry' : v.taskingEntry = true := hv.taskingEntry.trans hentry
  obtain ⟨_, w, hswitch, hw⟩ := run_of_wp (wp_switch_entry hentry')
  have hrun : SchedRun 0x1000 ⟨u, [0x1000]⟩ ⟨w, [0x1000, 0x4000]⟩ := by
    have hstep := SchedStep.switch hspared hswitch
    rw [if_pos hentry'] at hstep
    have henabled : SchedRun 0x1000 ⟨u, [0x1000]⟩ ⟨v, [0x1000, 0x4000]⟩ :=
      (Run.refl _).tail (.enable (by decide) (by decide) hnew rfl rfl henable) trivial
    exact henabled.tail hstep trivial
  obtain ⟨hlisted, hall⟩ := hall _ hrun
  refine ⟨⟨w, [0x1000, 0x4000]⟩, rfl, hlisted, hall (by rw [hw]) ?_⟩
  rw [hw]
  exact hspared

end YggKernel.Task
