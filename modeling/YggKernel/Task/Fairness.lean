import YggKernel.Lib.RoundRobin
import YggKernel.Task.Destroying

namespace YggKernel.Task

open Lib.Program Lib.Runs Lib.RoundRobin

def isSwitch : SchedOp → Bool
  | .switch => true
  | _ => false

def isEnable : SchedOp → Bool
  | .enable _ _ => true
  | _ => false

/-- A switch leaves the task out although it is not stopped and, once the switch has woken who is
to be woken, does not wait. -/
def PassedOver (x : Nat) (s : RunState) (op : SchedOp) (t : RunState) : Prop :=
  op = .switch → hasFlag s.sched taskFlgStop x = false ∧ waits t.sched x = false ∧ t.sched.current ≠ x

/-- How many tasks come before the task in the order in which the next switch looks at them. -/
def distance (x : Nat) (s : RunState) : Nat := (behindCurrent s.sched s.tasks).idxOf x

structure Queued (idle x : Nat) (s : RunState) : Prop where
  inv : SchedInv idle s.sched s.tasks
  entry : s.sched.taskingEntry = false
  mem : x ∈ s.tasks

variable {idle x : Nat} {s t : RunState} {op : SchedOp}

theorem distance_switched {s u : Sched} {tasks : List Nat} (h : SchedInv idle s tasks) (hx : x ∈ tasks)
    (hstop : hasFlag s taskFlgStop x = false) (hready : waits u x = false) (hne : u.current ≠ x)
    (hswitched : Switched s tasks u) : distance x ⟨u, alive s tasks⟩ < distance x ⟨s, tasks⟩ := by
  apply passed_over h.listed.nodup h.current hswitched.current hx
  · rw [hstop]
    rfl
  · rw [hready]
    rfl
  · exact hne.symm

theorem queued_step (hqueued : Queued idle x s) (hstep : SchedStep idle s op t) (hpassed : PassedOver x s op t) :
    Queued idle x t ∧ distance x t + [op].countP isSwitch ≤ distance x s + [op].countP isEnable := by
  obtain ⟨hinv, hentry, hmem⟩ := hqueued
  have hinv' := inv_schedStep s op t hinv hstep
  cases hstep with
  | @enable s u tasks y task h0 hlt hnew hnext hctl hrun =>
    have hlast := List.mem_of_getLast? hinv.listed.last
    have hne := (ne_of_mem_of_not_mem hlast hnew).symm
    have henabled := of_run (wp_taskEnable hne hnext hctl) hrun
    refine ⟨⟨hinv', henabled.taskingEntry.trans hentry, List.mem_append_left _ hmem⟩, ?_⟩
    have hle : distance x ⟨u, tasks ++ [y]⟩ ≤ distance x ⟨s, tasks⟩ + 1 := by
      rw [distance, behindCurrent, henabled.current]
      exact behind_append_le hinv.current x
    simpa [isSwitch, isEnable] using hle
  | mark _ => exact ⟨⟨hinv', hentry, hmem⟩, le_rfl⟩
  | tick => exact ⟨⟨hinv', hentry, hmem⟩, le_rfl⟩
  | @switch s u tasks hpid hrun =>
    have hentry : s.taskingEntry = false := hentry
    rw [hentry, if_neg (by simp)] at hinv' hpassed ⊢
    obtain ⟨hstop, hready, hne⟩ := hpassed rfl
    obtain ⟨hswitched, -, -⟩ := of_run (wp_switch hinv hentry hpid) hrun
    obtain ⟨hsame, -⟩ := of_run (wp_switch_releases hinv hentry) hrun
    refine ⟨⟨hinv', hsame.entry.trans hentry, ?_⟩, ?_⟩
    · apply List.mem_filter.mpr
      exact ⟨hmem, by rw [hstop]; rfl⟩
    · have hlt := distance_switched hinv hmem hstop hready hne hswitched
      simpa [isSwitch, isEnable] using hlt

/-- Between two turns of a task that is ready the other tasks get a turn each at most, and one more for
each task that is enabled in between. -/
theorem ready_tasks_run {idle : Nat} (h0 : idle ≠ 0) (hlt : idle < 4294967296) (esp0 : Nat) (s₀ : Sched) :
    wp (x86TaskInit idle esp0) noFault
      (fun _ u => ∀ s, SchedRun idle ⟨u, [idle]⟩ s → s.sched.taskingEntry = false → ∀ x ∈ s.tasks,
        ∀ ops t, Trace (SchedStep idle) (PassedOver x) s ops t →
          ops.countP isSwitch < s.tasks.length + ops.countP isEnable) s₀ := by
  apply wp_imp (inv_init h0 hlt s₀)
  intro _ u hu s hrun hentry x hx ops t htrace
  have hinv : SchedInv idle s.sched s.tasks :=
    hrun.invariant (fun s => SchedInv idle s.sched s.tasks)
      (fun s op t h hstep _ => inv_schedStep s op t h hstep) hu.1
  have hranked := htrace.ranked (Queued idle x) (distance x) isSwitch isEnable
    (fun _ _ _ hqueued hstep hpassed => queued_step hqueued hstep hpassed) ⟨hinv, hentry, hx⟩
  have hdistance : distance x s < s.tasks.length := idxOf_behind_lt hx
  omega

theorem ready_tasks_run_one_task : ∃ s : RunState, s.tasks = [0x1000, 0x4000] ∧ s.sched.taskingEntry = false ∧
    ∀ ops t, Trace (SchedStep 0x1000) (PassedOver 0x4000) s ops t →
      ops.countP isSwitch < 2 + ops.countP isEnable := by
  obtain ⟨_, u, hinit, hall⟩ :=
    run_of_wp (ready_tasks_run (show 0x1000 ≠ 0 by decide) (by decide) 0x2000 emptySched)
  obtain ⟨hinv, hentry⟩ := of_run (inv_init (by decide) (by decide) emptySched) hinit
  have hspared : InitSpared u [0x1000] := fun x hx hstop => by
    rw [List.mem_singleton.mp hx, hinv.idle_free.2] at hstop
    cases hstop
  have hbegun : u.taskingEntry = true := hentry
  have hentered : wp (x86TaskSwitch 0x1000) noFault (fun _ t => t = { u with space := u.mmKernel, taskingEntry := false }) u :=
    wp_switch_entry hbegun
  obtain ⟨_, v, hswitch, rfl⟩ := run_of_wp hentered
  have hstep := SchedStep.switch hspared hswitch
  rw [if_pos hbegun] at hstep
  have hinv' := inv_schedStep _ _ _ hinv hstep
  have hnew : (0x4000 : Nat) ∉ [0x1000] := by decide
  have hlast := (ne_of_mem_of_not_mem (List.mem_of_getLast? hinv'.listed.last) hnew).symm
  obtain ⟨_, w, henable, hw⟩ :=
    run_of_wp (wp_taskEnable hlast (show createdTask.next = 0 by rfl) (show createdTask.ctl.isSome by rfl))
  have hrun : SchedRun 0x1000 ⟨u, [0x1000]⟩ ⟨w, [0x1000, 0x4000]⟩ :=
    ((Run.refl _).tail hstep trivial).tail (.enable (by decide) (by decide) hnew rfl rfl henable) trivial
  exact ⟨⟨w, [0x1000, 0x4000]⟩, rfl, hw.taskingEntry, hall _ hrun hw.taskingEntry 0x4000 (List.mem_of_getLast? rfl)⟩

end YggKernel.Task
