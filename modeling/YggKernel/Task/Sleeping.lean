import YggKernel.Task.Scheduling
import YggKernel.Task.Signals

namespace YggKernel.Task

open Lib.Program Lib.BitWords

def tickNanos : Nat := 1000000000 / systickDesRes

def asked (sec nsec : Nat) : Nat := sec * 1000000000 + nsec

/-- When `wakeUp` ends the sleep that a task began at `start`: not before the time that was asked for, and not
more than one tick after it. -/
def WakesInTime (sec nsec start t : Nat) (s : Sched) : Prop :=
  start ≤ s.systime → wp (wakeUp t) noFault (fun _ u =>
    ((u.task t).flag &&& taskFlgWait = 0#32 → start * tickNanos + asked sec nsec ≤ s.systime * tickNanos) ∧
      (start * tickNanos + asked sec nsec + tickNanos ≤ s.systime * tickNanos → (u.task t).flag &&& taskFlgWait = 0#32)) s

/-- The deadline lies behind `start` by the time that was asked for, to within one tick, and the task
wakes up by it in whatever state the scheduler is later on. -/
def SleepsAsAsked (sec nsec start t : Nat) (s : Sched) : Prop :=
  ∃ ctl d, (s.task t).ctl = some ctl ∧ ctl.sleepDeadline = start + d ∧ d * tickNanos ≤ asked sec nsec + tickNanos ∧
    asked sec nsec ≤ d * tickNanos + tickNanos ∧
    ∀ s', (s'.task t).ctl = some ctl → (s'.task t).flag &&& taskFlgWait ≠ 0#32 → (s'.task t).waitType = taskWaitSleep →
      WakesInTime sec nsec start t s'

section Sleeping

variable {s : Sched} {k : Kernel} {ctl : TaskCtl} {sec nsec start t d : Nat}

theorem wp_wakeUp_sleep (hctl : (s.task t).ctl = some ctl) (hwait : (s.task t).flag &&& taskFlgWait ≠ 0#32)
    (htype : (s.task t).waitType = taskWaitSleep) :
    wp (wakeUp t) noFault (fun _ u => (u.task t).flag &&& taskFlgWait = 0#32 ↔ ctl.sleepDeadline ≤ s.systime) s := by
  rw [wakeUp, wp_bind, wp_flagOf, if_pos hwait, wp_bind, wp_get, if_pos htype, wp_bind, wp_get, wp_bind, wp_ctlOf hctl]
  by_cases htime : s.systime ≥ ctl.sleepDeadline
  · rw [if_pos htime, wp_setTask]
    refine iff_of_true ?_ htime
    simp only [Function.update_self]
    rw [taskFlgWait, and_not_and, if_pos rfl]
  · rw [if_neg htime, wp_pure]
    exact iff_of_false hwait htime

theorem wakesInTime_of_deadline (hctl : (s.task t).ctl = some ctl) (hwait : (s.task t).flag &&& taskFlgWait ≠ 0#32)
    (htype : (s.task t).waitType = taskWaitSleep) (hd : ctl.sleepDeadline = start + d)
    (hup : asked sec nsec ≤ d * tickNanos) (hdown : d * tickNanos ≤ asked sec nsec + tickNanos) :
    WakesInTime sec nsec start t s := by
  intro hle
  have htick : tickNanos = 1000 := by decide
  rw [htick] at hup hdown ⊢
  refine wp_imp (wp_wakeUp_sleep hctl hwait htype) fun _ u hu => ?_
  rw [hu, hd]
  omega

theorem deadline_exact_iff (sec start : Nat) (hnsec : nsec < 2 ^ 64) :
    (∃ d, deadline sec nsec start = start + d ∧ d * tickNanos ≤ asked sec nsec + tickNanos ∧
      asked sec nsec ≤ d * tickNanos + tickNanos) ↔ nsec ≤ 1 ∧ start + sec * systickDesRes + nsec < 2 ^ 64 := by
  have htick : tickNanos = 1000 := by decide
  have hsum : deadline sec nsec start = (sec * 1000000 + nsec + start) % 2 ^ 64 := by
    rw [deadline, systickDesRes, Nat.mod_add_mod, Nat.div_self (by decide), Nat.mul_one]
  have hdiv := Nat.div_add_mod (sec * 1000000 + nsec + start) (2 ^ 64)
  rw [← hsum] at hdiv
  rw [htick, asked, systickDesRes]
  constructor
  · rintro ⟨d, hd, hdown, hup⟩
    rw [hd] at hdiv
    have hlt : start + d < 2 ^ 64 := by
      rw [← hd, hsum]
      exact Nat.mod_lt _ (by decide)
    generalize (sec * 1000000 + nsec + start) / 2 ^ 64 = q at hdiv
    have hq : q = 0 := by
      by_contra hq
      have hpos : 1 ≤ q := Nat.one_le_iff_ne_zero.mpr hq
      omega
    subst hq
    omega
  · rintro ⟨hone, hfit⟩
    exact ⟨sec * 1000000 + nsec, by omega, by omega, by omega⟩

/-- A task sleeps as long as it asks just when it asks for whole seconds, or a nanosecond more, and the sum
does not overflow. -/
theorem sleeps_as_asked_iff (hctl : (k.sched.task t).ctl = some ctl) (hnsec : nsec < 2 ^ 64) :
    wp (taskSetSleep t sec nsec) noFault (fun _ k' => SleepsAsAsked sec nsec k.sched.systime t k'.sched) k ↔
      nsec ≤ 1 ∧ k.sched.systime + sec * systickDesRes + nsec < 2 ^ 64 := by
  rw [taskSetSleep, wp_bind, wp_onSched, wp_ctlOf hctl, wp_bind, wp_get, wp_onSched, wp_setTask]
  have hexact := deadline_exact_iff sec k.sched.systime hnsec
  constructor
  · rintro ⟨c, d, hc, hd, hdown, hup, -⟩
    simp only [Function.update_self] at hc
    obtain rfl := Option.some.inj hc
    exact hexact.mp ⟨d, hd, hdown, hup⟩
  · intro hfit
    obtain ⟨d, hd, hdown, hup⟩ := hexact.mpr hfit
    refine ⟨{ ctl with sleepDeadline := deadline sec nsec k.sched.systime }, d, ?_, hd, hdown, hup,
      fun s' hctl' hwait htype => wakesInTime_of_deadline hctl' hwait htype hd ?_ hdown⟩
    · simp only [Function.update_self]
    · have htick : tickNanos = 1000 := by decide
      have hres : 1000000 / systickDesRes = 1 := by decide
      rw [deadline, hres, systickDesRes] at hd
      rw [systickDesRes] at hfit
      rw [htick, asked]
      omega

def sleeperKernel : Kernel :=
  ⟨⟨fun _ => ⟨0, 0, 0, 0, some ⟨[], 0, 2⟩, 0⟩, 1, 1, 1, false, 2, 5000, 0, 0, []⟩, fun _ => ⟨0, 0, 0, 0, 0⟩, fun _ => 0, 0⟩

theorem sleeps_two_seconds : wp (taskSetSleep 1 2 0) noFault
    (fun _ k' => SleepsAsAsked 2 0 5000 1 k'.sched) sleeperKernel :=
  (sleeps_as_asked_iff (k := sleeperKernel) (t := 1) rfl (by decide)).mpr
    ⟨by decide, by decide⟩

/-- Half a second becomes more than eight minutes. -/
theorem half_second_oversleeps : ¬wp (taskSetSleep 1 0 500000000) noFault
    (fun _ k' => SleepsAsAsked 0 500000000 5000 1 k'.sched) sleeperKernel := by
  rw [taskSetSleep, wp_bind, wp_onSched, wp_ctlOf (show (sleeperKernel.sched.task 1).ctl = some ⟨[], 0, 2⟩ from rfl), wp_bind, wp_get, wp_onSched, wp_setTask]
  rintro ⟨c, d, hc, hd, hdown, -⟩
  simp only [Function.update_self] at hc
  obtain rfl := Option.some.inj hc
  have htime : deadline 0 500000000 sleeperKernel.sched.systime = 500005000 := by decide
  have hd' : deadline 0 500000000 sleeperKernel.sched.systime = 5000 + d := hd
  have hasked : asked 0 500000000 + tickNanos = 500001000 := by decide
  have htick : tickNanos = 1000 := by decide
  rw [hasked, htick] at hdown
  omega

end Sleeping

end YggKernel.Task
