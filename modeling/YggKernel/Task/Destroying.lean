import YggKernel.Task.Runs

namespace YggKernel.Task

open Lib.Program Lib.BitWords Lib.Chains

def fdsOf (s : Sched) (x : Nat) : List Nat := ((s.task x).ctl.map TaskCtl.fds).getD []

def releasesOf (s : Sched) (x : Nat) : List Release :=
  [.block x, .ctl x, .space (s.task x).pd, .block (s.task x).esp0] ++
    ((fdsOf s x).filter (· ≠ 0)).reverse.map .file

def stopped (s : Sched) (l : List Nat) : List Nat := l.filter (hasFlag s taskFlgStop)

/-- What a task holds, and whether it is stopped, is the same, and multitasking has not begun. -/
structure SameHoldings (s t : Sched) : Prop where
  entry : t.taskingEntry = s.taskingEntry
  fds : ∀ x, (t.task x).ctl.map TaskCtl.fds = (s.task x).ctl.map TaskCtl.fds
  esp0 : ∀ x, (t.task x).esp0 = (s.task x).esp0
  pd : ∀ x, (t.task x).pd = (s.task x).pd
  stop : ∀ x, hasFlag t taskFlgStop x = hasFlag s taskFlgStop x

section Holdings

variable {s t u : Sched} {x p idle : Nat} {task : X86Task}

theorem SameHoldings.refl (s : Sched) : SameHoldings s s := ⟨rfl, fun _ => rfl, fun _ => rfl, fun _ => rfl, fun _ => rfl⟩

theorem SameHoldings.trans (h : SameHoldings s t) (h' : SameHoldings t u) : SameHoldings s u :=
  ⟨h'.entry.trans h.entry, fun x => (h'.fds x).trans (h.fds x), fun x => (h'.esp0 x).trans (h.esp0 x), fun x => (h'.pd x).trans (h.pd x),
    fun x => (h'.stop x).trans (h.stop x)⟩

theorem SameHoldings.fdsOf (h : SameHoldings s t) (x : Nat) : fdsOf t x = fdsOf s x := by
  rw [Task.fdsOf, h.fds, Task.fdsOf]

theorem SameHoldings.releasesOf (h : SameHoldings s t) : releasesOf t = releasesOf s := by
  funext x
  rw [Task.releasesOf, h.fdsOf, h.esp0, h.pd, Task.releasesOf]

theorem SameHoldings.stopped (h : SameHoldings s t) (l : List Nat) : stopped t l = stopped s l :=
  List.filter_congr fun x _ => h.stop x

theorem sameHoldings_update (hentry : t.taskingEntry = s.taskingEntry) (htask : t.task = Function.update s.task x task)
    (hfds : task.ctl.map TaskCtl.fds = (s.task x).ctl.map TaskCtl.fds) (hesp0 : task.esp0 = (s.task x).esp0)
    (hpd : task.pd = (s.task x).pd) (hstop : task.flag &&& taskFlgStop = (s.task x).flag &&& taskFlgStop) :
    SameHoldings s t := by
  refine ⟨hentry, fun y => ?_, fun y => ?_, fun y => ?_, fun y => ?_⟩
  · rw [htask]
    exact update_field (fun x : X86Task => x.ctl.map TaskCtl.fds) hfds y
  · rw [htask]
    exact update_field X86Task.esp0 hesp0 y
  · rw [htask]
    exact update_field X86Task.pd hpd y
  · rw [hasFlag, htask]
    exact congrArg (· != 0#32) (update_field (fun x : X86Task => x.flag &&& taskFlgStop) hstop y)

theorem wp_ctlOf_any {Q : TaskCtl → Sched → Prop} (hQ : ∀ ctl, (s.task x).ctl = some ctl → Q ctl s) :
    wp (ctlOf x) anyFault Q s := by
  rw [ctlOf, wp_bind, wp_get]
  cases hctl : (s.task x).ctl with
  | none => trivial
  | some ctl => exact hQ ctl hctl

theorem wp_pidFrom_same (pid fuel x : Nat) : wp (pidFrom pid fuel x) anyFault (fun _ t => t = s) s := by
  induction fuel generalizing x with
  | zero => trivial
  | succ fuel ih =>
    rw [pidFrom]
    by_cases hx : x = 0
    · rw [if_pos hx, wp_pure]
    · rw [if_neg hx, wp_bind, wp_get]
      cases (s.task x).ctl with
      | none =>
        dsimp only
        split
        · rw [wp_pure]
        · rw [wp_bind, wp_nextOf]
          exact ih _
      | some ctl =>
        dsimp only
        split
        · rw [wp_pure]
        · rw [wp_bind, wp_nextOf]
          exact ih _

theorem wp_wakeUp_holdings : wp (wakeUp x) anyFault (fun _ t => SameHoldings s t ∧ t.released = s.released ∧
    ∀ y, (t.task y).next = (s.task y).next) s := by
  have hsame : SameHoldings s s ∧ s.released = s.released ∧ ∀ y, (s.task y).next = (s.task y).next :=
    ⟨.refl s, rfl, fun _ => rfl⟩
  have hclear : ∀ ctl, ctl.map TaskCtl.fds = (s.task x).ctl.map TaskCtl.fds → ∀ t : Sched,
      t = { s with task := Function.update s.task x { s.task x with
        flag := (s.task x).flag &&& ~~~taskFlgWait, ctl := ctl } } →
      SameHoldings s t ∧ t.released = s.released ∧ ∀ y, (t.task y).next = (s.task y).next := by
    rintro ctl hctl t rfl
    refine ⟨sameHoldings_update rfl rfl hctl rfl rfl (and_not_and.trans (if_neg (by decide))), rfl, fun y => ?_⟩
    exact update_field X86Task.next (by rfl) y
  rw [wakeUp, wp_bind, wp_flagOf]
  by_cases hflag : (s.task x).flag &&& taskFlgWait ≠ 0#32
  · rw [if_pos hflag, wp_bind, wp_get]
    by_cases hsleep : (s.task x).waitType = taskWaitSleep
    · rw [if_pos hsleep, wp_bind, wp_get, wp_bind]
      refine wp_ctlOf_any fun ctl hctl => ?_
      split
      · rw [wp_setTask]
        exact hclear _ rfl _ rfl
      · exact hsame
    · rw [if_neg hsleep, wp_bind, wp_get]
      split
      · rw [wp_bind]
        refine wp_ctlOf_any fun ctl hctl => ?_
        rw [wp_bind, taskByPid, wp_bind, wp_get]
        refine wp_imp (wp_pidFrom_same ..) ?_
        rintro r _ rfl
        split
        · rw [wp_bind, wp_ctlOf hctl, wp_bind, wp_setTask, wp_setTask]
          simp only [Function.update_self, Function.update_idem]
          obtain ⟨hholdings, -, hnext⟩ := hclear (some { ctl with sleepDeadline := 0 }) (by rw [hctl]; rfl) _ rfl
          exact ⟨hholdings, trivial, hnext⟩
        · exact hsame
      · exact hsame
  · rw [if_neg hflag]
    exact hsame

theorem wp_closeFiles_releases (fds : List Nat) : wp (closeFiles fds) anyFault (fun _ t => t = { s with
    released := (fds.filter (· ≠ 0)).reverse.map .file ++ s.released }) s := by
  induction fds generalizing s with
  | nil => rfl
  | cons fd fds ih =>
    rw [closeFiles]
    by_cases hfd : fd = 0
    · rw [if_neg (not_not_intro hfd), List.filter_cons_of_neg (by simpa using hfd)]
      exact ih
    · rw [if_pos hfd, wp_bind, release, wp_modify, List.filter_cons_of_pos (by simpa using hfd), List.reverse_cons,
        List.map_append, List.append_assoc]
      exact ih

theorem wp_taskDestroy_releases : wp (taskDestroy x) anyFault (fun _ t => t = { s with
    space := s.mmKernel, released := releasesOf s x ++ s.released }) s := by
  rw [taskDestroy, wp_bind, wp_get, wp_bind, mmSet, wp_modify, wp_bind]
  refine wp_ctlOf_any fun ctl hctl => ?_
  rw [wp_bind]
  refine wp_imp (wp_closeFiles_releases _) ?_
  rintro _ t rfl
  simp only [release, wp_bind, wp_get, wp_modify]
  have hfds : fdsOf s x = ctl.fds := by
    rw [fdsOf, show (s.task x).ctl = some ctl from hctl]
    rfl
  rw [releasesOf, hfds]
  rfl

theorem wp_stopTask_releases : wp (stopTask x p) anyFault (fun _ t => SameHoldings s t ∧
    t.released = releasesOf s x ++ s.released ∧ ∀ y, y ≠ p → (t.task y).next = (s.task y).next) s := by
  have hdestroy : ∀ t : Sched, t.task = Function.update s.task p { s.task p with next := (s.task x).next } →
      t.released = s.released → t.taskingEntry = s.taskingEntry →
      wp (do if (← ctlOf x).pid = 1 then throw (.panic "Attempted to kill init!\n")
             taskDestroy x) anyFault (fun _ u => SameHoldings s u ∧
        u.released = releasesOf s x ++ s.released ∧ ∀ y, y ≠ p → (u.task y).next = (s.task y).next) t := by
    intro t htask hreleased hentry
    have hsame : SameHoldings s t := sameHoldings_update hentry htask rfl rfl rfl rfl
    rw [wp_bind]
    refine wp_ctlOf_any fun ctl hctl => ?_
    split
    · trivial
    · refine wp_imp wp_taskDestroy_releases ?_
      rintro _ u rfl
      refine ⟨⟨hsame.entry, hsame.fds, hsame.esp0, hsame.pd, hsame.stop⟩, ?_, fun y hy => ?_⟩
      · dsimp only
        rw [hsame.releasesOf, hreleased]
      · dsimp only
        rw [htask, Function.update_of_ne hy]
  rw [stopTask, wp_bind, wp_kassert]
  refine ⟨fun _ => ?_, fun _ => trivial⟩
  rw [wp_bind, wp_nextOf, wp_bind, wp_setTask, wp_bind, wp_get]
  by_cases hlast : x = s.last
  · rw [if_pos hlast, wp_bind, wp_modify]
    exact hdestroy _ rfl rfl rfl
  · rw [if_neg hlast]
    exact hdestroy _ rfl rfl rfl

theorem wp_updateTasks_releases (fuel : Nat) (rest : List Nat) (hlink : Linked id (Succ s) rest 0) (hnodup : rest.Nodup)
    (hp : p ∉ rest) (hidle : hasFlag s taskFlgStop idle = false) :
    wp (updateTasks idle fuel (first id rest 0) p) anyFault (fun _ t => SameHoldings s t ∧
      t.released = (stopped s rest).reverse.flatMap (releasesOf s) ++ s.released) s := by
  induction rest generalizing s p fuel with
  | nil =>
    cases fuel with
    | zero => trivial
    | succ fuel =>
      rw [updateTasks, first_nil, if_pos rfl, wp_pure]
      exact ⟨.refl s, rfl⟩
  | cons x rest ih =>
    cases fuel with
    | zero => trivial
    | succ fuel =>
      obtain ⟨hx, hnodup'⟩ := List.nodup_cons.mp hnodup
      have hkeep : ∀ t : Sched, SameHoldings s t → t.released = s.released → (∀ y, (t.task y).next = (s.task y).next) →
          hasFlag s taskFlgStop x = false →
          wp (updateTasks idle fuel (first id rest 0) x) anyFault (fun _ u => SameHoldings s u ∧
            u.released = (stopped s (x :: rest)).reverse.flatMap (releasesOf s) ++ s.released) t := by
        intro t hsame hreleased hnext hstop
        have hlink' : Linked id (Succ t) rest 0 := hlink.2.imp fun y _ n hy => ⟨hy.1, (hnext y).trans hy.2⟩
        refine wp_imp (ih _ hlink' hnodup' hx ((hsame.stop idle).trans hidle)) ?_
        rintro _ u ⟨hu, hru⟩
        refine ⟨hsame.trans hu, ?_⟩
        rw [hru, hsame.stopped, hsame.releasesOf, hreleased, stopped, stopped, List.filter_cons_of_neg (by simp [hstop])]
      rw [updateTasks, first_cons, id, if_neg hlink.1.1]
      by_cases hxi : x = idle
      · rw [if_pos hxi, wp_bind, wp_nextOf, hlink.1.2]
        exact hkeep s (.refl s) rfl (fun _ => rfl) (hxi ▸ hidle)
      · rw [if_neg hxi, wp_bind, wp_flagOf]
        cases hstop : hasFlag s taskFlgStop x with
        | true =>
          have hflag : (s.task x).flag &&& taskFlgStop ≠ 0#32 := by simpa [hasFlag] using hstop
          have hxp : x ≠ p := fun he => hp (he ▸ List.mem_cons_self ..)
          rw [if_pos hflag, wp_bind]
          refine wp_imp wp_stopTask_releases ?_
          rintro _ t ⟨hsame, hreleased, hnext⟩
          have hlink' : Linked id (Succ t) rest 0 := hlink.2.imp fun y hy n hs =>
            ⟨hs.1, (hnext y fun he => hp (he ▸ List.mem_cons_of_mem _ hy)).trans hs.2⟩
          rw [wp_bind, wp_nextOf, hnext x hxp, hlink.1.2]
          refine wp_imp (ih _ hlink' hnodup' (fun hmem => hp (List.mem_cons_of_mem _ hmem)) ((hsame.stop idle).trans hidle))
            ?_
          rintro _ u ⟨hu, hru⟩
          refine ⟨hsame.trans hu, ?_⟩
          rw [hru, hsame.stopped, hsame.releasesOf, hreleased, stopped, stopped,
            List.filter_cons_of_pos (by simp [hstop]), List.reverse_cons, List.flatMap_append, List.append_assoc]
          simp
        | false =>
          have hflag : ¬(s.task x).flag &&& taskFlgStop ≠ 0#32 := by simpa [hasFlag] using hstop
          rw [if_neg hflag, wp_bind]
          refine wp_imp wp_wakeUp_holdings ?_
          rintro _ t ⟨hsame, hreleased, hnext⟩
          rw [wp_bind, wp_nextOf, hnext, hlink.1.2]
          exact hkeep t hsame hreleased hnext hstop

theorem wp_selectTask_current (last fuel : Nat) :
    wp (selectTask last fuel) anyFault (fun _ t => ∃ c, t = { s with current := c }) s := by
  induction fuel generalizing s with
  | zero => trivial
  | succ fuel ih =>
    simp only [selectTask, wp_bind, wp_get, wp_nextOf, wp_modify]
    generalize (if (s.task s.current).next = 0 then s.first else (s.task s.current).next) = next
    refine (wp_waiting next).mpr ?_
    by_cases hwaits : waits { s with current := next } next = true
    · rw [if_pos hwaits, wp_bind, wp_get]
      by_cases hlast : next = last
      · rw [if_pos hlast]
        exact ⟨next, rfl⟩
      · rw [if_neg hlast]
        refine wp_imp ih ?_
        rintro _ t ⟨c, rfl⟩
        exact ⟨c, rfl⟩
    · rw [if_neg hwaits]
      exact ⟨next, rfl⟩

end Holdings

theorem wp_switch_releases {idle : Nat} {s : Sched} {l : List Nat} (h : SchedInv idle s l)
    (hentry : s.taskingEntry = false) : wp (x86TaskSwitch idle) anyFault (fun _ t => SameHoldings s t ∧
      t.released = (stopped s l).reverse.flatMap (releasesOf s) ++ s.released) s := by
  have hfirst : Lib.Chains.first id l 0 = s.first := by
    obtain ⟨rest, hrest⟩ := List.head?_eq_some_iff.mp h.listed.first
    rw [hrest]
    rfl
  have hzero : 0 ∉ l := fun hmem => h.ne_zero hmem rfl
  rw [x86TaskSwitch, wp_bind, wp_get, wp_bind, mmSet, wp_modify, wp_bind, wp_get]
  dsimp only
  rw [if_neg (by simp [hentry]), wp_bind, wp_get, wp_bind]
  have hsweep := wp_updateTasks_releases (s := { s with space := s.mmKernel }) listFuel l h.listed.linked
    h.listed.nodup hzero h.idle_free.2
  rw [hfirst] at hsweep
  refine wp_imp hsweep ?_
  rintro _ t ⟨hsame, hreleased⟩
  have hdone : ∀ u : Sched, SameHoldings t u → u.released = t.released →
      SameHoldings s u ∧ u.released = (stopped s l).reverse.flatMap (releasesOf s) ++ s.released := by
    intro u hu hru
    have hall := hsame.trans hu
    exact ⟨⟨hall.entry, hall.fds, hall.esp0, hall.pd, hall.stop⟩, hru.trans hreleased⟩
  have hmark : ∀ (u v : Sched) (y k : Nat), k ≠ 1 → u.released = t.released → SameHoldings t u →
      (v.task = Function.update u.task y { u.task y with flag := (u.task y).flag ||| mask k } ∨
        v.task = Function.update u.task y { u.task y with flag := (u.task y).flag &&& ~~~mask k }) →
      v.released = u.released → v.taskingEntry = u.taskingEntry → SameHoldings t v ∧ v.released = t.released := by
    rintro u v y k hk hru hu (hv | hv) hrv hev
    · exact ⟨hu.trans (sameHoldings_update hev hv rfl rfl rfl (or_and_of_ne hk.symm)), hrv.trans hru⟩
    · exact ⟨hu.trans (sameHoldings_update hev hv rfl rfl rfl (and_not_and.trans (if_neg hk.symm))), hrv.trans hru⟩
  rw [wp_bind, wp_get, wp_bind, wp_setTask, wp_bind]
  obtain ⟨hclear, hrclear⟩ := hmark t (clearRunning t t.current) t.current 0 (by decide) rfl (.refl t) (.inr rfl) rfl rfl
  refine wp_imp (wp_selectTask_current (s := clearRunning t t.current) _ _) ?_
  rintro _ u ⟨c, rfl⟩
  have hrun : ∀ v y, v.task = Function.update (clearRunning t t.current).task y
      { (clearRunning t t.current).task y with flag := ((clearRunning t t.current).task y).flag ||| taskFlgRunning } →
      v.released = t.released → v.taskingEntry = t.taskingEntry →
      SameHoldings s v ∧ v.released = (stopped s l).reverse.flatMap (releasesOf s) ++ s.released := by
    intro v y hv hrv hev
    obtain ⟨hsame', hr'⟩ := hmark _ v y 0 (by decide) hrclear hclear (.inl hv) (hrv.trans hrclear.symm) hev
    exact hdone v hsame' hr'
  rw [wp_bind, wp_get]
  dsimp only
  by_cases hc : c = t.current
  · rw [if_pos hc, wp_bind]
    refine (wp_waiting c).mpr ?_
    by_cases hwaits : waits { clearRunning t t.current with current := c } c = true
    · rw [if_pos hwaits, wp_bind, wp_modify, wp_bind, wp_setTask, wp_pure]
      exact hrun _ idle rfl rfl rfl
    · rw [if_neg hwaits, wp_setTask]
      exact hrun _ c rfl rfl rfl
  · rw [if_neg hc, wp_setTask]
    exact hrun _ c rfl rfl rfl

end YggKernel.Task
