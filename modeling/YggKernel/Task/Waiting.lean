import YggKernel.Task.Signals
import YggKernel.Task.Runs

namespace YggKernel.Task

open Lib.Program Lib.BitWords Lib.ByteMemory Lib.Runs

/-- What a task waits for. -/
inductive Wait
  | pid (p : Nat)
  | sleep (deadline : Nat)

/-- The kernel, with the tasks in the list, the number of tasks enabled so far, the tasks that
entered their signal handler and have not returned, and the wait that each one began last. -/
structure WaitState where
  kernel : Kernel
  tasks : List Nat
  enabled : Nat
  handling : Nat → Bool
  began : Nat → Option Wait

/-- The calls that a running task makes, and the interrupts. A call that blocks is one step up to
its call of `x86_task_switch`, which is another. -/
inductive TaskOp
  | enable (t : Nat) (task : X86Task) (g : TaskSignal)
  | waitpid (pid : Nat)
  | nanosleep (sec nsec : Nat)
  | kill (pid sig : Nat)
  | fault (regs : Nat)
  | sigreturn
  | exit
  | signal (sighandler : Nat)
  | execve (sigctx : Nat)
  | files (fds : List Nat)
  | busy
  | nobusy (t : Nat)
  | tick (time : Nat)
  | switch

def Apart (f g : Nat) : Prop := f + frameSize ≤ g ∨ g + frameSize ≤ f

def Registered (k : Kernel) (t : Nat) : Prop := (k.signal t).sigctx ≠ 0 ∧ (k.signal t).sigeip ≠ 0

instance (k : Kernel) (t : Nat) : Decidable (Registered k t) := inferInstanceAs (Decidable (_ ∧ _))

structure Created (task : X86Task) (g : TaskSignal) : Prop where
  next : task.next = 0
  ctl : task.ctl.isSome
  esp0 : task.esp0 = mainFrame g
  sigctx : g.sigctx ≠ 0 → Apart g.sigctx (mainFrame g)

def writeKernel (k : Kernel) (t : Nat) (task : X86Task) (g : TaskSignal) : Kernel :=
  { k with sched := writeTask k.sched t task, signal := Function.update k.signal t g }

def setFiles (fds : List Nat) : Prog Fault Kernel Unit := do
  let t ← currentTask
  let ctl ← onSched (ctlOf t)
  onSched (setTask t fun x => { x with ctl := some { ctl with fds := fds } })

def WaitState.handled (s : WaitState) (t : Nat) : Nat → Bool :=
  if Registered s.kernel t then Function.update s.handling t true else s.handling

/-- The steps of a run. The idle task makes no calls. -/
inductive WaitStep (idle : Nat) : WaitState → TaskOp → WaitState → Prop
  | enable {s : WaitState} {k : Kernel} {t : Nat} {task : X86Task} {g : TaskSignal} : t ≠ 0 → t < 4294967296 →
      t ∉ s.tasks → Created task g → onSched (taskEnable t) (writeKernel s.kernel t task g) = .ok ((), k) →
      WaitStep idle s (.enable t task g) ⟨k, s.tasks ++ [t], s.enabled + 1, Function.update s.handling t false,
        Function.update s.began t none⟩
  | waitpid {s : WaitState} {k : Kernel} {pid : Nat} : s.kernel.sched.current ≠ idle → pid < 4294967296 →
      blockOnPid pid s.kernel = .ok ((), k) →
      WaitStep idle s (.waitpid pid) { s with
        kernel := k, began := Function.update s.began s.kernel.sched.current (some (.pid pid)) }
  | nanosleep {s : WaitState} {k : Kernel} {sec nsec : Nat} : s.kernel.sched.current ≠ idle →
      blockOnTime sec nsec s.kernel = .ok ((), k) →
      WaitStep idle s (.nanosleep sec nsec) { s with
        kernel := k
        began := Function.update s.began s.kernel.sched.current
          (some (.sleep (deadline sec nsec s.kernel.sched.systime))) }
  | kill {s : WaitState} {k : Kernel} {pid sig t : Nat} {r : Int} :
      taskByPid pid s.kernel.sched = .ok (t, s.kernel.sched) → sysKill pid sig s.kernel = .ok (r, k) →
      WaitStep idle s (.kill pid sig) { s with
        kernel := k, handling := if t = 0 then s.handling else s.handled t }
  | fault {s : WaitState} {k : Kernel} {regs : Nat} {stopped : Bool} : s.kernel.sched.current ≠ idle →
      signalFault regs s.kernel = .ok (stopped, k) →
      WaitStep idle s (.fault regs) { s with
        kernel := k, handling := if stopped then s.handling else s.handled s.kernel.sched.current }
  | sigreturn {s : WaitState} {k : Kernel} {r : Int} : s.kernel.sched.current ≠ idle →
      sysSigreturn s.kernel = .ok (r, k) →
      WaitStep idle s .sigreturn { s with
        kernel := k, handling := Function.update s.handling s.kernel.sched.current false }
  | exit {s : WaitState} {k : Kernel} {r : Int} : s.kernel.sched.current ≠ idle → sysExit s.kernel = .ok (r, k) →
      WaitStep idle s .exit { s with kernel := k }
  | signal {s : WaitState} {k : Kernel} {sighandler : Nat} {r : Int} : s.kernel.sched.current ≠ idle →
      sysSignal 0 sighandler s.kernel = .ok (r, k) →
      WaitStep idle s (.signal sighandler) { s with kernel := k }
  | execve {s : WaitState} {k : Kernel} {sigctx : Nat} : s.kernel.sched.current ≠ idle →
      Apart sigctx (mainFrame (s.kernel.signal s.kernel.sched.current)) →
      resetSignal s.kernel.sched.current sigctx s.kernel = .ok ((), k) →
      WaitStep idle s (.execve sigctx) { s with kernel := k }
  | files {s : WaitState} {k : Kernel} {fds : List Nat} : s.kernel.sched.current ≠ idle →
      setFiles fds s.kernel = .ok ((), k) →
      WaitStep idle s (.files fds) { s with kernel := k }
  | busy {s : WaitState} {k : Kernel} : s.kernel.sched.current ≠ idle →
      taskBusy s.kernel.sched.current s.kernel = .ok ((), k) →
      WaitStep idle s .busy { s with kernel := k }
  | nobusy {s : WaitState} {k : Kernel} {t : Nat} : t ∈ s.tasks → t ≠ idle → taskNobusy t s.kernel = .ok ((), k) →
      WaitStep idle s (.nobusy t) { s with kernel := k }
  | tick {s : WaitState} {time : Nat} : WaitStep idle s (.tick time) { s with
      kernel := { s.kernel with sched := { s.kernel.sched with systime := time } } }
  | switch {s : WaitState} {k : Kernel} : InitSpared s.kernel.sched s.tasks →
      onSched (x86TaskSwitch idle) s.kernel = .ok ((), k) →
      WaitStep idle s .switch { s with
        kernel := k, tasks := if s.kernel.sched.taskingEntry then s.tasks else alive s.kernel.sched s.tasks }

def WaitRun (idle : Nat) : WaitState → WaitState → Prop := Run (WaitStep idle) always

section Calls

variable {idle : Nat} {s : WaitState} {k : Kernel} {r : Int}

/-- A call of `sys_waitpid` that comes back is two steps: it blocks the task, and it switches. -/
theorem sysWaitpid_steps {pid : Nat} (hne : s.kernel.sched.current ≠ idle) (hpid : pid < 4294967296)
    (hspared : ∀ u, blockOnPid pid s.kernel = .ok ((), u) → InitSpared u.sched s.tasks)
    (hrun : sysWaitpid idle pid 0 s.kernel = .ok (r, k)) : ∃ t, WaitRun idle s t ∧ t.kernel = k := by
  obtain ⟨_, _, hassert, hrest⟩ := run_bind.mp hrun
  obtain rfl := congrArg Prod.snd (Except.ok.inj hassert)
  obtain ⟨_, u, hblock, hrest⟩ := run_bind.mp hrest
  obtain ⟨_, v, hswitch, hret⟩ := run_bind.mp hrest
  obtain rfl := congrArg Prod.snd (Except.ok.inj hret)
  exact ⟨_, ((Run.refl _).tail (.waitpid hne hpid hblock) trivial).tail (.switch (hspared u hblock) hswitch) trivial, rfl⟩

theorem sysNanosleep_steps {sec nsec : Nat} (hne : s.kernel.sched.current ≠ idle)
    (hspared : ∀ u, blockOnTime sec nsec s.kernel = .ok ((), u) → InitSpared u.sched s.tasks)
    (hrun : sysNanosleep idle sec nsec s.kernel = .ok (r, k)) : ∃ t, WaitRun idle s t ∧ t.kernel = k := by
  unfold sysNanosleep at hrun
  split at hrun
  · obtain ⟨_, u, hblock, hrest⟩ := run_bind.mp hrun
    obtain ⟨_, v, hswitch, hret⟩ := run_bind.mp hrest
    obtain rfl := congrArg Prod.snd (Except.ok.inj hret)
    exact ⟨_, ((Run.refl _).tail (.nanosleep hne hblock) trivial).tail (.switch (hspared u hblock) hswitch) trivial, rfl⟩
  · obtain rfl := congrArg Prod.snd (Except.ok.inj hrun)
    exact ⟨s, .refl _, rfl⟩

/-- A page fault of a program delivers a signal, or it stops the task and switches. -/
theorem x86PageFault_steps {regs : Nat} (hne : s.kernel.sched.current ≠ idle)
    (hspared : ∀ u, signalFault regs s.kernel = .ok (true, u) → InitSpared u.sched s.tasks)
    (hrun : x86PageFault idle regs s.kernel = .ok ((), k)) : ∃ t, WaitRun idle s t ∧ t.kernel = k := by
  obtain ⟨cs, _, hload, hrest⟩ := run_bind.mp hrun
  obtain rfl := congrArg Prod.snd (Except.ok.inj hload)
  split at hrest
  · cases hrest
  · obtain ⟨stopped, u, hfault, hrest⟩ := run_bind.mp hrest
    have hstep : WaitRun idle s _ := (Run.refl s).tail (.fault hne hfault) trivial
    cases stopped with
    | true => exact ⟨_, hstep.tail (.switch (hspared u hfault) hrest) trivial, rfl⟩
    | false =>
      obtain rfl := congrArg Prod.snd (Except.ok.inj hrest)
      exact ⟨_, hstep, rfl⟩

end Calls

section Parts

variable {k : Kernel} {t : Nat} {E : Fault → Prop}

theorem hasFlag_self {s : Sched} {f : BitVec 32} : hasFlag s f t = true ↔ (s.task t).flag &&& f ≠ 0#32 := by
  simp [hasFlag]

theorem handlerContext_apply_of_outside {g : TaskSignal} {m : Mem} {a : Nat}
    (h : a < g.sigctx ∨ g.sigctx + 72 ≤ a) : handlerContext g m a = m a := by
  unfold handlerContext Strings.memsetAt offGp offEdx offGs offFs offEs offDs offEflags offCs offEip offEsp offSs offCr3
  iterate 11 rw [store32_apply_of_outside (by omega)]
  exact if_neg (by omega)

structure Entered (k : Kernel) (t : Nat) (k' : Kernel) : Prop where
  registered : Registered k t
  ctl : (k.sched.task t).ctl.isSome
  state : k' = { k with
    sched := writeTask k.sched t { k.sched.task t with
      flag := (k.sched.task t).flag &&& ~~~taskFlgWait, esp0 := (k.signal t).sigctx }
    mem := handlerContext (k.signal t) (if hasFlag k.sched taskFlgWait t = true then
      store32 k.mem ((k.sched.task t).esp0 + offEax) 0xFFFFFFFF else k.mem) }

theorem wp_abortWait {Q : Unit → Kernel → Prop} (hQ : Q () { k with
    sched := writeTask k.sched t { k.sched.task t with flag := (k.sched.task t).flag &&& ~~~taskFlgWait }
    mem := if hasFlag k.sched taskFlgWait t = true then
      store32 k.mem ((k.sched.task t).esp0 + offEax) 0xFFFFFFFF else k.mem }) : wp (abortWait t) E Q k := by
  rw [abortWait, wp_bind, wp_onSched, wp_flagOf]
  by_cases hwait : (k.sched.task t).flag &&& taskFlgWait ≠ 0#32
  · rw [if_pos (hasFlag_self.mpr hwait)] at hQ
    rw [if_pos hwait, wp_bind, wp_get, wp_bind, storeWord, wp_modify, wp_onSched, wp_setTask]
    exact hQ
  · have hclear : (k.sched.task t).flag &&& ~~~taskFlgWait = (k.sched.task t).flag :=
      and_not_mask_of_clear (by decide) (not_not.mp hwait)
    have hsame : writeTask k.sched t (k.sched.task t) = k.sched := by
      rw [writeTask, Function.update_eq_self]
    dsimp only at hQ
    rw [if_neg fun h => hwait (hasFlag_self.mp h), hclear, hsame] at hQ
    rw [if_neg hwait, wp_pure]
    exact hQ

theorem wp_enterSignal_registered (ht : t ≠ 0) (hctl : (k.sched.task t).ctl.isSome) (hreg : Registered k t) :
    wp (x86TaskEnterSignal t) E (fun r k' => r = 0 ∧ Entered k t k') k := by
  have hassert : (t != 0 && (k.sched.task t).ctl.isSome) = true := by
    rw [hctl, Bool.and_true, bne_iff_ne]
    exact ht
  have hreg' : (k.signal t).sigctx ≠ 0 ∧ (k.signal t).sigeip ≠ 0 := hreg
  rw [x86TaskEnterSignal, wp_bind, wp_get, wp_bind, wp_kassert]
  refine ⟨fun _ => ?_, fun hfail => ?_⟩
  swap
  · rw [hassert] at hfail
    cases hfail
  rw [if_pos hreg', wp_bind]
  refine wp_abortWait ?_
  rw [wp_bind, wp_modify, wp_bind, wp_onSched, wp_setTask, wp_pure]
  refine ⟨rfl, hreg, hctl, ?_⟩
  simp only [writeTask, Function.update_self, Function.update_idem]

theorem wp_enterSignal : wp (x86TaskEnterSignal t) anyFault
    (fun r k' => r = 0 ∧ Entered k t k' ∨ r = -1 ∧ ¬Registered k t ∧ k' = k) k := by
  by_cases hok : (t ≠ 0 ∧ (k.sched.task t).ctl.isSome) ∧ Registered k t
  · exact wp_imp (wp_enterSignal_registered hok.1.1 hok.1.2 hok.2) fun _ _ h => .inl h
  · rw [x86TaskEnterSignal, wp_bind, wp_get, wp_bind, wp_kassert]
    refine ⟨fun hassert => ?_, fun _ => trivial⟩
    rw [Bool.and_eq_true, bne_iff_ne] at hassert
    have hreg : ¬((k.signal t).sigctx ≠ 0 ∧ (k.signal t).sigeip ≠ 0) := fun h => hok ⟨hassert, h⟩
    rw [if_neg hreg, wp_pure]
    exact .inr ⟨rfl, hreg, rfl⟩

theorem wp_blockOnPid {ctl : TaskCtl} {pid : Nat} (hctl : (k.sched.task k.sched.current).ctl = some ctl) :
    wp (blockOnPid pid) E (fun _ k' => k' = { k with
      sched := writeTask k.sched k.sched.current { k.sched.task k.sched.current with
        flag := taskFlgWait
        waitType := taskWaitPid
        ctl := some { ctl with sleepDeadline := ((BitVec.ofNat 32 pid).signExtend 64).toNat } } }) k := by
  simp only [blockOnPid, currentTask, wp_bind, wp_get, wp_pure, wp_onSched, wp_setTask, Function.update_self,
    Function.update_idem]
  rw [wp_ctlOf (by simpa using hctl)]
  simp only [Function.update_self, Function.update_idem]
  rfl

theorem wp_blockOnTime {ctl : TaskCtl} {sec nsec : Nat} (hctl : (k.sched.task k.sched.current).ctl = some ctl) :
    wp (blockOnTime sec nsec) E (fun _ k' => k' = { k with
      sched := writeTask k.sched k.sched.current { k.sched.task k.sched.current with
        flag := (k.sched.task k.sched.current).flag ||| taskFlgWait
        waitType := taskWaitSleep
        ctl := some { ctl with sleepDeadline := deadline sec nsec k.sched.systime } }
      mem := store32 k.mem ((k.sched.task k.sched.current).esp0 + offEax) 0 }) k := by
  simp only [blockOnTime, taskSetSleep, currentTask, storeWord, wp_bind, wp_get, wp_pure, wp_onSched]
  rw [wp_ctlOf hctl]
  simp only [wp_setTask, wp_modify, Function.update_self, Function.update_idem]
  rfl

def Killed (k : Kernel) (t sig : Nat) (k' : Kernel) : Prop :=
  (k.sched.task t).ctl.isSome ∧ ∃ k₁, k₁ = { k with
    signal := Function.update k.signal t { k.signal t with pendingSignal := sig } } ∧
      (Entered k₁ t k' ∨ ¬Registered k₁ t ∧ k' = k₁)

theorem wp_sysKill {pid sig : Nat} (hfind : taskByPid pid k.sched = .ok (t, k.sched)) :
    wp (sysKill pid sig) anyFault (fun _ k' => pid ≠ 0 ∧ (t = 0 ∧ k' = k ∨ t ≠ 0 ∧ Killed k t sig k')) k := by
  rw [sysKill, wp_bind, wp_kassert]
  refine ⟨fun hpid => ?_, fun _ => trivial⟩
  have hpid' : pid ≠ 0 := by simpa using hpid
  rw [wp_bind, wp_onSched, wp_of_run hfind]
  by_cases ht : t = 0
  · rw [if_neg (not_not_intro ht), wp_pure]
    exact ⟨hpid', .inl ⟨ht, rfl⟩⟩
  · rw [if_pos ht, wp_bind, wp_get, wp_bind, wp_kassert]
    refine ⟨fun hctl => ?_, fun _ => trivial⟩
    rw [wp_bind, setSignal, wp_modify, wp_bind]
    refine wp_imp wp_enterSignal fun r k' hk' => ⟨hpid', .inr ⟨ht, hctl, _, rfl, ?_⟩⟩
    rcases hk' with ⟨-, h⟩ | ⟨-, h⟩
    · exact .inl h
    · exact .inr h

def Faulted (k : Kernel) (regs : Nat) (stopped : Bool) (k' : Kernel) : Prop :=
  ∃ g, g.sigctx = (k.signal k.sched.current).sigctx ∧ g.ebp0 = (k.signal k.sched.current).ebp0 ∧
    g.sigeip = (k.signal k.sched.current).sigeip ∧
      ∃ k₁, k₁ = { k with signal := Function.update k.signal k.sched.current g } ∧
        if stopped = true then
          k' = { k₁ with
            sched := writeTask k.sched k.sched.current { k.sched.task k.sched.current with
              flag := (k.sched.task k.sched.current).flag ||| taskFlgStop }
            mem := store32 k.mem (regs + offEbx) taskExitSegv }
        else Entered k₁ k.sched.current k'

theorem wp_signalFault {ctl : TaskCtl} {regs : Nat} (hctl : (k.sched.task k.sched.current).ctl = some ctl) :
    wp (signalFault regs) anyFault (fun stopped k' => Faulted k regs stopped k') k := by
  rw [signalFault, wp_bind, currentTask, wp_bind, wp_get, wp_pure, wp_bind, wp_onSched, wp_ctlOf hctl, wp_bind, wp_get]
  by_cases hpending : (k.signal k.sched.current).pendingSignal ≠ 0
  · rw [if_pos hpending]
    simp only [stopFaulting, storeWord, wp_bind, wp_onSched, wp_setTask, wp_modify, wp_pure]
    refine ⟨k.signal k.sched.current, rfl, rfl, rfl, _, rfl, ?_⟩
    rw [if_pos rfl, Function.update_eq_self]
    rfl
  · rw [if_neg hpending, wp_bind, setSignal, wp_modify, wp_bind]
    refine wp_imp wp_enterSignal ?_
    rintro r k' (⟨rfl, h⟩ | ⟨rfl, -, rfl⟩)
    · rw [if_neg (by decide), wp_pure]
      refine ⟨{ k.signal k.sched.current with pendingSignal := sigsegv }, rfl, rfl, rfl, _, rfl, ?_⟩
      rwa [if_neg (by decide)]
    · rw [if_pos (by decide)]
      simp only [stopFaulting, storeWord, wp_bind, wp_onSched, wp_setTask, wp_modify, wp_pure]
      refine ⟨{ k.signal k.sched.current with pendingSignal := sigsegv }, rfl, rfl, rfl, _, rfl, ?_⟩
      rw [if_pos rfl]
      rfl

theorem registered_update {g : TaskSignal} (hctx : g.sigctx = (k.signal t).sigctx)
    (heip : g.sigeip = (k.signal t).sigeip) :
    Registered { k with signal := Function.update k.signal t g } t ↔ Registered k t := by
  unfold Registered
  dsimp only
  rw [Function.update_self, hctx, heip]

theorem wp_signalFault_pending {ctl : TaskCtl} {regs : Nat} (hctl : (k.sched.task k.sched.current).ctl = some ctl)
    (hpending : (k.signal k.sched.current).pendingSignal ≠ 0) : wp (signalFault regs) E (fun stopped k' =>
      stopped = true ∧ k' = { k with
        sched := writeTask k.sched k.sched.current { k.sched.task k.sched.current with
          flag := (k.sched.task k.sched.current).flag ||| taskFlgStop }
        mem := store32 k.mem (regs + offEbx) taskExitSegv }) k := by
  rw [signalFault, wp_bind, currentTask, wp_bind, wp_get, wp_pure, wp_bind, wp_onSched, wp_ctlOf hctl, wp_bind, wp_get,
    if_pos hpending]
  simp only [stopFaulting, storeWord, wp_bind, wp_onSched, wp_setTask, wp_modify, wp_pure]
  exact ⟨trivial, rfl⟩

theorem wp_signalFault_registered {ctl : TaskCtl} {regs : Nat} (h0 : k.sched.current ≠ 0)
    (hctl : (k.sched.task k.sched.current).ctl = some ctl) (hpending : (k.signal k.sched.current).pendingSignal = 0)
    (hreg : Registered k k.sched.current) : wp (signalFault regs) E (fun stopped k' =>
      stopped = false ∧ ∃ k₁, k₁ = { k with
        signal := Function.update k.signal k.sched.current
          { k.signal k.sched.current with pendingSignal := sigsegv } } ∧ Entered k₁ k.sched.current k') k := by
  rw [signalFault, wp_bind, currentTask, wp_bind, wp_get, wp_pure, wp_bind, wp_onSched, wp_ctlOf hctl, wp_bind, wp_get,
    if_neg (not_not_intro hpending), wp_bind, setSignal, wp_modify, wp_bind]
  refine wp_imp (wp_enterSignal_registered h0 (by rw [hctl]; rfl) ((registered_update (by rfl) (by rfl)).mpr hreg)) ?_
  rintro r k' ⟨rfl, hentered⟩
  rw [if_neg (by decide), wp_pure]
  exact ⟨rfl, _, rfl, hentered⟩

theorem wp_sysSigreturn_pending (hcontext : (k.sched.current != 0 && (k.sched.task k.sched.current).ctl.isSome &&
      (k.signal k.sched.current).sigctx != 0) = true)
    (hpending : ((k.signal k.sched.current).pendingSignal != 0) = true) : wp sysSigreturn E
    (fun _ k' => k' = { k with
      sched := writeTask k.sched k.sched.current { k.sched.task k.sched.current with
        esp0 := mainFrame (k.signal k.sched.current) }
      signal := Function.update k.signal k.sched.current
        { k.signal k.sched.current with pendingSignal := 0 } }) k := by
  rw [sysSigreturn, wp_bind, currentTask, wp_bind, wp_get, wp_pure, wp_bind, wp_get, wp_bind, hcontext, wp_kassert]
  refine ⟨fun _ => ?_, nofun⟩
  rw [wp_bind, hpending, wp_kassert]
  refine ⟨fun _ => ?_, nofun⟩
  rw [wp_bind, setSignal, wp_modify, wp_bind, x86TaskExitSignal, wp_bind, wp_get, wp_bind, wp_kassert]
  dsimp only
  rw [Function.update_self]
  refine ⟨fun _ => ?_, fun hfail => ?_⟩
  · rw [wp_onSched, wp_setTask, wp_pure]
    rfl
  · rw [hcontext] at hfail
    cases hfail

theorem wp_sysSigreturn : wp sysSigreturn anyFault
    (fun _ k' => k' = { k with
      sched := writeTask k.sched k.sched.current { k.sched.task k.sched.current with
        esp0 := mainFrame (k.signal k.sched.current) }
      signal := Function.update k.signal k.sched.current
        { k.signal k.sched.current with pendingSignal := 0 } }) k := by
  by_cases hok : (k.sched.current != 0 && (k.sched.task k.sched.current).ctl.isSome &&
      (k.signal k.sched.current).sigctx != 0) = true ∧ ((k.signal k.sched.current).pendingSignal != 0) = true
  · exact wp_sysSigreturn_pending hok.1 hok.2
  · rw [sysSigreturn, wp_bind, currentTask, wp_bind, wp_get, wp_pure, wp_bind, wp_get, wp_bind, wp_kassert]
    refine ⟨fun hcontext => ?_, fun _ => trivial⟩
    rw [wp_bind, wp_kassert]
    exact ⟨fun hpending => absurd ⟨hcontext, hpending⟩ hok, fun _ => trivial⟩

theorem wp_sysSignal {sighandler : Nat} : wp (sysSignal 0 sighandler) anyFault
    (fun _ k' => k' = { k with
      signal := Function.update k.signal k.sched.current
        { k.signal k.sched.current with sigeip := sighandler, sigesp := 0x80001000 } }) k := by
  rw [sysSignal, wp_bind, wp_kassert]
  refine ⟨fun _ => ?_, fun _ => trivial⟩
  rw [wp_bind, currentTask, wp_bind, wp_get, wp_pure, wp_bind, wp_get, wp_bind, wp_kassert]
  refine ⟨fun _ => ?_, fun _ => trivial⟩
  rw [wp_bind, setSignal, wp_modify, wp_pure]

theorem wp_sysExit : wp sysExit E (fun _ k' => k' = { k with
    sched := writeTask k.sched k.sched.current { k.sched.task k.sched.current with
      flag := (k.sched.task k.sched.current).flag ||| taskFlgStop } }) k := by
  simp only [sysExit, currentTask, wp_bind, wp_get, wp_pure, wp_onSched, wp_setTask]
  rfl

theorem wp_taskBusy : wp (taskBusy t) E (fun _ k' => k' = { k with
    sched := writeTask k.sched t { k.sched.task t with flag := (k.sched.task t).flag ||| taskFlgBusy } }) k := by
  simp only [taskBusy, wp_onSched, wp_setTask]
  rfl

theorem wp_taskNobusy : wp (taskNobusy t) E (fun _ k' => k' = { k with
    sched := writeTask k.sched t { k.sched.task t with flag := (k.sched.task t).flag &&& ~~~taskFlgBusy } }) k := by
  simp only [taskNobusy, wp_onSched, wp_setTask]
  rfl

theorem wp_setFiles {ctl : TaskCtl} {fds : List Nat} (hctl : (k.sched.task k.sched.current).ctl = some ctl) :
    wp (setFiles fds) E (fun _ k' => k' = { k with
      sched := writeTask k.sched k.sched.current { k.sched.task k.sched.current with
        ctl := some { ctl with fds := fds } } }) k := by
  rw [setFiles, wp_bind, currentTask, wp_bind, wp_get, wp_pure, wp_bind, wp_onSched, wp_ctlOf hctl, wp_onSched, wp_setTask]
  rfl

end Parts

end YggKernel.Task
