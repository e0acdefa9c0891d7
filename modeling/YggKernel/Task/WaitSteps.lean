import YggKernel.Task.Waiting

namespace YggKernel.Task

open Lib.Program Lib.BitWords Lib.ByteMemory Lib.Chains Lib.Runs

def Matches (s : Sched) (x : Nat) : Wait → Prop
  | .pid p => (s.task x).waitType = taskWaitPid ∧ ∃ ctl, (s.task x).ctl = some ctl ∧ u32 ctl.sleepDeadline = p
  | .sleep d => (s.task x).waitType = taskWaitSleep ∧ ∃ ctl, (s.task x).ctl = some ctl ∧ ctl.sleepDeadline = d

structure WaitInv (idle : Nat) (s : WaitState) : Prop where
  sched : SchedInv idle s.kernel.sched s.tasks
  idle_ctl : (s.kernel.sched.task idle).ctl = none
  frame : ∀ x ∈ s.tasks, x ≠ idle → s.handling x = false →
    (s.kernel.sched.task x).esp0 = mainFrame (s.kernel.signal x)
  apart : ∀ x ∈ s.tasks, x ≠ idle → (s.kernel.signal x).sigctx ≠ 0 →
    Apart (s.kernel.signal x).sigctx (mainFrame (s.kernel.signal x))
  began : ∀ x ∈ s.tasks, hasFlag s.kernel.sched taskFlgWait x = true →
    ∃ w, s.began x = some w ∧ Matches s.kernel.sched x w
  pids : s.enabled < 2 ^ 31 → s.kernel.sched.lastPid = s.enabled ∧
    (s.tasks.map (pidOf s.kernel.sched)).Nodup ∧ ∀ x ∈ s.tasks, pidOf s.kernel.sched x ≤ s.enabled

/-- Why a step may wake up a task: the process it waits for is gone from the list, its deadline has
come, or it gets a signal, and then the call it blocked in fails. -/
inductive WokenBy (s : WaitState) (op : TaskOp) (t : WaitState) (x : Nat) : Prop
  | pid (p : Nat) (hbegan : s.began x = some (.pid p)) (hop : op = .switch) (pre post : List Nat)
      (hsplit : s.tasks = pre ++ x :: post)
      (hgone : ∀ y ∈ alive s.kernel.sched pre ++ x :: post, pidOf s.kernel.sched y ≠ p)
  | sleep (d : Nat) (hbegan : s.began x = some (.sleep d)) (hop : op = .switch)
      (htime : d ≤ s.kernel.sched.systime)
  | signal (hreg : Registered s.kernel x)
      (hop : (∃ pid sig, op = .kill pid sig ∧ pidOf s.kernel.sched x = pid) ∨
        (∃ regs, op = .fault regs) ∧ x = s.kernel.sched.current)
      (heax : s.handling x = false → load32 t.kernel.mem (mainFrame (t.kernel.signal x) + offEax) = 0xFFFFFFFF)

structure Wrote (idle : Nat) (s : WaitState) (op : TaskOp) (t : WaitState) (x : Nat) (task : X86Task) : Prop where
  mem : x ∈ s.tasks
  ne : x ≠ idle
  ok : MarkOk idle s.kernel.sched x task
  sched : t.kernel.sched = writeTask s.kernel.sched x task
  tasks : t.tasks = s.tasks ∧ t.enabled = s.enabled
  other : ∀ y, y ≠ x → t.kernel.signal y = s.kernel.signal y ∧ t.handling y = s.handling y ∧ t.began y = s.began y
  pid : task.ctl.map TaskCtl.pid = (s.kernel.sched.task x).ctl.map TaskCtl.pid
  frame : t.handling x = false → task.esp0 = mainFrame (t.kernel.signal x)
  apart : (t.kernel.signal x).sigctx ≠ 0 → Apart (t.kernel.signal x).sigctx (mainFrame (t.kernel.signal x))
  began : task.flag &&& taskFlgWait ≠ 0#32 → ∃ w, t.began x = some w ∧ Matches t.kernel.sched x w
  cleared : hasFlag s.kernel.sched taskFlgWait x = true → task.flag &&& taskFlgWait = 0#32 → WokenBy s op t x

section Writes

variable {idle x : Nat} {s t : WaitState} {op : TaskOp} {task : X86Task}

theorem Matches.of_same {s t : Sched} {x : Nat} {w : Wait} (h : Matches s x w)
    (htype : (t.task x).waitType = (s.task x).waitType) (hctl : (t.task x).ctl = (s.task x).ctl) : Matches t x w := by
  cases w with
  | pid p => exact ⟨htype.trans h.1, hctl ▸ h.2⟩
  | sleep d => exact ⟨htype.trans h.1, hctl ▸ h.2⟩

theorem writeTask_self (s : Sched) (x : Nat) (task : X86Task) : (writeTask s x task).task x = task :=
  Function.update_self ..

theorem writeTask_of_ne (s : Sched) {x y : Nat} (task : X86Task) (h : y ≠ x) : (writeTask s x task).task y = s.task y :=
  Function.update_of_ne h ..

theorem Wrote.pidOf (hw : Wrote idle s op t x task) : pidOf t.kernel.sched = pidOf s.kernel.sched := by
  funext y
  rw [hw.sched, Task.pidOf, Task.pidOf]
  by_cases hyx : y = x
  · rw [hyx, writeTask_self, hw.pid]
  · rw [writeTask_of_ne _ _ hyx]

theorem Wrote.inv (h : WaitInv idle s) (hw : Wrote idle s op t x task) : WaitInv idle t := by
  have hself : t.kernel.sched.task x = task := by rw [hw.sched, writeTask_self]
  have hother : ∀ y, y ≠ x → t.kernel.sched.task y = s.kernel.sched.task y := fun y hy => by
    rw [hw.sched, writeTask_of_ne _ _ hy]
  refine ⟨?_, (hother idle hw.ne.symm).symm ▸ h.idle_ctl, fun y hy hne hfree => ?_, fun y hy hne hctx => ?_,
    fun y hy hwait => ?_, fun hlt => ?_⟩
  · rw [hw.sched, hw.tasks.1]
    exact inv_mark h.sched hw.ok
  · rw [hw.tasks.1] at hy
    by_cases hyx : y = x
    · rw [hyx] at hfree ⊢
      rw [hself]
      exact hw.frame hfree
    · obtain ⟨hsig, hhand, -⟩ := hw.other y hyx
      rw [hother y hyx, hsig]
      exact h.frame y hy hne (hhand ▸ hfree)
  · rw [hw.tasks.1] at hy
    by_cases hyx : y = x
    · rw [hyx] at hctx ⊢
      exact hw.apart hctx
    · rw [(hw.other y hyx).1] at hctx ⊢
      exact h.apart y hy hne hctx
  · rw [hw.tasks.1] at hy
    by_cases hyx : y = x
    · rw [hyx] at hwait ⊢
      exact hw.began (hself ▸ hasFlag_self.mp hwait)
    · have hsame : hasFlag s.kernel.sched taskFlgWait y = true := by
        rw [hasFlag, ← hother y hyx]
        exact hwait
      obtain ⟨w, hbegan, hmatch⟩ := h.began y hy hsame
      refine ⟨w, (hw.other y hyx).2.2.trans hbegan, hmatch.of_same ?_ ?_⟩ <;> rw [hother y hyx]
  · rw [hw.tasks.2] at hlt ⊢
    obtain ⟨hlast, hpids⟩ := h.pids hlt
    rw [hw.pidOf, hw.tasks.1]
    exact ⟨by rw [hw.sched]; exact hlast, hpids⟩

theorem Wrote.woken (hw : Wrote idle s op t x task) {y : Nat}
    (hwait : hasFlag s.kernel.sched taskFlgWait y = true) (hwoken : hasFlag t.kernel.sched taskFlgWait y = false) :
    WokenBy s op t y := by
  rw [hw.sched] at hwoken
  by_cases hyx : y = x
  · rw [hyx] at hwait hwoken ⊢
    rw [hasFlag_eq_false, writeTask_self] at hwoken
    exact hw.cleared hwait hwoken
  · rw [hasFlag, writeTask_of_ne _ _ hyx] at hwoken
    rw [hasFlag, hwoken] at hwait
    cases hwait

theorem markOk_current {s : Sched} {task : X86Task} (hne : s.current ≠ idle) (hnext : task.next = (s.task s.current).next)
    (hctl : task.ctl.isSome) : MarkOk idle s s.current task :=
  ⟨hnext, fun _ => hctl, fun h => absurd h hne, fun h => absurd rfl h⟩

/-- No task but the current one is stopped or running, also after a flag was cleared. -/
theorem markOk_clear {s : Sched} {l : List Nat} {task : X86Task} {j : Nat} (h : SchedInv idle s l) (hmem : x ∈ l)
    (hne : x ≠ idle) (hnext : task.next = (s.task x).next) (hctl : task.ctl = (s.task x).ctl)
    (hflag : task.flag = (s.task x).flag &&& ~~~mask j) : MarkOk idle s x task := by
  refine ⟨hnext, fun _ => hctl ▸ h.ctl x hmem hne, fun he => absurd he hne, fun hother => ?_⟩
  obtain ⟨hstop, hrunning⟩ := h.others x hmem hother
  rw [hasFlag_eq_false] at hstop hrunning
  rw [hflag, taskFlgStop, taskFlgRunning, and_not_and, and_not_and]
  refine ⟨?_, ?_⟩
  · split
    · rfl
    · exact hstop
  · split
    · rfl
    · exact hrunning

theorem markOk_same {s : Sched} {l : List Nat} (h : SchedInv idle s l) (hmem : x ∈ l) (hne : x ≠ idle) :
    MarkOk idle s x (s.task x) := by
  refine ⟨rfl, fun _ => h.ctl x hmem hne, fun he => absurd he hne, fun hother => ?_⟩
  obtain ⟨hstop, hrunning⟩ := h.others x hmem hother
  exact ⟨hasFlag_eq_false.mp hstop, hasFlag_eq_false.mp hrunning⟩

theorem WaitInv.caller (h : WaitInv idle s) (hne : s.kernel.sched.current ≠ idle) :
    ∃ ctl, (s.kernel.sched.task s.kernel.sched.current).ctl = some ctl :=
  Option.isSome_iff_exists.mp (h.sched.ctl _ h.sched.current hne)

theorem u32_signExtend {p : Nat} (h : p < 4294967296) : u32 ((BitVec.ofNat 32 p).signExtend 64).toNat = p := by
  rw [BitVec.toNat_signExtend, BitVec.toNat_setWidth, BitVec.toNat_ofNat, Nat.mod_eq_of_lt h]
  unfold u32
  split <;> omega

end Writes

section Calls

variable {idle : Nat} {s : WaitState} {k : Kernel}

/-- A step that changes a task but neither its frames nor what it waits for. -/
theorem wrote_plain {op : TaskOp} {x : Nat} {task : X86Task} {g : TaskSignal} (h : WaitInv idle s) (hmem : x ∈ s.tasks)
    (hne : x ≠ idle) (hok : MarkOk idle s.kernel.sched x task) (hk : k.sched = writeTask s.kernel.sched x task)
    (hg : k.signal = Function.update s.kernel.signal x g)
    (hold : task.esp0 = (s.kernel.sched.task x).esp0 ∧ task.waitType = (s.kernel.sched.task x).waitType)
    (hctl : task.ctl.map (fun c => (c.pid, c.sleepDeadline)) =
      (s.kernel.sched.task x).ctl.map fun c => (c.pid, c.sleepDeadline))
    (hflag : task.flag &&& taskFlgWait = (s.kernel.sched.task x).flag &&& taskFlgWait)
    (hebp : g.ebp0 = (s.kernel.signal x).ebp0) (hapart : g.sigctx ≠ 0 → Apart g.sigctx (mainFrame g)) :
    Wrote idle s op { s with kernel := k } x task := by
  have hmain : mainFrame g = mainFrame (s.kernel.signal x) := by
    unfold mainFrame
    rw [hebp]
  refine ⟨hmem, hne, hok, hk, ⟨rfl, rfl⟩, fun y hy => ⟨?_, rfl, rfl⟩, ?_, fun hfree => ?_,
    fun hctx => ?_, fun hwait => ?_, fun hwait hclear => ?_⟩
  · rw [hg, Function.update_of_ne hy]
  · have := congrArg (Option.map Prod.fst) hctl
    simpa [Option.map_map, Function.comp_def] using this
  · rw [hg, Function.update_self, hmain, hold.1]
    exact h.frame _ hmem hne hfree
  · rw [hg, Function.update_self] at hctx ⊢
    exact hapart hctx
  · rw [hflag] at hwait
    obtain ⟨w, hbegan, hmatch⟩ := h.began _ hmem (hasFlag_self.mpr hwait)
    refine ⟨w, hbegan, ?_⟩
    rw [hk]
    have hdeadline := congrArg (Option.map Prod.snd) hctl
    simp only [Option.map_map, Function.comp_def] at hdeadline
    cases w with
    | pid p =>
      obtain ⟨htype, ctl, hsome, hp⟩ := hmatch
      rw [hsome] at hdeadline
      obtain ⟨c, hc, hcd⟩ := Option.map_eq_some_iff.mp hdeadline
      exact ⟨by rw [writeTask_self, hold.2, htype], c, by rw [writeTask_self, hc], (congrArg u32 hcd).trans hp⟩
    | sleep d =>
      obtain ⟨htype, ctl, hsome, hd⟩ := hmatch
      rw [hsome] at hdeadline
      obtain ⟨c, hc, hcd⟩ := Option.map_eq_some_iff.mp hdeadline
      exact ⟨by rw [writeTask_self, hold.2, htype], c, by rw [writeTask_self, hc], hcd.trans hd⟩
  · rw [hflag] at hclear
    exact absurd hclear (hasFlag_self.mp hwait)

theorem wrote_waitpid {pid : Nat} (h : WaitInv idle s) (hne : s.kernel.sched.current ≠ idle) (hpid : pid < 4294967296)
    (hrun : blockOnPid pid s.kernel = .ok ((), k)) :
    ∃ task, Wrote idle s (.waitpid pid) { s with
      kernel := k, began := Function.update s.began s.kernel.sched.current (some (.pid pid)) }
      s.kernel.sched.current task := by
  obtain ⟨ctl, hctl⟩ := h.caller hne
  obtain rfl := of_run (wp_blockOnPid (E := anyFault) hctl) hrun
  refine ⟨_, h.sched.current, hne, markOk_current hne ?_ ?_, rfl, ⟨rfl, rfl⟩,
    fun y hy => ⟨rfl, rfl, Function.update_of_ne hy ..⟩, ?_, h.frame _ h.sched.current hne,
    h.apart _ h.sched.current hne, fun _ => ⟨.pid pid, Function.update_self .., ?_⟩, fun _ hclear => ?_⟩
  · rfl
  · rfl
  · rw [hctl, Option.map_some, Option.map_some]
  · exact ⟨by rw [writeTask_self], _, by rw [writeTask_self], u32_signExtend hpid⟩
  · have hset : taskFlgWait &&& taskFlgWait ≠ 0#32 := by decide
    exact absurd hclear hset

theorem wrote_nanosleep {sec nsec : Nat} (h : WaitInv idle s) (hne : s.kernel.sched.current ≠ idle)
    (hrun : blockOnTime sec nsec s.kernel = .ok ((), k)) :
    ∃ task, Wrote idle s (.nanosleep sec nsec) { s with
      kernel := k
      began := Function.update s.began s.kernel.sched.current
        (some (.sleep (deadline sec nsec s.kernel.sched.systime))) } s.kernel.sched.current task := by
  obtain ⟨ctl, hctl⟩ := h.caller hne
  obtain rfl := of_run (wp_blockOnTime (E := anyFault) hctl) hrun
  refine ⟨_, h.sched.current, hne, markOk_current hne ?_ ?_, rfl, ⟨rfl, rfl⟩,
    fun y hy => ⟨rfl, rfl, Function.update_of_ne hy ..⟩, ?_, h.frame _ h.sched.current hne,
    h.apart _ h.sched.current hne, fun _ => ⟨.sleep _, Function.update_self .., ?_⟩, fun hwait hclear => ?_⟩
  · rfl
  · rfl
  · rw [hctl, Option.map_some, Option.map_some]
  · exact ⟨by rw [writeTask_self], _, by rw [writeTask_self], rfl⟩
  · dsimp only at hclear
    rw [taskFlgWait, and_mask_eq_zero _ (by decide), getLsbD_or_mask _ _ (by decide)] at hclear
    simp at hclear

theorem wrote_entered {op : TaskOp} {x : Nat} {g : TaskSignal} {k₁ : Kernel} (h : WaitInv idle s) (hmem : x ∈ s.tasks)
    (hne : x ≠ idle) (hsig : g.sigctx = (s.kernel.signal x).sigctx ∧ g.ebp0 = (s.kernel.signal x).ebp0 ∧
      g.sigeip = (s.kernel.signal x).sigeip)
    (hk₁ : k₁ = { s.kernel with signal := Function.update s.kernel.signal x g }) (hentered : Entered k₁ x k)
    (hop : (∃ pid sig, op = .kill pid sig ∧ pidOf s.kernel.sched x = pid) ∨
      (∃ regs, op = .fault regs) ∧ x = s.kernel.sched.current) :
    ∃ task, Wrote idle s op { s with kernel := k, handling := s.handled x } x task := by
  have hself : k₁.signal x = g := by rw [hk₁]; exact Function.update_self ..
  have hsched : k₁.sched = s.kernel.sched := by rw [hk₁]
  have hmain : mainFrame g = mainFrame (s.kernel.signal x) := by
    unfold mainFrame
    rw [hsig.2.1]
  have hreg : Registered s.kernel x := by
    have := hentered.registered
    unfold Registered at this ⊢
    rwa [hself, hsig.1, hsig.2.2] at this
  have hhandled : s.handled x = Function.update s.handling x true := if_pos hreg
  have hctx := h.apart x hmem hne hreg.1
  have hstate := hentered.state
  rw [hself, hsched] at hstate
  have hclear : ((s.kernel.sched.task x).flag &&& ~~~taskFlgWait) &&& taskFlgWait = 0#32 :=
    (and_not_and).trans (if_pos rfl)
  refine ⟨{ s.kernel.sched.task x with
    flag := (s.kernel.sched.task x).flag &&& ~~~taskFlgWait, esp0 := (s.kernel.signal x).sigctx }, hmem, hne,
    markOk_clear h.sched hmem hne rfl rfl rfl, ?_, ⟨rfl, rfl⟩,
    fun y hy => ⟨?_, ?_, rfl⟩, rfl, fun hfree => ?_, fun _ => ?_, fun hwait => absurd hclear hwait,
    fun hwait _ => .signal hreg hop fun hfree => ?_⟩
  · rw [hstate, hsig.1]
  · rw [hstate, hk₁]
    exact Function.update_of_ne hy ..
  · dsimp only
    rw [hhandled, Function.update_of_ne hy]
  · dsimp only at hfree
    rw [hhandled, Function.update_self] at hfree
    cases hfree
  · rw [hstate]
    dsimp only
    rw [hself, hmain, hsig.1]
    exact hctx
  · have hesp0 := h.frame x hmem hne hfree
    rw [hstate]
    dsimp only
    rw [hself, hmain, if_pos hwait, hk₁, ← hesp0]
    have houtside : ∀ a, (s.kernel.sched.task x).esp0 + offEax ≤ a → a < (s.kernel.sched.task x).esp0 + offEax + 4 →
        a < g.sigctx ∨ g.sigctx + 72 ≤ a := by
      unfold Apart frameSize at hctx
      unfold offEax
      rw [hsig.1]
      omega
    rw [load32_congr fun a h1 h2 => handlerContext_apply_of_outside (houtside a h1 h2)]
    exact load32_store32 (by decide)

theorem wrote_kill {pid sig x : Nat} {r : Int} (h : WaitInv idle s)
    (hfind : taskByPid pid s.kernel.sched = .ok (x, s.kernel.sched)) (hrun : sysKill pid sig s.kernel = .ok (r, k)) :
    let t := { s with kernel := k, handling := if x = 0 then s.handling else s.handled x }
    t = s ∨ ∃ task, Wrote idle s (.kill pid sig) t x task := by
  obtain ⟨hpid, hcase⟩ := of_run (wp_sysKill hfind) hrun
  rcases hcase with ⟨hx, rfl⟩ | ⟨hx, hctl, k₁, hk₁, hcase⟩
  · refine .inl ?_
    rw [if_pos hx]
  · have hne : x ≠ idle := by
      rintro rfl
      rw [h.idle_ctl] at hctl
      cases hctl
    obtain ⟨-, hwhere⟩ := of_run (h.sched.find pid) hfind
    obtain ⟨hmem, hpidx⟩ : x ∈ s.tasks ∧ pidOf s.kernel.sched x = pid := by
      rcases hwhere with ⟨h0, -⟩ | hin
      · exact absurd h0 hx
      · exact hin
    rw [if_neg hx]
    rcases hcase with hentered | ⟨hreg, rfl⟩
    · have hsame : ∀ g : TaskSignal, g = { s.kernel.signal x with pendingSignal := sig } →
          g.sigctx = (s.kernel.signal x).sigctx ∧ g.ebp0 = (s.kernel.signal x).ebp0 ∧
            g.sigeip = (s.kernel.signal x).sigeip := by
        rintro g rfl
        exact ⟨rfl, rfl, rfl⟩
      exact .inr (wrote_entered h hmem hne (hsame _ rfl) hk₁ hentered (.inl ⟨pid, sig, rfl, hpidx⟩))
    · have hreg' : ¬Registered s.kernel x := by
        rw [hk₁, registered_update (by rfl) (by rfl)] at hreg
        exact hreg
      have hhandled : s.handled x = s.handling := if_neg hreg'
      rw [hhandled, hk₁]
      refine .inr ⟨_, wrote_plain h hmem hne (markOk_same h.sched hmem hne) ?_ rfl ⟨rfl, rfl⟩ rfl rfl rfl
        (h.apart x hmem hne)⟩
      rw [writeTask, Function.update_eq_self]

theorem wrote_fault {regs : Nat} {stopped : Bool} (h : WaitInv idle s) (hne : s.kernel.sched.current ≠ idle)
    (hrun : signalFault regs s.kernel = .ok (stopped, k)) :
    ∃ task, Wrote idle s (.fault regs) { s with
      kernel := k, handling := if stopped then s.handling else s.handled s.kernel.sched.current }
      s.kernel.sched.current task := by
  obtain ⟨ctl, hctl⟩ := h.caller hne
  obtain ⟨g, hctx, hebp, heip, k₁, hk₁, hcase⟩ := of_run (wp_signalFault hctl) hrun
  have hmem := h.sched.current
  cases stopped with
  | true =>
    rw [if_pos rfl] at hcase ⊢
    obtain rfl := hcase
    refine ⟨_, wrote_plain h hmem hne (markOk_current hne ?_ ?_) rfl (congrArg Kernel.signal hk₁) ⟨rfl, rfl⟩ rfl ?_ hebp
      fun hnull => ?_⟩
    · rfl
    · exact h.sched.ctl _ hmem hne
    · exact or_and_of_ne (by decide)
    · have hapart := h.apart _ hmem hne (hctx ▸ hnull)
      unfold mainFrame at hapart ⊢
      rwa [hctx, hebp]
  | false =>
    rw [if_neg (by decide)] at hcase ⊢
    exact wrote_entered h hmem hne ⟨hctx, hebp, heip⟩ hk₁ hcase (.inr ⟨⟨regs, rfl⟩, rfl⟩)

theorem wrote_sigreturn {r : Int} (h : WaitInv idle s) (hne : s.kernel.sched.current ≠ idle)
    (hrun : sysSigreturn s.kernel = .ok (r, k)) :
    ∃ task, Wrote idle s .sigreturn { s with
      kernel := k, handling := Function.update s.handling s.kernel.sched.current false }
      s.kernel.sched.current task := by
  obtain rfl := of_run wp_sysSigreturn hrun
  have hmem := h.sched.current
  refine ⟨_, hmem, hne, markOk_current hne ?_ ?_, rfl, ⟨rfl, rfl⟩,
    fun y hy => ⟨Function.update_of_ne hy .., Function.update_of_ne hy .., rfl⟩, rfl, fun _ => ?_, fun hctx => ?_,
    fun hwait => ?_, fun hwait hclear => absurd hclear (hasFlag_self.mp hwait)⟩
  · rfl
  · exact h.sched.ctl _ hmem hne
  · dsimp only
    rw [Function.update_self]
    rfl
  · dsimp only at hctx ⊢
    rw [Function.update_self] at hctx ⊢
    exact h.apart _ hmem hne hctx
  · obtain ⟨w, hbegan, hmatch⟩ := h.began _ hmem (hasFlag_self.mpr hwait)
    exact ⟨w, hbegan, hmatch.of_same (by rw [writeTask_self]) (by rw [writeTask_self])⟩

theorem wrote_current {op : TaskOp} {task : X86Task} {g : TaskSignal} (h : WaitInv idle s)
    (hne : s.kernel.sched.current ≠ idle)
    (hk : k.sched = writeTask s.kernel.sched s.kernel.sched.current task)
    (hg : k.signal = Function.update s.kernel.signal s.kernel.sched.current g)
    (hold : task.esp0 = (s.kernel.sched.task s.kernel.sched.current).esp0 ∧
      task.waitType = (s.kernel.sched.task s.kernel.sched.current).waitType)
    (hnext : task.next = (s.kernel.sched.task s.kernel.sched.current).next)
    (hctl : task.ctl.map (fun c => (c.pid, c.sleepDeadline)) =
      (s.kernel.sched.task s.kernel.sched.current).ctl.map fun c => (c.pid, c.sleepDeadline))
    (hflag : task.flag &&& taskFlgWait = (s.kernel.sched.task s.kernel.sched.current).flag &&& taskFlgWait)
    (hebp : g.ebp0 = (s.kernel.signal s.kernel.sched.current).ebp0)
    (hapart : g.sigctx ≠ 0 → Apart g.sigctx (mainFrame g)) :
    ∃ x task, Wrote idle s op { s with kernel := k } x task := by
  have hsome : task.ctl.isSome := by
    have := h.sched.ctl _ h.sched.current hne
    rw [← Option.isSome_map, ← hctl, Option.isSome_map] at this
    exact this
  exact ⟨_, _, wrote_plain h h.sched.current hne (markOk_current hne hnext hsome) hk hg hold hctl hflag hebp hapart⟩

/-- Every step writes one task or none, or is a switch, a tick, or a new task. -/
theorem step_wrote {op : TaskOp} {t : WaitState} (h : WaitInv idle s) (hstep : WaitStep idle s op t) :
    (∃ x task, Wrote idle s op t x task) ∨ t = s ∨ (∃ time, op = .tick time) ∨ op = .switch ∨
      ∃ x task g, op = .enable x task g := by
  have hapart := h.apart _ h.sched.current
  have hkept : ∀ k : Kernel, k.signal = Function.update k.signal s.kernel.sched.current (k.signal s.kernel.sched.current) :=
    fun k => (Function.update_eq_self _ _).symm
  cases hstep with
  | enable => exact .inr (.inr (.inr (.inr ⟨_, _, _, rfl⟩)))
  | waitpid hne hpid hrun => exact .inl ⟨_, wrote_waitpid h hne hpid hrun⟩
  | nanosleep hne hrun => exact .inl ⟨_, wrote_nanosleep h hne hrun⟩
  | kill hfind hrun =>
    rcases wrote_kill h hfind hrun with hsame | hwrote
    · exact .inr (.inl hsame)
    · exact .inl ⟨_, hwrote⟩
  | fault hne hrun => exact .inl ⟨_, wrote_fault h hne hrun⟩
  | sigreturn hne hrun => exact .inl ⟨_, wrote_sigreturn h hne hrun⟩
  | exit hne hrun =>
    obtain rfl := of_run (wp_sysExit (E := anyFault)) hrun
    exact .inl (wrote_current h hne rfl (hkept _) ⟨rfl, rfl⟩ rfl rfl (or_and_of_ne (by decide)) rfl (hapart hne))
  | signal hne hrun =>
    obtain rfl := of_run wp_sysSignal hrun
    refine .inl (wrote_current h hne ?_ rfl ⟨rfl, rfl⟩ rfl rfl rfl rfl (hapart hne))
    rw [writeTask, Function.update_eq_self]
  | execve hne hfresh hrun =>
    obtain rfl := Except.ok.inj hrun |> congrArg Prod.snd
    refine .inl (wrote_current h hne ?_ rfl ⟨rfl, rfl⟩ rfl rfl rfl rfl fun _ => hfresh)
    rw [writeTask, Function.update_eq_self]
  | files hne hrun =>
    obtain ⟨ctl, hctl⟩ := h.caller hne
    obtain rfl := of_run (wp_setFiles (E := anyFault) hctl) hrun
    refine .inl (wrote_current h hne rfl (hkept _) ⟨rfl, rfl⟩ rfl ?_ rfl rfl (hapart hne))
    rw [hctl, Option.map_some, Option.map_some]
  | busy hne hrun =>
    obtain rfl := of_run (wp_taskBusy (E := anyFault)) hrun
    exact .inl (wrote_current h hne rfl (hkept _) ⟨rfl, rfl⟩ rfl rfl (or_and_of_ne (by decide)) rfl (hapart hne))
  | @nobusy k x hmem hne hrun =>
    obtain rfl := of_run (wp_taskNobusy (E := anyFault)) hrun
    have hkeep : ((s.kernel.sched.task x).flag &&& ~~~taskFlgBusy) &&& taskFlgWait =
        (s.kernel.sched.task x).flag &&& taskFlgWait := and_not_and.trans (if_neg (by decide))
    have hok : MarkOk idle s.kernel.sched x { s.kernel.sched.task x with
        flag := (s.kernel.sched.task x).flag &&& ~~~taskFlgBusy } := markOk_clear h.sched hmem hne rfl rfl rfl
    exact .inl ⟨x, _, wrote_plain h hmem hne hok rfl (Function.update_eq_self _ _).symm ⟨rfl, rfl⟩ rfl hkeep rfl
      (h.apart x hmem hne)⟩
  | tick => exact .inr (.inr (.inl ⟨_, rfl⟩))
  | switch => exact .inr (.inr (.inr (.inl rfl)))

end Calls

end YggKernel.Task
