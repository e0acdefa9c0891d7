import YggKernel.Task.WakeUps

namespace YggKernel.Task

open Lib.Program Lib.BitWords Lib.ByteMemory Lib.Runs

/-- A run of the tasks, with the tasks that execute the code of a handler: their own, or after a
`task_fork` in a handler the copy of their parent's. -/
structure SignalState where
  wait : WaitState
  code : Nat → Bool

inductive SignalOp
  | fork (t : Nat) (task : X86Task) (g : TaskSignal)
  | fexecve (t : Nat) (task : X86Task) (g : TaskSignal)
  | call (op : TaskOp)

/-- The steps with a definition of their own. -/
def CreatesTask : TaskOp → Prop
  | .enable .. | .execve _ => True
  | _ => False

def codeAfter (s : SignalState) (op : TaskOp) (t : WaitState) : Nat → Bool :=
  match op with
  | .sigreturn => Function.update s.code s.wait.kernel.sched.current false
  | _ => fun x => s.code x || t.handling x

/-- A control structure is created with all fields zero, and `task_fork` allocates no context for
signals, but resumes the child where its parent is. -/
inductive SignalStep (idle : Nat) : SignalState → SignalOp → SignalState → Prop
  | fork {s : SignalState} {t : WaitState} {x : Nat} {task : X86Task} {g : TaskSignal} :
      s.wait.kernel.sched.current ≠ idle → WaitStep idle s.wait (.enable x task g) t →
      g.pendingSignal = 0 → g.sigctx = 0 →
      SignalStep idle s (.fork x task g) ⟨t, Function.update s.code x (s.code s.wait.kernel.sched.current)⟩
  | fexecve {s : SignalState} {t : WaitState} {x : Nat} {task : X86Task} {g : TaskSignal} :
      WaitStep idle s.wait (.enable x task g) t → g.pendingSignal = 0 →
      SignalStep idle s (.fexecve x task g) ⟨t, Function.update s.code x false⟩
  | call {s : SignalState} {t : WaitState} {op : TaskOp} : ¬CreatesTask op → WaitStep idle s.wait op t →
      SignalStep idle s (.call op) ⟨t, codeAfter s op t⟩

def InHandler (k : Kernel) (x : Nat) : Prop :=
  (k.signal x).sigctx ≠ 0 ∧ (k.sched.task x).esp0 = (k.signal x).sigctx

instance (k : Kernel) (x : Nat) : Decidable (InHandler k x) := inferInstanceAs (Decidable (_ ∧ _))

/-- The number of a signal that is sent is zero only where the signal changes nothing; a fault that
does not come in a handler finds one; and no handler forks. -/
def SignalsDelivered (s : SignalState) : SignalOp → SignalState → Prop
  | .fork .., _ => s.code s.wait.kernel.sched.current = false
  | .fexecve .., _ => True
  | .call (.kill pid sig), _ => ∀ x, taskByPid pid s.wait.kernel.sched = .ok (x, s.wait.kernel.sched) → x ≠ 0 →
      (sig ≠ 0 ↔ Registered s.wait.kernel x ∨ InHandler s.wait.kernel x)
  | .call (.fault _), _ => (s.wait.kernel.signal s.wait.kernel.sched.current).pendingSignal ≠ 0 ∨
      Registered s.wait.kernel s.wait.kernel.sched.current
  | .call _, _ => True

structure HandlerInv (idle : Nat) (s : SignalState) : Prop where
  wait : WaitInv idle s.wait
  pending : ∀ x ∈ s.wait.tasks, x ≠ idle →
    ((s.wait.kernel.signal x).pendingSignal ≠ 0 ↔ InHandler s.wait.kernel x)
  code : ∀ x ∈ s.wait.tasks, x ≠ idle → (s.code x = true ↔ InHandler s.wait.kernel x)
  handling : ∀ x, s.wait.handling x = true → s.code x = true

section Contexts

variable {idle x : Nat} {k k' : Kernel}

structure SameContext (k k' : Kernel) (x : Nat) : Prop where
  pending : (k'.signal x).pendingSignal = (k.signal x).pendingSignal
  sigctx : (k'.signal x).sigctx = (k.signal x).sigctx
  esp0 : (k'.sched.task x).esp0 = (k.sched.task x).esp0

theorem SameContext.inHandler (h : SameContext k k' x) : InHandler k' x ↔ InHandler k x := by
  unfold InHandler
  rw [h.sigctx, h.esp0]

theorem sameContext_write {task : X86Task} {y : Nat} (hsched : k'.sched = writeTask k.sched y task)
    (hesp0 : task.esp0 = (k.sched.task y).esp0) (hsignal : k'.signal = k.signal) (x : Nat) : SameContext k k' x := by
  refine ⟨by rw [hsignal], by rw [hsignal], ?_⟩
  rw [hsched]
  exact update_field X86Task.esp0 hesp0 x

theorem sameContext_of_ne {task : X86Task} {g : TaskSignal} {y : Nat} (hsched : k'.sched = writeTask k.sched y task)
    (hsignal : k'.signal = Function.update k.signal y g) (hne : x ≠ y) : SameContext k k' x := by
  refine ⟨?_, ?_, ?_⟩
  · rw [hsignal, Function.update_of_ne hne]
  · rw [hsignal, Function.update_of_ne hne]
  · rw [hsched, writeTask_of_ne _ _ hne]

theorem Apart.ne {f g : Nat} (h : Apart f g) : f ≠ g := by
  unfold Apart frameSize at h
  omega

theorem not_inHandler (hesp0 : (k.sched.task x).esp0 = mainFrame (k.signal x))
    (hapart : (k.signal x).sigctx ≠ 0 → Apart (k.signal x).sigctx (mainFrame (k.signal x))) : ¬InHandler k x := by
  rintro ⟨hctx, hin⟩
  exact (hapart hctx).ne (hin.symm.trans hesp0)

/-- The steps that neither signal a task nor return from a handler. -/
def Quiet : TaskOp → Prop
  | .enable .. | .execve _ | .kill .. | .fault _ | .sigreturn => False
  | _ => True

theorem quiet_step {s t : WaitState} {op : TaskOp} (h : WaitInv idle s) (hstep : WaitStep idle s op t) (hop : Quiet op) :
    (∀ x, SameContext s.kernel t.kernel x) ∧ (∀ x ∈ t.tasks, x ∈ s.tasks) ∧ t.handling = s.handling := by
  have hall : ∀ x ∈ s.tasks, x ∈ s.tasks := fun _ hx => hx
  cases hstep with
  | enable | execve | kill | fault | sigreturn => exact hop.elim
  | waitpid hne _ hrun =>
    obtain ⟨ctl, hctl⟩ := h.caller hne
    obtain rfl := of_run (wp_blockOnPid (E := anyFault) hctl) hrun
    exact ⟨sameContext_write rfl rfl rfl, hall, rfl⟩
  | nanosleep hne hrun =>
    obtain ⟨ctl, hctl⟩ := h.caller hne
    obtain rfl := of_run (wp_blockOnTime (E := anyFault) hctl) hrun
    exact ⟨sameContext_write rfl rfl rfl, hall, rfl⟩
  | exit _ hrun =>
    obtain rfl := of_run (wp_sysExit (E := anyFault)) hrun
    exact ⟨sameContext_write rfl rfl rfl, hall, rfl⟩
  | signal _ hrun =>
    obtain rfl := of_run wp_sysSignal hrun
    refine ⟨fun x => ⟨?_, ?_, rfl⟩, hall, rfl⟩
    · exact update_field TaskSignal.pendingSignal (by rfl) x
    · exact update_field TaskSignal.sigctx (by rfl) x
  | files hne hrun =>
    obtain ⟨ctl, hctl⟩ := h.caller hne
    obtain rfl := of_run (wp_setFiles (E := anyFault) hctl) hrun
    exact ⟨sameContext_write rfl rfl rfl, hall, rfl⟩
  | busy _ hrun =>
    obtain rfl := of_run (wp_taskBusy (E := anyFault)) hrun
    exact ⟨sameContext_write rfl rfl rfl, hall, rfl⟩
  | nobusy _ _ hrun =>
    obtain rfl := of_run (wp_taskNobusy (E := anyFault)) hrun
    exact ⟨sameContext_write rfl rfl rfl, hall, rfl⟩
  | tick => exact ⟨fun x => ⟨rfl, rfl, rfl⟩, hall, rfl⟩
  | switch hspared hrun =>
    obtain ⟨u, rfl, ⟨hentry, rfl⟩ | ⟨hentry, -, hroused⟩⟩ := switch_cases h hspared hrun
    · rw [hentry, if_pos rfl]
      exact ⟨fun x => ⟨rfl, rfl, rfl⟩, hall, rfl⟩
    · rw [hentry, if_neg (by decide)]
      exact ⟨fun x => ⟨rfl, rfl, hroused.esp0 x⟩, fun x hx => List.mem_of_mem_filter hx, rfl⟩

end Contexts

section Steps

variable {idle : Nat} {s t : SignalState}

theorem HandlerInv.write (h : HandlerInv idle s) (hwait : WaitInv idle t.wait) (y : Nat)
    (hother : ∀ x ∈ t.wait.tasks, x ≠ y →
      x ∈ s.wait.tasks ∧ SameContext s.wait.kernel t.wait.kernel x ∧ t.code x = s.code x)
    (hself : y ∈ t.wait.tasks → y ≠ idle →
      ((t.wait.kernel.signal y).pendingSignal ≠ 0 ↔ InHandler t.wait.kernel y) ∧
        (t.code y = true ↔ InHandler t.wait.kernel y))
    (hhandling : ∀ x, t.wait.handling x = true → t.code x = true) : HandlerInv idle t := by
  refine ⟨hwait, fun x hx hne => ?_, fun x hx hne => ?_, hhandling⟩
  · by_cases hxy : x = y
    · subst hxy
      exact (hself hx hne).1
    · obtain ⟨hmem, hsame, -⟩ := hother x hx hxy
      rw [hsame.pending, hsame.inHandler]
      exact h.pending x hmem hne
  · by_cases hxy : x = y
    · subst hxy
      exact (hself hx hne).2
    · obtain ⟨hmem, hsame, hcode⟩ := hother x hx hxy
      rw [hcode, hsame.inHandler]
      exact h.code x hmem hne

theorem HandlerInv.code_or (h : HandlerInv idle s) {x : Nat} {b : Bool} (hb : b = s.wait.handling x) :
    (s.code x || b) = s.code x := by
  cases hcode : s.code x with
  | true => rfl
  | false =>
    have hfree : s.wait.handling x = false := by
      rw [Bool.eq_false_iff]
      intro hhandling
      rw [h.handling x hhandling] at hcode
      cases hcode
    rw [hb, hfree]
    rfl

theorem handlerInv_enable {w : WaitState} {x : Nat} {task : X86Task} {g : TaskSignal} (h : HandlerInv idle s)
    (hstep : WaitStep idle s.wait (.enable x task g) w) (hpending : g.pendingSignal = 0) :
    HandlerInv idle ⟨w, Function.update s.code x false⟩ := by
  have hwait := inv_waitStep h.wait hstep
  cases hstep with
  | enable h0 hlt hnew hcreated hrun =>
    obtain ⟨u, hu, rfl⟩ := onSched_run hrun
    have hlast := (ne_of_mem_of_not_mem (List.mem_of_getLast? h.wait.sched.listed.last) hnew).symm
    have henabled := of_run (wp_taskEnable hlast hcreated.next hcreated.ctl) hu
    obtain ⟨hesp0, -⟩ := of_run (wp_taskEnable_new hlast hcreated.ctl) hu
    refine h.write hwait x (fun y hy hne => ⟨?_, ?_, Function.update_of_ne hne ..⟩) (fun hmem hne => ?_) fun y hy => ?_
    · rcases List.mem_append.mp hy with hy | hy
      · exact hy
      · exact absurd (List.mem_singleton.mp hy) hne
    · have hsignal : (writeKernel s.wait.kernel x task g).signal y = s.wait.kernel.signal y := Function.update_of_ne hne ..
      exact ⟨congrArg TaskSignal.pendingSignal hsignal, congrArg TaskSignal.sigctx hsignal, (henabled.same hne).2⟩
    · have hsignal : (writeKernel s.wait.kernel x task g).signal x = g := Function.update_self ..
      have hout : ¬InHandler { writeKernel s.wait.kernel x task g with sched := u } x := by
        refine not_inHandler ?_ ?_
        · rw [hsignal]
          exact hesp0.trans hcreated.esp0
        · rw [hsignal]
          exact hcreated.sigctx
      refine ⟨⟨fun hset => absurd ?_ hset, fun hin => absurd hin hout⟩, fun hcode => ?_, fun hin => absurd hin hout⟩
      · exact (congrArg TaskSignal.pendingSignal hsignal).trans hpending
      · dsimp only at hcode
        rw [Function.update_self] at hcode
        cases hcode
    · dsimp only at hy ⊢
      by_cases hyx : y = x
      · rw [hyx, Function.update_self] at hy
        cases hy
      · rw [Function.update_of_ne hyx] at hy ⊢
        exact h.handling y hy

theorem handlerInv_entered {k k₁ : Kernel} {g : TaskSignal} {x : Nat} (h : HandlerInv idle s)
    (hctx : g.sigctx = (s.wait.kernel.signal x).sigctx) (heip : g.sigeip = (s.wait.kernel.signal x).sigeip)
    (hk₁ : k₁ = { s.wait.kernel with signal := Function.update s.wait.kernel.signal x g })
    (hentered : Entered k₁ x k) (hset : g.pendingSignal ≠ 0)
    (hwait : WaitInv idle { s.wait with kernel := k, handling := s.wait.handled x }) :
    HandlerInv idle ⟨{ s.wait with kernel := k, handling := s.wait.handled x },
      fun y => s.code y || s.wait.handled x y⟩ := by
  have hreg : Registered s.wait.kernel x := by
    have hreg := hentered.registered
    rwa [hk₁, registered_update hctx heip] at hreg
  have hhandled : s.wait.handled x = Function.update s.wait.handling x true := if_pos hreg
  have hstate := hentered.state
  rw [hk₁] at hstate
  refine h.write hwait x (fun y hy hne => ⟨hy, ?_, ?_⟩) (fun hmem hne => ?_) fun y hy => ?_
  · exact sameContext_of_ne (by rw [hstate]) (by rw [hstate]) hne
  · refine h.code_or ?_
    rw [hhandled, Function.update_of_ne hne]
  · have hsignal : k.signal x = g := by
      rw [hstate]
      exact Function.update_self ..
    have hin : InHandler k x := by
      refine ⟨by rw [hsignal, hctx]; exact hreg.1, ?_⟩
      rw [hsignal, hstate]
      exact (congrArg X86Task.esp0 (writeTask_self ..)).trans (congrArg TaskSignal.sigctx (Function.update_self ..))
    refine ⟨⟨fun _ => hin, fun _ => ?_⟩, fun _ => hin, fun _ => ?_⟩
    · rw [hsignal]
      exact hset
    · dsimp only
      rw [hhandled, Function.update_self, Bool.or_true]
  · dsimp only at hy ⊢
    rw [hy, Bool.or_true]

theorem handlerInv_kill {w : WaitState} {pid sig : Nat} (h : HandlerInv idle s)
    (hstep : WaitStep idle s.wait (.kill pid sig) w) (hsent : SignalsDelivered s (.call (.kill pid sig)) t) :
    HandlerInv idle ⟨w, codeAfter s (.kill pid sig) w⟩ := by
  have hwait := inv_waitStep h.wait hstep
  cases hstep with
  | @kill k _ _ x r hfind hrun =>
    have hsent' := hsent x hfind
    obtain ⟨-, ⟨rfl, rfl⟩ | ⟨hx, -, k₁, hk₁, hcase⟩⟩ := of_run (wp_sysKill hfind) hrun
    · have hcode : codeAfter s (.kill pid sig) s.wait = s.code := funext fun y => h.code_or rfl
      rw [if_pos rfl]
      exact ⟨h.wait, h.pending, by rw [hcode]; exact h.code, by rw [hcode]; exact h.handling⟩
    · rw [if_neg hx] at hwait ⊢
      specialize hsent' hx
      have hkept : ∀ g : TaskSignal, g = { s.wait.kernel.signal x with pendingSignal := sig } →
          g.pendingSignal = sig ∧ g.sigctx = (s.wait.kernel.signal x).sigctx ∧
            g.sigeip = (s.wait.kernel.signal x).sigeip := by
        rintro g rfl
        exact ⟨rfl, rfl, rfl⟩
      obtain ⟨hsig, hctx, heip⟩ := hkept _ rfl
      rcases hcase with hentered | ⟨hreg, rfl⟩
      · have hreg := hentered.registered
        rw [hk₁, registered_update hctx heip] at hreg
        exact handlerInv_entered h hctx heip hk₁ hentered (hsig ▸ hsent'.mpr (.inl hreg)) hwait
      · rw [hk₁, registered_update hctx heip] at hreg
        have hhandled : s.wait.handled x = s.wait.handling := if_neg hreg
        have hsame : InHandler k x ↔ InHandler s.wait.kernel x := by
          unfold InHandler
          rw [hk₁]
          dsimp only
          rw [Function.update_self]
        have hcode : ∀ y, codeAfter s (.kill pid sig) { s.wait with kernel := k, handling := s.wait.handled x } y =
            s.code y := fun y => h.code_or (by rw [hhandled])
        refine h.write hwait x (fun y hy hne => ⟨hy, ?_, hcode y⟩) (fun hmem hne => ⟨?_, ?_⟩) fun y hy => ?_
        · have hy' : k.signal y = s.wait.kernel.signal y := by
            rw [hk₁]
            exact Function.update_of_ne hne ..
          exact ⟨by rw [hy'], by rw [hy'], by rw [hk₁]⟩
        · have hself : (k.signal x).pendingSignal = sig := by
            rw [hk₁]
            exact (congrArg TaskSignal.pendingSignal (Function.update_self ..)).trans hsig
          rw [hself, hsame, hsent', or_iff_right hreg]
        · have hbefore := h.code x hmem hne
          rw [← hcode x, ← hsame] at hbefore
          exact hbefore
        · dsimp only at hy
          rw [hhandled] at hy
          exact (hcode y).trans (h.handling y hy)

theorem handlerInv_fault {w : WaitState} {regs : Nat} (h : HandlerInv idle s)
    (hstep : WaitStep idle s.wait (.fault regs) w) (hsent : SignalsDelivered s (.call (.fault regs)) t) :
    HandlerInv idle ⟨w, codeAfter s (.fault regs) w⟩ := by
  have hwait := inv_waitStep h.wait hstep
  cases hstep with
  | @fault k _ stopped hne hrun =>
    obtain ⟨ctl, hctl⟩ := h.wait.caller hne
    by_cases hpending : (s.wait.kernel.signal s.wait.kernel.sched.current).pendingSignal = 0
    · have hreg : Registered s.wait.kernel s.wait.kernel.sched.current := hsent.resolve_left (not_not_intro hpending)
      have h0 := h.wait.sched.ne_zero h.wait.sched.current
      obtain ⟨rfl, k₁, hk₁, hentered⟩ := of_run (wp_signalFault_registered (E := anyFault) h0 hctl hpending hreg) hrun
      refine handlerInv_entered h ?_ ?_ hk₁ hentered ?_ hwait
      · rfl
      · rfl
      · have hset : sigsegv ≠ 0 := by decide
        exact hset
    · obtain ⟨rfl, rfl⟩ := of_run (wp_signalFault_pending (E := anyFault) hctl hpending) hrun
      have hcode : ∀ y, (s.code y || s.wait.handling y) = s.code y := fun y => h.code_or rfl
      refine h.write hwait idle (fun y hy _ => ⟨hy, sameContext_write (by rfl) (by rfl) (by rfl) y, hcode y⟩)
        (fun _ hidle => absurd rfl hidle) fun y hy => ?_
      exact (hcode y).trans (h.handling y hy)

theorem Entered.inHandler {k k' : Kernel} {x : Nat} (h : Entered k x k') : InHandler k' x := by
  rw [h.state]
  exact ⟨h.registered.1, congrArg X86Task.esp0 (writeTask_self ..)⟩

theorem wp_sysSigreturn_handler {k : Kernel} {ctl : TaskCtl} (h0 : k.sched.current ≠ 0)
    (hctl : (k.sched.task k.sched.current).ctl = some ctl) (hin : InHandler k k.sched.current)
    (hpending : (k.signal k.sched.current).pendingSignal ≠ 0)
    (hapart : (k.signal k.sched.current).sigctx ≠ 0 →
      Apart (k.signal k.sched.current).sigctx (mainFrame (k.signal k.sched.current))) :
    wp sysSigreturn noFault (fun _ k' => ¬InHandler k' k.sched.current) k := by
  have hcontext : (k.sched.current != 0 && (k.sched.task k.sched.current).ctl.isSome &&
      (k.signal k.sched.current).sigctx != 0) = true := by
    rw [hctl, Option.isSome_some, Bool.and_true, Bool.and_eq_true, bne_iff_ne, bne_iff_ne]
    exact ⟨h0, hin.1⟩
  refine wp_imp (wp_sysSigreturn_pending hcontext (bne_iff_ne.mpr hpending)) ?_
  rintro _ _ rfl
  refine not_inHandler ?_ ?_
  · dsimp only
    rw [writeTask_self, Function.update_self]
    rfl
  · dsimp only
    rw [Function.update_self]
    exact hapart

theorem handlerInv_sigreturn {w : WaitState} (h : HandlerInv idle s) (hstep : WaitStep idle s.wait .sigreturn w) :
    HandlerInv idle ⟨w, codeAfter s .sigreturn w⟩ := by
  have hwait := inv_waitStep h.wait hstep
  cases hstep with
  | sigreturn hne hrun =>
    obtain rfl := of_run wp_sysSigreturn hrun
    refine h.write hwait s.wait.kernel.sched.current
      (fun y hy hother => ⟨hy, sameContext_of_ne rfl rfl hother, Function.update_of_ne hother ..⟩)
      (fun hmem _ => ?_) fun y hy => ?_
    · have hout := not_inHandler (hwait.frame _ hmem hne (Function.update_self ..)) (hwait.apart _ hmem hne)
      refine ⟨⟨fun hset => absurd ?_ hset, fun hin => absurd hin hout⟩, fun hcode => ?_, fun hin => absurd hin hout⟩
      · dsimp only
        rw [Function.update_self]
      · dsimp only [codeAfter] at hcode
        rw [Function.update_self] at hcode
        cases hcode
    · have hy' : Function.update s.wait.handling s.wait.kernel.sched.current false y = true := hy
      by_cases hyc : y = s.wait.kernel.sched.current
      · rw [hyc, Function.update_self] at hy'
        cases hy'
      · rw [Function.update_of_ne hyc] at hy'
        exact (Function.update_of_ne hyc ..).trans (h.handling y hy')

theorem handlerInv_step {op : SignalOp} (h : HandlerInv idle s) (hstep : SignalStep idle s op t)
    (hsent : SignalsDelivered s op t) : HandlerInv idle t := by
  cases hstep with
  | fork _ hstep hpending =>
    have hcode : s.code s.wait.kernel.sched.current = false := hsent
    rw [hcode]
    exact handlerInv_enable h hstep hpending
  | fexecve hstep hpending => exact handlerInv_enable h hstep hpending
  | @call w op hop hstep =>
    have hquiet : Quiet op → HandlerInv idle ⟨w, codeAfter s op w⟩ := by
      intro hquiet
      obtain ⟨hsame, hmem, hhandling⟩ := quiet_step h.wait hstep hquiet
      have hcode : ∀ y, codeAfter s op w y = s.code y := by
        intro y
        cases op with
        | sigreturn => exact hquiet.elim
        | _ => exact h.code_or (congrFun hhandling y)
      refine h.write (inv_waitStep h.wait hstep) idle (fun y hy _ => ⟨hmem y hy, hsame y, hcode y⟩)
        (fun _ hidle => absurd rfl hidle) fun y hy => ?_
      exact (hcode y).trans (h.handling y (congrFun hhandling y ▸ hy))
    cases op with
    | enable => exact absurd trivial hop
    | execve => exact absurd trivial hop
    | kill pid sig => exact handlerInv_kill h hstep hsent
    | fault regs => exact handlerInv_fault h hstep hsent
    | sigreturn => exact handlerInv_sigreturn h hstep
    | _ => exact hquiet trivial

def signalStart (idle : Nat) (k : Kernel) : SignalState := ⟨startState idle k, fun _ => false⟩

theorem handlerInv_start {k : Kernel} (h : WaitInv idle (startState idle k)) :
    HandlerInv idle (signalStart idle k) := by
  refine ⟨h, fun x hx hne => ?_, fun x hx hne => ?_, fun x hx => ?_⟩
  · exact absurd (List.mem_singleton.mp hx) hne
  · exact absurd (List.mem_singleton.mp hx) hne
  · cases hx

theorem handlerInv_run (h : HandlerInv idle s) (hrun : Run (SignalStep idle) SignalsDelivered s t) : HandlerInv idle t :=
  hrun.invariant (HandlerInv idle) (fun _ _ _ h hstep hsent => handlerInv_step h hstep hsent) h

/-- In every run whose signals, faults and forks are as they should be, a signal is pending exactly
while its handler executes, `sys_sigreturn` never fails there, and outside a fault enters it. -/
theorem signals_consistent (h0 : idle ≠ 0) (hlt : idle < 4294967296) (esp0 : Nat) {k₀ : Kernel}
    (hpid : k₀.sched.lastPid = 0) :
    wp (onSched (x86TaskInit idle esp0)) noFault (fun _ k =>
      ∀ s, Run (SignalStep idle) SignalsDelivered (signalStart idle k) s →
        (∀ x ∈ s.wait.tasks, x ≠ idle →
          ((s.wait.kernel.signal x).pendingSignal ≠ 0 ↔ InHandler s.wait.kernel x) ∧
            (s.code x = true ↔ InHandler s.wait.kernel x)) ∧
        (s.wait.kernel.sched.current ≠ idle → s.code s.wait.kernel.sched.current = true →
          wp sysSigreturn noFault (fun _ k' => ¬InHandler k' s.wait.kernel.sched.current) s.wait.kernel) ∧
        (s.wait.kernel.sched.current ≠ idle → s.code s.wait.kernel.sched.current = false →
          Registered s.wait.kernel s.wait.kernel.sched.current → ∀ regs, wp (signalFault regs) noFault
            (fun stopped k' => stopped = false ∧ InHandler k' s.wait.kernel.sched.current) s.wait.kernel)) k₀ := by
  refine wp_imp (inv_start h0 hlt hpid) fun _ k hk s hrun => ?_
  have hs := handlerInv_run (handlerInv_start hk) hrun
  have hmem := hs.wait.sched.current
  refine ⟨fun x hx hne => ⟨hs.pending x hx hne, hs.code x hx hne⟩, fun hne hcode => ?_, fun hne hcode hreg regs => ?_⟩
  · obtain ⟨ctl, hctl⟩ := hs.wait.caller hne
    have hin := (hs.code _ hmem hne).mp hcode
    exact wp_sysSigreturn_handler (hs.wait.sched.ne_zero hmem) hctl hin ((hs.pending _ hmem hne).mpr hin)
      (hs.wait.apart _ hmem hne)
  · obtain ⟨ctl, hctl⟩ := hs.wait.caller hne
    have hpending : (s.wait.kernel.signal s.wait.kernel.sched.current).pendingSignal = 0 := by
      by_contra hset
      rw [(hs.code _ hmem hne).mpr ((hs.pending _ hmem hne).mp hset)] at hcode
      cases hcode
    refine wp_imp (wp_signalFault_registered (hs.wait.sched.ne_zero hmem) hctl hpending hreg) ?_
    rintro stopped k' ⟨rfl, k₁, hk₁, hentered⟩
    refine ⟨rfl, hentered.inHandler⟩

end Steps

def handledSignal : TaskSignal := { createdSignal with sigctx := 0x9000 }

def calledState (s : SignalState) (op : TaskOp) (w : WaitState) : SignalState := ⟨w, codeAfter s op w⟩

def switchedState (s : SignalState) : SignalState := calledState s .switch { s.wait with
  kernel := after (onSched (x86TaskSwitch 0x1000)) s.wait.kernel
  tasks := if s.wait.kernel.sched.taskingEntry then s.wait.tasks else alive s.wait.kernel.sched s.wait.tasks }

def fexecveState : SignalState :=
  ⟨⟨after (onSched (taskEnable 0x4000)) (writeKernel bootedKernel 0x4000 waitingTask handledSignal),
    [0x1000] ++ [0x4000], 1, Function.update (fun _ => false) 0x4000 false, Function.update (fun _ => none) 0x4000 none⟩,
    Function.update (fun _ => false) 0x4000 false⟩

def registeredState : SignalState :=
  let s := switchedState (switchedState fexecveState)
  calledState s (.signal 0x5000) { s.wait with
    kernel := after ((fun _ => ()) <$> sysSignal 0 0x5000) s.wait.kernel }

def killedState (sig : Nat) : SignalState :=
  calledState registeredState (.kill 1 sig) { registeredState.wait with
    kernel := after ((fun _ => ()) <$> sysKill 1 sig) registeredState.wait.kernel
    handling := registeredState.wait.handled 0x4000 }

theorem switchedState_step {s : SignalState} (hstop : ∀ x ∈ s.wait.tasks, hasFlag s.wait.kernel.sched taskFlgStop x = false)
    (hok : (onSched (x86TaskSwitch 0x1000) s.wait.kernel).isOk = true) :
    SignalStep 0x1000 s (.call .switch) (switchedState s) := by
  refine .call (fun h => h) (.switch (fun x hx hstopped => ?_) (run_after hok))
  rw [hstop x hx] at hstopped
  cases hstopped

theorem registeredState_run :
    Run (SignalStep 0x1000) SignalsDelivered (signalStart 0x1000 bootedKernel) registeredState := by
  have hfresh : Created waitingTask handledSignal := ⟨rfl, rfl, rfl, fun _ => .inr (by decide)⟩
  have henable : WaitStep 0x1000 (startState 0x1000 bootedKernel) (.enable 0x4000 waitingTask handledSignal)
      fexecveState.wait :=
    .enable (by decide) (by decide) (by decide) hfresh (run_after (by decide +kernel))
  have hfexecve : SignalStep 0x1000 (signalStart 0x1000 bootedKernel) (.fexecve 0x4000 waitingTask handledSignal)
      fexecveState := .fexecve henable rfl
  have hentry := switchedState_step (s := fexecveState) (by decide +kernel) (by decide +kernel)
  have hswitch := switchedState_step (s := switchedState fexecveState) (by decide +kernel) (by decide +kernel)
  obtain ⟨r, hcall⟩ := run_after_map (p := sysSignal 0 0x5000)
    (s := (switchedState (switchedState fexecveState)).wait.kernel) (by decide +kernel)
  have hsignal : SignalStep 0x1000 (switchedState (switchedState fexecveState)) (.call (.signal 0x5000))
      registeredState := .call (fun h => h) (.signal (by decide +kernel) hcall)
  exact ((((Run.refl _).tail hfexecve trivial).tail hentry trivial).tail hswitch trivial).tail hsignal trivial

theorem registeredState_find :
    taskByPid 1 registeredState.wait.kernel.sched = .ok (0x4000, registeredState.wait.kernel.sched) := by
  have hinv := of_run (inv_start (by decide) (by decide) rfl) bootedKernel_init
  have hs := handlerInv_run (handlerInv_start hinv) registeredState_run
  obtain ⟨r, t, hrun, rfl, hfound⟩ := run_of_wp (hs.wait.sched.find 1)
  rcases hfound with ⟨-, hnone⟩ | ⟨hmem, hpid⟩
  · exact absurd (by decide +kernel) (hnone 0x4000 (by decide +kernel))
  · have htasks : registeredState.wait.tasks = [0x1000, 0x4000] := by decide +kernel
    rw [htasks, List.mem_pair] at hmem
    rcases hmem with rfl | rfl
    · exact absurd hpid (by decide +kernel)
    · exact hrun

theorem killedState_step (sig : Nat) (hok : (sysKill 1 sig registeredState.wait.kernel).isOk = true) :
    SignalStep 0x1000 registeredState (.call (.kill 1 sig)) (killedState sig) := by
  obtain ⟨r, hcall⟩ := run_after_map hok
  exact .call (fun h => h) (.kill registeredState_find hcall)

/-- A task sends itself a signal, and its handler returns. -/
theorem signals_consistent_one_signal :
    Run (SignalStep 0x1000) SignalsDelivered (signalStart 0x1000 bootedKernel) (killedState 10) ∧
      InHandler (killedState 10).wait.kernel 0x4000 ∧
        wp sysSigreturn noFault (fun _ k => ¬InHandler k 0x4000) (killedState 10).wait.kernel := by
  have hall := of_run (signals_consistent (show 0x1000 ≠ 0 by decide) (by decide) 0x2000 rfl) bootedKernel_init
  have hsent : SignalsDelivered registeredState (.call (.kill 1 10)) (killedState 10) := by
    intro x hfind _
    rw [registeredState_find] at hfind
    obtain rfl := congrArg Prod.fst (Except.ok.inj hfind)
    exact ⟨fun _ => .inl (by decide +kernel), fun _ => by decide⟩
  have hrun := registeredState_run.tail (killedState_step 10 (by decide +kernel)) hsent
  have hcurrent : (killedState 10).wait.kernel.sched.current = 0x4000 := by decide +kernel
  obtain ⟨-, hreturn, -⟩ := hall _ hrun
  rw [hcurrent] at hreturn
  exact ⟨hrun, by decide +kernel, hreturn (by decide +kernel) (by decide +kernel)⟩

/-- A signal with number zero enters the handler, which cannot return. -/
theorem signal_zero_fails : Run (SignalStep 0x1000) always (signalStart 0x1000 bootedKernel) (killedState 0) ∧
    0x4000 ∈ (killedState 0).wait.tasks ∧ InHandler (killedState 0).wait.kernel 0x4000 ∧
      ((killedState 0).wait.kernel.signal 0x4000).pendingSignal = 0 ∧
        (sysSigreturn (killedState 0).wait.kernel).map Prod.fst =
          .error (assertionFailed "x86_task_current->ctl->pending_signal") := by
  refine ⟨?_, by decide +kernel, by decide +kernel, by decide +kernel, ?_⟩
  · exact (registeredState_run.weaken fun _ _ _ _ _ => trivial).tail (killedState_step _ (by decide +kernel)) trivial
  · decide +kernel

end YggKernel.Task
