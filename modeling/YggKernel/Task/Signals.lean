import YggKernel.Strings
import YggKernel.Task.Switch

namespace YggKernel.Task

open Lib.Program Lib.BitWords Lib.ByteMemory Strings

def sigsegv : Nat := 11
def taskExitSegv : Nat := 1000
def systickDesRes : Nat := 1000000

/-- The registers in a saved context lie at these offsets from it. -/
def offDs : Nat := 0
def offEs : Nat := 4
def offFs : Nat := 8
def offGs : Nat := 12
def offCr3 : Nat := 16
def offGp : Nat := 20
def offEbx : Nat := 36
def offEdx : Nat := 40
def offEax : Nat := 48
def offEip : Nat := 52
def offCs : Nat := 56
def offEflags : Nat := 60
def offEsp : Nat := 64
def offSs : Nat := 68

def frameSize : Nat := 19 * 4

/-- The fields of a task and of its control structure that signals use. -/
structure TaskSignal where
  ebp0 : Nat
  sigeip : Nat
  sigesp : Nat
  pendingSignal : Nat
  sigctx : Nat

/-- The scheduler, with the saved contexts in memory and the stack of the next interrupt. -/
structure Kernel where
  sched : Sched
  signal : Nat → TaskSignal
  mem : Mem
  tssEsp0 : Nat

def onSched {α : Type} (p : Prog Fault Sched α) : Prog Fault Kernel α := fun k =>
  (p k.sched).map fun r => (r.1, { k with sched := r.2 })

def setSignal (t : Nat) (f : TaskSignal → TaskSignal) : Prog Fault Kernel Unit :=
  modify fun k => { k with signal := Function.update k.signal t (f (k.signal t)) }

def storeWord (a v : Nat) : Prog Fault Kernel Unit := modify fun k => { k with mem := store32 k.mem a v }

def loadWord (a : Nat) : Prog Fault Kernel Nat := do return load32 (← get).mem a

def currentTask : Prog Fault Kernel Nat := do return (← get).sched.current

def mainFrame (g : TaskSignal) : Nat := g.ebp0 - frameSize

/-- The pending sleep or wait of a signalled task fails. -/
def abortWait (t : Nat) : Prog Fault Kernel Unit := do
  if (← onSched (flagOf t)) &&& taskFlgWait ≠ 0#32 then
    storeWord (((← get).sched.task t).esp0 + offEax) 0xFFFFFFFF
    onSched (setTask t fun x => { x with flag := x.flag &&& ~~~taskFlgWait })

def handlerContext (g : TaskSignal) (m : Mem) : Mem :=
  let m := memsetAt m (g.sigctx + offGp) 0 32
  let m := store32 m (g.sigctx + offEdx) g.pendingSignal
  let m := store32 m (g.sigctx + offGs) 0x23
  let m := store32 m (g.sigctx + offFs) 0x23
  let m := store32 m (g.sigctx + offEs) 0x23
  let m := store32 m (g.sigctx + offDs) 0x23
  let m := store32 m (g.sigctx + offEflags) 0x248
  let m := store32 m (g.sigctx + offCs) 0x1B
  let m := store32 m (g.sigctx + offEip) g.sigeip
  let m := store32 m (g.sigctx + offEsp) g.sigesp
  let m := store32 m (g.sigctx + offSs) 0x23
  store32 m (g.sigctx + offCr3) (load32 m (mainFrame g + offCr3))

def x86TaskEnterSignal (t : Nat) : Prog Fault Kernel Int := do
  let k ← get
  kassert (t != 0 && (k.sched.task t).ctl.isSome) "task && task->ctl"
  if (k.signal t).sigctx ≠ 0 ∧ (k.signal t).sigeip ≠ 0 then
    abortWait t
    modify fun k => { k with mem := handlerContext (k.signal t) k.mem }
    onSched (setTask t fun x => { x with esp0 := (k.signal t).sigctx })
    return 0
  else return -1

def x86TaskExitSignal (t : Nat) : Prog Fault Kernel Unit := do
  let k ← get
  kassert (t != 0 && (k.sched.task t).ctl.isSome && (k.signal t).sigctx != 0) "task && task->ctl && task->ctl->sigctx"
  onSched (setTask t fun x => { x with esp0 := mainFrame (k.signal t) })

def sysExit : Prog Fault Kernel Int := do
  let t ← currentTask
  onSched (setTask t fun x => { x with flag := x.flag ||| taskFlgStop })
  return 0

def taskBusy (t : Nat) : Prog Fault Kernel Unit :=
  onSched (setTask t fun x => { x with flag := x.flag ||| taskFlgBusy })

def taskNobusy (t : Nat) : Prog Fault Kernel Unit :=
  onSched (setTask t fun x => { x with flag := x.flag &&& ~~~taskFlgBusy })

/-- What `sys_waitpid` does before it calls `x86_task_switch`. -/
def blockOnPid (pid : Nat) : Prog Fault Kernel Unit := do
  let t ← currentTask
  onSched (setTask t fun x => { x with flag := taskFlgWait })
  onSched (setTask t fun x => { x with waitType := taskWaitPid })
  let ctl ← onSched (ctlOf t)
  onSched (setTask t fun x => { x with ctl := some { ctl with
    sleepDeadline := ((BitVec.ofNat 32 pid).signExtend 64).toNat } })

def sysWaitpid (idle pid wstatus : Nat) : Prog Fault Kernel Int := do
  kassert (wstatus == 0) "!wstatus"
  blockOnPid pid
  onSched (x86TaskSwitch idle)
  return 0

def deadline (sec nsec systime : Nat) : Nat :=
  let delta := (sec * systickDesRes + nsec * (1000000 / systickDesRes)) % 2 ^ 64
  (delta + systime) % 2 ^ 64

def taskSetSleep (t sec nsec : Nat) : Prog Fault Kernel Unit := do
  let ctl ← onSched (ctlOf t)
  let systime := (← get).sched.systime
  onSched (setTask t fun x => { x with ctl := some { ctl with sleepDeadline := deadline sec nsec systime } })

/-- What `sys_nanosleep` does before it calls `x86_task_switch`. -/
def blockOnTime (sec nsec : Nat) : Prog Fault Kernel Unit := do
  let t ← currentTask
  taskSetSleep t sec nsec
  onSched (setTask t fun x => { x with flag := x.flag ||| taskFlgWait })
  onSched (setTask t fun x => { x with waitType := taskWaitSleep })
  storeWord (((← get).sched.task t).esp0 + offEax) 0

/-- The two numbers are what was copied from the user's structure. -/
def sysNanosleep (idle sec nsec : Nat) : Prog Fault Kernel Int := do
  if sec ≠ 0 ∨ nsec ≠ 0 then
    blockOnTime sec nsec
    onSched (x86TaskSwitch idle)
    return 0
  else return 0

def sysKill (pid sig : Nat) : Prog Fault Kernel Int := do
  kassert (pid != 0) "pid"
  let t ← onSched (taskByPid pid)
  if t ≠ 0 then
    kassert ((← get).sched.task t).ctl.isSome "task->ctl"
    setSignal t fun g => { g with pendingSignal := sig }
    let _ ← x86TaskEnterSignal t
    return 0
  else return -1

def sysSignal (signum sighandler : Nat) : Prog Fault Kernel Int := do
  kassert (signum == 0) "!signum"
  let t ← currentTask
  let k ← get
  kassert (t != 0 && (k.sched.task t).ctl.isSome && (k.signal t).sigctx != 0)
    "x86_task_current && x86_task_current->ctl && x86_task_current->ctl->sigctx"
  setSignal t fun g => { g with sigeip := sighandler, sigesp := 0x80001000 }
  return 0

def sysSigreturn : Prog Fault Kernel Int := do
  let t ← currentTask
  let k ← get
  kassert (t != 0 && (k.sched.task t).ctl.isSome && (k.signal t).sigctx != 0)
    "x86_task_current && x86_task_current->ctl && x86_task_current->ctl->sigctx"
  kassert ((k.signal t).pendingSignal != 0) "x86_task_current->ctl->pending_signal"
  setSignal t fun g => { g with pendingSignal := 0 }
  x86TaskExitSignal t
  return 0

def stopFaulting (t regs : Nat) : Prog Fault Kernel Unit := do
  onSched (setTask t fun x => { x with flag := x.flag ||| taskFlgStop })
  storeWord (regs + offEbx) taskExitSegv

/-- What `x86_page_fault` does for a user program, and whether it then calls `x86_task_switch`. -/
def signalFault (regs : Nat) : Prog Fault Kernel Bool := do
  let t ← currentTask
  let _ ← onSched (ctlOf t)
  if ((← get).signal t).pendingSignal ≠ 0 then
    stopFaulting t regs
    return true
  else
    setSignal t fun g => { g with pendingSignal := sigsegv }
    if (← x86TaskEnterSignal t) ≠ 0 then
      stopFaulting t regs
      return true
    else return false

def x86PageFault (idle regs : Nat) : Prog Fault Kernel Unit := do
  if (← loadWord (regs + offCs)) = 0x08 then throw (.panic "---- Page fault ----\n")
  else if ← signalFault regs then onSched (x86TaskSwitch idle)
  else return ()

/-- The part of `x86_task_set_context` that prepares a running task for another program. -/
def resetSignal (t sigctx : Nat) : Prog Fault Kernel Unit :=
  setSignal t fun g => { g with sigesp := 0, sigeip := 0, sigctx := sigctx }

@[simp] theorem wp_onSched {α : Type} (p : Prog Fault Sched α) {E : Fault → Prop} (Q : α → Kernel → Prop) (k : Kernel) :
    wp (onSched p) E Q k ↔ wp p E (fun a s => Q a { k with sched := s }) k.sched := by
  unfold wp onSched
  cases p k.sched <;> rfl

end YggKernel.Task
