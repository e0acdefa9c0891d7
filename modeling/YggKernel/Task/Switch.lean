import YggKernel.Fault
import YggKernel.Lib.BitWords

namespace YggKernel.Task

open Lib.Program Lib.BitWords

def taskFlgRunning : BitVec 32 := mask 0
def taskFlgStop : BitVec 32 := mask 1
def taskFlgWait : BitVec 32 := mask 2
def taskFlgBusy : BitVec 32 := mask 3

def taskWaitSleep : Nat := 1
def taskWaitPid : Nat := 2

structure TaskCtl where
  fds : List Nat
  sleepDeadline : Nat
  pid : Nat

structure X86Task where
  esp0 : Nat
  flag : BitVec 32
  waitType : Nat
  pd : Nat
  ctl : Option TaskCtl
  next : Nat

/-- What `task_destroy` hands back to the other parts of the kernel. -/
inductive Release
  | file (fd : Nat)
  | block (ptr : Nat)
  | space (pd : Nat)
  | ctl (task : Nat)

/-- Tasks by the address of their structure, and the variables of the scheduler.
A freed structure keeps its contents, and is only noted as released. -/
structure Sched where
  task : Nat → X86Task
  first : Nat
  last : Nat
  current : Nat
  taskingEntry : Bool
  lastPid : Nat
  systime : Nat
  mmKernel : Nat
  space : Nat
  released : List Release

def nextOf (t : Nat) : Prog Fault Sched Nat := do return ((← get).task t).next

def flagOf (t : Nat) : Prog Fault Sched (BitVec 32) := do return ((← get).task t).flag

def ctlOf (t : Nat) : Prog Fault Sched TaskCtl := do
  match ((← get).task t).ctl with
  | some ctl => return ctl
  | none => throw (.pageFault 0)

def setTask (t : Nat) (f : X86Task → X86Task) : Prog Fault Sched Unit :=
  modify fun s => { s with task := Function.update s.task t (f (s.task t)) }

def mmSet (pd : Nat) : Prog Fault Sched Unit := modify fun s => { s with space := pd }

def release (r : Release) : Prog Fault Sched Unit :=
  modify fun s => { s with released := r :: s.released }

def closeFiles : List Nat → Prog Fault Sched Unit
  | [] => return ()
  | fd :: rest => do
    if fd ≠ 0 then release (.file fd)
    closeFiles rest

def taskDestroy (t : Nat) : Prog Fault Sched Unit := do
  mmSet (← get).mmKernel
  closeFiles (← ctlOf t).fds
  release (.block ((← get).task t).esp0)
  release (.space ((← get).task t).pd)
  release (.ctl t)
  release (.block t)

/-- A list that is longer than memory has addresses never ends. -/
def listFuel : Nat := 4294967296

def pidFrom (pid : Nat) : Nat → Nat → Prog Fault Sched Nat
  | 0, _ => throw .hang
  | fuel + 1, t => do
    if t = 0 then return 0
    match ((← get).task t).ctl with
    | some ctl => if ctl.pid = pid then return t else pidFrom pid fuel (← nextOf t)
    | none => if pid = 0 then return t else pidFrom pid fuel (← nextOf t)

def taskByPid (pid : Nat) : Prog Fault Sched Nat := do pidFrom pid listFuel (← get).first

def taskEnable (t : Nat) : Prog Fault Sched Unit := do
  let ctl ← ctlOf t
  modify fun s => { s with lastPid := u32 (s.lastPid + 1) }
  let pid := (← get).lastPid
  setTask t fun x => { x with ctl := some { ctl with pid := pid }, flag := 0#32 }
  setTask (← get).last fun x => { x with next := t }
  modify fun s => { s with last := t }

/-- The idle task is a static variable, whose address is a parameter here. -/
def x86TaskInit (idle esp0 : Nat) : Prog Fault Sched Unit := do
  let pd := (← get).mmKernel
  setTask idle fun x => { x with next := 0, ctl := none, flag := 0#32, esp0 := esp0, pd := pd }
  modify fun s => { s with current := idle, first := idle, last := idle }

/-- The part of `x86_task_switch` that decreases sleep counters. -/
def wakeUp (t : Nat) : Prog Fault Sched Unit := do
  if (← flagOf t) &&& taskFlgWait ≠ 0#32 then
    if ((← get).task t).waitType = taskWaitSleep then
      if (← get).systime ≥ (← ctlOf t).sleepDeadline then
        setTask t fun x => { x with flag := x.flag &&& ~~~taskFlgWait }
    else if ((← get).task t).waitType = taskWaitPid then
      let pid := u32 (← ctlOf t).sleepDeadline
      let t2 ← taskByPid pid
      if t2 = 0 then
        let ctl ← ctlOf t
        setTask t fun x => { x with ctl := some { ctl with sleepDeadline := 0 } }
        setTask t fun x => { x with flag := x.flag &&& ~~~taskFlgWait }

/-- The part of `x86_task_switch` that removes a stopped task, `tp` being the one
before it. -/
def stopTask (t tp : Nat) : Prog Fault Sched Unit := do
  kassert (tp ≠ 0) "tp"
  let next ← nextOf t
  setTask tp fun x => { x with next := next }
  if t = (← get).last then modify fun s => { s with last := tp }
  if (← ctlOf t).pid = 1 then throw (.panic "Attempted to kill init!\n")
  taskDestroy t

/-- The first loop of `x86_task_switch`, over all tasks. -/
def updateTasks (idle : Nat) : Nat → Nat → Nat → Prog Fault Sched Unit
  | 0, _, _ => throw .hang
  | fuel + 1, t, tp => do
    if t = 0 then return ()
    if t = idle then
      updateTasks idle fuel (← nextOf t) t
    else if (← flagOf t) &&& taskFlgStop ≠ 0#32 then
      stopTask t tp
      updateTasks idle fuel (← nextOf t) tp
    else
      wakeUp t
      updateTasks idle fuel (← nextOf t) t

def waiting (t : Nat) : Prog Fault Sched Bool := do
  return (← flagOf t) &&& taskFlgWait != 0#32 || (← flagOf t) &&& taskFlgBusy != 0#32

/-- The second loop of `x86_task_switch`, which looks for a task to run. -/
def selectTask (last : Nat) : Nat → Prog Fault Sched Unit
  | 0 => throw .hang
  | fuel + 1 => do
    let next ← nextOf (← get).current
    modify fun s => { s with current := if next = 0 then s.first else next }
    if ← waiting (← get).current then
      if (← get).current = last then return ()
      selectTask last fuel

def x86TaskSwitch (idle : Nat) : Prog Fault Sched Unit := do
  mmSet (← get).mmKernel
  if (← get).taskingEntry then
    modify fun s => { s with taskingEntry := false }
    return ()
  updateTasks idle listFuel (← get).first 0
  let last := (← get).current
  setTask last fun x => { x with flag := x.flag &&& ~~~taskFlgRunning }
  selectTask last listFuel
  let current := (← get).current
  if current = last then
    if ← waiting current then
      modify fun s => { s with current := idle }
      setTask idle fun x => { x with flag := x.flag ||| taskFlgRunning }
      return ()
  setTask current fun x => { x with flag := x.flag ||| taskFlgRunning }

end YggKernel.Task
