import YggKernel.Task.Signals

namespace YggKernel.Files

open Lib.Program Lib.BitWords Lib.ByteMemory YggKernel.Task

/-- The device of a file. Only a terminal has a read function. -/
inductive Device
  | none
  | tty (k : Nat)
  | other
  deriving DecidableEq

structure VfsFile where
  flags : BitVec 32
  dev : Device
  fs : Nat
  pos0 : Nat
  pos1 : Nat
  opBuf : Nat
  opRes : Nat
  opLen : Nat
  task : Nat

/-- Where the kernel has the control structure of each task, the terminals and its variables. -/
structure Layout where
  ctl : Nat → Nat
  ttys : Nat
  first : Nat
  last : Nat
  current : Nat
  taskingEntry : Nat
  lastPid : Nat
  systime : Nat
  mmKernel : Nat
  tssEsp0 : Nat

/-- The files by their addresses, the blocks that were allocated and freed for them, and the
file of the pending read of each terminal. -/
structure FileTable where
  file : Nat → VfsFile
  allocs : List Nat
  frees : List Nat
  pending : Nat → Nat
  layout : Layout

structure System where
  kernel : Kernel
  files : FileTable

def sizeofFile : Nat := 304

section Overwriting

variable (a : Nat) (b : BitVec 8)

def word (p w : Nat) : Nat :=
  if p ≤ a ∧ a < p + 4 then load32 (store8 (store32 (fun _ => 0) p w) a b) p else w

def quad (p w : Nat) : Nat :=
  if p ≤ a ∧ a < p + 8 then word a b p (u32 w) + 4294967296 * word a b (p + 4) (w / 4294967296) else w

def overwriteCtl (p : Nat) (x : TaskCtl) : TaskCtl where
  fds := x.fds.mapIdx fun i f => word a b (p + 4 * i) f
  sleepDeadline := quad a b (p + 16) x.sleepDeadline
  pid := word a b (p + 24) x.pid

/-- A pointer that is stored over leads to nothing. -/
def overwriteTask (L : Layout) (t : Nat) (x : X86Task) : X86Task where
  esp0 := word a b t x.esp0
  flag := BitVec.ofNat 32 (word a b (t + 24) x.flag.toNat)
  waitType := word a b (t + 28) x.waitType
  pd := word a b (t + 32) x.pd
  ctl := if t + 36 ≤ a ∧ a < t + 40 then none else x.ctl.map (overwriteCtl a b (L.ctl t))
  next := word a b (t + 40) x.next

def overwriteSignal (L : Layout) (t : Nat) (g : TaskSignal) : TaskSignal where
  ebp0 := word a b (t + 4) g.ebp0
  sigeip := word a b (t + 16) g.sigeip
  sigesp := word a b (t + 20) g.sigesp
  pendingSignal := word a b (L.ctl t + 28) g.pendingSignal
  sigctx := word a b (L.ctl t + 32) g.sigctx

def overwriteFile (f : Nat) (x : VfsFile) : VfsFile where
  flags := BitVec.ofNat 32 (word a b f x.flags.toNat)
  dev := if f + 4 ≤ a ∧ a < f + 8 then .other else x.dev
  fs := word a b (f + 8) x.fs
  pos0 := word a b (f + 276) x.pos0
  pos1 := word a b (f + 280) x.pos1
  opBuf := word a b (f + 284) x.opBuf
  opRes := word a b (f + 288) x.opRes
  opLen := word a b (f + 292) x.opLen
  task := word a b (f + 300) x.task

def overwriteSched (L : Layout) (s : Sched) : Sched := { s with
  task := fun t => overwriteTask a b L t (s.task t)
  first := word a b L.first s.first
  last := word a b L.last s.last
  current := word a b L.current s.current
  taskingEntry := word a b L.taskingEntry (if s.taskingEntry then 1 else 0) ≠ 0
  lastPid := word a b L.lastPid s.lastPid
  systime := quad a b L.systime s.systime
  mmKernel := word a b L.mmKernel s.mmKernel }

/-- A byte in the memory of the kernel is a byte of whatever lies there. -/
def overwrite (s : System) : System where
  kernel.sched := overwriteSched a b s.files.layout s.kernel.sched
  kernel.signal := fun t => overwriteSignal a b s.files.layout t (s.kernel.signal t)
  kernel.mem := store8 s.kernel.mem a b
  kernel.tssEsp0 := word a b s.files.layout.tssEsp0 s.kernel.tssEsp0
  files := { s.files with
    file := fun f => overwriteFile a b f (s.files.file f)
    pending := fun k => word a b (s.files.layout.ttys + 28 * k + 24) (s.files.pending k) }

end Overwriting

def storeByte (a : Nat) (b : BitVec 8) : Prog Fault System Unit := do
  if kernelVirtBase ≤ a then modify (overwrite a b)

def storeBytes : Nat → List (BitVec 8) → Prog Fault System Unit
  | _, [] => return ()
  | a, b :: bytes => do
    storeByte (u32 a) b
    storeBytes (a + 1) bytes

def memcpy (dst src n : Nat) : Prog Fault System Unit := do
  storeBytes dst (loadBytes (← get).kernel.mem src n)

def OfProgram (a n : Nat) : Prop := ∀ k < n, u32 (a + k) < kernelVirtBase

instance (a n : Nat) : Decidable (OfProgram a n) := inferInstanceAs (Decidable (∀ k < n, _))

section Stores

variable {E : Fault → Prop} {Q : Unit → System → Prop} {s : System} {a n : Nat}

theorem wp_storeBytes_program {bytes : List (BitVec 8)} (h : OfProgram a bytes.length) :
    wp (storeBytes a bytes) E Q s ↔ Q () s := by
  induction bytes generalizing a with
  | nil => rfl
  | cons b bytes ih =>
    have hhead : u32 a < kernelVirtBase := h 0 (Nat.succ_pos _)
    have htail : OfProgram (a + 1) bytes.length := fun k hk => by
      rw [Nat.add_assoc, Nat.add_comm 1]
      exact h (k + 1) (Nat.succ_lt_succ hk)
    rw [storeBytes, wp_bind, storeByte, if_neg (Nat.not_le.mpr hhead), wp_pure, ih htail]

theorem wp_memcpy_program {dst src : Nat} (h : OfProgram dst n) : wp (memcpy dst src n) E Q s ↔ Q () s := by
  rw [memcpy, wp_bind, wp_get]
  exact wp_storeBytes_program (by rwa [length_loadBytes])

theorem overwriteFile_outside {f : Nat} (b : BitVec 8) (x : VfsFile) (h : a < f ∨ f + sizeofFile ≤ a) :
    overwriteFile a b f x = x := by
  have hword : ∀ k w, k + 4 ≤ sizeofFile → word a b (f + k) w = w := fun k w hk => if_neg (by omega)
  have hflags : word a b f x.flags.toNat = x.flags.toNat := hword 0 _ (by decide)
  have hdev : ¬(f + 4 ≤ a ∧ a < f + 8) := fun hin => by
    unfold sizeofFile at h
    omega
  unfold overwriteFile
  rw [hflags, BitVec.ofNat_toNat, if_neg hdev]
  rw [hword 8 _ (by decide), hword 276 _ (by decide), hword 280 _ (by decide), hword 284 _ (by decide),
    hword 288 _ (by decide), hword 292 _ (by decide), hword 300 _ (by decide), BitVec.setWidth_eq]

end Stores

end YggKernel.Files
