import YggKernel.Files.Layout

namespace YggKernel.Files

open Lib.Program Lib.BitWords Lib.ByteMemory YggKernel.Task

def vfsFlgRd : BitVec 32 := mask 0
def vfsFlgWr : BitVec 32 := mask 1
def vfsFlgDir : BitVec 32 := mask 21

def vfsTypeReg : BitVec 32 := 0
def vfsTypeBlk : BitVec 32 := 1
def vfsTypeChr : BitVec 32 := 2

def vfsReadAsync : Int := -2

def enoent : Int := 2
def ebadf : Int := 9
def enfile : Int := 23

def onKernel {α : Type} (p : Prog Fault Kernel α) : Prog Fault System α := fun s =>
  (p s.kernel).map fun r => (r.1, { s with kernel := r.2 })

def onFiles {α : Type} (p : Prog Fault FileTable α) : Prog Fault System α := fun s =>
  (p s.files).map fun r => (r.1, { s with files := r.2 })

def setFile (f : Nat) (g : VfsFile → VfsFile) : Prog Fault FileTable Unit :=
  modify fun s => { s with file := Function.update s.file f (g (s.file f)) }

def heapAlloc (block : Nat) : Prog Fault FileTable Unit := modify fun s => { s with allocs := block :: s.allocs }

def heapFree (block : Nat) : Prog Fault FileTable Unit := modify fun s => { s with frees := block :: s.frees }

/-- What `open` of a file system finds at a path. -/
inductive Node
  | file (start size : Nat)
  | device (dev : Device)

def emptyFile : VfsFile := ⟨0, .none, 0, 0, 0, 0, 0, 0, 0⟩

def devType : Device → BitVec 32
  | .tty _ => vfsTypeChr
  | _ => vfsTypeBlk

def devOpen (dev : Device) (f : Nat) : Prog Fault FileTable Int := do
  setFile f fun x => { x with flags := x.flags &&& ~~~(7#32 <<< 2) }
  setFile f fun x => { x with flags := x.flags ||| devType dev <<< 2 }
  setFile f fun x => { x with dev := dev }
  return 0

def fsOpen (node : Option Node) (f : Nat) : Prog Fault FileTable Int := do
  match node with
  | none => return -1
  | some (.file start size) =>
    setFile f fun x => { x with pos0 := start, pos1 := size }
    return 0
  | some (.device dev) => devOpen dev f

/-- The mount and the node are what `vfs_lookup_file` and the file system find. -/
def vfsOpen (lookup : Option (Nat × Option Node)) (flags : BitVec 32) (block : Nat) : Prog Fault FileTable Nat := do
  match lookup with
  | none => return 0
  | some (fs, node) =>
    kassert (fs != 0) "mount->fs && mount->fs->open"
    heapAlloc block
    setFile block fun _ => emptyFile
    setFile block fun x => { x with fs := fs }
    setFile block fun x => { x with flags := x.flags ||| (flags &&& 3) }
    if (← fsOpen node block) ≠ 0 then
      heapFree block
      return 0
    else return block

/-- The block is not cleared: it is what the heap left there. -/
def vfsOpendir (lookup : Option (Nat × Device × Bool)) (block : Nat) (left : VfsFile) : Prog Fault FileTable Nat := do
  match lookup with
  | none => return 0
  | some (fs, srcdev, found) =>
    kassert (fs != 0) "mnt->fs && mnt->fs->opendir"
    heapAlloc block
    setFile block fun _ => left
    setFile block fun x => { x with flags := x.flags ||| vfsFlgDir }
    setFile block fun x => { x with dev := srcdev, fs := fs }
    if found then return block
    else
      heapFree block
      return 0

/-- No file system has a `close` function. -/
def vfsClose (f : Nat) : Prog Fault FileTable Unit := do
  if f ≠ 0 then
    kassert (((← get).file f).fs != 0) "f->fs"
    heapFree f

/-- The copy goes to whatever address the program gave. -/
def initramfsRead (f data len : Nat) : Prog Fault System Int := do
  let x := (← get).files.file f
  let l := if len > x.pos1 then x.pos1 else len
  memcpy data x.pos0 l
  onFiles (setFile f fun x => { x with pos1 := sub32 x.pos1 l })
  onFiles (setFile f fun x => { x with pos0 := u32 (x.pos0 + l) })
  return (BitVec.ofNat 32 l).toInt

def ttyRead (k f : Nat) : Prog Fault FileTable Int := do
  if (← get).pending k ≠ 0 then throw (.panic "TTY is already locked by some other operation\n")
  modify fun s => { s with pending := Function.update s.pending k f }
  return vfsReadAsync

/-- The function `read` of the file system or of the device. -/
def fileRead (f buf len : Nat) : Prog Fault System Int := do
  let x := (← get).files.file f
  let type := (x.flags >>> 2) &&& 7
  if type = vfsTypeReg then
    kassert (x.fs != 0) "f->fs"
    initramfsRead f buf len
  else if type = vfsTypeBlk ∨ type = vfsTypeChr then
    match x.dev with
    | .none => throw (assertionFailed "f->dev")
    | .other => throw (assertionFailed "f->dev->read")
    | .tty k => onFiles (ttyRead k f)
  else throw (.panic "Unsupported descriptor type\n")

def vfsRead (f buf len res : Nat) : Prog Fault System Int := do
  let x := (← get).files.file f
  if x.flags &&& vfsFlgRd = 0 then return -1
  if x.opBuf ≠ 0 then throw (.panic "The file is locked by some other operation\n")
  onFiles (setFile f fun x => { x with opBuf := buf })
  onFiles (setFile f fun x => { x with opRes := res })
  onKernel (storeWord res 0)
  onFiles (setFile f fun x => { x with opLen := len })
  let r ← fileRead f buf len
  if r ≠ vfsReadAsync then onFiles (setFile f fun x => { x with opBuf := 0 })
  return r

def currentFds : Prog Fault System (List Nat) := do
  let t ← onKernel currentTask
  let ctl ← onKernel (onSched (ctlOf t))
  return ctl.fds

def setFd (t fd f : Nat) : Prog Fault System Unit :=
  onKernel (onSched (setTask t fun x => { x with ctl := x.ctl.map fun c => { c with fds := c.fds.set fd f } }))

def sysRead (fd : Int) (buf len res : Nat) (dirent : Option Nat) : Prog Fault System Int := do
  if fd < 0 ∨ fd ≥ 4 then return -1
  let fp := (← currentFds).getD fd.toNat 0
  if fp = 0 then return -1
  if ((← get).files.file fp).flags &&& vfsFlgDir ≠ 0 then
    kassert (len == 268) "len == sizeof(struct vfs_dirent)"
    match dirent with
    | none => return -1
    | some n => return n
  else
    onKernel (storeWord res 0)
    vfsRead fp buf len res

/-- The case of `x86_syscall` for a read, and whether it then calls `x86_task_switch`. The registers
of the caller lie in its context. -/
def syscallRead (fd : Int) (buf len : Nat) (dirent : Option Nat) : Prog Fault System Bool := do
  let t ← onKernel currentTask
  onKernel (onSched (mmSet ((← get).kernel.sched.task t).pd))
  let res := ((← get).kernel.sched.task t).esp0 + offEax
  let r ← sysRead fd buf len res dirent
  if r = vfsReadAsync then
    onKernel (do taskBusy (← currentTask))
    return true
  else
    onKernel (storeWord res (BitVec.ofInt 32 r).toNat)
    return false

/-- What `sys_open` is asked to open, with what the heap left in the block for a directory. -/
inductive OpenPath
  | dir (lookup : Option (Nat × Device × Bool)) (left : VfsFile)
  | file (lookup : Option (Nat × Option Node)) (mode : BitVec 32)

def openMode (mode : BitVec 32) : BitVec 32 :=
  (if mode &&& mask 0 ≠ 0 then vfsFlgRd else 0) ||| (if mode &&& mask 1 ≠ 0 then vfsFlgWr else 0)

def openPath (path : OpenPath) (block : Nat) : Prog Fault FileTable Nat :=
  match path with
  | .dir lookup left => vfsOpendir lookup block left
  | .file lookup mode => vfsOpen lookup (openMode mode) block

def sysOpen (path : OpenPath) (block : Nat) : Prog Fault System Int := do
  let t ← onKernel currentTask
  match (← currentFds).findIdx? (· = 0) with
  | none => return -enfile
  | some fd =>
    let f ← onFiles (openPath path block)
    if f = 0 then return -enoent
    setFd t fd f
    return fd

def sysClose (fd : Int) : Prog Fault System Int := do
  let t ← onKernel currentTask
  if fd < 0 ∨ fd > 3 then return -ebadf
  let f := (← currentFds).getD fd.toNat 0
  if f ≠ 0 then
    onFiles (vfsClose f)
    setFd t fd.toNat 0
  return 0

/-- The descriptors that `task_fork` and `task_fexecve` open for a new task. -/
def openTerminals (fs dst wr rd : Nat) : Prog Fault FileTable (List Nat) := do
  let fdWr ← vfsOpen (some (fs, some (.device (.tty 0)))) vfsFlgWr wr
  kassert (fdWr != 0) "fd_tty_wr"
  setFile fdWr fun x => { x with task := dst }
  let fdRd ← vfsOpen (some (fs, some (.device (.tty 0)))) vfsFlgRd rd
  kassert (fdRd != 0) "fd_tty_rd"
  setFile fdRd fun x => { x with task := dst }
  return [fdWr, fdRd, 0, 0]

/-- The copy of `vfs_send_read_res`. What is sent to a task goes to the memory of its program. -/
def copyRes (x : VfsFile) (done : Nat) (src : List (BitVec 8)) : Prog Fault System Unit :=
  if x.task = 0 then storeBytes (x.opBuf + done) src else return ()

/-- The part of `vfs_send_read_res` after the copy. -/
def countRes (f sz : Nat) : Prog Fault System Int := do
  let x := (← get).files.file f
  let done ← onKernel (loadWord x.opRes)
  onKernel (storeWord x.opRes (u32 (done + sz)))
  if u32 (done + sz) = x.opLen then
    onFiles (setFile f fun x => { x with opBuf := 0 })
    if x.task ≠ 0 then onKernel (taskNobusy x.task)
    return 1
  return 0

def vfsSendReadRes (f : Nat) (src : List (BitVec 8)) : Prog Fault System Int := do
  let x := (← get).files.file f
  kassert (f != 0 && x.opBuf != 0 && x.opRes != 0) "f && f->op_buf && f->op_res"
  let done ← onKernel (loadWord x.opRes)
  if done = 0xFFFFFFFF then
    onFiles (setFile f fun x => { x with opBuf := 0 })
    return 1
  let sz := if src.length > x.opLen then x.opLen else src.length
  copyRes x done (src.take sz)
  countRes f sz

/-- Only the first terminal has a keyboard. -/
def ttyType (c : BitVec 8) : Prog Fault System Unit := do
  let f := (← get).files.pending 0
  if f ≠ 0 then
    kassert (((← get).files.file f).opBuf != 0) "tty->pending->op_buf"
    kassert (((← get).files.file f).opRes != 0) "tty->pending->op_res"
    if (← vfsSendReadRes f [c]) = 1 then
      onFiles (modify fun s => { s with pending := Function.update s.pending 0 0 })

/-- The files that `task_destroy` closes, the last one first, are closed. -/
def closeReleased : List Release → Prog Fault FileTable Unit
  | [] => return ()
  | .file f :: rest => do
    closeReleased rest
    vfsClose f
  | _ :: rest => closeReleased rest

/-- `x86_task_switch`, which closes the files of the tasks that it destroys. -/
def taskSwitch (idle : Nat) : Prog Fault System Unit := do
  let before := (← get).kernel.sched.released
  onKernel (onSched (x86TaskSwitch idle))
  let after := (← get).kernel.sched.released
  onFiles (closeReleased (after.take (after.length - before.length)))

@[simp] theorem wp_onKernel {α : Type} (p : Prog Fault Kernel α) {E : Fault → Prop} (Q : α → System → Prop) (s : System) :
    wp (onKernel p) E Q s ↔ wp p E (fun a k => Q a { s with kernel := k }) s.kernel := by
  unfold wp onKernel
  cases p s.kernel <;> rfl

@[simp] theorem wp_onFiles {α : Type} (p : Prog Fault FileTable α) {E : Fault → Prop} (Q : α → System → Prop) (s : System) :
    wp (onFiles p) E Q s ↔ wp p E (fun a f => Q a { s with files := f }) s.files := by
  unfold wp onFiles
  cases p s.files <;> rfl

@[simp] theorem wp_setFile {E : Fault → Prop} {Q : Unit → FileTable → Prop} {s : FileTable} (f : Nat) (g : VfsFile → VfsFile) :
    wp (setFile f g) E Q s ↔ Q () { s with file := Function.update s.file f (g (s.file f)) } := Iff.rfl

end YggKernel.Files
