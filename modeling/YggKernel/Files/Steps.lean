import YggKernel.Files.Effects
import YggKernel.Lib.Ownership
import YggKernel.Task.WakeUps

namespace YggKernel.Files

open Lib.Program Lib.BitWords Lib.ByteMemory Lib.Runs Lib.Ownership YggKernel.Task

structure FileState where
  wait : WaitState
  files : FileTable

abbrev FileState.sched (s : FileState) : Sched := s.wait.kernel.sched

abbrev FileState.system (s : FileState) : System := ⟨s.wait.kernel, s.files⟩

/-- The state when the kernel and the files have changed, but not the list of tasks. -/
def FileState.put (s : FileState) (t : System) : FileState := ⟨{ s.wait with kernel := t.kernel }, t.files⟩

/-- The calls of the tasks, with the block that the heap hands out to each file, and the interrupts. -/
inductive FileOp
  | call (op : TaskOp)
  | fault (regs : Nat)
  | timer
  | openFile (path : OpenPath) (block : Nat)
  | closeFile (fd : Int)
  | readFile (fd : Int) (buf len : Nat) (dirent : Option Nat)
  | create (t : Nat) (task : X86Task) (g : TaskSignal) (wr rd : Nat)
  | key (c : BitVec 8)
  | memory (mem : Mem)

/-- Whether a call ends with a switch. The other steps have rules of their own. -/
def callBlocks : TaskOp → Option Bool
  | .kill .. | .sigreturn | .signal _ | .execve _ | .tick _ => some false
  | .waitpid _ | .nanosleep .. | .exit => some true
  | _ => none

def Fresh (s : FileTable) (b : Nat) : Prop := b ≠ 0 ∧ s.allocs.count b = s.frees.count b

instance (s : FileTable) (b : Nat) : Decidable (Fresh s b) := inferInstanceAs (Decidable (_ ∧ _))

inductive Leaves (idle : Nat) : Bool → FileState → FileState → Prop
  | stay {s : FileState} : Leaves idle false s s
  | switch {s : FileState} {t : System} : InitSpared s.sched s.wait.tasks → taskSwitch idle s.system = .ok ((), t) →
      Leaves idle true s ⟨{ s.wait with
        kernel := t.kernel, tasks := if s.sched.taskingEntry then s.wait.tasks else alive s.sched s.wait.tasks }, t.files⟩

inductive FileStep (idle : Nat) : FileState → FileOp → FileState → Prop
  | call {s t : FileState} {op : TaskOp} {b : Bool} {w : WaitState} : callBlocks op = some b →
      WaitStep idle s.wait op w → Leaves idle b ⟨w, s.files⟩ t → FileStep idle s (.call op) t
  | fault {s t : FileState} {regs : Nat} {b : Bool} {w : WaitState} : signalFault regs s.wait.kernel = .ok (b, w.kernel) →
      WaitStep idle s.wait (.fault regs) w → Leaves idle b ⟨w, s.files⟩ t → FileStep idle s (.fault regs) t
  | timer {s t : FileState} : Leaves idle true s t → FileStep idle s .timer t
  | openFile {s : FileState} {t : System} {path : OpenPath} {block : Nat} {r : Int} : s.sched.current ≠ idle →
      Fresh s.files block → sysOpen path block s.system = .ok (r, t) → FileStep idle s (.openFile path block) (s.put t)
  | closeFile {s : FileState} {t : System} {fd r : Int} : s.sched.current ≠ idle →
      sysClose fd s.system = .ok (r, t) → FileStep idle s (.closeFile fd) (s.put t)
  | readFile {s u : FileState} {t : System} {fd : Int} {buf len : Nat} {dirent : Option Nat} {b : Bool} :
      s.sched.current ≠ idle → syscallRead fd buf len dirent s.system = .ok (b, t) → Leaves idle b (s.put t) u →
      FileStep idle s (.readFile fd buf len dirent) u
  | create {s : FileState} {w : WaitState} {files : FileTable} {fs t wr rd : Nat} {task : X86Task} {g : TaskSignal}
      {fds : List Nat} : Fresh s.files wr → Fresh s.files rd → rd ≠ wr →
      openTerminals fs t wr rd s.files = .ok (fds, files) → task.ctl.map TaskCtl.fds = some fds →
      WaitStep idle s.wait (.enable t task g) w → FileStep idle s (.create t task g wr rd) ⟨w, files⟩
  | key {s : FileState} {t : System} {c : BitVec 8} : ttyType c s.system = .ok ((), t) → FileStep idle s (.key c) (s.put t)
  | memory {s : FileState} {mem : Mem} :
      FileStep idle s (.memory mem) (s.put ⟨{ s.wait.kernel with mem := mem }, s.files⟩)

def FileRun (idle : Nat) : FileState → FileState → Prop := Run (FileStep idle) always

/-- A read stores nothing into the memory of the kernel, neither when it is called nor when a key completes it. -/
def Spares (s : FileState) : FileOp → FileState → Prop
  | .readFile fd buf len _, _ => CallReadsToProgram s.system fd buf len
  | .key _, _ => s.files.pending 0 ≠ 0 → SendsToProgram s.system (s.files.pending 0) 1
  | _, _ => True

def held (s : FileState) : List Nat := s.wait.tasks.flatMap (openFiles s.sched)

structure Reads (s : FileState) (x k : Nat) : Prop where
  busy : hasFlag s.sched taskFlgBusy x = true
  held : s.files.pending k ∈ openFiles s.sched x
  file : ¬isDir (s.files.file (s.files.pending k))

/-- What holds also in the middle of a call. -/
structure FilesInv (idle : Nat) (s : FileState) : Prop where
  wait : WaitInv idle s.wait
  entry : s.sched.taskingEntry = true → s.sched.current = idle
  stopped : ∀ x ∈ s.wait.tasks, hasFlag s.sched taskFlgStop x = true → hasFlag s.sched taskFlgBusy x = false
  slots : ∀ x ∈ s.wait.tasks, x ≠ idle → (fdsOf s.sched x).length = 4
  accounted : Accounted s.files.allocs s.files.frees (held s)
  owner : ∀ x ∈ s.wait.tasks, ∀ f ∈ openFiles s.sched x, ¬isDir (s.files.file f) →
    (s.files.file f).task = 0 ∨ (s.files.file f).task = x
  pending : ∀ k, s.files.pending k ≠ 0 → ∃ x ∈ s.wait.tasks, Reads s x k
  single : ∀ x ∈ s.wait.tasks, ∀ j k, Reads s x j → Reads s x k → j = k

/-- What holds between the steps. -/
structure Between (idle : Nat) (s : FileState) : Prop where
  inv : FilesInv idle s
  running : ∀ x ∈ s.wait.tasks, hasFlag s.sched taskFlgStop x = false
  awake : hasFlag s.sched taskFlgBusy s.sched.current = false

section Same

variable {idle : Nat} {s t : FileState}

theorem openFiles_congr {s t : Sched} {x : Nat} (h : fdsOf t x = fdsOf s x) : openFiles t x = openFiles s x := by
  rw [openFiles, h, openFiles]

theorem fdsOf_congr {s t : Sched} {x : Nat} (h : (t.task x).ctl.map TaskCtl.fds = (s.task x).ctl.map TaskCtl.fds) :
    fdsOf t x = fdsOf s x := by
  rw [fdsOf, h, fdsOf]

theorem hasFlag_congr {s t : Sched} {f : BitVec 32} {x : Nat} (h : (t.task x).flag &&& f = (s.task x).flag &&& f) :
    hasFlag t f x = hasFlag s f x := by
  rw [hasFlag, h, hasFlag]

theorem reads_iff {x : Nat} (hbusy : hasFlag t.sched taskFlgBusy x = hasFlag s.sched taskFlgBusy x)
    (hopen : hasFlag s.sched taskFlgBusy x = true → openFiles t.sched x = openFiles s.sched x)
    (hpending : t.files.pending = s.files.pending)
    (hflags : ∀ f ∈ openFiles s.sched x, (t.files.file f).flags = (s.files.file f).flags) (k : Nat) :
    Reads t x k ↔ Reads s x k := by
  refine ⟨fun hr => ?_, fun hr => ?_⟩
  · have hbusy' := hbusy.symm.trans hr.busy
    have hheld := hr.held
    rw [hopen hbusy', hpending] at hheld
    have hfile := hr.file
    rw [isDir, hpending, hflags _ hheld] at hfile
    exact ⟨hbusy', hheld, hfile⟩
  · refine ⟨hbusy.trans hr.busy, ?_, ?_⟩
    · rw [hopen hr.busy, hpending]
      exact hr.held
    · rw [isDir, hpending, hflags _ hr.held]
      exact hr.file

theorem mem_openFiles_ne {s : Sched} {x f : Nat} (h : f ∈ openFiles s x) : f ≠ 0 := by
  simpa using (List.mem_filter.mp h).2

theorem Reads.pending_ne {x k : Nat} (hr : Reads s x k) : s.files.pending k ≠ 0 := mem_openFiles_ne hr.held

theorem FilesInv.readers (h : FilesInv idle s) (hpending : t.files.pending = s.files.pending)
    (hreads : ∀ x ∈ s.wait.tasks, ∀ k, Reads t x k ↔ Reads s x k)
    (hmem : ∀ x ∈ s.wait.tasks, hasFlag s.sched taskFlgBusy x = true → x ∈ t.wait.tasks) :
    ∀ k, t.files.pending k ≠ 0 → ∃ x ∈ t.wait.tasks, Reads t x k := by
  intro k hk
  obtain ⟨x, hx, hr⟩ := h.pending k (hpending ▸ hk)
  exact ⟨x, hmem x hx hr.busy, (hreads x hx k).mpr hr⟩

theorem FilesInv.of_same (h : FilesInv idle s) (hwait : WaitInv idle t.wait) (htasks : t.wait.tasks = s.wait.tasks)
    (hentry : t.sched.taskingEntry = true → t.sched.current = idle)
    (hstopped : ∀ x ∈ s.wait.tasks, hasFlag t.sched taskFlgStop x = true → hasFlag t.sched taskFlgBusy x = false)
    (hfds : ∀ x ∈ s.wait.tasks, fdsOf t.sched x = fdsOf s.sched x) (hfiles : SameFiles s.files t.files)
    (hpending : ∀ k, t.files.pending k ≠ 0 → ∃ x ∈ s.wait.tasks, Reads t x k)
    (hsingle : ∀ x ∈ s.wait.tasks, ∀ j k, Reads t x j → Reads t x k → j = k) : FilesInv idle t := by
  refine ⟨hwait, hentry, htasks ▸ hstopped, fun x hx hne => ?_, ?_, fun x hx f hf hdir => ?_, htasks ▸ hpending,
    htasks ▸ hsingle⟩
  · rw [htasks] at hx
    rw [hfds x hx]
    exact h.slots x hx hne
  · have hheld : held t = held s := by
      rw [held, htasks]
      exact List.flatMap_congr fun x hx => openFiles_congr (hfds x hx)
    rw [hfiles.allocs, hfiles.frees, hheld]
    exact h.accounted
  · rw [htasks] at hx
    rw [openFiles_congr (hfds x hx)] at hf
    rw [isDir, (hfiles.file f).1] at hdir
    rw [(hfiles.file f).2.2]
    exact h.owner x hx f hf hdir

theorem FilesInv.of_kept (h : FilesInv idle s) (hwait : WaitInv idle t.wait) (htasks : t.wait.tasks = s.wait.tasks)
    (hentry : t.sched.taskingEntry = true → t.sched.current = idle)
    (hstopped : ∀ x ∈ s.wait.tasks, hasFlag t.sched taskFlgStop x = true → hasFlag s.sched taskFlgBusy x = false)
    (hfds : ∀ x ∈ s.wait.tasks, fdsOf t.sched x = fdsOf s.sched x)
    (hbusy : ∀ x ∈ s.wait.tasks, hasFlag t.sched taskFlgBusy x = hasFlag s.sched taskFlgBusy x)
    (hfiles : SameFiles s.files t.files) (hpending : t.files.pending = s.files.pending) : FilesInv idle t := by
  have hreads : ∀ x ∈ s.wait.tasks, ∀ k, Reads t x k ↔ Reads s x k := fun x hx =>
    reads_iff (hbusy x hx) (fun _ => openFiles_congr (hfds x hx)) hpending fun f _ => (hfiles.file f).1
  refine h.of_same hwait htasks hentry (fun x hx hs => (hbusy x hx).trans (hstopped x hx hs)) hfds hfiles ?_
    fun x hx j k hj hk => h.single x hx j k ((hreads x hx j).mp hj) ((hreads x hx k).mp hk)
  have hreaders := h.readers hpending hreads fun x hx _ => htasks.symm ▸ hx
  rwa [htasks] at hreaders

end Same

section Calls

variable {idle : Nat} {s w : WaitState} {b : Bool}

/-- What a call keeps of the tasks: only one that blocks may stop its task. -/
structure CallKept (s t : Sched) (b : Bool) : Prop where
  current : t.current = s.current
  entry : t.taskingEntry = s.taskingEntry
  fds : ∀ x, fdsOf t x = fdsOf s x
  busy : ∀ x, hasFlag t taskFlgBusy x = hasFlag s taskFlgBusy x
  stop : ∀ x, hasFlag t taskFlgStop x = true → hasFlag s taskFlgStop x = true ∨ b = true ∧ x = s.current

theorem callKept_write {s : Sched} {y : Nat} {task : X86Task}
    (hfds : task.ctl.map TaskCtl.fds = (s.task y).ctl.map TaskCtl.fds)
    (hbusy : task.flag &&& taskFlgBusy = (s.task y).flag &&& taskFlgBusy)
    (hstop : task.flag &&& taskFlgStop ≠ 0#32 → (s.task y).flag &&& taskFlgStop ≠ 0#32 ∨ b = true ∧ y = s.current) :
    CallKept s (writeTask s y task) b := by
  refine ⟨rfl, rfl, fun x => fdsOf_congr ?_, fun x => hasFlag_congr ?_, fun x hx => ?_⟩
  · exact update_field (fun x : X86Task => x.ctl.map TaskCtl.fds) hfds x
  · exact update_field (fun x : X86Task => x.flag &&& taskFlgBusy) hbusy x
  · by_cases hxy : x = y
    · rw [hasFlag_self, hxy, writeTask_self] at hx
      rw [hasFlag_self, hxy]
      exact hstop hx
    · rw [hasFlag, writeTask_of_ne _ _ hxy] at hx
      exact .inl hx

theorem callKept_same {s t : Sched} (htask : t.task = s.task) (hcurrent : t.current = s.current)
    (hentry : t.taskingEntry = s.taskingEntry) : CallKept s t b := by
  refine ⟨hcurrent, hentry, fun x => fdsOf_congr (by rw [htask]), fun x => hasFlag_congr (by rw [htask]), fun x hx => ?_⟩
  rw [hasFlag, htask] at hx
  exact .inl hx

theorem callKept_entered {k k₁ k' : Kernel} {x : Nat} (hsched : k₁.sched = k.sched) (h : Entered k₁ x k') :
    CallKept k.sched k'.sched b := by
  rw [h.state, ← hsched]
  refine callKept_write rfl (and_not_and.trans (if_neg (by decide))) fun hstop => .inl ?_
  rwa [taskFlgWait, taskFlgStop, and_not_and, if_neg (by decide)] at hstop

theorem called {op : TaskOp} (h : WaitInv idle s)
    (hawake : hasFlag s.kernel.sched taskFlgBusy s.kernel.sched.current = false) (hop : callBlocks op = some b)
    (hstep : WaitStep idle s op w) : w.tasks = s.tasks ∧ CallKept s.kernel.sched w.kernel.sched b := by
  cases hstep with
  | enable | fault | files | busy | nobusy | switch => cases hop
  | waitpid hne _ hrun =>
    obtain ⟨ctl, hctl⟩ := h.caller hne
    obtain rfl := of_run (wp_blockOnPid (E := anyFault) hctl) hrun
    refine ⟨rfl, callKept_write ?_ ?_ fun hstop => absurd ?_ hstop⟩
    · rw [hctl]
      rfl
    · rw [hasFlag_eq_false.mp hawake]
      exact (by decide : taskFlgWait &&& taskFlgBusy = 0#32)
    · exact (by decide : taskFlgWait &&& taskFlgStop = 0#32)
  | nanosleep hne hrun =>
    obtain ⟨ctl, hctl⟩ := h.caller hne
    obtain rfl := of_run (wp_blockOnTime (E := anyFault) hctl) hrun
    refine ⟨rfl, callKept_write ?_ ?_ fun hstop => .inl ?_⟩
    · rw [hctl, Option.map_some, Option.map_some]
    · exact or_and_of_ne (by decide)
    · rwa [taskFlgWait, taskFlgStop, or_and_of_ne (by decide)] at hstop
  | kill hfind hrun =>
    obtain ⟨-, ⟨-, rfl⟩ | ⟨-, -, k₁, hk₁, hentered | ⟨-, rfl⟩⟩⟩ := of_run (wp_sysKill hfind) hrun
    · exact ⟨rfl, callKept_same rfl rfl rfl⟩
    · exact ⟨rfl, callKept_entered (by rw [hk₁]) hentered⟩
    · exact ⟨rfl, by rw [hk₁]; exact callKept_same rfl rfl rfl⟩
  | sigreturn _ hrun =>
    obtain rfl := of_run wp_sysSigreturn hrun
    exact ⟨rfl, callKept_write rfl rfl .inl⟩
  | exit _ hrun =>
    obtain rfl := of_run (wp_sysExit (E := anyFault)) hrun
    cases hop
    exact ⟨rfl, callKept_write rfl (or_and_of_ne (by decide)) fun _ => .inr ⟨rfl, rfl⟩⟩
  | signal _ hrun =>
    obtain rfl := of_run wp_sysSignal hrun
    exact ⟨rfl, callKept_same rfl rfl rfl⟩
  | execve _ _ hrun =>
    obtain rfl := Except.ok.inj hrun |> congrArg Prod.snd
    exact ⟨rfl, callKept_same rfl rfl rfl⟩
  | tick => exact ⟨rfl, callKept_same rfl rfl rfl⟩

theorem faulted {regs : Nat} (h : WaitInv idle s) (hrun : signalFault regs s.kernel = .ok (b, w.kernel))
    (hstep : WaitStep idle s (.fault regs) w) : w.tasks = s.tasks ∧ CallKept s.kernel.sched w.kernel.sched b := by
  cases hstep with
  | fault hne _ =>
    obtain ⟨ctl, hctl⟩ := h.caller hne
    obtain ⟨g, -, -, -, k₁, hk₁, hcase⟩ := of_run (wp_signalFault hctl) hrun
    refine ⟨rfl, ?_⟩
    cases b with
    | true =>
      rw [if_pos rfl] at hcase
      rw [hcase]
      exact callKept_write rfl (or_and_of_ne (by decide)) fun _ => .inr ⟨rfl, rfl⟩
    | false =>
      rw [if_neg (by decide)] at hcase
      exact callKept_entered (by rw [hk₁]) hcase

end Calls

section Leaving

variable {idle : Nat} {s t : FileState}

theorem awake_of_switched {s t : Sched} {l : List Nat} (h : Switched s l t) : hasFlag t taskFlgBusy t.current = false := by
  have hfree := List.find?_some h.current
  rw [Bool.not_eq_true', waits, Bool.or_eq_false_iff] at hfree
  exact hfree.2

theorem taskSwitch_same (h : FilesInv idle s) (hspared : InitSpared s.sched s.wait.tasks) {u : System}
    (hrun : taskSwitch idle s.system = .ok ((), u)) :
    (∀ x, hasFlag u.kernel.sched taskFlgBusy x = hasFlag s.sched taskFlgBusy x) ∧
      (∀ x, openFiles u.kernel.sched x = openFiles s.sched x) ∧ u.files.file = s.files.file ∧
      u.files.pending = s.files.pending := by
  cases hentry : s.sched.taskingEntry with
  | true =>
    obtain rfl := of_run (wp_taskSwitch_entry hentry) hrun
    exact ⟨fun _ => rfl, fun _ => rfl, rfl, rfl⟩
  | false =>
    obtain ⟨hswitch, hsame, freed, -, hfiles⟩ := of_run (wp_taskSwitch h.wait.sched hentry) hrun
    obtain ⟨v, hv, hk⟩ := onSched_run hswitch
    refine ⟨fun x => ?_, fun x => openFiles_congr (hsame.fdsOf x), by rw [hfiles], by rw [hfiles]⟩
    rw [hk]
    exact (of_run (wp_switch h.wait.sched hentry hspared) hv).1.busy x

/-- The state after a switch: the files of the stopped tasks are closed, and no others. -/
theorem inv_switched (h : FilesInv idle s) (hentry : s.sched.taskingEntry = false)
    (hspared : InitSpared s.sched s.wait.tasks) {u : System} (hrun : taskSwitch idle s.system = .ok ((), u)) :
    Between idle ⟨{ s.wait with kernel := u.kernel, tasks := alive s.sched s.wait.tasks }, u.files⟩ := by
  obtain ⟨hswitch, hsame, freed, hfreed, hfiles⟩ := of_run (wp_taskSwitch h.wait.sched hentry) hrun
  have hwait := inv_switchWait h.wait hspared hswitch
  rw [if_neg (by simp [show s.wait.kernel.sched.taskingEntry = false from hentry])] at hwait
  obtain ⟨v, hv, hk⟩ := onSched_run hswitch
  have hswitched := (of_run (wp_switch h.wait.sched hentry hspared) hv).1
  obtain ⟨hbusy, hopen, -, hpending⟩ := taskSwitch_same h hspared hrun
  have hstop : ∀ x ∈ alive s.sched s.wait.tasks, hasFlag u.kernel.sched taskFlgStop x = false := by
    intro x hx
    have := (List.mem_filter.mp hx).2
    rw [hsame.stop]
    simpa using this
  have hmem : ∀ x ∈ alive s.sched s.wait.tasks, x ∈ s.wait.tasks := fun x hx => List.mem_of_mem_filter hx
  have hreads : ∀ x k, Reads ⟨{ s.wait with kernel := u.kernel, tasks := alive s.sched s.wait.tasks }, u.files⟩ x k ↔
      Reads s x k := fun x =>
    reads_iff (hbusy x) (fun _ => hopen x) hpending fun f _ => by rw [hfiles]
  have halive : ∀ x ∈ s.wait.tasks, hasFlag s.sched taskFlgBusy x = true → x ∈ alive s.sched s.wait.tasks := by
    refine fun x hx hb => List.mem_filter.mpr ⟨hx, ?_⟩
    cases hs : hasFlag s.sched taskFlgStop x with
    | false => rfl
    | true =>
      rw [h.stopped x hx hs] at hb
      cases hb
  refine ⟨⟨hwait, fun he => ?_, fun x hx hs => ?_, fun x hx hne => ?_, ?_, fun x hx f hf => ?_,
    h.readers hpending (fun x _ => hreads x) halive, fun x hx j k hj hk => ?_⟩, hstop, ?_⟩
  · rw [FileState.sched, hsame.entry, show s.wait.kernel.sched.taskingEntry = false from hentry] at he
    cases he
  · rw [FileState.sched, hstop x hx] at hs
    cases hs
  · rw [FileState.sched, hsame.fdsOf]
    exact h.slots x (hmem x hx) hne
  · have hheld : (held s).Perm (freed ++ held ⟨{ s.wait with kernel := u.kernel, tasks := alive s.sched s.wait.tasks },
        u.files⟩) := by
      refine (flatMap_filter_perm (hasFlag s.sched taskFlgStop) _ _).trans ?_
      refine (hfreed.symm.append_right _).trans (List.Perm.append_left _ ?_)
      exact List.Perm.flatMap_left _ fun x _ => (hopen x).symm ▸ List.Perm.refl _
    rw [hfiles]
    exact h.accounted.free hheld
  · rw [FileState.sched, hopen] at hf
    rw [hfiles]
    exact h.owner x (hmem x hx) f hf
  · exact h.single x (hmem x hx) j k ((hreads x j).mp hj) ((hreads x k).mp hk)
  · rw [FileState.sched, hk]
    exact awake_of_switched hswitched

theorem waitInv_congr {k : Kernel} (h : WaitInv idle s.wait) (htask : k.sched.task = s.sched.task)
    (hfirst : k.sched.first = s.sched.first) (hlast : k.sched.last = s.sched.last)
    (hcurrent : k.sched.current = s.sched.current) (hpid : k.sched.lastPid = s.sched.lastPid)
    (hsignal : k.signal = s.wait.kernel.signal) : WaitInv idle { s.wait with kernel := k } := by
  have hflag : ∀ f x, hasFlag k.sched f x = hasFlag s.sched f x := fun f x => by rw [hasFlag, htask, hasFlag]
  have hpids : pidOf k.sched = pidOf s.sched := funext fun x => by rw [pidOf, htask, pidOf]
  refine ⟨h.sched.of_same htask hfirst hlast hcurrent, ?_, fun x hx hne hfree => ?_, ?_, fun x hx hwait => ?_, fun hlt => ?_⟩
  · rw [htask]
    exact h.idle_ctl
  · rw [htask, hsignal]
    exact h.frame x hx hne hfree
  · rw [hsignal]
    exact h.apart
  · obtain ⟨w, hbegan, hmatch⟩ := h.began x hx (hflag _ _ ▸ hwait)
    exact ⟨w, hbegan, hmatch.of_same (by rw [htask]) (by rw [htask])⟩
  · rw [hpids, hpid]
    exact h.pids hlt

theorem inv_entered (h : FilesInv idle s) (hentry : s.sched.taskingEntry = true) {u : System}
    (hrun : taskSwitch idle s.system = .ok ((), u)) : Between idle (s.put u) := by
  obtain rfl := of_run (wp_taskSwitch_entry hentry) hrun
  have hidle : s.sched.current = idle := h.entry hentry
  have hfree := h.wait.sched.idle_free
  refine ⟨h.of_kept (waitInv_congr h.wait rfl rfl rfl rfl rfl rfl) rfl (fun _ => hidle) h.stopped (fun _ _ => rfl)
    (fun _ _ => rfl) ⟨rfl, rfl, fun g => ⟨rfl, rfl, rfl⟩⟩ rfl, fun x hx => ?_, ?_⟩
  · by_cases hxi : x = idle
    · rw [hxi]
      exact hfree.2
    · exact (h.wait.sched.others x hx fun he => hxi (he.trans hidle)).1
  · exact hidle ▸ (Bool.or_eq_false_iff.mp hfree.1).2

theorem inv_leaves {b : Bool} (h : FilesInv idle s)
    (hquiet : b = false → (∀ x ∈ s.wait.tasks, hasFlag s.sched taskFlgStop x = false) ∧
      hasFlag s.sched taskFlgBusy s.sched.current = false) (hleaves : Leaves idle b s t) : Between idle t := by
  cases hleaves with
  | stay => exact ⟨h, (hquiet rfl).1, (hquiet rfl).2⟩
  | switch hspared hrun =>
    cases hentry : s.sched.taskingEntry with
    | true =>
      rw [if_pos rfl]
      exact inv_entered h hentry hrun
    | false =>
      rw [if_neg (by decide)]
      exact inv_switched h hentry hspared hrun

end Leaving

end YggKernel.Files
