import YggKernel.Files.Ownership

namespace YggKernel.Files

open Lib.Program Lib.BitWords Lib.ByteMemory Lib.Runs Lib.Ownership YggKernel.Task

/-- A read of a terminal wakes its task up again: the file names the task, there is a buffer, and no
other read is pending. A read of a regular file does not return what stands for a read that waits, and
stores nothing into the memory of the kernel. -/
def ReadWakes (s : FileState) (fd : Int) (buf len : Nat) : Prop :=
  let x := s.files.file (calledFile s.sched fd)
  0 ≤ fd → fd < 4 → calledFile s.sched fd ≠ 0 → ¬isDir x → x.flags &&& vfsFlgRd ≠ 0 →
    if (x.flags >>> 2) &&& 7 = vfsTypeReg then
      min len x.pos1 % 4294967296 ≠ 4294967294 ∧ OfProgram buf (min len x.pos1)
    else ∀ k, x.dev = .tty k → x.task ≠ 0 ∧ buf ≠ 0 ∧ s.files.pending k = 0

/-- The count of a pending read is not the one that stands for an error. -/
def KeyCounts (s : FileState) : Prop :=
  s.files.pending 0 ≠ 0 → load32 s.wait.kernel.mem (s.files.file (s.files.pending 0)).opRes ≠ 0xFFFFFFFF

def Wakes (s : FileState) : FileOp → FileState → Prop
  | .readFile fd buf len _, _ => ReadWakes s fd buf len
  | .key _, _ => KeyCounts s
  | _, _ => True

/-- A busy task waits for a file that names it, and no other file is locked. -/
structure Watched (s : FileState) : Prop where
  reader : ∀ x ∈ s.wait.tasks, hasFlag s.sched taskFlgBusy x = true → ∃ k, Reads s x k ∧
    (s.files.file (s.files.pending k)).task = x ∧ (s.files.file (s.files.pending k)).opBuf ≠ 0
  locked : ∀ f ∈ held s, ¬isDir (s.files.file f) → (s.files.file f).opBuf ≠ 0 → ∃ k, s.files.pending k = f

structure Framed (s t : FileState) : Prop where
  busy : ∀ x ∈ t.wait.tasks, hasFlag t.sched taskFlgBusy x = true →
    x ∈ s.wait.tasks ∧ hasFlag s.sched taskFlgBusy x = true ∧ openFiles t.sched x = openFiles s.sched x
  pending : t.files.pending = s.files.pending
  file : ∀ f ∈ held s, (t.files.file f).flags = (s.files.file f).flags ∧ (t.files.file f).task = (s.files.file f).task ∧
    (t.files.file f).opBuf = (s.files.file f).opBuf
  fresh : ∀ f ∈ held t, f ∉ held s → ¬isDir (t.files.file f) → (t.files.file f).opBuf = 0

def Continues (s t : FileState) : Prop := ∀ k, s.files.pending k ≠ 0 → t.files.pending k = s.files.pending k ∧
  (t.files.file (s.files.pending k)).task = (s.files.file (s.files.pending k)).task

/-- A pending read goes on and its task stays busy, or it is over and its task is no longer busy. -/
def ReadsComplete (s t : FileState) : Prop := ∀ k, s.files.pending k ≠ 0 →
  t.files.pending k = s.files.pending k ∧
      hasFlag t.sched taskFlgBusy (s.files.file (s.files.pending k)).task = true ∨
    t.files.pending k = 0 ∧ hasFlag t.sched taskFlgBusy (s.files.file (s.files.pending k)).task = false

section Frames

variable {idle : Nat} {s t u : FileState}

theorem mem_held {x f : Nat} (hx : x ∈ s.wait.tasks) (hf : f ∈ openFiles s.sched x) : f ∈ held s :=
  List.mem_flatMap.mpr ⟨x, hx, hf⟩

theorem Watched.frame (h : Watched s) (hf : Framed s t) : Watched t := by
  refine ⟨fun x hx hb => ?_, fun f hft hdir hbuf => ?_⟩
  · obtain ⟨hxs, hbs, hopen⟩ := hf.busy x hx hb
    obtain ⟨k, hr, htask, hbuf⟩ := h.reader x hxs hbs
    obtain ⟨hflags, htask', hbuf'⟩ := hf.file _ (mem_held hxs hr.held)
    refine ⟨k, ⟨hb, ?_, ?_⟩, ?_, ?_⟩
    · rw [hopen, hf.pending]
      exact hr.held
    · rw [isDir, hf.pending, hflags]
      exact hr.file
    · rw [hf.pending, htask', htask]
    · rwa [hf.pending, hbuf']
  · by_cases hfs : f ∈ held s
    · obtain ⟨hflags, -, hbuf'⟩ := hf.file f hfs
      rw [isDir, hflags] at hdir
      rw [hbuf'] at hbuf
      rw [hf.pending]
      exact h.locked f hfs hdir hbuf
    · exact absurd (hf.fresh f hft hfs hdir) hbuf

theorem Framed.continues (h : FilesInv idle s) (hf : Framed s t) : Continues s t := by
  intro k hk
  obtain ⟨x, hx, hr⟩ := h.pending k hk
  exact ⟨by rw [hf.pending], (hf.file _ (mem_held hx hr.held)).2.1⟩

theorem Continues.trans (h : Continues s t) (h' : Continues t u) : Continues s u := by
  intro k hk
  obtain ⟨hsame, htask⟩ := h k hk
  obtain ⟨hsame', htask'⟩ := h' k (hsame ▸ hk)
  rw [hsame] at hsame' htask'
  exact ⟨hsame', htask'.trans htask⟩

theorem framed_of_same (htasks : ∀ x ∈ t.wait.tasks, x ∈ s.wait.tasks)
    (hbusy : ∀ x ∈ t.wait.tasks, hasFlag t.sched taskFlgBusy x = hasFlag s.sched taskFlgBusy x)
    (hopen : ∀ x ∈ t.wait.tasks, openFiles t.sched x = openFiles s.sched x) (hpending : t.files.pending = s.files.pending)
    (hfile : ∀ f ∈ held s, (t.files.file f).flags = (s.files.file f).flags ∧
      (t.files.file f).task = (s.files.file f).task ∧ (t.files.file f).opBuf = (s.files.file f).opBuf) : Framed s t := by
  refine ⟨fun x hx hb => ⟨htasks x hx, (hbusy x hx).symm.trans hb, hopen x hx⟩, hpending, hfile,
    fun f hf hnot => absurd ?_ hnot⟩
  obtain ⟨x, hx, hxf⟩ := List.mem_flatMap.mp hf
  exact mem_held (htasks x hx) (hopen x hx ▸ hxf)

theorem framed_leaves {b : Bool} (h : FilesInv idle s) (hleaves : Leaves idle b s t) : Framed s t := by
  cases hleaves with
  | stay => exact framed_of_same (fun _ hx => hx) (fun _ _ => rfl) (fun _ _ => rfl) rfl fun f _ => ⟨rfl, rfl, rfl⟩
  | switch hspared hrun =>
    obtain ⟨hbusy, hopen, hfile, hpending⟩ := taskSwitch_same h hspared hrun
    refine framed_of_same (fun x hx => ?_) (fun x _ => hbusy x) (fun x _ => hopen x) hpending
      fun f _ => by rw [hfile]; exact ⟨rfl, rfl, rfl⟩
    dsimp only at hx
    split at hx
    · exact hx
    · exact List.mem_of_mem_filter hx

theorem watched_leaves {b : Bool} (h : FilesInv idle s) (hw : Watched s) (hleaves : Leaves idle b s t) :
    Watched t ∧ Continues s t :=
  ⟨hw.frame (framed_leaves h hleaves), (framed_leaves h hleaves).continues h⟩

theorem watched_called {b : Bool} {w : WaitState} (h : Between idle s) (hw : Watched s) (hwait : WaitInv idle w)
    (htasks : w.tasks = s.wait.tasks) (hkept : CallKept s.sched w.kernel.sched b)
    (hleaves : Leaves idle b ⟨w, s.files⟩ t) : Watched t ∧ Continues s t := by
  have hf : Framed s ⟨w, s.files⟩ := framed_of_same (fun x hx => htasks ▸ hx) (fun x _ => hkept.busy x)
    (fun x _ => openFiles_congr (hkept.fds x)) rfl fun f _ => ⟨rfl, rfl, rfl⟩
  obtain ⟨hwatched, hcont⟩ := watched_leaves (inv_calledMid h hwait htasks hkept) (hw.frame hf) hleaves
  exact ⟨hwatched, (hf.continues h.inv).trans hcont⟩

theorem framed_slot {v : System} {old new : Nat} (h : Between idle s) (hset : SlotSet s.wait.kernel old new v.kernel)
    (hfile : ∀ f ∈ held s, v.files.file f = s.files.file f) (hpending : v.files.pending = s.files.pending)
    (hclean : new ≠ 0 → ¬isDir (v.files.file new) → (v.files.file new).opBuf = 0) : Framed s (s.put v) := by
  have hheld := held_set h.inv.wait hset
  obtain ⟨ctl, fd, hctl, hslot, hk⟩ := hset
  have hflag : ∀ x, hasFlag v.kernel.sched taskFlgBusy x = hasFlag s.sched taskFlgBusy x := by
    intro x
    rw [hk]
    exact hasFlag_congr (update_field (fun y : X86Task => y.flag &&& taskFlgBusy) (by rfl) x)
  refine ⟨fun x hx hb => ⟨hx, (hflag x).symm.trans hb, openFiles_congr (fdsOf_congr ?_)⟩, hpending,
    fun f hf => by rw [FileState.put, hfile f hf]; exact ⟨rfl, rfl, rfl⟩, fun f hf hnot hdir => ?_⟩
  · have hne : x ≠ s.sched.current := by
      rintro rfl
      have hb' := (hflag _).symm.trans hb
      rw [h.awake] at hb'
      cases hb'
    rw [FileState.sched, FileState.put, hk, writeTask_of_ne _ _ hne]
  · rcases List.mem_append.mp (hheld.subset (List.mem_append_right _ hf)) with hnew | hold
    · unfold slotFiles at hnew
      split at hnew
      · cases hnew
      · rename_i hnz
        rw [List.mem_singleton.mp hnew] at hdir ⊢
        exact hclean hnz hdir
    · exact absurd hold hnot

theorem framed_openFile {v : System} {path : OpenPath} {block : Nat} {r : Int} (h : Between idle s)
    (hfresh : Fresh s.files block) (hrun : sysOpen path block s.system = .ok (r, v)) : Framed s (s.put v) := by
  have hnot := h.inv.accounted.not_held hfresh.2
  have hne : ∀ f ∈ held s, f ≠ block := fun f hf he => hnot (he ▸ hf)
  rcases of_run (wp_sysOpen hfresh.1) hrun with ⟨hkernel, hfiles | hmissed⟩ | ⟨hset, hopened⟩
  · refine framed_of_same (fun _ hx => hx) (fun x _ => by rw [FileState.put, hkernel])
      (fun x _ => by rw [FileState.put, hkernel]) (by rw [FileState.put, hfiles]) fun f _ => ?_
    rw [FileState.put, hfiles]
    exact ⟨rfl, rfl, rfl⟩
  · refine framed_of_same (fun _ hx => hx) (fun x _ => by rw [FileState.put, hkernel])
      (fun x _ => by rw [FileState.put, hkernel]) hmissed.pending fun f hf => ?_
    rw [FileState.put, hmissed.other f (hne f hf)]
    exact ⟨rfl, rfl, rfl⟩
  · exact framed_slot h hset (fun f hf => hopened.other f (hne f hf)) hopened.pending
      fun _ hdir => (hopened.task hdir).2

theorem framed_closeFile {v : System} {fd r : Int} (h : Between idle s) (hrun : sysClose fd s.system = .ok (r, v)) :
    Framed s (s.put v) := by
  rcases of_run wp_sysClose hrun with rfl | ⟨f, hf, hset, hfiles⟩
  · exact framed_of_same (fun _ hx => hx) (fun _ _ => rfl) (fun _ _ => rfl) rfl fun f _ => ⟨rfl, rfl, rfl⟩
  · exact framed_slot h hset (fun g _ => by rw [hfiles]) (by rw [hfiles]) fun h0 => absurd rfl h0

theorem framed_create {x wr rd : Nat} (hwr : wr ≠ 0) (hrd : rd ≠ 0) (hj : Joined s x wr rd t) : Framed s t := by
  refine ⟨fun y hy hb => ?_, hj.terminals.pending, fun f hf => by rw [hj.file f hf]; exact ⟨rfl, rfl, rfl⟩,
    fun f hf hnot _ => ?_⟩
  · rcases hj.cases hy with hy | rfl
    · exact ⟨hy, (hj.flags y hy _).symm.trans hb, openFiles_congr (hj.fds y hy)⟩
    · rw [hj.clear] at hb
      cases hb
  · obtain ⟨y, hy, hyf⟩ := List.mem_flatMap.mp hf
    rcases hj.cases hy with hy | rfl
    · exact absurd (mem_held hy (openFiles_congr (hj.fds y hy) ▸ hyf)) hnot
    · rw [hj.newOpen hwr hrd] at hyf
      exact (hj.terminals.task f (by simpa using hyf)).2

theorem framed_readNow {v : System} (htasks : SameTasks s.wait.kernel v.kernel) (hfiles : SameFiles s.files v.files)
    (hpending : v.files.pending = s.files.pending) (hbuf : ∀ g, (v.files.file g).opBuf = (s.files.file g).opBuf) :
    Framed s (s.put v) := by
  refine framed_of_same (fun _ hx => hx) (fun x _ => hasFlag_congr ?_) (fun x _ => openFiles_congr (fdsOf_congr ?_)) hpending
    fun f _ => ⟨(hfiles.file f).1, (hfiles.file f).2.2, hbuf f⟩
  · rw [FileState.put, htasks.task]
  · rw [FileState.put, htasks.task]

/-- The current task waits for a terminal that no other task waits for, and the file names it. -/
theorem watched_readBlocks {v : System} {k : Kernel} {f j buf : Nat} (h : Between idle s) (hw : Watched s)
    (htasks : SameTasks s.wait.kernel k) (hbusy : taskBusy k.sched.current k = .ok ((), v.kernel))
    (hfiles : SameFiles s.files v.files) (hf : f ∈ openFiles s.sched s.sched.current) (hdir : ¬isDir (s.files.file f))
    (hfree : s.files.pending j = 0) (hpending : v.files.pending = Function.update s.files.pending j f)
    (hbuf : ∀ g, (v.files.file g).opBuf = if g = f then buf else (s.files.file g).opBuf)
    (htask : (s.files.file f).task ≠ 0) (hbuf0 : buf ≠ 0) : Watched (s.put v) ∧ Continues s (s.put v) := by
  obtain ⟨-, -, hself, hother, hfds, -⟩ := busied htasks hbusy
  have hopen : ∀ x, openFiles v.kernel.sched x = openFiles s.sched x := fun x => openFiles_congr (hfds x)
  have hkept : ∀ i, s.files.pending i ≠ 0 → v.files.pending i = s.files.pending i := by
    intro i hi
    rw [hpending, Function.update_of_ne]
    rintro rfl
    exact hi hfree
  have hpf : v.files.pending j = f := by rw [hpending, Function.update_self]
  refine ⟨⟨fun x hx hb => ?_, fun g hg hgdir hgbuf => ?_⟩, fun i hi => ⟨hkept i hi, (hfiles.file _).2.2⟩⟩
  · by_cases hxc : x = s.sched.current
    · have howner : (s.files.file f).task = s.sched.current :=
        (h.inv.owner _ h.inv.wait.sched.current f hf hdir).resolve_left htask
      refine ⟨j, ⟨hb, ?_, ?_⟩, ?_, ?_⟩
      · rw [FileState.sched, FileState.put, hpf, hopen, hxc]
        exact hf
      · rw [isDir, FileState.put, hpf, (hfiles.file f).1]
        exact hdir
      · rw [FileState.put, hpf, (hfiles.file f).2.2, hxc, howner]
      · rw [FileState.put, hpf, hbuf, if_pos rfl]
        exact hbuf0
    · obtain ⟨i, hr, htask', hbuf'⟩ := hw.reader x hx ((hother x hxc).symm.trans hb)
      have hi := hkept i hr.pending_ne
      have hne : s.files.pending i ≠ f := fun he => pending_not_current h hr.pending_ne (he ▸ hf)
      refine ⟨i, ⟨hb, ?_, ?_⟩, ?_, ?_⟩
      · rw [FileState.sched, FileState.put, hi, hopen]
        exact hr.held
      · rw [isDir, FileState.put, hi, (hfiles.file _).1]
        exact hr.file
      · rw [FileState.put, hi, (hfiles.file _).2.2, htask']
      · rw [FileState.put, hi, hbuf, if_neg hne]
        exact hbuf'
  · have hg' : g ∈ held s := by
      obtain ⟨x, hx, hxg⟩ := List.mem_flatMap.mp hg
      exact mem_held hx (hopen x ▸ hxg)
    by_cases hgf : g = f
    · exact ⟨j, hpf.trans hgf.symm⟩
    · rw [FileState.put, hbuf, if_neg hgf] at hgbuf
      rw [isDir, FileState.put, (hfiles.file g).1] at hgdir
      obtain ⟨i, hi⟩ := hw.locked g hg' hgdir hgbuf
      have hgne : s.files.pending i ≠ 0 := by
        obtain ⟨x, -, hxg⟩ := List.mem_flatMap.mp hg'
        rw [hi]
        exact mem_openFiles_ne hxg
      exact ⟨i, (hkept i hgne).trans hi⟩

theorem ReadWakes.spares {fd : Int} {buf len : Nat} (h : ReadWakes s fd buf len) :
    CallReadsToProgram s.system fd buf len := by
  intro hge hlt hf hdir hrd hreg
  have hcond := h hge hlt hf hdir hrd
  rw [if_pos hreg] at hcond
  exact hcond.2

theorem watched_readFile {v : System} {fd : Int} {buf len : Nat} {dirent : Option Nat} {b : Bool} (h : Between idle s)
    (hw : Watched s) (hne : s.sched.current ≠ idle) (hwakes : ReadWakes s fd buf len)
    (hrun : syscallRead fd buf len dirent s.system = .ok (b, v)) (hleaves : Leaves idle b (s.put v) t) :
    Watched t ∧ Continues s t := by
  obtain ⟨hfiles, ⟨k, htasks, hkernel⟩, hout⟩ := of_run (wp_syscallRead hwakes.spares) hrun
  rcases hkernel with ⟨rfl, hbusy⟩ | ⟨rfl, hkernel⟩
  · rcases hout with ⟨-, hb, -⟩ | ⟨r, hge, hlt, hf, hdir, hr, hout⟩
    · cases hb
    · cases hout with
      | done hnot => exact absurd (hr.mp rfl) hnot
      | waits _ hrd htype j hdev hfree hpending hbuf =>
        have hcond := hwakes hge hlt hf hdir hrd
        rw [if_neg htype] at hcond
        obtain ⟨htask, hbuf0, -⟩ := hcond j hdev
        have hinv := inv_readBlocks h hne htasks hbusy hfiles (calledFile_open hf) hdir (.inr ⟨j, hfree, hpending⟩)
        obtain ⟨hmid, hcont⟩ := watched_readBlocks h hw htasks hbusy hfiles (calledFile_open hf) hdir hfree hpending
          hbuf htask hbuf0
        obtain ⟨hwatched, hcont'⟩ := watched_leaves hinv hmid hleaves
        exact ⟨hwatched, hcont.trans hcont'⟩
      | overlong _ hrd _ htype hlen =>
        have hcond := hwakes hge hlt hf hdir hrd
        rw [if_pos htype] at hcond
        exact absurd hlen hcond.1
  · rw [← hkernel] at htasks
    have hquiet : v.files.pending = s.files.pending ∧ ∀ g, (v.files.file g).opBuf = (s.files.file g).opBuf := by
      rcases hout with ⟨hpending, -, hbuf⟩ | ⟨r, -, -, -, -, hr, hout⟩
      · exact ⟨hpending, hbuf⟩
      · cases hout with
        | done _ hpending hbuf => exact ⟨hpending, hbuf⟩
        | waits hasync => exact absurd (hr.mpr hasync) (by decide)
        | overlong hasync => exact absurd (hr.mpr hasync) (by decide)
    have hframed := framed_readNow htasks hfiles hquiet.1 hquiet.2
    obtain ⟨hwatched, hcont⟩ := watched_leaves (inv_readNow h htasks hfiles hquiet.1).inv (hw.frame hframed) hleaves
    exact ⟨hwatched, (hframed.continues h.inv).trans hcont⟩

/-- The file of a pending read names its task, which is the one that reads. -/
theorem Watched.names (hw : Watched s) (h : FilesInv idle s) {k : Nat} (hk : s.files.pending k ≠ 0) :
    (s.files.file (s.files.pending k)).task ∈ s.wait.tasks ∧ Reads s (s.files.file (s.files.pending k)).task k := by
  obtain ⟨x, hx, hr⟩ := h.pending k hk
  obtain ⟨j, hr', htask, -⟩ := hw.reader x hx hr.busy
  obtain rfl := h.single x hx k j hr hr'
  rw [htask]
  exact ⟨hx, hr⟩

theorem Continues.completes (hc : Continues s t) (hw : Watched s) (h : FilesInv idle s) (ht : FilesInv idle t) :
    ReadsComplete s t := by
  intro k hk
  obtain ⟨hsame, htask⟩ := hc k hk
  obtain ⟨hmem, -⟩ := hw.names h hk
  have hne := h.wait.sched.ne_zero hmem
  refine .inl ⟨hsame, ?_⟩
  have hreader := (reader_of_pending ht (k := k) (hsame ▸ hk) (by rw [hsame, htask]; exact hne)).2.busy
  rwa [hsame, htask] at hreader

theorem Watched.sends (hw : Watched s) (h : FilesInv idle s) (hpending : s.files.pending 0 ≠ 0) :
    SendsToProgram s.system (s.files.pending 0) 1 :=
  fun htask => absurd htask (h.wait.sched.ne_zero (hw.names h hpending).1)

theorem pending_apart (h : FilesInv idle s) {x y i j : Nat} (hx : x ∈ s.wait.tasks) (hrx : Reads s x i)
    (hy : y ∈ s.wait.tasks) (hry : Reads s y j) (hne : y ≠ x) : s.files.pending j ≠ s.files.pending i :=
  fun he => hne (one_owner h.accounted.nodup hy hx (he ▸ hry.held) hrx.held)

theorem opBuf_readOver (files : FileTable) :
    ((readOver files).file (files.pending 0)).opBuf = 0 ∧
      ∀ g, g ≠ files.pending 0 → ((readOver files).file g).opBuf = (files.file g).opBuf := by
  unfold readOver
  dsimp only
  refine ⟨?_, fun g hg => ?_⟩
  · rw [Function.update_self]
  · rw [Function.update_of_ne hg]

section Woken

variable {x : Nat} {v : System} (hself : hasFlag v.kernel.sched taskFlgBusy x = false)
  (hother : ∀ y, y ≠ x → hasFlag s.sched taskFlgBusy y = hasFlag v.kernel.sched taskFlgBusy y)
  (hmem : x ∈ s.wait.tasks) (hreader : Reads s x 0) (hfiles : v.files = readOver s.files)
include hself hother hmem hreader hfiles

theorem Watched.woken (hw : Watched s) (h : FilesInv idle s) (hfds : ∀ y, fdsOf v.kernel.sched y = fdsOf s.sched y) :
    Watched (s.put v) := by
  have hopen : ∀ y, openFiles v.kernel.sched y = openFiles s.sched y := fun y => openFiles_congr (hfds y)
  have hsame : SameFiles s.files v.files := hfiles ▸ sameFiles_readOver s.files
  obtain ⟨hbuf0, hbuf⟩ := opBuf_readOver s.files
  rw [← hfiles] at hbuf0 hbuf
  have hset : v.files.pending = Function.update s.files.pending 0 0 := by
    rw [hfiles]
    rfl
  refine ⟨fun y hy hb => ?_, fun g hg hgdir hgbuf => ?_⟩
  · have hyx : y ≠ x := by
      rintro rfl
      rw [FileState.sched, FileState.put, hself] at hb
      cases hb
    obtain ⟨j, hr, htask, hbufj⟩ := hw.reader y hy ((hother y hyx).trans hb)
    -- No other task reads the file, and no other terminal.
    have hpj := pending_apart h hmem hreader hy hr hyx
    have hj : v.files.pending j = s.files.pending j := by
      rw [hset, Function.update_of_ne]
      rintro rfl
      exact hpj rfl
    refine ⟨j, ⟨hb, ?_, ?_⟩, ?_, ?_⟩
    · rw [FileState.sched, FileState.put, hj, hopen]
      exact hr.held
    · rw [isDir, FileState.put, hj, (hsame.file _).1]
      exact hr.file
    · rw [FileState.put, hj, (hsame.file _).2.2, htask]
    · rw [FileState.put, hj, hbuf _ hpj]
      exact hbufj
  · obtain ⟨y, hy, hyg⟩ := List.mem_flatMap.mp hg
    have hg' : g ∈ held s := mem_held hy (hopen y ▸ hyg)
    have hgp : g ≠ s.files.pending 0 := by
      rintro rfl
      exact hgbuf hbuf0
    rw [FileState.put, hbuf g hgp] at hgbuf
    rw [isDir, FileState.put, (hsame.file g).1] at hgdir
    obtain ⟨j, rfl⟩ := hw.locked g hg' hgdir hgbuf
    refine ⟨j, ?_⟩
    rw [FileState.put, hset, Function.update_of_ne]
    rintro rfl
    exact hgp rfl

theorem completes_woken (hw : Watched s) (h : FilesInv idle s) (htask : (s.files.file (s.files.pending 0)).task = x) :
    ReadsComplete s (s.put v) := by
  have hset : v.files.pending = Function.update s.files.pending 0 0 := by
    rw [hfiles]
    rfl
  intro k hk
  by_cases hk0 : k = 0
  · refine .inr ⟨?_, ?_⟩
    · rw [FileState.put, hset, hk0, Function.update_self]
    · rw [hk0, htask]
      exact hself
  · refine .inl ⟨by rw [FileState.put, hset, Function.update_of_ne hk0], ?_⟩
    obtain ⟨hmemk, hrk⟩ := hw.names h hk
    refine (hother _ fun he => hk0 ?_).symm.trans hrk.busy
    exact h.single x hmem k 0 (he ▸ hrk) hreader

end Woken

theorem watched_key {v : System} {c : BitVec 8} (h : Between idle s) (hw : Watched s) (hcounts : KeyCounts s)
    (hrun : ttyType c s.system = .ok ((), v)) : Watched (s.put v) ∧ ReadsComplete s (s.put v) := by
  have hnext := inv_key h (hw.sends h.inv) hrun
  cases of_run (wp_ttyType (hw.sends h.inv)) hrun with
  | more mem hu =>
    have hframed : Framed s (s.put v) := by
      rw [hu]
      exact framed_of_same (fun _ hx => hx) (fun _ _ => rfl) (fun _ _ => rfl) rfl fun f _ => ⟨rfl, rfl, rfl⟩
    exact ⟨hw.frame hframed, (hframed.continues h.inv).completes hw h.inv hnext.inv⟩
  | broken hpending hcount => exact absurd hcount (hcounts hpending)
  | done hpending mem hkernel hfiles =>
    obtain ⟨hmem, hreader⟩ := hw.names h.inv hpending
    rw [if_neg (h.inv.wait.sched.ne_zero hmem)] at hkernel
    obtain ⟨-, -, hself, hother, hfds, -⟩ := unbusied hkernel
    exact ⟨hw.woken hself (fun y hy => (hother y hy).symm) hmem hreader hfiles h.inv hfds,
      completes_woken hself (fun y hy => (hother y hy).symm) hmem hreader hfiles hw h.inv rfl⟩

theorem Wakes.spares {op : FileOp} (h : Between idle s) (hw : Watched s) (hwakes : Wakes s op t) : Spares s op t := by
  cases op with
  | readFile fd buf len dirent => exact ReadWakes.spares hwakes
  | key c => exact hw.sends h.inv
  | call | fault | timer | openFile | closeFile | create | memory => trivial

theorem watched_step {op : FileOp} (h : Between idle s) (hw : Watched s) (hstep : FileStep idle s op t)
    (hwakes : Wakes s op t) : Watched t ∧ ReadsComplete s t := by
  have hnext := between_step h hstep (hwakes.spares h hw)
  have hdone : ∀ {u : FileState}, Between idle u → Watched u ∧ Continues s u → Watched u ∧ ReadsComplete s u :=
    fun hu ⟨hwatched, hcont⟩ => ⟨hwatched, hcont.completes hw h.inv hu.inv⟩
  have hframe : ∀ {u : FileState}, Between idle u → Framed s u → Watched u ∧ ReadsComplete s u :=
    fun hu hf => hdone hu ⟨hw.frame hf, hf.continues h.inv⟩
  cases hstep with
  | call hop hstep hleaves =>
    obtain ⟨htasks, hkept⟩ := called h.inv.wait h.awake hop hstep
    exact hdone hnext (watched_called h hw (inv_waitStep h.inv.wait hstep) htasks hkept hleaves)
  | fault hrun hstep hleaves =>
    obtain ⟨htasks, hkept⟩ := faulted h.inv.wait hrun hstep
    exact hdone hnext (watched_called h hw (inv_waitStep h.inv.wait hstep) htasks hkept hleaves)
  | timer hleaves => exact hdone hnext (watched_leaves h.inv hw hleaves)
  | openFile hne hfresh hrun => exact hframe hnext (framed_openFile h hfresh hrun)
  | closeFile hne hrun => exact hframe hnext (framed_closeFile h hrun)
  | readFile hne hrun hleaves => exact hdone hnext (watched_readFile h hw hne hwakes hrun hleaves)
  | create hwr hrd hne hopen hfds hstep =>
    exact hframe hnext (framed_create hwr.1 hrd.1 (joined h hwr hrd hne hopen hfds hstep))
  | key hrun => exact watched_key h hw hwakes hrun
  | memory =>
    exact hframe hnext
      (framed_of_same (fun _ hx => hx) (fun _ _ => rfl) (fun _ _ => rfl) rfl fun f _ => ⟨rfl, rfl, rfl⟩)

end Frames

/-- Not one of the two panics that a read of something in use ends in. -/
def NotLocked (e : Fault) : Prop :=
  e ≠ .panic "TTY is already locked by some other operation\n" ∧ e ≠ .panic "The file is locked by some other operation\n"

instance (e : Fault) : Decidable (NotLocked e) := inferInstanceAs (Decidable (_ ∧ _))

section Panics

variable {idle : Nat} {s : FileState}

theorem fileRead_not_locked {s : System} {f buf len : Nat} {Q : Int → System → Prop} (hQ : ∀ r t, Q r t)
    (hread : ReadsToProgram (s.files.file f) buf len)
    (hfree : ((s.files.file f).flags >>> 2) &&& 7 ≠ vfsTypeReg → ∀ k, (s.files.file f).dev = .tty k →
      s.files.pending k = 0) : wp (fileRead f buf len) NotLocked Q s := by
  rw [fileRead, wp_bind, wp_get]
  dsimp only
  by_cases hreg : ((s.files.file f).flags >>> 2) &&& 7 = vfsTypeReg
  · rw [if_pos hreg, wp_bind, wp_kassert]
    refine ⟨fun _ => ?_, fun _ => (by decide : NotLocked (assertionFailed "f->fs"))⟩
    rw [initramfsRead, wp_bind, wp_get]
    dsimp only
    rw [cut_eq, wp_bind, wp_memcpy_program (hread hreg), wp_bind, wp_onFiles, wp_setFile, wp_bind, wp_onFiles, wp_setFile,
      wp_pure]
    exact hQ _ _
  · rw [if_neg hreg]
    by_cases hdev : ((s.files.file f).flags >>> 2) &&& 7 = vfsTypeBlk ∨ ((s.files.file f).flags >>> 2) &&& 7 = vfsTypeChr
    · rw [if_pos hdev]
      cases htty : (s.files.file f).dev with
      | none => exact (by decide : NotLocked (assertionFailed "f->dev"))
      | other => exact (by decide : NotLocked (assertionFailed "f->dev->read"))
      | tty k =>
        dsimp only
        rw [wp_onFiles, ttyRead, wp_bind, wp_get, if_neg (not_not_intro (hfree hreg k htty)), wp_bind, wp_modify, wp_pure]
        exact hQ _ _
    · rw [if_neg hdev]
      exact (by decide : NotLocked (.panic "Unsupported descriptor type\n"))

theorem vfsRead_not_locked {s : System} {f buf len res : Nat} {Q : Int → System → Prop} (hQ : ∀ r t, Q r t)
    (hbuf : (s.files.file f).flags &&& vfsFlgRd ≠ 0 → (s.files.file f).opBuf = 0)
    (hread : (s.files.file f).flags &&& vfsFlgRd ≠ 0 → ReadsToProgram (s.files.file f) buf len)
    (hfree : (s.files.file f).flags &&& vfsFlgRd ≠ 0 → ((s.files.file f).flags >>> 2) &&& 7 ≠ vfsTypeReg →
      ∀ k, (s.files.file f).dev = .tty k → s.files.pending k = 0) : wp (vfsRead f buf len res) NotLocked Q s := by
  rw [vfsRead, wp_bind, wp_get]
  dsimp only
  by_cases hrd : (s.files.file f).flags &&& vfsFlgRd = 0
  · rw [if_pos hrd, wp_pure]
    exact hQ _ _
  · rw [if_neg hrd, if_neg (not_not_intro (hbuf hrd))]
    simp only [wp_bind, wp_onFiles, wp_setFile, wp_onKernel, storeWord, wp_modify, Function.update_self,
      Function.update_idem]
    refine fileRead_not_locked (fun r t => ?_) ?_ ?_
    · split
      · rw [wp_bind, wp_onFiles, wp_setFile, wp_pure]
        exact hQ _ _
      · exact hQ _ _
    · dsimp only
      rw [Function.update_self]
      exact hread hrd
    · dsimp only
      rw [Function.update_self]
      exact hfree hrd

/-- A read by the task that runs finds neither its file nor its terminal in use. -/
theorem read_not_locked {fd : Int} {buf len : Nat} {dirent : Option Nat} (h : Between idle s) (hw : Watched s)
    (hne : s.sched.current ≠ idle) (hwakes : ReadWakes s fd buf len) :
    wp (syscallRead fd buf len dirent) NotLocked (fun _ _ => True) s.system := by
  obtain ⟨ctl, hctl⟩ := h.inv.wait.caller hne
  have hcalled : ctl.fds.getD fd.toNat 0 = calledFile s.sched fd := by
    rw [calledFile, fdsOf_eq hctl]
  simp only [syscallRead, currentTask, mmSet, wp_bind, wp_onKernel, wp_get, wp_pure, wp_onSched, wp_modify]
  have hall : ∀ r t, wp (if r = vfsReadAsync then do
      onKernel (do taskBusy (← (do return (← get).sched.current)))
      return true
    else do
      onKernel (storeWord ((s.wait.kernel.sched.task s.wait.kernel.sched.current).esp0 + offEax) (BitVec.ofInt 32 r).toNat)
      return false) NotLocked (fun _ _ => True) t := by
    intro r t
    by_cases hr : r = vfsReadAsync
    · rw [if_pos hr]
      trivial
    · rw [if_neg hr]
      trivial
  unfold sysRead
  by_cases hfd : fd < 0 ∨ fd ≥ 4
  · rw [if_pos hfd, wp_pure]
    exact hall _ _
  · rw [if_neg hfd, wp_bind]
    refine wp_currentFds_of hctl ?_
    dsimp only
    rw [hcalled]
    by_cases hf : calledFile s.sched fd = 0
    · rw [if_pos hf, wp_pure]
      exact hall _ _
    · rw [if_neg hf, wp_bind, wp_get]
      by_cases hdir : (s.files.file (calledFile s.sched fd)).flags &&& vfsFlgDir ≠ 0
      · rw [if_pos hdir, wp_bind, wp_kassert]
        refine ⟨fun _ => ?_, fun _ => (by decide : NotLocked (assertionFailed "len == sizeof(struct vfs_dirent)"))⟩
        cases dirent with
        | none => exact (wp_pure _ _).mpr (hall _ _)
        | some n => exact (wp_pure _ _).mpr (hall _ _)
      · rw [if_neg hdir, wp_bind, wp_onKernel, storeWord, wp_modify]
        have hopen := calledFile_open hf
        refine vfsRead_not_locked (fun r t => hall r t) (fun _ => ?_)
          (hwakes.spares (by omega) (by omega) hf hdir) fun hrd hreg k hdev => ?_
        · by_contra hbuf
          obtain ⟨k, hk⟩ := hw.locked _ (mem_held h.inv.wait.sched.current hopen) hdir hbuf
          exact pending_not_current h (hk ▸ hf) (hk ▸ hopen)
        · have hcond := hwakes (by omega) (by omega) hf hdir hrd
          rw [if_neg hreg] at hcond
          exact (hcond k hdev).2.2

end Panics

/-- The file `f` is the one that wakes the busy task `x` up. -/
def Waker (s : FileState) (x f : Nat) : Prop :=
  f ≠ 0 ∧ (s.files.file f).task = x ∧ (s.files.file f).opBuf ≠ 0 ∧ ∃ k, f = s.files.pending k

/-- Each busy task has one waker, the step that completes a read wakes its task, and no read by the
task that runs panics because something is in use. -/
structure TasksWake (idle : Nat) (s : FileState) : Prop where
  waker : ∀ x ∈ s.wait.tasks, hasFlag s.sched taskFlgBusy x = true → ∃! f, Waker s x f
  completes : ∀ op t, FileStep idle s op t → Wakes s op t → ReadsComplete s t
  unlocked : ∀ fd buf len dirent, s.sched.current ≠ idle → ReadWakes s fd buf len →
    wp (syscallRead fd buf len dirent) NotLocked (fun _ _ => True) s.system

theorem Watched.wake {idle : Nat} {s : FileState} (hw : Watched s) (h : Between idle s) : TasksWake idle s := by
  refine ⟨fun x hx hb => ?_, fun _ _ hstep hwakes => (watched_step h hw hstep hwakes).2,
    fun _ _ _ _ hne hwakes => read_not_locked h hw hne hwakes⟩
  obtain ⟨k, hr, htask, hbuf⟩ := hw.reader x hx hb
  refine ⟨s.files.pending k, ⟨hr.pending_ne, htask, hbuf, k, rfl⟩, ?_⟩
  rintro f ⟨hf, hftask, -, j, rfl⟩
  have hreads := (hw.names h.inv hf).2
  rw [hftask] at hreads
  rw [h.inv.single x hx j k hreads hr]

theorem watched_start {idle : Nat} {k : Kernel} {file : Nat → VfsFile} {L : Layout} (h : WaitInv idle (startState idle k))
    (hbusy : hasFlag k.sched taskFlgBusy idle = false) : Watched (fileStart idle k file L) := by
  refine ⟨fun x hx hb => ?_, fun f hf => ?_⟩
  · obtain rfl := List.mem_singleton.mp hx
    exact absurd (hbusy.symm.trans hb) (by decide)
  · obtain ⟨x, hx, hxf⟩ := List.mem_flatMap.mp hf
    obtain rfl := List.mem_singleton.mp hx
    have hnone : (k.sched.task x).ctl = none := h.idle_ctl
    rw [openFiles, fdsOf, show ((fileStart x k file L).sched.task x).ctl = none from hnone] at hxf
    cases hxf

/-- As long as every read can wake its task, every busy task has one file that wakes it up. -/
theorem busy_tasks_wake {idle : Nat} (h0 : idle ≠ 0) (hlt : idle < 4294967296) (esp0 : Nat) (file : Nat → VfsFile)
    (L : Layout) {k₀ : Kernel} (hpid : k₀.sched.lastPid = 0) :
    wp (onSched (x86TaskInit idle esp0)) noFault
      (fun _ k => ∀ s, Run (FileStep idle) Wakes (fileStart idle k file L) s → TasksWake idle s) k₀ := by
  refine wp_imp (inv_start h0 hlt hpid) fun _ k hk s hrun => ?_
  have hbusy : hasFlag k.sched taskFlgBusy idle = false := (Bool.or_eq_false_iff.mp hk.sched.idle_free.1).2
  obtain ⟨h, hw⟩ := hrun.invariant (fun s => Between idle s ∧ Watched s)
    (fun _ _ _ h hstep hwakes => ⟨between_step h.1 hstep (hwakes.spares h.1 h.2), (watched_step h.1 h.2 hstep hwakes).1⟩)
    ⟨between_start hk hbusy, watched_start hk hbusy⟩
  exact hw.wake h

/-- A task reads a file and then from the terminal that it was created with. -/
theorem busy_tasks_wake_two_reads : hasFlag (readState (copiedState 0x80000000) 1).sched taskFlgBusy 0x4000 = true ∧
    TasksWake 0x1000 (readState (copiedState 0x80000000) 1) := by
  have hall := of_run (busy_tasks_wake (show 0x1000 ≠ 0 by decide) (by decide) 0x2000 noFiles kernelLayout rfl)
    bootedKernel_init
  have hcopied : Run (FileStep 0x1000) Wakes (fileStart 0x1000 bootedKernel noFiles kernelLayout)
      (copiedState 0x80000000) := by
    refine copiedState_run _ (runningState_run trivial fun _ _ => trivial) trivial (by decide +kernel) ?_
    intro _ _ _ _ _
    rw [if_pos (by decide +kernel)]
    decide +kernel
  have hstep : FileStep 0x1000 (copiedState 0x80000000) (.readFile 1 0x80000000 1 none)
      (readState (copiedState 0x80000000) 1) :=
    readState_step (by decide +kernel) (by decide +kernel) (by decide +kernel) (by decide +kernel)
  have hwakes : ReadWakes (copiedState 0x80000000) 1 0x80000000 1 := by
    intro _ _ _ _ _
    rw [if_neg (by decide +kernel)]
    intro k hk
    have hdev : ((copiedState 0x80000000).files.file (calledFile (copiedState 0x80000000).sched 1)).dev = .tty 0 := by
      decide +kernel
    obtain rfl := Device.tty.inj (hdev.symm.trans hk)
    exact ⟨by decide +kernel, by decide, by decide +kernel⟩
  exact ⟨by decide +kernel, hall _ (hcopied.tail hstep hwakes)⟩

def openedState : FileState :=
  runningState.put (after ((fun _ => ()) <$> sysOpen (.file (some (7, some (.device (.tty 0)))) (mask 0)) 0x6000)
    runningState.system)

/-- No file wakes the task that reads from the terminal it opened itself. -/
theorem no_waker_of_opened_terminal :
    ¬∀ s, FileRun 0x1000 (fileStart 0x1000 bootedKernel noFiles kernelLayout) s →
      ∀ x ∈ s.wait.tasks, hasFlag s.sched taskFlgBusy x = true → ∃! f, Waker s x f := by
  intro hall
  have hopen : FileStep 0x1000 runningState (.openFile (.file (some (7, some (.device (.tty 0)))) (mask 0)) 0x6000)
      openedState :=
    .openFile (r := 2) (by decide +kernel) (by decide +kernel) (run_after_of (by decide +kernel))
  have hread : FileStep 0x1000 openedState (.readFile 2 0x80000000 1 none) (readState openedState 2) :=
    readState_step (by decide +kernel) (by decide +kernel) (by decide +kernel) (by decide +kernel)
  have hrun := ((runningState_run trivial fun _ _ => trivial).tail hopen trivial).tail hread (C := Spares)
    (by change CallReadsToProgram _ _ _ _; decide +kernel)
  have hstart : WaitInv 0x1000 (startState 0x1000 bootedKernel) :=
    of_run (inv_start (by decide) (by decide) rfl) bootedKernel_init
  have h := hrun.invariant (Between 0x1000) (fun _ _ _ h hstep hspares => between_step h hstep hspares)
    (between_start hstart (by decide))
  obtain ⟨f, ⟨hf, htask, hbuf, k, rfl⟩, -⟩ := hall _ (hrun.weaken fun _ _ _ _ _ => trivial) 0x4000 (by decide +kernel) (by decide +kernel)
  obtain ⟨x, hx, hr⟩ := h.inv.pending k hf
  have hidle : ∀ x ∈ (readState openedState 2).wait.tasks, ∀ f ∈ openFiles (readState openedState 2).sched x,
      ((readState openedState 2).files.file f).task = 0x4000 → ((readState openedState 2).files.file f).opBuf = 0 := by
    decide +kernel
  exact hbuf (hidle x hx _ hr.held htask)

end YggKernel.Files
