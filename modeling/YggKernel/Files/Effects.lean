import YggKernel.Dev.Initrd
import YggKernel.Files.Descriptors
import YggKernel.Task.Waiting
import YggKernel.Task.Destroying

namespace YggKernel.Files

open Lib.Program Lib.BitWords Lib.ByteMemory YggKernel.Task

def isDir (x : VfsFile) : Prop := x.flags &&& vfsFlgDir ≠ 0

instance (x : VfsFile) : Decidable (isDir x) := inferInstanceAs (Decidable (_ ≠ _))

section Opening

variable {s : FileTable} {block : Nat}

structure Opened (s : FileTable) (block : Nat) (t : FileTable) : Prop where
  allocs : t.allocs = block :: s.allocs
  frees : t.frees = s.frees
  pending : t.pending = s.pending
  other : ∀ g, g ≠ block → t.file g = s.file g
  task : ¬isDir (t.file block) → (t.file block).task = 0 ∧ (t.file block).opBuf = 0

structure Missed (s : FileTable) (block : Nat) (t : FileTable) : Prop where
  allocs : t.allocs = block :: s.allocs
  frees : t.frees = block :: s.frees
  pending : t.pending = s.pending
  other : ∀ g, g ≠ block → t.file g = s.file g

theorem wp_fsOpen {node : Option Node} {Q : Int → FileTable → Prop}
    (hmiss : Q (-1) s)
    (hopen : ∀ x : VfsFile, x.task = (s.file block).task → x.opBuf = (s.file block).opBuf →
      Q 0 { s with file := Function.update s.file block x }) : wp (fsOpen node block) anyFault Q s := by
  rcases node with - | ⟨start, size⟩ | dev
  · exact hmiss
  · rw [fsOpen, wp_bind, wp_setFile, wp_pure]
    exact hopen _ rfl rfl
  · simp only [fsOpen, devOpen, wp_bind, wp_setFile, wp_pure, Function.update_self, Function.update_idem]
    exact hopen _ rfl rfl

theorem opened_update {x : VfsFile} (hclean : ¬isDir x → x.task = 0 ∧ x.opBuf = 0) :
    Opened s block { s with file := Function.update s.file block x, allocs := block :: s.allocs } := by
  refine ⟨rfl, rfl, rfl, fun g hg => Function.update_of_ne hg .., ?_⟩
  dsimp only
  rwa [Function.update_self]

theorem missed_update (x : VfsFile) : Missed s block { s with
    file := Function.update s.file block x, allocs := block :: s.allocs, frees := block :: s.frees } :=
  ⟨rfl, rfl, rfl, fun _ hg => Function.update_of_ne hg ..⟩

theorem wp_vfsOpen {lookup : Option (Nat × Option Node)} {flags : BitVec 32} :
    wp (vfsOpen lookup flags block) anyFault (fun r t =>
      r = 0 ∧ (t = s ∨ Missed s block t) ∨ r = block ∧ Opened s block t ∧ (t.file block).opBuf = 0) s := by
  rcases lookup with - | ⟨fs, node⟩
  · exact .inl ⟨rfl, .inl rfl⟩
  · rw [vfsOpen, wp_bind, wp_kassert]
    refine ⟨fun _ => ?_, fun _ => trivial⟩
    simp only [heapAlloc, wp_bind, wp_modify, wp_setFile, Function.update_self, Function.update_idem]
    refine wp_fsOpen ?_ fun x htask hbuf => ?_
    · rw [if_pos (by decide)]
      simp only [heapFree, wp_bind, wp_modify, wp_pure]
      exact .inl ⟨trivial, .inr (missed_update _)⟩
    · rw [if_neg (by decide), wp_pure]
      simp only [Function.update_self, Function.update_idem] at htask hbuf ⊢
      exact .inr ⟨trivial, opened_update fun _ => ⟨htask, hbuf⟩, hbuf⟩

theorem wp_vfsOpendir {lookup : Option (Nat × Device × Bool)} {left : VfsFile} :
    wp (vfsOpendir lookup block left) anyFault (fun r t =>
      r = 0 ∧ (t = s ∨ Missed s block t) ∨ r = block ∧ Opened s block t) s := by
  rcases lookup with - | ⟨fs, srcdev, found⟩
  · exact .inl ⟨rfl, .inl rfl⟩
  · rw [vfsOpendir, wp_bind, wp_kassert]
    refine ⟨fun _ => ?_, fun _ => trivial⟩
    simp only [heapAlloc, wp_bind, wp_modify, wp_setFile, Function.update_self, Function.update_idem]
    cases found with
    | true =>
      rw [if_pos rfl, wp_pure]
      exact .inr ⟨rfl, opened_update fun hdir => absurd (or_mask_and_ne (by decide)) hdir⟩
    | false =>
      rw [if_neg (by decide)]
      simp only [heapFree, wp_bind, wp_modify, wp_pure]
      exact .inl ⟨trivial, .inr (missed_update _)⟩

theorem wp_openPath {path : OpenPath} : wp (openPath path block) anyFault (fun r t =>
    r = 0 ∧ (t = s ∨ Missed s block t) ∨ r = block ∧ Opened s block t) s := by
  cases path with
  | dir lookup left => exact wp_vfsOpendir
  | file lookup mode =>
    refine wp_imp wp_vfsOpen fun _ _ h => h.imp id ?_
    exact fun ⟨hr, hopen, _⟩ => ⟨hr, hopen⟩

structure Terminals (s : FileTable) (dst wr rd : Nat) (t : FileTable) : Prop where
  allocs : t.allocs = rd :: wr :: s.allocs
  frees : t.frees = s.frees
  pending : t.pending = s.pending
  other : ∀ g, g ≠ wr → g ≠ rd → t.file g = s.file g
  task : ∀ g, g = wr ∨ g = rd → (t.file g).task = dst ∧ (t.file g).opBuf = 0

theorem wp_openTerminals {fs dst wr rd : Nat} (hwr : wr ≠ 0) (hrd : rd ≠ 0) (hne : rd ≠ wr) :
    wp (openTerminals fs dst wr rd) anyFault (fun fds t => fds = [wr, rd, 0, 0] ∧ Terminals s dst wr rd t) s := by
  rw [openTerminals, wp_bind]
  refine wp_imp wp_vfsOpen ?_
  rintro f t hf
  rw [wp_bind, wp_kassert]
  refine ⟨fun hassert => ?_, fun _ => trivial⟩
  rcases hf with ⟨rfl, -⟩ | ⟨rfl, ht, hbuf⟩
  · exact absurd hassert (by decide)
  rw [wp_bind, wp_setFile, wp_bind]
  refine wp_imp wp_vfsOpen ?_
  rintro g u hg
  rw [wp_bind, wp_kassert]
  refine ⟨fun hassert => ?_, fun _ => trivial⟩
  rcases hg with ⟨rfl, -⟩ | ⟨rfl, hu, hbuf'⟩
  · exact absurd hassert (by decide)
  rw [wp_bind, wp_setFile, wp_pure]
  have hwrite : u.file f = { t.file f with task := dst } := by
    rw [hu.other f hne.symm]
    exact Function.update_self ..
  refine ⟨rfl, ?_, hu.frees.trans ht.frees, hu.pending.trans ht.pending, fun y hy hy' => ?_, ?_⟩
  · exact hu.allocs.trans (congrArg _ ht.allocs)
  · dsimp only
    rw [Function.update_of_ne hy', hu.other y hy']
    dsimp only
    rw [Function.update_of_ne hy, ht.other y hy]
  · rintro y (rfl | rfl)
    · dsimp only
      rw [Function.update_of_ne hne.symm, hwrite]
      exact ⟨rfl, hbuf⟩
    · dsimp only
      rw [Function.update_self]
      exact ⟨rfl, hbuf'⟩

end Opening

section Slots

variable {s : System} {block : Nat}

def SlotSet (k : Kernel) (old new : Nat) (k' : Kernel) : Prop :=
  ∃ ctl fd, (k.sched.task k.sched.current).ctl = some ctl ∧ ctl.fds[fd]? = some old ∧
    k' = { k with sched := writeTask k.sched k.sched.current { k.sched.task k.sched.current with
      ctl := some { ctl with fds := ctl.fds.set fd new } } }

theorem wp_currentFds {Q : List Nat → System → Prop}
    (hQ : ∀ ctl, (s.kernel.sched.task s.kernel.sched.current).ctl = some ctl → Q ctl.fds s) :
    wp currentFds anyFault Q s := by
  rw [currentFds, wp_bind, wp_onKernel, currentTask, wp_bind, wp_get, wp_pure, wp_bind, wp_onKernel, wp_onSched]
  exact wp_ctlOf_any hQ

theorem wp_currentFds_of {E : Fault → Prop} {Q : List Nat → System → Prop} {ctl : TaskCtl}
    (hctl : (s.kernel.sched.task s.kernel.sched.current).ctl = some ctl) (hQ : Q ctl.fds s) : wp currentFds E Q s := by
  rw [currentFds, wp_bind, wp_onKernel, currentTask, wp_bind, wp_get, wp_pure, wp_bind, wp_onKernel, wp_onSched,
    wp_ctlOf hctl]
  exact hQ

theorem wp_setFd {E : Fault → Prop} {Q : Unit → System → Prop} {t fd f : Nat} {ctl : TaskCtl}
    (hctl : (s.kernel.sched.task t).ctl = some ctl) (hQ : Q () { s with kernel := { s.kernel with
      sched := writeTask s.kernel.sched t { s.kernel.sched.task t with
        ctl := some { ctl with fds := ctl.fds.set fd f } } } }) : wp (setFd t fd f) E Q s := by
  rw [setFd, wp_onKernel, wp_onSched, wp_setTask, hctl]
  exact hQ

theorem wp_sysOpen {path : OpenPath} (hblock : block ≠ 0) : wp (sysOpen path block) anyFault (fun _ t =>
    t.kernel = s.kernel ∧ (t.files = s.files ∨ Missed s.files block t.files) ∨
      SlotSet s.kernel 0 block t.kernel ∧ Opened s.files block t.files) s := by
  rw [sysOpen, wp_bind, wp_onKernel, currentTask, wp_bind, wp_get, wp_pure, wp_bind]
  refine wp_currentFds fun ctl hctl => ?_
  cases hfree : ctl.fds.findIdx? (· = 0) with
  | none => exact .inl ⟨rfl, .inl rfl⟩
  | some fd =>
    have hslot : ctl.fds[fd]? = some 0 := by
      obtain ⟨hlt, hzero, -⟩ := List.findIdx?_eq_some_iff_getElem.mp hfree
      rw [List.getElem?_eq_getElem hlt, of_decide_eq_true hzero]
    dsimp only
    rw [wp_bind, wp_onFiles]
    refine wp_imp wp_openPath ?_
    rintro f files hopen
    by_cases hf : f = 0
    · rw [if_pos hf, wp_pure]
      rcases hopen with ⟨-, hmiss⟩ | ⟨rfl, hopen⟩
      · exact .inl ⟨rfl, hmiss⟩
      · exact absurd hf hblock
    · rw [if_neg hf, wp_bind]
      rcases hopen with ⟨h0, -⟩ | ⟨rfl, hopen⟩
      · exact absurd h0 hf
      · refine wp_setFd hctl ?_
        exact .inr ⟨⟨ctl, fd, hctl, hslot, rfl⟩, hopen⟩

theorem wp_vfsClose {f : Nat} {s : FileTable} : wp (vfsClose f) anyFault (fun _ t => t = { s with
    frees := (if f = 0 then [] else [f]) ++ s.frees }) s := by
  rw [vfsClose]
  by_cases hf : f = 0
  · rw [if_neg (not_not_intro hf), if_pos hf, wp_pure]
    rfl
  · rw [if_pos hf, if_neg hf, wp_bind, wp_get, wp_bind, wp_kassert]
    exact ⟨fun _ => rfl, fun _ => trivial⟩

theorem wp_sysClose {fd : Int} : wp (sysClose fd) anyFault (fun _ t => t = s ∨
    ∃ f ≠ 0, SlotSet s.kernel f 0 t.kernel ∧ t.files = { s.files with frees := f :: s.files.frees }) s := by
  rw [sysClose, wp_bind, wp_onKernel, currentTask, wp_bind, wp_get, wp_pure]
  by_cases hfd : fd < 0 ∨ fd > 3
  · rw [if_pos hfd]
    exact .inl rfl
  · rw [if_neg hfd, wp_bind]
    refine wp_currentFds fun ctl hctl => ?_
    by_cases hf : ctl.fds.getD fd.toNat 0 = 0
    · dsimp only
      rw [if_neg (not_not_intro hf), wp_pure]
      exact .inl rfl
    · dsimp only
      have hslot : ctl.fds[fd.toNat]? = some (ctl.fds.getD fd.toNat 0) := by
        rw [List.getD_eq_getElem?_getD] at hf ⊢
        cases hget : ctl.fds[fd.toNat]? with
        | none => exact absurd (by rw [hget]; rfl) hf
        | some f => rfl
      rw [if_pos hf, wp_bind, wp_onFiles]
      refine wp_imp wp_vfsClose ?_
      rintro _ files rfl
      rw [wp_bind]
      refine wp_setFd hctl ?_
      rw [wp_pure]
      refine .inr ⟨_, hf, ⟨ctl, _, hctl, hslot, rfl⟩, ?_⟩
      rw [if_neg hf]
      rfl

end Slots

section Reading

/-- Only memory, the address space in use and the list of what was released differ. -/
structure SameTasks (k k' : Kernel) : Prop where
  task : k'.sched.task = k.sched.task
  first : k'.sched.first = k.sched.first
  last : k'.sched.last = k.sched.last
  current : k'.sched.current = k.sched.current
  entry : k'.sched.taskingEntry = k.sched.taskingEntry
  lastPid : k'.sched.lastPid = k.sched.lastPid
  signal : k'.signal = k.signal

theorem SameTasks.refl (k : Kernel) : SameTasks k k := ⟨rfl, rfl, rfl, rfl, rfl, rfl, rfl⟩

structure SameFiles (s t : FileTable) : Prop where
  allocs : t.allocs = s.allocs
  frees : t.frees = s.frees
  file : ∀ g, (t.file g).flags = (s.file g).flags ∧ (t.file g).dev = (s.file g).dev ∧ (t.file g).task = (s.file g).task

/-- What comes of a read. A terminal makes the reader wait, and so would a regular file that gives just
as many bytes as the number that stands for this. -/
inductive ReadOutcome (s : FileTable) (f buf len : Nat) (r : Int) (t : FileTable) : Prop
  | done (hr : r ≠ vfsReadAsync) (hpending : t.pending = s.pending) (hbuf : ∀ g, (t.file g).opBuf = (s.file g).opBuf)
  | waits (hr : r = vfsReadAsync) (hrd : (s.file f).flags &&& vfsFlgRd ≠ 0)
      (htype : ((s.file f).flags >>> 2) &&& 7 ≠ vfsTypeReg) (k : Nat) (hdev : (s.file f).dev = .tty k) (hfree : s.pending k = 0)
      (hpending : t.pending = Function.update s.pending k f)
      (hbuf : ∀ g, (t.file g).opBuf = if g = f then buf else (s.file g).opBuf)
  | overlong (hr : r = vfsReadAsync) (hrd : (s.file f).flags &&& vfsFlgRd ≠ 0) (hpending : t.pending = s.pending)
      (htype : ((s.file f).flags >>> 2) &&& 7 = vfsTypeReg) (hlen : min len (s.file f).pos1 % 4294967296 = 4294967294)

variable {f buf len res : Nat}

theorem sameFiles_update {s : FileTable} {x : VfsFile} (hflags : x.flags = (s.file f).flags)
    (hdev : x.dev = (s.file f).dev) (htask : x.task = (s.file f).task) :
    SameFiles s { s with file := Function.update s.file f x } := by
  exact ⟨rfl, rfl, fun g => ⟨update_field VfsFile.flags hflags g, update_field VfsFile.dev hdev g,
    update_field VfsFile.task htask g⟩⟩

theorem toInt_async {l : Nat} (h : (BitVec.ofNat 32 l).toInt = vfsReadAsync) : l % 4294967296 = 4294967294 := by
  rw [BitVec.toInt_eq_toNat_cond, BitVec.toNat_ofNat, vfsReadAsync] at h
  split at h <;> omega

theorem cut_eq (n len : Nat) : (if n > len then len else n) = min n len := by
  rw [Nat.min_def]
  split <;> split <;> omega

/-- What a file may be asked to store into a buffer lies in the memory of a program. -/
def ReadsToProgram (x : VfsFile) (buf len : Nat) : Prop :=
  (x.flags >>> 2) &&& 7 = vfsTypeReg → OfProgram buf (min len x.pos1)

instance (x : VfsFile) (buf len : Nat) : Decidable (ReadsToProgram x buf len) := inferInstanceAs (Decidable (_ → _))

theorem wp_initramfsRead {s : System} (h : OfProgram buf (min len (s.files.file f).pos1)) :
    wp (initramfsRead f buf len) anyFault (fun r t => t.kernel = s.kernel ∧
      (∃ x : VfsFile, t.files = { s.files with file := Function.update s.files.file f x } ∧ x.flags = (s.files.file f).flags ∧
        x.dev = (s.files.file f).dev ∧ x.task = (s.files.file f).task ∧ x.opBuf = (s.files.file f).opBuf) ∧
      (r = vfsReadAsync → min len (s.files.file f).pos1 % 4294967296 = 4294967294)) s := by
  rw [initramfsRead, wp_bind, wp_get]
  dsimp only
  rw [cut_eq, wp_bind, wp_memcpy_program h]
  simp only [wp_bind, wp_onFiles, wp_setFile, wp_pure, Function.update_self, Function.update_idem]
  exact ⟨trivial, ⟨_, rfl, rfl, rfl, rfl, rfl⟩, toInt_async⟩

/-- A read into the memory of a program returns what a read of the archive returns, and goes on in the file as that does. -/
theorem initramfsRead_alike {s : System} (h : OfProgram buf (min len (s.files.file f).pos1)) (hlt : (s.files.file f).pos1 < 4294967296)
    (mem : Mem) :
    wp (initramfsRead f buf len) anyFault (fun r t =>
      ∃ mem', Dev.initramfsRead buf len ⟨mem, (s.files.file f).pos0, (s.files.file f).pos1⟩ =
        (r, ⟨mem', (t.files.file f).pos0, (t.files.file f).pos1⟩)) s := by
  rw [initramfsRead, wp_bind, wp_get]
  dsimp only
  rw [cut_eq, wp_bind, wp_memcpy_program h]
  simp only [wp_bind, wp_onFiles, wp_setFile, wp_pure, Function.update_self]
  rw [Dev.initramfsRead, cut_eq, sub32_of_le hlt (Nat.min_le_right ..)]
  exact ⟨_, rfl⟩

theorem wp_fileRead {s : System} (h : ReadsToProgram (s.files.file f) buf len) : wp (fileRead f buf len) anyFault (fun r t =>
    t.kernel = s.kernel ∧
    ((∃ x : VfsFile, t.files = { s.files with file := Function.update s.files.file f x } ∧
      x.flags = (s.files.file f).flags ∧ x.dev = (s.files.file f).dev ∧ x.task = (s.files.file f).task ∧
      x.opBuf = (s.files.file f).opBuf ∧ (r = vfsReadAsync → ((s.files.file f).flags >>> 2) &&& 7 = vfsTypeReg ∧
        min len (s.files.file f).pos1 % 4294967296 = 4294967294)) ∨
    r = vfsReadAsync ∧ ((s.files.file f).flags >>> 2) &&& 7 ≠ vfsTypeReg ∧ ∃ k, (s.files.file f).dev = .tty k ∧
      s.files.pending k = 0 ∧ t.files = { s.files with pending := Function.update s.files.pending k f })) s := by
  rw [fileRead, wp_bind, wp_get]
  dsimp only
  by_cases hreg : ((s.files.file f).flags >>> 2) &&& 7 = vfsTypeReg
  · rw [if_pos hreg, wp_bind, wp_kassert]
    refine ⟨fun _ => ?_, fun _ => trivial⟩
    refine wp_imp (wp_initramfsRead (h hreg)) ?_
    rintro r t ⟨hkernel, ⟨x, hfiles, hflags, hdev, htask, hbuf⟩, hasync⟩
    exact ⟨hkernel, .inl ⟨x, hfiles, hflags, hdev, htask, hbuf, fun hr => ⟨hreg, hasync hr⟩⟩⟩
  · rw [if_neg hreg]
    by_cases hdev : ((s.files.file f).flags >>> 2) &&& 7 = vfsTypeBlk ∨ ((s.files.file f).flags >>> 2) &&& 7 = vfsTypeChr
    · rw [if_pos hdev]
      cases htty : (s.files.file f).dev with
      | none => trivial
      | other => trivial
      | tty k =>
        dsimp only
        rw [wp_onFiles, ttyRead, wp_bind, wp_get]
        by_cases hfree : s.files.pending k = 0
        · rw [if_neg (not_not_intro hfree), wp_bind, wp_modify, wp_pure]
          exact ⟨rfl, .inr ⟨rfl, hreg, k, rfl, hfree, rfl⟩⟩
        · rw [if_pos hfree]
          trivial
    · rw [if_neg hdev]
      trivial

theorem wp_vfsRead {s : System} (h : (s.files.file f).flags &&& vfsFlgRd ≠ 0 → ReadsToProgram (s.files.file f) buf len) :
    wp (vfsRead f buf len res) anyFault (fun r t =>
      SameTasks s.kernel t.kernel ∧ SameFiles s.files t.files ∧ ReadOutcome s.files f buf len r t.files) s := by
  rw [vfsRead, wp_bind, wp_get]
  dsimp only
  by_cases hrd : (s.files.file f).flags &&& vfsFlgRd = 0
  · rw [if_pos hrd, wp_pure]
    exact ⟨.refl _, ⟨rfl, rfl, fun g => ⟨rfl, rfl, rfl⟩⟩, .done (by decide) rfl fun g => rfl⟩
  · rw [if_neg hrd]
    by_cases hbuf : (s.files.file f).opBuf = 0
    · rw [if_neg (not_not_intro hbuf)]
      simp only [wp_bind, wp_onFiles, wp_setFile, wp_onKernel, storeWord, wp_modify, Function.update_self,
        Function.update_idem]
      refine wp_imp (wp_fileRead ?_) ?_
      · dsimp only
        rw [Function.update_self]
        exact h hrd
      rintro r ⟨kernel, files⟩ ⟨rfl, ⟨x, rfl, hflags, hdev, htask, hx, hasync⟩ | ⟨rfl, hreg, k, hdev, hfree, rfl⟩⟩
      · simp only [Function.update_self, Function.update_idem] at hflags hdev htask hx hasync ⊢
        by_cases hr : r = vfsReadAsync
        · rw [if_neg (not_not_intro hr), wp_pure]
          obtain ⟨htype, hlen⟩ := hasync hr
          exact ⟨⟨rfl, rfl, rfl, rfl, rfl, rfl, rfl⟩, sameFiles_update hflags hdev htask, .overlong hr hrd rfl htype hlen⟩
        · rw [if_pos hr, wp_bind, wp_onFiles, wp_setFile, wp_pure]
          simp only [Function.update_self, Function.update_idem]
          refine ⟨⟨rfl, rfl, rfl, rfl, rfl, rfl, rfl⟩, sameFiles_update hflags hdev htask, .done hr rfl fun g => ?_⟩
          exact update_field VfsFile.opBuf (by exact hbuf.symm) g
      · simp only [Function.update_self] at hdev hreg
        rw [if_neg (not_not_intro rfl), wp_pure]
        refine ⟨⟨rfl, rfl, rfl, rfl, rfl, rfl, rfl⟩, ?_, .waits rfl hrd hreg k hdev hfree rfl fun g => ?_⟩
        · refine ⟨rfl, rfl, fun g => ⟨?_, ?_, ?_⟩⟩
          · exact update_field VfsFile.flags (by rfl) g
          · exact update_field VfsFile.dev (by rfl) g
          · exact update_field VfsFile.task (by rfl) g
        · dsimp only
          rw [Function.update_apply]
          split <;> rfl
    · rw [if_pos hbuf]
      trivial

def calledFile (s : Sched) (fd : Int) : Nat := (fdsOf s s.current).getD fd.toNat 0

theorem fdsOf_eq {s : Sched} {x : Nat} {ctl : TaskCtl} (h : (s.task x).ctl = some ctl) : fdsOf s x = ctl.fds := by
  rw [fdsOf, h]
  rfl

structure ReadCall (s : System) (fd : Int) (buf len : Nat) (async : Bool) (t : System) : Prop where
  files : SameFiles s.files t.files
  kernel : ∃ k, SameTasks s.kernel k ∧
    (async = true ∧ taskBusy k.sched.current k = .ok ((), t.kernel) ∨ async = false ∧ t.kernel = k)
  outcome : (t.files.pending = s.files.pending ∧ async = false ∧ ∀ g, (t.files.file g).opBuf = (s.files.file g).opBuf) ∨
    ∃ r, 0 ≤ fd ∧ fd < 4 ∧ calledFile s.kernel.sched fd ≠ 0 ∧ ¬isDir (s.files.file (calledFile s.kernel.sched fd)) ∧
      (async = true ↔ r = vfsReadAsync) ∧ ReadOutcome s.files (calledFile s.kernel.sched fd) buf len r t.files

def CallReadsToProgram (s : System) (fd : Int) (buf len : Nat) : Prop :=
  let x := s.files.file (calledFile s.kernel.sched fd)
  0 ≤ fd → fd < 4 → calledFile s.kernel.sched fd ≠ 0 → ¬isDir x → x.flags &&& vfsFlgRd ≠ 0 → ReadsToProgram x buf len

instance (s : System) (fd : Int) (buf len : Nat) : Decidable (CallReadsToProgram s fd buf len) :=
  inferInstanceAs (Decidable (_ → _ → _ → _ → _ → _))

theorem wp_sysRead {s : System} {fd : Int} {dirent : Option Nat} (h : CallReadsToProgram s fd buf len) :
    wp (sysRead fd buf len res dirent) anyFault
    (fun r t => SameTasks s.kernel t.kernel ∧ SameFiles s.files t.files ∧ (t.files = s.files ∧ r ≠ vfsReadAsync ∨
      0 ≤ fd ∧ fd < 4 ∧ calledFile s.kernel.sched fd ≠ 0 ∧ ¬isDir (s.files.file (calledFile s.kernel.sched fd)) ∧
        ReadOutcome s.files (calledFile s.kernel.sched fd) buf len r t.files)) s := by
  have hsame : SameFiles s.files s.files := ⟨rfl, rfl, fun g => ⟨rfl, rfl, rfl⟩⟩
  unfold sysRead
  by_cases hfd : fd < 0 ∨ fd ≥ 4
  · rw [if_pos hfd]
    exact ⟨.refl _, hsame, .inl ⟨rfl, by decide⟩⟩
  · rw [if_neg hfd, wp_bind]
    refine wp_currentFds fun ctl hctl => ?_
    have hcalled : ctl.fds.getD fd.toNat 0 = calledFile s.kernel.sched fd := by
      rw [calledFile, fdsOf_eq hctl]
    dsimp only
    rw [hcalled]
    by_cases hf : calledFile s.kernel.sched fd = 0
    · rw [if_pos hf]
      exact ⟨.refl _, hsame, .inl ⟨rfl, by decide⟩⟩
    · rw [if_neg hf, wp_bind, wp_get]
      by_cases hdir : (s.files.file (calledFile s.kernel.sched fd)).flags &&& vfsFlgDir ≠ 0
      · rw [if_pos hdir, wp_bind, wp_kassert]
        refine ⟨fun _ => ?_, fun _ => trivial⟩
        cases dirent with
        | none => exact ⟨.refl _, hsame, .inl ⟨rfl, by decide⟩⟩
        | some n => exact ⟨.refl _, hsame, .inl ⟨rfl, by unfold vfsReadAsync; omega⟩⟩
      · rw [if_neg hdir, wp_bind, wp_onKernel, storeWord, wp_modify]
        refine wp_imp (wp_vfsRead (h (by omega) (by omega) hf hdir)) ?_
        rintro r t ⟨htasks, hfiles, hout⟩
        exact ⟨⟨htasks.task, htasks.first, htasks.last, htasks.current, htasks.entry, htasks.lastPid, htasks.signal⟩,
          hfiles, .inr ⟨by omega, by omega, hf, hdir, hout⟩⟩

theorem wp_syscallRead {s : System} {fd : Int} {dirent : Option Nat} (h : CallReadsToProgram s fd buf len) :
    wp (syscallRead fd buf len dirent) anyFault (fun async t => ReadCall s fd buf len async t) s := by
  simp only [syscallRead, currentTask, mmSet, wp_bind, wp_onKernel, wp_get, wp_pure, wp_onSched, wp_modify]
  refine wp_imp (wp_sysRead h) ?_
  rintro r t ⟨htasks, hfiles, hout⟩
  have hall : SameTasks s.kernel t.kernel :=
    ⟨htasks.task, htasks.first, htasks.last, htasks.current, htasks.entry, htasks.lastPid, htasks.signal⟩
  by_cases hr : r = vfsReadAsync
  · rw [if_pos hr, wp_bind, wp_onKernel, wp_bind, wp_bind, wp_get, wp_pure]
    have hbusy : wp (taskBusy t.kernel.sched.current) anyFault (fun _ k =>
        taskBusy t.kernel.sched.current t.kernel = .ok ((), k)) t.kernel := rfl
    refine wp_imp hbusy fun _ k hk => ?_
    rw [wp_pure]
    rcases hout with ⟨-, hne⟩ | ⟨hge, hlt, hf, hdir, hout⟩
    · exact absurd hr hne
    · exact ⟨hfiles, ⟨t.kernel, hall, .inl ⟨rfl, hk⟩⟩, .inr ⟨r, hge, hlt, hf, hdir, iff_of_true rfl hr, hout⟩⟩
  · rw [if_neg hr, wp_bind, wp_onKernel, storeWord, wp_modify, wp_pure]
    refine ⟨hfiles, ⟨_, ?_, .inr ⟨rfl, rfl⟩⟩, ?_⟩
    · exact ⟨hall.task, hall.first, hall.last, hall.current, hall.entry, hall.lastPid, hall.signal⟩
    · rcases hout with ⟨hsame, -⟩ | ⟨hge, hlt, hf, hdir, hout⟩
      · refine .inl ⟨congrArg FileTable.pending hsame, rfl, fun g => ?_⟩
        dsimp only
        rw [hsame]
      · exact .inr ⟨r, hge, hlt, hf, hdir, iff_of_false (by decide) hr, hout⟩

end Reading

section Typing

variable {s : System}

def readOver (s : FileTable) : FileTable := { s with
  file := Function.update s.file (s.pending 0) { s.file (s.pending 0) with opBuf := 0 }
  pending := Function.update s.pending 0 0 }

inductive Typed (s : System) (t : System) : Prop
  | more (mem : Mem) (ht : t = { s with kernel := { s.kernel with mem := mem } })
  | broken (hpending : s.files.pending 0 ≠ 0)
      (hcount : load32 s.kernel.mem (s.files.file (s.files.pending 0)).opRes = 0xFFFFFFFF) (hkernel : t.kernel = s.kernel)
      (hfiles : t.files = readOver s.files)
  | done (hpending : s.files.pending 0 ≠ 0) (mem : Mem)
      (hkernel : if (s.files.file (s.files.pending 0)).task = 0 then t.kernel = { s.kernel with mem := mem }
        else taskNobusy (s.files.file (s.files.pending 0)).task { s.kernel with mem := mem } = .ok ((), t.kernel))
      (hfiles : t.files = readOver s.files)

inductive Sent (s : System) (f : Nat) : Int → System → Prop
  | more {t : System} (mem : Mem) (ht : t = { s with kernel := { s.kernel with mem := mem } }) : Sent s f 0 t
  | broken {t : System} (hcount : load32 s.kernel.mem (s.files.file f).opRes = 0xFFFFFFFF) (hkernel : t.kernel = s.kernel)
      (hfiles : t.files = { s.files with file := Function.update s.files.file f { s.files.file f with opBuf := 0 } }) :
      Sent s f 1 t
  | done {t : System} (mem : Mem)
      (hkernel : if (s.files.file f).task = 0 then t.kernel = { s.kernel with mem := mem }
        else taskNobusy (s.files.file f).task { s.kernel with mem := mem } = .ok ((), t.kernel))
      (hfiles : t.files = { s.files with file := Function.update s.files.file f { s.files.file f with opBuf := 0 } }) :
      Sent s f 1 t

/-- What a call sends to a file that names no task goes to the memory of a program. -/
def SendsToProgram (s : System) (f n : Nat) : Prop :=
  (s.files.file f).task = 0 →
    OfProgram ((s.files.file f).opBuf + load32 s.kernel.mem (s.files.file f).opRes) (min n (s.files.file f).opLen)

instance (s : System) (f n : Nat) : Decidable (SendsToProgram s f n) := inferInstanceAs (Decidable (_ → _))

theorem wp_countRes {f sz : Nat} : wp (countRes f sz) anyFault (fun r t => Sent s f r t) s := by
  rw [countRes, wp_bind, wp_get]
  dsimp only
  rw [wp_bind, wp_onKernel, loadWord, wp_bind, wp_get, wp_pure, wp_bind, wp_onKernel, storeWord, wp_modify]
  dsimp only
  generalize store32 s.kernel.mem (s.files.file f).opRes (u32 (load32 s.kernel.mem (s.files.file f).opRes + sz)) = mem
  by_cases hlen : u32 (load32 s.kernel.mem (s.files.file f).opRes + sz) = (s.files.file f).opLen
  · rw [if_pos hlen, wp_bind, wp_onFiles, wp_setFile]
    by_cases htask : (s.files.file f).task = 0
    · rw [if_neg (not_not_intro htask), wp_pure]
      exact .done mem (by rw [if_pos htask]) rfl
    · rw [if_pos htask, wp_bind, wp_onKernel]
      refine wp_imp (Q := fun _ k => taskNobusy (s.files.file f).task { s.kernel with
        mem := mem } = .ok ((), k)) rfl fun _ k hk => ?_
      rw [wp_pure]
      exact .done mem (by rwa [if_neg htask]) rfl
  · rw [if_neg hlen, wp_pure]
    exact .more mem rfl

theorem wp_vfsSendReadRes {f : Nat} {src : List (BitVec 8)} (h : SendsToProgram s f src.length) :
    wp (vfsSendReadRes f src) anyFault (fun r t => Sent s f r t) s := by
  rw [vfsSendReadRes, wp_bind, wp_get]
  dsimp only
  rw [wp_bind, wp_kassert]
  refine ⟨fun _ => ?_, fun _ => trivial⟩
  rw [wp_bind, wp_onKernel, loadWord, wp_bind, wp_get, wp_pure]
  by_cases hcount : load32 s.kernel.mem (s.files.file f).opRes = 0xFFFFFFFF
  · rw [if_pos hcount, wp_bind, wp_onFiles, wp_setFile, wp_pure]
    exact .broken hcount rfl rfl
  · rw [if_neg hcount, cut_eq, wp_bind, copyRes]
    by_cases htask : (s.files.file f).task = 0
    · rw [if_pos htask]
      refine (wp_storeBytes_program ?_).mpr wp_countRes
      rw [List.length_take, Nat.min_eq_left (Nat.min_le_left _ _)]
      exact h htask
    · rw [if_neg htask, wp_pure]
      exact wp_countRes

theorem wp_ttyType {c : BitVec 8} (h : s.files.pending 0 ≠ 0 → SendsToProgram s (s.files.pending 0) 1) :
    wp (ttyType c) anyFault (fun _ t => Typed s t) s := by
  rw [ttyType, wp_bind, wp_get]
  dsimp only
  by_cases hf : s.files.pending 0 = 0
  · rw [if_neg (not_not_intro hf)]
    exact .more s.kernel.mem rfl
  · rw [if_pos hf, wp_bind, wp_get, wp_bind, wp_kassert]
    refine ⟨fun _ => ?_, fun _ => trivial⟩
    rw [wp_bind, wp_get, wp_bind, wp_kassert]
    refine ⟨fun _ => ?_, fun _ => trivial⟩
    rw [wp_bind]
    refine wp_imp (wp_vfsSendReadRes (h hf)) ?_
    rintro r t hsent
    cases hsent with
    | more mem ht =>
      rw [if_neg (by decide), wp_pure]
      exact .more mem ht
    | broken hcount hkernel hfiles =>
      rw [if_pos rfl, wp_onFiles, wp_modify]
      refine .broken hf hcount hkernel ?_
      dsimp only
      rw [hfiles]
      rfl
    | done mem hkernel hfiles =>
      rw [if_pos rfl, wp_onFiles, wp_modify]
      refine .done hf mem hkernel ?_
      dsimp only
      rw [hfiles]
      rfl

end Typing

section Switching

variable {idle : Nat} {s : System} {l : List Nat}

def openFiles (s : Sched) (x : Nat) : List Nat := (fdsOf s x).filter (· ≠ 0)

def fileOf : Release → List Nat
  | .file f => if f = 0 then [] else [f]
  | _ => []

theorem wp_closeReleased {s : FileTable} (rs : List Release) : wp (closeReleased rs) anyFault
    (fun _ t => t = { s with frees := rs.flatMap fileOf ++ s.frees }) s := by
  induction rs with
  | nil => rfl
  | cons r rs ih =>
    cases r with
    | file f =>
      rw [closeReleased, wp_bind]
      refine wp_imp ih ?_
      rintro _ t rfl
      refine wp_imp wp_vfsClose ?_
      rintro _ t rfl
      rw [List.flatMap_cons, List.append_assoc]
      rfl
    | block | space | ctl => exact ih

theorem flatMap_fileOf {fds : List Nat} (h : ∀ f ∈ fds, f ≠ 0) : (fds.map Release.file).flatMap fileOf = fds := by
  induction fds with
  | nil => rfl
  | cons f fds ih =>
    obtain ⟨hf, hrest⟩ := List.forall_mem_cons.mp h
    rw [List.map_cons, List.flatMap_cons, ih hrest, fileOf, if_neg hf, List.singleton_append]

theorem releasesOf_files (s : Sched) (x : Nat) : (releasesOf s x).flatMap fileOf = (openFiles s x).reverse := by
  rw [releasesOf, List.flatMap_append, openFiles, flatMap_fileOf fun f hf => ?_]
  · rfl
  · simpa using (List.mem_filter.mp (List.mem_reverse.mp hf)).2

theorem released_files (s : Sched) (l : List Nat) :
    ((l.reverse.flatMap (releasesOf s)).flatMap fileOf).Perm (l.flatMap (openFiles s)) := by
  rw [List.flatMap_assoc]
  have hfiles : (l.reverse.flatMap fun x => (releasesOf s x).flatMap fileOf) =
      l.reverse.flatMap fun x => (openFiles s x).reverse :=
    List.flatMap_congr fun x _ => releasesOf_files s x
  rw [hfiles]
  exact ((List.reverse_perm l).flatMap_right _).trans (List.Perm.flatMap_left l fun x _ => List.reverse_perm _)

theorem wp_taskSwitch (h : SchedInv idle s.kernel.sched l) (hentry : s.kernel.sched.taskingEntry = false) :
    wp (taskSwitch idle) anyFault (fun _ t => onSched (x86TaskSwitch idle) s.kernel = .ok ((), t.kernel) ∧
      SameHoldings s.kernel.sched t.kernel.sched ∧ ∃ freed,
        freed.Perm ((stopped s.kernel.sched l).flatMap (openFiles s.kernel.sched)) ∧
        t.files = { s.files with frees := freed ++ s.files.frees }) s := by
  rw [taskSwitch, wp_bind, wp_get, wp_bind, wp_onKernel]
  have hrun : wp (onSched (x86TaskSwitch idle)) anyFault (fun _ k =>
      onSched (x86TaskSwitch idle) s.kernel = .ok ((), k)) s.kernel := by
    unfold wp
    split
    · assumption
    · trivial
  have hreleases : wp (onSched (x86TaskSwitch idle)) anyFault (fun _ k => SameHoldings s.kernel.sched k.sched ∧
      k.sched.released = (stopped s.kernel.sched l).reverse.flatMap (releasesOf s.kernel.sched) ++
        s.kernel.sched.released) s.kernel :=
    (wp_onSched _ _ _).mpr (wp_switch_releases h hentry)
  refine wp_imp (wp_and hrun hreleases) ?_
  rintro _ k ⟨hk, hsame, hreleased⟩
  rw [wp_bind, wp_get, wp_onFiles]
  dsimp only
  rw [hreleased, List.length_append, Nat.add_sub_cancel, List.take_left']
  · refine wp_imp (wp_closeReleased _) ?_
    rintro _ t rfl
    exact ⟨hk, hsame, _, released_files _ _, rfl⟩
  · rfl

theorem wp_taskSwitch_entry (hentry : s.kernel.sched.taskingEntry = true) : wp (taskSwitch idle) anyFault (fun _ t =>
    t = { s with kernel := { s.kernel with sched := { s.kernel.sched with
      space := s.kernel.sched.mmKernel, taskingEntry := false } } }) s := by
  rw [taskSwitch, wp_bind, wp_get, wp_bind, wp_onKernel, wp_onSched]
  refine wp_mono (wp_switch_entry hentry) (fun _ _ => trivial) ?_
  rintro _ u rfl
  rw [wp_bind, wp_get, wp_onFiles]
  dsimp only
  rw [Nat.sub_self, List.take_zero]
  rfl

end Switching

end YggKernel.Files
