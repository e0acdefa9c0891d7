import YggKernel.Files.Steps

namespace YggKernel.Files

open Lib.Program Lib.BitWords Lib.ByteMemory Lib.Runs Lib.Ownership YggKernel.Task

section Steps

variable {idle : Nat} {s t : FileState}

theorem inv_calledMid {b : Bool} {w : WaitState} (h : Between idle s) (hwait : WaitInv idle w)
    (htasks : w.tasks = s.wait.tasks) (hkept : CallKept s.sched w.kernel.sched b) : FilesInv idle ⟨w, s.files⟩ := by
  refine h.inv.of_kept hwait htasks (fun he => ?_) (fun x hx hs => ?_) (fun x _ => hkept.fds x)
    (fun x _ => hkept.busy x) ⟨rfl, rfl, fun g => ⟨rfl, rfl, rfl⟩⟩ rfl
  · rw [FileState.sched, hkept.current]
    exact h.inv.entry (hkept.entry ▸ he)
  · rcases hkept.stop x hs with hold | ⟨-, rfl⟩
    · rw [h.running x hx] at hold
      cases hold
    · exact h.awake

theorem inv_called {b : Bool} {w : WaitState} (h : Between idle s) (hwait : WaitInv idle w) (htasks : w.tasks = s.wait.tasks)
    (hkept : CallKept s.sched w.kernel.sched b) (hleaves : Leaves idle b ⟨w, s.files⟩ t) : Between idle t := by
  refine inv_leaves (inv_calledMid h hwait htasks hkept) (fun hb => ⟨fun x hx => ?_, ?_⟩) hleaves
  · rw [htasks] at hx
    cases hs : hasFlag w.kernel.sched taskFlgStop x with
    | false => rfl
    | true =>
      rcases hkept.stop x hs with hold | ⟨hb', -⟩
      · rw [h.running x hx] at hold
        cases hold
      · rw [hb] at hb'
        cases hb'
  · rw [FileState.sched, hkept.current, hkept.busy]
    exact h.awake

def slotFiles (f : Nat) : List Nat := if f = 0 then [] else [f]

theorem filter_cons_slot (f : Nat) (fds : List Nat) :
    (f :: fds).filter (· ≠ 0) = slotFiles f ++ fds.filter (· ≠ 0) := by
  unfold slotFiles
  by_cases hf : f = 0
  · rw [if_pos hf, List.filter_cons_of_neg (by simpa using hf)]
    rfl
  · rw [if_neg hf, List.filter_cons_of_pos (by simpa using hf)]
    rfl

theorem filter_set_perm {fds : List Nat} {i old new : Nat} (h : fds[i]? = some old) :
    (slotFiles old ++ (fds.set i new).filter (· ≠ 0)).Perm (slotFiles new ++ fds.filter (· ≠ 0)) := by
  obtain ⟨hlt, rfl⟩ := List.getElem?_eq_some_iff.mp h
  have hset := ((List.set_perm_cons_eraseIdx hlt new).filter (· ≠ 0)).append_left (slotFiles fds[i])
  have hold := ((List.getElem_cons_eraseIdx_perm hlt).filter (· ≠ 0)).append_left (slotFiles new)
  rw [filter_cons_slot] at hset hold
  exact hset.trans (List.perm_append_comm_assoc .. |>.trans hold)

theorem slot_run {k k' : Kernel} {old new : Nat} (h : SlotSet k old new k') :
    ∃ fds, setFiles fds k = .ok ((), k') := by
  obtain ⟨ctl, fd, hctl, -, rfl⟩ := h
  obtain ⟨_, k', hrun, rfl⟩ := run_of_wp (wp_setFiles (E := noFault) hctl)
  exact ⟨ctl.fds.set fd new, hrun⟩

theorem openFiles_set {k k' : Kernel} {old new : Nat} (h : SlotSet k old new k') :
    (slotFiles old ++ openFiles k'.sched k.sched.current).Perm (slotFiles new ++ openFiles k.sched k.sched.current) := by
  obtain ⟨ctl, fd, hctl, hslot, rfl⟩ := h
  have hold : openFiles k.sched k.sched.current = ctl.fds.filter (· ≠ 0) := by
    rw [openFiles, fdsOf, hctl]
    rfl
  have hnew : openFiles (writeTask k.sched k.sched.current { k.sched.task k.sched.current with
      ctl := some { ctl with fds := ctl.fds.set fd new } }) k.sched.current = (ctl.fds.set fd new).filter (· ≠ 0) := by
    rw [openFiles, fdsOf, writeTask_self]
    rfl
  rw [hold, hnew]
  exact filter_set_perm hslot

theorem held_set {u : System} {old new : Nat} (h : WaitInv idle s.wait) (hset : SlotSet s.wait.kernel old new u.kernel) :
    (slotFiles old ++ held (s.put u)).Perm (slotFiles new ++ held s) := by
  have hself := openFiles_set hset
  obtain ⟨ctl, fd, hctl, hslot, hk⟩ := hset
  refine exchange h.sched.listed.nodup h.sched.current (fun x _ hx => ?_) hself
  refine openFiles_congr (fdsOf_congr ?_)
  rw [FileState.sched, FileState.put, hk, writeTask_of_ne _ _ hx]

theorem inv_slot {u : System} {old new : Nat} (h : Between idle s) (hne : s.sched.current ≠ idle)
    (hset : SlotSet s.wait.kernel old new u.kernel)
    (haccounted : Accounted u.files.allocs u.files.frees (held (s.put u)))
    (hfile : ∀ f ∈ held s, u.files.file f = s.files.file f) (hpending : u.files.pending = s.files.pending)
    (hclean : new ≠ 0 → ¬isDir (u.files.file new) → (u.files.file new).task = 0) : Between idle (s.put u) := by
  have hmem := h.inv.wait.sched.current
  obtain ⟨fds, hrun⟩ := slot_run hset
  have hwait : WaitInv idle (s.put u).wait := inv_waitStep h.inv.wait (.files hne hrun)
  have hself := openFiles_set hset
  obtain ⟨ctl, fd, hctl, hslot, hk⟩ := hset
  have hother : ∀ x, x ≠ s.sched.current → u.kernel.sched.task x = s.sched.task x := fun x hx => by
    rw [hk, writeTask_of_ne _ _ hx]
  have hflag : ∀ f x, hasFlag u.kernel.sched f x = hasFlag s.sched f x := by
    intro f x
    rw [hk]
    exact hasFlag_congr (update_field (fun y : X86Task => y.flag &&& f) (by rfl) x)
  have hopen : ∀ x, x ≠ s.sched.current → openFiles u.kernel.sched x = openFiles s.sched x := fun x hx =>
    openFiles_congr (fdsOf_congr (by rw [hother x hx]))
  have hin : ∀ x ∈ s.wait.tasks, ∀ f ∈ openFiles s.sched x, f ∈ held s := fun x hx f hf =>
    List.mem_flatMap.mpr ⟨x, hx, hf⟩
  have hreads : ∀ x ∈ s.wait.tasks, ∀ k, Reads (s.put u) x k ↔ Reads s x k := by
    refine fun x hx => reads_iff (hflag _ x) (fun hb => hopen x fun he => ?_) hpending fun f hf => ?_
    · rw [he, h.awake] at hb
      cases hb
    · rw [FileState.put, hfile f (hin x hx f hf)]
  refine ⟨⟨hwait, fun he => ?_, fun x hx hs => ?_, fun x hx hxi => ?_, haccounted, fun x hx f hf hdir => ?_,
    h.inv.readers hpending hreads fun x hx _ => hx, fun x hx j k hj hk => ?_⟩, fun x hx => ?_, ?_⟩
  · rw [FileState.sched, FileState.put, hk] at he ⊢
    exact h.inv.entry he
  · rw [FileState.sched, FileState.put, hflag, h.running x hx] at hs
    cases hs
  · by_cases hx' : x = s.sched.current
    · have hlen := h.inv.slots x hx hxi
      rw [hx', fdsOf, hctl] at hlen
      rw [FileState.sched, FileState.put, hx', hk, fdsOf, writeTask_self, Option.map_some, Option.getD_some,
        List.length_set]
      exact hlen
    · have hsame : fdsOf u.kernel.sched x = fdsOf s.sched x := fdsOf_congr (by rw [hother x hx'])
      exact hsame ▸ h.inv.slots x hx hxi
  · have hfrom : f ∈ openFiles s.sched x ∨ f = new ∧ f ≠ 0 := by
      by_cases hx' : x = s.sched.current
      · rw [hx'] at hf ⊢
        have hf' := hself.subset (List.mem_append_right _ hf)
        rcases List.mem_append.mp hf' with hnew | hold
        · unfold slotFiles at hnew
          split at hnew
          · cases hnew
          · rename_i hnz
            rw [List.mem_singleton.mp hnew]
            exact .inr ⟨rfl, hnz⟩
        · exact .inl hold
      · exact .inl (hopen x hx' ▸ hf)
    rcases hfrom with hold | ⟨rfl, hnz⟩
    · have hsame := hfile f (hin x hx f hold)
      rw [FileState.put, hsame] at hdir ⊢
      exact h.inv.owner x hx f hold hdir
    · exact .inl (hclean hnz hdir)
  · exact h.inv.single x hx j k ((hreads x hx j).mp hj) ((hreads x hx k).mp hk)
  · exact (hflag _ x).trans (h.running x hx)
  · rw [FileState.sched, FileState.put, hflag, hk]
    exact h.awake

theorem inv_missed {files : FileTable} {block : Nat} (h : Between idle s) (hfresh : Fresh s.files block)
    (hmissed : Missed s.files block files) : Between idle (s.put ⟨s.wait.kernel, files⟩) := by
  have hne : ∀ x ∈ s.wait.tasks, ∀ f ∈ openFiles s.sched x, f ≠ block := fun x hx f hf he =>
    h.inv.accounted.not_held hfresh.2 (he ▸ List.mem_flatMap.mpr ⟨x, hx, hf⟩)
  have hreads : ∀ x ∈ s.wait.tasks, ∀ k, Reads (s.put ⟨s.wait.kernel, files⟩) x k ↔ Reads s x k := by
    refine fun x hx => reads_iff rfl (fun _ => rfl) hmissed.pending fun f hf => ?_
    rw [FileState.put, hmissed.other f (hne x hx f hf)]
  refine ⟨⟨h.inv.wait, h.inv.entry, h.inv.stopped, h.inv.slots, ?_, fun x hx f hf hdir => ?_,
    h.inv.readers hmissed.pending hreads fun x hx _ => hx, fun x hx j k hj hk => ?_⟩, h.running, h.awake⟩
  · rw [FileState.put, hmissed.allocs, hmissed.frees]
    exact h.inv.accounted.giveBack
  · have hsame := hmissed.other f (hne x hx f hf)
    rw [FileState.put, hsame] at hdir ⊢
    exact h.inv.owner x hx f hf hdir
  · exact h.inv.single x hx j k ((hreads x hx j).mp hj) ((hreads x hx k).mp hk)

theorem inv_openFile {u : System} {path : OpenPath} {block : Nat} {r : Int} (h : Between idle s)
    (hne : s.sched.current ≠ idle) (hfresh : Fresh s.files block) (hrun : sysOpen path block s.system = .ok (r, u)) :
    Between idle (s.put u) := by
  rcases of_run (wp_sysOpen hfresh.1) hrun with ⟨hkernel, hfiles | hmissed⟩ | ⟨hset, hopened⟩
  · have hsame : s.put u = s := by
      rw [FileState.put, hkernel, hfiles]
    rwa [hsame]
  · have hput : s.put u = s.put ⟨s.wait.kernel, u.files⟩ := by
      rw [FileState.put, hkernel]
      rfl
    rw [hput]
    exact inv_missed h hfresh hmissed
  · have hnot := h.inv.accounted.not_held hfresh.2
    have hheld := held_set h.inv.wait hset
    have hslots : slotFiles 0 = [] ∧ slotFiles block = [block] := ⟨rfl, if_neg hfresh.1⟩
    rw [hslots.1, hslots.2] at hheld
    refine inv_slot h hne hset ?_ (fun f hf => hopened.other f fun he => hnot (he ▸ hf)) hopened.pending
      fun _ hdir => (hopened.task hdir).1
    rw [hopened.allocs, hopened.frees]
    exact h.inv.accounted.alloc hfresh.2 hheld

theorem inv_closeFile {u : System} {fd r : Int} (h : Between idle s) (hne : s.sched.current ≠ idle)
    (hrun : sysClose fd s.system = .ok (r, u)) : Between idle (s.put u) := by
  rcases of_run wp_sysClose hrun with rfl | ⟨f, hf, hset, hfiles⟩
  · exact h
  · have hheld := held_set h.inv.wait hset
    have hslots : slotFiles 0 = [] ∧ slotFiles f = [f] := ⟨rfl, if_neg hf⟩
    rw [hslots.1, hslots.2] at hheld
    refine inv_slot h hne hset ?_ (fun g _ => by rw [hfiles]) (by rw [hfiles]) fun h0 => absurd rfl h0
    rw [hfiles]
    exact h.inv.accounted.free hheld.symm

theorem pending_not_current (h : Between idle s) {k : Nat} (hk : s.files.pending k ≠ 0) :
    s.files.pending k ∉ openFiles s.sched s.sched.current := by
  intro hmem
  obtain ⟨x, hx, hr⟩ := h.inv.pending k hk
  have hbusy := hr.busy
  rw [one_owner h.inv.accounted.nodup hx h.inv.wait.sched.current hr.held hmem, h.awake] at hbusy
  cases hbusy

theorem calledFile_open {s : Sched} {fd : Int} (hne : calledFile s fd ≠ 0) :
    calledFile s fd ∈ openFiles s s.current := by
  unfold calledFile at hne ⊢
  rw [List.getD_eq_getElem?_getD] at hne ⊢
  cases hi : (fdsOf s s.current)[fd.toNat]? with
  | none => exact absurd (by rw [hi]; rfl) hne
  | some f =>
    rw [hi] at hne
    exact List.mem_filter.mpr ⟨List.mem_of_getElem? hi, by simpa using hne⟩

theorem inv_readNow {u : System} (h : Between idle s) (htasks : SameTasks s.wait.kernel u.kernel)
    (hfiles : SameFiles s.files u.files) (hpending : u.files.pending = s.files.pending) : Between idle (s.put u) := by
  have hflag : ∀ f x, hasFlag u.kernel.sched f x = hasFlag s.sched f x := fun f x =>
    hasFlag_congr (by rw [htasks.task])
  refine ⟨h.inv.of_kept (waitInv_congr h.inv.wait htasks.task htasks.first htasks.last htasks.current htasks.lastPid
    htasks.signal) rfl (fun he => ?_) (fun x hx hs => ?_) (fun x _ => fdsOf_congr (by rw [FileState.put, htasks.task]))
    (fun x _ => hflag _ x) hfiles hpending, fun x hx => (hflag _ x).trans (h.running x hx), ?_⟩
  · rw [FileState.sched, FileState.put, htasks.current]
    exact h.inv.entry (htasks.entry ▸ he)
  · rw [FileState.sched, FileState.put, hflag, h.running x hx] at hs
    cases hs
  · rw [FileState.sched, FileState.put, hflag, htasks.current]
    exact h.awake

structure Busied (s u : Sched) : Prop where
  current : u.current = s.current
  entry : u.taskingEntry = s.taskingEntry
  self : hasFlag u taskFlgBusy s.current = true
  other : ∀ x, x ≠ s.current → hasFlag u taskFlgBusy x = hasFlag s taskFlgBusy x
  fds : ∀ x, fdsOf u x = fdsOf s x
  stop : ∀ x, hasFlag u taskFlgStop x = hasFlag s taskFlgStop x

theorem busied {k k' : Kernel} (htasks : SameTasks s.wait.kernel k)
    (hbusy : taskBusy k.sched.current k = .ok ((), k')) : Busied s.sched k'.sched := by
  have hu := of_run (wp_taskBusy (E := anyFault)) hbusy
  have htask : k'.sched.task = Function.update s.sched.task s.sched.current { s.sched.task s.sched.current with
      flag := (s.sched.task s.sched.current).flag ||| taskFlgBusy } := by
    rw [hu, writeTask, htasks.current, htasks.task]
  refine ⟨?_, ?_, ?_, fun x hx => hasFlag_congr (by rw [htask, Function.update_of_ne hx]), fun x => fdsOf_congr ?_,
    fun x => hasFlag_congr ?_⟩
  · rw [hu]
    exact htasks.current
  · rw [hu]
    exact htasks.entry
  · rw [hasFlag_self, htask, Function.update_self]
    exact or_mask_and_ne (by decide)
  · rw [htask]
    exact update_field (fun y : X86Task => y.ctl.map TaskCtl.fds) (by rfl) x
  · rw [htask]
    exact update_field (fun y : X86Task => y.flag &&& taskFlgStop) (or_and_of_ne (by decide)) x

theorem inv_readBlocks {u : System} {k : Kernel} {f : Nat} (h : Between idle s) (hne : s.sched.current ≠ idle)
    (htasks : SameTasks s.wait.kernel k) (hbusy : taskBusy k.sched.current k = .ok ((), u.kernel))
    (hfiles : SameFiles s.files u.files) (hf : f ∈ openFiles s.sched s.sched.current) (hdir : ¬isDir (s.files.file f))
    (hpending : u.files.pending = s.files.pending ∨
      ∃ j, s.files.pending j = 0 ∧ u.files.pending = Function.update s.files.pending j f) :
    FilesInv idle (s.put u) := by
  have hcurrent := htasks.current
  have hmid := waitInv_congr h.inv.wait htasks.task htasks.first htasks.last hcurrent htasks.lastPid htasks.signal
  have hwait : WaitInv idle (s.put u).wait :=
    inv_waitStep hmid (.busy (show k.sched.current ≠ idle from hcurrent ▸ hne) hbusy)
  obtain ⟨hcurrent', hentry, hself, hother, hfds, hstop⟩ := busied htasks hbusy
  have hchanged : ∀ i, u.files.pending i ≠ s.files.pending i → u.files.pending i = f ∧
      ∀ j, u.files.pending j ≠ s.files.pending j → j = i := by
    intro i hi
    rcases hpending with hsame | ⟨m, -, hset⟩
    · exact absurd (by rw [hsame]) hi
    · have hat : ∀ j, u.files.pending j ≠ s.files.pending j → j = m := fun j hj => by
        by_contra hjm
        exact hj (by rw [hset, Function.update_of_ne hjm])
      refine ⟨?_, fun j hj => (hat j hj).trans (hat i hi).symm⟩
      rw [hset, hat i hi, Function.update_self]
  -- What a task reads now it read before, or it is the new read of the current task.
  have hreads : ∀ x ∈ s.wait.tasks, ∀ j, Reads (s.put u) x j → x ≠ s.sched.current ∧ Reads s x j ∨
      x = s.sched.current ∧ u.files.pending j ≠ s.files.pending j := by
    intro x hx j hr
    have hheld : u.files.pending j ∈ openFiles s.sched x := openFiles_congr (hfds x) ▸ hr.held
    by_cases hsame : u.files.pending j = s.files.pending j
    · rw [hsame] at hheld
      have hx' : x ≠ s.sched.current := by
        rintro rfl
        exact pending_not_current h (mem_openFiles_ne hheld) hheld
      have hfile := hr.file
      rw [isDir, FileState.put, hsame, (hfiles.file _).1] at hfile
      exact .inl ⟨hx', (hother x hx').symm.trans hr.busy, hheld, hfile⟩
    · rw [(hchanged j hsame).1] at hheld
      exact .inr ⟨one_owner h.inv.accounted.nodup hx h.inv.wait.sched.current hheld hf, hsame⟩
  refine h.inv.of_same hwait rfl (fun he => ?_) (fun x hx hs => ?_) (fun x _ => hfds x) hfiles (fun j hj => ?_)
    fun x hx i j hi hj => ?_
  · exact hcurrent'.trans (h.inv.entry (hentry ▸ he))
  · rw [FileState.sched, FileState.put, hstop, h.running x hx] at hs
    cases hs
  · by_cases hsame : u.files.pending j = s.files.pending j
    · obtain ⟨x, hx, hr⟩ := h.inv.pending j (hsame ▸ hj)
      have hx' : x ≠ s.sched.current := by
        rintro rfl
        have := hr.busy
        rw [h.awake] at this
        cases this
      refine ⟨x, hx, (hother x hx').trans hr.busy, ?_, ?_⟩
      · rw [FileState.sched, FileState.put, hsame, openFiles_congr (hfds x)]
        exact hr.held
      · rw [isDir, FileState.put, hsame, (hfiles.file _).1]
        exact hr.file
    · have hpf := (hchanged j hsame).1
      refine ⟨_, h.inv.wait.sched.current, hself, ?_, ?_⟩
      · rw [FileState.sched, FileState.put, hpf, openFiles_congr (hfds _)]
        exact hf
      · rw [isDir, FileState.put, hpf, (hfiles.file _).1]
        exact hdir
  · rcases hreads x hx i hi with ⟨hx', hi'⟩ | ⟨hx', hi'⟩
    · rcases hreads x hx j hj with ⟨-, hj'⟩ | ⟨he, -⟩
      · exact h.inv.single x hx i j hi' hj'
      · exact absurd he hx'
    · rcases hreads x hx j hj with ⟨he, -⟩ | ⟨-, hj'⟩
      · exact absurd hx' he
      · exact (hchanged j hj').2 i hi'

theorem inv_readFile {u : System} {fd : Int} {buf len : Nat} {dirent : Option Nat} {b : Bool} (h : Between idle s)
    (hne : s.sched.current ≠ idle) (hspares : CallReadsToProgram s.system fd buf len)
    (hrun : syscallRead fd buf len dirent s.system = .ok (b, u)) (hleaves : Leaves idle b (s.put u) t) :
    Between idle t := by
  obtain ⟨hfiles, ⟨k, htasks, hkernel⟩, hout⟩ := of_run (wp_syscallRead hspares) hrun
  rcases hkernel with ⟨rfl, hbusy⟩ | ⟨rfl, hkernel⟩
  · rcases hout with ⟨-, hb, -⟩ | ⟨r, -, -, hf, hdir, hr, hout⟩
    · cases hb
    · have hblocks := inv_readBlocks h hne htasks hbusy hfiles (calledFile_open hf) hdir
      refine inv_leaves (hblocks ?_) (fun hb => ?_) hleaves
      · cases hout with
        | done hne => exact absurd (hr.mp rfl) hne
        | waits _ _ _ j hdev hfree hpending => exact .inr ⟨j, hfree, hpending⟩
        | overlong _ _ hpending => exact .inl hpending
      · cases hb
  · rw [← hkernel] at htasks
    have hbetween : Between idle (s.put u) := by
      refine inv_readNow h htasks hfiles ?_
      rcases hout with ⟨hpending, -, -⟩ | ⟨r, -, -, -, -, hr, hout⟩
      · exact hpending
      · cases hout with
        | done _ hpending => exact hpending
        | waits hasync => exact absurd (hr.mpr hasync) (by decide)
        | overlong hasync => exact absurd (hr.mpr hasync) (by decide)
    exact inv_leaves hbetween.inv (fun _ => ⟨hbetween.running, hbetween.awake⟩) hleaves

theorem sameFiles_readOver (files : FileTable) : SameFiles files (readOver files) := by
  refine ⟨rfl, rfl, fun g => ⟨?_, ?_, ?_⟩⟩
  · exact update_field VfsFile.flags (by rfl) g
  · exact update_field VfsFile.dev (by rfl) g
  · exact update_field VfsFile.task (by rfl) g

/-- The pending read of the first terminal is over, and at most its reader is woken up. -/
theorem inv_readOver {u : System} (h : Between idle s) (hwait : WaitInv idle (s.put u).wait)
    (hcurrent : u.kernel.sched.current = s.sched.current) (hentry : u.kernel.sched.taskingEntry = s.sched.taskingEntry)
    (hfds : ∀ x, fdsOf u.kernel.sched x = fdsOf s.sched x)
    (hstop : ∀ x, hasFlag u.kernel.sched taskFlgStop x = hasFlag s.sched taskFlgStop x)
    (hbusy : ∀ x, hasFlag u.kernel.sched taskFlgBusy x = true → hasFlag s.sched taskFlgBusy x = true)
    (hkept : ∀ x ∈ s.wait.tasks, ∀ j, j ≠ 0 → Reads s x j → hasFlag u.kernel.sched taskFlgBusy x = true)
    (hfiles : u.files = readOver s.files) : Between idle (s.put u) := by
  have hsame : SameFiles s.files u.files := hfiles ▸ sameFiles_readOver s.files
  have hpending : ∀ j, u.files.pending j ≠ 0 → j ≠ 0 ∧ u.files.pending j = s.files.pending j := by
    have hset : u.files.pending = Function.update s.files.pending 0 0 := by
      rw [hfiles]
      rfl
    intro j hj
    rw [hset] at hj ⊢
    by_cases hj0 : j = 0
    · rw [hj0, Function.update_self] at hj
      exact absurd rfl hj
    · exact ⟨hj0, Function.update_of_ne hj0 ..⟩
  have hreads : ∀ x j, Reads (s.put u) x j → Reads s x j := by
    intro x j hr
    have hheld := hr.held
    obtain ⟨-, hp⟩ := hpending j hr.pending_ne
    rw [FileState.sched, FileState.put, hp, openFiles_congr (hfds x)] at hheld
    have hfile := hr.file
    rw [isDir, FileState.put, hp, (hsame.file _).1] at hfile
    exact ⟨hbusy x hr.busy, hheld, hfile⟩
  refine ⟨h.inv.of_same hwait rfl (fun he => ?_) (fun x hx hs => ?_) (fun x _ => hfds x) hsame (fun j hj => ?_)
    fun x hx i j hi hj => h.inv.single x hx i j (hreads x i hi) (hreads x j hj),
    fun x hx => (hstop x).trans (h.running x hx), ?_⟩
  · rw [FileState.sched, FileState.put, hcurrent]
    exact h.inv.entry (hentry ▸ he)
  · rw [FileState.sched, FileState.put, hstop, h.running x hx] at hs
    cases hs
  · obtain ⟨hj0, hp⟩ := hpending j hj
    obtain ⟨x, hx, hr⟩ := h.inv.pending j (hp ▸ hj)
    refine ⟨x, hx, hkept x hx j hj0 hr, ?_, ?_⟩
    · rw [FileState.sched, FileState.put, hp, openFiles_congr (hfds x)]
      exact hr.held
    · rw [isDir, FileState.put, hp, (hsame.file _).1]
      exact hr.file
  · cases hb : hasFlag u.kernel.sched taskFlgBusy u.kernel.sched.current with
    | false => exact hb
    | true =>
      have := hbusy _ hb
      rw [hcurrent, h.awake] at this
      cases this

/-- The task that the file of a pending read names is the one that reads. -/
theorem reader_of_pending (h : FilesInv idle s) {k : Nat} (hk : s.files.pending k ≠ 0)
    (htask : (s.files.file (s.files.pending k)).task ≠ 0) : (s.files.file (s.files.pending k)).task ∈ s.wait.tasks ∧
      Reads s (s.files.file (s.files.pending k)).task k := by
  obtain ⟨x, hx, hr⟩ := h.pending k hk
  rcases h.owner x hx _ hr.held hr.file with h0 | he
  · exact absurd h0 htask
  · rw [he]
    exact ⟨hx, hr⟩

theorem Reads.ne_idle {x k : Nat} (hr : Reads s x k) (h : FilesInv idle s) : x ≠ idle := by
  rintro rfl
  have hfree := (Bool.or_eq_false_iff.mp h.wait.sched.idle_free.1).2
  rw [show hasFlag s.wait.kernel.sched taskFlgBusy x = true from hr.busy] at hfree
  cases hfree

structure Unbusied (s u : Sched) (x : Nat) : Prop where
  current : u.current = s.current
  entry : u.taskingEntry = s.taskingEntry
  self : hasFlag u taskFlgBusy x = false
  other : ∀ y, y ≠ x → hasFlag u taskFlgBusy y = hasFlag s taskFlgBusy y
  fds : ∀ y, fdsOf u y = fdsOf s y
  stop : ∀ y, hasFlag u taskFlgStop y = hasFlag s taskFlgStop y

theorem unbusied {k k' : Kernel} {x : Nat} (hrun : taskNobusy x k = .ok ((), k')) : Unbusied k.sched k'.sched x := by
  obtain rfl := of_run (wp_taskNobusy (E := anyFault)) hrun
  refine ⟨rfl, rfl, ?_, fun y hy => hasFlag_congr (by rw [writeTask_of_ne _ _ hy]), fun y => fdsOf_congr ?_,
    fun y => hasFlag_congr ?_⟩
  · rw [hasFlag_eq_false, writeTask_self]
    exact and_not_and.trans (if_pos rfl)
  · exact update_field (fun z : X86Task => z.ctl.map TaskCtl.fds) (by rfl) y
  · exact update_field (fun z : X86Task => z.flag &&& taskFlgStop) (and_not_and.trans (if_neg (by decide))) y

theorem inv_key {u : System} {c : BitVec 8} (h : Between idle s)
    (hspares : s.files.pending 0 ≠ 0 → SendsToProgram s.system (s.files.pending 0) 1)
    (hrun : ttyType c s.system = .ok ((), u)) : Between idle (s.put u) := by
  cases of_run (wp_ttyType hspares) hrun with
  | more mem hu =>
    rw [hu]
    exact inv_readNow h ⟨rfl, rfl, rfl, rfl, rfl, rfl, rfl⟩ ⟨rfl, rfl, fun g => ⟨rfl, rfl, rfl⟩⟩ rfl
  | broken hpending _ hkernel hfiles =>
    have hwait : WaitInv idle (s.put u).wait := by
      rw [FileState.put, hkernel]
      exact h.inv.wait
    exact inv_readOver h hwait (by rw [hkernel]) (by rw [hkernel]) (fun x => by rw [hkernel]) (fun x => by rw [hkernel])
      (fun x hx => by rwa [hkernel] at hx) (fun x _ j _ hr => by rw [hkernel]; exact hr.busy) hfiles
  | done hpending mem hkernel hfiles =>
    have hmid : WaitInv idle { s.wait with kernel := { s.wait.kernel with mem := mem } } :=
      waitInv_congr h.inv.wait rfl rfl rfl rfl rfl rfl
    by_cases htask : (s.files.file (s.files.pending 0)).task = 0
    · rw [if_pos htask] at hkernel
      have hwait : WaitInv idle (s.put u).wait := by
        rw [FileState.put, hkernel]
        exact hmid
      exact inv_readOver h hwait (by rw [hkernel]) (by rw [hkernel]) (fun x => by rw [hkernel])
        (fun x => by rw [hkernel]) (fun x hx => by rwa [hkernel] at hx)
        (fun x _ j _ hr => by rw [hkernel]; exact hr.busy) hfiles
    · rw [if_neg htask] at hkernel
      obtain ⟨hmem, hreader⟩ := reader_of_pending h.inv hpending htask
      generalize (s.files.file (s.files.pending 0)).task = x at hkernel hmem hreader
      have hwait : WaitInv idle (s.put u).wait :=
        inv_waitStep hmid (.nobusy hmem (hreader.ne_idle h.inv) hkernel)
      obtain ⟨hcurrent, hentry, hself, hother, hfds, hstop⟩ := unbusied hkernel
      refine inv_readOver h hwait hcurrent hentry hfds hstop (fun y hy => ?_) (fun y hy j hj hr => ?_) hfiles
      · by_cases hyx : y = x
        · rw [hyx, hself] at hy
          cases hy
        · exact (hother y hyx).symm.trans hy
      · have hyx : y ≠ x := fun he => hj (h.inv.single y hy j 0 hr (he ▸ hreader))
        exact (hother y hyx).trans hr.busy

theorem wp_taskEnable_fds {s : Sched} {x : Nat} {task : X86Task} {fds : List Nat} (hnew : x ≠ s.last)
    (hfds : task.ctl.map TaskCtl.fds = some fds) :
    wp (taskEnable x) noFault (fun _ u => fdsOf u x = fds) (writeTask s x task) := by
  obtain ⟨ctl, hctl, rfl⟩ := Option.map_eq_some_iff.mp hfds
  have hctl' : ((writeTask s x task).task x).ctl = some ctl := by rw [writeTask_self, hctl]
  rw [taskEnable, wp_bind, wp_ctlOf hctl', wp_bind, wp_modify, wp_bind, wp_get, wp_bind, wp_setTask,
    wp_bind, wp_get, wp_bind, wp_setTask, wp_modify]
  simp [fdsOf, writeTask, hnew]

theorem accounted_terminals {allocs frees held held' : List Nat} {wr rd : Nat} (h : Accounted allocs frees held)
    (hwr : allocs.count wr = frees.count wr) (hrd : allocs.count rd = frees.count rd) (hne : rd ≠ wr)
    (hheld : held'.Perm (rd :: wr :: held)) : Accounted (rd :: wr :: allocs) frees held' := by
  refine (h.alloc hwr (.refl _)).alloc ?_ hheld
  rw [List.count_cons_of_ne hne.symm]
  exact hrd

structure Joined (s : FileState) (x wr rd : Nat) (t : FileState) : Prop where
  tasks : t.wait.tasks = s.wait.tasks ++ [x]
  current : t.sched.current = s.sched.current
  entry : t.sched.taskingEntry = s.sched.taskingEntry
  flags : ∀ y ∈ s.wait.tasks, ∀ f, hasFlag t.sched f y = hasFlag s.sched f y
  clear : ∀ f, hasFlag t.sched f x = false
  fds : ∀ y ∈ s.wait.tasks, fdsOf t.sched y = fdsOf s.sched y
  newFds : fdsOf t.sched x = [wr, rd, 0, 0]
  terminals : Terminals s.files x wr rd t.files
  file : ∀ f ∈ held s, t.files.file f = s.files.file f

theorem joined {w : WaitState} {files : FileTable} {fs x wr rd : Nat} {task : X86Task} {g : TaskSignal} {fds : List Nat}
    (h : Between idle s) (hwr : Fresh s.files wr) (hrd : Fresh s.files rd) (hne : rd ≠ wr)
    (hopen : openTerminals fs x wr rd s.files = .ok (fds, files)) (hfds : task.ctl.map TaskCtl.fds = some fds)
    (hstep : WaitStep idle s.wait (.enable x task g) w) : Joined s x wr rd ⟨w, files⟩ := by
  obtain ⟨rfl, hterm⟩ := of_run (wp_openTerminals hwr.1 hrd.1 hne) hopen
  cases hstep with
  | @enable k _ _ _ h0 hlt hnew hcreated hrun =>
    obtain ⟨u, hu, rfl⟩ := onSched_run hrun
    have hlast := (ne_of_mem_of_not_mem (List.mem_of_getLast? h.inv.wait.sched.listed.last) hnew).symm
    have henabled := of_run (wp_taskEnable hlast hcreated.next hcreated.ctl) hu
    have hold : ∀ y ∈ s.wait.tasks, y ≠ x := fun y hy he => hnew (he ▸ hy)
    refine ⟨rfl, henabled.current, henabled.taskingEntry, fun y hy f => ?_, fun f => ?_, fun y hy => ?_,
      of_run (wp_taskEnable_fds hlast hfds) hu, hterm, fun f hin => hterm.other f (fun he => ?_) fun he => ?_⟩
    · exact hasFlag_congr (congrArg (· &&& f) (henabled.fields (hold y hy)).1)
    · exact hasFlag_eq_false.mpr (by rw [henabled.new.1, BitVec.zero_and])
    · exact fdsOf_congr (congrArg _ (henabled.fields (hold y hy)).2.2.1)
    · exact h.inv.accounted.not_held hwr.2 (he ▸ hin)
    · exact h.inv.accounted.not_held hrd.2 (he ▸ hin)

theorem Joined.cases {x wr rd : Nat} (hj : Joined s x wr rd t) {y : Nat} (hy : y ∈ t.wait.tasks) :
    y ∈ s.wait.tasks ∨ y = x := by
  rw [hj.tasks, List.mem_append, List.mem_singleton] at hy
  exact hy

theorem Joined.newOpen {x wr rd : Nat} (hj : Joined s x wr rd t) (hwr : wr ≠ 0) (hrd : rd ≠ 0) :
    openFiles t.sched x = [wr, rd] := by
  rw [openFiles, hj.newFds]
  simp [hwr, hrd]

theorem inv_create {x wr rd : Nat} (h : Between idle s) (hwait : WaitInv idle t.wait) (hwr : Fresh s.files wr)
    (hrd : Fresh s.files rd) (hne : rd ≠ wr) (hj : Joined s x wr rd t) : Between idle t := by
  have hnewopen := hj.newOpen hwr.1 hrd.1
  have hreads : ∀ y ∈ s.wait.tasks, ∀ k, Reads t y k ↔ Reads s y k := fun y hy =>
    reads_iff (hj.flags y hy _) (fun _ => openFiles_congr (hj.fds y hy)) hj.terminals.pending fun f hf => by
      rw [hj.file f (List.mem_flatMap.mpr ⟨y, hy, hf⟩)]
  have hrunning : ∀ y ∈ t.wait.tasks, hasFlag t.sched taskFlgStop y = false := by
    intro y hy
    rcases hj.cases hy with hy | rfl
    · exact (hj.flags y hy _).trans (h.running y hy)
    · exact hj.clear _
  refine ⟨⟨hwait, fun he => ?_, fun y hy hs => ?_, fun y hy hyi => ?_, ?_, fun y hy f hf hdir => ?_,
    h.inv.readers hj.terminals.pending hreads fun y hy _ => ?_, fun y hy i j hi hj' => ?_⟩, hrunning, ?_⟩
  · exact hj.current.trans (h.inv.entry (hj.entry ▸ he))
  · rw [hrunning y hy] at hs
    cases hs
  · rcases hj.cases hy with hy | rfl
    · exact (congrArg List.length (hj.fds y hy)).trans (h.inv.slots y hy hyi)
    · exact congrArg List.length hj.newFds
  · refine hj.terminals.allocs ▸ hj.terminals.frees ▸ accounted_terminals h.inv.accounted hwr.2 hrd.2 hne ?_
    have hheld : held t = held s ++ [wr, rd] := by
      rw [held, hj.tasks, List.flatMap_append, List.flatMap_singleton, hnewopen, held]
      exact congrArg (· ++ [wr, rd]) (List.flatMap_congr fun y hy => openFiles_congr (hj.fds y hy))
    refine (List.Perm.of_eq hheld).trans (List.perm_append_comm.trans ?_)
    exact List.Perm.swap ..
  · rcases hj.cases hy with hy | rfl
    · have hf' : f ∈ openFiles s.sched y := openFiles_congr (hj.fds y hy) ▸ hf
      rw [hj.file f (List.mem_flatMap.mpr ⟨y, hy, hf'⟩)] at hdir ⊢
      exact h.inv.owner y hy f hf' hdir
    · rw [hnewopen] at hf
      exact .inr (hj.terminals.task f (by simpa using hf)).1
  · rw [hj.tasks]
    exact List.mem_append_left _ hy
  · rcases hj.cases hy with hy | rfl
    · exact h.inv.single y hy i j ((hreads y hy i).mp hi) ((hreads y hy j).mp hj')
    · have hbusy := hi.busy
      rw [hj.clear] at hbusy
      cases hbusy
  · rw [hj.current, hj.flags _ h.inv.wait.sched.current]
    exact h.awake

theorem between_step {op : FileOp} (h : Between idle s) (hstep : FileStep idle s op t) (hspares : Spares s op t) :
    Between idle t := by
  cases hstep with
  | call hop hstep hleaves =>
    obtain ⟨htasks, hkept⟩ := called h.inv.wait h.awake hop hstep
    exact inv_called h (inv_waitStep h.inv.wait hstep) htasks hkept hleaves
  | fault hrun hstep hleaves =>
    obtain ⟨htasks, hkept⟩ := faulted h.inv.wait hrun hstep
    exact inv_called h (inv_waitStep h.inv.wait hstep) htasks hkept hleaves
  | timer hleaves => exact inv_leaves h.inv (fun _ => ⟨h.running, h.awake⟩) hleaves
  | openFile hne hfresh hrun => exact inv_openFile h hne hfresh hrun
  | closeFile hne hrun => exact inv_closeFile h hne hrun
  | readFile hne hrun hleaves => exact inv_readFile h hne hspares hrun hleaves
  | create hwr hrd hne hopen hfds hstep =>
    exact inv_create h (inv_waitStep h.inv.wait hstep) hwr hrd hne (joined h hwr hrd hne hopen hfds hstep)
  | key hrun => exact inv_key h hspares hrun
  | memory => exact inv_readNow h ⟨rfl, rfl, rfl, rfl, rfl, rfl, rfl⟩ ⟨rfl, rfl, fun g => ⟨rfl, rfl, rfl⟩⟩ rfl

end Steps

/-- A file that was allocated and has not been freed. -/
def Live (s : FileTable) (f : Nat) : Prop := s.frees.count f < s.allocs.count f

/-- Every live file is in one slot of one task; slots and pending reads refer to live files; and a
file that is not live was freed as often as it was allocated. -/
structure OneOwner (s : FileState) : Prop where
  owner : ∀ f, Live s.files f →
    ∃! p : Nat × Nat, p.1 ∈ s.wait.tasks ∧ (fdsOf s.sched p.1)[p.2]? = some f
  slots : ∀ x ∈ s.wait.tasks, ∀ f ∈ fdsOf s.sched x, f = 0 ∨ Live s.files f
  pending : ∀ k, s.files.pending k = 0 ∨
    Live s.files (s.files.pending k) ∧ ∃ x ∈ s.wait.tasks, s.files.pending k ∈ fdsOf s.sched x
  freed : ∀ f, s.files.allocs.count f = s.files.frees.count f ∨
    Live s.files f ∧ s.files.allocs.count f = s.files.frees.count f + 1

theorem one_slot {fds : List Nat} {i j f : Nat} (hf : f ≠ 0) (hnodup : (fds.filter (· ≠ 0)).Nodup)
    (hi : fds[i]? = some f) (hj : fds[j]? = some f) : i = j := by
  by_contra hne
  have hslot : slotFiles f = [f] := if_neg hf
  have hperm : (slotFiles f ++ (fds.set i 0).filter (· ≠ 0)).Perm (slotFiles 0 ++ fds.filter (· ≠ 0)) := filter_set_perm hi
  rw [hslot, slotFiles, if_pos rfl, List.singleton_append] at hperm
  have hnot := (List.nodup_cons.mp (hperm.nodup_iff.mpr hnodup)).1
  have hj' : (fds.set i 0)[j]? = some f := by rw [List.getElem?_set_ne hne, hj]
  exact hnot (List.mem_filter.mpr ⟨List.mem_of_getElem? hj', by simpa using hf⟩)

theorem Between.oneOwner {idle : Nat} {s : FileState} (h : Between idle s) : OneOwner s := by
  have hacc := h.inv.accounted
  have hlive : ∀ x ∈ s.wait.tasks, ∀ f ∈ openFiles s.sched x, Live s.files f := fun x hx f hf =>
    hacc.live_iff.mpr (List.mem_flatMap.mpr ⟨x, hx, hf⟩)
  have hopen : ∀ x f, f ∈ openFiles s.sched x ↔ f ∈ fdsOf s.sched x ∧ f ≠ 0 := fun x f => by
    rw [openFiles, List.mem_filter, decide_eq_true_iff]
  refine ⟨fun f hf => ?_, fun x hx f hf => ?_, fun k => ?_, fun f => ?_⟩
  · obtain ⟨x, hx, hxf⟩ := List.mem_flatMap.mp (hacc.live_iff.mp hf)
    obtain ⟨hmem, hne⟩ := (hopen x f).mp hxf
    obtain ⟨i, hi⟩ := List.mem_iff_getElem?.mp hmem
    refine ⟨(x, i), ⟨hx, hi⟩, ?_⟩
    rintro ⟨y, j⟩ ⟨hy, hj⟩
    obtain rfl := one_owner hacc.nodup hy hx ((hopen y f).mpr ⟨List.mem_of_getElem? hj, hne⟩) hxf
    rw [one_slot hne ((List.nodup_flatMap.mp hacc.nodup).1 y hy) hi hj]
  · by_cases hf0 : f = 0
    · exact .inl hf0
    · exact .inr (hlive x hx f ((hopen x f).mpr ⟨hf, hf0⟩))
  · by_cases hk : s.files.pending k = 0
    · exact .inl hk
    · obtain ⟨x, hx, hr⟩ := h.inv.pending k hk
      exact .inr ⟨hlive x hx _ hr.held, x, hx, ((hopen x _).mp hr.held).1⟩
  · have hcount := hacc.count f
    by_cases hf : f ∈ held s
    · rw [if_pos hf] at hcount
      exact .inr ⟨hacc.live_iff.mpr hf, hcount⟩
    · rw [if_neg hf] at hcount
      exact .inl hcount

def fileStart (idle : Nat) (k : Kernel) (file : Nat → VfsFile) (L : Layout) : FileState :=
  ⟨startState idle k, ⟨file, [], [], fun _ => 0, L⟩⟩

theorem between_start {idle : Nat} {k : Kernel} {file : Nat → VfsFile} {L : Layout} (h : WaitInv idle (startState idle k))
    (hbusy : hasFlag k.sched taskFlgBusy idle = false) : Between idle (fileStart idle k file L) := by
  have hcurrent : k.sched.current = idle := List.mem_singleton.mp h.sched.current
  have hidle : ∀ x ∈ [idle], x = idle := fun x hx => List.mem_singleton.mp hx
  have hnone : openFiles k.sched idle = [] := by
    rw [openFiles, fdsOf, show (k.sched.task idle).ctl = none from h.idle_ctl]
    rfl
  have hreads : ∀ x j, ¬Reads (fileStart idle k file L) x j := fun x j hr => hr.pending_ne rfl
  refine ⟨⟨h, fun _ => hcurrent, fun x hx _ => hidle x hx ▸ hbusy, fun x hx hne => absurd (hidle x hx) hne, ?_,
    fun x hx f hf => ?_, fun j hj => absurd rfl hj, fun x _ i j hi => absurd hi (hreads x i)⟩, fun x hx => ?_, ?_⟩
  · have hheld : held (fileStart idle k file L) = [] := by
      rw [held, fileStart, startState, List.flatMap_singleton]
      exact hnone
    rw [hheld]
    exact ⟨.refl _, List.nodup_nil⟩
  · rw [hidle x hx, show openFiles (fileStart idle k file L).sched idle = [] from hnone] at hf
    cases hf
  · rw [hidle x hx]
    exact h.sched.idle_free.2
  · rw [show (fileStart idle k file L).sched.current = idle from hcurrent]
    exact hbusy

/-- In every state of every run after the scheduler was set up, each open file has one owner, as long as
no read stores into the memory of the kernel. -/
theorem files_have_one_owner {idle : Nat} (h0 : idle ≠ 0) (hlt : idle < 4294967296) (esp0 : Nat) (file : Nat → VfsFile)
    (L : Layout) {k₀ : Kernel} (hpid : k₀.sched.lastPid = 0) :
    wp (onSched (x86TaskInit idle esp0)) noFault
      (fun _ k => ∀ s, Run (FileStep idle) Spares (fileStart idle k file L) s → OneOwner s) k₀ := by
  refine wp_imp (inv_start h0 hlt hpid) fun _ k hk s hrun => ?_
  have hbusy : hasFlag k.sched taskFlgBusy idle = false := (Bool.or_eq_false_iff.mp hk.sched.idle_free.1).2
  exact (hrun.invariant (Between idle) (fun _ _ _ h hstep hspares => between_step h hstep hspares)
    (between_start hk hbusy)).oneOwner

def noFiles : Nat → VfsFile := fun _ => emptyFile

/-- The control structure of the task at `0x4000` lies on the heap of the kernel. -/
def kernelLayout : Layout where
  ctl := fun t => 0xC0100000 + t
  ttys := 0xC0020000
  first := 0xC0021000
  last := 0xC0021004
  current := 0xC0021008
  taskingEntry := 0xC002100C
  lastPid := 0xC0021010
  systime := 0xC0021014
  mmKernel := 0xC002101C
  tssEsp0 := 0xC0021024

def terminalTask : X86Task := { waitingTask with ctl := some ⟨[0x5000, 0x5100, 0, 0], 0, 0⟩ }

def leftState (s : FileState) : FileState := ⟨{ s.wait with
  kernel := (after (taskSwitch 0x1000) s.system).kernel
  tasks := if s.sched.taskingEntry then s.wait.tasks else alive s.sched s.wait.tasks },
  (after (taskSwitch 0x1000) s.system).files⟩

def createdState : FileState :=
  let s := fileStart 0x1000 bootedKernel noFiles kernelLayout
  ⟨⟨after (onSched (taskEnable 0x4000)) (writeKernel s.wait.kernel 0x4000 terminalTask createdSignal), [0x1000] ++ [0x4000],
    1, Function.update (fun _ => false) 0x4000 false, Function.update (fun _ => none) 0x4000 none⟩,
    after ((fun _ => ()) <$> openTerminals 7 0x4000 0x5000 0x5100) s.files⟩

theorem leftState_leaves {s : FileState} (hstop : ∀ x ∈ s.wait.tasks, hasFlag s.sched taskFlgStop x = false)
    (hok : (taskSwitch 0x1000 s.system).isOk = true) : Leaves 0x1000 true s (leftState s) := by
  refine .switch (fun x hx hstopped => ?_) (run_after hok)
  rw [hstop x hx] at hstopped
  cases hstopped

def runningState : FileState := leftState (leftState createdState)

theorem runningState_run {C : FileState → FileOp → FileState → Prop}
    (hC : C (fileStart 0x1000 bootedKernel noFiles kernelLayout) (.create 0x4000 terminalTask createdSignal 0x5000 0x5100) createdState)
    (htimer : ∀ s t, C s .timer t) : Run (FileStep 0x1000) C (fileStart 0x1000 bootedKernel noFiles kernelLayout) runningState := by
  have hcreate : FileStep 0x1000 (fileStart 0x1000 bootedKernel noFiles kernelLayout)
      (.create 0x4000 terminalTask createdSignal 0x5000 0x5100) createdState :=
    .create (by decide) (by decide) (by decide) (run_after_of (by decide +kernel)) rfl
      (.enable (by decide) (by decide) (by decide) ⟨rfl, rfl, rfl, fun h => absurd rfl h⟩ (run_after (by decide +kernel)))
  have hentry := FileStep.timer (leftState_leaves (s := createdState) (by decide +kernel) (by decide +kernel))
  have hswitch := FileStep.timer (leftState_leaves (s := leftState createdState) (by decide +kernel) (by decide +kernel))
  exact (((Run.refl _).tail hcreate hC).tail hentry (htimer _ _)).tail hswitch (htimer _ _)

def readState (s : FileState) (fd : Int) : FileState :=
  leftState (s.put (after ((fun _ => ()) <$> syscallRead fd 0x80000000 1 none) s.system))

theorem readState_step {s : FileState} {fd : Int} (hne : s.sched.current ≠ 0x1000)
    (hread : (syscallRead fd 0x80000000 1 none s.system).map Prod.fst = .ok true)
    (hstop : ∀ x ∈ s.wait.tasks, hasFlag (after ((fun _ => ()) <$> syscallRead fd 0x80000000 1 none)
      s.system).kernel.sched taskFlgStop x = false)
    (hok : (taskSwitch 0x1000 (after ((fun _ => ()) <$> syscallRead fd 0x80000000 1 none) s.system)).isOk = true) :
    FileStep 0x1000 s (.readFile fd 0x80000000 1 none) (readState s fd) :=
  .readFile hne (run_after_of hread) (leftState_leaves hstop hok)

def openedFile : FileState :=
  runningState.put (after ((fun _ => ()) <$> sysOpen (.file (some (7, some (.file 0xC0200000 4))) (mask 0)) 0x6000)
    runningState.system)

def copiedState (buf : Nat) : FileState :=
  openedFile.put (after ((fun _ => ()) <$> syscallRead 2 buf 4 none) openedFile.system)

theorem copiedState_run {C : FileState → FileOp → FileState → Prop} (buf : Nat)
    (hrun : Run (FileStep 0x1000) C (fileStart 0x1000 bootedKernel noFiles kernelLayout) runningState)
    (hopen : C runningState (.openFile (.file (some (7, some (.file 0xC0200000 4))) (mask 0)) 0x6000) openedFile)
    (hread : (syscallRead 2 buf 4 none openedFile.system).map Prod.fst = .ok false)
    (hC : C openedFile (.readFile 2 buf 4 none) (copiedState buf)) :
    Run (FileStep 0x1000) C (fileStart 0x1000 bootedKernel noFiles kernelLayout) (copiedState buf) := by
  have hstep : FileStep 0x1000 runningState (.openFile (.file (some (7, some (.file 0xC0200000 4))) (mask 0)) 0x6000)
      openedFile :=
    .openFile (r := 2) (by decide +kernel) (by decide +kernel) (run_after_of (by decide +kernel))
  exact (hrun.tail hstep hopen).tail (.readFile (by decide +kernel) (run_after_of hread) .stay) hC

/-- A task reads a file and then from its terminal. -/
theorem files_have_one_owner_two_reads : (readState (copiedState 0x80000000) 1).files.pending 0 = 0x5100 ∧
    OneOwner (readState (copiedState 0x80000000) 1) := by
  have hall := of_run (files_have_one_owner (show 0x1000 ≠ 0 by decide) (by decide) 0x2000 noFiles kernelLayout rfl)
    bootedKernel_init
  have hcopied : Run (FileStep 0x1000) Spares (fileStart 0x1000 bootedKernel noFiles kernelLayout)
      (copiedState 0x80000000) :=
    copiedState_run _ (runningState_run trivial fun _ _ => trivial) trivial (by decide +kernel)
      (by change CallReadsToProgram _ _ _ _; decide +kernel)
  have hstep : FileStep 0x1000 (copiedState 0x80000000) (.readFile 1 0x80000000 1 none)
      (readState (copiedState 0x80000000) 1) :=
    readState_step (by decide +kernel) (by decide +kernel) (by decide +kernel) (by decide +kernel)
  exact ⟨by decide +kernel, hall _ (hcopied.tail hstep (by change CallReadsToProgram _ _ _ _; decide +kernel))⟩

/-- The buffer is the second descriptor of the task that reads: the file in it has no owner any more. -/
theorem file_lost_by_read : ¬∀ s, FileRun 0x1000 (fileStart 0x1000 bootedKernel noFiles kernelLayout) s → OneOwner s := by
  intro hall
  have howner := hall _ (copiedState_run 0xC0104004 (runningState_run trivial fun _ _ => trivial) trivial
    (by decide +kernel) trivial)
  obtain ⟨⟨x, i⟩, ⟨hx, hi⟩, -⟩ := howner.owner 0x5100 (by unfold Live; decide +kernel)
  have hnone : ∀ x ∈ (copiedState 0xC0104004).wait.tasks, 0x5100 ∉ fdsOf (copiedState 0xC0104004).sched x := by
    decide +kernel
  exact hnone x hx (List.mem_of_getElem? hi)

end YggKernel.Files
