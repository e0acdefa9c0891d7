import YggKernel.Files.UserBuffers
import YggKernel.Task.WakeUps

namespace YggKernel.Transfers

open Lib.Program Lib.ByteMemory Lib.BitWords YggKernel.Task Files

/-- The copy to the memory of a task, or `memcpy` for a file of the kernel. -/
def copyOut (v : View) (x : VfsFile) (done : Nat) (src : List (BitVec 8)) : Prog Fault Transfer Unit :=
  if x.task ≠ 0 then mmMemcpyKernelToUser v x.task (u32 (x.opBuf + done)) src
  else memcpyTo v none (x.opBuf + done) src

def vfsSendReadRes (v : View) (f : Nat) (src : List (BitVec 8)) : Prog Fault Transfer Int := do
  let x := (← get).system.files.file f
  onSystem (kassert (f != 0 && x.opBuf != 0 && x.opRes != 0) "f && f->op_buf && f->op_res")
  let done ← onSystem (onKernel (loadWord x.opRes))
  if done = 0xFFFFFFFF then
    onSystem (onFiles (setFile f fun x => { x with opBuf := 0 }))
    return 1
  let sz := if src.length > x.opLen then x.opLen else src.length
  copyOut v x done (src.take sz)
  onSystem (copyRes x done (src.take sz))
  onSystem (countRes f sz)

structure Chunk where
  view : View
  bytes : List (BitVec 8)

/-- The chunks are sent one by one, until a call returns 1. -/
def sendChunks (f : Nat) : List Chunk → Prog Fault Transfer Int
  | [] => return 0
  | c :: cs => do
    if (← vfsSendReadRes c.view f c.bytes) = 1 then return 1 else sendChunks f cs

def sent (chunks : List Chunk) : List (BitVec 8) := chunks.flatMap Chunk.bytes

def Arrives (v : View) (x : VfsFile) (space done n : Nat) : Prop :=
  if x.task = 0 then ∀ k < n, v.target none (u32 (x.opBuf + done + k)) = some (owner space (u32 (x.opBuf + done + k)))
  else Reaches v space (u32 (x.opBuf + done)) n

instance (v : View) (x : VfsFile) (space done n : Nat) : Decidable (Arrives v x space done n) :=
  inferInstanceAs (Decidable (if x.task = 0 then
    ∀ k < n, v.target none (u32 (x.opBuf + done + k)) = some (owner space (u32 (x.opBuf + done + k)))
    else Reaches v space (u32 (x.opBuf + done)) n))

/-- Each chunk gets to its place, and none but one that arrives before any other byte is longer than what
is left to read. -/
def Delivers (x : VfsFile) (space : Nat) : Nat → List Chunk → Prop
  | _, [] => True
  | done, c :: cs => (done = 0 ∨ done + c.bytes.length ≤ x.opLen) ∧
    Arrives c.view x space done (min c.bytes.length x.opLen) ∧
    (done + c.bytes.length < x.opLen → Delivers x space (done + c.bytes.length) cs)

instance decidableDelivers (x : VfsFile) (space : Nat) :
    (done : Nat) → (chunks : List Chunk) → Decidable (Delivers x space done chunks)
  | _, [] => inferInstanceAs (Decidable True)
  | done, c :: cs =>
    have := decidableDelivers x space (done + c.bytes.length) cs
    inferInstanceAs (Decidable ((done = 0 ∨ done + c.bytes.length ≤ x.opLen) ∧ _ ∧ (_ → _)))

/-- A buffer in the memory of the kernel has no byte of the file and none of the count. -/
def Separate (x : VfsFile) (f a : Nat) : Prop :=
  kernelVirtBase ≤ a → (a < f ∨ f + sizeofFile ≤ a) ∧ (a < x.opRes ∨ x.opRes + 4 ≤ a)

/-- A read of the file is pending, and `done` bytes of it have arrived. The buffer is in the memory of the
task that the file names; when it names none, that of the kernel or of any task. -/
structure Pending (t : Transfer) (f space done : Nat) : Prop where
  file : f ≠ 0
  space : (t.system.files.file f).task = 0 ∨ space = (t.system.files.file f).task
  buffer : (t.system.files.file f).opBuf ≠ 0
  word : (t.system.files.file f).opBuf < 4294967296
  result : (t.system.files.file f).opRes ≠ 0
  count : load32 t.system.kernel.mem (t.system.files.file f).opRes = done
  left : done < (t.system.files.file f).opLen
  length : (t.system.files.file f).opLen < 4294967296
  separate : (t.system.files.file f).task = 0 → ∀ k < (t.system.files.file f).opLen,
    Separate (t.system.files.file f) f (u32 ((t.system.files.file f).opBuf + k))

structure Finished (t u : Transfer) (f : Nat) : Prop where
  file : u.system.files.file f = { t.system.files.file f with opBuf := 0 }
  others : (t.system.files.file f).task ≠ 0 → u.system.files = { t.system.files with
    file := Function.update t.system.files.file f { t.system.files.file f with opBuf := 0 } }
  nobusy : (t.system.files.file f).task ≠ 0 → hasFlag u.system.kernel.sched taskFlgBusy (t.system.files.file f).task = false

structure Unfinished (t u : Transfer) (f : Nat) : Prop where
  file : u.system.files.file f = t.system.files.file f
  others : (t.system.files.file f).task ≠ 0 → u.system.files = t.system.files ∧
    u.system.kernel.sched = t.system.kernel.sched

section Calls

variable {t : Transfer} {f space done : Nat} {v : View} {E : Fault → Prop}

theorem wp_storeBytes_separate {s : System} {x : VfsFile} {a : Nat} {bytes : List (BitVec 8)} (hx : s.files.file f = x)
    (h : ∀ k < bytes.length, Separate x f (u32 (a + k))) : wp (storeBytes a bytes) noFault (fun _ u =>
      u.files.file f = x ∧ load32 u.kernel.mem x.opRes = load32 s.kernel.mem x.opRes) s := by
  induction bytes generalizing a s with
  | nil => exact ⟨hx, rfl⟩
  | cons b bytes ih =>
    have htail : ∀ k < bytes.length, Separate x f (u32 (a + 1 + k)) := fun k hk => by
      rw [Nat.add_assoc, Nat.add_comm 1]
      exact h (k + 1) (Nat.succ_lt_succ hk)
    rw [storeBytes, wp_bind, storeByte]
    by_cases ha : kernelVirtBase ≤ u32 a
    · obtain ⟨hfile, hcount⟩ := h 0 (Nat.succ_pos _) ha
      rw [if_pos ha, wp_modify]
      have hkept : (overwrite (u32 a) b s).files.file f = x := by
        rw [← hx]
        exact overwriteFile_outside b _ hfile
      refine wp_imp (ih hkept htail) fun _ u hrest => ⟨hrest.1, hrest.2.trans ?_⟩
      exact load32_store8_of_outside hcount
    · rw [if_neg ha, wp_pure]
      exact ih hx htail

theorem wp_countRes {s : System} {x : VfsFile} {sz : Nat} (hx : s.files.file f = x)
    (hcount : load32 s.kernel.mem x.opRes = done) : wp (countRes f sz) noFault (fun r u =>
      load32 u.kernel.mem x.opRes = u32 (done + sz) ∧
      (u32 (done + sz) = x.opLen → r = 1 ∧
        u.files = { s.files with file := Function.update s.files.file f { x with opBuf := 0 } } ∧
        (x.task ≠ 0 → hasFlag u.kernel.sched taskFlgBusy x.task = false)) ∧
      (u32 (done + sz) ≠ x.opLen → r = 0 ∧ u.files = s.files ∧ u.kernel.sched = s.kernel.sched)) s := by
  rw [countRes, wp_bind, wp_get]
  dsimp only
  rw [hx, wp_bind, wp_onKernel, loadWord, wp_bind, wp_get, wp_pure, hcount, wp_bind, wp_onKernel, storeWord, wp_modify]
  dsimp only
  have hload : load32 (store32 s.kernel.mem x.opRes (u32 (done + sz))) x.opRes = u32 (done + sz) := load32_store32 (u32_lt _)
  by_cases hlen : u32 (done + sz) = x.opLen
  · rw [if_pos hlen, wp_bind, wp_onFiles, wp_setFile]
    by_cases htask : x.task = 0
    · rw [if_neg (not_not_intro htask), wp_pure]
      exact ⟨hload, fun _ => ⟨rfl, by rw [hx], fun hne => absurd htask hne⟩, fun hne => absurd hlen hne⟩
    · rw [if_pos htask, wp_bind, wp_onKernel]
      refine wp_imp wp_taskNobusy fun _ k hk => ?_
      subst hk
      rw [wp_pure]
      refine ⟨hload, fun _ => ⟨rfl, by rw [hx], fun _ => ?_⟩, fun hne => absurd hlen hne⟩
      simp only [hasFlag, writeTask, Function.update_self, taskFlgBusy, and_not_and]
      rfl
  · rw [if_neg hlen, wp_pure]
    exact ⟨hload, fun heq => absurd heq hlen, fun _ => ⟨rfl, rfl, rfl⟩⟩

theorem wp_copyOut_low {x : VfsFile} {src : List (BitVec 8)} :
    wp (copyOut v x done src) anyFault (fun _ u => ∃ l, u = t.log l ∧ ∀ s ∈ l, s.addr < tableInfoBase) t := by
  rw [copyOut]
  by_cases htask : x.task = 0
  · rw [if_neg (not_not_intro htask)]
    refine wp_imp wp_memcpyTo_logs fun _ u hpost => ?_
    obtain ⟨l, _, hu, hl⟩ := hpost
    refine ⟨l, hu, fun s hs => ?_⟩
    obtain ⟨_, rfl, htarget⟩ := hl s hs
    exact v.mapped_lt htarget
  · rw [if_pos htask, mmMemcpyKernelToUser]
    refine wp_imp (wp_copyPages_logs ..) fun _ u hpost => ?_
    obtain ⟨⟨l, hu, hl⟩, _⟩ := hpost
    refine ⟨l, hu, fun s hs => ?_⟩
    obtain ⟨_, ⟨page, rfl, hopen⟩, htarget⟩ := hl s hs
    exact hopen.target_lt htarget

section Copies

variable {x : VfsFile} {src : List (BitVec 8)} (hspace : x.task = 0 ∨ space = x.task)
include hspace

theorem wp_copyOut (h : Arrives v x space done src.length) :
    wp (copyOut v x done src) noFault (fun _ u => u = t.log (storesAt space (x.opBuf + done) src)) t := by
  rw [copyOut]
  rw [Arrives] at h
  by_cases htask : x.task = 0
  · rw [if_pos htask] at h
    rw [if_neg (not_not_intro htask)]
    exact wp_memcpyTo _ h
  · rw [if_neg htask] at h
    rw [if_pos htask, ← hspace.resolve_left htask, ← storesAt_u32]
    exact wp_mmMemcpyKernelToUser (u32_lt _) h

theorem wp_copyOut_logs (done : Nat) (hlen : src.length ≤ tableInfoBase) :
    wp (copyOut v x done src) anyFault (fun _ u => ∃ l, u = t.log l ∧ l.length = src.length ∧
      (l = storesAt space (x.opBuf + done) src → Arrives v x space done src.length)) t := by
  rw [copyOut, Arrives]
  by_cases htask : x.task = 0
  · rw [if_neg (not_not_intro htask), if_pos htask]
    refine wp_imp wp_memcpyTo_logs fun _ u hpost => ?_
    obtain ⟨l, hsize, hl⟩ := hpost
    refine ⟨l, hl.1, hsize, ?_⟩
    rintro rfl k hk
    obtain ⟨_, rfl, htarget⟩ := hl.targets hk
    exact htarget
  · rw [if_pos htask, if_neg htask, ← hspace.resolve_left htask, ← storesAt_u32]
    refine wp_imp (wp_mmMemcpyKernelToUser_logs (u32_lt _) hlen) fun _ u hpost => ?_
    obtain ⟨l, hu, hsize, _, hright⟩ := hpost
    exact ⟨l, hu, hsize, hright⟩

end Copies

/-- Without the stores, a call does what the one of the descriptors does. -/
theorem wp_vfsSendReadRes_system {src : List (BitVec 8)} {Q : Int → System → Prop}
    (h : wp (Files.vfsSendReadRes f src) anyFault Q t.system) :
    wp (vfsSendReadRes v f src) anyFault (fun r u => Q r u.system) t := by
  rw [Files.vfsSendReadRes, wp_bind, wp_get, wp_bind, wp_kassert] at h
  rw [vfsSendReadRes, wp_bind, wp_get, wp_bind, wp_onSystem, wp_kassert]
  refine ⟨fun hassert => ?_, fun _ => trivial⟩
  have hrest := h.1 hassert
  dsimp only at hrest ⊢
  rw [wp_bind, wp_onKernel, loadWord, wp_bind, wp_get, wp_pure] at hrest
  rw [wp_bind, wp_onSystem, wp_onKernel, loadWord, wp_bind, wp_get, wp_pure]
  by_cases hbroken : load32 t.system.kernel.mem (t.system.files.file f).opRes = 0xFFFFFFFF
  · rw [if_pos hbroken, wp_bind, wp_onFiles, wp_setFile, wp_pure] at hrest
    rw [if_pos hbroken, wp_bind, wp_onSystem, wp_onFiles, wp_setFile, wp_pure]
    exact hrest
  · rw [if_neg hbroken, wp_bind] at hrest
    rw [if_neg hbroken, wp_bind]
    refine wp_imp wp_copyOut_low fun _ u hpost => ?_
    obtain ⟨l, hu, _⟩ := hpost
    rw [hu, wp_bind, wp_onSystem]
    refine wp_imp hrest fun _ s hs => ?_
    rwa [wp_onSystem]

/-- What a call leaves behind of the state of a read, when `sz` bytes have been copied. -/
structure Sent (t u : Transfer) (f done sz : Nat) (r : Int) : Prop where
  count : load32 u.system.kernel.mem (t.system.files.file f).opRes = u32 (done + sz)
  last : u32 (done + sz) = (t.system.files.file f).opLen → r = 1 ∧ Finished t u f
  more : u32 (done + sz) ≠ (t.system.files.file f).opLen → r = 0 ∧ Unfinished t u f

theorem wp_afterCopy {src : List (BitVec 8)} {l : List Store} {sz : Nat} (h : Pending t f space done)
    (hleft : done + src.length ≤ (t.system.files.file f).opLen) : wp (do
      onSystem (copyRes (t.system.files.file f) done src)
      onSystem (countRes f sz)) noFault
    (fun r u => u.stores = t.stores ++ l ∧ Sent t u f done sz r) (t.log l) := by
  generalize hx : t.system.files.file f = x at hleft ⊢
  have hcount := h.count
  rw [hx] at hcount
  rw [wp_bind, wp_onSystem, copyRes]
  by_cases htask : x.task = 0
  · rw [if_pos htask]
    refine wp_imp (wp_storeBytes_separate hx fun k hk => ?_) fun _ s hpost => ?_
    · have hsep := h.separate (hx ▸ htask) (done + k) (by rw [hx]; omega)
      rwa [hx, ← Nat.add_assoc] at hsep
    · obtain ⟨hfile, hload⟩ := hpost
      rw [wp_onSystem]
      refine wp_imp (wp_countRes hfile (hload.trans hcount)) fun r u hpost => ?_
      obtain ⟨hnew, hlast, hmore⟩ := hpost
      refine ⟨rfl, by rw [hx]; exact hnew, fun heq => ?_, fun hne => ?_⟩
      · obtain ⟨hr, hfiles, hnobusy⟩ := hlast (hx ▸ heq)
        exact ⟨hr, by rw [hfiles, hx]; exact Function.update_self .., fun hne => absurd (hx ▸ htask) hne,
          fun hne => absurd (hx ▸ htask) hne⟩
      · obtain ⟨hr, hfiles, -⟩ := hmore (hx ▸ hne)
        exact ⟨hr, by rw [hfiles, hx]; exact hfile, fun hne => absurd (hx ▸ htask) hne⟩
  · rw [if_neg htask, wp_pure, wp_onSystem]
    refine wp_imp (wp_countRes (x := x) hx hcount) fun r u hpost => ?_
    obtain ⟨hnew, hlast, hmore⟩ := hpost
    refine ⟨rfl, by rw [hx]; exact hnew, fun heq => ?_, fun hne => ?_⟩
    · obtain ⟨hr, hfiles, hnobusy⟩ := hlast (hx ▸ heq)
      refine ⟨hr, ?_, fun _ => by rw [hx]; exact hfiles, fun hne => by rw [hx] at hne ⊢; exact hnobusy hne⟩
      rw [hfiles, hx]
      exact Function.update_self ..
    · obtain ⟨hr, hfiles, hsched⟩ := hmore (hx ▸ hne)
      exact ⟨hr, by rw [hfiles]; rfl, fun _ => ⟨hfiles, hsched⟩⟩

theorem wp_vfsSendReadRes_iff {src : List (BitVec 8)} {Q : Int → Transfer → Prop} (h : Pending t f space done) :
    wp (vfsSendReadRes v f src) E Q t ↔ wp (do
      copyOut v (t.system.files.file f) done (src.take (min src.length (t.system.files.file f).opLen))
      onSystem (copyRes (t.system.files.file f) done (src.take (min src.length (t.system.files.file f).opLen)))
      onSystem (countRes f (min src.length (t.system.files.file f).opLen))) E Q t := by
  have hleft := h.left
  have hlength := h.length
  have hassert : (f != 0 && (t.system.files.file f).opBuf != 0 && (t.system.files.file f).opRes != 0) = true := by
    simp [h.file, h.buffer, h.result]
  rw [vfsSendReadRes, wp_bind, wp_get]
  dsimp only
  rw [wp_bind, wp_onSystem, wp_kassert, hassert]
  refine (and_iff_left fun hno => Bool.noConfusion hno).trans (forall_prop_of_true rfl |>.trans ?_)
  rw [wp_bind, wp_onSystem, wp_onKernel, loadWord, wp_bind, wp_get, wp_pure, h.count, if_neg (by omega), cut_eq]

theorem wp_vfsSendReadRes {src : List (BitVec 8)} {sz : Nat} (h : Pending t f space done)
    (hsz : min src.length (t.system.files.file f).opLen = sz) (hleft : done + sz ≤ (t.system.files.file f).opLen)
    (harrives : Arrives v (t.system.files.file f) space done sz) : wp (vfsSendReadRes v f src) noFault (fun r u =>
      u.stores = t.stores ++ storesAt space ((t.system.files.file f).opBuf + done) (src.take sz) ∧
        Sent t u f done sz r) t := by
  have hlen : (src.take sz).length = sz := by
    rw [List.length_take]
    omega
  rw [wp_vfsSendReadRes_iff h, hsz, wp_bind]
  refine wp_imp (wp_copyOut h.space (by rwa [hlen])) fun _ u hu => ?_
  rw [hu]
  exact wp_afterCopy h (by rwa [hlen])

/-- A call that comes to its end stores as many bytes as it counts, and the right ones in the right places
only if they arrive. -/
theorem wp_vfsSendReadRes_logs {src : List (BitVec 8)} {sz : Nat} (h : Pending t f space done)
    (hsz : min src.length (t.system.files.file f).opLen = sz) (hbound : sz ≤ tableInfoBase) :
    wp (vfsSendReadRes v f src) anyFault (fun r u => ∃ l, u.stores = t.stores ++ l ∧ l.length = sz ∧
      (l = storesAt space ((t.system.files.file f).opBuf + done) (src.take sz) →
        Arrives v (t.system.files.file f) space done sz) ∧
      (done + sz ≤ (t.system.files.file f).opLen → Sent t u f done sz r)) t := by
  have hlen : (src.take sz).length = sz := by
    rw [List.length_take]
    omega
  have hcopy := wp_copyOut_logs h.space (v := v) (t := t) done (show (src.take sz).length ≤ tableInfoBase by rwa [hlen])
  rw [hlen] at hcopy
  rw [wp_vfsSendReadRes_iff h, hsz, wp_bind]
  refine wp_imp hcopy fun _ u hpost => ?_
  obtain ⟨l, hu, hsize, hright⟩ := hpost
  rw [hu]
  by_cases hleft : done + sz ≤ (t.system.files.file f).opLen
  · refine wp_mono (wp_afterCopy h (by rwa [hlen])) (fun _ _ => trivial) fun r w hpost => ?_
    obtain ⟨hstores, hsent⟩ := hpost
    exact ⟨l, hstores, hsize, hright, fun _ => hsent⟩
  · rw [wp_bind, wp_onSystem]
    refine wp_imp (wp_anyFault _ _) fun _ s _ => ?_
    rw [wp_onSystem]
    exact wp_imp (wp_anyFault _ _) fun r s' _ => ⟨l, rfl, hsize, hright, fun hle => absurd hle hleft⟩

/-- A call never takes a store back, and it stores nothing at the addresses of the last slot. -/
def Grows (t u : Transfer) : Prop := ∃ l, u.stores = t.stores ++ l ∧ ∀ s ∈ l, s.addr < tableInfoBase

theorem Grows.refl (t : Transfer) : Grows t t := ⟨[], (List.append_nil _).symm, fun _ hs => absurd hs List.not_mem_nil⟩

theorem Grows.trans (t u w : Transfer) (h : Grows t u) (h' : Grows u w) : Grows t w := by
  obtain ⟨l, hu, hl⟩ := h
  obtain ⟨l', hw, hl'⟩ := h'
  exact ⟨l ++ l', by rw [hw, hu, List.append_assoc], fun s hs => (List.mem_append.mp hs).elim (hl s) (hl' s)⟩

theorem keeps_onSystem {α : Type} (p : Prog Fault System α) : Keeps Grows (onSystem p) :=
  ⟨fun t => (wp_onSystem p _ t).mpr (wp_imp (wp_anyFault p _) fun _ _ _ => .refl t)⟩

theorem keeps_vfsSendReadRes (v : View) (f : Nat) (src : List (BitVec 8)) : Keeps Grows (vfsSendReadRes v f src) := by
  have hcopy : ∀ x done bytes, Keeps Grows (copyOut v x done bytes) := fun x done bytes =>
    ⟨fun t => wp_imp wp_copyOut_low fun _ u hpost => by
      obtain ⟨l, hu, hl⟩ := hpost
      exact ⟨l, by rw [hu]; rfl, hl⟩⟩
  unfold vfsSendReadRes
  refine .bind Grows.trans (.get Grows.refl) fun t => .bind Grows.trans (keeps_onSystem _) fun _ =>
    .bind Grows.trans (keeps_onSystem _) fun done =>
      .ite (.bind Grows.trans (keeps_onSystem _) fun _ => .pure Grows.refl _) ?_
  exact .bind Grows.trans (hcopy ..) fun _ => .bind Grows.trans (keeps_onSystem _) fun _ => keeps_onSystem _

theorem keeps_sendChunks (f : Nat) (chunks : List Chunk) : Keeps Grows (sendChunks f chunks) := by
  induction chunks with
  | nil => exact .pure Grows.refl 0
  | cons c cs ih => exact .bind Grows.trans (keeps_vfsSendReadRes ..) fun r => .ite (.pure Grows.refl 1) ih

end Calls

section Reads

variable {t u : Transfer} {f space done : Nat}

/-- What was to be read of some bytes has arrived behind the first `done`, and nothing else. The
call that completes the read frees the file. -/
structure Received (t u : Transfer) (f space done : Nat) (bytes : List (BitVec 8)) (r : Int) : Prop where
  stores : u.stores = t.stores ++ storesAt space ((t.system.files.file f).opBuf + done)
    (bytes.take ((t.system.files.file f).opLen - done))
  count : load32 u.system.kernel.mem (t.system.files.file f).opRes =
    min (t.system.files.file f).opLen (done + bytes.length)
  complete : (t.system.files.file f).opLen ≤ done + bytes.length → r = 1 ∧ Finished t u f
  short : done + bytes.length < (t.system.files.file f).opLen → r = 0 ∧ Unfinished t u f

theorem Unfinished.finished {w : Transfer} (h : Unfinished t u f) (hw : Finished u w f) : Finished t w f := by
  refine ⟨by rw [hw.file, h.file], fun hne => ?_, fun hne => ?_⟩
  · rw [hw.others (by rwa [h.file]), h.file, (h.others hne).1]
  · rw [← h.file] at hne ⊢
    exact hw.nobusy hne

theorem Unfinished.trans {w : Transfer} (h : Unfinished t u f) (hw : Unfinished u w f) : Unfinished t w f := by
  refine ⟨hw.file.trans h.file, fun hne => ?_⟩
  obtain ⟨hfiles, hsched⟩ := hw.others (by rwa [h.file])
  exact ⟨hfiles.trans (h.others hne).1, hsched.trans (h.others hne).2⟩

theorem Sent.pending {sz : Nat} {r : Int} (h : Pending t f space done) (hs : Sent t u f done sz r)
    (hmore : done + sz < (t.system.files.file f).opLen) : r = 0 ∧ Unfinished t u f ∧ Pending u f space (done + sz) := by
  have hlength := h.length
  have hsum : u32 (done + sz) = done + sz := u32_of_lt (by omega)
  obtain ⟨hr, hunfinished⟩ := hs.more (by omega)
  have hcount := hs.count
  rw [hsum] at hcount
  refine ⟨hr, hunfinished, h.file, ?_, ?_, ?_, ?_, ?_, ?_, ?_, ?_⟩ <;> rw [hunfinished.file]
  exacts [h.space, h.buffer, h.word, h.result, hcount, hmore, hlength, h.separate]

theorem sent_cons (c : Chunk) (cs : List Chunk) : sent (c :: cs) = c.bytes ++ sent cs := rfl

/-- What is to be read of a chunk that leaves the read open, and of those behind it. -/
theorem take_sent {c : Chunk} {cs : List Chunk} {len : Nat} (h : done + c.bytes.length < len) :
    (sent (c :: cs)).take (len - done) = c.bytes ++ (sent cs).take (len - (done + c.bytes.length)) := by
  rw [sent_cons, List.take_append, List.take_of_length_le (by omega), Nat.sub_sub]

theorem wp_sendChunks {chunks : List Chunk} (h : Pending t f space done)
    (hd : Delivers (t.system.files.file f) space done chunks) :
    wp (sendChunks f chunks) noFault (fun r u => Received t u f space done (sent chunks) r) t := by
  induction chunks generalizing t done with
  | nil =>
    have hleft := h.left
    rw [sendChunks, wp_pure]
    refine ⟨?_, ?_, fun hlong => ?_, fun _ => ⟨rfl, rfl, fun _ => ⟨rfl, rfl⟩⟩⟩
    · rw [sent, List.flatMap_nil, List.take_nil, storesAt, List.append_nil]
    · rw [h.count, sent, List.flatMap_nil, List.length_nil]
      omega
    · rw [sent, List.flatMap_nil, List.length_nil] at hlong
      omega
  | cons c cs ih =>
    obtain ⟨hchunk, harrives, hrest⟩ := hd
    have hleft := h.left
    have hlength := h.length
    have hlen : (sent (c :: cs)).length = c.bytes.length + (sent cs).length := List.length_append
    rw [sendChunks, wp_bind]
    refine wp_imp (wp_vfsSendReadRes h rfl (by omega) harrives) fun r u hpost => ?_
    obtain ⟨hstores, hs⟩ := hpost
    by_cases hmore : done + c.bytes.length < (t.system.files.file f).opLen
    · have hsz : min c.bytes.length (t.system.files.file f).opLen = c.bytes.length := by omega
      rw [hsz] at hs hstores
      obtain ⟨rfl, hunfinished, hpending⟩ := hs.pending h hmore
      rw [if_neg (by decide)]
      have hcs := hrest hmore
      rw [← hunfinished.file] at hcs
      refine wp_imp (ih hpending hcs) fun r w hw => ?_
      obtain ⟨hstores', hcount, hcomplete, hshort⟩ := hw
      rw [hunfinished.file] at hstores' hcount hcomplete hshort
      refine ⟨?_, by rw [hcount, hlen, Nat.add_assoc], fun hlong => ?_, fun hshort' => ?_⟩
      · rw [hstores', hstores, List.take_length, take_sent hmore, storesAt_append, List.append_assoc, Nat.add_assoc]
      · obtain ⟨hr, hfinished⟩ := hcomplete (by omega)
        exact ⟨hr, hunfinished.finished hfinished⟩
      · obtain ⟨hr, hopen⟩ := hshort (by omega)
        exact ⟨hr, hunfinished.trans hopen⟩
    · have hsz : min c.bytes.length (t.system.files.file f).opLen = (t.system.files.file f).opLen - done := by omega
      rw [hsz] at hs hstores
      have hsum : u32 (done + ((t.system.files.file f).opLen - done)) = (t.system.files.file f).opLen := by
        rw [show done + ((t.system.files.file f).opLen - done) = (t.system.files.file f).opLen by omega, u32_of_lt hlength]
      obtain ⟨rfl, hfinished⟩ := hs.last hsum
      rw [if_pos rfl, wp_pure]
      refine ⟨?_, ?_, fun _ => ⟨rfl, hfinished⟩, fun hshort => by omega⟩
      · rw [hstores, sent_cons, List.take_append_of_le_length (by omega)]
      · rw [hs.count, hsum]
        omega

theorem wp_sendChunks_stores {chunks : List Chunk} (h : Pending t f space done)
    (hbound : ∀ c ∈ chunks, min c.bytes.length (t.system.files.file f).opLen ≤ tableInfoBase) :
    wp (sendChunks f chunks) anyFault (fun _ u => u.stores = t.stores ++ storesAt space
      ((t.system.files.file f).opBuf + done) ((sent chunks).take ((t.system.files.file f).opLen - done)) →
        Delivers (t.system.files.file f) space done chunks) t := by
  induction chunks generalizing t done with
  | nil => exact fun _ => trivial
  | cons c cs ih =>
    have hleft := h.left
    rw [sendChunks, wp_bind]
    refine wp_imp (wp_vfsSendReadRes_logs h rfl (hbound c List.mem_cons_self)) fun r u hpost => ?_
    obtain ⟨l, hu, hlen, hright, hs⟩ := hpost
    by_cases hmore : done + c.bytes.length < (t.system.files.file f).opLen
    · have hsz : min c.bytes.length (t.system.files.file f).opLen = c.bytes.length := by omega
      rw [hsz, List.take_length] at hright
      rw [hsz] at hs hlen
      obtain ⟨rfl, hunfinished, hpending⟩ := (hs hmore.le).pending h hmore
      have hrest := ih hpending fun d hd => by
        rw [hunfinished.file]
        exact hbound d (List.mem_cons_of_mem _ hd)
      rw [hunfinished.file] at hrest
      rw [if_neg (by decide)]
      refine wp_imp (wp_and hrest ((keeps_sendChunks f cs).run u)) fun _ w hpost hfinal => ?_
      obtain ⟨hdelivers, l', hw, _⟩ := hpost
      rw [hw, hu, List.append_assoc] at hfinal
      rw [take_sent hmore, storesAt_append] at hfinal
      have hsplit := List.append_inj (List.append_cancel_left hfinal) (by rw [hlen, length_storesAt])
      rw [hsplit.2, Nat.add_assoc] at hw
      refine ⟨.inr hmore.le, ?_, fun _ => hdelivers hw⟩
      rw [hsz]
      exact hright hsplit.1
    · -- The call stores at least what is left to read, so that it stores no more than that.
      have hend : ∀ (w : Transfer) (l' : List Store), w.stores = u.stores ++ l' → w.stores = t.stores ++ storesAt space
          ((t.system.files.file f).opBuf + done) ((sent (c :: cs)).take ((t.system.files.file f).opLen - done)) →
          Delivers (t.system.files.file f) space done (c :: cs) := by
        intro w l' hw hfinal
        rw [hw, hu, List.append_assoc, sent_cons, List.take_append_of_le_length (by omega)] at hfinal
        have hall := List.append_cancel_left hfinal
        have hlens := congrArg List.length hall
        rw [List.length_append, length_storesAt, List.length_take, hlen] at hlens
        have hsz : min c.bytes.length (t.system.files.file f).opLen = (t.system.files.file f).opLen - done := by omega
        obtain rfl : l' = [] := List.length_eq_zero_iff.mp (by omega)
        rw [List.append_nil] at hall
        rw [hsz] at hright
        refine ⟨by omega, ?_, fun hlt => absurd hlt hmore⟩
        rw [hsz]
        exact hright hall
      by_cases hr : r = 1
      · rw [if_pos hr, wp_pure]
        exact hend u [] (List.append_nil _).symm
      · rw [if_neg hr]
        refine wp_imp ((keeps_sendChunks f cs).run u) fun _ w hgrows => ?_
        obtain ⟨l', hw, _⟩ := hgrows
        exact hend w l' hw

/-- Bytes that are all stored below the last slot are not more than that much. -/
theorem length_le_of_low {addr : Nat} {bytes : List (BitVec 8)} (haddr : addr < 4294967296)
    (h : ∀ s ∈ storesAt space addr bytes, s.addr < tableInfoBase) : bytes.length ≤ tableInfoBase := by
  by_contra hlong
  have hk : tableInfoBase - addr < bytes.length := by omega
  have hlow := h _ (mem_storesAt hk)
  dsimp only at hlow
  unfold tableInfoBase at hlow hlong
  rw [u32_of_lt (by omega)] at hlow
  omega

theorem length_le_sent {c : Chunk} {chunks : List Chunk} (hc : c ∈ chunks) : c.bytes.length ≤ (sent chunks).length := by
  rw [sent, List.length_flatMap]
  exact List.le_sum_of_mem (List.mem_map_of_mem hc)

theorem delivers_of_received {chunks : List Chunk} (h : Pending t f space 0)
    (hrun : wp (sendChunks f chunks) noFault (fun r u => Received t u f space 0 (sent chunks) r) t) :
    Delivers (t.system.files.file f) space 0 chunks := by
  obtain ⟨r, u, hr, hreceived⟩ := run_of_wp hrun
  have hstores := hreceived.stores
  obtain ⟨l, hl, hlow⟩ := of_run ((keeps_sendChunks f chunks).run t) hr
  rw [hl] at hstores
  rw [List.append_cancel_left hstores, Nat.add_zero] at hlow
  have hlen := length_le_of_low h.word hlow
  rw [List.length_take, Nat.sub_zero] at hlen
  refine of_run (wp_sendChunks_stores h fun c hc => ?_) hr hreceived.stores
  have hle := length_le_sent hc
  omega

/-- A read receives what is sent, and just that, when no chunk is longer than what is left to read, and
all get to where they belong. A first chunk may be longer, since each is cut to the length of the whole read. -/
theorem read_receives_iff (t : Transfer) (f space : Nat) (chunks : List Chunk) (h : Pending t f space 0) :
    wp (sendChunks f chunks) noFault (fun r u => Received t u f space 0 (sent chunks) r) t ↔
      Delivers (t.system.files.file f) space 0 chunks :=
  ⟨delivers_of_received h, wp_sendChunks h⟩

def twoPages (loaded : Nat) : View where
  page space a := if space = 0x4000 ∧ (a = 0x400000 ∨ a = 0x401000) then some (mmFlgUs ||| mmFlgWr) else none
  window := fun _ => none
  loaded := loaded
  top space a h := if_neg fun hpage => by
    unfold tableInfoBase at h
    omega

/-- A read of four bytes to the end of the first page and the start of the second. -/
def reader : Transfer where
  system.kernel := ⟨emptySched, fun _ => createdSignal, fun _ => 0, 0⟩
  system.files := ⟨fun _ => { emptyFile with opBuf := 0x400FFE, opRes := 0xC0300000, opLen := 4, task := 0x4000 }, [], [],
    fun _ => 0, ⟨fun t => 0xC0100000 + t, 0, 0, 0, 0, 0, 0, 0, 0, 0⟩⟩
  stores := []

theorem reader_pending : Pending reader 1 0x4000 0 :=
  ⟨by decide, by decide, by decide, by decide, by decide, by decide +kernel, by decide, by decide, fun htask => absurd htask (by decide)⟩

/-- Some chunks arrive while `mm_kernel` is loaded, the others while the task itself runs. -/
theorem reader_receives : Pending reader 1 0x4000 0 ∧ wp (sendChunks 1 [⟨twoPages 0, [65]⟩, ⟨twoPages 0x4000, []⟩,
    ⟨twoPages 0, [66, 67, 68]⟩, ⟨twoPages 0x4000, [69]⟩]) noFault
    (fun r u => Received reader u 1 0x4000 0 [65, 66, 67, 68, 69] r) reader :=
  ⟨reader_pending, (read_receives_iff reader 1 0x4000 [⟨twoPages 0, [65]⟩, ⟨twoPages 0x4000, []⟩, ⟨twoPages 0, [66, 67, 68]⟩,
    ⟨twoPages 0x4000, [69]⟩] reader_pending).mpr (by decide +kernel)⟩

/-- Two chunks of three bytes: six bytes are stored for a read of four. -/
theorem second_chunk_overruns : ∃ (t : Transfer) (f space : Nat) (chunks : List Chunk), Pending t f space 0 ∧
    ¬wp (sendChunks f chunks) noFault (fun r u => Received t u f space 0 (sent chunks) r) t :=
  ⟨reader, 1, 0x4000, [⟨twoPages 0, [65, 66, 67]⟩, ⟨twoPages 0, [68, 69, 70]⟩], reader_pending, fun h =>
    absurd (delivers_of_received reader_pending h) (by decide +kernel)⟩

end Reads

end YggKernel.Transfers
