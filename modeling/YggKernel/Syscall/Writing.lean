import YggKernel.Files.Descriptors
import YggKernel.Paging.Copies

namespace YggKernel.Syscall

open Lib.Program Lib.ByteMemory Lib.BitWords Files Paging

/-- What `vfs_write` reads of an open file: its flags, and which of the pointers it asserts are set. -/
structure Stream where
  flags : BitVec 32
  fs : Bool
  fsWrite : Bool
  dev : Bool
  devWrite : Bool

/-- The machine, and the chunks that the `write` function behind a file was called with, each with what it returned. -/
structure Output where
  machine : Machine
  calls : List (List (BitVec 8) × Int)

def onMachine {α : Type} (p : Prog Fault Machine α) : Prog Fault Output α := fun s =>
  (p s.machine).map fun r => (r.1, { s with machine := r.2 })

/-- `f->fs->write` or `f->dev->write`, which returns `op k` on its call number `k`. -/
def fileWrite (op : Nat → Int) (buf len : Nat) : Prog Fault Output Int := do
  let bytes ← onMachine (readBytes buf len)
  let k := (← get).calls.length
  modify fun s => { s with calls := s.calls ++ [(bytes, op k)] }
  return op k

def vfsWrite (f : Stream) (op : Nat → Int) (buf len : Nat) : Prog Fault Output Int := do
  if f.flags &&& vfsFlgWr = 0 then return -1
  let type := (f.flags >>> 2) &&& 7
  if type = vfsTypeReg then
    kassert f.fs "f->fs"
    kassert f.fsWrite "f->fs->write"
    fileWrite op buf len
  else if type = vfsTypeBlk ∨ type = vfsTypeChr then
    kassert f.dev "f->dev"
    kassert f.devWrite "f->dev->write"
    fileWrite op buf len
  else throw (.panic "Unsupported descriptor type\n")

def int32 (x : Int) : Int :=
  if x % 4294967296 < 2147483648 then x % 4294967296 else x % 4294967296 - 4294967296

/-- The loop of `sys_write`. -/
def writeChunks (pd tmpBuf : Nat) (fp : Stream) (op : Nat → Int) (buf : Nat) : Nat → Nat → Int → Prog Fault Output Int
  | 0, _, _ => throw .hang
  | fuel + 1, bytesLeft, bytesWritten => do
    if bytesLeft = 0 then return bytesWritten
    let bytesCopy := if bytesLeft > 512 then 512 else bytesLeft
    let r ← onMachine (memcpyUserToKernel pd tmpBuf buf bytesCopy)
    kassert (r == 0) "mm_memcpy_user_to_kernel(task_space(x86_task_current), tmp_buf, buf, bytes_copy) == 0"
    let res ← vfsWrite fp op tmpBuf bytesCopy
    if res % 4294967296 ≠ (bytesCopy : Int) then
      return if bytesWritten = 0 then res else bytesWritten
    else writeChunks pd tmpBuf fp op buf fuel (sub32 bytesLeft bytesCopy) (int32 (bytesWritten + res))

/-- `sys_write` for a task with the space `pd` and the descriptors `fds`. -/
def sysWrite (fds : Nat → Option Stream) (pd tmpBuf : Nat) (op : Nat → Int) (fd : Int) (buf len : Nat) :
    Prog Fault Output Int := do
  if fd < 0 ∨ fd ≥ 4 then return -1
  match fds fd.toNat with
  | none => return -1
  | some fp => writeChunks pd tmpBuf fp op buf (len + 1) len 0

def chunk (len k : Nat) : Nat := min 512 (len - 512 * k)

def accepted (calls : List (List (BitVec 8) × Int)) : List (BitVec 8) := calls.flatMap fun c => c.1.take c.2.toNat

/-- The accepted bytes are the first ones of the buffer, and their number is returned, or the error of the file when
there are none. -/
structure Delivered (bytes : List (BitVec 8)) (error : Int) (calls : List (List (BitVec 8) × Int)) (ret : Int) : Prop where
  inOrder : accepted calls <+: bytes
  value : ret = if accepted calls = [] then error else ((accepted calls).length : Int)

/-- A file that has accepted a first chunk as a whole accepts nothing more, or chunks as a whole whose bytes are those
that the buffer starts with, and less than 2 GiB of them. -/
def Repeating (r : Nat → Int) (bytes : List (BitVec 8)) : Prop :=
  ∀ k, 0 < k → 512 * k < bytes.length → (∀ j < k, r j = 512) →
    r k ≤ 0 ∨ (r k = chunk bytes.length k ∧ 512 * k + chunk bytes.length k < 2147483648 ∧
      (bytes.drop (512 * k)).take (chunk bytes.length k) = bytes.take (chunk bytes.length k))

section Lists

variable {α : Type} {u v l : List α}

theorem append_isPrefix_iff : u ++ v <+: l ↔ u <+: l ∧ v <+: l.drop u.length := by
  constructor
  · rintro ⟨w, rfl⟩
    exact ⟨⟨v ++ w, by simp⟩, ⟨w, by simp⟩⟩
  · rintro ⟨⟨w, rfl⟩, hv⟩
    rw [List.drop_left] at hv
    exact (List.prefix_append_right_inj u).mpr hv

theorem isPrefix_iff_take {n : Nat} (hu : u.length = n) : u <+: l ↔ l.take n = u := by
  rw [List.prefix_iff_eq_take, hu]
  exact eq_comm

theorem replicate_isPrefix_iff {n : Nat} (hu : u.length = n) (k : Nat) :
    (List.replicate k u).flatten ++ v <+: l ↔ (∀ i < k, (l.drop (n * i)).take n = u) ∧ v <+: l.drop (n * k) := by
  induction k generalizing l with
  | zero => simp
  | succ k ih =>
    have hshift : ∀ i, (l.drop n).drop (n * i) = l.drop (n * (i + 1)) := fun i => by
      rw [List.drop_drop, Nat.mul_succ, Nat.add_comm]
    rw [List.replicate_succ, List.flatten_cons, List.append_assoc, append_isPrefix_iff, hu, ih, isPrefix_iff_take hu, hshift]
    simp only [hshift]
    constructor
    · rintro ⟨hfirst, hrest, hv⟩
      refine ⟨fun i hi => ?_, hv⟩
      cases i with
      | zero => simpa using hfirst
      | succ i => exact hrest i (by omega)
    · rintro ⟨hall, hv⟩
      exact ⟨by simpa using hall 0 (by omega), fun i hi => hall (i + 1) (by omega), hv⟩

end Lists

/-- How the loop ends: after `k` chunks of 512 bytes that were accepted as a whole there is one more, which was the last
of the buffer or was not accepted as a whole. -/
structure Ended (r : Nat → Int) (bytes : List (BitVec 8)) (k : Nat) (calls : List (List (BitVec 8) × Int)) (ret : Int) :
    Prop where
  more : 512 * k < bytes.length
  full : ∀ j < k, r j = 512
  calls : calls = List.replicate k (bytes.take 512, 512) ++ [(bytes.take (chunk bytes.length k), r k)]
  last : r k = chunk bytes.length k → 512 * k + chunk bytes.length k = bytes.length
  ret : ret = if r k = chunk bytes.length k then int32 bytes.length
    else if int32 (512 * k) = 0 then r k else int32 (512 * k)

section Ended

variable {r : Nat → Int} {bytes : List (BitVec 8)} {k : Nat} {calls : List (List (BitVec 8) × Int)} {ret : Int}

theorem int32_eq_iff {x : Int} (h0 : 0 ≤ x) (h1 : x < 4294967296) {y : Nat} (hy : x ≤ y) (hlt : y < 4294967296) :
    int32 x = y ↔ x = y ∧ y < 2147483648 := by
  unfold int32
  split <;> omega

theorem Ended.accepted_eq (h : Ended r bytes k calls ret) (hle : r k ≤ chunk bytes.length k) :
    accepted calls = (List.replicate k (bytes.take 512)).flatten ++ bytes.take (r k).toNat := by
  have hfull : (bytes.take 512).take (512 : Int).toNat = bytes.take 512 := by simp
  have hpart : (bytes.take (chunk bytes.length k)).take (r k).toNat = bytes.take (r k).toNat := by
    rw [List.take_take, Nat.min_eq_left (by omega)]
  rw [accepted, h.calls, List.flatMap_append, List.flatMap_replicate, List.flatMap_singleton, hfull, hpart]

theorem Ended.repeating_iff (h : Ended r bytes k calls ret) (hle : r k ≤ chunk bytes.length k) : Repeating r bytes ↔
    (∀ i, 0 < i → i < k → 512 * i + 512 < 2147483648 ∧ (bytes.drop (512 * i)).take 512 = bytes.take 512) ∧
      (0 < k → r k ≤ 0 ∨ (r k = chunk bytes.length k ∧ 512 * k + chunk bytes.length k < 2147483648 ∧
        (bytes.drop (512 * k)).take (chunk bytes.length k) = bytes.take (chunk bytes.length k))) := by
  have hmore := h.more
  have hchunk : ∀ i < k, chunk bytes.length i = 512 := fun i hi => by
    unfold chunk
    omega
  constructor
  · intro hrep
    refine ⟨fun i h0 hi => ?_, fun h0 => hrep k h0 hmore h.full⟩
    have hi' := hrep i h0 (by omega) fun j hj => h.full j (by omega)
    rw [hchunk i hi, h.full i hi] at hi'
    exact (hi'.resolve_left (by decide)).2
  · rintro ⟨hbefore, hlast⟩ i h0 hi hfull
    rcases lt_trichotomy i k with hlt | rfl | hgt
    · rw [hchunk i hlt]
      exact .inr ⟨h.full i hlt, hbefore i h0 hlt⟩
    · exact hlast h0
    · have hk := hfull k hgt
      have hend := h.last
      unfold chunk at hle hend
      omega

theorem Ended.delivered_first (h : Ended r bytes 0 calls ret) (hle : r 0 ≤ chunk bytes.length 0) :
    Delivered bytes (r 0) calls ret := by
  have hmore := h.more
  have hend := h.last
  have hacc : accepted calls = bytes.take (r 0).toNat := by simpa using h.accepted_eq hle
  have hlen : (bytes.take (r 0).toNat).length = (r 0).toNat := by
    rw [List.length_take]
    unfold chunk at hle
    omega
  refine ⟨hacc ▸ List.take_prefix _ _, ?_⟩
  have hret : ret = r 0 := by
    have hzero : int32 (512 * (0 : Nat)) = 0 := by decide
    rw [h.ret, if_pos hzero]
    split
    · unfold chunk at *
      unfold int32
      split <;> omega
    · rfl
  rw [hret, hacc, hlen]
  split
  · rfl
  · next hne =>
    have hpos := List.length_pos_iff.mpr hne
    rw [hlen] at hpos
    omega

theorem Ended.delivered_iff (h : Ended r bytes k calls ret) (hle : r k ≤ chunk bytes.length k)
    (hlen : bytes.length < 4294967296) : Delivered bytes (r 0) calls ret ↔ Repeating r bytes := by
  rw [h.repeating_iff hle]
  cases Nat.eq_zero_or_pos k with
  | inl hk =>
    subst hk
    exact ⟨fun _ => ⟨fun i h0 hi => by omega, fun h0 => absurd h0 (by decide)⟩, fun _ => h.delivered_first hle⟩
  | inr hk =>
    have hmore := h.more
    have hend := h.last
    have hacc := h.accepted_eq hle
    have hpart : (bytes.take 512).length = 512 := by
      rw [List.length_take]
      omega
    have hrest : (bytes.take (r k).toNat).length = (r k).toNat := by
      rw [List.length_take]
      unfold chunk at hle
      omega
    have htotal : (accepted calls).length = 512 * k + (r k).toNat := by
      rw [hacc, List.length_append, hrest]
      simp [hpart, Nat.mul_comm]
    have hne : accepted calls ≠ [] := by
      rw [← List.length_pos_iff, htotal]
      omega
    have hsplit : Delivered bytes (r 0) calls ret ↔ ((∀ i < k, (bytes.drop (512 * i)).take 512 = bytes.take 512) ∧
        (bytes.drop (512 * k)).take (r k).toNat = bytes.take (r k).toNat) ∧ ret = (512 * k + (r k).toNat : Nat) := by
      rw [← isPrefix_iff_take hrest, ← replicate_isPrefix_iff hpart, ← hacc, ← htotal]
      exact ⟨fun hd => ⟨hd.inOrder, by simpa [hne] using hd.value⟩, fun hd => ⟨hd.1, by simpa [hne] using hd.2⟩⟩
    have hblocks : (∀ i < k, (bytes.drop (512 * i)).take 512 = bytes.take 512) ↔
        ∀ i, 0 < i → i < k → (bytes.drop (512 * i)).take 512 = bytes.take 512 := by
      refine ⟨fun hall i _ hi => hall i hi, fun hall i hi => ?_⟩
      cases i with
      | zero => simp
      | succ i => exact hall (i + 1) (Nat.succ_pos i) hi
    rw [hsplit, hblocks, h.ret]
    by_cases hwhole : r k = chunk bytes.length k
    · have hsum := hend hwhole
      have hnat : (r k).toNat = chunk bytes.length k := by omega
      have hpos : ¬r k ≤ 0 := by
        unfold chunk at hwhole
        omega
      rw [if_pos hwhole, hnat, int32_eq_iff (by omega) (by omega) (by omega) (by omega), hsum]
      constructor
      · rintro ⟨⟨hb, hl⟩, -, hlt⟩
        exact ⟨fun i h0 hi => ⟨by omega, hb i h0 hi⟩, fun _ => .inr ⟨hwhole, hlt, hl⟩⟩
      · rintro ⟨hb, hl⟩
        obtain ⟨-, hlt, hl⟩ := (hl hk).resolve_left hpos
        exact ⟨⟨fun i h0 hi => (hb i h0 hi).2, hl⟩, rfl, hlt⟩
    · have hnot : int32 (512 * k) ≠ 0 := by
        unfold int32
        split <;> omega
      rw [if_neg hwhole, if_neg hnot, int32_eq_iff (by omega) (by omega) (by omega) (by unfold chunk at hle; omega)]
      constructor
      · rintro ⟨⟨hb, -⟩, hsame, hlt⟩
        exact ⟨fun i h0 hi => ⟨by omega, hb i h0 hi⟩, fun _ => .inl (by omega)⟩
      · rintro ⟨hb, hl⟩
        have hzero : (r k).toNat = 0 := by
          rcases hl hk with hl | hl
          · omega
          · exact absurd hl.1 hwhole
        rw [hzero]
        refine ⟨⟨fun i h0 hi => (hb i h0 hi).2, by simp⟩, by omega, ?_⟩
        by_cases hone : k = 1
        · omega
        · have hlast := (hb (k - 1) (by omega) (by omega)).1
          omega

end Ended

section Buffer

variable {s t : Machine} {spaces : List Nat} {owner : Owner} {pd buf len tmpBuf c : Nat} {φ β : Nat → Nat} {E : Fault → Prop}

structure Filled (s t : Machine) (β : Nat → Nat) : Prop where
  restored : Restored s t
  mem : ∀ x, ¬InPaging s x → (∀ j < 512, x ≠ β j) → t.mem x = s.mem x

theorem gather_take (m : Mem) (h : c ≤ len) : (gather m φ len).take c = gather m φ c := by
  obtain ⟨d, rfl⟩ := Nat.exists_eq_add_of_le h
  rw [gather_add, List.take_left' (length_gather ..)]

theorem wp_fillBuffer (hs : Ready spaces s) (hpd : pd ∈ spaces) (hload : s.cr3 = physOf s s.mmKernel)
    (hr : UserRange s pd buf len φ) (hb : KernelBytes s tmpBuf 512 β) (hinj : ∀ i < 512, ∀ j < 512, β i = β j → i = j)
    (hapart : ∀ i < len, ∀ j < 512, φ i ≠ β j) (h : Filled s t β) (h0 : 0 < c) (hlen : c ≤ len) (hc : c ≤ 512) :
    wp (memcpyUserToKernel pd tmpBuf buf c) E (fun a u => a = 0 ∧ Filled s u β ∧
      Leads u tmpBuf β c ∧ gather u.mem β c = (gather s.mem φ len).take c) t := by
  obtain ⟨owner, ht⟩ := hs.tree
  have hrest := h.restored
  have hb' := (hrest.kernelBytes ht hload hb).shorten hc
  refine wp_imp (wp_memcpyUserToKernel (hrest.ready hs) hpd (hrest.loaded hload) h0
    ((hrest.userRange ht hpd hr).shorten hlen) hb' fun i hi j hj => hapart i (by omega) j (by omega)) ?_
  rintro a u ⟨rfl, hcopied⟩
  have hrest' := hrest.trans hcopied.restored
  refine ⟨rfl, ⟨hrest', fun x hx hout => ?_⟩,
    ((hrest'.kernelBytes ht hload hb).shorten hc).reached (hrest'.tree ht) (hrest'.loaded hload), ?_⟩
  · rw [hcopied.elsewhere (fun hin => hx ((hrest.inPaging_iff x).mp hin)) fun j hj => hout j (by omega), h.mem x hx hout]
  · rw [gather_take _ hlen]
    refine List.map_congr_left fun k hk => ?_
    have hkc := List.mem_range.mp hk
    rw [hcopied.arrived hb'.apart (fun i hi j hj => hinj i (by omega) j (by omega)) hkc,
      h.mem _ (hr.apart k (by omega)) fun j hj => hapart k (by omega) j hj]

end Buffer

section Calls

variable {s t : Output} {fp : Stream} {op : Nat → Int} {buf n : Nat} {β : Nat → Nat} {E : Fault → Prop}

@[simp] theorem wp_onMachine {α : Type} (p : Prog Fault Machine α) (Q : α → Output → Prop) :
    wp (onMachine p) E Q s ↔ wp p E (fun a t => Q a { s with machine := t }) s.machine := by
  unfold wp onMachine
  cases p s.machine <;> rfl

/-- The pointers that `vfs_write` asserts are set in a file that was opened for writing. -/
def Stream.Writable (fp : Stream) : Prop :=
  ((fp.flags >>> 2) &&& 7 = vfsTypeReg ∧ fp.fs = true ∧ fp.fsWrite = true) ∨
    (((fp.flags >>> 2) &&& 7 = vfsTypeBlk ∨ (fp.flags >>> 2) &&& 7 = vfsTypeChr) ∧ fp.dev = true ∧ fp.devWrite = true)

theorem wp_fileWrite {Q : Int → Output → Prop} (hb : Leads s.machine buf β n) (hhigh : buf + n ≤ 4294967296) :
    wp (fileWrite op buf n) E Q s ↔ Q (op s.calls.length)
      { s with calls := s.calls ++ [(gather s.machine.mem β n, op s.calls.length)] } := by
  rw [fileWrite, wp_bind, wp_onMachine, wp_readLeads hb hhigh]
  rfl

theorem wp_vfsWrite {Q : Int → Output → Prop} (hf : fp.Writable) (hwr : fp.flags &&& vfsFlgWr ≠ 0)
    (hb : Leads s.machine buf β n) (hhigh : buf + n ≤ 4294967296) :
    wp (vfsWrite fp op buf n) E Q s ↔ Q (op s.calls.length)
      { s with calls := s.calls ++ [(gather s.machine.mem β n, op s.calls.length)] } := by
  rw [vfsWrite, if_neg hwr]
  rcases hf with ⟨htype, hfs, hop⟩ | ⟨htype, hdev, hop⟩
  · dsimp only
    rw [if_pos htype, hfs, hop]
    exact wp_fileWrite hb hhigh
  · have hreg : (fp.flags >>> 2) &&& 7 ≠ vfsTypeReg := by
      rcases htype with htype | htype <;> rw [htype] <;> decide
    dsimp only
    rw [if_neg hreg, if_pos htype, hdev, hop]
    exact wp_fileWrite hb hhigh

end Calls

section Loop

variable {s : Machine} {t : Output} {spaces : List Nat} {pd buf len tmpBuf : Nat} {φ β : Nat → Nat} {fp : Stream}
  {op : Nat → Int} {E : Fault → Prop}

section Rounds

variable (hs : Ready spaces s) (hpd : pd ∈ spaces) (hload : s.cr3 = physOf s s.mmKernel)
  (hr : UserRange s pd buf len φ) (hb : KernelBytes s tmpBuf 512 β)
  (hinj : ∀ i < 512, ∀ j < 512, β i = β j → i = j) (hapart : ∀ i < len, ∀ j < 512, φ i ≠ β j)
include hs hpd hload hr hb hinj hapart

theorem wp_writeChunk {Q : Int → Output → Prop} {fuel left : Nat} {written : Int} (h : Filled s t.machine β) (h0 : 0 < left)
    (hlen : left ≤ len) (hrest : ∀ u, Filled s u β → Leads u tmpBuf β (min 512 left) →
      gather u.mem β (min 512 left) = (gather s.mem φ len).take (min 512 left) →
      wp (vfsWrite fp op tmpBuf (min 512 left)) E (fun res v =>
        wp (if res % 4294967296 ≠ (min 512 left : Nat) then pure (if written = 0 then res else written)
          else writeChunks pd tmpBuf fp op buf fuel (sub32 left (min 512 left)) (int32 (written + res))) E Q v)
        { t with machine := u }) :
    wp (writeChunks pd tmpBuf fp op buf (fuel + 1) left written) E Q t := by
  have hcopy : (if left > 512 then 512 else left) = min 512 left := by
    split <;> omega
  rw [writeChunks, if_neg (by omega)]
  dsimp only
  rw [hcopy, wp_bind, wp_onMachine]
  refine wp_imp (wp_fillBuffer hs hpd hload hr hb hinj hapart h (by omega) (by omega) (Nat.min_le_left _ _)) ?_
  rintro a u ⟨rfl, hfilled, hleads, hbytes⟩
  rw [wp_bind, wp_kassert]
  refine ⟨fun _ => ?_, fun hno => absurd hno (by decide)⟩
  rw [wp_bind]
  exact hrest u hfilled hleads hbytes

theorem wp_writeChunks (hf : fp.Writable) (hwr : fp.flags &&& vfsFlgWr ≠ 0)
    (hop : ∀ k, 512 * k < len → -2147483648 ≤ op k ∧ op k ≤ chunk len k) (fuel : Nat) :
    ∀ k t, 512 * k < len → len - 512 * k < fuel → (∀ j < k, op j = 512) → Filled s t.machine β →
      t.calls = List.replicate k ((gather s.mem φ len).take 512, 512) →
      wp (writeChunks pd tmpBuf fp op buf fuel (len - 512 * k) (int32 (512 * k))) E
        (fun ret u => ∃ n, Ended op (gather s.mem φ len) n u.calls ret) t := by
  have hhigh := hb.high
  have hlen : (gather s.mem φ len).length = len := length_gather ..
  have htop : buf + len ≤ 3221225472 := hr.high
  induction fuel with
  | zero => exact fun k t _ hfuel => absurd hfuel (Nat.not_lt_zero _)
  | succ fuel ih =>
    intro k t hk hfuel hfull hfilled hcalls
    obtain ⟨hlow, hle⟩ := hop k hk
    refine wp_writeChunk hs hpd hload hr hb hinj hapart hfilled (by omega) (by omega) fun u hu hleads hbytes => ?_
    change gather u.mem β (chunk len k) = (gather s.mem φ len).take (chunk len k) at hbytes
    have hchunk : min 512 (len - 512 * k) = chunk len k := rfl
    have hcount : t.calls.length = k := by rw [hcalls, List.length_replicate]
    rw [hchunk] at hleads ⊢
    have hsmall : 0 < chunk len k ∧ chunk len k ≤ 512 ∧ 512 * k + chunk len k ≤ len := by
      unfold chunk
      omega
    rw [wp_vfsWrite hf hwr hleads (by omega)]
    dsimp only
    rw [hcount, hbytes, hcalls]
    by_cases hwhole : op k = chunk len k
    · have hsame : ¬op k % 4294967296 ≠ (chunk len k : Nat) := by omega
      have hnext : int32 (int32 (512 * k) + op k) = int32 (512 * k + op k) := by
        unfold int32
        split <;> omega
      rw [if_neg hsame, sub32_of_le (by omega) (by omega), hnext]
      by_cases hmore : 512 * (k + 1) < len
      · have hpart : chunk len k = 512 := by
          unfold chunk
          omega
        have hleft : len - 512 * k - chunk len k = len - 512 * (k + 1) := by omega
        have hsum : (512 * k + op k : Int) = 512 * (k + 1 : Nat) := by omega
        rw [hleft, hsum]
        refine ih (k + 1) _ hmore (by omega) (fun j hj => ?_) hu ?_
        · rcases Nat.lt_succ_iff_lt_or_eq.mp hj with hj | rfl
          · exact hfull j hj
          · omega
        · rw [hpart, List.replicate_succ', hwhole, hpart]
          rfl
      · have hend : 512 * k + chunk len k = len := by
          unfold chunk
          omega
        have hleft : len - 512 * k - chunk len k = 0 := by omega
        obtain ⟨fuel, rfl⟩ : ∃ n, fuel = n + 1 := Nat.exists_eq_succ_of_ne_zero (by omega)
        rw [hleft, writeChunks, if_pos rfl, wp_pure]
        refine ⟨k, by rwa [hlen], hfull, by rw [hlen], fun _ => by rwa [hlen], ?_⟩
        rw [hlen, if_pos hwhole, hwhole]
        exact congrArg int32 (by omega)
    · have hdiffer : op k % 4294967296 ≠ (chunk len k : Nat) := by omega
      rw [if_pos hdiffer, wp_pure]
      refine ⟨k, by rwa [hlen], hfull, by rw [hlen], fun heq => absurd (hlen ▸ heq) hwhole, ?_⟩
      rw [hlen, if_neg hwhole]

theorem wp_writeChunks_closed (hwr : fp.flags &&& vfsFlgWr = 0) (h : Filled s t.machine β) (h0 : 0 < len) (fuel : Nat) :
    wp (writeChunks pd tmpBuf fp op buf (fuel + 1) len 0) E (fun ret u => ret = -1 ∧ u.calls = t.calls) t := by
  refine wp_writeChunk hs hpd hload hr hb hinj hapart h h0 le_rfl fun u _ _ _ => ?_
  rw [vfsWrite, if_pos hwr, wp_pure]
  have hdiffer : (-1 : Int) % 4294967296 ≠ (min 512 len : Nat) := by omega
  rw [if_pos hdiffer, if_pos rfl, wp_pure]
  exact ⟨rfl, rfl⟩

end Rounds

def writeResult (fp : Stream) (op : Nat → Int) (k : Nat) : Int := if fp.flags &&& vfsFlgWr = 0 then -1 else op k

def firstResult (fp : Stream) (op : Nat → Int) (len : Nat) : Int := if len = 0 then 0 else writeResult fp op 0

/-- A call of `sys_write` on an open descriptor, from where `vfs_write` was not called yet. -/
structure WriteCall (spaces : List Nat) (s : Machine) (pd buf len tmpBuf : Nat) (φ β : Nat → Nat) (fp : Stream)
    (op : Nat → Int) : Prop where
  ready : Ready spaces s
  space : pd ∈ spaces
  loaded : s.cr3 = physOf s s.mmKernel
  user : UserRange s pd buf len φ
  bounce : KernelBytes s tmpBuf 512 β
  bytes : ∀ i < 512, ∀ j < 512, β i = β j → i = j
  apart : ∀ i < len, ∀ j < 512, φ i ≠ β j
  file : fp.flags &&& vfsFlgWr ≠ 0 → fp.Writable
  op : ∀ k, 512 * k < len → -2147483648 ≤ op k ∧ op k ≤ chunk len k

theorem repeating_of_first {r : Nat → Int} {bytes : List (BitVec 8)} (h : bytes = [] ∨ r 0 ≠ 512) : Repeating r bytes := by
  intro k hk hmore hfull
  rcases h with rfl | h
  · simp at hmore
  · exact absurd (hfull 0 hk) h

theorem wp_writeChunks_delivers (hc : WriteCall spaces s pd buf len tmpBuf φ β fp op) :
    wp (writeChunks pd tmpBuf fp op buf (len + 1) len 0) E (fun ret t =>
      Delivered (gather s.mem φ len) (firstResult fp op len) t.calls ret ↔
        Repeating (writeResult fp op) (gather s.mem φ len)) ⟨s, []⟩ := by
  obtain ⟨hs, hpd, hload, hr, hb, hinj, hapart, hf, hop⟩ := hc
  obtain ⟨owner, ht⟩ := hs.tree
  have hfilled : Filled s s β := ⟨.refl ht.geometry, fun _ _ _ => rfl⟩
  have hlen : (gather s.mem φ len).length = len := length_gather ..
  have htop : buf + len ≤ 3221225472 := hr.high
  by_cases h0 : len = 0
  · subst h0
    rw [writeChunks, if_pos rfl, wp_pure]
    exact iff_of_true ⟨⟨_, rfl⟩, rfl⟩ (repeating_of_first (.inl rfl))
  by_cases hwr : fp.flags &&& vfsFlgWr = 0
  · refine wp_imp (wp_writeChunks_closed hs hpd hload hr hb hinj hapart hwr hfilled (by omega) len) ?_
    rintro ret t ⟨rfl, hcalls⟩
    have hresult : ∀ k, writeResult fp op k = -1 := fun k => if_pos hwr
    rw [hcalls, firstResult, if_neg h0, hresult]
    exact iff_of_true ⟨⟨_, rfl⟩, rfl⟩ (repeating_of_first (.inr (by rw [hresult]; decide)))
  · have hresult : writeResult fp op = op := funext fun k => if_neg hwr
    have hrun := wp_writeChunks (E := E) hs hpd hload hr hb hinj hapart (hf hwr) hwr hop (len + 1) 0 ⟨s, []⟩ (by omega)
      (by omega) (fun j hj => absurd hj (Nat.not_lt_zero j)) hfilled rfl
    refine wp_imp hrun ?_
    rintro ret t ⟨k, hended⟩
    have hmore := hended.more
    rw [hlen] at hmore
    rw [firstResult, if_neg h0, hresult]
    refine hended.delivered_iff ?_ (by omega)
    rw [hlen]
    exact (hop k hmore).2

/-- `sys_write` delivers the bytes of its caller just when they repeat in the way the loop sends them. -/
theorem sys_write_delivers_iff (hc : WriteCall spaces s pd buf len tmpBuf φ β fp op) {fds : Nat → Option Stream} {fd : Int}
    (hlow : 0 ≤ fd) (hhigh : fd < 4) (hopen : fds fd.toNat = some fp) :
    wp (sysWrite fds pd tmpBuf op fd buf len) noFault (fun ret t =>
      Delivered (gather s.mem φ len) (firstResult fp op len) t.calls ret ↔
        Repeating (writeResult fp op) (gather s.mem φ len)) ⟨s, []⟩ := by
  rw [sysWrite, if_neg (by omega), hopen]
  exact wp_writeChunks_delivers hc

end Loop

section Example

def terminal : Stream := ⟨0xB, false, false, true, true⟩

def terminalOp (len k : Nat) : Int := chunk len k

theorem terminal_call {buf len : Nat} {φ : Nat → Nat} (hr : UserRange windowMachine (poolPage 1) buf len φ)
    (hφ : ∀ i, 0x1800000 ≤ φ i) : WriteCall [0xC0200000, poolPage 1] windowMachine (poolPage 1) buf len
    0xC0300000 φ (fun k => 0x300000 + k) terminal (terminalOp len) := by
  refine ⟨windowMachine_ready, by decide, by decide, hr, windowMachine_bytes le_rfl, ?_, ?_, ?_, ?_⟩
  · exact fun i _ j _ h => by omega
  · intro i _ j hj heq
    have := hφ i
    omega
  · exact fun _ => .inr ⟨.inr (by decide), rfl, rfl⟩
  · intro k _
    unfold terminalOp chunk
    omega

theorem windowByte_ge (k : Nat) : 0x1800000 ≤ windowByte k := by
  unfold windowByte
  split <;> omega

theorem zeros_range : UserRange windowMachine (poolPage 1) 0x401001 1200 fun k => windowByte (k + 2) := by
  have hword : word windowMachine (poolPage 1) 1 % 2 ≠ 0 ∧ word windowMachine (poolPage 1) 1 / 128 % 2 ≠ 1 := by decide +kernel
  have hslot : slotAt windowMachine (poolPage 1) 1 = .table (entriesAt windowMachine (tableOf windowMachine (poolPage 1) 1)) := by
    rw [slotAt, if_neg hword.1, if_neg hword.2]
  have hentry : entriesAt windowMachine (tableOf windowMachine (poolPage 1) 1) 1 = 0x1800007 := by decide +kernel
  have hmaps : ∀ k < 1200, translation windowMachine (poolPage 1) (0x401001 + k) = some (windowByte (k + 2), 6) := by
    intro k hk
    have hbyte : 0x1800007 / 4096 * 4096 + (0x401001 + k) % 4096 = windowByte (k + 2) := by
      unfold windowByte
      rw [if_neg (by omega)]
      omega
    rw [translation_table (k := 1) (j := 1) hslot (by omega) (by omega), hentry, leaf_eq (by decide) (by decide), hbyte]
    rfl
  exact ⟨by decide, by decide, fun k hk => ⟨6, hmaps k hk, rfl⟩, fun k _ => windowMachine_apart (k + 2)⟩

/-- A buffer of 1200 zeros is sent in three chunks, which are all like the start of it. -/
theorem sys_write_delivers_zeros : ∃ ret t,
    sysWrite (fun _ => some terminal) (poolPage 1) 0xC0300000 (terminalOp 1200) 1 0x401001 1200 ⟨windowMachine, []⟩ = .ok (ret, t) ∧
      Delivered (List.replicate 1200 0) (firstResult terminal (terminalOp 1200) 1200) t.calls ret := by
  have hzero : ∀ k < 1200, windowMachine.mem (windowByte (k + 2)) = 0 := by decide +kernel
  have hbytes : gather windowMachine.mem (fun k => windowByte (k + 2)) 1200 = List.replicate 1200 0 := by
    refine List.eq_replicate_iff.mpr ⟨length_gather .., fun b hb => ?_⟩
    obtain ⟨k, hk, rfl⟩ := List.mem_map.mp hb
    exact hzero k (List.mem_range.mp hk)
  obtain ⟨ret, t, hrun, hiff⟩ := run_of_wp
    (p := sysWrite (fun _ => some terminal) (poolPage 1) 0xC0300000 (terminalOp 1200) 1 0x401001 1200)
    (sys_write_delivers_iff (terminal_call zeros_range fun k => windowByte_ge (k + 2)) (by decide) (by decide) rfl)
  rw [hbytes] at hiff
  refine ⟨ret, t, hrun, hiff.mpr fun k _ hk _ => ?_⟩
  rw [List.length_replicate] at hk ⊢
  refine .inr ⟨rfl, ?_, ?_⟩
  · unfold chunk
    omega
  · have hsame : min (chunk 1200 k) (1200 - 512 * k) = min (chunk 1200 k) 1200 := by
      unfold chunk
      omega
    rw [List.drop_replicate, List.take_replicate, List.take_replicate, hsame]

/-- A terminal is sent the first 88 bytes of a buffer of 600 bytes again in place of the last ones. -/
theorem sys_write_repeats_buffer : ¬wp
    (sysWrite (fun _ => some terminal) (poolPage 1) 0xC0300000 (terminalOp 600) 1 0x400FFF 600) noFault (fun ret t =>
      Delivered (gather windowMachine.mem windowByte 600) (firstResult terminal (terminalOp 600) 600) t.calls ret)
    ⟨windowMachine, []⟩ := by
  intro hall
  obtain ⟨ret, t, hrun, hdelivered⟩ := run_of_wp hall
  obtain ⟨_, _, hrun', hiff⟩ := run_of_wp (wp_writeChunks_delivers (terminal_call (windowMachine_range le_rfl) windowByte_ge))
  obtain ⟨rfl, rfl⟩ := Prod.mk.inj (Except.ok.inj (hrun'.symm.trans hrun))
  have hnone := (hiff.mp hdelivered 1 (by decide) (by rw [length_gather]; decide) fun j hj => ?_).resolve_left ?_
  · obtain ⟨-, -, hsame⟩ := hnone
    have hchunk : chunk 600 1 = 88 := by decide
    have hhead := congrArg (fun l => l[0]?) hsame
    rw [length_gather, hchunk] at hhead
    have hdiffer : windowMachine.mem (windowByte 512) ≠ windowMachine.mem (windowByte 0) := by decide +kernel
    exact hdiffer (by simpa [gather] using hhead)
  · obtain rfl : j = 0 := by omega
    rfl
  · decide

end Example

end YggKernel.Syscall
