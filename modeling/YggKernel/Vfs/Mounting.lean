import Mathlib.Data.List.TakeWhile
import YggKernel.Vfs.Components

namespace YggKernel.Vfs

def pathSize : Nat := 256

/-- A record of `vfs_mounts`. Nothing is mounted there as long as the mount point is empty. -/
structure Entry (Fs Dev : Type) where
  fs : Option Fs
  srcdev : Option Dev
  src : List Char
  dst : List Char
  fsPriv : Nat

/-- The callbacks of the file systems, none where one is not set. The first one gives the device
that `VFS_FACT_BLKDEV` finds. -/
structure Callbacks (Fs Dev : Type) where
  fact : Fs → Option (Entry Fs Dev → Option Ptr → Option Dev)
  mount : Fs → Option (Entry Fs Dev → Nat → Int × Nat)

/-- The pointers of the records as they stand in memory, and what stands behind the table, up to a
terminator. -/
structure Memory (Fs Dev : Type) where
  fs : Fs → Nat
  dev : Dev → Nat
  beyond : List Char
  small : beyond.length < 0x40000000

def word (n : Nat) : List Char := (List.range 4).map fun i => Char.ofNat (n / 256 ^ i % 256)

def array (t : List Char) : List Char := t ++ List.replicate (pathSize - t.length) '\x00'

section Code

variable {Fs Dev : Type} (mem : Memory Fs Dev) (cb : Callbacks Fs Dev)

def Entry.zero : Entry Fs Dev := ⟨none, none, [], [], 0⟩

def Entry.used (e : Entry Fs Dev) : Bool := e.dst ≠ []

/-- The field `flags` stays zero. -/
def Memory.bytes (e : Entry Fs Dev) : List Char :=
  word 0 ++ word ((e.fs.map mem.fs).getD 0) ++ word ((e.srcdev.map mem.dev).getD 0) ++
    array e.src ++ array e.dst ++ word e.fsPriv

def Memory.dst (e : Entry Fs Dev) (rest : List (Entry Fs Dev)) : Ptr :=
  array e.dst ++ (word e.fsPriv ++ rest.flatMap mem.bytes ++ mem.beyond ++ ['\x00'])

/-- A record of the table with its index and the pointer to its mount point. -/
structure Record (Fs Dev : Type) where
  index : Nat
  entry : Entry Fs Dev
  ptr : Ptr

instance : MountPoint (Record Fs Dev) := ⟨Record.ptr⟩

def Memory.records : Nat → List (Entry Fs Dev) → List (Record Fs Dev)
  | _, [] => []
  | i, e :: rest => if e.used then ⟨i, e, mem.dst e rest⟩ :: Memory.records (i + 1) rest else []

def vfsLookup (path : Ptr) (slots : List (Entry Fs Dev)) : Res (Option (Record Fs Dev × Option Ptr)) :=
  vfsLookupFile path (mem.records 0 slots)

def overrun : Fault := .outOfBounds pathSize

def strcpy (n : Nat) (s : Ptr) : Res (List Char) :=
  match Strings.strcpy n s with
  | .ok text => .ok text
  | .error .source => behind
  | .error .target => .error overrun

def vfsGetBlkdev (path : Ptr) (slots : List (Entry Fs Dev)) : Res (Option Dev) := do
  match ← vfsLookup mem path slots with
  | none => return none
  | some (mnt, rel) =>
    match mnt.entry.fs.bind cb.fact with
    | none => .error (assertionFailed "mnt->fs && mnt->fs->fact")
    | some fact => return fact mnt.entry rel

def openSource (src : Option Ptr) (slots : List (Entry Fs Dev)) : Res (Option (Entry Fs Dev)) :=
  match src with
  | none => return some .zero
  | some path => do
    match ← vfsGetBlkdev mem cb path slots with
    | none => return none
    | some blkd =>
      let text ← strcpy pathSize path
      return some { (Entry.zero : Entry Fs Dev) with srcdev := some blkd, src := text }

/-- The record behind those that are used, and the result of the call. -/
def fillEntry (src : Option Ptr) (dst : Ptr) (fsType : Fs) (opts : Nat) (slots : List (Entry Fs Dev)) :
    Res (Int × Entry Fs Dev) := do
  match ← openSource mem cb src slots with
  | none => return (-1, .zero)
  | some e =>
    let text ← strcpy pathSize dst
    let e := { e with dst := text, fs := some fsType }
    match cb.mount fsType with
    | none => return (0, e)
    | some mount => return ((mount e opts).1, { e with fsPriv := (mount e opts).2 })

/-- The loop of `vfs_mount` behind the records that it has passed. -/
def mountLoop (src : Option Ptr) (dst : Ptr) (fsType : Fs) (opts : Nat) (passed : List (Entry Fs Dev)) :
    List (Entry Fs Dev) → Res (Int × List (Entry Fs Dev))
  | [] => .ok (-1, passed)
  | e :: rest => do
    if e.used then
      if (← strcmp (mem.dst e rest) dst) = 0 then return (-1, passed ++ e :: rest)
      else mountLoop src dst fsType opts (passed ++ [e]) rest
    else
      let (res, e) ← fillEntry mem cb src dst fsType opts (passed ++ .zero :: rest)
      return (res, passed ++ e :: rest)

def vfsMount (src : Option Ptr) (dst : Ptr) (fsType : Fs) (opts : Nat) (slots : List (Entry Fs Dev)) :
    Res (Int × List (Entry Fs Dev)) :=
  mountLoop mem cb src dst fsType opts [] slots

end Code

section Table

variable {Fs Dev : Type} {mem : Memory Fs Dev} {l rest slots : List (Entry Fs Dev)} {e : Entry Fs Dev} {i : Nat}

def mounted (slots : List (Entry Fs Dev)) : List (Entry Fs Dev) := slots.takeWhile Entry.used

def replace (slots : List (Entry Fs Dev)) (e : Entry Fs Dev) : List (Entry Fs Dev) :=
  mounted slots ++ e :: (slots.dropWhile Entry.used).tail

structure Fits (e : Entry Fs Dev) : Prop where
  terminated : Terminated e.dst
  target : e.dst.length < pathSize
  source : e.src.length < pathSize

/-- The records that are used come first, and no two have the same mount point. -/
structure WellFormed (slots : List (Entry Fs Dev)) : Prop where
  size : slots.length = 16
  fits : ∀ e ∈ slots, Fits e
  filled : ∀ e ∈ slots.dropWhile Entry.used, e.dst = []
  distinct : ((mounted slots).map Entry.dst).Nodup

structure CString where
  ptr : Ptr
  text : List Char
  holds : Holds ptr text

theorem fits_zero : Fits (Entry.zero : Entry Fs Dev) :=
  ⟨fun _ hc => absurd hc List.not_mem_nil, (by decide : 0 < pathSize), (by decide : 0 < pathSize)⟩

theorem wellFormed_zero : WellFormed (List.replicate 16 (Entry.zero : Entry Fs Dev)) := by
  refine ⟨rfl, fun e he => ?_, fun e he => ?_, List.nodup_nil⟩
  · rw [List.eq_of_mem_replicate he]
    exact fits_zero
  · rw [List.eq_of_mem_replicate ((List.dropWhile_sublist _).subset he)]
    rfl

theorem used_iff : e.used = true ↔ e.dst ≠ [] := decide_eq_true_iff

theorem mounted_append (hl : ∀ m ∈ l, m.dst ≠ []) : mounted (l ++ rest) = l ++ mounted rest :=
  List.takeWhile_append_of_pos fun m hm => used_iff.mpr (hl m hm)

theorem mounted_unused (hrest : ∀ m ∈ rest, m.dst = []) : mounted rest = [] := by
  cases rest with
  | nil => rfl
  | cons m rest => exact List.takeWhile_cons_of_neg fun h => used_iff.mp h (hrest m (List.mem_cons_self ..))

theorem mounted_used {m : Entry Fs Dev} (hm : m ∈ mounted slots) : m.dst ≠ [] :=
  used_iff.mp (List.mem_takeWhile_imp hm)

theorem slots_split (hw : WellFormed slots) : ∃ rest, slots = mounted slots ++ rest ∧ ∀ m ∈ rest, m.dst = [] :=
  ⟨_, List.takeWhile_append_dropWhile.symm, hw.filled⟩

theorem fits_of_mounted (hw : WellFormed slots) : ∀ m ∈ mounted slots, Fits m :=
  fun m hm => hw.fits m ((List.takeWhile_sublist _).subset hm)

theorem dst_eq (h : Fits e) : mem.dst e rest = e.dst ++ '\x00' ::
    (List.replicate (pathSize - 1 - e.dst.length) '\x00' ++ (word e.fsPriv ++ rest.flatMap mem.bytes ++ mem.beyond ++ ['\x00'])) := by
  have htarget := h.target
  have hsize : pathSize - e.dst.length = (pathSize - 1 - e.dst.length) + 1 := by omega
  unfold Memory.dst array
  rw [hsize, List.replicate_succ, List.append_assoc, List.cons_append]

theorem dst_holds (h : Fits e) : Holds (mem.dst e rest) e.dst := by
  refine ⟨h.terminated, ⟨_, dst_eq h⟩, ?_, h.target.trans (by decide)⟩
  unfold Memory.dst
  rw [← List.append_assoc]
  exact closed_append _

end Table

section Copies

variable {p : Ptr} {t : List Char} {n : Nat}

theorem strcpy_append (ht : Terminated t) (u : List Char) :
    strcpy n (t ++ '\x00' :: u) = if t.length < n then .ok t else .error overrun := by
  rw [strcpy, ← Strings.nul_char, Strings.strcpy_eq ht.noNul]
  by_cases hlt : t.length < n
  · rw [if_pos hlt, if_pos hlt]
  · rw [if_neg hlt, if_neg hlt]

theorem strcpy_text (s : CString) :
    strcpy n s.ptr = if s.text.length < n then .ok s.text else .error overrun := by
  obtain ⟨rest, hp⟩ := s.holds.buffer
  rw [hp]
  exact strcpy_append s.holds.terminated rest

end Copies

section Faults

def Stays {α : Type} (x : Res α) : Prop := x ≠ .error overrun

theorem stays_ok {α : Type} (a : α) : Stays (.ok a) := fun h => nomatch h

theorem stays_behind {α : Type} : Stays (behind : Res α) := fun h => absurd (Except.error.inj h) (by decide)

theorem Stays.bind {α β : Type} {x : Res α} {f : α → Res β} (hx : Stays x) (hf : ∀ a, Stays (f a)) : Stays (x >>= f) := by
  cases x with
  | error fault => exact fun h => hx (congrArg Except.error (Except.error.inj h))
  | ok a => exact hf a

theorem Stays.ite {α : Type} {c : Prop} [Decidable c] {x y : Res α} (hx : Stays x) (hy : Stays y) :
    Stays (if c then x else y) := by
  by_cases hc : c
  · rwa [if_pos hc]
  · rwa [if_neg hc]

theorem inBuffer_stays {α : Type} (x : Option α) : Stays (inBuffer x) := by
  cases x with
  | none => exact stays_behind
  | some a => exact stays_ok a

theorem skipSlash_stays (s : Ptr) : Stays (skipSlash s) := by
  cases s with
  | nil => exact stays_behind
  | cons c s => exact stays_ok _

theorem matchLoop_stays (n : Nat) (p q : Ptr) : Stays (matchLoop n p q) := by
  induction n generalizing p q with
  | zero => exact fun h => nomatch h
  | succ n ih =>
    refine (inBuffer_stays _).bind fun e₀ => (inBuffer_stays _).bind fun e₁ => ?_
    refine Stays.ite ((inBuffer_stays _).bind fun r => Stays.ite ?_ (stays_ok 0)) (stays_ok 0)
    exact (ih e₀.tail e₁.tail).bind fun rest => stays_ok (rest + 1)

theorem relSearch_stays (n : Nat) (e : Option Ptr) : Stays (relSearch n e) := by
  induction n generalizing e with
  | zero => exact stays_ok e
  | succ n ih =>
    cases e with
    | none => exact fun h => nomatch h
    | some e => exact (inBuffer_stays _).bind fun e' => ih e'

variable {M : Type} [MountPoint M]

theorem lookupLoop_stays (p : Ptr) (l : List M) (s : LookupState M) : Stays (lookupLoop p l s) := by
  induction l generalizing s with
  | nil => exact stays_ok s
  | cons m l ih =>
    have hmatch : Stays (vfsComponentsMatch p (MountPoint.buffer m)) :=
      (inBuffer_stays _).bind fun r => Stays.ite (stays_ok 1) ((skipSlash_stays _).bind fun p₀ =>
        (skipSlash_stays _).bind fun p₁ => matchLoop_stays _ p₀ p₁)
    have hstep : Stays (lookupStep p m s) :=
      hmatch.bind fun count => Stays.ite ((inBuffer_stays _).bind fun r => Stays.ite
        ((relSearch_stays count _).bind fun e => stays_ok _) (stays_ok _)) (stays_ok s)
    exact (inBuffer_stays _).bind fun r => Stays.ite (stays_ok _) (hstep.bind ih)

theorem vfsGetBlkdev_stays {Fs Dev : Type} (mem : Memory Fs Dev) (cb : Callbacks Fs Dev) (p : Ptr)
    (slots : List (Entry Fs Dev)) :
    Stays (vfsGetBlkdev mem cb p slots) := by
  refine Stays.bind ((lookupLoop_stays p (mem.records 0 slots) _).bind fun s => stays_ok _) fun r => ?_
  cases r with
  | none => exact stays_ok none
  | some r =>
    obtain ⟨mnt, rel⟩ := r
    dsimp only
    cases mnt.entry.fs.bind cb.fact with
    | none => exact fun h => nomatch h
    | some fact => exact stays_ok _

end Faults

section Calls

variable {Fs Dev : Type} {mem : Memory Fs Dev} {cb : Callbacks Fs Dev} {src : Option CString} {dst : CString} {fsType : Fs}
variable {opts : Nat}
variable {slots l rest : List (Entry Fs Dev)} {e : Entry Fs Dev}

theorem mountLoop_passed {passed : List (Entry Fs Dev)} {p : Option Ptr}
    (hl : ∀ m ∈ l, Fits m ∧ m.dst ≠ [] ∧ m.dst ≠ dst.text) :
    mountLoop mem cb p dst.ptr fsType opts passed (l ++ rest) = mountLoop mem cb p dst.ptr fsType opts (passed ++ l) rest := by
  induction l generalizing passed with
  | nil => rw [List.append_nil, List.nil_append]
  | cons m l ih =>
    obtain ⟨hfits, hused, hother⟩ := hl m (List.mem_cons_self ..)
    rw [List.cons_append, mountLoop, if_pos (used_iff.mpr hused), strcmp_holds (dst_holds hfits) dst.holds, if_neg hother]
    dsimp only [bind, Except.bind]
    rw [if_neg (by decide), ih fun m' hm' => hl m' (List.mem_cons_of_mem _ hm'), List.append_assoc]
    rfl

theorem mountLoop_found {passed : List (Entry Fs Dev)} {p : Option Ptr} (hl : ∀ m ∈ l, Fits m ∧ m.dst ≠ [])
    (h : ∃ m ∈ l, m.dst = dst.text) :
    mountLoop mem cb p dst.ptr fsType opts passed (l ++ rest) = .ok (-1, passed ++ (l ++ rest)) := by
  induction l generalizing passed with
  | nil => exact absurd h fun ⟨_, hm, _⟩ => nomatch hm
  | cons m l ih =>
    obtain ⟨hfits, hused⟩ := hl m (List.mem_cons_self ..)
    rw [List.cons_append, mountLoop, if_pos (used_iff.mpr hused), strcmp_holds (dst_holds hfits) dst.holds]
    dsimp only [bind, Except.bind, pure, Except.pure]
    by_cases heq : m.dst = dst.text
    · rw [if_pos heq, if_pos rfl]
    · have hlater : ∃ m ∈ l, m.dst = dst.text := by
        obtain ⟨m', hm', heq'⟩ := h
        rcases List.mem_cons.mp hm' with rfl | hm'
        · exact absurd heq' heq
        · exact ⟨m', hm', heq'⟩
      rw [if_neg heq, if_neg (by decide), ih (fun m' hm' => hl m' (List.mem_cons_of_mem _ hm')) hlater, List.append_assoc]
      rfl

theorem vfsMount_exists (hw : WellFormed slots) {p : Option Ptr} (h : ∃ m ∈ mounted slots, m.dst = dst.text) :
    vfsMount mem cb p dst.ptr fsType opts slots = .ok (-1, slots) := by
  obtain ⟨rest, hslots, _⟩ := slots_split hw
  have hfound : mountLoop mem cb p dst.ptr fsType opts [] (mounted slots ++ rest) = _ :=
    mountLoop_found (fun m hm => ⟨fits_of_mounted hw m hm, mounted_used hm⟩) h
  rwa [← hslots] at hfound

theorem vfsMount_full (hw : WellFormed slots) {p : Option Ptr} (habsent : ∀ m ∈ mounted slots, m.dst ≠ dst.text)
    (h : (mounted slots).length = 16) : vfsMount mem cb p dst.ptr fsType opts slots = .ok (-1, slots) := by
  obtain ⟨rest, hslots, _⟩ := slots_split hw
  have hsize := congrArg List.length hslots
  rw [List.length_append, hw.size, h] at hsize
  obtain rfl := List.eq_nil_of_length_eq_zero (show rest.length = 0 by omega)
  have hpassed : mountLoop mem cb p dst.ptr fsType opts [] (mounted slots ++ []) = _ :=
    mountLoop_passed fun m hm => ⟨fits_of_mounted hw m hm, mounted_used hm, habsent m hm⟩
  rw [← hslots] at hpassed
  rw [List.append_nil] at hslots
  rw [vfsMount, hpassed, mountLoop, List.nil_append, ← hslots]

theorem replace_self (hw : WellFormed slots) (h : (mounted slots).length < 16) :
    ∃ x, x.dst = [] ∧ slots = replace slots x := by
  have hsplit : slots = mounted slots ++ slots.dropWhile Entry.used := List.takeWhile_append_dropWhile.symm
  cases hrest : slots.dropWhile Entry.used with
  | nil =>
    have hsize := congrArg List.length hsplit
    rw [hrest, List.append_nil, hw.size] at hsize
    omega
  | cons x rest =>
    refine ⟨x, hw.filled x (hrest ▸ List.mem_cons_self ..), ?_⟩
    unfold replace
    rw [hrest, List.tail_cons, ← hrest]
    exact hsplit

theorem replace_unused (hw : WellFormed slots) : ∀ m ∈ (slots.dropWhile Entry.used).tail, m.dst = [] :=
  fun m hm => hw.filled m (List.mem_of_mem_tail hm)

theorem vfsMount_room (mem : Memory Fs Dev) (cb : Callbacks Fs Dev) (p : Option Ptr) (fsType : Fs) (opts : Nat)
    (hw : WellFormed slots)
    (habsent : ∀ m ∈ mounted slots, m.dst ≠ dst.text) (h : (mounted slots).length < 16) :
    vfsMount mem cb p dst.ptr fsType opts slots = do
      let (res, e) ← fillEntry mem cb p dst.ptr fsType opts (replace slots .zero)
      return (res, replace slots e) := by
  obtain ⟨x, hx, hslots⟩ := replace_self hw h
  have hpassed : mountLoop mem cb p dst.ptr fsType opts [] (replace slots x) = _ :=
    mountLoop_passed fun m hm => ⟨fits_of_mounted hw m hm, mounted_used hm, habsent m hm⟩
  rw [← hslots, List.nil_append] at hpassed
  rw [vfsMount, hpassed, mountLoop, if_neg fun hused => used_iff.mp hused hx]
  rfl

theorem mounted_replace (hw : WellFormed slots) (e : Entry Fs Dev) :
    mounted (replace slots e) = if e.dst = [] then mounted slots else mounted slots ++ [e] := by
  have hrest := replace_unused hw
  unfold replace
  rw [mounted_append fun m hm => mounted_used hm]
  by_cases he : e.dst = []
  · rw [if_pos he, mounted_unused fun m hm => (List.mem_cons.mp hm).elim (fun h => h ▸ he) (hrest m), List.append_nil]
  · have hhead : mounted (e :: (slots.dropWhile Entry.used).tail) = e :: mounted (slots.dropWhile Entry.used).tail :=
      List.takeWhile_cons_of_pos (used_iff.mpr he)
    rw [if_neg he, hhead, mounted_unused hrest]

theorem wellFormed_replace (hw : WellFormed slots) (hroom : (mounted slots).length < 16) (he : Fits e)
    (hnew : ∀ m ∈ mounted slots, m.dst ≠ e.dst) : WellFormed (replace slots e) := by
  obtain ⟨x, _, hslots⟩ := replace_self hw hroom
  refine ⟨?_, fun m hm => ?_, fun m hm => ?_, ?_⟩
  · have hsize := hw.size
    rw [hslots] at hsize
    unfold replace at hsize ⊢
    rwa [List.length_append, List.length_cons] at hsize ⊢
  · rcases List.mem_append.mp hm with hm | hm
    · exact fits_of_mounted hw m hm
    · rcases List.mem_cons.mp hm with rfl | hm
      · exact he
      · exact hw.fits m ((List.dropWhile_sublist _).subset (List.mem_of_mem_tail hm))
  · unfold replace at hm
    rw [List.dropWhile_append_of_pos fun m hm => used_iff.mpr (mounted_used hm)] at hm
    by_cases hdst : e.dst = []
    · rcases List.mem_cons.mp ((List.dropWhile_sublist _).subset hm) with rfl | hm
      · exact hdst
      · exact replace_unused hw m hm
    · rw [List.dropWhile_cons_of_pos (used_iff.mpr hdst)] at hm
      exact replace_unused hw m ((List.dropWhile_sublist _).subset hm)
  · rw [mounted_replace hw]
    by_cases hdst : e.dst = []
    · rw [if_pos hdst]
      exact hw.distinct
    · rw [if_neg hdst, List.map_append]
      refine hw.distinct.append (List.nodup_singleton _) fun a ha ha' => ?_
      obtain ⟨m, hm, rfl⟩ := List.mem_map.mp ha
      exact hnew m hm (List.mem_singleton.mp ha')

end Calls

section Reaching

variable {Fs Dev : Type} {mem : Memory Fs Dev} {cb : Callbacks Fs Dev} {src : Option CString} {dst : CString} {fsType : Fs}
variable {opts : Nat}
variable {slots : List (Entry Fs Dev)} {dev : Option Dev}

/-- The call gets to the record behind those that are used, where the source gives this device. -/
structure Reaches (mem : Memory Fs Dev) (cb : Callbacks Fs Dev) (src : Option CString) (dst : CString)
    (slots : List (Entry Fs Dev)) (dev : Option Dev) : Prop where
  absent : ∀ m ∈ mounted slots, m.dst ≠ dst.text
  room : (mounted slots).length < 16
  source : match src with
    | none => dev = none
    | some s => vfsGetBlkdev mem cb s.ptr (replace slots .zero) = .ok dev

/-- The source is no block device. -/
def Missing (src : Option CString) (dev : Option Dev) : Prop := src.isSome ∧ dev.isNone

instance (src : Option CString) (dev : Option Dev) : Decidable (Missing src dev) :=
  inferInstanceAs (Decidable (src.isSome ∧ dev.isNone))

def newEntry (src : Option CString) (dst : CString) (fsType : Fs) (dev : Option Dev) : Entry Fs Dev :=
  ⟨some fsType, dev, (src.map CString.text).getD [], dst.text, 0⟩

def Callbacks.mountResult (cb : Callbacks Fs Dev) (fsType : Fs) (e : Entry Fs Dev) (opts : Nat) : Int × Nat :=
  match cb.mount fsType with
  | none => (0, e.fsPriv)
  | some mount => mount e opts

def leftEntry (cb : Callbacks Fs Dev) (src : Option CString) (dst : CString) (fsType : Fs) (opts : Nat) (dev : Option Dev) :
    Entry Fs Dev :=
  if Missing src dev then .zero
  else { newEntry src dst fsType dev with fsPriv := (cb.mountResult fsType (newEntry src dst fsType dev) opts).2 }

theorem leftEntry_filled (h : ¬Missing src dev) : leftEntry cb src dst fsType opts dev =
    { newEntry src dst fsType dev with fsPriv := (cb.mountResult fsType (newEntry src dst fsType dev) opts).2 } := if_neg h

theorem openSource_reached (h : Reaches mem cb src dst slots dev) :
    openSource mem cb (src.map CString.ptr) (replace slots .zero) =
    if Missing src dev then .ok none
    else if ∀ s ∈ src, s.text.length < pathSize then .ok (some ⟨none, dev, (src.map CString.text).getD [], [], 0⟩)
    else .error overrun := by
  cases src with
  | none =>
    obtain rfl : dev = none := h.source
    rw [if_neg fun hmissing => Bool.noConfusion hmissing.1, if_pos fun s hs => absurd hs (Option.not_mem_none s)]
    rfl
  | some s =>
    have hdev : vfsGetBlkdev mem cb s.ptr (replace slots .zero) = .ok dev := h.source
    rw [Option.map_some, openSource, hdev]
    cases dev with
    | none => rfl
    | some blkd =>
      have hfound : ¬Missing (some s) (some blkd) := fun hmissing => Bool.noConfusion hmissing.2
      dsimp only [bind, Except.bind]
      rw [strcpy_text, if_neg hfound]
      by_cases hlen : s.text.length < pathSize
      · rw [if_pos hlen, if_pos fun s' hs' => by rwa [← Option.some.inj hs']]
        rfl
      · rw [if_neg hlen, if_neg fun hall => hlen (hall s rfl)]

theorem fillEntry_reached (fsType : Fs) (opts : Nat) (h : Reaches mem cb src dst slots dev) :
    fillEntry mem cb (src.map CString.ptr) dst.ptr fsType opts (replace slots .zero) =
      if Missing src dev then .ok (-1, leftEntry cb src dst fsType opts dev)
      else if (∀ s ∈ src, s.text.length < pathSize) ∧ dst.text.length < pathSize then
        .ok ((cb.mountResult fsType (newEntry src dst fsType dev) opts).1, leftEntry cb src dst fsType opts dev)
      else .error overrun := by
  unfold fillEntry
  rw [openSource_reached h]
  by_cases hmissing : Missing src dev
  · rw [if_pos hmissing, if_pos hmissing, leftEntry, if_pos hmissing]
    rfl
  · rw [if_neg hmissing, if_neg hmissing, leftEntry_filled hmissing]
    by_cases hsrc : ∀ s ∈ src, s.text.length < pathSize
    · rw [if_pos hsrc]
      dsimp only [bind, Except.bind, pure, Except.pure]
      rw [strcpy_text]
      by_cases hdst : dst.text.length < pathSize
      · rw [if_pos hdst, if_pos ⟨hsrc, hdst⟩]
        unfold Callbacks.mountResult newEntry
        cases cb.mount fsType <;> rfl
      · rw [if_neg hdst, if_neg fun h => hdst h.2]
    · rw [if_neg hsrc, if_neg fun h => hsrc h.1]
      rfl

theorem leftEntry_fits (hsrc : ∀ s ∈ src, s.text.length < pathSize) (hdst : dst.text.length < pathSize) :
    Fits (leftEntry cb src dst fsType opts dev) := by
  by_cases hmissing : Missing src dev
  · rw [leftEntry, if_pos hmissing]
    exact fits_zero
  · rw [leftEntry_filled hmissing]
    refine ⟨dst.holds.terminated, hdst, ?_⟩
    cases src with
    | none => exact (by decide : 0 < pathSize)
    | some s => exact hsrc s rfl

end Reaching

section Reachability

variable {Fs Dev : Type} {mem : Memory Fs Dev} {cb : Callbacks Fs Dev} {dst : CString} {fsType : Fs} {opts : Nat}
variable {slots : List (Entry Fs Dev)}

theorem strcpy_length {n : Nat} {p t : List Char} (h : strcpy n p = .ok t) : t.length < n := by
  rw [strcpy] at h
  cases hcopy : Strings.strcpy n p with
  | error fault =>
    rw [hcopy] at h
    cases fault <;> cases h
  | ok text =>
    rw [hcopy] at h
    exact Except.ok.inj h ▸ Strings.length_strcpy hcopy

theorem openSource_length {p : Option Ptr} {e : Entry Fs Dev} (h : openSource mem cb p slots = .ok (some e)) :
    e.src.length < pathSize := by
  cases p with
  | none =>
    rw [← Option.some.inj (Except.ok.inj h)]
    exact (by decide : 0 < pathSize)
  | some p =>
    rw [openSource] at h
    cases hdev : vfsGetBlkdev mem cb p slots with
    | error fault =>
      rw [hdev] at h
      cases h
    | ok dev =>
      rw [hdev] at h
      cases dev with
      | none => cases Except.ok.inj h
      | some blkd =>
        dsimp only [bind, Except.bind] at h
        cases htext : strcpy pathSize p with
        | error fault =>
          rw [htext] at h
          cases h
        | ok text =>
          rw [htext] at h
          rw [← Option.some.inj (Except.ok.inj h)]
          exact strcpy_length htext

theorem fillEntry_fits {p : Option Ptr} {r : Int × Entry Fs Dev}
    (h : fillEntry mem cb p dst.ptr fsType opts slots = .ok r) :
    Fits r.2 ∧ (r.2.dst = [] ∨ r.2.dst = dst.text) := by
  unfold fillEntry at h
  cases hopen : openSource mem cb p slots with
  | error fault =>
    rw [hopen] at h
    cases h
  | ok e =>
    rw [hopen] at h
    cases e with
    | none =>
      obtain rfl := Except.ok.inj h
      exact ⟨fits_zero, .inl rfl⟩
    | some e =>
      have hsrc := openSource_length hopen
      dsimp only [bind, Except.bind, pure, Except.pure] at h
      rw [strcpy_text] at h
      by_cases hlen : dst.text.length < pathSize
      · rw [if_pos hlen] at h
        dsimp only at h
        cases hmount : cb.mount fsType with
        | none =>
          rw [hmount] at h
          obtain rfl := Except.ok.inj h
          exact ⟨⟨dst.holds.terminated, hlen, hsrc⟩, .inr rfl⟩
        | some mount =>
          rw [hmount] at h
          obtain rfl := Except.ok.inj h
          exact ⟨⟨dst.holds.terminated, hlen, hsrc⟩, .inr rfl⟩
      · rw [if_neg hlen] at h
        cases h

theorem vfsMount_wellFormed {p : Option Ptr} {r : Int × List (Entry Fs Dev)} (hw : WellFormed slots)
    (h : vfsMount mem cb p dst.ptr fsType opts slots = .ok r) : WellFormed r.2 := by
  by_cases hexists : ∃ m ∈ mounted slots, m.dst = dst.text
  · rw [vfsMount_exists hw hexists] at h
    rwa [← Except.ok.inj h]
  have habsent : ∀ m ∈ mounted slots, m.dst ≠ dst.text := fun m hm heq => hexists ⟨m, hm, heq⟩
  have hle : (mounted slots).length ≤ slots.length := (List.takeWhile_sublist _).length_le
  rw [hw.size] at hle
  rcases Nat.lt_or_ge (mounted slots).length 16 with hroom | hfull
  · rw [vfsMount_room mem cb p fsType opts hw habsent hroom] at h
    cases hfill : fillEntry mem cb p dst.ptr fsType opts (replace slots .zero) with
    | error fault =>
      rw [hfill] at h
      cases h
    | ok f =>
      rw [hfill] at h
      rw [← Except.ok.inj h]
      obtain ⟨hfits, hdst⟩ := fillEntry_fits hfill
      refine wellFormed_replace hw hroom hfits fun m hm => ?_
      rcases hdst with hnone | hdst
      · rw [hnone]
        exact mounted_used hm
      · rw [hdst]
        exact habsent m hm
  · rw [vfsMount_full hw habsent (Nat.le_antisymm hle hfull)] at h
    rwa [← Except.ok.inj h]

/-- The tables that calls make of the empty one, whatever stands behind the table at each of them. -/
inductive Reachable (cb : Callbacks Fs Dev) : List (Entry Fs Dev) → Prop
  | boot : Reachable cb (List.replicate 16 .zero)
  | call {slots r} (mem : Memory Fs Dev) (src : Option Ptr) (dst : CString) (fsType : Fs) (opts : Nat) (h : Reachable cb slots)
      (hcall : vfsMount mem cb src dst.ptr fsType opts slots = .ok r) : Reachable cb r.2

theorem reachable_wellFormed (h : Reachable cb slots) : WellFormed slots := by
  induction h with
  | boot => exact wellFormed_zero
  | call mem src dst fsType opts _ hcall ih => exact vfsMount_wellFormed ih hcall

end Reachability

end YggKernel.Vfs
