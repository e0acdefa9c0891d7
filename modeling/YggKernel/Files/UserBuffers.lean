import YggKernel.Files.Effects
import YggKernel.Paging.Copies

namespace YggKernel.Transfers

open Lib.Program Lib.BitWords Paging Files

/-- A byte that was stored: the task to whose memory it went, or zero for the kernel's own, and the
address there. -/
structure Store where
  space : Nat
  addr : Nat
  byte : BitVec 8
  deriving DecidableEq

structure Transfer where
  system : System
  stores : List Store

def Transfer.log (t : Transfer) (l : List Store) : Transfer := { t with stores := t.stores ++ l }

def onSystem {α : Type} (p : Prog Fault System α) : Prog Fault Transfer α := fun t =>
  (p t.system).map fun r => (r.1, { t with system := r.2 })

def owner (space a : Nat) : Nat := if kernelVirtBase ≤ a then 0 else space

def storesAt (space : Nat) : Nat → List (BitVec 8) → List Store
  | _, [] => []
  | addr, b :: bytes => ⟨owner space (u32 addr), u32 addr, b⟩ :: storesAt space (addr + 1) bytes

/-- The address that a directory has in its last slot is not one of a table that is present. -/
def tableInfoBase : Nat := 0xFFC00000

/-- What a call finds in the page tables: the flags of the pages of each task, or of `mm_kernel` for zero,
what stops a page from being mapped and unmapped in `mm_kernel`, and whose directory is loaded. -/
structure View where
  page : Nat → Nat → Option Nat
  window : Nat → Option Fault
  loaded : Nat
  top : ∀ space a, tableInfoBase ≤ a → page space a = none

def View.mapped (v : View) (a : Nat) : Option Nat :=
  (v.page v.loaded (a / 4096 * 4096)).map fun _ => owner v.loaded a

def View.target (v : View) (window : Option (Nat × Nat)) (a : Nat) : Option Nat :=
  match window with
  | none => v.mapped a
  | some (space, page) => if v.loaded = 0 ∧ a / 4096 * 4096 = page then some (owner space a) else v.mapped a

def memcpyTo (v : View) (window : Option (Nat × Nat)) : Nat → List (BitVec 8) → Prog Fault Transfer Unit
  | _, [] => return ()
  | a, b :: bytes => do
    match v.target window (u32 a) with
    | none => throw (.pageFault (u32 a))
    | some space =>
      modify fun t => t.log [⟨space, u32 a, b⟩]
      memcpyTo v window (a + 1) bytes

def openWindow (v : View) (space page : Nat) : Prog Fault Transfer Unit := do
  kassert (v.page space page).isSome "user_page_phys != MM_NADDR"
  kassert ((v.page space page).getD 0 &&& mmFlgPs == 0) "!(user_rflags & MM_FLG_PS)"
  match v.window page with
  | some e => throw e
  | none => return ()

def part (src : List (BitVec 8)) (copied size : Nat) : Prog Fault Transfer (List (BitVec 8)) :=
  if src.length < copied + size then throw (.outOfBounds (copied + size)) else return (src.drop copied).take size

def copyPages (v : View) (space user : Nat) (src : List (BitVec 8)) : Nat → Nat → Nat → Prog Fault Transfer Unit
  | _, 0, _ => return ()
  | i, n + 1, copied => do
    let page := u32 ((user &&& pageMask) + i * 0x1000)
    let (userStart, userEnd) := userPart user src.length page
    openWindow v space page
    memcpyTo v (some (space, page)) (page + userStart) (← part src copied (sub32 userEnd userStart))
    copyPages v space user src (i + 1) n (u32 (copied + sub32 userEnd userStart))

/-- `mm_memcpy_kernel_to_user`, where the space is that of a task. -/
def mmMemcpyKernelToUser (v : View) (space user : Nat) (src : List (BitVec 8)) : Prog Fault Transfer Unit :=
  copyPages v space user src 0 (userPages user src.length) 0

def Opens (v : View) (space page : Nat) : Prop :=
  ((v.page space page).any fun flags => flags &&& mmFlgPs == 0) = true ∧ v.window page = none

instance (v : View) (space page : Nat) : Decidable (Opens v space page) := inferInstanceAs (Decidable (_ ∧ _))

/-- All pages of a range can be opened, and the accesses to it end in the memory of the task. -/
def Reaches (v : View) (space user count : Nat) : Prop :=
  (count = 0 ∨ user + count ≤ tableInfoBase) ∧
    (∀ i < userPages user count, Opens v space (u32 ((user &&& pageMask) + i * 0x1000))) ∧
    ∀ k < count, v.target (some (space, (user + k) / 4096 * 4096)) (user + k) = some (owner space (user + k))

instance (v : View) (space user count : Nat) : Decidable (Reaches v space user count) :=
  inferInstanceAs (Decidable (_ ∧ _ ∧ _))

section Logs

variable {v : View} {window : Option (Nat × Nat)} {space page user a : Nat} {src bytes : List (BitVec 8)} {t : Transfer}
  {E : Fault → Prop}

@[simp] theorem log_nil (t : Transfer) : t.log [] = t := by rw [Transfer.log, List.append_nil]

@[simp] theorem log_log (t : Transfer) (l l' : List Store) : (t.log l).log l' = t.log (l ++ l') := by
  rw [Transfer.log, Transfer.log, Transfer.log, List.append_assoc]

@[simp] theorem wp_onSystem {α : Type} (p : Prog Fault System α) (Q : α → Transfer → Prop) (t : Transfer) :
    wp (onSystem p) E Q t ↔ wp p E (fun a s => Q a { t with system := s }) t.system := by
  unfold wp onSystem
  cases p t.system <;> rfl

theorem storesAt_append (space addr : Nat) (xs ys : List (BitVec 8)) :
    storesAt space addr (xs ++ ys) = storesAt space addr xs ++ storesAt space (addr + xs.length) ys := by
  induction xs generalizing addr with
  | nil => rfl
  | cons b xs ih =>
    rw [List.cons_append, storesAt, storesAt, ih, List.length_cons, Nat.add_assoc, Nat.add_comm 1]
    rfl

theorem length_storesAt (space addr : Nat) (xs : List (BitVec 8)) : (storesAt space addr xs).length = xs.length := by
  induction xs generalizing addr with
  | nil => rfl
  | cons b xs ih => rw [storesAt, List.length_cons, List.length_cons, ih]

theorem u32_add (a k : Nat) : u32 (u32 a + k) = u32 (a + k) := by
  unfold u32
  omega

theorem storesAt_u32 (space addr : Nat) (xs : List (BitVec 8)) : storesAt space (u32 addr) xs = storesAt space addr xs := by
  induction xs generalizing addr with
  | nil => rfl
  | cons b xs ih =>
    have hself : u32 (u32 addr) = u32 addr := u32_of_lt (u32_lt _)
    rw [storesAt, storesAt, ← ih (u32 addr + 1), u32_add, ih, hself]

theorem mem_storesAt {k : Nat} (hk : k < src.length) :
    ⟨owner space (u32 (a + k)), u32 (a + k), src[k]⟩ ∈ storesAt space a src := by
  induction src generalizing a k with
  | nil => exact absurd hk (Nat.not_lt_zero k)
  | cons b src ih =>
    cases k with
    | zero => exact List.mem_cons_self
    | succ k =>
      have hmem := ih (a := a + 1) (Nat.lt_of_succ_lt_succ hk)
      rw [Nat.add_assoc, Nat.add_comm 1] at hmem
      exact List.mem_cons_of_mem _ hmem

def Logged (v : View) (windows : Option (Nat × Nat) → Prop) (t u : Transfer) (l : List Store) : Prop :=
  u = t.log l ∧ ∀ s ∈ l, ∃ w, windows w ∧ v.target w s.addr = some s.space

theorem Logged.refl (windows : Option (Nat × Nat) → Prop) (t : Transfer) : Logged v windows t t [] :=
  ⟨(log_nil t).symm, fun _ hs => absurd hs List.not_mem_nil⟩

theorem Logged.trans {windows : Option (Nat × Nat) → Prop} {u w : Transfer} {l l' : List Store}
    (h : Logged v windows t u l) (h' : Logged v windows u w l') : Logged v windows t w (l ++ l') := by
  obtain ⟨rfl, hl⟩ := h
  obtain ⟨rfl, hl'⟩ := h'
  exact ⟨log_log .., fun s hs => (List.mem_append.mp hs).elim (hl s) (hl' s)⟩

theorem Logged.mono {windows windows' : Option (Nat × Nat) → Prop} {u : Transfer} {l : List Store}
    (h : Logged v windows t u l) (hle : ∀ w, windows w → windows' w) : Logged v windows' t u l :=
  ⟨h.1, fun s hs => (h.2 s hs).imp fun _ hw => ⟨hle _ hw.1, hw.2⟩⟩

theorem wp_memcpyTo (space : Nat)
    (h : ∀ k < bytes.length, v.target window (u32 (a + k)) = some (owner space (u32 (a + k)))) :
    wp (memcpyTo v window a bytes) noFault (fun _ u => u = t.log (storesAt space a bytes)) t := by
  induction bytes generalizing a t with
  | nil => exact (log_nil t).symm
  | cons b bytes ih =>
    have hhead : v.target window (u32 a) = some (owner space (u32 a)) := h 0 (Nat.succ_pos _)
    rw [memcpyTo, hhead]
    dsimp only
    rw [wp_bind, wp_modify]
    refine wp_imp (ih fun k hk => ?_) fun _ u hu => ?_
    · rw [Nat.add_assoc, Nat.add_comm 1]
      exact h (k + 1) (Nat.succ_lt_succ hk)
    · rw [hu, log_log]
      rfl

theorem wp_memcpyTo_logs : wp (memcpyTo v window a bytes) anyFault
    (fun _ u => ∃ l, l.length = bytes.length ∧ Logged v (· = window) t u l) t := by
  induction bytes generalizing a t with
  | nil => exact ⟨[], rfl, .refl _ t⟩
  | cons b bytes ih =>
    rw [memcpyTo]
    cases htarget : v.target window (u32 a) with
    | none => trivial
    | some space =>
      dsimp only
      rw [wp_bind, wp_modify]
      refine wp_imp ih fun _ u ⟨l, hlen, hl⟩ => ⟨⟨space, u32 a, b⟩ :: l, congrArg Nat.succ hlen, ?_⟩
      refine Logged.trans (l := [_]) ⟨rfl, fun s hs => ?_⟩ hl
      rw [List.mem_singleton.mp hs]
      exact ⟨window, rfl, htarget⟩

/-- The bytes of a copy arrive only if all accesses end in the right memory. -/
theorem Logged.targets {windows : Option (Nat × Nat) → Prop} {u : Transfer}
    (h : Logged v windows t u (storesAt space a bytes)) {k : Nat} (hk : k < bytes.length) :
    ∃ w, windows w ∧ v.target w (u32 (a + k)) = some (owner space (u32 (a + k))) := by
  have hmem : (⟨owner space (u32 (a + k)), u32 (a + k), bytes[k]⟩ : Store) ∈ storesAt space a bytes := mem_storesAt hk
  obtain ⟨w, hw, htarget⟩ := h.2 _ hmem
  dsimp only at htarget
  exact ⟨w, hw, htarget⟩

theorem wp_openWindow {Q : Unit → Transfer → Prop} (h : Opens v space page) : wp (openWindow v space page) E Q t ↔ Q () t := by
  obtain ⟨hsmall, hwindow⟩ := h
  obtain ⟨flags, hpage, hps⟩ := Option.any_eq_true .. |>.mp hsmall
  rw [openWindow, hpage, hwindow, wp_bind, wp_kassert, wp_bind, wp_kassert, Option.getD_some, hps]
  simp

theorem wp_openWindow_opens : wp (openWindow v space page) anyFault (fun _ u => u = t ∧ Opens v space page) t := by
  rw [openWindow, wp_bind, wp_kassert]
  refine ⟨fun hpage => ?_, fun _ => trivial⟩
  rw [wp_bind, wp_kassert]
  refine ⟨fun hps => ?_, fun _ => trivial⟩
  obtain ⟨flags, hflags⟩ := Option.isSome_iff_exists.mp hpage
  cases hwindow : v.window page with
  | some e => trivial
  | none =>
    rw [hflags, Option.getD_some] at hps
    exact ⟨rfl, by rwa [hflags, Option.any_some], hwindow⟩

section Pages

variable {i n : Nat}

theorem inside_page (huser : user + src.length ≤ tableInfoBase) (hi : i < userPages user src.length) :
    4096 * i < user % 4096 + src.length := by
  unfold tableInfoBase at huser
  rw [userPages_eq (by omega) (by omega)] at hi
  omega

theorem copyPages_round (huser : user + src.length ≤ tableInfoBase) (hi : i < userPages user src.length) :
    copyPages v space user src i (n + 1) (partStart user i) = (do
      openWindow v space (user / 4096 * 4096 + 4096 * i)
      memcpyTo v (some (space, user / 4096 * 4096 + 4096 * i)) (user + partStart user i)
        ((src.drop (partStart user i)).take (min src.length (partStart user (i + 1)) - partStart user i))
      copyPages v space user src (i + 1) n (min src.length (partStart user (i + 1)))) := by
  have hinside := inside_page huser hi
  obtain ⟨hv, hsize, hle, hnext⟩ := part_size hinside
  unfold tableInfoBase at huser
  have hin : ¬src.length < partStart user i + (min src.length (partStart user (i + 1)) - partStart user i) := by omega
  have hsum : partStart user i + (min src.length (partStart user (i + 1)) - partStart user i) =
      min src.length (partStart user (i + 1)) := by omega
  rw [copyPages, pageAt_eq (by omega) hinside]
  dsimp only
  rw [userPart_eq (by omega) hinside]
  dsimp only
  rw [sub32_of_le (by omega) hle, hsize, hv, part, if_neg hin, pure_bind, hsum, u32_of_lt (by omega)]

theorem wp_copyPages (h : Reaches v space user src.length) (huser : user + src.length ≤ tableInfoBase) :
    i + n = userPages user src.length → wp (copyPages v space user src i n (min src.length (partStart user i))) noFault
      (fun _ u => u = t.log
        (storesAt space (user + min src.length (partStart user i)) (src.drop (min src.length (partStart user i))))) t := by
  obtain ⟨-, hopens, harrives⟩ := h
  have hbase : user + src.length < 4290772993 := Nat.lt_succ_of_le huser
  induction n generalizing i t with
  | zero =>
    intro hi
    rw [Nat.add_zero, userPages_eq (by omega) (by omega)] at hi
    have hlast : src.length ≤ partStart user i := by
      unfold partStart
      omega
    rw [copyPages, wp_pure, Nat.min_eq_left hlast, List.drop_length, storesAt, log_nil]
  | succ n ih =>
    intro hi
    have hlt : i < userPages user src.length := by omega
    have hinside := inside_page huser hlt
    obtain ⟨-, -, -, hnext⟩ := part_size hinside
    have hopen := hopens i hlt
    rw [pageAt_eq (by omega) hinside] at hopen
    rw [Nat.min_eq_right (by omega), copyPages_round huser hlt, wp_bind, wp_openWindow hopen, wp_bind]
    refine wp_imp (wp_memcpyTo space fun k hk => ?_) fun _ u hu => ?_
    · rw [List.length_take, List.length_drop] at hk
      have hpage : (user + (partStart user i + k)) / 4096 * 4096 = user / 4096 * 4096 + 4096 * i := by
        unfold partStart at hk ⊢
        omega
      have htarget := harrives (partStart user i + k) (by omega)
      rw [hpage] at htarget
      rw [Nat.add_assoc, u32_of_lt (by omega)]
      exact htarget
    · refine wp_imp (ih (by omega)) fun _ w hw => ?_
      have hlen : ((src.drop (partStart user i)).take
          (min src.length (partStart user (i + 1)) - partStart user i)).length =
          min src.length (partStart user (i + 1)) - partStart user i := by
        rw [List.length_take, List.length_drop]
        omega
      have hsum : partStart user i + (min src.length (partStart user (i + 1)) - partStart user i) =
          min src.length (partStart user (i + 1)) := Nat.add_sub_of_le hnext
      have hsplit := congrArg (storesAt space (user + partStart user i)) (List.take_append_drop
        (min src.length (partStart user (i + 1)) - partStart user i) (src.drop (partStart user i)))
      rw [storesAt_append, hlen, List.drop_drop, Nat.add_assoc, hsum] at hsplit
      rw [hw, hu, log_log, hsplit]

theorem wp_copyPages_length (v : View) (space : Nat) (huser : user + src.length ≤ tableInfoBase) :
    i + n = userPages user src.length → wp (copyPages v space user src i n (min src.length (partStart user i))) anyFault
      (fun _ u => u.stores.length + min src.length (partStart user i) = t.stores.length + src.length) t := by
  have hbase : user + src.length < 4290772993 := Nat.lt_succ_of_le huser
  induction n generalizing i t with
  | zero =>
    intro hi
    rw [Nat.add_zero, userPages_eq (by omega) (by omega)] at hi
    have hlast : src.length ≤ partStart user i := by
      unfold partStart
      omega
    rw [copyPages, wp_pure, Nat.min_eq_left hlast]
  | succ n ih =>
    intro hi
    have hlt : i < userPages user src.length := by omega
    obtain ⟨-, -, -, hnext⟩ := part_size (inside_page huser hlt)
    rw [Nat.min_eq_right (by omega), copyPages_round huser hlt, wp_bind]
    refine wp_imp wp_openWindow_opens fun _ u hu => ?_
    rw [hu.1, wp_bind]
    refine wp_imp wp_memcpyTo_logs fun _ u ⟨l, hlen, hl, _⟩ => ?_
    refine wp_imp (ih (by omega)) fun _ w hw => ?_
    rw [List.length_take, List.length_drop] at hlen
    rw [hl, Transfer.log, List.length_append] at hw
    omega

theorem wp_copyPages_logs (v : View) (space user : Nat) (src : List (BitVec 8)) (i n copied : Nat) (t : Transfer) :
    wp (copyPages v space user src i n copied) anyFault (fun _ u =>
    (∃ l, Logged v (fun w => ∃ page, w = some (space, page) ∧ Opens v space page) t u l) ∧
      ∀ j, i ≤ j → j < i + n → Opens v space (u32 ((user &&& pageMask) + j * 0x1000))) t := by
  induction n generalizing i t copied with
  | zero => exact ⟨⟨[], .refl _ t⟩, fun j hle hlt => absurd hlt (Nat.not_lt.mpr hle)⟩
  | succ n ih =>
    rw [copyPages]
    dsimp only
    rw [wp_bind]
    refine wp_imp wp_openWindow_opens fun _ _ hopen => ?_
    rw [hopen.1, part]
    split
    · trivial
    rw [pure_bind, wp_bind]
    refine wp_imp wp_memcpyTo_logs fun _ u ⟨l, _, hl⟩ => ?_
    refine wp_imp (ih _ _ _) fun _ w ⟨⟨l', hl'⟩, hrest⟩ => ⟨⟨l ++ l', .trans (hl.mono fun w hw => ⟨_, hw, hopen.2⟩) hl'⟩, fun j hle hlt => ?_⟩
    by_cases hj : j = i
    · rw [hj]
      exact hopen.2
    · exact hrest j (by omega) (by omega)

end Pages

theorem View.mapped_lt (v : View) {space : Nat} (h : v.mapped a = some space) : a < tableInfoBase := by
  by_contra hle
  have hpage : tableInfoBase ≤ a / 4096 * 4096 := by
    unfold tableInfoBase at hle ⊢
    omega
  rw [View.mapped, v.top _ _ hpage] at h
  cases h

theorem Opens.lt (h : Opens v space page) : page < tableInfoBase := by
  by_contra hle
  have hsmall := h.1
  rw [v.top _ _ (Nat.not_lt.mp hle)] at hsmall
  cases hsmall

theorem Opens.target_lt (h : Opens v space page) {x : Nat} (htarget : v.target (some (space, page)) a = some x) :
    a < tableInfoBase := by
  rw [View.target] at htarget
  split at htarget
  · rename_i hwindow
    have hlt := h.lt
    rw [← hwindow.2] at hlt
    unfold tableInfoBase at hlt ⊢
    omega
  · exact v.mapped_lt htarget

theorem target_own (h : v.target (some (space, page)) a = some (owner space a)) :
    v.target (some (space, a / 4096 * 4096)) a = some (owner space a) := by
  rw [View.target] at h ⊢
  by_cases hload : v.loaded = 0
  · rw [if_pos ⟨hload, rfl⟩]
  · rw [if_neg fun hwindow => hload hwindow.1] at h ⊢
    exact h

theorem inside_of_opens (hword : user < 4294967296) (hlen : src.length ≤ tableInfoBase)
    (h : ∀ i < userPages user src.length, Opens v space (u32 ((user &&& pageMask) + i * 0x1000))) :
    src = [] ∧ userPages user src.length = 0 ∨ user + src.length ≤ tableInfoBase := by
  by_cases hpages : userPages user src.length = 0
  · unfold tableInfoBase at hlen
    refine .inl ⟨List.length_eq_zero_iff.mp ?_, hpages⟩
    rw [userPages_eq hword (by omega)] at hpages
    omega
  refine .inr ?_
  by_contra hover
  have hin : max user tableInfoBase / 4096 - user / 4096 < userPages user src.length := by
    unfold tableInfoBase at hlen hover ⊢
    rw [userPages_eq hword (by omega)] at hpages ⊢
    omega
  have hlt := (h _ hin).lt
  rw [and_pageMask hword] at hlt
  unfold tableInfoBase at hlt hover
  rw [u32_of_lt (by omega)] at hlt
  omega

theorem wp_mmMemcpyKernelToUser (hword : user < 4294967296) (h : Reaches v space user src.length) :
    wp (mmMemcpyKernelToUser v space user src) noFault (fun _ u => u = t.log (storesAt space user src)) t := by
  have hlen : src.length ≤ tableInfoBase := by
    have hcount := h.1
    omega
  rw [mmMemcpyKernelToUser]
  rcases inside_of_opens hword hlen h.2.1 with ⟨hnil, hpages⟩ | hinside
  · rw [hpages, copyPages, wp_pure, hnil, storesAt, log_nil]
  · have hcopy := wp_copyPages (t := t) (i := 0) h hinside (Nat.zero_add _)
    rwa [partStart_zero, Nat.min_zero, Nat.add_zero, List.drop_zero] at hcopy

/-- A copy that comes to its end stores as many bytes as it was given, and the right ones in the right
places only if the range can be reached. -/
theorem wp_mmMemcpyKernelToUser_logs (hword : user < 4294967296) (hlen : src.length ≤ tableInfoBase) :
    wp (mmMemcpyKernelToUser v space user src) anyFault (fun _ u => ∃ l, u = t.log l ∧ l.length = src.length ∧
      (∀ s ∈ l, s.addr < tableInfoBase) ∧ (l = storesAt space user src → Reaches v space user src.length)) t := by
  have hlogs := wp_copyPages_logs v space user src 0 (userPages user src.length) 0 t
  have hreaches : ∀ u l, Logged v (fun w => ∃ page, w = some (space, page) ∧ Opens v space page) t u l →
      (∀ i < userPages user src.length, Opens v space (u32 ((user &&& pageMask) + i * 0x1000))) →
      (src.length = 0 ∨ user + src.length ≤ tableInfoBase) → (∀ s ∈ l, s.addr < tableInfoBase) ∧
        (l = storesAt space user src → Reaches v space user src.length) := by
    rintro u l hl hopens hinside
    refine ⟨fun s hs => ?_, ?_⟩
    · obtain ⟨w, ⟨page, rfl, hopen⟩, htarget⟩ := hl.2 s hs
      exact hopen.target_lt htarget
    · rintro rfl
      refine ⟨hinside, hopens, fun k hk => ?_⟩
      obtain ⟨w, ⟨page, rfl, -⟩, htarget⟩ := hl.targets hk
      have hlt : user + k < 4290772992 := by
        unfold tableInfoBase at hinside
        omega
      rw [u32_of_lt (by omega)] at htarget
      exact target_own htarget
  rw [mmMemcpyKernelToUser]
  by_cases hinside : user + src.length ≤ tableInfoBase
  · have hlength := wp_copyPages_length (t := t) (i := 0) v space hinside (Nat.zero_add _)
    rw [partStart_zero, Nat.min_zero] at hlength
    refine wp_imp (wp_and hlogs hlength) fun _ u ⟨⟨⟨l, hl⟩, hopens⟩, hlen'⟩ => ?_
    refine ⟨l, hl.1, ?_, hreaches u l hl (fun i hi => hopens i (Nat.zero_le i) (by omega)) (.inr hinside)⟩
    rw [hl.1, Transfer.log, List.length_append] at hlen'
    omega
  · by_cases hpages : userPages user src.length = 0
    · have hnone : ∀ i < userPages user src.length, Opens v space (u32 ((user &&& pageMask) + i * 0x1000)) := fun i hi => by
        omega
      obtain ⟨rfl, -⟩ := (inside_of_opens hword hlen hnone).resolve_right hinside
      obtain ⟨hlow, hright⟩ := hreaches t [] (.refl _ t) hnone (.inl rfl)
      rw [hpages, copyPages, wp_pure]
      exact ⟨[], (log_nil t).symm, rfl, hlow, hright⟩
    · refine wp_imp hlogs fun _ u ⟨_, hopens⟩ => ?_
      rcases inside_of_opens hword hlen fun i hi => hopens i (Nat.zero_le i) (by omega) with ⟨-, h0⟩ | hin
      · exact absurd h0 hpages
      · exact absurd hin hinside

end Logs

section Machines

variable {s : Machine} {spaces : List Nat} {tables : Owner} {pd : Nat → Nat} {window : Nat → Option Fault} {loaded : Nat}
  {space user buf count page : Nat} {β : Nat → Nat}

def viewOf (ht : Tree s spaces tables) (hpd : ∀ space, pd space ∈ spaces) (window : Nat → Option Fault) (loaded : Nat) :
    View where
  page space a := if a < 4294967296 then (translation s (pd space) a).map Prod.snd else none
  window := window
  loaded := loaded
  top space a h := by
    unfold tableInfoBase at h
    split
    · rw [translation, show a / 4194304 = 1023 by omega, slotAt_last ht (hpd space)]
      rfl
    · rfl

variable {ht : Tree s spaces tables} {hpd : ∀ space, pd space ∈ spaces}

theorem Opens.translation (h : Opens (viewOf ht hpd window loaded) space page) :
    ∃ p f, translation s (pd space) page = some (p, f) ∧ f / 128 % 2 = 0 := by
  have hlt := h.lt
  have hsmall := h.1
  unfold tableInfoBase at hlt
  rw [viewOf] at hsmall
  dsimp only at hsmall
  rw [if_pos (by omega)] at hsmall
  cases htr : Paging.translation s (pd space) page with
  | none =>
    rw [htr] at hsmall
    cases hsmall
  | some pf =>
    rw [htr] at hsmall
    exact ⟨pf.1, pf.2, rfl, (not_huge_flag_iff pf.2).mp (by simpa using hsmall)⟩

theorem Reaches.userRange (h : Reaches (viewOf ht hpd window loaded) space user count) (hlow : 0x400000 ≤ user)
    (hhigh : user + count ≤ kernelVirtBase)
    (hapart : ∀ k < count, ∀ p f, translation s (pd space) (user + k) = some (p, f) → ¬InPaging s p) :
    ∃ φ, UserRange s (pd space) user count φ := by
  have hmaps : ∀ k < count, ∃ p f, translation s (pd space) (user + k) = some (p, f) ∧ f / 128 % 2 = 0 := by
    intro k hk
    have hhigh' : user + count ≤ 3221225472 := hhigh
    have hi : (user + k) / 4096 - user / 4096 < userPages user count := by
      rw [userPages_eq (by omega) (by omega)]
      omega
    have hopen := h.2.1 _ hi
    have hpage : u32 ((user &&& pageMask) + ((user + k) / 4096 - user / 4096) * 0x1000) = (user + k) / 4096 * 4096 := by
      rw [and_pageMask (by omega), u32_of_lt (by omega)]
      omega
    rw [hpage] at hopen
    obtain ⟨p, f, htr, hsmall⟩ := hopen.translation
    obtain ⟨hoff, -⟩ := translation_page (Nat.mul_mod_left _ _) (Nat.mod_lt (user + k) (by decide : 0 < 4096)) htr
    rw [Nat.div_add_mod'] at hoff
    exact ⟨_, f, hoff, hsmall⟩
  refine ⟨fun k => ((translation s (pd space) (user + k)).map Prod.fst).getD 0, hlow, hhigh, fun k hk => ?_, fun k hk => ?_⟩
  · obtain ⟨p, f, htr, hsmall⟩ := hmaps k hk
    exact ⟨f, by rw [htr]; rfl, hsmall⟩
  · obtain ⟨p, f, htr, -⟩ := hmaps k hk
    rw [htr]
    exact hapart k hk p f htr

/-- With `mm_kernel` loaded the bytes arrive in the frames of the task, on the machine. -/
theorem Reaches.copied (h : Reaches (viewOf ht hpd window loaded) space user count) (hs : Ready spaces s)
    (hload : s.cr3 = physOf s s.mmKernel) (hcount : 0 < count) (hlow : 0x400000 ≤ user)
    (hhigh : user + count ≤ kernelVirtBase) (hb : KernelBytes s buf count β)
    (hapart : ∀ k < count, ∀ p f, translation s (pd space) (user + k) = some (p, f) → ¬InPaging s p ∧ ∀ i < count, β i ≠ p) :
    ∃ φ, UserRange s (pd space) user count φ ∧
      wp (memcpyKernelToUser (pd space) user buf count) noFault (fun r t => r = 0 ∧ Copied s t φ β count) s := by
  obtain ⟨φ, hr⟩ := h.userRange hlow hhigh fun k hk p f htr => (hapart k hk p f htr).1
  refine ⟨φ, hr, wp_memcpyKernelToUser hs (hpd space) hload hcount hr hb fun i hi j hj => ?_⟩
  obtain ⟨f, htr, -⟩ := hr.maps j hj
  exact (hapart j hj _ f htr).2 i hi

/-- The machine opens no page that the view does not map as a small one. -/
theorem wp_openWindow_machine (hpage : page < 4294967296) : wp (Paging.openWindow (pd space) page) anyFault (fun _ _ =>
    (((viewOf ht hpd window loaded).page space page).any fun flags => flags &&& mmFlgPs == 0) = true) s := by
  rw [Paging.openWindow, wp_bind, wp_mmTranslate ht (hpd space) hpage, viewOf]
  dsimp only
  rw [if_pos hpage]
  cases translation s (pd space) page with
  | none =>
    rw [wp_bind, wp_kassert]
    exact ⟨fun hh => absurd rfl (of_decide_eq_true hh), fun _ => trivial⟩
  | some pf =>
    rw [wp_bind, wp_kassert]
    refine ⟨fun _ => ?_, fun _ => trivial⟩
    rw [wp_bind, wp_kassert]
    refine ⟨fun hps => ?_, fun _ => trivial⟩
    have hany : ((some pf).map Prod.snd).any (fun flags => flags &&& mmFlgPs == 0) = true := by
      exact (beq_iff_eq (a := pf.2 &&& mmFlgPs)).mpr (of_decide_eq_true hps)
    exact wp_imp (wp_anyFault _ s) fun _ _ _ => hany

end Machines

end YggKernel.Transfers
