import YggKernel.Paging.Brackets

namespace YggKernel.Paging

open Lib.Program Lib.ByteMemory Lib.BitWords Lib.Masks Phys Pool

def memcpy (dst src n : Nat) : Prog Fault Machine Unit := do
  let bytes ← readBytes src n
  writeBytes dst bytes

/-- `mm_memcpy_user_to_kernel` with the kernel's bytes in memory. -/
def memcpyUserToKernel (pd dst src count : Nat) : Prog Fault Machine Int := do
  copyPages (fun user copied size _ => memcpy (u32 (dst + copied)) user size) pd src count 0 (userPages src count) 0 ()
  return 0

/-- `mm_memcpy_kernel_to_user` with the kernel's bytes in memory. -/
def memcpyKernelToUser (pd dst src count : Nat) : Prog Fault Machine Int := do
  copyPages (fun user copied size _ => memcpy user (u32 (src + copied)) size) pd dst count 0 (userPages dst count) 0 ()
  return 0

/-- Accesses to the addresses from `v` on go to physical addresses one by one, whatever is stored outside
of the paging structures. -/
def Leads (s : Machine) (v : Nat) (φ : Nat → Nat) (count : Nat) : Prop :=
  ∀ m : Mem, (∀ x, InPaging s x → m x = s.mem x) → ∀ i < count, resolve { s with mem := m } (v + i) = some (φ i)

section Leads

variable {s : Machine} {v count k : Nat} {φ : Nat → Nat} {E : Fault → Prop}

theorem Leads.store {m : Mem} (h : Leads s v φ count) (hm : ∀ x, InPaging s x → m x = s.mem x) :
    Leads { s with mem := m } v φ count :=
  fun m' hm' => h m' fun x hx => (hm' x hx).trans (hm x hx)

theorem Leads.shift {n : Nat} (h : Leads s v φ count) (hn : k + n ≤ count) : Leads s (v + k) (fun i => φ (k + i)) n := by
  intro m hm i hi
  rw [Nat.add_assoc]
  exact h m hm (k + i) (by omega)

theorem wp_readLeads {Q : List (BitVec 8) → Machine → Prop} (hr : Leads s v φ count) (hv : v + count ≤ 4294967296) :
    wp (readBytes v count) E Q s ↔ Q (gather s.mem φ count) s := by
  induction count generalizing v φ Q with
  | zero => rfl
  | succ n ih =>
    have hhead := hr s.mem (fun _ _ => rfl) 0 (by omega)
    have htail := hr.shift (k := 1) (show 1 + n ≤ n + 1 by omega)
    have hφ : (fun i => φ (1 + i)) = fun i => φ (i + 1) := funext fun i => congrArg φ (Nat.add_comm 1 i)
    rw [hφ] at htail
    rw [Nat.add_zero] at hhead
    simp only [readBytes, wp_bind, access, wp_get, hhead, wp_pure]
    by_cases hn : n = 0
    · subst hn
      rw [readBytes, wp_pure]
      rfl
    · rw [u32_of_lt (by omega), ih htail (by omega), gather_succ]

theorem wp_writeLeads {Q : Unit → Machine → Prop} {bytes : List (BitVec 8)} (hr : Leads s v φ bytes.length)
    (hv : v + bytes.length ≤ 4294967296) (hapart : ∀ i < bytes.length, ¬InPaging s (φ i)) :
    wp (writeBytes v bytes) E Q s ↔ Q () { s with mem := scatter s.mem φ bytes } := by
  induction bytes generalizing s v φ with
  | nil => rfl
  | cons b bytes ih =>
    rw [List.length_cons] at hr hv hapart
    have hhead := hr s.mem (fun _ _ => rfl) 0 (by omega)
    have hkeep : ∀ x, InPaging s x → store8 s.mem (φ 0) b x = s.mem x := fun x hx =>
      store8_apply_ne b fun hxa => hapart 0 (by omega) (by rwa [← hxa])
    have htail := (hr.shift (k := 1) (show 1 + bytes.length ≤ bytes.length + 1 by omega)).store hkeep
    have hφ : (fun i => φ (1 + i)) = fun i => φ (i + 1) := funext fun i => congrArg φ (Nat.add_comm 1 i)
    rw [hφ] at htail
    rw [Nat.add_zero] at hhead
    simp only [writeBytes, wp_bind, access, wp_get, hhead, wp_pure, wp_modify]
    by_cases hnil : bytes = []
    · subst hnil
      rfl
    have hpos : 0 < bytes.length := List.length_pos_iff.mpr hnil
    rw [u32_of_lt (by omega), ih htail (by omega) fun i hi => hapart (i + 1) (by omega)]
    rfl

theorem wp_memcpy {dst src : Nat} {ψ : Nat → Nat} {Q : Unit → Machine → Prop} (hsrc : Leads s src ψ count)
    (hdst : Leads s dst φ count) (hs : src + count ≤ 4294967296) (hd : dst + count ≤ 4294967296)
    (hapart : ∀ i < count, ¬InPaging s (φ i)) :
    wp (memcpy dst src count) E Q s ↔ Q () { s with mem := scatter s.mem φ (gather s.mem ψ count) } := by
  rw [memcpy, wp_bind, wp_readLeads hsrc hs]
  refine wp_writeLeads ?_ ?_ ?_
  · rwa [length_gather]
  · rwa [length_gather]
  · rwa [length_gather]

end Leads

/-- A range of user space whose pages a space maps. Byte `k` of it lies at the physical address `φ k`. -/
structure UserRange (s : Machine) (pd user count : Nat) (φ : Nat → Nat) : Prop where
  low : 0x400000 ≤ user
  high : user + count ≤ kernelVirtBase
  maps : ∀ k < count, ∃ f, translation s pd (user + k) = some (φ k, f) ∧ f / 128 % 2 = 0
  apart : ∀ k < count, ¬InPaging s (φ k)

/-- Bytes of the kernel that `mm_kernel` leads to, in physical memory at the addresses `β`. -/
structure KernelBytes (s : Machine) (buf count : Nat) (β : Nat → Nat) : Prop where
  low : kernelVirtBase ≤ buf
  high : buf + count ≤ 4294967296
  leads : ∀ k < count, resolve s (buf + k) = some (β k)
  apart : ∀ k < count, ¬InPaging s (β k)

section Rounds

variable {s t : Machine} {spaces : List Nat} {owner : Owner} {pd user count i page p : Nat} {φ β : Nat → Nat}

theorem resolve_loaded (ht : Tree s spaces owner) (hpd : pd ∈ spaces) (hload : s.cr3 = physOf s pd) {v : Nat}
    (hv : v < 4294967296) : resolve s v = (linear s v).or ((translation s pd v).map Prod.fst) := by
  unfold resolve
  rw [hload, mmuWalk_eq ht hpd hv]
  cases linear s v <;> rfl

theorem Framed.linear_eq (hf : Framed s t) (hg : Geometry s) (hg' : Geometry t) (v : Nat) : linear t v = linear s v := by
  rw [Paging.linear_eq hg, Paging.linear_eq hg', hf.physOf_eq]

theorem Opened.leads (ho : Opened spaces s t page p) (ht : Tree s spaces owner) (hpd : pd ∈ spaces)
    (hload : s.cr3 = physOf s pd) (hpage : page < kernelVirtBase) {buf : Nat} (hb : KernelBytes s buf count β) :
    Leads t buf β count := by
  intro m hm k hk
  obtain ⟨owner', ht'⟩ := ho.tree
  have hpoked := ht'.poke hm
  have hlow := hb.low
  have hhigh := hb.high
  have hpage' : page < 3221225472 := hpage
  have hlow' : 3221225472 ≤ buf := hlow
  have hload' : t.cr3 = physOf t pd := by rw [ho.framed.cr3, ho.framed.physOf_eq, hload]
  have hlinear : linear { t with mem := m } (buf + k) = linear s (buf + k) := ho.framed.linear_eq ht.geometry ht'.geometry _
  rw [resolve_loaded hpoked hpd hload' (by omega), hlinear, translation_poke ht' hm hpd (by omega),
    ho.others pd hpd (buf + k) (by omega) (by omega), ← resolve_loaded ht hpd hload (by omega)]
  exact hb.leads k hk

theorem Opened.window_leads (ho : Opened spaces s t page p) (hload : s.cr3 = physOf s s.mmKernel) (hpage : page % 4096 = 0)
    (hhigh : page + 4096 ≤ kernelVirtBase) {first n : Nat} (hle : first + n ≤ 4096) :
    Leads t (page + first) (fun k => p + first + k) n := by
  obtain ⟨owner', ht'⟩ := ho.tree
  obtain ⟨f, hwindow⟩ := ho.window
  have hload' : t.cr3 = physOf t t.mmKernel := by rw [ho.framed.cr3, ho.framed.physOf_eq, ho.framed.mmKernel, hload]
  rw [← ho.framed.mmKernel] at hwindow
  exact reaches_page ht' hload' hwindow hpage hhigh hle

/-- The place of one part of a user range: so many bytes are before it. -/
def partStart (user i : Nat) : Nat := 4096 * i - user % 4096

theorem partStart_zero (user : Nat) : partStart user 0 = 0 := Nat.zero_sub _

theorem partStart_page (user i : Nat) : (user + partStart user i) / 4096 * 4096 = user / 4096 * 4096 + 4096 * i := by
  unfold partStart
  omega

theorem translation_floor {a f : Nat} (h : translation s pd a = some (p, f)) (hf : f / 128 % 2 = 0) :
    translation s pd (a / 4096 * 4096) = some (p / 4096 * 4096, f) := by
  obtain ⟨e, he, hodd, hp, hflags, hslot, hentry⟩ := translation_small h hf
  have hk : a / 4096 * 4096 / 4194304 = a / 4194304 := by omega
  have hj : a / 4096 * 4096 / 4096 % 1024 = a / 4096 % 1024 := by omega
  have hoff : a / 4096 * 4096 % 4096 = 0 := Nat.mul_mod_left _ _
  have hpage : p / 4096 * 4096 = e / 4096 * 4096 := by omega
  rw [translation_table hslot hk hj, hentry, leaf_eq he hodd, hoff, ← hflags, hpage, Nat.add_zero]

/-- The pages of a range, also of one that goes on at the start of memory. -/
theorem userPages_eq (huser : user < 4294967296) (hcount : user % 4096 + count + 4095 < 4294967296) :
    userPages user count = (user % 4096 + count + 4095) / 4096 := by
  unfold userPages alignUpPage
  rw [and_pageMask (u32_lt _), and_pageMask huser]
  unfold u32 sub32
  omega

section Part

section Place

variable (hhigh : user + count < 4294967296) (hi : 4096 * i < user % 4096 + count)
include hhigh hi

theorem pageAt_eq : u32 ((user &&& pageMask) + i * 0x1000) = user / 4096 * 4096 + 4096 * i := by
  rw [and_pageMask (by omega), u32_of_lt (by omega), Nat.mul_comm i]

theorem userPart_eq : userPart user count (user / 4096 * 4096 + 4096 * i) =
    (user + partStart user i - (user / 4096 * 4096 + 4096 * i),
      min (user % 4096 + count - 4096 * i) 4096) := by
  unfold partStart
  have hend : sub32 (u32 (user + count)) (user / 4096 * 4096 + 4096 * i) = user % 4096 + count - 4096 * i := by
    rw [u32_of_lt (by omega), sub32_of_le (by omega) (by omega)]
    omega
  unfold userPart
  rw [hend]
  refine Prod.ext ?_ ?_
  · dsimp only
    split
    · rw [sub32_of_le (by omega) (by omega)]
      omega
    · omega
  · dsimp only
    split <;> omega

end Place

/-- Where a part lies in the window, and how long it is. It is empty only when the whole range is. -/
theorem part_size (hi : 4096 * i < user % 4096 + count) :
    user / 4096 * 4096 + 4096 * i + (user + partStart user i - (user / 4096 * 4096 + 4096 * i)) =
      user + partStart user i ∧
    min (user % 4096 + count - 4096 * i) 4096 - (user + partStart user i - (user / 4096 * 4096 + 4096 * i)) =
      min count (partStart user (i + 1)) - partStart user i ∧
    user + partStart user i - (user / 4096 * 4096 + 4096 * i) ≤ min (user % 4096 + count - 4096 * i) 4096 ∧
    partStart user i ≤ min count (partStart user (i + 1)) := by
  unfold partStart
  omega

variable (hi : partStart user i < count)
include hi

theorem part_inside : 4096 * i < user % 4096 + count := by
  unfold partStart at hi
  omega

theorem part_nonempty : user + partStart user i - (user / 4096 * 4096 + 4096 * i) <
      min (user % 4096 + count - 4096 * i) 4096 := by
  unfold partStart at hi ⊢
  omega

end Part

theorem UserRange.frame (hr : UserRange s pd user count φ) {c : Nat} (hc : c < count) :
    ∃ p f, translation s pd ((user + c) / 4096 * 4096) = some (p, f) ∧ f / 128 % 2 = 0 ∧
      ∀ k, c + k < count → (user + c) % 4096 + k < 4096 → φ (c + k) = p + (user + c) % 4096 + k := by
  obtain ⟨f, htr, hsmall⟩ := hr.maps c hc
  have hfloor := translation_floor htr hsmall
  refine ⟨_, f, hfloor, hsmall, fun k hk hlt => ?_⟩
  obtain ⟨f', htr', -⟩ := hr.maps (c + k) hk
  obtain ⟨hpage, -⟩ := translation_page (Nat.mul_mod_left _ _) hlt hfloor
  have haddr : (user + c) / 4096 * 4096 + ((user + c) % 4096 + k) = user + (c + k) := by omega
  rw [haddr, htr'] at hpage
  have hφ : φ (c + k) = φ c / 4096 * 4096 + ((user + c) % 4096 + k) := congrArg Prod.fst (Option.some.inj hpage)
  rw [hφ, Nat.add_assoc]

/-- One round of a loop over the pages of a user range whose first bytes are mapped. -/
theorem wp_userRound {α γ : Type} {E : Fault → Prop} {b : Nat → Nat → Nat → Prog Fault Machine α}
    {g : Nat → Nat → α → Prog Fault Machine γ} {Q : γ → Machine → Prop} {n : Nat} (hr : UserRange s pd user n φ)
    (hle : n ≤ count) (hhigh : user + count ≤ kernelVirtBase) (hi : partStart user i < n) (hs : Ready spaces s)
    (hpd : pd ∈ spaces) (hload : s.cr3 = physOf s s.mmKernel)
    (hbody : ∀ t page p first last, Opened spaces s t page p → page + first = user + partStart user i → first < last →
      last ≤ 4096 → page + 4096 ≤ kernelVirtBase → partStart user i + (last - first) = min count (partStart user (i + 1)) →
      Leads t (user + partStart user i) (fun k => φ (partStart user i + k)) (min (last - first) (n - partStart user i)) →
      wp (b page first last) E (fun a u => ∃ m : Mem, u = { t with mem := m } ∧
        (∀ x, InPaging s x → m x = t.mem x) ∧
        ∀ u', Restored s u' → (∀ x, ¬InPaging s x → u'.mem x = m x) → wp (g first last a) E Q u') t) :
    wp (do
      let page := u32 ((user &&& pageMask) + i * 0x1000)
      let (userStart, userEnd) := userPart user count page
      openWindow pd page
      let a ← b page userStart userEnd
      closeWindow page
      g userStart userEnd a) E Q s := by
  have htop : user + count ≤ 3221225472 := hhigh
  have hlow := hr.low
  obtain ⟨p, f, htr, hsmall, hφ⟩ := hr.frame hi
  have hinside := part_inside (hi.trans_le hle)
  obtain ⟨hv, hsize, -, hnext⟩ := part_size hinside
  have hlt := part_nonempty (hi.trans_le hle)
  have hpage := partStart_page user i
  rw [hpage] at htr
  rw [pageAt_eq (by omega) hinside]
  dsimp only
  rw [userPart_eq (by omega) hinside]
  dsimp only
  have hlow' : 0x400000 ≤ user / 4096 * 4096 + 4096 * i := by omega
  have hhigh' : user / 4096 * 4096 + 4096 * i + 4096 ≤ kernelVirtBase := by
    unfold kernelVirtBase
    omega
  have hfit : (user + partStart user i) % 4096 + (min count (partStart user (i + 1)) - partStart user i) ≤ 4096 := by
    unfold partStart
    omega
  refine wp_window hs hpd (by omega) hlow' hhigh' htr hsmall fun t ho => ?_
  refine hbody t _ p _ _ ho hv hlt (Nat.min_le_right _ _) hhigh' (by omega) ?_
  rw [hsize]
  have hwindow := ho.window_leads hload (by omega) hhigh' hfit
  have haddr : user / 4096 * 4096 + 4096 * i + (user + partStart user i) % 4096 = user + partStart user i := by
    rw [← hpage]
    exact Nat.div_add_mod' _ _
  rw [haddr] at hwindow
  intro m hm k hk
  have hin : partStart user i + k < n ∧ (user + partStart user i) % 4096 + k < 4096 := by omega
  have hphys : φ (partStart user i + k) = p + (user + partStart user i) % 4096 + k := hφ k hin.1 hin.2
  dsimp only
  rw [hphys]
  exact hwindow m hm k (by omega)

theorem partStart_lt (hr : UserRange s pd user count φ) (hcount : 0 < count) (hi : i < userPages user count) :
    partStart user i < count := by
  have hhigh : user + count ≤ 3221225472 := hr.high
  rw [userPages_eq (by omega) (by omega)] at hi
  unfold partStart
  omega

theorem partStart_last (hr : UserRange s pd user count φ) : count ≤ partStart user (userPages user count) := by
  have hhigh : user + count ≤ 3221225472 := hr.high
  rw [userPages_eq (by omega) (by omega)]
  unfold partStart
  omega

theorem Restored.linear_eq (h : Restored s t) (hg : Geometry s) (v : Nat) : linear t v = linear s v := by
  rw [Paging.linear_eq hg, Paging.linear_eq (h.geometry hg), h.physOf_eq]

theorem Restored.loaded (h : Restored s t) (hload : s.cr3 = physOf s s.mmKernel) : t.cr3 = physOf t t.mmKernel := by
  rw [h.cr3, h.mmKernel, h.physOf_eq, hload]

theorem Restored.userRange (h : Restored s t) (ht : Tree s spaces owner) (hpd : pd ∈ spaces)
    (hr : UserRange s pd user count φ) : UserRange t pd user count φ := by
  have hhigh : user + count ≤ 3221225472 := hr.high
  refine ⟨hr.low, hr.high, fun k hk => ?_, fun k hk hin => hr.apart k hk ((h.inPaging_iff _).mp hin)⟩
  rw [h.translation_eq ht hpd (by omega)]
  exact hr.maps k hk

theorem Restored.kernelBytes (h : Restored s t) (ht : Tree s spaces owner) (hload : s.cr3 = physOf s s.mmKernel)
    {buf : Nat} (hb : KernelBytes s buf count β) : KernelBytes t buf count β := by
  have hhigh := hb.high
  refine ⟨hb.low, hb.high, fun k hk => ?_, fun k hk hin => hb.apart k hk ((h.inPaging_iff _).mp hin)⟩
  rw [resolve_loaded (h.tree ht) (h.mmKernel ▸ ht.kernel) (h.loaded hload) (by omega), h.linear_eq ht.geometry, h.mmKernel,
    h.translation_eq ht ht.kernel (by omega), ← resolve_loaded ht ht.kernel hload (by omega)]
  exact hb.leads k hk

theorem UserRange.shorten {n : Nat} (hr : UserRange s pd user count φ) (hle : n ≤ count) : UserRange s pd user n φ := by
  have hhigh := hr.high
  exact ⟨hr.low, by omega, fun k hk => hr.maps k (by omega), fun k hk => hr.apart k (by omega)⟩

theorem KernelBytes.shorten {n buf : Nat} (hb : KernelBytes s buf count β) (hle : n ≤ count) : KernelBytes s buf n β := by
  have hhigh := hb.high
  exact ⟨hb.low, by omega, fun k hk => hb.leads k (by omega), fun k hk => hb.apart k (by omega)⟩

theorem KernelBytes.reached {buf : Nat} (hb : KernelBytes s buf count β) (ht : Tree s spaces owner)
    (hload : s.cr3 = physOf s s.mmKernel) : Leads s buf β count := by
  have hhigh := hb.high
  intro m hm k hk
  have hlinear : linear { s with mem := m } (buf + k) = linear s (buf + k) := rfl
  rw [resolve_loaded (ht.poke hm) ht.kernel hload (by omega), translation_poke ht hm ht.kernel (by omega), hlinear,
    ← resolve_loaded ht ht.kernel hload (by omega)]
  exact hb.leads k hk

end Rounds

structure Copied (s t : Machine) (δ σ : Nat → Nat) (c : Nat) : Prop where
  restored : Restored s t
  mem : ∀ x, ¬InPaging s x → t.mem x = scatter s.mem δ (gather s.mem σ c) x

section Copied

variable {s t r u : Machine} {spaces : List Nat} {pd user count c size : Nat} {φ σ δ : Nat → Nat} {E : Fault → Prop}

theorem Copied.refl (hg : Geometry s) : Copied s s δ σ 0 := ⟨.refl hg, fun _ _ => rfl⟩

variable (hσ : ∀ i < count, ¬InPaging s (σ i)) (hapart : ∀ i < count, ∀ j < count, σ i ≠ δ j)
include hσ hapart

theorem Copied.step (h : Copied s r δ σ c) (hle : c + size ≤ count) (hu : Restored r u)
    (hm : ∀ x, ¬InPaging r x → u.mem x = scatter r.mem (fun k => δ (c + k)) (gather r.mem (fun k => σ (c + k)) size) x) :
    Copied s u δ σ (c + size) := by
  refine ⟨h.restored.trans hu, fun x hx => ?_⟩
  have hbytes : gather r.mem (fun k => σ (c + k)) size = gather s.mem (fun k => σ (c + k)) size :=
    gather_congr fun k hk => by
      rw [h.mem _ (hσ (c + k) (by omega)), scatter_outside]
      intro j hj
      rw [length_gather] at hj
      exact hapart _ (by omega) j (by omega)
  rw [hm x fun hin => hx ((h.restored.inPaging_iff x).mp hin), hbytes, scatter_apply_congr (h.mem x hx), gather_add,
    scatter_append, length_gather]

theorem wp_copyPages {g : Nat → Nat → Nat → Prog Fault Machine Unit} (hr : UserRange s pd user count φ)
    (hcount : 0 < count) (hs : Ready spaces s) (hpd : pd ∈ spaces) (hload : s.cr3 = physOf s s.mmKernel)
    (hδ : ∀ i < count, ¬InPaging s (δ i))
    (hmove : ∀ r t page p c size, ∀ Q : Unit → Machine → Prop, Restored s r → Opened spaces r t page p →
      page < kernelVirtBase → 0 < size → c + size ≤ count → Leads t (user + c) (fun k => φ (c + k)) size →
      Q () { t with mem := scatter t.mem (fun k => δ (c + k)) (gather t.mem (fun k => σ (c + k)) size) } →
      wp (g (user + c) c size) E Q t) (n : Nat) :
    ∀ i r, i + n = userPages user count → Copied s r δ σ (min count (partStart user i)) →
      wp (copyPages (fun v c size _ => g v c size) pd user count i n (min count (partStart user i)) ()) E (fun _ t => Copied s t δ σ count) r := by
  obtain ⟨owner, ht⟩ := hs.tree
  induction n with
  | zero =>
    intro i r hi hc
    rw [Nat.add_zero] at hi
    have hlast := partStart_last hr
    rw [← hi] at hlast
    rw [Nat.min_eq_left hlast] at hc ⊢
    exact hc
  | succ n ih =>
    intro i r hi hc
    have hlt := partStart_lt hr hcount (show i < userPages user count by omega)
    have hmin : min count (partStart user i) = partStart user i := Nat.min_eq_right hlt.le
    rw [hmin] at hc ⊢
    have hrest := hc.restored
    refine wp_userRound (b := fun page first last => g (u32 (page + first)) (partStart user i) (sub32 last first))
      (g := fun first last acc =>
        copyPages (fun v c size _ => g v c size) pd user count (i + 1) n (u32 (partStart user i + sub32 last first)) acc)
      (hrest.userRange ht hpd hr) le_rfl hr.high hlt (hrest.ready hs) hpd (hrest.loaded hload)
      fun t page p first last ho hv hfirst hlast hpage hsize hwindow => ?_
    have hhigh : user + count ≤ 3221225472 := hr.high
    have hle : partStart user i + (last - first) ≤ count := by omega
    have hmin : min (last - first) (count - partStart user i) = last - first := by omega
    rw [hmin] at hwindow
    rw [hv, u32_of_lt (show user + partStart user i < 4294967296 by omega), sub32_of_le (by omega) hfirst.le]
    refine hmove r t page p _ (last - first) _ hrest ho (by omega) (by omega) hle hwindow
      ⟨_, rfl, fun x hx => ?_, fun u hu hmem => ?_⟩
    · refine scatter_outside fun k hk => ?_
      rw [length_gather] at hk
      rintro rfl
      exact hδ _ (by omega) ((hrest.inPaging_iff _).mp hx)
    · rw [u32_of_lt (show partStart user i + (last - first) < 4294967296 by omega), hsize]
      refine ih (i + 1) u (by omega) ?_
      rw [← hsize]
      refine hc.step hσ hapart hle hu fun x hx => ?_
      have hframe := ho.framed.mem
      rw [hmem x hx, scatter_apply_congr (hframe x hx)]
      refine congrArg (fun bytes => scatter r.mem _ bytes x) (gather_congr fun k hk => ?_)
      exact hframe _ fun hin => hσ _ (by omega) ((hrest.inPaging_iff _).mp hin)

end Copied

section Memcpy

variable {s t : Machine} {spaces : List Nat} {pd user buf count : Nat} {φ β : Nat → Nat}

def DistinctFrames (user count : Nat) (φ : Nat → Nat) : Prop :=
  ∀ i < count, ∀ j < count, φ i / 4096 = φ j / 4096 → (user + i) / 4096 = (user + j) / 4096

theorem UserRange.inj (hr : UserRange s pd user count φ) (hframes : DistinctFrames user count φ) {i j : Nat}
    (hi : i < count) (hj : j < count) (heq : φ i = φ j) : i = j := by
  have hoffset : ∀ k < count, φ k % 4096 = (user + k) % 4096 := fun k hk => by
    obtain ⟨f, htr, hsmall⟩ := hr.maps k hk
    obtain ⟨e, _, _, hphys, _⟩ := translation_small htr hsmall
    omega
  have hpage := hframes i hi j hj (by rw [heq])
  have hoff : (user + i) % 4096 = (user + j) % 4096 := by rw [← hoffset i hi, ← hoffset j hj, heq]
  omega

section Calls

variable {E : Fault → Prop} (hs : Ready spaces s) (hpd : pd ∈ spaces) (hload : s.cr3 = physOf s s.mmKernel)
  (hcount : 0 < count) (hr : UserRange s pd user count φ) (hb : KernelBytes s buf count β)
include hs hpd hload hcount hr hb

theorem wp_memcpyUserToKernel (hapart : ∀ i < count, ∀ j < count, φ i ≠ β j) :
    wp (memcpyUserToKernel pd buf user count) E (fun r t => r = 0 ∧ Copied s t β φ count) s := by
  obtain ⟨owner, ht⟩ := hs.tree
  have hhigh := hb.high
  have huser : user + count ≤ 3221225472 := hr.high
  have hloop := wp_copyPages (E := E) (g := fun user copied size => memcpy (u32 (buf + copied)) user size) hr.apart
    hapart hr hcount hs hpd hload hb.apart
    (fun r t page p c size Q hrest ho hpage hsize hle hwindow hQ => by
      have hkernel := ho.leads (hrest.tree ht) (hrest.mmKernel ▸ ht.kernel) (hrest.loaded hload) hpage
        (hrest.kernelBytes ht hload hb)
      rw [u32_of_lt (by omega)]
      refine (wp_memcpy hwindow (hkernel.shift hle) (by omega) (by omega) fun i hi hin => ?_).mpr hQ
      exact hb.apart _ (by omega) ((hrest.inPaging_iff _).mp ((ho.framed.inPaging_iff _).mp hin)))
    (userPages user count) 0 s (Nat.zero_add _)
  rw [partStart_zero, Nat.min_zero] at hloop
  rw [memcpyUserToKernel, wp_bind]
  exact wp_imp (hloop (.refl ht.geometry)) fun _ t hc => ⟨rfl, hc⟩

theorem wp_memcpyKernelToUser (hapart : ∀ i < count, ∀ j < count, β i ≠ φ j) :
    wp (memcpyKernelToUser pd user buf count) E (fun r t => r = 0 ∧ Copied s t φ β count) s := by
  obtain ⟨owner, ht⟩ := hs.tree
  have hhigh := hb.high
  have huser : user + count ≤ 3221225472 := hr.high
  have hloop := wp_copyPages (E := E) (g := fun user copied size => memcpy user (u32 (buf + copied)) size) hb.apart
    hapart hr hcount hs hpd hload hr.apart
    (fun r t page p c size Q hrest ho hpage hsize hle hwindow hQ => by
      have hkernel := ho.leads (hrest.tree ht) (hrest.mmKernel ▸ ht.kernel) (hrest.loaded hload) hpage
        (hrest.kernelBytes ht hload hb)
      rw [u32_of_lt (by omega)]
      refine (wp_memcpy (hkernel.shift hle) hwindow (by omega) (by omega) fun i hi hin => ?_).mpr hQ
      exact hr.apart _ (by omega) ((hrest.inPaging_iff _).mp ((ho.framed.inPaging_iff _).mp hin)))
    (userPages user count) 0 s (Nat.zero_add _)
  rw [partStart_zero, Nat.min_zero] at hloop
  rw [memcpyKernelToUser, wp_bind]
  exact wp_imp (hloop (.refl ht.geometry)) fun _ t hc => ⟨rfl, hc⟩

end Calls

/-- The directory and the table counts of `mm_kernel`, all translations and the bitmaps of the pools. -/
structure KernelKept (spaces : List Nat) (s t : Machine) : Prop where
  directory : t.mmKernel = s.mmKernel ∧ ∀ i < 1024, word t s.mmKernel i = word s s.mmKernel i
  counts : ∀ k < 1024, slotInfo t s.mmKernel k = slotInfo s s.mmKernel k
  translations : ∀ pd' ∈ spaces, ∀ a < 4294967296, translation t pd' a = translation s pd' a
  bitmaps : ∀ i n, bit (t.pools i).bitmap n = bit (s.pools i).bitmap n

theorem Restored.kernelKept (h : Restored s t) (hs : Ready spaces s) : KernelKept spaces s t := by
  obtain ⟨owner, ht⟩ := hs.tree
  refine ⟨⟨h.mmKernel, fun i hi => h.word_eq ht (ht.spaces _ ht.kernel).directory hi⟩,
    fun k hk => h.slotInfo_eq ht ht.kernel hk, fun pd' hpd' a ha => h.translation_eq ht hpd' ha, fun i n => ?_⟩
  cases i with
  | zero => exact h.bits n
  | succ i => rw [h.rest (i + 1) (Nat.succ_pos i)]

theorem Copied.arrived {δ σ : Nat → Nat} {c : Nat} (h : Copied s t δ σ c) (hδ : ∀ i < c, ¬InPaging s (δ i))
    (hinj : ∀ i < c, ∀ j < c, δ i = δ j → i = j) {k : Nat} (hk : k < c) : t.mem (δ k) = s.mem (σ k) := by
  rw [h.mem _ (hδ k hk)]
  have hlen : (gather s.mem σ c).length = c := length_gather ..
  rw [scatter_at (by rwa [hlen]) (by rwa [hlen]), getD_gather hk]

theorem Copied.elsewhere {δ σ : Nat → Nat} {c x : Nat} (h : Copied s t δ σ c) (hx : ¬InPaging s x)
    (hout : ∀ k < c, x ≠ δ k) : t.mem x = s.mem x := by
  rw [h.mem x hx]
  refine scatter_outside fun k hk => hout k ?_
  rwa [length_gather] at hk

/-- With `mm_kernel` loaded the user copies are flat copies. -/
theorem user_copies_flat (hs : Ready spaces s) (hpd : pd ∈ spaces) (hload : s.cr3 = physOf s s.mmKernel)
    (hcount : 0 < count) (hr : UserRange s pd user count φ) (hframes : DistinctFrames user count φ)
    (hb : KernelBytes s buf count β) (hbytes : ∀ i < count, ∀ j < count, β i = β j → i = j)
    (hapart : ∀ i < count, ∀ j < count, φ i ≠ β j) :
    wp (memcpyUserToKernel pd buf user count) noFault (fun r t => r = 0 ∧
        (∀ k < count, t.mem (β k) = s.mem (φ k)) ∧
        (∀ x, ¬InPaging s x → (∀ k < count, x ≠ β k) → t.mem x = s.mem x) ∧ KernelKept spaces s t) s ∧
      wp (memcpyKernelToUser pd user buf count) noFault (fun r t => r = 0 ∧
        (∀ k < count, t.mem (φ k) = s.mem (β k)) ∧
        (∀ x, ¬InPaging s x → (∀ k < count, x ≠ φ k) → t.mem x = s.mem x) ∧ KernelKept spaces s t) s := by
  refine ⟨wp_imp (wp_memcpyUserToKernel hs hpd hload hcount hr hb hapart) ?_,
    wp_imp (wp_memcpyKernelToUser hs hpd hload hcount hr hb fun i hi j hj heq => hapart j hj i hi heq.symm) ?_⟩
  · rintro r t ⟨hret, hc⟩
    exact ⟨hret, fun k hk => hc.arrived hb.apart hbytes hk, fun x hx hout => hc.elsewhere hx hout,
      hc.restored.kernelKept hs⟩
  · rintro r t ⟨hret, hc⟩
    exact ⟨hret, fun k hk => hc.arrived hr.apart (fun i hi j hj => hr.inj hframes hi hj) hk,
      fun x hx hout => hc.elsewhere hx hout, hc.restored.kernelKept hs⟩

/-- The byte at `0x400FFF` lies at the end of the second frame, those behind it at the start of the first. -/
def windowByte (k : Nat) : Nat := if k = 0 then 0x1801FFF else 0x1800000 + (k - 1)

theorem windowMachine_apart (k : Nat) : ¬InPaging windowMachine (windowByte k) := by
  have hchunk : (windowMachine.pools 0).paddr = 0x1400000 := rfl
  have hkernel : windowMachine.mmKernel - kernelVirtBase = 0x200000 := by decide
  unfold InPaging windowByte
  split <;> omega

theorem windowMachine_range {n : Nat} (hn : n ≤ 600) : UserRange windowMachine (poolPage 1) 0x400FFF n windowByte := by
  have hmaps : ∀ k < 600, translation windowMachine (poolPage 1) (0x400FFF + k) = some (windowByte k, 6) := by
    decide +kernel
  refine ⟨by decide, ?_, fun k hk => ⟨6, hmaps k (hk.trans_le hn), rfl⟩, fun k _ => windowMachine_apart k⟩
  unfold kernelVirtBase
  omega

theorem windowMachine_frames : DistinctFrames 0x400FFF 3 windowByte := by
  unfold DistinctFrames
  decide

theorem windowMachine_bytes {n : Nat} (hn : n ≤ 512) : KernelBytes windowMachine 0xC0300000 n (fun k => 0x300000 + k) := by
  have hleads : ∀ k < 512, resolve windowMachine (0xC0300000 + k) = some (0x300000 + k) := by decide +kernel
  refine ⟨by decide, ?_, fun k hk => hleads k (hk.trans_le hn), fun k hk hin => ?_⟩
  · omega
  · have hchunk : (windowMachine.pools 0).paddr = 0x1400000 := rfl
    have hkernel : windowMachine.mmKernel - kernelVirtBase = 0x200000 := by decide
    unfold InPaging at hin
    omega

theorem windowMachine_text : ∀ k < 3, windowMachine.mem (windowByte k) = if k = 0 then 0x41 else if k = 1 then 0x42 else 0 := by
  decide +kernel

theorem user_copies_flat_three : (∃ t, memcpyUserToKernel (poolPage 1) 0xC0300000 0x400FFF 3 windowMachine = .ok (0, t) ∧
      t.mem 0x300000 = 0x41 ∧ t.mem 0x300001 = 0x42 ∧ t.mem 0x300002 = 0) ∧
    ∃ t, memcpyKernelToUser (poolPage 1) 0x400FFF 0xC0300000 3 windowMachine = .ok (0, t) ∧
      t.mem 0x1801FFF = 0 ∧ t.mem 0x1800000 = 0 ∧ t.mem 0x1800001 = 0 := by
  have hclear : ∀ k < 3, windowMachine.mem (0x300000 + k) = 0 := by decide +kernel
  have htext := windowMachine_text
  obtain ⟨hread, hwrite⟩ := user_copies_flat windowMachine_ready (by decide) (by decide) (by decide) (windowMachine_range (by decide))
    windowMachine_frames (windowMachine_bytes (by decide)) (fun i _ j _ h => by omega) (by decide)
  obtain ⟨_, t, hrun, rfl, harrive, _⟩ := run_of_wp hread
  obtain ⟨_, u, hrun', rfl, harrive', _⟩ := run_of_wp hwrite
  refine ⟨⟨t, hrun, ?_, ?_, ?_⟩, u, hrun', ?_, ?_, ?_⟩
  · exact (harrive 0 (by decide)).trans (htext 0 (by decide))
  · exact (harrive 1 (by decide)).trans (htext 1 (by decide))
  · exact (harrive 2 (by decide)).trans (htext 2 (by decide))
  · exact (harrive' 0 (by decide)).trans (hclear 0 (by decide))
  · exact (harrive' 1 (by decide)).trans (hclear 1 (by decide))
  · exact (harrive' 2 (by decide)).trans (hclear 2 (by decide))

end Memcpy

end YggKernel.Paging
