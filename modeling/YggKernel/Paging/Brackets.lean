import YggKernel.Paging.Forking

namespace YggKernel.Paging

open Lib.Program Lib.ByteMemory Lib.BitWords Lib.Masks Phys Pool

/-- The paging structures are as before, but for pages of the pool that are not in use. -/
structure Restored (s t : Machine) : Prop where
  cr3 : t.cr3 = s.cr3
  mmKernel : t.mmKernel = s.mmKernel
  phys : t.phys = s.phys
  paddr : (t.pools 0).paddr = (s.pools 0).paddr
  bits : ∀ n, bit (t.pools 0).bitmap n = bit (s.pools 0).bitmap n
  rest : ∀ i, 0 < i → t.pools i = s.pools i
  first : FirstOnly t.pools
  room : WordLeft (s.pools 0) → WordLeft (t.pools 0)
  words : ∀ v i, IsPage s v → i < 1024 → (∀ n < 1024, v = poolPage n → bit (s.pools 0).bitmap n = true) →
    word t v i = word s v i

section Restored

variable {s t u : Machine} {spaces : List Nat} {owner : Owner} {pd k a : Nat}

theorem Restored.refl (hg : Geometry s) : Restored s s :=
  ⟨rfl, rfl, rfl, rfl, fun _ => rfl, fun _ _ => rfl, hg.pools, id, fun _ _ _ _ _ => rfl⟩

theorem Restored.trans (h : Restored s t) (h' : Restored t u) : Restored s u := by
  refine ⟨h'.cr3.trans h.cr3, h'.mmKernel.trans h.mmKernel, h'.phys.trans h.phys, h'.paddr.trans h.paddr,
    fun n => (h'.bits n).trans (h.bits n), fun i hi => (h'.rest i hi).trans (h.rest i hi), h'.first,
    h'.room ∘ h.room, fun v i hv hi hn => ?_⟩
  have hv' : IsPage t v := by
    unfold IsPage
    rw [h.mmKernel]
    exact hv
  rw [h'.words v i hv' hi fun n hlt hpage => (h.bits n).trans (hn n hlt hpage), h.words v i hv hi hn]

theorem Restored.inPaging_iff (h : Restored s t) (x : Nat) : InPaging t x ↔ InPaging s x := by
  unfold InPaging
  rw [h.mmKernel, h.paddr]

theorem Restored.physOf_eq (h : Restored s t) (v : Nat) : physOf t v = physOf s v := by
  unfold physOf
  rw [h.paddr]

theorem Restored.geometry (h : Restored s t) (hg : Geometry s) : Geometry t := by
  refine ⟨h.first, ?_, ?_, ?_, ?_, ?_⟩
  · rw [h.paddr]
    exact hg.chunk
  · rw [h.paddr]
    exact hg.top
  · rw [h.mmKernel]
    exact hg.aligned
  · rw [h.mmKernel]
    exact hg.low
  · rw [h.mmKernel]
    exact hg.high

theorem Restored.role_iff (h : Restored s t) (v : Nat) (u : Use) : Role t owner v u ↔ Role s owner v u := by
  unfold Role
  rw [h.mmKernel]

variable (ht : Tree s spaces owner)
include ht

theorem Restored.word_eq (h : Restored s t) {v i : Nat} {u : Use} (hr : Role s owner v u) (hi : i < 1024) :
    word t v i = word s v i := by
  refine h.words v i hr.isPage hi fun n _ hpage => ht.role_taken (u := u) ?_
  rwa [hpage] at hr

theorem Restored.infoOf_eq (h : Restored s t) (hpd : pd ∈ spaces) : infoOf t pd = infoOf s pd :=
  h.word_eq ht (ht.spaces pd hpd).directory (by decide)

theorem Restored.slotInfo_eq (h : Restored s t) (hpd : pd ∈ spaces) (hk : k < 1024) :
    slotInfo t pd k = slotInfo s pd k := by
  unfold slotInfo
  rw [h.infoOf_eq ht hpd]
  exact h.word_eq ht (ht.spaces pd hpd).info hk

theorem Restored.tree (h : Restored s t) : Tree t spaces owner := by
  refine ⟨h.geometry ht.geometry, h.mmKernel ▸ ht.kernel, fun n hn u hu => ?_, fun pd hpd => ⟨?_, ?_, fun k hk => ?_⟩⟩
  · rw [h.bits]
    exact ht.taken n hn u hu
  · exact (h.role_iff ..).mpr (ht.spaces pd hpd).directory
  · rw [h.infoOf_eq ht hpd]
    exact (h.role_iff ..).mpr (ht.spaces pd hpd).info
  · exact ((ht.spaces pd hpd).slots k hk).keep h.physOf_eq (h.word_eq ht (ht.spaces pd hpd).directory (by omega))
      (h.slotInfo_eq ht hpd (by omega)) fun v hr => (h.role_iff ..).mpr hr

theorem Restored.slotAt_eq (h : Restored s t) (hpd : pd ∈ spaces) (hk : k < 1024) : slotAt t pd k = slotAt s pd k := by
  unfold slotAt tableOf
  rw [h.word_eq ht (ht.spaces pd hpd).directory hk, h.slotInfo_eq ht hpd hk]
  by_cases h1 : word s pd k % 2 = 0
  · rw [if_pos h1, if_pos h1]
  by_cases h2 : word s pd k / 128 % 2 = 1
  · rw [if_neg h1, if_neg h1, if_pos h2, if_pos h2]
  have hlt : k < 1023 := by
    refine lt_of_le_of_ne (by omega) fun heq => h1 ?_
    rw [heq]
    exact ht.infoOf_even hpd
  obtain ⟨hinfo, -⟩ := ((ht.spaces pd hpd).slots k hlt).entry (by omega) (by omega)
  rw [if_neg h1, if_neg h1, if_neg h2, if_neg h2]
  refine congrArg Slot.table (funext fun j => ?_)
  unfold entriesAt
  by_cases hj : j < 1024
  · rw [if_pos hj, if_pos hj]
    exact h.word_eq ht (ht.tableRole hpd hlt hinfo) hj
  · rw [if_neg hj, if_neg hj]

theorem Restored.translation_eq (h : Restored s t) (hpd : pd ∈ spaces) (ha : a < 4294967296) :
    translation t pd a = translation s pd a := by
  unfold translation
  rw [h.slotAt_eq ht hpd (by omega)]

end Restored

structure Ready (spaces : List Nat) (s : Machine) : Prop where
  tree : ∃ owner, Tree s spaces owner
  low : ∀ k, 0 < k → k < 768 → word s s.mmKernel k = 0 ∧ slotInfo s s.mmKernel k = 0
  room : WordLeft (s.pools 0)

theorem Restored.ready {s t : Machine} {spaces : List Nat} (h : Restored s t) (hs : Ready spaces s) : Ready spaces t := by
  obtain ⟨owner, ht⟩ := hs.tree
  refine ⟨⟨owner, h.tree ht⟩, fun k h1 h2 => ?_, h.room hs.room⟩
  rw [h.mmKernel, h.word_eq ht (ht.spaces _ ht.kernel).directory (by omega), h.slotInfo_eq ht ht.kernel (by omega)]
  exact hs.low k h1 h2

/-- `mm_kernel` maps a page of user space to a frame, and otherwise all spaces are as before. -/
structure Opened (spaces : List Nat) (s t : Machine) (page p : Nat) : Prop where
  framed : Framed s t
  tree : ∃ owner, Tree t spaces owner
  window : ∃ f, translation t s.mmKernel page = some (p, f)
  others : ∀ pd ∈ spaces, ∀ a < 4294967296, ¬(pd = s.mmKernel ∧ a / 4194304 = page / 4194304) →
    translation t pd a = translation s pd a

section Windows

variable {α β : Type} {s t u : Machine} {spaces : List Nat} {owner : Owner} {pd page p f n : Nat} {E : Fault → Prop}

theorem restored_of_dropped (hs : Ready spaces s) (ht : Tree s spaces owner) {k j e : Nat} (h0 : 0 < k) (hk : k < 768)
    (hnew : NewTable s t s.mmKernel k n 1 fun i => if i = j then e else word s (poolPage n) i) {m : Mem}
    (hm : ∀ x, InPaging s x → m x = t.mem x) (hgone : Dropped { t with mem := m } u s.mmKernel k j n) :
    Restored s u ∧ ∀ x, ¬InPaging s x → u.mem x = m x := by
  have hframed := hnew.framed
  have hg' : Geometry t := hframed.geometry ht.geometry (hnew.took.firstOnly ht.geometry.pools)
  have hpage : ∀ x, InPaging t x ↔ InPaging s x := hframed.inPaging_iff
  have htable : tableOf { t with mem := m } s.mmKernel k = poolPage n := hgone.page
  have hmid : ∀ v i, IsPage s v → i < 1024 → word { t with mem := m } v i = word t v i := fun v i hv hi =>
    word_poke hg' (fun x hx => hm x ((hpage x).mp hx)) ((hframed.isPage_iff v).mpr hv) hi
  have hinfo : infoOf { t with mem := m } s.mmKernel = infoOf s s.mmKernel := by
    have hdir := ht.dirPage ht.kernel
    exact (hmid _ _ hdir (by decide)).trans ((hnew.slotChange ht).infoOf_eq ht ht.kernel ht.kernel (by omega))
  obtain ⟨hzero, hcount⟩ := hs.low k h0 hk
  refine ⟨⟨hgone.framed.cr3.trans hframed.cr3, hgone.framed.mmKernel.trans hframed.mmKernel,
    hgone.phys.trans hnew.phys, hgone.framed.paddr.trans hframed.paddr, fun b => ?_, fun i hi => ?_, ?_, fun _ => ?_,
    fun v i hv hi htaken => ?_⟩, fun x hx => hgone.framed.mem x fun hin => hx ((hpage x).mp hin)⟩
  · have hset := hnew.took.set b
    have hgave : bit (u.pools 0).bitmap b = (bit (t.pools 0).bitmap b && decide (b ≠ n)) := hgone.gave.set b
    rw [hgave, hset]
    by_cases hb : b = n
    · subst hb
      simp [hnew.took.clear]
    · simp [hb]
  · exact (hgone.gave.rest i hi).trans (hnew.took.rest i hi)
  · exact hgone.gave.firstOnly (hnew.took.firstOnly ht.geometry.pools)
  · have hlast : (u.pools 0).indexLast = n / 32 := hgone.gave.last.trans hnew.took.last
    have hlt := hnew.took.lt
    have hbit : bit (u.pools 0).bitmap n = false := (hgone.gave.set n).trans (by simp)
    refine ⟨n / 32, hlast.le, by omega, fun hfull => ?_⟩
    rw [bit, hfull, getLsbD_full] at hbit
    · cases hbit
    · exact Nat.mod_lt _ (by decide)
  · have hfree : v ≠ poolPage n := fun heq => by
      have := htaken n hnew.took.lt heq
      rw [hnew.took.clear] at this
      cases this
    rw [hgone.words v i ((hframed.isPage_iff v).mpr hv) hi, htable, if_neg fun hh => hfree hh.1, hinfo]
    by_cases hv1 : v = s.mmKernel ∧ i = k
    · rw [if_pos hv1, hv1.1, hv1.2, hzero]
    by_cases hv2 : v = infoOf s s.mmKernel ∧ i = k
    · rw [if_neg hv1, if_pos hv2, hv2.1, hv2.2]
      exact hcount.symm
    · rw [if_neg hv1, if_neg hv2, hmid v i hv hi, hnew.words v i hv hi, if_neg hfree, if_neg hv1, if_neg hv2]

/-- What is done while a window is open may write outside of the paging structures. -/
theorem wp_window {body : Prog Fault Machine α} {rest : α → Prog Fault Machine β} {Q : β → Machine → Prop}
    (hs : Ready spaces s) (hpd : pd ∈ spaces) (hpage : page % 4096 = 0) (hlow : 0x400000 ≤ page)
    (hhigh : page + 4096 ≤ kernelVirtBase) (htr : translation s pd page = some (p, f)) (hsmall : f / 128 % 2 = 0)
    (hbody : ∀ t, Opened spaces s t page p → wp body E (fun a u => ∃ m : Mem, u = { t with mem := m } ∧
      (∀ x, InPaging s x → m x = t.mem x) ∧
      ∀ u', Restored s u' → (∀ x, ¬InPaging s x → u'.mem x = m x) → wp (rest a) E Q u') t) :
    wp (do
      openWindow pd page
      let a ← body
      closeWindow page
      rest a) E Q s := by
  obtain ⟨owner, ht⟩ := hs.tree
  have hhigh' : page + 4096 ≤ 3221225472 := hhigh
  have hk : 0 < page / 4194304 ∧ page / 4194304 < 768 := by omega
  obtain ⟨hzero, hcount⟩ := hs.low _ hk.1 hk.2
  rw [wp_bind]
  refine wp_openWindow ht hpd hpage (by omega) (by omega) (fun _ hfull => absurd hs.room hfull) (fun hbad => ?_)
    fun p' f' t htr' _ hp hlt hm => ?_
  · refine absurd ⟨⟨p, f, htr, hsmall⟩, ?_, fun h1 => ?_⟩ hbad
    · rw [hzero]
    · rw [hzero] at h1
      cases h1
  · obtain ⟨rfl, rfl⟩ := Prod.mk.inj (Option.some.inj (htr'.symm.trans htr))
    obtain ⟨owner', ht', _⟩ := hm.tree ht ht.kernel (by omega)
    have hwindow := hm.translation_eq ht ht.kernel (by omega) (by omega) (by omega)
    have hframe : (p' + 3) / 4096 * 4096 + page % 4096 = p' := by omega
    rw [hframe] at hwindow
    have hopen : Opened spaces s t page p' := ⟨hm.framed, ⟨owner', ht'⟩, ⟨_, hwindow⟩, fun pd' hpd' a ha hne =>
      (hm.slotChange ht ht.kernel (by omega)).translation_eq ht ht.kernel (by omega) hpd' ha hne⟩
    cases hm with
    | old hpresent =>
      rw [hzero] at hpresent
      cases hpresent
    | new n habsent hc =>
      rw [wp_bind]
      refine wp_imp (hbody t hopen) ?_
      rintro a _ ⟨m, rfl, hm, hrest⟩
      have hker : t.mmKernel = s.mmKernel := hc.framed.mmKernel
      have hkeep : ∀ x, InPaging t x → m x = t.mem x := fun x hx => hm x ((hc.framed.inPaging_iff x).mp hx)
      have hpoked := ht'.poke hkeep
      have hword : ∀ v i, IsPage t v → i < 1024 → word { t with mem := m } v i = word t v i := fun v i hv hi =>
        word_poke ht'.geometry hkeep hv hi
      have hinfo : slotInfo { t with mem := m } t.mmKernel (page / 4194304) = poolPage n + 1 := by
        have hdir : infoOf { t with mem := m } t.mmKernel = infoOf t t.mmKernel :=
          hword _ _ (ht'.dirPage ht'.kernel) (by decide)
        unfold slotInfo
        rw [hdir, hword _ _ (ht'.infoPage ht'.kernel) (by omega), hker]
        exact hc.slotInfo_eq ht ht.kernel (by omega)
      have hentry : word { t with mem := m } t.mmKernel (page / 4194304) = physOf s (poolPage n) + 7 := by
        rw [hword _ _ (ht'.dirPage ht'.kernel) (by omega), hker]
        exact hc.entry_eq ht ht.kernel (by omega)
      have heven := physOf_isPage_aligned ht.geometry (isPage_poolPage (s := s) hc.took.lt)
      have hpool : poolPage n % 4096 = 0 := by
        unfold poolPage poolVaddr
        omega
      have hgood : word { t with mem := m } t.mmKernel (page / 4194304) % 2 = 1 ∧
          slotInfo { t with mem := m } t.mmKernel (page / 4194304) ≠ 0 := by omega
      rw [wp_bind]
      refine wp_closeWindow hpoked hpage (by omega) (by omega) (fun hbad => absurd hgood hbad) fun u hu => ?_
      cases hu with
      | kept _ hmany _ =>
        have hmany' : 1 < slotInfo { t with mem := m } t.mmKernel (page / 4194304) % 4096 := hmany
        omega
      | dropped n' _ _ hgone =>
        have htable : tableOf { t with mem := m } t.mmKernel (page / 4194304) = poolPage n := by
          have hdiv : ∀ v, v % 4096 = 0 → (v + 1) / 4096 * 4096 = v := by omega
          unfold tableOf
          rw [hinfo, hdiv _ hpool]
        obtain rfl : n' = n := poolPage_inj (hgone.page.symm.trans htable)
        have hgone' : Dropped { t with mem := m } u s.mmKernel (page / 4194304) (page / 4096 % 1024) n' := by
          rw [← hker]
          exact hgone
        obtain ⟨hrestored, hmem⟩ := restored_of_dropped hs ht hk.1 hk.2 hc hm hgone'
        exact hrest u hrestored hmem

end Windows

section Example

def kernelWords (k : Nat) : Nat :=
  if k = 0 then 0x200000 else if k = 768 then 0x87 else if k = 772 then 0x1400083 else if k = 1023 then 0xC1000000 else 0

def userWords (k : Nat) : Nat :=
  if k = 0 then 0x1401000 else if k = 1 then 0x1403007 else if k = 1023 then 0xC1002000 else 0

/-- The space maps the pages at `0x400000` and `0x401000` to two frames in the other order. -/
def twoSpaces (p k : Nat) : Nat :=
  if p = 0x200 then kernelWords k
  else if p = 0x1401 then userWords k
  else if p = 0x1402 then (if k = 1 then 0xC1003002 else 0)
  else if p = 0x1403 then (if k = 0 then 0x1801007 else if k = 1 then 0x1800007 else 0)
  else if p = 0x1800 then (if k = 0 then 0x42 else 0)
  else if p = 0x1801 then (if k = 1023 then 0x41000000 else 0)
  else 0

theorem twoSpaces_lt (p k : Nat) : twoSpaces p k < 4294967296 := by
  unfold twoSpaces kernelWords userWords
  repeat' split
  all_goals decide

def windowMachine : Machine where
  mem := ofPages twoSpaces
  phys := ⟨fun _ => full, 0, 0⟩
  pools := fun i => if i = 0 then ⟨fun w => if w = 0 then 0xF#32 else 0#32, 0, poolVaddr, 0x1400000⟩ else emptyPool
  cr3 := 0x200000
  mmKernel := 0xC0200000

theorem windowMachine_geometry : Geometry windowMachine := by
  refine ⟨⟨rfl, rfl, by decide, by decide, fun i hi _ => ?_⟩, by decide, by decide, by decide, by decide, by decide⟩
  have hne : i ≠ 0 := by omega
  simp [windowMachine, hne, emptyPool]

theorem word_window {k : Nat} (n : Nat) (hk : k < 1024) : word windowMachine (poolPage n) k = twoSpaces (0x1400 + n) k := by
  have haddr : physOf windowMachine (poolPage n) = 4096 * (0x1400 + n) := by
    have hphys := physOf_poolPage windowMachine n
    have hchunk : (windowMachine.pools 0).paddr = 0x1400000 := rfl
    omega
  rw [word, haddr]
  exact load32_ofPages hk (twoSpaces_lt _ _)

theorem word_window_kernel {k : Nat} (hk : k < 1024) : word windowMachine 0xC0200000 k = kernelWords k := by
  have haddr : physOf windowMachine 0xC0200000 = 4096 * 0x200 := by decide
  rw [word, haddr]
  exact load32_ofPages hk (twoSpaces_lt _ _)

def windowOwner : Owner := fun n =>
  if n = 0 then some (.info 0xC0200000) else if n = 1 then some .directory
  else if n = 2 then some (.info (poolPage 1)) else if n = 3 then some (.table (poolPage 1) 1) else none

theorem windowMachine_low {k : Nat} (h0 : 0 < k) (hk : k < 768) :
    word windowMachine windowMachine.mmKernel k = 0 ∧ slotInfo windowMachine windowMachine.mmKernel k = 0 := by
  have hinfo : infoOf windowMachine windowMachine.mmKernel = poolPage 0 := by decide +kernel
  refine ⟨(word_window_kernel (by omega)).trans ?_, ?_⟩
  · unfold kernelWords
    rw [if_neg (by omega), if_neg (by omega), if_neg (by omega), if_neg (by omega)]
  · rw [slotInfo, hinfo, word_window 0 (by omega)]
    rfl

theorem windowMachine_taken : ∀ n < 4, bit (windowMachine.pools 0).bitmap n = true := by decide

theorem windowMachine_tree : Tree windowMachine [0xC0200000, poolPage 1] windowOwner := by
  have hkernel : infoOf windowMachine 0xC0200000 = poolPage 0 := by decide +kernel
  have huser : infoOf windowMachine (poolPage 1) = poolPage 2 := by decide +kernel
  refine ⟨windowMachine_geometry, List.mem_cons_self .., fun n _ u hu => ?_, fun pd hpd => ?_⟩
  · refine windowMachine_taken n ?_
    by_contra hn
    have hnone : windowOwner n = none := by
      unfold windowOwner
      rw [if_neg (by omega), if_neg (by omega), if_neg (by omega), if_neg (by omega)]
    rw [hnone] at hu
    cases hu
  · rcases List.mem_pair.mp hpd with rfl | rfl
    · refine ⟨.inl ⟨rfl, rfl⟩, .inr ⟨0, by decide, hkernel, rfl⟩, fun k hk => ⟨fun hne => absurd ?_ hne, fun hodd hsmall => ?_⟩⟩
      · rw [slotInfo, hkernel, word_window 0 (by omega)]
        rfl
      · rw [word_window_kernel (by omega)] at hodd hsmall
        unfold kernelWords at hodd hsmall
        grind
    · refine ⟨.inr ⟨1, by decide, rfl, rfl⟩, .inr ⟨2, by decide, huser, rfl⟩, fun k hk => ?_⟩
      by_cases hk1 : k = 1
      · subst hk1
        have htable : tableOf windowMachine (poolPage 1) 1 = poolPage 3 := by decide +kernel
        exact ⟨fun _ => ⟨.inr ⟨3, by decide, htable, rfl⟩, by decide +kernel⟩, fun _ _ => by decide +kernel⟩
      · refine ⟨fun hne => absurd ?_ hne, fun hodd _ => ?_⟩
        · rw [slotInfo, huser, word_window 2 (by omega)]
          exact if_neg hk1
        · rw [word_window 1 (by omega)] at hodd
          have hodd' : userWords k % 2 = 1 := hodd
          unfold userWords at hodd'
          grind

theorem windowMachine_ready : Ready [0xC0200000, poolPage 1] windowMachine :=
  ⟨⟨_, windowMachine_tree⟩, fun _ h0 hk => windowMachine_low h0 hk, ⟨0, le_rfl, by decide, by decide⟩⟩

end Example

end YggKernel.Paging
