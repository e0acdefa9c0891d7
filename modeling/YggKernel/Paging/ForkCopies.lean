import YggKernel.Paging.Copies
import YggKernel.Paging.Counting

namespace YggKernel.Paging

open Lib.Program Lib.ByteMemory Lib.BitWords Lib.Masks Lib.Runs Phys Pool

section Windows

variable {α β : Type} {s t u : Machine} {spaces : List Nat} {owner : Owner} {pd page p f n k j e : Nat}

theorem Restored.sound (h : Restored s t) (hs : Sound spaces s) : Sound spaces t := by
  obtain ⟨owner, ht⟩ := hs.tree
  refine ⟨⟨owner, h.tree ht⟩, fun pd hpd => ?_, ?_, ?_⟩
  · rw [h.word_eq ht (ht.spaces pd hpd).directory (by decide), h.physOf_eq]
    exact hs.self pd hpd
  · rw [h.cr3, h.mmKernel, h.physOf_eq]
    exact hs.loaded
  · rw [h.phys]
    exact hs.hint

theorem Restored.tidy (h : Restored s t) (ht : Tree s spaces owner) (hs : Tidy spaces s) (hclean : CleanPool t) : Tidy spaces t := by
  refine ⟨hclean, fun pd hpd k hk => (hs.tallied pd hpd k hk).keep ?_ ?_ fun hhas j hj => ?_⟩
  · exact h.word_eq ht (ht.spaces pd hpd).directory (by omega)
  · exact h.slotInfo_eq ht hpd (by omega)
  · exact h.word_eq ht (ht.tableRole hpd hk (hhas.counted ht hpd hk)) hj

def KernelLow (s : Machine) : Prop := ∀ k, 0 < k → k < 768 → word s s.mmKernel k = 0 ∧ slotInfo s s.mmKernel k = 0

theorem Restored.kernelLow (h : Restored s t) (ht : Tree s spaces owner) (hlow : KernelLow s) : KernelLow t := by
  intro k h1 h2
  rw [h.mmKernel, h.word_eq ht (ht.spaces _ ht.kernel).directory (by omega), h.slotInfo_eq ht ht.kernel (by omega)]
  exact hlow k h1 h2

theorem clean_of_dropped (ht : Tree s spaces owner) (hpd : pd ∈ spaces) (hk : k < 1023) (hclean : CleanPool s)
    (hnew : NewTable s t pd k n 1 fun i => if i = j then e else word s (poolPage n) i) {m : Mem}
    (hm : ∀ x, InPaging s x → m x = t.mem x) (hgone : Dropped { t with mem := m } u pd k j n) : CleanPool u := by
  have ht' := hnew.tree ht hpd hk (by decide) (by decide)
  have hkeep : ∀ x, InPaging t x → m x = t.mem x := fun x hx => hm x ((hnew.framed.inPaging_iff x).mp hx)
  have hpoked := ht'.poke hkeep
  have hword : ∀ v i, IsPage t v → i < 1024 → word { t with mem := m } v i = word t v i := fun v i hv hi =>
    word_poke ht'.geometry hkeep hv hi
  have hn := hnew.took.lt
  have hcleant : CleanPool { t with mem := m } := by
    intro l hl hclear i hi
    rw [hword _ _ (isPage_poolPage hl) hi]
    exact hnew.clean ht hpd hclean l hl hclear i hi
  have hinfo : slotInfo { t with mem := m } pd k ≠ 0 := by
    unfold slotInfo
    rw [show infoOf { t with mem := m } pd = infoOf t pd from hword _ _ (ht'.dirPage hpd) (by decide),
      hword _ _ (ht'.infoPage hpd) (by omega)]
    have hcount : word t (infoOf t pd) k = poolPage n + 1 := hnew.slotInfo_eq ht hpd hk
    rw [hcount]
    omega
  refine hgone.clean hpoked hpd hcleant hk hinfo fun i hi hij => ?_
  rw [hgone.page, hword _ _ (isPage_poolPage hn) hi, hnew.words _ _ (isPage_poolPage hn) hi, if_pos rfl, if_neg hij]
  exact hclean n hn hnew.took.clear i hi

/-- What is done while a window is open may write outside of the paging structures, and the pool stays clean. -/
theorem wp_cleanWindow {body : Prog Fault Machine α} {rest : α → Prog Fault Machine β} {Q : β → Machine → Prop}
    (ht : Tree s spaces owner) (hclean : CleanPool s) (hlow : KernelLow s) (hpd : pd ∈ spaces) (hpage : page % 4096 = 0)
    (hpage0 : 0x400000 ≤ page) (hhigh : page + 4096 ≤ kernelVirtBase) (htr : translation s pd page = some (p, f))
    (hbody : ∀ t, Opened spaces s t page p → wp body anyFault (fun a u => ∃ m : Mem, u = { t with mem := m } ∧
      (∀ x, InPaging s x → m x = t.mem x) ∧
      ∀ u', Restored s u' → CleanPool u' → (∀ x, ¬InPaging s x → u'.mem x = m x) → wp (rest a) anyFault Q u') t) :
    wp (do
      openWindow pd page
      let a ← body
      closeWindow page
      rest a) anyFault Q s := by
  have hhigh' : page + 4096 ≤ 3221225472 := hhigh
  have hk : 0 < page / 4194304 ∧ page / 4194304 < 768 := by omega
  obtain ⟨hzero, hcount⟩ := hlow _ hk.1 hk.2
  rw [wp_bind]
  refine wp_openWindow ht hpd hpage (by omega) (by omega) (fun _ _ _ => trivial) (fun _ _ => trivial)
    fun p' f' t htr' _ hp hlt hm => ?_
  obtain ⟨rfl, rfl⟩ := Prod.mk.inj (Option.some.inj (htr'.symm.trans htr))
  obtain ⟨owner', ht', _⟩ := hm.tree ht ht.kernel (by omega)
  have hwindow := hm.translation_eq ht ht.kernel (by omega) (by omega) (by omega)
  have hframe : (p' + 3) / 4096 * 4096 + page % 4096 = p' := by omega
  rw [hframe] at hwindow
  have hopen : Opened spaces s t page p' := ⟨hm.framed, ⟨owner', ht'⟩, ⟨_, hwindow⟩, fun pd' hpd' a ha hne =>
    (hm.slotChange ht ht.kernel (by omega)).translation_eq ht ht.kernel (by omega) hpd' ha hne⟩
  cases hm with
  | old hpresent =>
    rw [hzero] at hpresent
    cases hpresent
  | new n habsent hc =>
    have hs : Ready spaces s := by
      have hlt := hc.took.lt
      refine ⟨⟨owner, ht⟩, hlow, n / 32, hc.took.upward, by omega, fun hfull => ?_⟩
      have hclear := hc.took.clear
      unfold bit at hclear
      rw [hfull, getLsbD_full (Nat.mod_lt _ (by decide))] at hclear
      cases hclear
    rw [wp_bind]
    refine wp_imp (hbody t hopen) ?_
    rintro a _ ⟨m, rfl, hm, hrest⟩
    have hker : t.mmKernel = s.mmKernel := hc.framed.mmKernel
    have hkeep : ∀ x, InPaging t x → m x = t.mem x := fun x hx => hm x ((hc.framed.inPaging_iff x).mp hx)
    have hpoked := ht'.poke hkeep
    have hinfo : slotInfo { t with mem := m } t.mmKernel (page / 4194304) = poolPage n + 1 := by
      have hword : ∀ v i, IsPage t v → i < 1024 → word { t with mem := m } v i = word t v i := fun v i hv hi =>
        word_poke ht'.geometry hkeep hv hi
      have hdir : infoOf { t with mem := m } t.mmKernel = infoOf t t.mmKernel := hword _ _ (ht'.dirPage ht'.kernel) (by decide)
      unfold slotInfo
      rw [hdir, hword _ _ (ht'.infoPage ht'.kernel) (by omega), hker]
      exact hc.slotInfo_eq ht ht.kernel (by omega)
    have hpool : poolPage n % 4096 = 0 := by
      unfold poolPage poolVaddr
      omega
    rw [wp_bind]
    refine wp_closeWindow hpoked hpage (by omega) (by omega) (fun _ _ => trivial) fun u hu => ?_
    cases hu with
    | kept _ hmany _ =>
      have hmany' : 1 < slotInfo { t with mem := m } t.mmKernel (page / 4194304) % 4096 := hmany
      omega
    | dropped n' _ _ hgone =>
      have htable : tableOf { t with mem := m } t.mmKernel (page / 4194304) = poolPage n := by
        have hdiv : ∀ v, v % 4096 = 0 → (v + 1) / 4096 * 4096 = v := by omega
        unfold tableOf
        rw [hinfo, hdiv _ hpool]
      obtain rfl : n' = n := poolPage_inj (hgone.page.symm.trans htable)
      have hgone' : Dropped { t with mem := m } u s.mmKernel (page / 4194304) (page / 4096 % 1024) n' := by
        rw [← hker]
        exact hgone
      obtain ⟨hrestored, hmem⟩ := restored_of_dropped hs ht hk.1 hk.2 hc hm hgone'
      exact hrest u hrestored (clean_of_dropped ht ht.kernel (by omega) hclean hc hm hgone') hmem

end Windows

section OnePage

variable {s t u : Machine} {spaces : List Nat} {owner : Owner} {dst src pd v p q f g : Nat}

structure UserPage (s : Machine) (pd v p f : Nat) : Prop where
  aligned : v % 4096 = 0
  low : 0x400000 ≤ v
  high : v + 4096 ≤ kernelVirtBase
  maps : translation s pd v = some (p, f)
  apart : ∀ i < 4096, ¬InPaging s (p + i)

theorem Restored.userPage (h : Restored s t) (ht : Tree s spaces owner) (hpd : pd ∈ spaces) (hp : UserPage s pd v p f) :
    UserPage t pd v p f := by
  have hhigh : v + 4096 ≤ 3221225472 := hp.high
  refine ⟨hp.aligned, hp.low, hp.high, ?_, fun i hi hin => hp.apart i hi ((h.inPaging_iff _).mp hin)⟩
  rw [h.translation_eq ht hpd (by omega)]
  exact hp.maps

section Copies

variable (ht : Tree s spaces owner) (hclean : CleanPool s) (hlow : KernelLow s) (hload : s.cr3 = physOf s s.mmKernel)
  (hpd : pd ∈ spaces) (hp : UserPage s pd v p f)
include ht hclean hlow hload hpd hp

/-- The bytes of a page that come to the kernel are those of its frame. -/
theorem wp_readPage : wp (mmMemcpyUserToKernel pd v 0x1000) anyFault (fun bytes u => Restored s u ∧ CleanPool u ∧
    (∀ x, ¬InPaging s x → u.mem x = s.mem x) ∧ bytes = gather s.mem (fun i => p + i) 4096) s := by
  have hv := hp.aligned
  have hhigh : v + 4096 ≤ 3221225472 := hp.high
  rw [mmMemcpyUserToKernel, copyPages_page _ _ _ hv (by omega)]
  refine wp_cleanWindow ht hclean hlow hpd hv hp.low hp.high hp.maps fun t ho => ?_
  have hleads : Leads t (v + 0) (fun k => p + 0 + k) 4096 := ho.window_leads hload hv hp.high le_rfl
  have hout : ∀ x, ¬InPaging s x → t.mem x = s.mem x := ho.framed.mem
  simp only [Nat.add_zero] at hleads ⊢
  rw [wp_bind, wp_readLeads hleads (by omega), wp_pure, List.nil_append]
  refine ⟨t.mem, rfl, fun _ _ => rfl, fun u' hrestored hclean' hmem => ?_⟩
  rw [wp_pure]
  refine ⟨hrestored, hclean', fun x hx => (hmem x hx).trans (hout x hx), ?_⟩
  exact gather_congr fun i hi => hout _ (hp.apart i hi)

theorem wp_writePage {bytes : List (BitVec 8)} (hlen : bytes.length = 4096) :
    wp (mmMemcpyKernelToUser pd v bytes 0x1000) anyFault (fun _ u => Restored s u ∧ CleanPool u ∧
      ∀ x, ¬InPaging s x → u.mem x = scatter s.mem (fun i => p + i) bytes x) s := by
  have hv := hp.aligned
  have hhigh : v + 4096 ≤ 3221225472 := hp.high
  have htake : (bytes.drop 0).take 4096 = bytes := List.take_of_length_le hlen.le
  rw [mmMemcpyKernelToUser, copyPages_page _ _ _ hv (by omega), htake]
  refine wp_cleanWindow ht hclean hlow hpd hv hp.low hp.high hp.maps fun t ho => ?_
  have hleads : Leads t (v + 0) (fun k => p + 0 + k) 4096 := ho.window_leads hload hv hp.high le_rfl
  have hframe : ∀ i < bytes.length, ¬InPaging t (p + i) := fun i hi hin =>
    hp.apart i (by omega) ((ho.framed.inPaging_iff _).mp hin)
  simp only [Nat.add_zero] at hleads ⊢
  rw [← hlen] at hleads
  rw [wp_writeLeads hleads (by omega) hframe]
  refine ⟨_, rfl, fun x hx => ?_, fun u' hrestored hclean' hmem => ?_⟩
  · refine scatter_outside fun i hi => ?_
    rintro rfl
    exact hp.apart i (by omega) hx
  · rw [wp_pure]
    exact ⟨hrestored, hclean', fun x hx => (hmem x hx).trans (scatter_apply_congr (ho.framed.mem x hx))⟩

end Copies

/-- A page of one space is copied to a page of another at the same address. -/
theorem wp_copyPage (ht : Tree s spaces owner) (hclean : CleanPool s) (hlow : KernelLow s) (hload : s.cr3 = physOf s s.mmKernel)
    (hsrc : src ∈ spaces) (hdst : dst ∈ spaces) (hp : UserPage s src v p f) (hq : UserPage s dst v q g) :
    wp (do
      let tmpBuf ← mmMemcpyUserToKernel src v 0x1000
      mmMemcpyKernelToUser dst v tmpBuf 0x1000) anyFault (fun _ u => Restored s u ∧ CleanPool u ∧
        ∀ x, ¬InPaging s x → u.mem x = scatter s.mem (fun i => q + i) (gather s.mem (fun i => p + i) 4096) x) s := by
  rw [wp_bind]
  refine wp_imp (wp_readPage ht hclean hlow hload hsrc hp) ?_
  rintro bytes r ⟨hrestored, hclean', hmem, hbytes⟩
  have hlen : bytes.length = 4096 := by rw [hbytes, length_gather]
  refine wp_imp (wp_writePage (hrestored.tree ht) hclean' (hrestored.kernelLow ht hlow) (hrestored.loaded hload) hdst
    (hrestored.userPage ht hdst hq) hlen) fun _ u hu => ?_
  refine ⟨hrestored.trans hu.1, hu.2.1, fun x hx => ?_⟩
  rw [hu.2.2 x fun hin => hx ((hrestored.inPaging_iff x).mp hin), hbytes]
  exact scatter_apply_congr (hmem x hx)

end OnePage

structure SlotSame (s t : Machine) (pd k : Nat) : Prop where
  word : word t pd k = word s pd k
  info : slotInfo t pd k = slotInfo s pd k
  table : HasTable s pd k → ∀ j < 1024, Paging.word t (tableOf s pd k) j = Paging.word s (tableOf s pd k) j

section Same

variable {s t u : Machine} {spaces : List Nat} {owner : Owner} {pd pd' k k' a : Nat}

theorem SlotSame.refl (s : Machine) (pd k : Nat) : SlotSame s s pd k := ⟨rfl, rfl, fun _ _ _ => rfl⟩

theorem SlotSame.tableOf_eq (h : SlotSame s t pd k) : tableOf t pd k = tableOf s pd k := by
  unfold tableOf
  rw [h.info]

theorem SlotSame.hasTable (h : SlotSame s t pd k) : HasTable t pd k ↔ HasTable s pd k := by
  unfold HasTable
  rw [h.word]

theorem SlotSame.trans (h : SlotSame s t pd k) (h' : SlotSame t u pd k) : SlotSame s u pd k := by
  refine ⟨h'.word.trans h.word, h'.info.trans h.info, fun hhas j hj => ?_⟩
  have hlast := h'.table (h.hasTable.mpr hhas) j hj
  rw [h.tableOf_eq] at hlast
  exact hlast.trans (h.table hhas j hj)

theorem SlotSame.slotAt_eq (h : SlotSame s t pd k) : slotAt t pd k = slotAt s pd k := by
  unfold slotAt
  rw [h.word, h.tableOf_eq]
  by_cases h1 : Paging.word s pd k % 2 = 0
  · rw [if_pos h1, if_pos h1]
  by_cases h2 : Paging.word s pd k / 128 % 2 = 1
  · rw [if_neg h1, if_neg h1, if_pos h2, if_pos h2]
  rw [if_neg h1, if_neg h1, if_neg h2, if_neg h2]
  refine congrArg Slot.table (funext fun j => ?_)
  unfold entriesAt
  by_cases hj : j < 1024
  · rw [if_pos hj, if_pos hj, h.table ⟨by omega, by omega⟩ j hj]
  · rw [if_neg hj, if_neg hj]

theorem SlotSame.translation_eq (h : SlotSame s t pd (a / 4194304)) : translation t pd a = translation s pd a := by
  unfold translation
  rw [h.slotAt_eq]

theorem HasTable.lt (hhas : HasTable s pd k) (h : Tree s spaces owner) (hpd : pd ∈ spaces) (hk : k < 1024) : k < 1023 := by
  refine lt_of_le_of_ne (by omega) fun heq => ?_
  have heven := h.infoOf_even hpd
  have hodd := hhas.1
  rw [heq] at hodd
  have hodd' : infoOf s pd % 2 = 1 := hodd
  omega

theorem SlotChange.slotSame (h : Tree s spaces owner) (hc : SlotChange s t owner pd k) (hpd : pd ∈ spaces) (hk : k < 1023)
    (hpd' : pd' ∈ spaces) (hk' : k' < 1024) (hne : ¬(pd' = pd ∧ k' = k)) : SlotSame s t pd' k' := by
  refine ⟨hc.directory_eq h hpd hpd' hk' hne, hc.slotInfo_eq h hpd hpd' hk hk' hne, fun hhas j hj => ?_⟩
  have hlt := hhas.lt h hpd' hk'
  have hrole := h.tableRole hpd' hlt (hhas.counted h hpd' hlt)
  refine hc.words _ _ hrole j hj (fun hh => ?_) (fun hh => ?_) fun hu => ?_
  · exact hrole.ne h.geometry (h.spaces pd hpd).directory (by simp) hh.1
  · exact hrole.ne h.geometry (h.spaces pd hpd).info (by simp) hh.1
  · simp only [Use.table.injEq] at hu
    exact hne hu

theorem Restored.slotSame (h : Restored s t) (ht : Tree s spaces owner) (hpd : pd ∈ spaces) (hk : k < 1024) :
    SlotSame s t pd k := by
  refine ⟨h.word_eq ht (ht.spaces pd hpd).directory hk, h.slotInfo_eq ht hpd hk, fun hhas j hj => ?_⟩
  have hlt := hhas.lt ht hpd hk
  exact h.word_eq ht (ht.tableRole hpd hlt (hhas.counted ht hpd hlt)) hj

theorem KernelLow.keep (hlow : KernelLow s) (hker : t.mmKernel = s.mmKernel)
    (hsame : ∀ k < 768, SlotSame s t s.mmKernel k) : KernelLow t := by
  intro k h1 h2
  rw [hker, (hsame k h2).word, (hsame k h2).info]
  exact hlow k h1 h2

theorem Restored.placed (h : Restored s t) (ht : Tree s spaces owner) : Placed spaces s t :=
  ⟨h.mmKernel, h.paddr, fun _ hpd => h.infoOf_eq ht hpd⟩

end Same

end YggKernel.Paging
