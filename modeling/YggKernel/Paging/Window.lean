import YggKernel.Paging.Cloning

namespace YggKernel.Paging

open Lib.Program Lib.ByteMemory Lib.BitWords Lib.Masks Phys Pool

section Translation

variable {s t : Machine} {spaces : List Nat} {owner : Owner} {pd k j e a p f : Nat}

theorem leaf_eq (he : e < 4294967296) (hodd : e % 2 = 1) (a : Nat) :
    leaf e a = some (e / 4096 * 4096 + a % 4096, e &&& (mmFlgUs ||| mmFlgWr)) := by
  have hoff : a % 4096 < 4096 := Nat.mod_lt _ (by decide)
  unfold leaf
  rw [if_neg (by omega), and_pageMask he, and_offset, page_or (Nat.mul_mod_left _ _) hoff]

theorem leaf_even (heven : e % 2 = 0) (a : Nat) : leaf e a = none := if_pos heven

theorem entriesAt_lt (s : Machine) (v j : Nat) : entriesAt s v j < 4294967296 := by
  unfold entriesAt
  split
  · exact word_lt _ _ _
  · decide

theorem huge_eq (he : e < 4294967296) (a : Nat) : (Slot.huge e).translate a =
    some (e / 4194304 * 4194304 + a % 4194304, (e &&& (mmFlgUs ||| mmFlgWr)) ||| mmFlgPs) := by
  have hoff : a % 4194304 < 2 ^ 22 := Nat.mod_lt _ (by decide)
  have hmod : (e / 4194304 * 4194304) % 2 ^ 22 = 0 := Nat.mul_mod_left _ _
  have hmask : a &&& 0x3FFFFF = a % 4194304 := Nat.and_two_pow_sub_one_eq_mod a 22
  rw [Slot.translate, and_hugeMask he, hmask, or_eq_add hmod hoff]

theorem hugeFlag (e : Nat) : ((e &&& (mmFlgUs ||| mmFlgWr)) ||| mmFlgPs) / 128 % 2 = 1 := or_huge (by decide)

theorem translation_table {entries : Nat → Nat} (hslot : slotAt s pd k = .table entries)
    (hk : a / 4194304 = k) (hj : a / 4096 % 1024 = j) : translation s pd a = leaf (entries j) a := by
  unfold translation
  rw [hk, hslot, ← hj]
  rfl

theorem translation_absent (hslot : slotAt s pd k = .absent) (hk : a / 4194304 = k) :
    translation s pd a = none := by
  unfold translation
  rw [hk, hslot]
  rfl

theorem translation_small (h : translation s pd a = some (p, f)) (hf : f / 128 % 2 = 0) :
    ∃ e, e < 4294967296 ∧ e % 2 = 1 ∧ p = e / 4096 * 4096 + a % 4096 ∧ f = e &&& (mmFlgUs ||| mmFlgWr) ∧
      slotAt s pd (a / 4194304) = .table (entriesAt s (tableOf s pd (a / 4194304))) ∧
      entriesAt s (tableOf s pd (a / 4194304)) (a / 4096 % 1024) = e := by
  unfold translation slotAt at h
  split at h
  · cases h
  · rename_i hpr
    split at h
    · rw [huge_eq (word_lt _ _ _)] at h
      simp only [Option.some.injEq, Prod.mk.injEq] at h
      have hflag := hugeFlag (word s pd (a / 4194304))
      rw [h.2] at hflag
      omega
    · rename_i hps
      have hlt := entriesAt_lt s (tableOf s pd (a / 4194304)) (a / 4096 % 1024)
      rw [Slot.translate] at h
      by_cases heven : entriesAt s (tableOf s pd (a / 4194304)) (a / 4096 % 1024) % 2 = 0
      · rw [leaf_even heven] at h
        cases h
      · rw [leaf_eq hlt (by omega)] at h
        simp only [Option.some.injEq, Prod.mk.injEq] at h
        refine ⟨_, hlt, by omega, h.1.symm, h.2.symm, ?_, rfl⟩
        unfold slotAt
        rw [if_neg hpr, if_neg hps]

theorem translation_page {off : Nat} (hpage : a % 4096 = 0) (hoff : off < 4096)
    (h : translation s pd a = some (p, f)) :
    translation s pd (a + off) = some (p + off, f) ∧ p % 4096 = 0 := by
  have hk : (a + off) / 4194304 = a / 4194304 := by omega
  have hj : (a + off) / 4096 % 1024 = a / 4096 % 1024 := by omega
  unfold translation at h ⊢
  rw [hk]
  unfold slotAt at h ⊢
  by_cases hpr : word s pd (a / 4194304) % 2 = 0
  · rw [if_pos hpr] at h
    cases h
  by_cases hps : word s pd (a / 4194304) / 128 % 2 = 1
  · rw [if_neg hpr, if_pos hps, huge_eq (word_lt _ _ _)] at h ⊢
    simp only [Option.some.injEq, Prod.mk.injEq] at h ⊢
    omega
  · have hlt := entriesAt_lt s (tableOf s pd (a / 4194304)) (a / 4096 % 1024)
    rw [if_neg hpr, if_neg hps, Slot.translate] at h ⊢
    rw [hj]
    by_cases heven : entriesAt s (tableOf s pd (a / 4194304)) (a / 4096 % 1024) % 2 = 0
    · rw [leaf_even heven] at h
      cases h
    · rw [leaf_eq hlt (by omega)] at h ⊢
      simp only [Option.some.injEq, Prod.mk.injEq] at h ⊢
      omega

theorem SlotChange.translation_eq (h : Tree s spaces owner) (hc : SlotChange s t owner pd k) (hpd : pd ∈ spaces)
    (hk : k < 1023) {pd' : Nat} (hpd' : pd' ∈ spaces) (ha : a < 4294967296)
    (hne : ¬(pd' = pd ∧ a / 4194304 = k)) : translation t pd' a = translation s pd' a := by
  unfold translation
  rw [hc.slotAt_eq h hpd hpd' hk (by omega) hne]

/-- After a page was mapped, its slot has a table with the entry in it. -/
theorem Mapped.slotAt_eq (h : Tree s spaces owner) (hpd : pd ∈ spaces) (hk : k < 1023) (hj : j < 1024)
    (hm : Mapped s t pd k j e) : ∃ entries, slotAt t pd k = .table entries ∧ entries j = e := by
  cases hm with
  | new n _ hc =>
    refine ⟨_, hc.slotAt_eq h hpd hk (by decide), ?_⟩
    rw [if_pos hj, if_pos rfl]
  | old hpr hps hroom hc =>
    have hinfo := (((h.spaces pd hpd).slots k hk).entry hpr hps).1
    exact ⟨_, hc.slotAt_eq h hpd hk hinfo (by omega) hj hpr hps, Function.update_self ..⟩

theorem Mapped.translation_eq (h : Tree s spaces owner) (hpd : pd ∈ spaces) (hk : a / 4194304 < 1023)
    (hm : Mapped s t pd (a / 4194304) (a / 4096 % 1024) e) (he : e < 4294967296) (hodd : e % 2 = 1) :
    translation t pd a = some (e / 4096 * 4096 + a % 4096, e &&& (mmFlgUs ||| mmFlgWr)) := by
  obtain ⟨entries, hslot, hentry⟩ := hm.slotAt_eq h hpd hk (Nat.mod_lt _ (by decide))
  rw [translation_table hslot rfl rfl, hentry, leaf_eq he hodd]

end Translation

section Access

variable {s t : Machine} {spaces : List Nat} {owner : Owner}

theorem resolve_user (h : Tree s spaces owner) (hload : s.cr3 = physOf s s.mmKernel) {v : Nat}
    (hv : v < kernelVirtBase) : resolve s v = (translation s s.mmKernel v).map Prod.fst := by
  have hlin : linear s v = none := by
    rw [linear_eq h.geometry]
    unfold poolVaddr
    unfold kernelVirtBase at hv ⊢
    rw [if_neg (by omega), if_neg (by omega)]
  have hlt : v < 4294967296 := by
    unfold kernelVirtBase at hv
    omega
  unfold resolve
  rw [hlin, hload, mmuWalk_eq h h.kernel hlt]

def overlay (m : Mem) (a : Nat) (bytes : List (BitVec 8)) : Mem :=
  fun x => if a ≤ x ∧ x < a + bytes.length then bytes.getD (x - a) 0#8 else m x

def bytesAt (m : Mem) (a count : Nat) : List (BitVec 8) := (List.range count).map fun i => m (a + i)

theorem overlay_nil (m : Mem) (a : Nat) : overlay m a [] = m := by
  funext x
  exact if_neg (by simp)

theorem overlay_cons (m : Mem) (a : Nat) (b : BitVec 8) (bytes : List (BitVec 8)) :
    overlay (store8 m a b) (a + 1) bytes = overlay m a (b :: bytes) := by
  funext x
  unfold overlay store8
  rw [List.length_cons]
  by_cases hxa : x = a
  · rw [if_neg (by omega), if_pos hxa, if_pos (by omega), hxa, Nat.sub_self]
    rfl
  · by_cases hin : a + 1 ≤ x ∧ x < a + 1 + bytes.length
    · rw [if_pos hin, if_pos (by omega), show x - a = (x - (a + 1)) + 1 by omega, List.getD_cons_succ]
    · rw [if_neg hin, if_neg hxa, if_neg (by omega)]

/-- Accesses to the addresses from `v` on go to physical memory from `a` on, whatever is
stored outside of the paging structures. -/
def Reaches (s : Machine) (v a count : Nat) : Prop :=
  ∀ m : Mem, (∀ x, InPaging s x → m x = s.mem x) → ∀ i < count, resolve { s with mem := m } (v + i) = some (a + i)

theorem Reaches.store {v a count : Nat} {m : Mem} (h : Reaches s v a count)
    (hm : ∀ x, InPaging s x → m x = s.mem x) : Reaches { s with mem := m } v a count :=
  fun m' hm' => h m' fun x hx => (hm' x hx).trans (hm x hx)

theorem Reaches.tail {v a count : Nat} (h : Reaches s v a (count + 1)) : Reaches s (v + 1) (a + 1) count := by
  intro m hm i hi
  rw [show v + 1 + i = v + (i + 1) by omega, show a + 1 + i = a + (i + 1) by omega]
  exact h m hm (i + 1) (by omega)

theorem wp_writeBytes {E : Fault → Prop} {Q : Unit → Machine → Prop} {bytes : List (BitVec 8)} {v a : Nat}
    (hr : Reaches s v a bytes.length) (hv : v + bytes.length ≤ 4294967296)
    (hapart : ∀ i < bytes.length, ¬InPaging s (a + i)) :
    wp (writeBytes v bytes) E Q s ↔ Q () { s with mem := overlay s.mem a bytes } := by
  induction bytes generalizing s v a with
  | nil => rw [writeBytes, wp_pure, overlay_nil]
  | cons b bytes ih =>
    rw [List.length_cons] at hr hv hapart
    have hhead := hr s.mem (fun _ _ => rfl) 0 (by omega)
    have hkeep : ∀ x, InPaging s x → store8 s.mem a b x = s.mem x := fun x hx =>
      store8_apply_ne b fun hxa => hapart 0 (by omega) (by rwa [Nat.add_zero, ← hxa])
    simp only [Nat.add_zero] at hhead
    simp only [writeBytes, wp_bind, access, wp_get, hhead, wp_pure, wp_modify]
    by_cases hnil : bytes = []
    · subst hnil
      rw [writeBytes, wp_pure, ← overlay_cons, overlay_nil]
    have hpos : 0 < bytes.length := List.length_pos_iff.mpr hnil
    rw [u32_of_lt (by omega), ih (hr.tail.store hkeep) (by omega), overlay_cons]
    intro i hi hin
    refine hapart (i + 1) (by omega) ?_
    rwa [show a + (i + 1) = a + 1 + i by omega]

theorem bytesAt_succ (m : Mem) (a count : Nat) : bytesAt m a (count + 1) = m a :: bytesAt m (a + 1) count := by
  unfold bytesAt
  rw [List.range_succ_eq_map, List.map_cons, List.map_map]
  refine congrArg (m a :: ·) (List.map_congr_left fun i _ => ?_)
  exact congrArg m (by rw [Nat.succ_eq_add_one]; omega)

theorem wp_readBytes {E : Fault → Prop} {Q : List (BitVec 8) → Machine → Prop} {count v a : Nat}
    (hr : Reaches s v a count) (hv : v + count ≤ 4294967296) :
    wp (readBytes v count) E Q s ↔ Q (bytesAt s.mem a count) s := by
  induction count generalizing v a Q with
  | zero => rfl
  | succ n ih =>
    have hhead := hr s.mem (fun _ _ => rfl) 0 (by omega)
    simp only [Nat.add_zero] at hhead
    simp only [readBytes, wp_bind, access, wp_get, hhead, wp_pure]
    by_cases hn : n = 0
    · subst hn
      rw [readBytes, wp_pure]
      rfl
    · rw [u32_of_lt (by omega), ih hr.tail (by omega), bytesAt_succ]

end Access

section Poke

variable {s : Machine} {spaces : List Nat} {owner : Owner} {m : Mem}

theorem word_poke (hg : Geometry s) (hm : ∀ x, InPaging s x → m x = s.mem x) {v i : Nat} (hv : IsPage s v)
    (hi : i < 1024) : word { s with mem := m } v i = word s v i :=
  word_congr (s := s) (t := { s with mem := m }) (fun _ => rfl) (fun x h1 h2 => hm x (inPaging_of_isPage hg hv h1 h2)) hi

theorem Tree.poke (h : Tree s spaces owner) (hm : ∀ x, InPaging s x → m x = s.mem x) :
    Tree { s with mem := m } spaces owner :=
  h.congr rfl rfl fun _ _ hv hi => word_poke h.geometry hm hv hi

theorem translation_poke (h : Tree s spaces owner) (hm : ∀ x, InPaging s x → m x = s.mem x) {pd a : Nat}
    (hpd : pd ∈ spaces) (ha : a < 4294967296) : translation { s with mem := m } pd a = translation s pd a := by
  unfold translation
  rw [slotAt_congr h hpd (by omega) fun _ _ hv hi => word_poke h.geometry hm hv hi]

theorem Sound.poke (h : Sound spaces s) (hm : ∀ x, InPaging s x → m x = s.mem x) :
    Sound spaces { s with mem := m } := by
  obtain ⟨owner, ht⟩ := h.tree
  refine ⟨⟨owner, ht.poke hm⟩, fun pd hpd => ?_, h.loaded, h.hint⟩
  rw [word_poke ht.geometry hm (ht.dirPage hpd) (by decide)]
  exact h.self pd hpd

theorem reaches_page (h : Tree s spaces owner) (hload : s.cr3 = physOf s s.mmKernel) {page p f first count : Nat}
    (htr : translation s s.mmKernel page = some (p, f)) (hpage : page % 4096 = 0)
    (hlow : page + 4096 ≤ kernelVirtBase) (hle : first + count ≤ 4096) :
    Reaches s (page + first) (p + first) count := by
  intro m hm i hi
  have htr' : translation { s with mem := m } s.mmKernel page = some (p, f) := by
    rw [translation_poke h hm h.kernel (by unfold kernelVirtBase at hlow; omega), htr]
  rw [resolve_user (h.poke hm) hload (by omega), Nat.add_assoc,
    (translation_page hpage (by omega) htr').1, Nat.add_assoc]
  rfl

end Poke

section Window

variable {s : Machine} {spaces : List Nat} {owner : Owner} {pd page : Nat} {E : Fault → Prop}
  {Q : Unit → Machine → Prop}

theorem wp_forUp_one {body : Nat → Prog Fault Machine Unit} {first : Nat} :
    wp (forUp first 1 body) E Q s ↔ wp (body first) E Q s := by
  simp only [forUp, wp_bind, wp_pure]

theorem wp_mapOnePage {p flags : Nat} {R : Nat → Machine → Prop} (h : Tree s spaces owner) (hpd : pd ∈ spaces)
    (hpage : page % 4096 = 0) (hlt : page < 4294967296) (hk : page / 4194304 < 1023) (hp : p < 4294967296)
    (hflags : flags &&& mmFlgPs = 0)
    (hpool : word s pd (page / 4194304) % 2 = 0 → ¬WordLeft (s.pools 0) → ∀ w, E (.outOfBounds w))
    (hbad : ¬Enterable s pd (page / 4194304) (page / 4096 % 1024) True → ∀ c, E (assertionFailed c))
    (hQ : ∀ t, Mapped s t pd (page / 4194304) (page / 4096 % 1024) (p ||| leafFlags flags) → R 0 t) :
    wp (mmMapRangePages pd page (fun _ => p) 1 flags) E R s := by
  rw [mmMapRangePages, wp_bind, wp_kassert]
  refine ⟨fun _ => ?_, fun hno => absurd ?_ (of_decide_eq_false hno)⟩
  · rw [if_neg (not_not.mpr hflags), wp_bind, wp_entry h.geometry (h.dirPage hpd) (by decide), wp_bind, wp_forUp_one,
      Nat.zero_mul, Nat.add_zero, u32_of_lt hlt]
    exact wp_mapPagesPage flags h hpd rfl hk rfl hp hpool hbad hQ
  · rw [and_offset]
    exact hpage

theorem wp_openWindow (h : Tree s spaces owner) (hpd : pd ∈ spaces) (hpage : page % 4096 = 0)
    (hlt : page < 4294967296) (hk : page / 4194304 < 1023)
    (hpool : word s s.mmKernel (page / 4194304) % 2 = 0 → ¬WordLeft (s.pools 0) → ∀ w, E (.outOfBounds w))
    (hbad : ¬((∃ p f, translation s pd page = some (p, f) ∧ f / 128 % 2 = 0) ∧
      Enterable s s.mmKernel (page / 4194304) (page / 4096 % 1024) True) → ∀ c, E (assertionFailed c))
    (hQ : ∀ p f t, translation s pd page = some (p, f) → f / 128 % 2 = 0 → p % 4096 = 0 → p < 4294967296 →
      Mapped s t s.mmKernel (page / 4194304) (page / 4096 % 1024) (p + 3) → Q () t) :
    wp (openWindow pd page) E Q s := by
  rw [openWindow, wp_bind, wp_mmTranslate h hpd hlt]
  cases htr : translation s pd page with
  | none =>
    simp only [answer, wp_bind, wp_kassert]
    refine ⟨fun hh => absurd rfl (of_decide_eq_true hh), fun _ => hbad (fun hok => ?_) _⟩
    obtain ⟨⟨p, f, htr', _⟩, _⟩ := hok
    rw [htr] at htr'
    cases htr'
  | some pf =>
    obtain ⟨p, f⟩ := pf
    simp only [answer, wp_bind, wp_kassert, Option.getD_some, decide_eq_true_eq, decide_eq_false_iff_not,
      not_huge_flag_iff]
    have hnaddr : f / 128 % 2 = 0 → p % 4096 = 0 ∧ p < 4294967296 := fun hf => by
      obtain ⟨e, he, _, hp, _⟩ := translation_small htr hf
      omega
    refine ⟨fun _ => ⟨fun hf => ?_, fun hf => hbad (fun hok => ?_) _⟩, fun hno => ?_⟩
    · obtain ⟨hmod, hp⟩ := hnaddr hf
      have hflags : p ||| leafFlags mmFlgWr = p + 3 := page_or hmod (by decide)
      rw [wp_get, wp_discard]
      refine wp_mapOnePage h h.kernel hpage hlt hk hp (by decide) hpool (fun hno => hbad fun hok => hno hok.2) ?_
      intro t hm
      rw [hflags] at hm
      exact hQ p f t htr hf hmod hp hm
    · obtain ⟨⟨p', f', htr', hf'⟩, _⟩ := hok
      rw [htr] at htr'
      simp only [Option.some.injEq, Prod.mk.injEq] at htr'
      rw [← htr'.2] at hf'
      exact hf hf'
    · refine hbad (fun hok => of_decide_eq_false hno fun hp => ?_) _
      obtain ⟨⟨p', f', htr', hf'⟩, _⟩ := hok
      rw [htr] at htr'
      simp only [Option.some.injEq, Prod.mk.injEq] at htr'
      have hmod := (hnaddr (by rw [htr'.2]; exact hf')).1
      rw [hp] at hmod
      cases hmod

theorem wp_closeWindow (h : Tree s spaces owner) (hpage : page % 4096 = 0) (hlt : page < 4294967296)
    (hk : page / 4194304 < 1023)
    (hbad : ¬(word s s.mmKernel (page / 4194304) % 2 = 1 ∧ slotInfo s s.mmKernel (page / 4194304) ≠ 0) →
      ∀ c, E (assertionFailed c))
    (hQ : ∀ t, Unmapped s t s.mmKernel (page / 4194304) (page / 4096 % 1024) → Q () t) :
    wp (closeWindow page) E Q s := by
  have hflag : ¬mmFlgNophys &&& mmFlgNophys = 0 := by decide
  have hps : ¬mmFlgNophys &&& mmFlgPs ≠ 0 := by decide
  rw [closeWindow, wp_bind, wp_get, wp_discard, mmUmapRange, wp_bind, wp_kassert]
  refine ⟨fun _ => ?_, fun hno => absurd ?_ (of_decide_eq_false hno)⟩
  · rw [if_neg hps, wp_bind, wp_entry h.geometry (h.dirPage h.kernel) (by decide), wp_bind, wp_forUp_one,
      Nat.zero_mul, Nat.add_zero, u32_of_lt hlt]
    refine wp_umapPage mmFlgNophys h h.kernel rfl hk rfl hbad (fun hh => absurd hh hflag) fun q t hq hu => ?_
    rw [if_neg hflag] at hq
    subst hq
    exact hQ t hu
  · rw [and_offset]
    exact hpage

end Window

end YggKernel.Paging
