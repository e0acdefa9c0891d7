import YggKernel.Heap.Coalescing

namespace YggKernel.Heap

open Lib.Program Lib.ByteMemory Lib.Chains

/-- The parts of `heap_realloc` that make a block smaller by `cut` bytes: the header of what is left, -/
def cutHeader (it newb count cut : Nat) : Prog Fault HeapMem Unit := do
  setField offSize newb (sub32 cut heapBlockSize)
  setField offPrev newb it
  setField offFlags newb heapMagic
  setField offSize it count

/-- its links when there is a block behind, -/
def linkHeader (it newb : Nat) : Prog Fault HeapMem Unit := do
  setField offNext newb (← field offNext it)
  setField offNext it newb
  let nx ← field offNext newb
  if nx ≠ 0 then setField offPrev nx newb

/-- and the join with that block if it is free. -/
def joinHeader (newb : Nat) : Prog Fault HeapMem Unit := do
  let next ← field offNext newb
  if (← field offFlags next) &&& heapFlgUsed = 0 then
    setField offSize newb (u32 ((← field offSize newb) + u32 (heapBlockSize + (← field offSize next))))
    setField offNext newb (← field offNext next)
    let nxnx ← field offNext next
    if nxnx ≠ 0 then setField offPrev nxnx newb
    setField offFlags next ((← field offFlags next) ^^^ heapMagic)

def shrinkBlock (it count cut : Nat) : Prog Fault HeapMem Nat := do
  if cut ≥ heapBlockSize then
    let newb := u32 (heapData it + count)
    cutHeader it newb count cut
    if (← field offNext it) ≠ 0 then
      linkHeader it newb
      joinHeader newb
    else setField offNext newb 0
  return heapData it

/-- The part that makes a block larger with the free one behind it, of which nothing is left. -/
def growWhole (it next count : Nat) : Prog Fault HeapMem Nat := do
  setField offNext it (← field offNext next)
  let nx ← field offNext it
  if nx ≠ 0 then setField offPrev nx it
  setField offFlags next ((← field offFlags next) ^^^ heapMagic)
  setField offSize it count
  return heapData it

def moveHeader (it next newb : Nat) : Prog Fault HeapMem Unit := do
  setField offPrev newb it
  setField offNext newb (← field offNext next)
  let nx ← field offNext newb
  if nx ≠ 0 then setField offPrev nx newb

def settleHeader (it next newb count diff : Nat) : Prog Fault HeapMem Unit := do
  setField offNext it newb
  setField offFlags next ((← field offFlags next) ^^^ heapMagic)
  setField offSize newb (sub32 (← field offSize next) diff)
  setField offSize it count
  setField offFlags newb heapMagic

/-- The part that makes a block larger by `diff` bytes and leaves the rest of the free one. -/
def growSplit (it next count diff : Nat) : Prog Fault HeapMem Nat := do
  let newb := u32 (heapData it + count)
  moveHeader it next newb
  settleHeader it next newb count diff
  return heapData it

def growBlock (it count diff : Nat) : Prog Fault HeapMem Nat := do
  let next ← field offNext it
  if next = 0 then throw (.panic "NYI\n")
  else if (← field offFlags next) &&& heapFlgUsed ≠ 0 then throw (.panic "NYI\n")
  else if diff ≥ (← field offSize next) ∧ sub32 diff heapBlockSize ≤ (← field offSize next) then
    growWhole it next count
  else if diff < (← field offSize next) then growSplit it next count diff
  else throw (.panic "NYI2\n")

/-- The difference of the sizes is a signed word. -/
def heapRealloc (ptr count : Nat) : Prog Fault HeapMem Nat := do
  let it := sub32 ptr heapBlockSize
  if (← field offFlags it) &&& heapMagic ≠ heapMagic then throw (.panic "Heap: invalid pointer\n")
  let diff := sub32 count (← field offSize it)
  if diff ≥ 2147483648 then shrinkBlock it count (sub32 0 diff)
  else growBlock it count diff

section Effects

variable {E : Fault → Prop} {h : HeapMem} {it newb next count cut diff nn : Nat}

theorem wp_setField_same {Q : Unit → HeapMem → Prop} {off b v : Nat} (hv : v < 4294967296)
    (hQ : ∀ m', load32 m' (b + off) = v → SameBut h.mem m' [b + off] → Q () { h with mem := m' }) :
    wp (setField off b v) E Q h :=
  (wp_setField ..).mpr (hQ _ (load32_store32 hv) (sameBut_store32 h.mem (b + off) v))

theorem wp_cutHeader (hcut : 16 ≤ cut) (hcut' : cut < 4294967296) (hit : it < 4294967296) (hcount : count < 4294967296)
    (hplace : it + 16 ≤ newb) : wp (cutHeader it newb count cut) E (fun _ t => t.regions = h.regions ∧
      load32 t.mem newb = heapMagic ∧ load32 t.mem (newb + 4) = cut - 16 ∧ load32 t.mem (newb + 8) = it ∧
      load32 t.mem (it + 4) = count ∧ SameBut h.mem t.mem [newb + 4, newb + 8, newb, it + 4]) h := by
  simp only [cutHeader, offFlags, offSize, offPrev, heapBlockSize, wp_bind]
  rw [sub32_of_le hcut' hcut]
  refine wp_setField_same (by omega) fun m₁ h₁ s₁ => wp_setField_same hit fun m₂ h₂ s₂ =>
    wp_setField_same (by decide) fun m₃ h₃ s₃ => wp_setField_same hcount fun m₄ h₄ s₄ => ?_
  dsimp only at s₁ s₂ s₃ s₄
  rw [Nat.add_zero] at h₃ s₃
  refine ⟨rfl, ?_, ?_, ?_, h₄, ((s₁.trans s₂).trans s₃).trans s₄⟩
  · rw [s₄.load (by simp; omega), h₃]
  · rw [((s₂.trans s₃).trans s₄).load (by simp; omega), h₁]
  · rw [(s₃.trans s₄).load (by simp; omega), h₂]

theorem wp_linkHeader (hnext : load32 h.mem (it + 12) = next) (hnewb : newb < 4294967296) (hplace : it + 16 ≤ newb)
    (h0 : next ≠ 0) (hnext' : it + 16 ≤ next) (hapart : newb + 16 ≤ next ∨ next + 16 ≤ newb) :
    wp (linkHeader it newb) E (fun _ t => t.regions = h.regions ∧ load32 t.mem (newb + 12) = next ∧
      load32 t.mem (it + 12) = newb ∧ load32 t.mem (next + 8) = newb ∧
      SameBut h.mem t.mem [newb + 12, it + 12, next + 8]) h := by
  have hlt : next < 4294967296 := hnext ▸ load32_lt _ _
  simp only [linkHeader, offNext, offPrev, wp_bind, wp_field, hnext]
  refine wp_setField_same hlt fun m₁ h₁ s₁ => wp_setField_same hnewb fun m₂ h₂ s₂ => ?_
  dsimp only at s₁ s₂ ⊢
  have hload : load32 m₂ (newb + 12) = next := by rw [s₂.load (by simp; omega), h₁]
  rw [hload, if_pos h0]
  refine wp_setField_same hnewb fun m₃ h₃ s₃ => ?_
  dsimp only at s₃
  refine ⟨rfl, ?_, ?_, h₃, (s₁.trans s₂).trans s₃⟩
  · rw [s₃.load (by simp; omega), hload]
  · rw [s₃.load (by simp; omega), h₂]

theorem wp_joinHeader_used (hnext : load32 h.mem (newb + 12) = next) (hused : load32 h.mem next &&& heapFlgUsed ≠ 0) :
    wp (joinHeader newb) E (fun _ t => t = h) h := by
  simp only [joinHeader, offNext, offFlags, Nat.add_zero, wp_bind, wp_field, hnext]
  rw [if_neg hused, wp_pure]

def backWord (nn : Nat) : List Nat := if nn = 0 then [] else [nn + 8]

theorem wp_joinHeader_free {s s' : Nat} (hnext : load32 h.mem (newb + 12) = next) (hfree : load32 h.mem next &&& heapFlgUsed = 0)
    (hs : load32 h.mem (newb + 4) = s) (hs' : load32 h.mem (next + 4) = s') (hnn : load32 h.mem (next + 12) = nn)
    (hnewb : newb < 4294967296) (hapart : newb + 16 ≤ next ∨ next + 16 ≤ newb) (hbeyond : nn ≠ 0 → next + 16 ≤ nn ∧ newb ≤ nn) :
    wp (joinHeader newb) E (fun _ t => t.regions = h.regions ∧ load32 t.mem (newb + 4) = u32 (s + u32 (16 + s')) ∧
      (nn = 0 ∨ newb + 8 ≤ nn → load32 t.mem (newb + 12) = nn) ∧ (nn ≠ 0 → load32 t.mem (nn + 8) = newb) ∧
      SameBut h.mem t.mem ([newb + 4, newb + 12] ++ backWord nn ++ [next])) h := by
  have hlt : nn < 4294967296 := hnn ▸ load32_lt _ _
  simp only [joinHeader, offNext, offFlags, offSize, offPrev, heapBlockSize, Nat.add_zero, wp_bind, wp_field, hnext]
  rw [if_pos hfree]
  simp only [wp_bind, wp_field, hs, hs']
  refine wp_setField_same (u32_lt _) fun m₁ h₁ s₁ => ?_
  dsimp only at s₁ ⊢
  have hnn₁ : load32 m₁ (next + 12) = nn := by rw [s₁.load (by simp; omega), hnn]
  rw [hnn₁]
  refine wp_setField_same hlt fun m₂ h₂ s₂ => ?_
  dsimp only at s₂ ⊢
  have hnn₂ : load32 m₂ (next + 12) = nn := by rw [s₂.load (by simp; omega), hnn₁]
  have hflags : ∀ m : Mem, load32 m next ^^^ heapMagic < 4294967296 := fun m =>
    Nat.xor_lt_two_pow (n := 32) (load32_lt _ _) (by decide)
  rw [hnn₂]
  unfold backWord
  by_cases h0 : nn = 0
  · rw [if_neg (not_not_intro h0), if_pos h0, wp_bind, wp_field]
    refine wp_setField_same (hflags _) fun m₃ _ s₃ => ?_
    dsimp only at s₃
    refine ⟨rfl, ?_, fun _ => ?_, fun hne => absurd h0 hne, (s₁.trans s₂).trans s₃⟩
    · rw [(s₂.trans s₃).load (by simp; omega), h₁]
    · rw [s₃.load (by simp; omega), h₂]
  · obtain ⟨hb₁, hb₂⟩ := hbeyond h0
    rw [if_pos h0, if_neg h0, wp_bind]
    refine wp_setField_same hnewb fun m₃ h₃ s₃ => ?_
    dsimp only at s₃
    rw [wp_bind, wp_field]
    refine wp_setField_same (hflags _) fun m₄ _ s₄ => ?_
    dsimp only at s₄
    refine ⟨rfl, ?_, fun hplace => ?_, fun _ => ?_, ((s₁.trans s₂).trans s₃).trans s₄⟩
    · rw [((s₂.trans s₃).trans s₄).load (by simp; omega), h₁]
    · rw [(s₃.trans s₄).load (by simp; omega), h₂]
    · rw [s₄.load (by simp; omega), h₃]

theorem wp_growWhole (hnn : load32 h.mem (next + 12) = nn) (hit : it < 4294967296) (hcount : count < 4294967296)
    (hapart : it + 16 ≤ next) (hbeyond : nn ≠ 0 → next + 16 ≤ nn) : wp (growWhole it next count) E (fun r t =>
      r = heapData it ∧ t.regions = h.regions ∧ load32 t.mem (it + 4) = count ∧ load32 t.mem (it + 12) = nn ∧
      (nn ≠ 0 → load32 t.mem (nn + 8) = it) ∧ SameBut h.mem t.mem ([it + 12] ++ backWord nn ++ [next] ++ [it + 4])) h := by
  have hlt : nn < 4294967296 := hnn ▸ load32_lt _ _
  have hflags : ∀ m : Mem, load32 m next ^^^ heapMagic < 4294967296 := fun m =>
    Nat.xor_lt_two_pow (n := 32) (load32_lt _ _) (by decide)
  simp only [growWhole, offNext, offFlags, offSize, offPrev, wp_bind, wp_field, hnn]
  refine wp_setField_same hlt fun m₁ h₁ s₁ => ?_
  dsimp only at s₁ ⊢
  rw [h₁]
  unfold backWord
  by_cases h0 : nn = 0
  · rw [if_neg (not_not_intro h0), if_pos h0, wp_bind, wp_field, wp_bind]
    refine wp_setField_same (hflags _) fun m₂ _ s₂ => ?_
    rw [wp_bind]
    refine wp_setField_same hcount fun m₃ h₃ s₃ => ?_
    dsimp only at s₂ s₃
    refine ⟨rfl, rfl, h₃, ?_, fun hne => absurd h0 hne, (s₁.trans s₂).trans s₃⟩
    rw [(s₂.trans s₃).load (by simp; omega), h₁]
  · have hb := hbeyond h0
    rw [if_pos h0, if_neg h0, wp_bind]
    refine wp_setField_same hit fun m₂ h₂ s₂ => ?_
    rw [wp_bind, wp_field, wp_bind]
    refine wp_setField_same (hflags _) fun m₃ _ s₃ => ?_
    rw [wp_bind]
    refine wp_setField_same hcount fun m₄ h₄ s₄ => ?_
    dsimp only at s₂ s₃ s₄
    refine ⟨rfl, rfl, h₄, ?_, fun _ => ?_, ((s₁.trans s₂).trans s₃).trans s₄⟩
    · rw [((s₂.trans s₃).trans s₄).load (by simp; omega), h₁]
    · rw [(s₃.trans s₄).load (by simp; omega), h₂]

/-- Memory after the header behind `it` was moved from `next` to `newb` and linked. What is read as
its successor was written over if the headers overlap. -/
def relinked (m : Mem) (it next newb : Nat) : Mem :=
  let m := store32 m (newb + 8) it
  let nx := load32 m (next + 12)
  let m := store32 m (newb + 12) nx
  if nx ≠ 0 then store32 m (nx + 8) newb else m

theorem wp_moveHeader : wp (moveHeader it next newb) E
    (fun _ t => t = ⟨relinked h.mem it next newb, h.regions⟩) h := by
  simp only [moveHeader, offNext, offPrev, wp_bind, wp_field, wp_setField]
  rw [load32_store32 (load32_lt _ _)]
  unfold relinked
  by_cases h0 : load32 (store32 h.mem (newb + 8) it) (next + 12) = 0
  · rw [if_neg (not_not_intro h0), wp_pure]
    simp only [if_neg (not_not_intro h0)]
  · rw [if_pos h0, wp_setField]
    simp only [if_pos h0]

theorem wp_settleHeader (hnewb : newb < 4294967296) (hcount : count < 4294967296) (hapart : it + 16 ≤ next)
    (hplace : next ≤ newb) : wp (settleHeader it next newb count diff) E (fun _ t => t.regions = h.regions ∧
      load32 t.mem newb = heapMagic ∧ load32 t.mem (newb + 4) = sub32 (load32 h.mem (next + 4)) diff ∧
      load32 t.mem (it + 4) = count ∧ load32 t.mem (it + 12) = newb ∧
      SameBut h.mem t.mem [it + 12, next, newb + 4, it + 4, newb]) h := by
  have hsub : ∀ a b, sub32 a b < 4294967296 := fun a b => by
    unfold sub32
    omega
  have hflags : ∀ m : Mem, load32 m next ^^^ heapMagic < 4294967296 := fun m =>
    Nat.xor_lt_two_pow (n := 32) (load32_lt _ _) (by decide)
  rw [settleHeader, wp_bind]
  refine wp_setField_same hnewb fun m₁ h₁ s₁ => ?_
  rw [wp_bind, wp_field, wp_bind]
  refine wp_setField_same (hflags _) fun m₂ _ s₂ => ?_
  rw [wp_bind, wp_field, wp_bind]
  refine wp_setField_same (hsub _ _) fun m₃ h₃ s₃ => ?_
  rw [wp_bind]
  refine wp_setField_same hcount fun m₄ h₄ s₄ => wp_setField_same (by decide) fun m₅ h₅ s₅ => ?_
  dsimp only [offFlags, offSize, offNext] at h₁ s₁ s₂ h₃ s₃ h₄ s₄ h₅ s₅
  rw [Nat.add_zero] at h₅ s₂ s₅
  refine ⟨rfl, h₅, ?_, ?_, ?_, (((s₁.trans s₂).trans s₃).trans s₄).trans s₅⟩
  · rw [(s₄.trans s₅).load (by simp; omega), h₃, (s₁.trans s₂).load (by simp; omega)]
  · rw [s₅.load (by simp; omega), h₄]
  · rw [(((s₂.trans s₃).trans s₄).trans s₅).load (by simp; omega), h₁]

theorem wp_growSplit (hnewb : u32 (heapData it + count) = newb) (hcount : count < 4294967296)
    (hapart : it + 16 ≤ next) (hplace : next ≤ newb) : wp (growSplit it next count diff) E (fun r t => r = heapData it ∧
      t.regions = h.regions ∧ load32 t.mem newb = heapMagic ∧
      load32 t.mem (newb + 4) = sub32 (load32 (relinked h.mem it next newb) (next + 4)) diff ∧
      load32 t.mem (it + 4) = count ∧ load32 t.mem (it + 12) = newb ∧
      SameBut (relinked h.mem it next newb) t.mem [it + 12, next, newb + 4, it + 4, newb]) h := by
  have hlt : newb < 4294967296 := by
    rw [← hnewb]
    exact u32_lt _
  rw [growSplit, hnewb, wp_bind]
  refine wp_imp wp_moveHeader fun _ t ht => ?_
  subst ht
  rw [wp_bind]
  exact wp_imp (wp_settleHeader hlt hcount hapart hplace) fun _ _ h' => (wp_pure _ _).mpr ⟨rfl, h'⟩

theorem wp_shrinkBlock_last (hnewb : u32 (heapData it + count) = newb) (hcut : 16 ≤ cut) (hcut' : cut < 4294967296)
    (hit : it < 4294967296) (hcount : count < 4294967296) (hplace : it + 16 ≤ newb) (hnext : load32 h.mem (it + 12) = 0) :
    wp (shrinkBlock it count cut) E (fun _ t => load32 t.mem (it + 4) = count ∧ load32 t.mem (it + 12) = 0) h := by
  rw [shrinkBlock, if_pos (show cut ≥ heapBlockSize from hcut), hnewb, wp_bind]
  refine wp_imp (wp_cutHeader hcut hcut' hit hcount hplace) fun _ t ⟨_, _, _, _, hsize, hsame⟩ => ?_
  have hnext' : load32 t.mem (it + 12) = 0 := by rw [hsame.load (by simp; omega), hnext]
  rw [wp_bind, wp_field, show load32 t.mem (it + offNext) = 0 from hnext', if_neg (by simp), wp_bind]
  refine wp_setField_same (by decide) fun m _ hsame' => (wp_pure _ _).mpr ⟨?_, ?_⟩
  · exact (hsame'.load (by simp [offNext]; omega)).trans hsize
  · exact (hsame'.load (by simp [offNext]; omega)).trans hnext'

theorem wp_shrinkBlock_used (hnewb : u32 (heapData it + count) = newb) (hcut : 16 ≤ cut) (hcut' : cut < 4294967296)
    (hit : it < 4294967296) (hcount : count < 4294967296) (hplace : it + 16 ≤ newb) (hnext : load32 h.mem (it + 12) = next)
    (hapart : newb + 16 ≤ next) (hused : load32 h.mem next &&& heapFlgUsed ≠ 0) :
    wp (shrinkBlock it count cut) E (fun r t => r = heapData it ∧ t.regions = h.regions ∧ load32 t.mem (it + 4) = count ∧
      load32 t.mem (it + 12) = newb ∧ load32 t.mem newb = heapMagic ∧ load32 t.mem (newb + 4) = cut - 16 ∧
      load32 t.mem (newb + 8) = it ∧ load32 t.mem (newb + 12) = next ∧ load32 t.mem (next + 8) = newb ∧
      SameBut h.mem t.mem [newb + 4, newb + 8, newb, it + 4, newb + 12, it + 12, next + 8]) h := by
  have hlt : newb < 4294967296 := by
    rw [← hnewb]
    exact u32_lt _
  rw [shrinkBlock, if_pos (show cut ≥ heapBlockSize from hcut), hnewb, wp_bind]
  refine wp_imp (wp_cutHeader hcut hcut' hit hcount hplace) fun _ t ⟨hregs, hflags, hsize', hprev, hsize, hsame⟩ => ?_
  have hnext' : load32 t.mem (it + 12) = next := by rw [hsame.load (by simp; omega), hnext]
  rw [wp_bind, wp_field, show load32 t.mem (it + offNext) = next from hnext', if_pos (by omega), wp_bind]
  refine wp_imp (wp_linkHeader hnext' hlt hplace (by omega) (by omega) (.inl hapart)) ?_
  rintro _ u ⟨hregs', hnewnext, hnew, hback, hsame'⟩
  rw [wp_bind]
  have hused' : load32 u.mem next &&& heapFlgUsed ≠ 0 := by
    rwa [hsame'.load (by simp; omega), hsame.load (by simp; omega)]
  refine wp_imp (wp_joinHeader_used hnewnext hused') fun _ v hv => ?_
  subst hv
  refine (wp_pure _ _).mpr ⟨rfl, hregs'.trans hregs, ?_, hnew, ?_, ?_, ?_, hnewnext, hback, hsame.trans hsame'⟩
  · rw [hsame'.load (by simp; omega), hsize]
  · rw [hsame'.load (by simp; omega), hflags]
  · rw [hsame'.load (by simp; omega), hsize']
  · rw [hsame'.load (by simp; omega), hprev]

def joinedWords (it newb next nn : Nat) : List Nat :=
  [newb + 4, newb + 8, newb, it + 4, newb + 12, it + 12, next + 8, newb + 4, newb + 12] ++ backWord nn ++ [next]

/-- A cut header is joined with the free block behind it, which may also hold the header. -/
theorem wp_shrinkBlock_free {s : Nat} (hnewb : u32 (heapData it + count) = newb) (hcut : 16 ≤ cut) (hcut' : cut < 4294967296)
    (hit : it < 4294967296) (hcount : count < 4294967296) (hplace : it + 16 ≤ newb) (hnext : load32 h.mem (it + 12) = next)
    (hnext' : it + 16 ≤ next) (hapart : newb + 16 ≤ next ∨ next + 16 ≤ newb) (hfree : load32 h.mem next &&& heapFlgUsed = 0)
    (hs : load32 h.mem (next + 4) = s) (hnn : load32 h.mem (next + 12) = nn)
    (hbeyond : nn ≠ 0 → next + 16 ≤ nn ∧ newb ≤ nn) : wp (shrinkBlock it count cut) E (fun r t => r = heapData it ∧
      t.regions = h.regions ∧ load32 t.mem (it + 4) = count ∧ load32 t.mem (it + 12) = newb ∧
      load32 t.mem (newb + 4) = u32 (cut - 16 + u32 (16 + s)) ∧ (nn = 0 ∨ newb + 16 ≤ nn → load32 t.mem newb = heapMagic ∧
        load32 t.mem (newb + 8) = it ∧ load32 t.mem (newb + 12) = nn) ∧ (nn ≠ 0 → load32 t.mem (nn + 8) = newb) ∧
      SameBut h.mem t.mem (joinedWords it newb next nn)) h := by
  have hlt : newb < 4294967296 := by
    rw [← hnewb]
    exact u32_lt _
  rw [shrinkBlock, if_pos (show cut ≥ heapBlockSize from hcut), hnewb, wp_bind]
  refine wp_imp (wp_cutHeader hcut hcut' hit hcount hplace) fun _ t ⟨hregs, hflags, hsize', hprev, hsize, hsame⟩ => ?_
  have hlink : load32 t.mem (it + 12) = next := by rw [hsame.load (by simp; omega), hnext]
  rw [wp_bind, wp_field, show load32 t.mem (it + offNext) = next from hlink, if_pos (by omega), wp_bind]
  refine wp_imp (wp_linkHeader hlink hlt hplace (by omega) hnext' hapart) ?_
  rintro _ u ⟨hregs', hnewnext, hnew, -, hsame'⟩
  have hboth := hsame.trans hsame'
  have hfree' : load32 u.mem next &&& heapFlgUsed = 0 := by rwa [hboth.load (by simp; omega)]
  have hs₁ : load32 u.mem (newb + 4) = cut - 16 := by rw [hsame'.load (by simp; omega), hsize']
  have hs₂ : load32 u.mem (next + 4) = s := by rw [hboth.load (by simp; omega), hs]
  have hnn' : load32 u.mem (next + 12) = nn := by rw [hboth.load (by simp; omega), hnn]
  rw [wp_bind]
  refine wp_imp (wp_joinHeader_free hnewnext hfree' hs₁ hs₂ hnn' hlt hapart hbeyond) ?_
  rintro _ v ⟨hregs'', hsum, hnewnn, hback, hjoin⟩
  have hwords : ∀ a, (∀ w ∈ backWord nn, w + 4 ≤ a ∨ a + 4 ≤ w) → (a + 4 ≤ newb + 4 ∨ newb + 8 ≤ a) →
      (a + 4 ≤ newb + 12 ∨ newb + 16 ≤ a) → (a + 4 ≤ next ∨ next + 4 ≤ a) → load32 v.mem a = load32 u.mem a := by
    intro a h1 h2 h3 h4
    refine hjoin.load fun w hw => ?_
    simp only [List.mem_append, List.mem_cons, List.not_mem_nil, or_false] at hw
    rcases hw with (hw | hw) | hw
    · omega
    · exact h1 w hw
    · omega
  have hbackword : ∀ w ∈ backWord nn, nn ≠ 0 ∧ w = nn + 8 := by
    intro w hw
    unfold backWord at hw
    split at hw
    · cases hw
    · exact ⟨‹_›, List.mem_singleton.mp hw⟩
  refine (wp_pure _ _).mpr ⟨rfl, hregs''.trans (hregs'.trans hregs), ?_, ?_, hsum, fun hplace' => ⟨?_, ?_, ?_⟩, hback, ?_⟩
  · rw [hwords _ (fun w hw => ?_) (by omega) (by omega) (by omega), hsame'.load (by simp; omega), hsize]
    obtain ⟨h0, rfl⟩ := hbackword w hw
    have hb := hbeyond h0
    omega
  · rw [hwords _ (fun w hw => ?_) (by omega) (by omega) (by omega), hnew]
    obtain ⟨h0, rfl⟩ := hbackword w hw
    have hb := hbeyond h0
    omega
  · rw [hwords _ (fun w hw => ?_) (by omega) (by omega) (by omega), hsame'.load (by simp; omega), hflags]
    obtain ⟨h0, rfl⟩ := hbackword w hw
    omega
  · rw [hwords _ (fun w hw => ?_) (by omega) (by omega) (by omega), hsame'.load (by simp; omega), hprev]
    obtain ⟨h0, rfl⟩ := hbackword w hw
    omega
  · exact hnewnn (by omega)
  · exact hboth.trans hjoin

end Effects

end YggKernel.Heap
