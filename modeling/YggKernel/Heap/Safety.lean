import YggKernel.Heap.Arenas
import YggKernel.Lib.Runs

namespace YggKernel.Heap

open Lib.Program Lib.ByteMemory Lib.Chains Lib.Runs

structure HeapState where
  heap : HeapMem
  live : List (Nat × Nat)

inductive HeapOp
  | alloc (count : Nat)
  | free (block : Nat × Nat)
  | store (a : Nat) (v : BitVec 8)

def InPayload (live : List (Nat × Nat)) (a : Nat) : Prop := ∃ p ∈ live, p.1 ≤ a ∧ a < p.1 + p.2

instance (live : List (Nat × Nat)) (a : Nat) : Decidable (InPayload live a) :=
  inferInstanceAs (Decidable (∃ p ∈ live, p.1 ≤ a ∧ a < p.1 + p.2))

/-- A call of the heap, or a store of its user into a live allocation. -/
def heapStep (s : HeapState) : HeapOp → Option HeapState
  | .alloc count =>
    if count < 4294967296 then
      match heapAlloc count s.heap with
      | .ok (p, h) => some (if p = 0 then ⟨h, s.live⟩ else ⟨h, (p, count) :: s.live⟩)
      | .error _ => none
    else none
  | .free block =>
    if block ∈ s.live then
      match heapFree block.1 s.heap with
      | .ok (_, h) => some ⟨h, s.live.erase block⟩
      | .error _ => none
    else none
  | .store a v =>
    if InPayload s.live a then some ⟨{ s.heap with mem := store8 s.heap.mem a v }, s.live⟩ else none

def addRegions : List (Nat × Nat) → Prog Fault HeapMem Unit
  | [] => pure ()
  | r :: rest => do
    heapAddRegion r.1 r.2
    addRegions rest

def heapBoot (given : List (Nat × Nat)) : Prog Fault HeapMem Unit := do
  heapInit
  addRegions given

/-- The headers that are met on the way from a first one along the next links. -/
inductive Reaches (m : Mem) : Nat → Nat → Prop
  | here {a : Nat} : a ≠ 0 → Reaches m a a
  | next {a c : Nat} : a ≠ 0 → Reaches m (load32 m (a + offNext)) c → Reaches m a c

theorem Reaches.ne_zero {m : Mem} {a c : Nat} (h : Reaches m a c) : a ≠ 0 := by
  cases h with
  | here hne => exact hne
  | next hne _ => exact hne

def InChain (h : HeapMem) (a : Nat) : Prop := ∃ i < heapMax, Reaches h.mem (h.regions i) a

def Ends (m : Mem) (a : Nat) : Prop :=
  ∃ l : List Nat, first id l 0 = a ∧ Linked id (fun b n => b ≠ 0 ∧ load32 m (b + offNext) = n) l 0

structure HeapSafe (given : List (Nat × Nat)) (s : HeapState) : Prop where
  disjoint : s.live.Pairwise fun p q => p.1 + p.2 ≤ q.1 ∨ q.1 + q.2 ≤ p.1
  inside : ∀ p ∈ s.live, ∃ r ∈ given, r.1 ≤ p.1 ∧ p.1 + p.2 ≤ r.2
  headers : ∀ p ∈ s.live, ∀ a, InChain s.heap a → a + heapBlockSize ≤ p.1 ∨ p.1 + p.2 ≤ a
  finite : ∀ i < heapMax, Ends s.heap.mem (s.heap.regions i)
  free : ∀ p ∈ s.live, wp (heapFree p.1) noFault (fun _ _ => True) s.heap

/-- The back link in the header of a block about to be freed is unset, or leads to
a used block, or to a block of a chain that is followed by the freed block or by a
free one. -/
def LinkFollowed (s : HeapState) : HeapOp → Prop
  | .free block =>
    let it := sub32 block.1 heapBlockSize
    let pr := load32 s.heap.mem (it + offPrev)
    let behind := load32 s.heap.mem (pr + offNext)
    pr = 0 ∨ load32 s.heap.mem (pr + offFlags) &&& heapFlgUsed ≠ 0 ∨
      (InChain s.heap pr ∧ (behind = it ∨
        (InChain s.heap behind ∧ load32 s.heap.mem (behind + offFlags) &&& heapFlgUsed = 0)))
  | _ => True

def HeapRun (C : HeapState → HeapOp → Prop) : HeapState → HeapState → Prop :=
  Run (fun s op t => heapStep s op = some t) fun s op _ => C s op

/-- The live allocations are the used blocks of the regions. -/
def HeapInv (given : List (Nat × Nat)) (s : HeapState) : Prop :=
  ∃ rs, Arenas s.heap rs ∧ bounds rs = bounds (given.map freshArena) ∧
    s.live.Perm (allPayloads rs)

theorem wp_addRegions {h : HeapMem} {rs : List Arena} {given : List (Nat × Nat)} (hA : Arenas h rs)
    (hcount : rs.length + given.length ≤ heapMax)
    (hroom : ∀ r ∈ given, 0 < r.1 ∧ (r.1 + 7) / 8 * 8 + 16 ≤ r.2 ∧ r.2 < 4294967296)
    (hapart : given.Pairwise fun r q => r.2 ≤ q.1 ∨ q.2 ≤ r.1)
    (hrs : ∀ q ∈ rs, ∀ r ∈ given, q.hi ≤ r.1 ∨ r.2 ≤ q.lo) :
    wp (addRegions given) noFault (fun _ t => Arenas t (rs ++ given.map freshArena)) h := by
  induction given generalizing h rs with
  | nil => simpa [addRegions] using hA
  | cons r given ih =>
    obtain ⟨hr, hroom⟩ := List.forall_mem_cons.mp hroom
    obtain ⟨hrq, hapart⟩ := List.pairwise_cons.mp hapart
    simp only [List.length_cons] at hcount
    rw [addRegions, wp_bind]
    have hnew := wp_addRegion hA (by omega) hr.1 hr.2.1 hr.2.2 fun q hq => by
      have := hrs q hq r (by simp)
      omega
    refine wp_imp hnew fun _ t hA' => ?_
    rw [List.map_cons, ← List.singleton_append, ← List.append_assoc]
    refine ih hA' (by simp; omega) hroom hapart fun q hq r' hr' => ?_
    rcases List.mem_append.mp hq with hq | hq
    · exact hrs q hq r' (by simp [hr'])
    · have := hrq r' hr'
      rw [List.mem_singleton.mp hq]
      simp only [freshArena]
      omega

theorem wp_heapBoot_fresh {given : List (Nat × Nat)} (hok : RegionsOk given) (h : HeapMem) :
    wp (heapBoot given) noFault (fun _ t => Arenas t (given.map freshArena)) h := by
  rw [heapBoot, wp_bind, heapInit, wp_modify]
  have hA : Arenas { h with regions := fun i => if i < heapMax then 0 else h.regions i } [] :=
    ⟨by simp, .nil, Nat.zero_le _, fun i hi => by simp [hi]⟩
  exact wp_addRegions hA (by simpa using hok.count) hok.room hok.apart (by simp)

theorem allPayloads_fresh (given : List (Nat × Nat)) : allPayloads (given.map freshArena) = [] := by
  refine List.flatMap_eq_nil_iff.mpr fun q hq => ?_
  obtain ⟨r, _, rfl⟩ := List.mem_map.mp hq
  rfl

theorem wp_heapBoot {given : List (Nat × Nat)} (hok : RegionsOk given) (h : HeapMem) :
    wp (heapBoot given) noFault (fun _ t => HeapInv given ⟨t, []⟩) h :=
  wp_imp (wp_heapBoot_fresh hok h) fun _ _ ht => ⟨_, ht, rfl, by rw [allPayloads_fresh]⟩

theorem mem_allPayloads {rs : List Arena} {p : Nat × Nat} (hp : p ∈ allPayloads rs) :
    ∃ rs₁ r rs₂ l₁ b l₂, rs = rs₁ ++ r :: rs₂ ∧ r.blocks = l₁ ++ b :: l₂ ∧ b.used = true ∧
      p = (b.addr + 16, b.size) := by
  obtain ⟨r, hr, hp⟩ := List.mem_flatMap.mp hp
  obtain ⟨b, hb, hu, h1, h2⟩ := mem_payloads.mp hp
  obtain ⟨rs₁, rs₂, hrs⟩ := List.append_of_mem hr
  obtain ⟨l₁, l₂, hl⟩ := List.append_of_mem hb
  exact ⟨rs₁, r, rs₂, l₁, b, l₂, hrs, hl, hu, Prod.ext h1 h2⟩

theorem Region.payloads_apart {m : Mem} {lo hi : Nat} {l : List Block} (hR : Region m lo hi l) :
    (payloads l).Pairwise fun p q => p.1 + p.2 ≤ q.1 ∨ q.1 + q.2 ≤ p.1 := by
  refine List.pairwise_map.mpr ((hR.apart.filter _).imp fun {b c} hbc => ?_)
  unfold Block.fin heapBlockSize at hbc
  dsimp only
  omega

theorem Arenas.payloads_apart {h : HeapMem} {rs : List Arena} (hA : Arenas h rs) :
    (allPayloads rs).Pairwise fun p q => p.1 + p.2 ≤ q.1 ∨ q.1 + q.2 ≤ p.1 := by
  refine List.pairwise_flatMap.mpr ⟨fun r hr => (hA.region r hr).payloads_apart, ?_⟩
  refine hA.apart.imp_of_mem fun {r q} hr hq hrq p hp p' hp' => ?_
  obtain ⟨b, hb, _, h1, h2⟩ := mem_payloads.mp hp
  obtain ⟨c, hc, _, h3, h4⟩ := mem_payloads.mp hp'
  have hbw := (hA.region r hr).within b hb
  have hcw := (hA.region q hq).within c hc
  unfold Block.fin heapBlockSize at hbw hcw
  omega

theorem linked_addrs {m : Mem} {lo hi : Nat} {l : List Block} (hR : Region m lo hi l) :
    Linked id (fun b n => b ≠ 0 ∧ load32 m (b + offNext) = n) (l.map Block.addr) 0 := by
  have hne : ∀ b ∈ l, b.addr ≠ 0 := fun b hb => by
    have := hR.pos
    have := (hR.within b hb).1
    omega
  have hlink := hR.linked
  clear hR
  induction l with
  | nil => trivial
  | cons b l ih =>
    refine ⟨⟨hne b (by simp), ?_⟩, ih (fun c hc => hne c (by simp [hc])) hlink.2⟩
    rw [hlink.1.next]
    cases l <;> rfl

theorem first_addrs (l : List Block) (z : Nat) : first id (l.map Block.addr) z = first Block.addr l z := by
  cases l <;> rfl

theorem reaches_linked {m : Mem} {l : List Nat} {a c : Nat}
    (hl : Linked id (fun b n => b ≠ 0 ∧ load32 m (b + offNext) = n) l 0) (ha : first id l 0 = a) :
    Reaches m a c ↔ c ∈ l := by
  induction l generalizing a with
  | nil =>
    have h0 : a = 0 := ha.symm
    subst h0
    refine iff_of_false (fun h => ?_) List.not_mem_nil
    cases h with
    | here h => exact h rfl
    | next h _ => exact h rfl
  | cons b l ih =>
    have hb : b = a := ha
    subst hb
    have hrest := ih (a := load32 m (b + offNext)) hl.2 hl.1.2.symm
    rw [List.mem_cons, ← hrest]
    constructor
    · rintro (_ | ⟨_, h⟩)
      · exact .inl rfl
      · exact .inr h
    · rintro (rfl | h)
      · exact .here hl.1.1
      · exact .next hl.1.1 h

theorem Arenas.inChain_iff {h : HeapMem} {rs : List Arena} (hA : Arenas h rs) {a : Nat} :
    InChain h a ↔ ∃ r ∈ rs, ∃ b ∈ r.blocks, b.addr = a := by
  have hreach : ∀ r ∈ rs, Reaches h.mem r.lo a ↔ ∃ b ∈ r.blocks, b.addr = a := fun r hr => by
    have hR := hA.region r hr
    rw [reaches_linked (linked_addrs hR) ((first_addrs _ _).trans hR.start), List.mem_map]
  constructor
  · rintro ⟨i, hi, hreaches⟩
    by_cases hlen : i < rs.length
    · obtain ⟨r, hr, hstart, _⟩ := hA.start_pos hlen
      exact ⟨r, hr, (hreach r hr).mp (hstart ▸ hreaches)⟩
    · rw [hA.start_none hi (by omega)] at hreaches
      cases hreaches with
      | here h => exact absurd rfl h
      | next h _ => exact absurd rfl h
  · rintro ⟨r, hr, hb⟩
    obtain ⟨rs₁, rs₂, rfl⟩ := List.append_of_mem hr
    refine ⟨rs₁.length, hA.start_at.1, ?_⟩
    rw [hA.start_at.2]
    exact (hreach r hr).mpr hb

theorem Arenas.disjoint {h : HeapMem} {rs : List Arena} (hA : Arenas h rs) {r q : Arena}
    (hr : r ∈ rs) (hq : q ∈ rs) (hne : r ≠ q) : r.hi ≤ q.lo ∨ q.hi ≤ r.lo :=
  haveI : Std.Symm fun r q : Arena => r.hi ≤ q.lo ∨ q.hi ≤ r.lo := ⟨fun _ _ h => h.symm⟩
  hA.apart.forall hr hq hne

theorem Arenas.header_apart {h : HeapMem} {rs : List Arena} (hA : Arenas h rs) {r q : Arena}
    (hr : r ∈ rs) (hq : q ∈ rs) {b d : Block} (hb : b ∈ r.blocks) (hd : d ∈ q.blocks) :
    d.addr + 16 ≤ b.addr + 16 ∨ b.fin ≤ d.addr := by
  have hbw := (hA.region r hr).within b hb
  have hdw := (hA.region q hq).within d hd
  unfold Block.fin heapBlockSize at *
  by_cases hrq : r = q
  · subst hrq
    obtain ⟨l₁, l₂, hl⟩ := List.append_of_mem hb
    have hR := hA.region r hr
    rw [hl] at hR hd
    obtain ⟨hbefore, hbehind, _, _⟩ := hR.around
    rcases List.mem_append.mp hd with hd | hd
    · have := hbefore d hd
      omega
    · rcases List.mem_cons.mp hd with rfl | hd
      · omega
      · exact .inr (hbehind d hd)
  · have := hA.disjoint hr hq hrq
    omega

theorem safe_of_inv {given : List (Nat × Nat)} {s : HeapState} (h : HeapInv given s) :
    HeapSafe given s := by
  obtain ⟨rs, hA, hbounds, hlive⟩ := h
  have hmem : ∀ p ∈ s.live, p ∈ allPayloads rs := fun p hp => hlive.mem_iff.mp hp
  refine ⟨?_, fun p hp => ?_, fun p hp a ha => ?_, fun i hi => ?_, fun p hp => ?_⟩
  · exact (hlive.pairwise_iff fun h => h.symm).mpr hA.payloads_apart
  · obtain ⟨rs₁, r, rs₂, l₁, b, l₂, rfl, hl, _, rfl⟩ := mem_allPayloads (hmem p hp)
    have hr : (r.lo, r.hi) ∈ bounds (given.map freshArena) := hbounds ▸ by simp [bounds]
    obtain ⟨q, hq, heq⟩ := List.mem_map.mp hr
    obtain ⟨g, hg, rfl⟩ := List.mem_map.mp hq
    have hw := (hA.region r (by simp)).within b (by simp [hl])
    simp only [freshArena, Prod.mk.injEq] at heq
    unfold Block.fin heapBlockSize at hw
    refine ⟨g, hg, ?_, ?_⟩ <;> dsimp only <;> omega
  · obtain ⟨rs₁, r, rs₂, l₁, b, l₂, rfl, hl, _, rfl⟩ := mem_allPayloads (hmem p hp)
    obtain ⟨q, hq, d, hd, rfl⟩ := hA.inChain_iff.mp ha
    have hap := hA.header_apart (r := r) (by simp) hq (b := b) (by simp [hl]) hd
    unfold Block.fin heapBlockSize at hap
    unfold heapBlockSize
    dsimp only
    omega
  · by_cases hlen : i < rs.length
    · obtain ⟨r, hr, hstart, _⟩ := hA.start_pos hlen
      have hR := hA.region r hr
      exact ⟨_, (first_addrs _ _).trans (hR.start.trans hstart.symm), linked_addrs hR⟩
    · exact ⟨[], (hA.start_none hi (by omega)).symm, trivial⟩
  · obtain ⟨rs₁, r, rs₂, l₁, b, l₂, rfl, hl, hb, rfl⟩ := mem_allPayloads (hmem p hp)
    exact wp_free_total hA hl hb

theorem Arenas.store {h : HeapMem} {rs : List Arena} {live : List (Nat × Nat)} {a : Nat} (hA : Arenas h rs)
    (hlive : live.Perm (allPayloads rs)) (ha : InPayload live a) (v : BitVec 8) :
    Arenas { h with mem := store8 h.mem a v } rs := by
  obtain ⟨p, hp, hlo, hhi⟩ := ha
  obtain ⟨rs₁, r, rs₂, l₁, b, l₂, hrs, hl, _, rfl⟩ := mem_allPayloads (hlive.mem_iff.mp hp)
  refine ⟨fun q hq => ?_, hA.apart, hA.count, hA.starts⟩
  have hR := hA.region q hq
  have hkeep : ∀ d ∈ q.blocks, (∀ n, HeaderAt h.mem d n → HeaderAt (store8 h.mem a v) d n) ∧
      (PrevBelow q.lo h.mem d.addr → PrevBelow q.lo (store8 h.mem a v) d.addr) := by
    intro d hd
    have hap := hA.header_apart (r := r) (by simp [hrs]) hq (b := b) (by simp [hl]) hd
    unfold Block.fin heapBlockSize at hap
    refine header_keep fun x h1 h2 => store8_apply_ne v ?_
    dsimp only at hlo hhi
    omega
  exact ⟨hR.pos, hR.top, hR.start, hR.linked.imp fun d hd => (hkeep d hd).1, hR.apart, hR.within,
    fun d hd => (hkeep d hd).2 (hR.prevs d hd)⟩

theorem inv_store {given : List (Nat × Nat)} {s : HeapState} (h : HeapInv given s) {a : Nat}
    (ha : InPayload s.live a) (v : BitVec 8) :
    HeapInv given ⟨{ s.heap with mem := store8 s.heap.mem a v }, s.live⟩ := by
  obtain ⟨rs, hA, hbounds, hlive⟩ := h
  exact ⟨rs, hA.store hlive ha v, hbounds, hlive⟩

/-- The link condition on the state before a free says what the proof of the free
needs to know about the blocks of its region. -/
theorem backLinkGood_of_linkFollowed {s : HeapState} {rs₁ rs₂ : List Arena} {r : Arena}
    {l₁ l₂ : List Block} {b : Block} (hA : Arenas s.heap (rs₁ ++ r :: rs₂))
    (hl : r.blocks = l₁ ++ b :: l₂) (h : LinkFollowed s (.free (b.addr + 16, b.size))) :
    BackLinkGood s.heap.mem l₁ b := by
  have hR := hA.region r (by simp)
  have hlink := hR.prevs b (by simp [hl])
  rw [hl] at hR
  obtain ⟨hbefore, hbehind, hblo, hbhi⟩ := hR.around
  have htop := hR.top
  unfold Block.fin heapBlockSize at hbehind hbhi
  have hit : sub32 (b.addr + 16) heapBlockSize = b.addr := by
    rw [sub32_of_le (by omega) (by unfold heapBlockSize; omega)]
    rfl
  simp only [LinkFollowed, hit] at h
  rcases h with h0 | hused | ⟨hchain, hnext⟩
  · exact .inl h0
  · exact .inr (.inl hused)
  · rcases hlink with h0 | ⟨hlo, hle⟩
    · exact .inl h0
    obtain ⟨q, hq, p, hp, hpaddr⟩ := hA.inChain_iff.mp hchain
    have hpw := (hA.region q hq).within p hp
    unfold Block.fin heapBlockSize at hpw
    change p.addr = prevAt s.heap.mem b.addr at hpaddr
    have hqr : q = r := by
      by_contra hne
      have := hA.disjoint hq (by simp) hne
      omega
    subst hqr
    have hp₁ : p ∈ l₁ := by
      rw [hl, List.mem_append, List.mem_cons] at hp
      rcases hp with hp | rfl | hp
      · exact hp
      · omega
      · have := hbehind p hp
        omega
    obtain ⟨k₁, k₂, rfl⟩ := List.append_of_mem hp₁
    refine .inr (.inr ⟨k₁, p, k₂, rfl, hpaddr, ?_⟩)
    cases k₂ with
    | nil => simp
    | cons c k =>
      rw [List.append_assoc, List.cons_append] at hR
      have hpn : load32 s.heap.mem (load32 s.heap.mem (b.addr + offPrev) + offNext) = c.addr :=
        (congrArg (fun a => load32 s.heap.mem (a + offNext)) hpaddr.symm).trans
          hR.linked.at_of_append.next
      have hR' : Region s.heap.mem q.lo q.hi ((k₁ ++ [p]) ++ c :: (k ++ b :: l₂)) := by simpa using hR
      have hcf := hR'.linked.at_of_append.flags
      rw [hpn] at hnext
      intro d hd
      obtain rfl : c = d := by simpa using hd
      rcases hnext with heq | ⟨_, hfree⟩
      · have := hbefore c (by simp)
        omega
      · rw [hcf] at hfree
        exact (flags_free c).mp hfree

theorem inv_heapStep {given : List (Nat × Nat)} (s : HeapState) (op : HeapOp) (t : HeapState)
    (h : HeapInv given s) (hstep : heapStep s op = some t) (hc : LinkFollowed s op) :
    HeapInv given t := by
  cases op with
  | alloc count =>
    obtain ⟨rs, hA, hbounds, hlive⟩ := h
    obtain ⟨p, u, hrun, rs', hA', hbounds', hres⟩ := run_of_wp (wp_heapAlloc count hA)
    simp only [heapStep, hrun] at hstep
    split at hstep
    · rcases hres with ⟨rfl, hpay⟩ | ⟨hp, hpay⟩
      · obtain rfl := Option.some.inj hstep
        exact ⟨rs', hA', hbounds'.trans hbounds, hlive.trans hpay.symm⟩
      · rw [if_neg hp] at hstep
        obtain rfl := Option.some.inj hstep
        exact ⟨rs', hA', hbounds'.trans hbounds, (hlive.cons _).trans hpay.symm⟩
    · cases hstep
  | free block =>
    obtain ⟨rs, hA, hbounds, hlive⟩ := h
    simp only [heapStep] at hstep
    split at hstep
    case isFalse => cases hstep
    case isTrue hmem =>
      obtain ⟨rs₁, r, rs₂, l₁, b, l₂, rfl, hl, hb, rfl⟩ := mem_allPayloads (hlive.mem_iff.mp hmem)
      have hgood := backLinkGood_of_linkFollowed hA hl hc
      obtain ⟨_, u, hrun, rs', hA', hbounds', hpay⟩ := run_of_wp (wp_free_good hA hl hb hgood)
      simp only [hrun] at hstep
      obtain rfl := Option.some.inj hstep
      refine ⟨rs', hA', hbounds'.trans hbounds, ?_⟩
      simpa using (hlive.trans hpay).erase (b.addr + 16, b.size)
  | store a v =>
    simp only [heapStep] at hstep
    split at hstep
    case isFalse => cases hstep
    case isTrue ha =>
      obtain rfl := Option.some.inj hstep
      exact inv_store h ha v

def runOps (s : HeapState) : List HeapOp → Option HeapState
  | [] => some s
  | op :: rest => (heapStep s op).bind fun t => runOps t rest

theorem heapRun_of_runOps {C : HeapState → HeapOp → Prop} {s t u : HeapState} {ops : List HeapOp}
    (hC : ∀ op ∈ ops, ∀ v, C v op) (hst : HeapRun C s t) (h : runOps t ops = some u) : HeapRun C s u := by
  induction ops generalizing t with
  | nil =>
    obtain rfl := Option.some.inj h
    exact hst
  | cons op ops ih =>
    obtain ⟨v, hv, hu⟩ := Option.bind_eq_some_iff.mp h
    exact ih (fun o ho => hC o (List.mem_cons_of_mem _ ho)) (hst.tail hv (hC op List.mem_cons_self t)) hu

/-- In every run after boot in which each freed block has a back link that may be
followed, the heap is safe in every state reached. -/
theorem heap_safe_of_linkFollowed {given : List (Nat × Nat)} (hok : RegionsOk given) (h₀ : HeapMem) :
    wp (heapBoot given) noFault
      (fun _ h => ∀ s, HeapRun LinkFollowed ⟨h, []⟩ s → HeapSafe given s) h₀ :=
  wp_imp (wp_heapBoot hok h₀) fun _ _ hinv _ hrun =>
    safe_of_inv (hrun.invariant (HeapInv given) (fun s op t => inv_heapStep s op t) hinv)

def oneRegion : List (Nat × Nat) := [(0x1001, 0x2000)]

def zeroHeap : HeapMem := ⟨fun _ => 0, fun _ => 0⟩

theorem oneRegion_ok : RegionsOk oneRegion := by
  constructor <;> simp [oneRegion, heapMax]

/-- Two blocks are allocated and the second is freed. Its back link leads to the first, which is used. -/
theorem heap_safe_one_region : ∃ h s, heapBoot oneRegion zeroHeap = .ok ((), h) ∧ HeapRun LinkFollowed ⟨h, []⟩ s ∧
    s.live = [(4120, 100)] ∧ HeapSafe oneRegion s := by
  obtain ⟨_, h, hboot, hsafe⟩ := run_of_wp (heap_safe_of_linkFollowed oneRegion_ok zeroHeap)
  have htest : ((heapBoot oneRegion zeroHeap).toOption.any fun r => (runOps ⟨r.2, []⟩ [.alloc 100, .alloc 50]).any fun s =>
      decide (load32 s.heap.mem (load32 s.heap.mem (sub32 4236 heapBlockSize + offPrev) + offFlags) &&& heapFlgUsed ≠ 0) &&
        (heapStep s (.free (4236, 50))).any fun t => decide (t.live = [(4120, 100)])) = true := by decide +kernel
  rw [hboot] at htest
  simp only [Except.toOption, Option.any_some, Option.any_eq_true, Bool.and_eq_true, decide_eq_true_eq] at htest
  obtain ⟨s, hs, hlink, t, ht, hlive⟩ := htest
  have hallocs : ∀ op ∈ [HeapOp.alloc 100, .alloc 50], ∀ v, LinkFollowed v op := by
    simp [LinkFollowed]
  have hrun : HeapRun LinkFollowed ⟨h, []⟩ t := (heapRun_of_runOps hallocs (.refl _) hs).tail ht (.inr (.inl hlink))
  exact ⟨h, t, hboot, hrun, hlive, hsafe t hrun⟩

/-- Two blocks are allocated, the first is freed and split anew, its remainder
allocated as `(4176, 44)`, and then both sides of that allocation are freed. -/
def swallowOps : List HeapOp :=
  [.alloc 100, .alloc 100, .free (4120, 100), .alloc 40, .alloc 44, .free (4120, 40), .free (4236, 100)]

/-- After these operations a live allocation can no longer be freed. -/
theorem heap_free_panics_on_live :
    ¬wp (heapBoot oneRegion) noFault
      (fun _ h => ∀ s, HeapRun (fun _ _ => True) ⟨h, []⟩ s → HeapSafe oneRegion s) zeroHeap := by
  intro hall
  obtain ⟨_, h, hboot, hsafe⟩ := run_of_wp hall
  have htest : (match heapBoot oneRegion zeroHeap with
      | .ok (_, h) => (runOps ⟨h, []⟩ swallowOps).any fun s =>
          decide ((4176, 44) ∈ s.live) && (heapFree 4176 s.heap).isOk.not
      | .error _ => false) = true := by decide +kernel
  simp only [hboot, Option.any_eq_true, Bool.and_eq_true, decide_eq_true_eq] at htest
  obtain ⟨s, hs, hlive, hfail⟩ := htest
  obtain ⟨_, u, hrun, _⟩ := run_of_wp ((hsafe s (heapRun_of_runOps (fun _ _ _ => trivial) (.refl _) hs)).free _ hlive)
  rw [hrun] at hfail
  cases hfail

end YggKernel.Heap
