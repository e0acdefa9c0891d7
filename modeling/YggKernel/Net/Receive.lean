import YggKernel.Net.Interrupts

namespace YggKernel.Net

open Lib.Program

section Ring

/-- The bytes of `rtl8139_recv_buf`: the ring, and the slack behind it. -/
def recvBufSize : Nat := 8192 + 16

structure Packet where
  header : Fin 4 → Byte
  frame : List Byte

def Packet.bytes (p : Packet) : List Byte := List.ofFn p.header ++ p.frame

/-- The device stores bytes from a position on, at the end of the ring it goes on at the start. -/
def ringStore : Buffer → Nat → List Byte → Buffer
  | b, _, [] => b
  | b, k, x :: xs => ringStore (Function.update b k x) ((k + 1) % 8192) xs

/-- Packets that the device stores, and the causes that it sets for them. -/
structure Arrival where
  packets : List Packet
  causes : BitVec 16

def Arrival.bytes (a : Arrival) : List Byte := a.packets.flatMap Packet.bytes

def Rtl8139.arrival (n : Rtl8139) (a : Arrival) : DeviceEvent where
  causes := a.causes
  cbr := BitVec.ofNat 16 ((n.cbr.toNat + a.bytes.length) % 8192)
  recvBuf := ringStore n.recvBuf n.cbr.toNat a.bytes

def Rtl8139.arrivals (n : Rtl8139) (a b c : Arrival) : IrqEvents :=
  let acked := n.after (n.arrival a)
  let read := acked.after (acked.arrival b)
  ⟨n.arrival a, acked.arrival b, read.arrival c⟩

/-- The states that the driver reaches, each with the packets that arrived while the last receive interrupt was
handled, when its position had been read already, and those that arrived since. -/
inductive Received : NetState → List Packet → List Packet → Prop
  | init {s : NetState} : s.nic.cbr = s.nic.cbrPrev → s.nic.cbr.toNat < 8192 → Received s [] []
  | tx {s t : NetState} {late ps : List Packet} {buf : List Byte} :
    Received s late ps → nicStep s (.tx buf) = some t → Received t late ps
  | device {s t : NetState} {late ps : List Packet} (a : Arrival) :
    Received s late ps → nicStep s (.device (s.nic.arrival a)) = some t → Received t late (ps ++ a.packets)
  | irq {s t : NetState} {late ps : List Packet} (a b c : Arrival) :
    Received s late ps → nicStep s (.irq (s.nic.arrivals a b c)) = some t →
      Received t (if s.nic.isr &&& isrRok ≠ 0 then c.packets else late)
        (if s.nic.isr &&& isrRok ≠ 0 then [] else ps ++ a.packets)

structure HandsOver (n : Rtl8139) (ps : List Packet) : Prop where
  inside : ∀ r ∈ n.handed, r.1 + r.2 ≤ recvBufSize
  frames : n.handed.map (fun r => (List.range r.2).map fun i => n.recvBuf (r.1 + i)) = ps.map Packet.frame

/-- There is no packet, or a single one that ends before the end of the ring. -/
def SingleUnwrapped (pos : Nat) (ps : List Packet) : Prop := ps = [] ∨ ∃ p, ps = [p] ∧ pos + p.bytes.length < 8192

end Ring

section Storing

variable {b : Buffer} {k : Nat} {xs : List Byte}

theorem ringStore_append (hk : k < 8192) (ys : List Byte) :
    ringStore b k (xs ++ ys) = ringStore (ringStore b k xs) ((k + xs.length) % 8192) ys := by
  induction xs generalizing b k with
  | nil => rw [List.nil_append, List.length_nil, Nat.add_zero, Nat.mod_eq_of_lt hk, ringStore]
  | cons x xs ih =>
    rw [List.cons_append, ringStore, ringStore, ih (Nat.mod_lt _ (by decide)), Nat.mod_add_mod, List.length_cons,
      Nat.add_right_comm, Nat.add_assoc]

theorem next_pos (xs : List Byte) (h : k + xs.length + 1 ≤ 8192) : xs = [] ∨ (k + 1) % 8192 = k + 1 := by
  cases xs with
  | nil => exact .inl rfl
  | cons x xs =>
    rw [List.length_cons] at h
    exact .inr (Nat.mod_eq_of_lt (by omega))

theorem ringStore_below (h : k + xs.length ≤ 8192) {i : Nat} (hi : i < k) : ringStore b k xs i = b i := by
  induction xs generalizing b k with
  | nil => rfl
  | cons x xs ih =>
    rw [List.length_cons] at h
    have hfirst : Function.update b k x i = b i := Function.update_of_ne (by omega) _ _
    rw [ringStore]
    rcases next_pos xs (k := k) (by omega) with rfl | hnext
    · exact hfirst
    · rw [hnext, ih (by omega) (by omega), hfirst]

theorem ringStore_get (h : k + xs.length ≤ 8192) {i : Nat} (hi : i < xs.length) :
    ringStore b k xs (k + i) = xs[i] := by
  induction xs generalizing b k i with
  | nil => exact absurd hi (Nat.not_lt_zero _)
  | cons x xs ih =>
    rw [List.length_cons] at h hi
    rw [ringStore]
    cases i with
    | zero =>
      rw [List.getElem_cons_zero]
      rcases next_pos xs (k := k) (by omega) with rfl | hnext
      · exact Function.update_self _ _ _
      · rw [hnext, ringStore_below (by omega) (by omega)]
        exact Function.update_self _ _ _
    | succ i =>
      rcases next_pos xs (k := k) (by omega) with rfl | hnext
      · exact absurd hi (by rw [List.length_nil]; omega)
      · rw [hnext, List.getElem_cons_succ, ← ih (b := Function.update b k x) (k := k + 1) (by omega) (by omega)]
        exact congrArg _ (by omega)

end Storing

section Driver

variable {s t : NetState}

/-- A receive interrupt hands over the ranges of the state in which it reads the position. -/
theorem irqHandler_receives {ev : IrqEvents} (hrok : s.nic.isr &&& isrRok ≠ 0) :
    rtl8139IrqHandler ev s = (do
      ackCause isrRok
      setNic (·.after ev.beforeRead)
      handOver (ev.atRead s.nic)
      setNic (·.after ev.inHandling)
      setNic fun n => { n with cbrPrev := n.cbr }
      return 0 : Prog Fault NetState Int) (arrived s ev.beforeAck) := by
  have hget : ∀ (f : NetState → Prog Fault NetState Int) t, (get >>= f) t = f t t := fun _ _ => rfl
  have hset : ∀ g (f : Unit → Prog Fault NetState Int) t, (setNic g >>= f) t = f () { t with nic := g t.nic } := fun _ _ _ => rfl
  rw [rtl8139IrqHandler, hget, hset, if_pos hrok, rtl8139Recv_eq]
  simp only [bind_assoc]
  unfold ackCause
  rw [hset, hset, hset, hset, hget]
  rfl

structure RingIrq (s : NetState) (ev : IrqEvents) (t : NetState) : Prop where
  quiet : s.nic.isr &&& isrRok = 0 → t.nic.recvBuf = ev.beforeAck.recvBuf ∧ t.nic.cbr = ev.beforeAck.cbr ∧
    t.nic.cbrPrev = s.nic.cbrPrev
  received : s.nic.isr &&& isrRok ≠ 0 → t.nic.cbr = ev.inHandling.cbr ∧ t.nic.cbrPrev = ev.inHandling.cbr

theorem IrqDone.ring {ev : IrqEvents} (h : IrqDone s ev t) : RingIrq s ev t := by
  have hno : branchCause s.nic.isr ≠ isrRok → s.nic.isr &&& isrRok = 0 := fun hne => by
    by_contra hrok
    exact hne (if_pos hrok)
  cases h with
  | received hbranch hu _ =>
    refine ⟨fun hzero => ?_, fun _ => ⟨rfl, rfl⟩⟩
    unfold branchCause at hbranch
    rw [if_neg (not_not.mpr hzero)] at hbranch
    split at hbranch
    · exact absurd hbranch (by decide)
    split at hbranch
    · exact absurd hbranch (by decide)
    · exact absurd hbranch (by decide)
  | unhandled hbranch | next hbranch _ _ | idle hbranch _ _ | error hbranch =>
    exact ⟨fun _ => ⟨rfl, rfl, rfl⟩, fun hrok => absurd (hno (by rw [hbranch]; decide)) hrok⟩

end Driver

section Pending

variable {n : Rtl8139} {s : NetState} {late ps : List Packet} {a b c : Arrival}

structure Pending (n : Rtl8139) (ps : List Packet) : Prop where
  low : n.cbrPrev.toNat < 8192
  cbr : n.cbr.toNat = (n.cbrPrev.toNat + (ps.flatMap Packet.bytes).length) % 8192
  stored : ∃ b, n.recvBuf = ringStore b n.cbrPrev.toNat (ps.flatMap Packet.bytes)

theorem Pending.none (hcbr : n.cbr = n.cbrPrev) (hlow : n.cbr.toNat < 8192) : Pending n [] where
  low := hcbr ▸ hlow
  cbr := by
    rw [← hcbr]
    exact (Nat.mod_eq_of_lt hlow).symm
  stored := ⟨n.recvBuf, rfl⟩

theorem toNat_position (k : Nat) : (BitVec.ofNat 16 (k % 8192)).toNat = k % 8192 := by
  rw [BitVec.toNat_ofNat, Nat.mod_eq_of_lt (by omega)]

theorem Pending.arrival (h : Pending n ps) : Pending (n.after (n.arrival a)) (ps ++ a.packets) where
  low := h.low
  cbr := by
    unfold Rtl8139.after Rtl8139.arrival Arrival.bytes
    dsimp only
    rw [toNat_position, h.cbr, Nat.mod_add_mod, List.flatMap_append, List.length_append, Nat.add_assoc]
  stored := by
    obtain ⟨b, hb⟩ := h.stored
    refine ⟨b, ?_⟩
    show ringStore n.recvBuf n.cbr.toNat _ = ringStore b n.cbrPrev.toNat _
    rw [List.flatMap_append, ringStore_append h.low, ← h.cbr, ← hb]
    rfl

theorem Pending.atRead (h : Pending n ps) : Pending ((n.arrivals a b c).atRead n) (ps ++ a.packets ++ b.packets) :=
  h.arrival.arrival

theorem Received.pending (h : Received s late ps) : Pending s.nic ps := by
  induction h with
  | init hcbr hlow => exact Pending.none hcbr hlow
  | tx _ hstep ih =>
    have hsame := sends_of_step hstep
    refine ⟨hsame.cbrPrev ▸ ih.low, ?_, ?_⟩
    · rw [hsame.cbr, hsame.cbrPrev]
      exact ih.cbr
    · rw [hsame.recvBuf, hsame.cbrPrev]
      exact ih.stored
  | device a _ hstep ih =>
    obtain rfl := Option.some.inj hstep
    exact ih.arrival
  | @irq s t late ps a b c _ hstep ih =>
    have hring := (irqDone_of_step hstep).ring
    by_cases hrok : s.nic.isr &&& isrRok ≠ 0
    · obtain ⟨hcbr, hprev⟩ := hring.received hrok
      rw [if_pos hrok]
      refine Pending.none (hcbr.trans hprev.symm) ?_
      rw [hcbr]
      exact (toNat_position _).trans_lt (Nat.mod_lt _ (by decide))
    · obtain ⟨hbuf, hcbr, hprev⟩ := hring.quiet (not_not.mp hrok)
      have hnew : Pending (s.nic.after (s.nic.arrival a)) (ps ++ a.packets) := ih.arrival
      rw [if_neg hrok]
      refine ⟨hprev ▸ ih.low, ?_, ?_⟩
      · rw [hcbr, hprev]
        exact hnew.cbr
      · rw [hbuf, hprev]
        exact hnew.stored

theorem length_bytes (p : Packet) : p.bytes.length = p.frame.length + 4 := by
  rw [Packet.bytes, List.length_append, List.length_ofFn, Nat.add_comm]

theorem toNat_size (n : Rtl8139) : (if n.cbrPrev ≤ n.cbr then n.cbr - n.cbrPrev else n.cbr).toNat =
    if n.cbrPrev.toNat ≤ n.cbr.toNat then n.cbr.toNat - n.cbrPrev.toNat else n.cbr.toNat := by
  by_cases hle : n.cbrPrev ≤ n.cbr
  · rw [if_pos hle, if_pos (BitVec.le_def.mp hle), BitVec.toNat_sub_of_le hle]
  · rw [if_neg hle, if_neg (fun h => hle (BitVec.le_def.mpr h))]

theorem handed_eq (n : Rtl8139) (size : Nat)
    (hsize : size = if n.cbrPrev.toNat ≤ n.cbr.toNat then n.cbr.toNat - n.cbrPrev.toNat else n.cbr.toNat) :
    n.handed = if 4 ≤ size then [(n.cbrPrev.toNat + 4, size - 4)] else [] := by
  unfold Rtl8139.handed
  dsimp only
  rw [toNat_size, ← hsize]
  refine if_congr ?_ rfl rfl
  rw [BitVec.le_def, toNat_size, ← hsize]
  rfl

theorem single_of_handsOver (h : Pending n ps) (hover : HandsOver n ps) : SingleUnwrapped n.cbrPrev.toNat ps := by
  have hframes := hover.frames
  obtain ⟨size, hsize⟩ : ∃ size, size = if n.cbrPrev.toNat ≤ n.cbr.toNat then n.cbr.toNat - n.cbrPrev.toNat else n.cbr.toNat :=
    ⟨_, rfl⟩
  rw [handed_eq n size hsize] at hframes
  have hcount := congrArg List.length hframes
  rw [List.length_map, List.length_map] at hcount
  match ps, hcount, hframes, h with
  | [], _, _, _ => exact .inl rfl
  | [p], hcount, hframes, h =>
    have hlarge : 4 ≤ size := by
      by_contra hsmall
      rw [if_neg hsmall] at hcount
      cases hcount
    rw [if_pos hlarge, List.map_singleton, List.map_singleton] at hframes
    have hlen := congrArg List.length (List.cons.inj hframes).1
    rw [List.length_map, List.length_range] at hlen
    have hcbr := h.cbr
    have hlow := h.low
    have hbytes := length_bytes p
    rw [List.flatMap_singleton] at hcbr
    refine .inr ⟨p, rfl, ?_⟩
    by_cases hle : n.cbrPrev.toNat ≤ n.cbr.toNat
    · rw [if_pos hle] at hsize
      omega
    · rw [if_neg hle] at hsize
      omega
  | _ :: _ :: _, hcount, _, _ =>
    by_cases hlarge : 4 ≤ size
    · rw [if_pos hlarge] at hcount
      cases hcount
    · rw [if_neg hlarge] at hcount
      cases hcount

theorem handsOver_of_single (h : Pending n ps) (hsingle : SingleUnwrapped n.cbrPrev.toNat ps) : HandsOver n ps := by
  have hcbr := h.cbr
  have hlow := h.low
  rcases hsingle with rfl | ⟨p, rfl, hend⟩
  · rw [List.flatMap_nil, List.length_nil, Nat.add_zero, Nat.mod_eq_of_lt hlow] at hcbr
    have hnone : n.handed = [] := by
      rw [handed_eq n 0 (by rw [if_pos hcbr.ge]; omega)]
      rfl
    refine ⟨fun r hr => ?_, ?_⟩
    · rw [hnone] at hr
      cases hr
    · rw [hnone]
      rfl
  · have hbytes := length_bytes p
    obtain ⟨b, hb⟩ := h.stored
    rw [List.flatMap_singleton] at hcbr hb
    rw [Nat.mod_eq_of_lt hend] at hcbr
    have hone : n.handed = [(n.cbrPrev.toNat + 4, p.frame.length)] := by
      rw [handed_eq n p.bytes.length (by rw [if_pos (by omega)]; omega), if_pos (by omega), hbytes, Nat.add_sub_cancel]
    refine ⟨fun r hr => ?_, ?_⟩
    · rw [hone] at hr
      obtain rfl := List.mem_singleton.mp hr
      unfold recvBufSize
      dsimp only
      omega
    · rw [hone, List.map_singleton, List.map_singleton]
      refine congrArg (fun l => [l]) (List.ext_getElem (by rw [List.length_map, List.length_range]) fun i _ hi => ?_)
      rw [List.getElem_map, List.getElem_range, hb, Nat.add_assoc, ringStore_get (by omega) (by omega)]
      unfold Packet.bytes
      rw [List.getElem_append_right (by rw [List.length_ofFn]; omega)]
      refine getElem_congr_idx ?_
      rw [List.length_ofFn]
      omega

theorem late_of_handsOver (h : Pending n ps) (hover : HandsOver n (late ++ ps)) : late = [] := by
  by_contra hne
  have hlen := List.length_pos_iff.mpr hne
  have hcount := congrArg List.length hover.frames
  rw [List.length_map, List.length_map, List.length_append] at hcount
  have hle : n.handed.length ≤ 1 := by
    rw [handed_eq n _ rfl, apply_ite List.length]
    exact ite_le_one le_rfl zero_le_one
  obtain rfl : ps = [] := List.length_eq_zero_iff.mp (by omega)
  have hcbr := h.cbr
  rw [List.flatMap_nil, List.length_nil, Nat.add_zero, Nat.mod_eq_of_lt h.low] at hcbr
  rw [handed_eq n 0 (by rw [if_pos hcbr.ge]; omega)] at hcount
  change 0 = _ at hcount
  omega

/-- A receive interrupt hands over the packets that have arrived since the last one exactly if none arrived while
that one was handled, and since then none or a single one that ends before the end of the ring. -/
theorem recv_hands_over_iff (h : Received s late ps) (hrok : s.nic.isr &&& isrRok ≠ 0) {ev : IrqEvents}
    (hev : ev = s.nic.arrivals a b c) :
    rtl8139IrqHandler ev s = (do
      ackCause isrRok
      setNic (·.after ev.beforeRead)
      handOver (ev.atRead s.nic)
      setNic (·.after ev.inHandling)
      setNic fun n => { n with cbrPrev := n.cbr }
      return 0 : Prog Fault NetState Int) (arrived s ev.beforeAck) ∧
      (HandsOver (ev.atRead s.nic) (late ++ (ps ++ a.packets ++ b.packets)) ↔
        late = [] ∧ SingleUnwrapped s.nic.cbrPrev.toNat (ps ++ a.packets ++ b.packets)) := by
  have hpending : Pending (ev.atRead s.nic) (ps ++ a.packets ++ b.packets) := by
    rw [hev]
    exact h.pending.atRead
  have hprev : (ev.atRead s.nic).cbrPrev = s.nic.cbrPrev := rfl
  refine ⟨irqHandler_receives hrok, fun hover => ?_, ?_⟩
  · obtain rfl := late_of_handsOver hpending hover
    exact ⟨rfl, hprev ▸ single_of_handsOver hpending hover⟩
  · rintro ⟨rfl, hsingle⟩
    exact handsOver_of_single hpending (hprev ▸ hsingle)

def shortPacket (x : Byte) : Packet := ⟨fun _ => 0, [x]⟩

def nothing : Arrival := ⟨[], 0⟩

theorem recv_hands_over_one_packet : ∃ s ev, Received s [] [shortPacket 7] ∧ ev = s.nic.arrivals nothing nothing nothing ∧
    HandsOver (ev.atRead s.nic) [shortPacket 7] := by
  have hinit : Received ⟨idleNic 1, []⟩ [] [] := .init rfl (by decide)
  have hone : Received _ [] [shortPacket 7] := .device ⟨[shortPacket 7], isrRok⟩ hinit rfl
  exact ⟨_, _, hone, rfl, (recv_hands_over_iff hone (by decide) (Eq.refl (Rtl8139.arrivals _ nothing nothing nothing))).2.mpr
    ⟨rfl, .inr ⟨_, rfl, by decide⟩⟩⟩

/-- Two packets are passed on as one, with the header of the second between them. -/
theorem second_packet_lost : ∃ s, Received s [] [shortPacket 7, shortPacket 8] ∧ s.nic.isr &&& isrRok ≠ 0 ∧
    s.nic.handed = [(4, 6)] ∧ ¬HandsOver s.nic [shortPacket 7, shortPacket 8] := by
  have hinit : Received ⟨idleNic 1, []⟩ [] [] := .init rfl (by decide)
  have htwo : Received _ [] [shortPacket 7, shortPacket 8] := .device ⟨[shortPacket 7, shortPacket 8], isrRok⟩ hinit rfl
  refine ⟨_, htwo, by decide, by decide, fun hover => ?_⟩
  have hcount := congrArg List.length hover.frames
  exact absurd hcount (by decide)

end Pending

end YggKernel.Net
