import YggKernel.Net.Interrupts

namespace YggKernel.Net

open Lib.Program Lib.Runs

/-- The driver, with the packets it accepted so far and the number of those whose transmission came to its end. -/
structure Ring where
  net : NetState
  accepted : List (List Byte)
  completed : Nat

def reported (s : NetState) (isr : BitVec 16) : NetState :=
  { s with nic := { s.nic with isr := isr, sending := false } }

inductive RingOp
  | tx (buf : List Byte)
  | complete (isr : BitVec 16) (ev : IrqEvents)

inductive RingStep : Ring → RingOp → Ring → Prop
  | tx {r : Ring} {t : NetState} {buf : List Byte} {res : Int} :
      rtl8139Tx r.net.nic.dev.id buf r.net = .ok (res, t) →
      RingStep r (.tx buf) { r with
        net := t
        accepted := if res = 0 then r.accepted ++ [buf] else r.accepted }
  | complete {r : Ring} {t : NetState} {isr : BitVec 16} {ev : IrqEvents} {res : Int} :
      r.net.nic.sending = true → isr &&& isrTok ≠ 0 → isr &&& isrRok = 0 →
      rtl8139IrqHandler ev (reported r.net isr) = .ok (res, t) →
      RingStep r (.complete isr ev) { r with net := t, completed := r.completed + 1 }

def RingRun : Ring → Ring → Prop := Run RingStep always

def slotOf (i : Fin 4) (k : Nat) : Fin 4 := ⟨(i.val + k) % 4, Nat.mod_lt _ (by decide)⟩

structure Filled (n : Rtl8139) (i : Fin 4) (buf : List Byte) : Prop where
  length : n.buflen i = buf.length
  bound : buf.length ≤ 1024
  bytes : ∀ j (h : j < buf.length), n.txbuf (1024 * i.val + j) = buf[j]

/-- The slots in use are the ones of the packets that are accepted and not completed. They lie in
a row around the ring, and the last one in progress is right before the next one to be sent. -/
structure RingInv (i : Fin 4) (r : Ring) : Prop where
  next : r.net.nic.txRegNum = slotOf i r.net.nic.starts.length
  used : ∀ j, Used r.net.nic.status j ↔ ∃ k, r.completed ≤ k ∧ k < r.accepted.length ∧ slotOf i k = j
  room : r.accepted.length ≤ r.completed + 4
  order : r.net.nic.starts <+: r.accepted
  busy : Busy r.net.nic ↔ r.net.nic.starts.length = r.completed + 1
  sending : r.net.nic.sending = true ↔ Busy r.net.nic
  progress : r.net.nic.starts.length = r.completed + 1 ∨ r.net.nic.starts.length = r.completed ∧ r.accepted.length = r.completed
  filled : ∀ k buf, r.completed ≤ k → r.accepted[k]? = some buf → Filled r.net.nic (slotOf i k) buf

section Slots

variable {i j : Fin 4} {status : BitVec 8}

theorem slotOf_succ (k : Nat) : slotOf i (k + 1) = slotOf i k + 1 := by
  refine Fin.ext ?_
  rw [Fin.val_add]
  simp only [slotOf, Fin.val_one]
  omega

theorem slotOf_slotOf (k m : Nat) : slotOf (slotOf i k) m = slotOf i (k + m) := by
  refine Fin.ext ?_
  simp only [slotOf]
  omega

theorem slotOf_inj {k m : Nat} : slotOf i k = slotOf i m ↔ k % 4 = m % 4 := by
  rw [Fin.ext_iff]
  simp only [slotOf]
  omega

theorem used_iff : Used status j ↔ status.getLsbD j.val = true := by
  have hbit : slotBit j = BitVec.twoPow 8 j.val := by
    revert j
    decide
  unfold Used
  rw [hbit, BitVec.and_twoPow]
  have hne : BitVec.twoPow 8 j.val ≠ 0#8 := by
    revert j
    decide
  cases h : status.getLsbD j.val
  · simp
  · simpa using hne

theorem getLsbD_slotBit : (slotBit i).getLsbD j.val = decide (j = i) := by
  revert i j
  decide

theorem getLsbD_statusTxop : statusTxop.getLsbD j.val = false := by
  revert j
  decide

theorem used_or_slotBit : Used (status ||| slotBit i) j ↔ Used status j ∨ j = i := by
  rw [used_iff, used_iff, BitVec.getLsbD_or, getLsbD_slotBit, Bool.or_eq_true, decide_eq_true_eq]

theorem used_freed : Used (status &&& ~~~(slotBit i ||| statusTxop)) j ↔ Used status j ∧ j ≠ i := by
  have hlt : j.val < 8 := by omega
  rw [used_iff, used_iff, BitVec.getLsbD_and, BitVec.getLsbD_not, BitVec.getLsbD_or, getLsbD_slotBit,
    getLsbD_statusTxop, Bool.or_false, decide_eq_true hlt, Bool.true_and, Bool.and_eq_true, Bool.not_eq_true',
    decide_eq_false_iff_not]

theorem slotOf_zero : slotOf j 0 = j := Fin.ext (Nat.mod_eq_of_lt j.isLt)

theorem slotOf_add_one (k : Nat) : slotOf (j + 1) k = slotOf j (k + 1) := by
  have hone : j + 1 = slotOf j 1 := by rw [slotOf_succ, slotOf_zero]
  rw [hone, slotOf_slotOf, Nat.add_comm]

theorem freeSlot_eq {m d : Nat} (hm : m < d) (hused : ∀ k < m, Used status (slotOf j k))
    (hfree : ¬Used status (slotOf j m)) : freeSlot status j d = some (slotOf j m) := by
  induction m generalizing j d with
  | zero =>
    obtain ⟨d, rfl⟩ := Nat.exists_eq_add_one_of_ne_zero hm.ne'
    rw [slotOf_zero] at hfree ⊢
    exact if_neg hfree
  | succ m ih =>
    obtain ⟨d, rfl⟩ := Nat.exists_eq_add_one_of_ne_zero (Nat.ne_zero_of_lt hm)
    have hfirst := hused 0 (Nat.succ_pos m)
    rw [slotOf_zero] at hfirst
    have hrest : freeSlot status (j + 1) d = some (slotOf (j + 1) m) := by
      refine ih (Nat.lt_of_succ_lt_succ hm) (fun k hk => ?_) ?_
      · rw [slotOf_add_one]
        exact hused _ (Nat.succ_lt_succ hk)
      · rwa [slotOf_add_one]
    rw [← slotOf_add_one, ← hrest]
    exact if_pos hfirst

end Slots

section Calls

variable {s : NetState} {buf : List Byte} {E : Fault → Prop} {i : Fin 4}

/-- The packet goes to the slot that the search found, and on from there when that is the next one
to be sent and nothing is being sent. -/
theorem wp_txAt (hlen : buf.length ≤ 1024) (hslot : freeSlot s.nic.status s.nic.txRegNum 4 = some i) :
    wp (rtl8139Tx s.nic.dev.id buf) E (fun res t => res = 0 ∧
      t = if s.nic.txRegNum = i ∧ ¬Busy s.nic then started (queued s i buf) i else queued s i buf) s := by
  rw [rtl8139Tx, wp_bind, wp_get, wp_bind, wp_kassert]
  refine ⟨fun _ => ?_, fun hno => absurd rfl (of_decide_eq_false hno)⟩
  rw [if_neg (by omega), wp_bind, rtl8139AllocTxbuf, wp_bind, wp_get]
  dsimp only
  rw [hslot]
  dsimp only
  rw [wp_bind, setNic, wp_modify, wp_pure]
  dsimp only
  rw [wp_bind, setNic, wp_modify, wp_bind, wp_get]
  by_cases hreg : s.nic.txRegNum = i
  · subst hreg
    rw [if_pos rfl, wp_bind]
    refine wp_txSched used_set (fun hbusy => ?_) fun hidle => ?_
    · rw [wp_pure, if_neg fun h => h.2 (busy_queued.mp hbusy)]
      exact ⟨rfl, rfl⟩
    · have hfree : ¬Busy s.nic := fun h => busy_queued.mpr h hidle
      rw [wp_pure, if_pos ⟨rfl, hfree⟩]
      exact ⟨rfl, rfl⟩
  · rw [if_neg hreg, wp_pure, if_neg fun h => hreg h.1]
    exact ⟨rfl, rfl⟩

theorem wp_txFull (hlen : buf.length ≤ 1024) (hfull : RingFull s.nic.status) :
    wp (rtl8139Tx s.nic.dev.id buf) E (fun res t => res = -1 ∧ t = s) s :=
  wp_tx rfl hlen (fun _ => ⟨rfl, rfl⟩) (fun j hj => absurd (hfull j) hj) fun hj => absurd (hfull _) hj

theorem wp_txLong (hlen : 1024 < buf.length) :
    wp (rtl8139Tx s.nic.dev.id buf) E (fun res t => res = -1 ∧ t = s) s := by
  rw [rtl8139Tx, wp_bind, wp_get, wp_bind, wp_kassert]
  refine ⟨fun _ => ?_, fun hno => absurd rfl (of_decide_eq_false hno)⟩
  rw [if_pos hlen]
  exact ⟨rfl, rfl⟩

theorem wp_irqTok {ev : IrqEvents} (htok : s.nic.isr &&& isrTok ≠ 0) (hrok : s.nic.isr &&& isrRok = 0)
    (hslot : Used s.nic.status (s.nic.txRegNum - 1)) :
    wp (rtl8139IrqHandler ev) E (fun _ t => t =
      if Used (freed s ev).nic.status s.nic.txRegNum then started (freed s ev) s.nic.txRegNum else freed s ev) s := by
  have hbranch : branchCause s.nic.isr = isrTok := (if_neg (not_not.mpr hrok)).trans (if_pos htok)
  have hrok' : ∀ {P : Prop}, branchCause s.nic.isr = isrRok → P := fun h => by
    rw [hbranch] at h
    exact absurd h (by decide)
  refine wp_imp (wp_irqHandler (fun h _ => hrok' h) fun _ hno _ => absurd hslot hno) fun _ t hdone => ?_
  cases hdone with
  | unhandled h =>
    rw [hbranch] at h
    exact absurd h (by decide)
  | received h _ _ => exact hrok' h
  | next _ _ hnext => exact (if_pos hnext).symm
  | idle _ _ hnext => exact (if_neg hnext).symm
  | error h =>
    rw [hbranch] at h
    exact absurd h (by decide)

end Calls

section Filling

variable {s : NetState} {n : Rtl8139} {buf : List Byte} {i j : Fin 4}

theorem Filled.queued (h : Filled s.nic j buf) {b : List Byte} (hb : b.length ≤ 1024) (hne : j ≠ i) :
    Filled (queued s i b).nic j buf := by
  have hval : j.val ≠ i.val := fun he => hne (Fin.ext he)
  refine ⟨(Function.update_of_ne hne ..).trans h.length, h.bound, fun k hk => ?_⟩
  have hbound := h.bound
  refine Eq.trans (if_neg ?_) (h.bytes k hk)
  omega

theorem filled_queued (hb : buf.length ≤ 1024) : Filled (queued s i buf).nic i buf := by
  refine ⟨?_, hb, fun k hk => ?_⟩
  · have hmask : buf.length &&& 0x0FFF = buf.length % 2 ^ 12 := Nat.and_two_pow_sub_one_eq_mod _ 12
    refine (Function.update_self ..).trans ?_
    rw [hmask, Nat.mod_eq_of_lt (by omega)]
  · refine (if_pos (by omega)).trans ?_
    rw [Nat.add_sub_cancel_left, List.getD_eq_getElem?_getD, List.getElem?_eq_getElem hk, Option.getD_some]

theorem Filled.sent (h : Filled n i buf) : slotBytes n i (n.buflen i) = buf := by
  rw [h.length]
  apply List.ext_getElem
  · simp [slotBytes]
  · intro k hk hk'
    simp only [slotBytes, List.getElem_map, List.getElem_range]
    exact h.bytes k hk'

theorem prefix_append {α : Type} {l l' : List α} {x : α} (h : l <+: l') (hx : l'[l.length]? = some x) :
    l ++ [x] <+: l' := by
  obtain ⟨rest, rfl⟩ := h
  cases rest with
  | nil =>
    rw [List.append_nil, List.getElem?_eq_none le_rfl] at hx
    cases hx
  | cons y rest =>
    rw [List.getElem?_append_right le_rfl, Nat.sub_self] at hx
    obtain rfl := Option.some.inj hx
    exact ⟨rest, by simp⟩

end Filling

section Invariant

variable {i : Fin 4} {r : Ring}

theorem RingInv.full_iff (h : RingInv i r) : RingFull r.net.nic.status ↔ r.accepted.length = r.completed + 4 := by
  have hroom := h.room
  constructor
  · intro hfull
    obtain ⟨k, hle, hlt, hk⟩ := (h.used _).mp (hfull (slotOf i r.accepted.length))
    have := slotOf_inj.mp hk
    omega
  · intro hlen j
    refine (h.used j).mpr ⟨r.completed + (j.val + 8 - i.val - r.completed % 4) % 4, by omega, by omega, Fin.ext ?_⟩
    simp only [slotOf]
    omega

theorem RingInv.freeSlot (h : RingInv i r) (hroom : r.accepted.length ≠ r.completed + 4) :
    freeSlot r.net.nic.status r.net.nic.txRegNum 4 = some (slotOf i r.accepted.length) := by
  have hbound := h.room
  have hle := h.order.length_le
  have hprogress := h.progress
  have htarget : slotOf i r.accepted.length =
      slotOf r.net.nic.txRegNum (r.accepted.length - r.net.nic.starts.length) := by
    rw [h.next, slotOf_slotOf, Nat.add_sub_cancel' hle]
  rw [htarget]
  refine freeSlot_eq (by omega) (fun k hk => ?_) ?_
  · rw [h.next, slotOf_slotOf]
    exact (h.used _).mpr ⟨_, by omega, by omega, rfl⟩
  · rw [← htarget]
    intro hused
    obtain ⟨k, hk, hlt, he⟩ := (h.used _).mp hused
    have := slotOf_inj.mp he
    omega

theorem RingInv.used_accept {buf : List Byte} (h : RingInv i r) (j : Fin 4) :
    Used (queued r.net (slotOf i r.accepted.length) buf).nic.status j ↔
      ∃ k, r.completed ≤ k ∧ k < r.accepted.length + 1 ∧ slotOf i k = j := by
  have hle := h.order.length_le
  have hprogress := h.progress
  have hstep : Used (queued r.net (slotOf i r.accepted.length) buf).nic.status j ↔
      Used r.net.nic.status j ∨ j = slotOf i r.accepted.length := by
    unfold queued
    dsimp only
    rw [used_or_slotBit, used_or_slotBit]
    exact ⟨fun hj => hj.elim id .inr, .inl⟩
  rw [hstep, h.used]
  constructor
  · rintro (⟨k, hk, hlt, he⟩ | rfl)
    · exact ⟨k, hk, by omega, he⟩
    · exact ⟨r.accepted.length, by omega, by omega, rfl⟩
  · rintro ⟨k, hk, hlt, rfl⟩
    by_cases hlast : k = r.accepted.length
    · exact .inr (by rw [hlast])
    · exact .inl ⟨k, hk, by omega, rfl⟩

theorem RingInv.filled_accept {buf b : List Byte} {k : Nat} (h : RingInv i r) (hlen : buf.length ≤ 1024)
    (hroom : r.accepted.length ≠ r.completed + 4) (hk : r.completed ≤ k) (hb : (r.accepted ++ [buf])[k]? = some b) :
    Filled (queued r.net (slotOf i r.accepted.length) buf).nic (slotOf i k) b := by
  have hbound := h.room
  rcases Nat.lt_trichotomy k r.accepted.length with hlt | rfl | hgt
  · rw [List.getElem?_append_left hlt] at hb
    refine (h.filled k b hk hb).queued hlen fun he => ?_
    have := slotOf_inj.mp he
    omega
  · rw [List.getElem?_concat_length] at hb
    obtain rfl := Option.some.inj hb
    exact filled_queued hlen
  · rw [List.getElem?_eq_none (by rw [List.length_append, List.length_singleton]; omega)] at hb
    cases hb

theorem RingInv.wait {buf : List Byte} (h : RingInv i r) (hlen : buf.length ≤ 1024)
    (hroom : r.accepted.length ≠ r.completed + 4) (hbusy : Busy r.net.nic) :
    RingInv i { r with net := queued r.net (slotOf i r.accepted.length) buf, accepted := r.accepted ++ [buf] } := by
  have hbound := h.room
  have hlength : (r.accepted ++ [buf]).length = r.accepted.length + 1 := List.length_append
  refine ⟨h.next, fun j => ?_, ?_, h.order.trans (List.prefix_append ..), busy_queued.trans h.busy,
    h.sending.trans busy_queued.symm, .inl (h.busy.mp hbusy), fun k b => h.filled_accept hlen hroom⟩
  · rw [hlength]
    exact h.used_accept j
  · rw [hlength]
    dsimp only
    omega

theorem busy_started (s : NetState) (j : Fin 4) : Busy (started s j).nic := by
  unfold Busy started
  dsimp only
  rw [BitVec.and_or_distrib_right, BitVec.and_self]
  exact fun hzero => absurd (BitVec.or_eq_zero_iff.mp hzero).2 (by decide)

theorem RingInv.send {buf : List Byte} (h : RingInv i r) (hlen : buf.length ≤ 1024) (hidle : ¬Busy r.net.nic) :
    RingInv i { r with
      net := started (queued r.net (slotOf i r.accepted.length) buf) (slotOf i r.accepted.length)
      accepted := r.accepted ++ [buf] } := by
  obtain ⟨hstarted, hall⟩ : r.net.nic.starts.length = r.completed ∧ r.accepted.length = r.completed :=
    h.progress.resolve_left fun hone => hidle (h.busy.mpr hone)
  have heq : r.net.nic.starts = r.accepted := h.order.eq_of_length (by omega)
  have hlength : (r.accepted ++ [buf]).length = r.accepted.length + 1 := List.length_append
  have hstarts : (started (queued r.net (slotOf i r.accepted.length) buf) (slotOf i r.accepted.length)).nic.starts =
      r.accepted ++ [buf] := by
    unfold started
    dsimp only
    rw [(filled_queued hlen).sent]
    exact congrArg (· ++ [buf]) heq
  refine ⟨?_, fun j => ?_, ?_, ?_, ?_, ?_, ?_, fun k b hk hb => ?_⟩
  · rw [hstarts, hlength, slotOf_succ]
    rfl
  · rw [hlength]
    exact (used_or_txop _ _).trans (h.used_accept j)
  · rw [hlength]
    dsimp only
    omega
  · rw [hstarts]
  · rw [hstarts, hlength]
    exact ⟨fun _ => by dsimp only; omega, fun _ => busy_started _ _⟩
  · exact ⟨fun _ => busy_started _ _, fun _ => rfl⟩
  · rw [hstarts, hlength]
    exact .inl (by dsimp only; omega)
  · obtain ⟨h1, h2, h3⟩ := h.filled_accept hlen (by omega) hk hb
    exact ⟨h1, h2, h3⟩

theorem RingInv.accept {buf : List Byte} {slot : Fin 4} {t : NetState} (h : RingInv i r) (hlen : buf.length ≤ 1024)
    (hroom : r.accepted.length ≠ r.completed + 4) (hat : slot = slotOf i r.accepted.length)
    (ht : t = if r.net.nic.txRegNum = slot ∧ ¬Busy r.net.nic then started (queued r.net slot buf) slot
      else queued r.net slot buf) : RingInv i { r with net := t, accepted := r.accepted ++ [buf] } := by
  subst hat
  by_cases hbusy : Busy r.net.nic
  · rw [if_neg fun hc => hc.2 hbusy] at ht
    rw [ht]
    exact h.wait hlen hroom hbusy
  · obtain ⟨hstarted, hall⟩ := h.progress.resolve_left fun hone => hbusy (h.busy.mpr hone)
    have hslot : r.net.nic.txRegNum = slotOf i r.accepted.length := by rw [h.next, hstarted, hall]
    rw [if_pos ⟨hslot, hbusy⟩] at ht
    rw [ht]
    exact h.send hlen hbusy

section Finishing

variable {isr : BitVec 16} {ev : IrqEvents}

theorem RingInv.used_finish (h : RingInv i r) (hstarted : r.net.nic.starts.length = r.completed + 1) (j : Fin 4) :
    Used (freed (reported r.net isr) ev).nic.status j ↔ ∃ k, r.completed + 1 ≤ k ∧ k < r.accepted.length ∧ slotOf i k = j := by
  have hbound := h.room
  have hprev : r.net.nic.txRegNum - 1 = slotOf i r.completed := by
    rw [h.next, hstarted, slotOf_succ, add_sub_cancel_right]
  refine used_freed.trans ((and_congr (h.used j) (by rw [show (reported r.net isr).nic.txRegNum - 1 = _ from hprev])).trans ⟨?_, ?_⟩)
  · rintro ⟨⟨k, hk, hlt, rfl⟩, hne⟩
    refine ⟨k, Nat.lt_of_le_of_ne hk fun he => hne ?_, hlt, rfl⟩
    rw [he]
  · rintro ⟨k, hk, hlt, rfl⟩
    refine ⟨⟨k, by omega, hlt, rfl⟩, fun he => ?_⟩
    have := slotOf_inj.mp he
    omega

theorem RingInv.filled_finish (isr : BitVec 16) (ev : IrqEvents) {k : Nat} {b : List Byte} (h : RingInv i r) (hk : r.completed ≤ k) (hb : r.accepted[k]? = some b) :
    Filled (freed (reported r.net isr) ev).nic (slotOf i k) b := by
  obtain ⟨h1, h2, h3⟩ := h.filled k b hk hb
  exact ⟨h1, h2, h3⟩

theorem RingInv.sendNext (h : RingInv i r) (hstarted : r.net.nic.starts.length = r.completed + 1)
    (hnext : r.net.nic.starts.length < r.accepted.length) :
    RingInv i { r with
      net := started (freed (reported r.net isr) ev) r.net.nic.txRegNum
      completed := r.completed + 1 } := by
  have hbound := h.room
  obtain ⟨buf, hbuf⟩ : ∃ buf, r.accepted[r.net.nic.starts.length]? = some buf := ⟨_, List.getElem?_eq_getElem hnext⟩
  have hfill := h.filled_finish isr ev (by omega) hbuf
  rw [← h.next] at hfill
  have hstarts : (started (freed (reported r.net isr) ev) r.net.nic.txRegNum).nic.starts = r.net.nic.starts ++ [buf] := by
    unfold started
    dsimp only
    rw [hfill.sent]
    rfl
  have hlength : (r.net.nic.starts ++ [buf]).length = r.net.nic.starts.length + 1 := List.length_append
  refine ⟨?_, fun j => (used_or_txop _ _).trans (h.used_finish hstarted j), ?_, ?_, ?_, ?_, ?_, fun k b hk hb => ?_⟩
  · rw [hstarts, hlength, slotOf_succ, ← h.next]
    rfl
  · dsimp only
    omega
  · rw [hstarts]
    exact prefix_append h.order hbuf
  · rw [hstarts, hlength]
    exact ⟨fun _ => by dsimp only; omega, fun _ => busy_started _ _⟩
  · exact ⟨fun _ => busy_started _ _, fun _ => rfl⟩
  · rw [hstarts, hlength]
    exact .inl (by dsimp only; omega)
  · obtain ⟨h1, h2, h3⟩ := h.filled_finish isr ev (Nat.le_of_succ_le hk) hb
    exact ⟨h1, h2, h3⟩

theorem RingInv.rest (h : RingInv i r) (hstarted : r.net.nic.starts.length = r.completed + 1)
    (hall : r.accepted.length ≤ r.net.nic.starts.length) :
    RingInv i { r with net := freed (reported r.net isr) ev, completed := r.completed + 1 } := by
  have hle := h.order.length_le
  have hidle : ¬Busy (freed (reported r.net isr) ev).nic := not_not.mpr (freed_busy _ _)
  refine ⟨h.next, h.used_finish hstarted, ?_, h.order, ⟨fun hb => absurd hb hidle, fun hs => ?_⟩,
    ⟨fun hs => ?_, fun hb => absurd hb hidle⟩, .inr ⟨hstarted, ?_⟩, fun k b hk => h.filled_finish _ _ (Nat.le_of_succ_le hk)⟩
  · dsimp only
    omega
  · have hs' : r.net.nic.starts.length = r.completed + 1 + 1 := hs
    omega
  · exact absurd hs Bool.false_ne_true
  · dsimp only
    omega

theorem RingInv.finish {t : NetState} (h : RingInv i r) (hsending : r.net.nic.sending = true)
    (ht : t = if Used (freed (reported r.net isr) ev).nic.status r.net.nic.txRegNum
      then started (freed (reported r.net isr) ev) r.net.nic.txRegNum else freed (reported r.net isr) ev) :
    RingInv i { r with net := t, completed := r.completed + 1 } := by
  have hstarted := h.busy.mp (h.sending.mp hsending)
  by_cases hnext : r.net.nic.starts.length < r.accepted.length
  · have hused : Used (freed (reported r.net isr) ev).nic.status r.net.nic.txRegNum :=
      (h.used_finish hstarted _).mpr ⟨_, hstarted.ge, hnext, h.next.symm⟩
    rw [if_pos hused] at ht
    rw [ht]
    exact h.sendNext hstarted hnext
  · have hnone : ¬Used (freed (reported r.net isr) ev).nic.status r.net.nic.txRegNum := fun hused => by
      obtain ⟨k, hk, hlt, -⟩ := (h.used_finish hstarted _).mp hused
      omega
    rw [if_neg hnone] at ht
    rw [ht]
    exact h.rest hstarted (by omega)

end Finishing

def BuffersKept (i : Fin 4) (r : Ring) (n : Rtl8139) : Prop :=
  ∀ k, r.completed ≤ k → k < r.accepted.length → ∀ x < 1024,
    n.txbuf (1024 * (slotOf i k).val + x) = r.net.nic.txbuf (1024 * (slotOf i k).val + x)

theorem RingInv.kept_queued {buf : List Byte} (h : RingInv i r) (hlen : buf.length ≤ 1024)
    (hroom : r.accepted.length ≠ r.completed + 4) :
    BuffersKept i r (queued r.net (slotOf i r.accepted.length) buf).nic := by
  intro k hk hlt x hx
  have hbound := h.room
  have hne : (slotOf i k).val ≠ (slotOf i r.accepted.length).val := fun he => by
    have := slotOf_inj.mp (Fin.ext he)
    omega
  exact if_neg (by omega)

structure Accepts (i : Fin 4) (r : Ring) (buf : List Byte) (res : Int) (t : NetState) : Prop where
  rejected : res ≠ 0 ↔ 1024 < buf.length ∨ r.accepted.length = r.completed + 4
  kept : BuffersKept i r t.nic
  inv : RingInv i { r with net := t, accepted := if res = 0 then r.accepted ++ [buf] else r.accepted }

theorem wp_ringTx {buf : List Byte} (h : RingInv i r) :
    wp (rtl8139Tx r.net.nic.dev.id buf) noFault (fun res t => Accepts i r buf res t) r.net := by
  have hreject : (1024 < buf.length ∨ r.accepted.length = r.completed + 4) → Accepts i r buf (-1) r.net := fun hwhy =>
    ⟨⟨fun _ => hwhy, fun _ => by decide⟩, fun _ _ _ _ _ => rfl, h⟩
  rcases Nat.lt_or_ge 1024 buf.length with hlong | hlen
  · refine wp_imp (wp_txLong hlong) ?_
    rintro _ _ ⟨rfl, rfl⟩
    exact hreject (.inl hlong)
  by_cases hfull : r.accepted.length = r.completed + 4
  · refine wp_imp (wp_txFull hlen (h.full_iff.mpr hfull)) ?_
    rintro _ _ ⟨rfl, rfl⟩
    exact hreject (.inr hfull)
  · refine wp_imp (wp_txAt hlen (h.freeSlot hfull)) ?_
    rintro _ t ⟨rfl, ht⟩
    refine ⟨⟨fun hne => absurd rfl hne, fun hwhy => by omega⟩, ?_, h.accept hlen hfull rfl ht⟩
    have hkept := h.kept_queued hlen hfull
    rw [ht]
    split
    · exact hkept
    · exact hkept

theorem wp_ringComplete {isr : BitVec 16} {ev : IrqEvents} (h : RingInv i r) (hsending : r.net.nic.sending = true)
    (htok : isr &&& isrTok ≠ 0) (hrok : isr &&& isrRok = 0) :
    wp (rtl8139IrqHandler ev) noFault (fun _ t => BuffersKept i r t.nic ∧
      RingInv i { r with net := t, completed := r.completed + 1 }) (reported r.net isr) := by
  have hstarted := h.busy.mp (h.sending.mp hsending)
  have hle := h.order.length_le
  have hslot : Used (reported r.net isr).nic.status ((reported r.net isr).nic.txRegNum - 1) := by
    have hprev : (reported r.net isr).nic.txRegNum - 1 = slotOf i r.completed := by
      rw [show (reported r.net isr).nic.txRegNum = _ from h.next, hstarted, slotOf_succ, add_sub_cancel_right]
    rw [hprev]
    exact (h.used _).mpr ⟨r.completed, le_rfl, by omega, rfl⟩
  refine wp_imp (wp_irqTok htok hrok hslot) fun _ t ht => ⟨?_, h.finish hsending ht⟩
  intro k _ _ x _
  rw [ht]
  split
  · rfl
  · rfl

end Invariant

section Runs

variable {r r' : Ring}

theorem ringStep_inv {i : Fin 4} {op : RingOp} (h : RingInv i r) (hstep : RingStep r op r') :
    RingInv i r' ∧ BuffersKept i r r'.net.nic := by
  cases hstep with
  | tx hrun =>
    have haccepts := of_run (wp_ringTx h) hrun
    exact ⟨haccepts.inv, haccepts.kept⟩
  | complete hsending htok hrok hrun => exact (of_run (wp_ringComplete h hsending htok hrok) hrun).symm

def emptyRing (s : NetState) : Ring := ⟨s, [], 0⟩

structure Fresh (n : Rtl8139) : Prop where
  status : n.status = 0
  sending : n.sending = false
  starts : n.starts = []

theorem inv_emptyRing {s : NetState} (h : Fresh s.nic) : RingInv s.nic.txRegNum (emptyRing s) := by
  have hidle : ¬Busy s.nic := by
    unfold Busy
    rw [h.status]
    decide
  have hnone : (emptyRing s).net.nic.starts = [] := h.starts
  refine ⟨?_, fun j => ?_, Nat.zero_le _, ?_, ⟨fun hbusy => absurd hbusy hidle, fun hone => ?_⟩,
    ⟨fun hs => ?_, fun hbusy => absurd hbusy hidle⟩, .inr ⟨?_, rfl⟩, fun k buf _ hk => ?_⟩
  · rw [hnone]
    exact slotOf_zero.symm
  · constructor
    · intro hused
      refine absurd ?_ hused
      change s.nic.status &&& slotBit j = 0
      rw [h.status]
      exact BitVec.zero_and
    · rintro ⟨k, _, hk, _⟩
      exact absurd hk (Nat.not_lt_zero k)
  · rw [hnone]
    exact List.nil_prefix
  · rw [hnone] at hone
    cases hone
  · have hno := h.sending
    rw [show s.nic.sending = true from hs] at hno
    cases hno
  · rw [hnone]
    rfl
  · cases hk

/-- What is known of the ring in every state: the slots that `tsd` was written for held the packets in the order in which
these were accepted, each written once, with its length and contents; at most one is in progress, and none waits while
nothing is; and the packets that are not completed lie in their slots. -/
structure InOrder (i : Fin 4) (r : Ring) : Prop where
  order : r.net.nic.starts <+: r.accepted
  completed : r.completed ≤ r.net.nic.starts.length
  single : r.net.nic.starts.length ≤ r.completed + 1
  sending : r.net.nic.sending = true ↔ r.net.nic.starts.length = r.completed + 1
  idle : r.net.nic.sending = false → r.net.nic.starts = r.accepted
  filled : ∀ k buf, r.completed ≤ k → r.accepted[k]? = some buf → Filled r.net.nic (slotOf i k) buf

theorem RingInv.inOrder {i : Fin 4} (h : RingInv i r) : InOrder i r := by
  have hprogress := h.progress
  refine ⟨h.order, by omega, by omega, h.sending.trans h.busy, fun hidle => h.order.eq_of_length ?_, h.filled⟩
  have hno : r.net.nic.starts.length ≠ r.completed + 1 := fun hone => by
    rw [h.sending.mpr (h.busy.mpr hone)] at hidle
    cases hidle
  omega

/-- Along every run, the packets are sent in the order in which they were accepted, each one once and with its length and
contents. No assertion fails, a packet is rejected only for its size or when four others are under way, and the slot of
a packet is not written between its acceptance and its completion. -/
theorem ring_is_fifo {s : NetState} (hs : Fresh s.nic) (hrun : RingRun (emptyRing s) r) :
    InOrder s.nic.txRegNum r ∧
    (∀ buf, wp (rtl8139Tx r.net.nic.dev.id buf) noFault
      (fun res _ => res ≠ 0 ↔ 1024 < buf.length ∨ r.accepted.length = r.completed + 4) r.net) ∧
    (∀ isr ev, r.net.nic.sending = true → isr &&& isrTok ≠ 0 → isr &&& isrRok = 0 →
      wp (rtl8139IrqHandler ev) noFault (fun _ _ => True) (reported r.net isr)) ∧
    ∀ op r', RingStep r op r' → BuffersKept s.nic.txRegNum r r'.net.nic := by
  have h : RingInv s.nic.txRegNum r :=
    hrun.invariant (RingInv s.nic.txRegNum) (fun _ _ _ h hstep _ => (ringStep_inv h hstep).1) (inv_emptyRing hs)
  refine ⟨h.inOrder, fun buf => wp_imp (wp_ringTx h) fun _ _ ht => ht.rejected, fun isr ev hs htok hrok => ?_,
    fun op r' hstep => (ringStep_inv h hstep).2⟩
  exact wp_imp (wp_ringComplete h hs htok hrok) fun _ _ _ => trivial

theorem ring_is_fifo_two_packets : ∃ r, RingRun (emptyRing ⟨idleNic 1, []⟩) r ∧ r.accepted = [[1, 2], [3]] ∧
    r.completed = 1 ∧ InOrder 0 r := by
  have hfirst : RingRun (emptyRing ⟨idleNic 1, []⟩) _ := .tail (i := .tx [1, 2]) (.refl _) (.tx rfl) trivial
  have hsecond : RingRun (emptyRing ⟨idleNic 1, []⟩) _ := .tail (i := .tx [3]) hfirst (.tx rfl) trivial
  have hrun : RingRun (emptyRing ⟨idleNic 1, []⟩) _ :=
    .tail (i := .complete isrTok (early (causes 0))) hsecond (.complete rfl (by decide) (by decide) rfl) trivial
  exact ⟨_, hrun, rfl, rfl, (ring_is_fifo ⟨rfl, rfl, rfl⟩ hrun).1⟩

end Runs

end YggKernel.Net
