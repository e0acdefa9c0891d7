import YggKernel.Lib.Runs
import YggKernel.Net.Arp

namespace YggKernel.Net

open Lib.Program Lib.Runs

/-- What the device does by itself: it sets causes in `isr` and fills the receive buffer. -/
structure DeviceEvent where
  causes : BitVec 16
  cbr : BitVec 16
  recvBuf : Buffer

def Rtl8139.after (n : Rtl8139) (e : DeviceEvent) : Rtl8139 :=
  { n with
    isr := n.isr ||| e.causes
    cbr := e.cbr
    recvBuf := e.recvBuf
    sending := n.sending && decide (e.causes &&& (isrTok ||| isrTer) = 0) }

/-- What it does during a run of the handler: before the acknowledgement, before the position is read,
and while a packet is handled. -/
structure IrqEvents where
  beforeAck : DeviceEvent
  beforeRead : DeviceEvent
  inHandling : DeviceEvent

/-- The statement `isr |= cause`: the write clears every bit that it sets. -/
def ackCause (cause : BitVec 16) : Prog Fault NetState Unit :=
  setNic fun n => { n with
    isr := n.isr &&& ~~~(n.isr ||| cause)
    cleared := n.cleared ++ [n.isr &&& (n.isr ||| cause)] }

def rtl8139Recv (e : DeviceEvent) : Prog Fault NetState Unit := do
  let n := (← get).nic
  let size := if n.cbrPrev ≤ n.cbr then n.cbr - n.cbrPrev else n.cbr
  if 4 ≤ size then
    setNic fun m => { m with passed := m.passed ++ [(n.cbrPrev.toNat + 4, size.toNat - 4)] }
    netHandlePacket n.dev.id fun i => n.recvBuf (n.cbrPrev.toNat + 4 + i)
  setNic (·.after e)
  setNic fun n => { n with cbrPrev := n.cbr }

def rtl8139IrqHandler (ev : IrqEvents) : Prog Fault NetState Int := do
  let status := (← get).nic.isr
  setNic (·.after ev.beforeAck)
  if status &&& isrRok ≠ 0 then
    ackCause isrRok
    setNic (·.after ev.beforeRead)
    rtl8139Recv ev.inHandling
    return 0
  else if status &&& isrTok ≠ 0 then
    let txop := (← get).nic.txRegNum - 1
    kassert ((← get).nic.status &&& slotBit txop ≠ 0) "rtl8139.status & (1 << txop)"
    setNic fun n => { n with status := n.status &&& ~~~(slotBit txop ||| statusTxop) }
    ackCause isrTok
    if (← get).nic.status &&& slotBit (← get).nic.txRegNum ≠ 0 then rtl8139TxSched
    return 0
  else if status &&& isrRer ≠ 0 then
    ackCause isrRer
    return 0
  else return -1

inductive NicOp
  | tx (buf : List Byte)
  | device (e : DeviceEvent)
  | irq (ev : IrqEvents)

def finalState {α : Type} (r : Except Fault (α × NetState)) : Option NetState :=
  match r with
  | .ok (_, t) => some t
  | .error _ => none

def nicStep (s : NetState) : NicOp → Option NetState
  | .tx buf => finalState (rtl8139Tx s.nic.dev.id buf s)
  | .device e => some { s with nic := s.nic.after e }
  | .irq ev => finalState (rtl8139IrqHandler ev s)

def Busy (n : Rtl8139) : Prop := n.status &&& statusTxop ≠ 0

instance (n : Rtl8139) : Decidable (Busy n) := inferInstanceAs (Decidable (¬_))

/-- The ring is not marked busy with no operation outstanding and no completion to come. -/
def RingOk (s : NetState) : Prop := Busy s.nic → s.nic.sending = true ∨ s.nic.isr &&& isrTok ≠ 0

/-- The ranges of the receive buffer from the position that the driver knows to the one of the device, as the
driver counts: the offset and the length. -/
def Rtl8139.handed (n : Rtl8139) : List (Nat × Nat) :=
  let size := if n.cbrPrev ≤ n.cbr then n.cbr - n.cbrPrev else n.cbr
  if 4 ≤ size then [(n.cbrPrev.toNat + 4, size.toNat - 4)] else []

def IrqEvents.atRead (ev : IrqEvents) (n : Rtl8139) : Rtl8139 := (n.after ev.beforeAck).after ev.beforeRead

/-- The calls of `net_handle_packet` for what has arrived. -/
def handOver (n : Rtl8139) : Prog Fault NetState Unit :=
  n.handed.forM fun r => do
    setNic fun m => { m with passed := m.passed ++ [r] }
    netHandlePacket n.dev.id fun i => n.recvBuf (r.1 + i)

/-- The causes that are set when the handler acknowledges one. -/
def pending (s : NetState) (ev : IrqEvents) : BitVec 16 := s.nic.isr ||| ev.beforeAck.causes

def arrived (s : NetState) (e : DeviceEvent) : NetState := { s with nic := s.nic.after e }

def acked (s : NetState) (ev : IrqEvents) : NetState :=
  { s with nic := { s.nic.after ev.beforeAck with isr := 0, cleared := s.nic.cleared ++ [pending s ev] } }

def noted (s : NetState) (e : DeviceEvent) : NetState := { s with nic := { s.nic.after e with cbrPrev := e.cbr } }

/-- What was received was handed to `net_handle_packet`, and the run goes on from the state that this leaves. -/
structure HandedOn (s : NetState) (ev : IrqEvents) (t : NetState) : Prop where
  passed : t.nic.passed = s.nic.passed ++ (ev.atRead s.nic).handed
  handled : ∃ u, handOver (ev.atRead s.nic) (arrived (acked s ev) ev.beforeRead) = .ok ((), u) ∧ t = noted u ev.inHandling

/-- The run has passed on what was received, or there was nothing, and it knows the position now. -/
structure TakenIn (s : NetState) (ev : IrqEvents) (t : NetState) : Prop where
  taken : HandedOn s ev t ∨ t.nic.passed = s.nic.passed ∧ t.nic.cbr = s.nic.cbrPrev
  position : t.nic.cbrPrev = t.nic.cbr

/-- The run has freed the slot of the last transmission, and left the ring busy only with the next one. -/
structure SlotFreed (s t : NetState) : Prop where
  was : Used s.nic.status (s.nic.txRegNum - 1)
  free : ¬Used t.nic.status (s.nic.txRegNum - 1)
  next : Busy t.nic → t.nic.sending = true ∧ t.nic.txRegNum = s.nic.txRegNum + 1

/-- What a run of the handler has cleared, it has acted on. An error of the reception needs no more than the
acknowledgement, and no other cause is ever acted on. -/
def ActedOn (s : NetState) (ev : IrqEvents) (t : NetState) : Prop :=
  ∀ x ∈ t.nic.cleared.drop s.nic.cleared.length, (x &&& isrRok ≠ 0 → TakenIn s ev t) ∧ (x &&& isrTok ≠ 0 → SlotFreed s t) ∧
    x &&& ~~~(isrRok ||| isrTok ||| isrRer) = 0

/-- The cause whose branch the handler takes. -/
def branchCause (status : BitVec 16) : BitVec 16 :=
  if status &&& isrRok ≠ 0 then isrRok
  else if status &&& isrTok ≠ 0 then isrTok
  else if status &&& isrRer ≠ 0 then isrRer
  else 0

/-- When the handler acknowledges a cause, no other is set that asks for something to be done. -/
structure Attended (s : NetState) (ev : IrqEvents) : Prop where
  received : pending s ev &&& isrRok ≠ 0 → branchCause s.nic.isr = isrRok ∨ ev.beforeAck.cbr = s.nic.cbrPrev
  transmitted : pending s ev &&& isrTok ≠ 0 → branchCause s.nic.isr = isrTok
  rest : pending s ev &&& ~~~(isrRok ||| isrTok ||| isrRer) = 0

def SingleCause (s : NetState) (ev : IrqEvents) : Prop := branchCause s.nic.isr ≠ 0 → Attended s ev

def DeviceEvent.NoTxError (e : DeviceEvent) : Prop := e.causes &&& isrTer = 0

def Handled (s : NetState) : NicOp → NetState → Prop
  | .tx _, _ => True
  | .device e, _ => e.NoTxError
  | .irq ev, _ => SingleCause s ev ∧ ev.beforeAck.NoTxError ∧ ev.beforeRead.NoTxError ∧ ev.inHandling.NoTxError

/-- What a transmit call may change: it leaves the reception alone, frees no slot, and marks the ring busy only
when it starts a transmission. -/
structure Sends (s t : NetState) : Prop where
  isr : t.nic.isr = s.nic.isr
  cleared : t.nic.cleared = s.nic.cleared
  passed : t.nic.passed = s.nic.passed
  cbr : t.nic.cbr = s.nic.cbr
  cbrPrev : t.nic.cbrPrev = s.nic.cbrPrev
  recvBuf : t.nic.recvBuf = s.nic.recvBuf
  used : ∀ i, Used s.nic.status i → Used t.nic.status i
  sending : s.nic.sending = true → t.nic.sending = true
  busy : Busy t.nic → Busy s.nic ∨ t.nic.sending = true

section Sending

theorem Sends.refl (s : NetState) : Sends s s := ⟨rfl, rfl, rfl, rfl, rfl, rfl, fun _ => id, id, .inl⟩

theorem Sends.trans (s t u : NetState) (h : Sends s t) (h' : Sends t u) : Sends s u := by
  refine ⟨h'.isr.trans h.isr, h'.cleared.trans h.cleared, h'.passed.trans h.passed, h'.cbr.trans h.cbr,
    h'.cbrPrev.trans h.cbrPrev, h'.recvBuf.trans h.recvBuf, fun i hi => h'.used i (h.used i hi),
    fun hs => h'.sending (h.sending hs), fun hu => ?_⟩
  rcases h'.busy hu with ht | ht
  · exact (h.busy ht).imp_right h'.sending
  · exact .inr ht

theorem slotBit_txop (i : Fin 4) : slotBit i &&& statusTxop = 0#8 := by
  revert i
  decide

theorem busy_queued {s : NetState} {i : Fin 4} {buf : List Byte} : Busy (queued s i buf).nic ↔ Busy s.nic := by
  have hbits : (s.nic.status ||| slotBit i ||| slotBit i) &&& statusTxop = s.nic.status &&& statusTxop := by
    rw [BitVec.and_or_distrib_right, BitVec.and_or_distrib_right, slotBit_txop, BitVec.or_zero, BitVec.or_zero]
  unfold Busy queued
  dsimp only
  rw [hbits]

theorem Used.or {x : BitVec 8} {i : Fin 4} (h : Used x i) (y : BitVec 8) : Used (x ||| y) i := by
  intro hzero
  rw [BitVec.and_or_distrib_right] at hzero
  exact h (BitVec.or_eq_zero_iff.mp hzero).1

theorem keeps_tx (dev : Nat) (buf : List Byte) : Keeps Sends (rtl8139Tx dev buf) := by
  refine ⟨fun s => ?_⟩
  by_cases hdev : dev = s.nic.dev.id
  · by_cases hlen : buf.length ≤ 1024
    · refine wp_tx hdev hlen (fun _ => Sends.refl s) (fun i _ => ?_) fun _ => ?_
      · exact ⟨rfl, rfl, rfl, rfl, rfl, rfl, fun _ hj => (hj.or _).or _, id, fun h => .inl (busy_queued.mp h)⟩
      · exact ⟨rfl, rfl, rfl, rfl, rfl, rfl, fun _ hj => ((hj.or _).or _).or _, fun _ => rfl, fun _ => .inr rfl⟩
    · rw [rtl8139Tx, wp_bind, wp_get, wp_bind, wp_kassert]
      refine ⟨fun _ => ?_, fun _ => trivial⟩
      rw [if_pos (by omega)]
      exact Sends.refl s
  · rw [rtl8139Tx, wp_bind, wp_get, wp_bind, wp_kassert]
    exact ⟨fun h => absurd (of_decide_eq_true h) hdev, fun _ => trivial⟩

end Sending

section Packets

theorem keeps_arpReply (dev : Nat) (ask : ArpMsg) : Keeps Sends (arpReply dev ask) :=
  Keeps.bind Sends.trans (Keeps.get Sends.refl) fun _ => Keeps.bind Sends.trans (keeps_tx _ _) fun _ =>
    Keeps.ite (Keeps.pure Sends.refl ()) (Keeps.throw _)

theorem keeps_netRouteResolve (dev : Nat) (inaddr : BitVec 32) (hwaddr : Fin 6 → Byte) :
    Keeps Sends (netRouteResolve dev inaddr hwaddr) := by
  refine Keeps.bind Sends.trans (Keeps.get Sends.refl) fun s => ?_
  cases resolveRoute dev inaddr hwaddr s.routes with
  | none => exact Keeps.throw _
  | some routes =>
    have hsame : ∀ t : NetState, Sends t { t with routes := routes } := fun t => ⟨rfl, rfl, rfl, rfl, rfl, rfl, fun _ => id, id, .inl⟩
    exact ⟨hsame⟩

theorem keeps_arpHandlePacket (dev : Nat) (msg : ArpMsg) : Keeps Sends (arpHandlePacket dev msg) := by
  have hret : Keeps Sends (pure (-1) : Prog Fault NetState Int) := Keeps.pure Sends.refl _
  rw [arpHandlePacket]
  refine Keeps.ite (Keeps.bind Sends.trans (keeps_arpReply dev msg) fun _ => hret) (Keeps.ite ?_ hret)
  refine Keeps.bind Sends.trans (Keeps.get Sends.refl) fun s => Keeps.ite ?_ hret
  exact Keeps.bind Sends.trans (keeps_netRouteResolve _ _ _) fun _ => hret

theorem keeps_netHandlePacket (dev : Nat) (buf : Buffer) : Keeps Sends (netHandlePacket dev buf) := by
  rw [netHandlePacket]
  refine Keeps.ite ⟨fun s => ?_⟩ (Keeps.pure Sends.refl ())
  exact (wp_map _ _ _).mpr ((keeps_arpHandlePacket dev (arpMsgAt buf)).run s)

end Packets

section Handler

variable {s t : NetState} {e : DeviceEvent} {ev : IrqEvents} {E : Fault → Prop}

def handedOver (s : NetState) : NetState := { s with nic := { s.nic with passed := s.nic.passed ++ s.nic.handed } }

def freed (s : NetState) (ev : IrqEvents) : NetState :=
  { s with nic := { (acked s ev).nic with status := s.nic.status &&& ~~~(slotBit (s.nic.txRegNum - 1) ||| statusTxop) } }

theorem ack_clears (x c : BitVec 16) : x &&& ~~~(x ||| c) = 0 := by
  apply BitVec.eq_of_getLsbD_eq
  intro i _
  cases hx : x.getLsbD i <;> simp [hx]

theorem ack_bits (x c : BitVec 16) : x &&& (x ||| c) = x := by
  apply BitVec.eq_of_getLsbD_eq
  intro i _
  cases hx : x.getLsbD i <;> simp [hx]

theorem freed_slot (x : BitVec 8) (i : Fin 4) : ¬Used (x &&& ~~~(slotBit i ||| statusTxop)) i := by
  refine not_not.mpr (BitVec.eq_of_getLsbD_eq fun j _ => ?_)
  cases hj : (slotBit i).getLsbD j <;> simp [hj]

theorem freed_busy (x : BitVec 8) (i : Fin 4) : x &&& ~~~(slotBit i ||| statusTxop) &&& statusTxop = 0 := by
  refine BitVec.eq_of_getLsbD_eq fun j _ => ?_
  cases hj : statusTxop.getLsbD j <;> simp [hj]

theorem used_or_txop (x : BitVec 8) (i : Fin 4) : Used (x ||| statusTxop) i ↔ Used x i := by
  unfold Used
  rw [BitVec.and_or_distrib_right, BitVec.and_comm statusTxop, slotBit_txop, BitVec.or_zero]

theorem wp_ackCause {Q : Unit → NetState → Prop} (cause : BitVec 16) :
    wp (ackCause cause) E Q (arrived s ev.beforeAck) ↔ Q () (acked s ev) := by
  rw [ackCause, setNic, wp_modify]
  unfold arrived acked pending
  dsimp only
  rw [ack_clears, ack_bits]
  rfl

theorem rtl8139Recv_eq (e : DeviceEvent) : rtl8139Recv e = (do
    handOver (← get).nic
    setNic (·.after e)
    setNic fun n => { n with cbrPrev := n.cbr }) := by
  unfold rtl8139Recv
  refine bind_congr fun s => ?_
  unfold handOver Rtl8139.handed
  dsimp only
  by_cases hsize : 4 ≤ (if s.nic.cbrPrev ≤ s.nic.cbr then s.nic.cbr - s.nic.cbrPrev else s.nic.cbr)
  · rw [if_pos hsize, if_pos hsize, List.forM_eq_forM, List.forM_cons, List.forM_nil, bind_assoc, bind_assoc]
    rfl
  · rw [if_neg hsize, if_neg hsize]
    rfl

theorem wp_handOver : wp (handOver s.nic) anyFault (fun _ u => Sends (handedOver s) u) s := by
  unfold handOver handedOver Rtl8139.handed
  by_cases hsize : 4 ≤ (if s.nic.cbrPrev ≤ s.nic.cbr then s.nic.cbr - s.nic.cbrPrev else s.nic.cbr)
  · rw [if_pos hsize, List.forM_eq_forM, List.forM_cons, List.forM_nil, wp_bind, wp_bind, setNic, wp_modify]
    exact (keeps_netHandlePacket _ _).run _
  · rw [if_neg hsize, List.forM_eq_forM, List.forM_nil, wp_pure, List.append_nil]
    exact Sends.refl s

/-- What has arrived is passed on, and whatever that causes to be sent, the position is noted. -/
theorem wp_recv {Q : Unit → NetState → Prop} (hE : ∀ f, E f)
    (hQ : ∀ u, Sends (handedOver s) u → handOver s.nic s = .ok ((), u) → Q () (noted u e)) : wp (rtl8139Recv e) E Q s := by
  rw [rtl8139Recv_eq, wp_bind, wp_get, wp_bind]
  cases hrun : handOver s.nic s with
  | error f =>
    rw [wp, hrun]
    exact hE f
  | ok r =>
    obtain ⟨⟨⟩, u⟩ := r
    rw [wp_of_run hrun, wp_bind, setNic, wp_modify, setNic, wp_modify]
    exact hQ u (of_run wp_handOver hrun) hrun

inductive IrqDone (s : NetState) (ev : IrqEvents) : NetState → Prop
  | unhandled : branchCause s.nic.isr = 0 → IrqDone s ev (arrived s ev.beforeAck)
  | received {u : NetState} : branchCause s.nic.isr = isrRok → Sends (handedOver (arrived (acked s ev) ev.beforeRead)) u →
    handOver (ev.atRead s.nic) (arrived (acked s ev) ev.beforeRead) = .ok ((), u) → IrqDone s ev (noted u ev.inHandling)
  | next : branchCause s.nic.isr = isrTok → Used s.nic.status (s.nic.txRegNum - 1) →
    Used (freed s ev).nic.status s.nic.txRegNum → IrqDone s ev (started (freed s ev) s.nic.txRegNum)
  | idle : branchCause s.nic.isr = isrTok → Used s.nic.status (s.nic.txRegNum - 1) →
    ¬Used (freed s ev).nic.status s.nic.txRegNum → IrqDone s ev (freed s ev)
  | error : branchCause s.nic.isr = isrRer → IrqDone s ev (acked s ev)

theorem wp_sendNext {Q : Int → NetState → Prop} (hidle : ¬Busy s.nic)
    (hstart : Used s.nic.status s.nic.txRegNum → Q 0 (started s s.nic.txRegNum))
    (hstay : ¬Used s.nic.status s.nic.txRegNum → Q 0 s) :
    wp (do
      if (← get).nic.status &&& slotBit (← get).nic.txRegNum ≠ 0 then rtl8139TxSched
      return 0) E Q s := by
  rw [wp_bind, wp_get, wp_bind, wp_get]
  by_cases hused : s.nic.status &&& slotBit s.nic.txRegNum ≠ 0
  · rw [if_pos hused, wp_bind]
    exact wp_txSched hused (fun hbusy => absurd hbusy hidle) fun _ => hstart hused
  · rw [if_neg hused]
    exact hstay hused

/-- The handler fails only where it receives, or where a transmission ends whose slot is not in use. -/
theorem wp_irqHandler (hrecv : branchCause s.nic.isr = isrRok → ∀ f, E f)
    (hslot : branchCause s.nic.isr = isrTok → ¬Used s.nic.status (s.nic.txRegNum - 1) → ∀ f, E f) :
    wp (rtl8139IrqHandler ev) E (fun _ t => IrqDone s ev t) s := by
  rw [rtl8139IrqHandler, wp_bind, wp_get, wp_bind, setNic, wp_modify]
  change wp _ _ _ (arrived s ev.beforeAck)
  by_cases hrok : s.nic.isr &&& isrRok ≠ 0
  · have hbranch : branchCause s.nic.isr = isrRok := if_pos hrok
    rw [if_pos hrok, wp_bind, wp_ackCause, wp_bind, setNic, wp_modify, wp_bind]
    exact wp_recv (hrecv hbranch) fun u hu hrun => .received hbranch hu hrun
  by_cases htok : s.nic.isr &&& isrTok ≠ 0
  · have hbranch : branchCause s.nic.isr = isrTok := (if_neg hrok).trans (if_pos htok)
    rw [if_neg hrok, if_pos htok, wp_bind, wp_get, wp_bind, wp_get, wp_bind, wp_kassert]
    refine ⟨fun hused => ?_, fun hno => hslot hbranch (of_decide_eq_false hno) _⟩
    have hused' : Used s.nic.status (s.nic.txRegNum - 1) := of_decide_eq_true hused
    have hstate : ∀ Q : Unit → NetState → Prop, Q () (freed s ev) → wp (do
        setNic fun n => { n with status := n.status &&& ~~~(slotBit ((arrived s ev.beforeAck).nic.txRegNum - 1) ||| statusTxop) }
        ackCause isrTok) E Q (arrived s ev.beforeAck) := by
      intro Q hQ
      rw [wp_bind, setNic, wp_modify, ackCause, setNic, wp_modify]
      dsimp only
      rw [ack_clears, ack_bits]
      exact hQ
    rw [← bind_assoc, wp_bind]
    refine hstate _ (wp_sendNext (not_not.mpr (freed_busy _ _)) (fun hnext => .next hbranch hused' hnext) fun hnext => ?_)
    exact .idle hbranch hused' hnext
  by_cases hrer : s.nic.isr &&& isrRer ≠ 0
  · have hbranch : branchCause s.nic.isr = isrRer := (if_neg hrok).trans ((if_neg htok).trans (if_pos hrer))
    rw [if_neg hrok, if_neg htok, if_pos hrer, wp_bind, wp_ackCause, wp_pure]
    exact .error hbranch
  · have hbranch : branchCause s.nic.isr = 0 := (if_neg hrok).trans ((if_neg htok).trans (if_neg hrer))
    rw [if_neg hrok, if_neg htok, if_neg hrer, wp_pure]
    exact .unhandled hbranch

theorem finalState_eq_some {α : Type} {p : Prog Fault NetState α} (h : finalState (p s) = some t) :
    ∃ a, p s = .ok (a, t) := by
  unfold finalState at h
  cases hp : p s with
  | error err => simp [hp] at h
  | ok r =>
    simp only [hp, Option.some.injEq] at h
    exact ⟨r.1, by rw [← h]⟩

theorem irqDone_of_step (hstep : nicStep s (.irq ev) = some t) : IrqDone s ev t := by
  obtain ⟨_, hrun⟩ := finalState_eq_some hstep
  exact of_run (E := anyFault) (wp_irqHandler (fun _ _ => trivial) fun _ _ _ => trivial) hrun

theorem sends_of_step {buf : List Byte} (hstep : nicStep s (.tx buf) = some t) : Sends s t := by
  obtain ⟨_, hrun⟩ := finalState_eq_some hstep
  exact of_run ((keeps_tx _ _).run s) hrun

end Handler

section Causes

variable {s t : NetState} {ev : IrqEvents}

theorem branchCause_eq_zero {x : BitVec 16} (h : branchCause x = 0) : x &&& isrTok = 0 := by
  by_contra htok
  unfold branchCause at h
  by_cases hrok : x &&& isrRok ≠ 0
  · rw [if_pos hrok] at h
    exact absurd h (by decide)
  · rw [if_neg hrok, if_pos htok] at h
    exact absurd h (by decide)

theorem or_set_left {x y z : BitVec 16} (h : x &&& z ≠ 0) : (x ||| y) &&& z ≠ 0 := by
  intro hzero
  rw [BitVec.and_or_distrib_right] at hzero
  exact h (BitVec.or_eq_zero_iff.mp hzero).1

theorem or_set_right {x y z : BitVec 16} (h : y &&& z ≠ 0) : (x ||| y) &&& z ≠ 0 := by
  rw [BitVec.or_comm]
  exact or_set_left h

theorem actedOn_once {x : BitVec 16} (h : t.nic.cleared = s.nic.cleared ++ [x]) :
    ActedOn s ev t ↔ (x &&& isrRok ≠ 0 → TakenIn s ev t) ∧ (x &&& isrTok ≠ 0 → SlotFreed s t) ∧
      x &&& ~~~(isrRok ||| isrTok ||| isrRer) = 0 := by
  unfold ActedOn
  rw [h, List.drop_left, List.forall_mem_singleton]

theorem attended_iff : Attended s ev ↔
    (pending s ev &&& isrRok ≠ 0 → branchCause s.nic.isr = isrRok ∨ ev.beforeAck.cbr = s.nic.cbrPrev) ∧
    (pending s ev &&& isrTok ≠ 0 → branchCause s.nic.isr = isrTok) ∧ pending s ev &&& ~~~(isrRok ||| isrTok ||| isrRer) = 0 :=
  ⟨fun h => ⟨h.received, h.transmitted, h.rest⟩, fun h => ⟨h.1, h.2.1, h.2.2⟩⟩

/-- Where the handler does not receive, it has taken in what there is only if there is nothing. -/
theorem takenIn_iff (hpassed : t.nic.passed = s.nic.passed) (hprev : t.nic.cbrPrev = s.nic.cbrPrev)
    (hcbr : t.nic.cbr = ev.beforeAck.cbr) : TakenIn s ev t ↔ ev.beforeAck.cbr = s.nic.cbrPrev := by
  constructor
  · intro h
    rw [← hcbr, ← h.position, hprev]
  · exact fun h => ⟨.inr ⟨hpassed, hcbr.trans h⟩, by rw [hprev, hcbr, h]⟩

theorem IrqDone.slotFreed (h : IrqDone s ev t) (hne : branchCause s.nic.isr ≠ 0) :
    SlotFreed s t ↔ branchCause s.nic.isr = isrTok := by
  have hkept : (∀ i, Used s.nic.status i → Used t.nic.status i) → ¬SlotFreed s t := fun hkept hfreed =>
    hfreed.free (hkept _ hfreed.was)
  cases h with
  | unhandled hbranch => exact absurd hbranch hne
  | received hbranch hu _ =>
    rw [hbranch]
    exact ⟨fun hfreed => absurd hfreed (hkept hu.used), fun heq => absurd heq (by decide)⟩
  | next hbranch hwas _ =>
    refine ⟨fun _ => hbranch, fun _ => ⟨hwas, fun hused => ?_, fun _ => ⟨rfl, rfl⟩⟩⟩
    exact freed_slot _ _ ((used_or_txop _ _).mp hused)
  | idle hbranch hwas _ => exact ⟨fun _ => hbranch, fun _ => ⟨hwas, freed_slot _ _, fun hbusy => absurd (freed_busy _ _) hbusy⟩⟩
  | error hbranch =>
    rw [hbranch]
    exact ⟨fun hfreed => absurd hfreed (hkept fun _ => id), fun heq => absurd heq (by decide)⟩

theorem IrqDone.takenIn (h : IrqDone s ev t) (hne : branchCause s.nic.isr ≠ 0) :
    TakenIn s ev t ↔ branchCause s.nic.isr = isrRok ∨ ev.beforeAck.cbr = s.nic.cbrPrev := by
  have hother : branchCause s.nic.isr ≠ isrRok → (TakenIn s ev t ↔ ev.beforeAck.cbr = s.nic.cbrPrev) →
      (TakenIn s ev t ↔ branchCause s.nic.isr = isrRok ∨ ev.beforeAck.cbr = s.nic.cbrPrev) := fun hno hiff =>
    hiff.trans (or_iff_right hno).symm
  cases h with
  | unhandled hbranch => exact absurd hbranch hne
  | received hbranch hu hrun => exact ⟨fun _ => .inl hbranch, fun _ => ⟨.inl ⟨hu.passed, _, hrun, rfl⟩, rfl⟩⟩
  | next hbranch _ _ | idle hbranch _ _ | error hbranch =>
    exact hother (by rw [hbranch]; decide) (takenIn_iff rfl rfl rfl)

theorem IrqDone.cleared (h : IrqDone s ev t) (hne : branchCause s.nic.isr ≠ 0) :
    t.nic.cleared = s.nic.cleared ++ [pending s ev] := by
  cases h with
  | unhandled hbranch => exact absurd hbranch hne
  | received _ hu _ => exact hu.cleared
  | next _ _ _ | idle _ _ _ | error _ => rfl

theorem actedOn_iff (hstep : nicStep s (.irq ev) = some t) : ActedOn s ev t ↔ SingleCause s ev := by
  have hdone := irqDone_of_step hstep
  unfold SingleCause
  by_cases hne : branchCause s.nic.isr = 0
  · refine ⟨fun _ h => absurd hne h, fun _ x hx => ?_⟩
    have hnone : t.nic.cleared = s.nic.cleared := by
      cases hdone with
      | unhandled _ => rfl
      | received hbranch _ _ | next hbranch _ _ | idle hbranch _ _ | error hbranch =>
        rw [hbranch] at hne
        exact absurd hne (by decide)
    rw [hnone, List.drop_length] at hx
    exact absurd hx List.not_mem_nil
  · rw [actedOn_once (hdone.cleared hne), hdone.takenIn hne, hdone.slotFreed hne, ← attended_iff]
    exact ⟨fun h _ => h, fun h => h hne⟩

end Causes

section Runs

variable {s t : NetState} {e : DeviceEvent} {ev : IrqEvents}

def NicRun : NetState → NetState → Prop := Run (fun s op t => nicStep s op = some t) Handled

theorem ringOk_sends (h : RingOk s) (hsends : Sends s t) : RingOk t := by
  intro hbusy
  rcases hsends.busy hbusy with hs | ht
  · rcases h hs with hsending | htok
    · exact .inl (hsends.sending hsending)
    · exact .inr (hsends.isr ▸ htok)
  · exact .inl ht

theorem ringOk_after (h : RingOk s) (he : e.NoTxError) : RingOk (arrived s e) := by
  intro hbusy
  by_cases hend : e.causes &&& (isrTok ||| isrTer) = 0
  · rcases h hbusy with hsending | htok
    · refine .inl ?_
      show (s.nic.sending && decide (e.causes &&& (isrTok ||| isrTer) = 0)) = true
      rw [hsending, decide_eq_true hend, Bool.and_true]
    · exact .inr (or_set_left htok)
  · refine .inr (or_set_right fun htok => hend ?_)
    rw [BitVec.and_or_distrib_left, htok, he]
    exact BitVec.or_self

/-- The end of a transmission is still to be reported when another cause was acknowledged. -/
theorem ringOk_acked (h : RingOk s) (hevent : ev.beforeAck.NoTxError) (hnone : pending s ev &&& isrTok = 0) :
    RingOk (acked s ev) := by
  have hafter : RingOk (arrived s ev.beforeAck) := ringOk_after h hevent
  exact fun hbusy => .inl ((hafter hbusy).resolve_right fun htok => htok hnone)

theorem ringOk_irq (h : RingOk s) (hcond : Handled s (.irq ev) t) (hdone : IrqDone s ev t) : RingOk t := by
  obtain ⟨hsingle, hack, hread, hlate⟩ := hcond
  have hother : ∀ {c : BitVec 16}, branchCause s.nic.isr = c → c ≠ 0 → c ≠ isrTok → pending s ev &&& isrTok = 0 := by
    rintro c rfl hne hnot
    by_contra htok
    exact hnot ((hsingle hne).transmitted htok)
  cases hdone with
  | unhandled _ => exact ringOk_after h hack
  | received hbranch hu _ =>
    have hread : RingOk (arrived (acked s ev) ev.beforeRead) :=
      ringOk_after (ringOk_acked h hack (hother hbranch (by decide) (by decide))) hread
    have hsent := ringOk_sends (show RingOk (handedOver (arrived (acked s ev) ev.beforeRead)) from hread) hu
    exact ringOk_after hsent hlate
  | next _ _ _ => exact fun _ => .inl rfl
  | idle _ _ _ => exact fun hbusy => absurd (freed_busy _ _) hbusy
  | error hbranch => exact ringOk_acked h hack (hother hbranch (by decide) (by decide))

theorem ringOk_step {op : NicOp} (h : RingOk s) (hstep : nicStep s op = some t) (hhandled : Handled s op t) :
    RingOk t := by
  cases op with
  | tx buf => exact ringOk_sends h (sends_of_step hstep)
  | device e =>
    obtain rfl := Option.some.inj hstep
    exact ringOk_after h hhandled
  | irq ev => exact ringOk_irq h hhandled (irqDone_of_step hstep)

/-- Along a run in which no transmission fails and no acknowledgement meets a second cause, the ring is never
stuck. In every state of it, a run of the handler has acted on every cause that it cleared exactly when it met no
second cause, and then a completed transmission has freed its slot. -/
theorem no_cause_lost (hs : s.nic.status = 0) (hrun : NicRun s t) :
    RingOk t ∧ ∀ ev u, nicStep t (.irq ev) = some u →
      (ActedOn t ev u ↔ SingleCause t ev) ∧
        (t.nic.isr &&& isrTok ≠ 0 → SingleCause t ev → SlotFreed t u) := by
  have hinit : RingOk s := fun hbusy => absurd (by rw [hs]; exact BitVec.zero_and) hbusy
  refine ⟨hrun.invariant RingOk (fun _ _ _ hu hstep hhandled => ringOk_step hu hstep hhandled) hinit, ?_⟩
  refine fun ev u hstep => ⟨actedOn_iff hstep, fun htok hsingle => ?_⟩
  have hne : branchCause t.nic.isr ≠ 0 := fun hzero => htok (branchCause_eq_zero hzero)
  exact ((irqDone_of_step hstep).slotFreed hne).mpr ((hsingle hne).transmitted (or_set_left htok))

def causes (x : BitVec 16) : DeviceEvent := ⟨x, 0, fun _ => 0⟩

def early (e : DeviceEvent) : IrqEvents := ⟨e, causes 0, causes 0⟩

theorem no_cause_lost_one_packet : ∃ t u, NicRun ⟨idleNic 1, []⟩ t ∧ nicStep t (.irq (early (causes 0))) = some u ∧
    Busy t.nic ∧ RingOk t ∧ ActedOn t (early (causes 0)) u ∧ SlotFreed t u := by
  have hfirst : NicRun ⟨idleNic 1, []⟩ _ := .tail (i := .tx [0]) (.refl _) rfl trivial
  have hrun : NicRun ⟨idleNic 1, []⟩ _ := .tail (i := .device (causes isrTok)) hfirst rfl (show _ &&& isrTer = 0 by decide)
  obtain ⟨hring, hall⟩ := no_cause_lost rfl hrun
  obtain ⟨hacted, hfreed⟩ := hall (early (causes 0)) _ rfl
  exact ⟨_, _, hrun, rfl, by decide, hring, hacted.mpr fun _ => attended_iff.mpr ⟨by decide, by decide, by decide⟩,
    hfreed (by decide) fun _ => attended_iff.mpr ⟨by decide, by decide, by decide⟩⟩

/-- A packet comes in when a transmission ends: the completion is acknowledged with the
reception and nobody acts on it. -/
theorem completion_lost : ∃ s s₁ s₂ t, s.nic.status = 0 ∧ nicStep s (.tx [0]) = some s₁ ∧
    nicStep s₁ (.device (causes (isrRok ||| isrTok))) = some s₂ ∧ nicStep s₂ (.irq (early (causes 0))) = some t ∧
    ¬ActedOn s₂ (early (causes 0)) t ∧ Busy t.nic ∧ t.nic.sending = false ∧ t.nic.isr = 0 := by
  refine ⟨⟨idleNic 1, []⟩, _, _, _, rfl, rfl, rfl, rfl, fun hacted => ?_, by decide, by decide, by decide⟩
  exact (hacted (isrRok ||| isrTok) (by decide)).2.1 (by decide) |>.free (by decide)

end Runs

end YggKernel.Net
