import YggKernel.Fault

namespace YggKernel.Net

instance neZero_four : NeZero 4 := ⟨by decide⟩

open Lib.Program

abbrev Byte := BitVec 8

/-- What a network device and the kernel share: `id` is the address of the record. -/
structure NetDev where
  id : Nat
  flags : BitVec 32
  mac : Fin 6 → Byte

/-- The driver, and below it the registers and buffers that the device works on. `sending`
says that a transmission was started and has not come to its end. The last three record what was
done: the packets in the slots whose `tsd` was written, the ranges of the receive buffer that went to
`net_handle_packet`, and the bits that the writes to `isr` cleared. -/
structure Rtl8139 where
  dev : NetDev
  status : BitVec 8
  txRegNum : Fin 4
  buflen : Fin 4 → Nat
  txbuf : Nat → Byte
  cbrPrev : BitVec 16
  tsd : Fin 4 → Nat
  isr : BitVec 16
  cbr : BitVec 16
  recvBuf : Nat → Byte
  sending : Bool
  starts : List (List Byte)
  passed : List (Nat × Nat)
  cleared : List (BitVec 16)

structure Route where
  flags : BitVec 32
  addr : BitVec 32
  dev : Nat
  dst : BitVec 32
  dstHwaddr : Fin 6 → Byte

structure NetState where
  nic : Rtl8139
  routes : List Route

def isrRok : BitVec 16 := 1#16 <<< 0
def isrRer : BitVec 16 := 1#16 <<< 1
def isrTok : BitVec 16 := 1#16 <<< 2
def isrTer : BitVec 16 := 1#16 <<< 3

def statusTxop : BitVec 8 := 1#8 <<< 7

def slotBit (i : Fin 4) : BitVec 8 := 1#8 <<< i.val

def setNic (f : Rtl8139 → Rtl8139) : Prog Fault NetState Unit :=
  modify fun s => { s with nic := f s.nic }

/-- The bytes that the device sends from a slot, of which `tsd` has the length. -/
def slotBytes (n : Rtl8139) (i : Fin 4) (size : Nat) : List Byte := (List.range size).map fun k => n.txbuf (1024 * i.val + k)

/-- A write to a `tsd` register starts a transmission. -/
def writeTsd (i : Fin 4) (v : Nat) : Prog Fault NetState Unit :=
  setNic fun n => { n with
    tsd := Function.update n.tsd i v
    sending := true
    starts := n.starts ++ [slotBytes n i v] }

def freeSlot (status : BitVec 8) : Fin 4 → Nat → Option (Fin 4)
  | _, 0 => none
  | i, d + 1 => if status &&& slotBit i ≠ 0 then freeSlot status (i + 1) d else some i

/-- The slot, and none stands for -1. -/
def rtl8139AllocTxbuf : Prog Fault NetState (Option (Fin 4)) := do
  let n := (← get).nic
  match freeSlot n.status n.txRegNum 4 with
  | none => return none
  | some i => do
    setNic fun n => { n with status := n.status ||| slotBit i }
    return some i

def rtl8139TxSched : Prog Fault NetState Unit := do
  let n := (← get).nic
  if n.status &&& statusTxop = 0 then
    kassert (n.status &&& slotBit n.txRegNum ≠ 0) "rtl8139.status & (1 << rtl8139.tx_reg_num)"
    writeTsd n.txRegNum (n.buflen n.txRegNum)
    setNic fun n => { n with txRegNum := n.txRegNum + 1, status := n.status ||| statusTxop }

def rtl8139Tx (dev : Nat) (buf : List Byte) : Prog Fault NetState Int := do
  kassert (dev = (← get).nic.dev.id) "(uintptr_t) dev == (uintptr_t) &rtl8139"
  if buf.length > 1024 then return -1
  else
    match ← rtl8139AllocTxbuf with
    | none => return -1
    | some i => do
      setNic fun n => { n with
        status := n.status ||| slotBit i
        buflen := Function.update n.buflen i (buf.length &&& 0x0FFF)
        txbuf := fun x => if 1024 * i.val ≤ x ∧ x < 1024 * i.val + buf.length
          then buf.getD (x - 1024 * i.val) 0 else n.txbuf x }
      if (← get).nic.txRegNum = i then rtl8139TxSched
      return 0

section Slots

variable {status : BitVec 8} {i j : Fin 4}

def Used (status : BitVec 8) (i : Fin 4) : Prop := status &&& slotBit i ≠ 0

instance (status : BitVec 8) (i : Fin 4) : Decidable (Used status i) := inferInstanceAs (Decidable (¬_))

def RingFull (status : BitVec 8) : Prop := ∀ i, Used status i

instance (status : BitVec 8) : Decidable (RingFull status) := inferInstanceAs (Decidable (∀ i, Used status i))

theorem freeSlot_some {d : Nat} (h : freeSlot status j d = some i) : ¬Used status i := by
  induction d generalizing j with
  | zero => cases h
  | succ d ih =>
    rw [freeSlot] at h
    by_cases hj : status &&& slotBit j ≠ 0
    · rw [if_pos hj] at h
      exact ih h
    · rw [if_neg hj] at h
      obtain rfl := Option.some.inj h
      exact hj

theorem freeSlot_succ {d : Nat} :
    freeSlot status j (d + 1) = none ↔ Used status j ∧ freeSlot status (j + 1) d = none := by
  rw [freeSlot]
  by_cases hj : status &&& slotBit j ≠ 0
  · rw [if_pos hj]
    exact ⟨fun h => ⟨hj, h⟩, And.right⟩
  · rw [if_neg hj]
    constructor
    · exact fun h => nomatch h
    · exact fun h => absurd h.1 hj

theorem freeSlot_none : freeSlot status j 4 = none ↔ RingFull status := by
  have hall : ∀ j k : Fin 4, k = j ∨ k = j + 1 ∨ k = j + 1 + 1 ∨ k = j + 1 + 1 + 1 := by decide
  rw [freeSlot_succ, freeSlot_succ, freeSlot_succ, freeSlot_succ]
  constructor
  · rintro ⟨h0, h1, h2, h3, _⟩ k
    rcases hall j k with rfl | rfl | rfl | rfl <;> assumption
  · exact fun h => ⟨h _, h _, h _, h _, rfl⟩

theorem used_set : Used (status ||| slotBit i) i := by
  unfold Used slotBit
  intro h
  have hbit := congrArg (fun x => x.getLsbD i.val) h
  have hlt : i.val < 8 := by omega
  simp [hlt] at hbit

end Slots

section Transmit

variable {s : NetState} {dev : Nat} {buf : List Byte} {E : Fault → Prop}

def queued (s : NetState) (i : Fin 4) (buf : List Byte) : NetState :=
  { s with nic := { s.nic with
      status := (s.nic.status ||| slotBit i) ||| slotBit i
      buflen := Function.update s.nic.buflen i (buf.length &&& 0x0FFF)
      txbuf := fun x => if 1024 * i.val ≤ x ∧ x < 1024 * i.val + buf.length
        then buf.getD (x - 1024 * i.val) 0 else s.nic.txbuf x } }

def started (s : NetState) (i : Fin 4) : NetState :=
  { s with nic := { s.nic with
      tsd := Function.update s.nic.tsd i (s.nic.buflen i), sending := true,
      starts := s.nic.starts ++ [slotBytes s.nic i (s.nic.buflen i)],
      txRegNum := i + 1, status := s.nic.status ||| statusTxop } }

/-- `rtl8139_tx_sched` finds its slot in use or the device busy, and leaves all else alone. -/
theorem wp_txSched {Q : Unit → NetState → Prop} (hused : Used s.nic.status s.nic.txRegNum)
    (hbusy : s.nic.status &&& statusTxop ≠ 0 → Q () s)
    (hidle : s.nic.status &&& statusTxop = 0 → Q () (started s s.nic.txRegNum)) :
    wp rtl8139TxSched E Q s := by
  unfold rtl8139TxSched
  rw [wp_bind, wp_get]
  by_cases h : s.nic.status &&& statusTxop = 0
  · rw [if_pos h, wp_bind, wp_kassert]
    exact ⟨fun _ => hidle h, fun hno => absurd hused (of_decide_eq_false hno)⟩
  · rw [if_neg h]
    exact hbusy h

def marked (s : NetState) (i : Fin 4) : NetState :=
  { s with nic := { s.nic with status := s.nic.status ||| slotBit i } }

theorem wp_allocTxbuf {Q : Option (Fin 4) → NetState → Prop} (hfull : RingFull s.nic.status → Q none s)
    (hfree : ∀ i, ¬Used s.nic.status i → Q (some i) (marked s i)) : wp rtl8139AllocTxbuf E Q s := by
  rw [rtl8139AllocTxbuf, wp_bind, wp_get]
  dsimp only
  cases hslot : freeSlot s.nic.status s.nic.txRegNum 4 with
  | none => exact hfull (freeSlot_none.mp hslot)
  | some i => exact hfree i (freeSlot_some hslot)

theorem wp_tx {Q : Int → NetState → Prop} (hdev : dev = s.nic.dev.id) (hlen : buf.length ≤ 1024)
    (hfull : RingFull s.nic.status → Q (-1) s)
    (hwait : ∀ i, ¬Used s.nic.status i → Q 0 (queued s i buf))
    (hstart : ¬Used s.nic.status s.nic.txRegNum →
      Q 0 (started (queued s s.nic.txRegNum buf) s.nic.txRegNum)) :
    wp (rtl8139Tx dev buf) E Q s := by
  rw [rtl8139Tx, wp_bind, wp_get, wp_bind, wp_kassert]
  refine ⟨fun _ => ?_, fun hno => absurd hdev (of_decide_eq_false hno)⟩
  rw [if_neg (by omega), wp_bind]
  refine wp_allocTxbuf hfull fun i hfree => ?_
  have hwaiting : Q 0 (queued s i buf) := hwait i hfree
  dsimp only
  rw [wp_bind, setNic, wp_modify, wp_bind, wp_get]
  split
  · next hreg =>
    obtain rfl : s.nic.txRegNum = i := hreg
    rw [wp_bind]
    exact wp_txSched used_set (fun _ => hwaiting) fun _ => hstart hfree
  · exact hwaiting

end Transmit

end YggKernel.Net
