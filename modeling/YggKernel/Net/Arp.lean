import YggKernel.Net.Rtl8139

namespace YggKernel.Net

open Lib.Program

def ethTypeArp : BitVec 16 := 0x0806
def arpWhoHas : BitVec 16 := 1
def arpResponse : BitVec 16 := 2

def netArpWaiting : BitVec 32 := 1#32 <<< 30

abbrev Buffer := Nat → Byte

def load16 (b : Buffer) (o : Nat) : BitVec 16 := b (o + 1) ++ b o

def load32le (b : Buffer) (o : Nat) : BitVec 32 := load16 b (o + 2) ++ load16 b o

def bytes16 (x : BitVec 16) : List Byte := [x.truncate 8, (x >>> 8).truncate 8]

def bytes32 (x : BitVec 32) : List Byte := bytes16 (x.truncate 16) ++ bytes16 ((x >>> 16).truncate 16)

def inetHtons (x : BitVec 16) : BitVec 16 := ((x &&& 0xFF) <<< 8) ||| ((x >>> 8) &&& 0xFF)

structure EthHdr where
  dstMac : Fin 6 → Byte
  srcMac : Fin 6 → Byte
  type : BitVec 16

structure ArpMsg where
  htype : BitVec 16
  ptype : BitVec 16
  hlen : Byte
  plen : Byte
  oper : BitVec 16
  sha : Fin 6 → Byte
  spa : BitVec 32
  tha : Fin 6 → Byte
  tpa : BitVec 32

def ethHdrAt (b : Buffer) : EthHdr :=
  ⟨fun i => b i, fun i => b (6 + i), load16 b 12⟩

def arpMsgAt (b : Buffer) : ArpMsg :=
  ⟨load16 b 14, load16 b 16, b 18, b 19, load16 b 20, fun i => b (22 + i), load32le b 28,
    fun i => b (32 + i), load32le b 38⟩

def EthHdr.bytes (h : EthHdr) : List Byte :=
  List.ofFn h.dstMac ++ List.ofFn h.srcMac ++ bytes16 h.type

def ArpMsg.bytes (m : ArpMsg) : List Byte :=
  bytes16 m.htype ++ bytes16 m.ptype ++ [m.hlen, m.plen] ++ bytes16 m.oper ++ List.ofFn m.sha ++ bytes32 m.spa ++
    List.ofFn m.tha ++ bytes32 m.tpa

def netSendFrom (dev : Nat) (buf : List Byte) : Prog Fault NetState Int := rtl8139Tx dev buf

def netSent : String := "net_send_from(dev, buf, sizeof(struct eth_hdr) + sizeof(struct arp_msg)) == 0"

def arpReply (dev : Nat) (ask : ArpMsg) : Prog Fault NetState Unit := do
  let mac := (← get).nic.dev.mac
  let eth : EthHdr := ⟨ask.sha, mac, inetHtons ethTypeArp⟩
  let arp : ArpMsg :=
    ⟨ask.htype, ask.ptype, ask.hlen, ask.plen, inetHtons arpResponse, mac, ask.tpa, ask.sha, ask.spa⟩
  let res ← netSendFrom dev (eth.bytes ++ arp.bytes)
  kassert (res = 0) netSent

/-- The loop of `net_route_resolve`: none when it leaves the table without a match. -/
def resolveRoute (dev : Nat) (inaddr : BitVec 32) (hwaddr : Fin 6 → Byte) : List Route → Option (List Route)
  | [] => none
  | r :: rest =>
    if r.flags = 0#32 then none
    else if r.dev = dev ∧ r.dst = inaddr then some ({ r with dstHwaddr := hwaddr } :: rest)
    else (resolveRoute dev inaddr hwaddr rest).map (r :: ·)

def netRouteResolve (dev : Nat) (inaddr : BitVec 32) (hwaddr : Fin 6 → Byte) : Prog Fault NetState Unit := do
  match resolveRoute dev inaddr hwaddr (← get).routes with
  | some routes => modify fun s => { s with routes := routes }
  | none => throw (.panic "Failed to add hwaddr to resolved route dev %s via %08x\n")

def arpHandlePacket (dev : Nat) (msg : ArpMsg) : Prog Fault NetState Int := do
  if inetHtons msg.oper = arpWhoHas then arpReply dev msg
  else if inetHtons msg.oper = arpResponse then
    if (← get).nic.dev.flags &&& netArpWaiting ≠ 0 then netRouteResolve dev msg.spa msg.sha
  return -1

/-- The length of the frame only serves the debug output. -/
def netHandlePacket (dev : Nat) (buf : Buffer) : Prog Fault NetState Unit := do
  if inetHtons (ethHdrAt buf).type = ethTypeArp then
    discard (arpHandlePacket dev (arpMsgAt buf))

section Panics

variable {s : NetState} {dev : Nat} {buf : Buffer} {msg : ArpMsg}

/-- A route of the device to the address, before the first unused entry of the table. -/
def HasRoute (routes : List Route) (dev : Nat) (inaddr : BitVec 32) : Prop :=
  ∃ r ∈ routes.takeWhile (·.flags ≠ 0#32), r.dev = dev ∧ r.dst = inaddr

/-- A message that the kernel cannot answer, or cannot use: a request while all transmit slots
are in use, or a reply in a device that waits for one without a route to the sender. -/
def Unexpected (s : NetState) (msg : ArpMsg) : Prop :=
  (inetHtons msg.oper = arpWhoHas ∧ RingFull s.nic.status) ∨
    (inetHtons msg.oper = arpResponse ∧ s.nic.dev.flags &&& netArpWaiting ≠ 0 ∧
      ¬HasRoute s.routes s.nic.dev.id msg.spa)

theorem hasRoute_nil {inaddr : BitVec 32} : ¬HasRoute [] dev inaddr := by
  rintro ⟨r, hr, _⟩
  cases hr

theorem hasRoute_cons {inaddr : BitVec 32} {r : Route} {rest : List Route} :
    HasRoute (r :: rest) dev inaddr ↔
      r.flags ≠ 0#32 ∧ ((r.dev = dev ∧ r.dst = inaddr) ∨ HasRoute rest dev inaddr) := by
  unfold HasRoute
  rw [List.takeWhile_cons]
  by_cases hflags : r.flags = 0#32
  · rw [if_neg (by simp [hflags])]
    constructor
    · rintro ⟨_, h, _⟩
      cases h
    · exact fun h => absurd hflags h.1
  · rw [if_pos (by simp [hflags]), List.exists_mem_cons_iff]
    exact ⟨fun h => ⟨hflags, h⟩, And.right⟩

theorem resolveRoute_eq_none {inaddr : BitVec 32} {hwaddr : Fin 6 → Byte} (routes : List Route) :
    resolveRoute dev inaddr hwaddr routes = none ↔ ¬HasRoute routes dev inaddr := by
  induction routes with
  | nil => exact ⟨fun _ => hasRoute_nil, fun _ => rfl⟩
  | cons r rest ih =>
    rw [resolveRoute, hasRoute_cons]
    by_cases hflags : r.flags = 0#32
    · simp [hflags]
    by_cases hmatch : r.dev = dev ∧ r.dst = inaddr
    · simp [hflags, hmatch]
    · simp only [hflags, hmatch, if_false, Option.map_eq_none_iff, ih, ne_eq, not_false_eq_true, true_and, false_or]

theorem reply_length (eth : EthHdr) (arp : ArpMsg) : (eth.bytes ++ arp.bytes).length = 42 := by
  simp [EthHdr.bytes, ArpMsg.bytes, bytes16, bytes32]

theorem wp_arpReply {E : Fault → Prop} {Q : Unit → NetState → Prop} (hdev : dev = s.nic.dev.id)
    (hfull : RingFull s.nic.status → ∀ cond, E (assertionFailed cond))
    (hQ : ¬RingFull s.nic.status → ∀ t, Q () t) : wp (arpReply dev msg) E Q s := by
  have hroom : ∀ i, ¬Used s.nic.status i → ¬RingFull s.nic.status := fun i hi hall => hi (hall i)
  rw [arpReply, wp_bind, wp_get, wp_bind, netSendFrom]
  refine wp_tx hdev (by rw [reply_length]; decide) (fun h => ?_) (fun i hi => ?_) fun hi => ?_
  · rw [wp_kassert]
    exact ⟨fun hzero => absurd (of_decide_eq_true hzero) (by decide), fun _ => hfull h _⟩
  · rw [wp_kassert]
    exact ⟨fun _ => hQ (hroom i hi) _, fun hno => absurd rfl (of_decide_eq_false hno)⟩
  · rw [wp_kassert]
    exact ⟨fun _ => hQ (hroom _ hi) _, fun hno => absurd rfl (of_decide_eq_false hno)⟩

theorem wp_netRouteResolve {E : Fault → Prop} {Q : Unit → NetState → Prop} {inaddr : BitVec 32}
    {hwaddr : Fin 6 → Byte} (hno : ¬HasRoute s.routes dev inaddr → ∀ text, E (.panic text))
    (hQ : HasRoute s.routes dev inaddr → ∀ t, Q () t) : wp (netRouteResolve dev inaddr hwaddr) E Q s := by
  rw [netRouteResolve, wp_bind, wp_get]
  cases hroute : resolveRoute dev inaddr hwaddr s.routes with
  | none => exact hno ((resolveRoute_eq_none _).mp hroute) _
  | some routes =>
    refine hQ (by_contra fun h => ?_) _
    rw [(resolveRoute_eq_none _).mpr h] at hroute
    cases hroute

theorem wp_arpHandlePacket {E : Fault → Prop} {Q : Int → NetState → Prop} (hdev : dev = s.nic.dev.id)
    (hbad : Unexpected s msg → ∀ text, E (.panic text)) (hQ : ¬Unexpected s msg → ∀ t, Q (-1) t) :
    wp (arpHandlePacket dev msg) E Q s := by
  rw [arpHandlePacket]
  by_cases hwho : inetHtons msg.oper = arpWhoHas
  · have hne : inetHtons msg.oper ≠ arpResponse := by
      rw [hwho]
      decide
    rw [if_pos hwho, wp_bind]
    refine wp_arpReply hdev (fun h cond => hbad (.inl ⟨hwho, h⟩) _) fun h t => hQ ?_ t
    rintro (⟨_, hfull⟩ | ⟨hresp, _⟩)
    · exact h hfull
    · exact hne hresp
  rw [if_neg hwho]
  by_cases hresp : inetHtons msg.oper = arpResponse
  · rw [if_pos hresp, wp_bind, wp_get]
    by_cases hwait : s.nic.dev.flags &&& netArpWaiting ≠ 0
    · rw [if_pos hwait, wp_bind]
      refine wp_netRouteResolve (fun h text => hbad (.inr ⟨hresp, hwait, hdev ▸ h⟩) text) fun h t => hQ ?_ t
      rintro (⟨h', _⟩ | ⟨_, _, hno⟩)
      · exact hwho h'
      · exact hno (hdev ▸ h)
    · rw [if_neg hwait]
      refine hQ ?_ s
      rintro (⟨h', _⟩ | ⟨_, h', _⟩)
      · exact hwho h'
      · exact hwait h'
  · rw [if_neg hresp]
    refine hQ ?_ s
    rintro (⟨h', _⟩ | ⟨h', _⟩)
    · exact hwho h'
    · exact hresp h'

theorem wp_netHandlePacket {E : Fault → Prop} {Q : Unit → NetState → Prop} (hdev : dev = s.nic.dev.id)
    (hbad : inetHtons (ethHdrAt buf).type = ethTypeArp → Unexpected s (arpMsgAt buf) → ∀ text, E (.panic text))
    (hQ : ¬(inetHtons (ethHdrAt buf).type = ethTypeArp ∧ Unexpected s (arpMsgAt buf)) → ∀ t, Q () t) :
    wp (netHandlePacket dev buf) E Q s := by
  rw [netHandlePacket]
  by_cases htype : inetHtons (ethHdrAt buf).type = ethTypeArp
  · rw [if_pos htype]
    exact (wp_map _ _ _).mpr (wp_arpHandlePacket hdev (hbad htype) fun h t => hQ (fun h' => h h'.2) t)
  · rw [if_neg htype]
    exact hQ (fun h' => htype h'.1) s

/-- A frame is handled without a panic exactly when it is no ARP message that takes the kernel
by surprise. -/
theorem net_handle_packet_safe_iff (s : NetState) (buf : Buffer) :
    wp (netHandlePacket s.nic.dev.id buf) noFault (fun _ _ => True) s ↔
      ¬(inetHtons (ethHdrAt buf).type = ethTypeArp ∧ Unexpected s (arpMsgAt buf)) := by
  constructor
  · rintro hsafe ⟨htype, hbad⟩
    have hpanic : wp (netHandlePacket s.nic.dev.id buf) anyFault (fun _ _ => False) s :=
      wp_netHandlePacket rfl (fun _ _ _ => trivial) fun h _ => h ⟨htype, hbad⟩
    obtain ⟨_, _, hrun, _⟩ := run_of_wp hsafe
    exact of_run hpanic hrun
  · exact fun h => wp_netHandlePacket rfl (fun htype hbad _ => h ⟨htype, hbad⟩) fun _ _ => trivial

def idleNic (flags : BitVec 32) : Rtl8139 :=
  ⟨⟨0, flags, fun _ => 0⟩, 0, 0, fun _ => 0, fun _ => 0, 0, fun _ => 0, 0, 0, fun _ => 0, false, [], [], []⟩

/-- A reply that nobody asked for reaches a device that once asked. -/
theorem unsolicited_reply_panics : ∃ s buf text,
    s.nic.dev.flags = 0x40000001 ∧ s.routes = [] ∧ inetHtons (arpMsgAt buf).oper = arpResponse ∧
      netHandlePacket s.nic.dev.id buf s = .error (.panic text) :=
  ⟨⟨idleNic 0x40000001, []⟩, fun i => if i = 12 then 8 else if i = 13 then 6 else if i = 21 then 2 else 0,
    _, rfl, rfl, by decide, rfl⟩

end Panics

end YggKernel.Net
