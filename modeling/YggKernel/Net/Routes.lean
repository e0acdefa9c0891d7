import YggKernel.Net.Arp

namespace YggKernel.Net

open Lib.Program

def ethTypeInet : BitVec 16 := 0x0800

structure InaddrSpec where
  flags : BitVec 32
  addr : BitVec 32

/-- A network device by what it has in common with the others. `priv` holds four addresses. -/
structure Iface where
  flags : BitVec 32
  mac : Fin 6 → Byte
  priv : Option (List InaddrSpec)

/-- A message as it is handed to a driver. -/
structure Sent where
  dev : Nat
  eth : EthHdr
  arp : ArpMsg

/-- Devices by the address of their record, the routes, and what was sent so far. -/
structure NetTables where
  devs : Nat → Iface
  routes : List Route
  sent : List Sent

/-- What `dev->tx` returns for a packet, which may depend on what it was given before. -/
abbrev Driver := Nat → List Byte → List Sent → Int

def used (flags : BitVec 32) : BitVec 32 := flags ||| 1#32 <<< 31

/-- The argument is an `int8_t`, and other values than these panic. -/
def netInaddrMask (n : BitVec 8) : Option (BitVec 32) :=
  if n = 0 then some 0
  else if n = 8 then some 0xFF
  else if n = 16 then some 0xFFFF
  else if n = 24 then some 0xFFFFFF
  else if n = 32 then some 0xFFFFFFFF
  else none

def addInaddr (a : InaddrSpec) : List InaddrSpec → Option (List InaddrSpec)
  | [] => none
  | b :: rest => if b.addr = 0#32 ∧ b.flags = 0#32 then some (a :: rest) else (addInaddr a rest).map (b :: ·)

def netInaddrAdd (dev : Nat) (addr flags : BitVec 32) : Prog Fault NetTables Unit := do
  kassert (dev ≠ 0) "dev"
  match ((← get).devs dev).priv with
  | none => throw (assertionFailed "dev->priv")
  | some inaddrs =>
    match addInaddr ⟨used flags, addr⟩ inaddrs with
    | some inaddrs =>
      modify fun s => { s with devs := Function.update s.devs dev { s.devs dev with priv := some inaddrs } }
    | none => throw (.panic "Failed to add network interface address\n")

/-- An entry keeps the hardware address it has. -/
def addRoute (flags addr via : BitVec 32) (dev : Nat) : List Route → Option (List Route)
  | [] => none
  | r :: rest =>
    if r.flags ≠ 0#32 then (addRoute flags addr via dev rest).map (r :: ·)
    else some ({ r with flags := flags, addr := addr, dev := dev, dst := via } :: rest)

def netRouteAdd (addr via : BitVec 32) (dev : Nat) (flags : BitVec 32) : Prog Fault NetTables Unit := do
  kassert (dev ≠ 0) "dev"
  kassert (flags &&& 0x7 = 0) "(flags & 0x7) == 0"
  match addRoute (used flags) addr via dev (← get).routes with
  | some routes => modify fun s => { s with routes := routes }
  | none => throw (.panic "Failed to add route\n")

def netSend (tx : Driver) (m : Sent) : Prog Fault NetTables Int := do
  kassert (m.dev ≠ 0) "dev && dev->tx"
  let res := tx m.dev (m.eth.bytes ++ m.arp.bytes) (← get).sent
  modify fun s => { s with sent := s.sent ++ [m] }
  return res

def awaiting (devs : Nat → Iface) (dev : Nat) : Nat → Iface :=
  Function.update devs dev { devs dev with flags := (devs dev).flags ||| netArpWaiting }

def arpRequestInHwaddr (tx : Driver) (dev : Nat) (inaddr src : BitVec 32) : Prog Fault NetTables Unit := do
  kassert (dev ≠ 0) "dev"
  let mac := ((← get).devs dev).mac
  let eth : EthHdr := ⟨fun _ => 0xFF, mac, inetHtons ethTypeArp⟩
  let arp : ArpMsg := ⟨inetHtons 0x01, inetHtons ethTypeInet, 6, 4, inetHtons arpWhoHas, mac, src, fun _ => 0, inaddr⟩
  modify fun s => { s with devs := awaiting s.devs dev }
  let res ← netSend tx ⟨dev, eth, arp⟩
  kassert (res = 0) netSent

/-- The loop of `net_post_config` over the addresses of a route's device. -/
def askGateway (tx : Driver) (r : Route) : List InaddrSpec → Prog Fault NetTables Unit
  | [] => return ()
  | a :: rest => do
    if a.flags = 0#32 then return ()
    else
      match netInaddrMask (a.flags.truncate 8) with
      | none => throw (.panic "Unsupported netmask\n")
      | some mask =>
        if a.addr &&& mask = r.dst &&& mask then arpRequestInHwaddr tx r.dev r.dst a.addr
        else askGateway tx r rest

/-- The loop of `net_post_config` over the routes. -/
def askGateways (tx : Driver) : List Route → Prog Fault NetTables Unit
  | [] => return ()
  | r :: rest => do
    if r.flags = 0#32 then return ()
    else
      kassert (r.dev ≠ 0) "s_routes[i].dev"
      match ((← get).devs r.dev).priv with
      | none => throw (assertionFailed "dev->priv")
      | some inaddrs =>
        askGateway tx r inaddrs
        askGateways tx rest

def netPostConfig (tx : Driver) : Prog Fault NetTables Unit := do askGateways tx (← get).routes

def resolveFrom (dev : Nat) (inaddr : BitVec 32) (hwaddr : Fin 6 → Byte) : Prog Fault NetTables Unit := do
  kassert (dev ≠ 0) "dev"
  match resolveRoute dev inaddr hwaddr (← get).routes with
  | some routes => modify fun s => { s with routes := routes }
  | none => throw (.panic "Failed to add hwaddr to resolved route dev %s via %08x\n")

/-- `arp_reply` and the callers below it are those of the driver's module, for any of the devices. -/
def replyFrom (tx : Driver) (dev : Nat) (ask : ArpMsg) : Prog Fault NetTables Unit := do
  let mac := ((← get).devs dev).mac
  let eth : EthHdr := ⟨ask.sha, mac, inetHtons ethTypeArp⟩
  let arp : ArpMsg :=
    ⟨ask.htype, ask.ptype, ask.hlen, ask.plen, inetHtons arpResponse, mac, ask.tpa, ask.sha, ask.spa⟩
  let res ← netSend tx ⟨dev, eth, arp⟩
  kassert (res = 0) netSent

def handlePacket (tx : Driver) (dev : Nat) (buf : Buffer) : Prog Fault NetTables Unit := do
  let msg := arpMsgAt buf
  if inetHtons (ethHdrAt buf).type = ethTypeArp then
    if inetHtons msg.oper = arpWhoHas then replyFrom tx dev msg
    else if inetHtons msg.oper = arpResponse then
      if ((← get).devs dev).flags &&& netArpWaiting ≠ 0 then resolveFrom dev msg.spa msg.sha

section OneDevice

variable {s : NetState} {v : NetTables} {tx : Driver} {buf : Buffer} {msg : ArpMsg}

structure Shows (s : NetState) (v : NetTables) : Prop where
  flags : (v.devs s.nic.dev.id).flags = s.nic.dev.flags
  mac : (v.devs s.nic.dev.id).mac = s.nic.dev.mac
  routes : v.routes = s.routes

/-- The driver's answer to a packet that fits a slot is the one of `rtl8139_tx`. -/
def AnswersLike (s : NetState) (v : NetTables) (tx : Driver) : Prop :=
  ∀ p : List Byte, p.length ≤ 1024 → tx s.nic.dev.id p v.sent = if RingFull s.nic.status then -1 else 0

def Alike {α : Type} (p : Prog Fault NetState α) (q : Prog Fault NetTables Unit) (s : NetState) (v : NetTables) : Prop :=
  wp p (fun f => q v = .error f) (fun _ t => ∃ w, q v = .ok ((), w) ∧ Shows t w) s

theorem Alike.result {p : Prog Fault NetState Unit} {q : Prog Fault NetTables Unit} (h : Alike p q s v) :
    Alike (discard (do p; return (-1 : Int))) q s v :=
  (wp_map _ _ _).mpr ((wp_bind _ _ _).mpr h)

theorem replyFrom_run (msg : ArpMsg) (hdev : s.nic.dev.id ≠ 0) (hanswers : AnswersLike s v tx) :
    wp (replyFrom tx s.nic.dev.id msg) (fun f => RingFull s.nic.status ∧ f = assertionFailed netSent)
      (fun _ w => ¬RingFull s.nic.status ∧ w.devs = v.devs ∧ w.routes = v.routes) v := by
  rw [replyFrom, wp_bind, wp_get, wp_bind, netSend, wp_bind, wp_kassert]
  refine ⟨fun _ => ?_, fun hzero => absurd hdev (by simpa using hzero)⟩
  rw [wp_bind, wp_get, wp_bind, wp_modify, wp_pure, wp_kassert]
  dsimp only
  rw [hanswers _ (by rw [reply_length]; decide)]
  by_cases hfull : RingFull s.nic.status
  · rw [if_pos hfull]
    exact ⟨fun h => absurd h (by decide), fun _ => ⟨hfull, rfl⟩⟩
  · rw [if_neg hfull]
    exact ⟨fun _ => ⟨hfull, rfl, rfl⟩, fun h => absurd h (by decide)⟩

theorem alike_reply (hdev : s.nic.dev.id ≠ 0) (hshows : Shows s v) (hanswers : AnswersLike s v tx) :
    Alike (arpReply s.nic.dev.id msg) (replyFrom tx s.nic.dev.id msg) s v := by
  have hreply := replyFrom_run msg hdev hanswers
  have hroom : ∀ i, ¬Used s.nic.status i → ¬RingFull s.nic.status := fun i hi hall => hi (hall i)
  cases hrun : replyFrom tx s.nic.dev.id msg v with
  | error f =>
    rw [wp, hrun] at hreply
    obtain ⟨hfull, rfl⟩ := hreply
    have hno : ∀ i, ¬Used s.nic.status i → False := fun i hi => hroom i hi hfull
    rw [Alike, arpReply, wp_bind, wp_get, wp_bind, netSendFrom]
    refine wp_tx rfl (by rw [reply_length]; decide) (fun _ => ?_) (fun i hi => (hno i hi).elim) fun hi => (hno _ hi).elim
    rw [wp_kassert]
    exact ⟨fun h => absurd h (by decide), fun _ => hrun⟩
  | ok res =>
    obtain ⟨⟨⟩, w⟩ := res
    obtain ⟨hfree, hdevs, hroutes⟩ := (wp_of_run hrun).mp hreply
    have hshown : ∀ t : NetState, t.nic.dev = s.nic.dev → t.routes = s.routes → Shows t w := by
      intro t hdev' hroutes'
      refine ⟨?_, ?_, ?_⟩
      · rw [hdevs, hdev', hshows.flags]
      · rw [hdevs, hdev', hshows.mac]
      · rw [hroutes, hroutes', hshows.routes]
    rw [Alike, arpReply, wp_bind, wp_get, wp_bind, netSendFrom]
    refine wp_tx rfl (by rw [reply_length]; decide) (fun h => absurd h hfree) (fun i _ => ?_) fun _ => ?_
    · rw [wp_kassert]
      exact ⟨fun _ => ⟨w, hrun, hshown _ rfl rfl⟩, fun h => absurd h (by decide)⟩
    · rw [wp_kassert]
      exact ⟨fun _ => ⟨w, hrun, hshown _ rfl rfl⟩, fun h => absurd h (by decide)⟩

theorem resolveFrom_eq {dev : Nat} {inaddr : BitVec 32} {hwaddr : Fin 6 → Byte} (hdev : dev ≠ 0) :
    resolveFrom dev inaddr hwaddr v = match resolveRoute dev inaddr hwaddr v.routes with
      | some routes => .ok ((), { v with routes := routes })
      | none => .error (.panic "Failed to add hwaddr to resolved route dev %s via %08x\n") := by
  have hassert : kassert (σ := NetTables) (dev ≠ 0) "dev" = pure () := if_pos (decide_eq_true hdev)
  have hget : ∀ p : NetTables → Prog Fault NetTables Unit, (get >>= p) v = p v v := fun _ => rfl
  rw [resolveFrom, hassert, pure_bind, hget]
  cases resolveRoute dev inaddr hwaddr v.routes with
  | none => rfl
  | some routes => rfl

theorem alike_resolve {inaddr : BitVec 32} {hwaddr : Fin 6 → Byte} (hdev : s.nic.dev.id ≠ 0) (hshows : Shows s v) :
    Alike (netRouteResolve s.nic.dev.id inaddr hwaddr) (resolveFrom s.nic.dev.id inaddr hwaddr) s v := by
  rw [Alike, netRouteResolve, wp_bind, wp_get, resolveFrom_eq hdev, hshows.routes]
  cases resolveRoute s.nic.dev.id inaddr hwaddr s.routes with
  | none => rfl
  | some routes => exact ⟨_, rfl, hshows.flags, hshows.mac, rfl⟩

/-- A frame has the same outcome for the driver with its ring as for the tables, when the ring decides what
the driver takes. -/
theorem handlePacket_alike (hdev : s.nic.dev.id ≠ 0) (hshows : Shows s v) (hanswers : AnswersLike s v tx) :
    Alike (netHandlePacket s.nic.dev.id buf) (handlePacket tx s.nic.dev.id buf) s v := by
  have hget : ∀ p : NetTables → Prog Fault NetTables Unit, (get >>= p) v = p v v := fun _ => rfl
  have hsame : ∃ w, (pure () : Prog Fault NetTables Unit) v = .ok ((), w) ∧ Shows s w := ⟨v, rfl, hshows⟩
  rw [netHandlePacket, handlePacket]
  by_cases htype : inetHtons (ethHdrAt buf).type = ethTypeArp
  · rw [if_pos htype, if_pos htype, arpHandlePacket]
    by_cases hwho : inetHtons (arpMsgAt buf).oper = arpWhoHas
    · rw [if_pos hwho, if_pos hwho]
      exact (alike_reply hdev hshows hanswers).result
    rw [if_neg hwho, if_neg hwho]
    by_cases hresp : inetHtons (arpMsgAt buf).oper = arpResponse
    · rw [if_pos hresp, if_pos hresp, Alike, hget, hshows.flags]
      refine (wp_map _ _ _).mpr ((wp_bind _ _ _).mpr ((wp_get _).mpr ?_))
      by_cases hwait : s.nic.dev.flags &&& netArpWaiting ≠ 0
      · rw [if_pos hwait, if_pos hwait, wp_bind]
        exact alike_resolve hdev hshows
      · rw [if_neg hwait, if_neg hwait]
        exact hsame
    · rw [if_neg hresp, if_neg hresp]
      exact hsame
  · rw [if_neg htype, if_neg htype]
    exact hsame

end OneDevice

def receive (tx : Driver) : List (Nat × Buffer) → Prog Fault NetTables Unit
  | [] => return ()
  | (dev, buf) :: rest => do
    handlePacket tx dev buf
    receive tx rest

abbrev Gateways := Nat → BitVec 32 → Fin 6 → Byte

structure Answers (hw : Gateways) (m : Sent) (frame : Nat × Buffer) : Prop where
  dev : frame.1 = m.dev
  type : inetHtons (ethHdrAt frame.2).type = ethTypeArp
  oper : inetHtons (arpMsgAt frame.2).oper = arpResponse
  sender : (arpMsgAt frame.2).spa = m.arp.tpa
  hwaddr : (arpMsgAt frame.2).sha = hw m.dev m.arp.tpa

def usedRoutes (routes : List Route) : List Route := routes.takeWhile (·.flags ≠ 0#32)

def SameSubnet (a : InaddrSpec) (inaddr : BitVec 32) : Prop :=
  ∃ mask, netInaddrMask (a.flags.truncate 8) = some mask ∧ a.addr &&& mask = inaddr &&& mask

def InSubnet (devs : Nat → Iface) (r : Route) : Prop :=
  ∃ inaddrs, (devs r.dev).priv = some inaddrs ∧ ∃ a ∈ inaddrs.takeWhile (·.flags ≠ 0#32), SameSubnet a r.dst

/-- Every route whose gateway can be asked has the gateway's hardware address in the end. -/
def AllResolved (hw : Gateways) (s t : NetTables) : Prop :=
  ∀ (i : Nat) (r : Route), (usedRoutes s.routes)[i]? = some r → InSubnet s.devs r →
    (t.routes[i]?).map Route.dstHwaddr = some (hw r.dev r.dst)

/-- No route whose gateway can be asked comes behind another one through the same gateway, unless
its entry holds the gateway's address already. -/
def GatewaysDistinct (hw : Gateways) (s : NetTables) : Prop :=
  ∀ (i j : Nat) (r r' : Route), (usedRoutes s.routes)[i]? = some r → InSubnet s.devs r → j < i →
    (usedRoutes s.routes)[j]? = some r' → r'.dev = r.dev → r'.dst = r.dst → r.dstHwaddr = hw r.dev r.dst

section Asking

variable {s t u : NetTables} {tx : Driver} {r : Route}

def Route.key (r : Route) : Nat × BitVec 32 := (r.dev, r.dst)

def Sent.key (m : Sent) : Nat × BitVec 32 := (m.dev, m.arp.tpa)

def Waiting (s : NetTables) (dev : Nat) : Prop := (s.devs dev).flags &&& netArpWaiting ≠ 0

structure Asked (s : NetTables) (keys : Nat × BitVec 32 → Prop) (t : NetTables) : Prop where
  routes : t.routes = s.routes
  priv : ∀ d, (t.devs d).priv = (s.devs d).priv
  waiting : ∀ d, Waiting s d → Waiting t d
  sent : ∃ asked, t.sent = s.sent ++ asked ∧ (∀ m ∈ asked, m.dev ≠ 0 ∧ Waiting t m.dev) ∧
    ∀ k, k ∈ asked.map Sent.key ↔ keys k

theorem Asked.none : Asked s (fun _ => False) s :=
  ⟨rfl, fun _ => rfl, fun _ h => h, [], by simp, by simp, by simp⟩

theorem Asked.congr {p q : Nat × BitVec 32 → Prop} (h : Asked s p t) (hpq : ∀ k, p k ↔ q k) : Asked s q t := by
  obtain ⟨asked, hsent, hall, hkeys⟩ := h.sent
  exact ⟨h.routes, h.priv, h.waiting, asked, hsent, hall, fun k => (hkeys k).trans (hpq k)⟩

theorem Asked.trans {p q : Nat × BitVec 32 → Prop} (h : Asked s p t) (h' : Asked t q u) :
    Asked s (fun k => p k ∨ q k) u := by
  obtain ⟨asked, hsent, hall, hkeys⟩ := h.sent
  obtain ⟨asked', hsent', hall', hkeys'⟩ := h'.sent
  refine ⟨h'.routes.trans h.routes, fun d => (h'.priv d).trans (h.priv d), fun d hd => h'.waiting d (h.waiting d hd),
    asked ++ asked', ?_, fun m hm => ?_, fun k => ?_⟩
  · rw [hsent', hsent, List.append_assoc]
  · rcases List.mem_append.mp hm with hm | hm
    · exact ⟨(hall m hm).1, h'.waiting _ (hall m hm).2⟩
    · exact hall' m hm
  · rw [List.map_append, List.mem_append, hkeys, hkeys']

theorem awaiting_priv (devs : Nat → Iface) (dev d : Nat) : (awaiting devs dev d).priv = (devs d).priv := by
  unfold awaiting
  by_cases hd : d = dev
  · rw [hd, Function.update_self]
  · rw [Function.update_of_ne hd]

theorem awaiting_waiting (devs : Nat → Iface) {dev d : Nat} (h : (devs d).flags &&& netArpWaiting ≠ 0 ∨ d = dev) :
    (awaiting devs dev d).flags &&& netArpWaiting ≠ 0 := by
  unfold awaiting
  by_cases hd : d = dev
  · rw [hd, Function.update_self, BitVec.and_or_distrib_right, BitVec.and_self]
    exact fun hzero => absurd (BitVec.or_eq_zero_iff.mp hzero).2 (by decide)
  · rw [Function.update_of_ne hd]
    exact h.resolve_right hd

theorem wp_arpRequest {dev : Nat} {inaddr src : BitVec 32} :
    wp (arpRequestInHwaddr tx dev inaddr src) anyFault (fun _ t => Asked s (fun k => k = (dev, inaddr)) t) s := by
  rw [arpRequestInHwaddr, wp_bind, wp_kassert]
  refine ⟨fun hdev => ?_, fun _ => trivial⟩
  rw [wp_bind, wp_get, wp_bind, wp_modify, wp_bind, netSend, wp_bind, wp_kassert]
  refine ⟨fun _ => ?_, fun _ => trivial⟩
  rw [wp_bind, wp_get, wp_bind, wp_modify, wp_pure, wp_kassert]
  refine ⟨fun _ => ?_, fun _ => trivial⟩
  refine ⟨rfl, awaiting_priv _ _, fun d hd => ?_, [_], rfl, fun m hm => ?_, fun k => ?_⟩
  · exact awaiting_waiting _ (.inl hd)
  · rw [List.mem_singleton.mp hm]
    exact ⟨of_decide_eq_true hdev, awaiting_waiting _ (.inr rfl)⟩
  · rw [List.map_singleton, List.mem_singleton]
    rfl

def AnySubnet (inaddrs : List InaddrSpec) (inaddr : BitVec 32) : Prop :=
  ∃ a ∈ inaddrs.takeWhile (·.flags ≠ 0#32), SameSubnet a inaddr

theorem wp_askGateway (inaddrs : List InaddrSpec) : wp (askGateway tx r inaddrs) anyFault
    (fun _ t => Asked s (fun k => AnySubnet inaddrs r.dst ∧ k = r.key) t) s := by
  have hnone : ¬AnySubnet inaddrs r.dst → Asked s (fun k => AnySubnet inaddrs r.dst ∧ k = r.key) s :=
    fun hno => Asked.none.congr fun k => ⟨False.elim, fun h => hno h.1⟩
  induction inaddrs with
  | nil =>
    refine hnone ?_
    rintro ⟨a, ha, -⟩
    cases ha
  | cons a rest ih =>
    rw [askGateway]
    by_cases hflags : a.flags = 0#32
    · rw [if_pos hflags]
      refine hnone ?_
      rintro ⟨b, hb, -⟩
      rw [List.takeWhile_cons_of_neg (by simp [hflags])] at hb
      cases hb
    rw [if_neg hflags]
    have hcons : AnySubnet (a :: rest) r.dst ↔ SameSubnet a r.dst ∨ AnySubnet rest r.dst := by
      unfold AnySubnet
      rw [List.takeWhile_cons_of_pos (by simp [hflags]), List.exists_mem_cons_iff]
    cases hmask : netInaddrMask (a.flags.truncate 8) with
    | none => trivial
    | some mask =>
      dsimp only
      by_cases hsame : a.addr &&& mask = r.dst &&& mask
      · rw [if_pos hsame]
        refine wp_imp wp_arpRequest fun _ t ht => ht.congr fun k => ⟨fun hk => ⟨hcons.mpr (.inl ?_), hk⟩, And.right⟩
        exact ⟨mask, hmask, hsame⟩
      · rw [if_neg hsame]
        have hnot : ¬SameSubnet a r.dst := by
          rintro ⟨mask', hmask', hsame'⟩
          rw [hmask] at hmask'
          obtain rfl := Option.some.inj hmask'
          exact hsame hsame'
        have hrest : AnySubnet (a :: rest) r.dst ↔ AnySubnet rest r.dst := by
          rw [hcons, or_iff_right hnot]
        rw [hrest] at hnone
        refine wp_imp (ih hnone) fun _ t ht => ht.congr fun k => ?_
        rw [hrest]

theorem usedRoutes_cons {rest : List Route} (h : r.flags ≠ 0#32) : usedRoutes (r :: rest) = r :: usedRoutes rest :=
  List.takeWhile_cons_of_pos (by simp [h])

theorem usedRoutes_cons_unused {rest : List Route} (h : r.flags = 0#32) : usedRoutes (r :: rest) = [] :=
  List.takeWhile_cons_of_neg (by simp [h])

theorem inSubnet_congr (h : ∀ d, (t.devs d).priv = (s.devs d).priv) : InSubnet t.devs r ↔ InSubnet s.devs r := by
  unfold InSubnet
  rw [h]

theorem wp_askGateways (routes : List Route) : wp (askGateways tx routes) anyFault
    (fun _ t => Asked s (fun k => ∃ r ∈ usedRoutes routes, InSubnet s.devs r ∧ k = r.key) t) s := by
  induction routes generalizing s with
  | nil => exact Asked.none.congr fun k => ⟨False.elim, fun ⟨_, hr, _⟩ => nomatch hr⟩
  | cons r rest ih =>
    rw [askGateways]
    by_cases hflags : r.flags = 0#32
    · rw [if_pos hflags, usedRoutes_cons_unused hflags]
      exact Asked.none.congr fun k => ⟨False.elim, fun ⟨_, hr, _⟩ => nomatch hr⟩
    rw [if_neg hflags, wp_bind, wp_kassert, usedRoutes_cons hflags]
    refine ⟨fun _ => ?_, fun _ => trivial⟩
    rw [wp_bind, wp_get]
    cases hpriv : (s.devs r.dev).priv with
    | none => trivial
    | some inaddrs =>
      have hsubnet : InSubnet s.devs r ↔ AnySubnet inaddrs r.dst := by
        unfold InSubnet
        rw [hpriv]
        exact ⟨fun ⟨_, he, h⟩ => Option.some.inj he ▸ h, fun h => ⟨_, rfl, h⟩⟩
      dsimp only
      rw [wp_bind]
      refine wp_imp (wp_askGateway inaddrs) fun _ t ht => wp_imp ih fun _ u hu => (ht.trans hu).congr fun k => ?_
      rw [List.exists_mem_cons_iff, hsubnet]
      simp only [inSubnet_congr ht.priv]

end Asking

section Resolving

variable {hw : Gateways} {tx : Driver}

def markRoutes (hw : Gateways) : List (Nat × BitVec 32) → List Route → List Route
  | _, [] => []
  | keys, r :: rest =>
    if r.flags = 0#32 then r :: rest
    else if r.key ∈ keys then
      { r with dstHwaddr := hw r.dev r.dst } :: markRoutes hw (keys.filter (· ≠ r.key)) rest
    else r :: markRoutes hw keys rest

theorem markRoutes_nil (routes : List Route) : markRoutes hw [] routes = routes := by
  induction routes with
  | nil => rfl
  | cons r rest ih => simp [markRoutes, ih]

theorem markRoutes_congr {keys keys' : List (Nat × BitVec 32)} (h : ∀ k, k ∈ keys ↔ k ∈ keys') (routes : List Route) :
    markRoutes hw keys routes = markRoutes hw keys' routes := by
  induction routes generalizing keys keys' with
  | nil => rfl
  | cons r rest ih =>
    have hfilter : ∀ k, k ∈ keys.filter (· ≠ r.key) ↔ k ∈ keys'.filter (· ≠ r.key) := fun k => by
      rw [List.mem_filter, List.mem_filter, h]
    simp only [markRoutes, h, ih hfilter, ih h]

theorem markRoutes_cons_of_mem {keys : List (Nat × BitVec 32)} {r : Route} {rest : List Route} (hflags : r.flags ≠ 0#32)
    (hmem : r.key ∈ keys) : markRoutes hw keys (r :: rest) =
      { r with dstHwaddr := hw r.dev r.dst } :: markRoutes hw (keys.filter (· ≠ r.key)) rest := by
  rw [markRoutes, if_neg hflags, if_pos hmem]

theorem markRoutes_cons_of_not_mem {keys : List (Nat × BitVec 32)} {r : Route} {rest : List Route}
    (hmem : r.key ∉ keys) : markRoutes hw keys (r :: rest) =
      if r.flags = 0#32 then r :: rest else r :: markRoutes hw keys rest := by
  rw [markRoutes, if_neg hmem]

theorem resolveRoute_mark {dev : Nat} {inaddr : BitVec 32} {keys : List (Nat × BitVec 32)} {routes : List Route}
    (hroute : HasRoute routes dev inaddr) :
    resolveRoute dev inaddr (hw dev inaddr) (markRoutes hw keys routes) =
      some (markRoutes hw ((dev, inaddr) :: keys) routes) := by
  induction routes generalizing keys with
  | nil => exact absurd hroute hasRoute_nil
  | cons r rest ih =>
    obtain ⟨hflags, hwhere⟩ := hasRoute_cons.mp hroute
    by_cases hmatch : r.dev = dev ∧ r.dst = inaddr
    · obtain ⟨rfl, rfl⟩ := hmatch
      have hrest : markRoutes hw ((r.key :: keys).filter (· ≠ r.key)) rest =
          markRoutes hw (keys.filter (· ≠ r.key)) rest := by simp
      have hmem : r.key ∈ r.key :: keys := List.mem_cons_self ..
      refine Eq.trans ?_ (congrArg some (markRoutes_cons_of_mem hflags hmem).symm)
      rw [hrest]
      by_cases hmem : r.key ∈ keys
      · rw [markRoutes_cons_of_mem hflags hmem, resolveRoute, if_neg hflags, if_pos ⟨rfl, rfl⟩]
      · have hsame : markRoutes hw (keys.filter (· ≠ r.key)) rest = markRoutes hw keys rest := by
          refine markRoutes_congr (fun k => ?_) rest
          rw [List.mem_filter]
          refine ⟨And.left, fun hk => ⟨hk, decide_eq_true fun he => hmem ?_⟩⟩
          rwa [← he]
        rw [markRoutes_cons_of_not_mem hmem, if_neg hflags, resolveRoute, if_neg hflags, if_pos ⟨rfl, rfl⟩, hsame]
    · have hkey : r.key ≠ (dev, inaddr) := fun he => hmatch (Prod.ext_iff.mp he)
      have hroute' : HasRoute rest dev inaddr := hwhere.resolve_left hmatch
      by_cases hmem : r.key ∈ keys
      · have hrest : ((dev, inaddr) :: keys).filter (· ≠ r.key) = (dev, inaddr) :: keys.filter (· ≠ r.key) := by
          simp [Ne.symm hkey]
        rw [markRoutes_cons_of_mem hflags hmem, markRoutes_cons_of_mem hflags (List.mem_cons_of_mem _ hmem), hrest,
          resolveRoute, if_neg hflags, if_neg hmatch, ih hroute', Option.map_some]
      · have hnot : r.key ∉ (dev, inaddr) :: keys := by simp [hkey, hmem]
        rw [markRoutes_cons_of_not_mem hmem, markRoutes_cons_of_not_mem hnot, if_neg hflags, if_neg hflags,
          resolveRoute, if_neg hflags, if_neg hmatch, ih hroute', Option.map_some]

theorem getElem?_markRoutes {keys : List (Nat × BitVec 32)} {routes : List Route} {i : Nat} {r : Route}
    (hr : (usedRoutes routes)[i]? = some r) : (markRoutes hw keys routes)[i]? = some
      (if r.key ∈ keys ∧ r.key ∉ ((usedRoutes routes).take i).map Route.key
        then { r with dstHwaddr := hw r.dev r.dst } else r) := by
  induction routes generalizing keys i with
  | nil => cases hr
  | cons x rest ih =>
    by_cases hflags : x.flags = 0#32
    · rw [usedRoutes_cons_unused hflags] at hr
      cases hr
    rw [usedRoutes_cons hflags] at hr ⊢
    rw [markRoutes, if_neg hflags]
    cases i with
    | zero =>
      obtain rfl := Option.some.inj hr
      by_cases hmem : x.key ∈ keys
      · simp [hmem]
      · simp [hmem]
    | succ i =>
      rw [List.getElem?_cons_succ] at hr
      by_cases hmem : x.key ∈ keys
      · rw [if_pos hmem, List.getElem?_cons_succ, ih hr]
        have hcond : (r.key ∈ keys.filter (· ≠ x.key) ∧ r.key ∉ ((usedRoutes rest).take i).map Route.key) ↔
            r.key ∈ keys ∧ r.key ∉ ((x :: usedRoutes rest).take (i + 1)).map Route.key := by
          rw [List.mem_filter, List.take_succ_cons, List.map_cons, List.mem_cons, not_or, decide_eq_true_eq, and_assoc]
        simp only [hcond]
      · rw [if_neg hmem, List.getElem?_cons_succ, ih hr]
        have hcond : (r.key ∈ keys ∧ r.key ∉ ((usedRoutes rest).take i).map Route.key) ↔
            r.key ∈ keys ∧ r.key ∉ ((x :: usedRoutes rest).take (i + 1)).map Route.key := by
          rw [List.take_succ_cons, List.map_cons, List.mem_cons, not_or]
          exact ⟨fun h => ⟨h.1, fun he => hmem (he ▸ h.1), h.2⟩, fun h => ⟨h.1, h.2.2⟩⟩
        simp only [hcond]

theorem wp_receiveAnswer {s : NetTables} {m : Sent} {frame : Nat × Buffer} {keys : List (Nat × BitVec 32)}
    {routes : List Route} (hanswer : Answers hw m frame) (hdev : m.dev ≠ 0) (hwaiting : Waiting s m.dev)
    (hroute : HasRoute routes m.dev m.arp.tpa) (hroutes : s.routes = markRoutes hw keys routes) :
    wp (handlePacket tx frame.1 frame.2) noFault
      (fun _ t => t = { s with routes := markRoutes hw (m.key :: keys) routes }) s := by
  have hne : inetHtons (arpMsgAt frame.2).oper ≠ arpWhoHas := by
    rw [hanswer.oper]
    decide
  have hflag : (s.devs m.dev).flags &&& netArpWaiting ≠ 0 := hwaiting
  rw [handlePacket, if_pos hanswer.type, if_neg hne, if_pos hanswer.oper, wp_bind, wp_get, hanswer.dev, if_pos hflag,
    resolveFrom, wp_bind, wp_kassert]
  refine ⟨fun _ => ?_, fun hno => absurd hdev (of_decide_eq_false hno)⟩
  rw [wp_bind, wp_get, hanswer.sender, hanswer.hwaddr, hroutes, resolveRoute_mark hroute]
  exact rfl

theorem wp_receive (tx : Driver) {s : NetTables} {asked : List Sent} {frames : List (Nat × Buffer)} {keys : List (Nat × BitVec 32)}
    {routes : List Route} (hanswers : List.Forall₂ (Answers hw) asked frames)
    (hasked : ∀ m ∈ asked, m.dev ≠ 0 ∧ Waiting s m.dev ∧ HasRoute routes m.dev m.arp.tpa)
    (hroutes : s.routes = markRoutes hw keys routes) :
    wp (receive tx frames) noFault
      (fun _ t => t.routes = markRoutes hw ((asked.map Sent.key).reverse ++ keys) routes) s := by
  induction hanswers generalizing s keys with
  | nil => exact hroutes
  | cons hanswer _ ih =>
    obtain ⟨hdev, hwaiting, hroute⟩ := hasked _ (List.mem_cons_self ..)
    rw [receive, wp_bind]
    refine wp_imp (wp_receiveAnswer hanswer hdev hwaiting hroute hroutes) ?_
    rintro _ t rfl
    refine wp_imp (ih (fun m hm => hasked m (List.mem_cons_of_mem _ hm)) rfl) fun _ u hu => ?_
    rw [hu, List.map_cons, List.reverse_cons, List.append_assoc, List.singleton_append]

end Resolving

section Configured

variable {hw : Gateways} {tx : Driver} {s t : NetTables}

/-- The frames answer the requests that were sent since the state `s`, in some order. -/
def AllAnswered (hw : Gateways) (s t : NetTables) (frames : List (Nat × Buffer)) : Prop :=
  ∃ asked, asked.Perm (t.sent.drop s.sent.length) ∧ List.Forall₂ (Answers hw) asked frames

theorem hasRoute_of_used {r : Route} {routes : List Route} (h : r ∈ usedRoutes routes) : HasRoute routes r.dev r.dst :=
  ⟨r, h, rfl, rfl⟩

/-- Once all answers to its requests have come in, `net_post_config` has resolved every route whose
gateway is in reach, exactly when no two of them go through the same gateway. -/
theorem routes_resolved_iff (hrun : netPostConfig tx s = .ok ((), t)) {frames : List (Nat × Buffer)}
    (hanswered : AllAnswered hw s t frames) :
    wp (receive tx frames) noFault (fun _ u => AllResolved hw s u) t ↔ GatewaysDistinct hw s := by
  have hpost : wp (netPostConfig tx) anyFault (fun _ t => Asked s
      (fun k => ∃ r ∈ usedRoutes s.routes, InSubnet s.devs r ∧ k = r.key) t) s := by
    rw [netPostConfig, wp_bind, wp_get]
    exact wp_askGateways s.routes
  have hasked := of_run hpost hrun
  obtain ⟨sent, hsent, hall, hkeys⟩ := hasked.sent
  obtain ⟨asked, hperm, hframes⟩ := hanswered
  rw [hsent, List.drop_left] at hperm
  have hrequests : ∀ m ∈ asked, m.dev ≠ 0 ∧ Waiting t m.dev ∧ HasRoute s.routes m.dev m.arp.tpa := by
    intro m hm
    have hmem := hperm.mem_iff.mp hm
    obtain ⟨r, hr, -, hkey⟩ := (hkeys m.key).mp (List.mem_map_of_mem hmem)
    obtain ⟨hd, ha⟩ := Prod.ext_iff.mp hkey
    have hroute := hasRoute_of_used hr
    refine ⟨(hall m hmem).1, (hall m hmem).2, ?_⟩
    rwa [← show m.dev = r.dev from hd, ← show m.arp.tpa = r.dst from ha] at hroute
  have hreceive := wp_receive tx hframes hrequests (hasked.routes.trans (markRoutes_nil _).symm)
  have hmember : ∀ r ∈ usedRoutes s.routes, InSubnet s.devs r → r.key ∈ (asked.map Sent.key).reverse ++ [] := by
    intro r hr hsubnet
    rw [List.append_nil, List.mem_reverse, (hperm.map _).mem_iff, hkeys]
    exact ⟨r, hr, hsubnet, rfl⟩
  have hfinal : ∀ u : NetTables, u.routes = markRoutes hw ((asked.map Sent.key).reverse ++ []) s.routes →
      (AllResolved hw s u ↔ GatewaysDistinct hw s) := by
    intro u hu
    have hresolved : ∀ i r, (usedRoutes s.routes)[i]? = some r → InSubnet s.devs r →
        ((u.routes[i]?).map Route.dstHwaddr = some (hw r.dev r.dst) ↔
          (r.key ∈ ((usedRoutes s.routes).take i).map Route.key → r.dstHwaddr = hw r.dev r.dst)) := by
      intro i r hr hsubnet
      have hkey := hmember r (List.mem_of_getElem? hr) hsubnet
      rw [hu, getElem?_markRoutes hr, Option.map_some, Option.some.injEq]
      by_cases hfirst : r.key ∈ ((usedRoutes s.routes).take i).map Route.key
      · rw [if_neg fun h => h.2 hfirst]
        exact ⟨fun h _ => h, fun h => h hfirst⟩
      · rw [if_pos ⟨hkey, hfirst⟩]
        exact ⟨fun _ h => absurd h hfirst, fun _ => rfl⟩
    constructor
    · intro hresolve i j r r' hr hsubnet hji hr' hdev hdst
      refine (hresolved i r hr hsubnet).mp (hresolve i r hr hsubnet) (List.mem_map.mpr ⟨r', ?_, Prod.ext hdev hdst⟩)
      refine List.mem_of_getElem? (i := j) ?_
      rw [List.getElem?_take_of_lt hji, hr']
    · intro hdistinct i r hr hsubnet
      refine (hresolved i r hr hsubnet).mpr fun hmem => ?_
      obtain ⟨r', hr', hkey⟩ := List.mem_map.mp hmem
      obtain ⟨j, hj, hget⟩ := List.mem_take_iff_getElem.mp hr'
      obtain ⟨hdev, hdst⟩ := Prod.ext_iff.mp hkey
      exact hdistinct i j r r' hr hsubnet (by omega) (List.getElem?_eq_some_iff.mpr ⟨by omega, hget⟩) hdev hdst
  constructor
  · intro hwp
    obtain ⟨_, u, hu, hresolve⟩ := run_of_wp hwp
    exact (hfinal u (of_run hreceive hu)).mp hresolve
  · intro hdistinct
    exact wp_imp hreceive fun _ u hu => (hfinal u hu).mpr hdistinct

def noRoutes : NetTables :=
  ⟨fun _ => ⟨1, fun _ => 0, some (List.replicate 4 ⟨0, 0⟩)⟩, List.replicate 32 ⟨0, 0, 0, 0, fun _ => 0⟩, []⟩

def subnet : BitVec 32 := 0x0000A8C0

def configured (gateways : List (BitVec 32)) : Prog Fault NetTables Unit := do
  netInaddrAdd 1 0x0100000A 8
  gateways.forM fun via => netRouteAdd subnet via 1 16

def gateway (n : Byte) : BitVec 32 := n ++ 0x00000A#24

def gatewayHw : Gateways := fun _ inaddr _ => (inaddr >>> 24).truncate 8

def gatewayFrame (n : Byte) : Nat × Buffer := (1, fun i =>
  if i = 12 then 8 else if i = 13 then 6 else if i = 21 then 2 else if 22 ≤ i ∧ i < 28 ∨ i = 31 then n
  else if i = 28 then 10 else 0)

theorem answers_gatewayFrame {n : Byte} {m : Sent} (hdev : m.dev = 1) (htpa : m.arp.tpa = gateway n) :
    Answers gatewayHw m (gatewayFrame n) := by
  have hload : ∀ n, (arpMsgAt (gatewayFrame n).2).spa = gateway n := by decide
  have hsha : ∀ n i, (arpMsgAt (gatewayFrame n).2).sha i = (gateway n >>> 24).truncate 8 := by decide
  have htype : ∀ n, inetHtons (ethHdrAt (gatewayFrame n).2).type = ethTypeArp := by decide
  have hoper : ∀ n, inetHtons (arpMsgAt (gatewayFrame n).2).oper = arpResponse := by decide
  refine ⟨hdev.symm, htype n, hoper n, (hload n).trans htpa.symm, ?_⟩
  rw [htpa]
  exact funext (hsha n)

def anyDriver : Driver := fun _ _ _ => 0

/-- The answers of two gateways come in the other order. -/
theorem routes_resolved_iff_two_routes : ∃ s t, configured [gateway 2, gateway 3] noRoutes = .ok ((), s) ∧
    netPostConfig anyDriver s = .ok ((), t) ∧
      wp (receive anyDriver [gatewayFrame 3, gatewayFrame 2]) noFault (fun _ u => AllResolved gatewayHw s u) t := by
  let s := after (configured [gateway 2, gateway 3]) noRoutes
  let t := after (netPostConfig anyDriver) s
  have hconf : configured [gateway 2, gateway 3] noRoutes = .ok ((), s) := run_after (by decide +kernel)
  have hpost : netPostConfig anyDriver s = .ok ((), t) := run_after (by decide +kernel)
  have hanswered : AllAnswered gatewayHw s t [gatewayFrame 3, gatewayFrame 2] :=
    ⟨_, .swap .., .cons (answers_gatewayFrame rfl rfl) (.cons (answers_gatewayFrame rfl rfl) .nil)⟩
  have hdsts : (usedRoutes s.routes).map Route.dst = [gateway 2, gateway 3] := by decide +kernel
  have hdst : ∀ {i : Nat} {r : Route}, (usedRoutes s.routes)[i]? = some r → [gateway 2, gateway 3][i]? = some r.dst := by
    intro i r hr
    rw [← hdsts, List.getElem?_map, hr, Option.map_some]
  refine ⟨s, t, hconf, hpost, (routes_resolved_iff hpost hanswered).mpr fun i j r r' hr _ hji hr' _ hsame => ?_⟩
  have hfirst := hdst hr'
  have hsecond := hdst hr
  have hlen := (List.getElem?_eq_some_iff.mp hsecond).1
  have hi : i = 1 := by
    simp only [List.length_cons, List.length_nil] at hlen
    omega
  obtain rfl := hi
  obtain rfl : j = 0 := by omega
  rw [hsame] at hfirst
  have hboth := Option.some.inj (hfirst.trans hsecond.symm)
  exact absurd hboth (by decide)

/-- Two networks lie behind one gateway: it is asked twice, and both answers go to the first of the
two routes. -/
theorem second_route_unresolved : ∃ s t u, configured [gateway 2, gateway 2] noRoutes = .ok ((), s) ∧
    netPostConfig anyDriver s = .ok ((), t) ∧ AllAnswered gatewayHw s t [gatewayFrame 2, gatewayFrame 2] ∧
      receive anyDriver [gatewayFrame 2, gatewayFrame 2] t = .ok ((), u) ∧ ¬AllResolved gatewayHw s u := by
  let s := after (configured [gateway 2, gateway 2]) noRoutes
  let t := after (netPostConfig anyDriver) s
  refine ⟨s, t, after (receive anyDriver [gatewayFrame 2, gatewayFrame 2]) t, run_after (by decide +kernel),
    run_after (by decide +kernel), ⟨_, .refl _, ?_⟩, run_after (by decide +kernel), fun hall => ?_⟩
  · exact .cons (answers_gatewayFrame rfl rfl) (.cons (answers_gatewayFrame rfl rfl) .nil)
  · have hsecond := hall 1 _ rfl ⟨_, rfl, ⟨used 8, 0x0100000A⟩, List.mem_cons_self .., 0xFF, rfl, by decide⟩
    have hbyte := congrArg (Option.map fun f => f 0) hsecond
    exact absurd hbyte (by decide +kernel)

end Configured

end YggKernel.Net
