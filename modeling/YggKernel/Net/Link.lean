import Mathlib.Data.List.TakeWhile
import YggKernel.Lib.Runs
import YggKernel.Net.Routes

namespace YggKernel.Net

open Lib.Program Lib.Runs

section Frames

variable {buf : Buffer} {m : Sent}

/-- The message stands at the start of the buffer. -/
def Carries (buf : Buffer) (m : Sent) : Prop := ∀ i < 42, (m.eth.bytes ++ m.arp.bytes)[i]? = some (buf i)

theorem load16_eq {o : Nat} {x : BitVec 16} (hlow : buf o = x.truncate 8) (hhigh : buf (o + 1) = (x >>> 8).truncate 8) :
    load16 buf o = x := by
  rw [load16, hlow, hhigh]
  apply BitVec.eq_of_toNat_eq
  rw [BitVec.toNat_append, ← Nat.shiftLeft_add_eq_or_of_lt (BitVec.isLt _)]
  simp [Nat.shiftLeft_eq, Nat.shiftRight_eq_div_pow]
  omega

theorem load32le_eq {o : Nat} {x : BitVec 32} (hlow : load16 buf o = x.truncate 16)
    (hhigh : load16 buf (o + 2) = (x >>> 16).truncate 16) : load32le buf o = x := by
  rw [load32le, hlow, hhigh]
  apply BitVec.eq_of_toNat_eq
  rw [BitVec.toNat_append, ← Nat.shiftLeft_add_eq_or_of_lt (BitVec.isLt _)]
  simp [Nat.shiftLeft_eq, Nat.shiftRight_eq_div_pow]
  omega

theorem Carries.byte (h : Carries buf m) {i : Nat} {x : Byte} (hi : i < 42)
    (hx : (m.eth.bytes ++ m.arp.bytes)[i]? = some x) : buf i = x := by
  apply Option.some.inj
  rw [← h i hi, hx]

theorem Carries.eth (h : Carries buf m) : ethHdrAt buf = m.eth := by
  have hdst : (fun i : Fin 6 => buf i) = m.eth.dstMac := by
    funext i
    apply h.byte (by omega)
    fin_cases i <;> rfl
  have hsrc : (fun i : Fin 6 => buf (6 + i)) = m.eth.srcMac := by
    funext i
    apply h.byte (by omega)
    fin_cases i <;> rfl
  have htype : load16 buf 12 = m.eth.type := load16_eq (h.byte (by decide) rfl) (h.byte (by decide) rfl)
  rw [ethHdrAt, hdst, hsrc, htype]

theorem Carries.arp (h : Carries buf m) : arpMsgAt buf = m.arp := by
  have hsha : (fun i : Fin 6 => buf (22 + i)) = m.arp.sha := by
    funext i
    apply h.byte (by omega)
    fin_cases i <;> rfl
  have htha : (fun i : Fin 6 => buf (32 + i)) = m.arp.tha := by
    funext i
    apply h.byte (by omega)
    fin_cases i <;> rfl
  have hload : ∀ {o : Nat} {x : BitVec 16}, o + 1 < 42 → (m.eth.bytes ++ m.arp.bytes)[o]? = some (x.truncate 8) →
      (m.eth.bytes ++ m.arp.bytes)[o + 1]? = some ((x >>> 8).truncate 8) → load16 buf o = x :=
    fun ho hlow hhigh => load16_eq (h.byte (by omega) hlow) (h.byte ho hhigh)
  have hspa : load32le buf 28 = m.arp.spa := load32le_eq (hload (by decide) rfl rfl) (hload (by decide) rfl rfl)
  have htpa : load32le buf 38 = m.arp.tpa := load32le_eq (hload (by decide) rfl rfl) (hload (by decide) rfl rfl)
  rw [arpMsgAt, hsha, htha, hspa, htpa, hload (by decide) rfl rfl, hload (by decide) rfl rfl,
    hload (by decide) rfl rfl, h.byte (by decide) rfl, h.byte (by decide) rfl]

end Frames

section Hosts

variable {s t : NetTables} {tx : Driver} {dev : Nat} {inaddr : BitVec 32}

/-- What a host does about the link and its tables. `net_post_config` is a row of requests. -/
inductive HostOp
  | request (dev : Nat) (inaddr src : BitVec 32)
  | receive (dev : Nat) (buf : Buffer)
  | addInaddr (dev : Nat) (addr flags : BitVec 32)
  | addRoute (addr via : BitVec 32) (dev : Nat) (flags : BitVec 32)

def HostOp.call (tx : Driver) : HostOp → Prog Fault NetTables Unit
  | request dev inaddr src => arpRequestInHwaddr tx dev inaddr src
  | receive dev buf => handlePacket tx dev buf
  | addInaddr dev addr flags => netInaddrAdd dev addr flags
  | addRoute addr via dev flags => netRouteAdd addr via dev flags

def broadcast : Fin 6 → Byte := fun _ => 0xFF

def requestOf (s : NetTables) (dev : Nat) (inaddr src : BitVec 32) : Sent :=
  ⟨dev, ⟨broadcast, (s.devs dev).mac, inetHtons ethTypeArp⟩,
    ⟨inetHtons 0x01, inetHtons ethTypeInet, 6, 4, inetHtons arpWhoHas, (s.devs dev).mac, src, fun _ => 0, inaddr⟩⟩

def replyOf (s : NetTables) (dev : Nat) (ask : ArpMsg) : Sent :=
  ⟨dev, ⟨ask.sha, (s.devs dev).mac, inetHtons ethTypeArp⟩,
    ⟨ask.htype, ask.ptype, ask.hlen, ask.plen, inetHtons arpResponse, (s.devs dev).mac, ask.tpa, ask.sha, ask.spa⟩⟩

structure FirstRoute (routes : List Route) (dev : Nat) (inaddr : BitVec 32) (i : Nat) (r : Route) : Prop where
  get : (usedRoutes routes)[i]? = some r
  key : r.key = (dev, inaddr)
  first : ∀ j < i, ∀ r', (usedRoutes routes)[j]? = some r' → r'.key ≠ (dev, inaddr)

structure Resolved (s : NetTables) (dev : Nat) (inaddr : BitVec 32) (hwaddr : Fin 6 → Byte) (t : NetTables) : Prop where
  entry : ∃ i r, FirstRoute s.routes dev inaddr i r ∧ t.routes = s.routes.set i { r with dstHwaddr := hwaddr }
  devs : t.devs = s.devs
  sent : t.sent = s.sent

inductive Reacted (s : NetTables) (dev : Nat) (buf : Buffer) : NetTables → Prop
  | answered : inetHtons (ethHdrAt buf).type = ethTypeArp → inetHtons (arpMsgAt buf).oper = arpWhoHas →
      Reacted s dev buf { s with sent := s.sent ++ [replyOf s dev (arpMsgAt buf)] }
  | resolved {t : NetTables} : inetHtons (ethHdrAt buf).type = ethTypeArp →
      inetHtons (arpMsgAt buf).oper = arpResponse → Waiting s dev →
      Resolved s dev (arpMsgAt buf).spa (arpMsgAt buf).sha t → Reacted s dev buf t
  | ignored : ¬(inetHtons (ethHdrAt buf).type = ethTypeArp ∧ (inetHtons (arpMsgAt buf).oper = arpWhoHas ∨
      inetHtons (arpMsgAt buf).oper = arpResponse ∧ Waiting s dev)) → Reacted s dev buf s

def Refuses (tx : Driver) (s : NetTables) (m : Sent) : Prop := tx m.dev (m.eth.bytes ++ m.arp.bytes) s.sent ≠ 0

theorem wp_netSend {E : Fault → Prop} (m : Sent) (hdev : m.dev = 0 → ∀ f, E f) : wp (netSend tx m) E
    (fun res t => res = tx m.dev (m.eth.bytes ++ m.arp.bytes) s.sent ∧ t = { s with sent := s.sent ++ [m] }) s := by
  rw [netSend, wp_bind, wp_kassert]
  refine ⟨fun _ => ?_, fun hzero => hdev (by simpa using hzero) _⟩
  exact ⟨rfl, rfl⟩

theorem wp_request {E : Fault → Prop} (src : BitVec 32) (hdev : dev = 0 → ∀ f, E f)
    (htx : Refuses tx s (requestOf s dev inaddr src) → E (assertionFailed netSent)) : wp (arpRequestInHwaddr tx dev inaddr src) E
      (fun _ t => t = ⟨awaiting s.devs dev, s.routes, s.sent ++ [requestOf s dev inaddr src]⟩) s := by
  rw [arpRequestInHwaddr, wp_bind, wp_kassert]
  refine ⟨fun _ => ?_, fun hzero => hdev (by simpa using hzero) _⟩
  rw [wp_bind, wp_get, wp_bind, wp_modify, wp_bind]
  apply wp_imp (wp_netSend _ hdev)
  rintro res t ⟨hres, rfl⟩
  rw [wp_kassert]
  refine ⟨fun _ => rfl, fun hno => htx ?_⟩
  rw [hres] at hno
  exact of_decide_eq_false hno

theorem resolveRoute_first (hwaddr : Fin 6 → Byte) {routes : List Route} (h : HasRoute routes dev inaddr) :
    ∃ i r, FirstRoute routes dev inaddr i r ∧
      resolveRoute dev inaddr hwaddr routes = some (routes.set i { r with dstHwaddr := hwaddr }) := by
  induction routes with
  | nil => exact absurd h hasRoute_nil
  | cons r rest ih =>
    obtain ⟨hflags, hwhere⟩ := hasRoute_cons.mp h
    rw [resolveRoute, if_neg hflags]
    by_cases hmatch : r.dev = dev ∧ r.dst = inaddr
    · rw [if_pos hmatch]
      refine ⟨0, r, ⟨?_, Prod.ext hmatch.1 hmatch.2, fun j hj => absurd hj (Nat.not_lt_zero _)⟩, rfl⟩
      rw [usedRoutes_cons hflags]
      rfl
    · rw [if_neg hmatch]
      obtain ⟨i, r', hfirst, hset⟩ := ih (hwhere.resolve_left hmatch)
      refine ⟨i + 1, r', ⟨?_, hfirst.key, fun j hj x hx => ?_⟩, ?_⟩
      · rw [usedRoutes_cons hflags]
        exact hfirst.get
      · rw [usedRoutes_cons hflags] at hx
        cases j with
        | zero =>
          obtain rfl := Option.some.inj hx
          exact fun he => hmatch (Prod.ext_iff.mp he)
        | succ j => exact hfirst.first j (by omega) x hx
      · rw [hset]
        rfl

theorem wp_resolveFrom {hwaddr : Fin 6 → Byte} {E : Fault → Prop} (hdev : dev = 0 → ∀ f, E f)
    (hno : ¬HasRoute s.routes dev inaddr → ∀ f, E f) :
    wp (resolveFrom dev inaddr hwaddr) E (fun _ t => Resolved s dev inaddr hwaddr t) s := by
  rw [resolveFrom, wp_bind, wp_kassert]
  refine ⟨fun _ => ?_, fun hzero => hdev (by simpa using hzero) _⟩
  rw [wp_bind, wp_get]
  by_cases hroute : HasRoute s.routes dev inaddr
  · obtain ⟨i, r, hfirst, hset⟩ := resolveRoute_first hwaddr hroute
    rw [hset]
    exact ⟨⟨i, r, hfirst, rfl⟩, rfl, rfl⟩
  · rw [(resolveRoute_eq_none _).mpr hroute]
    exact hno hroute _

theorem wp_handlePacket {E : Fault → Prop} (buf : Buffer) (hdev : dev = 0 → ∀ f, E f)
    (htx : inetHtons (arpMsgAt buf).oper = arpWhoHas → Refuses tx s (replyOf s dev (arpMsgAt buf)) →
      E (assertionFailed netSent))
    (hno : inetHtons (ethHdrAt buf).type = ethTypeArp → inetHtons (arpMsgAt buf).oper = arpResponse →
      ¬HasRoute s.routes dev (arpMsgAt buf).spa → ∀ f, E f) :
    wp (handlePacket tx dev buf) E (fun _ t => Reacted s dev buf t) s := by
  rw [handlePacket]
  by_cases htype : inetHtons (ethHdrAt buf).type = ethTypeArp
  · rw [if_pos htype]
    by_cases hwho : inetHtons (arpMsgAt buf).oper = arpWhoHas
    · rw [if_pos hwho, replyFrom, wp_bind, wp_get, wp_bind]
      apply wp_imp (wp_netSend _ hdev)
      rintro res t ⟨hres, rfl⟩
      rw [wp_kassert]
      refine ⟨fun _ => .answered htype hwho, fun hbad => htx hwho ?_⟩
      rw [hres] at hbad
      exact of_decide_eq_false hbad
    rw [if_neg hwho]
    by_cases hresp : inetHtons (arpMsgAt buf).oper = arpResponse
    · rw [if_pos hresp, wp_bind, wp_get]
      by_cases hwait : (s.devs dev).flags &&& netArpWaiting ≠ 0
      · rw [if_pos hwait]
        apply wp_imp (wp_resolveFrom hdev (hno htype hresp))
        exact fun _ t ht => .resolved htype hresp hwait ht
      · rw [if_neg hwait]
        exact .ignored fun h => h.2.elim hwho fun h' => hwait h'.2
    · rw [if_neg hresp]
      exact .ignored fun h => h.2.elim hwho fun h' => hresp h'.1
  · rw [if_neg htype]
    exact .ignored fun h => htype h.1

structure Grows (s t : NetTables) : Prop where
  mac : ∀ d, (t.devs d).mac = (s.devs d).mac
  priv : ∀ d, (t.devs d).priv ≠ none ↔ (s.devs d).priv ≠ none
  waiting : ∀ d, Waiting s d → Waiting t d
  routes : ∀ dev inaddr, HasRoute s.routes dev inaddr → HasRoute t.routes dev inaddr
  sent : s.sent <+: t.sent

theorem Grows.refl (s : NetTables) : Grows s s :=
  ⟨fun _ => rfl, fun _ => .rfl, fun _ h => h, fun _ _ h => h, List.prefix_rfl⟩

theorem Grows.trans {u : NetTables} (h : Grows s t) (h' : Grows t u) : Grows s u where
  mac d := (h'.mac d).trans (h.mac d)
  priv d := (h'.priv d).trans (h.priv d)
  waiting d hd := h'.waiting d (h.waiting d hd)
  routes dev inaddr hr := h'.routes dev inaddr (h.routes dev inaddr hr)
  sent := h.sent.trans h'.sent

/-- The entry is the one of before, a new route in an unused entry, or resolved by the frame. -/
inductive EntryFrom (s : NetTables) (r : Route) : HostOp → Route → Prop
  | same {op : HostOp} : EntryFrom s r op r
  | added {op : HostOp} {r' : Route} : r.flags = 0#32 → r'.dstHwaddr = r.dstHwaddr → EntryFrom s r op r'
  | resolved {buf : Buffer} : inetHtons (ethHdrAt buf).type = ethTypeArp →
      inetHtons (arpMsgAt buf).oper = arpResponse → r.flags ≠ 0#32 → r.dst = (arpMsgAt buf).spa →
      EntryFrom s r (.receive r.dev buf) { r with dstHwaddr := (arpMsgAt buf).sha }

inductive SentBy (s : NetTables) : HostOp → Sent → Prop
  | asks (dev : Nat) (inaddr src : BitVec 32) : SentBy s (.request dev inaddr src) (requestOf s dev inaddr src)
  | answers (dev : Nat) (buf : Buffer) : inetHtons (ethHdrAt buf).type = ethTypeArp →
      inetHtons (arpMsgAt buf).oper = arpWhoHas → SentBy s (.receive dev buf) (replyOf s dev (arpMsgAt buf))

structure Acts (s : NetTables) (op : HostOp) (t : NetTables) : Prop where
  grows : Grows s t
  sent : ∀ m ∈ t.sent, m ∈ s.sent ∨ SentBy s op m
  routes : ∀ (i : Nat) (r' : Route), t.routes[i]? = some r' → ∃ r, s.routes[i]? = some r ∧ EntryFrom s r op r'

theorem awaiting_mac (devs : Nat → Iface) (dev d : Nat) : (awaiting devs dev d).mac = (devs d).mac := by
  unfold awaiting
  by_cases hd : d = dev
  · rw [hd, Function.update_self]
  · rw [Function.update_of_ne hd]

theorem acts_request (src : BitVec 32) : Acts s (.request dev inaddr src)
    ⟨awaiting s.devs dev, s.routes, s.sent ++ [requestOf s dev inaddr src]⟩ where
  grows := by
    refine ⟨awaiting_mac _ _, fun d => ?_, fun d hd => ?_, fun _ _ h => h, List.prefix_append ..⟩
    · rw [awaiting_priv]
    · exact awaiting_waiting _ (.inl hd)
  sent m hm := by
    apply (List.mem_append.mp hm).imp_right
    intro hnew
    rw [List.mem_singleton.mp hnew]
    exact .asks dev inaddr src
  routes i r' hr := ⟨r', hr, .same⟩

theorem getElem?_usedRoutes {routes : List Route} {i : Nat} {r : Route} (h : (usedRoutes routes)[i]? = some r) :
    routes[i]? = some r ∧ r.flags ≠ 0#32 := by
  have hlen := (List.getElem?_eq_some_iff.mp h).1
  have hused := List.mem_takeWhile_imp (List.mem_of_getElem? h)
  refine ⟨?_, by simpa using hused⟩
  obtain ⟨rest, hrest⟩ := List.takeWhile_prefix (fun r : Route => r.flags ≠ 0#32) (l := routes)
  rw [← hrest]
  exact (List.getElem?_append_left hlen).trans h

theorem hasRoute_set {routes : List Route} {i : Nat} {r : Route} {hwaddr : Fin 6 → Byte} {inaddr' : BitVec 32} {dev' : Nat}
    (hr : routes[i]? = some r) (h : HasRoute routes dev' inaddr') :
    HasRoute (routes.set i { r with dstHwaddr := hwaddr }) dev' inaddr' := by
  induction routes generalizing i with
  | nil => exact absurd h hasRoute_nil
  | cons x rest ih =>
    obtain ⟨hflags, hwhere⟩ := hasRoute_cons.mp h
    cases i with
    | zero =>
      obtain rfl := Option.some.inj hr
      exact hasRoute_cons.mpr ⟨hflags, hwhere⟩
    | succ i => exact hasRoute_cons.mpr ⟨hflags, hwhere.imp_right (ih hr)⟩

theorem acts_reacted {buf : Buffer} (h : Reacted s dev buf t) : Acts s (.receive dev buf) t := by
  cases h with
  | answered htype hwho =>
    refine ⟨⟨fun _ => rfl, fun _ => .rfl, fun _ hd => hd, fun _ _ hr => hr, List.prefix_append ..⟩, fun m hm => ?_,
      fun i r' hr => ⟨r', hr, .same⟩⟩
    apply (List.mem_append.mp hm).imp_right
    intro hnew
    rw [List.mem_singleton.mp hnew]
    exact .answers dev buf htype hwho
  | resolved htype hresp _ hres =>
    obtain ⟨i, r, hfirst, hset⟩ := hres.entry
    obtain ⟨hget, hflags⟩ := getElem?_usedRoutes hfirst.get
    obtain ⟨rfl, hdst⟩ := Prod.ext_iff.mp hfirst.key
    refine ⟨⟨fun d => ?_, fun d => ?_, fun d hd => ?_, fun _ _ hr => ?_, ?_⟩, fun m hm => ?_, fun j r' hr => ?_⟩
    · rw [hres.devs]
    · rw [hres.devs]
    · rwa [Waiting, hres.devs]
    · rw [hset]
      exact hasRoute_set hget hr
    · rw [hres.sent]
    · rw [hres.sent] at hm
      exact .inl hm
    · rw [hset, List.getElem?_set] at hr
      by_cases hij : i = j
      · subst hij
        rw [if_pos rfl, if_pos (List.getElem?_eq_some_iff.mp hget).1] at hr
        obtain rfl := Option.some.inj hr
        exact ⟨r, hget, .resolved htype hresp hflags hdst⟩
      · rw [if_neg hij] at hr
        exact ⟨r', hr, .same⟩
  | ignored => exact ⟨.refl _, fun m hm => .inl hm, fun i r' hr => ⟨r', hr, .same⟩⟩

theorem wp_inaddrAdd (addr flags : BitVec 32) :
    wp (netInaddrAdd dev addr flags) anyFault (fun _ t => Acts s (.addInaddr dev addr flags) t) s := by
  rw [netInaddrAdd, wp_bind, wp_kassert]
  refine ⟨fun _ => ?_, fun _ => trivial⟩
  rw [wp_bind, wp_get]
  cases hpriv : (s.devs dev).priv with
  | none => trivial
  | some inaddrs =>
    dsimp only
    cases addInaddr ⟨used flags, addr⟩ inaddrs with
    | none => trivial
    | some inaddrs' =>
      dsimp only
      rw [wp_modify]
      refine ⟨⟨fun d => ?_, fun d => ?_, fun d hd => ?_, fun _ _ hr => hr, List.prefix_rfl⟩, fun m hm => .inl hm,
        fun i r' hr => ⟨r', hr, .same⟩⟩
      · dsimp only
        by_cases hd : d = dev
        · rw [hd, Function.update_self]
        · rw [Function.update_of_ne hd]
      · dsimp only
        by_cases hd : d = dev
        · rw [hd, Function.update_self, hpriv]
          exact iff_of_true (Option.some_ne_none _) (Option.some_ne_none _)
        · rw [Function.update_of_ne hd]
      · change (Function.update s.devs dev _ d).flags &&& netArpWaiting ≠ 0
        by_cases he : d = dev
        · subst he
          rwa [Function.update_self]
        · rwa [Function.update_of_ne he]

theorem addRoute_spec {flags addr via : BitVec 32} {routes routes' : List Route}
    (h : addRoute flags addr via dev routes = some routes') :
    (∀ dev' inaddr', HasRoute routes dev' inaddr' → HasRoute routes' dev' inaddr') ∧
      ∀ (i : Nat) (r' : Route), routes'[i]? = some r' → ∃ r, routes[i]? = some r ∧
        (r' = r ∨ r.flags = 0#32 ∧ r'.dstHwaddr = r.dstHwaddr) := by
  induction routes generalizing routes' with
  | nil => cases h
  | cons x rest ih =>
    rw [addRoute] at h
    by_cases hflags : x.flags = 0#32
    · rw [if_neg (not_not.mpr hflags)] at h
      obtain rfl := Option.some.inj h
      refine ⟨fun _ _ hroute => absurd hflags (hasRoute_cons.mp hroute).1, fun i r' hr => ?_⟩
      cases i with
      | zero =>
        obtain rfl := Option.some.inj hr
        exact ⟨x, rfl, .inr ⟨hflags, rfl⟩⟩
      | succ i => exact ⟨r', hr, .inl rfl⟩
    · rw [if_pos hflags, Option.map_eq_some_iff] at h
      obtain ⟨rest', hrest, rfl⟩ := h
      obtain ⟨hroutes, hentries⟩ := ih hrest
      refine ⟨fun _ _ hroute => ?_, fun i r' hr => ?_⟩
      · obtain ⟨_, hwhere⟩ := hasRoute_cons.mp hroute
        exact hasRoute_cons.mpr ⟨hflags, hwhere.imp_right (hroutes _ _)⟩
      · cases i with
        | zero => exact ⟨r', hr, .inl rfl⟩
        | succ i => exact hentries i r' hr

theorem wp_routeAdd (addr via flags : BitVec 32) :
    wp (netRouteAdd addr via dev flags) anyFault (fun _ t => Acts s (.addRoute addr via dev flags) t) s := by
  rw [netRouteAdd, wp_bind, wp_kassert]
  refine ⟨fun _ => ?_, fun _ => trivial⟩
  rw [wp_bind, wp_kassert]
  refine ⟨fun _ => ?_, fun _ => trivial⟩
  rw [wp_bind, wp_get]
  cases hadd : addRoute (used flags) addr via dev s.routes with
  | none => trivial
  | some routes =>
    obtain ⟨hroutes, hentries⟩ := addRoute_spec hadd
    refine ⟨⟨fun _ => rfl, fun _ => .rfl, fun _ h => h, hroutes, List.prefix_rfl⟩, fun m hm => .inl hm, fun i r' hr => ?_⟩
    obtain ⟨r, hget, hfrom⟩ := hentries i r' hr
    refine ⟨r, hget, ?_⟩
    rcases hfrom with rfl | ⟨hflags, hsame⟩
    · exact .same
    · exact .added hflags hsame

theorem wp_call (op : HostOp) : wp (op.call tx) anyFault (fun _ t => Acts s op t) s := by
  cases op with
  | request dev inaddr src =>
    apply wp_imp (wp_request src (fun _ _ => trivial) fun _ => trivial)
    rintro _ t rfl
    exact acts_request src
  | receive dev buf =>
    apply wp_imp (wp_handlePacket buf (fun _ _ => trivial) (fun _ _ => trivial) fun _ _ _ _ => trivial)
    exact fun _ t ht => acts_reacted ht
  | addInaddr dev addr flags => exact wp_inaddrAdd addr flags
  | addRoute addr via dev flags => exact wp_routeAdd addr via flags

end Hosts

section Links

variable {H : Type}

/-- Hosts on one wire, each of which runs this kernel. -/
abbrev Link (H : Type) := H → NetTables

structure Registered (s : NetTables) (dev : Nat) : Prop where
  ne : dev ≠ 0
  priv : (s.devs dev).priv ≠ none

/-- Some other device has sent the frame, or it is of another protocol. The wire may lose, delay, repeat
and reorder frames, and may show them to devices that they are not for. -/
def Incoming (l : Link H) (h : H) (dev : Nat) (buf : Buffer) : Prop :=
  inetHtons (ethHdrAt buf).type ≠ ethTypeArp ∨ ∃ g, ∃ m ∈ (l g).sent, Carries buf m ∧ (g, m.dev) ≠ (h, dev)

/-- `net_post_config` asks for the gateways of routes only. -/
def Happens (l : Link H) (h : H) : HostOp → Prop
  | .request dev inaddr _ => Registered (l h) dev ∧ HasRoute (l h).routes dev inaddr
  | .receive dev buf => Registered (l h) dev ∧ Incoming l h dev buf
  | _ => True

structure Request (s : NetTables) (m : Sent) : Prop where
  registered : Registered s m.dev
  route : HasRoute s.routes m.dev m.arp.tpa
  waiting : Waiting s m.dev
  eq : ∃ src, m = requestOf s m.dev m.arp.tpa src

structure Reply (l : Link H) (g : H) (m : Sent) : Prop where
  registered : Registered (l g) m.dev
  asked : ∃ k, ∃ q ∈ (l k).sent, Request (l k) q ∧ (k, q.dev) ≠ (g, m.dev) ∧ m = replyOf (l g) m.dev q.arp

/-- The entry holds the address of a device that has answered a request for its gateway. -/
def Learnt (l : Link H) (h : H) (r : Route) : Prop :=
  ∃ g, ∃ m ∈ (l g).sent, Reply l g m ∧ (g, m.dev) ≠ (h, r.dev) ∧ m.arp.spa = r.dst ∧
    r.dstHwaddr = ((l g).devs m.dev).mac

structure Truthful (l₀ l : Link H) : Prop where
  grows : ∀ h, Grows (l₀ h) (l h)
  sent : ∀ g, ∀ m ∈ (l g).sent, Request (l g) m ∨ Reply l g m
  routes : ∀ (h : H) (i : Nat) (r : Route), (l h).routes[i]? = some r → ∃ r₀, (l₀ h).routes[i]? = some r₀ ∧
    (r.dstHwaddr = r₀.dstHwaddr ∨ r.flags ≠ 0#32 ∧ Learnt l h r)

variable {s t : NetTables} {m : Sent} {l₀ l l' : Link H} {h : H}

theorem Registered.grows {dev : Nat} (hgrows : Grows s t) (hreg : Registered s dev) : Registered t dev :=
  ⟨hreg.ne, (hgrows.priv dev).mpr hreg.priv⟩

theorem Request.grows (hgrows : Grows s t) (hreq : Request s m) : Request t m where
  registered := hreq.registered.grows hgrows
  route := hgrows.routes _ _ hreq.route
  waiting := hgrows.waiting _ hreq.waiting
  eq := by
    obtain ⟨src, heq⟩ := hreq.eq
    refine ⟨src, ?_⟩
    rwa [requestOf, hgrows.mac]

theorem Reply.grows {g : H} (hgrows : ∀ h, Grows (l h) (l' h)) (hreply : Reply l g m) : Reply l' g m where
  registered := hreply.registered.grows (hgrows g)
  asked := by
    obtain ⟨k, q, hq, hreq, hne, heq⟩ := hreply.asked
    refine ⟨k, q, (hgrows k).sent.subset hq, hreq.grows (hgrows k), hne, ?_⟩
    rwa [replyOf, (hgrows g).mac]

theorem Learnt.grows {r : Route} (hgrows : ∀ h, Grows (l h) (l' h)) (hlearnt : Learnt l h r) : Learnt l' h r := by
  obtain ⟨g, m, hm, hreply, hne, hspa, hmac⟩ := hlearnt
  refine ⟨g, m, (hgrows g).sent.subset hm, hreply.grows hgrows, hne, hspa, ?_⟩
  rw [hmac, (hgrows g).mac]

theorem htons_htons (x : BitVec 16) : inetHtons (inetHtons x) = x := by
  unfold inetHtons
  ext i hi
  interval_cases i <;> simp

theorem Request.type (hreq : Request s m) : inetHtons m.eth.type = ethTypeArp := by
  obtain ⟨src, heq⟩ := hreq.eq
  rw [heq]
  exact htons_htons _

theorem Request.oper (hreq : Request s m) : inetHtons m.arp.oper = arpWhoHas := by
  obtain ⟨src, heq⟩ := hreq.eq
  rw [heq]
  exact htons_htons _

theorem Reply.type {g : H} (hreply : Reply l g m) : inetHtons m.eth.type = ethTypeArp := by
  obtain ⟨k, q, -, -, -, heq⟩ := hreply.asked
  rw [heq]
  exact htons_htons _

theorem Reply.oper {g : H} (hreply : Reply l g m) : inetHtons m.arp.oper = arpResponse := by
  obtain ⟨k, q, -, -, -, heq⟩ := hreply.asked
  rw [heq]
  exact htons_htons _

theorem Reply.sha {g : H} (hreply : Reply l g m) : m.arp.sha = ((l g).devs m.dev).mac := by
  obtain ⟨k, q, -, -, -, heq⟩ := hreply.asked
  rw [heq]
  rfl

theorem arpResponse_ne {x : BitVec 16} (h : inetHtons x = arpResponse) : inetHtons x ≠ arpWhoHas := by
  rw [h]
  decide

/-- A frame that is a request was sent as one, and so is a reply. -/
theorem Incoming.request {dev : Nat} {buf : Buffer} (htruthful : Truthful l₀ l) (hin : Incoming l h dev buf)
    (htype : inetHtons (ethHdrAt buf).type = ethTypeArp) (hwho : inetHtons (arpMsgAt buf).oper = arpWhoHas) :
    ∃ k, ∃ q ∈ (l k).sent, Request (l k) q ∧ (k, q.dev) ≠ (h, dev) ∧ arpMsgAt buf = q.arp := by
  obtain ⟨k, q, hq, hcarries, hne⟩ := hin.resolve_left (not_not.mpr htype)
  refine ⟨k, q, hq, (htruthful.sent k q hq).resolve_right fun hreply => ?_, hne, hcarries.arp⟩
  rw [hcarries.arp] at hwho
  exact arpResponse_ne hreply.oper hwho

theorem Incoming.reply {dev : Nat} {buf : Buffer} (htruthful : Truthful l₀ l) (hin : Incoming l h dev buf)
    (htype : inetHtons (ethHdrAt buf).type = ethTypeArp) (hresp : inetHtons (arpMsgAt buf).oper = arpResponse) :
    ∃ g, ∃ m ∈ (l g).sent, Reply l g m ∧ (g, m.dev) ≠ (h, dev) ∧ arpMsgAt buf = m.arp := by
  obtain ⟨g, m, hm, hcarries, hne⟩ := hin.resolve_left (not_not.mpr htype)
  refine ⟨g, m, hm, (htruthful.sent g m hm).resolve_left fun hreq => ?_, hne, hcarries.arp⟩
  rw [hcarries.arp] at hresp
  exact arpResponse_ne hresp hreq.oper

theorem truthful_start (hstart : ∀ h, (l₀ h).sent = []) : Truthful l₀ l₀ where
  grows h := .refl _
  sent g m hm := by
    rw [hstart g] at hm
    cases hm
  routes h i r hr := ⟨r, hr, .inl rfl⟩

/-- The only way in which an answer fails: the driver does not take it, and `arp_reply` has an assertion. -/
def Unanswered (tx : Driver) (s : NetTables) (dev : Nat) (m : Sent) (f : Fault) : Prop :=
  Refuses tx s (replyOf s dev m.arp) ∧ f = assertionFailed netSent

def AddressedTo (s : NetTables) (dev : Nat) (m : Sent) : Prop :=
  m.eth.dstMac = broadcast ∨ m.eth.dstMac = (s.devs dev).mac

/-- No two devices on the link share a hardware address, and none has the one that means all. -/
structure DistinctMacs (l : Link H) : Prop where
  ne : ∀ h dev, Registered (l h) dev → ((l h).devs dev).mac ≠ broadcast
  inj : ∀ h dev k e, Registered (l h) dev → Registered (l k) e → ((l h).devs dev).mac = ((l k).devs e).mac →
    h = k ∧ dev = e

theorem DistinctMacs.grows (hdistinct : DistinctMacs l) (hgrows : ∀ h, Grows (l h) (l' h)) : DistinctMacs l' := by
  have hreg : ∀ {h dev}, Registered (l' h) dev → Registered (l h) dev := fun hreg =>
    ⟨hreg.ne, ((hgrows _).priv _).mp hreg.priv⟩
  refine ⟨fun h dev hr => ?_, fun h dev k e hr hr' hmac => ?_⟩
  · rw [(hgrows h).mac]
    exact hdistinct.ne h dev (hreg hr)
  · rw [(hgrows h).mac, (hgrows k).mac] at hmac
    exact hdistinct.inj h dev k e (hreg hr) (hreg hr') hmac

/-- A device that a reply is for has asked for the address that the reply is about. -/
theorem Reply.expected {g : H} {dev : Nat} (hdistinct : DistinctMacs l) (hreg : Registered (l h) dev)
    (hreply : Reply l g m) (haddr : AddressedTo (l h) dev m) :
    Waiting (l h) dev ∧ HasRoute (l h).routes dev m.arp.spa := by
  obtain ⟨k, q, -, hreq, -, heq⟩ := hreply.asked
  obtain ⟨src, hq⟩ := hreq.eq
  have hdst : m.eth.dstMac = ((l k).devs q.dev).mac := by
    rw [heq, hq]
    rfl
  have hspa : m.arp.spa = q.arp.tpa := by
    rw [heq]
    rfl
  rw [AddressedTo, hdst] at haddr
  obtain ⟨rfl, rfl⟩ := hdistinct.inj _ _ _ _ hreq.registered hreg (haddr.resolve_left (hdistinct.ne _ _ hreq.registered))
  rw [hspa]
  exact ⟨hreq.waiting, hreq.route⟩

variable {tx : H → Driver}

theorem wp_addressed {g : H} {dev : Nat} {buf : Buffer} (htruthful : Truthful l₀ l) (hdistinct : DistinctMacs l)
    (hreg : Registered (l h) dev) (hm : m ∈ (l g).sent) (hcarries : Carries buf m) (haddr : AddressedTo (l h) dev m) :
    wp (handlePacket (tx h) dev buf) (fun f => Request (l g) m ∧ Unanswered (tx h) (l h) dev m f) (fun _ t =>
      (Request (l g) m ∧ t = { l h with sent := (l h).sent ++ [replyOf (l h) dev m.arp] }) ∨
        (Reply l g m ∧ Resolved (l h) dev m.arp.spa ((l g).devs m.dev).mac t)) (l h) := by
  have hexpected : inetHtons m.arp.oper = arpResponse → Waiting (l h) dev ∧ HasRoute (l h).routes dev m.arp.spa := by
    intro hresp
    refine ((htruthful.sent g m hm).resolve_left fun hreq => ?_).expected hdistinct hreg haddr
    exact arpResponse_ne hresp hreq.oper
  have hrequest : inetHtons m.arp.oper = arpWhoHas → Request (l g) m := fun hwho =>
    (htruthful.sent g m hm).resolve_right fun hreply => arpResponse_ne hreply.oper hwho
  have hreacted : wp (handlePacket (tx h) dev buf) (fun f => Request (l g) m ∧ Unanswered (tx h) (l h) dev m f)
      (fun _ t => Reacted (l h) dev buf t) (l h) := by
    apply wp_handlePacket buf (fun hzero => absurd hzero hreg.ne)
    · intro hwho hrefuses
      rw [hcarries.arp] at hwho hrefuses
      exact ⟨hrequest hwho, hrefuses, rfl⟩
    · intro _ hresp hno
      rw [hcarries.arp] at hresp hno
      exact absurd (hexpected hresp).2 hno
  apply wp_imp hreacted
  rintro _ t ht
  cases ht with
  | answered _ hwho =>
    rw [hcarries.arp] at hwho ⊢
    exact .inl ⟨hrequest hwho, rfl⟩
  | resolved _ hresp _ hres =>
    rw [hcarries.arp] at hresp hres
    have hreply := (htruthful.sent g m hm).resolve_left fun hreq => arpResponse_ne hresp hreq.oper
    rw [hreply.sha] at hres
    exact .inr ⟨hreply, hres⟩
  | ignored hno =>
    rw [hcarries.arp, hcarries.eth] at hno
    refine absurd ?_ hno
    rcases htruthful.sent g m hm with hreq | hreply
    · exact ⟨hreq.type, .inl hreq.oper⟩
    · exact ⟨hreply.type, .inr ⟨hreply.oper, (hexpected hreply.oper).1⟩⟩

theorem askGateway_asks {r : Route} (inaddrs : List InaddrSpec) : wp (askGateway (tx h) r inaddrs) anyFault
    (fun _ t => t = s ∨ ∃ src, arpRequestInHwaddr (tx h) r.dev r.dst src s = .ok ((), t)) s := by
  induction inaddrs with
  | nil => exact .inl rfl
  | cons a rest ih =>
    rw [askGateway]
    by_cases hflags : a.flags = 0#32
    · rw [if_pos hflags]
      exact .inl rfl
    rw [if_neg hflags]
    cases hmask : netInaddrMask (a.flags.truncate 8) with
    | none => trivial
    | some mask =>
      dsimp only
      by_cases hsame : a.addr &&& mask = r.dst &&& mask
      · rw [if_pos hsame]
        cases hcall : arpRequestInHwaddr (tx h) r.dev r.dst a.addr s with
        | error f => rw [wp, hcall]; trivial
        | ok res => exact (wp_of_run hcall).mpr (.inr ⟨_, hcall⟩)
      · rw [if_neg hsame]
        exact ih

variable [DecidableEq H]

inductive LinkStep (tx : H → Driver) : Link H → H × HostOp → Link H → Prop
  | host {l : Link H} {h : H} {op : HostOp} {t : NetTables} : Happens l h op →
      op.call (tx h) (l h) = .ok ((), t) → LinkStep tx l (h, op) (Function.update l h t)

theorem acts_step {op : HostOp} (hstep : LinkStep tx l (h, op) l') :
    Happens l h op ∧ Acts (l h) op (l' h) ∧ ∀ g ≠ h, l' g = l g := by
  cases hstep with
  | host hhappens hrun =>
    refine ⟨hhappens, ?_, fun g hg => Function.update_of_ne hg ..⟩
    rw [Function.update_self]
    exact of_run (wp_call op) hrun

theorem step_grows {op : HostOp} (hstep : LinkStep tx l (h, op) l') (g : H) : Grows (l g) (l' g) := by
  obtain ⟨-, hacts, hothers⟩ := acts_step hstep
  by_cases hg : g = h
  · rw [hg]
    exact hacts.grows
  · rw [hothers g hg]
    exact .refl _

theorem request_made {dev : Nat} {inaddr src : BitVec 32} (hstep : LinkStep tx l (h, .request dev inaddr src) l') :
    Request (l' h) (requestOf (l h) dev inaddr src) := by
  cases hstep with
  | host hhappens hrun =>
    rw [Function.update_self]
    have hspec := of_run (E := anyFault) (wp_request _ (fun _ _ => trivial) fun _ => trivial) hrun
    subst hspec
    have hacts : Acts (l h) (.request dev inaddr src)
        ⟨awaiting (l h).devs dev, (l h).routes, (l h).sent ++ [requestOf (l h) dev inaddr src]⟩ := acts_request src
    have hgrows := hacts.grows
    refine ⟨hhappens.1.grows hgrows, hhappens.2, awaiting_waiting _ (.inr rfl), src, ?_⟩
    rw [requestOf, requestOf, hgrows.mac]

theorem truthful_sent {op : HostOp} (htruthful : Truthful l₀ l) (hstep : LinkStep tx l (h, op) l')
    (hnew : SentBy (l h) op m) : Request (l' h) m ∨ Reply l' h m := by
  obtain ⟨hhappens, hacts, -⟩ := acts_step hstep
  cases hnew with
  | asks dev inaddr src =>
    exact .inl (request_made hstep)
  | answers dev buf htype hwho =>
    obtain ⟨k, q, hq, hreq, hne, harp⟩ := hhappens.2.request htruthful htype hwho
    have hk := step_grows hstep k
    refine .inr ⟨hhappens.1.grows hacts.grows, k, q, hk.sent.subset hq, hreq.grows hk, hne, ?_⟩
    rw [harp, replyOf, replyOf, hacts.grows.mac]

theorem truthful_step {op : H × HostOp} (htruthful : Truthful l₀ l) (hstep : LinkStep tx l op l') : Truthful l₀ l' := by
  obtain ⟨h, op⟩ := op
  obtain ⟨hhappens, hacts, hothers⟩ := acts_step hstep
  have hgrows := step_grows hstep
  refine ⟨fun g => (htruthful.grows g).trans (hgrows g), fun g m hm => ?_, fun g i r hr => ?_⟩
  · have hold : m ∈ (l g).sent → Request (l' g) m ∨ Reply l' g m := fun hm =>
      (htruthful.sent g m hm).imp (fun hreq => hreq.grows (hgrows g)) fun hreply => hreply.grows hgrows
    by_cases hg : g = h
    · subst hg
      exact (hacts.sent m hm).elim hold (truthful_sent htruthful hstep)
    · rw [hothers g hg] at hm
      exact hold hm
  · have hold : (l g).routes[i]? = some r → ∃ r₀, (l₀ g).routes[i]? = some r₀ ∧
        (r.dstHwaddr = r₀.dstHwaddr ∨ r.flags ≠ 0#32 ∧ Learnt l' g r) := fun hr => by
      obtain ⟨r₀, hr₀, hfrom⟩ := htruthful.routes g i r hr
      exact ⟨r₀, hr₀, hfrom.imp_right fun hlearnt => ⟨hlearnt.1, hlearnt.2.grows hgrows⟩⟩
    by_cases hg : g = h
    · subst hg
      obtain ⟨r', hr', hentry⟩ := hacts.routes i r hr
      obtain ⟨r₀, hr₀, hfrom⟩ := htruthful.routes g i r' hr'
      cases hentry with
      | same => exact hold hr'
      | added hflags hsame =>
        refine ⟨r₀, hr₀, .inl ?_⟩
        rw [hsame]
        exact hfrom.resolve_right fun hlearnt => hlearnt.1 hflags
      | resolved htype hresp hflags hdst =>
        obtain ⟨k, m, hm, hreply, hne, harp⟩ := hhappens.2.reply htruthful htype hresp
        refine ⟨r₀, hr₀, .inr ⟨hflags, k, m, (hgrows k).sent.subset hm, hreply.grows hgrows, hne, ?_, ?_⟩⟩
        · rw [← harp]
          exact hdst.symm
        · rw [harp, hreply.sha, (hgrows k).mac]
    · rw [hothers g hg] at hr
      exact hold hr

theorem truthful_run (hstart : ∀ h, (l₀ h).sent = []) (hrun : Run (LinkStep tx) always l₀ l) : Truthful l₀ l :=
  hrun.invariant (Truthful l₀) (fun _ _ _ htruthful hstep _ => truthful_step htruthful hstep) (truthful_start hstart)

/-- Whatever the wire does with the frames of hosts that run this kernel, only requests and replies to
them are sent, and an entry that does not hold the hardware address of the start holds the one of another
device, which was asked for the entry's gateway and has answered. -/
theorem addresses_learnt (hstart : ∀ h, (l₀ h).sent = []) (hrun : Run (LinkStep tx) always l₀ l) :
    (∀ g, ∀ m ∈ (l g).sent, Request (l g) m ∨ Reply l g m) ∧
      ∀ (h : H) (i : Nat) (r : Route), (l h).routes[i]? = some r → ∃ r₀, (l₀ h).routes[i]? = some r₀ ∧
        (r.dstHwaddr = r₀.dstHwaddr ∨ Learnt l h r) := by
  have htruthful := truthful_run hstart hrun
  refine ⟨htruthful.sent, fun h i r hr => ?_⟩
  obtain ⟨r₀, hr₀, hfrom⟩ := htruthful.routes h i r hr
  exact ⟨r₀, hr₀, hfrom.imp_right And.right⟩

/-- In every state a link reaches, a frame of it that is for a device is handled: a request is answered, or
the driver does not take the answer, and a reply resolves the first route through the sender. -/
theorem addressed_handled {g : H} {dev : Nat} {buf : Buffer} (hstart : ∀ h, (l₀ h).sent = [])
    (hdistinct : DistinctMacs l₀) (hrun : Run (LinkStep tx) always l₀ l) (hreg : Registered (l h) dev)
    (hm : m ∈ (l g).sent) (hcarries : Carries buf m) (haddr : AddressedTo (l h) dev m) :
    wp (handlePacket (tx h) dev buf) (fun f => Request (l g) m ∧ Unanswered (tx h) (l h) dev m f) (fun _ t =>
      (Request (l g) m ∧ t = { l h with sent := (l h).sent ++ [replyOf (l h) dev m.arp] }) ∨
        (Reply l g m ∧ Resolved (l h) dev m.arp.spa ((l g).devs m.dev).mac t)) (l h) := by
  have htruthful := truthful_run hstart hrun
  exact wp_addressed htruthful (hdistinct.grows htruthful.grows) hreg hm hcarries haddr

theorem run_grows (hrun : Run (LinkStep tx) always l l') : ∀ h, Grows (l h) (l' h) :=
  hrun.invariant (fun l' : Link H => ∀ h, Grows (l h) (l' h))
    (fun _ _ _ hgrows hstep _ h => (hgrows h).trans (step_grows hstep h)) fun _ => .refl _

/-- `net_post_config` is a row of requests, one for each route with a gateway in reach. -/
theorem wp_asks (routes : List Route) (hs : l h = s)
    (hroutes : ∀ r ∈ usedRoutes routes, HasRoute s.routes r.dev r.dst) : wp (askGateways (tx h) routes) anyFault
      (fun _ t => Run (LinkStep tx) always l (Function.update l h t) ∧ ∀ r ∈ usedRoutes routes, InSubnet s.devs r →
        ∃ q ∈ t.sent, q.key = r.key ∧ Request t q) s := by
  have hnone : Run (LinkStep tx) always l (Function.update l h s) := by
    rw [← hs, Function.update_eq_self]
    exact .refl l
  induction routes generalizing l s with
  | nil => exact ⟨hnone, fun r hr => absurd hr List.not_mem_nil⟩
  | cons r rest ih =>
    rw [askGateways]
    by_cases hflags : r.flags = 0#32
    · rw [if_pos hflags, usedRoutes_cons_unused hflags]
      exact ⟨hnone, fun r hr => absurd hr List.not_mem_nil⟩
    rw [usedRoutes_cons hflags] at hroutes ⊢
    rw [if_neg hflags, wp_bind, wp_kassert]
    refine ⟨fun hdev => ?_, fun _ => trivial⟩
    rw [wp_bind, wp_get]
    cases hpriv : (s.devs r.dev).priv with
    | none => trivial
    | some inaddrs =>
      dsimp only
      rw [wp_bind]
      cases hcall : askGateway (tx h) r inaddrs s with
      | error f => rw [wp, hcall]; trivial
      | ok res =>
        obtain ⟨⟨⟩, u⟩ := res
        rw [wp_of_run hcall]
        have hasked := of_run (wp_askGateway inaddrs) hcall
        have hfirst : Run (LinkStep tx) always l (Function.update l h u) ∧ Grows s u ∧
            (AnySubnet inaddrs r.dst → ∃ q ∈ u.sent, q.key = r.key ∧ Request u q) := by
          rcases of_run (askGateway_asks inaddrs) hcall with rfl | ⟨src, hrequest⟩
          · refine ⟨hnone, .refl _, fun hany => ?_⟩
            obtain ⟨asked, hsent, -, hkeys⟩ := hasked.sent
            rw [List.self_eq_append_right.mp hsent] at hkeys
            exact absurd ((hkeys r.key).mpr ⟨hany, rfl⟩) (by simp)
          · have hstep : LinkStep tx l (h, .request r.dev r.dst src) (Function.update l h u) := by
              apply LinkStep.host
              · refine ⟨⟨of_decide_eq_true hdev, ?_⟩, ?_⟩
                · rw [hs, hpriv]
                  exact Option.some_ne_none _
                · rw [hs]
                  exact hroutes r (List.mem_cons_self ..)
              · rw [hs]
                exact hrequest
            have hmade := request_made hstep
            rw [Function.update_self, hs] at hmade
            have hspec := of_run (E := anyFault) (wp_request _ (fun _ _ => trivial) fun _ => trivial) hrequest
            refine ⟨.tail (.refl _) hstep trivial, ?_, fun _ => ⟨_, ?_, rfl, hmade⟩⟩
            · rw [hspec]
              exact (acts_request src).grows
            · rw [hspec]
              exact List.mem_append_right _ (List.mem_singleton_self _)
        obtain ⟨hrun, hgrows, hquestion⟩ := hfirst
        have hrest := ih (l := Function.update l h u) (s := u) (Function.update_self ..)
          (fun r' hr' => hgrows.routes _ _ (hroutes r' (List.mem_cons_of_mem _ hr'))) (by
            rw [Function.update_idem]
            exact .refl _)
        apply wp_imp hrest
        rintro _ t ⟨hlater, hothers⟩
        rw [Function.update_idem] at hlater
        refine ⟨hrun.trans hlater, fun r' hr' hsubnet => ?_⟩
        rcases List.mem_cons.mp hr' with rfl | hr'
        · obtain ⟨inaddrs', hpriv', hany⟩ := hsubnet
          rw [hpriv] at hpriv'
          obtain rfl := Option.some.inj hpriv'
          obtain ⟨q, hq, hkey, hreq⟩ := hquestion hany
          have hlast := run_grows hlater h
          rw [Function.update_self, Function.update_self] at hlast
          exact ⟨q, hlast.sent.subset hq, hkey, hreq.grows hlast⟩
        · rw [← inSubnet_congr hasked.priv] at hsubnet
          exact hothers r' hr' hsubnet

/-- Whenever another device gets the request and can send an answer, and whenever that comes back, the first
route through the gateway is resolved to that device. -/
def Completes (tx : H → Driver) (l : Link H) (h : H) (q : Sent) : Prop :=
  ∀ l₁, Run (LinkStep tx) always l l₁ → ∀ g e, Registered (l₁ g) e → (h, q.dev) ≠ (g, e) → ∀ buf, Carries buf q →
    wp (handlePacket (tx g) e buf) (Unanswered (tx g) (l₁ g) e q) (fun _ t => ∃ p ∈ t.sent,
      ∀ l₂, Run (LinkStep tx) always (Function.update l₁ g t) l₂ → ∀ buf', Carries buf' p →
        wp (handlePacket (tx h) q.dev buf') noFault
          (fun _ u => Resolved (l₂ h) q.dev q.arp.tpa ((l₁ g).devs e).mac u) (l₂ h)) (l₁ g)

theorem completes {q : Sent} (hq : q ∈ (l h).sent) (hreq : Request (l h) q) : Completes tx l h q := by
  intro l₁ hrun g e hreg hne buf hcarries
  have hgrows := run_grows hrun
  have hreq₁ := hreq.grows (hgrows h)
  have hanswer : wp (handlePacket (tx g) e buf) (Unanswered (tx g) (l₁ g) e q) (fun _ t => Reacted (l₁ g) e buf t)
      (l₁ g) := by
    apply wp_handlePacket buf (fun hzero => absurd hzero hreg.ne)
    · intro _ hrefuses
      rw [hcarries.arp] at hrefuses
      exact ⟨hrefuses, rfl⟩
    · intro _ hresp
      rw [hcarries.arp] at hresp
      exact absurd hreq.oper (arpResponse_ne hresp)
  cases hcall : handlePacket (tx g) e buf (l₁ g) with
  | error f =>
    rw [wp, hcall] at hanswer ⊢
    exact hanswer
  | ok res =>
  obtain ⟨⟨⟩, t⟩ := res
  rw [wp_of_run hcall] at hanswer ⊢
  have ht : Reacted (l₁ g) e buf t := hanswer
  have hstep : LinkStep tx l₁ (g, .receive e buf) (Function.update l₁ g t) :=
    .host ⟨hreg, .inr ⟨h, q, (hgrows h).sent.subset hq, hcarries, hne⟩⟩ hcall
  have hanswered : t = { l₁ g with sent := (l₁ g).sent ++ [replyOf (l₁ g) e q.arp] } := by
    cases ht with
    | answered => rw [hcarries.arp]
    | resolved _ hresp =>
      rw [hcarries.arp] at hresp
      exact absurd hreq.oper (arpResponse_ne hresp)
    | ignored hno =>
      rw [hcarries.arp, hcarries.eth] at hno
      exact absurd ⟨hreq.type, .inl hreq.oper⟩ hno
  refine ⟨replyOf (l₁ g) e q.arp, ?_, fun l₂ hrun₂ buf' hcarries' => ?_⟩
  · rw [hanswered]
    exact List.mem_append_right _ (List.mem_singleton_self _)
  have hreq₂ := (hreq₁.grows (step_grows hstep h)).grows (run_grows hrun₂ h)
  have htype : inetHtons (replyOf (l₁ g) e q.arp).eth.type = ethTypeArp := htons_htons _
  have hoper : inetHtons (replyOf (l₁ g) e q.arp).arp.oper = arpResponse := htons_htons _
  have hresolve : wp (handlePacket (tx h) q.dev buf') noFault (fun _ u => Reacted (l₂ h) q.dev buf' u) (l₂ h) :=
    wp_handlePacket buf' (fun hzero => absurd hzero hreq.registered.ne) (fun hwho => by
      rw [hcarries'.arp] at hwho
      exact absurd hwho (arpResponse_ne hoper)) fun _ _ hno => by
      rw [hcarries'.arp] at hno
      exact absurd hreq₂.route hno
  apply wp_imp hresolve
  rintro _ u hu
  cases hu with
  | answered _ hwho =>
    rw [hcarries'.arp] at hwho
    exact absurd hwho (arpResponse_ne hoper)
  | resolved _ _ _ hres =>
    rw [hcarries'.arp] at hres
    exact hres
  | ignored hno =>
    rw [hcarries'.arp, hcarries'.eth] at hno
    exact absurd ⟨htype, .inr ⟨hoper, hreq₂.waiting⟩⟩ hno

theorem postConfig_asks (hpost : netPostConfig (tx h) (l h) = .ok ((), t)) :
    Run (LinkStep tx) always l (Function.update l h t) ∧
      ∀ r ∈ usedRoutes (l h).routes, InSubnet (l h).devs r → ∃ q ∈ t.sent, q.key = r.key ∧ Request t q := by
  have hask : wp (netPostConfig (tx h)) anyFault (fun _ t => Run (LinkStep tx) always l (Function.update l h t) ∧
      ∀ r ∈ usedRoutes (l h).routes, InSubnet (l h).devs r → ∃ q ∈ t.sent, q.key = r.key ∧ Request t q) (l h) := by
    rw [netPostConfig, wp_bind, wp_get]
    exact wp_asks (l h).routes rfl fun r hr => hasRoute_of_used hr
  exact of_run hask hpost

/-- `net_post_config` goes by steps of the link. After it, in any state of the link, every gateway in reach has
been asked for, and the exchange with whichever device gets the request resolves the first route through it. -/
theorem exchange_resolves {r : Route} (hpost : netPostConfig (tx h) (l h) = .ok ((), t))
    (hr : r ∈ usedRoutes (l h).routes) (hsubnet : InSubnet (l h).devs r) :
    Run (LinkStep tx) always l (Function.update l h t) ∧
      ∃ q ∈ t.sent, q.dev = r.dev ∧ q.arp.tpa = r.dst ∧ Completes tx (Function.update l h t) h q := by
  obtain ⟨hasking, hquestions⟩ := postConfig_asks hpost
  obtain ⟨q, hq, hkey, hreq⟩ := hquestions r hr hsubnet
  obtain ⟨hdev, hdst⟩ := Prod.ext_iff.mp hkey
  refine ⟨hasking, q, hq, hdev, hdst, completes ?_ ?_⟩
  · rwa [Function.update_self]
  · rwa [Function.update_self]

def frameOf (m : Sent) : Buffer := fun i => (m.eth.bytes ++ m.arp.bytes).getD i 0

theorem carries_frameOf (m : Sent) : Carries (frameOf m) m := by
  intro i hi
  have hlen : i < (m.eth.bytes ++ m.arp.bytes).length := by
    rw [reply_length]
    exact hi
  rw [frameOf, List.getD_eq_getElem?_getD, List.getElem?_eq_getElem hlen, Option.getD_some]

def twoHosts : Link Bool := fun b =>
  { noRoutes with
    devs := fun d => if d = 1 then ⟨1, fun _ => if b then 5 else 4, some (List.replicate 4 ⟨0, 0⟩)⟩ else ⟨0, fun _ => 0, none⟩ }

theorem registered_twoHosts (b : Bool) : Registered (twoHosts b) 1 := ⟨by decide, Option.some_ne_none _⟩

theorem distinctMacs_twoHosts : DistinctMacs twoHosts := by
  have hone : ∀ {b dev}, Registered (twoHosts b) dev → dev = 1 := fun {b dev} hreg => by
    by_contra hne
    exact hreg.priv (congrArg Iface.priv (if_neg hne))
  refine ⟨fun b dev hreg => ?_, fun b dev b' dev' hreg hreg' hmac => ?_⟩
  · obtain rfl := hone hreg
    intro h
    have hbyte := congrFun h 0
    cases b <;> exact absurd hbyte (by decide)
  · obtain rfl := hone hreg
    obtain rfl := hone hreg'
    refine ⟨?_, rfl⟩
    have hbyte := congrFun hmac 0
    cases b <;> cases b' <;> first | rfl | exact absurd hbyte (by decide)

def anyDrivers : Bool → Driver := fun _ => anyDriver

def oneRoute : Link Bool := Function.update twoHosts false (after (configured [gateway 2]) (twoHosts false))

theorem run_oneRoute : Run (LinkStep anyDrivers) always twoHosts oneRoute := by
  have hfirst : LinkStep anyDrivers twoHosts (false, .addInaddr 1 0x0100000A 8) _ :=
    .host trivial (run_after (by decide +kernel))
  have hsecond : LinkStep anyDrivers _ (false, .addRoute subnet (gateway 2) 1 16) _ :=
    .host (l := Function.update twoHosts false (after (netInaddrAdd 1 0x0100000A 8) (twoHosts false))) trivial
      (run_after (by decide +kernel))
  rw [Function.update_idem, Function.update_self] at hsecond
  exact .tail (.tail (.refl _) hfirst trivial) hsecond trivial

theorem postConfig_oneRoute : netPostConfig anyDriver (oneRoute false) =
    .ok ((), after (netPostConfig anyDriver) (oneRoute false)) := run_after (by decide +kernel)

theorem exchange_resolves_one_route :
    Run (LinkStep anyDrivers) always oneRoute
      (Function.update oneRoute false (after (netPostConfig anyDriver) (oneRoute false))) ∧
    ∃ q ∈ (after (netPostConfig anyDriver) (oneRoute false)).sent, q.dev = 1 ∧ q.arp.tpa = gateway 2 ∧
      Completes anyDrivers (Function.update oneRoute false (after (netPostConfig anyDriver) (oneRoute false))) false q :=
  exchange_resolves (r := ⟨used 16, subnet, 1, gateway 2, fun _ => 0⟩) postConfig_oneRoute (List.mem_cons_self ..)
    ⟨_, rfl, ⟨used 8, 0x0100000A⟩, List.mem_cons_self .., 0xFF, rfl, by decide⟩

def askedLink : Link Bool := Function.update oneRoute false (after (netPostConfig anyDriver) (oneRoute false))

def question : Sent := requestOf (oneRoute false) 1 (gateway 2) 0x0100000A

def answeredLink : Link Bool :=
  Function.update askedLink true (after (handlePacket anyDriver 1 (frameOf question)) (askedLink true))

def answer : Sent := replyOf (askedLink true) 1 question.arp

theorem run_answered : Run (LinkStep anyDrivers) always twoHosts answeredLink := by
  have hpost : netPostConfig (anyDrivers false) (oneRoute false) =
      .ok ((), after (netPostConfig anyDriver) (oneRoute false)) := postConfig_oneRoute
  have hrun : Run (LinkStep anyDrivers) always twoHosts askedLink := run_oneRoute.trans (postConfig_asks hpost).1
  have hreg := (registered_twoHosts true).grows (run_grows hrun true)
  have hin : Incoming askedLink true 1 (frameOf question) :=
    .inr ⟨false, question, List.mem_singleton_self _, carries_frameOf _, by decide⟩
  have hstep : LinkStep anyDrivers askedLink (true, .receive 1 (frameOf question)) answeredLink :=
    .host ⟨hreg, hin⟩ (run_after (by decide +kernel))
  exact hrun.tail hstep trivial

theorem answer_sent : answer ∈ (answeredLink true).sent := by
  have hsent : (answeredLink true).sent = [replyOf (askedLink true) 1 (arpMsgAt (frameOf question))] := rfl
  rw [hsent, (carries_frameOf question).arp]
  exact List.mem_singleton_self _

theorem addressed_handled_answer : wp (handlePacket (anyDrivers false) 1 (frameOf answer))
    (fun f => Request (answeredLink true) answer ∧ Unanswered (anyDrivers false) (answeredLink false) 1 answer f) (fun _ t =>
    (Request (answeredLink true) answer ∧
      t = { answeredLink false with sent := (answeredLink false).sent ++ [replyOf (answeredLink false) 1 answer.arp] }) ∨
    (Reply answeredLink true answer ∧
      Resolved (answeredLink false) 1 answer.arp.spa ((answeredLink true).devs answer.dev).mac t)) (answeredLink false) :=
  addressed_handled (fun _ => rfl) distinctMacs_twoHosts run_answered
    ((registered_twoHosts false).grows (run_grows run_answered false)) answer_sent
    (carries_frameOf _) (.inr rfl)

def learntLink : Link Bool :=
  Function.update answeredLink false (after (handlePacket anyDriver 1 (frameOf answer)) (answeredLink false))

theorem addresses_learnt_two_hosts : ((learntLink false).routes[0]?).map (fun r => List.ofFn r.dstHwaddr) = some [5, 5, 5, 5, 5, 5] ∧
    (∀ g, ∀ m ∈ (learntLink g).sent, Request (learntLink g) m ∨ Reply learntLink g m) ∧
      ∀ (h : Bool) (i : Nat) (r : Route), (learntLink h).routes[i]? = some r → ∃ r₀, (twoHosts h).routes[i]? = some r₀ ∧
        (r.dstHwaddr = r₀.dstHwaddr ∨ Learnt learntLink h r) := by
  have hreg := (registered_twoHosts false).grows (run_grows run_answered false)
  have hin : Incoming answeredLink false 1 (frameOf answer) :=
    .inr ⟨true, answer, answer_sent, carries_frameOf _, by decide⟩
  have hstep : LinkStep anyDrivers answeredLink (false, .receive 1 (frameOf answer)) learntLink :=
    .host ⟨hreg, hin⟩ (run_after (by decide +kernel))
  exact ⟨by decide +kernel, addresses_learnt (fun _ => rfl) (run_answered.tail hstep trivial)⟩

end Links

end YggKernel.Net
