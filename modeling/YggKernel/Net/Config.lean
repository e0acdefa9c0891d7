import YggKernel.Net.Inet
import YggKernel.Net.Routes
import YggKernel.Vfs.Gets

namespace YggKernel.Net

open Lib.Buffers Lib.Program Print Strings
open Vfs (vfsGets Reader GetsFile newline Sequential Readable callText vfsGets_ended vfsGets_text call_line
  textReader sequential_textReader readable_text ssize_of_lt)

section Source

/-- The devices of `s_devices` up to the first null, each with the name in its record. -/
abbrev Ifaces := List (Nat × List Print.Byte)

/-- The result 0 is a null pointer, and none an access behind the end of a buffer. -/
def netFindIface (name : List Print.Byte) : Ifaces → Option Nat
  | [] => some 0
  | (dev, text) :: rest => do if (← strcmp name text) = 0 then return dev else netFindIface name rest

/-- The variables of `net_load_config`; the others are set before each use. -/
structure ConfigVars where
  linebuf : List Print.Byte
  buf0 : List Print.Byte
  currIface : Nat
  mask : BitVec 8

def reached {α : Type} (x : Option α) : Prog Fault NetTables α := x.elim (throw (.outOfBounds 0)) pure

/-- `strncpy(buf0, src, l)`, and the terminator behind it. -/
def copied (buf0 src : List Print.Byte) (l : Nat) : Prog Fault NetTables (List Print.Byte) := do
  reached (store (← reached (strncpy buf0 0 (cstr src) l)) l 0)

/-- `strcpy(buf0, src)`. -/
def strcpied (buf0 src : List Print.Byte) : Prog Fault NetTables (List Print.Byte) := do
  let text ← reached (strcpy buf0.length src).toOption
  return text ++ 0 :: buf0.drop (text.length + 1)

def parsed (text : List Print.Byte) (cond : String) : Prog Fault NetTables (BitVec 32) := do
  let inaddr ← reached (inetAton text)
  kassert (inaddr ≠ 0) cond
  return inaddr

def ifaceLine (ifaces : Ifaces) (v : ConfigVars) : Prog Fault NetTables ConfigVars := do
  match ← reached (strchr v.linebuf (ascii ']')) with
  | none => throw (assertionFailed "(e = strchr(linebuf, ']'))")
  | some e =>
    let buf0 ← copied v.buf0 v.linebuf.tail (v.linebuf.length - e.length - 1)
    return { v with buf0 := buf0, currIface := ← reached (netFindIface buf0 ifaces) }

def addrField (v : ConfigVars) (e : List Print.Byte) (plain : Prog Fault NetTables (List Print.Byte)) :
    Prog Fault NetTables ConfigVars := do
  match ← reached (strchr e (ascii '/')) with
  | some p =>
    let mask := BitVec.ofNat 8 (← reached (atoi p.tail))
    let buf0 ← copied v.buf0 e (e.length - p.length)
    return { v with buf0 := buf0, mask := mask }
  | none => return { v with buf0 := ← plain }

def inetLine (v : ConfigVars) : Prog Fault NetTables ConfigVars := do
  let e := v.linebuf.drop 5
  let v ← addrField v e (strcpied v.buf0 e)
  let inaddr ← parsed v.buf0 "inaddr = inet_aton(buf0)"
  netInaddrAdd v.currIface inaddr (v.mask.setWidth 32)
  return v

def routeLine (v : ConfigVars) : Prog Fault NetTables ConfigVars := do
  let e := v.linebuf.drop 6
  match ← reached (strchr e (ascii ' ')) with
  | none => throw (assertionFailed "n")
  | some n =>
    let v ← addrField v e (copied v.buf0 e (e.length - n.length))
    let inaddr ← parsed v.buf0 "inaddr = inet_aton(buf0)"
    let inaddr1 ← parsed n.tail "inaddr1 = inet_aton(e)"
    netRouteAdd inaddr inaddr1 v.currIface (v.mask.setWidth 32)
    return v

def inetKey : List Print.Byte := bytes ['i', 'n', 'e', 't', '=']

def routeKey : List Print.Byte := bytes ['r', 'o', 'u', 't', 'e', ' ']

/-- The body of the loop of `net_load_config`. -/
def configLine (ifaces : Ifaces) (v : ConfigVars) : Prog Fault NetTables ConfigVars := do
  if v.linebuf.head? = some (ascii '[') then ifaceLine ifaces v
  else if (← reached (strncmp v.linebuf (inetKey ++ [0]) 5)) = 0 then
    if v.currIface ≠ 0 then inetLine v else return v
  else if (← reached (strncmp v.linebuf (routeKey ++ [0]) 6)) = 0 then
    if v.currIface ≠ 0 then routeLine v else return v
  else return v

def lifted {α : Type} (x : Except Fault α) : Prog Fault NetTables α := StateT.lift x

/-- The loop of `net_load_config`, with a bound on the number of rounds. -/
def configLoop {σ : Type} (ifaces : Ifaces) (read : Reader σ) (c : Nat) :
    Nat → ConfigVars → GetsFile σ → Prog Fault NetTables Unit
  | 0, _, _ => throw .hang
  | rounds + 1, v, f => do
    let (r, linebuf, f) ← lifted (vfsGets read c v.linebuf 128 f)
    if r > 0 then configLoop ifaces read c rounds (← configLine ifaces { v with linebuf := linebuf }) f
    else return ()

/-- The buffers hold anything at first. No file stands for a path that cannot be opened. -/
def netLoadConfig {σ : Type} (ifaces : Ifaces) (read : Reader σ) (c rounds : Nat) (linebuf buf0 : List Print.Byte)
    (file : Option (GetsFile σ)) : Prog Fault NetTables Int := do
  match file with
  | none => return -1
  | some f =>
    configLoop ifaces read c rounds ⟨linebuf, buf0, 0, 0⟩ f
    return 0

def netdevFlgEth : BitVec 32 := 1#32 <<< 0

/-- The tables with `s_devices` up to the first null, the names in the devices' records, the number for the
next name, and which of the eight structures of `s_dev_privs` are in use. -/
structure NetDevices where
  tables : NetTables
  devices : List Nat
  names : Nat → List Print.Byte
  ethLast : Nat
  privs : List Bool

def NetDevices.ifaces (s : NetDevices) : Ifaces := s.devices.map fun dev => (dev, s.names dev)

def netPrivAlloc : List Bool → Option (List Bool)
  | [] => none
  | false :: rest => some (true :: rest)
  | true :: rest => (netPrivAlloc rest).map (true :: ·)

def ethName (n : Nat) : List Print.Byte := bytes ['e', 't', 'h'] ++ [ascii '0' + BitVec.ofNat 8 n]

def netRegister (dev : Nat) : Prog Fault NetDevices Unit := do
  kassert (((← get).tables.devs dev).flags &&& netdevFlgEth ≠ 0) "dev->flags & NETDEV_FLG_ETH"
  let name := ethName (← get).ethLast ++ [0]
  modify fun s => { s with names := Function.update s.names dev name, ethLast := s.ethLast + 1 }
  match netPrivAlloc (← get).privs with
  | none => throw (assertionFailed "dev->priv = net_priv_alloc()")
  | some privs =>
    modify fun s => { s with
      privs := privs
      tables := { s.tables with
        devs := Function.update s.tables.devs dev { s.tables.devs dev with priv := some (List.replicate 4 ⟨0, 0⟩) } } }
    if (← get).devices.length < 8 then modify fun s => { s with devices := s.devices ++ [dev] }
    else throw (.outOfBounds (← get).devices.length)

def registerAll : List Nat → Prog Fault NetDevices Unit
  | [] => return ()
  | dev :: rest => do
    netRegister dev
    registerAll rest

end Source

section Meaning

inductive ConfigEntry
  | iface (name : List Print.Byte)
  | inet (addr : BitVec 32) (mask : Option (BitVec 8))
  | route (addr : BitVec 32) (mask : Option (BitVec 8)) (via : BitVec 32)
  | other (text : List Print.Byte)

def maskText (m : BitVec 8) : List Char := Nat.toDigits 10 m.toNat

def maskPart (mask : Option (BitVec 8)) : List Print.Byte := (mask.map fun m => ascii '/' :: bytes (maskText m)).getD []

def ConfigEntry.text : ConfigEntry → List Print.Byte
  | iface name => ascii '[' :: (name ++ [ascii ']'])
  | inet addr mask => inetKey ++ (bytes (quad addr) ++ maskPart mask)
  | route addr mask via => routeKey ++ (bytes (quad addr) ++ (maskPart mask ++ ascii ' ' :: bytes (quad via)))
  | other text => text

structure OneLine (t : List Print.Byte) : Prop where
  nonempty : t ≠ []
  nul : (0 : Print.Byte) ∉ t
  newline : newline ∉ t
  short : t.length < 127

/-- Names of up to 63 characters, and lines of no kind that are passed over. -/
def ConfigEntry.Written : ConfigEntry → Prop
  | iface name => OneLine (iface name).text ∧ ascii ']' ∉ name ∧ name.length < 64
  | inet _ _ => True
  | route _ _ _ => True
  | other text => OneLine text ∧ text.head? ≠ some (ascii '[') ∧ text.take 5 ≠ inetKey ∧ text.take 6 ≠ routeKey

inductive ConfigCall
  | inaddr (dev : Nat) (addr : BitVec 32) (mask : BitVec 8)
  | route (dev : Nat) (addr : BitVec 32) (mask : BitVec 8) (via : BitVec 32)

def ConfigCall.run : ConfigCall → Prog Fault NetTables Unit
  | inaddr dev addr mask => do
    kassert (addr ≠ 0) "inaddr = inet_aton(buf0)"
    netInaddrAdd dev addr (mask.setWidth 32)
  | route dev addr mask via => do
    kassert (addr ≠ 0) "inaddr = inet_aton(buf0)"
    kassert (via ≠ 0) "inaddr1 = inet_aton(e)"
    netRouteAdd addr via dev (mask.setWidth 32)

def runCalls : List ConfigCall → Prog Fault NetTables Unit
  | [] => return ()
  | call :: rest => do
    call.run
    runCalls rest

def ifaceNamed (ifaces : Ifaces) (name : List Print.Byte) : Nat := ((ifaces.find? (·.2 = name ++ [0])).map Prod.fst).getD 0

/-- The calls of a line under a device, where the mask is the one of the last line that had one. -/
def ConfigEntry.calls (dev : Nat) (mask : BitVec 8) : ConfigEntry → List ConfigCall
  | inet addr m => if dev = 0 then [] else [.inaddr dev addr (m.getD mask)]
  | route addr m via => if dev = 0 then [] else [.route dev addr (m.getD mask) via]
  | _ => []

def ConfigEntry.next (ifaces : Ifaces) (dev : Nat) (mask : BitVec 8) : ConfigEntry → Nat × BitVec 8
  | iface name => (ifaceNamed ifaces name, mask)
  | inet _ m => (dev, if dev = 0 then mask else m.getD mask)
  | route _ m _ => (dev, if dev = 0 then mask else m.getD mask)
  | other _ => (dev, mask)

def meaning (ifaces : Ifaces) : Nat → BitVec 8 → List ConfigEntry → List ConfigCall
  | _, _, [] => []
  | dev, mask, e :: rest => e.calls dev mask ++ meaning ifaces (e.next ifaces dev mask).1 (e.next ifaces dev mask).2 rest

end Meaning

section Lines

variable {u v a b : List Print.Byte} {l : Nat} {x : Print.Byte}

theorem reached_bind {α β : Type} (x : α) (f : α → Prog Fault NetTables β) : (reached (some x) >>= f) = f x := rfl

theorem netFindIface_eq {ifaces : Ifaces} (hifaces : ∀ d ∈ ifaces, ∃ n, (0 : Print.Byte) ∉ n ∧ d.2 = n ++ [0] ∧ n.length < 64)
    (hu : (0 : Print.Byte) ∉ u) (hlen : u.length < 64) : netFindIface (u ++ 0 :: a) ifaces = some (ifaceNamed ifaces u) := by
  induction ifaces with
  | nil => rfl
  | cons d rest ih =>
    obtain ⟨dev, text⟩ := d
    obtain ⟨n, hn, rfl, hsmall⟩ := hifaces _ (List.mem_cons_self ..)
    have hrest := ih fun d hd => hifaces d (List.mem_cons_of_mem _ hd)
    have hcmp : strcmp (u ++ 0 :: a) (n ++ [0]) = some (if u = n then 0 else 1) := by
      rw [strcmp, ← nul_bitVec 8, strncmp_eq hu hn, List.take_of_length_le (by omega), List.take_of_length_le (by omega)]
    rw [netFindIface, hcmp]
    change (if (if u = n then 0 else 1) = 0 then some dev else netFindIface (u ++ 0 :: a) rest) = _
    by_cases he : u = n
    · subst he
      rw [if_pos rfl, if_pos rfl, ifaceNamed, List.find?_cons_of_pos (by simp)]
      rfl
    · have hne : ¬(n ++ [0] = u ++ [(0 : Print.Byte)]) := fun h => he (List.append_cancel_right h).symm
      rw [if_neg he, if_neg (by decide), hrest, ifaceNamed, ifaceNamed, List.find?_cons_of_neg (by simpa using hne)]

theorem take_cstr (hu : (0 : Print.Byte) ∉ u) : (cstr (u ++ v)).take u.length = u := by
  have hkeep : ∀ x ∈ u, decide (x ≠ 0) = true := fun x hx => decide_eq_true fun h => hu (h ▸ hx)
  rw [cstr, List.takeWhile_append_of_pos hkeep, List.take_left]

theorem copied_eq {buf0 : List Print.Byte} (hu : (0 : Print.Byte) ∉ u) (hroom : u.length < buf0.length) :
    copied buf0 (u ++ v) u.length = pure (u ++ 0 :: buf0.drop (u.length + 1)) := by
  have htake := take_cstr (v := v) hu
  have hlen : ¬(cstr (u ++ v)).length < u.length := by
    have := congrArg List.length htake
    rw [List.length_take] at this
    omega
  have hall : storeAll buf0 0 u = some (u ++ buf0.drop u.length) := storeAll_append [] (Nat.le_of_lt hroom)
  obtain ⟨y, old, hold⟩ := List.exists_cons_of_ne_nil (drop_ne_nil hroom)
  have htail : old = buf0.drop (u.length + 1) := by
    rw [← List.tail_drop, hold]
    rfl
  have hcopy : strncpy buf0 0 (cstr (u ++ v)) u.length = some (u ++ y :: old) := by
    rw [strncpy, htake, hall, hold]
    exact if_neg hlen
  rw [copied, hcopy, ← htail]
  change reached (store (u ++ y :: old) u.length 0) = _
  rw [store_append]
  rfl

theorem strcpied_eq {buf0 : List Print.Byte} (hu : (0 : Print.Byte) ∉ u) (hroom : u.length < buf0.length) :
    strcpied buf0 (u ++ 0 :: a) = pure (u ++ 0 :: buf0.drop (u.length + 1)) := by
  have hcopy : strcpy buf0.length (u ++ 0 :: a) = .ok u := (strcpy_eq hu).trans (if_pos hroom)
  rw [strcpied, hcopy]
  rfl

def Plain (x : Print.Byte) : Prop := x = ascii '.' ∨ ascii '0' ≤ x ∧ x ≤ ascii '9'

theorem Plain.ne (h : Plain x) : x ≠ 0 ∧ x ≠ ascii '/' ∧ x ≠ ascii ' ' ∧ x ≠ newline := by
  rcases h with rfl | h
  · decide
  · revert h x
    decide

theorem plain_digits {t : List Char} (h : ∀ c ∈ t, c.isDigit = true) : ∀ x ∈ bytes t, Plain x := by
  intro x hx
  obtain ⟨c, hc, rfl⟩ := List.mem_map.mp hx
  obtain ⟨d, hd, rfl⟩ := digitChar_of_isDigit (h c hc)
  obtain ⟨-, hlow, hhigh, -⟩ := ascii_digit hd
  exact .inr ⟨hlow, hhigh⟩

theorem plain_quad (addr : BitVec 32) : ∀ x ∈ bytes (quad addr), Plain x := by
  have hoctet := fun i => plain_digits (isOctet_octetText addr i).digits
  intro x hx
  simp only [quad, dotted, bytes, List.map_append, List.map_cons, List.mem_append, List.mem_cons] at hx
  rcases hx with hx | rfl | hx | rfl | hx | rfl | hx
  · exact hoctet 0 x hx
  · exact .inl rfl
  · exact hoctet 1 x hx
  · exact .inl rfl
  · exact hoctet 2 x hx
  · exact .inl rfl
  · exact hoctet 3 x hx

theorem octet_maskText (m : BitVec 8) : IsOctet (maskText m) := octet_toDigits m.isLt

theorem atoi_maskText {m : BitVec 8} {c : Print.Byte} (hc : ¬(c ≠ 0 ∧ ascii '0' ≤ c ∧ c ≤ ascii '9')) :
    (atoi (bytes (maskText m) ++ c :: v)).map (BitVec.ofNat 8) = some m := by
  rw [atoi_octet (octet_maskText m) hc, Option.map_some, maskText, Nat.ofDigitChars_ten_toDigits, BitVec.ofNat_toNat,
    BitVec.setWidth_eq]

theorem parsed_eq (addr : BitVec 32) (cond : String) : parsed (bytes (quad addr) ++ 0 :: v) cond = (do
    kassert (addr ≠ 0) cond
    return addr) := by
  have haton : inetAton (bytes (quad addr) ++ 0 :: v) = some addr := by
    rw [quad, inetAton_eq (isOctet_octetText addr 0) (isOctet_octetText addr 1) (isOctet_octetText addr 2)
      (isOctet_octetText addr 3)]
    simp only [octetValue_text, split_address]
  rw [parsed, haton]
  rfl

theorem Plain.not_mem (hplain : ∀ y ∈ u, Plain y) : (0 : Print.Byte) ∉ u ∧ ascii '/' ∉ u ∧ ascii ' ' ∉ u :=
  ⟨fun h => (hplain _ h).ne.1 rfl, fun h => (hplain _ h).ne.2.1 rfl, fun h => (hplain _ h).ne.2.2.1 rfl⟩

theorem length_bytes_quad (addr : BitVec 32) : (bytes (quad addr)).length ≤ 15 := by
  rw [bytes, List.length_map]
  exact length_quad (isQuad_quad addr)

variable {ifaces : Ifaces} {w : ConfigVars} {name : List Print.Byte} {addr via : BitVec 32} {m : Option (BitVec 8)}

/-- A line has been dealt with: its calls are made, and the variables are those behind it. -/
def LineDone (ifaces : Ifaces) (w : ConfigVars) (e : ConfigEntry) (p : Prog Fault NetTables ConfigVars) : Prop :=
  ∃ w' : ConfigVars, w'.buf0.length = 64 ∧ w'.linebuf = w.linebuf ∧
    (w'.currIface, w'.mask) = e.next ifaces w.currIface w.mask ∧
    p = (do runCalls (e.calls w.currIface w.mask); return w')

theorem length_copied {buf0 : List Print.Byte} (hroom : u.length < buf0.length) :
    (u ++ 0 :: buf0.drop (u.length + 1)).length = buf0.length := by
  rw [List.length_append, List.length_cons, List.length_drop]
  omega

theorem ifaceLine_done (hifaces : ∀ d ∈ ifaces, ∃ n, (0 : Print.Byte) ∉ n ∧ d.2 = n ++ [0] ∧ n.length < 64)
    (hbuf : w.buf0.length = 64) (hwritten : (ConfigEntry.iface name).Written)
    (hline : w.linebuf = (ConfigEntry.iface name).text ++ 0 :: a) :
    LineDone ifaces w (.iface name) (ifaceLine ifaces w) := by
  obtain ⟨hone, hbracket, hlen⟩ := hwritten
  have hnul := hone.nul
  simp only [ConfigEntry.text, List.mem_cons, List.mem_append, not_or] at hnul
  have hsplit : w.linebuf = (ascii '[' :: name) ++ ascii ']' :: 0 :: a := by
    rw [hline]
    simp [ConfigEntry.text]
  have hfound : strchr w.linebuf (ascii ']') = some (some (ascii ']' :: 0 :: a)) := by
    rw [hsplit]
    apply strchr_eq (by decide)
    · rw [List.mem_cons, not_or]
      exact ⟨hnul.1, hnul.2.1⟩
    · rw [List.mem_cons, not_or]
      exact ⟨by decide, hbracket⟩
  have hcount : w.linebuf.length - (ascii ']' :: 0 :: a).length - 1 = name.length := by
    rw [hsplit, List.length_append, List.length_cons]
    omega
  have htail : w.linebuf.tail = name ++ ascii ']' :: 0 :: a := by
    rw [hsplit]
    rfl
  have hroom : name.length < w.buf0.length := by omega
  refine ⟨⟨w.linebuf, name ++ 0 :: w.buf0.drop (name.length + 1), ifaceNamed ifaces name, w.mask⟩,
    (length_copied hroom).trans hbuf, rfl, rfl, ?_⟩
  rw [ifaceLine, hfound, reached_bind]
  dsimp only
  rw [hcount, htail, copied_eq hnul.2.1 hroom, pure_bind, netFindIface_eq hifaces hnul.2.1 hlen]
  rfl

def addressed (w : ConfigVars) (addr : BitVec 32) (m : Option (BitVec 8)) : ConfigVars :=
  ⟨w.linebuf, bytes (quad addr) ++ 0 :: w.buf0.drop ((bytes (quad addr)).length + 1), w.currIface, m.getD w.mask⟩

theorem addrField_eq {e : List Print.Byte} {c : Print.Byte} {plain : Prog Fault NetTables (List Print.Byte)}
    (hbuf : w.buf0.length = 64) (he : e = bytes (quad addr) ++ (maskPart m ++ c :: a))
    (hc : ¬(c ≠ 0 ∧ ascii '0' ≤ c ∧ c ≤ ascii '9')) (hnone : m = none → strchr e (ascii '/') = some none)
    (hplain : m = none → plain = pure (addressed w addr m).buf0) :
    addrField w e plain = pure (addressed w addr m) := by
  obtain ⟨hnul, hslash, -⟩ := Plain.not_mem (plain_quad addr)
  have hlen := length_bytes_quad addr
  cases m with
  | none =>
    rw [addrField, hnone rfl, reached_bind]
    dsimp only
    rw [hplain rfl]
    rfl
  | some m =>
    have hsplit : e = bytes (quad addr) ++ ascii '/' :: (bytes (maskText m) ++ c :: a) := by
      rw [he]
      simp [maskPart]
    have hfound : strchr e (ascii '/') = some (some (ascii '/' :: (bytes (maskText m) ++ c :: a))) := by
      rw [hsplit]
      exact strchr_eq (by decide) hnul hslash
    have hcount : e.length - (ascii '/' :: (bytes (maskText m) ++ c :: a)).length = (bytes (quad addr)).length := by
      rw [hsplit, List.length_append]
      omega
    have hmask := atoi_maskText (v := a) (m := m) hc
    obtain ⟨n, hn, hm⟩ := Option.map_eq_some_iff.mp hmask
    rw [addrField, hfound, reached_bind]
    dsimp only [List.tail_cons]
    rw [hcount, hn, hsplit, copied_eq hnul (by omega)]
    rw [addressed, Option.getD_some, ← hm]
    rfl

theorem inetLine_done (hbuf : w.buf0.length = 64) (hdev : w.currIface ≠ 0)
    (hline : w.linebuf = (ConfigEntry.inet addr m).text ++ 0 :: a) : LineDone ifaces w (.inet addr m) (inetLine w) := by
  obtain ⟨hnul, hslash, -⟩ := Plain.not_mem (plain_quad addr)
  have hlen := length_bytes_quad addr
  have hroom : (bytes (quad addr)).length < w.buf0.length := by omega
  have hdrop : w.linebuf.drop 5 = bytes (quad addr) ++ (maskPart m ++ 0 :: a) := by
    rw [hline]
    simp [ConfigEntry.text, inetKey, bytes]
  refine ⟨addressed w addr m, (length_copied hroom).trans hbuf, rfl, ?_, ?_⟩
  · rw [ConfigEntry.next, if_neg hdev]
    rfl
  have hfield : addrField w (w.linebuf.drop 5) (strcpied w.buf0 (w.linebuf.drop 5)) = pure (addressed w addr m) :=
    addrField_eq hbuf hdrop (by decide) (fun hm => by
      rw [hdrop, hm]
      exact strchr_none hnul hslash) fun hm => by
      rw [hdrop, hm]
      exact strcpied_eq hnul hroom
  rw [inetLine, hfield, pure_bind, addressed, parsed_eq, ConfigEntry.calls, if_neg hdev, runCalls, runCalls, ConfigCall.run]
  simp only [bind_assoc, pure_bind]

theorem routeLine_done (hbuf : w.buf0.length = 64) (hdev : w.currIface ≠ 0)
    (hline : w.linebuf = (ConfigEntry.route addr m via).text ++ 0 :: a) :
    LineDone ifaces w (.route addr m via) (routeLine w) := by
  obtain ⟨hnul, hslash, hspace⟩ := Plain.not_mem (plain_quad addr)
  obtain ⟨hnul', hslash', -⟩ := Plain.not_mem (plain_quad via)
  have hlen := length_bytes_quad addr
  have hroom : (bytes (quad addr)).length < w.buf0.length := by omega
  have hdrop : w.linebuf.drop 6 = bytes (quad addr) ++ (maskPart m ++ ascii ' ' :: (bytes (quad via) ++ 0 :: a)) := by
    rw [hline]
    simp [ConfigEntry.text, routeKey, bytes]
  have hpart : (0 : Print.Byte) ∉ bytes (quad addr) ++ maskPart m ∧ ascii ' ' ∉ bytes (quad addr) ++ maskPart m := by
    cases m with
    | none =>
      rw [maskPart, Option.map_none, Option.getD_none, List.append_nil]
      exact ⟨hnul, hspace⟩
    | some m =>
      obtain ⟨hm, -, hm'⟩ := Plain.not_mem (plain_digits (octet_maskText m).digits)
      simp only [maskPart, Option.map_some, Option.getD_some, List.mem_append, List.mem_cons, not_or]
      exact ⟨⟨hnul, by decide, hm⟩, hspace, by decide, hm'⟩
  have hfound : strchr (w.linebuf.drop 6) (ascii ' ') = some (some (ascii ' ' :: (bytes (quad via) ++ 0 :: a))) := by
    rw [hdrop, ← List.append_assoc]
    exact strchr_eq (by decide) hpart.1 hpart.2
  refine ⟨addressed w addr m, (length_copied hroom).trans hbuf, rfl, ?_, ?_⟩
  · rw [ConfigEntry.next, if_neg hdev]
    rfl
  have hfield : addrField w (w.linebuf.drop 6) (copied w.buf0 (w.linebuf.drop 6)
      ((w.linebuf.drop 6).length - (ascii ' ' :: (bytes (quad via) ++ 0 :: a)).length)) = pure (addressed w addr m) :=
    addrField_eq hbuf hdrop (by decide) (fun hm => by
      rw [hdrop, hm]
      have hjoin : bytes (quad addr) ++ (maskPart none ++ ascii ' ' :: (bytes (quad via) ++ 0 :: a)) =
          (bytes (quad addr) ++ ascii ' ' :: bytes (quad via)) ++ 0 :: a := by
        simp [maskPart]
      rw [hjoin]
      apply strchr_none
      · simp only [List.mem_append, List.mem_cons, not_or]
        exact ⟨hnul, by decide, hnul'⟩
      · simp only [List.mem_append, List.mem_cons, not_or]
        exact ⟨hslash, by decide, hslash'⟩) fun hm => by
      subst hm
      have hcount : (w.linebuf.drop 6).length - (ascii ' ' :: (bytes (quad via) ++ 0 :: a)).length =
          (bytes (quad addr)).length := by
        rw [hdrop, maskPart, Option.map_none, Option.getD_none, List.nil_append, List.length_append]
        omega
      rw [hcount, hdrop, copied_eq hnul hroom]
      rfl
  rw [routeLine, hfound, reached_bind]
  dsimp only
  rw [hfield, pure_bind, addressed, parsed_eq, List.tail_cons, parsed_eq, ConfigEntry.calls, if_neg hdev, runCalls,
    runCalls, ConfigCall.run]
  simp only [bind_assoc, pure_bind]

theorem plain_maskPart (m : Option (BitVec 8)) : ∀ x ∈ maskPart m, x = ascii '/' ∨ Plain x := by
  intro x hx
  cases m with
  | none => cases hx
  | some m =>
    rcases List.mem_cons.mp hx with rfl | hx
    · exact .inl rfl
    · exact .inr (plain_digits (octet_maskText m).digits x hx)

theorem length_maskPart (m : Option (BitVec 8)) : (maskPart m).length ≤ 4 := by
  cases m with
  | none => exact Nat.zero_le _
  | some m =>
    have hlen := length_octet (octet_maskText m)
    simp only [maskPart, Option.map_some, Option.getD_some, List.length_cons, bytes, List.length_map]
    omega

theorem oneLine_text {e : ConfigEntry} (hwritten : e.Written) : OneLine e.text := by
  have hbad : ∀ {x : Print.Byte}, x = ascii '/' ∨ Plain x → 0 ≠ x ∧ newline ≠ x := by
    rintro x (rfl | hx)
    · decide
    · exact ⟨hx.ne.1.symm, hx.ne.2.2.2.symm⟩
  have hquad : ∀ addr : BitVec 32, ∀ x ∈ bytes (quad addr), 0 ≠ x ∧ newline ≠ x :=
    fun addr x hx => hbad (.inr (plain_quad addr x hx))
  have hmask : ∀ m : Option (BitVec 8), ∀ x ∈ maskPart m, 0 ≠ x ∧ newline ≠ x := fun m x hx => hbad (plain_maskPart m x hx)
  have hkeys : (∀ x ∈ inetKey, 0 ≠ x ∧ newline ≠ x) ∧ ∀ x ∈ routeKey, 0 ≠ x ∧ newline ≠ x := by decide
  have hline : ∀ t : List Print.Byte, t ≠ [] → t.length < 127 → (∀ x ∈ t, 0 ≠ x ∧ newline ≠ x) → OneLine t :=
    fun t hne hlen hall => ⟨hne, fun h => (hall _ h).1 rfl, fun h => (hall _ h).2 rfl, hlen⟩
  cases e with
  | iface name => exact hwritten.1
  | inet addr m =>
    have hlen := length_bytes_quad addr
    have hlen' := length_maskPart m
    apply hline
    · exact List.cons_ne_nil _ _
    · simp only [ConfigEntry.text, List.length_append, inetKey, bytes, List.length_map, List.length_cons] at hlen ⊢
      simp only [List.length_nil]
      omega
    · intro x hx
      simp only [ConfigEntry.text, List.mem_append] at hx
      rcases hx with hx | hx | hx
      · exact hkeys.1 x hx
      · exact hquad addr x hx
      · exact hmask m x hx
  | route addr m via =>
    have hlen := length_bytes_quad addr
    have hlen' := length_maskPart m
    have hlen'' := length_bytes_quad via
    apply hline
    · exact List.cons_ne_nil _ _
    · simp only [ConfigEntry.text, List.length_append, routeKey, bytes, List.length_map, List.length_cons] at hlen hlen'' ⊢
      simp only [List.length_nil]
      omega
    · intro x hx
      simp only [ConfigEntry.text, List.mem_append, List.mem_cons] at hx
      rcases hx with hx | hx | hx | rfl | hx
      · exact hkeys.2 x hx
      · exact hquad addr x hx
      · exact hmask m x hx
      · decide
      · exact hquad via x hx
  | other text => exact hwritten.1

theorem LineDone.same (hbuf : w.buf0.length = 64) {e : ConfigEntry} (hnext : e.next ifaces w.currIface w.mask = (w.currIface, w.mask))
    (hcalls : e.calls w.currIface w.mask = []) : LineDone ifaces w e (pure w) :=
  ⟨w, hbuf, rfl, hnext.symm, by rw [hcalls]; rfl⟩

theorem keyed {key : List Print.Byte} (hnul : (0 : Print.Byte) ∉ u) (hkey : (0 : Print.Byte) ∉ key) (hline : w.linebuf = u ++ 0 :: a) :
    strncmp w.linebuf (key ++ [0]) key.length = some (if u.take key.length = key then 0 else 1) := by
  rw [hline, ← nul_bitVec 8, strncmp_eq hnul hkey, List.take_length]

theorem configLine_done (hifaces : ∀ d ∈ ifaces, ∃ n, (0 : Print.Byte) ∉ n ∧ d.2 = n ++ [0] ∧ n.length < 64)
    (hbuf : w.buf0.length = 64) {e : ConfigEntry} (hwritten : e.Written) (hline : w.linebuf = e.text ++ 0 :: a) :
    LineDone ifaces w e (configLine ifaces w) := by
  have hone := oneLine_text hwritten
  have hinet : strncmp w.linebuf (inetKey ++ [0]) 5 = some (if e.text.take 5 = inetKey then 0 else 1) :=
    keyed hone.nul (by decide) hline
  have hroute : strncmp w.linebuf (routeKey ++ [0]) 6 = some (if e.text.take 6 = routeKey then 0 else 1) :=
    keyed hone.nul (by decide) hline
  have hhead : w.linebuf.head? = e.text.head? := by
    rw [hline, List.head?_append_of_ne_nil _ hone.nonempty]
  have hrest : e.text.head? ≠ some (ascii '[') → configLine ifaces w =
      if e.text.take 5 = inetKey then (if w.currIface ≠ 0 then inetLine w else return w)
      else if e.text.take 6 = routeKey then (if w.currIface ≠ 0 then routeLine w else return w) else return w := by
    intro hno
    rw [configLine, hhead, if_neg hno, hinet, reached_bind]
    by_cases h5 : e.text.take 5 = inetKey
    · rw [if_pos h5, if_pos h5, if_pos rfl]
    · rw [if_neg h5, if_neg h5, if_neg (by decide), hroute, reached_bind]
      by_cases h6 : e.text.take 6 = routeKey
      · rw [if_pos h6, if_pos h6, if_pos rfl]
      · rw [if_neg h6, if_neg h6, if_neg (by decide)]
  cases e with
  | iface name =>
    rw [configLine, hhead, ConfigEntry.text, List.head?_cons, if_pos rfl]
    exact ifaceLine_done hifaces hbuf hwritten hline
  | inet addr m =>
    have hkey : (ConfigEntry.inet addr m).text.take 5 = inetKey := List.take_left' rfl
    have hhead : (ConfigEntry.inet addr m).text.head? ≠ some (ascii '[') := by
      change some (ascii 'i') ≠ _
      decide
    rw [hrest hhead, if_pos hkey]
    by_cases hdev : w.currIface ≠ 0
    · rw [if_pos hdev]
      exact inetLine_done hbuf hdev hline
    · rw [if_neg hdev]
      apply LineDone.same hbuf
      · rw [ConfigEntry.next, if_pos (not_not.mp hdev)]
      · rw [ConfigEntry.calls, if_pos (not_not.mp hdev)]
  | route addr m via =>
    have hkey : (ConfigEntry.route addr m via).text.take 6 = routeKey := List.take_left' rfl
    have hother : (ConfigEntry.route addr m via).text.take 5 ≠ inetKey := by
      intro h
      have h' := congrArg (List.take 5) hkey
      rw [List.take_take, Nat.min_eq_left (by decide), h] at h'
      exact absurd h' (by decide)
    have hhead : (ConfigEntry.route addr m via).text.head? ≠ some (ascii '[') := by
      change some (ascii 'r') ≠ _
      decide
    rw [hrest hhead, if_neg hother, if_pos hkey]
    by_cases hdev : w.currIface ≠ 0
    · rw [if_pos hdev]
      exact routeLine_done hbuf hdev hline
    · rw [if_neg hdev]
      apply LineDone.same hbuf
      · rw [ConfigEntry.next, if_pos (not_not.mp hdev)]
      · rw [ConfigEntry.calls, if_pos (not_not.mp hdev)]
  | other text =>
    obtain ⟨-, hno, h5, h6⟩ := hwritten
    rw [hrest hno, ConfigEntry.text, if_neg h5, if_neg h6]
    exact LineDone.same hbuf rfl rfl

end Lines

section Reading

variable {σ : Type} {ifaces : Ifaces} {read : Reader σ} {left : σ → List Print.Byte} {f : GetsFile σ} {c rounds : Nat}
  {w : ConfigVars} {entries : List ConfigEntry} {tail linebuf buf0 : List Print.Byte}

def configText (entries : List ConfigEntry) : List Print.Byte := entries.flatMap fun e => e.text ++ [newline]

def Stops (tail : List Print.Byte) : Prop := tail = [] ∨ ∃ cs, tail = newline :: cs

def Named (ifaces : Ifaces) : Prop := ∀ d ∈ ifaces, ∃ n, (0 : Print.Byte) ∉ n ∧ d.2 = n ++ [0] ∧ n.length < 64

theorem runCalls_append (l l' : List ConfigCall) : runCalls (l ++ l') = (do runCalls l; runCalls l') := by
  induction l with
  | nil => exact (pure_bind _ _).symm
  | cons call l ih =>
    rw [List.cons_append, runCalls, ih, runCalls]
    simp only [bind_assoc]

/-- A call that gets a line leaves it in the buffer, and the rest in the file. -/
theorem gets_entry (hseq : Sequential read left) {l cs : List Print.Byte} (hbuf : linebuf.length = 128) (hone : OneLine l)
    (hf : Readable left f (l ++ newline :: cs)) : ∃ (r : Int) (f' : GetsFile σ), 0 < r ∧
      vfsGets read c linebuf 128 f = .ok (r, l ++ 0 :: linebuf.drop (l.length + 1), f') ∧ Readable left f' cs := by
  have hshort := hone.short
  obtain ⟨htext, hrest⟩ := call_line (k := 127) cs hone.newline
  rw [List.take_of_length_le (by omega)] at htext
  rw [if_pos hshort] at hrest
  obtain ⟨f', hgets, hf'⟩ := vfsGets_text (c := c) hseq (show 2 ≤ 128 by decide) (by decide)
    (show 128 ≤ linebuf.length by omega) (by simp) hf
  rw [htext] at hgets
  rw [hrest] at hf'
  have hpos := List.length_pos_iff.mpr hone.nonempty
  refine ⟨_, f', ?_, hgets, hf'⟩
  rw [ssize_of_lt (by omega)]
  omega

theorem gets_stops (hseq : Sequential read left) (hbuf : linebuf.length = 128) (hstops : Stops tail)
    (hf : Readable left f tail) : ∃ (r : Int) (b : List Print.Byte) (f' : GetsFile σ), r ≤ 0 ∧
      vfsGets read c linebuf 128 f = .ok (r, b, f') := by
  rcases hstops with rfl | ⟨cs, rfl⟩
  · obtain ⟨f', hgets, -⟩ := vfsGets_ended (c := c) hseq (show 2 ≤ 128 by decide) (by decide)
      (show 128 ≤ linebuf.length by omega) hf
    exact ⟨-1, _, f', by decide, hgets⟩
  · obtain ⟨f', hgets, -⟩ := vfsGets_text (c := c) hseq (show 2 ≤ 128 by decide) (by decide)
      (show 128 ≤ linebuf.length by omega) (by simp) hf
    have htext : callText 127 (newline :: cs) = [] := by
      rw [callText, if_pos rfl]
    refine ⟨_, _, f', ?_, hgets⟩
    rw [htext, List.length_nil, ssize_of_lt (by decide)]
    exact le_rfl

theorem configLoop_eq (hifaces : Named ifaces) (hseq : Sequential read left) (hwritten : ∀ e ∈ entries, e.Written)
    (hstops : Stops tail) (hline : w.linebuf.length = 128) (hbuf : w.buf0.length = 64)
    (hf : Readable left f (configText entries ++ tail)) (hrounds : entries.length < rounds) :
    configLoop ifaces read c rounds w f = runCalls (meaning ifaces w.currIface w.mask entries) := by
  induction entries generalizing w f rounds with
  | nil =>
    obtain ⟨rounds, rfl⟩ := Nat.exists_eq_succ_of_ne_zero (Nat.ne_of_gt hrounds)
    obtain ⟨r, b, f', hr, hgets⟩ := gets_stops (c := c) hseq hline hstops hf
    rw [configLoop, hgets]
    exact if_neg (by omega)
  | cons e entries ih =>
    obtain ⟨rounds, rfl⟩ := Nat.exists_eq_succ_of_ne_zero (show rounds ≠ 0 by omega)
    have he := hwritten e (List.mem_cons_self ..)
    have hone := oneLine_text he
    have hshort := hone.short
    have hcontent : configText (e :: entries) ++ tail = e.text ++ newline :: (configText entries ++ tail) := by
      simp [configText]
    rw [hcontent] at hf
    obtain ⟨r, f', hr, hgets, hf'⟩ := gets_entry (c := c) hseq hline hone hf
    obtain ⟨w', hbuf', hline', hvars, hrun⟩ := configLine_done hifaces
      (w := { w with linebuf := e.text ++ 0 :: w.linebuf.drop (e.text.length + 1) }) hbuf he rfl
    have hlen : w'.linebuf.length = 128 := by
      rw [hline']
      exact (length_copied (by omega)).trans hline
    obtain ⟨hiface, hmask⟩ := Prod.ext_iff.mp hvars
    have hfewer : entries.length < rounds := by
      rw [List.length_cons] at hrounds
      omega
    have hrest := ih (w := w') (fun e he => hwritten e (List.mem_cons_of_mem _ he)) hlen hbuf' hf' hfewer
    rw [configLoop, hgets]
    change (if r > 0 then _ else _) = _
    rw [if_pos hr, hrun, meaning, runCalls_append]
    simp only [bind_assoc, pure_bind]
    rw [hrest, show w'.currIface = _ from hiface, show w'.mask = _ from hmask]

/-- A configuration that is read does exactly what its lines say, up to the first blank line: each
address and each route of a device that is found, with the mask of its line or of the last one before
it that has a mask. -/
theorem config_read (hifaces : Named ifaces) (hseq : Sequential read left) (hwritten : ∀ e ∈ entries, e.Written)
    (hstops : Stops tail) (hline : linebuf.length = 128) (hbuf : buf0.length = 64)
    (hf : Readable left f (configText entries ++ tail)) (hrounds : entries.length < rounds) :
    netLoadConfig ifaces read c rounds linebuf buf0 (some f) = (do
      runCalls (meaning ifaces 0 0 entries)
      return 0) := by
  rw [netLoadConfig, configLoop_eq hifaces hseq hwritten hstops hline hbuf hf hrounds]

theorem ethName_inj {i j : Nat} (hi : i < 8) (hj : j < 8) (h : ethName i = ethName j) : i = j := by
  have hall : ∀ i < 8, ∀ j < 8, ethName i = ethName j → i = j := by decide
  exact hall i hi j hj h

theorem nul_ethName {i : Nat} (hi : i < 8) : (0 : Print.Byte) ∉ ethName i := by
  revert i
  decide

def LastAt (devs : List Nat) (dev i : Nat) : Prop := devs[i]? = some dev ∧ dev ∉ devs.drop (i + 1)

theorem exists_lastAt {devs : List Nat} {dev : Nat} (h : dev ∈ devs) : ∃ i, LastAt devs dev i := by
  induction devs with
  | nil => cases h
  | cons d devs ih =>
    by_cases hlater : dev ∈ devs
    · obtain ⟨i, hi⟩ := ih hlater
      exact ⟨i + 1, hi⟩
    · obtain rfl := (List.mem_cons.mp h).resolve_right hlater
      exact ⟨0, rfl, hlater⟩

theorem LastAt.lt {devs : List Nat} {dev i : Nat} (h : LastAt devs dev i) : i < devs.length :=
  (List.getElem?_eq_some_iff.mp h.1).1

structure Registry (devs : List Nat) (s : NetDevices) : Prop where
  devices : s.devices = devs
  names : ∀ dev i, LastAt devs dev i → s.names dev = ethName i ++ [0]
  count : s.ethLast = devs.length
  privs : s.privs = List.replicate devs.length true ++ List.replicate (8 - devs.length) false
  room : devs.length ≤ 8

theorem Registry.entry {devs : List Nat} {s : NetDevices} {d : Nat × List Print.Byte} (h : Registry devs s)
    (hd : d ∈ s.ifaces) : ∃ i, LastAt devs d.1 i ∧ d.2 = ethName i ++ [0] := by
  rw [NetDevices.ifaces, h.devices] at hd
  obtain ⟨dev, hdev, rfl⟩ := List.mem_map.mp hd
  obtain ⟨i, hi⟩ := exists_lastAt hdev
  exact ⟨i, hi, h.names dev i hi⟩

theorem Registry.named {devs : List Nat} {s : NetDevices} (h : Registry devs s) : Named s.ifaces := by
  intro d hd
  obtain ⟨i, hi, hname⟩ := h.entry hd
  exact ⟨ethName i, nul_ethName (Nat.lt_of_lt_of_le hi.lt h.room), hname, by simp [ethName, bytes]⟩

theorem Registry.found {devs : List Nat} {s : NetDevices} {dev i : Nat} (h : Registry devs s) (hi : LastAt devs dev i) :
    ifaceNamed s.ifaces (ethName i) = dev := by
  have hmem : (dev, s.names dev) ∈ s.ifaces := by
    rw [NetDevices.ifaces, h.devices]
    exact List.mem_map_of_mem (List.mem_of_getElem? hi.1)
  have hsome : (s.ifaces.find? (·.2 = ethName i ++ [0])).isSome := by
    rw [List.find?_isSome]
    exact ⟨_, hmem, decide_eq_true (h.names dev i hi)⟩
  obtain ⟨d, hd⟩ := Option.isSome_iff_exists.mp hsome
  obtain ⟨j, hj, hname⟩ := h.entry (List.mem_of_find?_eq_some hd)
  have hsame : d.2 = ethName i ++ [0] := by simpa using List.find?_some hd
  rw [hname] at hsame
  obtain rfl : j = i := ethName_inj (Nat.lt_of_lt_of_le hj.lt h.room) (Nat.lt_of_lt_of_le hi.lt h.room)
    (List.append_cancel_right hsame)
  rw [ifaceNamed, hd]
  exact Option.some.inj (hj.1.symm.trans hi.1)

theorem netPrivAlloc_eq (n m : Nat) : netPrivAlloc (List.replicate n true ++ List.replicate m false) =
    if m = 0 then none else some (List.replicate (n + 1) true ++ List.replicate (m - 1) false) := by
  induction n with
  | zero =>
    cases m with
    | zero => rfl
    | succ m => rfl
  | succ n ih =>
    rw [List.replicate_succ, List.cons_append, netPrivAlloc, ih]
    by_cases hm : m = 0
    · rw [if_pos hm, if_pos hm]
      rfl
    · rw [if_neg hm, if_neg hm]
      rfl

theorem wp_netRegister {s : NetDevices} {devs : List Nat} {dev : Nat} (h : Registry devs s) :
    wp (netRegister dev) anyFault (fun _ t => Registry (devs ++ [dev]) t) s := by
  rw [netRegister, wp_bind, wp_get, wp_bind, wp_kassert]
  refine ⟨fun _ => ?_, fun _ => trivial⟩
  rw [wp_bind, wp_get, wp_bind, wp_modify, wp_bind, wp_get]
  dsimp only
  rw [h.privs, netPrivAlloc_eq]
  by_cases hfull : 8 - devs.length = 0
  · rw [if_pos hfull]
    trivial
  rw [if_neg hfull]
  dsimp only
  rw [wp_bind, wp_modify, wp_bind, wp_get, h.devices, if_pos (by omega), wp_modify]
  refine ⟨?_, fun d i hi => ?_, ?_, ?_, ?_⟩
  · rfl
  · dsimp only
    rw [h.count]
    by_cases hlast : i = devs.length
    · obtain rfl := hlast
      have hd := hi.1
      rw [List.getElem?_concat_length] at hd
      obtain rfl := Option.some.inj hd
      rw [Function.update_self]
    · have hlt : i < devs.length := by
        have := hi.lt
        rw [List.length_append, List.length_singleton] at this
        omega
      obtain ⟨hget, hlater⟩ := hi
      rw [List.getElem?_append_left hlt] at hget
      rw [List.drop_append_of_le_length hlt, List.mem_append, List.mem_singleton, not_or] at hlater
      rw [Function.update_of_ne hlater.2]
      exact h.names d i ⟨hget, hlater.1⟩
  · rw [List.length_append, List.length_singleton, ← h.count]
  · rw [List.length_append, List.length_singleton, ← Nat.sub_sub]
  · rw [List.length_append, List.length_singleton]
    omega

theorem wp_registerAll {s : NetDevices} {devs : List Nat} (more : List Nat) (h : Registry devs s) :
    wp (registerAll more) anyFault (fun _ t => Registry (devs ++ more) t) s := by
  induction more generalizing s devs with
  | nil =>
    rw [List.append_nil]
    exact h
  | cons dev more ih =>
    rw [registerAll, wp_bind]
    have hone : wp (netRegister dev) anyFault (fun _ t => Registry (devs ++ [dev]) t) s := wp_netRegister h
    apply wp_imp hone
    intro _ t ht
    have := ih ht
    rwa [List.append_assoc, List.singleton_append] at this

/-- Once devices have been registered, a configuration that is read does exactly what its lines say about
them, and the name of the place of its last registration stands for a device. -/
theorem registered_config_read {s t : NetDevices} {devs : List Nat} (hstart : Registry [] s)
    (hrun : registerAll devs s = .ok ((), t)) (hseq : Sequential read left) (hwritten : ∀ e ∈ entries, e.Written)
    (hstops : Stops tail) (hline : linebuf.length = 128) (hbuf : buf0.length = 64)
    (hf : Readable left f (configText entries ++ tail)) (hrounds : entries.length < rounds) :
    netLoadConfig t.ifaces read c rounds linebuf buf0 (some f) = (do
        runCalls (meaning t.ifaces 0 0 entries)
        return 0) ∧
      ∀ dev i, LastAt devs dev i → ifaceNamed t.ifaces (ethName i) = dev := by
  have hregistry := of_run (wp_registerAll devs hstart) hrun
  rw [List.nil_append] at hregistry
  exact ⟨config_read hregistry.named hseq hwritten hstops hline hbuf hf hrounds, fun _ _ hi => hregistry.found hi⟩

def newDevices : NetDevices :=
  ⟨⟨fun _ => ⟨1, fun _ => 0, none⟩, List.replicate 32 ⟨0, 0, 0, 0, fun _ => 0⟩, []⟩, [], fun _ => [], 0,
    List.replicate 8 false⟩

/-- The second device with an address and a route, whose mask is that of the address. -/
def smallConfig : List ConfigEntry := [.iface (ethName 1), .inet 0x0100000A (some 8), .route 0x0000010A none 0x0200000A]

theorem registered_config_read_small : ∃ t, registerAll [1, 2] newDevices = .ok ((), t) ∧
    netLoadConfig t.ifaces textReader 0 4 (List.replicate 128 0) (List.replicate 64 0)
      (some ⟨1, 0, configText smallConfig ++ []⟩) = (do
        runCalls [.inaddr 2 0x0100000A 8, .route 2 0x0000010A 8 0x0200000A]
        return 0) := by
  have hrun : registerAll [1, 2] newDevices = .ok ((), after (registerAll [1, 2]) newDevices) := run_after (by decide +kernel)
  have hwritten : ∀ e ∈ smallConfig, e.Written := by
    intro e he
    simp only [smallConfig, List.mem_cons, List.not_mem_nil, or_false] at he
    rcases he with rfl | rfl | rfl
    · exact ⟨⟨by decide, by decide, by decide, by decide⟩, by decide, by decide⟩
    · trivial
    · trivial
  have hline : (List.replicate 128 (0 : Print.Byte)).length = 128 := List.length_replicate ..
  have hbuf : (List.replicate 64 (0 : Print.Byte)).length = 64 := List.length_replicate ..
  have hread := registered_config_read (c := 0) ⟨rfl, fun _ _ hi => absurd hi.lt (Nat.not_lt_zero _), rfl, rfl, by decide⟩ hrun sequential_textReader hwritten
    (.inl rfl) hline hbuf (readable_text _) (show smallConfig.length < 4 by decide)
  exact ⟨_, hrun, hread.1⟩

end Reading

end YggKernel.Net
