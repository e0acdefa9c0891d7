import YggKernel.Paging.Copies

namespace YggKernel.Paging

open Lib.Program Lib.ByteMemory Lib.BitWords Lib.Masks Phys Pool

def getByte (v : Nat) : Prog Fault Machine (BitVec 8) := do
  let p ← access v
  return (← get).mem p

def setByte (v : Nat) (b : BitVec 8) : Prog Fault Machine Unit := do
  let p ← access v
  modify fun s => { s with mem := store8 s.mem p b }

/-- The inner loop of `mm_strncpy_user_to_kernel`. Whether it has met the end of the string, and the number of
bytes written so far. -/
def copyPart (page dst count : Nat) : Nat → Nat → Nat → Prog Fault Machine (Bool × Nat)
  | _, 0, copied => return (false, copied)
  | off, n + 1, copied => do
    if (← getByte (u32 (page + off))) = 0 ∨ copied = sub32 count 1 then
      setByte (u32 (dst + copied)) 0
      return (true, copied + 1)
    else
      setByte (u32 (dst + copied)) (← getByte (u32 (page + off)))
      copyPart page dst count (off + 1) n (copied + 1)

/-- The outer loop. `pages` are the pages that were translated before. -/
def copyParts (pd dst user count : Nat) : Nat → Nat → List Nat → Nat → Prog Fault Machine (Nat × List Nat)
  | _, 0, pages, copied => do
    setByte (u32 (dst + copied)) 0
    return (copied, pages)
  | i, n + 1, pages, copied => do
    let page := u32 ((user &&& pageMask) + i * 0x1000)
    let (userStart, userEnd) := userPart user count page
    openWindow pd page
    let (done, copied) ← copyPart page dst count userStart (userEnd - userStart) copied
    closeWindow page
    if done then return (copied, pages ++ [page])
    else copyParts pd dst user count (i + 1) n (pages ++ [page]) copied

/-- `mm_strncpy_user_to_kernel`, and the pages that it has asked `mm_translate` for. -/
def strncpyUserToKernel (pd dst user count : Nat) : Prog Fault Machine (Nat × List Nat) :=
  copyParts pd dst user count 0 (alignUpPage count / 0x1000 + 1) [] 0

/-- Of `count` bytes the first `n` are copied: none of them is zero, and the string or the room ends there. -/
structure StringIn (m : Mem) (φ : Nat → Nat) (count n : Nat) : Prop where
  lt : n < count
  nonzero : ∀ k < n, m (φ k) ≠ 0
  stop : m (φ n) = 0 ∨ n = count - 1

def stringBytes (m : Mem) (φ : Nat → Nat) (n : Nat) : List (BitVec 8) := gather m φ n ++ [0]

section Part

variable {t : Machine} {page off dst count c n : Nat} {φ β : Nat → Nat} {E : Fault → Prop}

theorem wp_getByte {v p : Nat} {Q : BitVec 8 → Machine → Prop} (h : resolve t v = some p) :
    wp (getByte v) E Q t ↔ Q (t.mem p) t := by
  simp only [getByte, access, wp_bind, wp_get, h, wp_pure]

theorem wp_setByte {v p : Nat} {b : BitVec 8} {Q : Unit → Machine → Prop} (h : resolve t v = some p) :
    wp (setByte v b) E Q t ↔ Q () { t with mem := store8 t.mem p b } := by
  simp only [setByte, access, wp_bind, wp_get, h, wp_pure, wp_modify]

@[simp] theorem length_stringBytes (m : Mem) (φ : Nat → Nat) (n : Nat) : (stringBytes m φ n).length = n + 1 := by
  simp [stringBytes]

theorem stringBytes_congr {m m' : Mem} (h : ∀ i < n, m' (φ i) = m (φ i)) : stringBytes m' φ n = stringBytes m φ n := by
  unfold stringBytes
  rw [gather_congr h]

theorem StringIn.congr {m m' : Mem} (hs : StringIn m φ count n) (h : ∀ i ≤ n, m' (φ i) = m (φ i)) : StringIn m' φ count n := by
  refine ⟨hs.lt, fun k hk => ?_, ?_⟩
  · rw [h k (by omega)]
    exact hs.nonzero k hk
  · rw [h n le_rfl]
    exact hs.stop

theorem Leads.mono {v k : Nat} {φ : Nat → Nat} (h : Leads t v φ count) (hk : k ≤ count) : Leads t v φ k :=
  fun m hm i hi => h m hm i (by omega)

theorem Leads.byte {v : Nat} {φ : Nat → Nat} {k : Nat} (h : Leads t v φ count) (hk : k < count) : resolve t (v + k) = some (φ k) :=
  h t.mem (fun _ _ => rfl) k hk

theorem drop_stringBytes (m : Mem) (hc : c < n) :
    (stringBytes m φ n).drop c = m (φ c) :: (stringBytes m φ n).drop (c + 1) := by
  have hlen : c < (stringBytes m φ n).length := by
    rw [length_stringBytes]
    omega
  rw [List.drop_eq_getElem_cons hlen]
  refine congrArg (· :: _) ?_
  simp [stringBytes, gather, hc]

theorem drop_stringBytes_last (m : Mem) : (stringBytes m φ n).drop n = [0] := by
  rw [stringBytes, List.drop_left' (length_gather ..)]

theorem wp_copyPart {size : Nat} {Q : Bool × Nat → Machine → Prop} (hc : c ≤ n)
    (hsrc : Leads t (page + off) (fun k => φ (c + k)) (min size (n + 1 - c))) (hdst : Leads t dst β (n + 1))
    (hpage : page + off + size ≤ 4294967296) (hroom : dst + count ≤ 4294967296) (hcount : count < 4294967296) (hβ : ∀ i ≤ n, ¬InPaging t (β i))
    (hapart : ∀ i ≤ n, ∀ j ≤ n, φ i ≠ β j) (hs : StringIn t.mem φ count n)
    (hQ : Q (decide (n < c + size), min (c + size) (n + 1))
      { t with mem := scatter t.mem (fun k => β (c + k)) (((stringBytes t.mem φ n).drop c).take size) }) :
    wp (copyPart page dst count off size c) E Q t := by
  induction size generalizing t off c with
  | zero =>
    have hdone : decide (n < c + 0) = false := decide_eq_false (by omega)
    have hmin : min (c + 0) (n + 1) = c := by omega
    rw [hdone, hmin, List.take_zero] at hQ
    exact hQ
  | succ size ih =>
    have hlt := hs.lt
    have hbyte := hsrc.byte (show 0 < min (size + 1) (n + 1 - c) by omega)
    have hplace := hdst.byte (show c < n + 1 by omega)
    rw [Nat.add_zero, Nat.add_zero] at hbyte
    rw [copyPart, wp_bind, u32_of_lt (show page + off < 4294967296 by omega), u32_of_lt (show dst + c < 4294967296 by omega),
      sub32_of_le hcount (show 1 ≤ count by omega), wp_getByte hbyte]
    by_cases hend : c = n
    · subst hend
      have hstop : t.mem (φ c) = 0 ∨ c = count - 1 := hs.stop
      have hdone : decide (c < c + (size + 1)) = true := decide_eq_true (by omega)
      have hmin : min (c + (size + 1)) (c + 1) = c + 1 := by omega
      rw [hdone, hmin, drop_stringBytes_last, List.take_succ_cons, List.take_nil] at hQ
      rw [if_pos hstop, wp_bind, wp_setByte hplace, wp_pure]
      exact hQ
    · have hgo : ¬(t.mem (φ c) = 0 ∨ c = count - 1) := by
        rintro (hzero | hlast)
        · exact hs.nonzero c (by omega) hzero
        · omega
      have hkeep : ∀ x, InPaging t x → store8 t.mem (β c) (t.mem (φ c)) x = t.mem x := fun x hx =>
        store8_apply_ne _ fun hxa => hβ c hc (hxa ▸ hx)
      have hsame : ∀ i ≤ n, store8 t.mem (β c) (t.mem (φ c)) (φ i) = t.mem (φ i) := fun i hi =>
        store8_apply_ne _ (hapart i hi c hc)
      have hshift : (fun k => φ (c + 1 + k)) = fun k => φ (c + (1 + k)) := funext fun k => congrArg φ (Nat.add_assoc ..)
      have hshift' : (fun k => β (c + 1 + k)) = fun k => β (c + (k + 1)) := funext fun k => congrArg β (by omega)
      have hrest := (hsrc.shift (k := 1) (show 1 + min size (n + 1 - (c + 1)) ≤ min (size + 1) (n + 1 - c) by omega)).store hkeep
      rw [if_neg hgo, wp_bind, wp_getByte hbyte, wp_bind, wp_setByte hplace]
      refine ih (by omega) ?_ (hdst.store hkeep) (by omega) hβ (hs.congr hsame) ?_
      · rw [hshift]
        exact hrest
      · have hsize : c + 1 + size = c + (size + 1) := by omega
        dsimp only
        rw [drop_stringBytes _ (show c < n by omega), List.take_succ_cons] at hQ
        rw [stringBytes_congr fun i hi => hsame i hi.le, hsize, hshift']
        exact hQ

end Part

structure Received (s t : Machine) (β : Nat → Nat) (bytes : List (BitVec 8)) : Prop where
  restored : Restored s t
  mem : ∀ x, ¬InPaging s x → t.mem x = scatter s.mem β bytes x

section Parts

variable {s : Machine} {spaces : List Nat} {pd user dst count n : Nat} {φ β : Nat → Nat} {E : Fault → Prop}

def PagesOf (user n : Nat) (pages : List Nat) : Prop := ∀ page ∈ pages, ∃ k ≤ n, page = (user + k) / 4096 * 4096

theorem PagesOf.append {pages : List Nat} {i : Nat} (h : PagesOf user n pages) (hhigh : user + count ≤ kernelVirtBase)
    (hn : n < count) (hi : partStart user i ≤ n) : PagesOf user n (pages ++ [u32 ((user &&& pageMask) + i * 0x1000)]) := by
  intro page hpage
  rcases List.mem_append.mp hpage with hold | hnew
  · exact h page hold
  · rw [List.mem_singleton.mp hnew, pageAt_eq (hhigh.trans_lt (by decide)) (part_inside (hi.trans_lt hn)), ← partStart_page]
    exact ⟨_, hi, rfl⟩

theorem Received.step {r t u : Machine} {bytes : List (BitVec 8)} {c size : Nat} (h : Received s r β (bytes.take c))
    (hc : c ≤ bytes.length) (ht : ∀ x, ¬InPaging r x → t.mem x = r.mem x) (hu : Restored r u)
    (hmem : ∀ x, ¬InPaging r x → u.mem x = scatter t.mem (fun k => β (c + k)) ((bytes.drop c).take size) x) :
    Received s u β (bytes.take (c + size)) := by
  refine ⟨h.restored.trans hu, fun x hx => ?_⟩
  have hx' : ¬InPaging r x := fun hin => hx ((h.restored.inPaging_iff x).mp hin)
  rw [hmem x hx', scatter_apply_congr ((ht x hx').trans (h.mem x hx)), List.take_add, scatter_append,
    List.length_take_of_le hc]

theorem roundsLeft {i : Nat} (hcount : count ≤ 3221225472) (hi : partStart user i < count) : i < alignUpPage count / 0x1000 + 1 := by
  unfold partStart at hi
  unfold alignUpPage
  rw [u32_of_lt (by omega), and_pageMask (by omega)]
  omega

theorem wp_copyParts (hr : UserRange s pd user (n + 1) φ) (hhigh : user + count ≤ kernelVirtBase) (hs : Ready spaces s)
    (hpd : pd ∈ spaces) (hload : s.cr3 = physOf s s.mmKernel) (hb : KernelBytes s dst count β)
    (hapart : ∀ i ≤ n, ∀ j ≤ n, φ i ≠ β j) (hstring : StringIn s.mem φ count n) (rounds : Nat) :
    ∀ i pages r, i + rounds = alignUpPage count / 0x1000 + 1 → partStart user i ≤ n → PagesOf user n pages →
      Received s r β ((stringBytes s.mem φ n).take (partStart user i)) →
      wp (copyParts pd dst user count i rounds pages (partStart user i)) E (fun a t =>
        a.1 = n + 1 ∧ PagesOf user n a.2 ∧ Received s t β (stringBytes s.mem φ n)) r := by
  obtain ⟨owner, ht⟩ := hs.tree
  have htop : user + count ≤ 3221225472 := hhigh
  have hlt := hstring.lt
  have hroom := hb.high
  have hlow : 3221225472 ≤ dst := hb.low
  induction rounds with
  | zero =>
    intro i pages r hi hle
    have hleft : i < alignUpPage count / 0x1000 + 1 := roundsLeft (by omega) (hle.trans_lt hlt)
    omega
  | succ rounds ih =>
    intro i pages r hi hle hpages hrec
    have hrest := hrec.restored
    refine wp_userRound (b := fun page first last => copyPart page dst count first (last - first) (partStart user i))
      (g := fun _ _ a => if a.1 then pure (a.2, pages ++ [u32 ((user &&& pageMask) + i * 0x1000)])
        else copyParts pd dst user count (i + 1) rounds (pages ++ [u32 ((user &&& pageMask) + i * 0x1000)]) a.2)
      (hrest.userRange ht hpd hr) (by omega) hhigh (by omega) (hrest.ready hs) hpd (hrest.loaded hload)
      fun t page p first last ho hv hfirst hlast hpage hsize hwindow => ?_
    have hc : partStart user i ≤ (stringBytes s.mem φ n).length := by
      rw [length_stringBytes]
      omega
    have hsame : ∀ k ≤ n, t.mem (φ k) = s.mem (φ k) := fun k hk => by
      have hout : ¬InPaging s (φ k) := hr.apart k (by omega)
      rw [ho.framed.mem _ fun hin => hout ((hrest.inPaging_iff _).mp hin), hrec.mem _ hout, scatter_outside]
      intro j hj
      rw [List.length_take, length_stringBytes] at hj
      exact hapart k hk j (by omega)
    have hdst : Leads t dst β (n + 1) := (ho.leads (hrest.tree ht) (hrest.mmKernel ▸ ht.kernel) (hrest.loaded hload)
      (by omega) (hrest.kernelBytes ht hload hb)).mono (by omega)
    have hsrc : Leads t (page + first) (fun k => φ (partStart user i + k)) (min (last - first) (n + 1 - partStart user i)) := by
      rw [hv]
      exact hwindow
    refine wp_copyPart hle hsrc hdst (by omega) hroom (by omega) (fun k hk hin => ?_) hapart (hstring.congr hsame) ?_
    · exact hb.apart k (by omega) ((hrest.inPaging_iff _).mp ((ho.framed.inPaging_iff _).mp hin))
    · rw [stringBytes_congr fun k hk => hsame k hk.le]
      refine ⟨_, rfl, fun x hx => scatter_outside fun k hk => ?_, fun u hu hmem => ?_⟩
      · rw [List.length_take, List.length_drop, length_stringBytes] at hk
        rintro rfl
        exact hb.apart _ (by omega) ((hrest.inPaging_iff _).mp hx)
      · have hnext := hrec.step hc ho.framed.mem hu hmem
        have hpages' := hpages.append hhigh hlt hle
        by_cases hdone : n < partStart user i + (last - first)
        · have hcopied : min (partStart user i + (last - first)) (n + 1) = n + 1 := by omega
          rw [List.take_of_length_le (by rw [length_stringBytes]; omega)] at hnext
          rw [hcopied, decide_eq_true hdone]
          exact ⟨rfl, hpages', hnext⟩
        · have hcopied : min (partStart user i + (last - first)) (n + 1) = partStart user (i + 1) := by omega
          have hsum : partStart user i + (last - first) = partStart user (i + 1) := by omega
          rw [hsum] at hnext
          rw [hcopied, decide_eq_false hdone]
          exact ih (i + 1) _ u (by omega) (by omega) hpages' hnext

end Parts

section Strncpy

variable {s : Machine} {spaces : List Nat} {pd user dst count n : Nat} {φ β : Nat → Nat}

/-- With `mm_kernel` loaded exactly the string is copied: only the pages of its bytes have to be mapped. -/
theorem strncpy_copies_string (hs : Ready spaces s) (hpd : pd ∈ spaces) (hload : s.cr3 = physOf s s.mmKernel)
    (hhigh : user + count ≤ kernelVirtBase) (hr : UserRange s pd user (n + 1) φ) (hstring : StringIn s.mem φ count n)
    (hb : KernelBytes s dst count β) (hbytes : ∀ i < count, ∀ j < count, β i = β j → i = j)
    (hapart : ∀ i ≤ n, ∀ j < count, φ i ≠ β j) :
    wp (strncpyUserToKernel pd dst user count) noFault (fun a t =>
      a.1 = n + 1 ∧ (∀ page ∈ a.2, ∃ k ≤ n, page = (user + k) / 4096 * 4096) ∧
      (∀ k < n, t.mem (β k) = s.mem (φ k)) ∧ t.mem (β n) = 0 ∧
      (∀ x, ¬InPaging s x → (∀ k ≤ n, x ≠ β k) → t.mem x = s.mem x) ∧ KernelKept spaces s t) s := by
  obtain ⟨owner, ht⟩ := hs.tree
  have hlt := hstring.lt
  have hstart := partStart_zero user
  have hcopy := wp_copyParts (E := noFault) hr hhigh hs hpd hload hb (fun i hi j hj => hapart i hi j (by omega)) hstring
    (alignUpPage count / 0x1000 + 1) 0 [] s (Nat.zero_add _) (by omega) (fun page hpage => absurd hpage List.not_mem_nil)
  rw [hstart, List.take_zero] at hcopy
  refine wp_imp (hcopy ⟨.refl ht.geometry, fun _ _ => rfl⟩) ?_
  rintro a t ⟨hret, hpages, hrec⟩
  have harrive : ∀ k ≤ n, t.mem (β k) = (stringBytes s.mem φ n).getD k 0 := fun k hk => by
    rw [hrec.mem _ (hb.apart k (by omega))]
    refine scatter_at (fun i hi j hj => ?_) (by rw [length_stringBytes]; omega)
    rw [length_stringBytes] at hi hj
    exact hbytes i (by omega) j (by omega)
  refine ⟨hret, hpages, fun k hk => ?_, ?_, fun x hx hout => ?_, hrec.restored.kernelKept hs⟩
  · rw [harrive k hk.le, stringBytes, List.getD_append _ _ _ _ (by rwa [length_gather]), getD_gather hk]
  · rw [harrive n le_rfl, stringBytes, List.getD_append_right _ _ _ _ (by rw [length_gather]), length_gather, Nat.sub_self]
    rfl
  · rw [hrec.mem x hx]
    refine scatter_outside fun k hk => hout k ?_
    rw [length_stringBytes] at hk
    omega

theorem strncpy_copies_string_two : ∃ pages t, strncpyUserToKernel (poolPage 1) 0xC0300000 0x400FFF 8 windowMachine =
      .ok ((3, pages), t) ∧ (∀ page ∈ pages, page = 0x400000 ∨ page = 0x401000) ∧
    t.mem 0x300000 = 0x41 ∧ t.mem 0x300001 = 0x42 ∧ t.mem 0x300002 = 0 := by
  have htext := windowMachine_text
  have hletters : ∀ k < 2, windowMachine.mem (windowByte k) ≠ 0 := fun k hk => by
    rw [htext k (by omega)]
    interval_cases k <;> decide
  have hstring : StringIn windowMachine.mem windowByte 8 2 := ⟨by decide, hletters, .inl (htext 2 (by decide))⟩
  obtain ⟨⟨_, pages⟩, t, hrun, hret, hpages, harrive, hend, _⟩ := run_of_wp (strncpy_copies_string windowMachine_ready
    (by decide) (by decide) (by decide) (windowMachine_range (by decide)) hstring (windowMachine_bytes (by decide)) (fun i _ j _ h => by omega)
    (by decide))
  dsimp only at hret
  rw [hret] at hrun
  refine ⟨pages, t, hrun, fun page hpage => ?_, ?_, ?_, hend⟩
  · obtain ⟨k, hk, rfl⟩ := hpages page hpage
    omega
  · exact (harrive 0 (by decide)).trans (htext 0 (by decide))
  · exact (harrive 1 (by decide)).trans (htext 1 (by decide))

end Strncpy

end YggKernel.Paging
