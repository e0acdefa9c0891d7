import YggKernel.Fault
import YggKernel.Print.Numerals
import YggKernel.Strings

namespace YggKernel.Hw

open Print Strings Lib.ByteMemory

section Source

/-- The bytes at the addresses of the kernel, which sees physical memory from `kernelVirtBase` on. -/
abbrev Memory := Nat → BitVec 8

def read16 (mem : Memory) (a : Nat) : Nat := (mem a).toNat + 256 * (mem (a + 1)).toNat

def read32 (mem : Memory) (a : Nat) : Nat := read16 mem a + 65536 * read16 mem (a + 2)

def byteSum (mem : Memory) (a len : Nat) : BitVec 8 := (List.range len).foldl (fun sum i => sum + mem (a + i)) 0

def rsdpRev (mem : Memory) (a : Nat) : Nat := (mem (a + 15)).toNat
def rsdpRsdt (mem : Memory) (a : Nat) : Nat := read32 mem (a + 16)
def rsdpLength (mem : Memory) (a : Nat) : Nat := read32 mem (a + 20)

def acpiValidateRsdp (mem : Memory) (a : Nat) : Int :=
  if 36 < rsdpLength mem a then -1
  else if byteSum mem a (rsdpLength mem a) ≠ 0 then 1 else 0

def rsdpSignature : List (BitVec 8) := [0x52, 0x53, 0x44, 0x20, 0x50, 0x54, 0x52, 0x20]

/-- The tests that both loops of `x86_acpi_init` make. -/
def Accepted (mem : Memory) (a : Nat) : Prop := strncmpAt mem a rsdpSignature 8 = 0 ∧ acpiValidateRsdp mem a = 0

instance decidableAccepted (mem : Memory) (a : Nat) : Decidable (Accepted mem a) := inferInstanceAs (Decidable (_ ∧ _))

/-- A loop of `x86_acpi_init`: the address at which it breaks. -/
def rsdpScan (mem : Memory) (limit a : Nat) : Option Nat :=
  if a < limit then if Accepted mem a then some a else rsdpScan mem limit (a + 4)
  else none
termination_by limit - a

def ebdaBase (mem : Memory) : Nat := read16 mem (0x040E + kernelVirtBase) <<< 4

/-- The address of the RSDT, and the structure that it was taken from. -/
structure Root where
  addr : Option Nat
  rsdt : Nat

def Root.after (mem : Memory) (root : Root) : Option Nat → Root
  | none => root
  | some addr => ⟨some addr, rsdpRsdt mem addr⟩

/-- `x86_acpi_init` up to the assertion that it has a root pointer. -/
def x86AcpiInit (mem : Memory) : Except Fault Root :=
  let root : Root := ⟨none, 0⟩
  let root := root.after mem (rsdpScan mem (0xA0000 - 4) (ebdaBase mem + kernelVirtBase))
  let root := root.after mem (rsdpScan mem (0x100000 + kernelVirtBase - 4) (0xE0000 + kernelVirtBase))
  if root.rsdt ≠ 0 then .ok root else .error (assertionFailed "rsdt != 0")

end Source

section Pointers

structure RootPointer (mem : Memory) (p : Nat) : Prop where
  signature : ∀ i < 8, mem (p + kernelVirtBase + i) = rsdpSignature.getD i 0
  checksum : byteSum mem (p + kernelVirtBase) 20 = 0
  extended : 2 ≤ rsdpRev mem (p + kernelVirtBase) →
    byteSum mem (p + kernelVirtBase) (rsdpLength mem (p + kernelVirtBase)) = 0

structure Inside (mem : Memory) (p lo hi : Nat) : Prop where
  first : lo ≤ p
  last : p + 20 ≤ hi
  extended : 2 ≤ rsdpRev mem (p + kernelVirtBase) → p + rsdpLength mem (p + kernelVirtBase) ≤ hi

structure ValidRoot (mem : Memory) (p : Nat) : Prop where
  pointer : RootPointer mem p
  area : Inside mem p (ebdaBase mem) 0xA0000 ∨ Inside mem p 0xE0000 0x100000

/-- The structure that the RSDT address is taken from is a valid root pointer, and one is found if a valid
root pointer lies at a 16-byte boundary. -/
structure FindsRoot (mem : Memory) : Prop where
  sound : ∀ root, x86AcpiInit mem = .ok root → ∃ p, root.addr = some (p + kernelVirtBase) ∧ ValidRoot mem p ∧
    root.rsdt = rsdpRsdt mem (p + kernelVirtBase)
  complete : (∃ p, 16 ∣ p ∧ ValidRoot mem p) → ∃ root, x86AcpiInit mem = .ok root

structure FirstAccepted (mem : Memory) (a : Nat) : Prop where
  accepted : Accepted mem a
  place : 0xE0000 + kernelVirtBase ≤ a ∧ a < 0x100000 + kernelVirtBase - 4 ∧ 4 ∣ a
  first : ∀ b, 0xE0000 + kernelVirtBase ≤ b → b < a → 4 ∣ b → ¬Accepted mem b

end Pointers

section Scan

variable {mem : Memory} {limit a : Nat}

theorem rsdpScan_some {b : Nat} (h : rsdpScan mem limit a = some b) :
    Accepted mem b ∧ (a ≤ b ∧ b < limit ∧ 4 ∣ b - a) ∧ ∀ c, a ≤ c → c < b → 4 ∣ c - a → ¬Accepted mem c := by
  fun_induction rsdpScan mem limit a with
  | case1 a hlt hacc =>
    obtain rfl := Option.some.inj h
    exact ⟨hacc, ⟨le_rfl, hlt, by rw [Nat.sub_self]; exact dvd_zero 4⟩, fun c hle hlt => absurd hlt (by omega)⟩
  | case2 a hlt hacc ih =>
    obtain ⟨hb, ⟨hle, hlimit, hdvd⟩, hfirst⟩ := ih h
    refine ⟨hb, ⟨by omega, hlimit, by omega⟩, fun c hc hcb hdc => ?_⟩
    by_cases hca : c = a
    · exact hca ▸ hacc
    · exact hfirst c (by omega) hcb (by omega)
  | case3 => cases h

theorem rsdpScan_none (h : rsdpScan mem limit a = none) {c : Nat} (hle : a ≤ c) (hlt : c < limit) (hdvd : 4 ∣ c - a) :
    ¬Accepted mem c := by
  fun_induction rsdpScan mem limit a with
  | case1 => cases h
  | case2 a _ hacc ih =>
    by_cases hca : c = a
    · exact hca ▸ hacc
    · exact ih h (by omega) (by omega)
  | case3 a hge => exact absurd hlt (by omega)

/-- The loop over the EBDA compares an address of the kernel with a physical one, and so it has no round. -/
theorem ebda_scan (mem : Memory) : rsdpScan mem (0xA0000 - 4) (ebdaBase mem + kernelVirtBase) = none := by
  rw [rsdpScan, if_neg (by unfold kernelVirtBase; omega)]

theorem x86AcpiInit_ok {root : Root} : x86AcpiInit mem = .ok root ↔
    ∃ a, FirstAccepted mem a ∧ rsdpRsdt mem a ≠ 0 ∧ root = ⟨some a, rsdpRsdt mem a⟩ := by
  unfold x86AcpiInit
  rw [ebda_scan]
  cases hscan : rsdpScan mem (0x100000 + kernelVirtBase - 4) (0xE0000 + kernelVirtBase) with
  | none =>
    constructor
    · exact fun h => nomatch h
    · rintro ⟨a, ⟨hacc, ⟨hle, hlt, hdvd⟩, -⟩, -⟩
      exact absurd hacc (rsdpScan_none hscan hle hlt (Nat.dvd_sub hdvd (by decide)))
  | some a =>
    obtain ⟨hacc, ⟨hle, hlt, hdvd⟩, hfirst⟩ := rsdpScan_some hscan
    have hbase : 4 ∣ 0xE0000 + kernelVirtBase := by decide
    have ha : FirstAccepted mem a :=
      ⟨hacc, ⟨hle, hlt, (Nat.dvd_sub_iff_left hle hbase).mp hdvd⟩, fun b hb hlt hdb => hfirst b hb hlt (Nat.dvd_sub hdb hbase)⟩
    have hsame : ∀ b, FirstAccepted mem b → b = a := by
      intro b hb
      rcases Nat.lt_trichotomy b a with h | h | h
      · exact absurd hb.accepted (ha.first b hb.place.1 h hb.place.2.2)
      · exact h
      · exact absurd hacc (hb.first a hle h ha.place.2.2)
    dsimp only [Root.after]
    by_cases hzero : rsdpRsdt mem a = 0
    · rw [if_neg (not_not.mpr hzero)]
      constructor
      · exact fun h => nomatch h
      · rintro ⟨b, hb, hne, -⟩
        exact absurd (hsame b hb ▸ hzero) hne
    · rw [if_pos hzero]
      constructor
      · intro h
        exact ⟨a, ha, hzero, (Except.ok.inj h).symm⟩
      · rintro ⟨b, hb, -, rfl⟩
        rw [hsame b hb]

theorem signature_of_accepted (h : Accepted mem a) : ∀ i < 8, mem (a + i) = rsdpSignature.getD i 0 := by
  intro i hi
  have hbytes : loadBytes mem a 8 = rsdpSignature := loadBytes_of_strncmpAt (b := rsdpSignature) (by decide) h.1
  rw [← hbytes, getD_loadBytes mem a hi]

theorem byteSum_of_accepted (h : Accepted mem a) : byteSum mem a (rsdpLength mem a) = 0 := by
  have hvalid := h.2
  unfold acpiValidateRsdp at hvalid
  by_cases hlen : 36 < rsdpLength mem a
  · rw [if_pos hlen] at hvalid
    cases hvalid
  rw [if_neg hlen] at hvalid
  by_contra hsum
  rw [if_pos hsum] at hvalid
  cases hvalid

/-- What the code does not look at: the checksum of the first 20 bytes, and the end of the area. -/
structure Checked (mem : Memory) (a : Nat) : Prop where
  checksum : byteSum mem a 20 = 0
  last : a + 20 ≤ 0x100000 + kernelVirtBase
  extended : 2 ≤ rsdpRev mem a → a + rsdpLength mem a ≤ 0x100000 + kernelVirtBase

theorem validRoot_of_checked (h : FirstAccepted mem a) (hchecked : Checked mem a) :
    ValidRoot mem (a - kernelVirtBase) ∧ a - kernelVirtBase + kernelVirtBase = a := by
  have hplace := h.place.1
  have hback : a - kernelVirtBase + kernelVirtBase = a := Nat.sub_add_cancel (by omega)
  have hsignature := signature_of_accepted h.accepted
  have hlast := hchecked.last
  refine ⟨⟨⟨?_, ?_, fun _ => ?_⟩, .inr ⟨by omega, by omega, fun hrev => ?_⟩⟩, hback⟩
  · rwa [hback]
  · rw [hback]
    exact hchecked.checksum
  · rw [hback]
    exact byteSum_of_accepted h.accepted
  · rw [hback] at hrev ⊢
    have hextended := hchecked.extended hrev
    omega

theorem ValidRoot.checked {p : Nat} (h : ValidRoot mem p) (hp : 0xE0000 ≤ p) : Checked mem (p + kernelVirtBase) := by
  have harea : Inside mem p 0xE0000 0x100000 := by
    refine h.area.resolve_left fun hlow => ?_
    have := hlow.last
    omega
  have hlast := harea.last
  refine ⟨h.pointer.checksum, by omega, fun hrev => ?_⟩
  have := harea.extended hrev
  omega

/-- The first structure that the code accepts has an RSDT address and the checks that the code leaves
out; or none that is accepted has an RSDT address, and there is nothing to find. -/
def RootCondition (mem : Memory) : Prop :=
  (∃ a, FirstAccepted mem a ∧ rsdpRsdt mem a ≠ 0 ∧ Checked mem a) ∨
    ((∀ a, FirstAccepted mem a → rsdpRsdt mem a = 0) ∧ ∀ p, 16 ∣ p → ¬ValidRoot mem p)

/-- The root pointer of `x86_acpi_init` is found where it may be, and valid, exactly in these memories. -/
theorem finds_root_iff (mem : Memory) : FindsRoot mem ↔ RootCondition mem := by
  constructor
  · intro h
    by_cases hfound : ∃ root, x86AcpiInit mem = .ok root
    · obtain ⟨root, hroot⟩ := hfound
      obtain ⟨a, ha, hne, rfl⟩ := x86AcpiInit_ok.mp hroot
      obtain ⟨p, haddr, hvalid, -⟩ := h.sound _ hroot
      obtain rfl := Option.some.inj haddr
      have hplace := ha.place.1
      exact .inl ⟨_, ha, hne, hvalid.checked (by omega)⟩
    · refine .inr ⟨fun a ha => ?_, fun p hp hvalid => hfound (h.complete ⟨p, hp, hvalid⟩)⟩
      by_contra hne
      exact hfound ⟨_, x86AcpiInit_ok.mpr ⟨a, ha, hne, rfl⟩⟩
  · rintro (⟨a, ha, hne, hchecked⟩ | ⟨hzero, hnone⟩)
    · have hroot := x86AcpiInit_ok.mpr ⟨a, ha, hne, rfl⟩
      refine ⟨fun root hroot' => ?_, fun _ => ⟨_, hroot⟩⟩
      obtain rfl := Except.ok.inj (hroot.symm.trans hroot')
      obtain ⟨hvalid, hback⟩ := validRoot_of_checked ha hchecked
      exact ⟨_, congrArg some hback.symm, hvalid, congrArg (rsdpRsdt mem) hback.symm⟩
    · refine ⟨fun root hroot => ?_, fun ⟨p, hp, hvalid⟩ => absurd hvalid (hnone p hp)⟩
      obtain ⟨a, ha, hne, -⟩ := x86AcpiInit_ok.mp hroot
      exact absurd (hzero a ha) hne

/-- A valid root pointer of revision 0 in an EBDA at 0x9FC00, and nothing else. -/
def ebdaMemory : Memory := fun x =>
  if x = 0xC000040E then 0xC0
  else if x = 0xC000040F then 0x9F
  else if 0xC009FC00 ≤ x ∧ x < 0xC009FC14 then
    [0x52, 0x53, 0x44, 0x20, 0x50, 0x54, 0x52, 0x20, 0xD1, 0, 0, 0, 0, 0, 0, 0, 0, 0x10, 0, 0].getD (x - 0xC009FC00) 0
  else 0

/-- The root pointer in the EBDA is missed. -/
theorem ebda_root_missed : ValidRoot ebdaMemory 0x9FC00 ∧ ¬FindsRoot ebdaMemory := by
  have hvalid : ValidRoot ebdaMemory 0x9FC00 :=
    ⟨⟨by decide +kernel, by decide +kernel, by decide +kernel⟩, .inl ⟨by decide +kernel, by decide, by decide +kernel⟩⟩
  refine ⟨hvalid, fun hfinds => ?_⟩
  obtain ⟨root, hroot⟩ := hfinds.complete ⟨_, by decide, hvalid⟩
  obtain ⟨a, ha, -⟩ := x86AcpiInit_ok.mp hroot
  have hplace := ha.place.1
  have hsignature := signature_of_accepted ha.accepted 0 (by decide)
  have hzero : ebdaMemory (a + 0) = 0 := by
    unfold kernelVirtBase at hplace
    unfold ebdaMemory
    rw [if_neg (by omega), if_neg (by omega), if_neg (by omega)]
  rw [hzero] at hsignature
  exact absurd hsignature (by decide)

end Scan

end YggKernel.Hw
