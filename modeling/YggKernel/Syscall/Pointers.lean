import YggKernel.Paging.Strings

namespace YggKernel.Syscall

open Lib.Program Lib.ByteMemory Paging

def InUserSpace (user count : Nat) : Prop := user + count ≤ kernelVirtBase

/-- A call returns its failure value, and memory and the mappings of `mm_kernel` are as before. -/
def Refused {α : Type} (p : Prog Fault Machine α) (failed : α → Prop) (s : Machine) : Prop :=
  ∃ a t, p s = .ok (a, t) ∧ failed a ∧ t.mem = s.mem ∧ ∀ v, translation t t.mmKernel v = translation s s.mmKernel v

section Returns

variable {s : Machine} {pd buf user count page dst off copied i n : Nat} {pages : List Nat}

theorem not_refused {α : Type} {p : Prog Fault Machine α} {failed : α → Prop} (h : wp p anyFault (fun a _ => ¬failed a) s) :
    ¬Refused p failed s := by
  rintro ⟨a, t, hrun, hfailed, -⟩
  exact (wp_of_run hrun).mp h hfailed

theorem copyPart_bounded (n off copied : Nat) (hcount : count < 4294967296) :
    wp (copyPart page dst count off n copied) anyFault
      (fun a _ => a.2 ≤ copied + n ∧ (copied < count → a.2 ≤ count ∧ (a.1 = false → a.2 < count))) s := by
  induction n generalizing off copied s with
  | zero => exact ⟨le_rfl, fun h => ⟨h.le, fun _ => h⟩⟩
  | succ n ih =>
    rw [copyPart, wp_bind]
    refine wp_imp (wp_anyFault _ _) fun b t _ => ?_
    by_cases hstop : b = 0 ∨ copied = sub32 count 1
    · rw [if_pos hstop, wp_bind]
      refine wp_imp (wp_anyFault _ _) fun _ u _ => ?_
      exact ⟨by omega, fun h => ⟨h, fun hno => Bool.noConfusion hno⟩⟩
    · rw [if_neg hstop, wp_bind]
      refine wp_imp (wp_anyFault _ _) fun _ u _ => ?_
      rw [wp_bind]
      refine wp_imp (wp_anyFault _ _) fun _ v _ => ?_
      refine wp_imp (ih _ _) ?_
      rintro a w ⟨hle, hroom⟩
      refine ⟨by omega, fun h => hroom ?_⟩
      have hlast : copied ≠ count - 1 := fun heq => hstop (.inr (by rw [sub32_of_le hcount (by omega), heq]))
      omega

theorem copyParts_bounded (n i copied : Nat) (hcount : count < 4294967296) :
    wp (copyParts pd dst user count i n pages copied) anyFault
      (fun a _ => a.1 ≤ copied + 4096 * n ∧ (copied < count → a.1 ≤ count)) s := by
  induction n generalizing i pages copied s with
  | zero =>
    rw [copyParts, wp_bind]
    exact wp_imp (wp_anyFault _ _) fun _ _ _ => ⟨le_rfl, le_of_lt⟩
  | succ n ih =>
    have hpart : ∀ page, (userPart user count page).2 ≤ 4096 := fun page => by
      unfold userPart
      dsimp only
      split <;> omega
    rw [copyParts]
    dsimp only
    generalize u32 ((user &&& pageMask) + i * 0x1000) = page
    have hle := hpart page
    rw [wp_bind]
    refine wp_imp (wp_anyFault _ _) fun _ t _ => ?_
    rw [wp_bind]
    refine wp_imp (copyPart_bounded _ _ _ hcount) ?_
    rintro ⟨done, c⟩ u ⟨hc, hroom⟩
    rw [wp_bind]
    refine wp_imp (wp_anyFault _ _) fun _ v _ => ?_
    dsimp only at hc hroom ⊢
    cases done with
    | true => exact ⟨by omega, fun h => (hroom h).1⟩
    | false =>
      refine wp_imp (ih _ _) ?_
      rintro a w ⟨ha, hroom'⟩
      exact ⟨by omega, fun h => hroom' ((hroom h).2 rfl)⟩

theorem strncpy_ne_failure (hcount : count < 4294967296) :
    wp (strncpyUserToKernel pd dst user count) anyFault (fun a _ => u32 a.1 ≠ 0xFFFFFFFF) s := by
  refine wp_imp (copyParts_bounded _ _ _ hcount) ?_
  rintro a t ⟨hpages, hroom⟩
  have hlt : a.1 < 4294967295 := by
    -- the number of pages of a count in the last page of memory wraps around
    unfold alignUpPage at hpages
    rw [and_pageMask (u32_lt _)] at hpages
    unfold u32 at hpages
    omega
  rw [u32_of_lt (by omega)]
  omega

theorem refuses_iff {α : Type} {p : Prog Fault Machine α} {failed : α → Prop} {inside : Prop} (h : ¬Refused p failed s) :
    (¬inside → Refused p failed s) ↔ inside :=
  ⟨fun hall => not_not.mp fun hno => h (hall hno), fun hin hno => absurd hin hno⟩

/-- None of the three user copies refuses a range outside of user space: what is asked of them holds only where nothing is. -/
theorem user_copies_refuse_iff (pd buf user : Nat) (s : Machine) (hcount : count < 4294967296) :
    ((¬InUserSpace user count → Refused (memcpyUserToKernel pd buf user count) (· ≠ 0) s) ↔ InUserSpace user count) ∧
      ((¬InUserSpace user count → Refused (memcpyKernelToUser pd user buf count) (· ≠ 0) s) ↔ InUserSpace user count) ∧
      ((¬user < kernelVirtBase → Refused (strncpyUserToKernel pd buf user count) (fun a => u32 a.1 = 0xFFFFFFFF) s) ↔
        user < kernelVirtBase) := by
  refine ⟨refuses_iff (not_refused ?_), refuses_iff (not_refused ?_), refuses_iff (not_refused (strncpy_ne_failure hcount))⟩
  · rw [memcpyUserToKernel, wp_bind]
    exact wp_imp (wp_anyFault _ _) fun _ _ _ => not_not_intro rfl
  · rw [memcpyKernelToUser, wp_bind]
    exact wp_imp (wp_anyFault _ _) fun _ _ _ => not_not_intro rfl

end Returns

theorem user_copies_refuse_iff_one :
    ((¬InUserSpace 0xC0000000 1 → Refused (memcpyUserToKernel 0xC0200000 0xC0300000 0xC0000000 1) (· ≠ 0) windowMachine) ↔
        InUserSpace 0xC0000000 1) ∧
      ((¬InUserSpace 0xC0000000 1 → Refused (memcpyKernelToUser 0xC0200000 0xC0000000 0xC0300000 1) (· ≠ 0) windowMachine) ↔
        InUserSpace 0xC0000000 1) ∧
      ((¬0xC0000000 < kernelVirtBase →
        Refused (strncpyUserToKernel 0xC0200000 0xC0300000 0xC0000000 1) (fun a => u32 a.1 = 0xFFFFFFFF) windowMachine) ↔
        0xC0000000 < kernelVirtBase) :=
  user_copies_refuse_iff 0xC0200000 0xC0300000 0xC0000000 windowMachine (by decide)

/-- The first byte of the kernel lies on a page of 4 MiB, at which the copy panics. -/
theorem kernel_pointer_not_refused :
    ¬(¬InUserSpace 0xC0000000 1 → Refused (memcpyUserToKernel 0xC0200000 0xC0300000 0xC0000000 1) (· ≠ 0) windowMachine) := by
  intro h
  obtain ⟨a, t, hrun, -⟩ := h (by unfold InUserSpace; decide)
  have hpanic : (memcpyUserToKernel 0xC0200000 0xC0300000 0xC0000000 1 windowMachine).isOk = false := by decide +kernel
  rw [hrun] at hpanic
  cases hpanic

end YggKernel.Syscall
