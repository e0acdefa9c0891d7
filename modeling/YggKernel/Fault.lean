import YggKernel.Lib.Program

namespace YggKernel

open Lib.Program

inductive Fault
  | panic (msg : String)
  | outOfBounds (index : Nat)
  | pageFault (addr : Nat)
  | hang
  deriving DecidableEq, Repr

def assertionFailed (cond : String) : Fault :=
  .panic ("Assertion failed: " ++ cond ++ "\n")

def kassert {σ : Type} (c : Bool) (cond : String) : Prog Fault σ Unit :=
  if c then pure () else throw (assertionFailed cond)

@[simp] theorem wp_kassert {σ : Type} {E : Fault → Prop} (c : Bool) (cond : String)
    (Q : Unit → σ → Prop) (s : σ) :
    wp (kassert c cond) E Q s ↔ (c = true → Q () s) ∧ (c = false → E (assertionFailed cond)) := by
  cases c <;> simp [kassert]

@[irreducible] def u32 (n : Nat) : Nat := n % 4294967296

theorem u32_lt (n : Nat) : u32 n < 4294967296 := by
  unfold u32
  omega

theorem u32_of_lt {n : Nat} (h : n < 4294967296) : u32 n = n := by
  unfold u32
  omega

@[irreducible] def sub32 (a b : Nat) : Nat := (a + 4294967296 - b) % 4294967296

theorem sub32_of_le {a b : Nat} (ha : a < 4294967296) (h : b ≤ a) : sub32 a b = a - b := by
  unfold sub32
  omega

def mmNaddr : Nat := 0xFFFFFFFF

def kernelVirtBase : Nat := 0xC0000000

def mmFlgWr : Nat := 1 <<< 1
def mmFlgUs : Nat := 1 <<< 2
def mmFlgPs : Nat := 1 <<< 7
def mmFlgMerge : Nat := 1 <<< 29
def mmFlgNophys : Nat := 1 <<< 30

end YggKernel
