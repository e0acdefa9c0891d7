import YggKernel.Fault
import YggKernel.Strings

namespace YggKernel.Vfs

/-- A pointer into a buffer, as the characters from there to the end of the buffer. -/
abbrev Ptr := List Char

/-- The result of a function of the C library; reading behind a buffer is a fault. -/
abbrev Res := Except Fault

def behind {α : Type} : Res α := .error (.outOfBounds 0)

def inBuffer {α : Type} (x : Option α) : Res α := x.elim behind .ok

def strncmp (a b : Ptr) (l : Nat) : Res Nat := inBuffer (Strings.strncmp a b l)

def strcmp (a b : Ptr) : Res Nat := inBuffer (Strings.strcmp a b)

def strchr (s : Ptr) (c : Char) : Res (Option Ptr) := inBuffer (Strings.strchr s c)

def strchrnul (s : Ptr) (c : Char) : Res Ptr := inBuffer (Strings.strchrnul s c)

def strEnd (s : Ptr) : Ptr := s.dropWhile (· ≠ '\x00')

section Comparison

variable {a b u v : List Char} {l : Nat}

def Terminated (a : List Char) : Prop := ∀ c ∈ a, c ≠ '\x00'

instance (a : List Char) : Decidable (Terminated a) := List.decidableBAll (fun c => c ≠ '\x00') a

theorem Terminated.noNul (h : Terminated a) : Strings.nul ∉ a := fun hmem => h _ hmem rfl

theorem strcmp_eq (ha : Terminated a) (hb : Terminated b) (hlen : a.length < 0xFFFFFFFF) :
    strcmp (a ++ '\x00' :: u) (b ++ '\x00' :: v) = .ok (if a = b then 0 else 1) := by
  have hsame : a = b.take 0xFFFFFFFF ↔ a = b := by
    constructor
    · intro h
      have hshort := congrArg List.length h
      rw [List.length_take] at hshort
      rwa [List.take_of_length_le (by omega)] at h
    · rintro rfl
      rw [List.take_of_length_le hlen.le]
  rw [strcmp, Strings.strcmp, ← Strings.nul_char, Strings.strncmp_eq ha.noNul hb.noNul, List.take_of_length_le hlen.le]
  exact congrArg Except.ok (if_congr hsame rfl rfl)

theorem strncmp_prefix {x y : Char} (ha : Terminated a) (hb : Terminated b) (hlen : a.length = b.length) :
    strncmp (a ++ x :: u) (b ++ y :: v) a.length = .ok (if a = b then 0 else 1) :=
  congrArg inBuffer (Strings.strncmp_prefix ha.noNul hb.noNul hlen)

end Comparison

section Search

variable {a u : List Char} {c : Char}

theorem strchrnul_skip (ha : Terminated a) (hc : c ∉ a) : strchrnul (a ++ u) c = strchrnul u c :=
  congrArg inBuffer (Strings.strchrnul_skip ha.noNul hc)

theorem strchrnul_here {x : Char} (hx : x = '\x00' ∨ x = c) : strchrnul (x :: u) c = .ok (x :: u) :=
  congrArg inBuffer (Strings.strchrnul_here hx)

theorem strEnd_append (ha : Terminated a) : strEnd (a ++ '\x00' :: u) = '\x00' :: u := by
  unfold strEnd
  rw [List.dropWhile_append_of_pos fun c hc => by simpa using ha c hc, List.dropWhile_cons_of_neg (by decide)]

theorem strchr_eq (hx : c ≠ '\x00') (ha : Terminated a) (hc : c ∉ a) : strchr (a ++ c :: u) c = .ok (some (c :: u)) :=
  congrArg inBuffer (Strings.strchr_eq hx ha.noNul hc)

end Search

end YggKernel.Vfs
