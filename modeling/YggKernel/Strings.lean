import YggKernel.Lib.Buffers
import YggKernel.Lib.ByteMemory

namespace YggKernel.Strings

open Lib.Buffers Lib.ByteMemory

/-- A type of characters, with the one that ends a string. -/
class Nul (α : Type) where
  nul : α

export Nul (nul)

instance : Nul Char := ⟨'\x00'⟩

instance (w : Nat) : Nul (BitVec w) := ⟨0⟩

@[simp] theorem nul_char : (nul : Char) = '\x00' := rfl

@[simp] theorem nul_bitVec (w : Nat) : (nul : BitVec w) = 0 := rfl

/-- A copy may read behind the end of its source and write behind the end of its target. -/
inductive Overrun
  | source
  | target

variable {α : Type} [DecidableEq α] [Nul α]

section Source

/-- A pointer into a buffer is what stands from there to the end of the buffer. None stands for a
read behind the end. -/
def strlen : List α → Option Nat
  | [] => none
  | x :: s => if x = nul then some 0 else do return (← strlen s) + 1

def strncmp : List α → List α → Nat → Option Nat
  | x :: a, y :: b, l =>
    if l = 0 ∨ x = nul ∨ y = nul then some (if x ≠ y ∧ l ≠ 0 then 1 else 0)
    else if x ≠ y then some 1
    else strncmp a b (l - 1)
  | _, _, _ => none

def strcmp (a b : List α) : Option Nat := strncmp a b 0xFFFFFFFF

/-- The inner none stands for the null pointer. -/
def strchr : List α → α → Option (Option (List α))
  | [], _ => none
  | x :: s, c => if x = nul then some none else if x = c then some (some (x :: s)) else strchr s c

def strchrnul : List α → α → Option (List α)
  | [], _ => none
  | x :: s, c => if x = nul ∨ x = c then some (x :: s) else strchrnul s c

def strcpy : Nat → List α → Except Overrun (List α)
  | _, [] => .error .source
  | 0, _ :: _ => .error .target
  | n + 1, x :: s => if x = nul then .ok [] else do return x :: (← strcpy n s)

def memset (b : List α) (p : Nat) (c : α) (l : Nat) : Option (List α) := storeAll b p (List.replicate l c)

def strncmpAt (m : Mem) : Nat → List (BitVec 8) → Nat → Nat
  | _, _, 0 => 0
  | a, b, l + 1 =>
    if m a ≠ 0 ∧ b.headD 0 ≠ 0 then
      if m a ≠ b.headD 0 then 1 else strncmpAt m (a + 1) b.tail l
    else if m a ≠ b.headD 0 then 1
    else 0

def memsetAt (m : Mem) (block : Nat) (v : BitVec 8) (len : Nat) : Mem :=
  fun x => if block ≤ x ∧ x < block + len then v else m x

end Source

section Comparison

variable {a b u v : List α} {l : Nat}

theorem strlen_eq (h : nul ∉ u) : strlen (u ++ nul :: v) = some u.length := by
  induction u with
  | nil => rw [List.nil_append, strlen, if_pos rfl, List.length_nil]
  | cons x u ih =>
    rw [List.mem_cons, not_or] at h
    rw [List.cons_append, strlen, if_neg (Ne.symm h.1), ih h.2]
    rfl

theorem strncmp_eq (hu : nul ∉ u) (hv : nul ∉ v) :
    strncmp (u ++ nul :: a) (v ++ nul :: b) l = some (if u.take l = v.take l then 0 else 1) := by
  induction u generalizing v l with
  | nil =>
    cases v with
    | nil => simp [strncmp]
    | cons y v =>
      rw [List.mem_cons, not_or] at hv
      cases l with
      | zero => simp [strncmp]
      | succ l => simp [strncmp, hv.1]
  | cons x u ih =>
    rw [List.mem_cons, not_or] at hu
    have hx := Ne.symm hu.1
    cases l with
    | zero => cases v <;> simp [strncmp]
    | succ l =>
      cases v with
      | nil => simp [strncmp, hx]
      | cons y v =>
        rw [List.mem_cons, not_or] at hv
        have hy := Ne.symm hv.1
        rw [List.cons_append, List.cons_append, strncmp, if_neg (by simp [hx, hy]), Nat.add_sub_cancel, ih hu.2 hv.2]
        by_cases hxy : x = y
        · simp [hxy]
        · simp [hxy]

theorem strncmp_prefix {x y : α} (ha : nul ∉ a) (hb : nul ∉ b) (hlen : a.length = b.length) :
    strncmp (a ++ x :: u) (b ++ y :: v) a.length = some (if a = b then 0 else 1) := by
  induction a generalizing b with
  | nil =>
    obtain rfl := List.eq_nil_of_length_eq_zero hlen.symm
    simp [strncmp]
  | cons c a ih =>
    cases b with
    | nil => cases hlen
    | cons d b =>
      rw [List.mem_cons, not_or] at ha hb
      rw [List.cons_append, List.cons_append, List.length_cons, strncmp,
        if_neg (by simp [Ne.symm ha.1, Ne.symm hb.1]), Nat.add_sub_cancel]
      by_cases hcd : c = d
      · rw [if_neg (by simp [hcd]), ih ha.2 hb.2 (Nat.succ_inj.mp hlen)]
        simp [hcd]
      · simp [hcd]

end Comparison

section Search

variable {a u : List α} {c x : α}

theorem strchr_skip (ha : nul ∉ a) (hc : c ∉ a) : strchr (a ++ u) c = strchr u c := by
  induction a with
  | nil => rfl
  | cons x a ih =>
    rw [List.mem_cons, not_or] at ha hc
    rw [List.cons_append, strchr, if_neg (Ne.symm ha.1), if_neg (Ne.symm hc.1), ih ha.2 hc.2]

theorem strchr_eq (hx : c ≠ nul) (ha : nul ∉ a) (hc : c ∉ a) : strchr (a ++ c :: u) c = some (some (c :: u)) := by
  rw [strchr_skip ha hc, strchr, if_neg hx, if_pos rfl]

theorem strchr_none (ha : nul ∉ a) (hc : c ∉ a) : strchr (a ++ nul :: u) c = some none := by
  rw [strchr_skip ha hc, strchr, if_pos rfl]

theorem strchr_terminated (ha : nul ∉ a) (u : List α) (c : α) : ∃ r, strchr (a ++ nul :: u) c = some r := by
  induction a with
  | nil => exact ⟨none, if_pos rfl⟩
  | cons x a ih =>
    rw [List.mem_cons, not_or] at ha
    rw [List.cons_append, strchr, if_neg (Ne.symm ha.1)]
    by_cases hxc : x = c
    · exact ⟨_, if_pos hxc⟩
    · rw [if_neg hxc]
      exact ih ha.2

theorem strchr_found {r : List α} (h : strchr u c = some (some r)) : ∃ v, r = c :: v := by
  induction u with
  | nil => cases h
  | cons x u ih =>
    rw [strchr] at h
    by_cases hx : x = nul
    · rw [if_pos hx] at h
      cases h
    · rw [if_neg hx] at h
      by_cases hc : x = c
      · rw [if_pos hc, hc] at h
        exact ⟨u, (Option.some.inj (Option.some.inj h)).symm⟩
      · rw [if_neg hc] at h
        exact ih h

theorem strchrnul_skip (ha : nul ∉ a) (hc : c ∉ a) : strchrnul (a ++ u) c = strchrnul u c := by
  induction a with
  | nil => rfl
  | cons x a ih =>
    rw [List.mem_cons, not_or] at ha hc
    rw [List.cons_append, strchrnul, if_neg (by simp [Ne.symm ha.1, Ne.symm hc.1]), ih ha.2 hc.2]

theorem strchrnul_here (hx : x = nul ∨ x = c) : strchrnul (x :: u) c = some (x :: u) := if_pos hx

end Search

section Copies

variable {s t u : List α} {n : Nat}

theorem strcpy_eq (ht : nul ∉ t) : strcpy n (t ++ nul :: u) = if t.length < n then .ok t else .error .target := by
  induction t generalizing n with
  | nil =>
    cases n with
    | zero => rfl
    | succ n => exact (if_pos rfl).trans (if_pos (Nat.succ_pos n)).symm
  | cons x t ih =>
    rw [List.mem_cons, not_or] at ht
    cases n with
    | zero => rfl
    | succ n =>
      rw [List.cons_append, strcpy, if_neg (Ne.symm ht.1), ih ht.2, List.length_cons]
      by_cases hlt : t.length < n
      · rw [if_pos hlt, if_pos (Nat.succ_lt_succ hlt)]
        rfl
      · rw [if_neg hlt, if_neg fun h => hlt (Nat.lt_of_succ_lt_succ h)]
        rfl

theorem length_strcpy (h : strcpy n s = .ok t) : t.length < n := by
  induction n generalizing s t with
  | zero => cases s <;> cases h
  | succ n ih =>
    cases s with
    | nil => cases h
    | cons x s =>
      rw [strcpy] at h
      by_cases hx : x = nul
      · rw [if_pos hx] at h
        rw [← Except.ok.inj h]
        exact Nat.succ_pos n
      · rw [if_neg hx] at h
        cases hrest : strcpy n s with
        | error fault =>
          rw [hrest] at h
          cases h
        | ok t' =>
          rw [hrest] at h
          rw [← Except.ok.inj h]
          exact Nat.succ_lt_succ (ih hrest)

end Copies

section Memory

variable {m : Mem} {a : Nat} {b : List (BitVec 8)}

/-- A comparison up to the length of a field finds no difference when the string is what stands
in the field before its terminator. -/
theorem strncmpAt_eq_zero (hb : ∀ c ∈ b, c ≠ 0) {n : Nat} (hn : b.length ≤ n) :
    strncmpAt m a b n = 0 ↔ (loadBytes m a n).takeWhile (· ≠ 0) = b := by
  induction n generalizing a b with
  | zero =>
    obtain rfl := List.eq_nil_of_length_eq_zero (Nat.le_zero.mp hn)
    exact ⟨fun _ => rfl, fun _ => rfl⟩
  | succ n ih =>
    cases b with
    | nil =>
      rw [strncmpAt, loadBytes, List.takeWhile_cons]
      by_cases hzero : m a = 0 <;> simp [hzero]
    | cons c b =>
      have hc := hb c (List.mem_cons_self ..)
      have hrest := ih (a := a + 1) (fun x hx => hb x (List.mem_cons_of_mem _ hx)) (Nat.le_of_succ_le_succ hn)
      rw [strncmpAt, loadBytes, List.takeWhile_cons, List.headD_cons, List.tail_cons]
      by_cases hzero : m a = 0
      · have hne : m a ≠ c := hzero ▸ Ne.symm hc
        rw [if_neg fun h => h.1 hzero, if_pos hne]
        simp [hzero]
      · by_cases heq : m a = c
        · rw [if_pos ⟨hzero, hc⟩, if_neg (not_not_intro heq), if_pos (by simpa using hzero), hrest, heq]
          simp
        · rw [if_pos ⟨hzero, hc⟩, if_pos heq, if_pos (by simpa using hzero)]
          simp [heq]

theorem loadBytes_of_strncmpAt (hb : ∀ c ∈ b, c ≠ 0) (h : strncmpAt m a b b.length = 0) : loadBytes m a b.length = b := by
  have hwhile := (strncmpAt_eq_zero hb le_rfl).mp h
  have hpre := List.takeWhile_prefix (· ≠ 0) (l := loadBytes m a b.length)
  rw [hwhile] at hpre
  exact (hpre.eq_of_length (length_loadBytes m a b.length).symm).symm

end Memory

end YggKernel.Strings
