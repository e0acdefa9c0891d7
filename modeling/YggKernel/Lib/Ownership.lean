import Mathlib.Data.List.Perm.Basic
import Mathlib.Data.List.Nodup

namespace YggKernel.Lib.Ownership

open scoped List

variable {α β : Type}

/-- Every allocation of a block was followed by one free, but for the blocks that are held now, each in
one place. -/
structure Accounted (allocs frees held : List α) : Prop where
  perm : allocs.Perm (frees ++ held)
  nodup : held.Nodup

section Owners

variable [DecidableEq β] {owners : List β} {f g : β → List α} {x y : β} {b : α}

theorem flatMap_split (f : β → List α) (hx : x ∈ owners) :
    (owners.flatMap f).Perm (f x ++ (owners.erase x).flatMap f) :=
  (List.perm_cons_erase hx).flatMap_right f

theorem flatMap_erase_congr (hnodup : owners.Nodup) (hsame : ∀ y ∈ owners, y ≠ x → g y = f y) :
    (owners.erase x).flatMap g = (owners.erase x).flatMap f := by
  refine List.flatMap_congr fun y hy => ?_
  obtain ⟨hne, hmem⟩ := hnodup.mem_erase_iff.mp hy
  exact hsame y hmem hne

theorem exchange {gone new : List α} (hnodup : owners.Nodup) (hx : x ∈ owners)
    (hsame : ∀ y ∈ owners, y ≠ x → g y = f y) (hself : (gone ++ g x).Perm (new ++ f x)) :
    (gone ++ owners.flatMap g).Perm (new ++ owners.flatMap f) := by
  calc gone ++ owners.flatMap g
      ~ gone ++ (g x ++ (owners.erase x).flatMap g) := (flatMap_split g hx).append_left gone
    _ = gone ++ g x ++ (owners.erase x).flatMap f := by rw [flatMap_erase_congr hnodup hsame, List.append_assoc]
    _ ~ new ++ f x ++ (owners.erase x).flatMap f := hself.append_right _
    _ = new ++ (f x ++ (owners.erase x).flatMap f) := List.append_assoc ..
    _ ~ new ++ owners.flatMap f := (flatMap_split f hx).symm.append_left new

theorem one_owner (hnodup : (owners.flatMap f).Nodup) (hx : x ∈ owners) (hy : y ∈ owners) (hbx : b ∈ f x)
    (hby : b ∈ f y) : x = y := by
  by_contra hne
  have hsplit := (flatMap_split f hx).nodup_iff.mp hnodup
  have hrest : b ∈ (owners.erase x).flatMap f :=
    List.mem_flatMap.mpr ⟨y, (List.mem_erase_of_ne (Ne.symm hne)).mpr hy, hby⟩
  exact (List.nodup_append.mp hsplit).2.2 b hbx b hrest rfl

omit [DecidableEq β] in
theorem flatMap_filter_perm (p : β → Bool) (f : β → List α) (owners : List β) :
    (owners.flatMap f).Perm ((owners.filter p).flatMap f ++ (owners.filter fun x => !p x).flatMap f) := by
  rw [← List.flatMap_append]
  exact (List.filter_append_perm p owners).symm.flatMap_right f

end Owners

variable {allocs frees held held' freed : List α} {b : α}

theorem Accounted.giveBack (h : Accounted allocs frees held) : Accounted (b :: allocs) (b :: frees) held :=
  ⟨h.perm.cons b, h.nodup⟩

theorem Accounted.free (h : Accounted allocs frees held) (hheld : held.Perm (freed ++ held')) :
    Accounted allocs (freed ++ frees) held' := by
  refine ⟨?_, (List.nodup_append.mp (hheld.nodup_iff.mp h.nodup)).2.1⟩
  calc allocs
      ~ frees ++ held := h.perm
    _ ~ frees ++ (freed ++ held') := hheld.append_left frees
    _ = frees ++ freed ++ held' := (List.append_assoc ..).symm
    _ ~ freed ++ frees ++ held' := List.perm_append_comm.append_right held'

variable [DecidableEq α]

theorem Accounted.count (h : Accounted allocs frees held) (b : α) :
    allocs.count b = frees.count b + if b ∈ held then 1 else 0 := by
  rw [h.perm.count_eq, List.count_append]
  by_cases hb : b ∈ held
  · rw [if_pos hb, List.count_eq_one_of_mem h.nodup hb]
  · rw [if_neg hb, List.count_eq_zero_of_not_mem hb]

theorem Accounted.live_iff (h : Accounted allocs frees held) : frees.count b < allocs.count b ↔ b ∈ held := by
  rw [h.count b]
  by_cases hb : b ∈ held
  · simp [hb]
  · simp [hb]

theorem Accounted.not_held (h : Accounted allocs frees held) (hfresh : allocs.count b = frees.count b) : b ∉ held := by
  rw [← h.live_iff, hfresh]
  exact Nat.lt_irrefl _

theorem Accounted.alloc (h : Accounted allocs frees held) (hfresh : allocs.count b = frees.count b)
    (hheld : held'.Perm (b :: held)) : Accounted (b :: allocs) frees held' := by
  refine ⟨?_, hheld.nodup_iff.mpr (List.nodup_cons.mpr ⟨h.not_held hfresh, h.nodup⟩)⟩
  calc b :: allocs
      ~ b :: (frees ++ held) := h.perm.cons b
    _ ~ frees ++ b :: held := List.perm_middle.symm
    _ ~ frees ++ held' := hheld.symm.append_left frees

end YggKernel.Lib.Ownership
