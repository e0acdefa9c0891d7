import Mathlib.Data.List.Rotate
import Mathlib.Tactic

namespace YggKernel.Lib.RoundRobin

variable {α : Type} [DecidableEq α]

def behind (l : List α) (c : α) : List α := l.rotate (l.idxOf c + 1)

variable {l u v pre post : List α} {c d x t : α}

theorem behind_split (hc : c ∉ u) : behind (u ++ c :: v) c = v ++ (u ++ [c]) := by
  have hidx : (u ++ c :: v).idxOf c = u.length := by
    rw [List.idxOf_append_of_notMem hc, List.idxOf_cons_self, Nat.add_zero]
  have happ : u ++ c :: v = (u ++ [c]) ++ v := by simp
  have hlen : u.length + 1 = (u ++ [c]).length := by simp
  rw [behind, hidx, happ, hlen, List.rotate_append_length_eq]

theorem behind_swap (h : u ++ v = pre ++ d :: post) (hpre : d ∉ pre) (hpost : d ∉ post) :
    behind (v ++ u) d = post ++ (pre ++ [d]) := by
  rcases List.append_eq_append_iff.mp h with ⟨w, rfl, rfl⟩ | ⟨w, rfl, hw⟩
  · rw [List.append_assoc, List.cons_append, behind_split (fun hd => hpre (List.mem_append_right _ hd))]
    simp
  · cases w with
    | nil =>
      rw [List.nil_append] at hw
      subst hw
      rw [List.append_nil, List.cons_append, ← List.nil_append (d :: _), behind_split (List.not_mem_nil)]
      simp
    | cons y w =>
      rw [List.cons_append] at hw
      obtain ⟨rfl, rfl⟩ := List.cons.inj hw
      have hd : d ∉ v ++ pre := fun hd =>
        (List.mem_append.mp hd).elim (fun hd => hpost (List.mem_append_right _ hd)) hpre
      rw [← List.append_assoc, behind_split hd]
      simp

theorem idxOf_filter_le {keep : α → Bool} (hkeep : keep x = true) (l : List α) :
    (l.filter keep).idxOf x ≤ l.idxOf x := by
  induction l with
  | nil => exact le_rfl
  | cons y l ih =>
    by_cases hy : y = x
    · rw [hy, List.filter_cons_of_pos hkeep, List.idxOf_cons_self, List.idxOf_cons_self]
    · rw [List.idxOf_cons_ne _ hy]
      by_cases hk : keep y = true
      · rw [List.filter_cons_of_pos hk, List.idxOf_cons_ne _ hy]
        omega
      · rw [List.filter_cons_of_neg hk]
        omega

theorem passed_over {keep ready : α → Bool} (hnodup : l.Nodup) (hc : c ∈ l)
    (hfind : ((behind l c).filter keep).find? ready = some d) (hx : x ∈ l) (hkeep : keep x = true)
    (hready : ready x = true) (hne : x ≠ d) :
    (behind (l.filter keep) d).idxOf x < (behind l c).idxOf x := by
  obtain ⟨l₁, l₂, rfl⟩ := List.append_of_mem hc
  have hc₁ : c ∉ l₁ := fun h => (List.nodup_append.mp hnodup).2.2 c h c (List.mem_cons_self ..) rfl
  have hsplit : l₁ ++ c :: l₂ = (l₁ ++ [c]) ++ l₂ := by simp
  have hbehind := behind_split (v := l₂) hc₁
  obtain ⟨-, pre, post, hfilter, hpre⟩ := List.find?_eq_some_iff_append.mp hfind
  have hnodup' : (pre ++ d :: post).Nodup := by
    rw [← hfilter]
    exact (List.nodup_rotate.mpr hnodup).filter _
  obtain ⟨-, hdpost, hdis⟩ := List.nodup_append.mp hnodup'
  have hdpre : d ∉ pre := fun h => hdis d h d (List.mem_cons_self ..) rfl
  have hxpre : x ∉ pre := fun h => absurd (hpre x h) (by simp [hready])
  have hxmem : x ∈ pre ++ d :: post := by
    rw [← hfilter, List.mem_filter, behind, List.mem_rotate]
    exact ⟨hx, hkeep⟩
  have hxpost : x ∈ post :=
    (List.mem_cons.mp ((List.mem_append.mp hxmem).resolve_left hxpre)).resolve_left hne
  have hnew : behind ((l₁ ++ c :: l₂).filter keep) d = post ++ (pre ++ [d]) := by
    rw [hsplit, List.filter_append]
    rw [hbehind, List.filter_append] at hfilter
    exact behind_swap hfilter hdpre (List.nodup_cons.mp hdpost).1
  have hold : (pre ++ d :: post).idxOf x = pre.length + (post.idxOf x + 1) := by
    rw [List.idxOf_append_of_notMem hxpre, List.idxOf_cons_ne _ (Ne.symm hne)]
  have hle := idxOf_filter_le hkeep (behind (l₁ ++ c :: l₂) c)
  rw [hfilter, hold] at hle
  rw [hnew, List.idxOf_append_of_mem hxpost]
  omega

/-- A new element at the end of the list delays the others by one place at most. -/
theorem behind_append_le (hc : c ∈ l) (x : α) :
    (behind (l ++ [t]) c).idxOf x ≤ (behind l c).idxOf x + 1 := by
  obtain ⟨l₁, l₂, rfl, hc₁⟩ := List.eq_append_cons_of_mem hc
  rw [List.append_assoc, List.cons_append, behind_split hc₁, behind_split hc₁, List.append_assoc]
  by_cases hx : x ∈ l₂
  · rw [List.idxOf_append_of_mem hx, List.idxOf_append_of_mem hx]
    omega
  · rw [List.idxOf_append_of_notMem hx, List.idxOf_append_of_notMem hx, List.singleton_append]
    by_cases ht : t = x
    · rw [ht, List.idxOf_cons_self]
      omega
    · rw [List.idxOf_cons_ne _ ht]
      omega

theorem idxOf_behind_lt (hx : x ∈ l) : (behind l c).idxOf x < l.length := by
  have hmem : x ∈ behind l c := List.mem_rotate.mpr hx
  have hlen : (behind l c).length = l.length := List.length_rotate ..
  rw [← hlen]
  exact List.idxOf_lt_length_of_mem hmem

end YggKernel.Lib.RoundRobin
