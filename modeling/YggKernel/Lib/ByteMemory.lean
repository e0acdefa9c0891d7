import Mathlib.Tactic

namespace YggKernel.Lib.ByteMemory

/-- Memory as one byte for each address. -/
abbrev Mem := Nat → BitVec 8

def load32 (m : Mem) (a : Nat) : Nat :=
  (m a).toNat + 256 * (m (a + 1)).toNat + 65536 * (m (a + 2)).toNat + 16777216 * (m (a + 3)).toNat

def store8 (m : Mem) (a : Nat) (v : BitVec 8) : Mem := fun x => if x = a then v else m x

def store32 (m : Mem) (a v : Nat) : Mem := fun x =>
  if x = a then BitVec.ofNat 8 v
  else if x = a + 1 then BitVec.ofNat 8 (v / 256)
  else if x = a + 2 then BitVec.ofNat 8 (v / 65536)
  else if x = a + 3 then BitVec.ofNat 8 (v / 16777216)
  else m x

variable {m m' : Mem} {a b v : Nat}

theorem load32_lt (m : Mem) (a : Nat) : load32 m a < 4294967296 := by
  have h0 := (m a).isLt
  have h1 := (m (a + 1)).isLt
  have h2 := (m (a + 2)).isLt
  have h3 := (m (a + 3)).isLt
  unfold load32
  omega

theorem load32_congr (h : ∀ x, a ≤ x → x < a + 4 → m x = m' x) : load32 m a = load32 m' a := by
  unfold load32
  rw [h a le_rfl (by omega), h (a + 1) (by omega) (by omega), h (a + 2) (by omega) (by omega),
    h (a + 3) (by omega) (by omega)]

theorem store8_apply_ne {x : Nat} (v : BitVec 8) (h : x ≠ a) : store8 m a v x = m x := if_neg h

theorem store32_apply_of_outside {x : Nat} (h : x < a ∨ a + 4 ≤ x) : store32 m a v x = m x := by
  unfold store32
  rw [if_neg (by omega), if_neg (by omega), if_neg (by omega), if_neg (by omega)]

theorem load32_store32 (h : v < 4294967296) : load32 (store32 m a v) a = v := by
  simp only [load32, store32, if_true, show a + 1 ≠ a by omega, show a + 2 ≠ a by omega,
    show a + 3 ≠ a by omega, show a + 2 ≠ a + 1 by omega, show a + 3 ≠ a + 1 by omega,
    show a + 3 ≠ a + 2 by omega, if_false, BitVec.toNat_ofNat]
  omega

theorem load32_store32_of_disjoint (h : a + 4 ≤ b ∨ b + 4 ≤ a) :
    load32 (store32 m a v) b = load32 m b :=
  load32_congr fun _ _ _ => store32_apply_of_outside (by omega)

theorem load32_store8_of_outside {w : BitVec 8} (h : a < b ∨ b + 4 ≤ a) :
    load32 (store8 m a w) b = load32 m b :=
  load32_congr fun _ _ _ => store8_apply_ne w (by omega)

theorem byte_store32 {i : Nat} (hi : i < 4) : (store32 m a v (a + i)).toNat = v / 256 ^ i % 256 := by
  obtain rfl | rfl | rfl | rfl : i = 0 ∨ i = 1 ∨ i = 2 ∨ i = 3 := by omega
  all_goals simp [store32]

theorem byte_load32 {i : Nat} (hi : i < 4) : (m (a + i)).toNat = load32 m a / 256 ^ i % 256 := by
  have h0 := (m a).isLt
  have h1 := (m (a + 1)).isLt
  have h2 := (m (a + 2)).isLt
  have h3 := (m (a + 3)).isLt
  unfold load32
  obtain rfl | rfl | rfl | rfl : i = 0 ∨ i = 1 ∨ i = 2 ∨ i = 3 := by omega
  all_goals
    norm_num
    omega

def SameBut (m m' : Mem) (words : List Nat) : Prop := ∀ x, (∀ w ∈ words, x < w ∨ w + 4 ≤ x) → m' x = m x

theorem sameBut_store32 (m : Mem) (a v : Nat) : SameBut m (store32 m a v) [a] := fun _ hx =>
  store32_apply_of_outside (hx a (List.mem_singleton.mpr rfl))

theorem SameBut.trans {m'' : Mem} {words words' : List Nat} (h : SameBut m m' words) (h' : SameBut m' m'' words') :
    SameBut m m'' (words ++ words') := fun x hx =>
  (h' x fun w hw => hx w (List.mem_append_right _ hw)).trans (h x fun w hw => hx w (List.mem_append_left _ hw))

theorem SameBut.load {words : List Nat} (h : SameBut m m' words) (ha : ∀ w ∈ words, w + 4 ≤ a ∨ a + 4 ≤ w) :
    load32 m' a = load32 m a :=
  load32_congr fun x h1 h2 => h x fun w hw => by
    have hw := ha w hw
    omega

def loadBytes (m : Mem) : Nat → Nat → List (BitVec 8)
  | _, 0 => []
  | a, n + 1 => m a :: loadBytes m (a + 1) n

def copyUp (m : Mem) (dst src : Nat) : Nat → Mem
  | 0 => m
  | n + 1 => copyUp (store8 m dst (m src)) (dst + 1) (src + 1) n

section Bytes

variable {n k l : Nat}

@[simp] theorem length_loadBytes (m : Mem) (a n : Nat) : (loadBytes m a n).length = n := by
  induction n generalizing a with
  | zero => rfl
  | succ n ih => rw [loadBytes, List.length_cons, ih]

theorem loadBytes_congr (h : ∀ x, a ≤ x → x < a + n → m x = m' x) : loadBytes m a n = loadBytes m' a n := by
  induction n generalizing a with
  | zero => rfl
  | succ n ih =>
    rw [loadBytes, loadBytes, h a le_rfl (by omega), ih fun x h1 h2 => h x (by omega) (by omega)]

theorem loadBytes_add (m : Mem) (a n k : Nat) : loadBytes m a (n + k) = loadBytes m a n ++ loadBytes m (a + n) k := by
  induction n generalizing a with
  | zero => rw [Nat.zero_add]; rfl
  | succ n ih =>
    rw [Nat.succ_add, loadBytes, loadBytes, ih, List.cons_append, Nat.add_right_comm, Nat.add_assoc a n 1]

theorem drop_take_loadBytes (m : Mem) (a : Nat) (h : k + n ≤ l) :
    ((loadBytes m a l).drop k).take n = loadBytes m (a + k) n := by
  obtain ⟨j, rfl⟩ := Nat.exists_eq_add_of_le h
  rw [Nat.add_assoc, loadBytes_add, loadBytes_add, List.drop_left' (length_loadBytes ..),
    List.take_left' (length_loadBytes ..)]

theorem getD_loadBytes (m : Mem) (a : Nat) (h : k < n) : (loadBytes m a n).getD k 0 = m (a + k) := by
  obtain ⟨j, rfl⟩ := Nat.exists_eq_add_of_lt h
  rw [Nat.add_assoc, loadBytes_add, List.getD_eq_getElem?_getD,
    List.getElem?_append_right (by rw [length_loadBytes]), length_loadBytes, Nat.sub_self]
  rfl

theorem copyUp_apply_of_outside {x dst src : Nat} (h : x < dst ∨ dst + n ≤ x) : copyUp m dst src n x = m x := by
  induction n generalizing m dst src with
  | zero => rfl
  | succ n ih =>
    rw [copyUp, ih (by omega), store8_apply_ne _ (by omega)]

theorem loadBytes_copyUp {dst src : Nat} (h : dst + n ≤ src ∨ src + n ≤ dst) :
    loadBytes (copyUp m dst src n) dst n = loadBytes m src n := by
  induction n generalizing m dst src with
  | zero => rfl
  | succ n ih =>
    have hfirst : copyUp (store8 m dst (m src)) (dst + 1) (src + 1) n dst = m src := by
      rw [copyUp_apply_of_outside (by omega)]
      exact if_pos rfl
    have hrest : loadBytes (store8 m dst (m src)) (src + 1) n = loadBytes m (src + 1) n :=
      loadBytes_congr fun x h1 h2 => store8_apply_ne _ (by omega)
    rw [copyUp, loadBytes, loadBytes, hfirst, ih (by omega), hrest]

end Bytes

def scatter (m : Mem) (φ : Nat → Nat) : List (BitVec 8) → Mem
  | [] => m
  | b :: bs => scatter (store8 m (φ 0) b) (fun i => φ (i + 1)) bs

def gather (m : Mem) (φ : Nat → Nat) (n : Nat) : List (BitVec 8) := (List.range n).map fun i => m (φ i)

section Scattered

variable {φ : Nat → Nat} {bs cs : List (BitVec 8)} {n k i x : Nat}

theorem scatter_append : scatter m φ (bs ++ cs) = scatter (scatter m φ bs) (fun i => φ (bs.length + i)) cs := by
  induction bs generalizing m φ with
  | nil =>
    have hφ : (fun i => φ (([] : List (BitVec 8)).length + i)) = φ := funext fun i => congrArg φ (Nat.zero_add i)
    rw [hφ]
    rfl
  | cons b bs ih =>
    have hφ : (fun i => φ ((b :: bs).length + i)) = fun i => φ (bs.length + i + 1) :=
      funext fun i => congrArg φ (by rw [List.length_cons]; omega)
    rw [List.cons_append, scatter, ih, hφ]
    rfl

theorem scatter_outside (h : ∀ i < bs.length, x ≠ φ i) : scatter m φ bs x = m x := by
  induction bs generalizing m φ with
  | nil => rfl
  | cons b bs ih =>
    rw [scatter, ih fun i hi => h (i + 1) (by rw [List.length_cons]; omega)]
    exact store8_apply_ne _ (h 0 (by simp))

theorem scatter_at (hinj : ∀ i < bs.length, ∀ k < bs.length, φ i = φ k → i = k) (hi : i < bs.length) :
    scatter m φ bs (φ i) = bs.getD i 0 := by
  induction bs generalizing m φ i with
  | nil => exact absurd hi (Nat.not_lt_zero i)
  | cons b bs ih =>
    rw [List.length_cons] at hinj hi
    rw [scatter]
    cases i with
    | zero =>
      have hout : ∀ k < bs.length, φ 0 ≠ φ (k + 1) := fun k hk heq => by
        have := hinj 0 (by omega) (k + 1) (by omega) heq
        omega
      rw [scatter_outside hout]
      exact if_pos rfl
    | succ i =>
      have hrest := ih (m := store8 m (φ 0) b) (φ := fun k => φ (k + 1)) (fun j hj k hk heq => by
        have := hinj (j + 1) (by omega) (k + 1) (by omega) heq
        omega) (show i < bs.length by omega)
      exact hrest

/-- A byte stored at one place depends on the byte before at that place only. -/
theorem scatter_apply_congr {m' : Mem} (h : m' x = m x) : scatter m' φ bs x = scatter m φ bs x := by
  induction bs generalizing m m' φ with
  | nil => exact h
  | cons b bs ih =>
    refine ih ?_
    unfold store8
    by_cases hx : x = φ 0
    · rw [if_pos hx, if_pos hx]
    · rw [if_neg hx, if_neg hx, h]

@[simp] theorem length_gather (m : Mem) (φ : Nat → Nat) (n : Nat) : (gather m φ n).length = n := by simp [gather]

theorem getD_gather (h : i < n) : (gather m φ n).getD i 0 = m (φ i) := by simp [gather, h]

theorem scatter_gather_at {ψ : Nat → Nat} {i : Nat} (hinj : ∀ i < n, ∀ k < n, φ i = φ k → i = k) (hi : i < n) :
    scatter m φ (gather m' ψ n) (φ i) = m' (ψ i) := by
  rw [scatter_at (by rwa [length_gather]) (by rwa [length_gather]), getD_gather hi]

theorem gather_congr (h : ∀ i < n, m' (φ i) = m (φ i)) : gather m' φ n = gather m φ n :=
  List.map_congr_left fun i hi => h i (List.mem_range.mp hi)

theorem gather_add : gather m φ (n + k) = gather m φ n ++ gather m (fun i => φ (n + i)) k := by
  unfold gather
  rw [List.range_add, List.map_append, List.map_map]
  rfl

theorem gather_succ : gather m φ (n + 1) = m (φ 0) :: gather m (fun i => φ (i + 1)) n := by
  unfold gather
  rw [List.range_succ_eq_map, List.map_cons, List.map_map]
  rfl

end Scattered

def ofPages (w : Nat → Nat → Nat) : Mem := fun x => BitVec.ofNat 8 (w (x / 4096) (x / 4 % 1024) / 256 ^ (x % 4))

theorem load32_ofPages {w : Nat → Nat → Nat} {p k : Nat} (hk : k < 1024) (h : w p k < 4294967296) :
    load32 (ofPages w) (4096 * p + 4 * k) = w p k := by
  have hbyte : ∀ i < 4, ofPages w (4096 * p + 4 * k + i) = BitVec.ofNat 8 (w p k / 256 ^ i) := fun i hi => by
    have hpage : (4096 * p + 4 * k + i) / 4096 = p := by omega
    have hword : (4096 * p + 4 * k + i) / 4 % 1024 = k := by omega
    have hoff : (4096 * p + 4 * k + i) % 4 = i := by omega
    unfold ofPages
    rw [hpage, hword, hoff]
  have h0 := hbyte 0 (by decide)
  rw [Nat.add_zero] at h0
  unfold load32
  rw [h0, hbyte 1 (by decide), hbyte 2 (by decide), hbyte 3 (by decide)]
  simp only [BitVec.toNat_ofNat]
  norm_num
  omega

end YggKernel.Lib.ByteMemory
