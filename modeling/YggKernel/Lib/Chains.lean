import Mathlib.Tactic

namespace YggKernel.Lib.Chains

variable {β : Type} (addr : β → Nat) (At At' : β → Nat → Prop)

def first (l : List β) (z : Nat) : Nat :=
  match l with
  | [] => z
  | x :: _ => addr x

/-- The nodes are linked one to the next, and the last one to `z`. `At x n` says
that node `x` is stored with `n` as its successor. -/
def Linked (l : List β) (z : Nat) : Prop :=
  match l with
  | [] => True
  | x :: rest => At x (first addr rest z) ∧ Linked rest z

@[simp] theorem first_nil (z : Nat) : first addr [] z = z := rfl

@[simp] theorem first_cons (x : β) (l : List β) (z : Nat) : first addr (x :: l) z = addr x := rfl

@[simp] theorem linked_nil (z : Nat) : Linked addr At [] z := trivial

@[simp] theorem linked_cons (x : β) (l : List β) (z : Nat) :
    Linked addr At (x :: l) z ↔ At x (first addr l z) ∧ Linked addr At l z := Iff.rfl

theorem first_append (l l' : List β) (z : Nat) :
    first addr (l ++ l') z = first addr l (first addr l' z) := by
  cases l <;> rfl

theorem linked_append (l l' : List β) (z : Nat) :
    Linked addr At (l ++ l') z ↔ Linked addr At l (first addr l' z) ∧ Linked addr At l' z := by
  induction l with
  | nil => simp
  | cons x l ih => simp [ih, first_append, and_assoc]

variable {addr At At'}

theorem Linked.imp {l : List β} {z : Nat} (h : Linked addr At l z)
    (himp : ∀ x ∈ l, ∀ n, At x n → At' x n) : Linked addr At' l z := by
  induction l with
  | nil => trivial
  | cons x l ih =>
    exact ⟨himp x (by simp) _ h.1, ih h.2 fun y hy => himp y (List.mem_cons_of_mem _ hy)⟩

theorem first_map {γ : Type} (f : γ → β) (l : List γ) (z : Nat) : first addr (l.map f) z = first (addr ∘ f) l z := by
  cases l <;> rfl

theorem linked_map {γ : Type} (f : γ → β) (l : List γ) (z : Nat) :
    Linked addr At (l.map f) z ↔ Linked (addr ∘ f) (fun x n => At (f x) n) l z := by
  induction l with
  | nil => rfl
  | cons x l ih => rw [List.map_cons, linked_cons, linked_cons, first_map, ih]

theorem Linked.at_of_append {l l' : List β} {x : β} {z : Nat}
    (h : Linked addr At (l ++ x :: l') z) : At x (first addr l' z) :=
  ((linked_append addr At l (x :: l') z).mp h).2.1

section Backward

variable (addr) (Back Back' : β → Nat → Prop)

def last (p : Nat) (l : List β) : Nat :=
  match l with
  | [] => p
  | x :: rest => last (addr x) rest

/-- The nodes are linked one to the one before, and the first one to `p`. `Back x p` says
that node `x` is stored with `p` as its predecessor. -/
def LinkedBack (p : Nat) (l : List β) : Prop :=
  match l with
  | [] => True
  | x :: rest => Back x p ∧ LinkedBack (addr x) rest

@[simp] theorem last_nil (p : Nat) : last addr p [] = p := rfl

@[simp] theorem last_cons (p : Nat) (x : β) (l : List β) : last addr p (x :: l) = last addr (addr x) l := rfl

@[simp] theorem linkedBack_nil (p : Nat) : LinkedBack addr Back p [] := trivial

@[simp] theorem linkedBack_cons (p : Nat) (x : β) (l : List β) :
    LinkedBack addr Back p (x :: l) ↔ Back x p ∧ LinkedBack addr Back (addr x) l := Iff.rfl

theorem last_append (p : Nat) (l l' : List β) : last addr p (l ++ l') = last addr (last addr p l) l' := by
  induction l generalizing p with
  | nil => rfl
  | cons x l ih => exact ih _

theorem linkedBack_append (p : Nat) (l l' : List β) : LinkedBack addr Back p (l ++ l') ↔
    LinkedBack addr Back p l ∧ LinkedBack addr Back (last addr p l) l' := by
  induction l generalizing p with
  | nil => simp
  | cons x l ih => simp [ih, and_assoc]

variable {addr Back Back'}

theorem LinkedBack.imp {l : List β} {p : Nat} (h : LinkedBack addr Back p l)
    (himp : ∀ x ∈ l, ∀ n, Back x n → Back' x n) : LinkedBack addr Back' p l := by
  induction l generalizing p with
  | nil => trivial
  | cons x l ih =>
    exact ⟨himp x (by simp) _ h.1, ih h.2 fun y hy => himp y (List.mem_cons_of_mem _ hy)⟩

theorem LinkedBack.at_of_append {l l' : List β} {x : β} {p : Nat}
    (h : LinkedBack addr Back p (l ++ x :: l')) : Back x (last addr p l) :=
  ((linkedBack_append addr Back p l (x :: l')).mp h).2.1

end Backward

section Room

variable (addr) (fin : β → Nat)

/-- The nodes lie between `lo` and `hi`, each behind the end of the one before. -/
def Ordered (lo : Nat) (l : List β) (hi : Nat) : Prop :=
  match l with
  | [] => lo ≤ hi
  | x :: rest => lo ≤ addr x ∧ Ordered (fin x) rest hi

def Tiled (lo : Nat) (l : List β) (hi : Nat) : Prop :=
  match l with
  | [] => lo = hi
  | x :: rest => addr x = lo ∧ Tiled (fin x) rest hi

variable {addr fin} {lo hi : Nat} {l l' : List β} {x : β}

theorem Tiled.ordered (h : Tiled addr fin lo l hi) : Ordered addr fin lo l hi := by
  induction l generalizing lo with
  | nil => exact h.le
  | cons x l ih => exact ⟨h.1.ge, ih h.2⟩

theorem Ordered.append {mid : Nat} (h : Ordered addr fin lo l mid) (h' : Ordered addr fin mid l' hi) :
    Ordered addr fin lo (l ++ l') hi := by
  induction l generalizing lo with
  | nil =>
    cases l' with
    | nil => exact le_trans (show lo ≤ mid from h) h'
    | cons x l' => exact ⟨le_trans (show lo ≤ mid from h) h'.1, h'.2⟩
  | cons y l ih => exact ⟨h.1, ih h.2⟩

theorem ordered_append : Ordered addr fin lo (l ++ x :: l') hi ↔
    Ordered addr fin lo l (addr x) ∧ Ordered addr fin (fin x) l' hi := by
  induction l generalizing lo with
  | nil => exact Iff.rfl
  | cons y l ih => rw [List.cons_append, Ordered, Ordered, ih, and_assoc]

theorem tiled_append : Tiled addr fin lo (l ++ l') hi ↔
    ∃ mid, Tiled addr fin lo l mid ∧ Tiled addr fin mid l' hi := by
  induction l generalizing lo with
  | nil => simp [Tiled]
  | cons y l ih =>
    simp only [List.cons_append, Tiled, ih]
    exact ⟨fun ⟨hy, mid, h⟩ => ⟨mid, ⟨hy, h.1⟩, h.2⟩, fun ⟨mid, ⟨hy, h⟩, h'⟩ => ⟨hy, mid, h, h'⟩⟩

theorem Ordered.le (hfin : ∀ x ∈ l, addr x ≤ fin x) (h : Ordered addr fin lo l hi) : lo ≤ hi := by
  induction l generalizing lo with
  | nil => exact h
  | cons x l ih =>
    have hx := hfin x (by simp)
    have hrest := ih (fun y hy => hfin y (by simp [hy])) h.2
    have hlo := h.1
    omega

theorem Ordered.mem (hfin : ∀ x ∈ l, addr x ≤ fin x) (h : Ordered addr fin lo l hi) (hx : x ∈ l) :
    lo ≤ addr x ∧ fin x ≤ hi := by
  obtain ⟨l₁, l₂, rfl⟩ := List.append_of_mem hx
  obtain ⟨h₁, h₂⟩ := ordered_append.mp h
  exact ⟨h₁.le fun y hy => hfin y (by simp [hy]), h₂.le fun y hy => hfin y (by simp [hy])⟩

theorem Tiled.first_eq (h : Tiled addr fin lo l hi) (z : Nat) : first addr l z = if l = [] then z else lo := by
  cases l with
  | nil => rfl
  | cons x l => exact h.1

end Room

/-- Two lists of nodes that are linked in the same way and start at the same place agree. -/
theorem Linked.unique {l l' : List β} {a : Nat} (hl : Linked addr At l 0) (hl' : Linked addr At l' 0)
    (ha : first addr l 0 = a) (ha' : first addr l' 0 = a) (hpos : ∀ x n, At x n → addr x ≠ 0)
    (hsame : ∀ x y n k, At x n → At y k → addr x = addr y → x = y ∧ n = k) : l = l' := by
  induction l generalizing l' a with
  | nil =>
    cases l' with
    | nil => rfl
    | cons y l' => exact absurd (ha'.trans ha.symm) (hpos y _ hl'.1)
  | cons x l ih =>
    cases l' with
    | nil => exact absurd (ha.trans ha'.symm) (hpos x _ hl.1)
    | cons y l' =>
      obtain ⟨rfl, hn⟩ := hsame x y _ _ hl.1 hl'.1 (ha.trans ha'.symm)
      rw [ih hl.2 hl'.2 rfl hn.symm]

end YggKernel.Lib.Chains
