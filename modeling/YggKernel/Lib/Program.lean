import Mathlib.Data.List.Range
import Mathlib.Tactic

namespace YggKernel.Lib.Program

variable {ε σ α β ι : Type}

/-- A program over a state that may stop with a fault. -/
abbrev Prog (ε σ α : Type) := StateT σ (Except ε) α

/-- The weakest condition on the start state under which a program ends in `Q`,
or stops with a fault allowed by `E`. Total correctness takes `E` to be false. -/
def wp (p : Prog ε σ α) (E : ε → Prop) (Q : α → σ → Prop) (s : σ) : Prop :=
  match p s with
  | .ok (a, t) => Q a t
  | .error e => E e

def anyFault : ε → Prop := fun _ => True

def noFault : ε → Prop := fun _ => False

variable {E : ε → Prop} {s : σ}

@[simp] theorem wp_pure (a : α) (Q : α → σ → Prop) :
    wp (pure a : Prog ε σ α) E Q s ↔ Q a s := Iff.rfl

@[simp] theorem wp_bind (p : Prog ε σ α) (f : α → Prog ε σ β) (Q : β → σ → Prop) :
    wp (p >>= f) E Q s ↔ wp p E (fun a t => wp (f a) E Q t) s := by
  change (match (p s >>= fun x => f x.1 x.2) with | .ok (a, t) => Q a t | .error e => E e) ↔ _
  unfold wp
  cases p s <;> rfl

@[simp] theorem wp_map (p : Prog ε σ α) (f : α → β) (Q : β → σ → Prop) :
    wp (f <$> p) E Q s ↔ wp p E (fun a t => Q (f a) t) s :=
  wp_bind p (fun a => pure (f a)) Q

@[simp] theorem wp_get (Q : σ → σ → Prop) : wp (get : Prog ε σ σ) E Q s ↔ Q s s := Iff.rfl

@[simp] theorem wp_set (t : σ) (Q : PUnit → σ → Prop) :
    wp (set t : Prog ε σ PUnit) E Q s ↔ Q ⟨⟩ t := Iff.rfl

@[simp] theorem wp_modify (f : σ → σ) (Q : PUnit → σ → Prop) :
    wp (modify f : Prog ε σ PUnit) E Q s ↔ Q ⟨⟩ (f s) := Iff.rfl

@[simp] theorem wp_throw (e : ε) (Q : α → σ → Prop) :
    wp (throw e : Prog ε σ α) E Q s ↔ E e := Iff.rfl

theorem wp_mono {p : Prog ε σ α} {E' : ε → Prop} {Q R : α → σ → Prop} (h : wp p E Q s)
    (hE : ∀ e, E e → E' e) (hQ : ∀ a t, Q a t → R a t) : wp p E' R s := by
  unfold wp at h ⊢
  cases hp : p s with
  | ok r =>
    rw [hp] at h
    exact hQ _ _ h
  | error e =>
    rw [hp] at h
    exact hE e h

theorem wp_imp {p : Prog ε σ α} {Q R : α → σ → Prop} (h : wp p E Q s)
    (hQ : ∀ a t, Q a t → R a t) : wp p E R s :=
  wp_mono h (fun _ he => he) hQ

theorem wp_of_run {p : Prog ε σ α} {Q : α → σ → Prop} {a : α} {t : σ}
    (h : p s = .ok (a, t)) : wp p E Q s ↔ Q a t := by
  simp [wp, h]

theorem wp_anyFault (p : Prog ε σ α) (s : σ) : wp p anyFault (fun _ _ => True) s := by
  unfold wp
  cases p s <;> trivial

theorem run_of_wp {p : Prog ε σ α} {Q : α → σ → Prop} (h : wp p noFault Q s) :
    ∃ a t, p s = .ok (a, t) ∧ Q a t := by
  unfold wp at h
  cases hp : p s with
  | ok r =>
    rw [hp] at h
    exact ⟨r.1, r.2, rfl, h⟩
  | error e =>
    rw [hp] at h
    exact h.elim

theorem wp_iff_of {p : Prog ε σ α} {Q R : α → σ → Prop} {c : Prop} (h : wp p noFault R s)
    (hc : ∀ a t, R a t → (Q a t ↔ c)) : wp p noFault Q s ↔ c := by
  obtain ⟨a, t, hp, hR⟩ := run_of_wp h
  rw [wp_of_run hp]
  exact hc a t hR

theorem of_run {p : Prog ε σ α} {Q : α → σ → Prop} (h : wp p E Q s) {a : α} {t : σ}
    (hp : p s = .ok (a, t)) : Q a t := by
  rwa [wp_of_run hp] at h

theorem run_bind {p : Prog ε σ α} {f : α → Prog ε σ β} {b : β} {t : σ} :
    (p >>= f) s = .ok (b, t) ↔ ∃ a u, p s = .ok (a, u) ∧ f a u = .ok (b, t) := by
  change (p s >>= fun r => f r.1 r.2) = _ ↔ _
  cases hp : p s with
  | error e => exact ⟨(fun h => nomatch h), fun ⟨_, _, h, _⟩ => nomatch h⟩
  | ok r => exact ⟨fun h => ⟨r.1, r.2, rfl, h⟩, fun ⟨_, _, h, hf⟩ => by rw [Except.ok.inj h]; exact hf⟩

def after (p : Prog ε σ Unit) (s : σ) : σ :=
  match p s with
  | .ok r => r.2
  | .error _ => s

theorem run_after {p : Prog ε σ Unit} {s : σ} (h : (p s).isOk = true) : p s = .ok ((), after p s) := by
  unfold after
  cases hp : p s with
  | ok r => rfl
  | error e =>
    rw [hp] at h
    cases h

theorem run_after_map {p : Prog ε σ α} {s : σ} (h : (p s).isOk = true) :
    ∃ a, p s = .ok (a, after ((fun _ => ()) <$> p) s) := by
  cases hp : p s with
  | ok r =>
    have hmap : wp ((fun _ => ()) <$> p) noFault (fun _ t => t = r.2) s :=
      (wp_map p _ _).mpr ((wp_of_run hp).mpr rfl)
    obtain ⟨_, t, hrun, rfl⟩ := run_of_wp hmap
    refine ⟨r.1, ?_⟩
    rw [after, hrun]
  | error e =>
    rw [hp] at h
    cases h

theorem run_after_of {p : Prog ε σ α} {s : σ} {a : α} (h : (p s).map Prod.fst = .ok a) :
    p s = .ok (a, after ((fun _ => ()) <$> p) s) := by
  cases hp : p s with
  | ok r =>
    obtain ⟨b, hb⟩ := run_after_map (p := p) (s := s) (by rw [hp]; rfl)
    rw [hp] at h hb
    rw [hb]
    rw [hb] at h
    exact congrArg (fun b => Except.ok (b, _)) (Except.ok.inj h)
  | error e =>
    rw [hp] at h
    cases h

def forUp (first count : Nat) (body : Nat → Prog ε σ Unit) : Prog ε σ Unit :=
  match count with
  | 0 => pure ()
  | n + 1 => body first >>= fun _ => forUp (first + 1) n body

theorem forUp_succ (first n : Nat) (body : Nat → Prog ε σ Unit) :
    forUp first (n + 1) body = forUp first n body >>= fun _ => body (first + n) := by
  induction n generalizing first with
  | zero => rw [forUp, forUp, pure_bind, Nat.add_zero, forUp, bind_pure_unit, Nat.add_zero]
  | succ n ih =>
    rw [forUp, ih (first + 1), forUp, bind_assoc, show first + 1 + n = first + (n + 1) by omega]

/-- The invariant rule of a counting loop. The invariant speaks about the
counter before the body runs for it. -/
theorem wp_forUp (I : Nat → σ → Prop) (body : Nat → Prog ε σ Unit) {first count : Nat}
    {Q : Unit → σ → Prop} (hinit : I first s)
    (hstep : ∀ i t, first ≤ i → i < first + count → I i t → wp (body i) E (fun _ u => I (i + 1) u) t)
    (hend : ∀ t, I (first + count) t → Q () t) : wp (forUp first count body) E Q s := by
  induction count generalizing first s with
  | zero => exact hend s hinit
  | succ n ih =>
    rw [forUp, wp_bind]
    refine wp_imp (hstep first s le_rfl (by omega) hinit) fun _ t ht => ?_
    refine ih ht (fun i u h1 h2 => hstep i u (by omega) (by omega)) fun u hu => hend u ?_
    rwa [show first + (n + 1) = first + 1 + n by omega]

theorem wp_and {p : Prog ε σ α} {Q R : α → σ → Prop} (hQ : wp p E Q s) (hR : wp p E R s) :
    wp p E (fun a t => Q a t ∧ R a t) s := by
  unfold wp at hQ hR ⊢
  cases hp : p s with
  | ok r =>
    rw [hp] at hQ hR
    exact ⟨hQ, hR⟩
  | error e =>
    rw [hp] at hQ
    exact hQ

structure Keeps (R : σ → σ → Prop) (p : Prog ε σ α) : Prop where
  run : ∀ s, wp p anyFault (fun _ t => R s t) s

section Keeping

variable {R : σ → σ → Prop}

theorem Keeps.pure (hrefl : ∀ s, R s s) (a : α) : Keeps R (Pure.pure a : Prog ε σ α) := ⟨hrefl⟩

theorem Keeps.get (hrefl : ∀ s, R s s) : Keeps R (MonadState.get : Prog ε σ σ) := ⟨hrefl⟩

theorem Keeps.throw (e : ε) : Keeps R (MonadExcept.throw e : Prog ε σ α) := ⟨fun _ => trivial⟩

theorem Keeps.bind (htrans : ∀ s t u, R s t → R t u → R s u) {p : Prog ε σ α} {f : α → Prog ε σ β}
    (hp : Keeps R p) (hf : ∀ a, Keeps R (f a)) : Keeps R (p >>= f) := by
  refine ⟨fun s => (wp_bind p f _).mpr (wp_imp (hp.run s) fun a t ht => ?_)⟩
  exact wp_imp ((hf a).run t) fun _ u hu => htrans s t u ht hu

theorem Keeps.ite {c : Prop} [Decidable c] {p q : Prog ε σ α} (hp : Keeps R p) (hq : Keeps R q) :
    Keeps R (if c then p else q) := by
  by_cases hc : c
  · rwa [if_pos hc]
  · rwa [if_neg hc]

theorem Keeps.forUp (hrefl : ∀ s, R s s) (htrans : ∀ s t u, R s t → R t u → R s u)
    {body : Nat → Prog ε σ Unit} (hbody : ∀ i, Keeps R (body i)) (first count : Nat) :
    Keeps R (forUp first count body) := by
  induction count generalizing first with
  | zero => exact Keeps.pure hrefl ()
  | succ n ih => exact Keeps.bind htrans (hbody first) fun _ => ih (first + 1)

end Keeping

end YggKernel.Lib.Program
