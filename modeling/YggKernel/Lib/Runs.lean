import Mathlib.Tactic

namespace YggKernel.Lib.Runs

instance lawfulBEq_pair : LawfulBEq (Nat × Nat) := inferInstance

variable {σ ι : Type}

/-- A run of labelled steps every one of which meets the side condition `C`,
which sees the state before the step, its label and the state after it. -/
inductive Run (step : σ → ι → σ → Prop) (C : σ → ι → σ → Prop) : σ → σ → Prop
  | refl (s : σ) : Run step C s s
  | tail {s t u : σ} {i : ι} : Run step C s t → step t i u → C t i u → Run step C s u

def always : σ → ι → σ → Prop := fun _ _ _ => True

variable {step : σ → ι → σ → Prop} {C D : σ → ι → σ → Prop}

/-- What holds at the start and is kept by every step that meets the side
condition holds in every state a run reaches. -/
theorem Run.invariant (I : σ → Prop) (hstep : ∀ s i t, I s → step s i t → C s i t → I t)
    {s t : σ} (hrun : Run step C s t) (hs : I s) : I t := by
  induction hrun with
  | refl => exact hs
  | tail _ hst hc ih => exact hstep _ _ _ ih hst hc

theorem Run.trans {s t u : σ} (hrun : Run step C s t) (hrun' : Run step C t u) : Run step C s u := by
  induction hrun' with
  | refl => exact hrun
  | tail _ hst hc ih => exact Run.tail ih hst hc

theorem Run.weaken (hCD : ∀ s i t, step s i t → C s i t → D s i t) {s t : σ}
    (hrun : Run step C s t) : Run step D s t := by
  induction hrun with
  | refl => exact Run.refl _
  | tail _ hst hc ih => exact Run.tail ih hst (hCD _ _ _ hst hc)

inductive Trace (step : σ → ι → σ → Prop) (C : σ → ι → σ → Prop) : σ → List ι → σ → Prop
  | nil (s : σ) : Trace step C s [] s
  | snoc {s t u : σ} {ops : List ι} {i : ι} : Trace step C s ops t → step t i u → C t i u →
      Trace step C s (ops ++ [i]) u

/-- Steps that lower a rank are no more than it starts with and other steps add to it. -/
theorem Trace.ranked (I : σ → Prop) (rank : σ → Nat) (down up : ι → Bool)
    (hstep : ∀ s i t, I s → step s i t → C s i t → I t ∧ rank t + [i].countP down ≤ rank s + [i].countP up)
    {s t : σ} {ops : List ι} (htrace : Trace step C s ops t) (hs : I s) :
    I t ∧ rank t + ops.countP down ≤ rank s + ops.countP up := by
  induction htrace with
  | nil => exact ⟨hs, le_rfl⟩
  | snoc _ hst hc ih =>
    obtain ⟨hI, hle⟩ := ih
    obtain ⟨hI', hle'⟩ := hstep _ _ _ hI hst hc
    refine ⟨hI', ?_⟩
    rw [List.countP_append, List.countP_append]
    omega

end YggKernel.Lib.Runs
