/-
  The states that a serial execution goes through, the newest first.
-/
import Mathlib

namespace Lib

variable {ι σ : Type*} {R R' : ι → σ → σ → Prop} {init : σ} {es es' : List (ι × σ)}

def newest (init : σ) : List (ι × σ) → σ
  | [] => init
  | e :: _ => e.2

@[simp] theorem newest_nil : newest init ([] : List (ι × σ)) = init := rfl

@[simp] theorem newest_cons (e : ι × σ) : newest init (e :: es) = e.2 := rfl

/-- Each state comes from the one before it. -/
inductive Serial (R : ι → σ → σ → Prop) (init : σ) : List (ι × σ) → Prop where
  | nil : Serial R init []
  | cons {e : ι × σ} {es : List (ι × σ)} : Serial R init es → R e.1 (newest init es) e.2 →
      Serial R init (e :: es)

namespace Serial

theorem mono (hR : ∀ i s s', R i s s' → R' i s s') (h : Serial R init es) : Serial R' init es := by
  induction h with
  | nil => exact .nil
  | cons _ he ih => exact .cons ih (hR _ _ _ he)

theorem of_append (h : Serial R init (es' ++ es)) : Serial R init es := by
  induction es' with
  | nil => exact h
  | cons e es' ih =>
    cases h with
    | cons h _ => exact ih h

theorem invariant {I : σ → Prop} (h : Serial R init es) (hinit : I init)
    (hstep : ∀ i s s', I s → R i s s' → I s') : I (newest init es) := by
  induction h with
  | nil => exact hinit
  | cons _ he ih => exact hstep _ _ _ ih he

theorem and_invariant {I : σ → Prop} (h : Serial R init es) (hinit : I init)
    (hstep : ∀ i s s', I s → R i s s' → I s') : Serial (fun i s s' => R i s s' ∧ I s) init es := by
  induction h with
  | nil => exact .nil
  | cons hes he ih => exact .cons ih ⟨he, hes.invariant hinit hstep⟩

/-- What the steps of `es'` relate, the states before and after them are related by. -/
theorem relation {Q : σ → σ → Prop} (h : Serial R init (es' ++ es)) (hrefl : ∀ s, Q s s)
    (htrans : ∀ {s s' s''}, Q s s' → Q s' s'' → Q s s'')
    (hstep : ∀ e ∈ es', ∀ s, R e.1 s e.2 → Q s e.2) :
    Q (newest init es) (newest init (es' ++ es)) := by
  induction es' with
  | nil => exact hrefl _
  | cons e es' ih =>
    cases h with
    | cons h he =>
      refine htrans (ih h fun e' he' => hstep e' (List.mem_cons_of_mem _ he')) ?_
      exact hstep e List.mem_cons_self _ he

end Serial

end Lib
