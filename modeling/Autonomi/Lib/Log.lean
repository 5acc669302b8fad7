/-
  Actions that only add to a log.
-/
import Autonomi.Lib.Act

namespace Lib.Act

variable {ω ε α β ι : Type}

/-- What `x` does to its log, and what it returns, do not depend on what is in the log. -/
def Logs (x : Act (List ω) ε α) : Prop :=
  ∀ log, x log = (x []).map fun r => (r.1, log ++ r.2)

theorem logs_pure (a : α) : Logs (pure a : Act (List ω) ε α) := by
  intro log
  simp

theorem logs_modify (events : List ω) :
    Logs (modify fun log => log ++ events : Act (List ω) ε PUnit) := by
  intro log
  simp

theorem logs_ofExcept (y : Except ε α) : Logs (ofExcept y : Act (List ω) ε α) := by
  intro log
  simp

variable {x : Act (List ω) ε α} {f : α → Act (List ω) ε β}

theorem Logs.bind (hx : Logs x) (hf : ∀ a, Logs (f a)) : Logs (x >>= f) := by
  intro log
  rcases hx' : x [] with _ | ⟨e | a, events⟩
  · have hlog : x log = none := by rw [hx log, hx']; rfl
    change (x log).bind _ = ((x []).bind _).map _
    rw [hlog, hx']
    rfl
  · have hlog : x log = some (.error e, log ++ events) := by rw [hx log, hx']; rfl
    rw [bind_of_error hlog, bind_of_error hx']
    rfl
  · have hlog : x log = some (.ok a, log ++ events) := by rw [hx log, hx']; rfl
    rw [bind_of_ok hlog, bind_of_ok hx', hf a (log ++ events), hf a events, Option.map_map]
    congr 1
    funext r
    simp

theorem logs_foldlM {step : β → ι → Act (List ω) ε β} (hstep : ∀ b i, Logs (step b i)) :
    ∀ (l : List ι) (b : β), Logs (l.foldlM step b) := by
  intro l
  induction l with
  | nil => exact logs_pure
  | cons i l ih =>
    intro b
    rw [List.foldlM_cons]
    exact (hstep b i).bind ih

/-- What the first of two actions has logged stays. -/
theorem log_of_bind (hf : ∀ a, Logs (f a)) {r : Except ε α} {r' : Except ε β} {log log' : List ω}
    (hx : x [] = some (r, log)) (h : (x >>= f) [] = some (r', log')) :
    ∃ more, log' = log ++ more := by
  cases r with
  | error e =>
    rw [bind_of_error hx] at h
    cases h
    exact ⟨[], (List.append_nil _).symm⟩
  | ok a =>
    rw [bind_of_ok hx, hf a log] at h
    obtain ⟨⟨_, more⟩, -, h⟩ := Option.map_eq_some_iff.1 h
    cases h
    exact ⟨more, rfl⟩

end Lib.Act
