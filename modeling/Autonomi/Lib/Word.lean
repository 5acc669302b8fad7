/-
  Machine numbers: operations that stop the program (`none`) where their result
  does not fit, and computations in which none of them does.
-/
import Autonomi.Lib.Act
import Autonomi.Lib.Except
import Autonomi.Lib.Slice

namespace Lib

variable {σ ε α β : Type}

/-! ## Operations -/

namespace Word

variable (W : ℕ)

/-- The sum of numbers below `W`. -/
def add (a b : ℕ) : Option ℕ := if a + b < W then some (a + b) else none

def sub (a b : ℕ) : Option ℕ := if b ≤ a then some (a - b) else none

def mul (a b : ℕ) : Option ℕ := if a * b < W then some (a * b) else none

def div (a b : ℕ) : Option ℕ := if 0 < b then some (a / b) else none

def mod (a b : ℕ) : Option ℕ := if 0 < b then some (a % b) else none

/-- The part of a list between two positions. -/
def range (l : List α) (a b : ℕ) : Option (List α) :=
  if a ≤ b ∧ b ≤ l.length then some (slice l a b) else none

variable {W} {a b : ℕ}

@[simp] theorem add_of_lt (h : a + b < W) : add W a b = some (a + b) := if_pos h

@[simp] theorem sub_of_le (h : b ≤ a) : sub a b = some (a - b) := if_pos h

@[simp] theorem mul_of_lt (h : a * b < W) : mul W a b = some (a * b) := if_pos h

@[simp] theorem div_of_pos (h : 0 < b) : div a b = some (a / b) := if_pos h

@[simp] theorem mod_of_pos (h : 0 < b) : mod a b = some (a % b) := if_pos h

theorem range_of_le {l : List α} (hab : a ≤ b) (hb : b ≤ l.length) :
    range l a b = some (slice l a b) := if_pos ⟨hab, hb⟩

theorem le_foldl_add (f : α → ℕ) : ∀ (l : List α) (acc : ℕ), acc ≤ l.foldl (fun acc a => acc + f a) acc
  | [], _ => le_rfl
  | a :: l, acc => (Nat.le_add_right acc (f a)).trans (le_foldl_add f l (acc + f a))

theorem foldl_add_mono (f : α → ℕ) : ∀ (l : List α) {acc acc' : ℕ}, acc ≤ acc' →
    l.foldl (fun acc a => acc + f a) acc ≤ l.foldl (fun acc a => acc + f a) acc'
  | [], _, _, h => h
  | _ :: l, _, _, h => foldl_add_mono f l (Nat.add_le_add_right h _)

/-- Sizes are added up without leaving the range exactly if their sum is in it. -/
theorem foldlM_add (f : α → ℕ) : ∀ (l : List α) {acc : ℕ}, acc < W →
    l.foldlM (fun acc a => add W acc (f a)) acc =
      if l.foldl (fun acc a => acc + f a) acc < W
      then some (l.foldl (fun acc a => acc + f a) acc) else none
  | [], acc, hacc => by rw [List.foldl_nil, if_pos hacc]; rfl
  | a :: l, acc, hacc => by
    rw [List.foldlM_cons, List.foldl_cons]
    by_cases h : acc + f a < W
    · rw [add_of_lt h]
      exact foldlM_add f l h
    · have := le_foldl_add f l (acc + f a)
      rw [add, if_neg h, if_neg (by omega)]
      rfl

end Word

/-! ## Computations that do not stop -/

namespace Run

/-- The computation returns, with a value or with an error. -/
def Returns (x : Run ε α) : Prop := x ≠ none

namespace Returns

theorem pure (a : α) : Returns (pure a : Run ε α) := nofun

theorem throw (e : ε) : Returns (throw e : Run ε α) := nofun

theorem lift (x : Except ε α) : Returns (liftM x : Run ε α) := nofun

theorem bind {x : Run ε α} {f : α → Run ε β} (hx : Returns x)
    (hf : ∀ a, x = some (.ok a) → Returns (f a)) : Returns (x >>= f) := by
  rcases h : x with _ | ⟨e | a⟩
  · exact absurd h hx
  · exact nofun
  · exact hf a h

end Returns

theorem bind_congr {x : Run ε α} {f g : α → Run ε β} (h : ∀ a, x = some (.ok a) → f a = g a) :
    x >>= f = x >>= g := by
  rcases hx : x with _ | ⟨e | a⟩
  · rfl
  · rfl
  · exact h a hx

/-- Where no step stops, a computation is the one without checks. -/
theorem bind_eq_some {x : Run ε α} {y : Except ε α} {f : α → Run ε β} {g : α → Except ε β}
    (hx : x = some y) (h : ∀ a, y = .ok a → f a = some (g a)) : x >>= f = some (y >>= g) := by
  subst hx
  cases y with
  | error e => rfl
  | ok a => exact h a rfl

theorem mapM_eq_some {f : α → Run ε β} {g : α → Except ε β} :
    ∀ {as : List α}, (∀ a ∈ as, f a = some (g a)) → as.mapM f = some (as.mapM g)
  | [], _ => rfl
  | a :: as, h => by
    rw [List.mapM_cons, List.mapM_cons]
    refine bind_eq_some (h a List.mem_cons_self) fun b _ => ?_
    exact bind_eq_some (mapM_eq_some fun a ha => h a (List.mem_cons_of_mem _ ha)) fun bs _ => rfl

theorem foldlM_eq_some {f : β → α → Run ε β} {g : β → α → Except ε β}
    (h : ∀ b a, f b a = some (g b a)) : ∀ {as : List α} {b : β}, as.foldlM f b = some (as.foldlM g b)
  | [], _ => rfl
  | a :: as, b => by
    rw [List.foldlM_cons, List.foldlM_cons]
    exact bind_eq_some (h b a) fun b' _ => foldlM_eq_some h

end Run

/-- A step that does not touch the state. -/
theorem stateT_lift_bind (x : Except ε α) (f : α → StateT σ (Except ε) β) (s : σ) :
    ((liftM x : StateT σ (Except ε) α) >>= f) s = x >>= fun a => f a s := by
  cases x <;> rfl

namespace Act

variable {s : σ}

/-- An operation that may stop. -/
def ofOption (x : Option α) : Act σ ε α := ExceptT.mk fun s => x.map fun a => (.ok a, s)

@[simp] theorem ofOption_bind (a : α) (f : α → Act σ ε β) : (ofOption (some a) >>= f) s = f a s := rfl

@[simp] theorem ofOption_none_bind (f : α → Act σ ε β) :
    ((ofOption none : Act σ ε α) >>= f) s = none := rfl

theorem bind_congr_right {x : Act σ ε α} {f g : α → Act σ ε β} (h : ∀ a s', f a s' = g a s') :
    (x >>= f) s = (x >>= g) s := by
  have hfg : f = g := funext fun a => funext fun s' => h a s'
  rw [hfg]

/-- The action does not stop in any state. -/
def Returns (x : Act σ ε α) : Prop := ∀ s, x s ≠ none

namespace Returns

theorem pure (a : α) : Returns (pure a : Act σ ε α) := nofun

theorem get : Returns (get : Act σ ε σ) := nofun

theorem set (s' : σ) : Returns (set s' : Act σ ε PUnit) := nofun

theorem ofExcept (x : Except ε α) : Returns (ofExcept x : Act σ ε α) := nofun

theorem bind {x : Act σ ε α} {f : α → Act σ ε β} (hx : Returns x) (hf : ∀ a, Returns (f a)) :
    Returns (x >>= f) := by
  intro s
  rcases h : x s with _ | ⟨e | a, s'⟩
  · exact absurd h (hx s)
  · rw [bind_of_error h]
    exact nofun
  · rw [bind_of_ok h]
    exact hf a s'

end Returns

theorem ofRun_some (x : Except ε α) : (ofRun (some x : Run ε α) : Act σ ε α) = ofExcept x := rfl

end Act

end Lib
