/-
  Actions that leave events behind, also where they fail or do not return.
-/
import Autonomi.Lib.Act

namespace Lib

namespace Act

variable {σ ε α β ι : Type}

theorem ofExcept_bind (x : Except ε α) (f : α → Except ε β) :
    (ofExcept (x >>= f) : Act σ ε β) = ofExcept x >>= fun a => ofExcept (f a) := by
  funext s
  cases x <;> rfl

theorem ofExcept_foldlM (f : β → ι → Except ε β) : ∀ (l : List ι) (b : β),
    (ofExcept (l.foldlM f b) : Act σ ε β) = l.foldlM (fun b i => ofExcept (f b i)) b
  | [], _ => rfl
  | i :: l, b => by
    rw [List.foldlM_cons, List.foldlM_cons, ofExcept_bind]
    exact congrArg _ (funext fun b' => ofExcept_foldlM f l b')

theorem ofRun_bind (x : ExceptT ε Option α) (f : α → ExceptT ε Option β) :
    (ofRun (x >>= f) : Act σ ε β) = ofRun x >>= fun a => ofRun (f a) := by
  funext s
  match x with
  | none => rfl
  | some (.error e) => rfl
  | some (.ok a) => rfl

end Act

/-- The events, and what comes of the action. -/
def Traced (ω σ ε α : Type) : Type := σ → List ω × Option (Except ε α × σ)

namespace Traced

variable {ω σ ε α β ι : Type}

protected def pure (a : α) : Traced ω σ ε α := fun s => ([], some (.ok a, s))

protected def bind (x : Traced ω σ ε α) (f : α → Traced ω σ ε β) : Traced ω σ ε β := fun s =>
  match (x s).2 with
  | none => ((x s).1, none)
  | some (.error e, s') => ((x s).1, some (.error e, s'))
  | some (.ok a, s') => ((x s).1 ++ (f a s').1, (f a s').2)

instance : Monad (Traced ω σ ε) where
  pure := Traced.pure
  bind := Traced.bind

def emit (w : ω) : Traced ω σ ε Unit := fun s => ([w], some (.ok (), s))

/-- An action without events. -/
def lift (x : Act σ ε α) : Traced ω σ ε α := fun s => ([], x s)

abbrev ofExcept (x : Except ε α) : Traced ω σ ε α := lift (Act.ofExcept x)

abbrev ofRun (x : ExceptT ε Option α) : Traced ω σ ε α := lift (Act.ofRun x)

/-- The action without its events. -/
def erase (x : Traced ω σ ε α) : Act σ ε α := fun s => (x s).2

/-! ## Erasure -/

variable {x : Traced ω σ ε α} {f : α → Traced ω σ ε β} {s s' : σ}

@[simp] theorem erase_pure (a : α) : erase (pure a : Traced ω σ ε α) = pure a := rfl

@[simp] theorem erase_lift (x : Act σ ε α) : erase (lift x : Traced ω σ ε α) = x := rfl

@[simp] theorem erase_emit (w : ω) : erase (emit w : Traced ω σ ε Unit) = pure () := rfl

@[simp] theorem erase_bind (x : Traced ω σ ε α) (f : α → Traced ω σ ε β) :
    erase (x >>= f) = erase x >>= fun a => erase (f a) := by
  funext s
  change (Traced.bind x f s).2 = (x s).2.bind _
  rw [Traced.bind]
  match hx : (x s).2 with
  | none => rfl
  | some (.error e, s') => rfl
  | some (.ok a, s') => rfl

theorem erase_foldlM {step : β → ι → Traced ω σ ε β} {step' : β → ι → Act σ ε β}
    (h : ∀ b i, erase (step b i) = step' b i) :
    ∀ (l : List ι) (b : β), erase (l.foldlM step b) = l.foldlM step' b := by
  intro l
  induction l with
  | nil => exact fun _ => rfl
  | cons i l ih =>
    intro b
    rw [List.foldlM_cons, List.foldlM_cons, erase_bind, h]
    congr 1
    funext b'
    exact ih b'

/-! ## What is left behind -/

variable {G : ω → Prop} {Q : α → σ → Prop} {R : σ → Prop}

/-- From `s`, the events of `x` meet `G`, what it returns `Q`, and where it fails the state `R`. -/
structure Emits (x : Traced ω σ ε α) (s : σ) (G : ω → Prop) (Q : α → σ → Prop) (R : σ → Prop) :
    Prop where
  events : ∀ w ∈ (x s).1, G w
  ok : ∀ a s', (x s).2 = some (.ok a, s') → Q a s'
  error : ∀ e s', (x s).2 = some (.error e, s') → R s'

theorem Emits.mono {Q' : α → σ → Prop} (h : Emits x s G Q R) (hQ : ∀ a s', Q a s' → Q' a s') :
    Emits x s G Q' R :=
  ⟨h.events, fun a s' hx => hQ a s' (h.ok a s' hx), h.error⟩

theorem emits_pure {a : α} (h : Q a s) : Emits (pure a : Traced ω σ ε α) s G Q R where
  events w hw := absurd hw List.not_mem_nil
  ok a' s' hx := by
    obtain ⟨ha, rfl⟩ := Prod.mk.inj (Option.some.inj hx)
    rwa [← Except.ok.inj ha]
  error e s' hx := by cases hx

theorem emits_emit {w : ω} {Q : Unit → σ → Prop} (hw : G w) (h : Q () s) :
    Emits (emit w : Traced ω σ ε Unit) s G Q R where
  events w' hw' := by rwa [List.mem_singleton.1 hw']
  ok a' s' hx := by
    obtain ⟨-, rfl⟩ := Prod.mk.inj (Option.some.inj hx)
    exact h
  error e s' hx := by cases hx

theorem emits_lift {x : Act σ ε α} (hok : ∀ a s', x s = some (.ok a, s') → Q a s')
    (herror : ∀ e s', x s = some (.error e, s') → R s') :
    Emits (lift x : Traced ω σ ε α) s G Q R :=
  ⟨fun _ hw => absurd hw List.not_mem_nil, hok, herror⟩

theorem emits_of_ok {x : Act σ ε α} {a : α} (hx : x s = some (.ok a, s')) (h : Q a s') :
    Emits (lift x : Traced ω σ ε α) s G Q R := by
  refine emits_lift (fun a' s'' hx' => ?_) fun e s'' hx' => ?_
  · obtain ⟨ha, rfl⟩ := Prod.mk.inj (Option.some.inj (hx.symm.trans hx'))
    rwa [← Except.ok.inj ha]
  · rw [hx] at hx'
    cases hx'

theorem emits_of_error {x : Act σ ε α} (hx : ∃ e, x s = some (.error e, s')) (h : R s') :
    Emits (lift x : Traced ω σ ε α) s G Q R := by
  obtain ⟨e, hx⟩ := hx
  refine emits_lift (fun a s'' hx' => ?_) fun e' s'' hx' => ?_
  · rw [hx] at hx'
    cases hx'
  · obtain ⟨-, rfl⟩ := Prod.mk.inj (Option.some.inj (hx.symm.trans hx'))
    exact h

theorem emits_get {Q : σ → σ → Prop} (h : Q s s) :
    Emits (lift get : Traced ω σ ε σ) s G Q R :=
  emits_of_ok rfl h

theorem emits_modify {g : σ → σ} {Q : PUnit → σ → Prop} (h : Q ⟨⟩ (g s)) :
    Emits (lift (modify g) : Traced ω σ ε PUnit) s G Q R :=
  emits_of_ok rfl h

theorem emits_set {s₁ : σ} {Q : PUnit → σ → Prop} (h : Q ⟨⟩ s₁) :
    Emits (lift (set s₁) : Traced ω σ ε PUnit) s G Q R :=
  emits_of_ok rfl h

theorem emits_ofExcept {y : Except ε α} (hok : ∀ a, y = .ok a → Q a s) (herror : R s) :
    Emits (ofExcept y : Traced ω σ ε α) s G Q R := by
  refine emits_lift (fun a s' hx => ?_) fun e s' hx => ?_
  · obtain ⟨ha, rfl⟩ := Prod.mk.inj (Option.some.inj hx)
    exact hok a ha
  · obtain ⟨-, rfl⟩ := Prod.mk.inj (Option.some.inj hx)
    exact herror

theorem emits_ofRun {y : ExceptT ε Option α} (hok : ∀ a, y = some (.ok a) → Q a s) (herror : R s) :
    Emits (ofRun y : Traced ω σ ε α) s G Q R := by
  refine emits_lift (fun a s' hx => ?_) fun e s' hx => ?_
  · obtain ⟨r, hr, hx⟩ := Option.map_eq_some_iff.1 hx
    obtain ⟨rfl, rfl⟩ := Prod.mk.inj hx
    exact hok a hr
  · obtain ⟨r, hr, hx⟩ := Option.map_eq_some_iff.1 hx
    obtain ⟨-, rfl⟩ := Prod.mk.inj hx
    exact herror

theorem emits_bind {Q : β → σ → Prop} (h : Emits x s G (fun a s' => Emits (f a) s' G Q R) R) :
    Emits (x >>= f) s G Q R := by
  change Emits (Traced.bind x f) s G Q R
  match hx : (x s).2 with
  | none =>
    have hbind : Traced.bind x f s = ((x s).1, none) := by rw [Traced.bind, hx]
    refine ⟨fun w hw => h.events w (by rwa [hbind] at hw), fun a s' hr => ?_, fun e s' hr => ?_⟩
    · rw [hbind] at hr; cases hr
    · rw [hbind] at hr; cases hr
  | some (.error e, s') =>
    have hbind : Traced.bind x f s = ((x s).1, some (.error e, s')) := by rw [Traced.bind, hx]
    refine ⟨fun w hw => h.events w (by rwa [hbind] at hw), fun a s' hr => ?_, fun e' s'' hr => ?_⟩
    · rw [hbind] at hr; cases hr
    · rw [hbind] at hr
      obtain ⟨-, rfl⟩ := Prod.mk.inj (Option.some.inj hr)
      exact h.error e s' hx
  | some (.ok a, s') =>
    have hbind : Traced.bind x f s = ((x s).1 ++ (f a s').1, (f a s').2) := by rw [Traced.bind, hx]
    have hf := h.ok a s' hx
    refine ⟨fun w hw => ?_, fun b s'' hr => hf.ok b s'' (by rwa [hbind] at hr),
      fun e s'' hr => hf.error e s'' (by rwa [hbind] at hr)⟩
    rw [hbind] at hw
    exact (List.mem_append.1 hw).elim (h.events w) (hf.events w)

theorem emits_ite {p : Prop} [Decidable p] {y : Traced ω σ ε α} (hx : p → Emits x s G Q R)
    (hy : ¬ p → Emits y s G Q R) : Emits (if p then x else y) s G Q R := by
  split_ifs with h
  · exact hx h
  · exact hy h

/-- A loop keeps what each turn keeps. -/
theorem emits_foldlM {step : β → ι → Traced ω σ ε β} {I : β → σ → Prop} {l : List ι}
    (hstep : ∀ i ∈ l, ∀ b s, I b s → Emits (step b i) s G I R) {b : β} (h : I b s) :
    Emits (l.foldlM step b) s G I R := by
  induction l generalizing b s with
  | nil => exact emits_pure h
  | cons i l ih =>
    rw [List.foldlM_cons]
    refine emits_bind ((hstep i List.mem_cons_self b s h).mono fun b' s' h' => ?_)
    exact ih (fun j hj => hstep j (List.mem_cons_of_mem _ hj)) h'

/-- The turns of a loop over a range are numbered. -/
theorem emits_foldlM_range {step : β → ℕ → Traced ω σ ε β} {I : ℕ → β → σ → Prop}
    (hstep : ∀ i b s, I i b s → Emits (step b i) s G (I (i + 1)) R) {n : ℕ} {b : β}
    (h : I 0 b s) : Emits ((List.range n).foldlM step b) s G (I n) R := by
  have hfrom : ∀ n k b s, I k b s →
      Emits ((List.range' k n).foldlM step b) s G (I (k + n)) R := by
    intro n
    induction n with
    | zero => exact fun k b s h => emits_pure h
    | succ n ih =>
      intro k b s h
      rw [List.range'_succ, List.foldlM_cons, show k + (n + 1) = k + 1 + n by omega]
      exact emits_bind ((hstep k b s h).mono fun b' s' h' => ih (k + 1) b' s' h')
  have := hfrom n 0 b s h
  rwa [← List.range_eq_range', Nat.zero_add] at this

end Traced

end Lib
