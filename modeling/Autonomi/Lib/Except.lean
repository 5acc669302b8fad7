/-
  When computations succeed that may fail (`Except`), fail or change a state
  (`StateT σ (Except ε)`), fail or not return (`ExceptT ε Option`).
-/
import Mathlib

namespace Lib

variable {α β ε : Type}

/-- `ok_or_else`. -/
def okOr (e : ε) : Option α → Except ε α
  | some a => .ok a
  | none => .error e

@[simp] theorem okOr_some (e : ε) (a : α) : okOr e (some a) = .ok a := rfl

@[simp] theorem okOr_none (e : ε) : okOr e (none : Option α) = .error e := rfl

@[simp] theorem okOr_eq_ok {e : ε} {o : Option α} {a : α} : okOr e o = .ok a ↔ o = some a := by
  cases o <;> simp [okOr]

theorem bind_eq_ok {x : Except ε α} {f : α → Except ε β} {b : β} :
    x >>= f = .ok b ↔ ∃ a, x = .ok a ∧ f a = .ok b := by
  cases x <;> simp [bind, Except.bind]

theorem bind_eq_error {x : Except ε α} {f : α → Except ε β}
    (h : ∀ a, x = .ok a → ∃ e, f a = .error e) : ∃ e, x >>= f = .error e := by
  cases x with
  | error e => exact ⟨e, rfl⟩
  | ok a => exact h a rfl

theorem bind_error {x : Except ε α} {f : α → Except ε β} (h : ∃ e, x = .error e) :
    ∃ e, x >>= f = .error e := by
  obtain ⟨e, rfl⟩ := h; exact ⟨e, rfl⟩

theorem ne_ok_of_error {x : Except ε α} {a : α} (h : ∃ e, x = .error e) : x ≠ .ok a := by
  obtain ⟨e, he⟩ := h; rw [he]; nofun

theorem eq_ok_of_toOption {x : Except ε α} {a : α} (h : x.toOption = some a) : x = .ok a := by
  cases x with
  | error e => cases h
  | ok b => rw [Option.some.inj h]

theorem mapM_eq_ok {f : α → Except ε β} : ∀ {as : List α} {bs : List β},
    as.mapM f = .ok bs ↔ List.Forall₂ (fun a b => f a = .ok b) as bs
  | [], bs => by
    rw [List.mapM_nil]
    constructor
    · intro h; rw [← Except.ok.inj h]; exact .nil
    · rintro ⟨⟩; rfl
  | a :: as, bs => by
    rw [List.mapM_cons, bind_eq_ok]
    constructor
    · rintro ⟨b, hb, h⟩
      obtain ⟨bs', hbs, h⟩ := bind_eq_ok.1 h
      rw [← Except.ok.inj h]; exact .cons hb (mapM_eq_ok.1 hbs)
    · rintro (_ | ⟨hb, hbs⟩)
      exact ⟨_, hb, bind_eq_ok.2 ⟨_, mapM_eq_ok.2 hbs, rfl⟩⟩

theorem mapM_ok_map {f : α → Except ε β} {g : α → β} {as : List α}
    (h : ∀ a ∈ as, f a = .ok (g a)) : as.mapM f = .ok (as.map g) := by
  rw [mapM_eq_ok, List.forall₂_map_right_iff, List.forall₂_same]; exact h

theorem mapM_isOk {f : α → Except ε β} {as : List α} (h : ∀ a ∈ as, ∃ b, f a = .ok b) :
    ∃ bs, as.mapM f = .ok bs := by
  induction as with
  | nil => exact ⟨[], rfl⟩
  | cons a as ih =>
    obtain ⟨b, hb⟩ := h a List.mem_cons_self
    obtain ⟨bs, hbs⟩ := ih fun a ha => h a (List.mem_cons_of_mem _ ha)
    exact ⟨b :: bs, mapM_eq_ok.2 (.cons hb (mapM_eq_ok.1 hbs))⟩

/-- A function that succeeds where `f` does, with the same values. -/
theorem mapM_mono {f g : α → Except ε β} (hfg : ∀ a b, f a = .ok b → g a = .ok b) {as : List α}
    {bs : List β} (h : as.mapM f = .ok bs) : as.mapM g = .ok bs :=
  mapM_eq_ok.2 ((mapM_eq_ok.1 h).imp hfg)

theorem foldlM_mono {f g : β → α → Except ε β} (hfg : ∀ b a b', f b a = .ok b' → g b a = .ok b') :
    ∀ {as : List α} {b b' : β}, as.foldlM f b = .ok b' → as.foldlM g b = .ok b'
  | [], _, _, h => h
  | a :: as, b, b', h => by
    rw [List.foldlM_cons, bind_eq_ok] at h ⊢
    obtain ⟨b₁, hb, h⟩ := h
    exact ⟨b₁, hfg b a b₁ hb, foldlM_mono hfg h⟩

theorem ok_of_mem {f : α → Except ε β} {as : List α} {bs : List β} {a : α}
    (h : List.Forall₂ (fun a b => f a = .ok b) as bs) (ha : a ∈ as) : ∃ b, f a = .ok b := by
  induction h with
  | nil => cases ha
  | cons hab _ ih =>
    rcases List.mem_cons.1 ha with rfl | ha
    · exact ⟨_, hab⟩
    · exact ih ha

theorem ok_of_mem_result {f : α → Except ε β} {as : List α} {bs : List β} {b : β}
    (h : List.Forall₂ (fun a b => f a = .ok b) as bs) (hb : b ∈ bs) : ∃ a ∈ as, f a = .ok b := by
  induction h with
  | nil => cases hb
  | cons hab _ ih =>
    rcases List.mem_cons.1 hb with rfl | hb
    · exact ⟨_, List.mem_cons_self, hab⟩
    · obtain ⟨a, ha, hf⟩ := ih hb
      exact ⟨a, List.mem_cons_of_mem _ ha, hf⟩

/-- An element that fails makes the whole list fail. -/
theorem mapM_eq_error {f : α → Except ε β} {as : List α} {a : α} (ha : a ∈ as)
    (h : ∃ e, f a = .error e) : ∃ e, as.mapM f = .error e := by
  rcases hm : as.mapM f with e | bs
  · exact ⟨e, rfl⟩
  · obtain ⟨b, hb⟩ := ok_of_mem (mapM_eq_ok.1 hm) ha
    exact absurd hb (ne_ok_of_error h)

theorem foldlM_eq_error {f : β → α → Except ε β} {as : List α} {a : α} (ha : a ∈ as)
    (h : ∀ b, ∃ e, f b a = .error e) : ∀ b, ∃ e, as.foldlM f b = .error e := by
  induction as with
  | nil => cases ha
  | cons a' as ih =>
    intro b
    rw [List.foldlM_cons]
    rcases List.mem_cons.1 ha with rfl | ha
    · exact bind_error (h b)
    · exact bind_eq_error fun b' _ => ih ha b'

/-- `x` fails with such errors only. -/
def FailsWith (p : ε → Prop) (x : Except ε α) : Prop := ∀ e, x = .error e → p e

variable {p : ε → Prop}

theorem failsWith_error {e : ε} (h : p e) : FailsWith p (.error e : Except ε α) := by
  rintro _ ⟨⟩
  exact h

theorem failsWith_okOr {e : ε} (h : p e) (o : Option α) : FailsWith p (okOr e o) := by
  cases o with
  | none => exact failsWith_error h
  | some a => exact nofun

theorem failsWith_mapError {ε' : Type} {g : ε' → ε} (h : ∀ e, p (g e)) (x : Except ε' α) :
    FailsWith p (x.mapError g) := by
  cases x with
  | error e => exact failsWith_error (h e)
  | ok a => exact nofun

theorem FailsWith.bind {x : Except ε α} {f : α → Except ε β} (hx : FailsWith p x)
    (hf : ∀ a, FailsWith p (f a)) : FailsWith p (x >>= f) := by
  cases x with
  | error e => exact failsWith_error (hx e rfl)
  | ok a => exact hf a

theorem FailsWith.mapM {f : α → Except ε β} (hf : ∀ a, FailsWith p (f a)) (as : List α) :
    FailsWith p (as.mapM f) := by
  induction as with
  | nil => exact nofun
  | cons a as ih =>
    rw [List.mapM_cons]
    exact (hf a).bind fun b => ih.bind fun bs => nofun

theorem mapError_eq_ok {ε' : Type} {g : ε → ε'} {x : Except ε α} {a : α} :
    x.mapError g = .ok a ↔ x = .ok a := by
  cases x <;> simp [Except.mapError]

/-! ## With a state -/

section State

variable {σ : Type} {s s' : σ}

theorem stateT_bind_eq_ok {x : StateT σ (Except ε) α} {f : α → StateT σ (Except ε) β} {b : β} :
    (x >>= f) s = .ok (b, s') ↔ ∃ a s₁, x s = .ok (a, s₁) ∧ f a s₁ = .ok (b, s') := by
  change (x s >>= fun r => f r.1 r.2) = _ ↔ _
  rw [bind_eq_ok]
  constructor
  · rintro ⟨⟨a, s₁⟩, hx, hf⟩; exact ⟨a, s₁, hx, hf⟩
  · rintro ⟨a, s₁, hx, hf⟩; exact ⟨(a, s₁), hx, hf⟩

theorem stateT_bind_eq_error {x : StateT σ (Except ε) α} {f : α → StateT σ (Except ε) β}
    (h : ∀ a s₁, x s = .ok (a, s₁) → ∃ e, f a s₁ = .error e) : ∃ e, (x >>= f) s = .error e :=
  bind_eq_error fun r hr => h r.1 r.2 hr

theorem stateT_pure_eq_ok {a b : α} :
    (pure a : StateT σ (Except ε) α) s = .ok (b, s') ↔ a = b ∧ s = s' := by
  change Except.ok (a, s) = _ ↔ _
  rw [Except.ok.injEq, Prod.mk.injEq]

theorem stateT_lift_eq_ok {x : Except ε α} {a : α} :
    (liftM x : StateT σ (Except ε) α) s = .ok (a, s') ↔ x = .ok a ∧ s = s' := by
  cases x with
  | error e => exact iff_of_false (by rintro ⟨⟩) (by rintro ⟨⟨⟩, -⟩)
  | ok b =>
    change Except.ok (b, s) = _ ↔ _
    rw [Except.ok.injEq, Except.ok.injEq, Prod.mk.injEq]

theorem stateT_get_eq_ok {s₁ : σ} :
    (get : StateT σ (Except ε) σ) s = .ok (s₁, s') ↔ s = s₁ ∧ s = s' := by
  change Except.ok (s, s) = _ ↔ _
  rw [Except.ok.injEq, Prod.mk.injEq]

theorem stateT_set_eq_ok {s₁ : σ} {u : PUnit} :
    (set s₁ : StateT σ (Except ε) PUnit) s = .ok (u, s') ↔ s₁ = s' := by
  change Except.ok (PUnit.unit, s₁) = _ ↔ _
  simp

theorem stateT_modify_eq_ok {g : σ → σ} {u : PUnit} :
    (modify g : StateT σ (Except ε) PUnit) s = .ok (u, s') ↔ g s = s' := by
  change Except.ok (PUnit.unit, g s) = _ ↔ _
  simp

end State

/-! ## Computations that need not return -/

/-- `none` is a computation that does not return. -/
abbrev Run (ε α : Type) := ExceptT ε Option α

instance Run.instMonadLift : MonadLift (Except ε) (ExceptT ε Option) :=
  ⟨fun x => ExceptT.mk (some x)⟩

theorem Run.bind_eq_ok {x : Run ε α} {f : α → Run ε β} {b : β} :
    x >>= f = some (.ok b) ↔ ∃ a, x = some (.ok a) ∧ f a = some (.ok b) := by
  rcases x with _ | x
  · constructor
    · intro h; cases h
    · rintro ⟨a, h, -⟩; cases h
  · cases x with
    | error e =>
      constructor
      · intro h; cases h
      · rintro ⟨a, h, -⟩; cases h
    | ok a =>
      constructor
      · intro h; exact ⟨a, rfl, h⟩
      · rintro ⟨a', h, hf⟩; cases h; exact hf

theorem Run.lift_eq_ok {x : Except ε α} {a : α} :
    (liftM x : Run ε α) = some (.ok a) ↔ x = .ok a := by
  change some x = some (.ok a) ↔ _; rw [Option.some_inj]

theorem Run.liftOption_eq_ok {x : Option α} {a : α} :
    (liftM x : Run ε α) = some (.ok a) ↔ x = some a := by
  cases x with
  | none => constructor <;> intro h <;> cases h
  | some b =>
    change some (Except.ok b) = _ ↔ _
    rw [Option.some_inj, Option.some_inj, Except.ok.injEq]

theorem Run.pure_eq_ok {a b : α} : (pure a : Run ε α) = some (.ok b) ↔ a = b := by
  change some (Except.ok a) = _ ↔ _; rw [Option.some_inj, Except.ok.injEq]

def Run.mapError {ε' : Type} (g : ε → ε') (x : Run ε α) : Run ε' α :=
  Option.map (Except.mapError g) x

theorem Run.mapError_eq_ok {ε' : Type} {g : ε → ε'} {x : Run ε α} {a : α} :
    Run.mapError g x = some (.ok a) ↔ x = some (.ok a) := by
  change Option.map _ x = _ ↔ _
  rw [Option.map_eq_some_iff]
  constructor
  · rintro ⟨x, rfl, hx⟩; rw [Lib.mapError_eq_ok.1 hx]
  · rintro rfl; exact ⟨_, rfl, rfl⟩

/-- The computation returns, with a value of which `p` holds. -/
def Run.okWith (p : α → Bool) : Run ε α → Bool
  | some (.ok a) => p a
  | _ => false

theorem Run.of_okWith {p : α → Bool} {x : Run ε α} (h : Run.okWith p x = true) :
    ∃ a, x = some (.ok a) ∧ p a = true := by
  unfold okWith at h
  split at h
  · exact ⟨_, rfl, h⟩
  · cases h

end Lib
