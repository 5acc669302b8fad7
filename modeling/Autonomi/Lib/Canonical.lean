/-
  Decoders that take nothing but what was written: the bytes taken from the
  front of an input are the written form of the value.
-/
import Autonomi.Lib.Codec

namespace Lib

variable {α β : Type}

/-- For the value `a` the decoder takes bytes `bs` with `R a bs`. -/
def Takes (d : Decoder α) (R : α → List UInt8 → Prop) : Prop :=
  ∀ ⦃input : List UInt8⦄ ⦃a : α⦄ ⦃t : List UInt8⦄, d input = .ok (a, t) →
    ∃ bs, input = bs ++ t ∧ R a bs

namespace Takes

variable {d : Decoder α} {R : α → List UInt8 → Prop}

theorem mono {S : α → List UInt8 → Prop} (h : Takes d R) (hRS : ∀ a bs, R a bs → S a bs) :
    Takes d S := by
  intro input a t hd
  obtain ⟨bs, hbs, hR⟩ := h hd
  exact ⟨bs, hbs, hRS a bs hR⟩

theorem pure (a : α) : Takes (pure a) fun a' bs => a' = a ∧ bs = [] := by
  intro input a' t hd
  obtain ⟨rfl, rfl⟩ := Prod.mk.inj (Except.ok.inj hd)
  exact ⟨[], rfl, rfl, rfl⟩

theorem throw (e : DecodeError) : Takes (throw e : Decoder α) fun _ _ => False := nofun

/-- One after the other. -/
theorem bind {f : α → Decoder β} {S : α → β → List UInt8 → Prop} (h : Takes d R)
    (hf : ∀ a, Takes (f a) (S a)) :
    Takes (d >>= f) fun b bs => ∃ a bs₁ bs₂, R a bs₁ ∧ S a b bs₂ ∧ bs = bs₁ ++ bs₂ := by
  intro input b t hd
  change (d input >>= fun r => f r.1 r.2) = _ at hd
  rcases hr : d input with e | ⟨a, rest⟩
  · rw [hr] at hd
    cases hd
  · rw [hr] at hd
    obtain ⟨bs₁, rfl, hR⟩ := h hr
    obtain ⟨bs₂, rfl, hS⟩ := hf a hd
    exact ⟨bs₁ ++ bs₂, (List.append_assoc ..).symm, a, bs₁, bs₂, hR, hS, rfl⟩

theorem map (f : α → β) (h : Takes d R) : Takes (f <$> d) fun b bs => ∃ a, b = f a ∧ R a bs := by
  have hmap : f <$> d = d >>= fun a => Pure.pure (f a) := rfl
  rw [hmap]
  refine (h.bind fun a => Takes.pure (f a)).mono ?_
  rintro b _ ⟨a, bs₁, _, hR, ⟨rfl, rfl⟩, rfl⟩
  exact ⟨a, rfl, by rwa [List.append_nil]⟩

theorem ite {c : Prop} [Decidable c] {d' : Decoder α} {R' : α → List UInt8 → Prop}
    (h : Takes d R) (h' : Takes d' R') :
    Takes (if c then d else d') fun a bs => c ∧ R a bs ∨ ¬ c ∧ R' a bs := by
  split_ifs with hc
  · exact h.mono fun a bs hR => .inl ⟨hc, hR⟩
  · exact h'.mono fun a bs hR => .inr ⟨hc, hR⟩

/-! ## Bytes and numbers -/

theorem byte : Takes byte fun b bs => bs = [b] := by
  intro input b t hd
  cases input with
  | nil => cases hd
  | cons b' input =>
    obtain ⟨rfl, rfl⟩ := Prod.mk.inj (Except.ok.inj hd)
    exact ⟨[b'], rfl, rfl⟩

theorem takeBytes (n : ℕ) : Takes (takeBytes n) fun a bs => bs = a ∧ a.length = n := by
  intro input a t hd
  unfold Lib.takeBytes at hd
  split_ifs at hd with hn
  obtain ⟨rfl, rfl⟩ := Prod.mk.inj (Except.ok.inj hd)
  exact ⟨_, (List.take_append_drop n input).symm, rfl, by rw [List.length_take, min_eq_left hn]⟩

theorem byteArray (n : ℕ) : Takes (byteArray n) fun v bs => bs = v.toList := by
  intro input v t hd
  unfold Lib.byteArray at hd
  split_ifs at hd with hn
  obtain ⟨rfl, rfl⟩ := Prod.mk.inj (Except.ok.inj hd)
  exact ⟨_, (List.take_append_drop n input).symm, rfl⟩

end Takes

theorem leBytes_ofLeBytes : ∀ bs : List UInt8, leBytes bs.length (ofLeBytes bs) = bs
  | [] => rfl
  | b :: bs => by
    have hb := b.toNat_lt
    have hdiv : (b.toNat + 256 * ofLeBytes bs) / 256 = ofLeBytes bs := by omega
    rw [List.length_cons, ofLeBytes, leBytes, hdiv, leBytes_ofLeBytes bs]
    congr 1
    refine UInt8.toNat_inj.1 ?_
    rw [UInt8.toNat_ofNat']
    omega

theorem ofLeBytes_lt : ∀ bs : List UInt8, ofLeBytes bs < 256 ^ bs.length
  | [] => by rw [ofLeBytes, List.length_nil, pow_zero]; exact Nat.one_pos
  | b :: bs => by
    have hb := b.toNat_lt
    have ih := ofLeBytes_lt bs
    rw [ofLeBytes, List.length_cons, pow_succ]
    omega

namespace Takes

theorem leNat (k : ℕ) : Takes (leNat k) fun n bs => n < 256 ^ k ∧ bs = leBytes k n := by
  refine ((takeBytes k).map ofLeBytes).mono ?_
  rintro _ bs ⟨_, rfl, rfl, rfl⟩
  exact ⟨ofLeBytes_lt bs, (leBytes_ofLeBytes bs).symm⟩

variable {d : Decoder α} {valid : α → Prop} {enc : α → List UInt8}

/-! ## Repetition and options -/

theorem times (h : Takes d fun a bs => valid a ∧ bs = enc a) : ∀ n : ℕ,
    Takes (times d n) fun as bs => as.length = n ∧ (∀ a ∈ as, valid a) ∧ bs = as.flatMap enc
  | 0 => by
    refine (Takes.pure []).mono ?_
    rintro _ _ ⟨rfl, rfl⟩
    exact ⟨rfl, nofun, rfl⟩
  | n + 1 => by
    refine (h.bind fun a => (times h n).bind fun as => Takes.pure (a :: as)).mono ?_
    rintro _ _ ⟨a, _, _, ⟨ha, rfl⟩, ⟨as, _, _, ⟨rfl, has, rfl⟩, ⟨rfl, rfl⟩, rfl⟩, rfl⟩
    exact ⟨rfl, List.forall_mem_cons.2 ⟨ha, has⟩, by rw [List.append_nil, List.flatMap_cons]⟩

theorem optional (h : Takes d fun a bs => valid a ∧ bs = enc a) :
    Takes (optional d) fun o bs =>
      o = none ∧ bs = [0] ∨ ∃ a, o = some a ∧ valid a ∧ bs = 1 :: enc a := by
  refine (byte.bind fun tag => ite (Takes.pure none) (ite (h.map some) (throw _))).mono ?_
  rintro o _ ⟨tag, _, bs, rfl, h, rfl⟩
  obtain ⟨rfl, rfl, rfl⟩ | ⟨-, ⟨rfl, a, rfl, ha, rfl⟩ | ⟨-, h⟩⟩ := h
  · exact .inl ⟨rfl, rfl⟩
  · exact .inr ⟨a, rfl, ha, rfl⟩
  · exact h.elim

/-- **What breaks off early is refused.** -/
theorem refuses_of_append (h : Takes d fun a bs => valid a ∧ bs = enc a)
    (hreads : ∀ a, valid a → Reads d (enc a) a) {a : α} (ha : valid a) {p u : List UInt8}
    (hp : p ++ u = enc a) (hu : u ≠ []) : ∃ e, d p = .error e := by
  rcases hd : d p with e | ⟨a', t⟩
  · exact ⟨e, rfl⟩
  obtain ⟨_, rfl, ha', rfl⟩ := h hd
  have hshort := hreads a' ha' (t ++ u)
  have hwhole := hreads a ha []
  rw [List.append_nil, ← hp, List.append_assoc, hshort] at hwhole
  obtain ⟨-, hrest⟩ := Prod.mk.inj (Except.ok.inj hwhole)
  exact absurd (List.append_eq_nil_iff.1 hrest).2 hu

end Takes

end Lib
