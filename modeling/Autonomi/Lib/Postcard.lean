/-
  The wire format of `postcard`: numbers in LEB128, the tag of a variant as such
  a number, byte strings and texts behind their length.
-/
import Autonomi.Lib.Codec
import Autonomi.Lib.Except

namespace Lib

/-! ## Numbers -/

/-- The most bytes that a number of `bits` bits takes. -/
def varintMax (bits : ℕ) : ℕ := (bits + 6) / 7

/-- What the last of these bytes may hold. -/
def maxOfLastByte (bits : ℕ) : ℕ := 2 ^ (bits % 7) - 1

/-- Seven bits in a byte, the lowest first, each byte but the last with its high bit set. -/
def leb128 : ℕ → ℕ → List UInt8
  | 0, _ => []
  | k + 1, n =>
    if n < 128 then [UInt8.ofNat n] else UInt8.ofNat (n % 128 + 128) :: leb128 k (n / 128)

def varint (bits n : ℕ) : List UInt8 := leb128 (varintMax bits) n

def badVarint : DecodeError :=
  .custom "Found a varint that didn't terminate. Is the usize too big for this platform?"

/-- At most `k` bytes, of which the `k`-th holds no more than `last`. -/
def readLeb128 (last : ℕ) : ℕ → Decoder ℕ
  | 0 => throw badVarint
  | k + 1 => do
    let b ← byte
    if b.toNat < 128 then
      if k = 0 ∧ last < b.toNat then throw badVarint else pure b.toNat
    else do
      let n ← readLeb128 last k
      pure (b.toNat - 128 + 128 * n)

def readVarint (bits : ℕ) : Decoder ℕ := readLeb128 (maxOfLastByte bits) (varintMax bits)

theorem Reads.leb128 {last : ℕ} (hlast : last < 128) : ∀ {k n : ℕ}, n < 128 ^ k * (last + 1) →
    Reads (readLeb128 last (k + 1)) (leb128 (k + 1) n) n := by
  intro k
  induction k with
  | zero =>
    intro n h t
    have hn : n < 128 := by omega
    have hb : (UInt8.ofNat n).toNat = n := by simp; omega
    rw [Lib.leb128, if_pos hn]
    change (if (UInt8.ofNat n).toNat < 128 then _ else _ : Decoder ℕ) t = _
    rw [hb, if_pos hn, if_neg (by omega)]
    rfl
  | succ k ih =>
    intro n h t
    rw [Lib.leb128]
    by_cases hn : n < 128
    · have hb : (UInt8.ofNat n).toNat = n := by simp; omega
      rw [if_pos hn]
      change (if (UInt8.ofNat n).toNat < 128 then _ else _ : Decoder ℕ) t = _
      rw [hb, if_pos hn, if_neg (by omega)]
      rfl
    · have hb : (UInt8.ofNat (n % 128 + 128)).toNat = n % 128 + 128 := by simp; omega
      have hdiv : n / 128 < 128 ^ k * (last + 1) := by
        rw [Nat.div_lt_iff_lt_mul (by decide)]
        calc n < 128 ^ (k + 1) * (last + 1) := h
          _ = 128 ^ k * (last + 1) * 128 := by ring
      rw [if_neg hn]
      change (if (UInt8.ofNat (n % 128 + 128)).toNat < 128 then _ else _ : Decoder ℕ)
        (Lib.leb128 (k + 1) (n / 128) ++ t) = _
      rw [hb, if_neg (by omega)]
      change (readLeb128 last (k + 1) (Lib.leb128 (k + 1) (n / 128) ++ t) >>= fun r =>
        Except.ok (n % 128 + 128 - 128 + 128 * r.1, r.2)) = _
      rw [ih hdiv]
      change Except.ok (_, t) = _
      rw [show n % 128 + 128 - 128 + 128 * (n / 128) = n by omega]

/-- A number is read back from the bytes it is written in. -/
theorem Reads.varint {bits n : ℕ} (hbits : bits % 7 ≠ 0) (h : n < 2 ^ bits) :
    Reads (readVarint bits) (varint bits n) n := by
  have hmax : varintMax bits = bits / 7 + 1 := by unfold varintMax; omega
  have hlast : maxOfLastByte bits + 1 = 2 ^ (bits % 7) := by
    have := Nat.one_le_two_pow (n := bits % 7)
    unfold maxOfLastByte; omega
  have hlt : maxOfLastByte bits < 128 := by
    have := Nat.pow_lt_pow_right (a := 2) (by decide) (Nat.mod_lt bits (show 0 < 7 by decide))
    omega
  rw [readVarint, Lib.varint, hmax]
  refine Reads.leb128 hlt ?_
  calc n < 2 ^ bits := h
    _ = 2 ^ (7 * (bits / 7) + bits % 7) := by rw [Nat.div_add_mod]
    _ = 128 ^ (bits / 7) * (maxOfLastByte bits + 1) := by rw [pow_add, pow_mul, hlast]; norm_num

/-- Only what fits is read back. -/
theorem lt_of_readLeb128 {last : ℕ} (hlast : last < 128) : ∀ {k n m : ℕ} {t t' : List UInt8},
    readLeb128 last (k + 1) (leb128 (k + 1) n ++ t) = .ok (m, t') → n < 128 ^ k * (last + 1) := by
  intro k
  induction k with
  | zero =>
    intro n m t t' h
    rw [leb128] at h
    by_cases hn : n < 128
    · have hb : (UInt8.ofNat n).toNat = n := by simp; omega
      rw [if_pos hn] at h
      change (if (UInt8.ofNat n).toNat < 128 then _ else _ : Decoder ℕ) t = _ at h
      rw [hb, if_pos hn] at h
      by_cases hl : last < n
      · rw [if_pos ⟨rfl, hl⟩] at h; cases h
      · omega
    · have hb : (UInt8.ofNat (n % 128 + 128)).toNat = n % 128 + 128 := by simp; omega
      rw [if_neg hn] at h
      change (if (UInt8.ofNat (n % 128 + 128)).toNat < 128 then _ else _ : Decoder ℕ) _ = _ at h
      rw [hb, if_neg (by omega)] at h
      cases h
  | succ k ih =>
    intro n m t t' h
    rw [leb128] at h
    by_cases hn : n < 128
    · have := Nat.one_le_pow (k + 1) 128 (by decide)
      calc n < 128 := hn
        _ ≤ 128 ^ (k + 1) := Nat.le_self_pow (by omega) 128
        _ ≤ 128 ^ (k + 1) * (last + 1) := Nat.le_mul_of_pos_right _ (by omega)
    · have hb : (UInt8.ofNat (n % 128 + 128)).toNat = n % 128 + 128 := by simp; omega
      rw [if_neg hn] at h
      change (if (UInt8.ofNat (n % 128 + 128)).toNat < 128 then _ else _ : Decoder ℕ)
        (leb128 (k + 1) (n / 128) ++ t) = _ at h
      rw [hb, if_neg (by omega)] at h
      obtain ⟨m', t₁, hm, -⟩ := stateT_bind_eq_ok.1 h
      have hdiv := ih hm
      rw [Nat.div_lt_iff_lt_mul (by decide)] at hdiv
      calc n < 128 ^ k * (last + 1) * 128 := hdiv
        _ = 128 ^ (k + 1) * (last + 1) := by ring

theorem length_of_readLeb128 {last : ℕ} : ∀ {k m : ℕ} {bs t : List UInt8},
    readLeb128 last k bs = .ok (m, t) → t.length ≤ bs.length := by
  intro k
  induction k with
  | zero => intro m bs t h; cases h
  | succ k ih =>
    intro m bs t h
    obtain ⟨b, t₁, hb, h⟩ := stateT_bind_eq_ok.1 h
    have hlen : t₁.length ≤ bs.length := by
      cases bs with
      | nil => cases hb
      | cons b' bs => cases hb; simp
    by_cases hlt : b.toNat < 128
    · rw [if_pos hlt] at h
      by_cases hbad : k = 0 ∧ last < b.toNat
      · rw [if_pos hbad] at h; cases h
      · rw [if_neg hbad] at h
        rw [← (stateT_pure_eq_ok.1 h).2]
        exact hlen
    · rw [if_neg hlt] at h
      obtain ⟨n, t₂, hn, h⟩ := stateT_bind_eq_ok.1 h
      rw [← (stateT_pure_eq_ok.1 h).2]
      exact (ih hn).trans hlen

theorem length_leb128_le : ∀ k n, (leb128 k n).length ≤ k
  | 0, _ => le_rfl
  | k + 1, n => by
    rw [leb128]
    split_ifs
    · simp
    · have := length_leb128_le k (n / 128)
      simp only [List.length_cons]; omega

/-- A number is written alike for all widths that it fits. -/
theorem leb128_eq {k k' : ℕ} (hk : k ≤ k') : ∀ {n : ℕ}, n < 128 ^ (k + 1) →
    leb128 (k' + 1) n = leb128 (k + 1) n := by
  induction k generalizing k' with
  | zero =>
    intro n h
    rw [leb128, leb128, if_pos (by omega), if_pos (by omega)]
  | succ k ih =>
    intro n h
    obtain ⟨k', rfl⟩ := Nat.exists_eq_succ_of_ne_zero (show k' ≠ 0 by omega)
    have hdiv : n / 128 < 128 ^ (k + 1) := by
      rw [Nat.div_lt_iff_lt_mul (by decide)]
      exact h
    conv_lhs => rw [leb128, ih (by omega) hdiv]
    rfl

theorem varint_eq {bits bits' n : ℕ} (h : n < 2 ^ bits) (hpos : 0 < bits) (hle : bits ≤ bits') :
    varint bits' n = varint bits n := by
  have hmax : varintMax bits = (bits - 1) / 7 + 1 := by unfold varintMax; omega
  have hmax' : varintMax bits' = (bits' - 1) / 7 + 1 := by unfold varintMax; omega
  rw [varint, varint, hmax, hmax']
  refine leb128_eq (by omega) (h.trans_le ?_)
  calc 2 ^ bits ≤ 2 ^ (7 * ((bits - 1) / 7 + 1)) := Nat.pow_le_pow_right (by decide) (by omega)
    _ = 128 ^ ((bits - 1) / 7 + 1) := by rw [pow_mul]; norm_num

/-! ## Byte strings and texts -/

def putBytes (bs : List UInt8) : List UInt8 := varint 64 bs.length ++ bs

def readBytes : Decoder (List UInt8) := do
  let n ← readVarint 64
  takeBytes n

theorem Reads.bytes {bs : List UInt8} (h : bs.length < 2 ^ 64) :
    Reads readBytes (putBytes bs) bs :=
  (Reads.varint (by decide) h).bind (Reads.takeBytes bs)

theorem readBytes_putBytes {bs bs' t t' : List UInt8} (h : readBytes (putBytes bs ++ t) = .ok (bs', t')) :
    bs' = bs ∧ t' = t := by
  obtain ⟨m, t₁, hm, -⟩ := stateT_bind_eq_ok.1 h
  rw [putBytes, List.append_assoc] at hm
  have hlt : bs.length < 2 ^ 64 := lt_of_readLeb128 (k := 9) (by decide) hm
  rw [Reads.bytes hlt] at h
  cases h
  exact ⟨rfl, rfl⟩

theorem length_of_readBytes {bs bs' t : List UInt8} (h : readBytes bs = .ok (bs', t)) :
    bs'.length ≤ bs.length := by
  obtain ⟨n, t₁, hn, h⟩ := stateT_bind_eq_ok.1 h
  have hlen := length_of_readLeb128 hn
  rw [takeBytes] at h
  split_ifs at h with hle
  cases h
  rw [List.length_take]
  omega

def putString (s : String) : List UInt8 := putBytes s.toUTF8.data.toList

def utf8 (bs : List UInt8) : Decoder String :=
  match String.fromUTF8? ⟨bs.toArray⟩ with
  | some s => pure s
  | none => throw (.custom "Tried to parse invalid utf-8")

def readString : Decoder String := readBytes >>= utf8

theorem Reads.utf8 (s : String) : Reads (utf8 s.toUTF8.data.toList) [] s := by
  have hs : String.fromUTF8? s.toUTF8 = some s := by
    simp only [String.fromUTF8?, String.toUTF8_eq_toByteArray, dif_pos s.isValidUTF8]
    rfl
  intro t
  rw [Lib.utf8, Array.toArray_toList, hs]
  rfl

theorem Reads.string {s : String} (h : s.toUTF8.size < 2 ^ 64) :
    Reads readString (putString s) s := by
  have hb : Reads readBytes (putString s) s.toUTF8.data.toList := Reads.bytes h
  have hr := hb.bind (Reads.utf8 s)
  rwa [List.append_nil] at hr

/-- One byte, 0 or 1. -/
def putBool (b : Bool) : List UInt8 := [if b then 1 else 0]

def readBool : Decoder Bool := do
  let b ← byte
  if b = 0 then pure false
  else if b = 1 then pure true
  else throw (.custom "Found a bool that wasn't 0 or 1")

theorem Reads.bool (b : Bool) : Reads readBool (putBool b) b := by
  cases b <;> exact fun _ => rfl

/-- The tag in front of a variant. -/
def putTag (i : ℕ) : List UInt8 := varint 32 i

def badTag : DecodeError := .custom "Serde Deserialization Error"

theorem Reads.tag {α : Type} {i : ℕ} {f : ℕ → Decoder α} {bs : List UInt8} {a : α} (h : i < 2 ^ 32)
    (hf : Reads (f i) bs a) : Reads (readVarint 32 >>= f) (putTag i ++ bs) a :=
  (Reads.varint (by decide) h).bind hf

end Lib
