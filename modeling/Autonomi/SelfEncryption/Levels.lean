/-
  The levels of `encrypt`: the functions that call each other compute
  `Encrypts`, and return for every file when chunks are large enough.
-/
import Autonomi.SelfEncryption.Encrypt

namespace Autonomi

open Lib

variable {P : Primitives} {m : ℕ} {data : Bytes} {level : ℕ} {map : DataMap}
  {chunks : List EncryptedChunk}

/-! ## The loop of `shrink_data_map` -/

theorem Encrypts.infos (h : Encrypts P m data level map chunks) :
    map.len ≤ 3 ∧ Indexed map.infos := by
  induction h with
  | root hs hN => exact ⟨by rwa [DataMap.len_mk, length_infosOf], indexed_infosOf⟩
  | shrink _ _ _ _ ih => exact ih

section Loop

variable {σ : Type} {enc : Bytes → ℕ → Run Error (DataMap × List EncryptedChunk)}
  {storeChunk : σ → XorName → Bytes → Except Error σ} {s s' : σ} {acc : List EncryptedChunk}

/-- The loop is not entered. -/
theorem shrinkLoop_small {fuel : ℕ} (h : map.len ≤ 3) :
    shrinkLoop P enc storeChunk (fuel + 1) s map acc = some (.ok (s, map, acc)) := by
  rw [shrinkLoop, if_neg (by omega)]; rfl

/-- The loop runs once: what `enc` returns is small. -/
theorem shrinkLoop_large {fuel : ℕ} {infos : List ChunkInfo} (h : 3 < infos.length)
    (henc : ∀ bytes r, enc bytes 1 = some (.ok r) → r.1.len ≤ 3 ∧ Indexed r.1.infos)
    {r : σ × DataMap × List EncryptedChunk} :
    shrinkLoop P enc storeChunk (fuel + 2) s ⟨infos, none⟩ acc = some (.ok r) ↔
      ∃ bytes map extra s', (DataMap.mk infos none).toBytes = some bytes ∧
        enc bytes 1 = some (.ok (map, extra)) ∧
        extra.foldlM (fun s c => storeChunk s (contentHash P c.content) c.content) s = .ok s' ∧
        r = (s', ⟨map.infos, some 1⟩, acc ++ extra) := by
  rw [shrinkLoop, if_pos (by rwa [DataMap.len_mk])]
  simp only [Run.bind_eq_ok, Run.liftOption_eq_ok, Run.lift_eq_ok]
  constructor
  · rintro ⟨bytes, hb, ⟨map, extra⟩, he, s', hs, hr⟩
    obtain ⟨hl, hi⟩ := henc bytes _ he
    rw [DataMap.withChild_eq hi, shrinkLoop_small (by exact hl)] at hr
    exact ⟨bytes, map, extra, s', hb, he, hs, (Except.ok.inj (Option.some.inj hr)).symm⟩
  · rintro ⟨bytes, map, extra, s', hb, he, hs, rfl⟩
    obtain ⟨hl, hi⟩ := henc bytes _ he
    refine ⟨bytes, hb, (map, extra), he, s', hs, ?_⟩
    rw [DataMap.withChild_eq hi, shrinkLoop_small (by exact hl)]

end Loop

/-- The closure of `encrypt_with_child_level` collects the chunks. -/
theorem foldlM_push (extra : List EncryptedChunk) : ∀ chunks : List EncryptedChunk,
    extra.foldlM (fun (chunks : List EncryptedChunk) (c : EncryptedChunk) =>
      (.ok (chunks ++ [⟨c.content⟩]) : Except Error _)) chunks = .ok (chunks ++ extra) := by
  induction extra with
  | nil => intro chunks; rw [List.append_nil]; rfl
  | cons c extra ih =>
    intro chunks
    rw [List.foldlM_cons]
    exact (ih _).trans (by rw [List.append_assoc]; rfl)

/-! ## The recursion -/

theorem encryptWithChildLevel_succ {fuel : ℕ} :
    encryptWithChildLevel P m (fuel + 1) data level = some (.ok (map, chunks)) ↔
      Sealed P m level data ∧
      ∃ all, shrinkLoop P (encryptWithChildLevel P m fuel)
        (fun chunks _ content => .ok (chunks ++ [⟨content⟩])) (fuel + 2) (chunksOf P m level data)
        ⟨infosOf P m level data, none⟩ [] = some (.ok (chunks, map, all)) := by
  rw [encryptWithChildLevel]
  by_cases h3 : data.length < minEncryptableBytes
  · rw [if_pos h3]
    refine iff_of_false (by rintro ⟨⟩) fun h => ?_
    have := le_of_getNumChunks h.1.three_le
    simp only [minEncryptableBytes, minChunkSize] at h3; omega
  rw [if_neg h3]
  by_cases hN : getNumChunks m data.length < 3
  · rw [if_pos hN]
    exact iff_of_false (by rintro ⟨⟩) fun h => absurd h.1.three_le (by omega)
  rw [if_neg hN]
  have h3 := Nat.le_of_not_lt hN
  simp only [Run.bind_eq_ok, Run.lift_eq_ok, encryptAll_eq_ok h3 (pos_of_getNumChunks h3),
    Run.pure_eq_ok]
  constructor
  · rintro ⟨_, ⟨hs, rfl⟩, ⟨chunks, map, all⟩, hr, heq⟩
    obtain ⟨rfl, rfl⟩ := Prod.mk.inj heq
    rw [new_passEnd] at hr
    exact ⟨hs, all, hr⟩
  · rintro ⟨hs, all, hr⟩
    refine ⟨_, ⟨hs, rfl⟩, (chunks, map, all), ?_, rfl⟩
    rw [new_passEnd]
    exact hr

theorem encrypts_of_eq_ok {fuel : ℕ}
    (h : encryptWithChildLevel P m fuel data level = some (.ok (map, chunks))) :
    Encrypts P m data level map chunks := by
  induction fuel generalizing data level map chunks with
  | zero => nomatch h
  | succ fuel ih =>
    obtain ⟨hs, all, hr⟩ := encryptWithChildLevel_succ.1 h
    rcases Nat.lt_or_ge 3 (getNumChunks m data.length) with hN | hN
    · obtain ⟨bytes, map', extra, chunks', hb, he, hc, hr⟩ :=
        (shrinkLoop_large (by rwa [length_infosOf]) fun bytes r h => (ih h).infos).1 hr
      rw [foldlM_push] at hc
      obtain rfl := Except.ok.inj hc
      obtain ⟨rfl, rfl, -⟩ : _ ∧ _ ∧ _ := by simpa only [Prod.mk.injEq] using hr
      exact .shrink hs hN hb (ih he)
    · rw [shrinkLoop_small (by rwa [DataMap.len_mk, length_infosOf]), Option.some_inj,
        Except.ok.injEq] at hr
      obtain ⟨rfl, rfl, -⟩ : _ ∧ _ ∧ _ := by simpa only [Prod.mk.injEq] using hr
      exact .root hs hN

theorem Encrypts.eq_ok (h : Encrypts P m data level map chunks) :
    ∃ fuel, encryptWithChildLevel P m fuel data level = some (.ok (map, chunks)) := by
  induction h with
  | root hs hN =>
    refine ⟨1, encryptWithChildLevel_succ.2 ⟨hs, [], ?_⟩⟩
    rw [shrinkLoop_small (by rwa [DataMap.len_mk, length_infosOf])]
  | @shrink data bytes level map extra hs hN hb _ ih =>
    obtain ⟨fuel, he⟩ := ih
    refine ⟨fuel + 1, encryptWithChildLevel_succ.2 ⟨hs, extra, ?_⟩⟩
    exact (shrinkLoop_large (by rwa [length_infosOf]) fun _ _ h => (encrypts_of_eq_ok h).infos).2
      ⟨bytes, map, extra, _, hb, he, foldlM_push _ _, rfl⟩

/-- **The recursion computes `Encrypts`.** -/
theorem encryptWithChildLevel_iff :
    (∃ fuel, encryptWithChildLevel P m fuel data level = some (.ok (map, chunks))) ↔
      Encrypts P m data level map chunks :=
  ⟨fun ⟨_, h⟩ => encrypts_of_eq_ok h, Encrypts.eq_ok⟩

theorem Encrypts.unique {map' : DataMap} {chunks' : List EncryptedChunk}
    (h : Encrypts P m data level map chunks) (h' : Encrypts P m data level map' chunks') :
    map = map' ∧ chunks = chunks' := by
  induction h generalizing map' chunks' with
  | root hs hN =>
    cases h' with
    | root => exact ⟨rfl, rfl⟩
    | shrink _ hN' => omega
  | shrink hs hN hb _ ih =>
    cases h' with
    | root _ hN' => omega
    | shrink _ _ hb' h =>
      obtain rfl := Option.some.inj (hb.symm.trans hb')
      obtain ⟨rfl, rfl⟩ := ih h
      exact ⟨rfl, rfl⟩

/-! ## The two last levels -/

theorem length_encode_infosOf (P : Primitives) (m level : ℕ) (data : Bytes) :
    (DataMap.mk (infosOf P m level data) none).encode.length =
      10 + 80 * getNumChunks m data.length := by
  rw [DataMap.length_encode, DataMap.len_mk, length_infosOf]; rfl

/-- The map of a file of more than three chunks is shorter than the file, if chunks are
    large enough for one info with its share of the header. -/
theorem length_encode_lt {n : ℕ} (hm : 110 ≤ m) (hN : 3 < getNumChunks m n) :
    10 + 80 * getNumChunks m n < n := by
  have h3 := le_of_getNumChunks hN.le
  have hlarge : 3 * m ≤ n := by
    by_contra h
    rw [getNumChunks_small h3 (by omega)] at hN; omega
  have h1 := (getNumChunks_large (by omega) h3 hlarge).1
  have h2 : 110 * (getNumChunks m n - 1) ≤ m * (getNumChunks m n - 1) := Nat.mul_le_mul_right _ hm
  omega

/-- A map of more than three infos has at least 330 bytes, too many for three chunks of less
    than 110. -/
theorem le_of_getNumChunks_encode {chunks : ℕ} (hm : 0 < m) (hN : 3 < chunks)
    (h : getNumChunks m (10 + 80 * chunks) ≤ 3) : 110 ≤ m := by
  by_contra hlt
  have hlarge := (getNumChunks_large hm (n := 10 + 80 * chunks) (by omega) (by omega)).2.1
  have := Nat.mul_le_mul_left m h
  omega

theorem Encrypts.sealed (h : Encrypts P m data level map chunks) : Sealed P m level data := by
  cases h <;> assumption

theorem Encrypts.large (h : Encrypts P m data level map chunks) :
    getNumChunks m data.length ≤ 3 ∨ 110 ≤ m := by
  induction h with
  | root _ hN => exact .inl hN
  | @shrink data bytes level map extra hs hN hb _ ih =>
    obtain ⟨rfl, -⟩ := DataMap.toBytes_eq_some hb
    rw [length_encode_infosOf] at ih
    exact .inr (ih.elim (le_of_getNumChunks_encode hs.pos.1 hN) id)

theorem Encrypts.three_le_length (h : Encrypts P m data level map chunks) : 3 ≤ chunks.length := by
  have hlen : (chunksOf P m level data).length = getNumChunks m data.length := by simp [chunksOf]
  cases h with
  | root hs => exact hlen ▸ hs.three_le
  | shrink hs =>
    rw [List.length_append, hlen]
    exact Nat.le_add_right_of_le hs.three_le

/-- Each level takes one unit of fuel, and has fewer bytes than the one before. -/
theorem Encrypts.eq_ok_of_le (h : Encrypts P m data level map chunks) {fuel : ℕ}
    (hfuel : data.length ≤ fuel) :
    encryptWithChildLevel P m fuel data level = some (.ok (map, chunks)) := by
  induction h generalizing fuel with
  | @root data level hs hN =>
    have h3 := hs.pos.2
    obtain ⟨fuel, rfl⟩ := Nat.exists_eq_succ_of_ne_zero (show fuel ≠ 0 by omega)
    refine encryptWithChildLevel_succ.2 ⟨hs, [], ?_⟩
    rw [shrinkLoop_small (by rwa [DataMap.len_mk, length_infosOf])]
  | @shrink data bytes level map extra hs hN hb h ih =>
    have hm := (Encrypts.shrink hs hN hb h).large.resolve_left (by omega)
    have hlt := length_encode_lt hm hN
    obtain ⟨hbytes, -⟩ := DataMap.toBytes_eq_some hb
    have hlen := length_encode_infosOf P m level data
    rw [← hbytes] at hlen
    obtain ⟨fuel, rfl⟩ := Nat.exists_eq_succ_of_ne_zero (show fuel ≠ 0 by omega)
    refine encryptWithChildLevel_succ.2 ⟨hs, extra, ?_⟩
    exact (shrinkLoop_large (by rwa [length_infosOf]) fun _ _ h => (encrypts_of_eq_ok h).infos).2
      ⟨bytes, map, extra, _, hb, ih (by omega), foldlM_push _ _, rfl⟩

/-- A tagged map holds the chunks of another map, that of `data'`; this is the map of the
    file only if it did not need shrinking itself. -/
structure LastLevels (P : Primitives) (m : ℕ) (map : DataMap) (chunks : List EncryptedChunk)
    (level' : ℕ) (data' : Bytes) : Prop where
  sealed : Sealed P m level' data'
  three_lt : 3 < getNumChunks m data'.length
  fits : (DataMap.mk (infosOf P m level' data') none).Fits
  sealed_map : Sealed P m 1 (DataMap.mk (infosOf P m level' data') none).encode
  map_le : getNumChunks m (DataMap.mk (infosOf P m level' data') none).encode.length ≤ 3
  map_eq : map = ⟨infosOf P m 1 (DataMap.mk (infosOf P m level' data') none).encode, some 1⟩
  subset : chunksOf P m level' data' ⊆ chunks
  subset_map : chunksOf P m 1 (DataMap.mk (infosOf P m level' data') none).encode ⊆ chunks

theorem Encrypts.lastLevels (h : Encrypts P m data level map chunks)
    (hN : 3 < getNumChunks m data.length) (hd : data.length ≤ isizeMax) :
    getNumChunks m (10 + 80 * getNumChunks m data.length) ≤ 3 ∧
        LastLevels P m map chunks level data ∨
      3 < getNumChunks m (10 + 80 * getNumChunks m data.length) ∧
        ∃ data', data'.length < data.length ∧ LastLevels P m map chunks 1 data' := by
  induction h with
  | root _ hN' => omega
  | @shrink data bytes level map extra hs hN' hb h ih =>
    obtain ⟨rfl, hlen⟩ := DataMap.toBytes_eq_some hb
    have hlt := length_encode_lt ((Encrypts.shrink hs hN' hb h).large.resolve_left (by omega)) hN'
    rw [length_encode_infosOf] at ih hlen
    rcases Nat.lt_or_ge 3 (getNumChunks m (10 + 80 * getNumChunks m data.length)) with hM | hM
    · have hmono : ∀ {level' data'}, LastLevels P m map extra level' data' →
          LastLevels P m ⟨map.infos, some 1⟩ (chunksOf P m level data ++ extra) level' data' :=
        fun h => ⟨h.sealed, h.three_lt, h.fits, h.sealed_map, h.map_le, by rw [h.map_eq]; rfl,
          List.subset_append_of_subset_right _ h.subset,
          List.subset_append_of_subset_right _ h.subset_map⟩
      refine .inr ⟨hM, ?_⟩
      obtain ⟨-, hl⟩ | ⟨-, data', hlt', hl⟩ := ih hM hlen
      · exact ⟨_, by rwa [length_encode_infosOf], hmono hl⟩
      · exact ⟨data', hlt'.trans hlt, hmono hl⟩
    · refine .inl ⟨hM, ?_⟩
      cases h with
      | root hs' =>
        exact ⟨hs, hN', hs.fits hd, hs', by rwa [length_encode_infosOf], rfl,
          List.subset_append_left _ _, List.subset_append_right _ _⟩
      | shrink _ hM' => rw [length_encode_infosOf] at hM'; omega

/-! ## Every file is encrypted -/

theorem encryptChunk_of_total (hP : P.Total) (content : Bytes) (pki : Pki) :
    ∃ y, encryptChunk P content pki = .ok y := by
  obtain ⟨c, hc⟩ := hP.compress content
  obtain ⟨e, he⟩ := hP.encrypt pki.key pki.nonce c
  refine ⟨xor e pki.pad, ?_⟩
  simp only [encryptChunk, cipherEncrypt, hc, okOr_some, bind_eq_ok, Except.ok.injEq,
    exists_eq_left', he]
  rfl

theorem sealed_of_total (hP : P.Total) (h3 : 3 ≤ getNumChunks m data.length) :
    Sealed P m level data := by
  refine ⟨h3, fun i _ => ?_⟩
  obtain ⟨y, h⟩ := encryptChunk_of_total hP (chunkAt m data i) (pkiAt P m level data i)
  rw [h, cipherAt_eq h]

/-- **Encryption returns**, for chunks that are large enough. -/
theorem exists_encrypts (hP : P.Total) (h3 : 3 ≤ data.length) (hd : data.length ≤ isizeMax)
    (hm : 0 < m) (hm' : getNumChunks m data.length ≤ 3 ∨ 110 ≤ m) :
    ∃ map chunks, Encrypts P m data level map chunks := by
  have hs : ∀ level data, 3 ≤ data.length → Sealed P m level data :=
    fun _ _ h => sealed_of_total hP (three_le_getNumChunks hm h)
  induction hn : data.length using Nat.strong_induction_on generalizing data level with
  | _ n ih =>
    subst hn
    rcases Nat.lt_or_ge 3 (getNumChunks m data.length) with hN | hN
    · have hm : 110 ≤ m := by omega
      obtain ⟨bytes, hb, hlt⟩ : ∃ bytes, (DataMap.mk (infosOf P m level data) none).toBytes =
          some bytes ∧ 3 ≤ bytes.length ∧ bytes.length < data.length := by
        have hlen := length_encode_infosOf P m level data
        have hlt := length_encode_lt hm hN
        refine ⟨_, by rw [DataMap.toBytes, if_pos (by omega)], by omega, by omega⟩
      obtain ⟨map, extra, h⟩ : ∃ map extra, Encrypts P m bytes 1 map extra :=
        ih bytes.length hlt.2 hlt.1 (by omega) (.inr hm) rfl
      exact ⟨_, _, .shrink (hs _ _ h3) hN hb h⟩
    · exact ⟨_, _, .root (hs _ _ h3) hN⟩

/-- **When `encrypt` returns.** -/
theorem encrypt_returns_iff (hP : P.Total) (hm : 0 < m) (h3 : 3 ≤ data.length)
    (hd : data.length ≤ isizeMax) :
    (∃ fuel map chunks, encrypt P m fuel data = some (.ok (map, chunks))) ↔
      getNumChunks m data.length ≤ 3 ∨ 110 ≤ m := by
  constructor
  · rintro ⟨fuel, map, chunks, h⟩
    exact (encrypts_of_eq_ok h).large
  · intro hm'
    obtain ⟨map, chunks, h⟩ := exists_encrypts hP h3 hd hm hm'
    obtain ⟨fuel, he⟩ := h.eq_ok
    exact ⟨fuel, map, chunks, he⟩

end Autonomi
