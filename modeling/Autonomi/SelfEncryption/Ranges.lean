/-
  The range methods of a stream (`self_encryption/src/stream_decrypt.rs`) as
  slices of the file, for all numbers that a `usize` holds.
-/
import Autonomi.SelfEncryption.Checked
import Autonomi.SelfEncryption.RandomAccess

namespace Autonomi

open Lib DecryptionStream

namespace Checked

variable (W : ℕ) (P : Primitives) (fetch : Fetch)

def range (start stop : ℕ) : Decryption Bytes := getRange W P fetch start (stop - start)

def rangeFrom (start : ℕ) : Decryption Bytes := do
  let s ← get
  let fileSize ← Act.ofOption (fileSize W s)
  getRange W P fetch start (fileSize - start)

def rangeTo (stop : ℕ) : Decryption Bytes := getRange W P fetch 0 stop

def rangeFull : Decryption Bytes := do
  let s ← get
  let fileSize ← Act.ofOption (fileSize W s)
  getRange W P fetch 0 fileSize

def rangeInclusive (start stop : ℕ) : Decryption Bytes := do
  let len ← Act.ofOption (Word.add W (stop - start) 1)
  getRange W P fetch start len

end Checked

/-- The callback returns the chunks that it is asked for, in any order. -/
def Fetch.Correct (P : Primitives) (m : ℕ) (data : Bytes) (fetch : Fetch) : Prop :=
  ∀ (n : ℕ) (is : List ℕ), (∀ i ∈ is, i < getNumChunks m data.length) →
    ∃ fetched, fetch n (requestsOf P m 0 data is) = .ok fetched ∧
      fetched.Perm (fetchedOf P m 0 data is)

variable {P : Primitives} {m : ℕ} {data : Bytes} {fetch : Fetch} {s t : DecryptionStream}

/-- A file is read from its root map, whatever has been read from the stream. -/
theorem opened_of_root {pass : Pass} (hm : 0 < m) (h3 : 3 ≤ data.length)
    (hpass : encryptAll P m data 0 = .ok pass)
    (hs : streamingDecrypt P fetch (.new pass.chunkInfos) = .ok s) (ht : t.SameMap s) :
    Sealed P m 0 data ∧ Opened P m 0 data t := by
  obtain ⟨hsealed, rfl⟩ := (encryptAll_eq_ok (three_le_getNumChunks hm h3) hm).1 hpass
  rw [new_passEnd] at hs
  obtain rfl := Except.ok.inj hs
  refine ⟨hsealed, ?_, ?_, ht.childLevel⟩
  · exact ht.chunkInfos.trans (sortByIndex_eq indexed_infosOf)
  · rw [ht.srcHashes]
    simp [extractHashes, infosOf, infoAt]

/-- A range of which nothing is missing. -/
theorem Opened.getRange_correct (h : Opened P m 0 data t) (hP : P.Lawful) (hs : Sealed P m 0 data)
    (hf : fetch.Correct P m data) (start len : ℕ) :
    ∃ t', getRange P fetch start len t = some (.ok (slice data start (start + len)), t') := by
  by_cases hrange : data.length ≤ start ∨ len = 0
  · refine ⟨t, ?_⟩
    rw [h.getRange_empty hs hrange]
    rcases hrange with hrange | rfl
    · rw [slice_of_length_le _ _ hrange]
    · rw [Nat.add_zero, slice_self]
  obtain ⟨hstart, hlen⟩ := not_or.1 hrange
  have hstart := Nat.lt_of_not_le hstart
  have hlen := Nat.pos_of_ne_zero hlen
  obtain ⟨-, hab, hb, hstop⟩ := h.range hs hstart hlen
  have hbound : ∀ i ∈ List.range' (t.startChunk start) (t.endChunk start len + 1 - t.startChunk start),
      i < getNumChunks m data.length := by
    intro i hi
    rw [List.mem_range'_1] at hi
    omega
  obtain ⟨fetched, hans, hperm⟩ := hf t.calls _ hbound
  have hfetched : fetched = fetchedOf P m 0 data (fetched.map Prod.fst) := by
    rw [fetchedOf, List.map_map]
    refine (List.map_id fetched).symm.trans (List.map_congr_left fun p hp => ?_)
    obtain ⟨i, -, rfl⟩ := List.mem_map.1 (hperm.subset hp)
    rfl
  have hindices := hperm.map Prod.fst
  rw [map_fst_fetchedOf] at hindices
  rw [← h.requiredHashes hb, ← rangeRequest] at hans
  have hdecrypt := decryptPresent_eq hP hs h.keyed (fetched.map Prod.fst) hbound
  rw [← hfetched] at hdecrypt
  refine ⟨{ t with calls := t.calls + 1 }, ?_⟩
  rw [h.getRange_ok hs hstart hlen hans hdecrypt]
  simp only [Except.map, Option.some.injEq, Prod.mk.injEq, Except.ok.injEq, and_true]
  have hpresent : ∀ i, t.startChunk start ≤ i → i ≤ t.endChunk start len →
      i ∈ fetched.map Prod.fst :=
    fun i ha hb => hindices.symm.subset (List.mem_range'_1.2 ⟨ha, by omega⟩)
  have hall : slice (withoutMissing m data (t.startChunk start) (t.endChunk start len)
      (fetched.map Prod.fst)) start _ = slice data start _ :=
    slice_withoutMissing hab hpresent hstop
  rw [withoutMissing] at hall
  rw [hall, slice_min_length]

/-- The call returns these bytes. -/
def Denotes (x : Decryption Bytes) (t : DecryptionStream) (bytes : Bytes) : Prop :=
  ∃ t', x t = some (.ok bytes, t')

namespace Checked

/-- The range methods return the slices of the file that their arguments name. -/
structure RangesExact (W : ℕ) (P : Primitives) (fetch : Fetch) (data : Bytes)
    (t : DecryptionStream) (start len a b : ℕ) : Prop where
  getRange : Denotes (getRange W P fetch start len) t
    (slice data (min start data.length) (min (start + len) data.length))
  range : Denotes (range W P fetch a b) t (slice data a b)
  rangeInclusive : Denotes (rangeInclusive W P fetch a b) t (slice data a (b + 1))
  rangeFrom : Denotes (rangeFrom W P fetch a) t (slice data a data.length)
  rangeTo : Denotes (rangeTo W P fetch b) t (slice data 0 b)
  rangeFull : Denotes (rangeFull W P fetch) t data

variable {W start len : ℕ}

theorem reads_getRange (h : Opened P m 0 data t) (hP : P.Lawful) (hs : Sealed P m 0 data)
    (hf : fetch.Correct P m data) (hW : data.length < W)
    (hend : data.length ≤ start ∨ start + len < W) :
    Denotes (getRange W P fetch start len) t (slice data start (start + len)) := by
  have hsorted : t.chunkInfos.Pairwise fun a b => a.index ≤ b.index := by
    rw [h.chunkInfos]
    exact indexed_infosOf.imp fun h => h.le
  have hsize := h.fileSize hs
  obtain ⟨t', ht'⟩ := h.getRange_correct hP hs hf start len
  refine ⟨t', ?_⟩
  rw [getRange_eq hsorted (by omega) (by rwa [hsize]), ht']

/-- The sum of the arguments overflows. -/
theorem getRange_overflow (h : Opened P m 0 data t) (hs : Sealed P m 0 data)
    (hW : data.length < W) (hend : ¬ (data.length ≤ start ∨ start + len < W)) :
    getRange W P fetch start len t = none :=
  getRange_eq_none (Nat.zero_lt_of_lt hW) fun hfits => hend (by rw [← h.fileSize hs]; exact hfits.2)

theorem reads_getRange_iff (h : Opened P m 0 data t) (hP : P.Lawful) (hs : Sealed P m 0 data)
    (hf : fetch.Correct P m data) (hW : data.length < W) {bytes : Bytes} :
    Denotes (getRange W P fetch start len) t bytes ↔
      (data.length ≤ start ∨ start + len < W) ∧ bytes = slice data start (start + len) := by
  constructor
  · rintro ⟨t', ht'⟩
    by_cases hend : data.length ≤ start ∨ start + len < W
    · obtain ⟨t₁, ht₁⟩ := reads_getRange h hP hs hf hW hend
      obtain ⟨hbytes, -⟩ := Prod.mk.inj (Option.some.inj (ht'.symm.trans ht₁))
      exact ⟨hend, Except.ok.inj hbytes⟩
    · rw [getRange_overflow h hs hW hend] at ht'
      cases ht'
  · rintro ⟨hend, rfl⟩
    exact reads_getRange h hP hs hf hW hend

theorem fileSize_opened (h : Opened P m 0 data t) (hs : Sealed P m 0 data) (hW : data.length < W) :
    fileSize W t = some data.length := by
  rw [fileSize_eq (Nat.zero_lt_of_lt hW), h.fileSize hs, if_pos hW]

/-- An inclusive range is the slice exactly if it starts past the end of the file, or is not
    reversed and ends before the last number. -/
theorem reads_rangeInclusive_iff (h : Opened P m 0 data t) (hP : P.Lawful) (hs : Sealed P m 0 data)
    (hf : fetch.Correct P m data) (hW : data.length < W) {a b : ℕ} (ha : a < W) (hb : b < W) :
    Denotes (rangeInclusive W P fetch a b) t (slice data a (b + 1)) ↔
      data.length ≤ a ∨ a ≤ b ∧ b + 1 < W := by
  have h3 := hs.pos.2
  by_cases hlen : b - a + 1 < W
  · have hcall : rangeInclusive W P fetch a b t = getRange W P fetch a (b - a + 1) t := by
      rw [rangeInclusive, Word.add_of_lt hlen, Act.ofOption_bind]
    rw [Denotes, hcall, ← Denotes, reads_getRange_iff h hP hs hf hW]
    constructor
    · rintro ⟨hend, hslice⟩
      refine or_iff_not_imp_left.2 fun hstart => ?_
      have hab : a ≤ b := by
        by_contra hab
        rw [slice_of_le data (show b + 1 ≤ a by omega)] at hslice
        have hlength := congrArg List.length hslice
        rw [length_slice, List.length_nil] at hlength
        omega
      exact ⟨hab, by omega⟩
    · rintro (hstart | ⟨hab, hend⟩)
      · exact ⟨.inl hstart, by rw [slice_of_length_le _ _ hstart, slice_of_length_le _ _ hstart]⟩
      · have hsum : a + (b - a + 1) = b + 1 := by omega
        exact ⟨.inr (hsum.symm ▸ hend), by rw [hsum]⟩
  · have hcall : rangeInclusive W P fetch a b t = none := by
      rw [rangeInclusive, Word.add, if_neg hlen]
      exact Act.ofOption_none_bind _
    refine iff_of_false ?_ (by omega)
    rintro ⟨t', ht'⟩
    rw [hcall] at ht'
    cases ht'

/-- **When the range methods denote slices.** -/
theorem ranges_exact_iff {pass : Pass} (hP : P.Lawful) (hm : 0 < m) (h3 : 3 ≤ data.length)
    (hW : data.length < W) (hpass : encryptAll P m data 0 = .ok pass) (hf : fetch.Correct P m data)
    (hs : Autonomi.streamingDecrypt P fetch (.new pass.chunkInfos) = .ok s) (ht : t.SameMap s) {a b : ℕ}
    (ha : a < W) (hb : b < W) :
    RangesExact W P fetch data t start len a b ↔
      (data.length ≤ start ∨ start + len < W) ∧ (data.length ≤ a ∨ a ≤ b ∧ b + 1 < W) := by
  obtain ⟨hsealed, h⟩ := opened_of_root hm h3 hpass hs ht
  have hget := @reads_getRange_iff _ _ _ _ _ W start len h hP hsealed hf hW
  have hinclusive := reads_rangeInclusive_iff h hP hsealed hf hW ha hb
  constructor
  · intro hexact
    exact ⟨(hget.1 hexact.getRange).1, hinclusive.1 hexact.rangeInclusive⟩
  · rintro ⟨hend, hin⟩
    have hread : ∀ {start len : ℕ} {bytes : Bytes}, data.length ≤ start ∨ start + len < W →
        slice data start (start + len) = bytes → Denotes (getRange W P fetch start len) t bytes :=
      fun hend hbytes => hbytes ▸ reads_getRange h hP hsealed hf hW hend
    have hsize := fileSize_opened h hsealed hW
    refine ⟨hread hend ?_, hread (by omega) ?_, hinclusive.2 hin, ?_, hread (by omega) ?_, ?_⟩
    · rw [slice_min_length, slice_min_start]
    · rcases Nat.le_total a b with hab | hab
      · rw [Nat.add_sub_cancel' hab]
      · rw [Nat.sub_eq_zero_of_le hab, Nat.add_zero, slice_self, slice_of_le _ hab]
    · have hcall : rangeFrom W P fetch a t = getRange W P fetch a (data.length - a) t := by
        rw [rangeFrom, Act.get_bind, hsize, Act.ofOption_bind]
      rw [Denotes, hcall]
      refine hread (by omega) ?_
      rcases Nat.le_total a data.length with hle | hle
      · rw [Nat.add_sub_cancel' hle]
      · rw [slice_of_length_le _ _ hle, slice_of_length_le _ _ hle]
    · rw [Nat.zero_add]
    · have hcall : rangeFull W P fetch t = getRange W P fetch 0 data.length t := by
        rw [rangeFull, Act.get_bind, hsize, Act.ofOption_bind]
      rw [Denotes, hcall]
      refine hread (by omega) ?_
      rw [Nat.zero_add, slice_full]

end Checked

/-- The callback over a storage that holds the file. -/
def exactFetch (P : Primitives) (m : ℕ) (data : Bytes) : Fetch := fun _ requests =>
  .ok (requests.map fun q => (q.1, cipherAt P m 0 data q.1))

theorem exactFetch_correct : (exactFetch P m data).Correct P m data := by
  intro n is _
  exact ⟨_, rfl, by rw [requestsOf, List.map_map]; exact .refl _⟩

namespace Checked

theorem ranges_exact_three : ∃ pass s, encryptAll clear 110 [1, 2, 3] 0 = .ok pass ∧
    Autonomi.streamingDecrypt clear (exactFetch clear 110 [1, 2, 3]) (.new pass.chunkInfos) = .ok s ∧
    RangesExact (2 ^ 64) clear (exactFetch clear 110 [1, 2, 3]) [1, 2, 3] s 1 7 1 1 := by
  have hpass : encryptAll clear 110 [1, 2, 3] 0 = .ok (passEnd clear 110 [1, 2, 3] 0) :=
    (encryptAll_eq_ok (by decide) (by decide)).2 ⟨sealed_of_total clear_total (by decide), rfl⟩
  exact ⟨_, _, hpass, rfl, (ranges_exact_iff clear_lawful (by decide) (by decide) (by decide) hpass
    exactFetch_correct rfl ⟨rfl, rfl, rfl⟩ (by decide) (by decide)).2 ⟨by decide, by decide⟩⟩

/-- The rest of the file from its second byte, with the largest length there is. -/
theorem not_ranges_exact : ∃ pass s, encryptAll clear 110 [1, 2, 3] 0 = .ok pass ∧
    Autonomi.streamingDecrypt clear (exactFetch clear 110 [1, 2, 3]) (.new pass.chunkInfos) = .ok s ∧
    ¬ RangesExact (2 ^ 64) clear (exactFetch clear 110 [1, 2, 3]) [1, 2, 3] s 1 (2 ^ 64 - 1) 1 1 := by
  have hpass : encryptAll clear 110 [1, 2, 3] 0 = .ok (passEnd clear 110 [1, 2, 3] 0) :=
    (encryptAll_eq_ok (by decide) (by decide)).2 ⟨sealed_of_total clear_total (by decide), rfl⟩
  obtain ⟨s, hs⟩ : ∃ s, Autonomi.streamingDecrypt clear (exactFetch clear 110 [1, 2, 3])
      (.new (passEnd clear 110 [1, 2, 3] 0).chunkInfos) = .ok s := ⟨_, rfl⟩
  refine ⟨_, s, hpass, hs, fun hexact => ?_⟩
  obtain ⟨hsealed, h⟩ := opened_of_root (by decide) (by decide) hpass hs ⟨rfl, rfl, rfl⟩
  obtain ⟨t', ht'⟩ := hexact.getRange
  rw [getRange_overflow h hsealed (by decide) (by decide)] at ht'
  cases ht'

end Checked

end Autonomi
