/-
  What `get_range` returns.

  The chunks of the range that are returned are put together, and the range
  is cut out as if all of them had been.  A range is taken to end at a number
  that fits into the machine word.
-/
import Autonomi.SelfEncryption.StreamRead

namespace Autonomi

open Lib DecryptionStream

variable {P : Primitives} {m level : ℕ} {data : Bytes} {chunks : List EncryptedChunk}
  {fetch : Fetch} {t : DecryptionStream}

/-- The stream reads this map, whatever has been read from it. -/
structure Opened (P : Primitives) (m level : ℕ) (data : Bytes) (t : DecryptionStream) : Prop where
  chunkInfos : t.chunkInfos = infosOf P m level data
  srcHashes : t.srcHashes = (List.range (getNumChunks m data.length)).map (srcHashAt P m data)
  childLevel : t.childLevel = 0

theorem Opened.keyed (h : Opened P m level data t) : Keyed P m data t := ⟨h.srcHashes, h.childLevel⟩

/-! ## Positions -/

/-- The sizes add up to the cut points. -/
theorem foldl_srcSize (a : ℕ) : ∀ (k acc : ℕ),
    ((List.range' a k).map (infoAt P m level data)).foldl (fun acc chunk => acc + chunk.srcSize) acc =
      acc + (cut m data.length (a + k) - cut m data.length a)
  | 0, acc => by simp
  | k + 1, acc => by
    have h1 := cut_mono m data.length (Nat.le_add_right a k)
    have h2 : cut m data.length (a + k) ≤ cut m data.length (a + k + 1) :=
      cut_mono m data.length (Nat.le_succ (a + k))
    rw [← Nat.add_assoc, List.range'_1_concat, List.map_append, List.foldl_append, foldl_srcSize a k acc]
    simp only [List.map_cons, List.map_nil, List.foldl_cons, List.foldl_nil, infoAt]
    omega

theorem Opened.fileSize (h : Opened P m level data t) (hs : Sealed P m level data) :
    t.fileSize = data.length := by
  rw [DecryptionStream.fileSize, h.chunkInfos, infosOf, List.range_eq_range', foldl_srcSize,
    Nat.zero_add, Nat.zero_add, cut_zero hs.pos.1 hs.pos.2, cut_of_le le_rfl, Nat.sub_zero]

variable (level) in
/-- Infos chosen by their indices. -/
theorem filter_infosOf {a c : ℕ} (hc : c ≤ getNumChunks m data.length) :
    (infosOf P m level data).filter (fun info => decide (a ≤ info.index ∧ info.index < c)) =
      (List.range' a (c - a)).map (infoAt P m level data) := by
  rw [infosOf, List.filter_map, ← filter_range_between hc]; rfl

theorem Opened.getChunkStartPosition (h : Opened P m level data t) (hs : Sealed P m level data)
    {i : ℕ} (hi : i ≤ getNumChunks m data.length) :
    t.getChunkStartPosition i = cut m data.length i := by
  have hfilter := filter_infosOf (P := P) level (a := 0) hi
  simp only [Nat.zero_le, true_and, Nat.sub_zero] at hfilter
  rw [DecryptionStream.getChunkStartPosition, h.chunkInfos, hfilter, foldl_srcSize, Nat.zero_add,
    Nat.zero_add, cut_zero hs.pos.1 hs.pos.2, Nat.sub_zero]

/-- Chunk `i` contains the position. -/
def Contains (m n position i : ℕ) : Prop := cut m n i ≤ position ∧ position < cut m n (i + 1)

variable (level) in
theorem findPosition_infos {position : ℕ} (hpos : position < data.length) :
    ∀ {k a : ℕ}, a + k = getNumChunks m data.length → cut m data.length a ≤ position →
    ∃ i < getNumChunks m data.length, Contains m data.length position i ∧
      findPosition position (cut m data.length a) ((List.range' a k).map (infoAt P m level data)) =
        some i
  | 0, a, hk, hle => by
    rw [cut_of_le (by omega)] at hle; omega
  | k + 1, a, hk, hle => by
    have hmono := cut_mono m data.length (Nat.le_succ a)
    have hsize : cut m data.length a + (infoAt P m level data a).srcSize =
        cut m data.length (a + 1) := Nat.add_sub_cancel' hmono
    rw [List.range'_succ, List.map_cons, findPosition, hsize]
    by_cases hlt : position < cut m data.length (a + 1)
    · exact ⟨a, by omega, ⟨hle, hlt⟩, by rw [if_pos ⟨hle, hlt⟩]; rfl⟩
    · rw [if_neg fun h => hlt h.2]
      exact findPosition_infos hpos (by omega) (Nat.le_of_not_lt hlt)

theorem Opened.getChunkIndexFromInfos (h : Opened P m level data t) (hs : Sealed P m level data)
    {position : ℕ} (hpos : position < data.length) :
    t.getChunkIndexFromInfos position < getNumChunks m data.length ∧
      Contains m data.length position (t.getChunkIndexFromInfos position) := by
  obtain ⟨i, hi, hcont, hfind⟩ := findPosition_infos (P := P) (m := m) level (a := 0)
    hpos (Nat.zero_add _) (by rw [cut_zero hs.pos.1 hs.pos.2]; exact Nat.zero_le _)
  rw [cut_zero hs.pos.1 hs.pos.2, ← List.range_eq_range'] at hfind
  have heq : t.getChunkIndexFromInfos position = i := by
    rw [DecryptionStream.getChunkIndexFromInfos, h.chunkInfos, infosOf, hfind]
  rw [heq]; exact ⟨hi, hcont⟩

theorem Opened.requiredHashes (h : Opened P m level data t) {a b : ℕ}
    (hb : b < getNumChunks m data.length) :
    t.requiredHashes a b = requestsOf P m level data (List.range' a (b + 1 - a)) := by
  have hfilter := filter_infosOf (P := P) level (a := a) (show b + 1 ≤ _ from hb)
  simp only [Nat.lt_succ_iff] at hfilter
  rw [DecryptionStream.requiredHashes, h.chunkInfos, hfilter, map_request]
  refine List.Pairwise.insertionSort_eq ?_
  rw [requestsOf, List.pairwise_map]
  exact List.pairwise_le_range' 1

namespace DecryptionStream

/-- The first and the last chunk of a range. -/
def startChunk (t : DecryptionStream) (start : ℕ) : ℕ := t.getChunkIndexFromInfos start

def endChunk (t : DecryptionStream) (start len : ℕ) : ℕ :=
  t.getChunkIndexFromInfos (min (start + len) t.fileSize - 1)

/-- What is asked for a range. -/
def rangeRequest (t : DecryptionStream) (start len : ℕ) : List (ℕ × XorName) :=
  t.requiredHashes (t.startChunk start) (t.endChunk start len)

/-- The chunks that hold a byte of the range, by their sizes. -/
def overlapping (t : DecryptionStream) (start len : ℕ) : List ChunkInfo :=
  t.chunkInfos.filter fun info => t.getChunkStartPosition info.index < start + len ∧
    start < t.getChunkStartPosition info.index + info.srcSize

/-- Those of them that are not among the chunks returned. -/
def missing (t : DecryptionStream) (start len : ℕ) (fetched : List (ℕ × Bytes)) : List ℕ :=
  ((t.overlapping start len).map ChunkInfo.index).filter (· ∉ fetched.map Prod.fst)

end DecryptionStream

/-- The chunks that contain the first and the last byte of a range. -/
theorem Opened.contains_ends (h : Opened P m level data t) (hs : Sealed P m level data)
    {start : ℕ} (hstart : start < data.length) (len : ℕ) :
    Contains m data.length start (t.startChunk start) ∧
      Contains m data.length (min (start + len) data.length - 1) (t.endChunk start len) ∧
      t.endChunk start len < getNumChunks m data.length := by
  obtain ⟨hb, hlast⟩ := h.getChunkIndexFromInfos hs
    (show min (start + len) data.length - 1 < data.length by omega)
  rw [startChunk, endChunk, h.fileSize hs]
  exact ⟨(h.getChunkIndexFromInfos hs hstart).2, hlast, hb⟩

/-- The chunks of a range, and where they lie. -/
theorem Opened.range (h : Opened P m level data t) (hs : Sealed P m level data) {start len : ℕ}
    (hstart : start < data.length) (hlen : 0 < len) :
    cut m data.length (t.startChunk start) ≤ start ∧
      t.startChunk start ≤ t.endChunk start len ∧
      t.endChunk start len < getNumChunks m data.length ∧
      min (start + len) data.length ≤ cut m data.length (t.endChunk start len + 1) := by
  obtain ⟨hfirst, hlast, hb⟩ := h.contains_ends hs hstart len
  refine ⟨hfirst.1, ?_, hb, by have := hlast.2; omega⟩
  by_contra hlt
  have hmono : cut m data.length (t.endChunk start len + 1) ≤
      cut m data.length (t.startChunk start) := cut_mono m data.length (Nat.lt_of_not_le hlt)
  have h1 := hfirst.1
  have h2 := hlast.2
  omega

/-- A chunk overlaps the range if it lies between the two. -/
theorem Opened.overlapping_eq (h : Opened P m level data t) (hs : Sealed P m level data)
    {start len : ℕ} (hstart : start < data.length) (hlen : 0 < len) :
    t.overlapping start len =
      (List.range' (t.startChunk start) (t.endChunk start len + 1 - t.startChunk start)).map
        (infoAt P m level data) := by
  obtain ⟨hfirst, hlast, hb⟩ := h.contains_ends hs hstart len
  rw [← filter_infosOf level (show t.endChunk start len + 1 ≤ _ from hb), overlapping,
    h.chunkInfos]
  refine List.filter_congr fun info hinfo => decide_eq_decide.2 ?_
  obtain ⟨i, hi, rfl⟩ := List.mem_map.1 hinfo
  rw [List.mem_range] at hi
  have hmono := cut_mono m data.length
  have hsize : cut m data.length i + (infoAt P m level data i).srcSize =
      cut m data.length (i + 1) := Nat.add_sub_cancel' (hmono (Nat.le_succ i))
  rw [show (infoAt P m level data i).index = i from rfl, h.getChunkStartPosition hs hi.le, hsize]
  have hlt := cut_lt_cut_succ hs.pos.1 hs.pos.2 hi
  have hle := cut_le m data.length (i + 1)
  have h1 := hfirst.1
  have h2 := hfirst.2
  have h3 := hlast.1
  have h4 := hlast.2
  constructor
  · rintro ⟨hstop, hbegin⟩
    constructor
    · by_contra hlow
      have : cut m data.length (i + 1) ≤ cut m data.length (t.startChunk start) :=
        hmono (Nat.lt_of_not_le hlow)
      omega
    · by_contra hhigh
      have : cut m data.length (t.endChunk start len + 1) ≤ cut m data.length i :=
        hmono (Nat.le_of_not_lt hhigh)
      omega
  · rintro ⟨hlow, hhigh⟩
    have hle_first : cut m data.length (t.startChunk start + 1) ≤ cut m data.length (i + 1) :=
      hmono (Nat.succ_le_succ hlow)
    have hle_last : cut m data.length i ≤ cut m data.length (t.endChunk start len) :=
      hmono (Nat.le_of_lt_succ hhigh)
    omega

theorem Opened.request_overlapping (h : Opened P m level data t) (hs : Sealed P m level data)
    {start len : ℕ} (hstart : start < data.length) (hlen : 0 < len) :
    (t.overlapping start len).map ChunkInfo.request = t.rangeRequest start len := by
  obtain ⟨-, -, hb⟩ := h.contains_ends hs hstart len
  rw [h.overlapping_eq hs hstart hlen, map_request, rangeRequest, h.requiredHashes hb]

/-- The indices from `a` to `b` that are not in `js`. -/
def missingBetween (a b : ℕ) (js : List ℕ) : List ℕ := (List.range' a (b + 1 - a)).filter (· ∉ js)

theorem mem_missingBetween {a b i : ℕ} {js : List ℕ} :
    i ∈ missingBetween a b js ↔ (a ≤ i ∧ i ≤ b) ∧ i ∉ js := by
  rw [missingBetween, List.mem_filter, List.mem_range'_1, decide_eq_true_iff]
  exact and_congr_left fun _ => by omega

theorem Opened.missing_eq (h : Opened P m level data t) (hs : Sealed P m level data)
    {start len : ℕ} (hstart : start < data.length) (hlen : 0 < len) (fetched : List (ℕ × Bytes)) :
    t.missing start len fetched =
      missingBetween (t.startChunk start) (t.endChunk start len) (fetched.map Prod.fst) := by
  have hindex : ChunkInfo.index ∘ infoAt P m level data = id := rfl
  rw [missing, h.overlapping_eq hs hstart hlen, List.map_map, hindex, List.map_id, missingBetween]

/-! ## The chunks that are there -/

theorem lookup_fetchedOf (js : List ℕ) (i : ℕ) :
    Lookup.ofList (fetchedOf P m level data js) i =
      if i ∈ js then some (cipherAt P m level data i) else none := by
  split_ifs with hi
  · refine Lookup.ofList_eq_some ?_ (List.mem_map_of_mem hi)
    rintro e he e' he' hkey
    obtain ⟨j, -, rfl⟩ := List.mem_map.1 he
    obtain ⟨j', -, rfl⟩ := List.mem_map.1 he'
    rw [show j = j' from hkey]
  · exact Lookup.ofList_eq_none (by rwa [map_fst_fetchedOf])

theorem decryptPresent_eq (hP : P.Lawful) (hs : Sealed P m 0 data) (hkey : Keyed P m data t)
    (js : List ℕ) {is : List ℕ} (his : ∀ i ∈ is, i < getNumChunks m data.length) :
    decryptPresent P t (.ofList (fetchedOf P m 0 data js)) is =
      .ok ((is.filter (· ∈ js)).flatMap (chunkAt m data)) := by
  have hrun : ∀ (is : List ℕ) (acc : Bytes), (∀ i ∈ is, i < getNumChunks m data.length) →
      is.foldlM (appendPresent P t (.ofList (fetchedOf P m 0 data js))) acc =
        .ok (acc ++ (is.filter (· ∈ js)).flatMap (chunkAt m data)) := by
    intro is
    induction is with
    | nil => intro acc _; rw [List.filter_nil, List.flatMap_nil, List.append_nil]; rfl
    | cons i is ih =>
      intro acc his
      have hrest := fun acc => ih acc fun i hi => his i (List.mem_cons_of_mem _ hi)
      rw [List.foldlM_cons, appendPresent, lookup_fetchedOf]
      by_cases hi : i ∈ js
      · simp only [if_pos hi, hkey.decryptChunk_eq hP hs (his i List.mem_cons_self)]
        refine (hrest _).trans ?_
        rw [List.filter_cons_of_pos (by exact decide_eq_true hi), List.flatMap_cons,
          List.append_assoc]
      · simp only [if_neg hi]
        refine (hrest _).trans ?_
        rw [List.filter_cons_of_neg (by simpa using hi)]
  rw [decryptPresent, hrun is [] his, List.nil_append]

/-- Chunks of another level are refused, if there are any. -/
theorem decryptPresent_foreign (hP : P.Ideal) (hs : Sealed P m 1 data) (hd : data.length ≤ isizeMax)
    (hlevel : t.childLevel = 0) {js is : List ℕ} (his : ∀ i ∈ is, i < getNumChunks m data.length)
    (hsub : js ⊆ is) (hne : js ≠ []) :
    ∃ e, decryptPresent P t (.ofList (fetchedOf P m 1 data js)) is = .error e := by
  obtain ⟨j, rest, rfl⟩ := List.exists_cons_of_ne_nil hne
  have hj := his j (hsub List.mem_cons_self)
  have hN := getNumChunks_le hs.pos.1 hs.pos.2
  have h63 : isizeMax < 2 ^ 64 := by decide
  refine foldlM_eq_error (hsub List.mem_cons_self) (fun acc => ?_) []
  rw [appendPresent, lookup_fetchedOf, if_pos List.mem_cons_self]
  exact bind_error (decryptChunk_foreign hP (show j < 2 ^ 64 by omega) (by decide) (by omega)
    (by rw [hlevel]; decide) (fun h => absurd h.2 (by rw [hlevel]; decide)) (hs.cipher j hj))

/-- The file up to chunk `b`, when those chunks from `a` on are cut out of it that are not in
    `js`. -/
def withoutMissing (m : ℕ) (data : Bytes) (a b : ℕ) (js : List ℕ) : Bytes :=
  slice data 0 (cut m data.length a) ++
    ((List.range' a (b + 1 - a)).filter (· ∈ js)).flatMap (chunkAt m data)

theorem flatMap_chunkAt (a k : ℕ) :
    (List.range' a k).flatMap (chunkAt m data) =
      slice data (cut m data.length a) (cut m data.length (a + k)) := by
  rw [List.flatMap_def]
  exact flatten_slices data (cut_mono m data.length) a k

/-- Nothing is cut out. -/
theorem slice_withoutMissing {a b start stop : ℕ} {js : List ℕ} (hab : a ≤ b)
    (hjs : ∀ i, a ≤ i → i ≤ b → i ∈ js) (hstop : stop ≤ cut m data.length (b + 1)) :
    slice (withoutMissing m data a b js) start stop = slice data start stop := by
  have hfilter : (List.range' a (b + 1 - a)).filter (· ∈ js) = List.range' a (b + 1 - a) := by
    refine List.filter_eq_self.2 fun i hi => decide_eq_true ?_
    rw [List.mem_range'_1] at hi
    exact hjs i hi.1 (by omega)
  rw [withoutMissing, hfilter, flatMap_chunkAt, show a + (b + 1 - a) = b + 1 by omega,
    slice_append data (Nat.zero_le _) (cut_mono m data.length (show a ≤ b + 1 by omega)),
    slice_slice, Nat.zero_add, Nat.zero_add, min_eq_left hstop]

/-- What is missing is missing from the length. -/
theorem length_withoutMissing (m : ℕ) (data : Bytes) {a b : ℕ} (hab : a ≤ b) (js : List ℕ) :
    (withoutMissing m data a b js).length +
      ((missingBetween a b js).flatMap (chunkAt m data)).length = cut m data.length (b + 1) := by
  have hperm := List.filter_append_perm (fun i => decide (i ∈ js)) (List.range' a (b + 1 - a))
  have hmissing : missingBetween a b js =
      (List.range' a (b + 1 - a)).filter (fun i => !decide (i ∈ js)) :=
    List.filter_congr fun i _ => decide_not
  have hlength := (hperm.flatMap_right (chunkAt m data)).length_eq
  have hmono := cut_mono m data.length (show a ≤ b + 1 by omega)
  have ha := cut_le m data.length a
  have hb := cut_le m data.length (b + 1)
  rw [List.flatMap_append, List.length_append, flatMap_chunkAt, length_slice,
    show a + (b + 1 - a) = b + 1 by omega] at hlength
  rw [withoutMissing, List.length_append, length_slice, hmissing]
  omega

theorem length_chunkAt_le (m : ℕ) (data : Bytes) {is : List ℕ} {i : ℕ} (hi : i ∈ is) :
    cut m data.length (i + 1) - cut m data.length i ≤ (is.flatMap (chunkAt m data)).length := by
  have hsub : (chunkAt m data i).Sublist (is.flatMap (chunkAt m data)) := by
    rw [List.flatMap_def]
    exact List.sublist_flatten_of_mem (List.mem_map_of_mem hi)
  have hle := cut_le m data.length (i + 1)
  have hlength := hsub.length_le
  rw [chunkAt, length_slice] at hlength
  omega

/-- No chunk is longer than the ones before it, but the last one of three. -/
theorem cut_succ_sub_cut_lt {n i b : ℕ} (hm : 0 < m) (h3 : 3 ≤ n) (hb : b < getNumChunks m n)
    (hi : i < b) (hlt : cut m n (i + 1) - cut m n i < cut m n (b + 1) - cut m n b) :
    n < 3 * m ∧ b = 2 := by
  have hwidth : cut m n (i + 1) - cut m n i = chunkWidth m n := by
    rw [cut_of_lt hm h3 (by omega), cut_of_lt hm h3 (by omega), Nat.mul_succ,
      Nat.add_sub_cancel_left]
  have hlast : getNumChunks m n ≤ b + 1 := by
    by_contra hinner
    rw [hwidth, cut_of_lt hm h3 (by omega), cut_of_lt hm h3 hb, Nat.mul_succ,
      Nat.add_sub_cancel_left] at hlt
    exact lt_irrefl _ hlt
  rw [hwidth, cut_of_le hlast, cut_of_lt hm h3 hb] at hlt
  rcases Nat.lt_or_ge n (3 * m) with hsmall | hlarge
  · have hN := getNumChunks_small h3 hsmall
    exact ⟨hsmall, by omega⟩
  · obtain ⟨-, hle, -⟩ := getNumChunks_large hm h3 hlarge
    rw [show getNumChunks m n = b + 1 by omega, Nat.mul_succ] at hle
    rw [chunkWidth, if_neg (Nat.not_lt_of_le hlarge)] at hlt
    omega

/-- Where a chunk is missing, the range is there in full only if the last of three chunks is
    longer than what is missing. -/
theorem gap_of_slice_eq (hm : 0 < m) (h3 : 3 ≤ data.length) {a b i start stop : ℕ} {js : List ℕ}
    (hab : a ≤ b) (hb : b < getNumChunks m data.length) (hstart : start < stop)
    (hstop : stop ≤ data.length) (hlast : cut m data.length b < stop)
    (heq : slice (withoutMissing m data a b js) start stop = slice data start stop)
    (hi : i ∈ missingBetween a b js) : data.length < 3 * m ∧ b = 2 ∧ i < 2 := by
  have hlength := congrArg List.length heq
  rw [length_slice, length_slice] at hlength
  have hsum := length_withoutMissing m data hab js
  have hsize := length_chunkAt_le m data hi
  obtain ⟨⟨-, hib⟩, -⟩ := mem_missingBetween.1 hi
  have hne : i ≠ b := by
    rintro rfl
    omega
  obtain ⟨hsmall, rfl⟩ := cut_succ_sub_cut_lt hm h3 hb (lt_of_le_of_ne hib hne) (by omega)
  exact ⟨hsmall, rfl, lt_of_le_of_ne hib hne⟩

/-- In a file of three chunks of which the third is there, what is missing is one part. -/
theorem withoutMissing_small (h3 : 3 ≤ data.length) (hsmall : data.length < 3 * m) {a : ℕ}
    (ha : a ≤ 2) {js : List ℕ} (h2 : 2 ∈ js) (hne : missingBetween a 2 js ≠ []) :
    ∃ first count, missingBetween a 2 js = List.range' first count ∧ first + count ≤ 2 ∧
      withoutMissing m data a 2 js = slice data 0 (data.length / 3 * first) ++
        slice data (data.length / 3 * (first + count)) data.length := by
  have hN := getNumChunks_small h3 hsmall
  have hcut : ∀ i < 3, cut m data.length i = data.length / 3 * i := by
    intro i hi
    rw [cut_of_lt (by omega) h3 (by omega), chunkWidth, if_pos hsmall]
  have hend : cut m data.length 3 = data.length := cut_of_le hN.le
  have hjoin : slice data (data.length / 3) (data.length / 3 * 2) ++
      slice data (data.length / 3 * 2) data.length = slice data (data.length / 3) data.length :=
    slice_append data (by omega) (by omega)
  interval_cases a
  · by_cases h0 : 0 ∈ js <;> by_cases h1 : 1 ∈ js
    · exact absurd (by simp [missingBetween, List.range', h0, h1, h2]) hne
    · exact ⟨1, 1, by simp [missingBetween, List.range', h0, h1, h2], le_rfl, by
        simp [withoutMissing, chunkAt, List.range', h0, h1, h2, hcut, hend]⟩
    · exact ⟨0, 1, by simp [missingBetween, List.range', h0, h1, h2], Nat.le_succ 1, by
        simp [withoutMissing, chunkAt, List.range', h0, h1, h2, hcut, hend, hjoin]⟩
    · exact ⟨0, 2, by simp [missingBetween, List.range', h0, h1, h2], le_rfl, by
        simp [withoutMissing, chunkAt, List.range', h0, h1, h2, hcut, hend]⟩
  · by_cases h1 : 1 ∈ js
    · exact absurd (by simp [missingBetween, List.range', h1, h2]) hne
    · exact ⟨1, 1, by simp [missingBetween, List.range', h1, h2], le_rfl, by
        simp [withoutMissing, chunkAt, List.range', h1, h2, hcut, hend]⟩
  · exact absurd (by simp [missingBetween, h2]) hne

/-- Then the range is there in full where the file repeats itself. -/
theorem slice_withoutMissing_small (h3 : 3 ≤ data.length) (hsmall : data.length < 3 * m) {a : ℕ}
    (ha : a ≤ 2) {js : List ℕ} (h2 : 2 ∈ js) (hne : missingBetween a 2 js ≠ []) (start stop : ℕ) :
    slice (withoutMissing m data a 2 js) start (min stop data.length) =
        slice data start (min stop data.length) ↔
      ∀ i ∈ missingBetween a 2 js, ∀ p, start ≤ p → data.length / 3 * i ≤ p → p < stop →
        data[p]? = data[p + (missingBetween a 2 js).length * (data.length / 3)]? := by
  obtain ⟨first, count, hmissing, hcount, heq⟩ := withoutMissing_small h3 hsmall ha h2 hne
  rw [hmissing, ne_eq, List.range'_eq_nil_iff] at hne
  have hend : data.length / 3 * (first + count) ≤ data.length := by
    have := Nat.mul_le_mul_left (data.length / 3) hcount
    omega
  have hgap : data.length / 3 * (first + count) - data.length / 3 * first =
      count * (data.length / 3) := by rw [Nat.mul_add, Nat.add_sub_cancel_left, mul_comm]
  rw [heq, slice_cutOut_iff data (Nat.mul_le_mul_left _ (Nat.le_add_right first count)) hend, hgap,
    hmissing, List.length_range']
  constructor
  · intro h i hi p hp hlow hstop
    exact h p hp ((Nat.mul_le_mul_left _ (List.mem_range'_1.1 hi).1).trans hlow) hstop
  · intro h p hp hlow hstop
    refine h first (List.mem_range'_1.2 ⟨le_rfl, ?_⟩) p hp hlow hstop
    exact Nat.lt_add_of_pos_right (Nat.pos_of_ne_zero hne)

/-- The last of three chunks is longer than the others, and fills the gap that they leave: the
    file reads the same there. -/
structure FillsGap (m : ℕ) (data : Bytes) (missing : List ℕ) (start stop : ℕ) : Prop where
  small : data.length < 3 * m
  third : ∀ i ∈ missing, i < 2
  reaches : 2 * (data.length / 3) < stop
  repeats : ∀ i ∈ missing, ∀ p, start ≤ p → data.length / 3 * i ≤ p → p < stop →
    data[p]? = data[p + missing.length * (data.length / 3)]?

/-- **When what is there reads as the range**, by the chunks that are missing. -/
theorem slice_withoutMissing_iff (hm : 0 < m) (h3 : 3 ≤ data.length) {a b start stop : ℕ}
    (hab : a ≤ b) (hb : b < getNumChunks m data.length) (hstart : start < min stop data.length)
    (hlast : cut m data.length b < min stop data.length)
    (hend : min stop data.length ≤ cut m data.length (b + 1)) (js : List ℕ) :
    slice (withoutMissing m data a b js) start (min stop data.length) =
        slice data start (min stop data.length) ↔
      missingBetween a b js = [] ∨ FillsGap m data (missingBetween a b js) start stop := by
  rcases eq_or_ne (missingBetween a b js) [] with hnone | hne
  · refine iff_of_true (slice_withoutMissing hab (fun i ha hb => ?_) hend) (.inl hnone)
    by_contra hi
    exact List.not_mem_nil (hnone ▸ mem_missingBetween.2 ⟨⟨ha, hb⟩, hi⟩)
  rw [or_iff_right hne]
  obtain ⟨i, hi⟩ := List.exists_mem_of_ne_nil _ hne
  constructor
  · intro heq
    have hgap : ∀ i ∈ missingBetween a b js, data.length < 3 * m ∧ b = 2 ∧ i < 2 := fun i hi =>
      gap_of_slice_eq hm h3 hab hb hstart (min_le_right _ _) hlast heq hi
    obtain ⟨hsmall, rfl, -⟩ := hgap i hi
    have h2 : 2 ∈ js := by
      by_contra h2
      exact lt_irrefl 2 (hgap 2 (mem_missingBetween.2 ⟨⟨hab, le_rfl⟩, h2⟩)).2.2
    rw [cut_of_lt hm h3 hb, chunkWidth, if_pos hsmall] at hlast
    exact ⟨hsmall, fun i hi => (hgap i hi).2.2, by omega,
      (slice_withoutMissing_small h3 hsmall hab h2 hne start stop).1 heq⟩
  · intro hfills
    have hsmall := hfills.small
    obtain rfl : b = 2 := by
      have hN := getNumChunks_small h3 hsmall
      have hreaches := hfills.reaches
      by_contra hb2
      have hle := Nat.mul_le_mul_left (data.length / 3) (show b + 1 ≤ 2 by omega)
      rw [cut_of_lt hm h3 (by omega), chunkWidth, if_pos hsmall] at hend
      omega
    have h2 : 2 ∈ js := by
      by_contra h2
      exact lt_irrefl 2 (hfills.third 2 (mem_missingBetween.2 ⟨⟨hab, le_rfl⟩, h2⟩))
    exact (slice_withoutMissing_small h3 hsmall hab h2 hne start stop).2 hfills.repeats

/-! ## Ranges -/

theorem extractRange_eq (bytes : Bytes) (internalOffset actualLen : ℕ) :
    extractRange bytes internalOffset actualLen =
      slice bytes internalOffset (internalOffset + actualLen) := by
  rw [extractRange]
  split_ifs with h
  · rw [slice_of_length_le _ _ h]
  · rw [← slice_min_length bytes internalOffset (internalOffset + actualLen)]
    simp only
    congr 1; omega

section Range

variable {start len : ℕ}

theorem Opened.getRange_empty (h : Opened P m level data t) (hs : Sealed P m level data)
    (hrange : data.length ≤ start ∨ len = 0) :
    getRange P fetch start len t = some (.ok [], t) := by
  have hsize := h.fileSize hs
  rw [getRange, Act.get_bind, hsize]
  by_cases hstart : data.length ≤ start
  · rw [if_pos hstart]; rfl
  · rw [if_neg hstart]
    have hlen := hrange.resolve_left hstart
    simp only [hlen, show min (start + 0) data.length - start = 0 by omega, if_true]; rfl

/-- A range that is not empty is asked for. -/
theorem Opened.getRange_eq (h : Opened P m level data t) (hs : Sealed P m level data)
    (hstart : start < data.length) (hlen : 0 < len) :
    getRange P fetch start len t = (do
      let fetchedChunks ← callback fetch (t.rangeRequest start len)
      let bytes ← Act.ofExcept (decryptPresent P t (.ofList fetchedChunks)
        (List.range' (t.startChunk start) (t.endChunk start len + 1 - t.startChunk start)))
      pure (slice (slice data 0 (cut m data.length (t.startChunk start)) ++ bytes) start
        (min (start + len) data.length)) : Decryption Bytes) t := by
  obtain ⟨ha, hab, hb, -⟩ := h.range hs hstart hlen
  have hsize := h.fileSize hs
  have hpre : (slice data 0 (cut m data.length (t.startChunk start))).length =
      cut m data.length (t.startChunk start) := by
    rw [length_slice, min_eq_left (cut_le _ _ _), Nat.sub_zero]
  have hpos := h.getChunkStartPosition hs (hab.trans hb.le)
  have hend : t.getChunkIndexFromInfos (min (start + len) data.length - 1) =
      t.endChunk start len := by rw [endChunk, hsize]
  have hextract : ∀ bytes, extractRange bytes (start - cut m data.length (t.startChunk start))
      (min (start + len) data.length - start) =
      slice (slice data 0 (cut m data.length (t.startChunk start)) ++ bytes) start
        (min (start + len) data.length) := by
    intro bytes
    rw [slice_append_right _ (by rw [hpre]; exact ha), hpre, extractRange_eq]
    congr 1; omega
  simp only [getRange, Act.get_bind, hsize, hend, if_neg (Nat.not_le_of_lt hstart),
    if_neg (show ¬ min (start + len) data.length - start = 0 by omega),
    show t.getChunkIndexFromInfos start = t.startChunk start from rfl, hpos, hextract]
  rfl

theorem Opened.getRange_error (h : Opened P m level data t) (hs : Sealed P m level data)
    (hstart : start < data.length) (hlen : 0 < len) {e : Error}
    (hans : fetch t.calls (t.rangeRequest start len) = .error e) :
    getRange P fetch start len t = some (.error e, { t with calls := t.calls + 1 }) := by
  have hcall : callback fetch (t.rangeRequest start len) t =
      some (.error e, { t with calls := t.calls + 1 }) := by rw [← hans]; rfl
  rw [h.getRange_eq hs hstart hlen, Act.bind_of_error hcall]

/-- What is returned for a range, by the indices. -/
theorem Opened.fetched_range (h : Opened P m level data t) (hs : Sealed P m level data)
    (hcf : CollisionFree P chunks) (hsub : chunksOf P m level data ⊆ chunks)
    (hf : fetch.Sound P chunks) (hstart : start < data.length) (hlen : 0 < len)
    {fetched : List (ℕ × Bytes)}
    (hans : fetch t.calls (t.rangeRequest start len) = .ok fetched) :
    ∃ js, js ⊆ List.range' (t.startChunk start) (t.endChunk start len + 1 - t.startChunk start) ∧
      fetched = fetchedOf P m level data js := by
  obtain ⟨-, -, hb, -⟩ := h.range hs hstart hlen
  have hdrawn := hf _ _ _ hans
  rw [rangeRequest, h.requiredHashes hb] at hdrawn
  obtain ⟨js, hperm, rfl⟩ := hdrawn.exists_indices hcf hsub fun i hi => by
    rw [List.mem_range'_1] at hi; omega
  exact ⟨js, hperm.subset, rfl⟩

theorem Opened.getRange_ok (h : Opened P m level data t) (hs : Sealed P m level data)
    (hstart : start < data.length) (hlen : 0 < len) {fetched : List (ℕ × Bytes)}
    (hans : fetch t.calls (t.rangeRequest start len) = .ok fetched)
    {r : Except Error Bytes}
    (hr : decryptPresent P t (.ofList fetched)
      (List.range' (t.startChunk start) (t.endChunk start len + 1 - t.startChunk start)) = r) :
    getRange P fetch start len t = some (r.map fun bytes =>
      slice (slice data 0 (cut m data.length (t.startChunk start)) ++ bytes) start
        (min (start + len) data.length), { t with calls := t.calls + 1 }) := by
  have hcall : callback fetch (t.rangeRequest start len) t =
      some (.ok fetched, { t with calls := t.calls + 1 }) := by rw [← hans]; rfl
  have hdec : (Act.ofExcept (decryptPresent P t (.ofList fetched)
      (List.range' (t.startChunk start) (t.endChunk start len + 1 - t.startChunk start))) :
      Decryption Bytes) { t with calls := t.calls + 1 } =
      some (r, { t with calls := t.calls + 1 }) := by rw [Act.ofExcept_run, hr]
  rw [h.getRange_eq hs hstart hlen, Act.bind_of_ok hcall]
  cases r with
  | error e => exact Act.bind_of_error hdec
  | ok bytes => rw [Act.bind_of_ok hdec]; rfl

/-- **What a range of the file is**: the missing chunks are cut out. -/
theorem Opened.getRange_fetched (h : Opened P m 0 data t) (hP : P.Lawful) (hs : Sealed P m 0 data)
    (hcf : CollisionFree P chunks) (hsub : chunksOf P m 0 data ⊆ chunks)
    (hf : fetch.Sound P chunks) (hstart : start < data.length) (hlen : 0 < len)
    {fetched : List (ℕ × Bytes)}
    (hans : fetch t.calls (t.rangeRequest start len) = .ok fetched) :
    getRange P fetch start len t = some (.ok (slice (withoutMissing m data (t.startChunk start)
      (t.endChunk start len) (fetched.map Prod.fst)) start (min (start + len) data.length)),
      { t with calls := t.calls + 1 }) := by
  obtain ⟨-, -, hb, -⟩ := h.range hs hstart hlen
  obtain ⟨js, -, rfl⟩ := h.fetched_range hs hcf hsub hf hstart hlen hans
  rw [h.getRange_ok hs hstart hlen hans (decryptPresent_eq hP hs h.keyed js fun i hi => by
    rw [List.mem_range'_1] at hi; omega), map_fst_fetchedOf]
  rfl

end Range

/-! ## Right or refused -/

/-- The range, or an error. -/
def RangeFaithful (P : Primitives) (fetch : Fetch) (data : Bytes) (t : DecryptionStream)
    (start len : ℕ) : Prop :=
  (∃ t', getRange P fetch start len t =
      some (.ok (slice data (min start data.length) (min (start + len) data.length)), t')) ∨
    ∃ e t', getRange P fetch start len t = some (.error e, t')

/-- The callback answers with an error, or every chunk that overlaps the range is returned, or
    the third of three chunks fills the gap that the missing ones leave.  From two levels on, the
    range starts within the map that is taken for the root, and the answer is an error or not
    empty. -/
def RangeReads (m : ℕ) (data : Bytes) (fetch : Fetch) (t : DecryptionStream) (start len : ℕ) :
    Prop :=
  data.length ≤ start ∨ len = 0 ∨ start < t.fileSize ∧
    ∀ fetched, fetch t.calls ((t.overlapping start len).map ChunkInfo.request) = .ok fetched →
      if OneLevel m data.length then
        t.missing start len fetched = [] ∨
          FillsGap m data (t.missing start len fetched) start (start + len)
      else fetched ≠ []

/-- The same map is read, whatever has been read before. -/
structure DecryptionStream.SameMap (t s : DecryptionStream) : Prop where
  chunkInfos : t.chunkInfos = s.chunkInfos
  srcHashes : t.srcHashes = s.srcHashes
  childLevel : t.childLevel = s.childLevel

theorem opened_of_sameMap {calls : ℕ} (h : t.SameMap (streamOf P m level data calls)) :
    Opened P m level data t := ⟨h.chunkInfos, h.srcHashes, h.childLevel⟩

section Faithful

variable {start len : ℕ}

theorem slice_min_start (data : Bytes) (start stop : ℕ) :
    slice data (min start data.length) stop = slice data start stop := by
  rcases Nat.le_total start data.length with h | h
  · rw [min_eq_left h]
  · rw [min_eq_right h, slice_of_length_le _ _ le_rfl, slice_of_length_le _ _ h]

theorem slice_range_nil (hrange : data.length ≤ start ∨ len = 0) :
    slice data (min start data.length) (min (start + len) data.length) = [] := by
  rw [slice_min_start]
  rcases hrange with h | rfl
  · exact slice_of_length_le _ _ h
  · exact slice_of_le _ (by rw [Nat.add_zero]; exact min_le_left _ _)

theorem Opened.rangeFaithful_iff (h : Opened P m 0 data t) (hP : P.Lawful) (hs : Sealed P m 0 data)
    (hcf : CollisionFree P chunks) (hsub : chunksOf P m 0 data ⊆ chunks)
    (hf : fetch.Sound P chunks) (h1 : OneLevel m data.length) :
    RangeFaithful P fetch data t start len ↔ RangeReads m data fetch t start len := by
  by_cases hrange : data.length ≤ start ∨ len = 0
  · refine iff_of_true (.inl ⟨t, ?_⟩) (hrange.elim .inl fun hlen => .inr (.inl hlen))
    rw [slice_range_nil hrange, h.getRange_empty hs hrange]
  obtain ⟨hstart, hlen⟩ := not_or.1 hrange
  rw [RangeReads, or_iff_right hstart, or_iff_right hlen, h.fileSize hs, RangeFaithful,
    slice_min_start]
  have hstart := Nat.lt_of_not_le hstart
  have hlen := Nat.pos_of_ne_zero hlen
  obtain ⟨-, hab, hb, hstop⟩ := h.range hs hstart hlen
  obtain ⟨-, ⟨hlast, -⟩, -⟩ := h.contains_ends hs hstart len
  simp only [hstart, true_and, if_pos h1, h.request_overlapping hs hstart hlen,
    h.missing_eq hs hstart hlen]
  rcases hans : fetch t.calls (t.rangeRequest start len) with e | fetched
  · exact iff_of_true (.inr ⟨e, _, h.getRange_error hs hstart hlen hans⟩) nofun
  · have hreads := slice_withoutMissing_iff hs.pos.1 hs.pos.2 hab hb
      (show start < min (start + len) data.length by omega) (by omega) hstop
      (fetched.map Prod.fst)
    rw [h.getRange_fetched hP hs hcf hsub hf hstart hlen hans]
    constructor
    · rintro (⟨t', he⟩ | ⟨e, t', he⟩) _ ⟨⟩
      · exact hreads.1 (Except.ok.inj (Prod.mk.inj (Option.some.inj he)).1)
      · cases he
    · intro hread
      exact .inl ⟨_, by rw [hreads.2 (hread _ rfl)]⟩

/-- From two levels on nothing is decrypted. -/
theorem Opened.rangeFaithful_foreign {data' : Bytes} (h : Opened P m 1 data' t) (hP : P.Ideal)
    (hs : Sealed P m 1 data') (hd : data.length ≤ isizeMax) (hlt : data'.length < data.length)
    (hcf : CollisionFree P chunks) (hsub : chunksOf P m 1 data' ⊆ chunks)
    (hf : fetch.Sound P chunks) (h1 : ¬ OneLevel m data.length) :
    RangeFaithful P fetch data t start len ↔ RangeReads m data fetch t start len := by
  by_cases hrange : data.length ≤ start ∨ len = 0
  · refine iff_of_true (.inl ⟨t, ?_⟩) (hrange.elim .inl fun hlen => .inr (.inl hlen))
    rw [slice_range_nil hrange, h.getRange_empty hs (hrange.imp_left hlt.le.trans)]
  obtain ⟨hstart, hlen⟩ := not_or.1 hrange
  rw [RangeReads, or_iff_right hstart, or_iff_right hlen, h.fileSize hs, RangeFaithful,
    slice_min_start]
  have hstart := Nat.lt_of_not_le hstart
  have hlen := Nat.pos_of_ne_zero hlen
  have hne : slice data start (min (start + len) data.length) ≠ [] := by
    intro he
    have := congrArg List.length he
    rw [length_slice, List.length_nil] at this
    omega
  have hwrong : ∀ t', getRange P fetch start len t = some (.ok [], t') →
      ¬ ((∃ t', getRange P fetch start len t =
        some (.ok (slice data start (min (start + len) data.length)), t')) ∨
        ∃ e t', getRange P fetch start len t = some (.error e, t')) := by
    rintro t' hrun (⟨t'', he⟩ | ⟨e, t'', he⟩)
    · exact hne (Except.ok.inj (Prod.mk.inj (Option.some.inj (he.symm.trans hrun))).1)
    · rw [hrun] at he; cases he
  simp only [if_neg h1]
  by_cases hstart' : start < data'.length
  swap
  · refine iff_of_false (hwrong t ?_) fun h => hstart' h.1
    exact h.getRange_empty hs (.inl (Nat.le_of_not_lt hstart'))
  simp only [hstart', true_and, h.request_overlapping hs hstart' hlen]
  obtain ⟨-, -, hb, -⟩ := h.range hs hstart' hlen
  rcases hans : fetch t.calls (t.rangeRequest start len) with e | fetched
  · exact iff_of_true (.inr ⟨e, _, h.getRange_error hs hstart' hlen hans⟩) nofun
  · obtain ⟨js, hjs, rfl⟩ := h.fetched_range hs hcf hsub hf hstart' hlen hans
    rcases eq_or_ne js [] with rfl | hjs'
    · refine iff_of_false (hwrong { t with calls := t.calls + 1 } ?_) fun h => h _ rfl rfl
      have hnone : ∀ is : List ℕ, decryptPresent P t (.ofList (fetchedOf P m 1 data' [])) is =
          .ok [] := by
        intro is
        rw [decryptPresent]
        induction is with
        | nil => rfl
        | cons i is ih => exact ih
      rw [h.getRange_ok hs hstart' hlen hans (hnone _), Except.map, List.append_nil,
        slice_of_length_le]
      obtain ⟨ha, -⟩ := h.range hs hstart' hlen
      rw [length_slice]; omega
    · obtain ⟨e, he⟩ := decryptPresent_foreign hP hs (hlt.le.trans hd) h.childLevel (fun i hi => by
        rw [List.mem_range'_1] at hi; omega) hjs hjs'
      refine iff_of_true (.inr ⟨e, _, h.getRange_ok hs hstart' hlen hans he⟩) fun fetched hfetched => ?_
      rw [← Except.ok.inj hfetched]
      exact fun hnil => hjs' (List.map_eq_nil_iff.1 hnil)

end Faithful

/-! ## A file and its map -/

section File

variable {fuel B : ℕ} {map : DataMap} {s : DecryptionStream}

/-- **When a range is right or refused**, for a map of any number of levels. -/
theorem getRange_faithful_iff (hP : P.Ideal) (hd : data.length ≤ isizeMax)
    (henc : encrypt P m fuel data = some (.ok (map, chunks))) (hcf : CollisionFree P chunks)
    (hf : fetch.Sound P chunks) (hs : streamingDecrypt P fetch map = .ok s) (ht : t.SameMap s)
    (start len : ℕ) :
    RangeFaithful P fetch data t start len ↔ RangeReads m data fetch t start len := by
  obtain ⟨_, _, calls, rfl, hsealed, hsub, ⟨h1, rfl, rfl⟩ | ⟨h1, rfl, hlt⟩⟩ :=
    (encrypts_of_eq_ok henc).streamingDecrypt_eq hP hd hcf hf hs
  · exact (opened_of_sameMap ht).rangeFaithful_iff hP.toLawful hsealed hcf hsub hf h1
  · exact (opened_of_sameMap ht).rangeFaithful_foreign hP hsealed hd hlt hcf hsub hf h1

/-- The chunk in the middle is missing, and the last one fills the gap. -/
theorem getRange_faithful_five : ∃ map chunks s,
    encrypt clear 110 1 (List.replicate 5 7) = some (.ok (map, chunks)) ∧
    streamingDecrypt clear (storageFetch clear (chunks.eraseIdx 1)) map = .ok s ∧
    RangeFaithful clear (storageFetch clear (chunks.eraseIdx 1)) (List.replicate 5 7) s 0 4 := by
  obtain ⟨⟨map, chunks⟩, henc, hrun⟩ := Run.of_okWith
    (x := encrypt clear 110 1 (List.replicate 5 7))
    (p := fun r : DataMap × List EncryptedChunk => decide (CollisionFree clear r.2) &&
      (streamingDecrypt clear (storageFetch clear (r.2.eraseIdx 1)) r.1).toOption.any
        fun s : DecryptionStream => decide (s.fileSize = 5) &&
          (storageFetch clear (r.2.eraseIdx 1) s.calls
            ((s.overlapping 0 4).map ChunkInfo.request)).toOption.all
              fun fetched : List (ℕ × Bytes) => decide (s.missing 0 4 fetched = [1]))
    (by decide +kernel)
  rcases hs : streamingDecrypt clear (storageFetch clear (chunks.eraseIdx 1)) map with e | s
  · rw [hs, Bool.and_eq_true] at hrun
    cases hrun.2
  rw [hs, Bool.and_eq_true, Except.toOption, Option.any_some, Bool.and_eq_true] at hrun
  obtain ⟨hcf, hsize, hmissing⟩ := hrun
  refine ⟨map, chunks, s, henc, hs, (getRange_faithful_iff clear_ideal
    (by rw [List.length_replicate]; decide) henc (of_decide_eq_true hcf)
    (storageFetch_sound (List.eraseIdx_sublist chunks 1).subset) hs ⟨rfl, rfl, rfl⟩ 0 4).2 ?_⟩
  refine .inr (.inr ⟨by rw [of_decide_eq_true hsize]; decide, fun fetched hfetched => ?_⟩)
  rw [hfetched, Except.toOption, Option.all_some] at hmissing
  rw [if_pos (by rw [List.length_replicate]; decide), of_decide_eq_true hmissing]
  refine .inr ⟨by rw [List.length_replicate]; decide, by decide, by
    rw [List.length_replicate]; decide, fun i _ p _ _ hp => ?_⟩
  rw [List.length_replicate, List.getElem?_replicate, List.getElem?_replicate, if_pos (by omega),
    if_pos (by simp only [List.length_singleton]; omega)]

/-- The chunk in the middle is missing, and the range is short. -/
theorem not_getRange_faithful : ∃ map chunks s,
    encrypt clear 110 1 (List.replicate 300 7) = some (.ok (map, chunks)) ∧
    (storageFetch clear (chunks.eraseIdx 1)).Sound clear chunks ∧
    streamingDecrypt clear (storageFetch clear (chunks.eraseIdx 1)) map = .ok s ∧
    ¬ RangeFaithful clear (storageFetch clear (chunks.eraseIdx 1)) (List.replicate 300 7) s 0 300 := by
  obtain ⟨⟨map, chunks⟩, henc, hrun⟩ := Run.of_okWith
    (x := encrypt clear 110 1 (List.replicate 300 7))
    (p := fun r : DataMap × List EncryptedChunk =>
      (streamingDecrypt clear (storageFetch clear (r.2.eraseIdx 1)) r.1).toOption.any fun s =>
        (getRange clear (storageFetch clear (r.2.eraseIdx 1)) 0 300 s).any
          fun q : Except Error Bytes × DecryptionStream =>
            decide (q.1 = .ok (List.replicate 200 7)))
    (by decide +kernel)
  rcases hs : streamingDecrypt clear (storageFetch clear (chunks.eraseIdx 1)) map with e | s
  · rw [hs] at hrun; cases hrun
  rw [hs, Except.toOption, Option.any_some, Option.any_eq_true] at hrun
  obtain ⟨⟨r, t'⟩, hget, hr⟩ := hrun
  obtain rfl := of_decide_eq_true hr
  refine ⟨map, chunks, s, henc, storageFetch_sound (List.eraseIdx_sublist chunks 1).subset, hs, ?_⟩
  rintro (⟨t'', he⟩ | ⟨e, t'', he⟩)
  · have hlen := congrArg List.length
      (Except.ok.inj (Prod.mk.inj (Option.some.inj (hget.symm.trans he))).1)
    rw [length_slice, List.length_replicate, List.length_replicate] at hlen
    omega
  · rw [hget] at he; cases he

/-- Consecutive ranges of these lengths. -/
def consecutive : ℕ → List ℕ → List (ℕ × ℕ)
  | _, [] => []
  | start, len :: lens => (start, len) :: consecutive (start + len) lens

/-- A range is read when nothing is missing. -/
theorem Opened.getRange_complete (h : Opened P m 0 data t) (hP : P.Lawful)
    (hs : Sealed P m 0 data) (hcf : CollisionFree P chunks)
    (hsub : chunksOf P m 0 data ⊆ chunks) (hf : fetch.Complete P chunks) (start len : ℕ) :
    ∃ t', getRange P fetch start len t =
        some (.ok (slice data start (min (start + len) data.length)), t') ∧ t'.SameMap t := by
  by_cases hrange : data.length ≤ start ∨ len = 0
  · refine ⟨t, ?_, rfl, rfl, rfl⟩
    rw [← slice_min_start, slice_range_nil hrange, h.getRange_empty hs hrange]
  obtain ⟨hstart, hlen⟩ := not_or.1 hrange
  have hstart := Nat.lt_of_not_le hstart
  have hlen := Nat.pos_of_ne_zero hlen
  obtain ⟨-, hab, hb, hstop⟩ := h.range hs hstart hlen
  have hreq : t.rangeRequest start len = requestsOf P m 0 data
      (List.range' (t.startChunk start) (t.endChunk start len + 1 - t.startChunk start)) :=
    h.requiredHashes hb
  obtain ⟨fetched, hans, hlength⟩ := hf.returns t.calls (t.rangeRequest start len) (by
    rw [hreq]
    intro q hq
    obtain ⟨i, hi, rfl⟩ := List.mem_map.1 hq
    rw [List.mem_range'_1] at hi
    exact ⟨_, hsub (mem_chunksOf.2 ⟨i, by omega, rfl⟩), rfl⟩)
  have hdrawn := hf.sound _ _ _ hans
  rw [hreq] at hdrawn hlength
  obtain ⟨js, hperm, rfl⟩ := hdrawn.exists_indices hcf hsub fun i hi => by
    rw [List.mem_range'_1] at hi; omega
  rw [length_fetchedOf, length_requestsOf] at hlength
  have hperm := hperm.perm_of_length_le hlength.ge
  refine ⟨{ t with calls := t.calls + 1 }, ?_, rfl, rfl, rfl⟩
  rw [h.getRange_fetched hP hs hcf hsub hf.sound hstart hlen hans, map_fst_fetchedOf,
    slice_withoutMissing hab (fun i ha hb => ?_) hstop]
  exact hperm.symm.subset (List.mem_range'_1.2 ⟨ha, by omega⟩)

/-- Consecutive ranges are put together to the part of the file that they cover. -/
theorem mapM_getRange_complete (hP : P.Lawful)
    (hs : Sealed P m 0 data) (hcf : CollisionFree P chunks)
    (hsub : chunksOf P m 0 data ⊆ chunks) (hf : fetch.Complete P chunks) :
    ∀ (lens : List ℕ) (start : ℕ) (t : DecryptionStream), Opened P m 0 data t →
    start + lens.sum ≤ data.length →
    ∃ parts t', (consecutive start lens).mapM (fun r => getRange P fetch r.1 r.2) t =
        some (.ok parts, t') ∧ parts.flatten = slice data start (start + lens.sum)
  | [], start, t, _, _ => ⟨[], t, rfl, by simp⟩
  | len :: lens, start, t, h, hle => by
    rw [List.sum_cons] at hle
    obtain ⟨t₁, hget, hsame⟩ := h.getRange_complete hP hs hcf hsub hf start len
    have h₁ : Opened P m 0 data t₁ := ⟨hsame.chunkInfos.trans h.chunkInfos,
      hsame.srcHashes.trans h.srcHashes, hsame.childLevel.trans h.childLevel⟩
    obtain ⟨parts, t', hrest, hflat⟩ :=
      mapM_getRange_complete hP hs hcf hsub hf lens (start + len) t₁ h₁ (by omega)
    refine ⟨slice data start (min (start + len) data.length) :: parts, t', ?_, ?_⟩
    · rw [consecutive, List.mapM_cons, Act.bind_of_ok hget, Act.bind_of_ok hrest]; rfl
    · rw [List.flatten_cons, hflat, min_eq_left (by omega), List.sum_cons, ← Nat.add_assoc,
        slice_append data (Nat.le_add_right _ _) (Nat.le_add_right _ _)]

/-- **All read paths agree** when nothing is missing, whatever the order of the answers. -/
theorem read_paths_agree (hP : P.Ideal) (hd : data.length ≤ isizeMax)
    (henc : encrypt P m fuel data = some (.ok (map, chunks))) (h1 : OneLevel m data.length)
    (hcf : CollisionFree P chunks) (hB : 1 ≤ B) (hf : fetch.Complete P chunks) :
    ∃ s, streamingDecrypt P fetch map = .ok s ∧
      (∃ pieces : List Bytes, ∃ s', Drains (decryptionNext P B fetch) s (pieces.map .ok) s' ∧
        pieces.flatten = data) ∧
      (∀ t : DecryptionStream, t.SameMap s → ∀ start len, ∃ t',
        getRange P fetch start len t =
          some (.ok (slice data start (min (start + len) data.length)), t') ∧ t'.SameMap t) ∧
      (∀ t : DecryptionStream, t.SameMap s → ∀ lens : List ℕ, lens.sum = data.length →
        ∃ parts t', (consecutive 0 lens).mapM (fun r => getRange P fetch r.1 r.2) t =
          some (.ok parts, t') ∧ decrypt P map chunks = .ok parts.flatten) ∧
      ∀ calls, ∃ root calls', getRootDataMapParallel P fetch map calls = .ok (root, calls') ∧
        getRootDataMap P map (getChunk P (chunkMapOf P chunks)) = .ok root := by
  have h := encrypts_of_eq_ok henc
  obtain ⟨s, hs⟩ := h.exists_stream hP hd hcf hf
  refine ⟨s, hs, ?_⟩
  obtain ⟨_, _, calls, rfl, hsealed, hsub, ⟨-, rfl, rfl⟩ | ⟨h2, -⟩⟩ :=
    h.streamingDecrypt_eq hP hd hcf hf.sound hs
  swap
  · exact absurd h1 h2
  refine ⟨?_, fun t ht start len => ?_, fun t ht lens hlens => ?_, h.roots_agree hP hd hcf hf⟩
  · obtain ⟨s', hdrains⟩ := drains_whole calls hP.toLawful hsealed hcf hsub hf.sound hB
      fun j _ => whole_of_complete hsub hf j
    exact ⟨_, s', hdrains, hsealed.flatten_chunkAt⟩
  · exact (opened_of_sameMap ht).getRange_complete hP.toLawful hsealed hcf hsub hf start len
  · obtain ⟨parts, t', hrun, hflat⟩ := mapM_getRange_complete hP.toLawful hsealed hcf hsub hf lens 0 t
      (opened_of_sameMap ht) (by rw [Nat.zero_add, hlens])
    refine ⟨parts, t', hrun, ?_⟩
    rw [h.decrypt_eq hP.toLawful hd h1 hcf (List.Subset.refl _), hflat, Nat.zero_add, hlens,
      slice_full]

theorem read_paths_agree_300 : ∃ map chunks s,
    encrypt clear 110 1 (List.replicate 300 7) = some (.ok (map, chunks)) ∧
    streamingDecrypt clear (storageFetch clear chunks) map = .ok s ∧
    (∃ pieces : List Bytes, ∃ s', Drains (decryptionNext clear 2 (storageFetch clear chunks)) s
      (pieces.map .ok) s' ∧ pieces.flatten = List.replicate 300 7) := by
  obtain ⟨⟨map, chunks⟩, henc, hcf⟩ := Run.of_okWith (x := encrypt clear 110 1 (List.replicate 300 7))
    (p := fun r => decide (CollisionFree clear r.2)) (by decide +kernel)
  have hcf := of_decide_eq_true hcf
  obtain ⟨s, hs, hread, -⟩ := read_paths_agree (B := 2) clear_ideal
    (by rw [List.length_replicate]; decide) henc (by rw [List.length_replicate]; decide) hcf
    (by decide) (storageFetch_complete hcf)
  exact ⟨map, chunks, s, henc, hs, hread⟩

end File

end Autonomi
