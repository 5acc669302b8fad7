/-
  The binary form of a data map, the other way round: what `from_bytes`
  accepts is what `to_bytes` has written, and nothing shorter is accepted.
-/
import Autonomi.Lib.Canonical
import Autonomi.SelfEncryption.DataMap

namespace Autonomi

open Lib

namespace ChunkInfo

/-- The numbers of an info are 64-bit ones. -/
structure Fits (c : ChunkInfo) : Prop where
  index : c.index < 2 ^ 64
  srcSize : c.srcSize < 2 ^ 64

theorem takes_decode : Takes decode fun c bs => c.Fits ∧ bs = c.encode := by
  refine ((Takes.leNat 8).bind fun index => (Takes.byteArray 32).bind fun dstHash =>
    (Takes.byteArray 32).bind fun srcHash => (Takes.leNat 8).bind fun srcSize => Takes.pure _).mono ?_
  rintro _ _ ⟨index, _, _, ⟨hindex, rfl⟩, ⟨dstHash, _, _, rfl, ⟨srcHash, _, _, rfl,
    ⟨srcSize, _, _, ⟨hsize, rfl⟩, ⟨rfl, rfl⟩, rfl⟩, rfl⟩, rfl⟩, rfl⟩
  exact ⟨⟨hindex, hsize⟩, by rw [List.append_nil]; rfl⟩

end ChunkInfo

theorem takes_child : Takes (optional (leNat 8)) fun c bs =>
    (∀ n ∈ c, n < 2 ^ 64) ∧ bs = encodeChild c := by
  refine (Takes.optional (Takes.leNat 8)).mono ?_
  rintro _ _ (⟨rfl, rfl⟩ | ⟨n, rfl, hn, rfl⟩)
  · exact ⟨nofun, rfl⟩
  · refine ⟨fun k hk => ?_, rfl⟩
    obtain rfl := Option.mem_some_iff.1 hk
    exact hn

namespace DataMap

theorem takes_decode : Takes decode fun m bs => m.Fits ∧ bs = m.encode := by
  refine (Takes.byte.bind fun version => (Takes.leNat 8).bind fun len =>
    (Takes.times ChunkInfo.takes_decode len).bind fun infos => takes_child.bind fun child =>
      Takes.ite (Takes.pure _) (Takes.throw _)).mono ?_
  rintro _ _ ⟨version, _, _, rfl, ⟨_, _, _, ⟨hlen, rfl⟩, ⟨infos, _, _, ⟨rfl, hinfos, rfl⟩,
    ⟨child, _, _, ⟨hchild, rfl⟩, h, rfl⟩, rfl⟩, rfl⟩, rfl⟩
  obtain ⟨rfl, rfl, rfl⟩ | ⟨-, h⟩ := h
  · exact ⟨⟨hlen, fun c hc => (hinfos c hc).index, fun c hc => (hinfos c hc).srcSize, hchild⟩,
      by rw [List.append_nil]; rfl⟩
  · exact h.elim

theorem fromBytes_eq_ok {bytes : Bytes} {m : DataMap} :
    fromBytes bytes = .ok m ↔ ∃ t, decode bytes = .ok (m, t) := by
  rw [fromBytes]
  rcases decode bytes with e | ⟨m', t⟩
  · constructor
    · intro h
      cases h
    · rintro ⟨t, h⟩
      cases h
  · constructor
    · intro h
      obtain rfl := Except.ok.inj h
      exact ⟨t, rfl⟩
    · rintro ⟨t', h⟩
      obtain ⟨rfl, -⟩ := Prod.mk.inj (Except.ok.inj h)
      rfl

/-- **The binary form is the only one**: it is read back whatever follows, no part of it is, and
    what is accepted is the form of the map returned, with something after it. -/
theorem fromBytes_toBytes {m : DataMap} (hm : m.Fits) {bytes : Bytes}
    (hbytes : m.toBytes = some bytes) :
    (∀ t, fromBytes (bytes ++ t) = .ok m) ∧
      (∀ p, p <+: bytes → p ≠ bytes → ∃ e, fromBytes p = .error e) ∧
      (∀ input : Bytes, input.head? ≠ some 1 → ∃ e, fromBytes input = .error e) ∧
      ∀ (input : Bytes) (m' : DataMap), input.length ≤ isizeMax → fromBytes input = .ok m' →
        ∃ bytes' t, m'.toBytes = some bytes' ∧ input = bytes' ++ t := by
  obtain ⟨rfl, -⟩ := toBytes_eq_some hbytes
  refine ⟨fromBytes_encode hm, ?_, fun input hinput => ?_, fun input m' hlen h => ?_⟩
  · rintro p ⟨u, hu⟩ hne
    obtain ⟨e, he⟩ := takes_decode.refuses_of_append (fun a ha => reads_encode ha) hm hu
      (by rintro rfl; exact hne (by rwa [List.append_nil] at hu))
    exact ⟨e, by rw [fromBytes, he]; rfl⟩
  · rcases h : fromBytes input with e | m'
    · exact ⟨e, rfl⟩
    · exact absurd (head_of_fromBytes h) hinput
  · obtain ⟨t, ht⟩ := fromBytes_eq_ok.1 h
    obtain ⟨_, rfl, -, rfl⟩ := takes_decode ht
    rw [List.length_append] at hlen
    exact ⟨m'.encode, t, by rw [toBytes, if_pos (by omega)], rfl⟩

/-- A map of level 2 with one info. -/
theorem fromBytes_toBytes_child : ∃ bytes,
    toBytes ⟨[⟨7, padTo 32 [1], padTo 32 [2], 5⟩], some 2⟩ = some bytes ∧
      ∀ t, fromBytes (bytes ++ t) = .ok ⟨[⟨7, padTo 32 [1], padTo 32 [2], 5⟩], some 2⟩ := by
  have hbytes : toBytes ⟨[⟨7, padTo 32 [1], padTo 32 [2], 5⟩], some 2⟩ = some _ := rfl
  refine ⟨_, hbytes, (fromBytes_toBytes ⟨?_, ?_, ?_, ?_⟩ hbytes).1⟩ <;> simp

end DataMap

end Autonomi
