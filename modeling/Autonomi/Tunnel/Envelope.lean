/-
  The wire format and the session cipher of the post-quantum tunnel
  (`ant-protocol/src/pqc_tunnel.rs`).

  ChaCha20-Poly1305 and BLAKE3 are those of `P : Primitives`; a session key is
  the only data of a `SessionCipher`.
-/
import Autonomi.SelfEncryption.Cipher

namespace Autonomi

open Lib

def pqcVersion : ℕ := 2

/-- The sizes of ML-KEM-768 and ML-DSA-65. -/
abbrev EncapsKey := List.Vector UInt8 1184
abbrev CipherText := List.Vector UInt8 1088
abbrev VerifyKey := List.Vector UInt8 1952
abbrev Signature := List.Vector UInt8 3309

abbrev PeerId := List.Vector UInt8 32

/-- `ant-wt-auth-v1` -/
def authSignContext : Bytes := [97, 110, 116, 45, 119, 116, 45, 97, 117, 116, 104, 45, 118, 49]

/-- `{:02x}` of every byte. -/
def hex (bytes : Bytes) : String :=
  String.ofList (bytes.flatMap fun b => [Nat.digitChar (b.toNat / 16), Nat.digitChar (b.toNat % 16)])

inductive Direction where
  | clientToServer
  | serverToClient
  deriving DecidableEq

/-- The byte of a direction in a nonce. -/
def Direction.byte : Direction → UInt8
  | .clientToServer => 0
  | .serverToClient => 1

/-- The errors of the tunnel that the modelled functions return. -/
inductive TunnelError where
  | invalidEnvelope (msg : String)
  | unsupportedVersion (version : ℕ)
  | encryptionFailed
  | decryptionFailed
  deriving DecidableEq

def TunnelError.text : TunnelError → String
  | .invalidEnvelope msg => s!"invalid PQC envelope: {msg}"
  | .unsupportedVersion version => s!"unsupported PQC version: {version}"
  | .encryptionFailed => "PQC tunnel encryption failed"
  | .decryptionFailed => "PQC tunnel decryption failed"

/-! ## Nonces -/

def buildNonce (streamSeq : UInt32) (direction : Direction) : Nonce :=
  ⟨beBytes 4 streamSeq.toNat ++ direction.byte :: List.replicate 7 0, by simp⟩

theorem beBytes_toNat_inj {q q' : UInt32} (h : beBytes 4 q.toNat = beBytes 4 q'.toNat) : q = q' :=
  UInt32.toNat_inj.1 (beBytes_inj q.toNat_lt q'.toNat_lt h)

/-- **A nonce determines its sequence number and direction.** -/
theorem buildNonce_inj {q q' : UInt32} {d d' : Direction} (h : buildNonce q d = buildNonce q' d') :
    q = q' ∧ d = d' := by
  have hl := congrArg List.Vector.toList h
  obtain ⟨hq, hd⟩ := List.append_inj hl (by simp)
  refine ⟨beBytes_toNat_inj hq, ?_⟩
  have hb : d.byte = d'.byte := (List.cons.inj hd).1
  cases d <;> cases d' <;> first | rfl | exact absurd hb (by decide)

/-! ## The session cipher -/

structure SessionCipher where
  key : Key

variable (P : Primitives)

def SessionCipher.encrypt (c : SessionCipher) (streamSeq : UInt32) (direction : Direction)
    (plaintext : Bytes) : Except TunnelError Bytes :=
  okOr .encryptionFailed (P.aeadEncrypt c.key (buildNonce streamSeq direction) plaintext)

def SessionCipher.decrypt (c : SessionCipher) (streamSeq : UInt32) (direction : Direction)
    (ciphertext : Bytes) : Except TunnelError Bytes :=
  okOr .decryptionFailed (P.aeadDecrypt c.key (buildNonce streamSeq direction) ciphertext)

variable {P}

theorem SessionCipher.decrypt_encrypt (hP : P.Lawful) {c : SessionCipher} {q : UInt32}
    {d : Direction} {plaintext ciphertext : Bytes} (h : c.encrypt P q d plaintext = .ok ciphertext) :
    c.decrypt P q d ciphertext = .ok plaintext := by
  rw [SessionCipher.decrypt, okOr_eq_ok]
  exact hP.decrypt_encrypt (okOr_eq_ok.1 h)

/-! ## The handshake -/

def encodeClientHello (ek : EncapsKey) : Bytes := 1 :: (beBytes 2 pqcVersion ++ ek.toList)

/-- An envelope has a type byte and at least its fixed length. -/
def checkEnvelope (name : String) (kind : UInt8) (expectedLen : ℕ) (data : Bytes) :
    Except TunnelError Unit :=
  if data.length < expectedLen then
    .error (.invalidEnvelope
      s!"{name} too short: {data.length} bytes, expected {expectedLen}")
  else if data.headD 0 ≠ kind then
    .error (.invalidEnvelope
      s!"expected {name} type 0x{hex [kind]}, got 0x{hex [data.headD 0]}")
  else .ok ()

def decodeClientHello (data : Bytes) : Except TunnelError (ℕ × EncapsKey) := do
  checkEnvelope "ClientHello" 1 (1 + 2 + 1184) data
  pure (ofBeBytes ((data.drop 1).take 2), padTo 1184 (data.drop 3))

def encodeServerAccept (ct : CipherText) (pubkey : VerifyKey) (signature : Signature) : Bytes :=
  2 :: (beBytes 2 pqcVersion ++ (ct.toList ++ (pubkey.toList ++ signature.toList)))

structure ServerAcceptData where
  version : ℕ
  ct : CipherText
  pubkey : VerifyKey
  signature : Signature

def decodeServerAccept (data : Bytes) : Except TunnelError ServerAcceptData := do
  checkEnvelope "ServerAccept" 2 (1 + 2 + 1088 + 1952 + 3309) data
  pure { version := ofBeBytes ((data.drop 1).take 2)
         ct := padTo 1088 (data.drop 3)
         pubkey := padTo 1952 (data.drop (3 + 1088))
         signature := padTo 3309 (data.drop (3 + 1088 + 1952)) }

def buildAuthMessage (clientEk : EncapsKey) (ct : CipherText) : Bytes :=
  authSignContext ++ (clientEk.toList ++ ct.toList)

/-- The signed message determines the key and the ciphertext. -/
theorem buildAuthMessage_inj {ek ek' : EncapsKey} {ct ct' : CipherText}
    (h : buildAuthMessage ek ct = buildAuthMessage ek' ct') : ek = ek' ∧ ct = ct' := by
  have h₁ := List.append_cancel_left h
  obtain ⟨hek, hct⟩ := List.append_inj h₁ (by rw [ek.toList_length, ek'.toList_length])
  exact ⟨List.Vector.toList_injective hek, List.Vector.toList_injective hct⟩

theorem decodeClientHello_encode (ek : EncapsKey) :
    decodeClientHello (encodeClientHello ek) = .ok (pqcVersion, ek) := by
  have hlen : ¬ (encodeClientHello ek).length < 1 + 2 + 1184 := by simp [encodeClientHello]
  have hek : (encodeClientHello ek).drop 3 = ek.toList := by simp [encodeClientHello]
  have hver : ((encodeClientHello ek).drop 1).take 2 = beBytes 2 pqcVersion := by
    simp [encodeClientHello]
  have hcheck : checkEnvelope "ClientHello" 1 (1 + 2 + 1184) (encodeClientHello ek) = .ok () := by
    rw [checkEnvelope, if_neg hlen, if_neg (by simp [encodeClientHello])]
  rw [decodeClientHello, hcheck, hek, hver, padTo_toList]
  rfl

/-- **What the server sends of the handshake reaches the client unchanged.** -/
theorem decodeServerAccept_encode (ct : CipherText) (pubkey : VerifyKey) (signature : Signature) :
    decodeServerAccept (encodeServerAccept ct pubkey signature) =
      .ok ⟨pqcVersion, ct, pubkey, signature⟩ := by
  set data := encodeServerAccept ct pubkey signature with hdata
  have hlen : ¬ data.length < 1 + 2 + 1088 + 1952 + 3309 := by simp [hdata, encodeServerAccept]
  have hver : (data.drop 1).take 2 = beBytes 2 pqcVersion := by simp [hdata, encodeServerAccept]
  have hct : data.drop 3 = ct.toList ++ (pubkey.toList ++ signature.toList) := by
    simp [hdata, encodeServerAccept]
  have hpk : data.drop (3 + 1088) = pubkey.toList ++ signature.toList := by
    rw [← List.drop_drop, hct]; exact List.drop_left' ct.toList_length
  have hsig : data.drop (3 + 1088 + 1952) = signature.toList := by
    rw [← List.drop_drop, hpk]; exact List.drop_left' pubkey.toList_length
  have hcheck : checkEnvelope "ServerAccept" 2 (1 + 2 + 1088 + 1952 + 3309) data = .ok () := by
    rw [checkEnvelope, if_neg hlen, if_neg (by simp [hdata, encodeServerAccept])]
  rw [decodeServerAccept, hcheck, hver, hct, hpk, hsig, padTo_append, padTo_append,
    padTo_toList]
  rfl

variable (P) in
def derivePeerId (pubkey : VerifyKey) : PeerId := P.blake3 pubkey.toList

/-! ## Encrypted messages -/

def encodeEncrypted (streamSeq : UInt32) (ciphertext : Bytes) : Bytes :=
  3 :: (beBytes 4 streamSeq.toNat ++ ciphertext)

def decodeEncrypted (data : Bytes) : Except TunnelError (UInt32 × Bytes) :=
  if data.length < 5 then
    .error (.invalidEnvelope s!"Encrypted envelope too short: {data.length} bytes")
  else if data.headD 0 ≠ 3 then
    .error (.invalidEnvelope s!"expected Encrypted type 0x03, got 0x{hex [data.headD 0]}")
  else .ok (UInt32.ofNat (ofBeBytes ((data.drop 1).take 4)), data.drop 5)

/-- An envelope, or its beginning, keeps its sequence number and its ciphertext as far as it goes. -/
theorem decodeEncrypted_of_initial {q q' : UInt32} {data ciphertext ciphertext' : Bytes}
    (hp : data <+: encodeEncrypted q ciphertext) (h : decodeEncrypted data = .ok (q', ciphertext')) :
    q' = q ∧ ciphertext' <+: ciphertext := by
  rw [decodeEncrypted] at h
  split_ifs at h with h5 hkind
  obtain ⟨hq, hc⟩ := Prod.mk.inj (Except.ok.inj h)
  obtain ⟨t, ht⟩ := hp
  have hdrop : data.drop 1 ++ t = beBytes 4 q.toNat ++ ciphertext := by
    have := congrArg (List.drop 1) ht
    rw [List.drop_append_of_le_length (by omega)] at this
    simpa [encodeEncrypted] using this
  have hlen : (data.drop 1).length = data.length - 1 := by simp
  have htake : (data.drop 1).take 4 = beBytes 4 q.toNat := by
    have := congrArg (List.take 4) hdrop
    rw [List.take_append_of_le_length (by omega)] at this
    rw [this]; exact List.take_left' (length_beBytes _ _)
  refine ⟨?_, ?_⟩
  · rw [← hq, htake, ofBeBytes_beBytes q.toNat_lt, UInt32.ofNat_toNat]
  · refine ⟨t, ?_⟩
    have := congrArg (List.drop 4) hdrop
    rw [List.drop_append_of_le_length (by omega), List.drop_drop] at this
    rw [← hc, this]; exact List.drop_left' (length_beBytes _ _)

theorem decodeEncrypted_encode (q : UInt32) (ciphertext : Bytes) :
    decodeEncrypted (encodeEncrypted q ciphertext) = .ok (q, ciphertext) := by
  have htake : ((encodeEncrypted q ciphertext).drop 1).take 4 = beBytes 4 q.toNat :=
    List.take_left' (length_beBytes _ _)
  have hdrop : (encodeEncrypted q ciphertext).drop 5 = ciphertext := by
    simp [encodeEncrypted]
  rw [decodeEncrypted, if_neg (by simp [encodeEncrypted]), if_neg (by simp [encodeEncrypted]),
    htake, hdrop, ofBeBytes_beBytes q.toNat_lt, UInt32.ofNat_toNat]

/-! ## Framing -/

/-- The length is cast to a `u32`, whose bytes are the low ones. -/
def frame (payload : Bytes) : Bytes := beBytes 4 payload.length ++ payload

inductive FrameError where
  | readFailed
  | tooLarge (len : ℕ)
  deriving DecidableEq

/-- The server reads a length and as many bytes, at most `limit`. -/
def readFrame (limit : ℕ) (recv : Bytes) : Except FrameError Bytes :=
  if recv.length < 4 then .error .readFailed
  else if limit < ofBeBytes (recv.take 4) then .error (.tooLarge (ofBeBytes (recv.take 4)))
  else if (recv.drop 4).length < ofBeBytes (recv.take 4) then .error .readFailed
  else .ok ((recv.drop 4).take (ofBeBytes (recv.take 4)))

/-- Of what was sent, no more is read than was framed. -/
theorem readFrame_initial {limit : ℕ} {recv payload msg : Bytes} (hp : recv <+: frame payload)
    (h : readFrame limit recv = .ok msg) : msg <+: payload := by
  rw [readFrame] at h
  split_ifs at h with h4 _ _
  obtain ⟨t, ht⟩ := hp
  have hdrop := congrArg (List.drop 4) ht
  rw [List.drop_append_of_le_length (by omega), frame,
    List.drop_left' (length_beBytes _ _)] at hdrop
  rw [← Except.ok.inj h]
  exact (List.take_prefix _ _).trans ⟨t, hdrop⟩

theorem readFrame_frame {limit : ℕ} {payload : Bytes} (h : payload.length ≤ limit)
    (h32 : payload.length < 256 ^ 4) : readFrame limit (frame payload) = .ok payload := by
  have htake : (frame payload).take 4 = beBytes 4 payload.length :=
    List.take_left' (length_beBytes _ _)
  have hdrop : (frame payload).drop 4 = payload := List.drop_left' (length_beBytes _ _)
  have hlen : ¬ (frame payload).length < 4 := by simp [frame]
  rw [readFrame, if_neg hlen, htake, ofBeBytes_beBytes h32, if_neg (not_lt.2 h), hdrop,
    if_neg (lt_irrefl _), List.take_length]

/-- Why a `reader.read()` of the browser fails. -/
inductive ReadFault where
  | read (e : String)
  | value (e : String)
  deriving DecidableEq

/-- What one `reader.read()` gives before it is done. -/
abbrev ReadResult := Except ReadFault (Option Bytes)

/-- The client reads to the end of the results, at most `limit` bytes. -/
def readChunks (limit : ℕ) (faultText : ReadFault → String) (limitText : ℕ → String) :
    List ReadResult → Bytes → Except String Bytes
  | [], buf => .ok buf
  | .error e :: _, _ => .error (faultText e)
  | .ok none :: results, buf => readChunks limit faultText limitText results buf
  | .ok (some chunk) :: results, buf =>
    if limit < (buf ++ chunk).length then .error (limitText (buf ++ chunk).length)
    else readChunks limit faultText limitText results (buf ++ chunk)

end Autonomi
