/-
  The messages of the chunk protocol (`ant-node/src/ant_protocol/mod.rs` and
  `chunk.rs`) and their bytes.
-/
import Autonomi.Lib.Postcard
import Autonomi.SelfEncryption.Decrypt

namespace Autonomi.AntNode

open Lib

def closeGroupSize : ℕ := 5

def closeGroupMajority : ℕ := closeGroupSize / 2 + 1

def chunkProtocolId : String := "autonomi/ant/chunk/v1"

def maxChunkSize : ℕ := 4 * 1024 * 1024

def maxWireMessageSize : ℕ := 5 * 1024 * 1024

def dataTypeChunk : UInt32 := 0

inductive ProtocolError where
  | serializationFailed (msg : String)
  | deserializationFailed (msg : String)
  | messageTooLarge (size maxSize : ℕ)
  | chunkTooLarge (size maxSize : ℕ)
  | addressMismatch (expected actual : XorName)
  | storageFailed (msg : String)
  | paymentFailed (msg : String)
  | quoteFailed (msg : String)
  | internal (msg : String)
  deriving DecidableEq

def ProtocolError.text : ProtocolError → String
  | .serializationFailed msg => s!"serialization failed: {msg}"
  | .deserializationFailed msg => s!"deserialization failed: {msg}"
  | .messageTooLarge size maxSize => s!"message size {size} exceeds maximum {maxSize}"
  | .chunkTooLarge size maxSize => s!"chunk size {size} exceeds maximum {maxSize}"
  | .addressMismatch expected actual =>
    s!"address mismatch: expected {hexEncode expected}, got {hexEncode actual}"
  | .storageFailed msg => s!"storage failed: {msg}"
  | .paymentFailed msg => s!"payment failed: {msg}"
  | .quoteFailed msg => s!"quote failed: {msg}"
  | .internal msg => s!"internal error: {msg}"

structure ChunkPutRequest where
  address : XorName
  content : Bytes
  paymentProof : Option Bytes
  deriving DecidableEq

inductive ChunkPutResponse where
  | success (address : XorName)
  | alreadyExists (address : XorName)
  | paymentRequired (message : String)
  | error (e : ProtocolError)
  deriving DecidableEq

structure ChunkGetRequest where
  address : XorName
  deriving DecidableEq

inductive ChunkGetResponse where
  | success (address : XorName) (content : Bytes)
  | notFound (address : XorName)
  | error (e : ProtocolError)
  deriving DecidableEq

structure ChunkQuoteRequest where
  address : XorName
  dataSize : UInt64
  dataType : UInt32
  deriving DecidableEq

inductive ChunkQuoteResponse where
  | success (quote : Bytes) (alreadyStored : Bool)
  | error (e : ProtocolError)
  deriving DecidableEq

structure MerkleCandidateQuoteRequest where
  address : XorName
  dataType : UInt32
  dataSize : UInt64
  merklePaymentTimestamp : UInt64
  deriving DecidableEq

inductive MerkleCandidateQuoteResponse where
  | success (candidateNode : Bytes)
  | error (e : ProtocolError)
  deriving DecidableEq

inductive ChunkMessageBody where
  | putRequest (request : ChunkPutRequest)
  | putResponse (response : ChunkPutResponse)
  | getRequest (request : ChunkGetRequest)
  | getResponse (response : ChunkGetResponse)
  | quoteRequest (request : ChunkQuoteRequest)
  | quoteResponse (response : ChunkQuoteResponse)
  | merkleCandidateQuoteRequest (request : MerkleCandidateQuoteRequest)
  | merkleCandidateQuoteResponse (response : MerkleCandidateQuoteResponse)
  deriving DecidableEq

structure ChunkMessage where
  requestId : UInt64
  body : ChunkMessageBody
  deriving DecidableEq

/-! ## Writing -/

def ProtocolError.write : ProtocolError → Bytes
  | .serializationFailed msg => putTag 0 ++ putString msg
  | .deserializationFailed msg => putTag 1 ++ putString msg
  | .messageTooLarge size maxSize => putTag 2 ++ (varint 64 size ++ varint 64 maxSize)
  | .chunkTooLarge size maxSize => putTag 3 ++ (varint 64 size ++ varint 64 maxSize)
  | .addressMismatch expected actual => putTag 4 ++ (expected.toList ++ actual.toList)
  | .storageFailed msg => putTag 5 ++ putString msg
  | .paymentFailed msg => putTag 6 ++ putString msg
  | .quoteFailed msg => putTag 7 ++ putString msg
  | .internal msg => putTag 8 ++ putString msg

def putOption : Option Bytes → Bytes
  | none => [0]
  | some bs => 1 :: putBytes bs

def ChunkPutRequest.write (r : ChunkPutRequest) : Bytes :=
  r.address.toList ++ (putBytes r.content ++ putOption r.paymentProof)

def ChunkPutResponse.write : ChunkPutResponse → Bytes
  | .success address => putTag 0 ++ address.toList
  | .alreadyExists address => putTag 1 ++ address.toList
  | .paymentRequired message => putTag 2 ++ putString message
  | .error e => putTag 3 ++ e.write

def ChunkGetRequest.write (r : ChunkGetRequest) : Bytes := r.address.toList

def ChunkGetResponse.write : ChunkGetResponse → Bytes
  | .success address content => putTag 0 ++ (address.toList ++ putBytes content)
  | .notFound address => putTag 1 ++ address.toList
  | .error e => putTag 2 ++ e.write

def ChunkQuoteRequest.write (r : ChunkQuoteRequest) : Bytes :=
  r.address.toList ++ (varint 64 r.dataSize.toNat ++ varint 32 r.dataType.toNat)

def ChunkQuoteResponse.write : ChunkQuoteResponse → Bytes
  | .success quote alreadyStored => putTag 0 ++ (putBytes quote ++ putBool alreadyStored)
  | .error e => putTag 1 ++ e.write

def MerkleCandidateQuoteRequest.write (r : MerkleCandidateQuoteRequest) : Bytes :=
  r.address.toList ++ (varint 32 r.dataType.toNat ++
    (varint 64 r.dataSize.toNat ++ varint 64 r.merklePaymentTimestamp.toNat))

def MerkleCandidateQuoteResponse.write : MerkleCandidateQuoteResponse → Bytes
  | .success candidateNode => putTag 0 ++ putBytes candidateNode
  | .error e => putTag 1 ++ e.write

def ChunkMessageBody.write : ChunkMessageBody → Bytes
  | .putRequest r => putTag 0 ++ r.write
  | .putResponse r => putTag 1 ++ r.write
  | .getRequest r => putTag 2 ++ r.write
  | .getResponse r => putTag 3 ++ r.write
  | .quoteRequest r => putTag 4 ++ r.write
  | .quoteResponse r => putTag 5 ++ r.write
  | .merkleCandidateQuoteRequest r => putTag 6 ++ r.write
  | .merkleCandidateQuoteResponse r => putTag 7 ++ r.write

/-- `to_stdvec` fails for no message: there is memory for it. -/
def ChunkMessage.encode (m : ChunkMessage) : Bytes :=
  varint 64 m.requestId.toNat ++ m.body.write

/-! ## Reading -/

def xorName : Decoder XorName := byteArray 32

def readU32 : Decoder UInt32 := UInt32.ofNat <$> readVarint 32

def readU64 : Decoder UInt64 := UInt64.ofNat <$> readVarint 64

def ProtocolError.readVariant : ℕ → Decoder ProtocolError
  | 0 => .serializationFailed <$> readString
  | 1 => .deserializationFailed <$> readString
  | 2 => do
    let size ← readVarint 64
    .messageTooLarge size <$> readVarint 64
  | 3 => do
    let size ← readVarint 64
    .chunkTooLarge size <$> readVarint 64
  | 4 => do
    let expected ← xorName
    .addressMismatch expected <$> xorName
  | 5 => .storageFailed <$> readString
  | 6 => .paymentFailed <$> readString
  | 7 => .quoteFailed <$> readString
  | 8 => .internal <$> readString
  | _ => throw badTag

def ProtocolError.read : Decoder ProtocolError := readVarint 32 >>= readVariant

def ChunkPutRequest.read : Decoder ChunkPutRequest := do
  let address ← xorName
  let content ← readBytes
  ChunkPutRequest.mk address content <$> optional readBytes

def ChunkPutResponse.readVariant : ℕ → Decoder ChunkPutResponse
  | 0 => .success <$> xorName
  | 1 => .alreadyExists <$> xorName
  | 2 => .paymentRequired <$> readString
  | 3 => .error <$> ProtocolError.read
  | _ => throw badTag

def ChunkGetResponse.readVariant : ℕ → Decoder ChunkGetResponse
  | 0 => do
    let address ← xorName
    .success address <$> readBytes
  | 1 => .notFound <$> xorName
  | 2 => .error <$> ProtocolError.read
  | _ => throw badTag

def ChunkQuoteRequest.read : Decoder ChunkQuoteRequest := do
  let address ← xorName
  let dataSize ← readU64
  ChunkQuoteRequest.mk address dataSize <$> readU32

def ChunkQuoteResponse.readVariant : ℕ → Decoder ChunkQuoteResponse
  | 0 => do
    let quote ← readBytes
    .success quote <$> readBool
  | 1 => .error <$> ProtocolError.read
  | _ => throw badTag

def MerkleCandidateQuoteRequest.read : Decoder MerkleCandidateQuoteRequest := do
  let address ← xorName
  let dataType ← readU32
  let dataSize ← readU64
  MerkleCandidateQuoteRequest.mk address dataType dataSize <$> readU64

def MerkleCandidateQuoteResponse.readVariant : ℕ → Decoder MerkleCandidateQuoteResponse
  | 0 => .success <$> readBytes
  | 1 => .error <$> ProtocolError.read
  | _ => throw badTag

def ChunkMessageBody.readVariant : ℕ → Decoder ChunkMessageBody
  | 0 => .putRequest <$> ChunkPutRequest.read
  | 1 => .putResponse <$> (readVarint 32 >>= ChunkPutResponse.readVariant)
  | 2 => (fun address => .getRequest ⟨address⟩) <$> xorName
  | 3 => .getResponse <$> (readVarint 32 >>= ChunkGetResponse.readVariant)
  | 4 => .quoteRequest <$> ChunkQuoteRequest.read
  | 5 => .quoteResponse <$> (readVarint 32 >>= ChunkQuoteResponse.readVariant)
  | 6 => .merkleCandidateQuoteRequest <$> MerkleCandidateQuoteRequest.read
  | 7 => .merkleCandidateQuoteResponse <$>
      (readVarint 32 >>= MerkleCandidateQuoteResponse.readVariant)
  | _ => throw badTag

def ChunkMessage.read : Decoder ChunkMessage := do
  let requestId ← readU64
  ChunkMessage.mk requestId <$> (readVarint 32 >>= ChunkMessageBody.readVariant)

def decodeText : DecodeError → String
  | .eof => "Hit the end of buffer, expected more data"
  | .invalidTag _ => "Found an Option discriminant that wasn't 0 or 1"
  | .custom msg => msg

/-- Bytes behind the message are not looked at. -/
def ChunkMessage.decode (data : Bytes) : Except ProtocolError ChunkMessage :=
  if maxWireMessageSize < data.length then
    .error (.messageTooLarge data.length maxWireMessageSize)
  else match ChunkMessage.read data with
    | .ok (m, _) => .ok m
    | .error e => .error (.deserializationFailed (decodeText e))

/-! ## Reading what was written -/

/-- The lengths and sizes fit a `usize`. -/
def ProtocolError.Fits : ProtocolError → Prop
  | .serializationFailed msg | .deserializationFailed msg | .storageFailed msg | .paymentFailed msg
  | .quoteFailed msg | .internal msg => msg.toUTF8.size < 2 ^ 64
  | .messageTooLarge size maxSize | .chunkTooLarge size maxSize => size < 2 ^ 64 ∧ maxSize < 2 ^ 64
  | .addressMismatch _ _ => True

def ChunkMessageBody.Fits : ChunkMessageBody → Prop
  | .putRequest r => r.content.length < 2 ^ 64 ∧ ∀ bs ∈ r.paymentProof, bs.length < 2 ^ 64
  | .putResponse (.paymentRequired message) => message.toUTF8.size < 2 ^ 64
  | .getResponse (.success _ content) => content.length < 2 ^ 64
  | .quoteResponse (.success quote _) => quote.length < 2 ^ 64
  | .merkleCandidateQuoteResponse (.success candidateNode) => candidateNode.length < 2 ^ 64
  | .putResponse (.error e) | .getResponse (.error e) | .quoteResponse (.error e)
  | .merkleCandidateQuoteResponse (.error e) => e.Fits
  | _ => True

theorem reads_u32 (n : UInt32) : Reads readU32 (varint 32 n.toNat) n := by
  have hn : Reads (readVarint 32) (varint 32 n.toNat) n.toNat := .varint (by decide) n.toNat_lt
  have h := hn.map (f := UInt32.ofNat)
  rwa [UInt32.ofNat_toNat] at h

theorem reads_u64 (n : UInt64) : Reads readU64 (varint 64 n.toNat) n := by
  have hn : Reads (readVarint 64) (varint 64 n.toNat) n.toNat := .varint (by decide) n.toNat_lt
  have h := hn.map (f := UInt64.ofNat)
  rwa [UInt64.ofNat_toNat] at h

theorem reads_xorName (name : XorName) : Reads xorName name.toList name := Reads.byteArray name

theorem reads_protocolError {e : ProtocolError} (h : e.Fits) :
    Reads ProtocolError.read e.write e := by
  cases e with
  | addressMismatch => exact Reads.tag (by decide) ((reads_xorName _).bind (reads_xorName _).map)
  | messageTooLarge | chunkTooLarge =>
    exact Reads.tag (by decide)
      ((Reads.varint (by decide) h.1).bind (Reads.varint (by decide) h.2).map)
  | _ => exact Reads.tag (by decide) (Reads.string h).map

theorem reads_option {o : Option Bytes} (h : ∀ bs ∈ o, bs.length < 2 ^ 64) :
    Reads (optional readBytes) (putOption o) o := by
  cases o with
  | none => exact Reads.optional_none
  | some bs => exact Reads.optional_some (Reads.bytes (h bs rfl))

theorem reads_body {b : ChunkMessageBody} (h : b.Fits) :
    Reads (readVarint 32 >>= ChunkMessageBody.readVariant) b.write b := by
  cases b with
  | putRequest r =>
    exact Reads.tag (by decide) (Reads.map ((reads_xorName _).bind
      ((Reads.bytes h.1).bind (reads_option h.2).map)))
  | putResponse r =>
    refine Reads.tag (by decide) (Reads.map ?_)
    cases r with
    | success | alreadyExists => exact Reads.tag (by decide) (reads_xorName _).map
    | paymentRequired => exact Reads.tag (by decide) (Reads.string h).map
    | error => exact Reads.tag (by decide) (reads_protocolError h).map
  | getRequest r => exact Reads.tag (by decide) (reads_xorName _).map
  | getResponse r =>
    refine Reads.tag (by decide) (Reads.map ?_)
    cases r with
    | success => exact Reads.tag (by decide) ((reads_xorName _).bind (Reads.bytes h).map)
    | notFound => exact Reads.tag (by decide) (reads_xorName _).map
    | error => exact Reads.tag (by decide) (reads_protocolError h).map
  | quoteRequest r =>
    exact Reads.tag (by decide) (Reads.map ((reads_xorName _).bind
      ((reads_u64 _).bind (reads_u32 _).map)))
  | quoteResponse r =>
    refine Reads.tag (by decide) (Reads.map ?_)
    cases r with
    | success => exact Reads.tag (by decide) ((Reads.bytes h).bind (Reads.bool _).map)
    | error => exact Reads.tag (by decide) (reads_protocolError h).map
  | merkleCandidateQuoteRequest r =>
    exact Reads.tag (by decide) (Reads.map ((reads_xorName _).bind
      ((reads_u32 _).bind ((reads_u64 _).bind (reads_u64 _).map))))
  | merkleCandidateQuoteResponse r =>
    refine Reads.tag (by decide) (Reads.map ?_)
    cases r with
    | success => exact Reads.tag (by decide) (Reads.bytes h).map
    | error => exact Reads.tag (by decide) (reads_protocolError h).map

/-- **A message is read back**, whatever stands behind it. -/
theorem reads_chunkMessage {m : ChunkMessage} (h : m.body.Fits) :
    Reads ChunkMessage.read m.encode m :=
  (reads_u64 m.requestId).bind (reads_body h).map

theorem map_eq_ok {α β : Type} {d : Decoder α} {f : α → β} {bs t : Bytes} {b : β} :
    (f <$> d) bs = .ok (b, t) ↔ ∃ a, d bs = .ok (a, t) ∧ f a = b := by
  change (d bs >>= fun r => Except.ok (f r.1, r.2)) = _ ↔ _
  rw [bind_eq_ok]
  constructor
  · rintro ⟨⟨a, t'⟩, hd, h⟩; cases h; exact ⟨a, hd, rfl⟩
  · rintro ⟨a, hd, rfl⟩; exact ⟨(a, t), hd, rfl⟩

/-- What is written as the answer of a GET, and read, is read as this answer. -/
theorem getResponse_of_read {id : UInt64} {r : ChunkGetResponse} {m : ChunkMessage} {t : Bytes}
    (h : ChunkMessage.read (ChunkMessage.encode ⟨id, .getResponse r⟩) = .ok (m, t)) :
    ∃ r', m = ⟨id, .getResponse r'⟩ ∧
      (∀ address content, r' = .success address content → r = r') ∧
      ∀ address, r' = .notFound address → r = r' := by
  obtain ⟨id', t₁, hid, h⟩ := stateT_bind_eq_ok.1 h
  rw [ChunkMessage.encode, reads_u64] at hid
  cases hid
  obtain ⟨body, hbody, rfl⟩ := map_eq_ok.1 h
  obtain ⟨tag, t₂, htag, hbody⟩ := stateT_bind_eq_ok.1 hbody
  rw [ChunkMessageBody.write, putTag, Reads.varint (by decide) (by decide)] at htag
  cases htag
  obtain ⟨r', hr, rfl⟩ := map_eq_ok.1 hbody
  refine ⟨r', rfl, ?_⟩
  obtain ⟨tag, t₃, htag, hr⟩ := stateT_bind_eq_ok.1 hr
  cases r with
  | success address content =>
    rw [ChunkGetResponse.write, putTag, Reads.varint (by decide) (by decide)] at htag
    cases htag
    obtain ⟨address', t₄, haddr, hr⟩ := stateT_bind_eq_ok.1 hr
    rw [reads_xorName] at haddr
    cases haddr
    obtain ⟨content', hcontent, rfl⟩ := map_eq_ok.1 hr
    rw [← List.append_nil (putBytes content)] at hcontent
    rw [(readBytes_putBytes hcontent).1]
    exact ⟨fun _ _ _ => rfl, fun _ _ => rfl⟩
  | notFound address =>
    rw [ChunkGetResponse.write, putTag, Reads.varint (by decide) (by decide)] at htag
    cases htag
    obtain ⟨address', haddr, rfl⟩ := map_eq_ok.1 hr
    rw [← List.append_nil address.toList, reads_xorName] at haddr
    cases haddr
    exact ⟨fun _ _ _ => rfl, fun _ _ => rfl⟩
  | error e =>
    rw [ChunkGetResponse.write, putTag, Reads.varint (by decide) (by decide)] at htag
    cases htag
    obtain ⟨e', -, rfl⟩ := map_eq_ok.1 hr
    exact ⟨nofun, nofun⟩

theorem readVariant_getResponse {tag : ℕ} {r : ChunkGetResponse} {bs t : Bytes}
    (h : ChunkMessageBody.readVariant tag bs = .ok (.getResponse r, t)) :
    (readVarint 32 >>= ChunkGetResponse.readVariant) bs = .ok (r, t) := by
  unfold ChunkMessageBody.readVariant at h
  split at h
  case h_4 =>
    obtain ⟨r', hr, he⟩ := map_eq_ok.1 h
    cases he
    exact hr
  case h_9 => cases h
  all_goals
    obtain ⟨_, -, he⟩ := map_eq_ok.1 h
    cases he

theorem readVariant_success {tag : ℕ} {address : XorName} {content bs t : Bytes}
    (h : ChunkGetResponse.readVariant tag bs = .ok (.success address content, t)) :
    (do let _ ← xorName; readBytes) bs = .ok (content, t) := by
  unfold ChunkGetResponse.readVariant at h
  split at h
  case h_1 =>
    obtain ⟨address', t₁, haddr, h⟩ := stateT_bind_eq_ok.1 h
    obtain ⟨content', hc, he⟩ := map_eq_ok.1 h
    cases he
    exact stateT_bind_eq_ok.2 ⟨_, _, haddr, hc⟩
  case h_4 => cases h
  all_goals
    obtain ⟨_, -, he⟩ := map_eq_ok.1 h
    cases he

theorem length_of_xorName {name : XorName} {bs t : Bytes} (h : xorName bs = .ok (name, t)) :
    t.length ≤ bs.length := by
  rw [xorName, byteArray] at h
  split_ifs at h
  cases h
  simp

/-- A content is no longer than the message that it came in. -/
theorem length_of_read {id : UInt64} {address : XorName} {content data t : Bytes}
    (h : ChunkMessage.read data = .ok (⟨id, .getResponse (.success address content)⟩, t)) :
    content.length ≤ data.length := by
  obtain ⟨id', t₁, hid, h⟩ := stateT_bind_eq_ok.1 h
  obtain ⟨n, hn, -⟩ := map_eq_ok.1 hid
  obtain ⟨body, hbody, he⟩ := map_eq_ok.1 h
  obtain ⟨-, rfl⟩ := ChunkMessage.mk.inj he
  obtain ⟨tag, t₂, htag, hbody⟩ := stateT_bind_eq_ok.1 hbody
  have h₁ := length_of_readLeb128 hn
  have h₂ := length_of_readLeb128 htag
  obtain ⟨tag', t₃, htag', hr⟩ := stateT_bind_eq_ok.1 (readVariant_getResponse hbody)
  have h₃ := length_of_readLeb128 htag'
  obtain ⟨_, t₄, haddr, hcontent⟩ := stateT_bind_eq_ok.1 (readVariant_success hr)
  have h₄ := length_of_xorName haddr
  have h₅ := length_of_readBytes hcontent
  omega

theorem decode_encode {m : ChunkMessage} (h : m.body.Fits)
    (hlen : m.encode.length ≤ maxWireMessageSize) : ChunkMessage.decode m.encode = .ok m := by
  have hread := reads_chunkMessage h []
  rw [List.append_nil] at hread
  rw [ChunkMessage.decode, if_neg (by omega), hread]

end Autonomi.AntNode
