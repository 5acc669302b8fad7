/-
  The messages of the chunk protocol, as the crate for clients on other targets
  has them (`ant-protocol/src/chunk.rs`), and their bytes.
-/
import Autonomi.Node.Message

namespace Autonomi.AntProtocol

open Lib

/-- The width of `usize` on the target. -/
inductive PointerWidth where
  | w32
  | w64
  deriving DecidableEq

def PointerWidth.bits : PointerWidth → ℕ
  | .w32 => 32
  | .w64 => 64

abbrev Usize (w : PointerWidth) := Fin (2 ^ w.bits)

def chunkProtocolId : String := "autonomi/ant/chunk/v1"

def maxWireMessageSize : ℕ := 5 * 1024 * 1024

variable (w : PointerWidth)

inductive ProtocolError where
  | serializationFailed (msg : String)
  | deserializationFailed (msg : String)
  | messageTooLarge (size maxSize : Usize w)
  | chunkTooLarge (size maxSize : Usize w)
  | addressMismatch (expected actual : XorName)
  | storageFailed (msg : String)
  | paymentFailed (msg : String)
  | quoteFailed (msg : String)
  | internal (msg : String)
  deriving DecidableEq

structure ChunkPutRequest where
  address : XorName
  content : Bytes
  paymentProof : Option Bytes
  deriving DecidableEq

inductive ChunkPutResponse where
  | success (address : XorName)
  | alreadyExists (address : XorName)
  | paymentRequired (message : String)
  | error (e : ProtocolError w)
  deriving DecidableEq

structure ChunkGetRequest where
  address : XorName
  deriving DecidableEq

inductive ChunkGetResponse where
  | success (address : XorName) (content : Bytes)
  | notFound (address : XorName)
  | error (e : ProtocolError w)
  deriving DecidableEq

structure ChunkQuoteRequest where
  address : XorName
  dataSize : UInt64
  dataType : UInt32
  deriving DecidableEq

inductive ChunkQuoteResponse where
  | success (quote : Bytes) (alreadyStored : Bool)
  | error (e : ProtocolError w)
  deriving DecidableEq

structure MerkleCandidateQuoteRequest where
  address : XorName
  dataType : UInt32
  dataSize : UInt64
  merklePaymentTimestamp : UInt64
  deriving DecidableEq

inductive MerkleCandidateQuoteResponse where
  | success (candidateNode : Bytes)
  | error (e : ProtocolError w)
  deriving DecidableEq

inductive ChunkMessageBody where
  | putRequest (request : ChunkPutRequest)
  | putResponse (response : ChunkPutResponse w)
  | getRequest (request : ChunkGetRequest)
  | getResponse (response : ChunkGetResponse w)
  | quoteRequest (request : ChunkQuoteRequest)
  | quoteResponse (response : ChunkQuoteResponse w)
  | merkleCandidateQuoteRequest (request : MerkleCandidateQuoteRequest)
  | merkleCandidateQuoteResponse (response : MerkleCandidateQuoteResponse w)
  deriving DecidableEq

structure ChunkMessage where
  requestId : UInt64
  body : ChunkMessageBody w
  deriving DecidableEq

/-! ## Writing -/

def putSized (bs : Bytes) : Bytes := varint w.bits bs.length ++ bs

def putText (s : String) : Bytes := putSized w s.toUTF8.data.toList

def putUsize {w : PointerWidth} (n : Usize w) : Bytes := varint w.bits n

variable {w}

def ProtocolError.write : ProtocolError w → Bytes
  | .serializationFailed msg => putTag 0 ++ putText w msg
  | .deserializationFailed msg => putTag 1 ++ putText w msg
  | .messageTooLarge size maxSize => putTag 2 ++ (putUsize size ++ putUsize maxSize)
  | .chunkTooLarge size maxSize => putTag 3 ++ (putUsize size ++ putUsize maxSize)
  | .addressMismatch expected actual => putTag 4 ++ (expected.toList ++ actual.toList)
  | .storageFailed msg => putTag 5 ++ putText w msg
  | .paymentFailed msg => putTag 6 ++ putText w msg
  | .quoteFailed msg => putTag 7 ++ putText w msg
  | .internal msg => putTag 8 ++ putText w msg

variable (w) in
def putOption : Option Bytes → Bytes
  | none => [0]
  | some bs => 1 :: putSized w bs

variable (w) in
def ChunkPutRequest.write (r : ChunkPutRequest) : Bytes :=
  r.address.toList ++ (putSized w r.content ++ putOption w r.paymentProof)

def ChunkPutResponse.write : ChunkPutResponse w → Bytes
  | .success address => putTag 0 ++ address.toList
  | .alreadyExists address => putTag 1 ++ address.toList
  | .paymentRequired message => putTag 2 ++ putText w message
  | .error e => putTag 3 ++ e.write

def ChunkGetRequest.write (r : ChunkGetRequest) : Bytes := r.address.toList

def ChunkGetResponse.write : ChunkGetResponse w → Bytes
  | .success address content => putTag 0 ++ (address.toList ++ putSized w content)
  | .notFound address => putTag 1 ++ address.toList
  | .error e => putTag 2 ++ e.write

def ChunkQuoteRequest.write (r : ChunkQuoteRequest) : Bytes :=
  r.address.toList ++ (varint 64 r.dataSize.toNat ++ varint 32 r.dataType.toNat)

def ChunkQuoteResponse.write : ChunkQuoteResponse w → Bytes
  | .success quote alreadyStored => putTag 0 ++ (putSized w quote ++ putBool alreadyStored)
  | .error e => putTag 1 ++ e.write

def MerkleCandidateQuoteRequest.write (r : MerkleCandidateQuoteRequest) : Bytes :=
  r.address.toList ++ (varint 32 r.dataType.toNat ++
    (varint 64 r.dataSize.toNat ++ varint 64 r.merklePaymentTimestamp.toNat))

def MerkleCandidateQuoteResponse.write : MerkleCandidateQuoteResponse w → Bytes
  | .success candidateNode => putTag 0 ++ putSized w candidateNode
  | .error e => putTag 1 ++ e.write

def ChunkMessageBody.write : ChunkMessageBody w → Bytes
  | .putRequest r => putTag 0 ++ r.write w
  | .putResponse r => putTag 1 ++ r.write
  | .getRequest r => putTag 2 ++ r.write
  | .getResponse r => putTag 3 ++ r.write
  | .quoteRequest r => putTag 4 ++ r.write
  | .quoteResponse r => putTag 5 ++ r.write
  | .merkleCandidateQuoteRequest r => putTag 6 ++ r.write
  | .merkleCandidateQuoteResponse r => putTag 7 ++ r.write

def ChunkMessage.encode (m : ChunkMessage w) : Bytes :=
  varint 64 m.requestId.toNat ++ m.body.write

/-! ## Reading -/

def xorName : Decoder XorName := byteArray 32

def readU32 : Decoder UInt32 := UInt32.ofNat <$> readVarint 32

def readU64 : Decoder UInt64 := UInt64.ofNat <$> readVarint 64

variable (w)

/-- What is read fits; a number that does not is refused as a varint. -/
def readUsize : Decoder (Usize w) := Fin.ofNat (2 ^ w.bits) <$> readVarint w.bits

def readSized : Decoder Bytes := do
  let n ← readVarint w.bits
  takeBytes n

def readText : Decoder String := readSized w >>= utf8

def ProtocolError.readVariant : ℕ → Decoder (ProtocolError w)
  | 0 => .serializationFailed <$> readText w
  | 1 => .deserializationFailed <$> readText w
  | 2 => do
    let size ← readUsize w
    .messageTooLarge size <$> readUsize w
  | 3 => do
    let size ← readUsize w
    .chunkTooLarge size <$> readUsize w
  | 4 => do
    let expected ← xorName
    .addressMismatch expected <$> xorName
  | 5 => .storageFailed <$> readText w
  | 6 => .paymentFailed <$> readText w
  | 7 => .quoteFailed <$> readText w
  | 8 => .internal <$> readText w
  | _ => throw badTag

def ProtocolError.read : Decoder (ProtocolError w) := readVarint 32 >>= readVariant w

def ChunkPutRequest.read : Decoder ChunkPutRequest := do
  let address ← xorName
  let content ← readSized w
  ChunkPutRequest.mk address content <$> optional (readSized w)

def ChunkPutResponse.readVariant : ℕ → Decoder (ChunkPutResponse w)
  | 0 => .success <$> xorName
  | 1 => .alreadyExists <$> xorName
  | 2 => .paymentRequired <$> readText w
  | 3 => .error <$> ProtocolError.read w
  | _ => throw badTag

def ChunkGetResponse.readVariant : ℕ → Decoder (ChunkGetResponse w)
  | 0 => do
    let address ← xorName
    .success address <$> readSized w
  | 1 => .notFound <$> xorName
  | 2 => .error <$> ProtocolError.read w
  | _ => throw badTag

def ChunkQuoteRequest.read : Decoder ChunkQuoteRequest := do
  let address ← xorName
  let dataSize ← readU64
  ChunkQuoteRequest.mk address dataSize <$> readU32

def ChunkQuoteResponse.readVariant : ℕ → Decoder (ChunkQuoteResponse w)
  | 0 => do
    let quote ← readSized w
    .success quote <$> readBool
  | 1 => .error <$> ProtocolError.read w
  | _ => throw badTag

def MerkleCandidateQuoteRequest.read : Decoder MerkleCandidateQuoteRequest := do
  let address ← xorName
  let dataType ← readU32
  let dataSize ← readU64
  MerkleCandidateQuoteRequest.mk address dataType dataSize <$> readU64

def MerkleCandidateQuoteResponse.readVariant : ℕ → Decoder (MerkleCandidateQuoteResponse w)
  | 0 => .success <$> readSized w
  | 1 => .error <$> ProtocolError.read w
  | _ => throw badTag

def ChunkMessageBody.readVariant : ℕ → Decoder (ChunkMessageBody w)
  | 0 => .putRequest <$> ChunkPutRequest.read w
  | 1 => .putResponse <$> (readVarint 32 >>= ChunkPutResponse.readVariant w)
  | 2 => (fun address => .getRequest ⟨address⟩) <$> xorName
  | 3 => .getResponse <$> (readVarint 32 >>= ChunkGetResponse.readVariant w)
  | 4 => .quoteRequest <$> ChunkQuoteRequest.read
  | 5 => .quoteResponse <$> (readVarint 32 >>= ChunkQuoteResponse.readVariant w)
  | 6 => .merkleCandidateQuoteRequest <$> MerkleCandidateQuoteRequest.read
  | 7 => .merkleCandidateQuoteResponse <$>
      (readVarint 32 >>= MerkleCandidateQuoteResponse.readVariant w)
  | _ => throw badTag

def ChunkMessage.read : Decoder (ChunkMessage w) := do
  let requestId ← readU64
  ChunkMessage.mk requestId <$> (readVarint 32 >>= ChunkMessageBody.readVariant w)

def decodeText : DecodeError → String
  | .eof => "Hit the end of buffer, expected more data"
  | .invalidTag _ => "Found an Option discriminant that wasn't 0 or 1"
  | .custom msg => msg

/-- Bytes behind the message are not looked at. -/
def ChunkMessage.decode (data : Bytes) : Except (ProtocolError w) (ChunkMessage w) :=
  if maxWireMessageSize < data.length then
    .error (.messageTooLarge (Fin.ofNat _ data.length) (Fin.ofNat _ maxWireMessageSize))
  else match ChunkMessage.read w data with
    | .ok (m, _) => .ok m
    | .error e => .error (.deserializationFailed (decodeText e))

end Autonomi.AntProtocol
