/-
  The two definitions of the chunk protocol agree, and where the width of
  `usize` comes between them.
-/
import Autonomi.Node.Reply
import Autonomi.Protocol.Message

namespace Autonomi.AntProtocol

open Lib

variable {w : PointerWidth}

/-! ## The corresponding message -/

def ProtocolError.toNode : ProtocolError w → AntNode.ProtocolError
  | .serializationFailed msg => .serializationFailed msg
  | .deserializationFailed msg => .deserializationFailed msg
  | .messageTooLarge size maxSize => .messageTooLarge size maxSize
  | .chunkTooLarge size maxSize => .chunkTooLarge size maxSize
  | .addressMismatch expected actual => .addressMismatch expected actual
  | .storageFailed msg => .storageFailed msg
  | .paymentFailed msg => .paymentFailed msg
  | .quoteFailed msg => .quoteFailed msg
  | .internal msg => .internal msg

def ChunkMessageBody.toNode : ChunkMessageBody w → AntNode.ChunkMessageBody
  | .putRequest r => .putRequest ⟨r.address, r.content, r.paymentProof⟩
  | .putResponse (.success address) => .putResponse (.success address)
  | .putResponse (.alreadyExists address) => .putResponse (.alreadyExists address)
  | .putResponse (.paymentRequired message) => .putResponse (.paymentRequired message)
  | .putResponse (.error e) => .putResponse (.error e.toNode)
  | .getRequest r => .getRequest ⟨r.address⟩
  | .getResponse (.success address content) => .getResponse (.success address content)
  | .getResponse (.notFound address) => .getResponse (.notFound address)
  | .getResponse (.error e) => .getResponse (.error e.toNode)
  | .quoteRequest r => .quoteRequest ⟨r.address, r.dataSize, r.dataType⟩
  | .quoteResponse (.success quote alreadyStored) => .quoteResponse (.success quote alreadyStored)
  | .quoteResponse (.error e) => .quoteResponse (.error e.toNode)
  | .merkleCandidateQuoteRequest r =>
    .merkleCandidateQuoteRequest ⟨r.address, r.dataType, r.dataSize, r.merklePaymentTimestamp⟩
  | .merkleCandidateQuoteResponse (.success candidateNode) =>
    .merkleCandidateQuoteResponse (.success candidateNode)
  | .merkleCandidateQuoteResponse (.error e) => .merkleCandidateQuoteResponse (.error e.toNode)

def ChunkMessage.toNode (m : ChunkMessage w) : AntNode.ChunkMessage := ⟨m.requestId, m.body.toNode⟩

/-! ## The same bytes -/

/-- A byte string of a message that is not too long. -/
def Short (bs : Bytes) : Prop := bs.length ≤ maxWireMessageSize

/-- The byte strings and texts in a message. -/
def ProtocolError.strings : ProtocolError w → List Bytes
  | .serializationFailed msg | .deserializationFailed msg | .storageFailed msg | .paymentFailed msg
  | .quoteFailed msg | .internal msg => [msg.toUTF8.data.toList]
  | .messageTooLarge _ _ | .chunkTooLarge _ _ | .addressMismatch _ _ => []

def ChunkMessageBody.strings : ChunkMessageBody w → List Bytes
  | .putRequest r => r.content :: r.paymentProof.toList
  | .putResponse (.paymentRequired message) => [message.toUTF8.data.toList]
  | .getResponse (.success _ content) => [content]
  | .quoteResponse (.success quote _) => [quote]
  | .merkleCandidateQuoteResponse (.success candidateNode) => [candidateNode]
  | .putResponse (.error e) | .getResponse (.error e) | .quoteResponse (.error e)
  | .merkleCandidateQuoteResponse (.error e) => e.strings
  | _ => []

theorem length_lt_of_short {bs : Bytes} (h : Short bs) : bs.length < 2 ^ w.bits := by
  unfold Short maxWireMessageSize at h
  cases w <;> simp only [PointerWidth.bits] <;> omega

theorem putUsize_eq (n : Usize w) : putUsize n = varint 64 n := by
  cases w
  · exact (varint_eq n.2 (by decide) (by decide)).symm
  · rfl

theorem putSized_eq {bs : Bytes} (h : Short bs) : putSized w bs = putBytes bs := by
  rw [putSized, putBytes]
  cases w
  · exact congrArg (· ++ bs) (varint_eq (length_lt_of_short h) (by decide) (by decide)).symm
  · rfl

theorem ProtocolError.write_toNode {e : ProtocolError w} (h : ∀ bs ∈ e.strings, Short bs) :
    e.toNode.write = e.write := by
  cases e with
  | messageTooLarge | chunkTooLarge =>
    simp only [toNode, AntNode.ProtocolError.write, write, putUsize_eq]
  | addressMismatch => rfl
  | _ =>
    simp only [strings, List.mem_singleton, forall_eq] at h
    simp only [toNode, AntNode.ProtocolError.write, write, putText, putString, putSized_eq h]

theorem putOption_eq {o : Option Bytes} (h : ∀ bs ∈ o, Short bs) :
    putOption w o = AntNode.putOption o := by
  cases o with
  | none => rfl
  | some bs => rw [putOption, AntNode.putOption, putSized_eq (h bs rfl)]

theorem ChunkMessageBody.write_toNode {b : ChunkMessageBody w} (h : ∀ bs ∈ b.strings, Short bs) :
    b.toNode.write = b.write := by
  cases b with
  | putRequest r =>
    have hcontent : Short r.content := h _ (.head _)
    have hproof : ∀ bs ∈ r.paymentProof, Short bs := fun bs hbs =>
      h _ (.tail _ (Option.mem_toList.2 hbs))
    simp only [toNode, AntNode.ChunkMessageBody.write, AntNode.ChunkPutRequest.write, write,
      ChunkPutRequest.write, putSized_eq hcontent, putOption_eq hproof]
  | putResponse r =>
    cases r with
    | success | alreadyExists => rfl
    | paymentRequired message =>
      have hmessage : Short message.toUTF8.data.toList := h _ (.head _)
      simp only [toNode, AntNode.ChunkMessageBody.write, AntNode.ChunkPutResponse.write, write,
        ChunkPutResponse.write, putText, putString, putSized_eq hmessage]
    | error e =>
      simp only [toNode, AntNode.ChunkMessageBody.write, AntNode.ChunkPutResponse.write, write,
        ChunkPutResponse.write, ProtocolError.write_toNode h]
  | getResponse r =>
    cases r with
    | success address content =>
      have hcontent : Short content := h _ (.head _)
      simp only [toNode, AntNode.ChunkMessageBody.write, AntNode.ChunkGetResponse.write, write,
        ChunkGetResponse.write, putSized_eq hcontent]
    | notFound => rfl
    | error e =>
      simp only [toNode, AntNode.ChunkMessageBody.write, AntNode.ChunkGetResponse.write, write,
        ChunkGetResponse.write, ProtocolError.write_toNode h]
  | quoteResponse r =>
    cases r with
    | success quote alreadyStored =>
      have hquote : Short quote := h _ (.head _)
      simp only [toNode, AntNode.ChunkMessageBody.write, AntNode.ChunkQuoteResponse.write, write,
        ChunkQuoteResponse.write, putSized_eq hquote]
    | error e =>
      simp only [toNode, AntNode.ChunkMessageBody.write, AntNode.ChunkQuoteResponse.write, write,
        ChunkQuoteResponse.write, ProtocolError.write_toNode h]
  | merkleCandidateQuoteResponse r =>
    cases r with
    | success candidateNode =>
      have hnode : Short candidateNode := h _ (.head _)
      simp only [toNode, AntNode.ChunkMessageBody.write, AntNode.MerkleCandidateQuoteResponse.write,
        write, MerkleCandidateQuoteResponse.write, putSized_eq hnode]
    | error e =>
      simp only [toNode, AntNode.ChunkMessageBody.write, AntNode.MerkleCandidateQuoteResponse.write,
        write, MerkleCandidateQuoteResponse.write, ProtocolError.write_toNode h]
  | getRequest | quoteRequest | merkleCandidateQuoteRequest => rfl

theorem ChunkMessage.encode_toNode {m : ChunkMessage w} (h : ∀ bs ∈ m.body.strings, Short bs) :
    m.toNode.encode = m.encode := by
  rw [AntNode.ChunkMessage.encode, encode, toNode, ChunkMessageBody.write_toNode h]

/-! ## No string is longer than its message -/

theorem ProtocolError.length_le {e : ProtocolError w} {bs : Bytes} (h : bs ∈ e.strings) :
    bs.length ≤ e.write.length ∧ bs.length ≤ e.toNode.write.length := by
  cases e with
  | messageTooLarge | chunkTooLarge | addressMismatch => cases h
  | _ =>
    rw [strings, List.mem_singleton] at h
    subst h
    simp only [toNode, AntNode.ProtocolError.write, write, putText, putSized, putString, putBytes,
      List.length_append]
    omega

theorem ChunkMessageBody.length_le {b : ChunkMessageBody w} {bs : Bytes} (h : bs ∈ b.strings) :
    bs.length ≤ b.write.length ∧ bs.length ≤ b.toNode.write.length := by
  cases b with
  | putRequest r =>
    obtain ⟨address, content, proof⟩ := r
    simp only [strings, List.mem_cons, Option.mem_toList] at h
    simp only [toNode, AntNode.ChunkMessageBody.write, AntNode.ChunkPutRequest.write, write,
      ChunkPutRequest.write, putSized, putBytes, List.length_append]
    rcases h with rfl | rfl
    · omega
    · simp only [putOption, AntNode.putOption, putSized, putBytes, List.length_cons,
        List.length_append]
      omega
  | putResponse r =>
    cases r with
    | success | alreadyExists => cases h
    | paymentRequired message =>
      rw [strings, List.mem_singleton] at h
      subst h
      simp only [toNode, AntNode.ChunkMessageBody.write, AntNode.ChunkPutResponse.write, write,
        ChunkPutResponse.write, putText, putSized, putString, putBytes, List.length_append]
      omega
    | error e =>
      have he := ProtocolError.length_le h
      simp only [toNode, AntNode.ChunkMessageBody.write, AntNode.ChunkPutResponse.write, write,
        ChunkPutResponse.write, List.length_append]
      omega
  | getResponse r =>
    cases r with
    | success address content =>
      rw [strings, List.mem_singleton] at h
      subst h
      simp only [toNode, AntNode.ChunkMessageBody.write, AntNode.ChunkGetResponse.write, write,
        ChunkGetResponse.write, putSized, putBytes, List.length_append]
      omega
    | notFound => cases h
    | error e =>
      have he := ProtocolError.length_le h
      simp only [toNode, AntNode.ChunkMessageBody.write, AntNode.ChunkGetResponse.write, write,
        ChunkGetResponse.write, List.length_append]
      omega
  | quoteResponse r =>
    cases r with
    | success quote alreadyStored =>
      rw [strings, List.mem_singleton] at h
      subst h
      simp only [toNode, AntNode.ChunkMessageBody.write, AntNode.ChunkQuoteResponse.write, write,
        ChunkQuoteResponse.write, putSized, putBytes, List.length_append]
      omega
    | error e =>
      have he := ProtocolError.length_le h
      simp only [toNode, AntNode.ChunkMessageBody.write, AntNode.ChunkQuoteResponse.write, write,
        ChunkQuoteResponse.write, List.length_append]
      omega
  | merkleCandidateQuoteResponse r =>
    cases r with
    | success candidateNode =>
      rw [strings, List.mem_singleton] at h
      subst h
      simp only [toNode, AntNode.ChunkMessageBody.write, AntNode.MerkleCandidateQuoteResponse.write,
        write, MerkleCandidateQuoteResponse.write, putSized, putBytes, List.length_append]
      omega
    | error e =>
      have he := ProtocolError.length_le h
      simp only [toNode, AntNode.ChunkMessageBody.write, AntNode.MerkleCandidateQuoteResponse.write,
        write, MerkleCandidateQuoteResponse.write, List.length_append]
      omega
  | getRequest | quoteRequest | merkleCandidateQuoteRequest => cases h

theorem ChunkMessage.short {m : ChunkMessage w} (h : m.encode.length ≤ maxWireMessageSize ∨
    m.toNode.encode.length ≤ maxWireMessageSize) : ∀ bs ∈ m.body.strings, Short bs := by
  intro bs hbs
  have hle := ChunkMessageBody.length_le hbs
  simp only [encode, toNode, AntNode.ChunkMessage.encode, List.length_append] at h
  unfold Short
  omega

/-! ## Reading what was written -/

theorem reads_usize (n : Usize w) : Reads (readUsize w) (putUsize n) n := by
  have hread : Reads (readVarint w.bits) (varint w.bits n) n :=
    Reads.varint (by cases w <;> decide) n.2
  have h := hread.map (f := Fin.ofNat (2 ^ w.bits))
  rwa [Fin.ofNat_val_eq_self] at h

theorem reads_sized {bs : Bytes} (h : Short bs) : Reads (readSized w) (putSized w bs) bs :=
  (Reads.varint (by cases w <;> decide) (length_lt_of_short h)).bind (Reads.takeBytes bs)

theorem reads_text {s : String} (h : Short s.toUTF8.data.toList) :
    Reads (readText w) (putText w s) s := by
  have hr := (reads_sized (w := w) h).bind (Reads.utf8 s)
  rwa [List.append_nil] at hr

theorem reads_xorName (name : XorName) : Reads xorName name.toList name := Reads.byteArray name

theorem reads_protocolError {e : ProtocolError w} (h : ∀ bs ∈ e.strings, Short bs) :
    Reads (ProtocolError.read w) e.write e := by
  cases e with
  | addressMismatch => exact Reads.tag (by decide) ((reads_xorName _).bind (reads_xorName _).map)
  | messageTooLarge | chunkTooLarge =>
    exact Reads.tag (by decide) ((reads_usize _).bind (reads_usize _).map)
  | _ => exact Reads.tag (by decide) (reads_text (h _ (.head _))).map

theorem reads_option {o : Option Bytes} (h : ∀ bs ∈ o, Short bs) :
    Reads (optional (readSized w)) (putOption w o) o := by
  cases o with
  | none => exact Reads.optional_none
  | some bs => exact Reads.optional_some (reads_sized (h bs rfl))

theorem reads_body {b : ChunkMessageBody w} (h : ∀ bs ∈ b.strings, Short bs) :
    Reads (readVarint 32 >>= ChunkMessageBody.readVariant w) b.write b := by
  cases b with
  | putRequest r =>
    have hproof : ∀ bs ∈ r.paymentProof, Short bs := fun bs hbs =>
      h _ (.tail _ (Option.mem_toList.2 hbs))
    exact Reads.tag (by decide) (Reads.map ((reads_xorName _).bind
      ((reads_sized (h _ (.head _))).bind (reads_option hproof).map)))
  | putResponse r =>
    refine Reads.tag (by decide) (Reads.map ?_)
    cases r with
    | success | alreadyExists => exact Reads.tag (by decide) (reads_xorName _).map
    | paymentRequired => exact Reads.tag (by decide) (reads_text (h _ (.head _))).map
    | error => exact Reads.tag (by decide) (reads_protocolError h).map
  | getRequest r => exact Reads.tag (by decide) (reads_xorName _).map
  | getResponse r =>
    refine Reads.tag (by decide) (Reads.map ?_)
    cases r with
    | success =>
      exact Reads.tag (by decide) ((reads_xorName _).bind (reads_sized (h _ (.head _))).map)
    | notFound => exact Reads.tag (by decide) (reads_xorName _).map
    | error => exact Reads.tag (by decide) (reads_protocolError h).map
  | quoteRequest r =>
    exact Reads.tag (by decide) (Reads.map ((reads_xorName _).bind
      ((AntNode.reads_u64 _).bind (AntNode.reads_u32 _).map)))
  | quoteResponse r =>
    refine Reads.tag (by decide) (Reads.map ?_)
    cases r with
    | success =>
      exact Reads.tag (by decide) ((reads_sized (h _ (.head _))).bind (Reads.bool _).map)
    | error => exact Reads.tag (by decide) (reads_protocolError h).map
  | merkleCandidateQuoteRequest r =>
    exact Reads.tag (by decide) (Reads.map ((reads_xorName _).bind
      ((AntNode.reads_u32 _).bind ((AntNode.reads_u64 _).bind (AntNode.reads_u64 _).map))))
  | merkleCandidateQuoteResponse r =>
    refine Reads.tag (by decide) (Reads.map ?_)
    cases r with
    | success => exact Reads.tag (by decide) (reads_sized (h _ (.head _))).map
    | error => exact Reads.tag (by decide) (reads_protocolError h).map

theorem decode_encode {m : ChunkMessage w} (hlen : m.encode.length ≤ maxWireMessageSize) :
    ChunkMessage.decode w m.encode = .ok m := by
  have hread : Reads (ChunkMessage.read w) m.encode m :=
    (AntNode.reads_u64 m.requestId).bind (reads_body (ChunkMessage.short (.inl hlen))).map
  have hread := hread []
  rw [List.append_nil] at hread
  rw [ChunkMessage.decode, if_neg (by omega), hread]

/-! ## From a client to a node -/

theorem size_lt (n : Usize w) : (n : ℕ) < 2 ^ 64 :=
  n.2.trans_le (by cases w <;> decide)

theorem ProtocolError.fits_toNode {e : ProtocolError w} (h : ∀ bs ∈ e.strings, Short bs) :
    e.toNode.Fits := by
  cases e with
  | messageTooLarge size maxSize | chunkTooLarge size maxSize => exact ⟨size_lt _, size_lt _⟩
  | addressMismatch => trivial
  | _ => exact length_lt_of_short (w := .w64) (h _ (.head _))

theorem ChunkMessageBody.fits_toNode {b : ChunkMessageBody w} (h : ∀ bs ∈ b.strings, Short bs) :
    b.toNode.Fits := by
  have hshort : ∀ bs ∈ b.strings, bs.length < 2 ^ 64 := fun bs hbs =>
    length_lt_of_short (w := .w64) (h bs hbs)
  cases b with
  | putRequest r =>
    exact ⟨hshort _ (.head _), fun bs hbs => hshort _ (.tail _ (Option.mem_toList.2 hbs))⟩
  | putResponse r =>
    cases r with
    | success | alreadyExists => trivial
    | paymentRequired => exact hshort _ (.head _)
    | error => exact ProtocolError.fits_toNode h
  | getResponse r =>
    cases r with
    | success => exact hshort _ (.head _)
    | notFound => trivial
    | error => exact ProtocolError.fits_toNode h
  | quoteResponse r =>
    cases r with
    | success => exact hshort _ (.head _)
    | error => exact ProtocolError.fits_toNode h
  | merkleCandidateQuoteResponse r =>
    cases r with
    | success => exact hshort _ (.head _)
    | error => exact ProtocolError.fits_toNode h
  | getRequest | quoteRequest | merkleCandidateQuoteRequest => trivial

theorem not_too_long {data : Bytes} {m : AntNode.ChunkMessage}
    (h : AntNode.ChunkMessage.decode data = .ok m) : data.length ≤ maxWireMessageSize := by
  rw [AntNode.ChunkMessage.decode] at h
  split_ifs at h with hlen
  exact not_lt.1 hlen

/-- The node reads the message, and writes it in the same bytes. -/
def Understood (m : ChunkMessage w) : Prop :=
  AntNode.ChunkMessage.decode m.encode = .ok m.toNode ∧ m.toNode.encode = m.encode

theorem understood_iff {m : ChunkMessage w} :
    Understood m ↔ m.encode.length ≤ maxWireMessageSize := by
  constructor
  · exact fun h => not_too_long h.1
  · intro hlen
    have hshort := ChunkMessage.short (.inl hlen)
    have hsame := ChunkMessage.encode_toNode hshort
    refine ⟨?_, hsame⟩
    rw [← hsame]
    refine AntNode.decode_encode (ChunkMessageBody.fits_toNode hshort) ?_
    rw [hsame]
    exact hlen

/-! ## From a node to a client -/

variable (w) in
/-- The sizes fit a `usize` of the client. -/
def SizesFit (sizes : Option (ℕ × ℕ)) : Prop :=
  ∀ s ∈ sizes, s.1 < 2 ^ w.bits ∧ s.2 < 2 ^ w.bits

theorem ProtocolError.exists_toNode {e : AntNode.ProtocolError} (h : SizesFit w e.sizes) :
    ∃ e' : ProtocolError w, e'.toNode = e := by
  cases e with
  | messageTooLarge size maxSize =>
    obtain ⟨hsize, hmax⟩ := h _ rfl
    exact ⟨.messageTooLarge ⟨size, hsize⟩ ⟨maxSize, hmax⟩, rfl⟩
  | chunkTooLarge size maxSize =>
    obtain ⟨hsize, hmax⟩ := h _ rfl
    exact ⟨.chunkTooLarge ⟨size, hsize⟩ ⟨maxSize, hmax⟩, rfl⟩
  | serializationFailed msg => exact ⟨.serializationFailed msg, rfl⟩
  | deserializationFailed msg => exact ⟨.deserializationFailed msg, rfl⟩
  | addressMismatch expected actual => exact ⟨.addressMismatch expected actual, rfl⟩
  | storageFailed msg => exact ⟨.storageFailed msg, rfl⟩
  | paymentFailed msg => exact ⟨.paymentFailed msg, rfl⟩
  | quoteFailed msg => exact ⟨.quoteFailed msg, rfl⟩
  | internal msg => exact ⟨.internal msg, rfl⟩

theorem ProtocolError.sizesFit (e : ProtocolError w) : SizesFit w e.toNode.sizes := by
  intro sizes hsizes
  cases e with
  | messageTooLarge size maxSize | chunkTooLarge size maxSize =>
    cases hsizes
    exact ⟨size.2, maxSize.2⟩
  | _ => cases hsizes

theorem ChunkMessageBody.exists_toNode {b : AntNode.ChunkMessageBody}
    (h : SizesFit w b.sizes) : ∃ b' : ChunkMessageBody w, b'.toNode = b := by
  cases b with
  | putRequest r => exact ⟨.putRequest ⟨r.address, r.content, r.paymentProof⟩, rfl⟩
  | putResponse r =>
    cases r with
    | success address => exact ⟨.putResponse (.success address), rfl⟩
    | alreadyExists address => exact ⟨.putResponse (.alreadyExists address), rfl⟩
    | paymentRequired message => exact ⟨.putResponse (.paymentRequired message), rfl⟩
    | error e =>
      obtain ⟨e', rfl⟩ := ProtocolError.exists_toNode h
      exact ⟨.putResponse (.error e'), rfl⟩
  | getRequest r => exact ⟨.getRequest ⟨r.address⟩, rfl⟩
  | getResponse r =>
    cases r with
    | success address content => exact ⟨.getResponse (.success address content), rfl⟩
    | notFound address => exact ⟨.getResponse (.notFound address), rfl⟩
    | error e =>
      obtain ⟨e', rfl⟩ := ProtocolError.exists_toNode h
      exact ⟨.getResponse (.error e'), rfl⟩
  | quoteRequest r => exact ⟨.quoteRequest ⟨r.address, r.dataSize, r.dataType⟩, rfl⟩
  | quoteResponse r =>
    cases r with
    | success quote alreadyStored => exact ⟨.quoteResponse (.success quote alreadyStored), rfl⟩
    | error e =>
      obtain ⟨e', rfl⟩ := ProtocolError.exists_toNode h
      exact ⟨.quoteResponse (.error e'), rfl⟩
  | merkleCandidateQuoteRequest r =>
    exact ⟨.merkleCandidateQuoteRequest
      ⟨r.address, r.dataType, r.dataSize, r.merklePaymentTimestamp⟩, rfl⟩
  | merkleCandidateQuoteResponse r =>
    cases r with
    | success candidateNode => exact ⟨.merkleCandidateQuoteResponse (.success candidateNode), rfl⟩
    | error e =>
      obtain ⟨e', rfl⟩ := ProtocolError.exists_toNode h
      exact ⟨.merkleCandidateQuoteResponse (.error e'), rfl⟩

theorem ChunkMessageBody.sizesFit (b : ChunkMessageBody w) : SizesFit w b.toNode.sizes := by
  cases b with
  | putResponse r | getResponse r | quoteResponse r | merkleCandidateQuoteResponse r =>
    cases r with
    | error e => exact e.sizesFit
    | _ => exact nofun
  | _ => exact nofun

variable (w) in
/-- The client reads the message, and writes it in the same bytes. -/
def ReadBack (n : AntNode.ChunkMessage) : Prop :=
  ∃ m : ChunkMessage w, ChunkMessage.decode w n.encode = .ok m ∧ m.toNode = n ∧ m.encode = n.encode

theorem readBack_iff {n : AntNode.ChunkMessage} : ReadBack w n ↔
    n.encode.length ≤ maxWireMessageSize ∧ SizesFit w n.body.sizes := by
  constructor
  · rintro ⟨m, hm, rfl, -⟩
    refine ⟨?_, m.body.sizesFit⟩
    rw [ChunkMessage.decode] at hm
    split_ifs at hm with hlen
    exact not_lt.1 hlen
  · rintro ⟨hlen, hsizes⟩
    obtain ⟨requestId, body⟩ := n
    obtain ⟨b, rfl⟩ := ChunkMessageBody.exists_toNode hsizes
    have hsame := ChunkMessage.encode_toNode (m := ⟨requestId, b⟩) (ChunkMessage.short (.inr hlen))
    refine ⟨⟨requestId, b⟩, ?_, rfl, hsame.symm⟩
    change ChunkMessage.decode w (ChunkMessage.toNode ⟨requestId, b⟩).encode = _
    rw [hsame]
    refine decode_encode ?_
    rw [← hsame]
    exact hlen

/-! ## The replies of a node -/

/-- A quote is asked for data of a size that no 32 bits hold. -/
def Oversized : AntNode.ChunkMessageBody → Prop
  | .quoteRequest r => 2 ^ 32 ≤ r.dataSize.toNat
  | .merkleCandidateQuoteRequest r => 2 ^ 32 ≤ r.dataSize.toNat
  | _ => False

variable {P : Primitives} {E : AntNode.Evm} {t : AntNode.Moment}

theorem sizesFit_none : SizesFit w none := nofun

theorem sizesFit_some {size : ℕ} :
    SizesFit w (some (size, AntNode.maxChunkSize)) ↔ size < 2 ^ w.bits := by
  have hmax : AntNode.maxChunkSize < 2 ^ w.bits := by cases w <;> decide
  simp [SizesFit, hmax]

/-- A quote is refused with its size; a `usize` of 64 bits holds all of them. -/
theorem sizesFit_quote (dataSize : UInt64) :
    SizesFit w (if AntNode.maxChunkSize < dataSize.toNat then
      some (dataSize.toNat, AntNode.maxChunkSize) else none) ↔
    (w = .w32 → ¬ 2 ^ 32 ≤ dataSize.toNat) := by
  split_ifs with hsize
  · rw [sizesFit_some]
    cases w with
    | w32 => simp [PointerWidth.bits]
    | w64 => simpa [PointerWidth.bits] using dataSize.toNat_lt
  · unfold AntNode.maxChunkSize at hsize
    exact iff_of_true sizesFit_none fun _ => by omega

theorem readBack_reply_iff {data : Bytes} {request : AntNode.ChunkMessage}
    {response : AntNode.ChunkMessageBody} (hdecode : AntNode.ChunkMessage.decode data = .ok request)
    (h : (t.protocol P E).answer request.body = some response) :
    ReadBack w ⟨request.requestId, response⟩ ↔
      (AntNode.ChunkMessage.encode ⟨request.requestId, response⟩).length ≤ maxWireMessageSize ∧
        (w = .w32 → ¬ Oversized request.body) := by
  rw [readBack_iff]
  refine and_congr_right fun _ => ?_
  obtain ⟨requestId, body⟩ := request
  cases body with
  | putRequest r =>
    cases h
    refine iff_of_true ?_ fun _ => id
    rcases AntNode.handlePut_sizes (P := P) (t := t) r with hsizes | hsizes
    · exact hsizes ▸ sizesFit_none
    · exact hsizes ▸ sizesFit_some.2
        (length_lt_of_short (AntNode.content_le_of_decode hdecode rfl))
  | getRequest r =>
    cases h
    refine iff_of_true ?_ fun _ => id
    exact (AntNode.handleGet_sizes (P := P) (t := t) r).symm ▸ sizesFit_none
  | quoteRequest r =>
    cases h
    rw [Oversized, ← sizesFit_quote]
    exact iff_of_eq (congrArg _ (AntNode.handleQuote_sizes _ r))
  | merkleCandidateQuoteRequest r =>
    cases h
    rw [Oversized, ← sizesFit_quote]
    exact iff_of_eq (congrArg _ (AntNode.handleMerkleCandidateQuote_sizes r))
  | putResponse | getResponse | quoteResponse | merkleCandidateQuoteResponse => cases h

/-- **When the two protocols agree**: a node reads what a client sends, and a client what a node
    replies, back to the same bytes, exactly where the message is not over the limit of the wire
    and a client with a `usize` of 32 bits has not asked to quote a size that does not fit it. -/
theorem protocols_agree_iff (P : Primitives) (E : AntNode.Evm) (w : PointerWidth) :
    (∀ m : ChunkMessage w, Understood m ↔ m.encode.length ≤ maxWireMessageSize) ∧
    ∀ (t : AntNode.Moment) (data : Bytes) (request : AntNode.ChunkMessage)
      (response : AntNode.ChunkMessageBody), AntNode.ChunkMessage.decode data = .ok request →
      (t.protocol P E).answer request.body = some response →
      (ReadBack w ⟨request.requestId, response⟩ ↔
        (AntNode.ChunkMessage.encode ⟨request.requestId, response⟩).length ≤ maxWireMessageSize ∧
          (w = .w32 → ¬ Oversized request.body)) :=
  ⟨fun _ => understood_iff, fun _ _ _ _ hdecode h => readBack_reply_iff hdecode h⟩

/-! ## A quote for four gigabytes -/

section Example

open AntNode (exampleEvm examplePayment emptyStorage exampleAddress missingChunk)

def exampleMoment : AntNode.Moment where
  storage := emptyStorage
  faults := .none
  payment := .ok .paymentRequired
  stored := .ok true
  generator := ⟨exampleAddress 0, none, []⟩
  metrics := ⟨0, 1000, 0, [], 500⟩
  timestamp := 0
  liveTimeHours := 0
  writeQuote _ := .ok []
  writeCandidate _ := .ok []

def exampleProtocol : AntNode.AntProtocol := exampleMoment.protocol clear (exampleEvm examplePayment)

def largeQuote : AntNode.ChunkMessage := ⟨7, .quoteRequest ⟨missingChunk, 2 ^ 32, 0⟩⟩

def largeReply : AntNode.ChunkMessageBody :=
  .quoteResponse (.error (.chunkTooLarge (2 ^ 32) AntNode.maxChunkSize))

theorem protocols_agree_large :
    Understood (⟨7, .getRequest ⟨missingChunk⟩⟩ : ChunkMessage .w32) ∧
    ReadBack .w64 ⟨7, largeReply⟩ :=
  ⟨((protocols_agree_iff clear (exampleEvm examplePayment) .w32).1 _).2 (by decide +kernel),
    ((protocols_agree_iff clear (exampleEvm examplePayment) .w64).2 exampleMoment largeQuote.encode
      largeQuote largeReply (by decide +kernel) (by decide +kernel)).2 ⟨by decide +kernel, nofun⟩⟩

/-- The node answers, and a client of 32 bits finds no message in the answer. -/
theorem not_protocols_agree : ∃ response,
    AntNode.tryHandleRequest exampleProtocol largeQuote.encode = .ok (some response) ∧
    ChunkMessage.decode .w32 response = .error (.deserializationFailed
      "Found a varint that didn't terminate. Is the usize too big for this platform?") :=
  ⟨AntNode.ChunkMessage.encode ⟨7, largeReply⟩, by decide +kernel, by decide +kernel⟩

end Example

end Autonomi.AntProtocol
