/-
  The authenticated handshake of the tunnel: `perform_handshake` of the browser
  (`ant-wasm/src/transport.rs`) and `perform_server_handshake` of the node
  (`ant-node/src/webtransport/server.rs`), any number of them at a time.

  ML-KEM-768 and ML-DSA-65 are the parameter `H : HandshakePrimitives`.  The
  network is the attacker's: what a party reads is a label of its step.
-/
import Autonomi.Lib.Except
import Autonomi.Lib.Trace
import Autonomi.Tunnel.Envelope

namespace Autonomi

open Lib

abbrev SharedSecret := List.Vector UInt8 32

/-- The functions of the `fips203` and `fips204` crates and of `saorsa-pqc`, with their randomness,
    and BLAKE3's `derive_key` in the context `ant-wt-pqc-v1`. -/
structure HandshakePrimitives where
  keygen : Bytes → Option (EncapsKey × Bytes)
  encapsKeyValid : EncapsKey → Bool
  encaps : EncapsKey → Bytes → Option (SharedSecret × CipherText)
  cipherTextValid : CipherText → Bool
  decaps : Bytes → CipherText → Option SharedSecret
  sign : Bytes → Bytes → Bytes → Except String Signature
  verifyKeyValid : VerifyKey → Bool
  verify : VerifyKey → Bytes → Signature → Bool
  deriveKey : SharedSecret → Key

/-- Decapsulation gives the secret that was encapsulated. -/
def HandshakePrimitives.Correct (H : HandshakePrimitives) : Prop :=
  ∀ {seed seed' ek dk ss ct}, H.keygen seed = some (ek, dk) → H.encaps ek seed' = some (ss, ct) →
    H.decaps dk ct = some ss

structure NodeIdentity where
  publicKey : VerifyKey
  secretKey : Bytes
  deriving DecidableEq

variable (P : Primitives) (H : HandshakePrimitives)

def SessionCipher.fromSharedSecret (ss : SharedSecret) : SessionCipher := ⟨H.deriveKey ss⟩

def check (b : Bool) (e : String) : Except String Unit := if b then .ok () else .error e

/-! ## The client -/

def maxHandshakeResponse : ℕ := 16 * 1024

def handshakeFaultText : ReadFault → String
  | .read e => s!"handshake read failed: {e}"
  | .value e => s!"handshake read value failed: {e}"

/-- `perform_handshake` up to the decoded answer of the server. -/
def readServerAccept (results : List ReadResult) : Except String ServerAcceptData := do
  let responseBuf ← readChunks maxHandshakeResponse handshakeFaultText
    (fun _ => "handshake response exceeds size limit") results []
  check (4 ≤ responseBuf.length) s!"handshake response too short: {responseBuf.length} bytes"
  (decodeServerAccept (responseBuf.drop 4)).mapError fun e => s!"invalid ServerAccept: {e.text}"

/-- The identity of the server, when the caller expects one. -/
def checkPeerId (pubkey : VerifyKey) : Option PeerId → Except String Unit
  | none => .ok ()
  | some expected => check (derivePeerId P pubkey = expected)
      s!"PeerId mismatch: expected {hex expected.toList}, got {hex (derivePeerId P pubkey).toList}"

/-- `perform_handshake` from the decoded answer on. -/
def openServerAccept (ek : EncapsKey) (dk : Bytes) (expectedPeerId : Option PeerId)
    (accept : ServerAcceptData) : Except String SessionCipher := do
  check (accept.version = pqcVersion) s!"unsupported PQC version: {accept.version}"
  check (H.verifyKeyValid accept.pubkey) "invalid ML-DSA-65 public key"
  check (H.verify accept.pubkey (buildAuthMessage ek accept.ct) accept.signature)
    "ML-DSA-65 signature verification failed — server not authenticated"
  checkPeerId P accept.pubkey expectedPeerId
  check (H.cipherTextValid accept.ct) "invalid ML-KEM-768 ciphertext"
  let ss ← okOr "ML-KEM-768 decapsulation failed" (H.decaps dk accept.ct)
  pure (.fromSharedSecret H ss)

/-! ## The server -/

def FrameError.text : FrameError → String
  | .readFailed => "read failed"
  | .tooLarge _ => "PQC handshake message too large"

/-- `perform_server_handshake` up to the client's key. -/
def readClientHello (recv : Bytes) : Except String EncapsKey := do
  let msgBuf ← (readFrame 4096 recv).mapError FrameError.text
  let (version, ek) ← (decodeClientHello msgBuf).mapError TunnelError.text
  check (version = pqcVersion) (TunnelError.unsupportedVersion version).text
  check (H.encapsKeyValid ek) "invalid ML-KEM-768 encapsulation key"
  pure ek

/-- Encapsulation and signature. -/
def answerClientHello (identity : NodeIdentity) (ek : EncapsKey) (seed seed' : Bytes) :
    Except String (SharedSecret × CipherText × Signature) := do
  let (ss, ct) ← okOr "ML-KEM-768 encapsulation failed" (H.encaps ek seed)
  let sig ← H.sign identity.secretKey (buildAuthMessage ek ct) seed'
  pure (ss, ct, sig)

/-! ## The system -/

/-- A call of `perform_handshake` with its own key pair.  `accept` is the answer it has decoded. -/
structure ClientHandshake where
  ek : EncapsKey
  dk : Bytes
  expected : Option PeerId
  accept : Option ServerAcceptData
  result : Option (Except String SessionCipher)

/-- A call of `perform_server_handshake` that has signed. -/
structure ServerHandshake where
  node : NodeIdentity
  ek : EncapsKey
  ct : CipherText
  ss : SharedSecret
  result : Option (Except String SessionCipher)

/-- `signed` holds, for each key, the messages that were signed with it. -/
structure Handshakes where
  clients : List ClientHandshake
  servers : List ServerHandshake
  signed : List (VerifyKey × Bytes)

def Handshakes.start : Handshakes := ⟨[], [], []⟩

/-- The steps.  A node signs with its key also what is not of a handshake (`signOther`: quotes and
    merkle candidates). -/
inductive HandshakeAction where
  | connect (seed : Bytes) (expectedPeerId : Option PeerId)
  | clientFails (i : ℕ) (e : String)
  | clientReads (i : ℕ) (results : List ReadResult)
  | serverReads (node : NodeIdentity) (recv seed seed' : Bytes)
  | serverSends (k : ℕ) (sent : Except String Unit)
  | signOther (node : NodeIdentity) (msg : Bytes)

namespace Handshakes

def readAccept (c : ClientHandshake) (results : List ReadResult) : ClientHandshake :=
  { c with
    accept := (readServerAccept results).toOption
    result := some ((readServerAccept results).bind (openServerAccept P H c.ek c.dk c.expected)) }

def sendAccept (r : ServerHandshake) (sent : Except String Unit) : ServerHandshake :=
  { r with result := some (sent.map fun _ => .fromSharedSecret H r.ss) }

/-- A message of another form than that of a handshake. -/
def IsOther (msg : Bytes) : Prop := msg.length ≠ 14 + 1184 + 1088

instance (msg : Bytes) : Decidable (IsOther msg) :=
  inferInstanceAs (Decidable (msg.length ≠ 14 + 1184 + 1088))

def step (s : Handshakes) : HandshakeAction → Option Handshakes
  | .connect seed expected => do
    let (ek, dk) ← H.keygen seed
    some { s with clients := s.clients ++ [⟨ek, dk, expected, none, none⟩] }
  | .clientFails i e => do
    let c ← s.clients[i]?
    if c.result.isNone then
      some { s with clients := s.clients.set i { c with result := some (.error e) } }
    else none
  | .clientReads i results => do
    let c ← s.clients[i]?
    if c.result.isNone then some { s with clients := s.clients.set i (readAccept P H c results) }
    else none
  | .serverReads node recv seed seed' => do
    let ek ← (readClientHello H recv).toOption
    let (ss, ct, _) ← (answerClientHello H node ek seed seed').toOption
    some { s with
      servers := s.servers ++ [⟨node, ek, ct, ss, none⟩]
      signed := s.signed ++ [(node.publicKey, buildAuthMessage ek ct)] }
  | .serverSends k sent => do
    let r ← s.servers[k]?
    if r.result.isNone then some { s with servers := s.servers.set k (sendAccept H r sent) }
    else none
  | .signOther node msg =>
    if IsOther msg then some { s with signed := s.signed ++ [(node.publicKey, msg)] } else none

/-- The signatures of one key are ideal in a step: what a client verifies under it was signed with
    it. -/
def IdealSignatures (pk : VerifyKey) (s : Handshakes) : HandshakeAction → Prop
  | .clientReads i results => ∀ c ∈ s.clients[i]?, ∀ accept ∈ (readServerAccept results).toOption,
      accept.pubkey = pk →
      H.verify pk (buildAuthMessage c.ek accept.ct) accept.signature = true →
      (pk, buildAuthMessage c.ek accept.ct) ∈ s.signed
  | _ => True

/-- No key that a client is offered in a step collides with `pk`. -/
def NoCollision (pk : VerifyKey) : HandshakeAction → Prop
  | .clientReads _ results => ∀ accept ∈ (readServerAccept results).toOption,
      derivePeerId P accept.pubkey = derivePeerId P pk → accept.pubkey = pk
  | _ => True

/-! ## Agreement -/

variable {P H}

theorem check_eq_ok {b : Bool} {e : String} {u : Unit} : check b e = .ok u ↔ b = true := by
  cases b <;> simp [check]

/-- What a client has checked of an answer before it has a cipher. -/
theorem openServerAccept_eq_ok {ek : EncapsKey} {dk : Bytes} {expected : Option PeerId}
    {accept : ServerAcceptData} {cipher : SessionCipher}
    (h : openServerAccept P H ek dk expected accept = .ok cipher) :
    H.verify accept.pubkey (buildAuthMessage ek accept.ct) accept.signature = true ∧
    (∀ p ∈ expected, derivePeerId P accept.pubkey = p) ∧
    ∃ ss, H.decaps dk accept.ct = some ss ∧ cipher = .fromSharedSecret H ss := by
  simp only [openServerAccept, bind_eq_ok, check_eq_ok, okOr_eq_ok, exists_and_left,
    exists_const] at h
  obtain ⟨-, -, hverify, _, hpeer, -, ss, hss, hcipher⟩ := h
  refine ⟨hverify, ?_, ss, hss, (Except.ok.inj hcipher).symm⟩
  intro p hp
  rw [Option.mem_def.1 hp] at hpeer
  simpa [checkPeerId, check_eq_ok] using hpeer

theorem readAccept_eq_ok {c : ClientHandshake} {results : List ReadResult} {cipher : SessionCipher}
    (h : (readAccept P H c results).result = some (.ok cipher)) :
    ∃ accept, (readServerAccept results).toOption = some accept ∧
      (readAccept P H c results).accept = some accept ∧
      openServerAccept P H c.ek c.dk c.expected accept = .ok cipher := by
  rcases hr : readServerAccept results with e | accept
  · simp [readAccept, hr, Except.bind] at h
  · refine ⟨accept, rfl, by simp [readAccept, hr, Except.toOption], ?_⟩
    simpa [readAccept, hr, Except.bind] using h

variable (H) in
/-- Client `c` and server `r` have done the same handshake. -/
structure Agree (c : ClientHandshake) (cipher : SessionCipher) (r : ServerHandshake) : Prop where
  ek : r.ek = c.ek
  ct : ∃ accept, c.accept = some accept ∧ accept.ct = r.ct
  key : cipher = .fromSharedSecret H r.ss
  result : ∀ cipher', r.result = some (.ok cipher') → cipher' = cipher

variable (P H) in
/-- What holds in all states reached with ideal signatures of the key `pk`. -/
structure Sound (pk : VerifyKey) (s : Handshakes) : Prop where
  keys : ∀ c ∈ s.clients, ∃ seed, H.keygen seed = some (c.ek, c.dk)
  secrets : ∀ r ∈ s.servers, ∃ seed, H.encaps r.ek seed = some (r.ss, r.ct)
  results : ∀ r ∈ s.servers, ∀ cipher, r.result = some (.ok cipher) →
    cipher = .fromSharedSecret H r.ss
  signed : ∀ ek ct, (pk, buildAuthMessage ek ct) ∈ s.signed →
    ∃ r ∈ s.servers, r.node.publicKey = pk ∧ r.ek = ek ∧ r.ct = ct
  agree : ∀ c ∈ s.clients, ∀ cipher, c.expected = some (derivePeerId P pk) →
    c.result = some (.ok cipher) → ∃ r ∈ s.servers, r.node.publicKey = pk ∧ Agree H c cipher r

theorem sound_start (pk : VerifyKey) : Sound P H pk .start := by
  constructor <;> simp [start]

theorem Sound.connect {pk : VerifyKey} {s : Handshakes} (h : Sound P H pk s) {seed : Bytes}
    {ek : EncapsKey} {dk : Bytes} (hk : H.keygen seed = some (ek, dk)) (expected : Option PeerId) :
    Sound P H pk { s with clients := s.clients ++ [⟨ek, dk, expected, none, none⟩] } :=
  ⟨forall_mem_append h.keys ⟨seed, hk⟩, h.secrets, h.results, h.signed,
    forall_mem_append h.agree nofun⟩

theorem Sound.client {pk : VerifyKey} {s : Handshakes} (h : Sound P H pk s) {i : ℕ}
    {c c' : ClientHandshake} (hi : s.clients[i]? = some c) (hek : c'.ek = c.ek) (hdk : c'.dk = c.dk)
    (hagree : ∀ cipher, c'.expected = some (derivePeerId P pk) → c'.result = some (.ok cipher) →
      ∃ r ∈ s.servers, r.node.publicKey = pk ∧ Agree H c' cipher r) :
    Sound P H pk { s with clients := s.clients.set i c' } := by
  refine ⟨forall_mem_set h.keys ?_, h.secrets, h.results, h.signed, forall_mem_set h.agree hagree⟩
  rw [hek, hdk]; exact h.keys c (List.mem_of_getElem? hi)

/-- A client that has a cipher has read an answer that the node gave to its own key. -/
theorem Sound.clientReads (hH : H.Correct) {pk : VerifyKey} {s : Handshakes} (h : Sound P H pk s)
    {i : ℕ} {c : ClientHandshake} {results : List ReadResult} (hi : s.clients[i]? = some c)
    (hideal : IdealSignatures H pk s (.clientReads i results))
    (hcoll : NoCollision P pk (.clientReads i results)) :
    Sound P H pk { s with clients := s.clients.set i (readAccept P H c results) } := by
  refine h.client hi rfl rfl fun cipher hexp hres => ?_
  obtain ⟨accept, hread, haccept, hopen⟩ := readAccept_eq_ok hres
  obtain ⟨hverify, hpeer, ss, hdec, hcipher⟩ := openServerAccept_eq_ok hopen
  have hpk : accept.pubkey = pk := hcoll accept hread (hpeer _ hexp)
  rw [hpk] at hverify
  have hsigned := hideal c hi accept hread hpk hverify
  obtain ⟨r, hr, hnode, hek, hct⟩ := h.signed _ _ hsigned
  -- both secrets come of this key and this ciphertext
  obtain ⟨seed, hgen⟩ := h.keys c (List.mem_of_getElem? hi)
  obtain ⟨seed', henc⟩ := h.secrets r hr
  rw [hek, hct] at henc
  have hss : ss = r.ss := Option.some.inj (hdec.symm.trans (hH hgen henc))
  have hkey : cipher = .fromSharedSecret H r.ss := by rw [hcipher, hss]
  refine ⟨r, hr, hnode, hek, ⟨accept, haccept, hct.symm⟩, hkey, fun cipher' hc' => ?_⟩
  rw [hkey]; exact h.results r hr cipher' hc'

theorem Sound.serverReads {pk : VerifyKey} {s : Handshakes} (h : Sound P H pk s)
    {node : NodeIdentity} {ek : EncapsKey} {ss : SharedSecret} {ct : CipherText} {seed : Bytes}
    (henc : H.encaps ek seed = some (ss, ct)) :
    Sound P H pk { s with
      servers := s.servers ++ [⟨node, ek, ct, ss, none⟩]
      signed := s.signed ++ [(node.publicKey, buildAuthMessage ek ct)] } := by
  refine ⟨h.keys, forall_mem_append h.secrets ⟨seed, henc⟩, forall_mem_append h.results nofun,
    fun ek' ct' hmem => ?_, fun c hc cipher hexp hres => ?_⟩
  · rcases List.mem_append.1 hmem with hmem | hmem
    · obtain ⟨r, hr, heq⟩ := h.signed ek' ct' hmem
      exact ⟨r, List.mem_append_left _ hr, heq⟩
    · obtain ⟨hpk, hmsg⟩ := Prod.mk.inj (List.mem_singleton.1 hmem)
      obtain ⟨rfl, rfl⟩ := buildAuthMessage_inj hmsg
      exact ⟨_, List.mem_append_right _ (List.mem_singleton_self _), hpk.symm, rfl, rfl⟩
  · obtain ⟨r, hr, heq⟩ := h.agree c hc cipher hexp hres
    exact ⟨r, List.mem_append_left _ hr, heq⟩

theorem Sound.serverSends {pk : VerifyKey} {s : Handshakes} (h : Sound P H pk s) {k : ℕ}
    {r : ServerHandshake} (hk : s.servers[k]? = some r) (sent : Except String Unit) :
    Sound P H pk { s with servers := s.servers.set k (sendAccept H r sent) } := by
  have hr := List.mem_of_getElem? hk
  have hres : ∀ cipher, (sendAccept H r sent).result = some (.ok cipher) →
      cipher = .fromSharedSecret H r.ss := by
    intro cipher hc
    rcases sent with e | u
    · simp [sendAccept, Except.map] at hc
    · simpa [sendAccept, Except.map, eq_comm] using hc
  refine ⟨h.keys, forall_mem_set h.secrets (h.secrets r hr), forall_mem_set h.results hres,
    fun ek ct hmem => ?_, fun c hc cipher hexp hc' => ?_⟩
  · exact exists_mem_set (h.signed ek ct hmem) hk id
  · refine exists_mem_set (h.agree c hc cipher hexp hc') hk fun ⟨hnode, hag⟩ => ⟨hnode, ?_⟩
    exact ⟨hag.ek, hag.ct, hag.key, fun cipher' hc'' => (hres cipher' hc'').trans hag.key.symm⟩

theorem Sound.signOther {pk : VerifyKey} {s : Handshakes} (h : Sound P H pk s)
    {node : NodeIdentity} {msg : Bytes} (hmsg : IsOther msg) :
    Sound P H pk { s with signed := s.signed ++ [(node.publicKey, msg)] } := by
  refine ⟨h.keys, h.secrets, h.results, fun ek ct hmem => ?_, h.agree⟩
  rcases List.mem_append.1 hmem with hmem | hmem
  · exact h.signed ek ct hmem
  · have heq := (Prod.mk.inj (List.mem_singleton.1 hmem)).2
    exact absurd (by rw [← heq]; simp [buildAuthMessage, authSignContext]) hmsg

theorem Sound.step (hH : H.Correct) {pk : VerifyKey} {s s' : Handshakes} {a : HandshakeAction}
    (h : Sound P H pk s) (hideal : IdealSignatures H pk s a) (hcoll : NoCollision P pk a)
    (hstep : step P H s a = some s') : Sound P H pk s' := by
  cases a with
  | connect seed expected =>
    obtain ⟨⟨ek, dk⟩, hk, hstep⟩ := Option.bind_eq_some_iff.1 hstep
    rw [← Option.some.inj hstep]; exact h.connect hk expected
  | clientFails i e =>
    obtain ⟨c, hi, hstep⟩ := Option.bind_eq_some_iff.1 hstep
    split_ifs at hstep
    rw [← Option.some.inj hstep]; exact h.client hi rfl rfl nofun
  | clientReads i results =>
    obtain ⟨c, hi, hstep⟩ := Option.bind_eq_some_iff.1 hstep
    split_ifs at hstep
    rw [← Option.some.inj hstep]; exact h.clientReads hH hi hideal hcoll
  | serverReads node recv seed seed' =>
    obtain ⟨ek, -, hstep⟩ := Option.bind_eq_some_iff.1 hstep
    obtain ⟨⟨ss, ct, sig⟩, hans, hstep⟩ := Option.bind_eq_some_iff.1 hstep
    rw [← Option.some.inj hstep]
    have henc : H.encaps ek seed = some (ss, ct) := by
      rcases henc : H.encaps ek seed with _ | ⟨ss', ct'⟩
      · simp [answerClientHello, henc, Except.toOption, bind, Except.bind] at hans
      · rcases hsig : H.sign node.secretKey (buildAuthMessage ek ct') seed' with e | sig'
        · simp [answerClientHello, henc, hsig, Except.toOption, bind, Except.bind] at hans
        · simp [answerClientHello, henc, hsig, Except.toOption, bind, Except.bind, pure,
            Except.pure] at hans
          rw [hans.1, hans.2.1]
    exact h.serverReads henc
  | serverSends k sent =>
    obtain ⟨r, hk, hstep⟩ := Option.bind_eq_some_iff.1 hstep
    split_ifs at hstep
    rw [← Option.some.inj hstep]; exact h.serverSends hk sent
  | signOther node msg =>
    rw [Handshakes.step] at hstep
    split_ifs at hstep with hmsg
    rw [← Option.some.inj hstep]; exact h.signOther hmsg

/-- **Handshakes agree**: a client that expects the peer id of `pk` and has a cipher, has it from an
    answer that the node with the key `pk` made for the client's own key and in which it signed the
    very ciphertext that the client opened; so the two have the same session key.  The signed
    message determines key and ciphertext, and the answer is read as it was written. -/
theorem handshake_agreement (hH : H.Correct) {pk : VerifyKey} {as : List HandshakeAction}
    {s : Handshakes} (hrun : Trace (step P H)
      (fun s a => IdealSignatures H pk s a ∧ NoCollision P pk a) .start as s) :
    (∀ c ∈ s.clients, ∀ cipher, c.expected = some (derivePeerId P pk) →
      c.result = some (.ok cipher) →
      ∃ r ∈ s.servers, r.node.publicKey = pk ∧ Agree H c cipher r) ∧
    (∀ ek ct ek' ct', buildAuthMessage ek ct = buildAuthMessage ek' ct' → ek = ek' ∧ ct = ct') ∧
    ∀ ct pubkey signature, decodeServerAccept (encodeServerAccept ct pubkey signature) =
      .ok ⟨pqcVersion, ct, pubkey, signature⟩ := by
  have h := hrun.invariant (I := Sound P H pk)
    (fun _ _ _ hcond h hstep => h.step hH hcond.1 hcond.2 hstep) (sound_start pk)
  exact ⟨h.agree, fun _ _ _ _ => buildAuthMessage_inj, decodeServerAccept_encode⟩

/-! ## An honest handshake -/

theorem readClientHello_encode {ek : EncapsKey} (hek : H.encapsKeyValid ek = true) :
    readClientHello H (frame (encodeClientHello ek)) = .ok ek := by
  have hlen : (encodeClientHello ek).length = 1187 := by simp [encodeClientHello]
  have hframe := readFrame_frame (show (encodeClientHello ek).length ≤ 4096 by omega) (by omega)
  simp [readClientHello, hframe, decodeClientHello_encode, Except.mapError, check, hek, bind,
    Except.bind, pure, Except.pure]

theorem readServerAccept_encode (ct : CipherText) (pubkey : VerifyKey) (signature : Signature) :
    readServerAccept [.ok (some (frame (encodeServerAccept ct pubkey signature)))] =
      .ok ⟨pqcVersion, ct, pubkey, signature⟩ := by
  have hlen : (frame (encodeServerAccept ct pubkey signature)).length = 6356 := by
    simp [frame, encodeServerAccept]
  have hdrop : (frame (encodeServerAccept ct pubkey signature)).drop 4 =
      encodeServerAccept ct pubkey signature := List.drop_left' (length_beBytes _ _)
  simp [readServerAccept, readChunks, hlen, maxHandshakeResponse, check, hdrop,
    decodeServerAccept_encode, Except.mapError, bind, Except.bind]

/-- The steps of a handshake on a network that delivers what is sent. -/
def honestHandshake (node : NodeIdentity) (ek : EncapsKey) (ct : CipherText) (sig : Signature)
    (seed seed₁ seed₂ : Bytes) (expected : Option PeerId) : List HandshakeAction :=
  [.connect seed expected, .serverReads node (frame (encodeClientHello ek)) seed₁ seed₂,
    .serverSends 0 (.ok ()),
    .clientReads 0 [.ok (some (frame (encodeServerAccept ct node.publicKey sig)))]]

/-- An honest handshake gives both sides their cipher. -/
theorem honest_handshake (node : NodeIdentity) {ek : EncapsKey} {dk : Bytes} {ss : SharedSecret}
    {ct : CipherText} {sig : Signature} {seed seed₁ seed₂ : Bytes}
    (hgen : H.keygen seed = some (ek, dk)) (hek : H.encapsKeyValid ek = true)
    (henc : H.encaps ek seed₁ = some (ss, ct))
    (hsign : H.sign node.secretKey (buildAuthMessage ek ct) seed₂ = .ok sig)
    (hpk : H.verifyKeyValid node.publicKey = true)
    (hverify : H.verify node.publicKey (buildAuthMessage ek ct) sig = true)
    (hct : H.cipherTextValid ct = true) (hdec : H.decaps dk ct = some ss) :
    ∃ s, Trace (step P H)
        (fun s a => IdealSignatures H node.publicKey s a ∧ NoCollision P node.publicKey a) .start
        (honestHandshake node ek ct sig seed seed₁ seed₂ (some (derivePeerId P node.publicKey))) s ∧
      s.clients = [⟨ek, dk, some (derivePeerId P node.publicKey),
        some ⟨pqcVersion, ct, node.publicKey, sig⟩, some (.ok (.fromSharedSecret H ss))⟩] ∧
      s.servers = [⟨node, ek, ct, ss, some (.ok (.fromSharedSecret H ss))⟩] := by
  have hread := readServerAccept_encode ct node.publicKey sig
  have hans : answerClientHello H node ek seed₁ seed₂ = .ok (ss, ct, sig) := by
    simp [answerClientHello, henc, hsign, bind, Except.bind, pure, Except.pure]
  have hopen : openServerAccept P H ek dk (some (derivePeerId P node.publicKey))
      ⟨pqcVersion, ct, node.publicKey, sig⟩ = .ok (.fromSharedSecret H ss) := by
    simp [openServerAccept, checkPeerId, check, hpk, hverify, hct, hdec, bind, Except.bind, pure,
      Except.pure]
  have h₁ : step P H .start (.connect seed (some (derivePeerId P node.publicKey))) =
      some ⟨[⟨ek, dk, some (derivePeerId P node.publicKey), none, none⟩], [], []⟩ := by
    simp [step, hgen, start]
  have h₂ : step P H ⟨[⟨ek, dk, some (derivePeerId P node.publicKey), none, none⟩], [], []⟩
      (.serverReads node (frame (encodeClientHello ek)) seed₁ seed₂) =
      some ⟨[⟨ek, dk, some (derivePeerId P node.publicKey), none, none⟩], [⟨node, ek, ct, ss, none⟩],
        [(node.publicKey, buildAuthMessage ek ct)]⟩ := by
    simp [step, readClientHello_encode hek, hans, Except.toOption]
  refine ⟨_, .cons ⟨trivial, trivial⟩ h₁ <| .cons ⟨trivial, trivial⟩ h₂ <|
    .cons ⟨trivial, trivial⟩ rfl <| .cons ⟨?_, ?_⟩ rfl <| .nil _, ?_, rfl⟩
  · intro c hc accept ha _ _
    rw [hread] at ha
    rw [← Option.some.inj hc, ← Option.some.inj ha]
    exact List.mem_singleton_self _
  · intro accept ha _
    rw [hread] at ha
    rw [← Option.some.inj ha]
  · simp [readAccept, hread, hopen, Except.toOption, Except.bind]

/-- Primitives whose signature is the signed message. -/
def plain : HandshakePrimitives where
  keygen seed := some (padTo 1184 seed, seed)
  encapsKeyValid _ := true
  encaps ek seed := some (ek.take 32, padTo 1088 seed)
  cipherTextValid _ := true
  decaps dk _ := some ((padTo 1184 dk).take 32)
  sign sk msg _ := .ok (padTo 3309 (sk ++ msg))
  verifyKeyValid _ := true
  verify pk msg sig := decide (sig = padTo 3309 (pk.toList ++ msg))
  deriveKey ss := ss

theorem plain_verify (pk : VerifyKey) (msg : Bytes) :
    plain.verify pk msg (padTo 3309 (pk.toList ++ msg)) = true := decide_eq_true rfl

theorem plain_correct : plain.Correct := by
  intro seed seed' ek dk ss ct hgen henc
  obtain ⟨rfl, rfl⟩ := Prod.mk.inj (Option.some.inj hgen)
  rw [← (Prod.mk.inj (Option.some.inj henc)).1]
  rfl

/-- A client with the seed `[1]` and a node with the key `[2]`. -/
theorem handshake_agreement_one : ∃ as s, Trace (step clear plain)
      (fun s a => IdealSignatures plain (padTo 1952 [2]) s a ∧ NoCollision clear (padTo 1952 [2]) a)
      .start as s ∧
    ∃ c ∈ s.clients, c.ek = padTo 1184 [1] ∧ ∃ cipher, c.result = some (.ok cipher) ∧
      ∃ r ∈ s.servers, r.node.publicKey = padTo 1952 [2] ∧ Agree plain c cipher r := by
  have hver := plain_verify (padTo 1952 [2]) (buildAuthMessage (padTo 1184 [1]) (padTo 1088 [3]))
  have hsign : plain.sign (padTo 1952 [2]).toList
    (buildAuthMessage (padTo 1184 [1]) (padTo 1088 [3])) [] = .ok _ := rfl
  have hgen : plain.keygen [1] = some (padTo 1184 [1], [1]) := rfl
  have henc : plain.encaps (padTo 1184 [1]) [3] = some ((padTo 1184 [1]).take 32, padTo 1088 [3]) :=
    rfl
  obtain ⟨s, hrun, hclients, -⟩ := honest_handshake (P := clear)
    ⟨padTo 1952 [2], (padTo 1952 [2]).toList⟩ hgen rfl henc hsign rfl hver rfl rfl
  obtain ⟨c, hc, hmem⟩ : ∃ c, s.clients = [c] ∧ c ∈ s.clients :=
    ⟨_, hclients, by rw [hclients]; exact List.mem_singleton_self _⟩
  obtain rfl := List.singleton_injective (hc.symm.trans hclients)
  exact ⟨_, s, hrun, _, hmem, rfl, _, rfl,
    (handshake_agreement plain_correct hrun).1 _ hmem _ rfl rfl⟩

end Handshakes

end Autonomi
