/-
  Sequence numbers of a session: how both sides count, and when they agree.

  On a network that hands streams over in the order of their calls, every
  handled stream carries the number the server gave it (`seq_agrees`).  One
  call that takes a number and opens no stream is enough to end this
  (`not_seq_agrees`).
-/
import Autonomi.Tunnel.Session

namespace Autonomi

open Lib

variable {P : Primitives} {cipher : SessionCipher}

namespace Session

/-! ## The steps -/

/-- What a step does, with the call or the task it is about. -/
inductive Step (P : Primitives) (cipher : SessionCipher) (s : Session) :
    SessionAction → Session → Prop where
  | send (message : Bytes) : Step P cipher s (.send message) (s.send P cipher message)
  | create {i : ℕ} {c : Call} (result : Except CreateFault Unit) : s.calls[i]? = some c →
      c.state = .creating →
      Step P cipher s (.create i result) { s with calls := s.calls.set i (create c result) }
  | write {i : ℕ} {c : Call} (result : Except WriteFault Unit) : s.calls[i]? = some c →
      c.state = .writing →
      Step P cipher s (.write i result) { s with calls := s.calls.set i (write c result) }
  | read {i : ℕ} {c : Call} (results : List ReadResult) : s.calls[i]? = some c →
      c.state = .reading →
      Step P cipher s (.read i results) { s with calls := s.calls.set i (read P cipher c results) }
  | accept (stream : Option ℕ) (globalPermit : Bool) : s.closed = false →
      Step P cipher s (.accept stream globalPermit) (s.accept stream globalPermit)
  | disconnect : Step P cipher s .disconnect { s with closed := true }
  | receive {k : ℕ} {h : Handler} (recv : Bytes) : s.handlers[k]? = some h → h.outcome = none →
      h.request = none →
      Step P cipher s (.receive k recv)
        { s with handlers := s.handlers.set k (receive P cipher h recv) }
  | respond {k : ℕ} {h : Handler} (result : Except String (Option Bytes)) (fetched : Option Bytes) :
      s.handlers[k]? = some h → h.outcome = none → h.request.isSome →
      Step P cipher s (.respond k result fetched)
        (s.respond P cipher k h (responseOf result fetched))
  | release {k : ℕ} {h : Handler} : s.handlers[k]? = some h → h.outcome.isSome →
      Step P cipher s (.release k)
        { s with handlers := s.handlers.set k { h with permit := false } }

theorem step_cases {s s' : Session} {a : SessionAction} (h : step P cipher s a = some s') :
    Step P cipher s a s' := by
  cases a with
  | send message => rw [← Option.some.inj h]; exact .send message
  | create i result =>
    obtain ⟨c, hc, h⟩ := Option.bind_eq_some_iff.1 h
    split_ifs at h with hs
    rw [← Option.some.inj h]; exact .create result hc hs
  | write i result =>
    obtain ⟨c, hc, h⟩ := Option.bind_eq_some_iff.1 h
    split_ifs at h with hs
    rw [← Option.some.inj h]; exact .write result hc hs
  | read i results =>
    obtain ⟨c, hc, h⟩ := Option.bind_eq_some_iff.1 h
    split_ifs at h with hs
    rw [← Option.some.inj h]; exact .read results hc hs
  | accept stream globalPermit =>
    rw [step] at h
    split_ifs at h with hs
    rw [← Option.some.inj h]; exact .accept stream globalPermit (by simpa using hs)
  | disconnect => rw [← Option.some.inj h]; exact .disconnect
  | receive k recv =>
    obtain ⟨t, ht, h⟩ := Option.bind_eq_some_iff.1 h
    split_ifs at h with hs
    rw [← Option.some.inj h]; exact .receive recv ht hs.1 hs.2
  | respond k result fetched =>
    obtain ⟨t, ht, h⟩ := Option.bind_eq_some_iff.1 h
    split_ifs at h with hs
    rw [← Option.some.inj h]; exact .respond result fetched ht hs.1 hs.2
  | release k =>
    obtain ⟨t, ht, h⟩ := Option.bind_eq_some_iff.1 h
    split_ifs at h with hs
    rw [← Option.some.inj h]; exact .release ht hs

/-- A call that has just taken its number. -/
structure Started (P : Primitives) (cipher : SessionCipher) (s : Session) (message : Bytes)
    (c : Call) : Prop where
  seq : c.seq = s.clientSeq
  message : c.message = message
  envelope : ∃ ct, c.envelope <+: encodeEncrypted c.seq ct
  state : ∀ p, c.state ≠ .done (.ok p)

theorem send_cases (s : Session) (message : Bytes) :
    (maxStreamSeq ≤ s.clientSeq ∧ s.send P cipher message = s) ∨
    ∃ c, s.clientSeq < maxStreamSeq ∧ Started P cipher s message c ∧ s.send P cipher message =
      { s with
        calls := s.calls ++ [c]
        clientSeq := s.clientSeq + 1
        sealed := s.sealed ++ [⟨s.clientSeq, .clientToServer, message⟩] } := by
  by_cases hmax : maxStreamSeq ≤ s.clientSeq
  · exact .inl ⟨hmax, by rw [send, if_pos hmax]⟩
  · refine .inr ⟨_, UInt32.not_le.1 hmax, ?_, by rw [send, if_neg hmax]⟩
    rcases cipher.encrypt P s.clientSeq .clientToServer message with e | ct
    · exact ⟨rfl, rfl, ⟨[], List.nil_prefix⟩, by simp⟩
    · exact ⟨rfl, rfl, ⟨ct, List.prefix_refl _⟩, by simp⟩

/-- A task that has just been spawned. -/
def spawned (stream : Option ℕ) (seq : UInt32) : Handler :=
  ⟨stream, seq, none, none, none, none, true⟩

theorem accept_cases (s : Session) (stream : Option ℕ) (globalPermit : Bool) :
    (maxStreamSeq ≤ s.serverSeq ∧ s.accept stream globalPermit =
      { s with
        serverSeq := s.serverSeq + 1
        accepted := s.accepted ++ [stream]
        closed := true }) ∨
    s.serverSeq < maxStreamSeq ∧ ∃ new, (new = [] ∨ new = [spawned stream s.serverSeq]) ∧
      s.accept stream globalPermit =
        { s with
          serverSeq := s.serverSeq + 1
          accepted := s.accepted ++ [stream]
          handlers := s.handlers ++ new } := by
  by_cases hmax : maxStreamSeq ≤ s.serverSeq
  · exact .inl ⟨hmax, by simp [accept, hmax]⟩
  · refine .inr ⟨UInt32.not_le.1 hmax, ?_⟩
    by_cases hperm : globalPermit = true ∧ s.handlers.countP Handler.permit < maxStreamsPerSession
    · refine ⟨_, .inr rfl, ?_⟩
      simp [accept, hmax, hperm.1, not_le.2 hperm.2, spawned]
    · refine ⟨_, .inl rfl, ?_⟩
      rcases globalPermit with _ | _
      · simp [accept, hmax]
      · simp [accept, hmax, Nat.le_of_not_lt fun h => hperm ⟨rfl, h⟩]

/-- A step that takes no number. -/
structure SameNumbers (s s' : Session) : Prop where
  calls : s'.calls.map Call.seq = s.calls.map Call.seq
  clientSeq : s'.clientSeq = s.clientSeq
  handlers : s'.handlers.map Handler.seq = s.handlers.map Handler.seq
  serverSeq : s'.serverSeq = s.serverSeq
  closed : s'.closed = false → s.closed = false
  accepted : s'.accepted = s.accepted

theorem create_seq (c : Call) (result : Except CreateFault Unit) :
    (create c result).seq = c.seq := by
  rcases result with ⟨_ | _⟩ | _ <;> rfl

theorem write_seq (c : Call) (result : Except WriteFault Unit) : (write c result).seq = c.seq := by
  rcases result with _ | _ <;> rfl

theorem respond_handlers (s : Session) {k : ℕ} {h : Handler} (hk : s.handlers[k]? = some h)
    (response : Except Outcome Bytes) :
    SameNumbers s (s.respond P cipher k h response) := by
  rcases response with o | resp <;> exact ⟨rfl, rfl, map_set_eq hk rfl, rfl, id, rfl⟩

theorem step_numbers {s s' : Session} {a : SessionAction} (h : Step P cipher s a s') :
    (∃ message, a = .send message ∧ s' = s.send P cipher message) ∨
    (∃ stream globalPermit, a = .accept stream globalPermit ∧ s.closed = false ∧
      s' = s.accept stream globalPermit) ∨ SameNumbers s s' := by
  cases h with
  | send message => exact .inl ⟨message, rfl, rfl⟩
  | accept stream globalPermit hc => exact .inr (.inl ⟨stream, globalPermit, rfl, hc, rfl⟩)
  | create result hi _ =>
    exact .inr (.inr ⟨map_set_eq hi (create_seq _ _), rfl, rfl, rfl, id, rfl⟩)
  | write result hi _ =>
    exact .inr (.inr ⟨map_set_eq hi (write_seq _ _), rfl, rfl, rfl, id, rfl⟩)
  | read results hi _ => exact .inr (.inr ⟨map_set_eq hi rfl, rfl, rfl, rfl, id, rfl⟩)
  | disconnect => exact .inr (.inr ⟨rfl, rfl, rfl, rfl, nofun, rfl⟩)
  | receive recv hk _ _ => exact .inr (.inr ⟨rfl, rfl, map_set_eq hk rfl, rfl, id, rfl⟩)
  | respond result fetched hk _ _ => exact .inr (.inr (respond_handlers s hk _))
  | release hk _ => exact .inr (.inr ⟨rfl, rfl, map_set_eq hk rfl, rfl, id, rfl⟩)

/-! ## Numbers -/

theorem toNat_succ {q : UInt32} (h : q < maxStreamSeq) : (q + 1).toNat = q.toNat + 1 := by
  have hlt : q.toNat < 4294967294 := UInt32.lt_iff_toNat_lt.1 h
  rw [UInt32.toNat_add]
  simp only [UInt32.reduceToNat]
  omega

/-- The calls are numbered from 1 on, and so are the accepted streams. -/
structure Numbered (s : Session) : Prop where
  calls : (s.calls.map Call.seq).map UInt32.toNat = List.range' 1 s.calls.length
  clientSeq : s.clientSeq.toNat = s.calls.length + 1
  serverSeq : s.closed = false → s.serverSeq.toNat = s.accepted.length + 1
  handlers : (s.handlers.map Handler.seq).Nodup
  handlers_le : ∀ q ∈ s.handlers.map Handler.seq,
    1 ≤ q.toNat ∧ q.toNat ≤ s.accepted.length ∧ q < maxStreamSeq

theorem numbered_start : Numbered .start := by
  constructor <;> simp [start]

theorem Numbered.send {s : Session} (h : Numbered s) (message : Bytes) :
    Numbered (s.send P cipher message) := by
  rcases send_cases s message with ⟨-, heq⟩ | ⟨c, hlt, hc, heq⟩
  · rw [heq]; exact h
  · rw [heq]
    refine ⟨?_, ?_, h.serverSeq, h.handlers, h.handlers_le⟩
    · simp only [List.map_append, List.map_cons, List.map_nil, List.length_append,
        List.length_singleton, h.calls, List.range'_concat]
      rw [hc.seq, h.clientSeq, Nat.one_mul, Nat.add_comm]
    · simp only [List.length_append, List.length_singleton]
      rw [toNat_succ hlt, h.clientSeq]

theorem Numbered.accept {s : Session} (h : Numbered s) (hc : s.closed = false)
    (stream : Option ℕ) (globalPermit : Bool) : Numbered (s.accept stream globalPermit) := by
  have hseq := h.serverSeq hc
  rcases accept_cases s stream globalPermit with ⟨-, heq⟩ | ⟨hlt, new, hnew, heq⟩
  · rw [heq]
    refine ⟨h.calls, h.clientSeq, nofun, h.handlers, fun q hq => ?_⟩
    obtain ⟨h1, hle, hmax⟩ := h.handlers_le q hq
    exact ⟨h1, by simp only [List.length_append]; omega, hmax⟩
  · rw [heq]
    have hnew' : ∀ q ∈ new.map Handler.seq, q = s.serverSeq := by
      rcases hnew with rfl | rfl <;> simp [spawned]
    refine ⟨h.calls, h.clientSeq, fun _ => ?_, ?_, fun q hq => ?_⟩
    · simp only [List.length_append, List.length_singleton]
      rw [toNat_succ hlt, hseq]
    · rw [List.map_append, List.nodup_append']
      refine ⟨h.handlers, by rcases hnew with rfl | rfl <;> simp, fun q hq hq' => ?_⟩
      have hle := (h.handlers_le q hq).2.1
      rw [hnew' q hq', hseq] at hle
      omega
    · rw [List.map_append, List.mem_append] at hq
      simp only [List.length_append, List.length_singleton]
      rcases hq with hq | hq
      · obtain ⟨h1, hle, hmax⟩ := h.handlers_le q hq
        exact ⟨h1, by omega, hmax⟩
      · rw [hnew' q hq]
        exact ⟨by omega, by omega, hlt⟩

theorem Numbered.same {s s' : Session} (h : Numbered s) (hs : SameNumbers s s') : Numbered s' := by
  have hlen : s'.calls.length = s.calls.length := by
    simpa using congrArg List.length hs.calls
  refine ⟨by rw [hs.calls, hlen, h.calls], by rw [hs.clientSeq, hlen, h.clientSeq], ?_,
    by rw [hs.handlers]; exact h.handlers, by rw [hs.handlers, hs.accepted]; exact h.handlers_le⟩
  intro hc
  rw [hs.serverSeq, hs.accepted, h.serverSeq (hs.closed hc)]

theorem Numbered.step {s s' : Session} {a : SessionAction} (h : Numbered s)
    (hstep : Step P cipher s a s') : Numbered s' := by
  rcases step_numbers hstep with ⟨message, -, rfl⟩ | ⟨stream, globalPermit, -, hc, rfl⟩ | hs
  · exact h.send message
  · exact h.accept hc stream globalPermit
  · exact h.same hs

theorem numbered {Q : Session → SessionAction → Prop} {as : List SessionAction} {s : Session}
    (hrun : Trace (step P cipher) Q .start as s) : Numbered s :=
  hrun.invariant (fun _ _ _ _ h hstep => h.step (step_cases hstep)) numbered_start

theorem Numbered.call_seq {s : Session} (h : Numbered s) {i : ℕ} {c : Call}
    (hi : s.calls[i]? = some c) : c.seq.toNat = i + 1 := by
  have hlt := (List.getElem?_eq_some_iff.1 hi).1
  have hget : ((s.calls.map Call.seq).map UInt32.toNat)[i]? = some c.seq.toNat := by simp [hi]
  rw [h.calls, List.getElem?_range' hlt] at hget
  have := Option.some.inj hget
  omega

/-! ## Agreement -/

/-- The network is honest: `accept_bi` yields streams that the client has opened, each once, and
    what is read from a stream is what its call has written, or the beginning of it. -/
def Honest (s : Session) : SessionAction → Prop
  | .accept stream _ => stream ∉ s.accepted ∧ ∃ c ∈ s.callOf stream, c.opened = true
  | .receive k recv => ∀ h ∈ s.handlers[k]?, ∃ c ∈ s.callOf h.stream, recv <+: frame c.envelope
  | _ => True

/-- A stream is accepted after those of all calls that took their number before. -/
def InOrder (s : Session) : SessionAction → Prop
  | .accept (some i) _ => ∀ j < i, some j ∈ s.accepted
  | _ => True

instance : ∀ s a, Decidable (Honest s a)
  | s, .accept stream _ =>
    inferInstanceAs (Decidable (stream ∉ s.accepted ∧ ∃ c ∈ s.callOf stream, c.opened = true))
  | s, .receive k recv => inferInstanceAs
    (Decidable (∀ h ∈ s.handlers[k]?, ∃ c ∈ s.callOf h.stream, recv <+: frame c.envelope))
  | _, .send _ | _, .create _ _ | _, .write _ _ | _, .read _ _ | _, .disconnect
  | _, .respond _ _ _ | _, .release _ => isTrue trivial

instance : ∀ s a, Decidable (InOrder s a)
  | s, .accept (some i) _ => inferInstanceAs (Decidable (∀ j < i, some j ∈ s.accepted))
  | _, .accept none _ | _, .send _ | _, .create _ _ | _, .write _ _ | _, .read _ _ | _, .disconnect
  | _, .receive _ _ | _, .respond _ _ _ | _, .release _ => isTrue trivial

/-- Every handled stream is of the call with its number and carries this number; none is dropped
    for its number. -/
structure SeqAgrees (s : Session) : Prop where
  call : ∀ h ∈ s.handlers, ∃ c ∈ s.callOf h.stream, c.seq = h.seq
  envelope : ∀ h ∈ s.handlers, ∀ q ∈ h.envelopeSeq, q = h.seq
  kept : ∀ h ∈ s.handlers, ∀ q q', h.outcome ≠ some (.sequenceMismatch q q')

theorem callOf_eq_some {s : Session} {stream : Option ℕ} {c : Call} :
    c ∈ s.callOf stream ↔ ∃ i, stream = some i ∧ s.calls[i]? = some c :=
  Option.bind_eq_some_iff

theorem receiveEnvelope_initial {q q' : UInt32} {envelope recv ct ct' : Bytes}
    (he : envelope <+: encodeEncrypted q ct) (hr : recv <+: frame envelope)
    (h : receiveEnvelope recv = .ok (q', ct')) : q' = q := by
  obtain ⟨msgBuf, hframe, hdec⟩ := bind_eq_ok.1 h
  have hmsg := readFrame_initial hr (mapError_eq_ok.1 hframe)
  exact (decodeEncrypted_of_initial (hmsg.trans he) (mapError_eq_ok.1 hdec)).1

theorem mismatch_of_openRequest {q q₁ q₂ : UInt32} {recv : Bytes}
    (h : openRequest P cipher q recv = .error (.sequenceMismatch q₁ q₂)) :
    ∃ q' ct, receiveEnvelope recv = .ok (q', ct) ∧ q' ≠ q := by
  rcases henv : receiveEnvelope recv with e | ⟨q', ct⟩
  · rw [openRequest, henv] at h
    have he : e = .sequenceMismatch q₁ q₂ := by simpa [bind, Except.bind] using h
    subst he
    rcases hframe : readFrame (maxWireMessageSize + 256) recv with e | msgBuf
    · simp [receiveEnvelope, hframe, Except.mapError, bind, Except.bind] at henv
    · rcases hdec : decodeEncrypted msgBuf with e | r <;>
        simp [receiveEnvelope, hframe, hdec, Except.mapError, bind, Except.bind] at henv
  · refine ⟨q', ct, rfl, ?_⟩
    rintro rfl
    rw [openRequest, henv] at h
    rcases hdec : cipher.decrypt P q' .clientToServer ct with e | p <;>
      simp [hdec, Except.mapError, bind, Except.bind] at h

/-- Streams come in the order of their calls. -/
structure Ordered (s : Session) : Prop where
  accepted : s.accepted = (List.range s.accepted.length).map some
  envelopes : ∀ c ∈ s.calls, ∃ ct, c.envelope <+: encodeEncrypted c.seq ct
  handlers : ∀ h ∈ s.handlers, ∃ i < s.calls.length, h.stream = some i ∧ h.seq.toNat = i + 1
  envelope : ∀ h ∈ s.handlers, ∀ q, h.envelopeSeq = some q → q = h.seq
  kept : ∀ h ∈ s.handlers, ∀ q q', h.outcome ≠ some (.sequenceMismatch q q')

theorem ordered_start : Ordered .start := by
  constructor <;> simp [start]

theorem Ordered.calls {s : Session} (h : Ordered s) {i : ℕ} {c c' : Call}
    (hi : s.calls[i]? = some c) (hseq : c'.seq = c.seq) (henv : c'.envelope = c.envelope) :
    Ordered { s with calls := s.calls.set i c' } := by
  refine ⟨h.accepted, forall_mem_set h.envelopes ?_, ?_, h.envelope, h.kept⟩
  · rw [hseq, henv]; exact h.envelopes c (List.mem_of_getElem? hi)
  · simpa using h.handlers

theorem Ordered.set {s : Session} (h : Ordered s) {k : ℕ} {t t' : Handler}
    (hk : s.handlers[k]? = some t) (hseq : t'.seq = t.seq) (hstream : t'.stream = t.stream)
    (henv : ∀ q, t'.envelopeSeq = some q → q = t.seq)
    (hkept : ∀ q q', t'.outcome ≠ some (.sequenceMismatch q q')) :
    Ordered { s with handlers := s.handlers.set k t' } := by
  refine ⟨h.accepted, h.envelopes, forall_mem_set h.handlers ?_, forall_mem_set h.envelope ?_,
    forall_mem_set h.kept hkept⟩
  · rw [hseq, hstream]; exact h.handlers t (List.mem_of_getElem? hk)
  · rw [hseq]; exact henv

theorem Ordered.send {s : Session} (h : Ordered s) (message : Bytes) :
    Ordered (s.send P cipher message) := by
  rcases send_cases s message with ⟨-, heq⟩ | ⟨c, -, hc, heq⟩
  · rw [heq]; exact h
  · rw [heq]
    refine ⟨h.accepted, forall_mem_append h.envelopes hc.envelope, fun t ht => ?_, h.envelope,
      h.kept⟩
    obtain ⟨i, hi, heq'⟩ := h.handlers t ht
    exact ⟨i, by simp only [List.length_append]; omega, heq'⟩

/-- The next stream in order is that of the call with the server's next number. -/
theorem Ordered.next {s : Session} (h : Ordered s) {stream : Option ℕ} {globalPermit : Bool}
    (hhonest : Honest s (.accept stream globalPermit))
    (horder : InOrder s (.accept stream globalPermit)) :
    stream = some s.accepted.length ∧ s.accepted.length < s.calls.length := by
  obtain ⟨hnew, c, hc, -⟩ := hhonest
  obtain ⟨i, rfl, hi⟩ := callOf_eq_some.1 hc
  have hmem : ∀ j, some j ∈ s.accepted ↔ j < s.accepted.length := by
    intro j; rw [h.accepted]; simp
  have hge : s.accepted.length ≤ i := by rw [hmem] at hnew; omega
  have hle : i ≤ s.accepted.length := by
    by_contra hlt
    have := (hmem _).1 (horder s.accepted.length (by omega))
    omega
  have hi' := (List.getElem?_eq_some_iff.1 hi).1
  exact ⟨by rw [le_antisymm hle hge], by omega⟩

theorem Ordered.accept {s : Session} (h : Ordered s) (hn : Numbered s) {stream : Option ℕ}
    {globalPermit : Bool} (hc : s.closed = false)
    (hnext : stream = some s.accepted.length ∧ s.accepted.length < s.calls.length) :
    Ordered (s.accept stream globalPermit) := by
  obtain ⟨rfl, hlt⟩ := hnext
  have hacc : s.accepted ++ [some s.accepted.length] =
      (List.range (s.accepted ++ [some s.accepted.length]).length).map some := by
    rw [List.length_append, List.length_singleton, List.range_succ, List.map_append]
    exact congrArg (· ++ [some s.accepted.length]) h.accepted
  rcases accept_cases s (some s.accepted.length) globalPermit with ⟨-, heq⟩ | ⟨-, new, hnew, heq⟩
  · rw [heq]; exact ⟨hacc, h.envelopes, h.handlers, h.envelope, h.kept⟩
  · rw [heq]
    rcases hnew with rfl | rfl
    · rw [List.append_nil]; exact ⟨hacc, h.envelopes, h.handlers, h.envelope, h.kept⟩
    · exact ⟨hacc, h.envelopes, forall_mem_append h.handlers ⟨_, hlt, rfl, hn.serverSeq hc⟩,
        forall_mem_append h.envelope nofun, forall_mem_append h.kept nofun⟩

theorem Ordered.receive {s : Session} (h : Ordered s) (hn : Numbered s) {k : ℕ} {t : Handler}
    {recv : Bytes} (hk : s.handlers[k]? = some t) (hhonest : Honest s (.receive k recv)) :
    Ordered { s with handlers := s.handlers.set k (receive P cipher t recv) } := by
  have hseq : ∀ q ct, receiveEnvelope recv = .ok (q, ct) → q = t.seq := by
    intro q ct hr
    obtain ⟨c, hc, hp⟩ := hhonest t hk
    obtain ⟨i, hstream, hi⟩ := callOf_eq_some.1 hc
    obtain ⟨ct', he⟩ := h.envelopes c (List.mem_of_getElem? hi)
    obtain ⟨j, -, hstream', hj⟩ := h.handlers t (List.mem_of_getElem? hk)
    have hij : i = j := Option.some.inj (hstream.symm.trans hstream')
    rw [receiveEnvelope_initial he hp hr, ← UInt32.toNat_inj, hn.call_seq hi, hj, hij]
  refine h.set hk rfl rfl (fun q hq => ?_) fun q q' hout => ?_
  · rcases hr : receiveEnvelope recv with e | ⟨q', ct⟩
    · simp [Session.receive, hr, Except.toOption] at hq
    · simp only [Session.receive, hr, Except.toOption, Option.map_some, Option.some.injEq] at hq
      rw [← hq]; exact hseq q' ct hr
  · rcases hr : openRequest P cipher t.seq recv with o | p
    · simp only [Session.receive, hr, Option.some.injEq] at hout
      subst hout
      obtain ⟨q'', ct, henv, hne⟩ := mismatch_of_openRequest hr
      exact hne (hseq q'' ct henv)
    · simp [Session.receive, hr] at hout

theorem sealResponse_ne {q q₁ q₂ : UInt32} {resp : Bytes} :
    sealResponse P cipher q resp ≠ .sequenceMismatch q₁ q₂ := by
  rw [sealResponse]; split <;> nofun

theorem Ordered.respond {s : Session} (h : Ordered s) {k : ℕ} {t : Handler}
    (hk : s.handlers[k]? = some t) (result : Except String (Option Bytes))
    (fetched : Option Bytes) : Ordered (s.respond P cipher k t (responseOf result fetched)) := by
  have henv := h.envelope t (List.mem_of_getElem? hk)
  rcases result with e | _ | resp
  · exact h.set hk rfl rfl henv nofun
  · exact h.set hk rfl rfl henv nofun
  · have h' : Ordered { s with handlers := s.handlers.set k { t with
        response := some (fetched.getD resp)
        outcome := some (sealResponse P cipher t.seq (fetched.getD resp)) } } :=
      h.set hk rfl rfl henv fun q q' hout => sealResponse_ne (Option.some.inj hout)
    exact ⟨h'.accepted, h'.envelopes, h'.handlers, h'.envelope, h'.kept⟩

theorem Ordered.step {s s' : Session} {a : SessionAction} (h : Ordered s) (hn : Numbered s)
    (hhonest : Honest s a) (horder : InOrder s a) (hstep : Step P cipher s a s') : Ordered s' := by
  cases hstep with
  | send message => exact h.send message
  | create result hi _ =>
    exact h.calls hi (create_seq _ _) (by rcases result with ⟨_ | _⟩ | _ <;> rfl)
  | write result hi _ => exact h.calls hi (write_seq _ _) (by rcases result with _ | _ <;> rfl)
  | read results hi _ => exact h.calls hi rfl rfl
  | accept stream globalPermit hc => exact h.accept hn hc (h.next hhonest horder)
  | disconnect => exact ⟨h.accepted, h.envelopes, h.handlers, h.envelope, h.kept⟩
  | receive recv hk _ _ => exact h.receive hn hk hhonest
  | respond result fetched hk _ _ => exact h.respond hk result fetched
  | @release k t hk _ =>
    have ht := List.mem_of_getElem? hk
    exact h.set hk rfl rfl (h.envelope t ht) (h.kept t ht)

/-- **Sequence numbers agree** in every run on an honest network in which `accept_bi` yields the
    streams in the order in which their calls took numbers; then no call has taken a number and
    failed before one whose stream was accepted. -/
theorem seq_agrees {as : List SessionAction} {s : Session}
    (hrun : Trace (step P cipher) (fun s a => Honest s a ∧ InOrder s a) .start as s) :
    SeqAgrees s := by
  have h : Numbered s ∧ Ordered s := hrun.invariant (I := fun s => Numbered s ∧ Ordered s)
    (fun _ _ _ hcond h hstep => by
      have hs := step_cases hstep
      exact ⟨h.1.step hs, h.2.step h.1 hcond.1 hcond.2 hs⟩)
    ⟨numbered_start, ordered_start⟩
  obtain ⟨hn, ho⟩ := h
  refine ⟨fun t ht => ?_, ho.envelope, ho.kept⟩
  obtain ⟨i, hi, hstream, hseq⟩ := ho.handlers t ht
  have hget := List.getElem?_eq_getElem hi
  refine ⟨_, callOf_eq_some.2 ⟨i, hstream, hget⟩, ?_⟩
  rw [← UInt32.toNat_inj, hn.call_seq hget, hseq]

/-- The key of zeros. -/
def zeroCipher : SessionCipher := ⟨List.Vector.replicate 32 0⟩

/-- What a call writes. -/
def written (q : UInt32) (message : Bytes) : Bytes :=
  frame (encodeEncrypted q
    ((zeroCipher.encrypt clear q .clientToServer message).toOption.getD []))

theorem seq_agrees_two : ∃ s, Trace (step clear zeroCipher) (fun s a => Honest s a ∧ InOrder s a)
    .start [.send [7], .send [8], .create 1 (.ok ()), .create 0 (.ok ()), .write 1 (.ok ()),
      .write 0 (.ok ()), .accept (some 0) true, .accept (some 1) true, .receive 1 (written 2 [8]),
      .receive 0 (written 1 [7])] s ∧ s.handlers.length = 2 ∧ SeqAgrees s := by
  have hrun : ∃ s ∈ List.foldlM (guarded (step clear zeroCipher) fun s a => Honest s a ∧ InOrder s a)
      .start [.send [7], .send [8], .create 1 (.ok ()), .create 0 (.ok ()), .write 1 (.ok ()),
        .write 0 (.ok ()), .accept (some 0) true, .accept (some 1) true, .receive 1 (written 2 [8]),
        .receive 0 (written 1 [7])], s.handlers.length = 2 := by
    decide +kernel
  obtain ⟨s, hs, hlen⟩ := hrun
  exact ⟨s, trace_iff.2 hs, hlen, seq_agrees (trace_iff.2 hs)⟩

/-- The first call takes number 1 and fails to create its stream; the stream of the second, with
    number 2, is the first that the server accepts. -/
theorem not_seq_agrees : ¬ ∀ (P : Primitives) (cipher : SessionCipher) (as : List SessionAction)
    (s : Session), Trace (step P cipher) Honest .start as s → SeqAgrees s := by
  intro hall
  have hrun : ∃ s ∈ List.foldlM (guarded (step clear zeroCipher) Honest) .start
      [.send [7], .create 0 (.error (.create "too many streams")), .send [8], .create 1 (.ok ()),
        .write 1 (.ok ()), .accept (some 1) true, .receive 0 (written 2 [8])],
      ∃ h ∈ s.handlers, ∃ q ∈ h.envelopeSeq, q ≠ h.seq := by
    decide +kernel
  obtain ⟨s, hs, h, hh, q, hq, hne⟩ := hrun
  exact hne ((hall clear zeroCipher _ s (trace_iff.2 hs)).envelope h hh q hq)

end Session

end Autonomi
