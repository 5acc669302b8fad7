/-
  Nonces and integrity of a session, on any network.

  - `nonces_unique`: no nonce is used twice;
  - `session_integrity`: with an ideal cipher, requests and responses are those
    of the two sides.
-/
import Autonomi.Tunnel.Sequence

namespace Autonomi

open Lib

variable {P : Primitives} {cipher : SessionCipher}

namespace Session

/-! ## Nonces -/

/-- What was encrypted: the requests of the calls, and one response of each task that has one. -/
structure Accounted (s : Session) : Prop where
  nodup : (s.sealed.map fun e => (e.seq, e.direction)).Nodup
  client : ∀ e ∈ s.sealed, e.direction = .clientToServer →
    ∃ c ∈ s.calls, c.seq = e.seq ∧ c.message = e.plaintext
  server : ∀ e ∈ s.sealed, e.direction = .serverToClient →
    ∃ h ∈ s.handlers, h.seq = e.seq ∧ h.request.isSome ∧ h.response = some e.plaintext
  fresh : ∀ h ∈ s.handlers, h.outcome = none → h.response = none

theorem accounted_start : Accounted .start := by
  constructor <;> simp [start]

theorem Accounted.calls {s : Session} (h : Accounted s) {i : ℕ} {c c' : Call}
    (hi : s.calls[i]? = some c) (hseq : c'.seq = c.seq) (hmsg : c'.message = c.message) :
    Accounted { s with calls := s.calls.set i c' } := by
  refine ⟨h.nodup, fun e he hd => ?_, h.server, h.fresh⟩
  exact exists_mem_set (h.client e he hd) hi fun hc => ⟨hseq.trans hc.1, hmsg.trans hc.2⟩

theorem Accounted.handlers {s : Session} (h : Accounted s) {k : ℕ} {t t' : Handler}
    (hk : s.handlers[k]? = some t) (hseq : t'.seq = t.seq)
    (hreq : t.request.isSome → t'.request = t.request) (hresp : t'.response = t.response)
    (hout : t'.outcome = none → t.outcome = none) :
    Accounted { s with handlers := s.handlers.set k t' } := by
  refine ⟨h.nodup, h.client, fun e he hd => ?_, ?_⟩
  · refine exists_mem_set (h.server e he hd) hk fun ht => ?_
    exact ⟨hseq.trans ht.1, by rw [hreq ht.2.1]; exact ht.2.1, hresp.trans ht.2.2⟩
  · exact forall_mem_set h.fresh fun ho => hresp.trans (h.fresh t (List.mem_of_getElem? hk) (hout ho))

theorem Accounted.send {s : Session} (h : Accounted s) (hn : Numbered s) (message : Bytes) :
    Accounted (s.send P cipher message) := by
  rcases send_cases s message with ⟨-, heq⟩ | ⟨c, hlt, hc, heq⟩
  · rw [heq]; exact h
  · rw [heq]
    refine ⟨?_, fun e he hd => ?_, fun e he hd => ?_, h.fresh⟩
    · rw [List.map_append, List.nodup_append']
      refine ⟨h.nodup, by simp, fun x hx hx' => ?_⟩
      -- an older request of this number would be one of the calls
      obtain ⟨e, he, rfl⟩ := List.mem_map.1 hx
      obtain ⟨hq, hd⟩ := Prod.mk.inj (List.mem_singleton.1 hx')
      obtain ⟨c', hc', hseq, -⟩ := h.client e he hd
      obtain ⟨i, hi⟩ := List.mem_iff_getElem?.1 hc'
      have hlt' := (List.getElem?_eq_some_iff.1 hi).1
      have h₁ := hn.call_seq hi
      rw [hseq, hq, hn.clientSeq] at h₁
      omega
    · rcases List.mem_append.1 he with he | he
      · obtain ⟨c', hc', heq'⟩ := h.client e he hd
        exact ⟨c', List.mem_append_left _ hc', heq'⟩
      · rw [List.mem_singleton.1 he]
        exact ⟨c, by simp, hc.seq, hc.message⟩
    · rcases List.mem_append.1 he with he | he
      · exact h.server e he hd
      · rw [List.mem_singleton.1 he] at hd; cases hd

theorem Accounted.accept {s : Session} (h : Accounted s) (stream : Option ℕ)
    (globalPermit : Bool) : Accounted (s.accept stream globalPermit) := by
  rcases accept_cases s stream globalPermit with ⟨-, heq⟩ | ⟨-, new, hnew, heq⟩
  · rw [heq]; exact ⟨h.nodup, h.client, h.server, h.fresh⟩
  · rw [heq]
    refine ⟨h.nodup, h.client, fun e he hd => ?_, fun t ht => ?_⟩
    · obtain ⟨t, ht, heq'⟩ := h.server e he hd
      exact ⟨t, List.mem_append_left _ ht, heq'⟩
    · rcases List.mem_append.1 ht with ht | ht
      · exact h.fresh t ht
      · rcases hnew with rfl | rfl
        · cases ht
        · rw [List.mem_singleton.1 ht]; intro _; rfl

theorem Accounted.respond {s : Session} (h : Accounted s) (hn : Numbered s) {k : ℕ} {t : Handler}
    (hk : s.handlers[k]? = some t) (ho : t.outcome = none) (hr : t.request.isSome)
    (response : Except Outcome Bytes) : Accounted (s.respond P cipher k t response) := by
  rcases response with o | resp
  · exact h.handlers hk rfl (fun _ => rfl) rfl nofun
  · have ht := List.mem_of_getElem? hk
    refine ⟨?_, fun e he hd => ?_, fun e he hd => ?_, forall_mem_set h.fresh nofun⟩
    · simp only [Session.respond, List.map_append]
      rw [List.nodup_append']
      refine ⟨h.nodup, by simp, fun x hx hx' => ?_⟩
      -- an older response of this number would be of this very task
      obtain ⟨e, he, rfl⟩ := List.mem_map.1 hx
      obtain ⟨hq, hd⟩ := Prod.mk.inj (List.mem_singleton.1 hx')
      obtain ⟨t', ht', hseq, -, hresp⟩ := h.server e he hd
      have heq := List.inj_on_of_nodup_map hn.handlers ht' ht (hseq.trans hq)
      rw [heq, h.fresh t ht ho] at hresp
      cases hresp
    · rcases List.mem_append.1 he with he | he
      · exact h.client e he hd
      · rw [List.mem_singleton.1 he] at hd; cases hd
    · rcases List.mem_append.1 he with he | he
      · refine exists_mem_set (h.server e he hd) hk fun ht' => ?_
        rw [h.fresh t ht ho] at ht'
        cases ht'.2.2
      · rw [List.mem_singleton.1 he]
        exact ⟨_, mem_set_self hk, rfl, hr, rfl⟩

theorem Accounted.step {s s' : Session} {a : SessionAction} (h : Accounted s) (hn : Numbered s)
    (hstep : Step P cipher s a s') : Accounted s' := by
  cases hstep with
  | send message => exact h.send hn message
  | create result hi _ => exact h.calls hi (create_seq _ _) (by rcases result with ⟨_ | _⟩ | _ <;> rfl)
  | write result hi _ => exact h.calls hi (write_seq _ _) (by rcases result with _ | _ <;> rfl)
  | read results hi _ => exact h.calls hi rfl rfl
  | accept stream globalPermit _ => exact h.accept stream globalPermit
  | disconnect => exact ⟨h.nodup, h.client, h.server, h.fresh⟩
  | receive recv hk ho hr =>
    refine h.handlers hk rfl (fun hs => ?_) rfl fun _ => ho
    rw [hr] at hs; cases hs
  | respond result fetched hk ho hr => exact h.respond hn hk ho hr _
  | release hk _ => exact h.handlers hk rfl (fun _ => rfl) rfl id

theorem accounted {Q : Session → SessionAction → Prop} {as : List SessionAction} {s : Session}
    (hrun : Trace (step P cipher) Q .start as s) : Accounted s := by
  have h : Numbered s ∧ Accounted s := hrun.invariant (I := fun s => Numbered s ∧ Accounted s)
    (fun _ _ _ _ h hstep => ⟨h.1.step (step_cases hstep), h.2.step h.1 (step_cases hstep)⟩)
    ⟨numbered_start, accounted_start⟩
  exact h.2

/-- **No nonce is used twice**, whatever is sent, accepted or fails: the counters count the calls
    and the accepted streams without wrapping, a number makes at most one request and one response,
    and a nonce determines its number and direction. -/
theorem nonces_unique {as : List SessionAction} {s : Session}
    (hrun : Runs (step P cipher) .start as s) :
    (s.sealed.map Sealing.nonce).Nodup ∧
    (s.sealed.map fun e => (e.seq, e.direction)).Nodup ∧
    s.clientSeq.toNat = s.calls.length + 1 ∧
    (s.closed = false → s.serverSeq.toNat = s.accepted.length + 1) ∧
    (s.calls.map Call.seq).Nodup ∧ (s.handlers.map Handler.seq).Nodup ∧
    Function.Injective fun x : UInt32 × Direction => buildNonce x.1 x.2 := by
  have hn := numbered hrun
  have ha := accounted hrun
  have hinj : Function.Injective fun x : UInt32 × Direction => buildNonce x.1 x.2 := by
    intro x x' h
    obtain ⟨hq, hd⟩ := buildNonce_inj h
    exact Prod.ext hq hd
  refine ⟨?_, ha.nodup, hn.clientSeq, hn.serverSeq, ?_, hn.handlers, hinj⟩
  · have h := ha.nodup.map hinj
    rwa [List.map_map] at h
  · refine List.Nodup.of_map UInt32.toNat ?_
    rw [hn.calls]
    exact List.nodup_range'

theorem nonces_unique_three : ∃ s, Runs (step clear zeroCipher) .start
    [.send [7], .send [8], .accept none true, .receive 0 (written 1 [7]),
      .respond 0 (.ok (some [9])) none] s ∧ s.sealed.length = 3 ∧
    (s.sealed.map Sealing.nonce).Nodup := by
  have hrun : ∃ s ∈ List.foldlM (step clear zeroCipher) .start
      [.send [7], .send [8], .accept none true, .receive 0 (written 1 [7]),
        .respond 0 (.ok (some [9])) none], s.sealed.length = 3 := by
    decide +kernel
  obtain ⟨s, hs, hlen⟩ := hrun
  exact ⟨s, runs_iff.2 hs, hlen, (nonces_unique (runs_iff.2 hs)).1⟩

/-! ## Integrity -/

theorem openRequest_eq_ok {q : UInt32} {recv p : Bytes} (h : openRequest P cipher q recv = .ok p) :
    ∃ ct, receiveEnvelope recv = .ok (q, ct) ∧ cipher.decrypt P q .clientToServer ct = .ok p := by
  obtain ⟨⟨q', ct⟩, henv, h⟩ := bind_eq_ok.1 h
  by_cases hq : q' = q
  · subst hq
    refine ⟨ct, henv, ?_⟩
    simpa [bind, Except.bind, pure, Except.pure, mapError_eq_ok] using h
  · simp [hq, bind, Except.bind, throw, throwThe, MonadExceptOf.throw] at h

theorem openResponse_eq_ok {q : UInt32} {buf p : Bytes} (h : openResponse P cipher q buf = .ok p) :
    ∃ ct, decodeEncrypted (buf.drop 4) = .ok (q, ct) ∧
      cipher.decrypt P q .serverToClient ct = .ok p := by
  rw [openResponse] at h
  by_cases h4 : buf.length < 4
  · simp [h4, bind, Except.bind, throw, throwThe, MonadExceptOf.throw] at h
  · rcases henv : decodeEncrypted (buf.drop 4) with e | ⟨q', ct⟩
    · simp [h4, henv, Except.mapError, bind, Except.bind] at h
    · by_cases hq : q' = q
      · subst hq
        refine ⟨ct, rfl, ?_⟩
        rcases hdec : cipher.decrypt P q' .serverToClient ct with e | p'
        · simp [h4, henv, hdec, Except.mapError, bind, Except.bind] at h
        · simpa [h4, henv, hdec, Except.mapError, bind, Except.bind] using h
      · simp [h4, henv, hq, Except.mapError, bind, Except.bind, throw, throwThe,
          MonadExceptOf.throw] at h

/-- The call of `SessionCipher::decrypt` that a step makes. -/
def decryptCall (s : Session) : SessionAction → Option (UInt32 × Direction × Bytes)
  | .receive k recv => do
    let h ← s.handlers[k]?
    let (envelopeSeq, ciphertext) ← (receiveEnvelope recv).toOption
    if envelopeSeq = h.seq then some (h.seq, .clientToServer, ciphertext) else none
  | .read i results => do
    let c ← s.calls[i]?
    let buf ← (readResponse results).toOption
    let (respSeq, ciphertext) ← (decodeEncrypted (buf.drop 4)).toOption
    if respSeq = c.seq then some (c.seq, .serverToClient, ciphertext) else none
  | _ => none

variable (P cipher) in
/-- The cipher is ideal in a step: it opens, under a nonce, only what one of the two sides has
    encrypted under this nonce. -/
def IdealAead (s : Session) (a : SessionAction) : Prop :=
  ∀ x ∈ s.decryptCall a, (cipher.decrypt P x.1 x.2.1 x.2.2).toOption.isSome →
    ∃ e ∈ s.sealed, e.nonce = buildNonce x.1 x.2.1 ∧
      (cipher.encrypt P e.seq e.direction e.plaintext).toOption = some x.2.2

instance (s : Session) (a : SessionAction) : Decidable (IdealAead P cipher s a) :=
  inferInstanceAs (Decidable (∀ x ∈ s.decryptCall a,
    (cipher.decrypt P x.1 x.2.1 x.2.2).toOption.isSome → ∃ e ∈ s.sealed,
      e.nonce = buildNonce x.1 x.2.1 ∧
        (cipher.encrypt P e.seq e.direction e.plaintext).toOption = some x.2.2))

/-- What opens was sealed for the same number and direction, with the same plaintext. -/
theorem IdealAead.sealed (hP : P.Lawful) {s : Session} {a : SessionAction}
    (h : IdealAead P cipher s a) {q : UInt32} {d : Direction} {ct p : Bytes}
    (hcall : s.decryptCall a = some (q, d, ct)) (hdec : cipher.decrypt P q d ct = .ok p) :
    ⟨q, d, p⟩ ∈ s.sealed := by
  obtain ⟨⟨q', d', p'⟩, he, hnonce, henc⟩ := h (q, d, ct) hcall (by rw [hdec]; rfl)
  obtain ⟨rfl, rfl⟩ := buildNonce_inj hnonce
  have henc' : cipher.encrypt P q' d' p' = .ok ct := by
    rcases hr : cipher.encrypt P q' d' p' with e | ct' <;> simp_all [Except.toOption]
  have hp := SessionCipher.decrypt_encrypt hP henc'
  rw [hdec] at hp
  rw [Except.ok.inj hp]
  exact he

/-- Requests and responses are those of the two sides. -/
structure Authentic (s : Session) : Prop where
  request : ∀ h ∈ s.handlers, ∀ p, h.request = some p →
    ∃ c ∈ s.calls, c.seq = h.seq ∧ c.message = p
  response : ∀ c ∈ s.calls, ∀ p, c.state = .done (.ok p) →
    ∃ h ∈ s.handlers, h.seq = c.seq ∧ h.request = some c.message ∧ h.response = some p

theorem authentic_start : Authentic .start := by
  constructor <;> simp [start]

theorem Authentic.calls {s : Session} (h : Authentic s) {i : ℕ} {c c' : Call}
    (hi : s.calls[i]? = some c) (hseq : c'.seq = c.seq) (hmsg : c'.message = c.message)
    (hdone : ∀ p, c'.state = .done (.ok p) →
      ∃ t ∈ s.handlers, t.seq = c'.seq ∧ t.request = some c'.message ∧ t.response = some p) :
    Authentic { s with calls := s.calls.set i c' } := by
  refine ⟨fun t ht p hp => ?_, forall_mem_set h.response hdone⟩
  exact exists_mem_set (h.request t ht p hp) hi fun hc => ⟨hseq.trans hc.1, hmsg.trans hc.2⟩

theorem Authentic.handlers {s : Session} (h : Authentic s) {k : ℕ} {t t' : Handler}
    (hk : s.handlers[k]? = some t) (hseq : t'.seq = t.seq)
    (hreq : ∀ p, t'.request = some p → ∃ c ∈ s.calls, c.seq = t'.seq ∧ c.message = p)
    (hkeep : ∀ p r, t.request = some p → t.response = some r →
      t'.request = some p ∧ t'.response = some r) :
    Authentic { s with handlers := s.handlers.set k t' } := by
  refine ⟨forall_mem_set h.request hreq, fun c hc p hp => ?_⟩
  exact exists_mem_set (h.response c hc p hp) hk fun ht =>
    ⟨hseq.trans ht.1, hkeep _ _ ht.2.1 ht.2.2⟩

theorem Authentic.send {s : Session} (h : Authentic s) (message : Bytes) :
    Authentic (s.send P cipher message) := by
  rcases send_cases s message with ⟨-, heq⟩ | ⟨c, hlt, hc, heq⟩
  · rw [heq]; exact h
  · rw [heq]
    refine ⟨fun t ht p hp => ?_, forall_mem_append h.response fun p hp => ?_⟩
    · obtain ⟨c', hc', heq'⟩ := h.request t ht p hp
      exact ⟨c', List.mem_append_left _ hc', heq'⟩
    · exact absurd hp (hc.state p)

theorem Authentic.accept {s : Session} (h : Authentic s) (stream : Option ℕ)
    (globalPermit : Bool) : Authentic (s.accept stream globalPermit) := by
  rcases accept_cases s stream globalPermit with ⟨-, heq⟩ | ⟨-, new, hnew, heq⟩
  · rw [heq]; exact ⟨h.request, h.response⟩
  · rw [heq]
    refine ⟨fun t ht p hp => ?_, fun c hc p hp => ?_⟩
    · rcases List.mem_append.1 ht with ht | ht
      · exact h.request t ht p hp
      · rcases hnew with rfl | rfl
        · cases ht
        · rw [List.mem_singleton.1 ht] at hp; cases hp
    · obtain ⟨t, ht, heq'⟩ := h.response c hc p hp
      exact ⟨t, List.mem_append_left _ ht, heq'⟩

/-- A task passes on a plaintext of the client. -/
theorem Authentic.receive (hP : P.Lawful) {s : Session} (h : Authentic s) (ha : Accounted s)
    {k : ℕ} {t : Handler} {recv : Bytes} (hk : s.handlers[k]? = some t) (hr : t.request = none)
    (hideal : IdealAead P cipher s (.receive k recv)) :
    Authentic { s with handlers := s.handlers.set k (receive P cipher t recv) } := by
  refine h.handlers hk rfl (fun p hp => ?_) fun p r hp => by rw [hr] at hp; cases hp
  have hopen : openRequest P cipher t.seq recv = .ok p := by
    rcases hres : openRequest P cipher t.seq recv with e | p'
    · simp [Session.receive, hres, Except.toOption] at hp
    · simpa [Session.receive, hres, Except.toOption] using hp
  obtain ⟨ct, henv, hdec⟩ := openRequest_eq_ok hopen
  have hmem := hideal.sealed hP (q := t.seq) (by simp [decryptCall, hk, henv, Except.toOption]) hdec
  exact ha.client _ hmem rfl

/-- A call returns the response to its own request. -/
theorem Authentic.read (hP : P.Lawful) {s : Session} (h : Authentic s) (hn : Numbered s)
    (ha : Accounted s) {i : ℕ} {c : Call} {results : List ReadResult} (hi : s.calls[i]? = some c)
    (hideal : IdealAead P cipher s (.read i results)) :
    Authentic { s with calls := s.calls.set i (read P cipher c results) } := by
  refine h.calls hi rfl rfl fun p hp => ?_
  have hbind : (readResponse results).bind (openResponse P cipher c.seq) = .ok p := by
    simpa [Session.read] using hp
  obtain ⟨buf, hbuf, hopen⟩ := bind_eq_ok.1 hbind
  obtain ⟨ct, henv, hdec⟩ := openResponse_eq_ok hopen
  have hmem := hideal.sealed hP (q := c.seq)
    (by simp [decryptCall, hi, hbuf, henv, Except.toOption]) hdec
  obtain ⟨t, ht, hseq, hreq, hresp⟩ := ha.server _ hmem rfl
  obtain ⟨m, hm⟩ := Option.isSome_iff_exists.1 hreq
  obtain ⟨c', hc', hseq', hmsg⟩ := h.request t ht m hm
  -- the call of this number is this one
  have hcc : c' = c := by
    obtain ⟨j, hj⟩ := List.mem_iff_getElem?.1 hc'
    have h₁ := hn.call_seq hj
    have h₂ := hn.call_seq hi
    rw [hseq', hseq] at h₁
    have hij : i = j := by simpa using h₂.symm.trans h₁
    rw [← hij, hi] at hj
    exact (Option.some.inj hj).symm
  exact ⟨t, ht, hseq, by rw [hm, ← hmsg, hcc]; rfl, hresp⟩

theorem Authentic.step (hP : P.Lawful) {s s' : Session} {a : SessionAction} (h : Authentic s)
    (hn : Numbered s) (ha : Accounted s) (hideal : IdealAead P cipher s a)
    (hstep : Step P cipher s a s') : Authentic s' := by
  cases hstep with
  | send message => exact h.send message
  | create result hi hs =>
    refine h.calls hi (create_seq _ _) (by rcases result with ⟨_ | _⟩ | _ <;> rfl) fun p hp => ?_
    rcases result with ⟨_ | _⟩ | _ <;> cases hp
  | write result hi hs =>
    refine h.calls hi (write_seq _ _) (by rcases result with _ | _ <;> rfl) fun p hp => ?_
    rcases result with _ | _ <;> cases hp
  | read results hi hs => exact h.read hP hn ha hi hideal
  | accept stream globalPermit _ => exact h.accept stream globalPermit
  | disconnect => exact ⟨h.request, h.response⟩
  | receive recv hk ho hr => exact h.receive hP ha hk hr hideal
  | @respond k t result fetched hk ho hr =>
    have ht := List.mem_of_getElem? hk
    rcases hres : responseOf result fetched with o | resp
    · exact h.handlers hk rfl (h.request t ht) fun _ _ hp hr => ⟨hp, hr⟩
    · have h' : Authentic { s with handlers := s.handlers.set k { t with
          response := some resp, outcome := some (sealResponse P cipher t.seq resp) } } := by
        refine h.handlers hk rfl (h.request t ht) fun p r _ hr => ?_
        rw [ha.fresh t ht ho] at hr; cases hr
      exact ⟨h'.request, h'.response⟩
  | @release k t hk _ =>
    exact h.handlers hk rfl (h.request t (List.mem_of_getElem? hk)) fun _ _ hp hr => ⟨hp, hr⟩

/-- **Requests and responses are authentic** on any network, if the cipher is ideal: a task
    processes the request of the client's call with its number, no request is processed twice, and
    what a call returns is the response computed for its own request. -/
theorem session_integrity (hP : P.Lawful) {as : List SessionAction} {s : Session}
    (hrun : Trace (step P cipher) (IdealAead P cipher) .start as s) :
    (∀ h ∈ s.handlers, ∀ p, h.request = some p → ∃ c ∈ s.calls, c.seq = h.seq ∧ c.message = p) ∧
    (∀ c ∈ s.calls, s.handlers.countP (fun h => h.seq = c.seq ∧ h.request.isSome) ≤ 1) ∧
    (∀ c ∈ s.calls, ∀ p, c.state = .done (.ok p) →
      ∃ h ∈ s.handlers, h.seq = c.seq ∧ h.request = some c.message ∧ h.response = some p) := by
  have h : Numbered s ∧ Accounted s ∧ Authentic s :=
    hrun.invariant (I := fun s => Numbered s ∧ Accounted s ∧ Authentic s)
      (fun _ _ _ hideal h hstep => by
        have hs := step_cases hstep
        exact ⟨h.1.step hs, h.2.1.step h.1 hs, h.2.2.step hP h.1 h.2.1 hideal hs⟩)
      ⟨numbered_start, accounted_start, authentic_start⟩
  obtain ⟨hn, -, hau⟩ := h
  refine ⟨hau.request, fun c _ => ?_, hau.response⟩
  have hcount : (s.handlers.map Handler.seq).count c.seq ≤ 1 :=
    List.nodup_iff_count_le_one.1 hn.handlers c.seq
  refine le_trans ?_ hcount
  rw [List.count, List.countP_map]
  refine List.countP_mono_left fun t _ ht => ?_
  simp only [decide_eq_true_eq] at ht
  simp [ht.1]

/-- What a task sends back. -/
def answered (q : UInt32) (response : Bytes) : Bytes :=
  frame (encodeEncrypted q
    ((zeroCipher.encrypt clear q .serverToClient response).toOption.getD []))

/-- The streams of two calls are cross-wired: one request is dropped, the other is answered. -/
theorem session_integrity_two : ∃ s, Trace (step clear zeroCipher) (IdealAead clear zeroCipher)
    .start [.send [7], .send [8], .create 0 (.ok ()), .write 0 (.ok ()), .accept (some 1) true,
      .accept (some 1) true, .receive 0 (written 1 [7]), .receive 1 (written 1 [7]),
      .respond 0 (.ok (some [9])) none, .read 0 [.ok (some (answered 1 [9]))]] s ∧
    (∃ c ∈ s.calls, c.state = .done (.ok [9])) ∧
    ∀ c ∈ s.calls, ∀ p, c.state = .done (.ok p) →
      ∃ h ∈ s.handlers, h.seq = c.seq ∧ h.request = some c.message ∧ h.response = some p := by
  have hrun : ∃ s ∈ List.foldlM (guarded (step clear zeroCipher) (IdealAead clear zeroCipher)) .start
      [.send [7], .send [8], .create 0 (.ok ()), .write 0 (.ok ()), .accept (some 1) true,
        .accept (some 1) true, .receive 0 (written 1 [7]), .receive 1 (written 1 [7]),
        .respond 0 (.ok (some [9])) none, .read 0 [.ok (some (answered 1 [9]))]],
      ∃ c ∈ s.calls, c.state = .done (.ok [9]) := by
    decide +kernel
  obtain ⟨s, hs, hdone⟩ := hrun
  exact ⟨s, trace_iff.2 hs, hdone, (session_integrity clear_lawful (trace_iff.2 hs)).2.2⟩

end Session

end Autonomi
