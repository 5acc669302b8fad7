/-
  Uploading chunks in waves (`ant-core/src/data/client/batch.rs`): a wave is paid
  for in one transaction and stored while the next one is prepared.

  What the network and the chain answer, and the order in which the futures of a
  wave complete, are given for each turn of the loop.  What is done is logged, so
  that it is known of a failed upload as well.
-/
import Autonomi.Client.Chunk
import Autonomi.Lib.Post

namespace Autonomi.AntClient

open Lib AntNode

/-- A chunk that has been quoted but not paid for. -/
structure PreparedChunk where
  content : Bytes
  address : XorName
  quotedPeers : List PeerId
  payment : SingleNodePayment
  peerQuotes : List (EncodedPeerId × PaymentQuote)

/-- A chunk that has been paid for but not stored. -/
structure PaidChunk where
  content : Bytes
  address : XorName
  quotedPeers : List PeerId
  proofBytes : Bytes

variable (P : Primitives) (C : ClientEvm) (client : Client)

/-- `none` for a chunk that the network has already. -/
def prepareChunkPayment (net : Network) (chain : Chain) (order : Unordered QuoteResult)
    (content : Bytes) : Except Error (Option PreparedChunk) :=
  match getStoreQuotes C client net order (quoteRequestOf P content) with
  | .ok quotesWithPeers => do
    let (peerQuotes, payment) ← priceQuotes C client chain quotesWithPeers
    pure (some ⟨content, computeAddress P content, quotesWithPeers.map Prod.fst, payment, peerQuotes⟩)
  | .error .alreadyStored => pure none
  | .error e => .error e

def buildPaidChunk (txHashMap : Lookup QuoteHash TxHash) (chunk : PreparedChunk) :
    Except Error PaidChunk := do
  let txHashes ← chunk.payment.txHashes (fun hash => Error.payment
    s!"Missing tx hash for quote {hexEncode hash} — external signer did not return a receipt for this payment")
    txHashMap
  let proofBytes ← serializeProof C ⟨⟨chunk.peerQuotes⟩, txHashes⟩
  pure ⟨chunk.content, chunk.address, chunk.quotedPeers, proofBytes⟩

def buildPaidChunks (prepared : List PreparedChunk) (txHashMap : Lookup QuoteHash TxHash) :
    Except Error (List PaidChunk) :=
  prepared.mapM (buildPaidChunk C txHashMap)

/-- The payments of all chunks, as one. -/
def batchPayments (prepared : List PreparedChunk) : List AntNode.QuotePayment :=
  prepared.flatMap fun chunk => chunk.payment.quotes.map AntNode.QuotePaymentInfo.payment

def batchPay (chain : Chain) (prepared : List PreparedChunk) : Except Error (List PaidChunk) :=
  if prepared.isEmpty then .ok []
  else do
    client.requireWallet
    let txHashMap ← (chain.payForQuotes (batchPayments prepared)).mapError fun err =>
      .payment s!"Batch payment failed: {err}"
    buildPaidChunks C prepared (.ofList txHashMap)

/-- To the end: every peer that is asked answers, or is waited for. -/
def storeChunk (net : Network) (order : ℕ → Unordered (PeerId × ℕ)) (chunk : PaidChunk) :
    Except Error XorName :=
  (chunkPutToCloseGroup P C client net order (turnsOf chunk.quotedPeers) chunk.content
    chunk.proofBytes chunk.quotedPeers).2.getD (.error (.insufficientPeers ""))

/-! ## The waves -/

/-- What an upload has done. -/
inductive Event where
  /-- A chunk has been prepared; `found` if it is stored already. -/
  | prepare (address : XorName) (found : Except Error Bool)
  /-- A payment on chain has gone through that covers these chunks. -/
  | charged (addresses : List XorName)
  /-- What `batch_pay` has come to. -/
  | pay (addresses : List XorName) (result : Except Error Unit)
  /-- The store of a paid chunk to its close group has run to completion. -/
  | store (address : XorName) (result : Except Error XorName)

abbrev Upload (α : Type) := Act (List Event) Error α

/-- What a turn of the loop meets: preparing its wave, paying for it, and storing the wave before. -/
structure Turn where
  quoteNet : Bytes → Network
  quoteOrder : Bytes → Unordered QuoteResult
  market : Bytes → Chain
  prepareOrder : Unordered (XorName × Except Error (Option PreparedChunk))
  wallet : Chain
  putNet : PaidChunk → Network
  putOrder : PaidChunk → ℕ → Unordered (PeerId × ℕ)
  storeOrder : Unordered (XorName × Except Error XorName)

variable (turn : Turn)

/-- The loop over the results, up to the first failure. -/
def splitPrepared : List (XorName × Except Error (Option PreparedChunk)) →
    Except Error (List PreparedChunk × List XorName)
  | [] => .ok ([], [])
  | (address, result) :: results => do
    let found ← result
    let (prepared, alreadyStored) ← splitPrepared results
    match found with
    | some chunk => pure (chunk :: prepared, alreadyStored)
    | none => pure (prepared, address :: alreadyStored)

/-- What the futures of a wave come to, as they complete. -/
def prepareResults (chunks : List Bytes) : List (XorName × Except Error (Option PreparedChunk)) :=
  turn.prepareOrder (chunks.map fun content => (computeAddress P content,
    prepareChunkPayment P C client (turn.quoteNet content) (turn.market content)
      (turn.quoteOrder content) content))

def prepareWave (chunks : List Bytes) : Upload (Except Error (List PreparedChunk × List XorName)) := do
  let results := prepareResults P C client turn chunks
  modify fun log => log ++ results.map fun r => .prepare r.1 (r.2.map Option.isNone)
  pure (splitPrepared results)

def storeResults (paidChunks : List PaidChunk) : List (XorName × Except Error XorName) :=
  turn.storeOrder (paidChunks.map fun chunk =>
    (chunk.address, storeChunk P C client (turn.putNet chunk) (turn.putOrder chunk) chunk))

def storePaidChunks (paidChunks : List PaidChunk) : Upload (Except Error (List XorName)) := do
  let results := storeResults P C client turn paidChunks
  modify fun log => log ++ results.map fun r => .store r.1 r.2
  pure (results.mapM Prod.snd)

/-- The wave before, where there is one to store. -/
def storePending : Option (List PaidChunk) → Upload (Except Error (List XorName))
  | some paidChunks => storePaidChunks P C client turn paidChunks
  | none => pure (.ok [])

/-- The transaction of `batch_pay` goes through. -/
def chargesFor (chain : Chain) (prepared : List PreparedChunk) : Bool :=
  client.wallet && (chain.payForQuotes (batchPayments prepared)).toOption.isSome

/-- `batch_pay`, logged. -/
def payWave (prepared : List PreparedChunk) : Upload (List PaidChunk) := do
  let addresses := prepared.map PreparedChunk.address
  let paid := batchPay C client turn.wallet prepared
  modify fun log => log ++ if chargesFor client turn.wallet prepared then [.charged addresses] else []
  modify fun log => log ++ [.pay addresses (paid.map fun _ => ())]
  Act.ofExcept paid

/-- One turn: the pending wave is stored and this one is prepared, both to the end, before either
    result is looked at. -/
def uploadWave (s : Option (List PaidChunk) × List XorName) (wave : Turn × List Bytes) :
    Upload (Option (List PaidChunk) × List XorName) := do
  let prepareResult ← prepareWave P C client wave.1 wave.2
  let storeResult ← storePending P C client wave.1 s.1
  let stored ← Act.ofExcept storeResult
  let (preparedChunks, alreadyStored) ← Act.ofExcept prepareResult
  let allAddresses := s.2 ++ stored ++ alreadyStored
  if preparedChunks.isEmpty then pure (none, allAddresses)
  else do
    let paidChunks ← payWave C client wave.1 preparedChunks
    pure (some paidChunks, allAddresses)

/-- How chunks are split into waves. -/
structure WaveSplit where
  split : List Bytes → List (List Bytes)
  flatten_split : ∀ chunks, (split chunks).flatten = chunks

/-- `chunks(PAYMENT_WAVE_SIZE)`. -/
def paymentWaves : WaveSplit := ⟨wavesOf, flatten_wavesOf⟩

def batchUploadChunks (waves : WaveSplit) (turns : ℕ → Turn) (chunks : List Bytes) :
    Upload (List XorName) := do
  if chunks.isEmpty then pure []
  else do
    let (uniqueChunks, duplicates) := dedupChunks P chunks
    let waveChunks := waves.split uniqueChunks
    let (pendingStore, allAddresses) ← (waveChunks.mapIdx fun i wave => (turns i, wave)).foldlM
      (uploadWave P C client) (none, duplicates)
    let storeResult ← storePending P C client (turns waveChunks.length) pendingStore
    let stored ← Act.ofExcept storeResult
    pure (allAddresses ++ stored)

/-! ## What the log says -/

def Event.paid : Event → List XorName
  | .pay addresses (.ok _) => addresses
  | _ => []

def Event.found : Event → List XorName
  | .prepare address (.ok true) => [address]
  | _ => []

def Event.stored : Event → List XorName
  | .store address _ => [address]
  | _ => []

def Event.charge : Event → Option (List XorName)
  | .charged addresses => some addresses
  | _ => none

def Event.Failed : Event → Prop
  | .prepare _ (.error _) | .pay _ (.error _) | .store _ (.error _) => True
  | _ => False

/-- What has been paid for successfully. -/
def paidIn (log : List Event) : List XorName := log.flatMap Event.paid

/-- What the network had already. -/
def foundIn (log : List Event) : List XorName := log.flatMap Event.found

/-- What each payment on chain covers. -/
def charges (log : List Event) : List (List XorName) := log.filterMap Event.charge

/-- What has been stored, or tried to the end. -/
def storedIn (log : List Event) : List XorName := log.flatMap Event.stored

/-- Nothing is stored that was not paid for before. -/
def PaysFirst (log : List Event) : Prop :=
  ∀ before address result after, log = before ++ .store address result :: after →
    address ∈ paidIn before

variable {P C client turn} {log : List Event} {R : Error → List Event → Prop}

@[simp] theorem paidIn_append (log log' : List Event) :
    paidIn (log ++ log') = paidIn log ++ paidIn log' := List.flatMap_append

@[simp] theorem foundIn_append (log log' : List Event) :
    foundIn (log ++ log') = foundIn log ++ foundIn log' := List.flatMap_append

@[simp] theorem charges_append (log log' : List Event) :
    charges (log ++ log') = charges log ++ charges log' := List.filterMap_append

@[simp] theorem storedIn_append (log log' : List Event) :
    storedIn (log ++ log') = storedIn log ++ storedIn log' := List.flatMap_append

theorem store_mem_storedIn {address : XorName} {result : Except Error XorName}
    (h : Event.store address result ∈ log) : address ∈ storedIn log :=
  List.mem_flatMap.2 ⟨_, h, List.mem_singleton_self _⟩

/-- What is stored has been paid for. -/
theorem PaysFirst.append {events : List Event} (h : PaysFirst log)
    (hevents : storedIn events ⊆ paidIn log) : PaysFirst (log ++ events) := by
  intro before address result after heq
  rcases List.append_eq_append_iff.1 heq with ⟨l, rfl, hl⟩ | ⟨l, rfl, hl⟩
  · have hmem : Event.store address result ∈ events := by simp [hl]
    rw [paidIn_append]
    exact List.mem_append_left _ (hevents (store_mem_storedIn hmem))
  · cases l with
    | nil =>
      rw [List.nil_append] at hl
      rw [List.append_nil] at hevents
      exact hevents (store_mem_storedIn (hl ▸ List.mem_cons_self ..))
    | cons e l =>
      cases hl
      exact h _ _ _ _ rfl

/-! ## The waves -/

/-- What a wave's preparation has to pay for and what it has found stored. -/
theorem splitPrepared_cases (results : List (XorName × Except Error (Option PreparedChunk))) :
    (∃ e, splitPrepared results = .error e ∧ ∃ r ∈ results, r.2 = .error e) ∨
    ∃ prepared alreadyStored, splitPrepared results = .ok (prepared, alreadyStored) ∧
      (∀ r ∈ results, ∃ found, r.2 = .ok found) ∧
      prepared = results.filterMap (fun r => r.2.toOption.join) ∧
      alreadyStored = results.filterMap fun r =>
        if (r.2.map Option.isNone).toOption = some true then some r.1 else none := by
  induction results with
  | nil => exact .inr ⟨[], [], rfl, by simp⟩
  | cons r results ih =>
    obtain ⟨address, result⟩ := r
    rcases result with e | found
    · exact .inl ⟨e, rfl, _, List.mem_cons_self .., rfl⟩
    · rcases ih with ⟨e, herror, r, hr, he⟩ | ⟨prepared, alreadyStored, hok, hall, rfl, rfl⟩
      · exact .inl ⟨e, by simp [splitPrepared, herror, bind, Except.bind], r,
          List.mem_cons_of_mem _ hr, he⟩
      · right
        cases found with
        | some chunk =>
          refine ⟨_, _, by simp only [splitPrepared, hok]; rfl, ?_, ?_, ?_⟩
          · simpa using hall
          · simp [Except.toOption]
          · simp [Except.toOption, Except.map]
        | none =>
          refine ⟨_, _, by simp only [splitPrepared, hok]; rfl, ?_, ?_, ?_⟩
          · simpa using hall
          · simp [Except.toOption]
          · simp [Except.toOption, Except.map]

theorem prepareChunkPayment_eq_ok {net : Network} {chain : Chain} {order : Unordered QuoteResult}
    {content : Bytes} {chunk : PreparedChunk}
    (h : prepareChunkPayment P C client net chain order content = .ok (some chunk)) :
    chunk.content = content ∧ chunk.address = computeAddress P content := by
  unfold prepareChunkPayment at h
  split at h
  · obtain ⟨_, -, h⟩ := bind_eq_ok.1 h
    cases h
    exact ⟨rfl, rfl⟩
  · cases h
  · cases h

/-- The chunks of a wave, each at its address. -/
def NamedPrepared (P : Primitives) (chunks : List PreparedChunk) : Prop :=
  ∀ chunk ∈ chunks, chunk.address = computeAddress P chunk.content

def NamedPaid (P : Primitives) (chunks : List PaidChunk) : Prop :=
  ∀ chunk ∈ chunks, chunk.address = computeAddress P chunk.content

theorem mem_prepareResults {chunks : List Bytes} {r : XorName × Except Error (Option PreparedChunk)}
    (hr : r ∈ prepareResults P C client turn chunks) {chunk : PreparedChunk}
    (hc : r.2 = .ok (some chunk)) :
    chunk.address = r.1 ∧ chunk.address = computeAddress P chunk.content := by
  rw [prepareResults, Unordered.mem_order] at hr
  obtain ⟨content, -, rfl⟩ := List.mem_map.1 hr
  obtain ⟨hcontent, haddress⟩ := prepareChunkPayment_eq_ok hc
  exact ⟨haddress, by rw [haddress, hcontent]⟩

/-- Where all succeed, each chunk is to be paid for or stored already. -/
theorem prepared_perm {results : List (XorName × Except Error (Option PreparedChunk))}
    (hall : ∀ r ∈ results, ∃ found, r.2 = .ok found)
    (hnamed : ∀ r ∈ results, ∀ chunk, r.2 = .ok (some chunk) → chunk.address = r.1) :
    ((results.filterMap fun r => r.2.toOption.join).map PreparedChunk.address ++
      results.filterMap fun r =>
        if (r.2.map Option.isNone).toOption = some true then some r.1 else none).Perm
      (results.map Prod.fst) := by
  induction results with
  | nil => rfl
  | cons r results ih =>
    obtain ⟨address, result⟩ := r
    obtain ⟨found, rfl⟩ := hall _ (List.mem_cons_self ..)
    have ih := ih (fun r hr => hall r (List.mem_cons_of_mem _ hr))
      fun r hr => hnamed r (List.mem_cons_of_mem _ hr)
    cases found with
    | some chunk =>
      have haddress := hnamed _ (List.mem_cons_self ..) chunk rfl
      simp only at haddress
      simpa [Except.toOption, Except.map, haddress] using ih
    | none =>
      simp only [Except.toOption, Except.map] at ih ⊢
      simpa using List.perm_middle.trans (ih.cons _)

def prepareEvent (r : XorName × Except Error (Option PreparedChunk)) : Event :=
  .prepare r.1 (r.2.map Option.isNone)

theorem foundIn_prepareEvents (results : List (XorName × Except Error (Option PreparedChunk))) :
    foundIn (results.map prepareEvent) = results.filterMap fun r =>
      if (r.2.map Option.isNone).toOption = some true then some r.1 else none := by
  induction results with
  | nil => rfl
  | cons r results ih =>
    obtain ⟨address, result⟩ := r
    rw [List.map_cons, foundIn, List.flatMap_cons, ← foundIn, ih]
    rcases result with e | found
    · simp [prepareEvent, Event.found, Except.map, Except.toOption]
    · cases found <;> simp [prepareEvent, Event.found, Except.map, Except.toOption]

/-- What the preparation of a wave leaves behind. -/
def PrepareDone (P : Primitives) (addresses : List XorName) (log : List Event)
    (result : Except Error (List PreparedChunk × List XorName)) (log' : List Event) : Prop :=
  ∃ events, log' = log ++ events ∧ paidIn events = [] ∧ charges events = [] ∧
    storedIn events = [] ∧
    match result with
    | .ok (prepared, alreadyStored) => foundIn events = alreadyStored ∧
      (prepared.map PreparedChunk.address ++ alreadyStored).Perm addresses ∧
      NamedPrepared P prepared ∧ ∀ e ∈ events, ¬ e.Failed
    | .error _ => ∃ e ∈ events, e.Failed

/-- A wave is prepared to the end. -/
theorem prepareWave_post (chunks : List Bytes) (log : List Event) :
    Act.Post (prepareWave P C client turn chunks) log
      (PrepareDone P (chunks.map (computeAddress P)) log) R := by
  set results := prepareResults P C client turn chunks
  refine Act.post_bind (Act.post_modify (Act.post_pure ⟨results.map prepareEvent, rfl, ?_, ?_, ?_, ?_⟩))
  · rw [paidIn, List.flatMap_map]
    exact List.flatMap_eq_nil_iff.2 fun _ _ => rfl
  · rw [charges, List.filterMap_map]
    exact List.filterMap_eq_nil_iff.2 fun _ _ => rfl
  · rw [storedIn, List.flatMap_map]
    exact List.flatMap_eq_nil_iff.2 fun _ _ => rfl
  · rcases splitPrepared_cases results with
      ⟨e, herror, r, hr, he⟩ | ⟨prepared, alreadyStored, hok, hall, rfl, rfl⟩
    · rw [herror]
      refine ⟨_, List.mem_map_of_mem hr, ?_⟩
      rw [prepareEvent, he]
      trivial
    · rw [hok]
      refine ⟨foundIn_prepareEvents _, ?_, ?_, ?_⟩
      · refine (prepared_perm hall fun r hr _ hc => (mem_prepareResults hr hc).1).trans ?_
        refine ((turn.prepareOrder.perm _).map _).trans ?_
        rw [List.map_map]
        rfl
      · intro chunk hchunk
        obtain ⟨r, hr, hc⟩ := List.mem_filterMap.1 hchunk
        obtain ⟨found, hfound⟩ := hall r hr
        rw [hfound] at hc
        exact (mem_prepareResults hr (hfound.trans (congrArg Except.ok hc))).2
      · intro e he
        obtain ⟨r, hr, rfl⟩ := List.mem_map.1 he
        obtain ⟨found, hfound⟩ := hall r hr
        rw [prepareEvent, hfound]
        exact id

theorem storeChunk_eq_ok {net : Network} {order : ℕ → Unordered (PeerId × ℕ)} {chunk : PaidChunk}
    {address : XorName} (h : storeChunk P C client net order chunk = .ok address) :
    address = computeAddress P chunk.content := by
  obtain ⟨s, r, hput, -⟩ := chunkPutToCloseGroup_ends (C := C) P client net order chunk.content
    chunk.proofBytes (le_refl (turnsOf chunk.quotedPeers))
  rw [storeChunk, hput] at h
  cases r with
  | error e => cases h
  | ok a =>
    cases h
    exact putLoop_eq_ok hput

def storeEvent (r : XorName × Except Error XorName) : Event := .store r.1 r.2

/-- What the stores of a wave leave behind. -/
def StoreDone (addresses : List XorName) (log : List Event) (result : Except Error (List XorName))
    (log' : List Event) : Prop :=
  ∃ events, log' = log ++ events ∧ paidIn events = [] ∧ charges events = [] ∧
    foundIn events = [] ∧ (storedIn events).Perm addresses ∧
    match result with
    | .ok stored => stored = storedIn events ∧ ∀ e ∈ events, ¬ e.Failed
    | .error _ => ∃ e ∈ events, e.Failed

/-- A wave is stored to the end. -/
theorem storePaidChunks_post {paid : List PaidChunk} (hnamed : NamedPaid P paid)
    (log : List Event) : Act.Post (storePaidChunks P C client turn paid) log
      (StoreDone (paid.map PaidChunk.address) log) R := by
  set results := storeResults P C client turn paid
  have hstored : storedIn (results.map storeEvent) = results.map Prod.fst := by
    rw [storedIn, List.flatMap_map]
    exact List.flatMap_pure_eq_map _ _
  have hresults : ∀ r ∈ results, ∀ address, r.2 = .ok address → address = r.1 := by
    intro r hr address haddress
    rw [show results = storeResults P C client turn paid from rfl, storeResults,
      Unordered.mem_order] at hr
    obtain ⟨chunk, hchunk, rfl⟩ := List.mem_map.1 hr
    rw [storeChunk_eq_ok haddress, hnamed chunk hchunk]
  refine Act.post_bind (Act.post_modify (Act.post_pure
    ⟨results.map storeEvent, rfl, ?_, ?_, ?_, ?_, ?_⟩))
  · rw [paidIn, List.flatMap_map]
    exact List.flatMap_eq_nil_iff.2 fun _ _ => rfl
  · rw [charges, List.filterMap_map]
    exact List.filterMap_eq_nil_iff.2 fun _ _ => rfl
  · rw [foundIn, List.flatMap_map]
    exact List.flatMap_eq_nil_iff.2 fun _ _ => rfl
  · rw [hstored]
    refine ((turn.storeOrder.perm _).map _).trans ?_
    rw [List.map_map]
    rfl
  · rcases hm : results.mapM Prod.snd with e | stored
    · by_contra hnone
      have hall : ∀ r ∈ results, r.2 = .ok r.1 := by
        intro r hr
        rcases hr2 : r.2 with e | address
        · refine absurd ⟨_, List.mem_map_of_mem hr, ?_⟩ hnone
          rw [storeEvent, hr2]
          trivial
        · rw [hresults r hr address hr2]
      rw [mapM_ok_map hall] at hm
      cases hm
    · have hall := mapM_eq_ok.1 hm
      have hok : ∀ r ∈ results, r.2 = .ok r.1 := by
        intro r hr
        obtain ⟨address, haddress⟩ := ok_of_mem hall hr
        rw [haddress, hresults r hr address haddress]
      rw [mapM_ok_map hok] at hm
      cases hm
      refine ⟨hstored.symm, fun e he => ?_⟩
      obtain ⟨r, hr, rfl⟩ := List.mem_map.1 he
      rw [storeEvent, hok r hr]
      exact id

theorem storePending_post {pending : Option (List PaidChunk)}
    (hnamed : NamedPaid P (pending.getD [])) (log : List Event) :
    Act.Post (storePending P C client turn pending) log
      (StoreDone ((pending.getD []).map PaidChunk.address) log) R := by
  cases pending with
  | none => exact Act.post_pure ⟨[], by simp [paidIn, charges, foundIn, storedIn]⟩
  | some paid => exact storePaidChunks_post hnamed log

theorem buildPaidChunks_eq_ok {prepared : List PreparedChunk} {txs : Lookup QuoteHash TxHash}
    {paid : List PaidChunk} (h : buildPaidChunks C prepared txs = .ok paid) :
    List.Forall₂ (fun (c : PreparedChunk) (p : PaidChunk) =>
      p.address = c.address ∧ p.content = c.content) prepared paid := by
  rw [buildPaidChunks, mapM_eq_ok] at h
  refine h.imp fun c p hp => ?_
  simp only [buildPaidChunk, bind_eq_ok] at hp
  obtain ⟨_, -, _, -, hp⟩ := hp
  cases hp
  exact ⟨rfl, rfl⟩

theorem namedPaid_of_forall₂ {prepared : List PreparedChunk} {paid : List PaidChunk}
    (h : List.Forall₂ (fun (c : PreparedChunk) (p : PaidChunk) =>
      p.address = c.address ∧ p.content = c.content) prepared paid)
    (hnamed : NamedPrepared P prepared) :
    paid.map PaidChunk.address = prepared.map PreparedChunk.address ∧ NamedPaid P paid := by
  induction h with
  | nil => exact ⟨rfl, by simp [NamedPaid]⟩
  | @cons c p cs ps hcp _ ih =>
    obtain ⟨hmap, hpaid⟩ := ih fun c hc => hnamed c (List.mem_cons_of_mem _ hc)
    refine ⟨by rw [List.map_cons, List.map_cons, hmap, hcp.1], fun q hq => ?_⟩
    rcases List.mem_cons.1 hq with rfl | hq
    · rw [hcp.1, hcp.2, hnamed c (List.mem_cons_self ..)]
    · exact hpaid q hq

theorem batchPay_eq_ok {chain : Chain} {prepared : List PreparedChunk} {paid : List PaidChunk}
    (hnamed : NamedPrepared P prepared) (h : batchPay C client chain prepared = .ok paid) :
    paid.map PaidChunk.address = prepared.map PreparedChunk.address ∧ NamedPaid P paid := by
  unfold batchPay at h
  split_ifs at h with hempty
  · cases h
    rw [List.isEmpty_iff.1 hempty]
    exact ⟨rfl, by simp [NamedPaid]⟩
  · obtain ⟨_, -, h⟩ := bind_eq_ok.1 h
    obtain ⟨_, -, h⟩ := bind_eq_ok.1 h
    exact namedPaid_of_forall₂ (buildPaidChunks_eq_ok h) hnamed

theorem chargesFor_of_ok {chain : Chain} {prepared : List PreparedChunk} {paid : List PaidChunk}
    (hempty : prepared.isEmpty = false) (h : batchPay C client chain prepared = .ok paid) :
    chargesFor client chain prepared = true := by
  simp only [batchPay, hempty, Bool.false_eq_true, if_false, bind_eq_ok] at h
  obtain ⟨_, hwallet, txHashMap, hpay, -⟩ := h
  have hwallet : client.wallet = true := by
    by_contra hnone
    simp [Client.requireWallet, hnone] at hwallet
  rcases hquotes : chain.payForQuotes (batchPayments prepared) with e | txs
  · rw [hquotes] at hpay
    cases hpay
  · simp [chargesFor, hwallet, hquotes, Except.toOption]

/-- A wave is paid for. -/
theorem payWave_post {prepared : List PreparedChunk} (hnamed : NamedPrepared P prepared)
    (hempty : prepared.isEmpty = false) (log : List Event) :
    Act.Post (payWave C client turn prepared) log
      (fun paid log' => log' = log ++ [.charged (prepared.map PreparedChunk.address)] ++
          [.pay (prepared.map PreparedChunk.address) (.ok ())] ∧
        paid.map PaidChunk.address = prepared.map PreparedChunk.address ∧ NamedPaid P paid)
      fun e log' => ∃ charge ∈ [[], [.charged (prepared.map PreparedChunk.address)]],
        log' = log ++ charge ++ [.pay (prepared.map PreparedChunk.address) (.error e)] := by
  refine Act.post_bind (Act.post_modify (Act.post_bind (Act.post_modify
    (Act.post_ofExcept (fun paid hok => ?_) fun e herror => ?_))))
  · rw [hok, if_pos (chargesFor_of_ok hempty hok)]
    exact ⟨rfl, batchPay_eq_ok hnamed hok⟩
  · refine ⟨_, ?_, by rw [herror]; rfl⟩
    split_ifs <;> simp

/-! ## A whole upload -/

/-- While the upload goes on: every address of the waves that are `gone` has been paid for or found,
    and what is paid for is stored or pending. -/
structure Uploading (P : Primitives) (duplicates gone : List XorName)
    (s : Option (List PaidChunk) × List XorName) (log : List Event) : Prop where
  once : (paidIn log ++ foundIn log).Perm gone
  charged : (charges log).flatten = paidIn log
  pending : (storedIn log ++ (s.1.getD []).map PaidChunk.address).Perm (paidIn log)
  addresses : s.2.Perm (duplicates ++ foundIn log ++ storedIn log)
  named : NamedPaid P (s.1.getD [])
  succeeds : ∀ e ∈ log, ¬ e.Failed
  paysFirst : PaysFirst log

/-- Where the upload fails: nothing is paid twice, and what is paid for has been stored. -/
structure FailsCleanly (total : List XorName) (log : List Event) : Prop where
  once : (paidIn log).Subperm total
  charged : (charges log).flatten.Subperm total
  stored : paidIn log ⊆ storedIn log
  failed : ∃ e ∈ log, e.Failed
  paysFirst : PaysFirst log

variable {duplicates gone total : List XorName} {s : Option (List PaidChunk) × List XorName}

theorem Uploading.start : Uploading P duplicates [] (none, duplicates) [] where
  once := .rfl
  charged := rfl
  pending := .rfl
  addresses := by simp [foundIn, storedIn]
  named := by simp [NamedPaid]
  succeeds := nofun
  paysFirst := by
    intro before address result after h
    simp at h

theorem Uploading.paid_subperm (h : Uploading P duplicates gone s log) :
    (paidIn log).Subperm gone :=
  List.Subperm.trans (List.sublist_append_left _ _).subperm h.once.subperm

/-- The pending wave has been stored, and what is done besides pays for nothing. -/
structure Stored (log log' : List Event) : Prop where
  paid : paidIn log' = paidIn log
  charged : charges log' = charges log
  stored : (storedIn log').Perm (paidIn log)
  paysFirst : PaysFirst log'

theorem Uploading.stored (h : Uploading P duplicates gone s log) {events stores : List Event}
    (hpaid : paidIn events = []) (hcharges : charges events = []) (hstored : storedIn events = [])
    (hpaid' : paidIn stores = []) (hcharges' : charges stores = [])
    (hperm : (storedIn stores).Perm ((s.1.getD []).map PaidChunk.address)) :
    Stored log (log ++ events ++ stores) := by
  have hsub : storedIn (events ++ stores) ⊆ paidIn log := by
    rw [storedIn_append, hstored, List.nil_append]
    intro a ha
    exact h.pending.subset (List.mem_append_right _ (hperm.subset ha))
  refine ⟨by simp [hpaid, hpaid'], by simp [hcharges, hcharges'], ?_, ?_⟩
  · rw [storedIn_append, storedIn_append, hstored, List.append_nil]
    exact (hperm.append_left _).trans h.pending
  · rw [List.append_assoc]
    exact h.paysFirst.append hsub

theorem Uploading.storedAll (h : Uploading P duplicates gone s log) {stores : List Event}
    (hpaid : paidIn stores = []) (hcharges : charges stores = [])
    (hperm : (storedIn stores).Perm ((s.1.getD []).map PaidChunk.address)) :
    Stored log (log ++ stores) := by
  have hnone : charges [] = [] := rfl
  have hdone := h.stored rfl hnone rfl hpaid hcharges hperm
  rwa [List.append_nil] at hdone

theorem Stored.fail {log' : List Event} (h : Stored log log')
    (hcharged : (charges log).flatten = paidIn log) (htotal : (paidIn log).Subperm total)
    (hfailed : ∃ e ∈ log', e.Failed) : FailsCleanly total log' where
  once := h.paid ▸ htotal
  charged := by rwa [h.charged, hcharged]
  stored := h.paid ▸ h.stored.symm.subset
  failed := hfailed
  paysFirst := h.paysFirst

/-- Between the two: everything that is paid for is stored, and `wave` is still to be paid for. -/
structure Prepared (duplicates gone : List XorName) (wave : List XorName)
    (allAddresses : List XorName) (log : List Event) : Prop where
  once : (paidIn log ++ wave ++ foundIn log).Perm gone
  charged : (charges log).flatten = paidIn log
  stored : (storedIn log).Perm (paidIn log)
  addresses : allAddresses.Perm (duplicates ++ foundIn log ++ storedIn log)
  succeeds : ∀ e ∈ log, ¬ e.Failed
  paysFirst : PaysFirst log

theorem Prepared.none {allAddresses : List XorName}
    (h : Prepared duplicates gone [] allAddresses log) :
    Uploading P duplicates gone (none, allAddresses) log where
  once := by simpa using h.once
  charged := h.charged
  pending := by simpa using h.stored
  addresses := h.addresses
  named := by simp [NamedPaid]
  succeeds := h.succeeds
  paysFirst := h.paysFirst

theorem Prepared.pay {allAddresses wave : List XorName} {paid : List PaidChunk}
    (h : Prepared duplicates gone wave allAddresses log) (hnamed : NamedPaid P paid)
    (hpaid : paid.map PaidChunk.address = wave) :
    Uploading P duplicates gone (some paid, allAddresses)
      (log ++ [.charged wave] ++ [.pay wave (.ok ())]) := by
  have hpaidIn : paidIn (log ++ [.charged wave] ++ [.pay wave (.ok ())]) = paidIn log ++ wave := by
    simp [paidIn, Event.paid]
  have hfound : foundIn (log ++ [.charged wave] ++ [.pay wave (.ok ())]) = foundIn log := by
    simp [foundIn, Event.found]
  have hstored : storedIn (log ++ [.charged wave] ++ [.pay wave (.ok ())]) = storedIn log := by
    simp [storedIn, Event.stored]
  have hcharges : charges (log ++ [.charged wave] ++ [.pay wave (.ok ())]) =
      charges log ++ [wave] := by simp [charges, Event.charge]
  constructor
  · rw [hpaidIn, hfound]
    exact h.once
  · rw [hcharges, hpaidIn, List.flatten_append, h.charged, List.flatten_singleton]
  · rw [hpaidIn, hstored, Option.getD_some, hpaid]
    exact h.stored.append_right wave
  · rw [hfound, hstored]
    exact h.addresses
  · exact hnamed
  · intro e he
    simp only [List.mem_append, List.mem_singleton] at he
    rcases he with (he | rfl) | rfl
    · exact h.succeeds e he
    · exact id
    · exact id
  · rw [List.append_assoc]
    exact h.paysFirst.append (List.nil_subset _)

/-- A payment that fails may have been made on chain, once. -/
theorem Prepared.fail {allAddresses wave : List XorName} {e : Error} {charge : List Event}
    (h : Prepared duplicates gone wave allAddresses log)
    (htotal : (paidIn log ++ wave).Subperm total) (hcharge : charge ∈ [[], [.charged wave]]) :
    FailsCleanly total (log ++ charge ++ [.pay wave (.error e)]) := by
  have hpaid : paidIn (log ++ charge ++ [.pay wave (.error e)]) = paidIn log := by
    simp only [List.mem_cons, List.not_mem_nil, or_false] at hcharge
    rcases hcharge with rfl | rfl
    · simp [paidIn, Event.paid]
    · simp [paidIn, Event.paid]
  have hstored : storedIn (log ++ charge ++ [.pay wave (.error e)]) = storedIn log := by
    simp only [List.mem_cons, List.not_mem_nil, or_false] at hcharge
    rcases hcharge with rfl | rfl
    · simp [storedIn, Event.stored]
    · simp [storedIn, Event.stored]
  refine ⟨?_, ?_, ?_, ⟨_, List.mem_append_right _ (List.mem_singleton_self _), trivial⟩, ?_⟩
  · rw [hpaid]
    exact List.Subperm.trans (List.sublist_append_left _ _).subperm htotal
  · simp only [List.mem_cons, List.not_mem_nil, or_false] at hcharge
    rcases hcharge with rfl | rfl
    · have hcharges : charges (log ++ [] ++ [.pay wave (.error e)]) = charges log := by
        simp [charges, Event.charge]
      rw [hcharges, h.charged]
      exact List.Subperm.trans (List.sublist_append_left _ _).subperm htotal
    · have hcharges : charges (log ++ [.charged wave] ++ [.pay wave (.error e)]) =
          charges log ++ [wave] := by simp [charges, Event.charge]
      rwa [hcharges, List.flatten_append, h.charged, List.flatten_singleton]
  · rw [hpaid, hstored]
    exact h.stored.symm.subset
  · rw [List.append_assoc]
    refine h.paysFirst.append ?_
    simp only [List.mem_cons, List.not_mem_nil, or_false] at hcharge
    rcases hcharge with rfl | rfl <;> exact List.nil_subset _

/-- The end of a turn. -/
theorem payPrepared_post {prepared : List PreparedChunk} {allAddresses : List XorName}
    (hnamed : NamedPrepared P prepared)
    (h : Prepared duplicates gone (prepared.map PreparedChunk.address) allAddresses log)
    (htotal : gone.Subperm total) :
    Act.Post (if prepared.isEmpty then pure (none, allAddresses)
      else do
        let paidChunks ← payWave C client turn prepared
        pure (some paidChunks, allAddresses)) log
      (Uploading P duplicates gone) fun _ log' => FailsCleanly total log' := by
  have hwave : (paidIn log ++ prepared.map PreparedChunk.address).Subperm total :=
    (List.Subperm.trans (List.sublist_append_left _ _).subperm h.once.subperm).trans htotal
  split_ifs with hempty
  · rw [List.isEmpty_iff.1 hempty] at h
    exact Act.post_pure h.none
  · refine Act.post_bind ?_
    rcases payWave_post hnamed (Bool.eq_false_iff.2 hempty) log with
      ⟨paid, _, hpay, rfl, hpaid, hpaidNamed⟩ | ⟨e, _, hpay, charge, hcharge, rfl⟩
    · exact .inl ⟨paid, _, hpay, Act.post_pure (h.pay hpaidNamed hpaid)⟩
    · exact .inr ⟨e, _, hpay, h.fail hwave hcharge⟩

/-- **One turn of the loop.** -/
theorem uploadWave_post (h : Uploading P duplicates gone s log) (wave : Turn × List Bytes)
    (hgone : (gone ++ wave.2.map (computeAddress P)).Subperm total) :
    Act.Post (uploadWave P C client s wave) log
      (Uploading P duplicates (gone ++ wave.2.map (computeAddress P)))
      fun _ log' => FailsCleanly total log' := by
  refine Act.post_bind ((prepareWave_post wave.2 log).mono ?_)
  rintro prepareResult _ ⟨events, rfl, hpaid, hcharges, hstored, hprepare⟩
  refine Act.post_bind ((storePending_post h.named _).mono ?_)
  rintro storeResult _ ⟨stores, rfl, hpaid', hcharges', hfound', hperm, hstore⟩
  have hdone := h.stored hpaid hcharges hstored hpaid' hcharges' hperm
  have hpaidTotal : (paidIn log).Subperm total :=
    (h.paid_subperm.trans (List.sublist_append_left _ _).subperm).trans hgone
  have hfails := hdone.fail h.charged hpaidTotal
  refine Act.post_bind (Act.post_ofExcept ?_ ?_)
  · rintro stored rfl
    obtain ⟨rfl, hstores⟩ := hstore
    refine Act.post_bind (Act.post_ofExcept ?_ ?_)
    · rintro ⟨prepared, alreadyStored⟩ rfl
      obtain ⟨rfl, hwave, hnamed, hevents⟩ := hprepare
      refine payPrepared_post hnamed ⟨?_, ?_, ?_, ?_, ?_, hdone.paysFirst⟩ hgone
      · rw [List.perm_iff_count]
        intro a
        have hcount := h.once.count_eq a
        have hcount' := hwave.count_eq a
        rw [hdone.paid]
        simp only [List.count_append] at hcount hcount'
        simp only [foundIn_append, List.count_append, hfound', List.count_nil]
        omega
      · rw [hdone.charged, hdone.paid, h.charged]
      · rw [hdone.paid]
        exact hdone.stored
      · rw [List.perm_iff_count]
        intro a
        have hcount := h.addresses.count_eq a
        simp only [List.count_append] at hcount
        simp only [foundIn_append, storedIn_append, List.count_append, hfound', hstored,
          List.count_nil]
        omega
      · intro e he
        simp only [List.mem_append] at he
        rcases he with (he | he) | he
        · exact h.succeeds e he
        · exact hevents e he
        · exact hstores e he
    · rintro e rfl
      obtain ⟨e, he, hfailed⟩ := hprepare
      exact hfails ⟨e, by simp [he], hfailed⟩
  · rintro e rfl
    obtain ⟨e, he, hfailed⟩ := hstore
    exact hfails ⟨e, by simp [he], hfailed⟩

variable (P C client) in
theorem uploadWaves_post (waves : List (Turn × List Bytes)) (duplicates : List XorName) :
    Act.Post (waves.foldlM (uploadWave P C client) (none, duplicates)) []
      (Uploading P duplicates ((waves.flatMap Prod.snd).map (computeAddress P)))
      fun _ log' => FailsCleanly ((waves.flatMap Prod.snd).map (computeAddress P)) log' := by
  refine Act.post_foldlM (I := fun gone => Uploading P duplicates
    ((gone.flatMap Prod.snd).map (computeAddress P))) ?_ waves [] _ _ rfl Uploading.start
  rintro gone wave rest s log rfl h
  have hgone : ((gone.flatMap Prod.snd).map (computeAddress P) ++
      wave.2.map (computeAddress P)).Subperm
        (((gone ++ wave :: rest).flatMap Prod.snd).map (computeAddress P)) := by
    rw [List.flatMap_append, List.map_append, List.flatMap_cons, List.map_append,
      ← List.append_assoc]
    exact (List.sublist_append_left _ _).subperm
  rw [List.flatMap_append, List.map_append, List.flatMap_singleton]
  exact uploadWave_post h wave hgone

theorem nodup_of_subperm {l l' : List XorName} (h : l.Subperm l') (hnodup : l'.Nodup) :
    l.Nodup := by
  obtain ⟨l₀, hperm, hsub⟩ := h
  exact hperm.nodup_iff.1 (hnodup.sublist hsub)

/-- What has come of an address: found in the network, or paid for in one payment and stored once. -/
def FoundOrPaid (log : List Event) (address : XorName) : Prop :=
  ((foundIn log).count address = 1 ∧ address ∉ paidIn log ∧ address ∉ storedIn log) ∨
    (address ∉ foundIn log ∧ (paidIn log).count address = 1 ∧ (storedIn log).count address = 1)

/-- Once the last wave is stored, nothing is pending. -/
theorem Uploading.finish (h : Uploading P duplicates gone s log) {stored : List XorName}
    {log' : List Event}
    (hstore : StoreDone ((s.1.getD []).map PaidChunk.address) log (.ok stored) log') :
    Uploading P duplicates gone (none, s.2 ++ stored) log' := by
  obtain ⟨stores, rfl, hpaid, hcharges, hfound, hperm, rfl, hstores⟩ := hstore
  have hdone := h.storedAll hpaid hcharges hperm
  refine Prepared.none ⟨?_, ?_, ?_, ?_, ?_, hdone.paysFirst⟩
  · simpa [hdone.paid, hfound] using h.once
  · rw [hdone.charged, hdone.paid, h.charged]
  · rw [hdone.paid]
    exact hdone.stored
  · rw [foundIn_append, storedIn_append, hfound, List.append_nil, ← List.append_assoc]
    exact h.addresses.append_right _
  · intro e he
    rcases List.mem_append.1 he with he | he
    · exact h.succeeds e he
    · exact hstores e he

theorem Uploading.fail (h : Uploading P duplicates gone s log) {e : Error} {log' : List Event}
    (hstore : StoreDone ((s.1.getD []).map PaidChunk.address) log (.error e) log') :
    FailsCleanly gone log' := by
  obtain ⟨stores, rfl, hpaid, hcharges, -, hperm, e, he, hfailed⟩ := hstore
  have hdone := h.storedAll hpaid hcharges hperm
  exact hdone.fail h.charged h.paid_subperm ⟨e, List.mem_append_right _ he, hfailed⟩

/-- An address of a finished upload that has no repetition. -/
theorem Uploading.foundOrPaid {allAddresses : List XorName}
    (h : Uploading P duplicates gone (none, allAddresses) log) (hnodup : gone.Nodup)
    {address : XorName} (haddress : address ∈ gone) : FoundOrPaid log address := by
  have honce := h.once.count_eq address
  rw [List.count_append, List.count_eq_one_of_mem hnodup haddress] at honce
  have hstored := h.pending.count_eq address
  simp only [Option.getD_none, List.map_nil, List.append_nil] at hstored
  rw [FoundOrPaid, ← List.count_eq_zero, ← List.count_eq_zero, ← List.count_eq_zero]
  omega

variable (P C client) in
theorem batchUploadChunks_post (waves : WaveSplit) (turns : ℕ → Turn) (chunks : List Bytes) :
    Act.Post (batchUploadChunks P C client waves turns chunks) []
      (fun addresses log => Uploading P (dedupChunks P chunks).2
        ((dedupChunks P chunks).1.map (computeAddress P)) (none, addresses) log)
      fun _ log => FailsCleanly ((dedupChunks P chunks).1.map (computeAddress P)) log := by
  unfold batchUploadChunks
  split_ifs with hempty
  · rw [List.isEmpty_iff.1 hempty]
    exact Act.post_pure Uploading.start
  · have hwaves : ((waves.split (dedupChunks P chunks).1).mapIdx fun i wave =>
        (turns i, wave)).flatMap Prod.snd = (dedupChunks P chunks).1 := by
      conv_rhs => rw [← waves.flatten_split (dedupChunks P chunks).1]
      rw [List.flatMap_def, List.mapIdx_eq_zipIdx_map, List.map_map]
      exact congrArg List.flatten (List.zipIdx_map_fst _ _)
    have hpost := uploadWaves_post P C client
      ((waves.split (dedupChunks P chunks).1).mapIdx fun i wave => (turns i, wave))
      (dedupChunks P chunks).2
    rw [hwaves] at hpost
    refine Act.post_bind (hpost.mono ?_)
    rintro ⟨pendingStore, allAddresses⟩ log h
    refine Act.post_bind ((storePending_post h.named _).mono ?_)
    intro storeResult log' hstore
    refine Act.post_bind (Act.post_ofExcept ?_ ?_)
    · rintro stored rfl
      exact Act.post_pure (h.finish hstore)
    · rintro e rfl
      exact h.fail hstore

/-- **An upload in waves conserves its chunks**, however they are split into waves and in whatever
    order the futures complete. -/
theorem batchUploadChunks_conserves (P : Primitives) (C : ClientEvm) (client : Client)
    (waves : WaveSplit) (turns : ℕ → Turn) (chunks : List Bytes) :
    ∃ result log, batchUploadChunks P C client waves turns chunks [] = some (result, log) ∧
      (paidIn log).Nodup ∧ PaysFirst log ∧
      match result with
      | .ok addresses => addresses.Perm (chunks.map (computeAddress P)) ∧
          (∀ e ∈ log, ¬ e.Failed) ∧
          (∀ address ∈ chunks.map (computeAddress P), FoundOrPaid log address) ∧
          paidIn log ⊆ chunks.map (computeAddress P)
      | .error _ => (∃ e ∈ log, e.Failed) ∧ paidIn log ⊆ storedIn log := by
  obtain ⟨hperm, hnodup⟩ := dedupChunks_perm (P := P) chunks
  rcases batchUploadChunks_post P C client waves turns chunks with
    ⟨addresses, log, hupload, h⟩ | ⟨e, log, hupload, h⟩
  · refine ⟨_, log, hupload, nodup_of_subperm h.paid_subperm hnodup, h.paysFirst, ?_, h.succeeds, ?_, ?_⟩
    · have hstored := h.pending
      simp only [Option.getD_none, List.map_nil, List.append_nil] at hstored
      refine h.addresses.trans (List.Perm.trans ?_ hperm)
      rw [List.append_assoc]
      refine List.perm_append_comm.trans (List.Perm.append_right _ ?_)
      exact ((hstored.append_left _).trans List.perm_append_comm).trans h.once
    · rintro _ haddress
      obtain ⟨c, hc, rfl⟩ := List.mem_map.1 haddress
      obtain ⟨c', hc', he⟩ := (dedupChunks_spec (P := P) chunks).2 c hc
      exact h.foundOrPaid hnodup (he ▸ List.mem_map_of_mem hc')
    · exact List.Subset.trans h.paid_subperm.subset
        (List.Subset.trans (List.subset_append_left _ _) hperm.subset)
  · exact ⟨_, log, hupload, nodup_of_subperm h.once hnodup, h.paysFirst, h.failed, h.stored⟩

end Autonomi.AntClient
