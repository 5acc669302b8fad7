/-
  What an upload pays for more than once.
-/
import Autonomi.Client.Modes
import Autonomi.Client.PartlyStored

namespace Autonomi.AntClient

open Lib AntNode

variable {P : Primitives} {C : MerkleEvm} {client : Client}

/-- No chunk is covered by two payments on chain. -/
def PaidOnce (log : List Event) : Prop := (charges log).Pairwise List.Disjoint

/-! ## Payments in waves -/

section Waves

variable {E : ClientEvm} {turn : Turn}

theorem logs_prepareWave (chunks : List Bytes) : Act.Logs (prepareWave P E client turn chunks) :=
  (Act.logs_modify _).bind fun _ => Act.logs_pure _

theorem logs_storePending (pending : Option (List PaidChunk)) :
    Act.Logs (storePending P E client turn pending) := by
  cases pending with
  | none => exact Act.logs_pure _
  | some paid => exact (Act.logs_modify _).bind fun _ => Act.logs_pure _

theorem logs_payWave (prepared : List PreparedChunk) : Act.Logs (payWave E client turn prepared) :=
  (Act.logs_modify _).bind fun _ => (Act.logs_modify _).bind fun _ => Act.logs_ofExcept _

theorem logs_uploadWave (s : Option (List PaidChunk) × List XorName) (wave : Turn × List Bytes) :
    Act.Logs (uploadWave P E client s wave) := by
  refine (logs_prepareWave _).bind fun prepareResult => (logs_storePending _).bind fun storeResult =>
    (Act.logs_ofExcept _).bind fun stored => (Act.logs_ofExcept _).bind ?_
  rintro ⟨prepared, alreadyStored⟩
  dsimp only
  split_ifs
  · exact Act.logs_pure _
  · exact (logs_payWave _).bind fun _ => Act.logs_pure _

theorem logs_batchUploadChunks (waves : WaveSplit) (turns : ℕ → Turn) (chunks : List Bytes) :
    Act.Logs (batchUploadChunks P E client waves turns chunks) := by
  unfold batchUploadChunks
  split_ifs
  · exact Act.logs_pure _
  · refine (Act.logs_foldlM logs_uploadWave _ _).bind ?_
    rintro ⟨pendingStore, allAddresses⟩
    exact (logs_storePending _).bind fun _ => (Act.logs_ofExcept _).bind fun _ => Act.logs_pure _

variable (P E client) in
/-- Every payment is for chunks of the upload, and for none of them twice. -/
theorem charges_batchUploadChunks (waves : WaveSplit) (turns : ℕ → Turn) (chunks : List Bytes) :
    ∃ result log, batchUploadChunks P E client waves turns chunks [] = some (result, log) ∧
      (charges log).flatten.Nodup ∧ (charges log).flatten ⊆ chunks.map (computeAddress P) := by
  obtain ⟨hperm, hnodup⟩ := dedupChunks_perm (P := P) chunks
  have hsub : (dedupChunks P chunks).1.map (computeAddress P) ⊆ chunks.map (computeAddress P) :=
    List.Subset.trans (List.subset_append_left _ _) hperm.subset
  rcases batchUploadChunks_post P E client waves turns chunks with
    ⟨addresses, log, hupload, h⟩ | ⟨e, log, hupload, h⟩
  · refine ⟨_, log, hupload, ?_, ?_⟩
    · rw [h.charged]
      exact nodup_of_subperm h.paid_subperm hnodup
    · rw [h.charged]
      exact List.Subset.trans h.paid_subperm.subset hsub
  · exact ⟨_, log, hupload, nodup_of_subperm h.charged hnodup,
      List.Subset.trans h.charged.subset hsub⟩

/-- The close group can be quoted, for some answers of the network. -/
def CanBeQuoted (E : ClientEvm) (client : Client) : Prop :=
  ∃ net order request quotes, getStoreQuotes E client net order request = .ok quotes

theorem canBeQuoted_of_prepared {net : Network} {chain : Chain} {order : Unordered QuoteResult}
    {content : Bytes} {chunk : PreparedChunk}
    (h : prepareChunkPayment P E client net chain order content = .ok (some chunk)) :
    CanBeQuoted E client := by
  unfold prepareChunkPayment at h
  split at h
  · exact ⟨net, order, _, _, ‹_›⟩
  · cases h
  · cases h

/-- Answers every request as `net` answers this one. -/
def answersAs (net : Network) (request : ChunkQuoteRequest) : Network where
  p2p := { net.p2p with
    findClosestNodes := fun _ count => net.p2p.findClosestNodes request.address count
    sendMessage := fun turn peer _ => net.p2p.sendMessage turn peer
      (ChunkMessage.encode ⟨net.requestIds turn, .quoteRequest request⟩) }
  peerId := net.peerId
  requestIds := net.requestIds

theorem getStoreQuotes_answersAs (net : Network) (order : Unordered QuoteResult)
    (request request' : ChunkQuoteRequest) :
    getStoreQuotes E client (answersAs net request) order request' =
      getStoreQuotes E client net order request := rfl

theorem length_of_collectQuotes {results : List QuoteResult} :
    ∀ {quotes : List Quoted} {n : ℕ} {failures : List String} {qs : List Quoted},
      collectQuotes E quotes n failures results = .ok qs →
      closeGroupSize ≤ qs.length ∧ qs.length ≤ quotes.length + results.length := by
  induction results with
  | nil =>
    intro quotes n failures qs h
    simp only [collectQuotes] at h
    split_ifs at h with hsize
    cases h
    exact ⟨hsize, le_rfl⟩
  | cons r results ih =>
    intro quotes n failures qs h
    obtain ⟨peer, result⟩ := r
    rcases result with e | ⟨quote, price⟩
    · cases e
      case alreadyStored =>
        simp only [collectQuotes] at h
        split_ifs at h
        have := ih h
        simp only [List.length_cons]
        omega
      all_goals
        have := ih h
        simp only [List.length_cons]
        omega
    · have := ih h
      simp only [List.length_append, List.length_cons, List.length_nil] at this ⊢
      omega

theorem length_of_getStoreQuotes {net : Network} {order : Unordered QuoteResult}
    {request : ChunkQuoteRequest} {quotes : List Quoted}
    (h : getStoreQuotes E client net order request = .ok quotes) :
    quotes.length = closeGroupSize := by
  simp only [getStoreQuotes, bind_eq_ok] at h
  obtain ⟨peers, -, h⟩ := h
  split_ifs at h
  have hlen := length_of_collectQuotes h
  simp only [Unordered.length_order, List.length_map, List.length_zipIdx, List.length_take,
    List.length_nil] at hlen
  omega

/-- Everything is free. -/
def freeChain : Chain where
  getMarketPrice metrics := .ok (metrics.map fun _ => 0)
  payForQuotes _ := .ok []

theorem fromQuotes_free (E : ClientEvm) (quotes : List (PaymentQuote × AntNode.Amount))
    (hlen : quotes.length = closeGroupSize) (hfree : ∀ q ∈ quotes, q.2 = 0) :
    ∃ payment, SingleNodePayment.fromQuotes E.toEvm quotes = .ok payment := by
  have hperm := List.perm_insertionSort (fun a b : PaymentQuote × AntNode.Amount => a.2 ≤ b.2) quotes
  have hsorted : (sortByPrice quotes).length = closeGroupSize := hperm.length_eq.trans hlen
  have hmedian : medianIndex < (sortByPrice quotes).length := by rw [hsorted]; decide
  have hget : (sortByPrice quotes)[medianIndex]? = some (sortByPrice quotes)[medianIndex] :=
    List.getElem?_eq_getElem hmedian
  have hprice : (sortByPrice quotes)[medianIndex].2 = 0 :=
    hfree _ (hperm.subset (List.getElem_mem hmedian))
  have hinfos : (SingleNodePayment.infosOf E.toEvm 0 (sortByPrice quotes)).length = closeGroupSize := by
    rw [SingleNodePayment.infosOf, List.length_mapIdx, hsorted]
  have hmul : checkedMul 0 3 = some 0 := by decide
  refine ⟨⟨_, hinfos⟩, ?_⟩
  simp only [SingleNodePayment.fromQuotes, hlen, ensure, if_true, hget, hprice, hmul, okOr_some,
    bind, Except.bind, hinfos, dif_pos]
  rfl

theorem priceQuotes_free {quotes : List Quoted} (hwallet : client.wallet = true)
    (hlen : quotes.length = closeGroupSize) :
    ∃ r, priceQuotes E client freeChain quotes = .ok r := by
  obtain ⟨payment, hpayment⟩ := fromQuotes_free E
    ((quotes.map fun q => q.2.1).zip (quotes.map fun _ => 0)) (by simp [hlen])
    (by
      intro q hq
      obtain ⟨_, -, h⟩ := List.mem_map.1 (List.of_mem_zip hq).2
      exact h.symm)
  refine ⟨(quotes.map fun q => (q.1.toList, q.2.1), payment), ?_⟩
  simp only [priceQuotes, Client.requireEvmNetwork, hwallet, or_true, if_true, freeChain,
    Except.mapError, bind, Except.bind, List.length_map, ne_eq, not_true_eq_false, if_false,
    List.map_map, Function.comp_def, hpayment]
  rfl

/-- A turn in which every chunk is quoted as `request` is, and paid for. -/
def freeTurn (net : Network) (order : Unordered QuoteResult) (request : ChunkQuoteRequest) :
    Turn where
  quoteNet _ := answersAs net request
  quoteOrder _ := order
  market _ := freeChain
  prepareOrder := .asStarted
  wallet := freeChain
  putNet _ := net
  putOrder _ _ := .asStarted
  storeOrder := .asStarted

variable {net : Network} {order : Unordered QuoteResult} {request : ChunkQuoteRequest}
  {quotes : List Quoted}

theorem prepareChunkPayment_free (hquotes : getStoreQuotes E client net order request = .ok quotes)
    (hwallet : client.wallet = true) (content : Bytes) :
    ∃ chunk, prepareChunkPayment P E client (answersAs net request) freeChain order content =
      .ok (some chunk) ∧ chunk.address = computeAddress P content := by
  obtain ⟨r, hr⟩ := priceQuotes_free (E := E) hwallet (length_of_getStoreQuotes hquotes)
  refine ⟨⟨content, computeAddress P content, quotes.map Prod.fst, r.2, r.1⟩, ?_, rfl⟩
  rw [prepareChunkPayment, getStoreQuotes_answersAs, hquotes]
  simp only [hr, bind, Except.bind]
  rfl

theorem splitPrepared_some {results : List (XorName × Except Error (Option PreparedChunk))}
    (h : ∀ r ∈ results, ∃ chunk, r.2 = .ok (some chunk) ∧ chunk.address = r.1) :
    ∃ prepared, splitPrepared results = .ok (prepared, []) ∧
      prepared.map PreparedChunk.address = results.map Prod.fst := by
  induction results with
  | nil => exact ⟨[], rfl, rfl⟩
  | cons r results ih =>
    obtain ⟨address, result⟩ := r
    obtain ⟨prepared, hsplit, hmap⟩ := ih fun r hr => h r (List.mem_cons_of_mem _ hr)
    obtain ⟨chunk, rfl, haddress⟩ := h _ (List.mem_cons_self ..)
    refine ⟨chunk :: prepared, by simp only [splitPrepared, hsplit]; rfl, ?_⟩
    rw [List.map_cons, List.map_cons, hmap, haddress]

/-- The first wave is paid for. -/
theorem uploadWave_free (hquotes : getStoreQuotes E client net order request = .ok quotes)
    (hwallet : client.wallet = true) {wave : List Bytes} (hwave : wave ≠ [])
    (allAddresses : List XorName) :
    ∃ r log, uploadWave P E client (none, allAddresses) (freeTurn net order request, wave) [] =
      some (r, log) ∧ wave.map (computeAddress P) ∈ charges log := by
  set turn := freeTurn net order request
  have hresults : ∀ r ∈ prepareResults P E client turn wave,
      ∃ chunk, r.2 = .ok (some chunk) ∧ chunk.address = r.1 := by
    intro r hr
    obtain ⟨content, -, rfl⟩ := List.mem_map.1 hr
    exact prepareChunkPayment_free hquotes hwallet content
  obtain ⟨prepared, hsplit, hmap⟩ := splitPrepared_some hresults
  have haddresses : prepared.map PreparedChunk.address = wave.map (computeAddress P) := by
    rw [hmap]
    exact List.map_map ..
  have hempty : prepared.isEmpty = false := by
    rw [List.isEmpty_eq_false_iff]
    rintro rfl
    exact hwave (List.map_eq_nil_iff.1 haddresses.symm)
  have hcharges : chargesFor client turn.wallet prepared = true := by
    rw [chargesFor, hwallet]
    rfl
  set events := (prepareResults P E client turn wave).map prepareEvent
  have hprepare : prepareWave P E client turn wave [] = some (.ok (.ok (prepared, [])), events) := by
    rw [← hsplit]
    rfl
  rw [uploadWave, Act.bind_of_ok hprepare]
  rw [Act.bind_of_ok (rfl : storePending P E client turn none events = some (.ok (.ok []), events))]
  have hpay : payWave E client turn prepared events =
      some (batchPay E client turn.wallet prepared, events ++ [.charged (wave.map (computeAddress P))] ++
        [.pay (wave.map (computeAddress P)) ((batchPay E client turn.wallet prepared).map fun _ => ())]) := by
    rw [payWave, haddresses, hcharges]
    rfl
  have hmem : wave.map (computeAddress P) ∈ charges (events ++
      [.charged (wave.map (computeAddress P))] ++ [.pay (wave.map (computeAddress P))
        ((batchPay E client turn.wallet prepared).map fun _ => ())]) := by
    simp [charges, Event.charge]
  refine ⟨(batchPay E client turn.wallet prepared).map fun paid =>
    (some paid, allAddresses ++ [] ++ []), _, ?_, hmem⟩
  change (if prepared.isEmpty = true then pure (none, allAddresses ++ [] ++ [])
    else payWave E client turn prepared >>= fun paid =>
      pure (some paid, allAddresses ++ [] ++ []) : Upload _) events = _
  rw [if_neg (by simp [hempty])]
  rcases hbatch : batchPay E client turn.wallet prepared with e | paid
  · rw [hbatch] at hpay
    exact Act.bind_of_error hpay
  · rw [hbatch] at hpay
    exact Act.bind_of_ok hpay

theorem dedupChunks_cons (c : Bytes) (chunks : List Bytes) :
    ∃ rest, (dedupChunks P (c :: chunks)).1 = c :: rest := by
  induction chunks using List.reverseRecOn with
  | nil => exact ⟨[], rfl⟩
  | append_singleton chunks d ih =>
    obtain ⟨rest, hrest⟩ := ih
    rw [← List.cons_append, dedupChunks_append_singleton]
    split_ifs
    · exact ⟨rest, hrest⟩
    · exact ⟨rest ++ [d], by rw [hrest]; rfl⟩

/-- **The first chunk is paid for**, where the network and the chain let it. -/
theorem batchUploadChunks_free (hquotes : CanBeQuoted E client) (hwallet : client.wallet = true) :
    ∃ turns, ∀ (c : Bytes) (chunks : List Bytes) result log,
      batchUploadChunks P E client paymentWaves turns (c :: chunks) [] = some (result, log) →
      ∃ wave ∈ charges log, computeAddress P c ∈ wave := by
  obtain ⟨net, order, request, quotes, hquotes⟩ := hquotes
  refine ⟨fun _ => freeTurn net order request, fun c chunks result log h => ?_⟩
  obtain ⟨rest, hrest⟩ := dedupChunks_cons (P := P) c chunks
  obtain ⟨more, hwaves⟩ := chunked_cons (by decide : 0 < paymentWaveSize) c rest
  have hsplit : paymentWaves.split (dedupChunks P (c :: chunks)).1 =
      (c :: rest.take (paymentWaveSize - 1)) :: more := by
    rw [hrest]
    exact hwaves
  set turn := freeTurn net order request
  set duplicates := (dedupChunks P (c :: chunks)).2
  set first := c :: rest.take (paymentWaveSize - 1)
  have hindex : (paymentWaves.split (dedupChunks P (c :: chunks)).1).mapIdx (fun _ wave =>
      (turn, wave)) = (turn, first) :: more.mapIdx fun _ wave => (turn, wave) := by
    rw [hsplit, List.mapIdx_cons]
  obtain ⟨r₀, log₀, hfirst, hcharged⟩ := uploadWave_free (P := P) hquotes hwallet
    (List.cons_ne_nil c (rest.take (paymentWaveSize - 1))) duplicates
  obtain ⟨r₁, log₁, hfold⟩ : ∃ r log, ((paymentWaves.split (dedupChunks P (c :: chunks)).1).mapIdx
      fun _ wave => (turn, wave)).foldlM (uploadWave P E client) (none, duplicates) [] =
        some (r, log) := by
    rcases uploadWaves_post P E client _ duplicates with ⟨s, log, hs, -⟩ | ⟨e, log, he, -⟩
    · exact ⟨_, _, hs⟩
    · exact ⟨_, _, he⟩
  obtain ⟨more₁, rfl⟩ : ∃ more, log₁ = log₀ ++ more := by
    rw [hindex, List.foldlM_cons] at hfold
    exact Act.log_of_bind (fun s => Act.logs_foldlM logs_uploadWave _ s) hfirst hfold
  obtain ⟨more₂, rfl⟩ : ∃ more, log = log₀ ++ more₁ ++ more := by
    refine Act.log_of_bind (fun s => ?_) hfold h
    exact (logs_storePending _).bind fun _ => (Act.logs_ofExcept _).bind fun _ => Act.logs_pure _
  refine ⟨first.map (computeAddress P), ?_, List.mem_cons_self ..⟩
  rw [charges_append, charges_append]
  exact List.mem_append_left _ (List.mem_append_left _ hcharged)

theorem prepareWave_unquoted {R : Error → List Event → Prop} (hquotes : ¬ CanBeQuoted E client)
    (chunks : List Bytes) (log : List Event) :
    Act.Post (prepareWave P E client turn chunks) log (fun result log' =>
      charges log' = charges log ∧ ∀ found, result = .ok found → found.1 = []) R := by
  refine Act.post_bind (Act.post_modify (Act.post_pure ⟨?_, ?_⟩))
  · have hnone : charges ((prepareResults P E client turn chunks).map prepareEvent) = [] := by
      rw [charges, List.filterMap_map]
      exact List.filterMap_eq_nil_iff.2 fun _ _ => rfl
    exact (charges_append _ _).trans (hnone ▸ List.append_nil _)
  · intro found hfound
    rcases splitPrepared_cases (prepareResults P E client turn chunks) with
      ⟨e, herror, -⟩ | ⟨prepared, alreadyStored, hok, -, rfl, -⟩
    · cases herror.symm.trans hfound
    · cases hok.symm.trans hfound
      refine List.filterMap_eq_nil_iff.2 fun r hr => ?_
      rw [prepareResults, Unordered.mem_order] at hr
      obtain ⟨content, -, rfl⟩ := List.mem_map.1 hr
      rcases hprepare : prepareChunkPayment P E client (turn.quoteNet content) (turn.market content)
        (turn.quoteOrder content) content with e | _ | chunk
      · rfl
      · rfl
      · exact absurd (canBeQuoted_of_prepared hprepare) hquotes

theorem uploadWave_unquoted (hquotes : ¬ CanBeQuoted E client) (allAddresses : List XorName)
    (wave : Turn × List Bytes) (log : List Event) :
    Act.Post (uploadWave P E client (none, allAddresses) wave) log
      (fun s log' => s.1 = none ∧ charges log' = charges log)
      fun _ log' => charges log' = charges log := by
  refine Act.post_bind ((prepareWave_unquoted hquotes wave.2 log).mono ?_)
  rintro result log' ⟨hcharges, hnone⟩
  refine Act.post_bind (Act.post_pure (Act.post_bind (Act.post_ofExcept ?_ nofun)))
  rintro stored -
  refine Act.post_bind (Act.post_ofExcept ?_ fun e _ => hcharges)
  rintro ⟨prepared, alreadyStored⟩ hfound
  obtain rfl : prepared = [] := hnone _ hfound
  exact Act.post_pure ⟨rfl, hcharges⟩

/-- Without a quote nothing is paid for. -/
theorem batchUploadChunks_unquoted (hquotes : ¬ CanBeQuoted E client) {waves : WaveSplit}
    {turns : ℕ → Turn} {chunks : List Bytes} {result : Except Error (List XorName)}
    {log : List Event}
    (h : batchUploadChunks P E client waves turns chunks [] = some (result, log)) :
    charges log = [] := by
  have hpost : Act.Post (batchUploadChunks P E client waves turns chunks) []
      (fun _ log => charges log = []) fun _ log => charges log = [] := by
    unfold batchUploadChunks
    split_ifs
    · exact Act.post_pure rfl
    · refine Act.post_bind ((Act.post_foldlM (I := fun _ s log => s.1 = none ∧ charges log = [])
        ?_ _ [] _ _ rfl ⟨rfl, rfl⟩).mono ?_)
      · rintro gone wave rest ⟨_, allAddresses⟩ log - ⟨rfl, hlog⟩
        have hwave := uploadWave_unquoted (P := P) hquotes allAddresses wave log
        rw [hlog] at hwave
        exact hwave
      · rintro ⟨_, allAddresses⟩ log ⟨rfl, hlog⟩
        refine Act.post_bind (Act.post_pure (Act.post_bind (Act.post_ofExcept ?_ nofun)))
        exact fun stored _ => Act.post_pure hlog
  rcases hpost with ⟨_, _, hrun, hlog⟩ | ⟨_, _, hrun, hlog⟩
  · cases hrun.symm.trans h
    exact hlog
  · cases hrun.symm.trans h
    exact hlog

end Waves

/-! ## The merkle payment -/

section Merkle

variable (C client) (dataType : UInt32) (dataSize : UInt64)

/-- The batch is paid for. -/
def Pays (batch : MerkleTurn × List XorName) : Prop :=
  ∃ r, payMerkleTree C client batch.1 batch.2 dataType dataSize = .ok r

/-- The batch is paid for, and its proofs are made. -/
def Completes (batch : MerkleTurn × List XorName) : Prop :=
  ∃ r result, payMerkleTree C client batch.1 batch.2 dataType dataSize = .ok r ∧
    merkleProofs C batch.2 r.1 r.2 = .ok result

/-- The candidates of the batch cannot be found, so it is not paid for. -/
def ShortOfPeers (batch : MerkleTurn × List XorName) : Prop :=
  ∃ msg, payMerkleTree C client batch.1 batch.2 dataType dataSize = .error (.insufficientPeers msg)

/-- A sub-batch is short of peers once another has been paid for. -/
def ShortAfterPaid (batches : List (MerkleTurn × List XorName)) : Prop :=
  ∃ done short rest, batches = done ++ short :: rest ∧ done ≠ [] ∧
    (∀ b ∈ done, Completes C client dataType dataSize b) ∧
    ShortOfPeers C client dataType dataSize short

/-- A sub-batch is paid for that shares a chunk with an earlier one. -/
def RepeatsPaid (batches : List (MerkleTurn × List XorName)) : Prop :=
  ∃ done again rest, batches = done ++ again :: rest ∧
    (∀ b ∈ done, Completes C client dataType dataSize b) ∧
    Pays C client dataType dataSize again ∧ ∃ b ∈ done, ¬ List.Disjoint b.2 again.2

/-- Where the sub-batches end: all are paid for and proved, or one fails. -/
inductive MerkleEnd {α : Type} (batches : List (MerkleTurn × List XorName)) :
    List (MerkleTurn × List XorName) → Except Error α → Prop
  | all {a : α} (h : ∀ b ∈ batches, Completes C client dataType dataSize b) :
      MerkleEnd batches batches (.ok a)
  | unpaid {e : Error} (done : List (MerkleTurn × List XorName)) (b : MerkleTurn × List XorName)
      (rest : List (MerkleTurn × List XorName)) (hsplit : batches = done ++ b :: rest)
      (hdone : ∀ b ∈ done, Completes C client dataType dataSize b)
      (h : payMerkleTree C client b.1 b.2 dataType dataSize = .error e) :
      MerkleEnd batches done (.error e)
  | paid {e : Error} (done : List (MerkleTurn × List XorName)) (b : MerkleTurn × List XorName)
      (rest : List (MerkleTurn × List XorName)) (hsplit : batches = done ++ b :: rest)
      (hdone : ∀ b ∈ done, Completes C client dataType dataSize b)
      (hpays : Pays C client dataType dataSize b) (h : ¬ Completes C client dataType dataSize b)
      (he : ∀ msg, e ≠ .insufficientPeers msg) : MerkleEnd batches (done ++ [b]) (.error e)

/-- Once the payment is made, the lack of peers is no failure. -/
theorem failsWith_merkleProofs (addresses : List XorName)
    (r : PoolHash × List MerklePaymentCandidatePool) :
    FailsWith (fun e => ∀ msg, e ≠ .insufficientPeers msg) (merkleProofs C addresses r.1 r.2) := by
  refine (failsWith_okOr (by simp) _).bind fun winnerPool => ?_
  refine (FailsWith.mapM (fun leaf => ?_) _).bind fun proofs => nofun
  refine (failsWith_mapError (by simp) _).bind fun addressProof => ?_
  exact (failsWith_mapError (by simp) _).bind fun body => nofun

/-- What has been charged for. -/
def chargeEvents (batches : List (MerkleTurn × List XorName)) : List Event :=
  batches.map fun b => .charged b.2

theorem charges_chargeEvents (batches : List (MerkleTurn × List XorName)) :
    charges (chargeEvents batches) = batches.map Prod.snd := by
  rw [charges, chargeEvents, List.filterMap_map]
  exact congrFun List.filterMap_eq_map batches

/-- One sub-batch. -/
theorem payForMerkleSingleBatch_cases (b : MerkleTurn × List XorName) :
    (∃ e, payForMerkleSingleBatch C client b.1 b.2 dataType dataSize [] = some (.error e, []) ∧
      payMerkleTree C client b.1 b.2 dataType dataSize = .error e) ∨
    (∃ e, payForMerkleSingleBatch C client b.1 b.2 dataType dataSize [] =
        some (.error e, [.charged b.2]) ∧ Pays C client dataType dataSize b ∧
      ¬ Completes C client dataType dataSize b ∧ ∀ msg, e ≠ .insufficientPeers msg) ∨
    ∃ result, payForMerkleSingleBatch C client b.1 b.2 dataType dataSize [] =
        some (.ok result, [.charged b.2]) ∧ Completes C client dataType dataSize b := by
  rcases hpay : payMerkleTree C client b.1 b.2 dataType dataSize with e | r
  · refine .inl ⟨e, ?_, rfl⟩
    rw [payForMerkleSingleBatch, hpay]
    rfl
  · right
    have hrun : payForMerkleSingleBatch C client b.1 b.2 dataType dataSize [] =
        some (merkleProofs C b.2 r.1 r.2, [.charged b.2]) := by
      rw [payForMerkleSingleBatch, hpay]
      rfl
    rcases hproofs : merkleProofs C b.2 r.1 r.2 with e | result
    · refine .inl ⟨e, by rw [hrun, hproofs], ⟨r, hpay⟩, ?_, failsWith_merkleProofs C _ _ e hproofs⟩
      rintro ⟨r', result, hpay', hproofs'⟩
      cases hpay.symm.trans hpay'
      cases hproofs.symm.trans hproofs'
    · exact .inr ⟨result, by rw [hrun, hproofs], r, result, hpay, hproofs⟩

theorem logs_payForMerkleSubBatch (allProofs : List (XorName × Bytes))
    (b : MerkleTurn × List XorName) :
    Act.Logs (payForMerkleSubBatch C client dataType dataSize allProofs b) :=
  ((Act.logs_ofExcept _).bind fun _ => (Act.logs_modify _).bind fun _ =>
    Act.logs_ofExcept _).bind fun _ => Act.logs_pure _

/-- **The sub-batches**, one after the other. -/
theorem payForMerkleSubBatches_ends (batches : List (MerkleTurn × List XorName)) :
    ∀ allProofs, ∃ result charged,
      batches.foldlM (payForMerkleSubBatch C client dataType dataSize) allProofs [] =
        some (result, chargeEvents charged) ∧
      MerkleEnd C client dataType dataSize batches charged result := by
  induction batches with
  | nil => exact fun allProofs => ⟨.ok allProofs, [], rfl, .all (by simp)⟩
  | cons b batches ih =>
    intro allProofs
    rw [List.foldlM_cons]
    rcases payForMerkleSingleBatch_cases C client dataType dataSize b with
      ⟨e, hrun, hpay⟩ | ⟨e, hrun, hpays, hproofs, he⟩ | ⟨r, hrun, hcompletes⟩
    · have hsub : payForMerkleSubBatch C client dataType dataSize allProofs b [] =
          some (.error e, []) := Act.bind_of_error hrun
      exact ⟨.error e, [], Act.bind_of_error hsub, .unpaid [] b batches rfl (by simp) hpay⟩
    · have hsub : payForMerkleSubBatch C client dataType dataSize allProofs b [] =
          some (.error e, [.charged b.2]) := Act.bind_of_error hrun
      exact ⟨.error e, [b], Act.bind_of_error hsub, .paid [] b batches rfl (by simp) hpays hproofs he⟩
    · have hsub : payForMerkleSubBatch C client dataType dataSize allProofs b [] =
          some (.ok (allProofs ++ r.proofs), [.charged b.2]) := Act.bind_of_ok hrun
      obtain ⟨result, charged, hrest, hend⟩ := ih (allProofs ++ r.proofs)
      have hlogs : Act.Logs (batches.foldlM (payForMerkleSubBatch C client dataType dataSize)
          (allProofs ++ r.proofs)) :=
        Act.logs_foldlM (logs_payForMerkleSubBatch C client dataType dataSize) _ _
      refine ⟨result, b :: charged, ?_, ?_⟩
      · rw [Act.bind_of_ok hsub, hlogs, hrest]
        rfl
      · have hcons : ∀ {done}, (∀ b ∈ done, Completes C client dataType dataSize b) →
            ∀ b' ∈ b :: done, Completes C client dataType dataSize b' := by
          intro done hdone b' hb'
          rcases List.mem_cons.1 hb' with rfl | hb'
          · exact hcompletes
          · exact hdone b' hb'
        cases hend with
        | all h => exact .all (hcons h)
        | unpaid done last rest hsplit hdone h =>
          exact .unpaid (b :: charged) last rest (by rw [hsplit]; rfl) (hcons hdone) h
        | paid done last rest hsplit hdone hpays h he =>
          exact .paid (b :: done) last rest (by rw [hsplit]; rfl) (hcons hdone) hpays h he

variable {C client dataType dataSize} {α : Type}
  {batches charged : List (MerkleTurn × List XorName)} {result : Except Error α}

/-- The first element without `p` comes after every prefix that has it. -/
theorem prefix_of_split {β : Type} {p : β → Prop} {pre rest done rest' : List β} {b : β}
    (h : pre ++ rest = done ++ b :: rest') (hpre : ∀ a ∈ pre, p a) (hb : ¬ p b) :
    ∃ more, done = pre ++ more := by
  rcases List.append_eq_append_iff.1 h with ⟨l, rfl, -⟩ | ⟨l, rfl, hl⟩
  · exact ⟨l, rfl⟩
  · cases l with
    | nil => exact ⟨[], by simp⟩
    | cons b' l =>
      cases hl
      exact absurd (hpre b (by simp)) hb

theorem split_unique {β : Type} {p : β → Prop} {done rest done' rest' : List β} {b b' : β}
    (h : done ++ b :: rest = done' ++ b' :: rest') (hdone : ∀ a ∈ done, p a) (hb : ¬ p b)
    (hdone' : ∀ a ∈ done', p a) (hb' : ¬ p b') : done = done' ∧ b = b' := by
  obtain ⟨more, rfl⟩ := prefix_of_split h hdone hb'
  obtain ⟨more', hmore⟩ := prefix_of_split h.symm hdone' hb
  obtain rfl : more = [] := by
    have hlen := congrArg List.length hmore
    simp only [List.length_append] at hlen
    exact List.length_eq_zero_iff.1 (by omega)
  rw [List.append_nil, List.append_cancel_left_eq] at h
  cases h
  exact ⟨(List.append_nil _).symm, rfl⟩

theorem Completes.pays {b : MerkleTurn × List XorName}
    (h : Completes C client dataType dataSize b) : Pays C client dataType dataSize b := by
  obtain ⟨r, -, hpay, -⟩ := h
  exact ⟨r, hpay⟩

theorem ShortOfPeers.not_pays {b : MerkleTurn × List XorName}
    (h : ShortOfPeers C client dataType dataSize b) : ¬ Pays C client dataType dataSize b := by
  rintro ⟨r, hr⟩
  obtain ⟨msg, he⟩ := h
  cases he.symm.trans hr

theorem Pays.wallet {b : MerkleTurn × List XorName} (h : Pays C client dataType dataSize b) :
    client.wallet = true := by
  obtain ⟨r, hr⟩ := h
  by_contra hnone
  simp [payMerkleTree, Client.requireWallet, hnone, bind, Except.bind] at hr

/-- Whatever has been charged for comes after completed sub-batches. -/
theorem MerkleEnd.of_charged (h : MerkleEnd C client dataType dataSize batches charged result)
    {pre post : List (MerkleTurn × List XorName)} {b : MerkleTurn × List XorName}
    (hcharged : charged = pre ++ b :: post) :
    (∀ a ∈ pre, Completes C client dataType dataSize a) ∧ Pays C client dataType dataSize b ∧
      ∃ rest, batches = pre ++ b :: rest := by
  cases h with
  | all h =>
    subst hcharged
    exact ⟨fun a ha => h a (by simp [ha]), (h b (by simp)).pays, post, rfl⟩
  | unpaid _ last rest hsplit hdone h =>
    subst hcharged
    exact ⟨fun a ha => hdone a (by simp [ha]), (hdone b (by simp)).pays, post ++ last :: rest,
      by rw [hsplit]; simp⟩
  | paid done last rest hsplit hdone hpays h he =>
    rcases List.eq_nil_or_concat post with rfl | ⟨post, b', rfl⟩
    · obtain ⟨rfl, hb⟩ := List.append_inj' hcharged rfl
      cases hb
      exact ⟨hdone, hpays, rest, hsplit⟩
    · have hinit : done ++ [last] = (pre ++ b :: post) ++ [b'] := by rw [hcharged]; simp
      obtain ⟨rfl, -⟩ := List.append_inj' hinit rfl
      exact ⟨fun a ha => hdone a (by simp [ha]), (hdone b (by simp)).pays, post ++ last :: rest,
        by rw [hsplit]; simp⟩

/-- Whatever is paid for after completed sub-batches is charged for. -/
theorem MerkleEnd.charged_of_pays (h : MerkleEnd C client dataType dataSize batches charged result)
    {done rest : List (MerkleTurn × List XorName)} {b : MerkleTurn × List XorName}
    (hsplit : batches = done ++ b :: rest)
    (hdone : ∀ a ∈ done, Completes C client dataType dataSize a)
    (hpays : Pays C client dataType dataSize b) : ∃ more, charged = done ++ b :: more := by
  by_cases hb : Completes C client dataType dataSize b
  · have hpre : ∀ a ∈ done ++ [b], Completes C client dataType dataSize a := by
      intro a ha
      rcases List.mem_append.1 ha with ha | ha
      · exact hdone a ha
      · rwa [List.mem_singleton.1 ha]
    have hbatches : batches = (done ++ [b]) ++ rest := by rw [hsplit]; simp
    cases h with
    | all h => exact ⟨rest, hsplit⟩
    | unpaid _ last rest' hsplit' hdone' h' =>
      have hlast : ¬ Completes C client dataType dataSize last := by
        intro hc
        obtain ⟨r, hr⟩ := hc.pays
        cases h'.symm.trans hr
      obtain ⟨more, hmore⟩ := prefix_of_split (hbatches.symm.trans hsplit') hpre hlast
      exact ⟨more, by rw [hmore]; simp⟩
    | paid done' last rest' hsplit' hdone' hpays' h' he' =>
      obtain ⟨more, rfl⟩ := prefix_of_split (hbatches.symm.trans hsplit') hpre h'
      exact ⟨more ++ [last], by simp⟩
  · cases h with
    | all h => exact absurd (h b (by simp [hsplit])) hb
    | unpaid _ last rest' hsplit' hdone' h' =>
      have hlast : ¬ Completes C client dataType dataSize last := by
        intro hc
        obtain ⟨r, hr⟩ := hc.pays
        cases h'.symm.trans hr
      obtain ⟨rfl, rfl⟩ := split_unique (hsplit.symm.trans hsplit') hdone hb hdone' hlast
      obtain ⟨r, hr⟩ := hpays
      cases h'.symm.trans hr
    | paid done' last rest' hsplit' hdone' hpays' h' he' =>
      obtain ⟨rfl, rfl⟩ := split_unique (hsplit.symm.trans hsplit') hdone hb hdone' h'
      exact ⟨[], rfl⟩

/-- A sub-batch that is short of peers ends the payment. -/
theorem MerkleEnd.of_short (h : MerkleEnd C client dataType dataSize batches charged result)
    {done rest : List (MerkleTurn × List XorName)} {b : MerkleTurn × List XorName}
    (hsplit : batches = done ++ b :: rest)
    (hdone : ∀ a ∈ done, Completes C client dataType dataSize a)
    (hshort : ShortOfPeers C client dataType dataSize b) :
    charged = done ∧ ∃ msg, result = .error (.insufficientPeers msg) := by
  have hb : ¬ Completes C client dataType dataSize b := fun hc => hshort.not_pays hc.pays
  cases h with
  | all h => exact absurd (h b (by simp [hsplit])) hb
  | unpaid _ last rest' hsplit' hdone' h' =>
    have hlast : ¬ Completes C client dataType dataSize last := by
      intro hc
      obtain ⟨r, hr⟩ := hc.pays
      cases h'.symm.trans hr
    obtain ⟨rfl, rfl⟩ := split_unique (hsplit.symm.trans hsplit') hdone hb hdone' hlast
    obtain ⟨msg, hmsg⟩ := hshort
    cases h'.symm.trans hmsg
    exact ⟨rfl, msg, rfl⟩
  | paid done' last rest' hsplit' hdone' hpays' h' he' =>
    obtain ⟨rfl, rfl⟩ := split_unique (hsplit.symm.trans hsplit') hdone hb hdone' h'
    exact absurd hpays' hshort.not_pays

/-- Short of peers, the payment has charged for what comes before. -/
theorem MerkleEnd.short {msg : String} (h : MerkleEnd C client dataType dataSize batches charged
    (.error (.insufficientPeers msg) : Except Error α)) :
    ShortAfterPaid C client dataType dataSize batches ∨ charged = [] := by
  cases h with
  | unpaid _ b rest hsplit hdone h =>
    by_cases hnil : charged = []
    · exact .inr hnil
    · exact .inl ⟨charged, b, rest, hsplit, hnil, hdone, msg, h⟩
  | paid done b rest hsplit hdone hpays h he => exact absurd rfl (he msg)

/-- What is charged for is disjoint exactly if no sub-batch repeats what is paid for. -/
theorem MerkleEnd.disjoint_iff (h : MerkleEnd C client dataType dataSize batches charged result) :
    (charged.map Prod.snd).Pairwise List.Disjoint ↔
      ¬ RepeatsPaid C client dataType dataSize batches := by
  constructor
  · rintro hpairwise ⟨done, again, rest, hsplit, hdone, hpays, b, hb, hshare⟩
    obtain ⟨more, rfl⟩ := h.charged_of_pays hsplit hdone hpays
    rw [List.map_append, List.pairwise_append] at hpairwise
    exact hshare (hpairwise.2.2 _ (List.mem_map_of_mem hb) _ (by simp))
  · intro hrepeats
    rw [List.pairwise_map, List.pairwise_iff_getElem]
    intro i j hi hj hij
    by_contra hshare
    have hsplit : charged = charged.take j ++ charged[j] :: charged.drop (j + 1) := by simp
    obtain ⟨hdone, hpays, rest, hbatches⟩ := h.of_charged hsplit
    refine hrepeats ⟨_, _, rest, hbatches, hdone, hpays, charged[i], ?_, hshare⟩
    rw [List.mem_take_iff_getElem]
    exact ⟨i, by omega, rfl⟩

/-- The sub-batches begin with the first address. -/
theorem subBatches_cons (turns : ℕ → MerkleTurn) (a : XorName) (addresses : List XorName) :
    ∃ first rest, subBatches C (a :: addresses) turns = first :: rest ∧ a ∈ first.2 := by
  obtain ⟨rest, hrest⟩ := chunked_cons (Nat.zero_lt_of_lt C.one_lt_maxLeaves) a addresses
  rw [subBatches, hrest, List.mapIdx_cons]
  exact ⟨_, _, rfl, List.mem_cons_self ..⟩

variable (C client dataType dataSize) in
/-- One batch or many. -/
theorem payForMerkleBatch_ends {addresses : List XorName} (hlen : 2 ≤ addresses.length)
    (turns : ℕ → MerkleTurn) :
    ∃ result charged, payForMerkleBatch C client addresses dataType dataSize turns [] =
        some (result, chargeEvents charged) ∧
      MerkleEnd C client dataType dataSize (subBatches C addresses turns) charged result := by
  rw [payForMerkleBatch, if_neg (by omega)]
  split_ifs with hmany
  · obtain ⟨result, charged, hrun, hend⟩ := payForMerkleSubBatches_ends C client dataType dataSize
      (subBatches C addresses turns) []
    rcases result with e | proofs
    · refine ⟨.error e, charged, Act.bind_of_error hrun, ?_⟩
      cases hend with
      | unpaid _ b rest hsplit hdone h => exact .unpaid _ b rest hsplit hdone h
      | paid done b rest hsplit hdone hpays h he => exact .paid done b rest hsplit hdone hpays h he
    · refine ⟨.ok _, charged, Act.bind_of_ok hrun, ?_⟩
      cases hend with
      | all h => exact .all h
  · have hnil : addresses ≠ [] := by
      rintro rfl
      simp at hlen
    have hone : subBatches C addresses turns = [(turns 0, addresses)] := by
      rw [subBatches, chunked_of_length_le hnil (not_lt.1 hmany)]
      rfl
    rw [hone]
    rcases payForMerkleSingleBatch_cases C client dataType dataSize (turns 0, addresses) with
      ⟨e, hrun, hpay⟩ | ⟨e, hrun, hpays, hproofs, he⟩ | ⟨r, hrun, hcompletes⟩
    · exact ⟨.error e, [], hrun, .unpaid [] _ [] rfl (by simp) hpay⟩
    · exact ⟨.error e, [(turns 0, addresses)], hrun, .paid [] _ [] rfl (by simp) hpays hproofs he⟩
    · exact ⟨.ok r, [(turns 0, addresses)], hrun, .all (by simpa using hcompletes)⟩

end Merkle

/-! ## The whole upload -/

/-- The upload comes to an end, and has not paid twice for a chunk. -/
def UploadsOnce {α : Type} (x : Upload α) : Prop :=
  ∃ result log, x [] = some (result, log) ∧ PaidOnce log

theorem paidOnce_of_nodup {log : List Event} (h : (charges log).flatten.Nodup) : PaidOnce log :=
  (List.nodup_flatten.1 h).2

theorem paidOnce_append {log log' : List Event} :
    PaidOnce (log ++ log') ↔ PaidOnce log ∧ PaidOnce log' ∧
      ∀ l ∈ charges log, ∀ l' ∈ charges log', List.Disjoint l l' := by
  rw [PaidOnce, charges_append, List.pairwise_append]
  rfl

/-- An upload that meets nobody. -/
def idleUpload : UploadTurn :=
  let net : Network := ⟨⟨fun _ _ => .ok [], 0, fun _ _ _ => .ok (), fun _ => []⟩,
    List.Vector.replicate 32 0, fun _ => 0⟩
  ⟨fun _ => none, fun _ _ => freeTurn net .asStarted ⟨List.Vector.replicate 32 0, 0, 0⟩,
    fun _ => ⟨fun _ => net, fun _ _ => .asStarted, .asStarted⟩⟩

/-- What the payments of an upload in waves are like. -/
structure WaveUpload (C : MerkleEvm) (client : Client) (first : XorName) {α : Type}
    (fallback : UploadTurn → Upload α) : Prop where
  logs : ∀ u, Act.Logs (fallback u)
  once : ∀ u, ∃ result log, fallback u [] = some (result, log) ∧ (charges log).flatten.Nodup
  free : CanBeQuoted C.toClientEvm client → client.wallet = true → ∃ u, ∀ result log,
    fallback u [] = some (result, log) → ∃ wave ∈ charges log, first ∈ wave
  unquoted : ¬ CanBeQuoted C.toClientEvm client → ∀ u result log,
    fallback u [] = some (result, log) → charges log = []

variable {α : Type} {mode : PaymentMode} {first : XorName} {addresses : List XorName}
  {dataType : UInt32} {dataSize : UInt64} {fallback : UploadTurn → Upload α}
  {upload : UploadTurn → MerkleBatchPaymentResult → Upload α}

theorem payOrFallBack_run {pay : Upload MerkleBatchPaymentResult} {fallback : Upload α}
    {upload : MerkleBatchPaymentResult → Upload α} {result : Except Error MerkleBatchPaymentResult}
    {log : List Event} (h : pay [] = some (result, log)) :
    payOrFallBack mode pay fallback upload [] = match result with
      | .ok batchResult => upload batchResult log
      | .error (.insufficientPeers msg) =>
        if mode = .auto then fallback log else some (.error (.insufficientPeers msg), log)
      | .error e => some (.error e, log) := by
  unfold payOrFallBack
  simp only [ExceptT.mk, h]
  cases result with
  | ok batchResult => rfl
  | error e => cases e <;> rfl

/-- A merkle payment and what may come after it. -/
theorem payOrFallBack_once_iff (h : WaveUpload C client first fallback)
    (hlen : 2 ≤ (first :: addresses).length)
    (hupload : ∀ u batchResult log, ∃ result, upload u batchResult log = some (result, log))
    (merkle : ℕ → MerkleTurn) :
    (∀ u, UploadsOnce (payOrFallBack mode
      (payForMerkleBatch C client (first :: addresses) dataType dataSize merkle)
      (fallback u) (upload u))) ↔
    ¬ RepeatsPaid C client dataType dataSize (subBatches C (first :: addresses) merkle) ∧
    ¬ (mode = .auto ∧ CanBeQuoted C.toClientEvm client ∧
      ShortAfterPaid C client dataType dataSize (subBatches C (first :: addresses) merkle)) := by
  set batches := subBatches C (first :: addresses) merkle
  obtain ⟨result, charged, hrun, hend⟩ :=
    payForMerkleBatch_ends C client dataType dataSize hlen merkle
  have hcharged : PaidOnce (chargeEvents charged) ↔
      ¬ RepeatsPaid C client dataType dataSize batches := by
    rw [PaidOnce, charges_chargeEvents]
    exact hend.disjoint_iff
  by_cases hshort : mode = .auto ∧ ∃ msg, result = .error (.insufficientPeers msg)
  · obtain ⟨rfl, msg, rfl⟩ := hshort
    have hfallback : ∀ u, payOrFallBack .auto
        (payForMerkleBatch C client (first :: addresses) dataType dataSize merkle)
        (fallback u) (upload u) [] = (fallback u []).map fun r => (r.1, chargeEvents charged ++ r.2) := by
      intro u
      rw [← h.logs u (chargeEvents charged), payOrFallBack_run hrun]
      rfl
    have honce : ∀ u, UploadsOnce (payOrFallBack .auto
        (payForMerkleBatch C client (first :: addresses) dataType dataSize merkle)
        (fallback u) (upload u)) ↔
          ∃ result log, fallback u [] = some (result, log) ∧ PaidOnce (chargeEvents charged ++ log) := by
      intro u
      rw [UploadsOnce, hfallback u]
      obtain ⟨result, log, hlog, -⟩ := h.once u
      simp [hlog]
    simp only [honce]
    constructor
    · intro hall
      obtain ⟨_, _, -, hpaid⟩ := hall (idleUpload)
      refine ⟨hcharged.1 (paidOnce_append.1 hpaid).1, ?_⟩
      rintro ⟨-, hquoted, done, short, rest, hsplit, hne, hdone, hpeers⟩
      obtain ⟨rfl, -⟩ := hend.of_short hsplit hdone hpeers
      obtain ⟨b, charged, rfl⟩ := List.exists_cons_of_ne_nil hne
      obtain ⟨b', rest', hbatches, hfirst⟩ := subBatches_cons (C := C) merkle first addresses
      obtain rfl : b = b' := by
        have hcons := hsplit.symm.trans hbatches
        exact (List.cons.inj hcons).1
      obtain ⟨u, hu⟩ := h.free hquoted (hdone b (by simp)).pays.wallet
      obtain ⟨result, log, hlog, hpaid⟩ := hall u
      obtain ⟨wave, hwave, hmem⟩ := hu result log hlog
      refine (paidOnce_append.1 hpaid).2.2 b.2 ?_ wave hwave hfirst hmem
      rw [charges_chargeEvents]
      simp
    · rintro ⟨hrepeats, hagain⟩ u
      obtain ⟨result, log, hlog, hnodup⟩ := h.once u
      refine ⟨result, log, hlog, paidOnce_append.2 ⟨hcharged.2 hrepeats, paidOnce_of_nodup hnodup, ?_⟩⟩
      rcases hend.short with hafter | rfl
      · have hnone := h.unquoted (fun hquoted => hagain ⟨trivial, hquoted, hafter⟩) u result log hlog
        simp [hnone]
      · simp [chargeEvents, charges]
  · have hstop : ∀ u, ∃ r, payOrFallBack mode
        (payForMerkleBatch C client (first :: addresses) dataType dataSize merkle)
        (fallback u) (upload u) [] = some (r, chargeEvents charged) := by
      intro u
      rw [payOrFallBack_run hrun]
      rcases result with e | batchResult
      · cases e
        case insufficientPeers msg =>
          have hmode : mode ≠ .auto := fun hauto => hshort ⟨hauto, msg, rfl⟩
          exact ⟨_, if_neg hmode⟩
        all_goals exact ⟨_, rfl⟩
      · exact hupload u batchResult _
    have honce : ∀ u, UploadsOnce (payOrFallBack mode
        (payForMerkleBatch C client (first :: addresses) dataType dataSize merkle)
        (fallback u) (upload u)) ↔ PaidOnce (chargeEvents charged) := by
      intro u
      obtain ⟨r, hr⟩ := hstop u
      simp [UploadsOnce, hr]
    simp only [honce, hcharged]
    refine ⟨fun hall => ⟨hall idleUpload, ?_⟩, fun hall _ => hall.1⟩
    rintro ⟨hauto, -, done, short, rest, hsplit, -, hdone, hpeers⟩
    exact hshort ⟨hauto, (hend.of_short hsplit hdone hpeers).2⟩

/-! ### In memory -/

theorem bind_pure_run {β γ : Type} {x : Upload β} (f : β → γ) {result : Except Error β}
    {log₀ log : List Event} (h : x log₀ = some (result, log)) :
    (x >>= fun a => pure (f a)) log₀ = some (result.map f, log) := by
  cases result with
  | error e => exact Act.bind_of_error h
  | ok a => exact Act.bind_of_ok h

/-- Where the payments are those of an upload that returns something else. -/
theorem WaveUpload.map {β : Type} (h : WaveUpload C client first fallback) (f : α → β) :
    WaveUpload C client first fun u => fallback u >>= fun a => pure (f a) where
  logs u := (h.logs u).bind fun _ => Act.logs_pure _
  once u := by
    obtain ⟨result, log, hrun, hnodup⟩ := h.once u
    exact ⟨_, log, bind_pure_run f hrun, hnodup⟩
  free hquoted hwallet := by
    obtain ⟨u, hu⟩ := h.free hquoted hwallet
    refine ⟨u, fun result log hlog => ?_⟩
    obtain ⟨result', log', hrun, -⟩ := h.once u
    cases (bind_pure_run f hrun).symm.trans hlog
    exact hu _ _ hrun
  unquoted hquoted u result log hlog := by
    obtain ⟨result', log', hrun, -⟩ := h.once u
    cases (bind_pure_run f hrun).symm.trans hlog
    exact h.unquoted hquoted u _ _ hrun

theorem waveUpload_batch (P : Primitives) (c : Bytes) (chunks : List Bytes) :
    WaveUpload C client (computeAddress P c) fun u =>
      batchUploadChunks P C.toClientEvm client paymentWaves (u.wave 0) (c :: chunks) where
  logs u := logs_batchUploadChunks _ _ _
  once u := by
    obtain ⟨result, log, hrun, hnodup, -⟩ := charges_batchUploadChunks P client
      C.toClientEvm paymentWaves (u.wave 0) (c :: chunks)
    exact ⟨result, log, hrun, hnodup⟩
  free hquoted hwallet := by
    obtain ⟨turns, hturns⟩ := batchUploadChunks_free (P := P) hquoted hwallet
    exact ⟨{ idleUpload with wave := fun _ => turns }, fun result log h =>
      hturns c chunks result log h⟩
  unquoted hquoted u result log h := batchUploadChunks_unquoted hquoted h

/-! ### From a file -/

variable {spill : ChunkSpill} {u : UploadTurn}

theorem logs_uploadWaveSingle (totalStored : ℕ) (wave : List XorName × ℕ) :
    Act.Logs (uploadWaveSingle P C client u spill totalStored wave) :=
  (Act.logs_ofExcept _).bind fun _ => (logs_batchUploadChunks _ _ _).bind fun _ => Act.logs_pure _

theorem flatten_waves (spill : ChunkSpill) :
    (spill.waves.zipIdx.map Prod.fst).flatten = spill.addresses := by
  rw [List.zipIdx_map_fst]
  exact flatten_chunked (by decide) _

variable (C client u) in
/-- The waves from disk pay for nothing twice, since they share no chunk. -/
theorem uploadWavesSingle_post (h : spill.Holds P) :
    Act.Post (uploadWavesSingle P C client u spill) []
      (fun _ log => (charges log).flatten.Nodup) fun _ log => (charges log).flatten.Nodup := by
  refine (Act.post_foldlM (I := fun gone _ log => (charges log).flatten.Nodup ∧
    (charges log).flatten ⊆ (gone.map Prod.fst).flatten) ?_ _ [] 0 [] rfl
    ⟨List.nodup_nil, List.Subset.refl _⟩).mono fun _ _ h => h.1
  rintro gone wave rest total log hwhole ⟨hnodup, hsub⟩
  have hall : (gone.map Prod.fst).flatten ++ (wave.1 ++ (rest.map Prod.fst).flatten) =
      spill.addresses := by
    have hwaves : gone ++ wave :: rest = spill.waves.zipIdx := hwhole
    rw [← flatten_waves, ← hwaves]
    simp
  have haddresses := h.nodup
  rw [← hall] at haddresses
  refine Act.post_bind (Act.post_ofExcept ?_ fun e _ => hnodup)
  intro waveData hread
  have hwave : waveData.map (computeAddress P) = wave.1 :=
    h.read (by rw [← hall]; simp) hread
  obtain ⟨result, events, hrun, honce, hevents⟩ := charges_batchUploadChunks P
    client C.toClientEvm paymentWaves (u.wave wave.2) waveData
  rw [hwave] at hevents
  have hlog : batchUploadChunks P C.toClientEvm client paymentWaves (u.wave wave.2) waveData log =
      some (result, log ++ events) := by
    rw [logs_batchUploadChunks _ _ _ log, hrun]
    rfl
  have hdisjoint : List.Disjoint (charges log).flatten (charges events).flatten := by
    intro a ha ha'
    exact (List.nodup_append.1 haddresses).2.2 a (hsub ha) a
      (List.mem_append_left _ (hevents ha')) rfl
  have hnodup' : (charges (log ++ events)).flatten.Nodup := by
    rw [charges_append, List.flatten_append]
    exact List.Nodup.append hnodup honce hdisjoint
  have hsub' : (charges (log ++ events)).flatten ⊆
      ((gone ++ [wave]).map Prod.fst).flatten := by
    rw [charges_append, List.flatten_append, List.map_append, List.flatten_append]
    exact List.append_subset.2 ⟨List.subset_append_of_subset_left _ hsub,
      List.subset_append_of_subset_right _ (by simpa using hevents)⟩
  refine Act.post_bind ?_
  cases result with
  | ok addresses => exact .inl ⟨addresses, _, hlog, Act.post_pure ⟨hnodup', hsub'⟩⟩
  | error e => exact .inr ⟨e, _, hlog, hnodup'⟩

variable (P spill u) in
theorem uploadWavesSingle_unquoted (hquoted : ¬ CanBeQuoted C.toClientEvm client) :
    Act.Post (uploadWavesSingle P C client u spill) [] (fun _ log => charges log = [])
      fun _ log => charges log = [] := by
  refine Act.post_foldlM (I := fun _ _ log => charges log = []) ?_ _ [] 0 [] rfl rfl
  rintro gone wave rest total log - hnone
  refine Act.post_bind (Act.post_ofExcept (fun waveData _ => ?_) fun e _ => hnone)
  obtain ⟨result, events, hrun, -⟩ := charges_batchUploadChunks P client
    C.toClientEvm paymentWaves (u.wave wave.2) waveData
  have hevents : charges (log ++ events) = [] := by
    rw [charges_append, hnone, batchUploadChunks_unquoted hquoted hrun, List.append_nil]
  have hlog : batchUploadChunks P C.toClientEvm client paymentWaves (u.wave wave.2) waveData log =
      some (result, log ++ events) := by
    rw [logs_batchUploadChunks _ _ _ log, hrun]
    rfl
  refine Act.post_bind ?_
  cases result with
  | ok addresses => exact .inl ⟨addresses, _, hlog, Act.post_pure hevents⟩
  | error e => exact .inr ⟨e, _, hlog, hevents⟩

/-- The payments of a file that is not empty. -/
theorem waveUpload_file (h : spill.Holds P) {first : XorName} {addresses : List XorName}
    (hspill : spill.addresses = first :: addresses) :
    WaveUpload C client first fun u => uploadWavesSingle P C client u spill where
  logs u := Act.logs_foldlM logs_uploadWaveSingle _ _
  once u := by
    rcases uploadWavesSingle_post C client u h with
      ⟨_, log, hrun, hnodup⟩ | ⟨_, log, hrun, hnodup⟩
    · exact ⟨_, log, hrun, hnodup⟩
    · exact ⟨_, log, hrun, hnodup⟩
  free hquoted hwallet := by
    obtain ⟨turns, hturns⟩ := batchUploadChunks_free (P := P) hquoted hwallet
    refine ⟨{ idleUpload with wave := fun _ => turns }, fun result log hlog => ?_⟩
    set u : UploadTurn := { idleUpload with wave := fun _ => turns }
    obtain ⟨more, hwaves⟩ := chunked_cons (by decide : 0 < uploadWaveSize) first addresses
    set wave := first :: addresses.take (uploadWaveSize - 1)
    have hwave : wave ⊆ spill.addresses := by
      rw [hspill, ← flatten_chunked (by decide : 0 < uploadWaveSize) (first :: addresses), hwaves,
        List.flatten_cons]
      exact List.subset_append_left _ _
    obtain ⟨waveData, hread⟩ := h.readable (u := u) hwave fun _ => rfl
    have hdata := h.read hwave hread
    obtain ⟨c, chunks, rfl⟩ : ∃ c chunks, waveData = c :: chunks := by
      cases waveData with
      | nil => exact absurd hdata (List.cons_ne_nil _ _).symm
      | cons c chunks => exact ⟨c, chunks, rfl⟩
    obtain ⟨hfirst, -⟩ := List.cons.inj hdata
    obtain ⟨r, log₀, hbatch, -⟩ := charges_batchUploadChunks P client
      C.toClientEvm paymentWaves turns (c :: chunks)
    obtain ⟨charged, hcharged, hmem⟩ := hturns c chunks r log₀ hbatch
    have hone : uploadWaveSingle P C client u spill 0 (wave, 0) [] =
        some (r.map fun addresses => 0 + addresses.length, log₀) := by
      rw [uploadWaveSingle, hread]
      exact bind_pure_run (fun addresses : List XorName => 0 + addresses.length) hbatch
    have hzip : spill.waves.zipIdx = (wave, 0) :: more.zipIdx 1 := by
      rw [ChunkSpill.waves, hspill, hwaves]
      rfl
    obtain ⟨more', rfl⟩ : ∃ more, log = log₀ ++ more := by
      rw [uploadWavesSingle, hzip, List.foldlM_cons] at hlog
      exact Act.log_of_bind (fun s => Act.logs_foldlM logs_uploadWaveSingle _ s) hone hlog
    rw [charges_append]
    exact ⟨charged, List.mem_append_left _ hcharged, hfirst ▸ hmem⟩
  unquoted hquoted u result log hlog := by
    rcases uploadWavesSingle_unquoted P spill u hquoted with
      ⟨_, _, hrun, hnone⟩ | ⟨_, _, hrun, hnone⟩
    · cases hrun.symm.trans hlog
      exact hnone
    · cases hrun.symm.trans hlog
      exact hnone

/-! ### Both -/

theorem map_snd_subBatches (addresses : List XorName) (merkle : ℕ → MerkleTurn) :
    (subBatches C addresses merkle).map Prod.snd = chunked C.maxLeaves addresses := by
  rw [subBatches, List.mapIdx_eq_zipIdx_map, List.map_map]
  exact List.zipIdx_map_fst _ _

/-- Without repetition among the chunks there is none among the sub-batches. -/
theorem not_repeatsPaid {addresses : List XorName} (h : addresses.Nodup)
    (merkle : ℕ → MerkleTurn) :
    ¬ RepeatsPaid C client dataType dataSize (subBatches C addresses merkle) := by
  rintro ⟨done, again, rest, hsplit, -, -, b, hb, hshare⟩
  have hflatten := flatten_chunked (Nat.zero_lt_of_lt C.one_lt_maxLeaves) addresses
  rw [← map_snd_subBatches addresses merkle, hsplit, List.map_append] at hflatten
  rw [← hflatten, List.nodup_flatten, List.pairwise_append] at h
  exact hshare (h.2.2.2 _ (List.mem_map_of_mem hb) _ (by simp))

theorem shouldUseMerkle_length {n : ℕ} (h : shouldUseMerkle n mode = true) : 2 ≤ n := by
  cases mode with
  | auto =>
    have := of_decide_eq_true h
    simp only [defaultMerkleThreshold] at this
    omega
  | merkle => exact of_decide_eq_true h
  | single => cases h

variable (C client mode) in
/-- In `Auto` mode a sub-batch is short of peers once another has been paid for, and then the chunks
    can be quoted. -/
def FallsBackPaid (addresses : List XorName) (dataSize : UInt64) (merkle : ℕ → MerkleTurn) : Prop :=
  mode = .auto ∧ CanBeQuoted C.toClientEvm client ∧
    ShortAfterPaid C client dataTypeChunk dataSize (subBatches C addresses merkle)

theorem dataUpload_once_iff (P : Primitives) (merkle : ℕ → MerkleTurn) (dataMap : DataMap)
    (chunkContents : List Bytes) :
    (∀ u, UploadsOnce (dataUploadWithMode P C client mode merkle u (.ok (dataMap, chunkContents)))) ↔
      (shouldUseMerkle chunkContents.length mode = true →
        ¬ RepeatsPaid C client dataTypeChunk (avgSize chunkContents)
            (subBatches C (chunkContents.map (computeAddress P)) merkle) ∧
          ¬ FallsBackPaid C client mode (chunkContents.map (computeAddress P))
            (avgSize chunkContents) merkle) := by
  have hupload : ∀ u, dataUploadWithMode P C client mode merkle u (.ok (dataMap, chunkContents)) =
      if shouldUseMerkle chunkContents.length mode then _ else _ := fun u => rfl
  by_cases huse : shouldUseMerkle chunkContents.length mode = true
  · simp only [hupload, huse, if_true, forall_const]
    have hlen := shouldUseMerkle_length huse
    obtain ⟨c, chunks, rfl⟩ : ∃ c chunks, chunkContents = c :: chunks := by
      cases chunkContents with
      | nil => cases hlen
      | cons c chunks => exact ⟨c, chunks, rfl⟩
    refine payOrFallBack_once_iff ((waveUpload_batch P c chunks).map _) (by simpa using hlen) ?_
      merkle
    intro u batchResult log
    exact ⟨_, bind_pure_run _ (Act.ofExcept_run _)⟩
  · refine iff_of_true (fun u => ?_) fun h => absurd h huse
    rw [hupload, if_neg huse]
    obtain ⟨result, log, hrun, hnodup, -⟩ := charges_batchUploadChunks P client C.toClientEvm
      paymentWaves (u.wave 0) chunkContents
    exact ⟨_, log, bind_pure_run _ hrun, paidOnce_of_nodup hnodup⟩

theorem fileUpload_once_iff (hspill : spill.Holds P) (merkle : ℕ → MerkleTurn) (dataMap : DataMap) :
    (∀ u, UploadsOnce (fileUploadWithMode P C client mode merkle u (.ok (spill, dataMap)))) ↔
      (shouldUseMerkle spill.addresses.length mode = true →
        ¬ FallsBackPaid C client mode spill.addresses spill.avgChunkSize merkle) := by
  have hupload : ∀ u, fileUploadWithMode P C client mode merkle u (.ok (spill, dataMap)) =
      if shouldUseMerkle spill.addresses.length mode then _ else _ := fun u => rfl
  by_cases huse : shouldUseMerkle spill.addresses.length mode = true
  · simp only [hupload, huse, if_true, forall_const]
    have hlen := shouldUseMerkle_length huse
    obtain ⟨first, addresses, hfirst⟩ : ∃ first addresses, spill.addresses = first :: addresses := by
      cases h : spill.addresses with
      | nil => rw [h] at hlen; cases hlen
      | cons first addresses => exact ⟨first, addresses, rfl⟩
    have hnodup := hspill.nodup
    rw [hfirst] at hlen hnodup ⊢
    refine (payOrFallBack_once_iff ((waveUpload_file hspill hfirst).map _) hlen ?_ merkle).trans
      (and_iff_right (not_repeatsPaid hnodup merkle))
    intro u batchResult log
    exact ⟨_, bind_pure_run _ (Act.ofExcept_run _)⟩
  · refine iff_of_true (fun u => ?_) fun h => absurd h huse
    rw [hupload, if_neg huse]
    rcases uploadWavesSingle_post C client u hspill with
      ⟨_, log, hrun, hnodup⟩ | ⟨_, log, hrun, hnodup⟩
    · exact ⟨_, log, bind_pure_run _ hrun, paidOnce_of_nodup hnodup⟩
    · exact ⟨_, log, bind_pure_run _ hrun, paidOnce_of_nodup hnodup⟩

/-- What an upload needs of its encryption. -/
theorem forall_ok_iff {β γ : Type} {b : β} {c : γ} {p : β → γ → Prop} :
    (∀ b' c', (.ok (b, c) : Except Error (β × γ)) = .ok (b', c') → p b' c') ↔ p b c := by
  refine ⟨fun h => h _ _ rfl, ?_⟩
  rintro h _ _ ⟨⟩
  exact h

/-- **An upload pays once for each chunk**, whatever the network and the chain answer after the merkle
    payment, exactly if it does not fall back to waves once a sub-batch has been paid for and, where
    the chunks have not been compared by their addresses, no two sub-batches that are paid for share
    one. -/
theorem upload_pays_once_iff (P : Primitives) (C : MerkleEvm) (client : Client) (mode : PaymentMode)
    (merkle : ℕ → MerkleTurn) :
    (∀ encrypted, (∀ u, UploadsOnce (dataUploadWithMode P C client mode merkle u encrypted)) ↔
      ∀ dataMap chunkContents, encrypted = .ok (dataMap, chunkContents) →
        shouldUseMerkle chunkContents.length mode = true →
        ¬ RepeatsPaid C client dataTypeChunk (avgSize chunkContents)
            (subBatches C (chunkContents.map (computeAddress P)) merkle) ∧
          ¬ FallsBackPaid C client mode (chunkContents.map (computeAddress P))
            (avgSize chunkContents) merkle) ∧
    (∀ writeError encryption, (∀ u, UploadsOnce (fileUploadWithMode P C client mode merkle u
        (encryptFileToSpill P writeError encryption))) ↔
      ∀ spill dataMap, encryptFileToSpill P writeError encryption = .ok (spill, dataMap) →
        shouldUseMerkle spill.addresses.length mode = true →
        ¬ FallsBackPaid C client mode spill.addresses spill.avgChunkSize merkle) := by
  refine ⟨fun encrypted => ?_, fun writeError encryption => ?_⟩
  · rcases encrypted with e | ⟨dataMap, chunkContents⟩
    · exact iff_of_true (fun u => ⟨_, _, Act.bind_of_error rfl, List.Pairwise.nil⟩) nofun
    · rw [forall_ok_iff]
      exact dataUpload_once_iff P merkle dataMap chunkContents
  · rcases hspill : encryptFileToSpill P writeError encryption with e | ⟨spill, dataMap⟩
    · exact iff_of_true (fun u => ⟨_, _, Act.bind_of_error rfl, List.Pairwise.nil⟩) nofun
    · rw [forall_ok_iff]
      exact fileUpload_once_iff (encryptFileToSpill_eq_ok hspill) merkle dataMap

/-! ## Two sub-batches, of which the second finds no peers -/

section Example

/-- The least power of two. -/
def exampleDepth (leaves : ℕ) : ℕ := ((List.range 9).find? fun depth => leaves ≤ 2 ^ depth).getD 8

/-- A candidate is sent as one byte of its key. -/
def exampleCandidate (bytes : Bytes) : MerklePaymentCandidateNode where
  pubKey := List.replicate 1952 (bytes.headD 0)
  quotingMetrics := exampleMetrics
  rewardAddress := exampleAddress 0
  merklePaymentTimestamp := 1000
  signature := bytes.headD 0 :: ((exampleAddress 0).toList ++ leBytes 8 1000)

def exampleMerkleEvm : MerkleEvm :=
  { exampleClientEvm with
    maxLeaves := 256
    one_lt_maxLeaves := one_lt_max_leaves
    fromXornames := fun leaves =>
      if leaves.length < 2 then .error "Too few leaves" else .ok (exampleDepth leaves.length)
    rewardCandidates := fun leaves _ => .ok ((List.range (2 ^ ((exampleDepth leaves.length + 1) / 2))).map
      fun i => [UInt8.ofNat i])
    midpointAddress := padTo 32
    toCommitment := fun pool => pool.midpointProof
    generateAddressProof := fun _ i _ => .ok [UInt8.ofNat i]
    readCandidate := fun bytes => .ok (exampleCandidate bytes)
    writeMerkleProof := fun _ => .ok (List.replicate 31 7) }

def examplePool (peers : ℕ) : PoolTurn where
  net := ⟨examplePeers ((List.range peers).map fun i =>
    .merkleCandidateQuoteResponse (.success [UInt8.ofNat i])), examplePeer 99, fun _ => 9⟩
  connectedPeers := []
  order := .asStarted

/-- Sixteen peers answer for the first sub-batch, and fifteen for the second. -/
def exampleMerkle (turn : ℕ) : MerkleTurn where
  now := .ok 1000
  pool _ := examplePool (16 - turn)
  poolOrder := .asStarted
  payForMerkleTree _ _ _ := .ok (padTo 32 [])

def exampleChunks : List Bytes :=
  (List.range 258).map fun i => [UInt8.ofNat (i / 256), UInt8.ofNat i]

theorem examplePool_answers : ∃ nodes, ∀ address dataSize, getMerkleCandidatePool exampleMerkleEvm
    (examplePool 16) ⟨address, dataTypeChunk, dataSize, 1000⟩ = .ok nodes := by
  have hsame : ∀ address dataSize, getMerkleCandidatePool exampleMerkleEvm (examplePool 16)
      ⟨address, dataTypeChunk, dataSize, 1000⟩ = getMerkleCandidatePool exampleMerkleEvm
        (examplePool 16) ⟨exampleContent, dataTypeChunk, 0, 1000⟩ := fun _ _ => rfl
  have hok : (getMerkleCandidatePool exampleMerkleEvm (examplePool 16)
      ⟨exampleContent, dataTypeChunk, 0, 1000⟩).toOption.isSome = true := by decide +kernel
  rcases hget : getMerkleCandidatePool exampleMerkleEvm (examplePool 16)
    ⟨exampleContent, dataTypeChunk, 0, 1000⟩ with e | nodes
  · rw [hget] at hok
    cases hok
  · exact ⟨nodes, fun address dataSize => (hsame address dataSize).trans hget⟩

/-- Sixteen peers answer for every pool. -/
theorem buildCandidatePools_example {C : MerkleEvm} {nodes : List MerklePaymentCandidateNode}
    (hnodes : ∀ address dataSize, getMerkleCandidatePool C (examplePool 16)
      ⟨address, dataTypeChunk, dataSize, 1000⟩ = .ok nodes) (midpoints : List Bytes)
    (dataSize : UInt64) :
    buildCandidatePools C (exampleMerkle 0) midpoints dataTypeChunk dataSize 1000 =
      .ok (midpoints.zipIdx.map fun mp => ⟨mp.1, nodes⟩) := by
  have horder : ∀ l, (exampleMerkle 0).poolOrder l = l := fun _ => rfl
  have hpool : ∀ i, (exampleMerkle 0).pool i = examplePool 16 := fun _ => rfl
  rw [buildCandidatePools, mapM_eq_ok, horder, List.forall₂_map_left_iff,
    List.forall₂_map_right_iff, List.forall₂_same]
  intro mp _
  rw [hpool, hnodes]
  rfl

/-- A full sub-batch is paid for. -/
theorem completes_example {addresses : List XorName} (hlen : addresses.length = 256)
    (dataSize : UInt64) :
    Completes exampleMerkleEvm exampleClient dataTypeChunk dataSize (exampleMerkle 0, addresses) := by
  obtain ⟨nodes, hnodes⟩ := examplePool_answers
  set midpoints : List Bytes := (List.range 16).map fun i => [UInt8.ofNat i]
  have hmidpoints : exampleMerkleEvm.rewardCandidates addresses 1000 = .ok midpoints := by
    simp only [exampleMerkleEvm, hlen]
    rfl
  have htree : exampleMerkleEvm.fromXornames addresses = .ok 8 := by
    simp only [exampleMerkleEvm, hlen]
    rfl
  set pools : List MerklePaymentCandidatePool := midpoints.zipIdx.map fun mp => ⟨mp.1, nodes⟩
  have hpools : buildCandidatePools exampleMerkleEvm (exampleMerkle 0) midpoints dataTypeChunk
      dataSize 1000 = .ok pools :=
    buildCandidatePools_example hnodes midpoints dataSize
  refine ⟨(padTo 32 [], pools), ⟨addresses.zipIdx.map fun leaf =>
    (leaf.1, proofTagMerkle :: List.replicate 31 7), addresses.length⟩, ?_, ?_⟩
  · have hnow : (exampleMerkle 0).now = .ok 1000 := rfl
    simp only [payMerkleTree, htree, hnow, hmidpoints, hpools, Except.mapError, bind, Except.bind]
    rfl
  · have hfind : pools.find? (fun pool => exampleMerkleEvm.poolHash pool = padTo 32 []) =
        some ⟨[0], nodes⟩ := rfl
    have hproofs : addresses.zipIdx.mapM (merkleProof exampleMerkleEvm addresses ⟨[0], nodes⟩) =
        .ok (addresses.zipIdx.map fun leaf => (leaf.1, proofTagMerkle :: List.replicate 31 7)) :=
      mapM_ok_map fun leaf _ => rfl
    simp only [merkleProofs, hfind, okOr_some, hproofs, bind, Except.bind]
    rfl

theorem exampleBatches : ∃ full few, full.length = 256 ∧ few.length = 2 ∧
    subBatches exampleMerkleEvm (exampleChunks.map (computeAddress clear)) exampleMerkle =
      [(exampleMerkle 0, full), (exampleMerkle 1, few)] := by
  have hlen : (exampleChunks.map (computeAddress clear)).length = 258 := by simp [exampleChunks]
  generalize exampleChunks.map (computeAddress clear) = addresses at hlen
  refine ⟨slice addresses 0 256, slice addresses 256 512, ?_, ?_, ?_⟩
  · simp [slice, hlen]
  · simp [slice, hlen]
  · have hcount : (addresses.length + 256 - 1) / 256 = 2 := by rw [hlen]
    change (chunked 256 addresses).mapIdx _ = _
    rw [chunked, hcount]
    rfl

theorem shortOfPeers_example {addresses : List XorName} (hlen : addresses.length = 2)
    (dataSize : UInt64) :
    ShortOfPeers exampleMerkleEvm exampleClient dataTypeChunk dataSize
      (exampleMerkle 1, addresses) := by
  have hmidpoints : exampleMerkleEvm.rewardCandidates addresses 1000 = .ok [[0], [1]] := by
    simp only [exampleMerkleEvm, hlen]
    rfl
  have htree : exampleMerkleEvm.fromXornames addresses = .ok 1 := by
    simp only [exampleMerkleEvm, hlen]
    rfl
  have hnow : (exampleMerkle 1).now = .ok 1000 := rfl
  have hpools : ∃ msg, buildCandidatePools exampleMerkleEvm (exampleMerkle 1) [[0], [1]]
      dataTypeChunk dataSize 1000 = .error (.insufficientPeers msg) := ⟨_, rfl⟩
  obtain ⟨msg, hpools⟩ := hpools
  refine ⟨msg, ?_⟩
  simp only [payMerkleTree, htree, hnow, hmidpoints, hpools, Except.mapError, bind, Except.bind]
  rfl

/-- **Paid for by the first sub-batch, and again by the first wave.** -/
theorem not_upload_pays_once : ¬ ∀ u, UploadsOnce (dataUploadWithMode clear exampleMerkleEvm
    exampleClient .auto exampleMerkle u (.ok (⟨[], none⟩, exampleChunks))) := by
  obtain ⟨full, few, hfull, hfew, hbatches⟩ := exampleBatches
  have hquoted : CanBeQuoted exampleMerkleEvm.toClientEvm exampleClient := by
    have hok : (getStoreQuotes exampleClientEvm exampleClient (exampleQuoteNet ∅) .asStarted
      (quoteRequestOf clear [5])).toOption.isSome = true := by decide +kernel
    rcases hget : getStoreQuotes exampleClientEvm exampleClient (exampleQuoteNet ∅) .asStarted
      (quoteRequestOf clear [5]) with e | quotes
    · rw [hget] at hok
      cases hok
    · exact ⟨_, _, _, quotes, hget⟩
  rw [dataUpload_once_iff, hbatches]
  intro h
  have hlen : exampleChunks.length = 258 := by simp [exampleChunks]
  have huse : shouldUseMerkle exampleChunks.length .auto = true := by
    rw [hlen]
    rfl
  refine (h huse).2 ⟨rfl, hquoted, ?_⟩
  rw [hbatches]
  refine ⟨[(exampleMerkle 0, full)], (exampleMerkle 1, few), [], rfl, List.cons_ne_nil _ _, ?_,
    shortOfPeers_example hfew _⟩
  intro b hb
  rw [List.mem_singleton.1 hb]
  exact completes_example hfull _

end Example

end Autonomi.AntClient
