/-
  Payments that somebody else signs (`PaymentIntent`, `finalize_batch_payment` in
  `ant-core/src/data/client/batch.rs`).
-/
import Autonomi.Client.Batch
import Autonomi.Client.PartlyStored

namespace Autonomi.AntClient

open Lib AntNode

structure PaymentIntent where
  payments : List AntNode.QuotePayment
  totalAmount : AntNode.Amount
  deriving DecidableEq

namespace PaymentIntent

/-- `+=` wraps. -/
def add (intent : PaymentIntent) (info : AntNode.QuotePaymentInfo) : PaymentIntent :=
  if info.amount = 0 then intent
  else ⟨intent.payments ++ [info.payment], (intent.totalAmount + info.amount) % 2 ^ 256⟩

def fromPreparedChunks (prepared : List PreparedChunk) : PaymentIntent :=
  prepared.foldl (fun intent chunk => chunk.payment.quotes.foldl add intent) ⟨[], 0⟩

end PaymentIntent

variable (C : ClientEvm)

def finalizeBatchPayment (prepared : List PreparedChunk) (txHashMap : Lookup QuoteHash TxHash) :
    Except Error (List PaidChunk) :=
  buildPaidChunks C prepared txHashMap

/-! ## One payment -/

/-- The quotes in the order of their prices, and the one in the middle. -/
structure Median (quotes sorted : List (PaymentQuote × AntNode.Amount)) (median : PaymentQuote × AntNode.Amount) :
    Prop where
  perm : sorted.Perm quotes
  pairwise : sorted.Pairwise fun a b => a.2 ≤ b.2
  getElem : sorted[2]? = some median

/-- The quotes, sorted by price, of which the median carries three times its price. -/
def IsPaymentOf (E : Evm) (quotes : List (PaymentQuote × AntNode.Amount)) (payment : SingleNodePayment) :
    Prop :=
  ∃ sorted median, Median quotes sorted median ∧
    payment.quotes = sorted.mapIdx fun idx q =>
      ⟨E.quoteHash q.1, q.1.rewardsAddress, if idx = 2 then 3 * median.2 else 0,
        q.1.quotingMetrics⟩

/-- Three times the median price is too much. -/
def Overflows (quotes : List (PaymentQuote × AntNode.Amount)) : Prop :=
  ∃ sorted median, Median quotes sorted median ∧ 2 ^ 256 ≤ 3 * median.2

variable {C} {E : Evm} {quotes : List (PaymentQuote × AntNode.Amount)} {chunk : PreparedChunk}
  {paid : PaidChunk} {txHashMap : Lookup QuoteHash TxHash}

/-- The median price does not depend on the order of equal prices. -/
theorem Median.price_eq {sorted sorted' : List (PaymentQuote × AntNode.Amount)}
    {median median' : PaymentQuote × AntNode.Amount} (h : Median quotes sorted median)
    (h' : Median quotes sorted' median') : median.2 = median'.2 := by
  have hprices : sorted.map Prod.snd = sorted'.map Prod.snd := by
    refine ((h.perm.trans h'.perm.symm).map Prod.snd).eq_of_pairwise (fun _ _ _ _ => le_antisymm) ?_ ?_
    · exact List.pairwise_map.2 h.pairwise
    · exact List.pairwise_map.2 h'.pairwise
  have hget : (sorted.map Prod.snd)[2]? = (sorted'.map Prod.snd)[2]? := by rw [hprices]
  rw [List.getElem?_map, List.getElem?_map, h.getElem, h'.getElem] at hget
  exact Option.some.inj hget

theorem median_sortByPrice (hlen : quotes.length = closeGroupSize) :
    ∃ median, Median quotes (sortByPrice quotes) median := by
  have hperm : (sortByPrice quotes).Perm quotes := List.perm_insertionSort _ quotes
  have hlength : (sortByPrice quotes).length = closeGroupSize := hperm.length_eq.trans hlen
  have : Std.Total fun a b : PaymentQuote × AntNode.Amount => a.2 ≤ b.2 := ⟨fun a b => le_total a.2 b.2⟩
  have : IsTrans (PaymentQuote × AntNode.Amount) fun a b => a.2 ≤ b.2 := ⟨fun _ _ _ => le_trans⟩
  have hmedian : 2 < (sortByPrice quotes).length := by rw [hlength]; decide
  exact ⟨_, hperm, List.pairwise_insertionSort _ quotes, List.getElem?_eq_getElem hmedian⟩

theorem fromQuotes_cases (hlen : quotes.length = closeGroupSize) :
    (∃ payment, SingleNodePayment.fromQuotes E quotes = .ok payment ∧
        IsPaymentOf E quotes payment) ∧ ¬ Overflows quotes ∨
      (∃ e, SingleNodePayment.fromQuotes E quotes = .error e) ∧ Overflows quotes := by
  obtain ⟨median, hmedian⟩ := median_sortByPrice hlen
  have hget : (sortByPrice quotes)[medianIndex]? = some median := hmedian.getElem
  have hinfos : ∀ price, (SingleNodePayment.infosOf E price (sortByPrice quotes)).length =
      closeGroupSize := by
    intro price
    rw [SingleNodePayment.infosOf, List.length_mapIdx, hmedian.perm.length_eq, hlen]
  by_cases hfits : median.2 * 3 < 2 ^ 256
  · refine Or.inl ⟨⟨⟨_, hinfos (median.2 * 3)⟩, ?_, sortByPrice quotes, median, hmedian, ?_⟩, ?_⟩
    · simp only [SingleNodePayment.fromQuotes, hlen, ensure, if_true, hget, checkedMul, if_pos hfits,
        okOr_some, bind, Except.bind, hinfos, dif_pos]
      rfl
    · rw [Nat.mul_comm]
      rfl
    · rintro ⟨sorted, median', hmedian', hlarge⟩
      rw [hmedian'.price_eq hmedian, Nat.mul_comm] at hlarge
      exact absurd hfits hlarge.not_gt
  · refine Or.inr ⟨⟨.payment "Price overflow when calculating 3x median", ?_⟩, sortByPrice quotes,
      median, hmedian, by rw [Nat.mul_comm]; exact not_lt.1 hfits⟩
    simp only [SingleNodePayment.fromQuotes, hlen, ensure, if_true, hget, checkedMul, if_neg hfits,
      okOr_some, okOr_none, bind, Except.bind]

theorem fromQuotes_eq_ok {payment : SingleNodePayment} (hlen : quotes.length = closeGroupSize)
    (h : SingleNodePayment.fromQuotes E quotes = .ok payment) : IsPaymentOf E quotes payment := by
  rcases fromQuotes_cases hlen with ⟨⟨payment', hpayment', hof⟩, -⟩ | ⟨⟨e, he⟩, -⟩
  · rw [h] at hpayment'
    rwa [Except.ok.inj hpayment']
  · rw [h] at he
    cases he

theorem fromQuotes_error_iff (hlen : quotes.length = closeGroupSize) :
    (∃ e, SingleNodePayment.fromQuotes E quotes = .error e) ↔ Overflows quotes := by
  rcases @fromQuotes_cases E quotes hlen with ⟨⟨payment, hpayment, -⟩, hnot⟩ | h
  · rw [hpayment]
    constructor
    · rintro ⟨e, ⟨⟩⟩
    · exact fun h => absurd h hnot
  · exact iff_of_true h.1 h.2

/-! ## The intent -/

/-- The entries that are paid. -/
def paidEntries (prepared : List PreparedChunk) : List AntNode.QuotePaymentInfo :=
  (prepared.flatMap fun chunk => chunk.payment.quotes).filter fun info => info.amount ≠ 0

namespace PaymentIntent

theorem foldl_add (infos : List AntNode.QuotePaymentInfo) (intent : PaymentIntent)
    (hfits : intent.totalAmount < 2 ^ 256) :
    infos.foldl add intent =
      ⟨intent.payments ++ (infos.filter fun info => info.amount ≠ 0).map AntNode.QuotePaymentInfo.payment,
        (intent.totalAmount + (infos.map AntNode.QuotePaymentInfo.amount).sum) % 2 ^ 256⟩ := by
  induction infos generalizing intent with
  | nil =>
    rw [List.foldl_nil, List.filter_nil, List.map_nil, List.append_nil, List.map_nil, List.sum_nil,
      Nat.add_zero, Nat.mod_eq_of_lt hfits]
  | cons info infos ih =>
    rw [List.foldl_cons]
    by_cases hzero : info.amount = 0
    · rw [add, if_pos hzero, ih intent hfits]
      simp [hzero]
    · rw [add, if_neg hzero, ih _ (Nat.mod_lt _ (by positivity))]
      simp [hzero, Nat.add_assoc]

theorem fromPreparedChunks_eq (prepared : List PreparedChunk) :
    fromPreparedChunks prepared =
      ⟨(paidEntries prepared).map AntNode.QuotePaymentInfo.payment,
        (((paidEntries prepared).map AntNode.QuotePaymentInfo.amount).sum) % 2 ^ 256⟩ := by
  have hsum : ∀ infos : List AntNode.QuotePaymentInfo, (infos.map AntNode.QuotePaymentInfo.amount).sum =
      ((infos.filter fun info => info.amount ≠ 0).map AntNode.QuotePaymentInfo.amount).sum := by
    intro infos
    induction infos with
    | nil => rfl
    | cons info infos ih =>
      by_cases hzero : info.amount = 0
      · simp [hzero, ih]
      · simp [hzero, ih]
  rw [fromPreparedChunks, ← List.foldl_flatMap, foldl_add _ _ (by decide), paidEntries, ← hsum]
  simp

end PaymentIntent

/-! ## The proofs -/

/-- What the map has for the entries of the chunk that are paid. -/
def receipts (txHashMap : Lookup QuoteHash TxHash) (chunk : PreparedChunk) : List (Option TxHash) :=
  (chunk.payment.quotes.filter fun info => info.amount ≠ 0).map fun info =>
    txHashMap info.quoteHash

/-- The proof of a paid chunk has the quotes of the chunk and the hashes of what was paid for it. -/
structure ProvedBy (C : ClientEvm) (txHashMap : Lookup QuoteHash TxHash) (chunk : PreparedChunk)
    (paid : PaidChunk) : Prop where
  content : paid.content = chunk.content
  address : paid.address = chunk.address
  quotedPeers : paid.quotedPeers = chunk.quotedPeers
  proof : ∃ txHashes, deserializeProof C.toEvm paid.proofBytes = .ok (⟨chunk.peerQuotes⟩, txHashes) ∧
    receipts txHashMap chunk = txHashes.map some

theorem txHashes_eq_ok {ε : Type} {missing : QuoteHash → ε} {txHashes : List TxHash} :
    chunk.payment.txHashes missing txHashMap = .ok txHashes ↔
      receipts txHashMap chunk = txHashes.map some := by
  have hfilter : (chunk.payment.quotes.filter fun info => 0 < info.amount) =
      chunk.payment.quotes.filter fun info => info.amount ≠ 0 := by
    simp only [Nat.pos_iff_ne_zero]
  rw [SingleNodePayment.txHashes, hfilter, mapM_eq_ok, receipts, ← List.forall₂_eq_eq_eq,
    List.forall₂_map_left_iff, List.forall₂_map_right_iff]
  simp only [okOr_eq_ok]

/-- The proof can be written, and is read back. -/
def RoundTrips (C : ClientEvm) (proof : PaymentProof) : Prop :=
  ∃ body, C.writePaymentProof proof = .ok body ∧ C.readPaymentProof body = .ok proof

theorem RoundTrips.serializeProof {proof : PaymentProof} (h : RoundTrips C proof) :
    ∃ bytes, serializeProof C proof = .ok bytes ∧
      deserializeProof C.toEvm bytes = .ok (proof.proofOfPayment, proof.txHashes) := by
  obtain ⟨body, hbody, hread⟩ := h
  refine ⟨proofTagSingleNode :: body, ?_, ?_⟩
  · rw [AntClient.serializeProof, serializeSingleNodeProof, hbody]
    rfl
  · simp [deserializeProof, hread]

theorem buildPaidChunk_isOk {txHashes : List TxHash}
    (hwrite : RoundTrips C ⟨⟨chunk.peerQuotes⟩, txHashes⟩)
    (h : receipts txHashMap chunk = txHashes.map some) :
    ∃ paid, buildPaidChunk C txHashMap chunk = .ok paid := by
  obtain ⟨bytes, hbytes, -⟩ := hwrite.serializeProof
  refine ⟨⟨chunk.content, chunk.address, chunk.quotedPeers, bytes⟩, ?_⟩
  exact bind_eq_ok.2 ⟨txHashes, txHashes_eq_ok.2 h, bind_eq_ok.2 ⟨bytes, hbytes, rfl⟩⟩

theorem provedBy_of_buildPaidChunk
    (hwrite : ∀ txHashes, RoundTrips C ⟨⟨chunk.peerQuotes⟩, txHashes⟩)
    (h : buildPaidChunk C txHashMap chunk = .ok paid) : ProvedBy C txHashMap chunk paid := by
  obtain ⟨txHashes, htx, h⟩ := bind_eq_ok.1 h
  obtain ⟨bytes, hbytes, h⟩ := bind_eq_ok.1 h
  obtain rfl := Except.ok.inj h
  obtain ⟨bytes', hbytes', hread⟩ := (hwrite txHashes).serializeProof
  rw [hbytes] at hbytes'
  obtain rfl := Except.ok.inj hbytes'
  exact ⟨rfl, rfl, rfl, txHashes, hread, txHashes_eq_ok.1 htx⟩

/-- What is present in the map is present in a list. -/
theorem exists_map_some {α : Type} : ∀ {l : List (Option α)}, (∀ o ∈ l, o.isSome) →
    ∃ as : List α, l = as.map some
  | [], _ => ⟨[], rfl⟩
  | o :: l, h => by
    obtain ⟨a, rfl⟩ := Option.isSome_iff_exists.1 (h o List.mem_cons_self)
    obtain ⟨as, rfl⟩ := exists_map_some fun o ho => h o (List.mem_cons_of_mem _ ho)
    exact ⟨a :: as, rfl⟩

section Finalize

variable {prepared : List PreparedChunk}
  (hwrite : ∀ chunk ∈ prepared, ∀ txHashes, RoundTrips C ⟨⟨chunk.peerQuotes⟩, txHashes⟩)
include hwrite

theorem finalizeBatchPayment_isOk_iff :
    (∃ paid, finalizeBatchPayment C prepared txHashMap = .ok paid) ↔
      ∀ info ∈ paidEntries prepared, (txHashMap info.quoteHash).isSome := by
  constructor
  · rintro ⟨paid, hpaid⟩ info hinfo
    obtain ⟨hinfo, hamount⟩ := List.mem_filter.1 hinfo
    obtain ⟨chunk, hchunk, hinfo⟩ := List.mem_flatMap.1 hinfo
    obtain ⟨paidChunk, hbuilt⟩ := ok_of_mem (mapM_eq_ok.1 hpaid) hchunk
    obtain ⟨txHashes, -, hreceipts⟩ :=
      (provedBy_of_buildPaidChunk (hwrite chunk hchunk) hbuilt).proof
    have hmem : txHashMap info.quoteHash ∈ receipts txHashMap chunk :=
      List.mem_map_of_mem (List.mem_filter.2 ⟨hinfo, hamount⟩)
    rw [hreceipts] at hmem
    obtain ⟨txHash, -, heq⟩ := List.mem_map.1 hmem
    rw [← heq]
    rfl
  · intro hall
    refine mapM_isOk fun chunk hchunk => ?_
    have hsome : ∀ o ∈ receipts txHashMap chunk, o.isSome := by
      intro o ho
      obtain ⟨info, hinfo, rfl⟩ := List.mem_map.1 ho
      obtain ⟨hinfo, hamount⟩ := List.mem_filter.1 hinfo
      exact hall info (List.mem_filter.2 ⟨List.mem_flatMap.2 ⟨chunk, hchunk, hinfo⟩, hamount⟩)
    obtain ⟨txHashes, htx⟩ := exists_map_some hsome
    exact buildPaidChunk_isOk (hwrite chunk hchunk txHashes) htx

end Finalize

/-- **External-signer payment agreement.** -/
theorem external_signer_agrees {prepared : List PreparedChunk}
    (hwrite : ∀ chunk ∈ prepared, ∀ txHashes, RoundTrips C ⟨⟨chunk.peerQuotes⟩, txHashes⟩) :
    (∀ quotes, quotes.length = closeGroupSize →
      ((∃ e, SingleNodePayment.fromQuotes C.toEvm quotes = .error e) ↔ Overflows quotes) ∧
      ∀ payment, SingleNodePayment.fromQuotes C.toEvm quotes = .ok payment →
        IsPaymentOf C.toEvm quotes payment) ∧
    (PaymentIntent.fromPreparedChunks prepared).payments =
      (paidEntries prepared).map AntNode.QuotePaymentInfo.payment ∧
    (((paidEntries prepared).map AntNode.QuotePaymentInfo.amount).sum < 2 ^ 256 →
      (PaymentIntent.fromPreparedChunks prepared).totalAmount =
        ((paidEntries prepared).map AntNode.QuotePaymentInfo.amount).sum) ∧
    ∀ txHashMap,
      ((∃ paid, finalizeBatchPayment C prepared txHashMap = .ok paid) ↔
        ∀ p ∈ (PaymentIntent.fromPreparedChunks prepared).payments, (txHashMap p.1).isSome) ∧
      ∀ paid, finalizeBatchPayment C prepared txHashMap = .ok paid →
        List.Forall₂ (ProvedBy C txHashMap) prepared paid := by
  refine ⟨fun quotes hlen => ⟨fromQuotes_error_iff hlen, fun payment => fromQuotes_eq_ok hlen⟩, ?_⟩
  rw [PaymentIntent.fromPreparedChunks_eq]
  refine ⟨rfl, Nat.mod_eq_of_lt, fun txHashMap => ⟨?_, fun paid hpaid => ?_⟩⟩
  · rw [finalizeBatchPayment_isOk_iff hwrite]
    simp [AntNode.QuotePaymentInfo.payment]
  · obtain ⟨hlen, hall⟩ := List.forall₂_iff_zip.1 (mapM_eq_ok.1 hpaid)
    refine List.forall₂_iff_zip.2 ⟨hlen, fun {chunk paid} hmem => ?_⟩
    exact provedBy_of_buildPaidChunk (hwrite chunk (List.of_mem_zip hmem).1) (hall hmem)

/-! ### An intent for one chunk -/

/-- A proof is written as its hashes, those of the quotes being `quotes`. -/
def exampleSigner (quotes : List (EncodedPeerId × PaymentQuote)) : ClientEvm :=
  { exampleClientEvm with
    writePaymentProof := fun proof => .ok (proof.txHashes.flatMap List.Vector.toList)
    readPaymentProof := fun body =>
      match times (byteArray 32) (body.length / 32) body with
      | .ok (txHashes, _) => .ok ⟨⟨quotes⟩, txHashes⟩
      | .error _ => .error "invalid proof" }

theorem roundTrips_exampleSigner (quotes : List (EncodedPeerId × PaymentQuote))
    (txHashes : List TxHash) : RoundTrips (exampleSigner quotes) ⟨⟨quotes⟩, txHashes⟩ := by
  refine ⟨txHashes.flatMap List.Vector.toList, rfl, ?_⟩
  have hlen : (txHashes.flatMap List.Vector.toList).length / 32 = txHashes.length := by
    simp [List.length_flatMap]
  have hread := Reads.times (fun v (_ : v ∈ txHashes) => Reads.byteArray v) []
  simp only [List.append_nil] at hread
  simp only [exampleSigner, hlen, hread]

def exampleQuotes : List (EncodedPeerId × PaymentQuote) :=
  (List.range 5).map fun i => exampleQuote exampleContent (seconds 1) i (exampleAddress 0)

def exampleIntended : PreparedChunk where
  content := [5]
  address := exampleContent
  quotedPeers := exampleGroup
  payment := (SingleNodePayment.fromQuotes exampleClientEvm.toEvm
    (exampleQuotes.map fun q => (q.2, 7))).toOption.get (by decide)
  peerQuotes := exampleQuotes

theorem external_signer_agrees_one :
    (PaymentIntent.fromPreparedChunks [exampleIntended]).totalAmount = 21 ∧
      ∃ paid, finalizeBatchPayment (exampleSigner exampleQuotes) [exampleIntended]
        (fun _ => some (padTo 32 [1])) = .ok paid := by
  have hwrite : ∀ chunk ∈ [exampleIntended], ∀ txHashes,
      RoundTrips (exampleSigner exampleQuotes) ⟨⟨chunk.peerQuotes⟩, txHashes⟩ := by
    intro chunk hchunk
    obtain rfl := List.mem_singleton.1 hchunk
    exact roundTrips_exampleSigner exampleQuotes
  obtain ⟨-, -, -, hfinal⟩ := external_signer_agrees hwrite
  exact ⟨by decide, (hfinal _).1.2 fun _ _ => rfl⟩

end Autonomi.AntClient
