import Fluxfer.Hi.LoadingSpec

/-!
# The budget of a hybrid batch

`prepare_online_hybrid_batch` decides how many of the host pages of a batch are preloaded as full
blocks, and hands this budget out to the operations of the load queue. Times are rationals, so
that the share of `select_batch_split` is exact.
-/

namespace Fluxfer.Hi

open Radix Pages List Nat LoadOp

/-- A `TransferSample` that `LatestTransferSamples.update` accepts. -/
structure TransferSample where
  byteCount : Nat
  elapsedSeconds : ℚ
  byteCount_pos : 0 < byteCount
  elapsedSeconds_pos : 0 < elapsedSeconds

variable (m : TransferSample) (op : LoadOp) (q h : Nat)

def TransferSample.bandwidth : ℚ := m.byteCount / m.elapsedSeconds

/-- What the controller reads for a batch. The synopsis has positive times only. -/
structure OnlineLoading where
  pageSize : Nat
  bytesPerPagePerLayer : Nat
  onlinePrefillComputeSupported : Bool
  estimate : Nat → Nat → Option ℚ≥0
  layerWise : Option TransferSample
  pageSize_pos : 0 < pageSize
  bytesPerPagePerLayer_pos : 0 < bytesPerPagePerLayer

/-- The fields of `HybridBatchMeasurement` that the budget sets. -/
structure HybridBatchMeasurement where
  hostPages : Nat
  fullPages : Nat
  layerPages : Nat
  reason : Option String

def selectFixedRatioSplit (hostPages pageSize computeTokens : Nat) : Nat × Nat :=
  let layerPages := min hostPages (4 * computeTokens / pageSize)
  (hostPages - layerPages, layerPages)

def selectBatchSplit (hostPages bytesPerPagePerLayer : Nat) (computeSeconds : Option ℚ≥0)
    (layerWiseSample : Option TransferSample) : Nat × Nat × Option String :=
  if hostPages = 0 then (0, 0, some "no-host-pages")
  else
    match computeSeconds, layerWiseSample with
    | none, _ => (0, hostPages, some "empty-compute-bucket")
    | some _, none => (0, hostPages, some "missing-layer-wise-sample")
    | some t, some m =>
      let covered := ⌊m.bandwidth * t / bytesPerPagePerLayer⌋
      let layerPages := min hostPages (max covered 0).toNat
      (hostPages - layerPages, layerPages, none)

/-- The loop of `allocate_preload_pages`, with what is left of the budget. -/
def assignPages : List Nat → Nat → List Nat × Nat
  | [], remaining => ([], remaining)
  | n :: counts, remaining =>
    let assigned := min n remaining
    let rest := assignPages counts (remaining - assigned)
    (assigned :: rest.1, rest.2)

def allocatePreloadPages (counts : List Nat) (fullPages : Nat) : Except CacheError (List Nat) :=
  if counts.sum < fullPages then .error .invalidArgument
  else
    let r := assignPages counts fullPages
    if r.2 ≠ 0 then .error .assertion else .ok r.1

def LoadOp.pages (ps : Nat) (op : LoadOp) : Nat := numPages ps op.hostIndices.length

def LoadOp.indices : List Nat × List Nat := (op.hostIndices, op.deviceIndices)

def LoadOp.pairs : List (Nat × Nat) := op.hostIndices.zip op.deviceIndices

def LoadOp.withPreload (k : Nat) : LoadOp := { op with h2dPreloadPages := k }

namespace OnlineLoading

variable (c : OnlineLoading)

def computeSeconds : Option ℚ≥0 := if 0 < q then c.estimate q h else none

/-- The choice of `prepare_online_hybrid_batch`: full-block pages and layer-wise pages. -/
def split (forceLayerWiseReason : Option String) (hostPages : Nat) : Nat × Nat × Option String :=
  if ¬ c.onlinePrefillComputeSupported then
    let r := selectFixedRatioSplit hostPages c.pageSize q
    (r.1, r.2, some "unsupported-model-fixed-ratio-4.0")
  else
    match forceLayerWiseReason with
    | some reason => (0, hostPages, some reason)
    | none =>
      selectBatchSplit hostPages c.bytesPerPagePerLayer (c.computeSeconds q h) c.layerWise

/-- `prepare_online_hybrid_batch`, without the events of the measurements -/
def prepareOnlineHybridBatch (forceLayerWiseReason : Option String)
    (loadQueue : List LoadOp) : Except CacheError (HybridBatchMeasurement × List LoadOp) := do
  let counts := loadQueue.map (·.pages c.pageSize)
  let r := c.split q h forceLayerWiseReason counts.sum
  let pages ← allocatePreloadPages counts r.1
  .ok (⟨counts.sum, r.1, r.2.1, r.2.2⟩,
    zipWith withPreload loadQueue pages)

end OnlineLoading

/-! ## The share of a batch -/

theorem selectBatchSplit_sum (n b : Nat) (t : Option ℚ≥0) (m : Option TransferSample) :
    (selectBatchSplit n b t m).1 + (selectBatchSplit n b t m).2.1 = n := by
  unfold selectBatchSplit
  split_ifs with hn
  · exact hn.symm
  · split
    · exact zero_add n
    · exact zero_add n
    · exact Nat.sub_add_cancel (min_le_left _ _)

theorem OnlineLoading.split_sum (c : OnlineLoading) (q h : Nat) (force : Option String) (n : Nat) :
    (c.split q h force n).1 + (c.split q h force n).2.1 = n := by
  unfold OnlineLoading.split
  split_ifs
  · cases force with
    | some reason => exact zero_add n
    | none => exact selectBatchSplit_sum _ _ _ _
  · exact Nat.sub_add_cancel (min_le_left _ _)

/-- The time that `k` pages of a layer take. -/
def TransferSample.seconds (b k : Nat) : ℚ := k * b / m.bandwidth

theorem TransferSample.seconds_le_iff {b : Nat} (hb : 0 < b) (k : Nat) (t : ℚ) :
    m.seconds b k ≤ t ↔ (k : ℤ) ≤ ⌊m.bandwidth * t / b⌋ := by
  have hbw : 0 < m.bandwidth :=
    div_pos (cast_pos.mpr m.byteCount_pos) m.elapsedSeconds_pos
  rw [Int.le_floor, Int.cast_natCast, le_div_iff₀ (cast_pos.mpr hb),
    TransferSample.seconds, div_le_iff₀ hbw, mul_comm t]

theorem selectBatchSplit_greatest (n : Nat) {b : Nat} (hb : 0 < b) (t : ℚ≥0) (m : TransferSample) :
    IsGreatest {k | k ≤ n ∧ m.seconds b k ≤ t} (selectBatchSplit n b (some t) (some m)).2.1 := by
  by_cases hn : n = 0
  · subst hn
    refine ⟨⟨le_rfl, ?_⟩, fun k hk => hk.1⟩
    show m.seconds b 0 ≤ t
    rw [TransferSample.seconds, cast_zero, zero_mul, zero_div]
    exact t.2
  · have hfloor : 0 ≤ ⌊m.bandwidth * t / b⌋ := Int.floor_nonneg.mpr (by
      have := m.elapsedSeconds_pos
      unfold TransferSample.bandwidth
      positivity)
    have hlayer : (selectBatchSplit n b (some t) (some m)).2.1 =
        min n ⌊m.bandwidth * t / b⌋.toNat := by
      unfold selectBatchSplit
      rw [if_neg hn]
      dsimp only
      rw [max_eq_left hfloor]
    rw [hlayer]
    refine ⟨⟨min_le_left _ _, (m.seconds_le_iff hb _ _).mpr ?_⟩, ?_⟩
    · omega
    · rintro k ⟨hk, hfit⟩
      have := (m.seconds_le_iff hb _ _).mp hfit
      exact le_min hk (by omega)

/-! ## The distribution of the budget -/

/-- Pages for operations with these page counts: no more than these, and only when all the earlier
operations have theirs. -/
inductive InOrder : List Nat → List Nat → Prop
  | nil : InOrder [] []
  | cons {n k : Nat} {counts pages : List Nat} (hle : k ≤ n)
      (hfirst : k = n ∨ ∀ j ∈ pages, j = 0) (h : InOrder counts pages) :
      InOrder (n :: counts) (k :: pages)

theorem assignPages_spec {counts : List Nat} {budget : Nat} (h : budget ≤ counts.sum) :
    (assignPages counts budget).2 = 0 ∧ (assignPages counts budget).1.sum = budget ∧
      InOrder counts (assignPages counts budget).1 := by
  induction counts generalizing budget with
  | nil => exact ⟨le_zero.mp h, (le_zero.mp h).symm, .nil⟩
  | cons n counts ih =>
    rw [sum_cons] at h
    have hrest : budget - min n budget ≤ counts.sum := by omega
    obtain ⟨hleft, hsum, horder⟩ := ih hrest
    refine ⟨hleft, ?_, .cons (min_le_left _ _) ?_ horder⟩
    · show min n budget + (assignPages counts (budget - min n budget)).1.sum = _
      omega
    · rcases le_total n budget with hn | hn
      · exact Or.inl (min_eq_left hn)
      · rw [min_eq_right hn, Nat.sub_self] at hsum ⊢
        exact Or.inr (sum_eq_zero_iff.mp hsum)

theorem InOrder.assign {ps : Nat} {queue : List LoadOp} {pages : List Nat}
    (h : InOrder (queue.map (·.pages ps)) pages) :
    (zipWith withPreload queue pages).map h2dPreloadPages = pages ∧
      (zipWith withPreload queue pages).map indices = queue.map indices ∧
      ∀ op ∈ zipWith withPreload queue pages, op.h2dPreloadPages ≤ op.pages ps := by
  induction queue generalizing pages with
  | nil =>
    cases h
    exact ⟨rfl, rfl, by simp⟩
  | cons op queue ih =>
    cases h with
    | cons hle _ h =>
      obtain ⟨hpages, hindices, hall⟩ := ih h
      refine ⟨congrArg (_ :: ·) hpages, congrArg (_ :: ·) hindices, ?_⟩
      intro o ho
      obtain rfl | ho := mem_cons.mp ho
      · exact hle
      · exact hall o ho

theorem numPages_preloadTokens {ps : Nat} (hps : 0 < ps) {op : LoadOp}
    (h : op.h2dPreloadPages ≤ op.pages ps) :
    numPages ps (op.preloadTokens ps) = op.h2dPreloadPages := by
  unfold preloadTokens
  obtain hmin | hmin := min_choice (op.h2dPreloadPages * ps) op.hostIndices.length
  · rw [hmin, numPages_mul hps]
  · rw [hmin]
    have hle := (numPages_le_iff hps).mpr (min_eq_right_iff.mp hmin)
    exact le_antisymm hle h

/-- `_split_hybrid_load_ops`: of every operation, in order, the first tokens and the others. -/
theorem zip_split {ps : Nat} {ops : List LoadOp}
    (h : ∀ op ∈ ops, op.hostIndices.length = op.deviceIndices.length) :
    (preloadIndices ps ops).1.zip (preloadIndices ps ops).2 =
        ops.flatMap (fun op => op.pairs.take (op.preloadTokens ps)) ∧
      (tailIndices ps ops).1.zip (tailIndices ps ops).2 =
        ops.flatMap (fun op => op.pairs.drop (op.preloadTokens ps)) := by
  constructor
  · rw [preloadIndices, zip_flatMap fun op hop => by
      rw [length_take, length_take, h op hop]]
    simp only [pairs, zip, take_zipWith]
  · rw [tailIndices, zip_flatMap fun op hop => by
      rw [length_drop, length_drop, h op hop]]
    simp only [pairs, zip, drop_zipWith]

/-- **The budget of a hybrid batch is spent in the order of the queue.** -/
theorem OnlineLoading.prepareOnlineHybridBatch_spec (c : OnlineLoading) (q h : Nat)
    (force : Option String) {queue : List LoadOp}
    (hlen : ∀ op ∈ queue, op.hostIndices.length = op.deviceIndices.length) :
    ∃ m ops, c.prepareOnlineHybridBatch q h force queue = .ok (m, ops) ∧
      (ops.map h2dPreloadPages).sum = m.fullPages ∧
      m.fullPages + m.layerPages = m.hostPages ∧
      m.hostPages = (queue.map (·.pages c.pageSize)).sum ∧
      InOrder (queue.map (·.pages c.pageSize)) (ops.map h2dPreloadPages) ∧
      ops.map indices = queue.map indices ∧
      (∀ op ∈ ops, numPages c.pageSize (op.preloadTokens c.pageSize) = op.h2dPreloadPages) ∧
      (preloadIndices c.pageSize ops).1.zip (preloadIndices c.pageSize ops).2 =
        ops.flatMap (fun op => op.pairs.take (op.preloadTokens c.pageSize)) ∧
      (tailIndices c.pageSize ops).1.zip (tailIndices c.pageSize ops).2 =
        ops.flatMap (fun op => op.pairs.drop (op.preloadTokens c.pageSize)) ∧
      (c.onlinePrefillComputeSupported = true → force = none →
        ∀ t s, c.computeSeconds q h = some t → c.layerWise = some s →
          IsGreatest {k | k ≤ m.hostPages ∧ s.seconds c.bytesPerPagePerLayer k ≤ t}
            m.layerPages) := by
  set counts := queue.map (·.pages c.pageSize)
  set r := c.split q h force counts.sum with hr
  have hsum : r.1 + r.2.1 = counts.sum := c.split_sum q h force counts.sum
  have hle : r.1 ≤ counts.sum := by omega
  obtain ⟨hleft, hbudget, horder⟩ := assignPages_spec hle
  obtain ⟨hpages, hindices, hmost⟩ := horder.assign
  have hrun : c.prepareOnlineHybridBatch q h force queue = .ok (⟨counts.sum, r.1, r.2.1, r.2.2⟩,
      zipWith withPreload queue (assignPages counts r.1).1) := by
    have halloc : allocatePreloadPages counts r.1 = .ok (assignPages counts r.1).1 :=
      (if_neg (by omega)).trans (if_neg (not_not.mpr hleft))
    show (allocatePreloadPages counts r.1 >>= _) = _
    rw [halloc]
    rfl
  have hlen' : ∀ op ∈ zipWith withPreload queue (assignPages counts r.1).1,
      op.hostIndices.length = op.deviceIndices.length := by
    intro op hop
    obtain ⟨o, ho, heq⟩ := mem_map.mp (hindices ▸ mem_map_of_mem hop)
    obtain ⟨hhost, hdevice⟩ := Prod.mk.inj heq
    rw [← hhost, ← hdevice]
    exact hlen o ho
  refine ⟨_, _, hrun, ?_, hsum, rfl, ?_, hindices, ?_, (zip_split hlen').1, (zip_split hlen').2, ?_⟩
  · rw [hpages]
    exact hbudget
  · rwa [hpages]
  · intro op hop
    exact numPages_preloadTokens c.pageSize_pos (hmost op hop)
  · intro hsup hforce t s ht hs
    have hlayer : r.2.1 =
        (selectBatchSplit counts.sum c.bytesPerPagePerLayer (some t) (some s)).2.1 := by
      rw [hr]
      unfold OnlineLoading.split
      rw [if_neg (not_not.mpr hsup), hforce, ht, hs]
    rw [hlayer]
    exact selectBatchSplit_greatest _ c.bytesPerPagePerLayer_pos t s

theorem second_pos : (0 : ℚ) < 1 := by norm_num

/-- Pages of six bytes, one byte a second, and seven seconds to compute. -/
def slowLoading : OnlineLoading :=
  ⟨2, 6, true, fun _ _ => some 7, some ⟨1, 1, Nat.one_pos, second_pos⟩, Nat.two_pos,
    succ_pos 5⟩

def slowQueue : List LoadOp := [⟨[0, 1, 2, 3], [6, 7, 8, 9], 1, 0⟩, ⟨[4, 5], [2, 3], 2, 0⟩]

theorem OnlineLoading.prepareOnlineHybridBatch_slow :
    ∃ m ops, slowLoading.prepareOnlineHybridBatch 5 0 none slowQueue = .ok (m, ops) ∧
      (ops.map h2dPreloadPages).sum = 2 ∧ m.layerPages = 1 := by
  have hlen : ∀ op ∈ slowQueue, op.hostIndices.length = op.deviceIndices.length := by
    simp [slowQueue]
  obtain ⟨m, ops, hrun, hsum, hadd, hhost, -, -, -, -, -, hgreatest⟩ :=
    slowLoading.prepareOnlineHybridBatch_spec 5 0 none hlen
  have hthree : m.hostPages = 3 := hhost
  have hlayer : m.layerPages = 1 := by
    refine (hgreatest rfl rfl 7 _ rfl rfl).unique ⟨⟨by omega, ?_⟩, ?_⟩
    · norm_num [TransferSample.seconds, TransferSample.bandwidth, slowLoading]
    · rintro k ⟨-, hk⟩
      norm_num [TransferSample.seconds, TransferSample.bandwidth, slowLoading] at hk
      by_contra hlt
      have : (2 : ℚ) ≤ k := by exact_mod_cast (show 2 ≤ k by omega)
      linarith
  exact ⟨m, ops, hrun, by omega, hlayer⟩

end Fluxfer.Hi
