import Fluxfer.Disagg.HeadSlices
import Fluxfer.Lib.Writes
import Mathlib.Data.List.Nodup
import Mathlib.Data.List.GetD

/-!
# Sending KV heads between groups of different sizes

From slot to slot (`send_kvcache_slice`), and through staging buffers (`send_kvcache_staged`, the
gather and scatter kernels); groups of one size copy whole pages (`send_kvcache`). Transfers and
kernels write their cells in any order (`Written`). A cell is a byte on the first way and an
element on the second.
-/

namespace Fluxfer.Disagg

open List Nat

/-- The pages of a chunk on the ranks of both sides. -/
structure Transfer where
  pageSize : Nat
  /-- the cells of one head of one token -/
  headDim : Nat
  numLayers : Nat
  /-- `prefill_kv_indices` of each prefill rank -/
  srcPages : Nat → List Nat
  dstPages : List Nat
  pageSize_pos : 0 < pageSize
  headDim_pos : 0 < headDim
  length_eq : ∀ p, (srcPages p).length = dstPages.length
  nodup : dstPages.Nodup

/-- The K and V buffers of a rank: of each layer the K buffer, and then the V buffers. -/
abbrev Buffers (β : Type) := Nat → Nat → β

namespace Transfer

variable (q : Transfer)

def numPages : Nat := q.dstPages.length

def numTokens : Nat := q.numPages * q.pageSize

/-- `kv_item_len` of a pool with `heads` heads: the cells of a page -/
def itemLen (heads : Nat) : Nat := q.pageSize * (heads * q.headDim)

def slot (pages : List Nat) (n : Nat) : Nat :=
  pages.getD (n / q.pageSize) 0 * q.pageSize + n % q.pageSize

/-- Cell `e` of head `l` in a slot. -/
def cell (heads slot l e : Nat) : Nat := slot * (heads * q.headDim) + (l * q.headDim + e)

/-- A rank with `heads` heads holds the tokens of the chunk: its head `l` is head `g l`. -/
def Stores {β : Type} (heads : Nat) (pages : List Nat) (g : Nat → Nat)
    (data : Nat → Nat → Nat → Nat → β) (buf : Buffers β) : Prop :=
  ∀ layer < 2 * q.numLayers, ∀ n < q.numTokens, ∀ l < heads, ∀ e < q.headDim,
    buf layer (q.cell heads (q.slot pages n) l e) = data layer n (g l) e

/-! ## From slot to slot -/

/-- `send_kvcache` from rank `p`: whole pages -/
def pageWrites {β : Type} (heads p : Nat) (buf : Nat → β) : List (Nat × β) :=
  (range q.numPages).flatMap fun i =>
    (range (q.itemLen heads)).map fun b =>
      (q.dstPages.getD i 0 * q.itemLen heads + b,
        buf ((q.srcPages p).getD i 0 * q.itemLen heads + b))

/-- `send_kvcache_slice` from rank `p`, of one buffer. It sends nothing when the slice is larger
than a slot of the receiver. -/
def sliceWrites {β : Type} (w : HeadSlice) (srcHeads dstHeads p : Nat) (buf : Nat → β) :
    List (Nat × β) :=
  let srcKvItemLen := q.itemLen srcHeads
  let dstKvItemLen := q.itemLen dstHeads
  let bytesPerHeadSlice := dstKvItemLen / q.pageSize / dstHeads
  let headsBytesPerToken := w.numHeads * bytesPerHeadSlice
  if dstKvItemLen / q.pageSize < headsBytesPerToken then []
  else
    (range q.numPages).flatMap fun i => (range q.pageSize).flatMap fun t =>
      (range headsBytesPerToken).map fun b =>
        (q.dstPages.getD i 0 * dstKvItemLen +
            (t * (dstKvItemLen / q.pageSize) + w.dstHeadStart * bytesPerHeadSlice) + b,
          buf ((q.srcPages p).getD i 0 * srcKvItemLen +
            (t * (srcKvItemLen / q.pageSize) + w.srcHeadStart * bytesPerHeadSlice) + b))

/-! ## Through staging buffers -/

/-- The cells of one buffer in a staging area, for slices of `numHeads` heads. -/
def perLayerElems (numHeads : Nat) : Nat := q.numTokens * (numHeads * q.headDim)

def perRankElems (numHeads : Nat) : Nat := q.perLayerElems numHeads * (2 * q.numLayers)

/-- The cell of a pool that a lane of a kernel reads or writes: `offset` counts the cells of the
tokens, with `numHeads` heads from `headStart` on for each. -/
def lane (pages : List Nat) (heads headStart numHeads offset : Nat) : Nat :=
  q.slot pages (offset / (numHeads * q.headDim)) * (heads * q.headDim) +
    headStart * q.headDim + offset % (numHeads * q.headDim)

/-- `_fused_gather_to_staging_kernel`, into the staging buffer of the sender -/
def gatherWrites {β : Type} (w : HeadSlice) (srcHeads p : Nat) (buf : Buffers β) : List (Nat × β) :=
  (range (2 * q.numLayers)).flatMap fun layer =>
    (range (q.perLayerElems w.numHeads)).map fun o =>
      (layer * q.perLayerElems w.numHeads + o,
        buf layer (q.lane (q.srcPages p) srcHeads w.srcHeadStart w.numHeads o))

/-- The transfer of a staging buffer to its place in the region at `base`. -/
def bulkWrites {β : Type} (base rankOffset perRank : Nat) (staging : Nat → β) : List (Nat × β) :=
  (range perRank).map fun b => (base + rankOffset + b, staging b)

/-- `_fused_scatter_from_staging_kernel` on one buffer of the receiver -/
def scatterWrites {β : Type} (dstHeads numWriters numHeads : Nat) (headStart : Nat → Nat)
    (base layer : Nat) (ring : Nat → β) : List (Nat × β) :=
  (range numWriters).flatMap fun wr =>
    (range (q.perLayerElems numHeads)).map fun o =>
      (q.lane q.dstPages dstHeads (headStart wr) numHeads o,
        ring (base + (wr * q.perRankElems numHeads + layer * q.perLayerElems numHeads + o)))

end Transfer

open Transfer

namespace Config

variable (c : Config)

/-- `total_kv_head_num` of the decode side, from its pool -/
def dstTotalKvHeads : Nat := headsPerRank c.totalKvHeads c.dstTp * c.dstTp

/-- The slice that the decode side computes for the `wr`-th writer. -/
def scatterSlice (wr d : Nat) : HeadSlice :=
  computeHeadSliceParams c.srcTp c.dstTp wr d c.dstTotalKvHeads

/-- `writer_rank_bytes` of `compute_staging_layout` -/
def writerRankElems (q : Transfer) (d : Nat) : List Nat :=
  (range (numWriters c.srcTp c.dstTp)).map fun wr =>
    q.perRankElems (computeHeadSliceParams c.srcTp c.dstTp wr d c.totalKvHeads).numHeads

def rankOffset (q : Transfer) (p d : Nat) : Nat :=
  let writerIdx :=
    if 1 < numWriters c.srcTp c.dstTp then p % numWriters c.srcTp c.dstTp else 0
  ((c.writerRankElems q d).take writerIdx).sum

/-- The buffers of decode rank `d` become `dst'` when its prefill ranks send from slot to slot. -/
def SendsSlices {β : Type} (q : Transfer) (d : Nat) (src : Nat → Buffers β)
    (dst dst' : Buffers β) : Prop :=
  ∀ layer < 2 * q.numLayers, Written
    ((c.writers d).flatMap fun p =>
      if c.srcTp = c.dstTp then q.pageWrites (headsPerRank c.totalKvHeads c.srcTp) p (src p layer)
      else q.sliceWrites (c.slice p d) (headsPerRank c.totalKvHeads c.srcTp)
        (headsPerRank c.totalKvHeads c.dstTp) p (src p layer))
    (dst layer) (dst' layer)

/-- The same with staging: the prefill ranks gather into buffers, these go to the region at `base`
of the decode side, and the decode rank scatters the region. -/
def SendsStaged {β : Type} (q : Transfer) (d : Nat) (src : Nat → Buffers β)
    (dst dst' : Buffers β) : Prop :=
  if c.srcTp = c.dstTp then c.SendsSlices q d src dst dst'
  else ∃ (staging staging' : Nat → Nat → β) (base : Nat) (ring ring' : Nat → β),
    (∀ p ∈ c.writers d, Written
      (q.gatherWrites (c.slice p d) (headsPerRank c.totalKvHeads c.srcTp) p (src p))
      (staging p) (staging' p)) ∧
    Written ((c.writers d).flatMap fun p => bulkWrites base (c.rankOffset q p d)
      (q.perRankElems (c.slice p d).numHeads) (staging' p)) ring ring' ∧
    ∀ layer < 2 * q.numLayers, Written
      (q.scatterWrites (headsPerRank c.totalKvHeads c.dstTp) (numWriters c.srcTp c.dstTp)
        (c.scatterSlice 0 d).numHeads (fun wr => (c.scatterSlice wr d).dstHeadStart)
        base layer ring')
      (dst layer) (dst' layer)

/-- Whatever the chunk and the data, when the prefill ranks hold the data, so does a decode rank
after `Sends`: its heads are those that the model gives it. -/
def Correct (β : Type)
    (Sends : Transfer → Nat → (Nat → Buffers β) → Buffers β → Buffers β → Prop) : Prop :=
  ∀ (q : Transfer) (d : Nat) (data : Nat → Nat → Nat → Nat → β) (src : Nat → Buffers β)
    (dst dst' : Buffers β), d < c.dstTp →
    (∀ p < c.srcTp, q.Stores c.srcHeads (q.srcPages p) (globalHead c.totalKvHeads c.srcTp p) data
      (src p)) →
    Sends q d src dst dst' →
    q.Stores c.dstHeads q.dstPages (globalHead c.totalKvHeads c.dstTp d) data dst'

end Config

/-! ## Addresses -/

theorem lt_mul_iff {a b x : Nat} : x < a * b ↔ ∃ i < a, ∃ j < b, x = i * b + j := by
  constructor
  · intro h
    have hb : 0 < b := pos_of_ne_zero fun h0 => by simp [h0] at h
    exact ⟨x / b, Nat.div_lt_of_lt_mul (by rwa [Nat.mul_comm]), x % b, Nat.mod_lt x hb,
      (div_add_mod' x b).symm⟩
  · rintro ⟨i, hi, j, hj, rfl⟩
    calc i * b + j < (i + 1) * b := by rw [succ_mul]; omega
      _ ≤ a * b := mul_le_mul_right _ hi

theorem mul_add_inj {b i i' j j' : Nat} (hj : j < b) (hj' : j' < b)
    (h : i * b + j = i' * b + j') : i = i' ∧ j = j' := by
  have hi := congrArg (· / b) h
  have hm := congrArg (· % b) h
  have hb : 0 < b := zero_lt_of_lt hj
  simp only [mul_comm _ b, mul_add_div hb, mul_add_mod, div_eq_of_lt hj,
    div_eq_of_lt hj', mod_eq_of_lt hj, mod_eq_of_lt hj'] at hi hm
  exact ⟨hi, hm⟩

namespace Transfer

variable {q : Transfer}

theorem slot_mul_add (pages : List Nat) {i t : Nat} (ht : t < q.pageSize) :
    q.slot pages (i * q.pageSize + t) = pages.getD i 0 * q.pageSize + t := by
  rw [slot, mul_comm i, mul_add_div q.pageSize_pos, mul_add_mod, div_eq_of_lt ht,
    mod_eq_of_lt ht, add_zero]

theorem slot_inj {n n' : Nat} (hn : n < q.numTokens) (hn' : n' < q.numTokens)
    (h : q.slot q.dstPages n = q.slot q.dstPages n') : n = n' := by
  obtain ⟨i, hi, t, ht, rfl⟩ := lt_mul_iff.mp hn
  obtain ⟨i', hi', t', ht', rfl⟩ := lt_mul_iff.mp hn'
  rw [slot_mul_add _ ht, slot_mul_add _ ht'] at h
  obtain ⟨hp, rfl⟩ := mul_add_inj ht ht' h
  have hi : i < q.dstPages.length := hi
  have hi' : i' < q.dstPages.length := hi'
  rw [getD_eq_getElem _ _ hi, getD_eq_getElem _ _ hi', q.nodup.getElem_inj_iff] at hp
  rw [hp]

theorem cell_lt {heads l e : Nat} (hl : l < heads) (he : e < q.headDim) :
    l * q.headDim + e < heads * q.headDim := lt_mul_iff.mpr ⟨l, hl, e, he, rfl⟩

theorem cell_inj {heads s s' l l' e e' : Nat} (hl : l < heads) (hl' : l' < heads)
    (he : e < q.headDim) (he' : e' < q.headDim)
    (h : q.cell heads s l e = q.cell heads s' l' e') : s = s' ∧ l = l' ∧ e = e' := by
  obtain ⟨hs, hle⟩ := mul_add_inj (cell_lt hl he) (cell_lt hl' he') h
  exact ⟨hs, mul_add_inj he he' hle⟩

/-- The write takes a cell of a slice from slot to slot. -/
def InSlice {β : Type} (q : Transfer) (w : HeadSlice) (srcHeads dstHeads p : Nat) (buf : Nat → β)
    (x : Nat × β) : Prop :=
  ∃ n < q.numTokens, ∃ h < w.numHeads, ∃ e < q.headDim,
    x = (q.cell dstHeads (q.slot q.dstPages n) (w.dstHeadStart + h) e,
      buf (q.cell srcHeads (q.slot (q.srcPages p) n) (w.srcHeadStart + h) e))

variable {β : Type} {w : HeadSlice} {srcHeads dstHeads p : Nat} {buf : Nat → β}
  {x : Nat × β}

theorem cell_eq {pages : List Nat} {heads start i t h e : Nat} (ht : t < q.pageSize) :
    pages.getD i 0 * q.itemLen heads + (t * (heads * q.headDim) + start * q.headDim) +
        (h * q.headDim + e) =
      q.cell heads (q.slot pages (i * q.pageSize + t)) (start + h) e := by
  rw [slot_mul_add _ ht, cell, itemLen]
  ring

theorem itemLen_div (heads : Nat) : q.itemLen heads / q.pageSize = heads * q.headDim :=
  Nat.mul_div_cancel_left _ q.pageSize_pos

theorem mem_sliceWrites (hd : 0 < dstHeads) (hfit : w.numHeads ≤ dstHeads) :
    x ∈ q.sliceWrites w srcHeads dstHeads p buf ↔ q.InSlice w srcHeads dstHeads p buf x := by
  have hhead : dstHeads * q.headDim / dstHeads = q.headDim := Nat.mul_div_cancel_left _ hd
  have hle : ¬ dstHeads * q.headDim < w.numHeads * q.headDim :=
    (mul_le_mul_right _ hfit).not_gt
  simp only [sliceWrites, itemLen_div, hhead, if_neg hle, mem_flatMap, mem_map, mem_range]
  constructor
  · rintro ⟨i, hi, t, ht, b, hb, rfl⟩
    obtain ⟨h, hh, e, he, rfl⟩ := lt_mul_iff.mp hb
    refine ⟨i * q.pageSize + t, lt_mul_iff.mpr ⟨i, hi, t, ht, rfl⟩, h, hh, e, he, ?_⟩
    rw [cell_eq ht, cell_eq ht]
  · rintro ⟨n, hn, h, hh, e, he, rfl⟩
    obtain ⟨i, hi, t, ht, rfl⟩ := lt_mul_iff.mp hn
    refine ⟨i, hi, t, ht, h * q.headDim + e, lt_mul_iff.mpr ⟨h, hh, e, he, rfl⟩, ?_⟩
    rw [cell_eq ht, cell_eq ht]

theorem mem_pageWrites {heads : Nat} :
    x ∈ q.pageWrites heads p buf ↔ q.InSlice ⟨0, heads, 0⟩ heads heads p buf x := by
  have hcell : ∀ {pages : List Nat} {i t h e : Nat}, t < q.pageSize →
      pages.getD i 0 * q.itemLen heads + (t * (heads * q.headDim) + (h * q.headDim + e)) =
        q.cell heads (q.slot pages (i * q.pageSize + t)) (0 + h) e := by
    intro pages i t h e ht
    rw [← cell_eq ht]
    ring
  simp only [pageWrites, mem_flatMap, mem_map, mem_range]
  constructor
  · rintro ⟨i, hi, b, hb, rfl⟩
    obtain ⟨t, ht, r, hr, rfl⟩ := lt_mul_iff.mp hb
    obtain ⟨h, hh, e, he, rfl⟩ := lt_mul_iff.mp hr
    refine ⟨i * q.pageSize + t, lt_mul_iff.mpr ⟨i, hi, t, ht, rfl⟩, h, hh, e, he, ?_⟩
    rw [hcell ht, hcell ht]
  · rintro ⟨n, hn, h, hh, e, he, rfl⟩
    obtain ⟨i, hi, t, ht, rfl⟩ := lt_mul_iff.mp hn
    refine ⟨i, hi, t * (heads * q.headDim) + (h * q.headDim + e),
      lt_mul_iff.mpr ⟨t, ht, _, lt_mul_iff.mpr ⟨h, hh, e, he, rfl⟩, rfl⟩, ?_⟩
    rw [hcell ht, hcell ht]

/-! ### Staging areas -/

theorem lane_eq {pages : List Nat} {heads start numHeads n h e : Nat} (hh : h < numHeads)
    (he : e < q.headDim) :
    q.lane pages heads start numHeads (n * (numHeads * q.headDim) + (h * q.headDim + e)) =
      q.cell heads (q.slot pages n) (start + h) e := by
  have hlt := cell_lt hh he
  rw [lane, mul_comm n, mul_add_div (zero_lt_of_lt hlt), mul_add_mod,
    div_eq_of_lt hlt, mod_eq_of_lt hlt, cell]
  ring_nf

theorem gathered {bufs : Buffers β} {m m' : Nat → β}
    (hw : Written (q.gatherWrites w srcHeads p bufs) m m') {layer o : Nat}
    (hlayer : layer < 2 * q.numLayers) (ho : o < q.perLayerElems w.numHeads) :
    m' (layer * q.perLayerElems w.numHeads + o) =
      bufs layer (q.lane (q.srcPages p) srcHeads w.srcHeadStart w.numHeads o) := by
  refine hw.eq ?_ ?_
  · exact ⟨_, mem_flatMap.mpr ⟨layer, mem_range.mpr hlayer,
      mem_map.mpr ⟨o, mem_range.mpr ho, rfl⟩⟩, rfl⟩
  · intro x hx haddr
    obtain ⟨layer', -, hx⟩ := mem_flatMap.mp hx
    obtain ⟨o', ho', rfl⟩ := mem_map.mp hx
    obtain ⟨rfl, rfl⟩ := mul_add_inj (mem_range.mp ho') ho haddr
    rfl

end Transfer

namespace Config

variable {c : Config} {q : Transfer} {d : Nat} {β : Type} {g : Nat → Nat}
  {data : Nat → Nat → Nat → Nat → β} {src : Nat → Buffers β} {dst dst' : Buffers β}

/-- When the writes of each prefill rank take its slice from slot to slot, the decode rank holds
the heads that are sent. -/
theorem Carries.stores (hc : c.Carries d g)
    (hsrc : ∀ p < c.srcTp, q.Stores c.srcHeads (q.srcPages p)
      (globalHead c.totalKvHeads c.srcTp p) data (src p))
    {ws : Nat → List (Nat × β)}
    (hws : ∀ layer < 2 * q.numLayers, ∀ x, x ∈ ws layer ↔ ∃ p ∈ c.writers d,
      q.InSlice (c.slice p d) c.srcHeads c.dstHeads p (src p layer) x)
    (hw : ∀ layer < 2 * q.numLayers, Written (ws layer) (dst layer) (dst' layer)) :
    q.Stores c.dstHeads q.dstPages g data dst' := by
  intro layer hlayer n hn l hl e he
  refine (hw layer hlayer).eq ?_ ?_
  · obtain ⟨p, hp, hcov⟩ := hc.covered l hl
    obtain ⟨hlow, hhigh⟩ := hcov
    refine ⟨_, (hws layer hlayer _).mpr
      ⟨p, hp, n, hn, l - (c.slice p d).dstHeadStart, by omega, e, he, rfl⟩, ?_⟩
    rw [Nat.add_sub_cancel' hlow]
  · intro x hx haddr
    obtain ⟨p, hp, n', hn', h, hh, e', he', rfl⟩ := (hws layer hlayer x).mp hx
    have hfit := hc.fits p hp
    obtain ⟨hs, hlh, rfl⟩ := cell_inj (by omega) hl he' he haddr
    obtain rfl := slot_inj hn' hn hs
    have hcov : (c.slice p d).Covers l := ⟨by omega, by omega⟩
    have hsource : (c.slice p d).srcHeadStart + h = (c.slice p d).source l := by
      rw [HeadSlice.source]
      omega
    rw [hsource]
    exact (hsrc p (hc.writers_lt p hp) layer hlayer _ hn' _ (hc.source_lt p hp l hl hcov) _ he').trans
      (by rw [hc.source_eq p hp l hl hcov])

theorem sendsSlices_stores (hc : c.Carries d g) (hd : d < c.dstTp)
    (hsrc : ∀ p < c.srcTp, q.Stores c.srcHeads (q.srcPages p)
      (globalHead c.totalKvHeads c.srcTp p) data (src p))
    (hs : c.SendsSlices q d src dst dst') : q.Stores c.dstHeads q.dstPages g data dst' := by
  unfold SendsSlices at hs
  rw [headsPerRank_eq c.heads_pos c.src_pos, headsPerRank_eq c.heads_pos c.dst_pos] at hs
  refine hc.stores hsrc (fun layer _ x => ?_) hs
  rw [mem_flatMap]
  refine exists_congr fun p => and_congr_right fun hp => ?_
  split_ifs with heq
  · have hheads : c.srcHeads = c.dstHeads := by rw [srcHeads, heq]
    have hslice : c.slice p d = ⟨0, c.srcHeads, 0⟩ := by
      rw [slice_of_dst heq.le hd, ← hheads, mul_mod_left]
    rw [hslice, ← hheads]
    exact mem_pageWrites
  · have hfit := hc.fits p hp
    exact mem_sliceWrites c.dstHeads_pos ((le_add_left _ _).trans hfit)

/-! ### Writers -/

/-- The `wr`-th prefill rank of a decode rank. -/
def writerOf (c : Config) (d wr : Nat) : Nat :=
  if c.dstTp < c.srcTp then d * (c.srcTp / c.dstTp) + wr else d / (c.dstTp / c.srcTp)

def sentHeads (c : Config) : Nat := if c.dstTp < c.srcTp then c.srcHeads else c.dstHeads

theorem numWriters_of_src (hlt : c.dstTp < c.srcTp) :
    numWriters c.srcTp c.dstTp = c.srcTp / c.dstTp := by
  rw [numWriters, if_pos hlt, max_eq_right c.dst_pos]

theorem mem_writers_iff (hd : d < c.dstTp) {p : Nat} :
    p ∈ c.writers d ↔ ∃ wr < numWriters c.srcTp c.dstTp, p = c.writerOf d wr := by
  by_cases hlt : c.dstTp < c.srcTp
  · obtain ⟨k, hk⟩ := dvd_of_lt hlt
    have hdiv := Nat.div_eq_of_eq_mul_right c.dst_pos hk
    simp only [mem_writers_of_src hlt hk hd, numWriters_of_src hlt, writerOf, if_pos hlt, hdiv]
  · obtain ⟨k, hk⟩ := dvd_of_le hlt
    have hdiv := Nat.div_eq_of_eq_mul_right c.src_pos hk
    simp [writers_of_dst hk hd, numWriters, writerOf, hlt, hdiv]

theorem numHeads_eq (p d : Nat) : (c.slice p d).numHeads = c.sentHeads := by
  unfold slice computeHeadSliceParams sentHeads
  split_ifs
  · exact headsPerRank_eq c.heads_pos c.src_pos
  · exact headsPerRank_eq c.heads_pos c.dst_pos

theorem dstTotalKvHeads_eq (hr : c.dstReplicas = 1) : c.dstTotalKvHeads = c.totalKvHeads := by
  have hd : c.totalKvHeads * c.dstReplicas = c.dstTp * c.dstHeads := c.dst_compatible.mul_eq
  rw [dstTotalKvHeads, headsPerRank_eq c.heads_pos c.dst_pos, mul_comm, ← hd, hr, mul_one]

/-- The slices of the decode side are those of the prefill side, up to the start on the prefill
side, which it does not use. -/
theorem scatterSlice_eq (hd : d < c.dstTp) {wr : Nat} (hwr : wr < numWriters c.srcTp c.dstTp) :
    (c.scatterSlice wr d).numHeads = c.sentHeads ∧
      (c.scatterSlice wr d).dstHeadStart = (c.slice (c.writerOf d wr) d).dstHeadStart := by
  by_cases hlt : c.dstTp < c.srcTp
  · obtain ⟨k, hk⟩ := dvd_of_lt hlt
    have hdiv := Nat.div_eq_of_eq_mul_right c.dst_pos hk
    rw [numWriters_of_src hlt, hdiv] at hwr
    rw [writerOf, if_pos hlt, hdiv, slice_writer hlt hk hd hwr]
    by_cases hr : c.dstReplicas = 1
    · have hlt' : wr < c.srcTp := by
        have := writer_lt hk hd hwr
        omega
      have hs : c.scatterSlice wr d = c.slice wr d := by
        rw [scatterSlice, dstTotalKvHeads_eq hr, slice]
      rw [hs]
      exact ⟨numHeads_eq wr d, by rw [slice_of_src hlt hlt', startOf]⟩
    · -- every rank has one head
      have hone : c.dstHeads = 1 := c.dst_cases.resolve_left hr
      have hsrc : c.srcHeads = 1 := by
        obtain ⟨-, h, -⟩ | ⟨-, h, -⟩ | ⟨h, -, -⟩ := layout_of_src hk
        · exact absurd h hr
        · exact absurd h hr
        · exact h
      have htotal : c.dstTotalKvHeads = c.dstTp := by
        rw [dstTotalKvHeads, headsPerRank_eq c.heads_pos c.dst_pos]
        exact (congrArg (· * c.dstTp) hone).trans (one_mul _)
      have hsp : headsPerRank c.dstTp c.srcTp = 1 := by
        rw [headsPerRank, Nat.div_eq_of_lt hlt]
        rfl
      have hdp : headsPerRank c.dstTp c.dstTp = 1 := by
        rw [headsPerRank, Nat.div_self c.dst_pos]
        rfl
      simp only [scatterSlice, computeHeadSliceParams, if_pos hlt, htotal, hsp, hdp, sentHeads,
        hsrc, startOf, hone, Nat.mod_one, and_self]
  · have hheads : headsPerRank c.dstTotalKvHeads c.dstTp = c.dstHeads := by
      rw [headsPerRank, dstTotalKvHeads, Nat.mul_div_cancel _ c.dst_pos,
        headsPerRank_eq c.heads_pos c.dst_pos]
      exact max_eq_right c.dstHeads_pos
    rw [slice_of_dst (Nat.le_of_not_gt hlt) hd]
    simp only [scatterSlice, computeHeadSliceParams, if_neg hlt, hheads, sentHeads, and_self]

theorem rankOffset_eq {wr : Nat} (hwr : wr < numWriters c.srcTp c.dstTp) :
    c.rankOffset q (c.writerOf d wr) d = wr * q.perRankElems c.sentHeads := by
  have hrank : c.writerRankElems q d =
      replicate (numWriters c.srcTp c.dstTp) (q.perRankElems c.sentHeads) := by
    have hconst : ∀ wr, computeHeadSliceParams c.srcTp c.dstTp wr d c.totalKvHeads =
        c.slice wr d := fun _ => rfl
    simp only [writerRankElems, hconst, numHeads_eq, map_const', length_range]
  have hidx : (if 1 < numWriters c.srcTp c.dstTp then
      c.writerOf d wr % numWriters c.srcTp c.dstTp else 0) = wr := by
    split_ifs with hone
    · have hlt : c.dstTp < c.srcTp := by
        by_contra hn
        simp [numWriters, hn] at hone
      rw [writerOf, if_pos hlt, ← numWriters_of_src hlt, mul_add_mod_self_right,
        mod_eq_of_lt hwr]
    · omega
  simp only [rankOffset, hidx, hrank, take_replicate, sum_replicate_nat, min_eq_left hwr.le]

theorem transferred (hd : d < c.dstTp) {staging : Nat → Nat → β} {base : Nat} {m m' : Nat → β}
    (hw : Written ((c.writers d).flatMap fun p => bulkWrites base (c.rankOffset q p d)
      (q.perRankElems (c.slice p d).numHeads) (staging p)) m m') {wr r : Nat}
    (hwr : wr < numWriters c.srcTp c.dstTp) (hr : r < q.perRankElems c.sentHeads) :
    m' (base + (wr * q.perRankElems c.sentHeads + r)) = staging (c.writerOf d wr) r := by
  refine hw.eq ?_ ?_
  · refine ⟨_, mem_flatMap.mpr ⟨c.writerOf d wr, (mem_writers_iff hd).mpr ⟨wr, hwr, rfl⟩,
      mem_map.mpr ⟨r, mem_range.mpr (by rwa [numHeads_eq]), rfl⟩⟩, ?_⟩
    rw [rankOffset_eq hwr, add_assoc]
  · intro x hx haddr
    obtain ⟨p, hp, hx⟩ := mem_flatMap.mp hx
    obtain ⟨wr', hwr', rfl⟩ := (mem_writers_iff hd).mp hp
    obtain ⟨r', hr', rfl⟩ := mem_map.mp hx
    rw [numHeads_eq, mem_range] at hr'
    simp only [rankOffset_eq hwr', add_assoc] at haddr
    obtain ⟨rfl, rfl⟩ := mul_add_inj hr' hr (add_left_cancel haddr)
    rfl

theorem scattered (hd : d < c.dstTp) {staging staging' : Nat → Nat → β} {base : Nat}
    {ring ring' : Nat → β}
    (hgather : ∀ p ∈ c.writers d, Written (q.gatherWrites (c.slice p d) c.srcHeads p (src p))
      (staging p) (staging' p))
    (hbulk : Written ((c.writers d).flatMap fun p => bulkWrites base (c.rankOffset q p d)
      (q.perRankElems (c.slice p d).numHeads) (staging' p)) ring ring')
    {layer wr n h e : Nat} (hlayer : layer < 2 * q.numLayers)
    (hwr : wr < numWriters c.srcTp c.dstTp) (hn : n < q.numTokens) (hh : h < c.sentHeads)
    (he : e < q.headDim) :
    ring' (base + (wr * q.perRankElems c.sentHeads + layer * q.perLayerElems c.sentHeads +
        (n * (c.sentHeads * q.headDim) + (h * q.headDim + e)))) =
      src (c.writerOf d wr) layer (q.cell c.srcHeads (q.slot (q.srcPages (c.writerOf d wr)) n)
        ((c.slice (c.writerOf d wr) d).srcHeadStart + h) e) := by
  have ho := lt_mul_iff.mpr ⟨n, hn, _, cell_lt hh he, rfl⟩
  have hr : layer * q.perLayerElems c.sentHeads +
      (n * (c.sentHeads * q.headDim) + (h * q.headDim + e)) < q.perRankElems c.sentHeads := by
    rw [perRankElems, mul_comm (q.perLayerElems _)]
    exact lt_mul_iff.mpr ⟨layer, hlayer, _, ho, rfl⟩
  have hp : c.writerOf d wr ∈ c.writers d := (mem_writers_iff hd).mpr ⟨wr, hwr, rfl⟩
  rw [← numHeads_eq (c.writerOf d wr) d] at ho hh
  rw [add_assoc, transferred hd hbulk hwr hr, ← numHeads_eq (c.writerOf d wr) d,
    gathered (hgather _ hp) hlayer ho, lane_eq hh he]

theorem sendsStaged_stores (hc : c.Carries d g) (hd : d < c.dstTp)
    (hsrc : ∀ p < c.srcTp, q.Stores c.srcHeads (q.srcPages p)
      (globalHead c.totalKvHeads c.srcTp p) data (src p))
    (hs : c.SendsStaged q d src dst dst') : q.Stores c.dstHeads q.dstPages g data dst' := by
  unfold SendsStaged at hs
  split_ifs at hs
  · exact sendsSlices_stores hc hd hsrc hs
  · obtain ⟨staging, staging', base, ring, ring', hgather, hbulk, hscatter⟩ := hs
    rw [headsPerRank_eq c.heads_pos c.src_pos] at hgather
    rw [headsPerRank_eq c.heads_pos c.dst_pos] at hscatter
    have hpos : 0 < numWriters c.srcTp c.dstTp := by
      obtain ⟨p, hp, -⟩ := hc.covered 0 c.dstHeads_pos
      obtain ⟨wr, hwr, -⟩ := (mem_writers_iff hd).mp hp
      exact zero_lt_of_lt hwr
    rw [(scatterSlice_eq hd hpos).1] at hscatter
    refine hc.stores hsrc (fun layer hlayer x => ?_) hscatter
    simp only [scatterWrites, mem_flatMap, mem_map, mem_range]
    constructor
    · rintro ⟨wr, hwr, o, ho, rfl⟩
      obtain ⟨n, hn, r, hr, rfl⟩ := lt_mul_iff.mp ho
      obtain ⟨h, hh, e, he, rfl⟩ := lt_mul_iff.mp hr
      refine ⟨c.writerOf d wr, (mem_writers_iff hd).mpr ⟨wr, hwr, rfl⟩, n, hn, h,
        by rwa [numHeads_eq], e, he, ?_⟩
      rw [lane_eq hh he, scattered hd hgather hbulk hlayer hwr hn hh he,
        (scatterSlice_eq hd hwr).2]
    · rintro ⟨p, hp, n, hn, h, hh, e, he, rfl⟩
      obtain ⟨wr, hwr, rfl⟩ := (mem_writers_iff hd).mp hp
      rw [numHeads_eq] at hh
      refine ⟨wr, hwr, n * (c.sentHeads * q.headDim) + (h * q.headDim + e),
        lt_mul_iff.mpr ⟨n, hn, _, cell_lt hh he, rfl⟩, ?_⟩
      rw [lane_eq hh he, scattered hd hgather hbulk hlayer hwr hn hh he,
        (scatterSlice_eq hd hwr).2]

/-! ### The configurations that work -/

theorem exists_sendsSlices (c : Config) (q : Transfer) (d : Nat) (src : Nat → Buffers β)
    (dst : Buffers β) : ∃ dst', c.SendsSlices q d src dst dst' := by
  choose dst' hdst' using fun layer => exists_written ((c.writers d).flatMap fun p =>
    if c.srcTp = c.dstTp then q.pageWrites (headsPerRank c.totalKvHeads c.srcTp) p (src p layer)
    else q.sliceWrites (c.slice p d) (headsPerRank c.totalKvHeads c.srcTp)
      (headsPerRank c.totalKvHeads c.dstTp) p (src p layer)) (dst layer)
  exact ⟨dst', fun layer _ => hdst' layer⟩

theorem exists_sendsStaged [Inhabited β] (c : Config) (q : Transfer) (d : Nat)
    (src : Nat → Buffers β) (dst : Buffers β) : ∃ dst', c.SendsStaged q d src dst dst' := by
  by_cases heq : c.srcTp = c.dstTp
  · simpa only [SendsStaged, if_pos heq] using c.exists_sendsSlices q d src dst
  · choose staging hgather using fun p => exists_written
      (q.gatherWrites (c.slice p d) (headsPerRank c.totalKvHeads c.srcTp) p (src p))
      fun _ => default
    obtain ⟨ring, hbulk⟩ := exists_written ((c.writers d).flatMap fun p =>
      bulkWrites 0 (c.rankOffset q p d) (q.perRankElems (c.slice p d).numHeads)
        (staging p)) fun _ => default
    choose dst' hscatter using fun layer => exists_written
      (q.scatterWrites (headsPerRank c.totalKvHeads c.dstTp) (numWriters c.srcTp c.dstTp)
        (c.scatterSlice 0 d).numHeads (fun wr => (c.scatterSlice wr d).dstHeadStart) 0 layer ring)
      (dst layer)
    refine ⟨dst', ?_⟩
    rw [SendsStaged, if_neg heq]
    exact ⟨_, staging, 0, _, ring, fun p _ => hgather p, hbulk, fun layer _ => hscatter layer⟩

/-- A page of one token with heads of one cell. -/
def oneToken : Transfer where
  pageSize := 1
  headDim := 1
  numLayers := 1
  srcPages := fun _ => [0]
  dstPages := [0]
  pageSize_pos := Nat.one_pos
  headDim_pos := Nat.one_pos
  length_eq := fun _ => rfl
  nodup := nodup_singleton 0

/-- A way to send that takes the heads of the slices is correct unless prefill ranks hold several
heads and decode ranks share one. -/
theorem correct_iff [Nontrivial β]
    {Sends : Transfer → Nat → (Nat → Buffers β) → Buffers β → Buffers β → Prop}
    (hstores : ∀ {q d g data src dst dst'}, c.Carries d g → d < c.dstTp →
      (∀ p < c.srcTp, q.Stores c.srcHeads (q.srcPages p) (globalHead c.totalKvHeads c.srcTp p) data
        (src p)) → Sends q d src dst dst' → q.Stores c.dstHeads q.dstPages g data dst')
    (hex : ∀ q d src dst, ∃ dst', Sends q d src dst dst') :
    c.Correct β Sends ↔ ¬ c.Splits := by
  constructor
  · intro hc hs
    -- decode rank 1 gets head 1, and should hold head 0
    obtain ⟨k, hk⟩ := dvd_of_le (hs.1.trans hs.2).not_gt
    obtain ⟨hsent, hmodel⟩ := hs.sentHead_ne
    have hd : 1 < c.dstTp := lt_of_le_of_lt c.heads_pos hs.2
    obtain ⟨a, b, hab⟩ := exists_pair_ne β
    let data : Nat → Nat → Nat → Nat → β := fun _ _ head _ => if head = 0 then a else b
    let src : Nat → Buffers β := fun p _ l => data 0 0 (globalHead c.totalKvHeads c.srcTp p l) 0
    have hsrc : ∀ p < c.srcTp, oneToken.Stores c.srcHeads (oneToken.srcPages p)
        (globalHead c.totalKvHeads c.srcTp p) data (src p) := by
      intro p _ layer _ n hn l _ e he
      have hn0 : n = 0 := lt_one_iff.mp hn
      have he0 : e = 0 := lt_one_iff.mp he
      simp [src, data, hn0, he0, oneToken, cell, slot]
    obtain ⟨dst', hsend⟩ := hex oneToken 1 src fun _ _ => a
    have hgot := hstores (carries_of_dst hk hd) hd hsrc hsend 0 two_pos 0 one_pos 0
      c.dstHeads_pos 0 one_pos
    have hwant := hc oneToken 1 data src _ dst' hd hsrc hsend 0 two_pos 0 one_pos 0
      c.dstHeads_pos 0 one_pos
    rw [hgot, hsent, hmodel] at hwant
    exact hab (by simpa [data] using hwant.symm)
  · intro hs q d data src dst dst' hd hsrc hsend
    exact hstores (carries_globalHead hs hd) hd hsrc hsend

end Config

/-- **Resharding KV heads.** From slot to slot and through staging buffers, every decode rank gets
exactly the heads that the model gives it, unless each prefill rank holds several heads and each
decode rank shares its head with others. -/
theorem reshard_correct_iff (β : Type) [Nontrivial β] [Inhabited β] (c : Config) :
    (c.Correct β c.SendsSlices ↔ ¬ (c.srcTp < c.totalKvHeads ∧ c.totalKvHeads < c.dstTp)) ∧
      (c.Correct β c.SendsStaged ↔
        ¬ (c.srcTp < c.totalKvHeads ∧ c.totalKvHeads < c.dstTp)) :=
  ⟨Config.correct_iff Config.sendsSlices_stores c.exists_sendsSlices,
    Config.correct_iff Config.sendsStaged_stores c.exists_sendsStaged⟩

/-- Pairs of four prefill ranks share a head, and two decode ranks hold one each. -/
def fourToTwo : Config :=
  ⟨4, 2, 2, by decide, by decide, by decide, by decide, by decide, by decide⟩

theorem fourToTwo_correct : fourToTwo.Correct Bool fourToTwo.SendsSlices ∧
    fourToTwo.Correct Bool fourToTwo.SendsStaged :=
  ⟨(reshard_correct_iff Bool fourToTwo).1.mpr (by decide),
    (reshard_correct_iff Bool fourToTwo).2.mpr (by decide)⟩

/-- One prefill rank with two heads, and four decode ranks. -/
def oneToFour : Config :=
  ⟨1, 4, 2, by decide, by decide, by decide, by decide, by decide, by decide⟩

/-- Decode rank `1` should hold head `0`, and is sent head `1` of prefill rank `0`. -/
theorem oneToFour_wrong_head :
    globalHead oneToFour.totalKvHeads oneToFour.dstTp 1 0 = 0 ∧
      oneToFour.writers 1 = [0] ∧ oneToFour.slice 0 1 = ⟨1, 1, 0⟩ ∧
      globalHead oneToFour.totalKvHeads oneToFour.srcTp 0 1 = 1 ∧
      ¬ oneToFour.Correct Bool oneToFour.SendsSlices ∧
      ¬ oneToFour.Correct Bool oneToFour.SendsStaged := by
  have hs : oneToFour.Splits := by decide
  refine ⟨by decide, by decide, by decide, by decide, fun h => ?_, fun h => ?_⟩
  · exact (Config.correct_iff Config.sendsSlices_stores oneToFour.exists_sendsSlices).mp h hs
  · exact (Config.correct_iff Config.sendsStaged_stores oneToFour.exists_sendsStaged).mp h hs

end Fluxfer.Disagg
