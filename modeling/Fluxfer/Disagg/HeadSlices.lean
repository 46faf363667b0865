import Mathlib.Tactic.Ring

/-!
# Which KV heads a prefill rank sends to a decode rank

A group of `t` ranks holds `H` KV heads: `H / t` on each rank when `t < H`, and otherwise one, which
`t / H` ranks share (`layers/linear.py`). `_resolve_rank_mapping` (`disaggregation/common/conn.py`)
says which prefill ranks a decode rank reads from, and `compute_head_slice_params`
(`disaggregation/common/staging_buffer.py`) which heads go where.
-/

namespace Fluxfer.Disagg

open Nat List

/-! ## The heads of a rank -/

/-- The divisions of `QKVParallelLinear` have no remainder. -/
def Compatible (totalHeads tp : Nat) : Prop :=
  if totalHeads ≤ tp then totalHeads ∣ tp else tp ∣ totalHeads

instance (totalHeads tp : Nat) : Decidable (Compatible totalHeads tp) := by
  unfold Compatible
  infer_instance

/-- `num_kv_heads` of `QKVParallelLinear` -/
def numKvHeads (totalHeads tp : Nat) : Nat := if totalHeads ≤ tp then 1 else totalHeads / tp

/-- `num_kv_head_replicas` of `QKVParallelLinear` -/
def numKvHeadReplicas (totalHeads tp : Nat) : Nat := if totalHeads ≤ tp then tp / totalHeads else 1

/-- The head of the model that is head `l` of a rank: `weight_loader` takes the shard with number
`tp_rank // num_kv_head_replicas`. -/
def globalHead (totalHeads tp rank l : Nat) : Nat :=
  rank / numKvHeadReplicas totalHeads tp * numKvHeads totalHeads tp + l

/-- The sizes of the two groups and the number of heads. -/
structure Config where
  srcTp : Nat
  dstTp : Nat
  totalKvHeads : Nat
  src_pos : 0 < srcTp
  dst_pos : 0 < dstTp
  heads_pos : 0 < totalKvHeads
  divides : srcTp ∣ dstTp ∨ dstTp ∣ srcTp
  src_compatible : Compatible totalKvHeads srcTp
  dst_compatible : Compatible totalKvHeads dstTp

/-! ## The mapping of ranks and heads -/

/-- `target_tp_ranks` of `_resolve_rank_mapping`: the prefill ranks of a decode rank -/
def targetTpRanks (srcTp dstTp engineRank : Nat) : List Nat :=
  if dstTp = srcTp then [engineRank % dstTp]
  else if srcTp < dstTp then [engineRank % dstTp / (dstTp / srcTp)]
  else range' (engineRank % dstTp * (srcTp / dstTp))
    ((engineRank % dstTp + 1) * (srcTp / dstTp) - engineRank % dstTp * (srcTp / dstTp))

structure HeadSlice where
  srcHeadStart : Nat
  numHeads : Nat
  dstHeadStart : Nat
deriving DecidableEq

def headsPerRank (totalHeads tp : Nat) : Nat := max 1 (totalHeads / tp)

/-- `compute_head_slice_params`. `send_kvcache_slice` has the same formulas. -/
def computeHeadSliceParams (srcTp dstTp srcTpRank dstTpRank totalHeads : Nat) : HeadSlice :=
  let srcHeadsPerRank := headsPerRank totalHeads srcTp
  let dstHeadsPerRank := headsPerRank totalHeads dstTp
  let localTpRank := srcTpRank % srcTp
  let dstTpRankInGroup := dstTpRank % dstTp
  if dstTp < srcTp then
    let srcReplication := max 1 (srcTp / totalHeads)
    let uniqueHeadIdx := localTpRank / srcReplication
    ⟨0, srcHeadsPerRank, uniqueHeadIdx * srcHeadsPerRank % dstHeadsPerRank⟩
  else
    ⟨dstTpRankInGroup * dstHeadsPerRank % srcHeadsPerRank, dstHeadsPerRank, 0⟩

/-- `compute_staging_layout`: how many ranks write to one region -/
def numWriters (srcTp dstTp : Nat) : Nat := if dstTp < srcTp then srcTp / max 1 dstTp else 1

/-- Head `l` of the receiver is one of the heads of the slice. -/
def HeadSlice.Covers (w : HeadSlice) (l : Nat) : Prop :=
  w.dstHeadStart ≤ l ∧ l < w.dstHeadStart + w.numHeads

/-- The head of the sender that becomes head `l` of the receiver. -/
def HeadSlice.source (w : HeadSlice) (l : Nat) : Nat := w.srcHeadStart + (l - w.dstHeadStart)

/-! ## Heads and replicas -/

section Sizes

variable {H t : Nat}

theorem numKvHeads_pos (ht : 0 < t) : 0 < numKvHeads H t := by
  unfold numKvHeads
  split_ifs with h
  · exact one_pos
  · exact div_pos (by omega) ht

theorem numKvHeadReplicas_pos (hH : 0 < H) : 0 < numKvHeadReplicas H t := by
  unfold numKvHeadReplicas
  split_ifs with h
  · exact div_pos h hH
  · exact one_pos

theorem headsPerRank_eq (hH : 0 < H) (ht : 0 < t) : headsPerRank H t = numKvHeads H t := by
  unfold headsPerRank numKvHeads
  split_ifs with h
  · obtain hlt | rfl := lt_or_eq_of_le h
    · rw [div_eq_of_lt hlt]
      rfl
    · rw [Nat.div_self hH]
      rfl
  · exact max_eq_right (div_pos (by omega) ht)

theorem max_one_div_eq (hH : 0 < H) : max 1 (t / H) = numKvHeadReplicas H t := by
  unfold numKvHeadReplicas
  split_ifs with h
  · exact max_eq_right (div_pos h hH)
  · rw [div_eq_of_lt (by omega)]
    rfl

theorem Compatible.mul_eq (h : Compatible H t) :
    H * numKvHeadReplicas H t = t * numKvHeads H t := by
  unfold Compatible at h
  unfold numKvHeadReplicas numKvHeads
  split_ifs at h ⊢
  · rw [Nat.mul_div_cancel' h, Nat.mul_one]
  · rw [Nat.mul_one, Nat.mul_div_cancel' h]

theorem numKvHeads_eq_one_or (H t : Nat) : numKvHeads H t = 1 ∨ numKvHeadReplicas H t = 1 := by
  unfold numKvHeads numKvHeadReplicas
  split_ifs
  · exact .inl rfl
  · exact .inr rfl

end Sizes

namespace Config

variable (c : Config)

abbrev srcHeads : Nat := numKvHeads c.totalKvHeads c.srcTp

abbrev dstHeads : Nat := numKvHeads c.totalKvHeads c.dstTp

abbrev srcReplicas : Nat := numKvHeadReplicas c.totalKvHeads c.srcTp

abbrev dstReplicas : Nat := numKvHeadReplicas c.totalKvHeads c.dstTp

def writers (d : Nat) : List Nat := targetTpRanks c.srcTp c.dstTp d

def slice (p d : Nat) : HeadSlice := computeHeadSliceParams c.srcTp c.dstTp p d c.totalKvHeads

/-- Prefill ranks hold several heads, and decode ranks share one. -/
def Splits : Prop := c.srcTp < c.totalKvHeads ∧ c.totalKvHeads < c.dstTp

instance : Decidable c.Splits := inferInstanceAs (Decidable (_ ∧ _))

/-- Every head of decode rank `d` is sent by some rank, and by no rank as another head than
`g`. -/
structure Carries (d : Nat) (g : Nat → Nat) : Prop where
  writers_lt : ∀ p ∈ c.writers d, p < c.srcTp
  fits : ∀ p ∈ c.writers d,
    (c.slice p d).dstHeadStart + (c.slice p d).numHeads ≤ c.dstHeads
  covered : ∀ l < c.dstHeads, ∃ p ∈ c.writers d, (c.slice p d).Covers l
  source_lt : ∀ p ∈ c.writers d, ∀ l < c.dstHeads, (c.slice p d).Covers l →
    (c.slice p d).source l < c.srcHeads
  source_eq : ∀ p ∈ c.writers d, ∀ l < c.dstHeads, (c.slice p d).Covers l →
    globalHead c.totalKvHeads c.srcTp p ((c.slice p d).source l) = g l

theorem globalHead_src (p l : Nat) : globalHead c.totalKvHeads c.srcTp p l =
    p / c.srcReplicas * c.srcHeads + l := rfl

theorem globalHead_dst (d l : Nat) : globalHead c.totalKvHeads c.dstTp d l =
    d / c.dstReplicas * c.dstHeads + l := rfl

theorem srcHeads_pos : 0 < c.srcHeads := numKvHeads_pos c.src_pos

theorem dstHeads_pos : 0 < c.dstHeads := numKvHeads_pos c.dst_pos

theorem srcReplicas_pos : 0 < c.srcReplicas := numKvHeadReplicas_pos c.heads_pos

theorem dstReplicas_pos : 0 < c.dstReplicas := numKvHeadReplicas_pos c.heads_pos

theorem one_lt_srcHeads_iff : 1 < c.srcHeads ↔ c.srcTp < c.totalKvHeads := by
  have hc := c.src_compatible
  unfold Compatible at hc
  simp only [numKvHeads]
  split_ifs at hc ⊢ with h
  · omega
  · rw [Nat.lt_div_iff_mul_lt' hc, Nat.mul_one]

theorem one_lt_dstReplicas_iff : 1 < c.dstReplicas ↔ c.totalKvHeads < c.dstTp := by
  have hc := c.dst_compatible
  unfold Compatible at hc
  simp only [numKvHeadReplicas]
  split_ifs at hc ⊢ with h
  · rw [Nat.lt_div_iff_mul_lt' hc, Nat.mul_one]
  · omega

theorem splits_iff : c.Splits ↔ 1 < c.srcHeads ∧ 1 < c.dstReplicas :=
  and_congr (one_lt_srcHeads_iff c).symm (one_lt_dstReplicas_iff c).symm

theorem dst_cases : c.dstReplicas = 1 ∨ c.dstHeads = 1 :=
  (numKvHeads_eq_one_or c.totalKvHeads c.dstTp).symm

theorem src_cases : c.srcReplicas = 1 ∨ c.srcHeads = 1 :=
  (numKvHeads_eq_one_or c.totalKvHeads c.srcTp).symm

variable {c} {d k : Nat}

theorem dvd_of_lt (hlt : c.dstTp < c.srcTp) : ∃ k, c.srcTp = c.dstTp * k :=
  c.divides.resolve_left fun hdvd => absurd (le_of_dvd c.dst_pos hdvd) hlt.not_ge

theorem dvd_of_le (hle : ¬ c.dstTp < c.srcTp) : ∃ k, c.dstTp = c.srcTp * k := by
  refine c.divides.elim id fun hdvd => ?_
  have := le_of_dvd c.src_pos hdvd
  exact ⟨1, by omega⟩

/-! ### More prefill ranks than decode ranks -/

/-- The copies of a head, counted on both sides, when `k` prefill ranks send to a decode rank. -/
theorem copies_of_src (hk : c.srcTp = c.dstTp * k) :
    c.srcReplicas * c.dstHeads = k * c.srcHeads * c.dstReplicas := by
  have hs : c.totalKvHeads * c.srcReplicas = c.srcTp * c.srcHeads := c.src_compatible.mul_eq
  have hd := c.dst_compatible.mul_eq
  refine Nat.eq_of_mul_eq_mul_left c.dst_pos ?_
  calc c.dstTp * (c.srcReplicas * c.dstHeads)
      = c.srcReplicas * (c.dstTp * c.dstHeads) := by ring
    _ = c.srcReplicas * (c.totalKvHeads * c.dstReplicas) := by rw [hd]
    _ = c.totalKvHeads * c.srcReplicas * c.dstReplicas := by ring
    _ = c.dstTp * k * c.srcHeads * c.dstReplicas := by rw [hs, hk]
    _ = c.dstTp * (k * c.srcHeads * c.dstReplicas) := by ring

theorem slice_of_src (hlt : c.dstTp < c.srcTp) {p : Nat} (hp : p < c.srcTp) :
    c.slice p d = ⟨0, c.srcHeads, p / c.srcReplicas * c.srcHeads % c.dstHeads⟩ := by
  simp only [slice, computeHeadSliceParams, if_pos hlt, headsPerRank_eq c.heads_pos c.src_pos,
    headsPerRank_eq c.heads_pos c.dst_pos, max_one_div_eq c.heads_pos, mod_eq_of_lt hp]

theorem mem_writers_of_src (hlt : c.dstTp < c.srcTp) (hk : c.srcTp = c.dstTp * k)
    (hd : d < c.dstTp) {p : Nat} : p ∈ c.writers d ↔ ∃ j < k, p = d * k + j := by
  have hdiv := Nat.div_eq_of_eq_mul_right c.dst_pos hk
  have hne : ¬ c.dstTp = c.srcTp := hlt.ne
  have hnlt : ¬ c.srcTp < c.dstTp := hlt.not_gt
  rw [writers, targetTpRanks, if_neg hne, if_neg hnlt, mod_eq_of_lt hd, hdiv, succ_mul, mem_range']
  simp

theorem layout_of_src (hk : c.srcTp = c.dstTp * k) :
    (c.srcReplicas = 1 ∧ c.dstReplicas = 1 ∧ c.dstHeads = k * c.srcHeads) ∨
    (c.srcHeads = 1 ∧ c.dstReplicas = 1 ∧ k = c.srcReplicas * c.dstHeads) ∨
    (c.srcHeads = 1 ∧ c.dstHeads = 1 ∧ c.srcReplicas = k * c.dstReplicas) := by
  have hcopies := copies_of_src hk
  obtain hs | hs := c.src_cases <;> obtain hd | hd := c.dst_cases
  · rw [hs, hd, one_mul, mul_one] at hcopies
    exact .inl ⟨hs, hd, hcopies⟩
  · rw [hs, hd, one_mul] at hcopies
    have hone := eq_one_of_mul_eq_one_left hcopies.symm
    rw [hone, mul_one] at hcopies
    exact .inl ⟨hs, hone, by rw [hd, hcopies]⟩
  · rw [hs, hd, mul_one, mul_one] at hcopies
    exact .inr (.inl ⟨hs, hd, hcopies.symm⟩)
  · rw [hs, hd, mul_one, mul_one] at hcopies
    exact .inr (.inr ⟨hs, hd, hcopies⟩)

/-- Where the heads of the `j`-th prefill rank start, among those of the decode rank. -/
def startOf (c : Config) (j : Nat) : Nat := j / c.srcReplicas * c.srcHeads % c.dstHeads

/-- The heads of the `j`-th prefill rank lie among those of the decode rank. -/
theorem start_of_src (hk : c.srcTp = c.dstTp * k) {j : Nat} (hj : j < k) :
    (d * k + j) / c.srcReplicas * c.srcHeads = d / c.dstReplicas * c.dstHeads + c.startOf j ∧
      c.startOf j + c.srcHeads ≤ c.dstHeads := by
  unfold startOf
  obtain ⟨hs, hd, hh⟩ | ⟨hs, hd, hh⟩ | ⟨hs, hd, hh⟩ := layout_of_src hk
  · have hle : j * c.srcHeads + c.srcHeads ≤ k * c.srcHeads := by
      rw [← succ_mul]
      exact mul_le_mul_right _ hj
    have hpos := c.srcHeads_pos
    rw [hs, hd, hh, Nat.div_one, Nat.div_one, Nat.div_one, Nat.mod_eq_of_lt (by omega)]
    exact ⟨by ring, hle⟩
  · have hlt : j / c.srcReplicas < c.dstHeads :=
      Nat.div_lt_of_lt_mul (by rwa [← hh])
    have hdiv : (d * k + j) / c.srcReplicas = d * c.dstHeads + j / c.srcReplicas := by
      have hsum : d * k + j = c.srcReplicas * (d * c.dstHeads) + j := by rw [hh]; ring
      rw [hsum, mul_add_div c.srcReplicas_pos]
    rw [hs, hd, hdiv, Nat.mul_one, Nat.mul_one, Nat.mod_eq_of_lt hlt, Nat.div_one]
    exact ⟨rfl, hlt⟩
  · have hkpos : 0 < k := zero_lt_of_lt hj
    have hdiv : (d * k + j) / k = d := by
      rw [mul_comm, mul_add_div hkpos, div_eq_of_lt hj, add_zero]
    rw [hs, hd, hh, ← Nat.div_div_eq_div_mul, hdiv, Nat.mod_one]
    exact ⟨rfl, le_rfl⟩

theorem exists_start (hk : c.srcTp = c.dstTp * k) {l : Nat} (hl : l < c.dstHeads) :
    ∃ j < k, c.startOf j ≤ l ∧ l < c.startOf j + c.srcHeads := by
  unfold startOf
  obtain ⟨hs, hd, hh⟩ | ⟨hs, hd, hh⟩ | ⟨hs, hd, hh⟩ := layout_of_src hk
  · have hj : l / c.srcHeads < k := Nat.div_lt_of_lt_mul (by rwa [Nat.mul_comm, ← hh])
    have hle := div_mul_le_self l c.srcHeads
    refine ⟨l / c.srcHeads, hj, ?_⟩
    rw [hs, Nat.div_one, Nat.mod_eq_of_lt (by omega)]
    exact ⟨hle, lt_div_mul_add c.srcHeads_pos⟩
  · refine ⟨c.srcReplicas * l, ?_, ?_⟩
    · rw [hh]
      exact mul_lt_mul_of_pos_left hl c.srcReplicas_pos
    · rw [hs, Nat.mul_div_cancel_left _ c.srcReplicas_pos, Nat.mul_one, Nat.mod_eq_of_lt hl]
      exact ⟨le_rfl, lt_succ_self l⟩
  · have hkpos : 0 < k := by
      refine pos_of_ne_zero fun h0 => c.srcReplicas_pos.ne' ?_
      rw [hh, h0, zero_mul]
    refine ⟨0, hkpos, ?_⟩
    rw [hd, mod_one]
    omega

theorem writer_lt (hk : c.srcTp = c.dstTp * k) (hd : d < c.dstTp) {j : Nat} (hj : j < k) :
    d * k + j < c.srcTp := by
  calc d * k + j < (d + 1) * k := by rw [succ_mul]; omega
    _ ≤ c.dstTp * k := mul_le_mul_right _ hd
    _ = c.srcTp := hk.symm

theorem slice_writer (hlt : c.dstTp < c.srcTp) (hk : c.srcTp = c.dstTp * k) (hd : d < c.dstTp)
    {j : Nat} (hj : j < k) : c.slice (d * k + j) d = ⟨0, c.srcHeads, c.startOf j⟩ := by
  obtain ⟨hstart, hle⟩ := start_of_src hk hj
  have hpos := c.srcHeads_pos
  rw [slice_of_src hlt (writer_lt hk hd hj), hstart, mul_add_mod_self_right,
    mod_eq_of_lt (by omega)]

theorem carries_of_src (hlt : c.dstTp < c.srcTp) (hk : c.srcTp = c.dstTp * k) (hd : d < c.dstTp) :
    c.Carries d (globalHead c.totalKvHeads c.dstTp d) := by
  have hslice := fun j => slice_writer hlt hk hd (j := j)
  refine ⟨?_, ?_, ?_, ?_, ?_⟩
  · intro p hp
    obtain ⟨j, hj, rfl⟩ := (mem_writers_of_src hlt hk hd).mp hp
    exact writer_lt hk hd hj
  · intro p hp
    obtain ⟨j, hj, rfl⟩ := (mem_writers_of_src hlt hk hd).mp hp
    rw [hslice j hj]
    exact (start_of_src (d := d) hk hj).2
  · intro l hl
    obtain ⟨j, hj, hcov⟩ := exists_start hk hl
    refine ⟨d * k + j, (mem_writers_of_src hlt hk hd).mpr ⟨j, hj, rfl⟩, ?_⟩
    rw [hslice j hj]
    exact hcov
  · intro p hp l _ hcov
    obtain ⟨j, hj, rfl⟩ := (mem_writers_of_src hlt hk hd).mp hp
    rw [hslice j hj] at hcov ⊢
    simp only [HeadSlice.Covers, HeadSlice.source] at hcov ⊢
    omega
  · intro p hp l _ hcov
    obtain ⟨j, hj, rfl⟩ := (mem_writers_of_src hlt hk hd).mp hp
    rw [hslice j hj] at hcov ⊢
    obtain ⟨hstart, -⟩ := start_of_src (d := d) hk hj
    rw [globalHead_src, globalHead_dst]
    simp only [HeadSlice.Covers, HeadSlice.source] at hcov ⊢
    omega

/-! ### At least as many decode ranks -/

theorem copies_of_dst (hk : c.dstTp = c.srcTp * k) :
    c.dstReplicas * c.srcHeads = k * c.dstHeads * c.srcReplicas := by
  have hs := c.src_compatible.mul_eq
  have hd : c.totalKvHeads * c.dstReplicas = c.dstTp * c.dstHeads := c.dst_compatible.mul_eq
  refine Nat.eq_of_mul_eq_mul_left c.src_pos ?_
  calc c.srcTp * (c.dstReplicas * c.srcHeads)
      = c.dstReplicas * (c.srcTp * c.srcHeads) := by ring
    _ = c.dstReplicas * (c.totalKvHeads * c.srcReplicas) := by rw [hs]
    _ = c.totalKvHeads * c.dstReplicas * c.srcReplicas := by ring
    _ = c.srcTp * k * c.dstHeads * c.srcReplicas := by rw [hd, hk]
    _ = c.srcTp * (k * c.dstHeads * c.srcReplicas) := by ring

theorem slice_of_dst (hle : c.srcTp ≤ c.dstTp) (hd : d < c.dstTp) (p : Nat) :
    c.slice p d = ⟨d * c.dstHeads % c.srcHeads, c.dstHeads, 0⟩ := by
  have hn : ¬ c.dstTp < c.srcTp := hle.not_gt
  simp only [slice, computeHeadSliceParams, if_neg hn, headsPerRank_eq c.heads_pos c.src_pos,
    headsPerRank_eq c.heads_pos c.dst_pos, mod_eq_of_lt hd]

theorem writers_of_dst (hk : c.dstTp = c.srcTp * k) (hd : d < c.dstTp) : c.writers d = [d / k] := by
  have hdiv := Nat.div_eq_of_eq_mul_right c.src_pos hk
  unfold writers targetTpRanks
  rw [mod_eq_of_lt hd, hdiv]
  split_ifs with heq hlt
  · have hk1 : k = 1 := by rw [← hdiv, heq, Nat.div_self c.src_pos]
    rw [hk1, Nat.div_one]
  · rfl
  · have hle : c.srcTp ≤ c.dstTp := le_of_dvd c.dst_pos ⟨k, hk⟩
    omega

/-- The head that the formulas of the source send as head `l`. -/
def sentHead (c : Config) (d l : Nat) : Nat :=
  d / (c.dstTp / c.srcTp) / c.srcReplicas * c.srcHeads + (d * c.dstHeads % c.srcHeads + l)

theorem source_lt_of_dst (hk : c.dstTp = c.srcTp * k) {l : Nat} (hl : l < c.dstHeads) :
    d * c.dstHeads % c.srcHeads + l < c.srcHeads := by
  have hcopies := copies_of_dst hk
  obtain hd | hd := c.dst_cases
  · rw [hd, one_mul] at hcopies
    have hsrc : c.srcHeads = k * c.srcReplicas * c.dstHeads := by rw [hcopies]; ring
    have hpos : 0 < k * c.srcReplicas := by
      refine pos_of_ne_zero fun h0 => c.srcHeads_pos.ne' ?_
      rw [hsrc, h0, zero_mul]
    rw [hsrc, mul_mod_mul_right]
    calc d % (k * c.srcReplicas) * c.dstHeads + l
        < (d % (k * c.srcReplicas) + 1) * c.dstHeads := by rw [succ_mul]; omega
      _ ≤ k * c.srcReplicas * c.dstHeads := mul_le_mul_right _ (mod_lt _ hpos)
  · have hmod := mod_lt (d * c.dstHeads) c.srcHeads_pos
    omega

theorem carries_of_dst (hk : c.dstTp = c.srcTp * k) (hd : d < c.dstTp) :
    c.Carries d (c.sentHead d) := by
  have hle : c.srcTp ≤ c.dstTp := le_of_dvd c.dst_pos ⟨k, hk⟩
  have hdiv := Nat.div_eq_of_eq_mul_right c.src_pos hk
  have hw := writers_of_dst hk hd
  refine ⟨?_, ?_, ?_, ?_, ?_⟩
  · intro p hp
    rw [hw, mem_singleton] at hp
    rw [hp]
    exact Nat.div_lt_of_lt_mul (by rwa [Nat.mul_comm, ← hk])
  · intro p _
    rw [slice_of_dst hle hd]
    exact (zero_add _).le
  · intro l hl
    refine ⟨d / k, by simp [hw], ?_⟩
    rw [slice_of_dst hle hd]
    exact ⟨zero_le l, by simpa using hl⟩
  · intro p _ l hl _
    rw [slice_of_dst hle hd]
    exact source_lt_of_dst hk hl
  · intro p hp l _ _
    rw [hw, mem_singleton] at hp
    rw [slice_of_dst hle hd, hp, sentHead, hdiv]
    rfl

theorem sentHead_eq (hk : c.dstTp = c.srcTp * k) (hs : ¬ c.Splits) (l : Nat) :
    c.sentHead d l = globalHead c.totalKvHeads c.dstTp d l := by
  have hdiv := Nat.div_eq_of_eq_mul_right c.src_pos hk
  have hcopies := copies_of_dst hk
  have hsrc := c.srcHeads_pos
  have hrep := c.dstReplicas_pos
  rw [splits_iff] at hs
  rw [globalHead_dst, sentHead, hdiv, ← add_assoc]
  by_cases hone : c.dstReplicas = 1
  · -- no decode ranks share a head, so no prefill ranks do
    have hr : c.srcReplicas = 1 := by
      obtain hr | hh := c.src_cases
      · exact hr
      · rw [hone, hh, one_mul] at hcopies
        exact eq_one_of_mul_eq_one_left hcopies.symm
    rw [hone, hr, one_mul, mul_one] at hcopies
    rw [hone, hr, Nat.div_one, Nat.div_one, hcopies, Nat.mul_mod_mul_right, ← Nat.mul_assoc,
      ← add_mul, div_add_mod']
  · have hh : c.srcHeads = 1 := by omega
    have hd : c.dstHeads = 1 := c.dst_cases.resolve_left hone
    rw [hh, hd, mul_one] at hcopies
    rw [hh, hd, hcopies, Nat.mod_one, Nat.div_div_eq_div_mul]
    ring_nf

/-- When several decode ranks share each of several heads of a prefill rank, decode rank `1` gets
head `1`, and the model gives it head `0`. -/
theorem Splits.sentHead_ne (h : c.Splits) :
    c.sentHead 1 0 = 1 ∧ globalHead c.totalKvHeads c.dstTp 1 0 = 0 := by
  obtain ⟨k, hk⟩ := dvd_of_le (h.1.trans h.2).not_gt
  have hdiv := Nat.div_eq_of_eq_mul_right c.src_pos hk
  obtain ⟨hsrc, hrep⟩ := (splits_iff c).mp h
  have hr : c.srcReplicas = 1 := c.src_cases.resolve_right hsrc.ne'
  have hd : c.dstHeads = 1 := c.dst_cases.resolve_left hrep.ne'
  have hcopies := copies_of_dst hk
  rw [hr, hd, mul_one, mul_one] at hcopies
  have hk1 : 1 < k := by
    rw [← hcopies]
    exact one_lt_mul_iff.mpr ⟨c.dstReplicas_pos, c.srcHeads_pos, .inl hrep⟩
  rw [globalHead_dst, sentHead, hdiv, hd, div_eq_of_lt hk1, div_eq_of_lt hrep,
    mod_eq_of_lt (by omega)]
  exact ⟨by simp, rfl⟩

theorem carries_globalHead (h : ¬ c.Splits) (hd : d < c.dstTp) :
    c.Carries d (globalHead c.totalKvHeads c.dstTp d) := by
  by_cases hlt : c.dstTp < c.srcTp
  · obtain ⟨k, hk⟩ := dvd_of_lt hlt
    exact carries_of_src hlt hk hd
  · obtain ⟨k, hk⟩ := dvd_of_le hlt
    have hfun : c.sentHead d = globalHead c.totalKvHeads c.dstTp d :=
      funext (sentHead_eq hk h)
    exact hfun ▸ carries_of_dst hk hd

end Config

end Fluxfer.Disagg
