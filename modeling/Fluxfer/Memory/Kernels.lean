import Fluxfer.Memory.AllocatorSpec
import Fluxfer.Lib.Writes

/-!
# The allocation kernels

`alloc_extend_kernel` and `alloc_decode_kernel` of `mem_cache/allocator.py` run one program for
each request of a batch, and the programs write into one tensor in any order. A program finds its
place by sums over the requests before it, loaded in the lanes of a vector. `alloc_extend_naive` is
the sequential reference.
-/

namespace Fluxfer.Memory

open Pages Allocator List Nat

variable {start : Nat} {x : Nat × Nat}

def nextPowerOf2 (n : Nat) : Nat := 2 ^ clog 2 n

namespace ExtendReq

def extendLen (r : ExtendReq) : Nat := r.seqLen - r.prefixLen

def reqAt (reqs : List ExtendReq) (pid : Nat) : ExtendReq := reqs.getD pid ⟨0, 0, 0⟩

end ExtendReq

open ExtendReq

/-! ## The programs -/

/-- What lane `j` of program `pid` loads. The load is masked after `pid`, and a masked lane holds
`fill`. -/
def laneLoad (fill : Nat) (reqs : List ExtendReq) (field : ExtendReq → Nat) (pid j : Nat) : Nat :=
  if j ≤ pid then field (reqAt reqs j) else fill

/-- Stores of the slots `slots` from place `start` on. -/
def place (start : Nat) (slots : List Nat) : List (Nat × Nat) :=
  slots.mapIdx fun i s => (start + i, s)

/-- Lanes `0, …, width - 1` of a store with the mask `lane < count`. -/
def maskedStore (width count start : Nat) (value : Nat → Nat) : List (Nat × Nat) :=
  ((range width).filter (· < count)).map fun o => (start + o, value o)

def blockExtend : Nat := 4096

def extendKernel (ps fill : Nat) (reqs : List ExtendReq) (freePages : List Nat) (pid : Nat) :
    List (Nat × Nat) :=
  let lanes := range (nextPowerOf2 reqs.length)
  let seqLens := laneLoad fill reqs seqLen pid
  let preLens := laneLoad fill reqs prefixLen pid
  let r := reqAt reqs pid
  let sumExtendLens := (lanes.map fun j => seqLens j - preLens j).sum
  let outputStartLoc := sumExtendLens - (r.seqLen - r.prefixLen)
  let numPageStartLocSelf := numPages ps r.seqLen - numPages ps r.prefixLen
  let sumNumNewPages := (lanes.map fun j => numPages ps (seqLens j) - numPages ps (preLens j)).sum
  let newPageStartLoc := sumNumNewPages - numPageStartLocSelf
  let numPart1 := min r.seqLen (numPages ps r.prefixLen * ps) - r.prefixLen
  let part1 := maskedStore ps numPart1 outputStartLoc fun o => r.lastLoc + 1 + o
  if r.prefixLen + numPart1 = r.seqLen then part1
  else
    let numPart2 := r.seqLen / ps * ps - numPages ps r.prefixLen * ps
    let numBlocks := (numPart2 + blockExtend - 1) / blockExtend
    let part2 := (range numBlocks).flatMap fun blockId =>
      ((range blockExtend).map (blockId * blockExtend + ·)).filter (· < numPart2) |>.map
        fun offset => (outputStartLoc + numPart1 + offset,
          freePages.getD (newPageStartLoc + offset / ps) 0 * ps + offset % ps)
    if r.prefixLen + numPart1 + numPart2 = r.seqLen then part1 ++ part2
    else
      let numPart3 := r.seqLen - r.seqLen / ps * ps
      let startLoc := freePages.getD (newPageStartLoc + numPageStartLocSelf - 1) 0
      part1 ++ part2 ++ maskedStore ps numPart3 (outputStartLoc + numPart1 + numPart2)
        fun o => startLoc * ps + o

def decodeKernel (ps fill : Nat) (reqs : List ExtendReq) (freePages : List Nat) (pid : Nat) :
    List (Nat × Nat) :=
  let lanes := range (nextPowerOf2 reqs.length)
  let seqLens := laneLoad fill reqs seqLen pid
  let preLens := fun j => if j ≤ pid then seqLens j - 1 else seqLens j
  let r := reqAt reqs pid
  let preLen := r.seqLen - 1
  let numPageStartLocSelf := numPages ps r.seqLen - numPages ps preLen
  let sumNumNewPages := (lanes.map fun j => numPages ps (seqLens j) - numPages ps (preLens j)).sum
  let newPageStartLoc := sumNumNewPages - numPageStartLocSelf
  if numPageStartLocSelf = 0 then [(pid, r.lastLoc + 1)]
  else [(pid, freePages.getD newPageStartLoc 0 * ps)]

/-- The stores of all programs of a batch. -/
def launch (program : Nat → List (Nat × Nat)) (reqs : List ExtendReq) : List (Nat × Nat) :=
  (range reqs.length).flatMap program

/-! ## The reference -/

def cumsum (reqs : List ExtendReq) (field : ExtendReq → Nat) (i : Nat) : Nat :=
  ((reqs.take (i + 1)).map field).sum

/-- One round of the loop of `alloc_extend_naive`. -/
def naiveRound (ps : Nat) (reqs : List ExtendReq) (freePages : List Nat) (i : Nat) :
    List (Nat × Nat) :=
  let r := reqAt reqs i
  let endPos := cumsum reqs extendLen i
  let startPos := endPos - r.extendLen
  let newPages := numPages ps r.seqLen - numPages ps r.prefixLen
  let fullNewPages := r.seqLen / ps - numPages ps r.prefixLen
  let needPage := newPages - fullNewPages
  let endNewPages := cumsum reqs (numNewPages ps) i
  let startNewPages := endNewPages - newPages
  let num1 := min r.seqLen (numPages ps r.prefixLen * ps) - r.prefixLen
  let part1 := place startPos ((range num1).map fun o => r.lastLoc + 1 + o)
  if r.prefixLen + num1 = r.seqLen then part1
  else
    let num2 := (r.seqLen / ps - numPages ps r.prefixLen) * ps
    let pages := (freePages.take (endNewPages - needPage)).drop startNewPages
    let part2 := if num2 = 0 then [] else place (startPos + num1) (slotsOf ps pages)
    if r.prefixLen + num1 + num2 = r.seqLen then part1 ++ part2
    else
      let num3 := r.seqLen - r.seqLen / ps * ps
      part1 ++ part2 ++ place (endPos - num3)
        ((range num3).map fun o => freePages.getD (endNewPages - 1) 0 * ps + o)

def allocExtendNaive (ps : Nat) (reqs : List ExtendReq) (freePages : List Nat)
    (outIndices : Nat → Nat) : Nat → Nat :=
  writeAll ((range reqs.length).flatMap (naiveRound ps reqs freePages)) outIndices

/-! ## What they write -/

/-- Where the slots of a request start in `out_indices`. -/
def outStart (reqs : List ExtendReq) (i : Nat) : Nat := ((reqs.take i).map extendLen).sum

/-- Where the new pages of a request start in the free list. -/
def pageStart (ps : Nat) (reqs : List ExtendReq) (i : Nat) : Nat :=
  ((reqs.take i).map (numNewPages ps)).sum

def newPages (ps : Nat) (reqs : List ExtendReq) (freePages : List Nat) (i : Nat) : List Nat :=
  (freePages.drop (pageStart ps reqs i)).take (numNewPages ps (reqAt reqs i))

theorem mem_place {slots : List Nat} :
    x ∈ place start slots ↔ ∃ i < slots.length, x = (start + i, slots.getD i 0) := by
  rw [place, mem_mapIdx]
  constructor
  · rintro ⟨i, hi, rfl⟩
    exact ⟨i, hi, by rw [getD_eq_getElem _ _ hi]⟩
  · rintro ⟨i, hi, rfl⟩
    exact ⟨i, hi, by rw [getD_eq_getElem _ _ hi]⟩

theorem place_append (start : Nat) (v w : List Nat) :
    place start (v ++ w) = place start v ++ place (start + v.length) w := by
  simp only [place, mapIdx_append, add_assoc, add_comm v.length]

theorem mem_place_map {n : Nat} {f : Nat → Nat} :
    x ∈ place start ((range n).map f) ↔ ∃ o < n, x = (start + o, f o) := by
  simp only [mem_place, length_map, length_range]
  refine exists_congr fun o => and_congr_right fun ho => ?_
  rw [getD_eq_getElem _ _ (by simpa using ho)]
  simp

theorem mem_maskedStore {width count : Nat} {value : Nat → Nat} (h : count ≤ width) :
    x ∈ maskedStore width count start value ↔
      x ∈ place start ((range count).map value) := by
  simp only [maskedStore, mem_map, mem_filter, mem_range, decide_eq_true_eq, mem_place_map]
  constructor
  · rintro ⟨o, ⟨-, ho⟩, rfl⟩
    exact ⟨o, ho, rfl⟩
  · rintro ⟨o, ho, rfl⟩
    exact ⟨o, ⟨ho.trans_le h, ho⟩, rfl⟩

/-! ### Sums over lanes -/

section Sums

variable {reqs : List ExtendReq} {pid : Nat}

theorem le_nextPowerOf2 (n : Nat) : n ≤ nextPowerOf2 n := le_pow_clog one_lt_two n

theorem sum_take_succ (f : ExtendReq → Nat) (h : pid < reqs.length) :
    ((reqs.take (pid + 1)).map f).sum = ((reqs.take pid).map f).sum + f (reqAt reqs pid) := by
  rw [take_add_one, getElem?_eq_getElem h, reqAt, getD_eq_getElem _ _ h, map_append, List.sum_append]
  rfl

theorem sum_reqAt (f : ExtendReq → Nat) {k : Nat} (hk : k ≤ reqs.length) :
    ((range k).map fun j => f (reqAt reqs j)).sum = ((reqs.take k).map f).sum := by
  induction k with
  | zero => rfl
  | succ k ih =>
    rw [range_succ, map_append, List.sum_append, ih (by omega), sum_take_succ f hk]
    rfl

/-- The lanes up to `pid` hold the requests up to `pid`, and the others add nothing. -/
theorem sum_lanes (f : ExtendReq → Nat) {g : Nat → Nat} {n : Nat} (hpid : pid < reqs.length)
    (hn : pid < n) (hle : ∀ j ≤ pid, g j = f (reqAt reqs j)) (hgt : ∀ j, pid < j → g j = 0) :
    ((range n).map g).sum = ((reqs.take pid).map f).sum + f (reqAt reqs pid) := by
  obtain ⟨m, rfl⟩ := Nat.exists_eq_add_of_le (Nat.succ_le_of_lt hn)
  have hrest : ((range m).map fun j => g (pid.succ + j)).sum = 0 := by
    refine sum_eq_zero fun x hx => ?_
    obtain ⟨j, -, rfl⟩ := mem_map.mp hx
    exact hgt _ (by omega)
  have hfirst := map_congr_left fun j hj => hle j (le_of_lt_succ (mem_range.mp hj))
  rw [range_add, map_append, List.sum_append, map_map, hfirst, sum_reqAt f hpid, ← sum_take_succ f hpid]
  exact (congrArg _ hrest).trans (add_zero _)

end Sums

/-! ### One program -/

section Program

variable {n k : Nat} {r : ExtendReq}
variable {ps fill : Nat} {reqs : List ExtendReq} {freePages : List Nat} {pid : Nat}

theorem mem_blocks {f : Nat → Nat × Nat} :
    x ∈ ((range ((n + blockExtend - 1) / blockExtend)).flatMap fun blockId =>
      ((range blockExtend).map (blockId * blockExtend + ·)).filter (· < n) |>.map f) ↔
    ∃ o < n, x = f o := by
  simp only [mem_flatMap, mem_map, mem_filter, mem_range, decide_eq_true_eq]
  constructor
  · rintro ⟨_, _, o, ⟨_, ho⟩, rfl⟩
    exact ⟨o, ho, rfl⟩
  · rintro ⟨o, ho, rfl⟩
    have hpos : 0 < blockExtend := by decide
    refine ⟨o / blockExtend, ?_, o, ⟨⟨o % blockExtend, mod_lt o hpos, ?_⟩, ho⟩, rfl⟩
    · rw [div_lt_iff_lt_mul hpos]
      have := le_numPages_mul (n := n) hpos
      exact ho.trans_le this
    · exact div_add_mod' o blockExtend

theorem newPages_getD (hk : k < numNewPages ps (reqAt reqs pid)) :
    (newPages ps reqs freePages pid).getD k 0 = freePages.getD (pageStart ps reqs pid + k) 0 := by
  rw [newPages, getD_eq_getElem?_getD, getElem?_take_of_lt hk, getElem?_drop, getD_eq_getElem?_getD]

theorem extend_starts (ps fill : Nat) (hpid : pid < reqs.length) :
    ((range (nextPowerOf2 reqs.length)).map fun j =>
        laneLoad fill reqs seqLen pid j - laneLoad fill reqs prefixLen pid j).sum -
      ((reqAt reqs pid).seqLen - (reqAt reqs pid).prefixLen) = outStart reqs pid ∧
    ((range (nextPowerOf2 reqs.length)).map fun j =>
        numPages ps (laneLoad fill reqs seqLen pid j) -
          numPages ps (laneLoad fill reqs prefixLen pid j)).sum -
      (numPages ps (reqAt reqs pid).seqLen - numPages ps (reqAt reqs pid).prefixLen) =
        pageStart ps reqs pid := by
  have hn := hpid.trans_le (le_nextPowerOf2 reqs.length)
  constructor
  · rw [sum_lanes extendLen hpid hn]
    · exact Nat.add_sub_cancel _ _
    · intro j hj
      simp only [laneLoad, if_pos hj, extendLen]
    · intro j hj
      simp only [laneLoad, if_neg hj.not_ge, Nat.sub_self]
  · rw [sum_lanes (numNewPages ps) hpid hn]
    · exact Nat.add_sub_cancel _ _
    · intro j hj
      simp only [laneLoad, if_pos hj, numNewPages]
    · intro j hj
      simp only [laneLoad, if_neg hj.not_ge, Nat.sub_self]

theorem div_lt_numNewPages (hps : 0 < ps) {o : Nat}
    (ho : o < r.seqLen / ps * ps - numPages ps r.prefixLen * ps) : o / ps < numNewPages ps r := by
  have hle : r.seqLen / ps ≤ numPages ps r.seqLen := Nat.div_le_div_right (by omega)
  rw [← Nat.sub_mul] at ho
  have := (div_lt_iff_lt_mul hps).mpr ho
  rw [numNewPages]
  omega

theorem numNewPages_pos (hps : 0 < ps) (h : numPages ps r.prefixLen * ps < r.seqLen) :
    0 < numNewPages ps r := by
  have : ¬ numPages ps r.seqLen ≤ numPages ps r.prefixLen := by
    rw [numPages_le_iff hps]
    omega
  rw [numNewPages]
  omega

theorem lt_of_part1 (hle : r.prefixLen ≤ r.seqLen)
    (h : ¬ r.prefixLen + (min r.seqLen k - r.prefixLen) = r.seqLen) : k < r.seqLen := by
  omega

theorem mem_extendKernel (hps : 0 < ps) (hpid : pid < reqs.length)
    (hle : (reqAt reqs pid).prefixLen ≤ (reqAt reqs pid).seqLen) :
    x ∈ extendKernel ps fill reqs freePages pid ↔ x ∈ place (outStart reqs pid)
      (extendSlots ps (reqAt reqs pid) (newPages ps reqs freePages pid)) := by
  obtain ⟨hout, hpage⟩ := extend_starts ps fill hpid
  unfold extendKernel extendSlots
  dsimp only
  rw [hout, hpage]
  set r := reqAt reqs pid
  set k := numPages ps r.prefixLen
  set n1 := min r.seqLen (k * ps) - r.prefixLen
  set n2 := r.seqLen / ps * ps - k * ps
  have hkps : k * ps ≤ r.prefixLen + ps - 1 := div_mul_le_self _ _
  have hpart1 : x ∈ maskedStore ps n1 (outStart reqs pid) (fun o => r.lastLoc + 1 + o) ↔
      x ∈ place (outStart reqs pid) ((range n1).map fun o => r.lastLoc + 1 + o) :=
    mem_maskedStore (by omega)
  have hpart2 : (∃ o < n2, x = (outStart reqs pid + n1 + o,
        freePages.getD (pageStart ps reqs pid + o / ps) 0 * ps + o % ps)) ↔
      x ∈ place (outStart reqs pid + n1) ((range n2).map fun o =>
        (newPages ps reqs freePages pid).getD (o / ps) 0 * ps + o % ps) := by
    rw [mem_place_map]
    refine exists_congr fun o => and_congr_right fun ho => ?_
    rw [newPages_getD (div_lt_numNewPages hps ho)]
  split_ifs with h1 h2
  · exact hpart1
  · rw [place_append, mem_append, mem_append, hpart1, mem_blocks, hpart2, length_map, length_range]
  · have hgt : k * ps < r.seqLen := lt_of_part1 hle h1
    have hpos : 0 < numPages ps r.seqLen - k := numNewPages_pos hps hgt
    have hlast := sub_one_lt_of_lt hpos
    have hidx : pageStart ps reqs pid + (numPages ps r.seqLen - k) - 1 =
        pageStart ps reqs pid + (numPages ps r.seqLen - k - 1) := Nat.add_sub_assoc hpos _
    have hmod : r.seqLen - r.seqLen / ps * ps ≤ ps := by
      have h := div_add_mod' r.seqLen ps
      have hlt := mod_lt r.seqLen hps
      omega
    rw [place_append, place_append, mem_append, mem_append, mem_append, mem_append, hpart1,
      mem_blocks, hpart2, mem_maskedStore hmod, hidx,
      newPages_getD hlast]
    simp only [length_append, length_map, length_range, add_assoc]

theorem slotsOf_cut (hps : 0 < ps) {start q : Nat} (hq : q ≤ n)
    (hfree : start + n ≤ freePages.length) :
    slotsOf ps ((freePages.take (start + n - (n - q))).drop start) =
      (range (q * ps)).map fun o => freePages.getD (start + o / ps) 0 * ps + o % ps := by
  have hcut : (freePages.take (start + n - (n - q))).drop start = (freePages.drop start).take q := by
    rw [drop_take]
    congr 1
    omega
  have hlen : ((freePages.drop start).take q).length = q := by
    rw [length_take, length_drop]
    omega
  rw [hcut, slotsOf_eq_layout hps, hlen]
  refine map_congr_left fun o ho => ?_
  have hlt : o / ps < q := (div_lt_iff_lt_mul hps).mpr (mem_range.mp ho)
  rw [slotAt, getD_eq_getElem?_getD, getElem?_take_of_lt hlt, getElem?_drop, getD_eq_getElem?_getD]

theorem naiveRound_eq (hps : 0 < ps) (hpid : pid < reqs.length)
    (hfree : pageStart ps reqs pid + numNewPages ps (reqAt reqs pid) ≤ freePages.length)
    (hle : (reqAt reqs pid).prefixLen ≤ (reqAt reqs pid).seqLen) :
    naiveRound ps reqs freePages pid = place (outStart reqs pid)
      (extendSlots ps (reqAt reqs pid) (newPages ps reqs freePages pid)) := by
  have hend : cumsum reqs extendLen pid = outStart reqs pid + (reqAt reqs pid).extendLen :=
    sum_take_succ extendLen hpid
  have hnew : cumsum reqs (numNewPages ps) pid =
      pageStart ps reqs pid + numNewPages ps (reqAt reqs pid) := sum_take_succ (numNewPages ps) hpid
  unfold naiveRound extendSlots
  dsimp only
  rw [hend, hnew, Nat.add_sub_cancel, ← numNewPages, Nat.add_sub_cancel]
  set r := reqAt reqs pid
  set k := numPages ps r.prefixLen
  set n1 := min r.seqLen (k * ps) - r.prefixLen with hn1
  have hn2 := Nat.sub_mul (r.seqLen / ps) k ps
  by_cases h1 : r.prefixLen + n1 = r.seqLen
  · rw [if_pos h1, if_pos h1]
  rw [if_neg h1, if_neg h1]
  have hgt : k * ps < r.seqLen := lt_of_part1 hle h1
  have hq : r.seqLen / ps - k ≤ numNewPages ps r :=
    Nat.sub_le_sub_right (Nat.div_le_div_right (by omega)) _
  have hpart2 : (if (r.seqLen / ps - k) * ps = 0 then [] else place (outStart reqs pid + n1)
      (slotsOf ps ((freePages.take (pageStart ps reqs pid + numNewPages ps r -
        (numNewPages ps r - (r.seqLen / ps - k)))).drop (pageStart ps reqs pid)))) =
      place (outStart reqs pid + n1) ((range (r.seqLen / ps * ps - k * ps)).map fun o =>
        (newPages ps reqs freePages pid).getD (o / ps) 0 * ps + o % ps) := by
    have hvalues : (range (r.seqLen / ps * ps - k * ps)).map (fun o =>
        (newPages ps reqs freePages pid).getD (o / ps) 0 * ps + o % ps) =
        (range (r.seqLen / ps * ps - k * ps)).map fun o =>
          freePages.getD (pageStart ps reqs pid + o / ps) 0 * ps + o % ps :=
      map_congr_left fun o ho => by
        rw [newPages_getD (div_lt_numNewPages hps (mem_range.mp ho))]
    rw [slotsOf_cut hps hq hfree, hvalues, ← hn2]
    split_ifs with h0
    · rw [h0]
      rfl
    · rfl
  rw [hpart2, hn2]
  by_cases h2 : r.prefixLen + n1 + (r.seqLen / ps * ps - k * ps) = r.seqLen
  · rw [if_pos h2, if_pos h2, place_append, length_map, length_range]
  rw [if_neg h2, if_neg h2, place_append, place_append, length_append]
  simp only [length_map, length_range]
  have hpos : 0 < numNewPages ps r := numNewPages_pos hps hgt
  have hlast : numNewPages ps r - 1 < numNewPages ps r := sub_one_lt_of_lt hpos
  have hidx : pageStart ps reqs pid + numNewPages ps r - 1 =
      pageStart ps reqs pid + (numNewPages ps r - 1) := Nat.add_sub_assoc hpos _
  have hplace : outStart reqs pid + r.extendLen - (r.seqLen - r.seqLen / ps * ps) =
      outStart reqs pid + (n1 + (r.seqLen / ps * ps - k * ps)) := by
    have hk' : k * ps ≤ r.seqLen / ps * ps :=
      mul_le_mul_right ps ((le_div_iff_mul_le hps).mpr hgt.le)
    have hL : r.prefixLen ≤ k * ps := le_numPages_mul hps
    have hfloor := div_mul_le_self r.seqLen ps
    have hn1' : n1 = k * ps - r.prefixLen := by rw [hn1, min_eq_right hgt.le]
    rw [extendLen]
    omega
  rw [hidx, newPages_getD hlast, hplace]

theorem reqAt_mem (hpid : pid < reqs.length) : reqAt reqs pid ∈ reqs := by
  rw [reqAt, getD_eq_getElem _ _ hpid]
  exact getElem_mem hpid

theorem outStart_decode (hone : ∀ r ∈ reqs, r.seqLen = r.prefixLen + 1) (hpid : pid ≤ reqs.length) :
    outStart reqs pid = pid := by
  have hlens : (reqs.take pid).map extendLen = (reqs.take pid).map fun _ => 1 :=
    map_congr_left fun r hr => by
      rw [extendLen, hone r (mem_of_mem_take hr), Nat.add_sub_cancel_left]
  rw [outStart, hlens, map_const', sum_replicate_nat, length_take, min_eq_left hpid,
    mul_one]

/-- A program of `alloc_decode_kernel` writes the slot of its request. -/
theorem decodeKernel_eq (hpid : pid < reqs.length)
    (hone : ∀ r ∈ reqs, r.seqLen = r.prefixLen + 1) :
    decodeKernel ps fill reqs freePages pid = place (outStart reqs pid)
      (decodeSlots ps (reqAt reqs pid) (newPages ps reqs freePages pid)) := by
  have hn := hpid.trans_le (le_nextPowerOf2 reqs.length)
  have hnew : ∀ j < reqs.length, numPages ps (reqAt reqs j).seqLen -
      numPages ps ((reqAt reqs j).seqLen - 1) = numNewPages ps (reqAt reqs j) := by
    intro j hj
    rw [numNewPages, hone _ (reqAt_mem hj), Nat.add_sub_cancel]
  have hsum : ((range (nextPowerOf2 reqs.length)).map fun j =>
      numPages ps (laneLoad fill reqs seqLen pid j) - numPages ps
        (if j ≤ pid then laneLoad fill reqs seqLen pid j - 1 else laneLoad fill reqs seqLen pid j)).sum =
      pageStart ps reqs pid + numNewPages ps (reqAt reqs pid) := by
    refine sum_lanes (numNewPages ps) hpid hn ?_ ?_
    · intro j hj
      simp only [laneLoad, if_pos hj]
      exact hnew j (by omega)
    · intro j hj
      simp only [if_neg hj.not_ge, Nat.sub_self]
  unfold decodeKernel decodeSlots
  dsimp only
  rw [hsum, hnew pid hpid, Nat.add_sub_cancel, outStart_decode hone hpid.le]
  split_ifs with h0
  · rfl
  · rw [newPages_getD (Nat.pos_of_ne_zero h0)]
    rfl

end Program

/-! ### A batch -/

section Batch

variable {i j o : Nat}
variable {ps fill : Nat} {reqs : List ExtendReq} {freePages : List Nat}

theorem length_extendSlots (hps : 0 < ps) {r : ExtendReq} (hle : r.prefixLen ≤ r.seqLen)
    (pages : List Nat) : (extendSlots ps r pages).length = r.extendLen := by
  have hL : r.prefixLen ≤ numPages ps r.prefixLen * ps := le_numPages_mul hps
  have hfloor := div_mul_le_self r.seqLen ps
  unfold extendSlots extendLen
  dsimp only
  split_ifs with h1 h2
  · rw [length_map, length_range]
    omega
  · simp only [length_append, length_map, length_range]
    omega
  · have hgt := lt_of_part1 hle h1
    have hk := mul_le_mul_right ps ((le_div_iff_mul_le hps).mpr hgt.le)
    simp only [length_append, length_map, length_range]
    omega

theorem length_decodeSlots (r : ExtendReq) (pages : List Nat) :
    (decodeSlots ps r pages).length = 1 := by
  unfold decodeSlots
  split_ifs <;> rfl

theorem sum_take_add_le (f : ExtendReq → Nat) (hij : i < j) (hj : j ≤ reqs.length) :
    ((reqs.take i).map f).sum + f (reqAt reqs i) ≤ ((reqs.take j).map f).sum := by
  induction j, hij using le_induction with
  | base => rw [sum_take_succ f hj]
  | succ j hij ih =>
    rw [sum_take_succ f hj]
    exact (ih (by omega)).trans (le_add_right _ _)

theorem sum_take_inj (f : ExtendReq → Nat) {o' : Nat} (hi : i < reqs.length) (hj : j < reqs.length)
    (ho : o < f (reqAt reqs i)) (ho' : o' < f (reqAt reqs j))
    (h : ((reqs.take i).map f).sum + o = ((reqs.take j).map f).sum + o') : i = j ∧ o = o' := by
  obtain hlt | rfl | hgt := lt_trichotomy i j
  · have := sum_take_add_le f hlt hj.le
    omega
  · exact ⟨rfl, by omega⟩
  · have := sum_take_add_le f hgt hi.le
    omega

/-- The writes leave the slots of each request in its part of the tensor, in any order. -/
def Computes (reqs : List ExtendReq) (ws : List (Nat × Nat)) (slots : Nat → List Nat) : Prop :=
  ∀ out out' : Nat → Nat, Written ws out out' → ∀ i < reqs.length,
    ∀ o < (reqAt reqs i).extendLen, out' (outStart reqs i + o) = (slots i).getD o 0

theorem computes_of_mem {ws : List (Nat × Nat)} {slots : Nat → List Nat}
    (hlen : ∀ i < reqs.length, (slots i).length = (reqAt reqs i).extendLen)
    (hmem : ∀ x, x ∈ ws ↔ ∃ i < reqs.length, x ∈ place (outStart reqs i) (slots i)) :
    Computes reqs ws slots := by
  intro out out' hw i hi o ho
  refine hw.eq ⟨_, (hmem _).mpr ⟨i, hi, mem_place.mpr ⟨o, by rwa [hlen i hi], rfl⟩⟩, rfl⟩ ?_
  intro x hx haddr
  obtain ⟨j, hj, hx⟩ := (hmem x).mp hx
  obtain ⟨o', ho', rfl⟩ := mem_place.mp hx
  rw [hlen j hj] at ho'
  obtain ⟨rfl, rfl⟩ := sum_take_inj extendLen hj hi ho' ho haddr
  rfl

theorem extendKernel_computes (hps : 0 < ps) (hle : ∀ r ∈ reqs, r.prefixLen ≤ r.seqLen) :
    Computes reqs (launch (extendKernel ps fill reqs freePages) reqs)
      fun i => extendSlots ps (reqAt reqs i) (newPages ps reqs freePages i) := by
  refine computes_of_mem (fun i hi => length_extendSlots hps (hle _ (reqAt_mem hi)) _) fun x => ?_
  simp only [launch, mem_flatMap, mem_range]
  exact exists_congr fun i => and_congr_right fun hi =>
    mem_extendKernel hps hi (hle _ (reqAt_mem hi))

theorem pageStart_add_le (hi : i < reqs.length) :
    pageStart ps reqs i + numNewPages ps (reqAt reqs i) ≤ totalNewPages ps reqs := by
  have h := sum_take_add_le (numNewPages ps) hi le_rfl
  rwa [take_length] at h

theorem naive_computes (hps : 0 < ps) (hle : ∀ r ∈ reqs, r.prefixLen ≤ r.seqLen)
    (hfree : totalNewPages ps reqs ≤ freePages.length) (out : Nat → Nat) (hi : i < reqs.length)
    (ho : o < (reqAt reqs i).extendLen) :
    allocExtendNaive ps reqs freePages out (outStart reqs i + o) =
      (extendSlots ps (reqAt reqs i) (newPages ps reqs freePages i)).getD o 0 := by
  have hc : Computes reqs ((range reqs.length).flatMap (naiveRound ps reqs freePages))
      fun i => extendSlots ps (reqAt reqs i) (newPages ps reqs freePages i) := by
    refine computes_of_mem (fun i hi => length_extendSlots hps (hle _ (reqAt_mem hi)) _) fun x => ?_
    simp only [mem_flatMap, mem_range]
    refine exists_congr fun i => and_congr_right fun hi => ?_
    rw [naiveRound_eq hps hi ((pageStart_add_le hi).trans hfree) (hle _ (reqAt_mem hi))]
  exact hc out _ ⟨_, .refl _, rfl⟩ i hi o ho

theorem decodeKernel_computes (hone : ∀ r ∈ reqs, r.seqLen = r.prefixLen + 1) :
    Computes reqs (launch (decodeKernel ps fill reqs freePages) reqs)
      fun i => decodeSlots ps (reqAt reqs i) (newPages ps reqs freePages i) := by
  refine computes_of_mem (fun i hi => ?_) fun x => ?_
  · rw [length_decodeSlots, extendLen, hone _ (reqAt_mem hi), Nat.add_sub_cancel_left]
  · simp only [launch, mem_flatMap, mem_range]
    exact exists_congr fun i => and_congr_right fun hi => by rw [decodeKernel_eq hi hone]

end Batch

end Fluxfer.Memory
