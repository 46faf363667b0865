import Fluxfer.Memory.KernelsSpec
import Fluxfer.Requests.Runs

/-!
# The memory of decode batches

`new_tokens_required_next_decode`, `check_decode_mem`, `release_req` and `retract_decode` of
`managers/schedule_batch.py`, and the slots that `prepare_for_decode` allocates, with and without
speculative decoding.
-/

namespace Fluxfer.Memory.Allocator

open Pages Nat Multiset

variable {n : Nat} {reqs : List ExtendReq}
variable {ps : Nat} {a a' a'' : Allocator} {v : List Nat}

/-- Pages have been given back, and none has been taken. -/
structure Gains (a a' : Allocator) : Prop where
  size : a.availableSize ≤ a'.availableSize
  tidy : a.Tidy → a'.Tidy
  pages : a.pages ⊆ a'.pages

theorem Gains.refl (a : Allocator) : Gains a a := ⟨le_rfl, id, Multiset.Subset.refl _⟩

theorem Gains.trans (h : Gains a a') (k : Gains a' a'') : Gains a a'' :=
  ⟨h.size.trans k.size, k.tidy ∘ h.tidy, Multiset.Subset.trans h.pages k.pages⟩

theorem free_gains (a : Allocator) (v : List Nat) : Gains a (a.free v) := by
  have hsize : ∀ n m k : Nat, n ≤ m → (n + k) * a.pageSize ≤ (m + k) * a.pageSize :=
    fun n m k h => Nat.mul_le_mul_right _ (Nat.add_le_add_right h k)
  refine ⟨?_, fun h => tidy_free h v, fun x hx => ?_⟩
  · unfold free availableSize
    split_ifs
    · exact le_rfl
    · rw [List.length_append, add_comm, add_comm a.freePages.length]
      exact hsize _ _ _ (le_add_right _ _)
    · rw [List.length_append]
      exact hsize _ _ _ (le_add_right _ _)
    · dsimp only
      rw [List.length_append, add_comm, add_comm a.freePages.length]
      exact hsize _ _ _ (le_add_left _ _)
    · dsimp only
      rw [List.length_append]
      exact hsize _ _ _ (le_add_left _ _)
    · exact le_rfl
  · simp only [pages, queued, mem_add] at hx
    unfold free
    split_ifs with _ hgroup
    all_goals simp only [pages, queued, mem_add, mem_coe, List.mem_append]
    · exact hx
    · tauto
    · tauto
    · tauto
    · tauto
    · rw [if_neg hgroup] at hx ⊢
      rw [List.flatten_append, pagesOf_append, List.mem_append]
      tauto

theorem mem_pages_free (hps : 0 < ps) (hsize : a.pageSize = ps) (hv : Started ps v) {s : Nat}
    (hs : s ∈ v) : s / ps ∈ (a.free v).pages := by
  have hne : v ≠ [] := List.ne_nil_of_mem hs
  have hpage : s / ps ∈ pagesOf ps v := (hv.mem_pagesOf hps).mpr ⟨s, hs, rfl⟩
  have hunique : s / ps ∈ uniquePages ps v := by
    rw [uniquePages, (List.perm_insertionSort _ _).mem_iff, List.mem_dedup, List.mem_map]
    exact ⟨s, hs, rfl⟩
  unfold free
  rw [if_neg hne, hsize]
  split_ifs with hgroup hone hsort hsort
  all_goals simp only [pages, queued, mem_add]
  · subst hone
    rw [Nat.div_one]
    exact .inl (.inr (List.mem_append_right _ hs))
  · subst hone
    rw [Nat.div_one]
    exact .inl (.inl (List.mem_append_right _ hs))
  · exact .inl (.inr (List.mem_append_left _ hunique))
  · exact .inl (.inl (List.mem_append_left _ hunique))
  · refine .inr ?_
    rw [if_neg hgroup, List.flatten_append, pagesOf_append, List.flatten_singleton]
    exact List.mem_append_right _ hpage

/-! ## Allocations that find enough pages -/

theorem takePages_of_held {k : Nat} {x : List (List Nat)} (ht : a.Tidy) (hnk : n ≤ k)
    (h : n ≤ a.held.length) : ∃ outs a', takePages (a.refill k) n x = (some outs, a') := by
  have hlt : ¬ (a.refill k).freePages.length < n := fun hlt =>
    absurd (held_lt_of_refill ht hnk hlt) (not_lt.mpr h)
  exact ⟨x, _, by rw [takePages, if_neg hlt]⟩

theorem alloc_of_held (hsize : a.pageSize = 1) (ht : a.Tidy) (h : n ≤ a.held.length) :
    ∃ v a', a.alloc n = (some v, a') := by
  have hlt : ¬ (a.refill n).freePages.length < n := fun hlt =>
    absurd (held_lt_of_refill ht le_rfl hlt) (not_lt.mpr h)
  unfold alloc
  rw [hsize, Nat.div_one, if_neg hlt]
  exact ⟨_, _, rfl⟩

theorem allocForExtend_of_held (hps : 0 < ps) (hsize : a.pageSize = ps) (ht : a.Tidy)
    (h : totalNewPages ps reqs ≤ a.held.length) :
    ∃ outs a', a.allocForExtend reqs = (some outs, a') := by
  unfold allocForExtend
  split_ifs with hone
  · obtain rfl : ps = 1 := hsize.symm.trans hone
    rw [totalNewPages_one] at h
    obtain ⟨v, a', hrun⟩ := alloc_of_held hone ht h
    rw [hrun]
    exact ⟨_, _, rfl⟩
  · obtain ⟨k, hk, heq⟩ := allocExtend_eq hps hsize reqs
    rw [heq]
    exact takePages_of_held ht hk h

theorem allocForDecode_of_held (hps : 0 < ps) (hsize : a.pageSize = ps) (ht : a.Tidy)
    (hone : ∀ r ∈ reqs, r.seqLen = r.prefixLen + 1) (h : totalNewPages ps reqs ≤ a.held.length) :
    ∃ outs a', a.allocForDecode reqs = (some outs, a') := by
  unfold allocForDecode
  split_ifs with h1
  · obtain rfl : ps = 1 := hsize.symm.trans h1
    have hlen : totalNewPages 1 reqs = reqs.length := by
      rw [totalNewPages_one, List.map_congr_left fun r hr => by
        rw [hone r hr, Nat.add_sub_cancel_left], List.map_const', List.sum_replicate_nat,
        mul_one]
    rw [hlen] at h
    obtain ⟨v, a', hrun⟩ := alloc_of_held h1 ht h
    rw [hrun]
    exact ⟨_, _, rfl⟩
  · obtain ⟨k, hk, heq⟩ := allocDecode_eq (by omega) hsize hone
    rw [heq]
    exact takePages_of_held ht hk h

theorem availableSize_eq (hsize : a.pageSize = ps) : a.availableSize = a.held.length * ps := by
  rw [availableSize, held, List.length_append, hsize]

end Fluxfer.Memory.Allocator

namespace Fluxfer.Requests

open Radix Memory Pages ParentTree

/-! ## The batch -/

/-- How a batch decodes, by `spec_algorithm` and `is_spec_v2`. A number that is not set is 0. -/
inductive SpecMode
  | none
  | v1 (numSteps eagleTopk numDraftTokens : Nat)
  | v2 (allocLenPerDecode : Nat)
deriving DecidableEq, Repr

def ceilAlign (x ps : Nat) : Nat := numPages ps x * ps

/-- `new_tokens_required_next_decode`, where `row` is the part up to `kv_allocated_len`. -/
def newTokensRequiredNextDecode (spec : SpecMode) (ps : Nat) (requests : List Req) : Nat :=
  match spec with
  | .none => requests.countP (fun r => r.kvCommittedLen % ps = 0) * ps
  | .v1 numSteps eagleTopk numDraftTokens =>
    let lenPerTopk := if numSteps = 0 then 1 else numSteps
    let specTopk := if eagleTopk = 0 then 1 else eagleTopk
    let (lenPerTopk, specTokens) :=
      if 1 < ps ∧ 1 < specTopk then
        -- the last partial page, and rounding up
        (ceilAlign (lenPerTopk + ps) ps, ceilAlign numDraftTokens ps)
      else if 1 < ps then (ceilAlign lenPerTopk ps, ceilAlign numDraftTokens ps)
      else (lenPerTopk, numDraftTokens)
    max (lenPerTopk * specTopk) specTokens * requests.length
  | .v2 allocLen =>
    (requests.map fun r =>
      let x := r.kvCommittedLen + 2 * allocLen - r.row.length
      ceilAlign (r.row.length + x) ps - ceilAlign r.row.length ps).sum

/-- `check_decode_mem` of the given requests. -/
def checkDecodeMem (p : CacheParams) (spec : SpecMode) (c : RadixCache) (requests : List Req)
    (pick : Nat → Nat) : Except CacheError (Bool × RadixCache) := do
  let numTokens := newTokensRequiredNextDecode spec p.pageSize requests
  let c ← c.evictFromTreeCache p numTokens pick
  .ok (decide (numTokens ≤ c.allocator.availableSize), c)

/-- The slots of `prepare_for_decode`. Version 1 of speculative decoding takes them later, and
version 2 claims the slot of the bonus token here. -/
def prepareForDecode (p : CacheParams) (spec : SpecMode) (c : RadixCache) (reqs : List Req)
    (pick : Nat → Nat) : Except CacheError (List Req × RadixCache) :=
  match spec with
  | .none => do
    let ereqs := reqs.map fun r => r.growReq (r.row.length + 1)
    let (outs, c) ← System.allocBatch p ⟨c, reqs⟩ (reqs.length * p.pageSize) pick
      (·.allocForDecode ereqs)
    .ok (List.zipWith Req.decoded reqs outs, c)
  | .v1 _ _ _ => .ok (reqs, c)
  | .v2 allocLen => do
    let ereqs := reqs.map fun r =>
      r.growReq (max r.row.length (r.kvCommittedLen + (allocLen + allocLen)))
    let (outs, c) ← System.allocBatch p ⟨c, reqs⟩ (System.tokensFor p ereqs) pick
      (·.allocForExtend ereqs)
    .ok (List.zipWith
      (fun r out => { r.reserved out with kvCommittedLen := r.kvCommittedLen + 1 }) reqs outs, c)

/-- `release_req`, without the copies that other modes make before. -/
def releaseReq (p : CacheParams) (args : ServerArgs) (retractDecodeSteps : Nat) (c : RadixCache)
    (r : Req) (remainingReqCount : Nat) (pick : Nat → Nat) : Except CacheError RadixCache := do
  let c ← c.releaseKvCache p args r false
  c.evictFromTreeCache p (remainingReqCount * retractDecodeSteps) pick

/-- `key(i) ≥ key(j)` for the sort of `retract_decode`: more output first, then the shorter
prompt. -/
def retractOrder (reqs : List Req) (i j : Nat) : Prop :=
  let ri := reqs.getD i default
  let rj := reqs.getD j default
  rj.outputIds.length < ri.outputIds.length ∨
    (ri.outputIds.length = rj.outputIds.length ∧
      ri.originInputIds.length ≤ rj.originInputIds.length)

instance (reqs : List Req) : DecidableRel (retractOrder reqs) := fun _ _ =>
  inferInstanceAs (Decidable (_ ∨ _))

/-- The places where `retract_decode` evicts, with the number of requests that are left. -/
inductive EvictCall
  | check (left : Nat)
  | release (left : Nat)
  | lastCheck
deriving DecidableEq

/-- What `retract_decode` returns: positions in the batch. -/
structure Retraction where
  kept : List Nat
  retracted : List Nat
  /-- with the message of `FINISH_ABORT` and its status code -/
  aborted : List (Nat × String × Nat)
deriving DecidableEq, Repr

def lastReqOutOfMemory : String × Nat :=
  ("Out of memory even after retracting all other requests " ++
    "in the decode batch. Aborting the last request.", 500)

def selected (reqs : List Req) (indices : List Nat) : List Req :=
  indices.map fun i => reqs.getD i default

/-- The test of the loop of `retract_decode`, which its first round skips. -/
def loopTest (p : CacheParams) (spec : SpecMode) (reqs : List Req) (firstIter : Bool)
    (c : RadixCache) (sortedIndices : List Nat) (pick : Nat → Nat) :
    Except CacheError (Bool × RadixCache) :=
  if firstIter then .ok (false, c) else checkDecodeMem p spec c (selected reqs sortedIndices) pick

section RetractDecode

variable (p : CacheParams) (args : ServerArgs) (spec : SpecMode) (retractDecodeSteps : Nat)
  (picks : EvictCall → Nat → Nat) (reqs : List Req)

def retractLoop : Nat → Bool → RadixCache → List Nat → List Nat →
    Except CacheError (List Nat × List Nat × RadixCache)
  | 0, _, _, _, _ => .error .diverged
  | fuel + 1, firstIter, c, sortedIndices, retracted => do
    let (enough, c) ← loopTest p spec reqs firstIter c sortedIndices
      (picks (.check sortedIndices.length))
    if enough then .ok (sortedIndices, retracted, c)
    else if sortedIndices.length = 1 then .ok (sortedIndices, retracted, c)
    else
      match sortedIndices.getLast? with
      | none => .error .missingKey
      | some idx =>
        let sortedIndices := sortedIndices.dropLast
        let c ← releaseReq p args retractDecodeSteps c (reqs.getD idx default)
          sortedIndices.length (picks (.release sortedIndices.length))
        retractLoop fuel false c sortedIndices (retracted ++ [idx])

/-- `retract_decode`, without the new estimate of the token ratio. -/
def retractDecode (c : RadixCache) : Except CacheError (Retraction × RadixCache) := do
  let indices := List.range reqs.length
  let sortedIndices := if args.speculative then indices
    else indices.insertionSort (retractOrder reqs)
  let (sortedIndices, retracted, c) ←
    retractLoop p args spec retractDecodeSteps picks reqs (reqs.length + 1) true c sortedIndices []
  if 1 < sortedIndices.length then .ok (⟨sortedIndices, retracted, []⟩, c)
  else
    let (enough, c) ← checkDecodeMem p spec c (selected reqs sortedIndices) (picks .lastCheck)
    if enough then .ok (⟨sortedIndices, retracted, []⟩, c)
    else
      match sortedIndices.getLast? with
      | none => .error .missingKey
      | some idx =>
        let c ← releaseReq p args retractDecodeSteps c (reqs.getD idx default) 0
          (picks (.release 0))
        .ok (⟨sortedIndices.dropLast, retracted, [(idx, lastReqOutOfMemory)]⟩, c)

end RetractDecode

/-! ## Evictions and releases, whoever owns the slots -/

section Frees

variable {k : Nat} {r : Req} {hs : List NodeId} {spec : SpecMode}
variable {p : CacheParams} {args : ServerArgs} {c c' : RadixCache} {A A' : Finset NodeId}

/-- The cache keeps its invariant, and its allocator only gains. -/
structure Frees (p : CacheParams) (c : RadixCache) (c' : RadixCache) (A' : Finset NodeId) :
    Prop where
  inv : CacheInv p c' A'
  gains : c.allocator.Gains c'.allocator

theorem CacheInv.of_evicts (h : CacheInv p c A) (hev : Evicts p c A k c' A') : Frees p c c' A' := by
  have hok : c'.allocator.Ok p.pageSize ∧ c.allocator.Gains c'.allocator := by
    induction hev with
    | refl => exact ⟨h.ok, .refl _⟩
    | step hev hl _ _ ih =>
      have hlaid := hev.valuesLaid h.laid _ hl.mem
      exact ⟨ih.1.free (hlaid.started p.pageSize_pos), ih.2.trans (Allocator.free_gains _ _)⟩
  exact ⟨⟨hev.baseInv h.base, hev.valuesLaid h.laid, hok.1⟩, hok.2⟩

theorem CacheInv.evict_frees (h : CacheInv p c A) (numTokens : Nat) (pick : Nat → Nat) :
    ∃ c' A', c.evictFromTreeCache p numTokens pick = .ok c' ∧ Frees p c c' A' ∧
      ∀ hs, HeldBy c.tree A hs → HeldBy c'.tree A' hs := by
  unfold RadixCache.evictFromTreeCache
  split_ifs
  · obtain ⟨k, c', A', hrun, hev⟩ := evict_spec h.base numTokens pick
    exact ⟨c', A', by rw [hrun]; rfl, h.of_evicts hev, fun _ hh => hev.heldBy hh⟩
  · exact ⟨c, A, rfl, ⟨h, .refl _⟩, fun _ hh => hh⟩

theorem CacheInv.free_frees (h : CacheInv p c A) {v : List Nat} (hv : Laid p.pageSize v) :
    Frees p c { c with allocator := c.allocator.free v } A :=
  ⟨⟨h.base, h.laid, h.ok.free (hv.started p.pageSize_pos)⟩, Allocator.free_gains _ _⟩

/-- A request of a decode batch: its row fills pages, the tree has whole pages of it, and it can
be released. Without speculative decoding all of its slots are committed. -/
structure Req.Decoding (p : CacheParams) (args : ServerArgs) (spec : SpecMode) (r : Req) :
    Prop where
  laid : Laid p.pageSize r.row
  protected_dvd : p.pageSize ∣ r.cacheProtectedLen
  committed_le : r.kvCommittedLen ≤ r.row.length
  releasable : r.Releasable args
  committed_eq : spec = .none → r.kvCommittedLen = r.row.length

/-- A release frees the slots up to the aligned key, the rest of the committed slots, and what is
allocated beyond the last committed page. -/
theorem mem_release_parts {n s : Nat} (hlaid : Laid p.pageSize r.row)
    (hd : p.pageSize ∣ r.cacheProtectedLen) (hn : k ≤ n) (hs : s ∈ r.privateSlots) :
    s / p.pageSize ∈ pagesOf p.pageSize (slice r.row r.cacheProtectedLen k) ∨
      s / p.pageSize ∈ pagesOf p.pageSize (slice r.row k n) ∨
      s / p.pageSize ∈ pagesOf p.pageSize (r.row.drop (numPages p.pageSize n * p.pageSize)) := by
  -- below the protected part nothing is freed twice when the key ends there
  set m := min r.cacheProtectedLen k with hm
  have hslice : slice r.row m k = slice r.row r.cacheProtectedLen k := by
    rcases le_total r.cacheProtectedLen k with hle | hle
    · rw [hm, min_eq_left hle]
    · rw [hm, min_eq_right hle, slice, slice, List.drop_of_length_le (List.length_take_le _ _),
        List.drop_of_length_le ((List.length_take_le _ _).trans hle)]
  have hparts := pagesOf_release (r := { r with cacheProtectedLen := m }) hlaid
    (min_le_right r.cacheProtectedLen k) hn
  have hpage : s / p.pageSize ∈ pagesOf p.pageSize (r.row.drop m) := by
    obtain ⟨d, hd'⟩ := Nat.exists_eq_add_of_le (Nat.min_le_left r.cacheProtectedLen k)
    have hstarted := (hlaid.drop p.pageSize_pos hd).started p.pageSize_pos
    have hmem := (hstarted.mem_pagesOf p.pageSize_pos).mpr ⟨s, hs, rfl⟩
    rw [← List.take_append_drop d (r.row.drop m), List.drop_drop, ← hd', pagesOf_append]
    exact List.mem_append_right _ hmem
  have hmem : s / p.pageSize ∈ (pagesOf p.pageSize (r.row.drop m) : Multiset Nat) := hpage
  rw [show (pagesOf p.pageSize (r.row.drop m) : Multiset Nat) = _ from hparts, Multiset.mem_add,
    Multiset.mem_add] at hmem
  rw [← hslice, ← or_assoc]
  exact hmem

theorem Frees.trans {c'' : RadixCache} {A'' : Finset NodeId} (h : Frees p c c' A')
    (k : Frees p c' c'' A'') : Frees p c c'' A'' :=
  ⟨k.inv, h.gains.trans k.gains⟩

section

variable (h : CacheInv p c A) (hr : r.Decoding p args spec)
  (hh : HeldBy c.tree A (r.lastNode :: hs))
include h hr hh

theorem CacheInv.cacheFinishedReq_frees :
    ∃ c', c.cacheFinishedReq p args r false = .ok c' ∧ Frees p c c' A ∧ HeldBy c'.tree A hs ∧
      ∀ x, x ∈ pagesOf p.pageSize (slice r.row r.cacheProtectedLen (r.releaseKey p args).len) ∨
        x ∈ pagesOf p.pageSize (slice r.row (r.releaseKey p args).len (r.cacheCommitLen args)) →
        x ∈ c'.allocator.pages := by
  have hn := r.cacheCommitLen_le args
  have hcommit := hr.releasable.committed_le
  have htokens : (r.tokenIds.take (r.cacheCommitLen args)).length = r.cacheCommitLen args := by
    rw [List.length_take]
    omega
  have hkn : (r.releaseKey p args).len ≤ r.cacheCommitLen args :=
    (cacheKey_len_le _ _).trans ((length_keyUnits_le _).trans htokens.le)
  set v1 := slice r.row r.cacheProtectedLen (r.releaseKey p args).len with hv1
  set v2 := slice r.row (r.releaseKey p args).len (r.cacheCommitLen args) with hv2
  have hslice : slice (r.row.take (r.cacheCommitLen args)) r.cacheProtectedLen
      (r.releaseKey p args).len = v1 := by
    rw [hv1, slice, slice, List.take_take, min_eq_left hkn]
  have hlaid1 : Laid p.pageSize v1 := slice_laid hr.laid hr.protected_dvd
  have hlaid2 : Laid p.pageSize v2 := slice_laid hr.laid (cacheKey_dvd _ _)
  have hf1 := h.free_frees hlaid1
  have hf2 := hf1.inv.free_frees hlaid2
  obtain ⟨d, t', hdec, hinv, hheld, hl⟩ := decLockRef_spec h.base hh List.mem_cons_self
  rw [List.erase_cons_head] at hheld
  have hvalue : ∀ n ∈ A, (t'.nodes n).value = (c.tree.nodes n).value := fun n _ => hl.value_eq n
  refine ⟨⟨t', (c.allocator.free v1).free v2⟩, ?_,
    ⟨⟨hinv, h.laid.congr hvalue, hf2.inv.ok⟩, hf1.gains.trans hf2.gains⟩, hheld, ?_⟩
  · unfold RadixCache.cacheFinishedReq RadixCache.insertOrFree
    unfold Req.releaseKey at hslice hv2
    simp only [htokens, Bool.false_and, Bool.false_eq_true, if_false, bind, Except.bind, hslice,
      hdec]
    rfl
  · rintro x (hx | hx)
    · obtain ⟨s, hs, rfl⟩ :=
        ((hlaid1.started p.pageSize_pos).mem_pagesOf p.pageSize_pos).mp hx
      exact hf2.gains.pages (Allocator.mem_pages_free p.pageSize_pos h.ok.pageSize_eq
        (hlaid1.started p.pageSize_pos) hs)
    · obtain ⟨s, hs, rfl⟩ :=
        ((hlaid2.started p.pageSize_pos).mem_pagesOf p.pageSize_pos).mp hx
      exact Allocator.mem_pages_free p.pageSize_pos hf1.inv.ok.pageSize_eq
        (hlaid2.started p.pageSize_pos) hs

theorem CacheInv.releaseKvCache_frees :
    ∃ c', c.releaseKvCache p args r false = .ok c' ∧ Frees p c c' A ∧ HeldBy c'.tree A hs ∧
      ∀ s ∈ r.privateSlots, s / p.pageSize ∈ c'.allocator.pages := by
  obtain ⟨c1, hrun, hf1, hheld, hparts⟩ := h.cacheFinishedReq_frees hr hh
  have hkn : (r.releaseKey p args).len ≤ r.cacheCommitLen args := by
    refine (cacheKey_len_le _ _).trans ((length_keyUnits_le _).trans ?_)
    rw [List.length_take]
    exact min_le_left _ _
  have hmem := fun s hs => mem_release_parts (s := s) hr.laid hr.protected_dvd hkn hs
  unfold RadixCache.releaseKvCache
  simp only [hrun, roundUp_eq, if_neg hr.releasable.not_overallocated]
  set startP := numPages p.pageSize (r.cacheCommitLen args) * p.pageSize
  split_ifs with hlt
  · have hslice : slice r.row startP r.row.length = r.row.drop startP := by
      rw [slice, List.take_length]
    have hlaid : Laid p.pageSize (r.row.drop startP) :=
      hr.laid.drop p.pageSize_pos (Dvd.intro_left _ rfl)
    have hf2 := hf1.inv.free_frees hlaid
    rw [hslice]
    refine ⟨_, rfl, hf1.trans hf2, hheld, fun s hs => ?_⟩
    rcases or_assoc.mpr (hmem s hs) with hx | hx
    · exact hf2.gains.pages (hparts _ hx)
    · obtain ⟨s', hs', heq⟩ := ((hlaid.started p.pageSize_pos).mem_pagesOf p.pageSize_pos).mp hx
      rw [← heq]
      exact Allocator.mem_pages_free p.pageSize_pos hf1.inv.ok.pageSize_eq
        (hlaid.started p.pageSize_pos) hs'
  · refine ⟨c1, rfl, hf1, hheld, fun s hs => ?_⟩
    rcases or_assoc.mpr (hmem s hs) with hx | hx
    · exact hparts _ hx
    · rw [List.drop_of_length_le (Nat.le_of_not_lt hlt)] at hx
      cases hx

theorem CacheInv.releaseReq_frees (steps remaining : Nat) (pick : Nat → Nat) :
    ∃ c' A', releaseReq p args steps c r remaining pick = .ok c' ∧ Frees p c c' A' ∧
      HeldBy c'.tree A' hs ∧ ∀ s ∈ r.privateSlots, s / p.pageSize ∈ c'.allocator.pages := by
  obtain ⟨c1, hrun1, hf1, hheld1, hslots⟩ := h.releaseKvCache_frees hr hh
  obtain ⟨c2, A2, hrun2, hf2, hheld2⟩ := hf1.inv.evict_frees (remaining * steps) pick
  refine ⟨c2, A2, ?_, hf1.trans hf2, hheld2 _ hheld1, fun s hs => hf2.gains.pages (hslots s hs)⟩
  unfold releaseReq
  simp only [hrun1, bind, Except.bind, hrun2]

end

theorem CacheInv.checkDecodeMem_frees (h : CacheInv p c A) (spec : SpecMode) (requests : List Req)
    (pick : Nat → Nat) :
    ∃ b c' A', checkDecodeMem p spec c requests pick = .ok (b, c') ∧ Frees p c c' A' ∧
      (∀ hs, HeldBy c.tree A hs → HeldBy c'.tree A' hs) ∧
      (b = true ↔ newTokensRequiredNextDecode spec p.pageSize requests ≤
        c'.allocator.availableSize) := by
  obtain ⟨c', A', hrun, hf, hheld⟩ :=
    h.evict_frees (newTokensRequiredNextDecode spec p.pageSize requests) pick
  refine ⟨_, c', A', ?_, hf, hheld, decide_eq_true_iff⟩
  unfold checkDecodeMem
  simp only [hrun, bind, Except.bind]

end Frees

/-! ## The check and the allocation -/

section Enough

variable {p : CacheParams} {args : ServerArgs} {c : RadixCache} {A : Finset NodeId}
  {reqs : List Req}

theorem totalNewPages_next {ps : Nat} (hps : 0 < ps)
    (h : ∀ r ∈ reqs, r.kvCommittedLen = r.row.length) :
    Allocator.totalNewPages ps (reqs.map fun r => r.growReq (r.row.length + 1)) =
      reqs.countP fun r => r.kvCommittedLen % ps = 0 := by
  rw [Allocator.totalNewPages, List.map_map]
  induction reqs with
  | nil => rfl
  | cons r rs ih =>
    have hone : Allocator.numNewPages ps (r.growReq (r.row.length + 1)) =
        if r.kvCommittedLen % ps = 0 then 1 else 0 := by
      rw [h r List.mem_cons_self]
      show numPages ps (r.row.length + 1) - numPages ps r.row.length = _
      rw [numPages_succ hps, Nat.add_sub_cancel_left]
    rw [List.map_cons, List.sum_cons, ih fun x hx => h x (List.mem_cons_of_mem _ hx),
      List.countP_cons, Function.comp_apply, hone]
    simp only [decide_eq_true_eq]
    exact add_comm _ _

theorem totalNewPages_spec (ps allocLen : Nat) (reqs : List Req) :
    newTokensRequiredNextDecode (.v2 allocLen) ps reqs =
      Allocator.totalNewPages ps (reqs.map fun r =>
        r.growReq (max r.row.length (r.kvCommittedLen + (allocLen + allocLen)))) * ps := by
  rw [Allocator.totalNewPages, List.map_map]
  show (reqs.map _).sum = _
  induction reqs with
  | nil => exact (zero_mul ps).symm
  | cons r rs ih =>
    have hlen : r.row.length + (r.kvCommittedLen + 2 * allocLen - r.row.length) =
        max r.row.length (r.kvCommittedLen + (allocLen + allocLen)) := by omega
    rw [List.map_cons, List.sum_cons, ih, List.map_cons, List.sum_cons, add_mul]
    refine congrArg (· + _) ?_
    dsimp only
    rw [hlen, ceilAlign, ceilAlign, ← Nat.sub_mul]
    rfl

theorem allocBatch_ok (reqs : List Req) (h : CacheInv p c A) (ht : c.allocator.Tidy) {n : Nat}
    (hn : n * p.pageSize ≤ c.allocator.availableSize) (numTokens : Nat) (pick : Nat → Nat)
    {alloc : Allocator → Option (List (List Nat)) × Allocator}
    (halloc : ∀ a : Allocator, a.pageSize = p.pageSize → a.Tidy → n ≤ a.held.length →
      ∃ outs a', alloc a = (some outs, a')) :
    ∃ outs c', System.allocBatch p ⟨c, reqs⟩ numTokens pick alloc = .ok (outs, c') := by
  obtain ⟨c1, A1, hrun, hf, _⟩ := h.evict_frees numTokens pick
  have hsize := hf.inv.ok.pageSize_eq
  have hheld : n ≤ c1.allocator.held.length := by
    have := hn.trans hf.gains.size
    rw [Allocator.availableSize_eq hsize] at this
    exact le_of_mul_le_mul_right this p.pageSize_pos
  obtain ⟨outs, a', hres⟩ := halloc c1.allocator hsize (hf.gains.tidy ht) hheld
  refine ⟨outs, { c1 with allocator := a' }, ?_⟩
  unfold System.allocBatch
  simp only [hrun, bind, Except.bind, hres]

theorem prepareForDecode_ok {spec : SpecMode} (h : CacheInv p c A) (ht : c.allocator.Tidy)
    (hreq : ∀ r ∈ reqs, r.Decoding p args spec)
    (hn : newTokensRequiredNextDecode spec p.pageSize reqs ≤ c.allocator.availableSize)
    (pick : Nat → Nat) : ∃ res, prepareForDecode p spec c reqs pick = .ok res := by
  cases spec with
  | none =>
    have htotal := totalNewPages_next p.pageSize_pos fun r hr => (hreq r hr).committed_eq rfl
    have hn' : (Allocator.totalNewPages p.pageSize
        (reqs.map fun r => r.growReq (r.row.length + 1))) * p.pageSize ≤
          c.allocator.availableSize := by
      rw [htotal]
      exact hn
    obtain ⟨outs, c', hrun⟩ := allocBatch_ok reqs h ht hn' (reqs.length * p.pageSize) pick
      fun a hsize htidy hheld => Allocator.allocForDecode_of_held p.pageSize_pos hsize htidy
        (by
          intro r hr
          obtain ⟨r', _, rfl⟩ := List.mem_map.mp hr
          rfl) hheld
    unfold prepareForDecode
    simp only [hrun]
    exact ⟨_, rfl⟩
  | v1 => exact ⟨_, rfl⟩
  | v2 allocLen =>
    rw [totalNewPages_spec] at hn
    obtain ⟨outs, c', hrun⟩ := allocBatch_ok reqs h ht hn
      (System.tokensFor p (reqs.map fun r =>
        r.growReq (max r.row.length (r.kvCommittedLen + (allocLen + allocLen))))) pick
      fun a hsize htidy hheld => Allocator.allocForExtend_of_held p.pageSize_pos hsize htidy hheld
    unfold prepareForDecode
    simp only [hrun]
    exact ⟨_, rfl⟩

end Enough

/-! ## Retraction -/

/-- A batch between two releases of `retract_decode`: the requests at `sorted` hold their locks,
and the slots of those at `released` are free. `holders` are the nodes that others have locked. -/
structure Retracting (p : CacheParams) (reqs : List Req) (holders : List NodeId) (c : RadixCache)
    (A : Finset NodeId) (sorted released : List Nat) : Prop where
  inv : CacheInv p c A
  tidy : c.allocator.Tidy
  held : HeldBy c.tree A ((selected reqs sorted).map Req.lastNode ++ holders)
  perm : (sorted ++ released).Perm (List.range reqs.length)
  freed : ∀ i ∈ released, ∀ s ∈ (reqs.getD i default).privateSlots,
    s / p.pageSize ∈ c.allocator.pages

namespace Retracting

variable {p : CacheParams} {args : ServerArgs} {spec : SpecMode} {reqs : List Req}
  {holders : List NodeId} {c c' : RadixCache} {A A' : Finset NodeId} {sorted released : List Nat}

section

variable (h : Retracting p reqs holders c A sorted released)
include h

theorem frees (hf : Frees p c c' A')
    (hheld : HeldBy c'.tree A' ((selected reqs sorted).map Req.lastNode ++ holders)) :
    Retracting p reqs holders c' A' sorted released :=
  ⟨hf.inv, hf.gains.tidy h.tidy, hheld, h.perm,
    fun i hi s hs => hf.gains.pages (h.freed i hi s hs)⟩

theorem check (spec : SpecMode) (pick : Nat → Nat) :
    ∃ b c' A', checkDecodeMem p spec c (selected reqs sorted) pick = .ok (b, c') ∧
      Retracting p reqs holders c' A' sorted released ∧
      (b = true ↔ newTokensRequiredNextDecode spec p.pageSize (selected reqs sorted) ≤
        c'.allocator.availableSize) := by
  obtain ⟨b, c', A', hrun, hf, hheld, hb⟩ :=
    h.inv.checkDecodeMem_frees spec (selected reqs sorted) pick
  exact ⟨b, c', A', hrun, h.frees hf (hheld _ h.held), hb⟩

theorem loopTest (spec : SpecMode) (firstIter : Bool) (pick : Nat → Nat) :
    ∃ b c' A', loopTest p spec reqs firstIter c sorted pick = .ok (b, c') ∧
      Retracting p reqs holders c' A' sorted released ∧
      (b = true → newTokensRequiredNextDecode spec p.pageSize (selected reqs sorted) ≤
        c'.allocator.availableSize) := by
  cases firstIter with
  | true => exact ⟨false, c, A, rfl, h, fun hb => absurd hb Bool.false_ne_true⟩
  | false =>
    obtain ⟨b, c', A', hrun, h', hb⟩ := h.check spec pick
    exact ⟨b, c', A', hrun, h', hb.mp⟩

theorem mem_reqs {i : Nat} (hi : i ∈ sorted) : reqs.getD i default ∈ reqs := by
  have hlt : i < reqs.length := List.mem_range.mp (h.perm.subset (List.mem_append_left _ hi))
  rw [List.getD_eq_getElem _ _ hlt]
  exact List.getElem_mem hlt

end

theorem release {idx : Nat} (h : Retracting p reqs holders c A (sorted ++ [idx]) released)
    (hreq : ∀ r ∈ reqs, r.Decoding p args spec) (steps remaining : Nat) (pick : Nat → Nat) :
    ∃ c' A', releaseReq p args steps c (reqs.getD idx default) remaining pick = .ok c' ∧
      Retracting p reqs holders c' A' sorted (released ++ [idx]) := by
  have hidx := h.mem_reqs (List.mem_append_right _ List.mem_cons_self)
  have hperm : ((selected reqs (sorted ++ [idx])).map Req.lastNode ++ holders).Perm
      ((reqs.getD idx default).lastNode ::
        ((selected reqs sorted).map Req.lastNode ++ holders)) := by
    rw [selected, List.map_append, List.map_append, List.append_assoc]
    exact List.perm_middle
  obtain ⟨c', A', hrun, hf, hheld, hslots⟩ :=
    h.inv.releaseReq_frees (hreq _ hidx) (h.held.perm hperm) steps remaining pick
  refine ⟨c', A', hrun, hf.inv, hf.gains.tidy h.tidy, hheld, ?_, ?_⟩
  · refine List.Perm.trans ?_ h.perm
    rw [List.append_assoc]
    exact (List.perm_append_comm).append_left sorted
  · intro i hi s hs
    rcases List.mem_append.mp hi with hi | hi
    · exact hf.gains.pages (h.freed i hi s hs)
    · rw [List.mem_singleton.mp hi] at hs
      exact hslots s hs

theorem retractLoop_spec (hreq : ∀ r ∈ reqs, r.Decoding p args spec) (steps : Nat)
    (picks : EvictCall → Nat → Nat) : ∀ (fuel : Nat) (firstIter : Bool) (c : RadixCache)
      (A : Finset NodeId) (sorted released : List Nat), sorted ≠ [] → sorted.length < fuel →
      Retracting p reqs holders c A sorted released →
    ∃ kept retracted c' A', retractLoop p args spec steps picks reqs fuel firstIter c sorted
        released = .ok (kept, retracted, c') ∧
      Retracting p reqs holders c' A' kept retracted ∧ kept ≠ [] ∧
      (1 < kept.length → newTokensRequiredNextDecode spec p.pageSize (selected reqs kept) ≤
        c'.allocator.availableSize) := by
  intro fuel
  induction fuel with
  | zero =>
    intro _ _ _ sorted _ _ hlt
    exact absurd hlt (Nat.not_lt_zero _)
  | succ fuel ih =>
    intro firstIter c A sorted released hne hlt h
    obtain ⟨b, c1, A1, hrun, h1, hb⟩ :=
      h.loopTest spec firstIter (picks (.check sorted.length))
    unfold retractLoop
    simp only [hrun, bind, Except.bind]
    split_ifs with htrue hone
    · exact ⟨sorted, released, c1, A1, rfl, h1, hne, fun _ => hb htrue⟩
    · exact ⟨sorted, released, c1, A1, rfl, h1, hne, fun hlt => absurd hone (ne_of_gt hlt)⟩
    · obtain ⟨l, idx, rfl⟩ := List.eq_nil_or_concat sorted |>.resolve_left hne
      rw [List.concat_eq_append] at *
      obtain ⟨c2, A2, hrel, h2⟩ := h1.release hreq steps l.length (picks (.release l.length))
      have hl : l ≠ [] := by
        rintro rfl
        exact hone rfl
      rw [List.length_append] at hlt
      obtain ⟨kept, retracted, c', A', hloop, hend⟩ :=
        ih false c2 A2 l (released ++ [idx]) hl (Nat.lt_of_succ_lt_succ hlt) h2
      refine ⟨kept, retracted, c', A', ?_, hend⟩
      rw [List.getLast?_append, List.getLast?_singleton, Option.some_or, List.dropLast_concat]
      simp only [hrel]
      exact hloop

end Retracting

theorem retractDecode_spec {p : CacheParams} {args : ServerArgs} {spec : SpecMode}
    {reqs : List Req} {holders : List NodeId} {c : RadixCache} {A : Finset NodeId}
    (h : Retracting p reqs holders c A (List.range reqs.length) [])
    (hreq : ∀ r ∈ reqs, r.Decoding p args spec) (hne : reqs ≠ []) (steps : Nat)
    (picks : EvictCall → Nat → Nat) :
    ∃ res c' A', retractDecode p args spec steps picks reqs c = .ok (res, c') ∧
      Retracting p reqs holders c' A' res.kept (res.retracted ++ res.aborted.map Prod.fst) ∧
      ((res.kept ≠ [] ∧ res.aborted = []) ∨
        (res.kept = [] ∧ ∃ i, res.aborted = [(i, lastReqOutOfMemory)])) ∧
      newTokensRequiredNextDecode spec p.pageSize (selected reqs res.kept) ≤
        c'.allocator.availableSize := by
  set sorted := if args.speculative then List.range reqs.length
    else (List.range reqs.length).insertionSort (retractOrder reqs) with hsorted
  have hperm : sorted.Perm (List.range reqs.length) := by
    rw [hsorted]
    split_ifs
    · exact .refl _
    · exact List.perm_insertionSort _ _
  have hlen : sorted.length = reqs.length := hperm.length_eq.trans List.length_range
  have hstart : Retracting p reqs holders c A sorted [] := by
    refine ⟨h.inv, h.tidy, h.held.perm ?_, ?_, h.freed⟩
    · exact (((hperm.symm.map _).map _).append_right _)
    · rw [List.append_nil]
      exact hperm
  have hsne : sorted ≠ [] := by
    rw [← List.length_pos_iff, hlen]
    exact List.length_pos_iff.mpr hne
  obtain ⟨kept, retracted, c1, A1, hloop, h1, hkne, hmany⟩ :=
    Retracting.retractLoop_spec hreq steps picks (reqs.length + 1) true c A sorted [] hsne
      (by rw [hlen]; exact Nat.lt_succ_self _) hstart
  unfold retractDecode
  simp only [← hsorted, hloop, bind, Except.bind]
  split_ifs with hlt
  · exact ⟨_, c1, A1, rfl, by simpa using h1, .inl ⟨hkne, rfl⟩, hmany hlt⟩
  · obtain ⟨b, c2, A2, hcheck, h2, hb⟩ := h1.check spec (picks .lastCheck)
    simp only [hcheck]
    split_ifs with htrue
    · exact ⟨_, c2, A2, rfl, by simpa using h2, .inl ⟨hkne, rfl⟩, hb.mp htrue⟩
    · -- the only request that is left
      obtain ⟨l, idx, rfl⟩ := (List.eq_nil_or_concat kept).resolve_left hkne
      rw [List.concat_eq_append] at *
      obtain ⟨c3, A3, hrel, h3⟩ := h2.release hreq steps 0 (picks (.release 0))
      have hl : l = [] := by
        rw [List.length_append, List.length_singleton] at hlt
        exact List.length_eq_zero_iff.mp (by omega)
      subst hl
      refine ⟨⟨[], retracted, [(idx, lastReqOutOfMemory)]⟩, c3, A3, ?_, h3,
        .inr ⟨rfl, idx, rfl⟩, ?_⟩
      · rw [List.nil_append, List.getLast?_singleton]
        simp only [hrel]
        rfl
      · cases spec <;> exact (Nat.le_of_eq (by simp [newTokensRequiredNextDecode, selected])).trans
          (Nat.zero_le _)

/-! ## Tidy allocators in runs -/

section Tidy

variable {pick : Nat → Nat} {n : Nat} {s : System} {chunked : Bool} {r : Req}
variable {p : CacheParams} {args : ServerArgs} {c c' : RadixCache}

theorem evictLoop_tidy {numTokens : Nat} :
    ∀ {fuel : Nat} {c c' : RadixCache} {heap : List NodeId} {n k : Nat},
      RadixCache.evictLoop p numTokens pick fuel c heap n = .ok (k, c') →
      c.allocator.Tidy → c'.allocator.Tidy := by
  intro fuel
  induction fuel with
  | zero =>
    intro c c' heap n k h
    cases h
  | succ fuel ih =>
    intro c c' heap n k h ht
    unfold RadixCache.evictLoop at h
    split_ifs at h
    · obtain ⟨t, _, h⟩ := bind_eq_ok h
      exact ih h (tidy_free ht _)
    · cases h
      exact ht

theorem evict_tidy {k : Nat} (h : c.evict p n pick = .ok (k, c')) (ht : c.allocator.Tidy) :
    c'.allocator.Tidy := evictLoop_tidy h ht

theorem evictFromTreeCache_tidy (h : c.evictFromTreeCache p n pick = .ok c') (ht : c.allocator.Tidy) :
    c'.allocator.Tidy := by
  unfold RadixCache.evictFromTreeCache at h
  split_ifs at h
  · obtain ⟨⟨k, c1⟩, hev, h⟩ := bind_eq_ok h
    cases h
    exact evict_tidy hev ht
  · cases h
    exact ht

theorem allocBatch_tidy {alloc : Allocator → Option (List (List Nat)) × Allocator}
    {outs : List (List Nat)} (halloc : ∀ a : Allocator, a.Tidy → (alloc a).2.Tidy)
    (h : s.allocBatch p n pick alloc = .ok (outs, c')) (ht : s.cache.allocator.Tidy) :
    c'.allocator.Tidy := by
  obtain ⟨c1, hev, h⟩ := bind_eq_ok h
  have hnext := halloc _ (evictFromTreeCache_tidy hev ht)
  cases hres : alloc c1.allocator with
  | mk out a =>
    rw [hres] at h hnext
    cases out with
    | none => cases h
    | some outs =>
      cases h
      exact hnext

theorem allocForExtend_tidy (reqs : List ExtendReq) (a : Allocator) (ht : a.Tidy) :
    (a.allocForExtend reqs).2.Tidy := by
  unfold Allocator.allocForExtend
  split_ifs
  · exact (AllocStep.alloc a _).tidy ht
  · exact (AllocStep.allocExtend a _).tidy ht

theorem allocForDecode_tidy (reqs : List ExtendReq) (a : Allocator) (ht : a.Tidy) :
    (a.allocForDecode reqs).2.Tidy := by
  unfold Allocator.allocForDecode
  split_ifs
  · exact (AllocStep.alloc a _).tidy ht
  · exact (AllocStep.allocDecode a _).tidy ht

theorem insertAndFree_tidy {key : RadixKey} {kv : List Nat}
    (h : c.insertAndFree p key kv n chunked = .ok c') (ht : c.allocator.Tidy) :
    c'.allocator.Tidy := by
  obtain ⟨⟨m, t⟩, _, h⟩ := bind_eq_ok h
  cases h
  exact tidy_free ht _

theorem cacheUnfinishedReq_tidy {r' : Req} (h : c.cacheUnfinishedReq p r chunked = .ok (r', c'))
    (ht : c.allocator.Tidy) : c'.allocator.Tidy := by
  obtain ⟨c1, hins, h⟩ := bind_eq_ok h
  obtain ⟨⟨m, t1⟩, _, h⟩ := bind_eq_ok h
  dsimp only at h
  by_cases hlen : m.deviceIndices.length ≠ (cacheKey p r.fillIds r.extraKey).len
  · rw [if_pos hlen] at h
    cases h
  · rw [if_neg hlen] at h
    obtain ⟨⟨d, t2⟩, _, h⟩ := bind_eq_ok h
    obtain ⟨⟨d', t3⟩, _, h⟩ := bind_eq_ok h
    cases h
    have ht1 := insertAndFree_tidy hins ht
    exact ht1

theorem releaseKvCache_tidy {isInsert : Bool} (h : c.releaseKvCache p args r isInsert = .ok c')
    (ht : c.allocator.Tidy) : c'.allocator.Tidy := by
  obtain ⟨c1, hfin, h⟩ := bind_eq_ok h
  have ht1 : c1.allocator.Tidy := by
    obtain ⟨c2, hins, hfin⟩ := bind_eq_ok hfin
    obtain ⟨⟨d, t⟩, _, hfin⟩ := bind_eq_ok hfin
    cases hfin
    refine tidy_free ?_ _
    unfold RadixCache.insertOrFree at hins
    split_ifs at hins
    · exact insertAndFree_tidy hins ht
    · cases hins
      exact tidy_free ht _
  dsimp only at h
  split at h
  · cases h
  · rw [roundUp_eq] at h
    split at h
    · cases h
      exact tidy_free ht1 _
    · cases h
      exact ht1

theorem step_tidy {s' : System} {op : ReqOp} (h : s.step p args op = .ok s')
    (ht : s.cache.allocator.Tidy) : s'.cache.allocator.Tidy := by
  cases op with
  | admitReq a =>
    obtain ⟨⟨m, t⟩, _, h⟩ := bind_eq_ok h
    obtain ⟨⟨d, t'⟩, _, h⟩ := bind_eq_ok h
    cases h
    exact ht
  | extend batch pick | reserve batch pick =>
    obtain ⟨⟨outs, c'⟩, halloc, h⟩ := bind_eq_ok h
    cases h
    exact allocBatch_tidy (allocForExtend_tidy _) halloc ht
  | decode batch pick =>
    obtain ⟨⟨outs, c'⟩, halloc, h⟩ := bind_eq_ok h
    cases h
    exact allocBatch_tidy (allocForDecode_tidy _) halloc ht
  | output i tokens reasoningTokens | commit i n | nextChunk i chunk =>
    cases h
    exact ht
  | cacheUnfinishedReq i chunked =>
    obtain ⟨⟨r, c'⟩, hrun, h⟩ := bind_eq_ok h
    cases h
    exact cacheUnfinishedReq_tidy hrun ht
  | release i isInsert =>
    obtain ⟨c', hrun, h⟩ := bind_eq_ok h
    cases h
    exact releaseKvCache_tidy hrun ht
  | evict n pick =>
    obtain ⟨⟨k, c'⟩, hrun, h⟩ := bind_eq_ok h
    cases h
    exact evict_tidy hrun ht
  | freeGroupBegin =>
    cases h
    exact (AllocStep.freeGroupBegin _).tidy ht
  | freeGroupEnd =>
    cases h
    exact (AllocStep.freeGroupEnd _).tidy ht

theorem Run.tidy {Cond : System → ReqOp → Prop} {s0 : System} {ops : List ReqOp}
    (h : Run p args Cond s0 ops s) (ht : s0.cache.allocator.Tidy) : s.cache.allocator.Tidy := by
  induction h with
  | nil => exact ht
  | snoc _ _ _ hs ih => exact step_tidy hs ih

end Tidy

/-! ## Running batches -/

/-- A decode batch on a cache, where others have locked `holders`. -/
structure DecodeBatch (p : CacheParams) (args : ServerArgs) (spec : SpecMode) (c : RadixCache)
    (A : Finset NodeId) (reqs : List Req) (holders : List NodeId) : Prop where
  inv : CacheInv p c A
  tidy : c.allocator.Tidy
  held : HeldBy c.tree A (reqs.map Req.lastNode ++ holders)
  req : ∀ r ∈ reqs, r.Decoding p args spec

section DecodeBatch

variable {p : CacheParams} {args : ServerArgs} {spec : SpecMode} {c : RadixCache}
  {A : Finset NodeId} {reqs rest : List Req} {holders : List NodeId}

theorem selected_range (reqs : List Req) : selected reqs (List.range reqs.length) = reqs := by
  apply List.ext_getElem
  · rw [selected, List.length_map, List.length_range]
  · intro i _ hi
    simp only [selected, List.getElem_map, List.getElem_range]
    exact List.getD_eq_getElem _ _ hi

theorem SysInv.decodeBatch {N : Nat} {s : System} (h : SysInv p N s A)
    (ht : s.cache.allocator.Tidy) (hperm : s.reqs.Perm (reqs ++ rest))
    (hreq : ∀ r ∈ reqs, r.Releasable args ∧ (spec = .none → r.kvCommittedLen = r.row.length)) :
    DecodeBatch p args spec s.cache A reqs (rest.map Req.lastNode) := by
  refine ⟨h.cache, ht, ?_, fun r hr => ?_⟩
  · have hheld := h.owned.held
    rw [List.append_nil] at hheld
    rw [← List.map_append]
    exact hheld.perm (hperm.map _)
  · obtain ⟨l, v, hi⟩ := h.owned.req r (hperm.symm.subset (List.mem_append_left _ hr))
    refine ⟨hi.laid, ?_, hi.committed_le, (hreq r hr).1, (hreq r hr).2⟩
    rw [hi.protected_eq]
    exact h.cache.base.shape.trie.label_dvd hi.mem hi.seg

end DecodeBatch

/-! Two requests with prompts of two tokens, which fill a pool of two pages. -/

def fullParams : CacheParams := ⟨2, Nat.two_pos, false⟩

def fullStart : System := System.init (Allocator.init 2 4 false)

def fullOps : List ReqOp :=
  [.admitReq ⟨[1, 2], [], none, 0, none, none⟩, .extend [0] id, .output 0 [3] 0,
    .cacheUnfinishedReq 0 false, .admitReq ⟨[4, 5], [], none, 0, none, none⟩, .extend [1] id,
    .output 1 [6] 0, .cacheUnfinishedReq 1 false]

def fullArgs : ServerArgs := ⟨false, false, false⟩

def fullSystem : System :=
  (fullStart.exec fullParams fullArgs (System.StripCovers fullParams fullArgs) fullOps).getD fullStart

theorem fullSystem_run : Run fullParams fullArgs (System.StripCovers fullParams fullArgs) fullStart
    fullOps fullSystem := by
  have hsome : (fullStart.exec fullParams fullArgs (System.StripCovers fullParams fullArgs)
    fullOps).isSome := by decide
  obtain ⟨s, hs⟩ := Option.isSome_iff_exists.mp hsome
  exact Run.exec .nil (hs.trans (by rw [fullSystem, hs, Option.getD_some]))

end Fluxfer.Requests
