import Fluxfer.Memory.KernelsSpec

/-!
# The allocator of models with a sliding window

`SWATokenToKVPoolAllocator` of `mem_cache/swa_memory_pool.py` takes the slots of a call from two
pools: full slots, and slots of the layers with a sliding window (SWA). `alloc_decode` does not look
at both pools first, and keeps the pages of the one when the other has too few.
-/

namespace Fluxfer.Memory

open Pages Allocator ExtendReq List Nat

structure SwaAllocator where
  full : Allocator
  swa : Allocator
  /-- `full_to_swa_index_mapping` -/
  mapping : Nat → Nat

namespace SwaAllocator

def pageSize (a : SwaAllocator) : Nat := a.full.pageSize

/-- Both pools after an allocation, with the new entries of the mapping. -/
def assign (a : SwaAllocator) (full swa : Allocator) (out swaOut : List Nat) : SwaAllocator :=
  ⟨full, swa, writeAll (out.zip swaOut) a.mapping⟩

/-- What a call returns after its allocations from both pools. -/
def both {β : Type} (a : SwaAllocator) (slots : β → List Nat) :
    Option β × Allocator → Option β × Allocator → Option β × SwaAllocator
  | (some v, full), (some w, swa) => (some v, a.assign full swa (slots v) (slots w))
  | (_, full), (_, swa) => (none, { a with full := full, swa := swa })

/-- `alloc`. A call that fails an assertion ends with `none`, as one that returns `None`. -/
def alloc (a : SwaAllocator) (needSize : Nat) : Option (List Nat) × SwaAllocator :=
  if a.pageSize ≠ 1 then (none, a)
  else if a.full.availableSize < needSize ∨ a.swa.availableSize < needSize then (none, a)
  else a.both id (a.full.alloc needSize) (a.swa.alloc needSize)

/-- The request of a batch in the SWA pool: `translate_loc_from_full_to_swa(last_loc)`. -/
def swaReq (a : SwaAllocator) (r : ExtendReq) : ExtendReq :=
  { r with lastLoc := a.mapping r.lastLoc }

def allocExtend (a : SwaAllocator) (reqs : List ExtendReq) :
    Option (List (List Nat)) × SwaAllocator :=
  let n := (reqs.map (numNewPages a.pageSize)).sum
  if ¬ 1 < a.pageSize then (none, a)
  else if a.full.availableSize / a.pageSize < n ∨ a.swa.availableSize / a.pageSize < n then (none, a)
  else a.both flatten (a.full.allocExtend reqs) (a.swa.allocExtend (reqs.map a.swaReq))

/-- `alloc_extend_swa_tail`: SWA slots only for the last `tail` slots of the request -/
def allocExtendSwaTail (a : SwaAllocator) (r : ExtendReq) (tail : Nat) :
    Option (List Nat) × SwaAllocator :=
  if ¬ (1 < a.pageSize ∧ tail ≤ r.seqLen - r.prefixLen) then (none, a)
  else if a.full.availableSize / a.pageSize < numNewPages a.pageSize r ∨
      a.swa.availableSize / a.pageSize < numPages a.pageSize tail then (none, a)
  else
    match a.full.allocExtend [r] with
    | (none, full) => (none, { a with full := full })
    | (some outs, full) =>
      if tail = 0 then (some outs.flatten, { a with full := full })
      else
        match a.swa.allocExtend [⟨0, tail, 0⟩] with
        | (some swaOuts, swa) => (some outs.flatten,
            a.assign full swa (outs.flatten.drop (outs.flatten.length - tail)) swaOuts.flatten)
        | (none, swa) => (none, { a with full := full, swa := swa })

def allocDecode (a : SwaAllocator) (reqs : List ExtendReq) :
    Option (List (List Nat)) × SwaAllocator :=
  if ¬ 1 < a.pageSize then (none, a)
  else a.both flatten (a.full.allocDecode reqs) (a.swa.allocDecode (reqs.map a.swaReq))

/-- The pools have pages of one size, and keep released pages apart only to sort them. -/
structure Ok (a : SwaAllocator) : Prop where
  pageSize_pos : 0 < a.pageSize
  pageSize_eq : a.swa.pageSize = a.pageSize
  full_tidy : a.full.Tidy
  swa_tidy : a.swa.Tidy

end SwaAllocator

/-! ## What a pool gives -/

namespace Allocator

variable {a b : Allocator} {ps n k : Nat} {reqs : List ExtendReq} {β : Type}

/-- The same pages, up to a merge of the released ones. -/
def SamePages (a b : Allocator) : Prop := b = a ∨ b = a.mergeAndSortFree

theorem SamePages.length_eq (h : a.SamePages b) : b.held.length = a.held.length := by
  obtain rfl | rfl := h
  · rfl
  · exact (mergeAndSortFree_held a).length_eq

/-- A call takes `n` pages if there are as many, and leaves the pages alone otherwise. -/
def Draws (a : Allocator) (n : Nat) (x : Option β × Allocator) : Prop :=
  a.held.length < n ∧ x.1 = none ∧ a.SamePages x.2 ∨
    n ≤ a.held.length ∧ x.1 ≠ none ∧ x.2.held.length + n = a.held.length

theorem draws_refill (ht : a.Tidy) (hnk : n ≤ k) (v : β) :
    a.Draws n (if (a.refill k).freePages.length < n then (none, a.refill k)
      else (some v, { a.refill k with freePages := (a.refill k).freePages.drop n })) := by
  have hlen := (refill_held a k).length_eq
  split_ifs with hlt
  · exact .inl ⟨held_lt_of_refill ht hnk hlt, rfl, refill_cases a k⟩
  · simp only [held, length_append] at hlen
    refine .inr ⟨?_, Option.some_ne_none v, ?_⟩
    · simp only [held, length_append]
      omega
    · simp only [held, length_append, length_drop]
      omega

theorem alloc_draws (ht : a.Tidy) (n : Nat) : a.Draws (n / a.pageSize) (a.alloc n) :=
  draws_refill ht le_rfl _

theorem allocExtend_draws (ht : a.Tidy) (hps : 0 < a.pageSize) (reqs : List ExtendReq) :
    a.Draws (totalNewPages a.pageSize reqs) (a.allocExtend reqs) := by
  set k := (reqs.map fun r => r.seqLen - r.prefixLen).sum / a.pageSize + reqs.length + 1
  have hle : totalNewPages (a.refill k).pageSize reqs ≤ k := by
    rw [refill_pageSize]
    exact (totalNewPages_le hps reqs).trans (le_succ _)
  have hd : a.Draws (totalNewPages (a.refill k).pageSize reqs) (a.allocExtend reqs) :=
    draws_refill ht hle _
  rwa [refill_pageSize] at hd

theorem allocDecode_draws (ht : a.Tidy) (reqs : List ExtendReq) :
    a.Draws (reqs.countP fun r => r.seqLen % a.pageSize = 1) (a.allocDecode reqs) := by
  have hd : a.Draws (reqs.countP fun r => r.seqLen % (a.refill reqs.length).pageSize = 1)
      (a.allocDecode reqs) := draws_refill ht countP_le_length _
  rwa [refill_pageSize] at hd

theorem Draws.none_iff {x : Option β × Allocator} (h : a.Draws n x) :
    x.1 = none ↔ a.held.length < n := by
  obtain ⟨hlt, hnone, -⟩ | ⟨hle, hsome, -⟩ := h
  · exact ⟨fun _ => hlt, fun _ => hnone⟩
  · exact ⟨fun hn => absurd hn hsome, fun hlt => absurd hle (not_le.mpr hlt)⟩

theorem Draws.ne_none {x : Option β × Allocator} (h : a.Draws n x) (hn : n ≤ a.held.length) :
    x.1 ≠ none :=
  fun hnone => absurd hn (not_le.mpr (h.none_iff.mp hnone))

theorem Draws.samePages_iff {x : Option β × Allocator} (h : a.Draws n x) (hn : 0 < n) :
    a.SamePages x.2 ↔ a.held.length < n := by
  obtain ⟨hlt, -, hsame⟩ | ⟨hle, -, hlen⟩ := h
  · exact ⟨fun _ => hlt, fun _ => hsame⟩
  · refine ⟨fun hsame => ?_, fun hlt => absurd hle (not_le.mpr hlt)⟩
    have := hsame.length_eq
    omega

end Allocator

/-! ## Failing calls -/

namespace SwaAllocator

variable {a : SwaAllocator} {reqs : List ExtendReq}

/-- The free lists and the mapping are those of `a`, up to merges of released pages. -/
def Untouched (a b : SwaAllocator) : Prop :=
  a.full.SamePages b.full ∧ a.swa.SamePages b.swa ∧ b.mapping = a.mapping

theorem Untouched.refl (a : SwaAllocator) : a.Untouched a := ⟨.inl rfl, .inl rfl, rfl⟩

/-- Failing calls leave the allocator as it was. -/
structure AllOrNothing (a : SwaAllocator) (needSize : Nat) (reqs : List ExtendReq) (r : ExtendReq)
    (tail : Nat) : Prop where
  alloc : (a.alloc needSize).1 = none → a.Untouched (a.alloc needSize).2
  allocExtend : (a.allocExtend reqs).1 = none → a.Untouched (a.allocExtend reqs).2
  allocExtendSwaTail :
    (a.allocExtendSwaTail r tail).1 = none → a.Untouched (a.allocExtendSwaTail r tail).2
  allocDecode : (a.allocDecode reqs).1 = none → a.Untouched (a.allocDecode reqs).2

theorem both_none_iff {β : Type} {slots : β → List Nat} {x y : Option β × Allocator} :
    (a.both slots x y).1 = none ↔ x.1 = none ∨ y.1 = none := by
  rcases x with ⟨_ | v, full⟩ <;> rcases y with ⟨_ | w, swa⟩ <;> simp [both]

theorem both_of_none {β : Type} {slots : β → List Nat} {x y : Option β × Allocator}
    (h : x.1 = none ∨ y.1 = none) :
    (a.both slots x y).2 = { a with full := x.2, swa := y.2 } := by
  rcases x with ⟨_ | v, full⟩
  · rfl
  · rcases y with ⟨_ | w, swa⟩
    · rfl
    · simp at h

theorem available_div (b : Allocator) (hb : 0 < b.pageSize) :
    b.availableSize / b.pageSize = b.held.length := by
  rw [availableSize, Nat.mul_div_cancel _ hb, held, length_append]

theorem totalNewPages_swaReq (ps : Nat) (reqs : List ExtendReq) :
    totalNewPages ps (reqs.map a.swaReq) = totalNewPages ps reqs := by
  rw [totalNewPages, map_map]
  rfl

theorem alloc_untouched (h : a.Ok) {n : Nat} (hnone : (a.alloc n).1 = none) :
    a.Untouched (a.alloc n).2 := by
  unfold alloc at hnone ⊢
  split_ifs at hnone ⊢ with hps hav
  · exact .refl a
  · exact .refl a
  · -- both pools have the pages
    have hone : a.full.pageSize = 1 := not_not.mp hps
    have hone' : a.swa.pageSize = 1 := h.pageSize_eq.trans hone
    have hfull := alloc_draws h.full_tidy n
    have hswa := alloc_draws h.swa_tidy n
    simp only [availableSize, hone, hone', mul_one, ← length_append, not_or, not_lt] at hav
    rw [hone, Nat.div_one] at hfull
    rw [hone', Nat.div_one] at hswa
    exact ((both_none_iff.mp hnone).elim (hfull.ne_none hav.1) (hswa.ne_none hav.2)).elim

theorem allocExtend_untouched (h : a.Ok) (hnone : (a.allocExtend reqs).1 = none) :
    a.Untouched (a.allocExtend reqs).2 := by
  have hpos := h.pageSize_pos
  have heq := h.pageSize_eq
  unfold allocExtend at hnone ⊢
  dsimp only at hnone ⊢
  split_ifs at hnone ⊢ with hps hav
  · exact .refl a
  · rw [not_or, not_lt, not_lt, ← heq, available_div a.swa (heq ▸ hpos), heq, pageSize,
      available_div a.full hpos] at hav
    have hfull := allocExtend_draws h.full_tidy hpos reqs
    have hswa := allocExtend_draws h.swa_tidy (heq ▸ hpos) (reqs.map a.swaReq)
    rw [totalNewPages_swaReq, heq] at hswa
    exact ((both_none_iff.mp hnone).elim (hfull.ne_none hav.1) (hswa.ne_none hav.2)).elim
  · exact .refl a

theorem allocExtendSwaTail_untouched (h : a.Ok) {r : ExtendReq} {tail : Nat}
    (hnone : (a.allocExtendSwaTail r tail).1 = none) :
    a.Untouched (a.allocExtendSwaTail r tail).2 := by
  have hpos := h.pageSize_pos
  have heq := h.pageSize_eq
  unfold allocExtendSwaTail at hnone ⊢
  by_cases hps : 1 < a.pageSize ∧ tail ≤ r.seqLen - r.prefixLen
  swap
  · rw [if_pos hps]
    exact .refl a
  rw [if_neg (not_not.mpr hps)] at hnone ⊢
  by_cases hav : a.full.availableSize / a.pageSize < numNewPages a.pageSize r ∨
      a.swa.availableSize / a.pageSize < numPages a.pageSize tail
  · rw [if_pos hav]
    exact .refl a
  rw [if_neg hav] at hnone
  rw [not_or, not_lt, not_lt, ← heq, available_div a.swa (heq ▸ hpos), heq, pageSize,
    available_div a.full hpos] at hav
  have hfull := allocExtend_draws h.full_tidy hpos [r]
  have hswa := allocExtend_draws h.swa_tidy (heq ▸ hpos) [⟨0, tail, 0⟩]
  have htotal : totalNewPages a.swa.pageSize [⟨0, tail, 0⟩] = numPages a.pageSize tail := by
    simp [totalNewPages, numNewPages, heq, numPages_zero hpos]
  rw [htotal] at hswa
  have hf := hfull.ne_none (by simpa [totalNewPages] using hav.1)
  have hs := hswa.ne_none hav.2
  rcases hx : a.full.allocExtend [r] with ⟨_ | outs, full⟩
  · exact absurd (congrArg Prod.fst hx) hf
  · rcases hy : a.swa.allocExtend [⟨0, tail, 0⟩] with ⟨_ | swaOuts, swa⟩
    · exact absurd (congrArg Prod.fst hy) hs
    · rw [hx, hy] at hnone
      split_ifs at hnone

theorem allocDecode_untouched_iff (h : a.Ok) (hps : 1 < a.pageSize) :
    ((a.allocDecode reqs).1 = none → a.Untouched (a.allocDecode reqs).2) ↔
      (reqs.countP (fun r => r.seqLen % a.pageSize = 1) ≤ a.full.held.length ↔
        reqs.countP (fun r => r.seqLen % a.pageSize = 1) ≤ a.swa.held.length) := by
  set n := reqs.countP fun r => r.seqLen % a.pageSize = 1
  have hfull : a.full.Draws n (a.full.allocDecode reqs) := allocDecode_draws h.full_tidy reqs
  have hswa : a.swa.Draws n (a.swa.allocDecode (reqs.map a.swaReq)) := by
    have hd := allocDecode_draws h.swa_tidy (reqs.map a.swaReq)
    rw [h.pageSize_eq, countP_map] at hd
    exact hd
  unfold allocDecode
  rw [if_neg (not_not.mpr hps), both_none_iff, hfull.none_iff, hswa.none_iff]
  have huntouched (hor : a.full.held.length < n ∨ a.swa.held.length < n) :
      a.Untouched (a.both flatten (a.full.allocDecode reqs)
        (a.swa.allocDecode (reqs.map a.swaReq))).2 ↔
        a.full.held.length < n ∧ a.swa.held.length < n := by
    have hn : 0 < n := by omega
    rw [both_of_none (hor.imp hfull.none_iff.mpr hswa.none_iff.mpr), Untouched,
      hfull.samePages_iff hn, hswa.samePages_iff hn]
    simp
  constructor
  · intro hall
    by_contra hne
    have hor : a.full.held.length < n ∨ a.swa.held.length < n := by omega
    have := (huntouched hor).mp (hall hor)
    omega
  · intro hiff hor
    exact (huntouched hor).mpr (by omega)

/-- **When failing calls take nothing.** `alloc`, `alloc_extend` and `alloc_extend_swa_tail` are
all-or-nothing, and `alloc_decode` is when both pools have the pages of the batch or none has. -/
theorem allOrNothing_iff (h : a.Ok) (needSize : Nat) (reqs : List ExtendReq) (r : ExtendReq)
    (tail : Nat) :
    a.AllOrNothing needSize reqs r tail ↔ (1 < a.pageSize →
      (reqs.countP (fun r => r.seqLen % a.pageSize = 1) ≤ a.full.held.length ↔
        reqs.countP (fun r => r.seqLen % a.pageSize = 1) ≤ a.swa.held.length)) := by
  constructor
  · intro hall hps
    exact (allocDecode_untouched_iff h hps).mp hall.allocDecode
  · intro hcond
    refine ⟨alloc_untouched h, allocExtend_untouched h, allocExtendSwaTail_untouched h, ?_⟩
    by_cases hps : 1 < a.pageSize
    · exact (allocDecode_untouched_iff h hps).mpr (hcond hps)
    · intro _
      unfold allocDecode
      rw [if_pos hps]
      exact .refl a

/-- Two pools of pages of two slots. -/
def twoPools (fullPages swaPages : List Nat) : SwaAllocator :=
  ⟨⟨2, false, fullPages, [], true, []⟩, ⟨2, false, swaPages, [], true, []⟩, fun _ => 0⟩

theorem twoPools_ok (fullPages swaPages : List Nat) : (twoPools fullPages swaPages).Ok :=
  ⟨two_pos, rfl, .inr rfl, .inr rfl⟩

theorem allOrNothing_twoPools : (twoPools [1] [1, 2]).AllOrNothing 0 [⟨2, 3, 5⟩] ⟨0, 4, 0⟩ 2 :=
  (allOrNothing_iff (twoPools_ok _ _) _ _ _ _).mpr fun _ => by decide

def twoDecodes : List ExtendReq := [⟨2, 3, 5⟩, ⟨4, 5, 9⟩]

/-- A decode step of two requests beyond a page takes two pages of the full pool, finds one in the
other pool, and fails without the pages. -/
theorem not_allOrNothing : (twoPools [1, 3] [4]).Ok ∧
    ((twoPools [1, 3] [4]).allocDecode twoDecodes).1 = none ∧
    ((twoPools [1, 3] [4]).allocDecode twoDecodes).2.full.freePages = [] ∧
    ¬ (twoPools [1, 3] [4]).AllOrNothing 0 twoDecodes ⟨0, 4, 0⟩ 2 := by
  refine ⟨twoPools_ok _ _, rfl, rfl, fun h => ?_⟩
  have hsame := (h.allocDecode rfl).1.length_eq
  exact absurd hsame (by decide)

end SwaAllocator

end Fluxfer.Memory
