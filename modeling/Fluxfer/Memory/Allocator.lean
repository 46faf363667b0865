import Fluxfer.Lib.Pages

/-!
# The device slot allocators

`TokenToKVPoolAllocator` (page size 1) and `PagedTokenToKVPoolAllocator` of
`mem_cache/allocator.py`. A slot is an index into the KV pool, and page `g` has the slots
`g * page_size, …, g * page_size + page_size - 1`. Page 0 is padding and never handed out.
-/

namespace Fluxfer.Memory

open Pages List

structure Allocator where
  pageSize : Nat
  needSort : Bool
  freePages : List Nat
  releasePages : List Nat
  isNotInFreeGroup : Bool
  freeGroup : List (List Nat)
deriving DecidableEq, Repr

/-- `alloc_extend` gets one of these for each request of a batch, and `alloc_decode` one with
`prefixLen + 1 = seqLen`. For an empty prefix `last_loc` is not read. -/
structure ExtendReq where
  prefixLen : Nat
  seqLen : Nat
  lastLoc : Nat
deriving DecidableEq, Repr

namespace Allocator

/-- `clear`, for a pool of `size` slots. -/
def init (pageSize size : Nat) (needSort : Bool) : Allocator where
  pageSize := pageSize
  needSort := needSort
  freePages := range' 1 (size / pageSize)
  releasePages := []
  isNotInFreeGroup := true
  freeGroup := []

variable (a : Allocator) (ps : Nat) (reqs : List ExtendReq) (r : ExtendReq)

def availableSize : Nat :=
  (a.freePages.length + a.releasePages.length) * a.pageSize

def mergeAndSortFree : Allocator :=
  if a.releasePages = [] then a
  else
    { a with
      freePages := (a.freePages ++ a.releasePages).insertionSort (· ≤ ·)
      releasePages := [] }

/-- The refill that precedes an allocation of `n` pages. -/
def refill (n : Nat) : Allocator :=
  if a.needSort ∧ a.freePages.length < n then a.mergeAndSortFree else a

/-- `alloc` of both classes: `need_size` slots, in whole pages. -/
def alloc (needSize : Nat) : Option (List Nat) × Allocator :=
  let n := needSize / a.pageSize
  let a := a.refill n
  if a.freePages.length < n then (none, a)
  else (some (slotsOf a.pageSize (a.freePages.take n)), { a with freePages := a.freePages.drop n })

/-- `torch.unique(free_index // page_size)` -/
def uniquePages (freeIndex : List Nat) : List Nat :=
  ((freeIndex.map (· / ps)).dedup).insertionSort (· ≤ ·)

/-- `free`: a slot list of page size 1 goes to the end as it is, and pages of a larger size
are made unique and go to the front. -/
def free (freeIndex : List Nat) : Allocator :=
  if freeIndex = [] then a
  else if a.isNotInFreeGroup then
    if a.pageSize = 1 then
      if a.needSort then { a with releasePages := a.releasePages ++ freeIndex }
      else { a with freePages := a.freePages ++ freeIndex }
    else if a.needSort then
      { a with releasePages := uniquePages a.pageSize freeIndex ++ a.releasePages }
    else { a with freePages := uniquePages a.pageSize freeIndex ++ a.freePages }
  else { a with freeGroup := a.freeGroup ++ [freeIndex] }

def freeGroupBegin : Allocator :=
  { a with isNotInFreeGroup := false, freeGroup := [] }

def freeGroupEnd : Allocator :=
  { a with isNotInFreeGroup := true }.free a.freeGroup.flatten

/-- `alloc_extend_kernel` for one request, whose new pages are `pages`. -/
def extendSlots (pages : List Nat) : List Nat :=
  let up := numPages ps r.prefixLen * ps
  let n1 := min r.seqLen up - r.prefixLen
  let part1 := (range n1).map fun i => r.lastLoc + 1 + i
  if r.prefixLen + n1 = r.seqLen then part1
  else
    let n2 := r.seqLen / ps * ps - up
    let part2 := (range n2).map fun i => pages.getD (i / ps) 0 * ps + i % ps
    if r.prefixLen + n1 + n2 = r.seqLen then part1 ++ part2
    else
      let n3 := r.seqLen - r.seqLen / ps * ps
      let page := pages.getD (numPages ps r.seqLen - numPages ps r.prefixLen - 1) 0
      part1 ++ part2 ++ (range n3).map fun i => page * ps + i

/-- `alloc_decode_kernel` for one request. -/
def decodeSlots (pages : List Nat) : List Nat :=
  if numPages ps r.seqLen - numPages ps (r.seqLen - 1) = 0 then [r.lastLoc + 1]
  else [pages.getD 0 0 * ps]

def numNewPages : Nat := numPages ps r.seqLen - numPages ps r.prefixLen

/-- The requests of a batch take their new pages one after the other. -/
def batchSlots (ps : Nat) (kernel : ExtendReq → List Nat → List Nat) :
    List ExtendReq → List Nat → List (List Nat)
  | [], _ => []
  | r :: rs, pages =>
    kernel r (pages.take (numNewPages ps r)) ::
      batchSlots ps kernel rs (pages.drop (numNewPages ps r))

def allocExtend : Option (List (List Nat)) × Allocator :=
  let extendNumTokens := (reqs.map fun r => r.seqLen - r.prefixLen).sum
  let a := a.refill (extendNumTokens / a.pageSize + reqs.length + 1)
  let n := (reqs.map (numNewPages a.pageSize)).sum
  if a.freePages.length < n then (none, a)
  else (some (batchSlots a.pageSize (extendSlots a.pageSize) reqs a.freePages),
    { a with freePages := a.freePages.drop n })

/-- `alloc_decode`, whose count of new pages is the special case of `get_num_new_pages`. -/
def allocDecode : Option (List (List Nat)) × Allocator :=
  let a := a.refill reqs.length
  let n := reqs.countP fun r => r.seqLen % a.pageSize = 1
  if a.freePages.length < n then (none, a)
  else (some (batchSlots a.pageSize (decodeSlots a.pageSize) reqs a.freePages),
    { a with freePages := a.freePages.drop n })

/-- Slots from a flat allocation, cut into the parts of the requests. -/
def cutSlots : List ExtendReq → List Nat → List (List Nat)
  | [], _ => []
  | r :: rs, out =>
    out.take (r.seqLen - r.prefixLen) :: cutSlots rs (out.drop (r.seqLen - r.prefixLen))

def allocForExtend : Option (List (List Nat)) × Allocator :=
  if a.pageSize = 1 then
    let (out, a) := a.alloc (reqs.map fun r => r.seqLen - r.prefixLen).sum
    (out.map (cutSlots reqs), a)
  else a.allocExtend reqs

/-- The allocation in `alloc_for_decode`, one slot for each request. -/
def allocForDecode : Option (List (List Nat)) × Allocator :=
  if a.pageSize = 1 then
    let (out, a) := a.alloc reqs.length
    (out.map (cutSlots reqs), a)
  else a.allocDecode reqs

end Allocator

end Fluxfer.Memory
