import Fluxfer.Radix.Cache
import Fluxfer.Requests.Req

/-!
# Requests on a `RadixCache`

`cache_unfinished_req` and `cache_finished_req` of `mem_cache/radix_cache.py`, the slot
allocation of `mem_cache/common.py` on top of the cache, and a system of requests that uses
them in any order.
-/

namespace Fluxfer.Radix.RadixCache

open Memory Pages Requests

variable (p : CacheParams) (args : ServerArgs) (c : RadixCache) (r : Req)

def evictFromTreeCache (numTokens : Nat) (pick : Nat → Nat) : Except CacheError RadixCache :=
  if c.allocator.availableSize < numTokens then do
    let (_, c) ← c.evict p numTokens pick
    .ok c
  else .ok c

/-- The insertion of `cache_unfinished_req` and `cache_finished_req`: the tree takes the slots,
and those it had already are freed. -/
def insertAndFree (key : RadixKey) (kvIndices : List Nat)
    (protectedLen : Nat) (chunked : Bool) : Except CacheError RadixCache := do
  let values := kvIndices.take key.len
  let (n, t) ← c.tree.insert p key (some values) chunked
  .ok ⟨t, c.allocator.free (slice kvIndices protectedLen n)⟩

def cacheUnfinishedReq (chunked : Bool) : Except CacheError (Req × RadixCache) := do
  let kvIndices := r.row.take r.fillIds.length
  let key := cacheKey p r.fillIds r.extraKey
  let c ← c.insertAndFree p key kvIndices r.cacheProtectedLen chunked
  let (m, t) ← c.tree.matchPrefix p key
  let newIndices := m.deviceIndices
  if newIndices.length ≠ key.len then .error .assertion
  let (_, t) ← t.decLockRef r.lastNode
  let (_, t) ← t.incLockRef m.lastDeviceNode
  .ok (r.stashed newIndices m.lastDeviceNode, { c with tree := t })

/-- The two branches of `cache_finished_req`. -/
def insertOrFree (key : RadixKey) (kvIndices : List Nat)
    (protectedLen : Nat) (isInsert : Bool) : Except CacheError RadixCache :=
  if isInsert then c.insertAndFree p key kvIndices protectedLen false
  else .ok { c with allocator := c.allocator.free (slice kvIndices protectedLen key.len) }

def cacheFinishedReq (isInsert : Bool) : Except CacheError RadixCache := do
  let tokenIds := r.tokenIds.take (r.cacheCommitLen args)
  let kvIndices := r.row.take tokenIds.length
  let key := cacheKey p tokenIds r.extraKey
  let c ← c.insertOrFree p key kvIndices r.cacheProtectedLen
    (isInsert && !args.disableFinishedInsert)
  let a := c.allocator.free (kvIndices.drop key.len)
  let (_, t) ← c.tree.decLockRef r.lastNode
  .ok ⟨t, a⟩

def releaseKvCache (isInsert : Bool) : Except CacheError RadixCache := do
  let c ← c.cacheFinishedReq p args r isInsert
  let startP := r.cacheCommitLen args
  let endP := r.row.length
  if !args.speculative && !args.stripThinkingCache && startP != endP then .error .assertion
  let startP := if 1 < p.pageSize then numPages p.pageSize startP * p.pageSize else startP
  if startP < endP then .ok { c with allocator := c.allocator.free (slice r.row startP endP) }
  else .ok c

end Fluxfer.Radix.RadixCache

namespace Fluxfer.Requests

open Radix Memory

/-- A cache with the requests that have locked a node of it. -/
structure System where
  cache : RadixCache
  reqs : List Req

inductive ReqOp
  | admitReq (a : Admission)
  /-- `prepare_for_extend` of a batch, given by positions -/
  | extend (batch : List Nat) (pick : Nat → Nat)
  /-- `prepare_for_decode` of a batch -/
  | decode (batch : List Nat) (pick : Nat → Nat)
  /-- the slots that speculative decoding allocates in advance, up to the given lengths -/
  | reserve (batch : List (Nat × Nat)) (pick : Nat → Nat)
  /-- new output tokens -/
  | output (i : Nat) (tokens : List Nat) (reasoningTokens : Nat)
  /-- a new `kv_committed_len` -/
  | commit (i : Nat) (n : Nat)
  /-- the next chunk of a prefill -/
  | nextChunk (i : Nat) (chunk : Option Nat)
  | cacheUnfinishedReq (i : Nat) (chunked : Bool)
  | release (i : Nat) (isInsert : Bool)
  | evict (numTokens : Nat) (pick : Nat → Nat)
  | freeGroupBegin
  | freeGroupEnd

namespace System

def init (a : Allocator) : System := ⟨⟨RadixTree.init, a⟩, []⟩

variable (p : CacheParams) (args : ServerArgs) (s : System)

def req (i : Nat) : Req := s.reqs.getD i default

/-- An allocation for a batch, after the eviction that makes room for `numTokens` slots. -/
def allocBatch (numTokens : Nat) (pick : Nat → Nat)
    (alloc : Allocator → Option (List (List Nat)) × Allocator) :
    Except CacheError (List (List Nat) × RadixCache) := do
  let c ← s.cache.evictFromTreeCache p numTokens pick
  match alloc c.allocator with
  | (none, _) => .error .outOfMemory
  | (some outs, a) => .ok (outs, { c with allocator := a })

/-- The tokens that an allocation for a batch asks to be evicted. -/
def tokensFor (ereqs : List ExtendReq) : Nat :=
  let n := (ereqs.map fun r => r.seqLen - r.prefixLen).sum
  if p.pageSize = 1 then n else n + ereqs.length * p.pageSize

def step : ReqOp → Except CacheError System
  | .admitReq a => do
    let (m, t) ← s.cache.tree.matchPrefix p a.matchKey
    let (_, t) ← t.incLockRef m.lastDeviceNode
    .ok ⟨{ s.cache with tree := t }, s.reqs ++ [a.req m.deviceIndices m.lastDeviceNode]⟩
  | .extend batch pick => do
    let ereqs := batch.map fun i => (s.req i).extendReq
    let (outs, c) ← s.allocBatch p (tokensFor p ereqs) pick (·.allocForExtend ereqs)
    .ok ⟨c, applyBatch Req.extended batch outs s.reqs⟩
  | .decode batch pick => do
    let ereqs := batch.map fun i => (s.req i).growReq ((s.req i).row.length + 1)
    let (outs, c) ← s.allocBatch p (batch.length * p.pageSize) pick (·.allocForDecode ereqs)
    .ok ⟨c, applyBatch Req.decoded batch outs s.reqs⟩
  | .reserve batch pick => do
    let ereqs := batch.map fun b => (s.req b.1).growReq b.2
    let (outs, c) ← s.allocBatch p (tokensFor p ereqs) pick (·.allocForExtend ereqs)
    .ok ⟨c, applyBatch Req.reserved (batch.map Prod.fst) outs s.reqs⟩
  | .output i tokens reasoningTokens =>
    .ok { s with
      reqs := s.reqs.modify i fun r =>
        { r with outputIds := r.outputIds ++ tokens, reasoningTokens := reasoningTokens } }
  | .commit i n => .ok { s with reqs := s.reqs.modify i fun r => { r with kvCommittedLen := n } }
  | .nextChunk i chunk =>
    .ok { s with
      reqs := s.reqs.modify i fun r =>
        { r with fillIds := chunkOf r.tokenIds r.prefixIndices.length chunk } }
  | .cacheUnfinishedReq i chunked => do
    let (r, c) ← s.cache.cacheUnfinishedReq p (s.req i) chunked
    .ok ⟨c, s.reqs.set i r⟩
  | .release i isInsert => do
    let c ← s.cache.releaseKvCache p args (s.req i) isInsert
    .ok ⟨c, s.reqs.eraseIdx i⟩
  | .evict numTokens pick => do
    let (_, c) ← s.cache.evict p numTokens pick
    .ok { s with cache := c }
  | .freeGroupBegin =>
    .ok { s with cache := { s.cache with allocator := s.cache.allocator.freeGroupBegin } }
  | .freeGroupEnd =>
    .ok { s with cache := { s.cache with allocator := s.cache.allocator.freeGroupEnd } }

end System

end Fluxfer.Requests
