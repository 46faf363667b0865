import Fluxfer.Memory.Allocator
import Fluxfer.Radix.Tree

/-!
# Requests

The fields of `Req` (`managers/schedule_batch.py`) that say which tokens and slots belong to a
request. `row` is its row of `req_to_token`, cut to `kv_allocated_len`. The flags that guard
against a second release are left out: a released request leaves the system.
-/

namespace Fluxfer.Requests

open Radix Memory Pages

/-- The server arguments that the release of a request reads. -/
structure ServerArgs where
  stripThinkingCache : Bool
  /-- some `speculative_algorithm` is set -/
  speculative : Bool
  /-- `disable_finished_insert` of the cache -/
  disableFinishedInsert : Bool

structure Req where
  originInputIds : List Nat
  outputIds : List Nat
  fillIds : List Nat
  extraKey : Option String
  reasoningTokens : Nat
  row : List Nat
  prefixIndices : List Nat
  cacheProtectedLen : Nat
  lastNode : NodeId
  kvCommittedLen : Nat
deriving Inhabited

/-- A write of `new[start:]` to the positions from `start` up to the length of `new`. -/
def overwrite (row new : List Nat) (start : Nat) : List Nat :=
  row.take start ++ new.drop start ++ row.drop (max start new.length)

namespace Req

variable (r : Req) (out : List Nat)

def tokenIds : List Nat := r.originInputIds ++ r.outputIds

def cacheCommitLen (args : ServerArgs) (r : Req) : Nat :=
  if args.stripThinkingCache ∧ 0 < r.reasoningTokens then
    min r.kvCommittedLen r.originInputIds.length
  else r.kvCommittedLen

/-- The slots of the request that the tree does not own. -/
def privateSlots : List Nat := r.row.drop r.cacheProtectedLen

/-- The slots of all of `fill_ids` are allocated. -/
def Running : Prop := r.row ≠ [] ∧ r.fillIds.length ≤ r.row.length

instance (r : Req) : Decidable r.Running := inferInstanceAs (Decidable (_ ∧ _))

/-- The request of `alloc_for_extend`. -/
def extendReq : ExtendReq :=
  ⟨r.prefixIndices.length, r.fillIds.length, r.prefixIndices.getLastD 0⟩

/-- The request for slots up to the length `n`. -/
def growReq (n : Nat) : ExtendReq := ⟨r.row.length, n, r.row.getLastD 0⟩

/-- The row after `prepare_for_extend`. -/
def extended : Req :=
  { r with row := r.prefixIndices ++ out, kvCommittedLen := r.fillIds.length }

/-- The row after `prepare_for_decode`. -/
def decoded : Req :=
  { r with row := r.row ++ out, kvCommittedLen := r.kvCommittedLen + 1 }

/-- The row after speculative decoding has reserved slots. -/
def reserved : Req := { r with row := r.row ++ out }

/-- The request at the end of `cache_unfinished_req`, which has found `newIndices` at `node`.
`kv_indices` is a view of the row that has been written. -/
def stashed (newIndices : List Nat) (node : NodeId) : Req :=
  let row := overwrite r.row newIndices r.cacheProtectedLen
  let kvIndices := row.take r.fillIds.length
  { r with
    row := row
    prefixIndices :=
      if newIndices.length < kvIndices.length then newIndices ++ kvIndices.drop newIndices.length
      else newIndices
    cacheProtectedLen := newIndices.length
    lastNode := node }

end Req

/-- The first `max_prefix_len` tokens may be matched: all but one, and fewer when logprobs are
asked for from `limit` on, or none with embedding overrides. -/
def maxPrefixLen (inputLen : Nat) (limit : Option Nat) : Nat :=
  match limit with
  | none => inputLen - 1
  | some k => min (inputLen - 1) k

/-- `fill_ids`, cut to a chunk of the given size after the prefix. -/
def chunkOf (tokens : List Nat) (prefixLen : Nat) (chunk : Option Nat) : List Nat :=
  match chunk with
  | none => tokens
  | some k => tokens.take (prefixLen + k)

/-- The key of `cache_finished_req` and `cache_unfinished_req`. -/
def cacheKey (p : CacheParams) (tokens : List Nat) (extraKey : Option String) : RadixKey :=
  RadixKey.pageAligned ⟨tokens, extraKey, p.isEagle⟩ p.pageSize

def slice (l : List Nat) (start stop : Nat) : List Nat := (l.take stop).drop start

/-- What a request brings when it is admitted. -/
structure Admission where
  originInputIds : List Nat
  outputIds : List Nat
  extraKey : Option String
  reasoningTokens : Nat
  limit : Option Nat
  chunk : Option Nat

namespace Admission

def tokenIds (a : Admission) : List Nat := a.originInputIds ++ a.outputIds

/-- The key that `init_next_round_input` looks up. -/
def matchKey (a : Admission) : RadixKey :=
  ⟨a.tokenIds.take (maxPrefixLen a.tokenIds.length a.limit), a.extraKey, false⟩

/-- The request with the prefix that was found. -/
def req (a : Admission) (prefixIndices : List Nat) (lastNode : NodeId) : Req where
  originInputIds := a.originInputIds
  outputIds := a.outputIds
  fillIds := chunkOf a.tokenIds prefixIndices.length a.chunk
  extraKey := a.extraKey
  reasoningTokens := a.reasoningTokens
  row := []
  prefixIndices := prefixIndices
  cacheProtectedLen := prefixIndices.length
  lastNode := lastNode
  kvCommittedLen := 0

end Admission

/-- A batch of requests gets its slots, one after the other. -/
def applyBatch (f : Req → List Nat → Req) : List Nat → List (List Nat) → List Req → List Req
  | i :: is, out :: outs, reqs => applyBatch f is outs (reqs.modify i fun r => f r out)
  | _, _, reqs => reqs

end Fluxfer.Requests
