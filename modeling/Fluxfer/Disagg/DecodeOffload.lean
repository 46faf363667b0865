import Fluxfer.Hi.Cache
import Fluxfer.Requests.Base

/-!
# Offloading the KV cache of decode workers

`DecodeKVCacheOffloadManager` of `disaggregation/decode_kvcache_offload_manager.py` with its caller
`_handle_finished_req`. Requests do not share slots (`ChunkCache`). Acknowledgements come in the
order of issue, so one list is both `ongoing_offload` and the queue of the controller, and one is
both `ongoing_backup` and the queue of the backup thread.
-/

namespace Fluxfer.Disagg

open Radix Memory Pages Hi Requests

structure OffloadParams extends CacheParams where
  /-- `SGLANG_HICACHE_DECODE_OFFLOAD_STRIDE`, 0 when it is not set or not positive -/
  envStride : Nat

variable (p : OffloadParams) (s : OffloadManager) (args : ServerArgs) (r : OffloadReq) (i : Nat)

def OffloadParams.offloadStride : Nat :=
  if p.envStride = 0 then p.pageSize else max p.pageSize (p.envStride / p.pageSize * p.pageSize)

structure OffloadedState where
  prefillLen : Nat
  incLen : Nat
deriving DecidableEq, Repr

/-- A request with its flags and its entry of `offloaded_state`. -/
structure OffloadReq extends Req where
  finished : Bool
  kvCommittedFreed : Bool
  kvOverallocatedFreed : Bool
  state : Option OffloadedState
deriving Inhabited

/-- A copy to the host that is not acknowledged; `req` is the position of the request. -/
structure OffloadOp where
  req : Nat
  hostIndices : List Nat
  deviceIndices : List Nat
  start : Nat
  stop : Nat

structure OffloadManager where
  allocator : Allocator
  hostPool : HostPool
  /-- all requests that have ever come, in the order of arrival -/
  reqs : List OffloadReq
  ongoingOffload : List OffloadOp
  /-- positions of requests, with the host slots of their backups -/
  ongoingBackup : List (Nat × List Nat)

namespace OffloadReq

/-- The part of the prompt that the prefill side has offloaded. -/
def prefillOffloadedLen : Nat :=
  r.originInputIds.length / p.pageSize * p.pageSize

/-- The state that `offload_kv_cache` reads. -/
def stateOf : OffloadedState :=
  r.state.getD ⟨r.prefillOffloadedLen p, 0⟩

/-- The length of `origin_input_ids + output_ids[:-1]`. -/
def allTokens : Nat := r.originInputIds.length + (r.outputIds.length - 1)

def incrementalAlignedLen : Nat :=
  (r.allTokens - (r.stateOf p).prefillLen - (r.stateOf p).incLen) / p.offloadStride *
    p.offloadStride

end OffloadReq

namespace OffloadManager

def init (a : Allocator) (h : HostPool) : OffloadManager := ⟨a, h, [], [], []⟩

def req : OffloadReq := s.reqs.getD i default

def setReq (r : OffloadReq) : OffloadManager :=
  { s with reqs := s.reqs.set i r }

def free (s : OffloadManager) (indices : List Nat) : OffloadManager :=
  { s with allocator := s.allocator.free indices }

/-- `cache_controller.write` of a copy for the request `i`. The write may be refused. -/
def write (i start stop : Nat) (refuse : Bool) : Except CacheError (Bool × OffloadManager) := do
  let deviceIndices := slice (s.req i).row start stop
  if refuse then .ok (false, s)
  else
    match ← s.hostPool.alloc deviceIndices.length with
    | (none, h) => .ok (false, { s with hostPool := h })
    | (some hostIndices, h) => .ok (true, { s with
        hostPool := h
        ongoingOffload := s.ongoingOffload ++ [⟨i, hostIndices, deviceIndices, start, stop⟩] })

def offloadKvCache (refuse : Bool) : Except CacheError (Bool × OffloadManager) :=
  let r := s.req i
  if r.outputIds = [] then .ok (false, s)
  else
    let state := r.stateOf p
    let s := s.setReq i { r with state := some state }
    let len := r.incrementalAlignedLen p
    if len = 0 then .ok (false, s)
    else do
      let start := state.prefillLen + state.incLen
      -- the slots of the prompt are freed early
      let s := if 0 < state.prefillLen ∧ state.incLen = 0 then s.free (r.row.take state.prefillLen)
        else s
      let (written, s) ← s.write i start (start + len) refuse
      if written then
        let r := { s.req i with state := some { state with incLen := state.incLen + len } }
        .ok (true, s.setReq i r)
      else .ok (false, s)

def releaseFinishedReq (s : OffloadManager) (i : Nat)
    (startOffset : Nat) : Except CacheError OffloadManager := do
  let r := s.req i
  if r.kvCommittedFreed then .error .assertion
  let commit := r.cacheCommitLen args
  let s := s.free (slice r.row startOffset commit)
  if r.kvOverallocatedFreed then .error .assertion
  let startP := if 1 < p.pageSize then numPages p.pageSize commit * p.pageSize else commit
  let s := if startP < r.row.length then s.free (slice r.row startP r.row.length) else s
  .ok (s.setReq i { r with kvCommittedFreed := true, kvOverallocatedFreed := true, state := none })

def finalizeReleaseOnFinish (s : OffloadManager) (i : Nat) : Except CacheError OffloadManager :=
  let r := s.req i
  let state := r.stateOf p
  let s := if 0 < state.prefillLen ∧ state.incLen = 0 then s.free (r.row.take state.prefillLen)
    else s
  s.releaseFinishedReq p args i (state.prefillLen + state.incLen)

def handleFinishedReq (s : OffloadManager) (i : Nat)
    (refuse : Bool) : Except CacheError OffloadManager := do
  let (offloaded, s) ← s.offloadKvCache p i refuse
  if (s.req i).finished ∧ ¬ offloaded then s.finalizeReleaseOnFinish p args i
  else .ok s

/-- One acknowledged copy in `_check_offload_progress`, and the backup it triggers. -/
def ackOffload (s : OffloadManager) (op : OffloadOp) : Except CacheError OffloadManager := do
  let r := s.req op.req
  let s ← if r.finished then s.releaseFinishedReq p args op.req op.start
    else .ok (s.free (slice r.row op.start op.stop))
  .ok { s with ongoingBackup := s.ongoingBackup ++ [(op.req, op.hostIndices)] }

def checkOffloadProgress (p : OffloadParams) (args : ServerArgs) :
    Nat → OffloadManager → Except CacheError OffloadManager
  | 0, s => .ok s
  | n + 1, s =>
    match s.ongoingOffload with
    | [] => .error .missingKey
    | op :: ops => do
      let s ← ackOffload p args { s with ongoingOffload := ops } op
      checkOffloadProgress p args n s

def checkBackupProgress : Nat → OffloadManager → Except CacheError OffloadManager
  | 0, s => .ok s
  | n + 1, s =>
    match s.ongoingBackup with
    | [] => .error .missingKey
    | (_, hostIndices) :: rest =>
      checkBackupProgress n
        { s with ongoingBackup := rest, hostPool := s.hostPool.free hostIndices }

/-- Slots for the request `i` up to the length `n`. -/
def growRow (i n : Nat) : Except CacheError OffloadManager :=
  let r := s.req i
  match s.allocator.allocForExtend [r.growReq n] with
  | (some [out], a) => .ok ({ s with allocator := a }.setReq i { r with row := r.row ++ out })
  | _ => .error .outOfMemory

end OffloadManager

inductive OffloadAction
  /-- a request with its first token comes from the prefill side -/
  | arrive (originInputIds : List Nat) (token reasoningTokens : Nat)
  /-- slots for the next tokens, up to a length -/
  | grow (i n : Nat)
  /-- a new `kv_committed_len` -/
  | commit (i n : Nat)
  /-- a result is processed: new tokens, whether the request has finished, and whether a write to
  the host would be refused -/
  | result (i : Nat) (tokens : List Nat) (finished refuse : Bool)
  | ackWrites (n : Nat)
  | ackBackups (n : Nat)
  | freeGroupBegin
  | freeGroupEnd

namespace OffloadManager

/-- A request on its arrival, with no slots yet. -/
def arrived (originInputIds : List Nat) (token reasoningTokens : Nat) : OffloadReq where
  originInputIds := originInputIds
  outputIds := [token]
  fillIds := originInputIds
  extraKey := none
  reasoningTokens := reasoningTokens
  row := []
  prefixIndices := []
  cacheProtectedLen := 0
  lastNode := 0
  kvCommittedLen := originInputIds.length
  finished := false
  kvCommittedFreed := false
  kvOverallocatedFreed := false
  state := none

def step (s : OffloadManager) : OffloadAction → Except CacheError OffloadManager
  | .arrive originInputIds token reasoningTokens =>
    let s := { s with reqs := s.reqs ++ [arrived originInputIds token reasoningTokens] }
    s.growRow (s.reqs.length - 1) originInputIds.length
  | .grow i n => s.growRow i n
  | .commit i n => .ok (s.setReq i { s.req i with kvCommittedLen := n })
  | .result i tokens finished refuse =>
    let r := s.req i
    let s := s.setReq i { r with outputIds := r.outputIds ++ tokens, finished := finished }
    s.handleFinishedReq p args i refuse
  | .ackWrites n => s.checkOffloadProgress p args n
  | .ackBackups n => s.checkBackupProgress n
  | .freeGroupBegin => .ok { s with allocator := s.allocator.freeGroupBegin }
  | .freeGroupEnd => .ok { s with allocator := s.allocator.freeGroupEnd }

end OffloadManager

end Fluxfer.Disagg
