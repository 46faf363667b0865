import Fluxfer.Hi.Cache

/-!
# The prefetch protocol

The host slots of prefetches from the storage backend, as the scheduler thread
(`mem_cache/hiradix_cache.py`), the prefetch thread and the I/O threads
(`managers/cache_controller.py`) pass them on. An action is a step of one of the threads, up to its
next access to a queue or to a shared operation. Of the tree only the slots in host values are
kept, with the host references of its nodes.
-/

namespace Fluxfer.Storage

open Radix Hi

structure PrefetchOperation where
  requestId : Nat
  hostIndices : List Nat
  /-- the length of `token_ids` -/
  keyLen : Nat
  /-- the length of `hash_value` -/
  hashPages : Nat
  completedTokens : Nat
  terminated : Bool

namespace PrefetchOperation

def markTerminate (x : PrefetchOperation) : PrefetchOperation := { x with terminated := true }

/-- `increment`, when the operation is not terminated -/
def increment (numTokens : Nat) (x : PrefetchOperation) : PrefetchOperation :=
  { x with completedTokens := x.completedTokens + numTokens }

def setHashPages (pages : Nat) (x : PrefetchOperation) : PrefetchOperation :=
  { x with hashPages := pages }

/-- The operation keeps its first `hits` slots. -/
def cutHost (hits : Nat) (x : PrefetchOperation) : PrefetchOperation :=
  { x with hostIndices := x.hostIndices.take hits }

end PrefetchOperation

/-- Operations are objects that the threads share. -/
abbrev OpId := Nat

structure OngoingPrefetch where
  lastHostNode : NodeId
  /-- the length of `prefetch_key` -/
  keyLen : Nat
  hostIndices : List Nat
  operation : OpId

inductive StopPolicy
  | bestEffort
  | waitComplete
  | timeout
deriving DecidableEq

structure PrefetchParams where
  pageSize : Nat
  /-- `prefetch_threshold` of the cache -/
  cacheThreshold : Nat
  /-- `prefetch_threshold` of the controller -/
  prefetchThreshold : Nat
  prefetchCapacityLimit : Nat
  storageBatchSize : Nat
  prefetchStopPolicy : StopPolicy
  pageSize_pos : 0 < pageSize
  storageBatchSize_pos : 0 < storageBatchSize

/-- Where `prefetch_thread_func` is. -/
inductive PrefetchThread
  | idle
  /-- the operation is taken from the queue -/
  | querying (o : OpId)
  /-- the revocation is on its queue, the slots are not -/
  | revoking (o : OpId)
  /-- the slots after the hits are released, the operation still has them -/
  | trimming (o : OpId) (hits : Nat)
deriving DecidableEq

/-- Where `prefetch_io_aux_func` is. -/
inductive IoThread
  | idle
  /-- in the batch that starts at page `first`, with `prev_completed_tokens` -/
  | transferring (o : OpId) (first prevCompleted : Nat)
  /-- the transfer is over, the slots that are left are not released -/
  | releasing (o : OpId)
  /-- ended by an `IndexError` -/
  | dead
deriving DecidableEq

structure PrefetchState where
  hostPool : HostPool
  /-- the slots in host values of tree nodes -/
  treeSlots : List Nat
  hostRefCounter : NodeId → Nat
  /-- a dictionary by request id -/
  ongoingPrefetch : List (Nat × OngoingPrefetch)
  prefetchTokensOccupied : Int
  operations : OpId → PrefetchOperation
  /-- `StorageOperation.counter` -/
  counter : OpId
  prefetchQueue : List OpId
  prefetchThread : PrefetchThread
  prefetchBuffer : List OpId
  ioThreads : List IoThread
  prefetchRevokeQueue : List Nat
  hostMemReleaseQueue : List (List Nat)

/-- A list cut into pieces of length `ps`. -/
def chunks (ps : Nat) : Nat → List Nat → List (List Nat)
  | 0, _ => []
  | fuel + 1, l => if l = [] then [] else l.take ps :: chunks ps fuel (l.drop ps)

namespace PrefetchState

def init (ps size : Nat) : PrefetchState where
  hostPool := ⟨ps, List.range size⟩
  treeSlots := []
  hostRefCounter := fun _ => 0
  ongoingPrefetch := []
  prefetchTokensOccupied := 0
  operations := fun _ => ⟨0, [], 0, 0, 0, false⟩
  counter := 0
  prefetchQueue := []
  prefetchThread := .idle
  prefetchBuffer := []
  ioThreads := [.idle]
  prefetchRevokeQueue := []
  hostMemReleaseQueue := []

/-! ## Shared operations -/

variable (p : PrefetchParams) (s : PrefetchState)

variable (rid : Nat) (o : OpId) (hostIndices : List Nat)

def modifyOp (f : PrefetchOperation → PrefetchOperation) : PrefetchState :=
  { s with operations := Function.update s.operations o (f (s.operations o)) }

def markTerminate (s : PrefetchState) (o : OpId) : PrefetchState :=
  s.modifyOp o PrefetchOperation.markTerminate

def appendHostMemRelease : PrefetchState :=
  { s with hostMemReleaseQueue :=
      s.hostMemReleaseQueue ++ chunks p.pageSize hostIndices.length hostIndices }

/-- A new tree node has the slots `hostIndices`. -/
def addTree : PrefetchState :=
  { s with treeSlots := s.treeSlots ++ hostIndices }

def freeHost : PrefetchState :=
  { s with hostPool := s.hostPool.free hostIndices }

def setOccupied (n : Int) : PrefetchState :=
  { s with prefetchTokensOccupied := n }

def find : Option OngoingPrefetch := s.ongoingPrefetch.lookup rid

def unregister : PrefetchState :=
  { s with ongoingPrefetch := s.ongoingPrefetch.filter fun e => e.1 ≠ rid }

def protectHost (n : NodeId) : PrefetchState :=
  { s with hostRefCounter := Function.update s.hostRefCounter n (s.hostRefCounter n + 1) }

def releaseHost (n : NodeId) : Except CacheError PrefetchState :=
  if 0 < s.hostRefCounter n then
    .ok { s with hostRefCounter := Function.update s.hostRefCounter n (s.hostRefCounter n - 1) }
  else .error .notProtected

/-! ## The scheduler thread -/

/-- `cache_controller.prefetch` and the registration of the operation. -/
def registerPrefetch (node : NodeId) (keyLen : Nat) (hostIndices : List Nat) : PrefetchState :=
  let s := { s with
    operations :=
      Function.update s.operations s.counter ⟨rid, hostIndices, keyLen, 0, 0, false⟩
    counter := s.counter + 1
    prefetchQueue := s.prefetchQueue ++ [s.counter]
    ongoingPrefetch :=
      (rid, ⟨node, keyLen, hostIndices, s.counter⟩) ::
        s.ongoingPrefetch.filter fun e => e.1 ≠ rid }
  s.setOccupied (s.prefetchTokensOccupied + keyLen)

/-- `evict_host`, when it drops the host values with the slots `evicted`. -/
def evictHost (evicted : List Nat) : PrefetchState :=
  { s with treeSlots := s.treeSlots.diff evicted }.freeHost evicted

/-- The slots for a prefetch: all that are asked for, if need be after an eviction from the host,
or else as many whole pages as are free, when these are enough. -/
def allocPrefetch (prefetchLength : Nat)
    (evicted : List Nat) : Except CacheError (Option (List Nat) × PrefetchState) := do
  match ← s.hostPool.alloc prefetchLength with
  | (some v, h) => .ok (some v, { s with hostPool := h })
  | (none, _) => do
    let s := s.evictHost evicted
    match ← s.hostPool.alloc prefetchLength with
    | (some v, h) => .ok (some v, { s with hostPool := h })
    | (none, _) => do
      let available := s.hostPool.freeSlots.length
      let prefetchLength := available - available % p.pageSize
      if p.cacheThreshold ≤ prefetchLength then do
        let (v, h) ← s.hostPool.alloc prefetchLength
        .ok (v, { s with hostPool := h })
      else .ok (none, s)

/-- `prefetch_from_storage`. The key keeps its length when fewer slots are granted. -/
def prefetchFromStorage (node : NodeId)
    (numTokens : Nat) (evicted : List Nat) : Except CacheError PrefetchState := do
  let keyLen := numTokens / p.pageSize * p.pageSize
  if keyLen < p.cacheThreshold ∨ p.prefetchCapacityLimit ≤ s.prefetchTokensOccupied then .ok s
  else do
    match ← (s.protectHost node).allocPrefetch p keyLen evicted with
    | (some v, s) => .ok (s.registerPrefetch rid node keyLen v)
    | (none, s) => s.releaseHost node

/-- `can_terminate_prefetch`, given the clock and the answers of the other workers. -/
def canTerminatePrefetch (op : PrefetchOperation)
    (timedOut othersCan othersTerminated : Bool) : Bool :=
  let completed := op.hashPages ≠ 0 ∧ op.completedTokens = op.hashPages * p.pageSize
  match p.prefetchStopPolicy with
  | .bestEffort => true
  | .waitComplete => (completed && othersCan) || op.terminated || othersTerminated
  | .timeout => ((completed || timedOut) && othersCan) || op.terminated || othersTerminated

/-- The end of `check_prefetch_progress`: of the first `minCompleted` tokens the tree had
`matched`, and the rest goes to a new node. -/
def finishPrefetch (e : OngoingPrefetch)
    (minCompleted matched : Nat) : Except CacheError PrefetchState := do
  let completed := (s.operations e.operation).completedTokens
  let s := s.markTerminate e.operation
  let s := s.addTree ((e.hostIndices.take minCompleted).drop matched)
  let s := s.freeHost (e.hostIndices.take matched)
  let s := s.appendHostMemRelease p ((e.hostIndices.take completed).drop minCompleted)
  let s ← s.releaseHost e.lastHostNode
  .ok ((s.unregister rid).setOccupied (s.prefetchTokensOccupied - e.keyLen))

def checkPrefetchProgress
    (timedOut othersCan othersTerminated : Bool) (minCompleted matched : Nat) :
    Except CacheError PrefetchState :=
  match s.find rid with
  | none => .ok s
  | some e =>
    if canTerminatePrefetch p (s.operations e.operation) timedOut othersCan othersTerminated then
      s.finishPrefetch p rid e minCompleted matched
    else .ok s

def terminatePrefetch : PrefetchState :=
  match s.find rid with
  | none => s
  | some e => s.markTerminate e.operation

def releaseAbortedRequest : Except CacheError PrefetchState :=
  match s.find rid with
  | none => .ok s
  | some e => do
    let completed := (s.operations e.operation).completedTokens
    let s := s.markTerminate e.operation
    let s ← s.releaseHost e.lastHostNode
    let s := (s.unregister rid).appendHostMemRelease p (e.hostIndices.take completed)
    .ok (s.setOccupied (s.prefetchTokensOccupied - e.keyLen))

def revoke : Except CacheError PrefetchState :=
  match s.find rid with
  | none => .ok s
  | some e => do
    let s ← (s.unregister rid).releaseHost e.lastHostNode
    .ok (s.setOccupied (max (s.prefetchTokensOccupied - e.keyLen) 0))

def revokeAll : PrefetchState → List Nat → Except CacheError PrefetchState
  | s, [] => .ok s
  | s, rid :: rids => do
    let s ← s.revoke rid
    revokeAll s rids

/-- `_drain_storage_control_queues_impl`, as far as prefetches are concerned. -/
def drain (numRevoke numRelease : Nat) : Except CacheError PrefetchState := do
  let s ← revokeAll { s with prefetchRevokeQueue := s.prefetchRevokeQueue.drop numRevoke }
    (s.prefetchRevokeQueue.take numRevoke)
  let released := (s.hostMemReleaseQueue.take numRelease).flatten
  .ok ({ s with hostMemReleaseQueue := s.hostMemReleaseQueue.drop numRelease }.freeHost released)

/-- `write_backup`, as far as host slots are concerned. -/
def writeBackup (numTokens : Nat) : Except CacheError PrefetchState := do
  match ← s.hostPool.alloc numTokens with
  | (some v, h) => .ok ({ s with hostPool := h }.addTree v)
  | (none, _) => .ok s

/-- `reset`, with a host pool of `size` slots. It waits for the prefetch thread and starts a new
one, which starts a new I/O thread with a new buffer; the I/O threads that run go on. What they
still take from the old buffer before it is replaced counts as taken before the reset, which
changes nothing that `takeTransfer` reads. The queue of released slots keeps its entries. -/
def reset (size : Nat) : PrefetchState :=
  { s with
    hostPool := { s.hostPool with freeSlots := List.range size }
    treeSlots := []
    hostRefCounter := fun _ => 0
    prefetchQueue := []
    prefetchRevokeQueue := []
    prefetchThread := .idle
    prefetchBuffer := []
    ioThreads := s.ioThreads ++ [.idle] }

/-! ## The prefetch thread -/

def setThread (t : PrefetchThread) : PrefetchState :=
  { s with prefetchThread := t }

/-- The next operation is taken from the queue. -/
def takePrefetch : PrefetchState :=
  match s.prefetchQueue with
  | [] => s
  | o :: rest => { s with prefetchQueue := rest }.setThread (.querying o)

/-- What follows the hit query. -/
def answerQuery (hits : Nat) : PrefetchState :=
  let op := s.operations o
  if hits < p.prefetchThreshold then
    { s with prefetchRevokeQueue := s.prefetchRevokeQueue ++ [op.requestId] }.setThread
      (.revoking o)
  else
    let s := s.modifyOp o (.setHashPages (hits / p.pageSize))
    (s.setThread (.trimming o hits)).appendHostMemRelease p (op.hostIndices.drop hits)

/-- The rest of the loop's body. -/
def finishQuery : PrefetchState :=
  match s.prefetchThread with
  | .revoking o => (s.setThread .idle).appendHostMemRelease p (s.operations o).hostIndices
  | .trimming o hits =>
    let s := (s.setThread .idle).modifyOp o (.cutHost hits)
    { s with prefetchBuffer := s.prefetchBuffer ++ [o] }
  | _ => s

/-! ## The I/O threads -/

def setIo (i : Nat) (t : IoThread) : PrefetchState :=
  { s with ioThreads := s.ioThreads.set i t }

/-- The next operation is taken from the buffer. -/
def takeTransfer (i : Nat) : PrefetchState :=
  match s.prefetchBuffer with
  | [] => s
  | o :: rest =>
    let s := { s with prefetchBuffer := rest }
    if (s.operations o).hashPages = 0 then s.setIo i (.releasing o)
    else s.setIo i (.transferring o 0 (s.operations o).completedTokens)

/-- The number of pages of the batch that starts at `first`. -/
def batchPages (op : PrefetchOperation) (first : Nat) : Nat :=
  min p.storageBatchSize (op.hashPages - first)

/-- `page_get_func` publishes `pages` more pages with `increment`. A page without a host slot ends
the thread. -/
def transferPages (i : Nat) (o : OpId) (pages : Nat) : PrefetchState :=
  let op := s.operations o
  if op.hostIndices.length < op.completedTokens + pages * p.pageSize then s.setIo i .dead
  else if op.terminated then s
  else s.modifyOp o (.increment (pages * p.pageSize))

def finishBatch (i : Nat) (o : OpId) (first prevCompleted : Nat) : PrefetchState :=
  let op := s.operations o
  if op.completedTokens ≠ prevCompleted + batchPages p op first * p.pageSize then
    (s.markTerminate o).setIo i (.releasing o)
  else if first + p.storageBatchSize < op.hashPages then
    s.setIo i (.transferring o (first + p.storageBatchSize) op.completedTokens)
  else s.setIo i (.releasing o)

/-- The release after `_page_transfer`. -/
def releaseRest (i : Nat) (o : OpId) : PrefetchState :=
  let op := s.operations o
  (s.appendHostMemRelease p (op.hostIndices.drop op.completedTokens)).setIo i .idle

end PrefetchState

/-- The steps of the threads, with what they get from elsewhere. -/
inductive PrefetchAction
  | prefetch (rid : Nat) (node : NodeId) (numTokens : Nat) (evicted : List Nat)
  | check (rid : Nat) (timedOut othersCan othersTerminated : Bool) (minCompleted matched : Nat)
  | terminate (rid : Nat)
  | abort (rid : Nat)
  | drain (numRevoke numRelease : Nat)
  | writeBackup (numTokens : Nat)
  | evictHost (evicted : List Nat)
  | reset
  | takePrefetch
  | answerQuery (o : OpId) (hitPages : Nat)
  | finishQuery
  | takeTransfer (i : Nat)
  | transferPages (i : Nat) (o : OpId) (first prevCompleted pages : Nat)
  | finishBatch (i : Nat) (o : OpId) (first prevCompleted : Nat)
  | releaseRest (i : Nat) (o : OpId)
deriving DecidableEq

namespace PrefetchState

/-- The step can be taken: a thread is where the step starts, and the answers are possible ones.
A reset happens when the scheduler is idle, and it waits for the prefetch thread. -/
def Enabled (p : PrefetchParams) (s : PrefetchState) : PrefetchAction → Prop
  | .prefetch _ _ _ evicted => evicted.Subperm s.treeSlots
  | .check rid _ _ _ minCompleted matched => matched ≤ minCompleted ∧
      ∀ e ∈ s.find rid, minCompleted ≤ (s.operations e.operation).completedTokens
  | .terminate _ => True
  | .abort _ => True
  | .drain _ _ => True
  | .writeBackup numTokens => p.pageSize ∣ numTokens
  | .evictHost evicted => evicted.Subperm s.treeSlots
  | .reset => s.ongoingPrefetch = [] ∧ s.prefetchQueue = [] ∧ s.prefetchThread = .idle
  | .takePrefetch => s.prefetchThread = .idle
  | .answerQuery o hitPages =>
      s.prefetchThread = .querying o ∧ hitPages * p.pageSize ≤ (s.operations o).keyLen
  | .finishQuery => True
  | .takeTransfer i => s.ioThreads[i]? = some .idle
  | .transferPages i o first prevCompleted pages =>
      s.ioThreads[i]? = some (.transferring o first prevCompleted) ∧
        (s.operations o).completedTokens + pages * p.pageSize ≤
          prevCompleted + batchPages p (s.operations o) first * p.pageSize
  | .finishBatch i o first prevCompleted =>
      s.ioThreads[i]? = some (.transferring o first prevCompleted)
  | .releaseRest i o => s.ioThreads[i]? = some (.releasing o)

/-- One step. A reset is given the size of the host pool. -/
def step (p : PrefetchParams) (size : Nat) (s : PrefetchState) :
    PrefetchAction → Except CacheError PrefetchState
  | .prefetch rid node numTokens evicted => s.prefetchFromStorage p rid node numTokens evicted
  | .check rid timedOut othersCan othersTerminated minCompleted matched =>
    s.checkPrefetchProgress p rid timedOut othersCan othersTerminated minCompleted matched
  | .terminate rid => .ok (s.terminatePrefetch rid)
  | .abort rid => s.releaseAbortedRequest p rid
  | .drain numRevoke numRelease => s.drain numRevoke numRelease
  | .writeBackup numTokens => s.writeBackup numTokens
  | .evictHost evicted => .ok (s.evictHost evicted)
  | .reset => .ok (s.reset size)
  | .takePrefetch => .ok s.takePrefetch
  | .answerQuery o hitPages => .ok (s.answerQuery p o (hitPages * p.pageSize))
  | .finishQuery => .ok (s.finishQuery p)
  | .takeTransfer i => .ok (s.takeTransfer i)
  | .transferPages i o _ _ pages => .ok (s.transferPages p i o pages)
  | .finishBatch i o first prevCompleted => .ok (s.finishBatch p i o first prevCompleted)
  | .releaseRest i o => .ok (s.releaseRest p i o)

end PrefetchState

end Fluxfer.Storage
