import Mathlib.Data.List.Dedup
import Mathlib.Data.List.Sort
import Mathlib.Logic.Function.Basic

/-!
# The state of the scheduler

The scheduler keeps its batches as shared objects, and the running batch is often the very object
of the last batch. Batches are therefore values of a heap that is addressed by `BatchId`, and the
variables of the scheduler hold addresses. A request is kept to what decides where it goes.
-/

namespace Fluxfer.Sched

abbrev ReqId := Nat

abbrev BatchId := Nat

/-- The identity of a tree node that a load-back operation was started for. -/
abbrev LoadId := Nat

inductive ForwardMode
  | extend
  | mixed
  | decode
  deriving DecidableEq, Repr

/-- A mixed batch is an extend batch that carries decode requests along. -/
def ForwardMode.isExtend : ForwardMode → Bool
  | .extend => true
  | .mixed => true
  | .decode => false

/-- The part of `Req` that scheduling reads. `holds` stands for the request slot, the KV slots and
the tree lock, which are taken together in `prepare_for_extend` and given back together in
`release_kv_cache`. -/
structure Req where
  rid : List Char
  isPrefillOnly : Bool
  finished : Bool
  toFinish : Bool
  isChunked : Nat
  isRetracted : Bool
  holds : Bool
  deriving DecidableEq, Repr

/-- A request as it is built from a received message. -/
def Req.new (rid : List Char) (isPrefillOnly : Bool) : Req :=
  { rid, isPrefillOnly, finished := false, toFinish := false, isChunked := 0,
    isRetracted := false, holds := false }

/-- What `reset_for_retract` leaves, after `release_kv_cache` has given the slots back. -/
def Req.resetForRetract (q : Req) : Req :=
  { q with isRetracted := true, isChunked := 0, holds := false }

/-- `check_finished`: a pending abort mark wins, otherwise the new token decides. -/
def Req.checkFinished (q : Req) (stops : Bool) : Req :=
  if q.finished then q
  else if q.toFinish then { q with finished := true, toFinish := false }
  else { q with finished := stops }

structure ScheduleBatch where
  reqs : List ReqId
  forwardMode : Option ForwardMode
  chunkedReq : Option ReqId
  decodingReqs : List ReqId
  hybridBubbleNeedsPreload : Bool
  batchIsFull : Bool
  isPrefillOnly : Bool
  deriving DecidableEq, Repr

namespace ScheduleBatch

/-- `ScheduleBatch(reqs=[], batch_is_full=...)`. -/
def empty (full : Bool) : ScheduleBatch :=
  { reqs := [], forwardMode := none, chunkedReq := none, decodingReqs := [],
    hybridBubbleNeedsPreload := false, batchIsFull := full, isPrefillOnly := false }

def isEmpty (b : ScheduleBatch) : Bool := b.reqs.isEmpty

def isExtend (b : ScheduleBatch) : Bool :=
  match b.forwardMode with
  | some m => m.isExtend
  | none => false

end ScheduleBatch

/-- The settings of the server that the modelled code reads. `bubbleFilling` is
`_is_hybrid_bubble_filling_enabled()`. -/
structure Params where
  enableOverlap : Bool
  isHybridSwa : Bool
  isMixedChunk : Bool
  bubbleFilling : Bool
  maxQueuedRequests : Option Nat
  enablePriorityPreemption : Bool
  deriving DecidableEq, Repr

/-- The scheduler. The last six fields are records of what happened and no decision reads them:
the requests received, those answered with an abort, those that were preempted and put into no
queue, the prefill batches formed with their requests, those returned for execution, and the
batches whose KV slots were put into the shared tree. -/
structure Scheduler where
  reqs : ReqId → Req
  batches : BatchId → ScheduleBatch
  nextBatch : BatchId
  waitingQueue : List ReqId
  grammarQueue : List ReqId
  runningBatch : BatchId
  lastBatch : Option BatchId
  curBatch : Option BatchId
  chunkedReq : Option ReqId
  chunkedReqScheduledLastIter : Bool
  hybridBubblePendingPrefillBatch : Option BatchId
  resultQueue : List ScheduleBatch
  enginePaused : Bool
  loadQueue : List LoadId
  ongoingLoadBack : List LoadId
  ackLoadQueue : List (List LoadId)
  arrived : List ReqId
  replied : List ReqId
  dropped : List ReqId
  formed : List (BatchId × List ReqId)
  returned : List BatchId
  published : List BatchId

namespace Scheduler

variable (s : Scheduler) (b : BatchId) (rs : List ReqId)

def running : ScheduleBatch := s.batches s.runningBatch

def setBatch (x : ScheduleBatch) : Scheduler :=
  { s with batches := Function.update s.batches b x }

def setRunning (x : ScheduleBatch) : Scheduler :=
  s.setBatch s.runningBatch x

/-- Every request of a list is changed in the same way. The loops of the source visit each request
once and change nothing but that request. -/
def setReqs (f : Req → Req) : Scheduler :=
  { s with reqs := fun r => if r ∈ rs then f (s.reqs r) else s.reqs r }

def initial : Scheduler :=
  { reqs := fun _ => Req.new [] false, batches := fun _ => ScheduleBatch.empty false
    nextBatch := 1, waitingQueue := [], grammarQueue := [], runningBatch := 0
    lastBatch := none, curBatch := none, chunkedReq := none
    chunkedReqScheduledLastIter := false, hybridBubblePendingPrefillBatch := none
    resultQueue := [], enginePaused := false, loadQueue := [], ongoingLoadBack := []
    ackLoadQueue := [], arrived := [], replied := [], dropped := [], formed := []
    returned := [], published := [] }

/-- The latest prefill batch that a request is in: it computes the newest KV slots of the
request. -/
def lastFormed (r : ReqId) : Option BatchId :=
  (s.formed.find? fun e => decide (r ∈ e.2)).map Prod.fst

/-- The KV slots that requests own are put into the shared tree, by `cache_unfinished_req` or by
`cache_finished_req`. -/
def publish : Scheduler :=
  { s with published := s.published ++ rs.filterMap s.lastFormed }

/-- `ScheduleBatch.filter_batch`: the finished and the excluded requests leave the batch. -/
def filterBatch (exclude : List ReqId) : Scheduler :=
  s.setBatch b { s.batches b with
    reqs := (s.batches b).reqs.filter fun r => !(s.reqs r).finished && decide (r ∉ exclude) }

/-- `ScheduleBatch.merge_batch` on the running batch. -/
def mergeIntoRunning : Scheduler :=
  s.setRunning { s.running with
    reqs := s.running.reqs ++ (s.batches b).reqs
    isPrefillOnly := s.running.isPrefillOnly && (s.batches b).isPrefillOnly }

/-- The running batch takes over a prefill batch that has run: the batch object itself where
nothing is running. -/
def takeOver : Scheduler :=
  if (s.batches b).isEmpty then s
  else if s.running.isEmpty then { s with runningBatch := b }
  else s.mergeIntoRunning b

/-- `_add_request_to_queue`: a full waiting queue rejects the request with an abort reply. -/
def addRequestToQueue (p : Params) (s : Scheduler) (r : ReqId) : Scheduler :=
  match p.maxQueuedRequests with
  | none => { s with waitingQueue := s.waitingQueue ++ [r] }
  | some n =>
    if s.waitingQueue.length + 1 ≤ n then { s with waitingQueue := s.waitingQueue ++ [r] }
    else { s with replied := s.replied ++ [r] }

def addRequestsToQueue (p : Params) (s : Scheduler) (rs : List ReqId) : Scheduler :=
  rs.foldl (addRequestToQueue p) s

end Scheduler

end Fluxfer.Sched
