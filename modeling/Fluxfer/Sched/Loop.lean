import Fluxfer.Sched.State

/-!
# The scheduling loop

`get_next_batch_to_run` with bubble filling, the formation of a prefill batch, the update of the
running batch with retraction, the processing of results, and the messages between two iterations.
Everything the scheduler takes from elsewhere is an answer in `Choices`.
-/

namespace Fluxfer.Sched

/-- What `PrefillAdder.add_one_req` does with a waiting request: nothing and go on, nothing and
end the loop, add it, or add a first chunk of it. -/
inductive AddReq
  | skip
  | stop
  | add
  | addChunk
  deriving DecidableEq, Repr

/-- The answers that drive `retract_decode`: the order in which requests are kept, how many of them
fit, and whether even a single one does not. -/
structure RetractChoice where
  weight : ReqId → Nat
  keep : Nat
  outOfMemory : Bool

structure Choices where
  waitingTimeout : ReqId → Bool
  runningTimeout : ReqId → Bool
  grammarReady : ReqId → Bool
  grammarFailed : ReqId → Bool
  finishedLoads : Nat
  noAllocatableReqs : Bool
  priority : ReqId → Nat
  chunkFits : Bool
  chunkTruncated : Bool
  addReq : ReqId → AddReq
  preempts : List ReqId
  runningIsFull : Bool
  loads : List LoadId
  preloadPages : LoadId → Nat
  mixable : Bool
  preloadFinished : Bool
  retract : Option RetractChoice
  stops : ReqId → Bool
  disableConsecutivePrefillOverlap : Bool
  needGrammarSync : Bool

namespace Scheduler

variable (p : Params) (c : Choices) (s : Scheduler)

def abortOnWaitingTimeout : Scheduler :=
  { s with
    waitingQueue := s.waitingQueue.filter fun r => !c.waitingTimeout r
    replied := s.replied ++ s.waitingQueue.filter c.waitingTimeout }

def abortOnRunningTimeout : Scheduler :=
  s.setReqs (s.running.reqs.filter fun r => !(s.reqs r).finished && c.runningTimeout r)
    fun q => { q with toFinish := true }

/-- The chunked request whose KV slots the next call publishes before it does anything else. -/
def stashed : Option ReqId :=
  if s.chunkedReqScheduledLastIter then s.chunkedReq else none

/-- `stash_chunked_request`, where the chunk was scheduled in the last iteration. -/
def stashChunkedRequest : Scheduler :=
  s.publish s.stashed.toList

/-- A filtered prefill batch makes room in the running batch. -/
def noteShrunk (b : BatchId) (size : Nat) : Scheduler :=
  if (s.batches b).reqs.length < size then s.setRunning { s.running with batchIsFull := false }
  else s

/-- The last batch, if it was a prefill batch, joins the running batch. Its own chunked request and
the one in the chunked slot stay out. -/
def mergeLastBatch : Scheduler :=
  match s.lastBatch with
  | none => s
  | some b =>
    if (s.batches b).isExtend then
      ((s.filterBatch b (s.chunkedReq.toList ++ (s.batches b).chunkedReq.toList)).noteShrunk b
        (s.batches b).reqs.length).takeOver b
    else s

/-- A running batch of prefill-only requests never decodes, so its finished requests leave here. -/
def filterPrefillOnly : Scheduler :=
  if s.running.isPrefillOnly then
    let s' := s.filterBatch s.runningBatch []
    if s'.running.isEmpty then s'.setRunning { s'.running with batchIsFull := false } else s'
  else s

/-- The first half of `get_next_batch_to_run`, up to the choice of a new batch. -/
def beginIteration : Scheduler :=
  ((s.abortOnWaitingTimeout c).abortOnRunningTimeout c).stashChunkedRequest.mergeLastBatch
    |>.filterPrefillOnly

/-- The requests whose grammar is ready, or failed to compile, move to the waiting queue; a failed
one carries an abort mark. -/
def moveReadyGrammarRequests : Scheduler :=
  let ready := s.grammarQueue.filter fun r => c.grammarReady r || c.grammarFailed r
  let s' := s.setReqs (s.grammarQueue.filter c.grammarFailed) fun q => { q with toFinish := true }
  addRequestsToQueue p
    { s' with
      grammarQueue := s.grammarQueue.filter fun r => !(c.grammarReady r || c.grammarFailed r) }
    ready

/-- `check_hicache_events`: the acknowledged loads at the head of the queue are done. -/
def checkHicacheEvents : Scheduler :=
  { s with
    ongoingLoadBack := s.ongoingLoadBack.diff (s.ackLoadQueue.take c.finishedLoads).flatten
    ackLoadQueue := s.ackLoadQueue.drop c.finishedLoads }

/-- `PrefillAdder.add_chunked_req`. The chunk is always scheduled, except under sliding-window
pressure; it leaves the chunked slot with its last part. -/
def addChunkedReq : Scheduler × List ReqId :=
  match s.chunkedReq with
  | none => ({ s with chunkedReqScheduledLastIter := false }, [])
  | some r =>
    if p.isHybridSwa && !c.chunkFits then
      ({ s with chunkedReqScheduledLastIter := false }, [])
    else if c.chunkTruncated then
      ({ s with chunkedReqScheduledLastIter := true }, [r])
    else ({ s with chunkedReq := none, chunkedReqScheduledLastIter := false }, [r])

/-- The loop over the waiting queue: the requests that are added and the one that is added as a
first chunk. A chunk uses up the token budget of chunks, so a second one ends the loop. -/
def addWaiting (c : Choices) : List ReqId → Bool → List ReqId × Option ReqId
  | [], _ => ([], none)
  | r :: rs, mayChunk =>
    match c.addReq r with
    | .skip => addWaiting c rs mayChunk
    | .stop => ([], none)
    | .add => (r :: (addWaiting c rs mayChunk).1, (addWaiting c rs mayChunk).2)
    | .addChunk => if mayChunk then (r :: (addWaiting c rs false).1, some r) else ([], none)

/-- The load-back operations that admission starts. -/
def startLoadBack : Scheduler :=
  { s with
    loadQueue := s.loadQueue ++ c.loads
    ongoingLoadBack := s.ongoingLoadBack ++ c.loads }

/-- `ready_to_load_host_cache`: the queued loads start as one operation. -/
def readyToLoadHostCache : Scheduler :=
  { s with
    loadQueue := []
    ackLoadQueue := if s.loadQueue.isEmpty then s.ackLoadQueue
      else s.ackLoadQueue ++ [s.loadQueue] }

variable (b : ScheduleBatch) (batch : Option BatchId) (canRun : List ReqId) (r : ReqId)
  (newChunked : Option ReqId)

/-- The new batch, with `prepare_for_extend`, at the next free address. -/
def newBatch : Scheduler :=
  { s with
    reqs := fun r =>
      if r ∈ canRun then { s.reqs r with holds := true, isRetracted := false } else s.reqs r
    batches := Function.update s.batches s.nextBatch
      { reqs := canRun, forwardMode := some .extend, chunkedReq := s.chunkedReq, decodingReqs := []
        hybridBubbleNeedsPreload :=
          p.bubbleFilling && s.loadQueue.any fun i => decide (0 < c.preloadPages i)
        batchIsFull := false, isPrefillOnly := canRun.all fun r => (s.reqs r).isPrefillOnly }
    nextBatch := s.nextBatch + 1
    formed := (s.nextBatch, canRun) :: s.formed }

/-- `mix_with_running`: the running requests decode inside the new batch, and a new running batch
starts empty. -/
def mixWithRunning (b : BatchId) : Scheduler :=
  let s1 := s.filterBatch s.runningBatch []
  let s2 := if s1.running.isEmpty then s1 else
    s1.setBatch b { s1.batches b with
      reqs := (s1.batches b).reqs ++ s1.running.reqs
      forwardMode := some .mixed
      decodingReqs := s1.running.reqs
      isPrefillOnly := false }
  { s2 with
    batches := Function.update s2.batches s2.nextBatch (ScheduleBatch.empty s2.running.batchIsFull)
    runningBatch := s2.nextBatch
    nextBatch := s2.nextBatch + 1 }

/-- The bookkeeping once it is known which requests run: they leave the waiting queue, and a new
chunked request takes the chunked slot. -/
def admitReqs : Scheduler :=
  let chunked := newChunked <|> s.chunkedReq
  { s with
    waitingQueue := s.waitingQueue.filter fun r => decide (r ∉ canRun)
    chunkedReq := chunked
    chunkedReqScheduledLastIter := s.chunkedReqScheduledLastIter || newChunked.isSome
    reqs := fun r =>
      if chunked = some r then { s.reqs r with isChunked := (s.reqs r).isChunked + 1 }
      else s.reqs r }

/-- The new batch is created and its loads start. -/
def createBatch : Scheduler :=
  ((s.admitReqs canRun newChunked).newBatch p c canRun).readyToLoadHostCache

/-- The new batch, at the address `nextBatch`, with the running requests mixed in where that is
possible. -/
def formBatch : Scheduler :=
  if p.isMixedChunk && !s.running.isEmpty && c.mixable then
    (s.createBatch p c canRun newChunked).mixWithRunning s.nextBatch
  else s.createBatch p c canRun newChunked

def prioritized : Scheduler :=
  { s with waitingQueue := s.waitingQueue.insertionSort fun a b => c.priority a ≤ c.priority b }

/-- The state after the adder has looked at the requests, before a batch is formed. -/
def examined : Scheduler :=
  ((s.addChunkedReq p c).1.startLoadBack c).setRunning
    { (s.addChunkedReq p c).1.running with
      batchIsFull := (s.addChunkedReq p c).1.running.batchIsFull || c.runningIsFull }

/-- The given requests lose what they own and are unscheduled; `kept` stays in the running batch. -/
def keepRunning (kept retracted : List ReqId) : Scheduler :=
  (s.setReqs retracted Req.resetForRetract).setRunning { s.running with reqs := kept }

/-- `preempt_list`: the running requests that give way to waiting ones of higher priority. -/
def preempted : List ReqId :=
  if p.enablePriorityPreemption then
    (c.preempts.filter fun r => decide (r ∈ s.running.reqs) && !(s.reqs r).finished).dedup
  else []

/-- What the calls of `preempt_to_schedule` do together. They are made in the loop over the waiting
queue, which reads neither the running batch nor the preempted requests otherwise. -/
def preemptToSchedule : Scheduler :=
  s.keepRunning (s.running.reqs.filter fun r => decide (r ∉ s.preempted p c)) (s.preempted p c)

/-- The part of `_get_new_batch_prefill_raw` after its early returns. The preempted requests are
queued again only if some request runs. -/
def addToBatch : Scheduler × Option BatchId :=
  let s1 := (s.prioritized c).preemptToSchedule p c
  let chunk := s1.addChunkedReq p c
  let added := addWaiting c s1.waitingQueue chunk.1.chunkedReq.isNone
  let s2 := s1.examined p c
  let preempted := (s.prioritized c).preempted p c
  if (chunk.2 ++ added.1).isEmpty then ({ s2 with dropped := preempted ++ s2.dropped }, none)
  else ((s2.formBatch p c (chunk.2 ++ added.1) added.2).addRequestsToQueue p preempted,
    some s2.nextBatch)

/-- The queues are looked at before a batch is formed. Under sliding-window attention, and where
requests can be preempted, the running batch is not taken as full. -/
def lookAtQueues : Scheduler :=
  let s' := (s.moveReadyGrammarRequests p c).checkHicacheEvents c
  if p.enablePriorityPreemption || p.isHybridSwa then
    s'.setRunning { s'.running with batchIsFull := false }
  else s'

def getNewBatchPrefill : Scheduler × Option BatchId :=
  let s' := s.lookAtQueues p c
  if (s'.running.batchIsFull || s'.waitingQueue.isEmpty) && s'.chunkedReq.isNone then (s', none)
  else if c.noAllocatableReqs && s'.chunkedReq.isNone && !p.enablePriorityPreemption then
    (s'.setRunning { s'.running with batchIsFull := true }, none)
  else s'.addToBatch p c

/-- Nothing fits: what is left of the running batch is aborted with a reply. -/
def abortRunning : Scheduler :=
  { (s.setReqs s.running.reqs fun q => { q.resetForRetract with toFinish := true }).setRunning
      { s.running with reqs := [] } with replied := s.replied ++ s.running.reqs }

/-- `retract_decode`: the requests are kept from the heaviest on, at least one of them; if that one
does not fit either, it is aborted. -/
def retractDecode (k : RetractChoice) (s : Scheduler) : Scheduler :=
  let sorted := s.running.reqs.insertionSort fun a b => k.weight b ≤ k.weight a
  let n := max 1 (min k.keep (sorted.length - 1))
  let retracted := (sorted.drop n).reverse
  let s1 := s.keepRunning (sorted.take n) retracted
  let s2 := if k.outOfMemory && decide (s1.running.reqs.length ≤ 1) then s1.abortRunning else s1
  addRequestsToQueue p s2 retracted

/-- Retraction where the memory check of the decode batch fails. -/
def makeRoom : Scheduler :=
  match c.retract with
  | none => s
  | some k => s.retractDecode p k

def updateRunningBatch : Scheduler :=
  let s1 := s.filterBatch s.runningBatch []
  if s1.running.isEmpty then s1.setRunning { s1.running with batchIsFull := false }
  else
    let s2 := s1.makeRoom p c
    let s3 := if s2.running.reqs.length < s.running.reqs.length then
      s2.setRunning { s2.running with batchIsFull := false } else s2
    if s3.running.isEmpty then s3
    else s3.setRunning { s3.running with forwardMode := some .decode }

/-- The decode batch of this iteration, as in `_get_decode_batch_for_hybrid_bubble_filling` and at
the end of `get_next_batch_to_run`. -/
def getDecodeBatch : Scheduler × Option BatchId :=
  if s.running.isEmpty || s.running.isPrefillOnly then (s, none)
  else
    let s' := s.updateRunningBatch p c
    (s', if s'.running.isEmpty then none else some s'.runningBatch)

/-- The prefill batch of this iteration: the one that was put aside, or a new one. -/
def prefillBatch : Scheduler × Option BatchId :=
  match s.hybridBubblePendingPrefillBatch with
  | some b => (s, some b)
  | none => s.getNewBatchPrefill p c

/-- `_should_hybrid_bubble_fill_prefill`. A batch that loads something has a consumer index, so the
answer of the preload event decides. -/
def shouldHybridBubbleFillPrefill (b : BatchId) : Bool :=
  p.bubbleFilling && (s.batches b).hybridBubbleNeedsPreload && !c.preloadFinished

/-- A prefill batch is handed out for execution. -/
def returnPrefill (b : BatchId) : Scheduler :=
  { s with hybridBubblePendingPrefillBatch := none, returned := b :: s.returned }

/-- The choice between a prefill batch and a decode batch that fills its bubble. -/
def chooseBatch (b : BatchId) : Scheduler × Option BatchId :=
  if s.shouldHybridBubbleFillPrefill p c b then
    match s.getDecodeBatch p c with
    | (s', some d) => ({ s' with hybridBubblePendingPrefillBatch := some b }, some d)
    | (s', none) => (s'.returnPrefill b, some b)
  else (s.returnPrefill b, some b)

def getNextBatchToRun : Scheduler × Option BatchId :=
  match (s.beginIteration c).prefillBatch p c with
  | (s', some b) => s'.chooseBatch p c b
  | (s', none) => s'.getDecodeBatch p c

/-- The requests of a prefill batch that its result is for: those that neither finished nor were
retracted meanwhile and whose prefill ends with this batch. -/
def prefillResults : List ReqId :=
  b.reqs.filter fun r =>
    !(s.reqs r).finished && !(s.reqs r).isRetracted && decide ((s.reqs r).isChunked = 0)

/-- A request that received a token: it gives its slots back if it stops. -/
def receiveToken (q : Req) : Req :=
  let q' := q.checkFinished (c.stops r)
  if q'.finished then { q' with holds := false } else q'

/-- The requests after a prefill result: those it is for receive a token, and for the others one
chunk less is on the way. -/
def afterPrefill : Req :=
  if r ∈ s.prefillResults b then receiveToken c r (s.reqs r)
  else if r ∈ b.reqs ∧ (s.reqs r).finished = false ∧ (s.reqs r).isRetracted = false then
    { s.reqs r with isChunked := (s.reqs r).isChunked - 1 }
  else s.reqs r

def processBatchResultPrefill : Scheduler :=
  let s' := { s with reqs := s.afterPrefill c b }
  s'.publish ((s.prefillResults b).filter fun r =>
    (s'.reqs r).finished || decide (r ∉ b.decodingReqs))

/-- The requests of a decode batch that its result is for. Only overlap leaves requests in the
batch that finished or were retracted meanwhile. -/
def decodeResults : List ReqId :=
  b.reqs.filter fun r => !(p.enableOverlap && ((s.reqs r).finished || (s.reqs r).isRetracted))

def afterDecode : Req :=
  if r ∈ s.decodeResults p b then receiveToken c r (s.reqs r) else s.reqs r

def processBatchResultDecode : Scheduler :=
  let s' := { s with reqs := s.afterDecode p c b }
  s'.publish ((s.decodeResults p b).filter fun r => (s'.reqs r).finished)

def processBatchResult : Scheduler :=
  if b.isExtend then s.processBatchResultPrefill c b else s.processBatchResultDecode p c b

def popAndProcess : Scheduler :=
  match s.resultQueue with
  | [] => s
  | b :: rest => processBatchResult p c { s with resultQueue := rest } b

def isDisableOverlapForBatch : Bool :=
  let isExtend := fun b : Option BatchId => b.any fun b => (s.batches b).isExtend
  (c.disableConsecutivePrefillOverlap && isExtend batch && isExtend s.lastBatch) ||
    (c.needGrammarSync && (batch.isSome && !isExtend batch) && !s.resultQueue.isEmpty)

/-- One iteration of `event_loop_normal` after `get_next_batch_to_run`. -/
def runNormal : Scheduler :=
  match batch with
  | none => s
  | some b => s.processBatchResult p c (s.batches b)

/-- The batch, if there is one, is launched, and a copy of it waits for its result. -/
def launch : Scheduler :=
  { s with resultQueue := s.resultQueue ++ batch.toList.map s.batches }

/-- One iteration of `event_loop_overlap` after `get_next_batch_to_run`: the new batch is launched
before the result of the last one is processed. -/
def runOverlap : Scheduler :=
  let disable := s.isDisableOverlapForBatch c batch
  let s1 := (if disable then s.popAndProcess p c else s).launch batch
  if s.lastBatch.isSome && !disable then s1.popAndProcess p c else s1

/-- One iteration of the event loop once the messages are processed. -/
def iterate : Scheduler :=
  if s.enginePaused then s
  else
    let next := s.getNextBatchToRun p c
    let s' := { next.1 with curBatch := next.2 }
    let s'' := if p.enableOverlap then s'.runOverlap p c next.2 else s'.runNormal p c next.2
    { s'' with lastBatch := next.2 }

/-- A request is received. It waits for its grammar if it has one that is not compiled yet. -/
def receive (q : Req) (needsGrammar : Bool) : Scheduler :=
  let s' := { s with reqs := Function.update s.reqs r q, arrived := r :: s.arrived }
  if needsGrammar then { s' with grammarQueue := s'.grammarQueue ++ [r] }
  else s'.addRequestToQueue p r

end Scheduler

structure AbortReq where
  rid : List Char
  abortAll : Bool
  deriving DecidableEq, Repr

/-- Whether an abort message is for a request. -/
def AbortReq.hits (a : AbortReq) (q : Req) : Bool :=
  a.abortAll || a.rid.isPrefixOf q.rid

namespace Scheduler

/-- The batch part of the requests that `abort_request` marks: those of the running batch and of
the current batch. -/
def abortable (s : Scheduler) : List ReqId :=
  match s.curBatch with
  | none => s.running.reqs
  | some b => if b = s.runningBatch then s.running.reqs else s.running.reqs ++ (s.batches b).reqs

/-- `abort_request`: queued requests are removed with a reply, requests that wait for a grammar and
requests in a batch get an abort mark. -/
def abortRequest (s : Scheduler) (a : AbortReq) : Scheduler :=
  let hit := fun r => a.hits (s.reqs r)
  let s1 := { s with
    waitingQueue := s.waitingQueue.filter fun r => !hit r
    replied := s.replied ++ s.waitingQueue.filter hit }
  let s2 := s1.setReqs (s.grammarQueue.filter hit) fun q => { q with toFinish := true }
  s2.setReqs (s.abortable.filter fun r => !(s.reqs r).finished && hit r)
    fun q => { q with toFinish := true }

end Scheduler

inductive PauseMode
  | abort
  | retract
  | inPlace
  deriving DecidableEq, Repr

namespace Scheduler

variable (p : Params) (c : Choices) (s : Scheduler)

/-- The last batch joins the running batch at a pause. Nothing is excluded here. -/
def mergeLastBatchForPause : Scheduler :=
  match s.lastBatch with
  | none => s
  | some b => if (s.batches b).isExtend then (s.filterBatch b []).takeOver b else s

/-- `retract_all` on the running batch, and the retracted requests queue again. -/
def retractRunning : Scheduler :=
  let s1 := s.filterBatch s.runningBatch []
  let retracted := s1.running.reqs
  let s2 := addRequestsToQueue p
    ((s1.setReqs retracted Req.resetForRetract).setRunning { s1.running with reqs := [] }) retracted
  { s2.setRunning { s2.running with batchIsFull := false } with chunkedReq := none }

/-- The results and the last batch are settled before the running batch is retracted. -/
def settleLastBatch : Scheduler :=
  let s1 := if p.enableOverlap && s.lastBatch.isSome then s.popAndProcess p c else s
  { s1.mergeLastBatchForPause with lastBatch := none, curBatch := none }

def pauseGeneration (mode : PauseMode) : Scheduler :=
  let s' := { s with enginePaused := true }
  match mode with
  | .inPlace => s'
  | .abort => s'.settleLastBatch p c
  | .retract =>
    let s1 := s'.settleLastBatch p c
    if s1.running.isEmpty then s1 else s1.retractRunning p

def continueGeneration : Scheduler := { s with enginePaused := false }

/-- `is_fully_idle`. The batch that bubble filling put aside is not looked at. `cacheIdle` says
that no write-through, storage prefetch or storage backup is in flight. -/
def isFullyIdle (cacheIdle : Bool) : Bool :=
  s.running.isEmpty && s.chunkedReq.isNone &&
    (s.lastBatch.all fun b => (s.batches b).isEmpty) &&
    (s.curBatch.all fun b => (s.batches b).isEmpty) &&
    (!p.enableOverlap || s.resultQueue.isEmpty) && s.waitingQueue.isEmpty &&
    s.grammarQueue.isEmpty && cacheIdle && s.ongoingLoadBack.isEmpty

def flushCache (cacheIdle : Bool) : Scheduler :=
  if s.isFullyIdle p cacheIdle then
    { s with
      curBatch := none, lastBatch := none, loadQueue := [], ongoingLoadBack := []
      ackLoadQueue := [], grammarQueue := [] }
  else s

end Scheduler

/-- What happens to the scheduler: messages between two iterations, and iterations. -/
inductive Event
  | receive (r : ReqId) (rid : List Char) (isPrefillOnly needsGrammar : Bool)
  | abort (a : AbortReq)
  | pause (mode : PauseMode) (c : Choices)
  | resume
  | flush (cacheIdle : Bool)
  | iterate (c : Choices)

namespace Scheduler

def handle (p : Params) (s : Scheduler) : Event → Scheduler
  | .receive r rid only grammar => s.receive p r (Req.new rid only) grammar
  | .abort a => s.abortRequest a
  | .pause mode c => s.pauseGeneration p c mode
  | .resume => s.continueGeneration
  | .flush idle => s.flushCache p idle
  | .iterate c => s.iterate p c

end Scheduler

/-- A received request is a new object. A pause in abort mode does not reach the scheduler: the
tokenizer manager aborts all requests itself. -/
def Event.Valid (s : Scheduler) : Event → Prop
  | .receive r _ _ _ => r ∉ s.arrived
  | .pause mode _ => mode ≠ .abort
  | _ => True

/-- The runs of the scheduler from its start in which every event meets a condition on the state it
meets. -/
inductive Run (p : Params) (C : Scheduler → Event → Prop) : Scheduler → Prop
  | start : Run p C .initial
  | step {s : Scheduler} (run : Run p C s) (e : Event) (valid : e.Valid s) (allowed : C s e) :
      Run p C (s.handle p e)

end Fluxfer.Sched
