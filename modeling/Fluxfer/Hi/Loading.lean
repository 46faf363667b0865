import Fluxfer.Hi.Cache

/-!
# `start_loading`

What `HiCacheController.start_loading` enqueues on the load stream for a queue of load operations.
With the hybrid back end the first pages of an operation are preloaded, by way of a staging buffer
when the host pool has one, and the tail is loaded layer by layer. The stream runs in order.
-/

namespace Fluxfer.Hi

open Radix List

inductive MemLayout
  | layerFirst
  | pageFirst
  | pageFirstDirect
  | pageHead
deriving DecidableEq

/-- A host pool: its layers, and whether it has `stage_pages_to_device`. -/
structure HostLayers where
  layerNum : Nat
  stages : Bool
  layerNum_pos : 0 < layerNum

/-- The pools of a controller. The draft pool uses the slots of the target pool. -/
structure LoadPools where
  pageSize : Nat
  target : HostLayers
  draft : Option HostLayers

/-- What is enqueued on the load stream, for the target or for the draft pool. -/
inductive StreamOp
  /-- host pages from `src` on are copied to the pages from `dst` on of the staging buffer -/
  | stage (draft : Bool) (dst src len : Nat)
  /-- one layer of a token of the staging buffer is copied to a device slot -/
  | split (draft : Bool) (staged device layer : Nat)
  /-- one layer of a host slot is copied to a device slot -/
  | load (draft : Bool) (host device layer : Nat)
  /-- `LayerLoadingEvent.complete` -/
  | complete (layer : Nat)
  /-- `LayerLoadingEvent.complete_preload` -/
  | completePreload
deriving DecidableEq

/-- One layer of a host slot copied to a device slot. -/
structure Copy where
  draft : Bool
  host : Nat
  device : Nat
  layer : Nat
deriving DecidableEq

/-! ## The meaning of a stream -/

/-- The host page in each page of the two staging buffers. -/
abbrev Staging := Bool → Nat → Option Nat

def stageInto (m : Staging) : StreamOp → Staging
  | .stage draft dst src len => fun d i =>
    if d = draft ∧ dst ≤ i ∧ i < dst + len then some (src + (i - dst)) else m d i
  | _ => m

variable (ps : Nat)

def copyOf (m : Staging) : StreamOp → Option Copy
  | .load draft host device layer => some ⟨draft, host, device, layer⟩
  | .split draft staged device layer =>
    (m draft (staged / ps)).map fun p => ⟨draft, p * ps + staged % ps, device, layer⟩
  | _ => none

/-- The copies from the host to the device that a stream makes. -/
def copiesFrom (ps : Nat) : Staging → List StreamOp → List Copy
  | _, [] => []
  | m, op :: ops => (copyOf ps m op).toList ++ copiesFrom ps (stageInto m op) ops

def copies (ops : List StreamOp) : List Copy := copiesFrom ps (fun _ _ => none) ops

/-- The operation copies data of layer `i`. -/
def StreamOp.CopiesLayer (i : Nat) : StreamOp → Prop
  | .stage .. => True
  | .split _ _ _ l => l = i
  | .load _ _ _ l => l = i
  | _ => False

/-- The event of layer `i` is recorded once, after every copy of data of that layer. -/
def RecordedAfterCopies (ops : List StreamOp) (i : Nat) : Prop :=
  ∃ before after, ops = before ++ .complete i :: after ∧ .complete i ∉ before ∧
    .complete i ∉ after ∧ ∀ op ∈ after, ¬ op.CopiesLayer i

/-! ## The code -/

/-- `host_indices[::page_size] // page_size` -/
def pageIds (hostIndices : List Nat) : List Nat :=
  (range (hostIndices.length / ps)).map fun k => hostIndices.getD (k * ps) 0 / ps

/-- The loop of `stage_pages_to_device`, which joins adjacent pages to one copy. -/
def stageRuns (draft : Bool) : Nat → List Nat → Nat → Nat → Nat → List StreamOp
  | _, [], runDst, runSrc, runLength => [.stage draft runDst runSrc runLength]
  | dstPage, p :: pages, runDst, runSrc, runLength =>
    if p = runSrc + runLength then
      stageRuns draft (dstPage + 1) pages runDst runSrc (runLength + 1)
    else
      .stage draft runDst runSrc runLength :: stageRuns draft (dstPage + 1) pages dstPage p 1

def stagePagesToDevice (draft : Bool) (hostIndices : List Nat) :
    Except CacheError (Option (List StreamOp)) :=
  if hostIndices = [] then .ok none
  else if hostIndices.length % ps ≠ 0 then .error .invalidArgument
  else
    match pageIds ps hostIndices with
    | [] => .ok none
    | p :: pages => .ok (some (stageRuns draft 1 pages 0 p 1))

/-- `split_staged_pages_to_device_per_layer`, with `staged_indices` counting up from 0. -/
def splitStagedPagesToDevicePerLayer (draft : Bool) (numTokens : Nat) (deviceIndices : List Nat)
    (i : Nat) : List StreamOp :=
  zipWith (fun j d => .split draft j d i) (range numTokens) deviceIndices

def loadToDevicePerLayer (draft : Bool) (hostIndices deviceIndices : List Nat) (i : Nat) :
    List StreamOp :=
  zipWith (fun h d => .load draft h d i) hostIndices deviceIndices

/-- `move_indices`, which sorts the pairs by host slot for some layouts. -/
def moveIndices (io : IoBackend) (layout : MemLayout) (hostIndices deviceIndices : List Nat) :
    Except CacheError (List Nat × List Nat) :=
  if io = .kernel then .ok (hostIndices, deviceIndices)
  else
    match layout with
    | .layerFirst =>
      .ok ((hostIndices.zip deviceIndices).insertionSort fun x y => x.1 ≤ y.1).unzip
    | .pageFirstDirect => .ok (hostIndices, deviceIndices)
    | _ => .error .invalidArgument

/-- The number of tokens of an operation that are preloaded. -/
def LoadOp.preloadTokens (op : LoadOp) : Nat :=
  min (op.h2dPreloadPages * ps) op.hostIndices.length

/-- The preloaded slots of `_split_hybrid_load_ops`. It has `None` for the empty list. -/
def preloadIndices (ops : List LoadOp) : List Nat × List Nat :=
  (ops.flatMap fun op => op.hostIndices.take (op.preloadTokens ps),
    ops.flatMap fun op => op.deviceIndices.take (op.preloadTokens ps))

/-- The slots of the tail of `_split_hybrid_load_ops`. -/
def tailIndices (ops : List LoadOp) : List Nat × List Nat :=
  (ops.flatMap fun op => op.hostIndices.drop (op.preloadTokens ps),
    ops.flatMap fun op => op.deviceIndices.drop (op.preloadTokens ps))

namespace LoadPools

variable (p : LoadPools)

/-- What is done for a layer of the draft pool, when it has that layer. -/
def draftLayer (i : Nat) (ops : List StreamOp) : List StreamOp :=
  match p.draft with
  | some m => if i < m.layerNum then ops else []
  | none => []

def loadLayer (hostIndices deviceIndices : List Nat) (i : Nat) : List StreamOp :=
  loadToDevicePerLayer false hostIndices deviceIndices i ++
    p.draftLayer i (loadToDevicePerLayer true hostIndices deviceIndices i)

def stageIfAble (m : HostLayers) (draft : Bool) (hostIndices : List Nat) :
    Except CacheError (Option (List StreamOp)) :=
  if m.stages then stagePagesToDevice p.pageSize draft hostIndices else .ok none

def stageDraft (hostIndices : List Nat) : Except CacheError (Option (List StreamOp)) :=
  match p.draft with
  | some m => p.stageIfAble m true hostIndices
  | none => .ok none

def splitLayer (stagedDraft : Bool) (numTokens : Nat) (deviceIndices : List Nat) (i : Nat) :
    List StreamOp :=
  splitStagedPagesToDevicePerLayer false numTokens deviceIndices i ++
    if stagedDraft then
      p.draftLayer i (splitStagedPagesToDevicePerLayer true numTokens deviceIndices i)
    else []

/-- The loop over the layers, which records the event of each layer when this is its last part. -/
def forLayers (last : Bool) (layer : Nat → List StreamOp) : List StreamOp :=
  (range p.target.layerNum).flatMap fun i =>
    layer i ++ if last then [.complete i] else []

def preload (hostIndices deviceIndices : List Nat) (last : Bool) :
    Except CacheError (List StreamOp) := do
  if hostIndices = [] then .ok []
  else do
    let staged ← p.stageIfAble p.target false hostIndices
    let stagedDraft ← p.stageDraft hostIndices
    let layer := if staged.isSome then
        p.splitLayer stagedDraft.isSome hostIndices.length deviceIndices
      else p.loadLayer hostIndices deviceIndices
    .ok (staged.getD [] ++ stagedDraft.getD [] ++ p.forLayers last layer)

def loadTail (hostIndices deviceIndices : List Nat) : List StreamOp :=
  if hostIndices = [] then [] else p.forLayers true (p.loadLayer hostIndices deviceIndices)

/-- `start_loading`: what it enqueues on the load stream. -/
def startLoading (io : IoBackend) (layout : MemLayout) (queue : List LoadOp) :
    Except CacheError (Option (List StreamOp)) :=
  if queue = [] then .ok none
  else if io = .hybrid then do
    let (preHost, preDevice) := preloadIndices p.pageSize queue
    let (tailHost, tailDevice) := tailIndices p.pageSize queue
    let pre ← p.preload preHost preDevice (tailHost = [])
    .ok (some (pre ++ .completePreload :: p.loadTail tailHost tailDevice))
  else do
    let (host, device) ← moveIndices io layout (queue.flatMap LoadOp.hostIndices)
      (queue.flatMap LoadOp.deviceIndices)
    .ok (some (.completePreload :: p.forLayers true (p.loadLayer host device)))

end LoadPools

end Fluxfer.Hi
