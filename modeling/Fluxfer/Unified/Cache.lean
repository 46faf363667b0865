import Fluxfer.Hi.Cache

/-!
# `UnifiedRadixCache`

The cache of `mem_cache/unified_radix_cache.py` with the full-attention component and a host tier,
and the queues of `hybrid_cache/hybrid_cache_controller.py`. The root counts as backed up here:
every test of the source that reads the backup of a node looks for the root first. `freed` records
what went back to the device allocator, and which copies to the host were then in flight.
-/

namespace Fluxfer.Unified

open Radix Memory Hi

/-! ## Leaf sets -/

variable (hp : HiParams) (c : UnifiedCache) (t : RadixTree)

variable (n : NodeId) (numTokens : Nat) (key : RadixKey) (pick : Nat → Nat)

def isDeviceLeaf : Bool :=
  n ≠ t.rootNode ∧ ¬ (t.nodes n).evicted ∧ ¬ 0 < (t.nodes n).lockRef ∧
    ∀ c ∈ (t.nodes n).childList, (t.nodes c).evicted

def isHostLeaf : Bool :=
  n ≠ t.rootNode ∧ (t.nodes n).evicted ∧ (t.nodes n).backuped ∧ (t.nodes n).childList = []

def updateEvictableLeafSets : RadixTree :=
  { t with
    evictableLeaves :=
      if isDeviceLeaf t n then t.evictableLeaves.insert n else t.evictableLeaves.erase n
    evictableHostLeaves :=
      if isHostLeaf t n then t.evictableHostLeaves.insert n else t.evictableHostLeaves.erase n }

/-- The links and slots of `_split_node`, with `redistribute_on_node_split` of the
full-attention component. -/
def linkSplit (ps : Nat) (t : RadixTree) (key : RadixKey) (child : NodeId) (splitLen : Nat) :
    RadixTree :=
  let c := t.nodes child
  let newNode := t.counter
  let t := t.alloc
    { TreeNode.new with
      children := AList.singleton ((key.slice splitLen key.len).childKey ps) child
      parent := c.parent
      key := c.key.slice 0 splitLen
      lockRef := c.lockRef
      value := c.value.map (·.take splitLen)
      hostValue := c.hostValue.map (·.take splitLen) }
  let t := t.modify child fun c =>
    { c with
      parent := some newNode
      key := c.key.slice splitLen c.key.len
      value := c.value.map (·.drop splitLen)
      hostValue := c.hostValue.map (·.drop splitLen) }
  t.setChild c.parent (key.childKey ps) newNode

def splitTree (ps : Nat) (t : RadixTree) (key : RadixKey) (child : NodeId) (splitLen : Nat) :
    NodeId × RadixTree :=
  let newNode := t.counter
  let t := linkSplit ps t key child splitLen
  (newNode, updateEvictableLeafSets (updateEvictableLeafSets t newNode) child)

def addNewNode (ps : Nat) (t : RadixTree) (parent : NodeId) (key : RadixKey) (value : List Nat) :
    NodeId × RadixTree :=
  let newNode := t.counter
  let t := (t.linkLeaf ps parent key value).addEvictable value.length
  (newNode, updateEvictableLeafSets (updateEvictableLeafSets t newNode) parent)

/-! ## Locks -/

/-- The evicted nodes from `n` up, which a lock skips, and the node above them. -/
def skipEvicted (t : RadixTree) : Nat → NodeId → List NodeId →
    Except CacheError (List NodeId × NodeId)
  | 0, _, _ => .error .diverged
  | fuel + 1, n, skip =>
    if n ≠ t.rootNode ∧ (t.nodes n).evicted then
      match (t.nodes n).parent with
      | none => .error .missingValue
      | some q => skipEvicted t fuel q (n :: skip)
    else .ok (skip, n)

/-- One node of `acquire_component_lock`, with the slots `v`. -/
def acquireNode (v : List Nat) : RadixTree × Int :=
  let d : Int := if (t.nodes n).lockRef = 0 then v.length else 0
  let t := ((t.addEvictable (-d)).addProtected d).modify n fun x =>
    { x with lockRef := x.lockRef + 1 }
  ({ t with evictableLeaves := t.evictableLeaves.erase n }, d)

/-- `acquire_component_lock` above the skipped nodes, with `delta`. -/
def acquireLoop : Nat → RadixTree → NodeId → Int → Except CacheError (Int × RadixTree)
  | 0, _, _, _ => .error .diverged
  | fuel + 1, t, n, delta =>
    if n = t.rootNode then .ok (delta, t)
    else
      match (t.nodes n).value, (t.nodes n).parent with
      | none, _ => .error .assertion
      | some _, none => .error .missingValue
      | some v, some q => acquireLoop fuel (acquireNode t n v).1 q (delta + (acquireNode t n v).2)

/-- One node of `release_component_lock`, with the slots `v`. -/
def releaseNode (v : List Nat) : RadixTree :=
  let d : Int := if (t.nodes n).lockRef = 1 then v.length else 0
  let t := ((t.addEvictable d).addProtected (-d)).modify n fun x =>
    { x with lockRef := x.lockRef - 1 }
  if (t.nodes n).lockRef = 0 then updateEvictableLeafSets t n else t

/-- `release_component_lock`, with the nodes that the lock has skipped. -/
def releaseLoop (skip : List NodeId) : Nat → RadixTree → NodeId → Except CacheError RadixTree
  | 0, _, _ => .error .diverged
  | fuel + 1, t, n =>
    if n = t.rootNode then .ok t
    else
      match (t.nodes n).parent with
      | none => .error .missingValue
      | some q =>
        if n ∈ skip then releaseLoop skip fuel t q
        else
          match (t.nodes n).value with
          | none => .error .assertion
          | some v =>
            if ¬ 0 < (t.nodes n).lockRef then .error .assertion
            else releaseLoop skip fuel (releaseNode t n v) q

/-! ## The cache -/

/-- An entry of `ongoing_write_through`: the node and the nodes that its lock has skipped, or
`none` without a lock. The controller copies `deviceIndices` meanwhile. -/
structure OngoingWrite where
  node : NodeId
  lockParams : Option (List NodeId)
  deviceIndices : List Nat
deriving DecidableEq

/-- Slots that went back to the device allocator, and the copies in flight at that moment. -/
structure DeviceFree where
  slots : List Nat
  inFlight : List OngoingWrite
deriving DecidableEq

structure UnifiedCache extends RadixCache where
  hostPool : HostPool
  ongoingWriteThrough : List OngoingWrite
  ackWriteQueue : List (List NodeId)
  /-- nodes, with the nodes that their lock has skipped -/
  ongoingLoadBack : List (NodeId × List NodeId)
  loadQueue : List LoadOp
  ackLoadQueue : List (List NodeId)
  hybridPendingDeviceDemotions : ListSet NodeId
  hybridWriteDemoteNodeIds : ListSet NodeId
  hybridLoadBackNodesByReqid : AList (fun _ : Nat => List NodeId)
  freed : List DeviceFree

namespace UnifiedCache

def init (a : Allocator) (h : HostPool) : UnifiedCache where
  tree := RadixTree.init
  allocator := a
  hostPool := h
  ongoingWriteThrough := []
  ackWriteQueue := []
  ongoingLoadBack := []
  loadQueue := []
  ackLoadQueue := []
  hybridPendingDeviceDemotions := .empty
  hybridWriteDemoteNodeIds := .empty
  hybridLoadBackNodesByReqid := ∅
  freed := []

def withTree : UnifiedCache := { c with tree := t }

def free (c : UnifiedCache) (slots : List Nat) : UnifiedCache :=
  { c with
    allocator := c.allocator.free slots
    freed := c.freed ++ [⟨slots, c.ongoingWriteThrough⟩] }

/-- `inc_lock_ref`, with `delta` and the skipped nodes. -/
def incLockRef : Except CacheError (Int × List NodeId × UnifiedCache) := do
  let (skip, top) ← skipEvicted c.tree (c.tree.counter + 1) n []
  let (delta, t) ← acquireLoop (c.tree.counter + 1) c.tree top 0
  .ok (delta, skip, c.withTree (updateEvictableLeafSets t n))

def decLockRef (skip : List NodeId) : Except CacheError UnifiedCache := do
  let t ← releaseLoop skip (c.tree.counter + 1) c.tree n
  .ok (c.withTree (updateEvictableLeafSets t n))

/-! ## Eviction from the host -/

/-- The loop of `_iteratively_delete_tombstone_leaf`. -/
def deleteTombstones (ps : Nat) : Nat → RadixTree → NodeId → Except CacheError RadixTree
  | 0, _, _ => .error .diverged
  | fuel + 1, t, cur =>
    if cur ≠ t.rootNode ∧ (t.nodes cur).childList = [] then
      if 0 < (t.nodes cur).lockRef then .ok t
      else if ¬ (t.nodes cur).evicted ∨ (t.nodes cur).backuped then
        .ok (updateEvictableLeafSets t cur)
      else do
        let t := { t with evictableHostLeaves := t.evictableHostLeaves.erase cur }
        let (q, t) ← t.popChild ps cur
        deleteTombstones ps fuel (updateEvictableLeafSets t q) q
    else .ok t

/-- `_evict_host_leaf`, with the number of host slots it frees. -/
def evictHostLeaf (x : NodeId) : Except CacheError (Nat × UnifiedCache) := do
  if ¬ isHostLeaf c.tree x then .error .assertion
  let some v := (c.tree.nodes x).hostValue | .error .missingValue
  let t := c.tree.modify x fun y => { y with hostValue := none }
  let t := { t with evictableHostLeaves := t.evictableHostLeaves.erase x }
  let (q, t) ← t.popChild hp.pageSize x
  let t ← deleteTombstones hp.pageSize (t.counter + 1) t q
  .ok (v.length, { c with tree := t, hostPool := c.hostPool.free v })

/-- The parent of `x` joins a heap when it has become one of the leaves. -/
def pushParent (leaves : ListSet NodeId) (heap : List NodeId) (x : NodeId) : List NodeId :=
  match (t.nodes x).parent with
  | none => heap
  | some q => if q ∈ leaves then heap ++ [q] else heap

def evictHostLoop (hp : HiParams) (numTokens : Nat) (pick : Nat → Nat) :
    Nat → UnifiedCache → List NodeId → Nat → Except CacheError (Nat × UnifiedCache)
  | 0, _, _, _ => .error .diverged
  | fuel + 1, c, heap, tracker =>
    if tracker < numTokens ∧ heap ≠ [] then
      let i := pick fuel % heap.length
      let x := heap.getD i 0
      let heap := heap.eraseIdx i
      if x ∉ c.tree.evictableHostLeaves then evictHostLoop hp numTokens pick fuel c heap tracker
      else do
        let (k, c) ← c.evictHostLeaf hp x
        evictHostLoop hp numTokens pick fuel c
          (pushParent c.tree c.tree.evictableHostLeaves heap x) (tracker + k)
    else .ok (tracker, c)

/-- `evict_host`, with the number of host slots that have been freed. -/
def evictHost : Except CacheError (Nat × UnifiedCache) :=
  evictHostLoop hp numTokens pick (2 * c.tree.counter + 1) c c.tree.evictableHostLeaves.elems 0

/-! ## Writing to the host -/

/-- The eviction from the host in `write_backup`: whether there is room for `kvTokens` slots. -/
def makeHostRoom (kvTokens : Nat) (pick : Nat → Nat) : Except CacheError (Bool × UnifiedCache) :=
  let hostAvail := c.hostPool.freeSlots.length
  if hostAvail < kvTokens then do
    let (evicted, c) ← c.evictHost hp (kvTokens - hostAvail) pick
    .ok (kvTokens - hostAvail ≤ evicted, c)
  else .ok (true, c)

/-- `cache_controller.write`, which starts the transfer at once. -/
def write (deviceIndices : List Nat) (nodeId : NodeId) :
    Except CacheError (Option (List Nat) × UnifiedCache) := do
  match ← c.hostPool.alloc deviceIndices.length with
  | (none, h) => .ok (none, { c with hostPool := h })
  | (some v, h) =>
    .ok (some v, { c with hostPool := h, ackWriteQueue := c.ackWriteQueue ++ [[nodeId]] })

/-- The lock of `write_backup`. A write-back takes none. -/
def lockWrite (writeBack : Bool) : Except CacheError (Option (List NodeId) × UnifiedCache) :=
  if writeBack then .ok (none, c)
  else do
    let (_, skip, c) ← c.incLockRef n
    .ok (some skip, c)

/-- The end of `write_backup`, for a copy of `deviceIndices` to `hostIndices`. -/
def recordWrite
    (deviceIndices hostIndices : List Nat) (writeBack : Bool) :
    Except CacheError UnifiedCache := do
  let t := c.tree.modify n fun x => { x with hostValue := some hostIndices }
  let (lockParams, c) ← (c.withTree t).lockWrite n writeBack
  let c := { c with ongoingWriteThrough :=
    ⟨n, lockParams, deviceIndices⟩ :: c.ongoingWriteThrough.filter (·.node ≠ n) }
  if hp.isHybridWriteThrough ∧ (c.tree.nodes n).hicacheDemoteAfterWrite then
    .ok { c with
      tree := c.tree.modify n fun x => { x with hicacheDemoteAfterWrite := false }
      hybridWriteDemoteNodeIds := c.hybridWriteDemoteNodeIds.insert n }
  else .ok c

/-- `write_backup`, with the number of slots that are written. -/
def writeBackup (writeBack : Bool) (pick : Nat → Nat) : Except CacheError (Nat × UnifiedCache) := do
  let some q := (c.tree.nodes n).parent | .error .missingValue
  if !writeBack ∧ q ≠ c.tree.rootNode ∧ ¬ (c.tree.nodes q).backuped then .ok (0, c)
  else do
    let some v := (c.tree.nodes n).value | .error .missingValue
    let (enough, c) ← c.makeHostRoom hp v.length pick
    if !enough then .ok (0, c)
    else do
      match ← c.write v n with
      | (none, c) => .ok (0, c)
      | (some h, c) => do
        let c ← c.recordWrite hp n v h writeBack
        .ok (h.length, c)

def incHitCount (chunked : Bool) (pick : Nat → Nat) : Except CacheError UnifiedCache :=
  if (c.tree.nodes n).evicted ∨ chunked ∨ hp.writePolicy = .writeBack then .ok c
  else
    let c := c.withTree (c.tree.modify n fun x => { x with hitCount := x.hitCount + 1 })
    if ¬ (c.tree.nodes n).backuped ∧ hp.writeThroughThreshold ≤ (c.tree.nodes n).hitCount then do
      let (_, c) ← c.writeBackup hp n false pick
      .ok c
    else .ok c

/-! ## Eviction from the device -/

/-- `_evict_to_host`, with the number of device slots it frees. -/
def evictToHost : Except CacheError (Nat × UnifiedCache) := do
  if (c.tree.nodes n).evicted ∨ ¬ (c.tree.nodes n).backuped then .error .assertion
  let some v := (c.tree.nodes n).value | .error .missingValue
  let some q := (c.tree.nodes n).parent | .error .missingValue
  let c := c.free v
  let t := (c.tree.addEvictable (-v.length)).modify n fun x => { x with value := none }
  .ok (v.length, c.withTree (updateEvictableLeafSets (updateEvictableLeafSets t n) q))

/-- The removal of a device leaf without backup, in `_evict_device_leaf`. -/
def deleteDeviceLeaf : Except CacheError (Nat × UnifiedCache) := do
  let some v := (c.tree.nodes n).value | .error .missingValue
  let c := c.free v
  let t := c.tree.addEvictable (-v.length)
  let t := { t with evictableLeaves := t.evictableLeaves.erase n }
  let (q, t) ← t.popChild hp.pageSize n
  let t ← deleteTombstones hp.pageSize (t.counter + 1) (updateEvictableLeafSets t q) q
  .ok (v.length, c.withTree t)

/-- `_evict_device_leaf`, with the number of device slots it frees. -/
def evictDeviceLeaf : Except CacheError (Nat × UnifiedCache) := do
  if ¬ isDeviceLeaf c.tree n then .error .assertion
  else if (c.tree.nodes n).backuped then c.evictToHost n
  else if hp.writePolicy = .writeBack then do
    -- the number of slots written is not looked at
    let (_, c) ← c.writeBackup hp n true pick
    c.evictToHost n
  else c.deleteDeviceLeaf hp n

def evictLoop (hp : HiParams) (numTokens : Nat) (pick : Nat → Nat → Nat) :
    Nat → UnifiedCache → List NodeId → Nat → Except CacheError (Nat × UnifiedCache)
  | 0, _, _, _ => .error .diverged
  | fuel + 1, c, heap, tracker =>
    if tracker < numTokens ∧ heap ≠ [] then
      let i := pick fuel 0 % heap.length
      let x := heap.getD i 0
      let heap := heap.eraseIdx i
      if x ∉ c.tree.evictableLeaves then evictLoop hp numTokens pick fuel c heap tracker
      else do
        let (k, c) ← c.evictDeviceLeaf hp x (pick fuel)
        evictLoop hp numTokens pick fuel c (pushParent c.tree c.tree.evictableLeaves heap x)
          (tracker + k)
    else .ok (tracker, c)

/-- `evict`, with the number of device slots that have been freed. -/
def evict (pick : Nat → Nat → Nat) : Except CacheError (Nat × UnifiedCache) :=
  evictLoop hp numTokens pick (2 * c.tree.counter + 1) c c.tree.evictableLeaves.elems 0

/-! ## Demotion -/

def tryHybridDemoteDeviceNode : Except CacheError UnifiedCache :=
  if ¬ hp.isHybridWriteThrough then .ok c
  else if n = c.tree.rootNode ∨ (c.tree.nodes n).evicted ∨ ¬ (c.tree.nodes n).backuped then .ok c
  else if 0 < (c.tree.nodes n).lockRef then
    .ok { c with hybridPendingDeviceDemotions := c.hybridPendingDeviceDemotions.insert n }
  else
    let c := { c with hybridPendingDeviceDemotions := c.hybridPendingDeviceDemotions.erase n }
    if ∃ x ∈ (c.tree.nodes n).childList, ¬ (c.tree.nodes x).evicted then .ok c
    else do
      let (_, c) ← c.evictToHost n
      .ok c

/-- `_try_hybrid_demote_device_node` for each of some nodes. -/
def demoteAll (hp : HiParams) : UnifiedCache → List NodeId → Except CacheError UnifiedCache
  | c, [] => .ok c
  | c, n :: ns => do
    let c ← c.tryHybridDemoteDeviceNode hp n
    demoteAll hp c ns

def drainHybridPendingDemotions : Except CacheError UnifiedCache :=
  if ¬ hp.isHybridWriteThrough then .ok { c with
    hybridPendingDeviceDemotions := .empty
    hybridWriteDemoteNodeIds := .empty
    hybridLoadBackNodesByReqid := ∅ }
  else
    let nodes := c.hybridPendingDeviceDemotions.elems
    demoteAll hp c (shuffle pick nodes.length nodes)

def selectHybridLoadBackTailNodes (nodes : List NodeId) : List NodeId :=
  let totalPages := (nodes.map fun n => (c.tree.deviceValue n).length / hp.pageSize).sum
  HiCache.tailNodes hp.pageSize ((totalPages + 1) / 2) c.tree 0 nodes

def demoteHybridLoadBackTailForReq (rid : Nat) : Except CacheError UnifiedCache :=
  let nodes := HiCache.orderedNodes c.tree ((c.hybridLoadBackNodesByReqid.lookup rid).getD [])
  demoteAll hp { c with hybridLoadBackNodesByReqid := c.hybridLoadBackNodesByReqid.erase rid }
    (c.selectHybridLoadBackTailNodes hp nodes)

def markHybridGeneratedNodeForDemotion : UnifiedCache :=
  if ¬ hp.isHybridWriteThrough then c
  else if (c.tree.nodes n).backuped then
    { c with hybridPendingDeviceDemotions := c.hybridPendingDeviceDemotions.insert n }
  else c.withTree (c.tree.modify n fun x => { x with hicacheDemoteAfterWrite := true })

/-! ## Acknowledgements -/

/-- The end of an acknowledged write, whose entry has been taken out. -/
def finishWrite (lockParams : Option (List NodeId)) : Except CacheError UnifiedCache := do
  let c ← match lockParams with
    | none => .ok c
    | some skip => c.decLockRef n skip
  if n ∈ c.hybridWriteDemoteNodeIds then
    tryHybridDemoteDeviceNode hp
      { c with hybridWriteDemoteNodeIds := c.hybridWriteDemoteNodeIds.erase n } n
  else .ok c

/-- One acknowledged write. With `blocking` an id without entry is passed over. -/
def ackWrite (blocking : Bool) (c : UnifiedCache) (n : NodeId) : Except CacheError UnifiedCache :=
  match c.ongoingWriteThrough.find? (·.node = n) with
  | none => if blocking then .ok c else .error .missingKey
  | some w =>
    finishWrite hp { c with
      ongoingWriteThrough := c.ongoingWriteThrough.eraseP (·.node = n) } n w.lockParams

def ackWrites (hp : HiParams) (blocking : Bool) :
    UnifiedCache → List NodeId → Except CacheError UnifiedCache
  | c, [] => .ok c
  | c, n :: ns => do
    let c ← c.ackWrite hp blocking n
    ackWrites hp blocking c ns

/-- `writing_check`, when the first `finished` transfers of the queue have finished. -/
def writingCheck (finished : Nat) : Except CacheError UnifiedCache :=
  if c.ongoingWriteThrough = [] then .ok c
  else
    ackWrites hp false { c with ackWriteQueue := c.ackWriteQueue.drop finished }
      (c.ackWriteQueue.take finished).flatten

/-- `writing_check(write_back=True)`, which waits for all transfers of the queue. -/
def writingCheckBlocking : Except CacheError UnifiedCache :=
  if c.ongoingWriteThrough = [] then .ok c
  else do
    -- the processing of the entries does not read the queue
    let c ← ackWrites hp true { c with ackWriteQueue := [] } c.ackWriteQueue.flatten
    if c.ongoingWriteThrough ≠ [] then .error .assertion
    .ok c

def ackLoad : Except CacheError UnifiedCache :=
  match c.ongoingLoadBack.find? (·.1 = n) with
  | none => .error .missingKey
  | some e => do
    let c := { c with ongoingLoadBack := c.ongoingLoadBack.eraseP (·.1 = n) }
    let c ← c.decLockRef n e.2
    c.drainHybridPendingDemotions hp pick

def ackLoads (hp : HiParams) (pick : Nat → Nat → Nat) :
    UnifiedCache → List NodeId → Except CacheError UnifiedCache
  | c, [] => .ok c
  | c, n :: ns => do
    let c ← c.ackLoad hp n (pick ns.length)
    ackLoads hp pick c ns

/-- `_drain_load_back_acks`, when the first `finished` transfers of the queue have finished. -/
def drainLoadBackAcks (finished : Nat) (pick : Nat → Nat → Nat) : Except CacheError UnifiedCache :=
  if c.ongoingLoadBack = [] then .ok c
  else
    ackLoads hp pick { c with ackLoadQueue := c.ackLoadQueue.drop finished }
      (c.ackLoadQueue.take finished).flatten

/-- `start_loading`, as far as the queues are concerned. -/
def startLoading : UnifiedCache :=
  if c.loadQueue = [] then c
  else { c with
    loadQueue := []
    ackLoadQueue := c.ackLoadQueue ++ [c.loadQueue.map LoadOp.nodeId] }

/-- The writes in `flush_hicache_events_on_idle`. -/
def flushWrites (finished : Nat) : Except CacheError UnifiedCache :=
  if c.ongoingWriteThrough ≠ [] ∧ c.ackWriteQueue ≠ [] then c.writingCheckBlocking hp
  else c.writingCheck hp finished

def flushHicacheEventsOnIdle (finished : Nat)
    (pick : Nat → Nat → Nat) : Except CacheError UnifiedCache := do
  let c ← c.flushWrites hp finished
  let c ← c.drainLoadBackAcks hp c.ackLoadQueue.length pick
  c.drainHybridPendingDemotions hp (pick 0)

/-! ## `match_prefix` -/

structure MatchResult where
  deviceIndices : List Nat
  lastDeviceNode : NodeId
  lastHostNode : NodeId
  bestMatchNode : NodeId
  hostHitLength : Nat

/-- What `_match_prefix_helper` keeps: the values of the nodes on the device, the best match, and
the best match on the device with the number of values up to it. -/
structure BestMatch where
  value : List (List Nat)
  bestMatchNode : NodeId
  bestMatchDeviceNode : NodeId
  bestMatchDeviceValueLen : Nat

/-- A node that the walk has reached, with `_update_best_if_valid`. -/
def BestMatch.reach (b : BestMatch) (t : RadixTree) (n : NodeId) : BestMatch :=
  let value := match (t.nodes n).value with
    | none => b.value
    | some v => b.value ++ [v]
  { value := value
    bestMatchNode :=
      if ¬ (t.nodes n).evicted ∨ (t.nodes n).backuped then n else b.bestMatchNode
    bestMatchDeviceNode := if (t.nodes n).evicted then b.bestMatchDeviceNode else n
    bestMatchDeviceValueLen :=
      if (t.nodes n).evicted then b.bestMatchDeviceValueLen else value.length }

def splitNode (child : NodeId) (k : Nat) : NodeId × UnifiedCache :=
  let (newNode, t) := splitTree hp.pageSize c.tree (c.tree.nodes child).key child k
  (newNode, c.withTree t)

def matchPrefixHelper (hp : HiParams) :
    Nat → UnifiedCache → NodeId → RadixKey → BestMatch → Except CacheError (BestMatch × UnifiedCache)
  | 0, _, _, _, _ => .error .diverged
  | fuel + 1, c, node, key, b =>
    if 0 < key.len then
      match c.tree.find node (key.childKey hp.pageSize) with
      | none => .ok (b, c)
      | some child =>
        if (c.tree.nodes child).evicted ∧ ¬ (c.tree.nodes child).backuped then .ok (b, c)
        else do
          let prefixLen ← (c.tree.nodes child).key.matchKey key hp.pageSize
          if prefixLen < (c.tree.nodes child).key.len then
            let (newNode, c) := c.splitNode hp child prefixLen
            .ok (b.reach c.tree newNode, c)
          else
            matchPrefixHelper hp fuel c child (key.slice prefixLen key.len) (b.reach c.tree child)
    else .ok (b, c)

/-- The climb to `last_host_node` in `_match_post_processor`. -/
def climbToBackup (t : RadixTree) : Nat → NodeId → Except CacheError NodeId
  | 0, _ => .error .diverged
  | fuel + 1, n =>
    if n ≠ t.rootNode ∧ ¬ (t.nodes n).backuped then
      match (t.nodes n).parent with
      | none => .error .missingValue
      | some q => climbToBackup t fuel q
    else .ok n

/-- `finalize_match_result` of the full-attention component: the host slots from `n` up to the
last node on the device. -/
def hostHit (t : RadixTree) (lastDeviceNode : NodeId) : Nat → NodeId → Nat → Except CacheError Nat
  | 0, _, _ => .error .diverged
  | fuel + 1, n, hit =>
    if n ≠ lastDeviceNode ∧ n ≠ t.rootNode then
      match (t.nodes n).parent with
      | none => .error .missingValue
      | some q => hostHit t lastDeviceNode fuel q (hit + ((t.nodes n).hostValue.getD []).length)
    else .ok hit

def matchPrefix : Except CacheError (MatchResult × UnifiedCache) :=
  let key := (key.toBigramView hp.isEagle).pageAligned hp.pageSize
  let root := c.tree.rootNode
  if key.len = 0 then .ok (⟨[], root, root, root, 0⟩, c)
  else do
    let (b, c) ← matchPrefixHelper hp (key.len + 1) c root key ⟨[], root, root, 0⟩
    let lastHostNode ← climbToBackup c.tree (c.tree.counter + 1) b.bestMatchNode
    let hit ← hostHit c.tree b.bestMatchDeviceNode (c.tree.counter + 1) lastHostNode 0
    .ok (⟨(b.value.take b.bestMatchDeviceValueLen).flatten, b.bestMatchDeviceNode, lastHostNode,
      b.bestMatchNode, hit⟩, c)

/-! ## `insert` -/

def unevictNodeOnInsert (freshValue : List Nat) : Except CacheError RadixTree :=
  if ¬ (t.nodes n).value = none then .error .assertion
  else
    let t := (t.modify n fun x => { x with value := some freshValue }).addEvictable
      freshValue.length
    let t := updateEvictableLeafSets t n
    match (t.nodes n).parent with
    | none => .ok t
    | some q => .ok (updateEvictableLeafSets t q)

/-- What `_insert_helper` does with the slots of a node: an evicted node takes them, otherwise
those behind `prevPrefixLen` are duplicates. -/
def placeValue (valueSlice : List Nat)
    (total prevPrefixLen : Nat) : Except CacheError UnifiedCache :=
  if (c.tree.nodes n).evicted then do
    let t ← unevictNodeOnInsert c.tree n valueSlice
    .ok ((c.withTree t).markHybridGeneratedNodeForDemotion hp n)
  else
    let dupStart := prevPrefixLen - total
    if dupStart < valueSlice.length then .ok (c.free (valueSlice.drop dupStart)) else .ok c

def insertLoop (hp : HiParams) (prevPrefixLen : Nat) (chunked : Bool) (pick : Nat → Nat → Nat) :
    Nat → UnifiedCache → NodeId → RadixKey → List Nat → Nat →
      Except CacheError (NodeId × RadixKey × List Nat × Nat × UnifiedCache)
  | 0, _, _, _, _, _ => .error .diverged
  | fuel + 1, c, node, key, value, total =>
    if 0 < key.len then
      match c.tree.find node (key.childKey hp.pageSize) with
      | none => .ok (node, key, value, total, c)
      | some child => do
        let prefixLen ← (c.tree.nodes child).key.matchKey key hp.pageSize
        let (n, c) :=
          if prefixLen < (c.tree.nodes child).key.len then c.splitNode hp child prefixLen
          else (child, c)
        let c ← c.placeValue hp n (value.take prefixLen) total prevPrefixLen
        let c ← c.incHitCount hp n chunked (pick fuel)
        insertLoop hp prevPrefixLen chunked pick fuel c n (key.slice prefixLen key.len)
          (value.drop prefixLen) (total + prefixLen)
    else .ok (node, key, value, total, c)

/-- The new leaf at the end of `_insert_helper`. -/
def insertLeaf (node : NodeId) (key : RadixKey)
    (value : List Nat) (chunked : Bool) (pick : Nat → Nat) : Except CacheError UnifiedCache :=
  let (newNode, t) := addNewNode hp.pageSize c.tree node key value
  ((c.withTree t).markHybridGeneratedNodeForDemotion hp newNode).incHitCount hp newNode chunked pick

/-- `insert`, with the length of the prefix that was in the tree before. -/
def insert (value : List Nat)
    (prevPrefixLen : Nat) (chunked : Bool) (pick : Nat → Nat → Nat) :
    Except CacheError (Nat × UnifiedCache) :=
  let value := key.bigramValue hp.isEagle value
  let key := (key.toBigramView hp.isEagle).pageAligned hp.pageSize
  let value := value.take key.len
  if key.len = 0 then .ok (0, c)
  else do
    let (node, key, value, total, c) ←
      insertLoop hp prevPrefixLen chunked pick (key.len + 1) c c.tree.rootNode key value 0
    if 0 < key.len then do
      let c ← c.insertLeaf hp node key value chunked (pick 0)
      .ok (total, c)
    else .ok (total, c)

/-! ## `load_back` -/

def loadBackThreshold : Nat := 256

/-- The eviction from the device in `load_back`: whether there is room for `kvTokens` slots. -/
def makeDeviceRoom (kvTokens : Nat) (pick : Nat → Nat → Nat) :
    Except CacheError (Bool × UnifiedCache) :=
  let avail := c.allocator.availableSize
  if avail < kvTokens then do
    let (evicted, c) ← c.evict hp (kvTokens - avail) pick
    .ok (kvTokens - avail ≤ evicted, c)
  else .ok (true, c)

def load (hostIndices : List Nat) (nodeId : NodeId) : Option (List Nat) × UnifiedCache :=
  match c.allocator.alloc hostIndices.length with
  | (none, a) => (none, { c with allocator := a })
  | (some v, a) =>
    (some v, { c with
      allocator := a
      loadQueue := c.loadQueue ++ [⟨hostIndices, v, nodeId, 0⟩] })

/-- `commit_hicache_transfer`: the loaded slots are handed out to the nodes. -/
def commitLoad : RadixTree → List NodeId → List Nat → RadixTree
  | t, [], _ => t
  | t, n :: ns, deviceIndices =>
    let k := (HiCache.hostValue t n).length
    let t := (t.modify n fun x => { x with value := some (deviceIndices.take k) }).addEvictable k
    commitLoad (updateEvictableLeafSets t n) ns (deviceIndices.drop k)

def recordHybridLoadBackNodes (rid : Option Nat) (nodesToLoad : List NodeId) : UnifiedCache :=
  match rid with
  | none => c
  | some rid =>
    if ¬ hp.isHybridWriteThrough ∨ nodesToLoad = [] then c
    else
      let nodes := (c.hybridLoadBackNodesByReqid.lookup rid).getD [] ++ nodesToLoad
      { c with hybridLoadBackNodesByReqid := c.hybridLoadBackNodesByReqid.insert rid nodes }

/-- The end of `load_back`: the nodes get the loaded slots, and the path is locked. -/
def finishLoadBack (node : NodeId) (rid : Option Nat)
    (nodes : List NodeId) (deviceIndices : List Nat) : Except CacheError UnifiedCache := do
  let t := updateEvictableLeafSets (commitLoad c.tree nodes deviceIndices) node
  let c := (c.withTree t).recordHybridLoadBackNodes hp rid nodes
  let (_, skip, c) ← c.incLockRef node
  .ok { c with ongoingLoadBack := (node, skip) :: c.ongoingLoadBack.filter (·.1 ≠ node) }

/-- `load_back`: whether the host slots of `node` and above have been loaded. -/
def loadBack (node : NodeId) (memQuota : Option Int)
    (rid : Option Nat) (pick : Nat → Nat → Nat) : Except CacheError (Bool × UnifiedCache) := do
  let (nodes, _) ← HiCache.nodesToLoad c.tree (c.tree.counter + 1) node []
  let hostIndices := (nodes.map (HiCache.hostValue c.tree)).flatten
  let (delta, skip, c) ← c.incLockRef node
  if hostIndices.length < loadBackThreshold ∨ ∃ q ∈ memQuota, q + delta < hostIndices.length then do
    let c ← c.decLockRef node skip
    .ok (false, c)
  else do
    let (enough, c) ← c.makeDeviceRoom hp hostIndices.length pick
    if !enough then do
      let c ← c.decLockRef node skip
      .ok (false, c)
    else do
      let (deviceIndices, c) := c.load hostIndices node
      let c ← c.decLockRef node skip
      match deviceIndices with
      | none => .ok (false, c)
      | some v => do
        let c ← c.finishLoadBack hp node rid nodes v
        .ok (true, c)

/-- The slots from `n` up to `lastNode`. -/
def collectNewPrefixIndices (t : RadixTree) (lastNode : NodeId) :
    Nat → NodeId → List Nat → Except CacheError (List Nat)
  | 0, _, _ => .error .diverged
  | fuel + 1, n, slots =>
    if n = lastNode then .ok slots
    else
      match (t.nodes n).value, (t.nodes n).parent with
      | none, _ => .error .assertion
      | some _, none => .error .missingValue
      | some v, some q => collectNewPrefixIndices t lastNode fuel q (v ++ slots)

/-- `init_load_back`: the loaded slots and the last node on the device, for a request whose last
node is `lastNode`. -/
def initLoadBack (bestMatchNode lastNode : NodeId)
    (hostHitLength : Nat) (memQuota : Option Int) (rid : Option Nat) (pick : Nat → Nat → Nat) :
    Except CacheError (List Nat × NodeId × UnifiedCache) :=
  if (c.tree.nodes bestMatchNode).evicted ∨ 0 < hostHitLength then do
    let (loaded, c) ← c.loadBack hp bestMatchNode memQuota rid pick
    if loaded then do
      let slots ← collectNewPrefixIndices c.tree lastNode (c.tree.counter + 1) bestMatchNode []
      if slots = [] then .ok ([], lastNode, c) else .ok (slots, bestMatchNode, c)
    else .ok ([], lastNode, c)
  else .ok ([], lastNode, c)

end UnifiedCache

end Fluxfer.Unified
