import Fluxfer.Hi.Ledger

/-!
# `HiRadixCache`

The two-tier cache of `mem_cache/hiradix_cache.py`, with the queues of
`managers/cache_controller.py` and the host pool of `mem_cache/memory_pool_host.py`. How many
transfers have finished is a parameter, and heaps and sets are read in the order that `pick` says.
-/

namespace Fluxfer.Hi

open Radix Memory

inductive WritePolicy
  | writeBack
  | writeThrough
  | writeThroughSelective
deriving DecidableEq

inductive IoBackend
  | kernel
  | direct
  | hybrid
deriving DecidableEq

structure HiParams extends CacheParams where
  writePolicy : WritePolicy
  ioBackend : IoBackend

namespace HiParams

def writeThroughThreshold (hp : HiParams) : Nat := if hp.writePolicy = .writeThrough then 1 else 2

def loadBackThreshold : Nat := 10

def isHybridWriteThrough (hp : HiParams) : Bool :=
  hp.ioBackend == .hybrid && hp.writePolicy == .writeThrough

end HiParams

/-- `HostKVCache`, as far as slots are concerned. -/
structure HostPool where
  pageSize : Nat
  freeSlots : List Nat

namespace HostPool

def alloc (h : HostPool) (needSize : Nat) : Except CacheError (Option (List Nat) × HostPool) :=
  if needSize % h.pageSize ≠ 0 then .error .assertion
  else if h.freeSlots.length < needSize then .ok (none, h)
  else .ok (some (h.freeSlots.take needSize), { h with freeSlots := h.freeSlots.drop needSize })

def free (h : HostPool) (indices : List Nat) : HostPool :=
  { h with freeSlots := h.freeSlots ++ indices }

theorem alloc_cases {h : HostPool} {k : Nat} (hd : h.pageSize ∣ k) :
    h.alloc k = .ok (none, h) ∧ h.freeSlots.length < k ∨
      ∃ v h', h.alloc k = .ok (some v, h') ∧ v.length = k := by
  unfold alloc
  rw [if_neg (not_not.mpr (Nat.mod_eq_zero_of_dvd hd))]
  split_ifs with hlt
  · exact Or.inl ⟨rfl, hlt⟩
  · refine Or.inr ⟨_, _, rfl, ?_⟩
    rw [List.length_take]
    omega

theorem alloc_some {h h' : HostPool} {k : Nat} {v : List Nat}
    (ha : h.alloc k = .ok (some v, h')) : v ++ h'.freeSlots = h.freeSlots := by
  unfold alloc at ha
  split_ifs at ha
  · cases ha
  · cases ha
    exact List.take_append_drop _ _

theorem alloc_pageSize {h h' : HostPool} {k : Nat} {r : Option (List Nat)}
    (hr : h.alloc k = .ok (r, h')) : h'.pageSize = h.pageSize := by
  unfold alloc at hr
  split_ifs at hr
  · cases hr
    rfl
  · cases hr
    rfl

end HostPool

/-- A `CacheOperation` of the load queue. -/
structure LoadOp where
  hostIndices : List Nat
  deviceIndices : List Nat
  nodeId : NodeId
  h2dPreloadPages : Nat

structure HiCache extends RadixCache where
  hostPool : HostPool
  ongoingWriteThrough : List NodeId
  ackWriteQueue : List (List NodeId)
  ongoingLoadBack : List NodeId
  loadQueue : List LoadOp
  ackLoadQueue : List (List NodeId)
  hybridPendingDeviceDemotions : ListSet NodeId
  hybridWriteDemoteNodeIds : ListSet NodeId
  /-- lists of nodes by request id -/
  hybridLoadBackNodesByReqid : AList (fun _ : Nat => List NodeId)
  ledger : Ledger

/-- A list in the order that `pick` says. -/
def shuffle {α : Type} (pick : Nat → Nat) : Nat → List α → List α
  | 0, _ => []
  | fuel + 1, l =>
    match l[pick fuel % l.length]? with
    | none => []
    | some x => x :: shuffle pick fuel (l.eraseIdx (pick fuel % l.length))

namespace HiCache

def initWith (l : Ledger) (a : Allocator) (h : HostPool) : HiCache where
  tree := RadixTree.init
  allocator := a
  hostPool := h
  ongoingWriteThrough := []
  ackWriteQueue := []
  ongoingLoadBack := []
  loadQueue := []
  ackLoadQueue := []
  hybridPendingDeviceDemotions := .empty
  hybridWriteDemoteNodeIds := .empty
  hybridLoadBackNodesByReqid := ∅
  ledger := l

/-- A cache without KV events and without storage backend. -/
def init (a : Allocator) (h : HostPool) : HiCache := initWith (.init false false) a h

variable (hp : HiParams) (c : HiCache)

variable (t : RadixTree) (n : NodeId) (deviceIndices : List Nat) (pick : Nat → Nat)

def withTree : HiCache := { c with tree := t }

def recordStoreEvent (hp : HiParams) (c : HiCache) (n : NodeId) (medium : Medium) : HiCache :=
  { c with ledger := c.ledger.recordStoreEvent hp.pageSize c.tree n medium }

def recordRemoveEvent (hp : HiParams) (c : HiCache) (n : NodeId) (medium : Medium) : HiCache :=
  { c with ledger := c.ledger.recordRemoveEvent hp.pageSize c.tree n medium }

def splitNode (hp : HiParams) (c : HiCache) (child : NodeId) (k : Nat) : NodeId × HiCache :=
  let (newNode, t) := c.tree.hiSplitNode hp.pageSize (c.tree.nodes child).key child k
  (newNode, { c with tree := t, ledger := c.ledger.splitNode hp.pageSize newNode child k })

/-- `inc_lock_ref`, with the returned `delta`. -/
def incLockRef : Except CacheError (Int × HiCache) := do
  let (d, t) ← RadixTree.walkUp RadixTree.hiIncLockNode (c.tree.counter + 1) c.tree n 0
  .ok (d, c.withTree t)

/-- `dec_lock_ref`, with the returned `delta`. -/
def decLockRef : Except CacheError (Int × HiCache) := do
  let (d, t) ← RadixTree.walkUp RadixTree.hiDecLockNode (c.tree.counter + 1) c.tree n 0
  .ok (d, c.withTree t)

/-! ## Eviction from the host -/

/-- The removal of `x` in `evict_host`, with the number of slots it frees and its parent. -/
def dropHost (x : NodeId) : Except CacheError (Nat × NodeId × HiCache) := do
  let c := c.recordRemoveEvent hp x .cpu
  let some v := (c.tree.nodes x).hostValue | .error .missingValue
  let (q, t) ← c.tree.popChild hp.pageSize x
  let t := { t with evictableHostLeaves := t.evictableHostLeaves.erase x }
  .ok (v.length, q, { c with tree := t.updateHostLeafStatus q, hostPool := c.hostPool.free v })

def evictHostLoop (hp : HiParams) (numTokens : Nat) (pick : Nat → Nat) :
    Nat → HiCache → List NodeId → Nat → Except CacheError HiCache
  | 0, _, _, _ => .error .diverged
  | fuel + 1, c, heap, numEvicted =>
    if numEvicted < numTokens ∧ heap ≠ [] then
      let i := pick fuel % heap.length
      let x := heap.getD i 0
      let heap := heap.eraseIdx i
      if x = c.tree.rootNode then .ok c
      else if ¬ (c.tree.nodes x).evicted then evictHostLoop hp numTokens pick fuel c heap numEvicted
      else if 0 < c.ledger.hostRefCounter x then
        evictHostLoop hp numTokens pick fuel c heap numEvicted
      else do
        let (n, q, c) ← c.dropHost hp x
        let heap := if (c.tree.nodes q).childList = [] ∧ (c.tree.nodes q).evicted then heap ++ [q]
          else heap
        evictHostLoop hp numTokens pick fuel c heap (numEvicted + n)
    else .ok c

def evictHost (numTokens : Nat) (pick : Nat → Nat) : Except CacheError HiCache :=
  evictHostLoop hp numTokens pick (2 * c.tree.counter + 1) c c.tree.evictableHostLeaves.elems 0

/-! ## Writing to the host -/

/-- `cache_controller.write`, which starts the transfer at once. -/
def write (nodeId : NodeId) : Except CacheError (Option (List Nat) × HiCache) := do
  match ← c.hostPool.alloc deviceIndices.length with
  | (none, h) => .ok (none, { c with hostPool := h })
  | (some v, h) =>
    .ok (some v, { c with hostPool := h, ackWriteQueue := c.ackWriteQueue ++ [[nodeId]] })

/-- The write of `write_backup`, with a second attempt after an eviction from the host. -/
def writeOrEvict (nodeId : NodeId)
    (pick : Nat → Nat) : Except CacheError (Option (List Nat) × HiCache) := do
  match ← c.write deviceIndices nodeId with
  | (some v, c) => .ok (some v, c)
  | (none, c) => do
    let c ← c.evictHost hp deviceIndices.length pick
    c.write deviceIndices nodeId

/-- The part of `write_backup` that records a write. A write-back takes no lock. -/
def recordWrite (hostIndices : List Nat) (writeBack : Bool) : Except CacheError HiCache := do
  let demote := hp.isHybridWriteThrough && (c.tree.nodes n).hicacheDemoteAfterWrite
  let t := c.tree.modify n fun x =>
    { x with
      hostValue := some hostIndices
      hicacheDemoteAfterWrite := if demote then false else x.hicacheDemoteAfterWrite }
  if hostIndices.length = 0 then .error .assertion
  let c := { c with
    tree := t
    ongoingWriteThrough := c.ongoingWriteThrough.insert n
    hybridWriteDemoteNodeIds :=
      if demote then c.hybridWriteDemoteNodeIds.insert n else c.hybridWriteDemoteNodeIds
    ledger := c.ledger.copyToHost n }
  if writeBack then .ok c
  else do
    let (_, c) ← c.incLockRef n
    .ok c

/-- `write_backup`, with the number of slots that are written. -/
def writeBackup (writeBack : Bool) (pick : Nat → Nat) : Except CacheError (Nat × HiCache) := do
  let some q := (c.tree.nodes n).parent | .error .missingValue
  if !writeBack ∧ q ≠ c.tree.rootNode ∧ ¬ (c.tree.nodes q).backuped then .ok (0, c)
  else do
    let some v := (c.tree.nodes n).value | .error .missingValue
    match ← c.writeOrEvict hp v n pick with
    | (none, c) => .ok (0, c)
    | (some h, c) => do
      let c ← c.recordWrite hp n h writeBack
      .ok (h.length, c)

def incHitCount (chunked : Bool) (pick : Nat → Nat) : Except CacheError HiCache :=
  if hp.writePolicy = .writeBack ∨ chunked then .ok c
  else
    let c := c.withTree (c.tree.modify n fun x => { x with hitCount := x.hitCount + 1 })
    if ¬ (c.tree.nodes n).backuped ∧ hp.writeThroughThreshold ≤ (c.tree.nodes n).hitCount then do
      let (_, c) ← c.writeBackup hp n false pick
      .ok c
    else .ok c

/-! ## Eviction from the device -/

def evictBackuped : Except CacheError (Nat × HiCache) := do
  let c := c.recordRemoveEvent hp n .gpu
  let some v := (c.tree.nodes n).value | .error .missingValue
  let some q := (c.tree.nodes n).parent | .error .missingValue
  if v.length = 0 then .error .assertion
  let t := (c.tree.addEvictable (-v.length)).modify n fun x => { x with value := none }
  let t := ((t.updateLeafStatus n).updateHostLeafStatus n).updateLeafStatus q
  .ok (v.length, { c with tree := t, allocator := c.allocator.free v })

def evictRegular : Except CacheError (Nat × HiCache) := do
  if (c.tree.nodes n).childList ≠ [] then .error .assertion
  let c := c.recordRemoveEvent hp n .gpu
  let some v := (c.tree.nodes n).value | .error .missingValue
  let t ← c.tree.deleteLeaf hp.pageSize n
  .ok (v.length, { c with tree := t, allocator := c.allocator.free v })

def tryHybridDemoteDeviceNode : Except CacheError (Bool × HiCache) :=
  if ¬ hp.isHybridWriteThrough then .ok (false, c)
  else if n = c.tree.rootNode ∨ (c.tree.nodes n).evicted ∨ ¬ (c.tree.nodes n).backuped then
    .ok (false, c)
  else if 0 < (c.tree.nodes n).lockRef then
    .ok (false, { c with
      hybridPendingDeviceDemotions := c.hybridPendingDeviceDemotions.insert n })
  else
    let c := { c with hybridPendingDeviceDemotions := c.hybridPendingDeviceDemotions.erase n }
    if ∃ x ∈ (c.tree.nodes n).childList, ¬ (c.tree.nodes x).evicted then .ok (false, c)
    else do
      let (_, c) ← c.evictBackuped hp n
      .ok (true, c)

/-- `_try_hybrid_demote_device_node` for each of some nodes. -/
def demoteAll (hp : HiParams) : HiCache → List NodeId → Except CacheError HiCache
  | c, [] => .ok c
  | c, n :: ns => do
    let (_, c) ← c.tryHybridDemoteDeviceNode hp n
    demoteAll hp c ns

def drainHybridPendingDemotions : Except CacheError HiCache :=
  if ¬ hp.isHybridWriteThrough then .ok { c with hybridPendingDeviceDemotions := .empty }
  else
    let nodes := c.hybridPendingDeviceDemotions.elems
    demoteAll hp c (shuffle pick nodes.length nodes)

/-! ## Acknowledgements -/

/-- One acknowledged write. With `writeBack` no lock is released. -/
def ackWrite (writeBack : Bool) (c : HiCache) (n : NodeId) : Except CacheError HiCache := do
  if n ∉ c.ongoingWriteThrough then .error .missingKey
  let c := { c with ongoingWriteThrough := c.ongoingWriteThrough.erase n }
  let c := c.recordStoreEvent hp n .cpu
  let c ← if writeBack then .ok c else (·.2) <$> c.decLockRef n
  let c := { c with ledger := c.ledger.backupIfStorage n }
  if n ∈ c.hybridWriteDemoteNodeIds then do
    let c := { c with hybridWriteDemoteNodeIds := c.hybridWriteDemoteNodeIds.erase n }
    let (_, c) ← c.tryHybridDemoteDeviceNode hp n
    .ok c
  else .ok c

def ackWrites (hp : HiParams) (writeBack : Bool) : HiCache → List NodeId → Except CacheError HiCache
  | c, [] => .ok c
  | c, n :: ns => do
    let c ← c.ackWrite hp writeBack n
    ackWrites hp writeBack c ns

/-- `writing_check`, when the first `finished` transfers of the queue have finished. -/
def writingCheck (finished : Nat) : Except CacheError HiCache :=
  if c.ongoingWriteThrough = [] then .ok c
  else
    ackWrites hp false { c with ackWriteQueue := c.ackWriteQueue.drop finished }
      (c.ackWriteQueue.take finished).flatten

/-- `writing_check(write_back=True)`, which waits for all transfers of the queue. -/
def writingCheckBlocking : Except CacheError HiCache :=
  if c.ongoingWriteThrough = [] then .ok c
  else do
    -- the processing of the entries does not read the queue
    let c ← ackWrites hp true { c with ackWriteQueue := [] } c.ackWriteQueue.flatten
    if c.ongoingWriteThrough ≠ [] then .error .assertion
    .ok c

def ackLoad : Except CacheError HiCache := do
  if n ∉ c.ongoingLoadBack then .error .missingKey
  let c := { c with ongoingLoadBack := c.ongoingLoadBack.erase n }
  let (_, c) ← c.decLockRef n
  c.drainHybridPendingDemotions hp pick

def ackLoads (hp : HiParams) (pick : Nat → Nat → Nat) :
    HiCache → List NodeId → Except CacheError HiCache
  | c, [] => .ok c
  | c, n :: ns => do
    let c ← c.ackLoad hp n (pick ns.length)
    ackLoads hp pick c ns

/-- `_drain_load_back_acks`, when the first `finished` transfers of the queue have finished. -/
def drainLoadBackAcks (finished : Nat) (pick : Nat → Nat → Nat) : Except CacheError HiCache :=
  ackLoads hp pick { c with ackLoadQueue := c.ackLoadQueue.drop finished }
    (c.ackLoadQueue.take finished).flatten

/-- `start_loading`, as far as the queues are concerned. -/
def startLoading : HiCache :=
  if c.loadQueue = [] then c
  else { c with
    loadQueue := []
    ackLoadQueue := c.ackLoadQueue ++ [c.loadQueue.map LoadOp.nodeId] }

/-- The writes in `flush_hicache_events_on_idle`. -/
def flushWrites (finished : Nat) : Except CacheError HiCache :=
  if c.ongoingWriteThrough ≠ [] ∧ c.ackWriteQueue ≠ [] then c.writingCheckBlocking hp
  else c.writingCheck hp finished

def flushHicacheEventsOnIdle (finished : Nat)
    (pick : Nat → Nat → Nat) : Except CacheError HiCache := do
  let c ← c.flushWrites hp finished
  let c ← c.drainLoadBackAcks hp c.ackLoadQueue.length pick
  c.drainHybridPendingDemotions hp (pick 0)

/-! ## Demotion of loaded nodes -/

/-- The loop of `_select_hybrid_load_back_tail_nodes`. -/
def tailNodes (ps keepPages : Nat) (t : RadixTree) : Nat → List NodeId → List NodeId
  | _, [] => []
  | pageOffset, n :: ns =>
    let rest := tailNodes ps keepPages t (pageOffset + (t.deviceValue n).length / ps) ns
    if keepPages ≤ pageOffset then n :: rest else rest

def selectHybridLoadBackTailNodes (nodes : List NodeId) : List NodeId :=
  let totalPages := (nodes.map fun n => (c.tree.deviceValue n).length / hp.pageSize).sum
  tailNodes hp.pageSize ((totalPages + 1) / 2) c.tree 0 nodes

def recordHybridLoadBackNodes (rid : Option Nat) (nodesToLoad : List NodeId) : HiCache :=
  match rid with
  | none => c
  | some rid =>
    if ¬ hp.isHybridWriteThrough ∨ nodesToLoad = [] then c
    else
      let nodes := (c.hybridLoadBackNodesByReqid.lookup rid).getD [] ++ nodesToLoad
      { c with hybridLoadBackNodesByReqid := c.hybridLoadBackNodesByReqid.insert rid nodes }

/-- The removal of a request's nodes, as in `release_aborted_request`. -/
def forgetHybridLoadBackNodes (rid : Nat) : HiCache :=
  { c with hybridLoadBackNodesByReqid := c.hybridLoadBackNodesByReqid.erase rid }

/-- The first occurrences of the nodes that are not evicted. -/
def orderedNodes (nodes : List NodeId) : List NodeId :=
  nodes.foldl (fun seen n => if n ∉ seen ∧ ¬ (t.nodes n).evicted then seen ++ [n] else seen) []

def demoteHybridLoadBackTailForReq (rid : Nat) : Except CacheError HiCache :=
  let nodes := orderedNodes c.tree ((c.hybridLoadBackNodesByReqid.lookup rid).getD [])
  demoteAll hp (c.forgetHybridLoadBackNodes rid) (c.selectHybridLoadBackTailNodes hp nodes)

def markHybridGeneratedNodeForDemotion : HiCache :=
  if ¬ hp.isHybridWriteThrough then c
  else if (c.tree.nodes n).backuped then
    { c with hybridPendingDeviceDemotions := c.hybridPendingDeviceDemotions.insert n }
  else c.withTree (c.tree.modify n fun x => { x with hicacheDemoteAfterWrite := true })

/-! ## `match_prefix` and `insert` -/

/-- `MatchResult`: `last_host_node` is also `best_match_node`. -/
structure HiMatchResult where
  deviceIndices : List Nat
  lastDeviceNode : NodeId
  lastHostNode : NodeId
  hostHitLength : Nat

/-- The hit count of a node that `_match_prefix_helper` reaches, when it is on the device. -/
def hitOnDevice : Except CacheError HiCache :=
  if (c.tree.nodes n).evicted then .ok c else c.incHitCount hp n false pick

def matchPrefixHelper (hp : HiParams) (pick : Nat → Nat → Nat) :
    Nat → HiCache → NodeId → RadixKey → List Nat →
      Except CacheError (List Nat × NodeId × HiCache)
  | 0, _, _, _, _ => .error .diverged
  | fuel + 1, c, node, key, value =>
    if 0 < key.len then
      match c.tree.find node (key.childKey hp.pageSize) with
      | none => .ok (value, node, c)
      | some child => do
        let prefixLen ← (c.tree.nodes child).key.matchKey key hp.pageSize
        if prefixLen < (c.tree.nodes child).key.len then do
          let (newNode, c) := c.splitNode hp child prefixLen
          let value := value ++ c.tree.deviceValue newNode
          let c ← c.hitOnDevice hp newNode (pick fuel)
          .ok (value, newNode, c)
        else do
          let value := value ++ c.tree.deviceValue child
          let c ← c.hitOnDevice hp child (pick fuel)
          matchPrefixHelper hp pick fuel c child (key.slice prefixLen key.len) value
    else .ok (value, node, c)

/-- The climb to a node on the device, with the host slots that are passed. -/
def climbToDevice (t : RadixTree) : Nat → NodeId → Nat → Except CacheError (NodeId × Nat)
  | 0, _, _ => .error .diverged
  | fuel + 1, n, hostHit =>
    if (t.nodes n).evicted then
      match (t.nodes n).parent, (t.nodes n).hostValue with
      | some q, some v => climbToDevice t fuel q (hostHit + v.length)
      | _, _ => .error .missingValue
    else .ok (n, hostHit)

/-- The climb to a node with a backup. -/
def climbToBackup (t : RadixTree) : Nat → NodeId → Except CacheError NodeId
  | 0, _ => .error .diverged
  | fuel + 1, n =>
    if (t.nodes n).backuped then .ok n
    else
      match (t.nodes n).parent with
      | some q => climbToBackup t fuel q
      | none => .error .missingValue

def matchPrefix (key : RadixKey) (pick : Nat → Nat → Nat) :
    Except CacheError (HiMatchResult × HiCache) :=
  let key := (key.toBigramView hp.isEagle).pageAligned hp.pageSize
  if key.len = 0 then .ok (⟨[], c.tree.rootNode, c.tree.rootNode, 0⟩, c)
  else do
    let (value, lastNode, c) ← matchPrefixHelper hp pick (key.len + 1) c c.tree.rootNode key []
    let (lastDeviceNode, hostHitLength) ← climbToDevice c.tree (c.tree.counter + 1) lastNode 0
    let lastHostNode ← climbToBackup c.tree (c.tree.counter + 1) lastNode
    .ok (⟨value, lastDeviceNode, lastHostNode, hostHitLength⟩, c)

/-- The update of a node that is off the device, in `insert`. -/
def materialize (value : List Nat) : Except CacheError RadixTree :=
  match (t.nodes n).parent with
  | none => .error .missingValue
  | some q =>
    let t := (t.modify n fun x => { x with value := some value }).addEvictable value.length
    .ok (((t.updateLeafStatus n).updateHostLeafStatus n).updateLeafStatus q)

/-- What `insert` does at a node whose key is a prefix of the rest of the key, with what it adds
to `total_prefix_length`. The slots of a node off the device are filled for `extraKey`. -/
def visitNode (extraKey : Option String)
    (value : List Nat) (prefixLen : Nat) (chunked : Bool) (pick : Nat → Nat) :
    Except CacheError (Nat × HiCache) :=
  if (c.tree.nodes n).evicted then do
    let t ← materialize c.tree n (value.take prefixLen)
    let c := { c with tree := t, ledger := c.ledger.compute n extraKey prefixLen }
    let c := c.markHybridGeneratedNodeForDemotion hp n
    let c ← if hp.writePolicy ≠ .writeBack then c.incHitCount hp n chunked pick else .ok c
    .ok (0, c)
  else do
    let c ← c.incHitCount hp n chunked pick
    .ok (prefixLen, c)

def insertLoop (hp : HiParams) (chunked : Bool) (pick : Nat → Nat → Nat) :
    Nat → HiCache → NodeId → RadixKey → List Nat → Nat →
      Except CacheError (NodeId × RadixKey × List Nat × Nat × HiCache)
  | 0, _, _, _, _, _ => .error .diverged
  | fuel + 1, c, node, key, value, total =>
    if 0 < key.len then
      match c.tree.find node (key.childKey hp.pageSize) with
      | none => .ok (node, key, value, total, c)
      | some child => do
        let prefixLen ← (c.tree.nodes child).key.matchKey key hp.pageSize
        let (n, c) :=
          if prefixLen = (c.tree.nodes child).key.len then (child, c)
          else c.splitNode hp child prefixLen
        let (k, c) ← c.visitNode hp n key.extraKey value prefixLen chunked (pick fuel)
        insertLoop hp chunked pick fuel c n (key.slice prefixLen key.len) (value.drop prefixLen)
          (total + k)
    else .ok (node, key, value, total, c)

/-- The new leaf at the end of `insert`. -/
def insertLeaf (hp : HiParams) (c : HiCache) (node : NodeId) (key : RadixKey) (value : List Nat)
    (chunked : Bool) (pick : Nat → Nat) : Except CacheError HiCache :=
  let (newNode, t) := c.tree.addLeaf hp.pageSize node key value value.length
  let c := { c with tree := t, ledger := c.ledger.insertLeaf hp.pageSize t newNode }
  if hp.writePolicy ≠ .writeBack then
    (c.markHybridGeneratedNodeForDemotion hp newNode).incHitCount hp newNode chunked pick
  else .ok c

/-- `insert`, with the length of the prefix that was on the device before. -/
def insert (key : RadixKey) (value : List Nat) (chunked : Bool)
    (pick : Nat → Nat → Nat) : Except CacheError (Nat × HiCache) :=
  let value := key.bigramValue hp.isEagle value
  let key := (key.toBigramView hp.isEagle).pageAligned hp.pageSize
  let value := value.take key.len
  if key.len = 0 then .ok (0, c)
  else do
    let (node, key, value, total, c) ←
      insertLoop hp chunked pick (key.len + 1) c c.tree.rootNode key value 0
    if 0 < key.len then do
      let c ← c.insertLeaf hp node key value chunked (pick 0)
      .ok (total, c)
    else .ok (total, c)

/-! ## `evict` -/

/-- What `evict` does with a node from its heap: the tokens it counts, and whether the node is
written back. -/
def evictNode (x : NodeId) (pick : Nat → Nat) : Except CacheError (Nat × Bool × HiCache) :=
  if ¬ (c.tree.nodes x).backuped then
    if hp.writePolicy = .writeBack then do
      let (written, c) ← c.writeBackup hp x true pick
      .ok (written, 0 < written, c)
    else do
      let (n, c) ← c.evictRegular hp x
      .ok (n, false, c)
  else do
    let (n, c) ← c.evictBackuped hp x
    .ok (n, false, c)

/-- The parent of `x` joins the heap when all its children are evicted or written back, unless
in hybrid write-through mode. -/
def pushParent (writeBackNodes heap : List NodeId) (x : NodeId) : Except CacheError (List NodeId) :=
  if hp.isHybridWriteThrough then .ok heap
  else
    match (t.nodes x).parent with
    | none => .error .missingValue
    | some q =>
      if ∀ y ∈ (t.nodes q).childList, y ∈ writeBackNodes ∨ (t.nodes y).evicted then
        .ok (heap ++ [q])
      else .ok heap

/-- The loop of `evict`. In hybrid write-through mode an empty heap is filled again, once
something has been evicted since it was built. -/
def evictLoop (hp : HiParams) (numTokens : Nat) (pick : Nat → Nat → Nat) :
    Nat → HiCache → List NodeId → Nat → Nat → List NodeId →
      Except CacheError (Nat × List NodeId × HiCache)
  | 0, _, _, _, _, _ => .error .diverged
  | fuel + 1, c, heap, built, numEvicted, writeBackNodes =>
    let refill := heap = [] ∧ hp.isHybridWriteThrough ∧ numEvicted ≠ built
    let built := if refill then numEvicted else built
    let heap := if refill then c.tree.evictableLeaves.elems else heap
    if numEvicted < numTokens ∧ heap ≠ [] then
      let i := pick fuel 0 % heap.length
      let x := heap.getD i 0
      let heap := heap.eraseIdx i
      if 0 < (c.tree.nodes x).lockRef ∨ (c.tree.nodes x).evicted then
        evictLoop hp numTokens pick fuel (c.withTree (c.tree.updateLeafStatus x)) heap built
          numEvicted writeBackNodes
      else do
        let (n, back, c) ← c.evictNode hp x (pick fuel)
        let writeBackNodes := if back then writeBackNodes ++ [x] else writeBackNodes
        let heap ← pushParent hp c.tree writeBackNodes heap x
        evictLoop hp numTokens pick fuel c heap built (numEvicted + n) writeBackNodes
    else .ok (numEvicted, writeBackNodes, c)

/-- The nodes that were written back leave the device. -/
def evictWritten (hp : HiParams) : HiCache → List NodeId → Except CacheError HiCache
  | c, [] => .ok c
  | c, n :: ns => do
    if ¬ (c.tree.nodes n).backuped then .error .assertion
    let (_, c) ← c.evictBackuped hp n
    evictWritten hp c ns

def evict (numTokens : Nat) (pick : Nat → Nat → Nat) : Except CacheError (Nat × HiCache) := do
  let (numEvicted, writeBackNodes, c) ← evictLoop hp numTokens pick
    (2 * c.tree.counter + 1) c c.tree.evictableLeaves.elems 0 0 []
  if hp.writePolicy = .writeBack then do
    let c ← c.writingCheckBlocking hp
    let c ← evictWritten hp c writeBackNodes
    .ok (numEvicted, c)
  else .ok (numEvicted, c)

/-! ## `load_back` -/

/-- The evicted nodes from `n` up, in the order from the top, and the node above them. -/
def nodesToLoad (t : RadixTree) : Nat → NodeId → List NodeId →
    Except CacheError (List NodeId × NodeId)
  | 0, _, _ => .error .diverged
  | fuel + 1, n, nodes =>
    if (t.nodes n).evicted then
      if ¬ (t.nodes n).backuped then .error .assertion
      else
        match (t.nodes n).parent with
        | none => .error .missingValue
        | some q => nodesToLoad t fuel q (n :: nodes)
    else .ok (nodes, n)

def load (hostIndices : List Nat) (nodeId : NodeId) : Option (List Nat) × HiCache :=
  match c.allocator.alloc hostIndices.length with
  | (none, a) => (none, { c with allocator := a })
  | (some v, a) =>
    (some v, { c with
      allocator := a
      loadQueue := c.loadQueue ++ [⟨hostIndices, v, nodeId, 0⟩] })

/-- The load of `load_back`, with a second attempt after an eviction. -/
def loadOrEvict (hostIndices : List Nat) (nodeId : NodeId)
    (pick : Nat → Nat → Nat) : Except CacheError (Option (List Nat) × HiCache) :=
  match c.load hostIndices nodeId with
  | (some v, c) => .ok (some v, c)
  | (none, c) => do
    let (_, c) ← c.evict hp hostIndices.length pick
    .ok (c.load hostIndices nodeId)

def hostValue (t : RadixTree) (n : NodeId) : List Nat := (t.nodes n).hostValue.getD []

/-- The loaded slots are handed out to the nodes. -/
def setValues : RadixTree → List NodeId → List Nat → RadixTree
  | t, [], _ => t
  | t, n :: ns, deviceIndices =>
    let k := (hostValue t n).length
    setValues (t.modify n fun x => { x with value := some (deviceIndices.take k) }) ns
      (deviceIndices.drop k)

/-- The end of `load_back`: the nodes get the loaded slots, and the path is locked. -/
def finishLoadBack (node : NodeId) (rid : Option Nat)
    (nodes : List NodeId) (deviceIndices : List Nat) : Except CacheError HiCache := do
  let c := { c with ongoingLoadBack := c.ongoingLoadBack.insert node }
  let c := c.recordHybridLoadBackNodes hp rid nodes
  let t := setValues c.tree nodes deviceIndices
  let c := { c with
    tree := t.addEvictable deviceIndices.length
    ledger := c.ledger.loadNodes hp.pageSize t nodes }
  let (_, c) ← c.incLockRef node
  .ok c

/-- `load_back`. With `memQuota` no more than that may be loaded; `rid` is the request. -/
def loadBack (node : NodeId) (memQuota : Option Int)
    (rid : Option Nat) (pick : Nat → Nat → Nat) :
    Except CacheError (Option (List Nat) × HiCache) := do
  let (nodes, ancestor) ← nodesToLoad c.tree (c.tree.counter + 1) node []
  let (delta, c) ← c.incLockRef ancestor
  -- `torch.cat` needs at least one tensor
  if nodes = [] then .error .missingValue
  let hostIndices := (nodes.map (hostValue c.tree)).flatten
  if hostIndices.length < HiParams.loadBackThreshold ∨
      ∃ q ∈ memQuota, q + delta < hostIndices.length then do
    let (_, c) ← c.decLockRef ancestor
    .ok (none, c)
  else do
    let (deviceIndices, c) ← c.loadOrEvict hp hostIndices node pick
    let (_, c) ← c.decLockRef ancestor
    match deviceIndices with
    | none => .ok (none, c)
    | some v => do
      let c ← c.finishLoadBack hp node rid nodes v
      .ok (some v, c)

/-- `init_load_back`: the loaded slots and the last node on the device. -/
def initLoadBack (bestMatchNode : NodeId) (memQuota : Option Int)
    (rid : Option Nat) (pick : Nat → Nat → Nat) :
    Except CacheError (List Nat × NodeId × HiCache) :=
  if (c.tree.nodes bestMatchNode).evicted then do
    match ← c.loadBack hp bestMatchNode memQuota rid pick with
    | (some v, c) => .ok (v, bestMatchNode, c)
    | (none, c) => do
      let (n, _) ← climbToDevice c.tree (c.tree.counter + 1) bestMatchNode 0
      .ok ([], n, c)
  else .ok ([], bestMatchNode, c)

end HiCache

end Fluxfer.Hi
