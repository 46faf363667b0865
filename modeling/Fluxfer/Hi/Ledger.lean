import Fluxfer.Lib.HashChain
import Fluxfer.Radix.Cache

/-!
# Page hashes, events and storage references

Page hashes (`mem_cache/utils.py`), KV events (`mem_cache/events.py`), and the references of the
storage backend. A page hash is modelled without collisions, as the pages that went into it. The
ledger also follows for which `extra_key` the KV data of each slot was computed.
-/

namespace Fluxfer.Hi

open Radix HashChain

/-! ## Hashes -/

/-- A SHA-256 of a page, chained with the pages `before` it. -/
structure PageHash where
  before : List (List KeyUnit)
  page : List KeyUnit
deriving DecidableEq

/-- `hash_page`, and `get_hash_str` of the units of a page. The extra key is not hashed. -/
def hashPage (prior : Option PageHash) (units : List KeyUnit) : PageHash :=
  match prior with
  | none => ⟨[], units⟩
  | some h => ⟨h.before ++ [h.page], units⟩

/-! ## Events -/

inductive Medium
  | gpu
  | cpu
deriving DecidableEq

inductive KvEvent
  | blockStored (blockHash : PageHash) (parentBlockHash : Option PageHash)
      (tokenIds : List KeyUnit) (medium : Medium)
  | blockRemoved (blockHash : PageHash) (medium : Medium)
  | allBlocksCleared
deriving DecidableEq

/-- The events of `_record_store_event`, one for each page. -/
def storedBlocks (ps : Nat) (medium : Medium) : Option PageHash → List PageHash → List KeyUnit →
    List KvEvent
  | _, [], _ => []
  | parent, h :: hs, units =>
    .blockStored h parent (units.take ps) medium ::
      storedBlocks ps medium (some h) hs (units.drop ps)

/-- The events of `_record_remove_event`. -/
def removedBlocks (medium : Medium) (hs : List PageHash) : List KvEvent :=
  hs.map fun h => .blockRemoved h medium

/-! ## The ledger -/

/-- A `StorageOperation` of the backup queue, with the origins of the data it stores. -/
structure BackupOp where
  id : Nat
  hashValue : List PageHash
  origin : List (Option String)
deriving DecidableEq

structure Ledger where
  enableKvCacheEvents : Bool
  enableStorage : Bool
  hashValue : NodeId → Option (List PageHash)
  hostRefCounter : NodeId → Nat
  kvEventQueue : List KvEvent
  backupQueue : List BackupOp
  /-- nodes by operation id -/
  ongoingBackup : List (Nat × NodeId)
  /-- `StorageOperation.counter` -/
  nextBackup : Nat
  /-- the extra keys for which the KV data in the device slots of a node was computed -/
  deviceOrigin : NodeId → List (Option String)
  hostOrigin : NodeId → List (Option String)

namespace Ledger

/-- `reset`, which reports that all blocks are cleared. -/
def init (enableKvCacheEvents enableStorage : Bool) : Ledger where
  enableKvCacheEvents := enableKvCacheEvents
  enableStorage := enableStorage
  hashValue := fun n => if n = 0 then some [] else none
  hostRefCounter := fun _ => 0
  kvEventQueue := if enableKvCacheEvents then [.allBlocksCleared] else []
  backupQueue := []
  ongoingBackup := []
  nextBackup := 0
  deviceOrigin := fun _ => []
  hostOrigin := fun _ => []

def setHash (l : Ledger) (n : NodeId) (hs : Option (List PageHash)) : Ledger :=
  { l with hashValue := fun m => if m = n then hs else l.hashValue m }

def getLastHashValue (l : Ledger) (n : NodeId) : Option PageHash :=
  (l.hashValue n).bind List.getLast?

/-- The hash that the first page of a node is chained with. -/
def parentHash (l : Ledger) (t : RadixTree) (n : NodeId) : Option PageHash :=
  match (t.nodes n).parent with
  | none => none
  | some q => if 0 < (t.nodes q).key.len then l.getLastHashValue q else none

def computeNodeHashValues (ps : Nat) (l : Ledger) (t : RadixTree) (n : NodeId) : List PageHash :=
  hashes hashPage ps (l.parentHash t n) (t.nodes n).key.units

def ensureHash (ps : Nat) (l : Ledger) (t : RadixTree) (n : NodeId) : Ledger :=
  if l.hashValue n = none then l.setHash n (some (l.computeNodeHashValues ps t n)) else l

/-- `parent_block_hash` of the first page of a node. -/
def parentBlockHash (l : Ledger) (t : RadixTree) (n : NodeId) : Option PageHash :=
  match (t.nodes n).parent with
  | none => none
  | some q => if q = t.rootNode then none else l.getLastHashValue q

def emit (l : Ledger) (events : List KvEvent) : Ledger :=
  { l with kvEventQueue := l.kvEventQueue ++ events }

def recordStoreEvent (ps : Nat) (l : Ledger) (t : RadixTree) (n : NodeId) (medium : Medium) :
    Ledger :=
  if l.enableKvCacheEvents then
    let l := l.ensureHash ps t n
    l.emit (storedBlocks ps medium (l.parentBlockHash t n) ((l.hashValue n).getD [])
      (t.nodes n).key.units)
  else l

def recordRemoveEvent (ps : Nat) (l : Ledger) (t : RadixTree) (n : NodeId) (medium : Medium) :
    Ledger :=
  if l.enableKvCacheEvents then
    let l := l.ensureHash ps t n
    l.emit (removedBlocks medium ((l.hashValue n).getD []))
  else l

/-- `split_node_hash_value`: the new node `new` takes the first `k` units of `child`. -/
def splitNode (ps : Nat) (l : Ledger) (new child : NodeId) (k : Nat) : Ledger :=
  { l with
    hashValue := fun n =>
      if n = new then (l.hashValue child).map (·.take (k / ps))
      else if n = child then (l.hashValue child).map (·.drop (k / ps))
      else l.hashValue n
    hostRefCounter := fun n => if n = new then 0 else l.hostRefCounter n
    deviceOrigin := fun n =>
      if n = new then (l.deviceOrigin child).take k
      else if n = child then (l.deviceOrigin child).drop k
      else l.deviceOrigin n
    hostOrigin := fun n =>
      if n = new then (l.hostOrigin child).take k
      else if n = child then (l.hostOrigin child).drop k
      else l.hostOrigin n }

/-- A new node, without hashes and references. -/
def newNode (l : Ledger) (new : NodeId) : Ledger :=
  { l with
    hashValue := fun n => if n = new then none else l.hashValue n
    hostRefCounter := fun n => if n = new then 0 else l.hostRefCounter n }

/-- The device slots of a node have data that was computed for a key of `extraKey`. -/
def compute (l : Ledger) (n : NodeId) (extraKey : Option String) (len : Nat) : Ledger :=
  { l with deviceOrigin := fun m =>
      if m = n then List.replicate len extraKey else l.deviceOrigin m }

/-- The data of a node is copied to its host slots. -/
def copyToHost (l : Ledger) (n : NodeId) : Ledger :=
  { l with hostOrigin := fun m => if m = n then l.deviceOrigin n else l.hostOrigin m }

/-- The data of a node is copied to its device slots. -/
def copyToDevice (l : Ledger) (n : NodeId) : Ledger :=
  { l with deviceOrigin := fun m => if m = n then l.hostOrigin n else l.deviceOrigin m }

/-- The end of `insert` for a new leaf of the tree `t`. -/
def insertLeaf (ps : Nat) (l : Ledger) (t : RadixTree) (new : NodeId) : Ledger :=
  let l := (l.newNode new).compute new (t.nodes new).key.extraKey (t.nodes new).key.len
  let l := if l.enableStorage ∨ l.enableKvCacheEvents then
      l.setHash new (some (l.computeNodeHashValues ps t new))
    else l
  l.recordStoreEvent ps t new .gpu

/-- The loaded nodes get their data and their events. -/
def loadNodes (ps : Nat) (l : Ledger) (t : RadixTree) : List NodeId → Ledger
  | [] => l
  | n :: ns => loadNodes ps ((l.copyToDevice n).recordStoreEvent ps t n .gpu) t ns

def protectHost (l : Ledger) (n : NodeId) : Ledger :=
  { l with hostRefCounter := fun m =>
      if m = n then l.hostRefCounter n + 1 else l.hostRefCounter m }

def writeBackupStorage (l : Ledger) (n : NodeId) : Ledger :=
  let l : Ledger := { l with
    backupQueue := l.backupQueue ++ [⟨l.nextBackup, (l.hashValue n).getD [], l.hostOrigin n⟩]
    ongoingBackup := l.ongoingBackup ++ [(l.nextBackup, n)]
    nextBackup := l.nextBackup + 1 }
  l.protectHost n

/-- A node on the host is backed up to the storage backend, if there is one. -/
def backupIfStorage (l : Ledger) (n : NodeId) : Ledger :=
  if l.enableStorage then l.writeBackupStorage n else l

/-- What an acknowledged write to the host leads to. -/
def ackWrite (ps : Nat) (l : Ledger) (t : RadixTree) (n : NodeId) : Ledger :=
  (l.recordStoreEvent ps t n .cpu).backupIfStorage n

/-! ## What the ledger reads of a tree -/

section Congr

variable {t t' : RadixTree} (hkey : ∀ n, (t'.nodes n).key = (t.nodes n).key)
  (hpar : ∀ n, t'.par n = t.par n)
include hkey hpar

theorem parentHash_congr (l : Ledger) (n : NodeId) : l.parentHash t' n = l.parentHash t n := by
  have hp : (t'.nodes n).parent = (t.nodes n).parent := hpar n
  unfold parentHash
  rw [hp]
  simp only [hkey]

theorem ensureHash_congr (ps : Nat) (l : Ledger) (n : NodeId) :
    l.ensureHash ps t' n = l.ensureHash ps t n := by
  unfold ensureHash computeNodeHashValues
  rw [parentHash_congr hkey hpar, hkey]

variable (hroot : t'.rootNode = t.rootNode)
include hroot

theorem recordStoreEvent_congr (ps : Nat) (l : Ledger) (n : NodeId) (m : Medium) :
    l.recordStoreEvent ps t' n m = l.recordStoreEvent ps t n m := by
  have hp : (t'.nodes n).parent = (t.nodes n).parent := hpar n
  unfold recordStoreEvent parentBlockHash
  rw [ensureHash_congr hkey hpar, hp, hkey, hroot]

theorem loadNodes_congr (ps : Nat) (ns : List NodeId) (l : Ledger) :
    l.loadNodes ps t' ns = l.loadNodes ps t ns := by
  induction ns generalizing l with
  | nil => rfl
  | cons n ns ih => rw [loadNodes, loadNodes, recordStoreEvent_congr hkey hpar hroot, ih]

end Congr

end Ledger

end Fluxfer.Hi
