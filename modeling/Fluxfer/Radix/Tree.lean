import Fluxfer.Lib.ListSet
import Fluxfer.Radix.Key
import Mathlib.Data.List.AList

/-!
# The heap of tree nodes

`TreeNode` and the tree state of `RadixCache` and `HiRadixCache`. Node objects are cells of a heap,
addressed by their `id`, so that a split or an eviction changes the cells that the source mutates
and no others.
-/

namespace Fluxfer.Radix

abbrev NodeId := Nat

/-- `page_size` and `is_eagle` of a cache. -/
structure CacheParams where
  pageSize : Nat
  pageSize_pos : 0 < pageSize
  isEagle : Bool

/-- A `TreeNode`. Time stamps and priorities are left out: they only order evictions. -/
structure TreeNode where
  children : AList (fun _ : ChildKey => NodeId)
  parent : Option NodeId
  key : RadixKey
  /-- `value`: the device slots -/
  value : Option (List Nat)
  lockRef : Int
  hitCount : Nat
  /-- `host_value`: the host slots -/
  hostValue : Option (List Nat)
  hicacheDemoteAfterWrite : Bool

namespace TreeNode

def new : TreeNode where
  children := ∅
  parent := none
  key := ⟨[], none, false⟩
  value := none
  lockRef := 0
  hitCount := 0
  hostValue := none
  hicacheDemoteAfterWrite := false

def evicted (x : TreeNode) : Bool := x.value.isNone

def backuped (x : TreeNode) : Bool := x.hostValue.isSome

def childList (x : TreeNode) : List NodeId := x.children.entries.map fun e => e.2

end TreeNode

structure RadixTree where
  nodes : NodeId → TreeNode
  /-- `TreeNode.counter` -/
  counter : Nat
  rootNode : NodeId
  evictableSize : Int
  protectedSize : Int
  evictableLeaves : ListSet NodeId
  /-- only `HiRadixCache` uses this set -/
  evictableHostLeaves : ListSet NodeId

namespace RadixTree

/-- `reset`, for the first tree of a process. -/
def init : RadixTree where
  nodes n :=
    if n = 0 then { TreeNode.new with value := some [], hostValue := some [], lockRef := 1 }
    else TreeNode.new
  counter := 1
  rootNode := 0
  evictableSize := 0
  protectedSize := 0
  evictableLeaves := ListSet.empty
  evictableHostLeaves := ListSet.empty

variable (ps : Nat) (t : RadixTree) (n : NodeId) (key : RadixKey)

def modify (f : TreeNode → TreeNode) : RadixTree :=
  { t with nodes := fun m => if m = n then f (t.nodes n) else t.nodes m }

/-- A new node object, whose id is the counter. -/
def alloc (x : TreeNode) : RadixTree :=
  { t with nodes := fun m => if m = t.counter then x else t.nodes m, counter := t.counter + 1 }

def addEvictable (d : Int) : RadixTree :=
  { t with evictableSize := t.evictableSize + d }

def addProtected (d : Int) : RadixTree :=
  { t with protectedSize := t.protectedSize + d }

def updateLeafStatus : RadixTree :=
  { t with evictableLeaves :=
      if (t.nodes n).evicted ∨ 0 < (t.nodes n).lockRef then t.evictableLeaves.erase n
      else if ∃ c ∈ (t.nodes n).childList, ¬ (t.nodes c).evicted then t.evictableLeaves.erase n
      else t.evictableLeaves.insert n }

def updateHostLeafStatus : RadixTree :=
  { t with evictableHostLeaves :=
      if ¬ (t.nodes n).evicted ∨ 0 < (t.nodes n).lockRef then t.evictableHostLeaves.erase n
      else if ∃ c ∈ (t.nodes n).childList, (t.nodes c).backuped then t.evictableHostLeaves.erase n
      else t.evictableHostLeaves.insert n }

/-- `node.parent.children[key] = new`. -/
def setChild (parent : Option NodeId) (ck : ChildKey) (new : NodeId) : RadixTree :=
  match parent with
  | none => t
  | some q => t.modify q fun x => { x with children := x.children.insert ck new }

/-- `RadixCache._split_node`: the new node takes the first `splitLen` units of `child` and
stands above it. -/
def splitNode (child : NodeId) (splitLen : Nat) : NodeId × RadixTree :=
  let c := t.nodes child
  let newNode := t.counter
  let t := t.alloc
    { TreeNode.new with
      hitCount := c.hitCount
      children := AList.singleton ((key.slice splitLen key.len).childKey ps) child
      parent := c.parent
      lockRef := c.lockRef
      key := c.key.slice 0 splitLen
      value := c.value.map (·.take splitLen) }
  let t := t.modify child fun c =>
    { c with
      parent := some newNode
      key := c.key.slice splitLen c.key.len
      value := c.value.map (·.drop splitLen) }
  (newNode, t.setChild c.parent (key.childKey ps) newNode)

/-- `HiRadixCache._split_node`: host slots are split like device slots. -/
def hiSplitNode (child : NodeId) (splitLen : Nat) : NodeId × RadixTree :=
  let c := t.nodes child
  let newNode := t.counter
  let t := t.alloc
    { TreeNode.new with
      children := AList.singleton ((key.slice splitLen key.len).childKey ps) child
      parent := c.parent
      lockRef := c.lockRef
      key := c.key.slice 0 splitLen
      hitCount := c.hitCount
      value := if c.evicted then none else c.value.map (·.take splitLen)
      hostValue := if c.backuped then c.hostValue.map (·.take splitLen) else none }
  let t := t.modify child fun c =>
    { c with
      value := if c.evicted then c.value else c.value.map (·.drop splitLen)
      hostValue := if c.backuped then c.hostValue.map (·.drop splitLen) else c.hostValue
      parent := some newNode
      key := c.key.slice splitLen c.key.len }
  (newNode, t.setChild c.parent (key.childKey ps) newNode)

/-- A new node `key ↦ value` in the dictionary of `node`. -/
def linkLeaf (node : NodeId) (key : RadixKey) (value : List Nat) : RadixTree :=
  (t.alloc { TreeNode.new with parent := some node, key := key, value := some value }).setChild
    (some node) (key.childKey ps) t.counter

/-- The end of an insertion: the new leaf is linked, counted with `size` and its status and
that of its parent are updated. -/
def addLeaf (node : NodeId) (key : RadixKey) (value : List Nat) (size : Nat) : NodeId × RadixTree :=
  let newNode := t.counter
  let t := (t.linkLeaf ps node key value).addEvictable size
  (newNode, (t.updateLeafStatus node).updateLeafStatus newNode)

/-- `node.parent.children.pop(key)`, with the assertion that it held `node`. -/
def popChild : Except CacheError (NodeId × RadixTree) :=
  match (t.nodes n).parent with
  | none => .error .assertion
  | some q =>
    let ck := (t.nodes n).key.childKey ps
    if (t.nodes q).children.lookup ck = some n then
      .ok (q, t.modify q fun x => { x with children := x.children.erase ck })
    else .error .assertion

def deleteLeaf : Except CacheError RadixTree := do
  let (q, t) ← t.popChild ps n
  let t := t.addEvictable (-(t.nodes n).key.len)
  let t := { t with evictableLeaves := t.evictableLeaves.erase n }
  .ok (t.updateLeafStatus q)

/-- One iteration of `RadixCache.inc_lock_ref`, with its contribution to `delta`. -/
def incLockNode : RadixTree × Int :=
  let d : Int := if (t.nodes n).lockRef = 0 then (t.nodes n).key.len else 0
  let t := (t.addEvictable (-d)).addProtected d
  ((t.modify n fun x => { x with lockRef := x.lockRef + 1 }).updateLeafStatus n, -d)

/-- One iteration of `RadixCache.dec_lock_ref`. -/
def decLockNode : RadixTree × Int :=
  let d : Int := if (t.nodes n).lockRef = 1 then (t.nodes n).key.len else 0
  let t := (t.addEvictable d).addProtected (-d)
  ((t.modify n fun x => { x with lockRef := x.lockRef - 1 }).updateLeafStatus n, d)

/-- One iteration of `HiRadixCache.inc_lock_ref`. -/
def hiIncLockNode : RadixTree × Int :=
  ((t.incLockNode n).1.updateHostLeafStatus n, (t.incLockNode n).2)

/-- One iteration of `HiRadixCache.dec_lock_ref`. -/
def hiDecLockNode : RadixTree × Int :=
  ((t.decLockNode n).1.updateHostLeafStatus n, (t.decLockNode n).2)

/-- The loop of `inc_lock_ref` and `dec_lock_ref`: `step` at every node from `n` up to the
root. A node without parent that is not the root ends it with an error. -/
def walkUp (step : RadixTree → NodeId → RadixTree × Int) :
    Nat → RadixTree → NodeId → Int → Except CacheError (Int × RadixTree)
  | 0, _, _, _ => .error .diverged
  | fuel + 1, t, n, delta =>
    if n = t.rootNode then .ok (delta, t)
    else
      let (t, d) := step t n
      match (t.nodes n).parent with
      | none => .error .assertion
      | some q => walkUp step fuel t q (delta + d)

end RadixTree

end Fluxfer.Radix
