import Fluxfer.Memory.Allocator
import Fluxfer.Radix.Changes

/-!
# `RadixCache`

`match_prefix`, `insert`, `evict`, `inc_lock_ref` and `dec_lock_ref` of
`mem_cache/radix_cache.py`. Loops carry fuel; running out of it is the error `diverged`,
which is shown not to occur. The order in which `evict` takes nodes from its heap depends on
the eviction policy and on time stamps; here it is an arbitrary choice `pick`.
-/

namespace Fluxfer.Radix

open Memory

/-- `MatchResult`: in this cache `last_host_node` and `best_match_node` are the device node. -/
structure MatchResult where
  deviceIndices : List Nat
  lastDeviceNode : NodeId

structure RadixCache where
  tree : RadixTree
  allocator : Allocator

namespace RadixTree

variable (p : CacheParams) (t : RadixTree) (n : NodeId) (key : RadixKey)

def incHitCount (chunked : Bool) : RadixTree :=
  if chunked then t else t.modify n fun x => { x with hitCount := x.hitCount + 1 }

/-- The slots of a node. Every node of a `RadixCache` has some. -/
def deviceValue : List Nat := (t.nodes n).value.getD []

def matchPrefixHelper (p : CacheParams) :
    Nat → RadixTree → NodeId → RadixKey → List Nat →
      Except CacheError (List Nat × NodeId × RadixTree)
  | 0, _, _, _, _ => .error .diverged
  | fuel + 1, t, node, key, value =>
    if 0 < key.len then
      match t.find node (key.childKey p.pageSize) with
      | none => .ok (value, node, t)
      | some child => do
        let prefixLen ← (t.nodes child).key.matchKey key p.pageSize
        if prefixLen < (t.nodes child).key.len then
          let (newNode, t) := t.splitNode p.pageSize (t.nodes child).key child prefixLen
          .ok (value ++ t.deviceValue newNode, newNode, t)
        else
          matchPrefixHelper p fuel t child (key.slice prefixLen key.len)
            (value ++ t.deviceValue child)
    else .ok (value, node, t)

def matchPrefix : Except CacheError (MatchResult × RadixTree) :=
  let key := key.toBigramView p.isEagle
  if key.len = 0 then .ok (⟨[], t.rootNode⟩, t)
  else
    let key := key.pageAligned p.pageSize
    if key.len = 0 then .ok (⟨[], t.rootNode⟩, t)
    else do
      let (value, lastNode, t) ← matchPrefixHelper p (key.len + 1) t t.rootNode key []
      .ok (⟨value, lastNode⟩, t)

def insertLoop (p : CacheParams) (chunked : Bool) :
    Nat → RadixTree → NodeId → RadixKey → List Nat → Nat →
      Except CacheError (NodeId × RadixKey × List Nat × Nat × RadixTree)
  | 0, _, _, _, _, _ => .error .diverged
  | fuel + 1, t, node, key, value, total =>
    if 0 < key.len then
      match t.find node (key.childKey p.pageSize) with
      | none => .ok (node, key, value, total, t)
      | some child => do
        let prefixLen ← (t.nodes child).key.matchKey key p.pageSize
        let key' := key.slice prefixLen key.len
        let value' := value.drop prefixLen
        if prefixLen < (t.nodes child).key.len then
          let (newNode, t) := t.splitNode p.pageSize (t.nodes child).key child prefixLen
          insertLoop p chunked fuel (t.incHitCount newNode chunked) newNode key' value'
            (total + prefixLen)
        else
          insertLoop p chunked fuel (t.incHitCount child chunked) child key' value'
            (total + prefixLen)
    else .ok (node, key, value, total, t)

def insertHelper (value : List Nat) (chunked : Bool) : Except CacheError (Nat × RadixTree) :=
  if key.len = 0 then .ok (0, t)
  else do
    let (node, key, value, total, t) ←
      insertLoop p chunked (key.len + 1) t t.rootNode key value 0
    if 0 < key.len then
      let (newNode, t) := t.addLeaf p.pageSize node key value key.len
      .ok (total, t.incHitCount newNode chunked)
    else .ok (total, t)

/-- `insert`. Without a value the token ids themselves are stored. -/
def insert (value : Option (List Nat)) (chunked : Bool) : Except CacheError (Nat × RadixTree) :=
  let value := value.map (key.bigramValue p.isEagle)
  let key := (key.toBigramView p.isEagle).pageAligned p.pageSize
  let value := match value with
    | some v => v.take key.len
    | none => key.tokenIds.take key.len
  t.insertHelper p key value chunked

/-- `inc_lock_ref`, with the returned `delta`. -/
def incLockRef : Except CacheError (Int × RadixTree) :=
  walkUp incLockNode (t.counter + 1) t n 0

/-- `dec_lock_ref`, with the returned `delta`. -/
def decLockRef : Except CacheError (Int × RadixTree) :=
  walkUp decLockNode (t.counter + 1) t n 0

end RadixTree

theorem deviceValue_congr {t t' : RadixTree} {n : NodeId}
    (h : (t'.nodes n).value = (t.nodes n).value) : t'.deviceValue n = t.deviceValue n :=
  congrArg (Option.getD · []) h

namespace RadixCache

/-- The parent is pushed when it has become an unlocked leaf. -/
def pushParent (t : RadixTree) (heap : List NodeId) (x : NodeId) : List NodeId :=
  match (t.nodes x).parent with
  | none => heap
  | some q => if (t.nodes q).childList = [] ∧ (t.nodes q).lockRef = 0 then heap ++ [q] else heap

/-- The loop of `evict`: in the iteration with `fuel` left, the entry `pick fuel` of the heap
is popped. -/
def evictLoop (p : CacheParams) (numTokens : Nat) (pick : Nat → Nat) :
    Nat → RadixCache → List NodeId → Nat → Except CacheError (Nat × RadixCache)
  | 0, _, _, _ => .error .diverged
  | fuel + 1, c, heap, numEvicted =>
    if numEvicted < numTokens ∧ heap ≠ [] then do
      let i := pick fuel % heap.length
      let x := heap.getD i 0
      let v := c.tree.deviceValue x
      let allocator := c.allocator.free v
      let t ← c.tree.deleteLeaf p.pageSize x
      evictLoop p numTokens pick fuel ⟨t, allocator⟩ (pushParent t (heap.eraseIdx i) x)
        (numEvicted + v.length)
    else .ok (numEvicted, c)

def evict (p : CacheParams) (c : RadixCache) (numTokens : Nat) (pick : Nat → Nat) :
    Except CacheError (Nat × RadixCache) :=
  evictLoop p numTokens pick (c.tree.counter + 1) c c.tree.evictableLeaves.elems 0

end RadixCache

end Fluxfer.Radix
