import Fluxfer.Hi.Changes

/-!
# The steps of the two-tier cache

Every operation of `HiRadixCache` is a sequence of steps `HiStep`, each of which changes one node
or one path and the books that belong to it. A `HiState` is a cache with what the proofs know
beside it. No step touches the locks in `pinned`, so the paths of their nodes stay as they are.
-/

namespace Fluxfer.Hi

open Radix ParentTree Memory RadixTree List Finset Allocator

structure HiState where
  cache : HiCache
  nodes : Finset NodeId
  /-- the nodes that requests have locked, and keep locked for now -/
  pinned : List NodeId
  /-- the other locks of requests -/
  holders : List NodeId
  /-- the slots that `insert` put into the tree -/
  given : List (List Nat)
  /-- writes taken from their queue and not processed yet -/
  ackedWrites : List NodeId
  ackedLoads : List NodeId

namespace HiState

abbrev tree (s : HiState) : RadixTree := s.cache.tree

def dueWrites (s : HiState) : List NodeId := s.ackedWrites ++ s.cache.ackWriteQueue.flatten

def dueLoads (s : HiState) : List NodeId :=
  s.ackedLoads ++ (s.cache.ackLoadQueue.flatten ++ s.cache.loadQueue.map LoadOp.nodeId)

/-- All locks: of requests, of writes and of loads. -/
def locks (s : HiState) : List NodeId :=
  s.pinned ++ (s.holders ++ (s.cache.ongoingWriteThrough ++ s.cache.ongoingLoadBack))

end HiState

/-- The backup of `x`: its host slots are set, and the path is locked. -/
structure IsBackup (t t' : RadixTree) (x : NodeId) (v : List Nat) : Prop where
  counter_eq : t'.counter = t.counter
  root_eq : t'.rootNode = t.rootNode
  par_eq : ∀ n, t'.par n = t.par n
  key_eq : ∀ n, (t'.nodes n).key = (t.nodes n).key
  lock_eq : ∀ n, (t'.nodes n).lockRef =
    (t.nodes n).lockRef + pathDelta t.par t.rootNode x 1 n
  value_eq : ∀ n, (t'.nodes n).value = (t.nodes n).value
  host_eq : ∀ n, (t'.nodes n).hostValue = if n = x then some v else (t.nodes n).hostValue

/-- The load of the chain `ns` that ends in `x`: device slots are set, and the path is
locked. -/
structure IsLoad (p : CacheParams) (t t' : RadixTree) (A : Finset NodeId) (a : NodeId)
    (ns : List NodeId) (x : NodeId) (v : List Nat) : Prop where
  down : Down t.par a ns x
  off : ∀ n ∈ ns, n ∈ A ∧ ¬ t.onDevice n
  filled : ∃ u, Filled p t u A a ns x v ∅ ∅ ∧ IsRelock u t' (pathDelta t.par t.rootNode x 1)

inductive HiStep (hp : HiParams) : HiState → HiState → Prop
  /-- other books -/
  | book {s : HiState} {c : HiCache} {aw al : List NodeId} (htree : IsSame s.tree c.tree)
      (ha : c.allocator = s.cache.allocator) (hh : c.hostPool = s.cache.hostPool)
      (hw : c.ongoingWriteThrough = s.cache.ongoingWriteThrough)
      (hl : c.ongoingLoadBack = s.cache.ongoingLoadBack)
      (hdw : aw ++ c.ackWriteQueue.flatten = s.dueWrites)
      (hdl : al ++ (c.ackLoadQueue.flatten ++ c.loadQueue.map LoadOp.nodeId) = s.dueLoads)
      (hledger : c.ledger = s.cache.ledger) :
      HiStep hp s { s with cache := c, ackedWrites := aw, ackedLoads := al }
  /-- free pages are merged and sorted -/
  | refill {s : HiState} (k : Nat) : HiStep hp s { s with
      cache := { s.cache with allocator := s.cache.allocator.refill k } }
  | split {s : HiState} {t : RadixTree} {n : NodeId} {k : Nat}
      (hs : IsSplit hp.pageSize s.tree t n k) (hn : n ∈ s.nodes) (hr : n ≠ s.tree.rootNode)
      (hk0 : 0 < k) (hk : k < s.tree.len n) (hd : hp.pageSize ∣ k) : HiStep hp s { s with
      cache := { s.cache with
        tree := t
        ledger := s.cache.ledger.splitNode hp.pageSize s.tree.counter n k }
      nodes := insert s.tree.counter s.nodes }
  /-- a new leaf -/
  | graft {s : HiState} {t : RadixTree} {node : NodeId} {key : RadixKey} {value : List Nat}
      (hg : IsGraft hp.pageSize s.tree t node key value)
      (hinv : TreeInv hp.toCacheParams t (insert s.tree.counter s.nodes)) : HiStep hp s { s with
      cache := { s.cache with
        tree := t
        ledger := s.cache.ledger.insertLeaf hp.pageSize t s.tree.counter }
      nodes := insert s.tree.counter s.nodes
      given := s.given ++ [value] }
  /-- `insert` puts a node on the device again -/
  | fill {s : HiState} {n a : NodeId} {v : List Nat} (hn : n ∈ s.nodes)
      (ha : s.tree.par n = some a) (had : s.tree.onDevice a) (hoff : ¬ s.tree.onDevice n)
      (hv : v.length = s.tree.len n) : HiStep hp s { s with
      cache := { s.cache with
        tree := repair (fillNode s.tree n v) n a
        ledger := s.cache.ledger.compute n (s.tree.ns n) (s.tree.len n) }
      given := s.given ++ [v] }
  /-- a node with a backup leaves the device -/
  | demote {s : HiState} {x q : NodeId} (hx : DeviceLeaf s.tree s.nodes x)
      (hb : s.tree.backedUp x) (hq : s.tree.par x = some q) : HiStep hp s { s with
      cache := { s.cache with
        tree := repair (emptyNode s.tree x (s.tree.len x)) x q
        allocator := s.cache.allocator.free (s.tree.deviceValue x)
        ledger := s.cache.ledger.recordRemoveEvent hp.pageSize s.tree x .gpu } }
  /-- a node without backup leaves the tree -/
  | drop {s : HiState} {x : NodeId} {t : RadixTree} (hx : DeviceLeaf s.tree s.nodes x)
      (hb : ¬ s.tree.backedUp x) (hr : IsRemove hp.pageSize s.tree t x)
      (hinv : TreeInv hp.toCacheParams t (s.nodes.erase x)) : HiStep hp s { s with
      cache := { s.cache with
        tree := t
        allocator := s.cache.allocator.free (s.tree.deviceValue x)
        ledger := s.cache.ledger.recordRemoveEvent hp.pageSize s.tree x .gpu }
      nodes := s.nodes.erase x }
  /-- a node off the device leaves the tree -/
  | dropHost {s : HiState} {x : NodeId} {t : RadixTree} (hx : HostLeaf s.tree s.nodes x)
      (hr : IsRemove hp.pageSize s.tree t x)
      (hinv : TreeInv hp.toCacheParams t (s.nodes.erase x))
      (href : s.cache.ledger.hostRefCounter x = 0) : HiStep hp s { s with
      cache := { s.cache with
        tree := t
        hostPool := s.cache.hostPool.free (HiCache.hostValue s.tree x)
        ledger := s.cache.ledger.recordRemoveEvent hp.pageSize s.tree x .cpu }
      nodes := s.nodes.erase x }
  | lock {s : HiState} {x : NodeId} {t : RadixTree} (hx : x ∈ s.nodes)
      (hl : IsRelock s.tree t (pathDelta s.tree.par s.tree.rootNode x 1))
      (hinv : TreeInv hp.toCacheParams t s.nodes) : HiStep hp s { s with
      cache := s.cache.withTree t
      holders := x :: s.holders }
  | unlock {s : HiState} {x : NodeId} {t : RadixTree} (hx : x ∈ s.holders)
      (hl : IsRelock s.tree t (pathDelta s.tree.par s.tree.rootNode x (-1)))
      (hinv : TreeInv hp.toCacheParams t s.nodes) : HiStep hp s { s with
      cache := s.cache.withTree t
      holders := s.holders.erase x }
  /-- a write to the host starts -/
  | backup {s : HiState} {x : NodeId} {v : List Nat} {t : RadixTree} {h : HostPool}
      {ids : ListSet NodeId} (hx : x ∈ s.nodes) (hd : s.tree.onDevice x)
      (hb : ¬ s.tree.backedUp x)
      (halloc : s.cache.hostPool.alloc (s.tree.deviceValue x).length = .ok (some v, h))
      (ht : IsBackup s.tree t x v) (hinv : TreeInv hp.toCacheParams t s.nodes) :
      HiStep hp s { s with
      cache := { s.cache with
        tree := t
        hostPool := h
        ongoingWriteThrough := x :: s.cache.ongoingWriteThrough
        ackWriteQueue := s.cache.ackWriteQueue ++ [[x]]
        hybridWriteDemoteNodeIds := ids
        ledger := s.cache.ledger.copyToHost x } }
  | ackWrite {s : HiState} {x : NodeId} {t : RadixTree} (hx : x ∈ s.ackedWrites)
      (hl : IsRelock s.tree t (pathDelta s.tree.par s.tree.rootNode x (-1)))
      (hinv : TreeInv hp.toCacheParams t s.nodes) : HiStep hp s { s with
      cache := { s.cache with
        tree := t
        ongoingWriteThrough := s.cache.ongoingWriteThrough.erase x
        ledger := s.cache.ledger.ackWrite hp.pageSize s.tree x }
      ackedWrites := s.ackedWrites.erase x }
  /-- a write is acknowledged and keeps its lock, for which nobody is left to release it -/
  | leakWrite {s : HiState} {x : NodeId} (hx : x ∈ s.ackedWrites) : HiStep hp s { s with
      cache := { s.cache with
        ongoingWriteThrough := s.cache.ongoingWriteThrough.erase x
        ledger := s.cache.ledger.ackWrite hp.pageSize s.tree x }
      holders := x :: s.holders
      ackedWrites := s.ackedWrites.erase x }
  /-- a load from the host is issued -/
  | load {s : HiState} {a x : NodeId} {ns : List NodeId} {v : List Nat} {t : RadixTree}
      {alloc : Allocator} {nodesByReqid : AList (fun _ : Nat => List NodeId)} (hne : ns ≠ [])
      (halloc : s.cache.allocator.alloc (hostSlots s.tree ns).length = (some v, alloc))
      (ht : IsLoad hp.toCacheParams s.tree t s.nodes a ns x v)
      (hinv : TreeInv hp.toCacheParams t s.nodes) : HiStep hp s { s with
      cache := { s.cache with
        tree := t
        allocator := alloc
        ongoingLoadBack := x :: s.cache.ongoingLoadBack
        loadQueue := s.cache.loadQueue ++ [⟨hostSlots s.tree ns, v, x, 0⟩]
        hybridLoadBackNodesByReqid := nodesByReqid
        ledger := s.cache.ledger.loadNodes hp.pageSize s.tree ns } }
  | ackLoad {s : HiState} {x : NodeId} {t : RadixTree} (hx : x ∈ s.ackedLoads)
      (hl : IsRelock s.tree t (pathDelta s.tree.par s.tree.rootNode x (-1)))
      (hinv : TreeInv hp.toCacheParams t s.nodes) : HiStep hp s { s with
      cache := { s.cache with
        tree := t
        ongoingLoadBack := s.cache.ongoingLoadBack.erase x }
      ackedLoads := s.ackedLoads.erase x }

abbrev HiSteps (hp : HiParams) : HiState → HiState → Prop := Relation.ReflTransGen (HiStep hp)

structure HiInv (hp : HiParams) (s : HiState) : Prop where
  tree : TreeInv hp.toCacheParams s.tree s.nodes
  held : HeldBy s.tree s.nodes s.locks
  /-- a node that is not in the tree is not in both tiers -/
  stale : ∀ n, n ∉ s.nodes → s.tree.onDevice n → ¬ s.tree.backedUp n
  writes : s.dueWrites.Perm s.cache.ongoingWriteThrough
  writes_nodup : s.cache.ongoingWriteThrough.Nodup
  writes_backed : ∀ n ∈ s.cache.ongoingWriteThrough, s.tree.backedUp n
  loads : s.dueLoads.Perm s.cache.ongoingLoadBack
  loads_nodup : s.cache.ongoingLoadBack.Nodup
  device_page : s.cache.allocator.pageSize = hp.pageSize
  host_page : s.cache.hostPool.pageSize = hp.pageSize

/-! ## One step -/

namespace IsBackup

variable {t t' : RadixTree} {x : NodeId} {v : List Nat}

theorem keepsPaths (h : IsBackup t t' x v) (B : Set NodeId) : KeepsPaths t t' B :=
  .of_eq h.root_eq h.par_eq h.key_eq h.value_eq B

theorem of_modify {f : TreeNode → TreeNode} (hf : ∀ y, f y = { y with
      hostValue := some v, hicacheDemoteAfterWrite := (f y).hicacheDemoteAfterWrite })
    (hl : IsRelock (t.modify x f) t' (pathDelta (t.modify x f).par t.rootNode x 1)) :
    IsBackup t t' x v := by
  have htouch : IsTouch t (t.modify x f) x :=
    modify_isTouch (by rw [hf]) (by rw [hf]) (by rw [hf])
  have hself : (t.modify x f).nodes x = f (t.nodes x) := if_pos rfl
  refine ⟨hl.counter_eq.trans htouch.counter_eq, hl.root_eq.trans htouch.root_eq,
    fun m => (hl.par_eq m).trans (htouch.par_eq m),
    fun m => (hl.key_eq m).trans (htouch.key_eq m), ?_, ?_, ?_⟩
  · intro m
    rw [hl.lock_eq, (funext htouch.par_eq : (t.modify x f).par = t.par)]
    congr 1
    by_cases hm : m = x
    · rw [hm, hself, hf]
    · exact htouch.lock_eq m hm
  · intro m
    rw [hl.value_eq]
    by_cases hm : m = x
    · rw [hm, hself, hf]
    · exact htouch.value_eq m hm
  · intro m
    rw [hl.host_eq]
    by_cases hm : m = x
    · rw [if_pos hm, hm, hself, hf]
    · rw [if_neg hm]
      exact htouch.host_eq m hm

theorem backedUp_iff (h : IsBackup t t' x v) (n : NodeId) :
    t'.backedUp n ↔ n = x ∨ t.backedUp n := by
  rw [backedUp, h.host_eq, backedUp]
  split_ifs with hn
  · simp [hn]
  · simp [hn]

theorem heldBy {A : Finset NodeId} {hs : List NodeId} (h : IsBackup t t' x v)
    (hh : HeldBy t A hs) (hx : x ∈ A) : HeldBy t' A (x :: hs) := by
  -- the lock counts are those of a lock, whatever the host slots are
  let u : RadixTree := { t with nodes := fun n => { t.nodes n with
    lockRef := (t.nodes n).lockRef + pathDelta t.par t.rootNode x 1 n } }
  have hu : IsRelock t u (pathDelta t.par t.rootNode x 1) :=
    ⟨rfl, rfl, fun _ => rfl, fun _ => rfl, fun _ _ => rfl, fun _ => rfl, fun _ => rfl,
      fun _ => rfl⟩
  exact (hh.lock hx hu).congr h.root_eq h.par_eq h.lock_eq

end IsBackup

namespace IsLoad

variable {p : CacheParams} {t t' : RadixTree} {A : Finset NodeId} {a x : NodeId}
  {ns : List NodeId} {v : List Nat}

variable (h : IsLoad p t t' A a ns x v)
include h

theorem par_eq (n : NodeId) : t'.par n = t.par n := by
  obtain ⟨u, hf, hl⟩ := h.filled
  rw [hl.par_eq, hf.fill.par_eq]

theorem host_eq (n : NodeId) : (t'.nodes n).hostValue = (t.nodes n).hostValue := by
  obtain ⟨u, hf, hl⟩ := h.filled
  rw [hl.host_eq, hf.fill.host_eq]

theorem backedUp_iff (n : NodeId) : t'.backedUp n ↔ t.backedUp n := backedUp_congr (h.host_eq _)

theorem onDevice_iff {n : NodeId} (hn : n ∉ ns) : t'.onDevice n ↔ t.onDevice n := by
  obtain ⟨u, hf, hl⟩ := h.filled
  rw [onDevice, hl.value_eq, hf.fill.value_eq n hn, onDevice]

theorem keepsPaths {B : Set NodeId} (hB : ∀ n ∈ B, ∀ m ∈ ns, ¬ Anc t.par m n) :
    KeepsPaths t t' B := by
  obtain ⟨u, hf, hl⟩ := h.filled
  exact (hf.fill.keepsPaths hB).trans (hl.keepsPaths B) subset_rfl

theorem heldBy {hs : List NodeId} (hh : HeldBy t A hs) (hx : x ∈ A) : HeldBy t' A (x :: hs) := by
  obtain ⟨u, hf, hl⟩ := h.filled
  have hpar : u.par = t.par := funext hf.fill.par_eq
  have hu : HeldBy u A hs := hh.congr hf.fill.root_eq hf.fill.par_eq hf.fill.lock_eq
  refine hu.lock hx ?_
  rw [hpar, hf.fill.root_eq]
  exact hl

end IsLoad

namespace HiInv

variable {n x : NodeId}
variable {hp : HiParams} {s s' : HiState}

theorem shape (h : HiInv hp s) : ShapeOn hp.toCacheParams s.tree s.nodes := h.tree.core.shape

theorem lock_onDevice (h : HiInv hp s) (hn : n ∈ s.locks) : s.tree.onDevice n := by
  by_cases hr : n = s.tree.rootNode
  · rw [hr]
    exact h.tree.core.root_device
  · have hpos := h.held.lock_pos (h.held.mem n hn) hr hn (anc_refl _ _)
    by_contra hoff
    rw [(h.tree.core.off_device n (h.held.mem n hn) hoff).2] at hpos
    exact lt_irrefl _ hpos

theorem locks_holder (hx : x ∈ s.holders) : s.locks.Perm
    (x :: (s.pinned ++ (s.holders.erase x ++
      (s.cache.ongoingWriteThrough ++ s.cache.ongoingLoadBack)))) :=
  (((perm_cons_erase hx).append_right _).append_left _).trans perm_middle

theorem locks_write (hx : x ∈ s.cache.ongoingWriteThrough) : s.locks.Perm
    (x :: (s.pinned ++ (s.holders ++
      (s.cache.ongoingWriteThrough.erase x ++ s.cache.ongoingLoadBack)))) :=
  ((((perm_cons_erase hx).append_right _).append_left _).append_left _).trans
    ((perm_middle.append_left _).trans perm_middle)

theorem locks_load (hx : x ∈ s.cache.ongoingLoadBack) : s.locks.Perm
    (x :: (s.pinned ++ (s.holders ++
      (s.cache.ongoingWriteThrough ++ s.cache.ongoingLoadBack.erase x)))) :=
  ((((perm_cons_erase hx).append_left _).append_left _).append_left _).trans
    ((((perm_middle.append_left _).trans perm_middle).append_left _).trans
      perm_middle)

theorem holder_mem_locks (hn : n ∈ s.holders) : n ∈ s.locks :=
  (locks_holder hn).mem_iff.mpr mem_cons_self

theorem write_mem_locks (hn : n ∈ s.cache.ongoingWriteThrough) : n ∈ s.locks :=
  (locks_write hn).mem_iff.mpr mem_cons_self

theorem load_mem_locks (hn : n ∈ s.cache.ongoingLoadBack) : n ∈ s.locks :=
  (locks_load hn).mem_iff.mpr mem_cons_self

theorem acked_mem (h : HiInv hp s) (hn : n ∈ s.ackedWrites) : n ∈ s.cache.ongoingWriteThrough :=
  h.writes.mem_iff.mp (mem_append_left _ hn)

theorem ackedLoad_mem (h : HiInv hp s) (hn : n ∈ s.ackedLoads) : n ∈ s.cache.ongoingLoadBack :=
  h.loads.mem_iff.mp (mem_append_left _ hn)

end HiInv

namespace HiStep

variable {t u t' : RadixTree} {A : Finset NodeId} {x n : NodeId} {δ : NodeId → Int}
variable {hp : HiParams} {s s' : HiState}

theorem treeInv (h : HiStep hp s s') (hi : TreeInv hp.toCacheParams s.tree s.nodes) :
    TreeInv hp.toCacheParams s'.tree s'.nodes := by
  cases h with
  | book htree => exact htree.treeInv hi
  | refill k => exact hi
  | split hs hn hr hk0 hk hd => exact hs.treeInv hi hn hr hk0 hk hd
  | graft _ hinv => exact hinv
  | fill hn ha had hoff hv => exact fillNode_treeInv hi hn ha had hoff hv
  | demote hx hb hq => exact emptyNode_treeInv hi hx hb hq
  | drop _ _ _ hinv => exact hinv
  | dropHost _ _ hinv => exact hinv
  | lock _ _ hinv => exact hinv
  | unlock _ _ hinv => exact hinv
  | backup _ _ _ _ _ hinv => exact hinv
  | ackWrite _ _ hinv => exact hinv
  | leakWrite _ => exact hi
  | load _ _ _ hinv => exact hinv
  | ackLoad _ _ hinv => exact hinv

theorem heldBy_touch {hs : List NodeId} (hh : HeldBy t A hs) (ht : IsTouch t u x)
    (hlock : (u.nodes x).lockRef = (t.nodes x).lockRef) : HeldBy u A hs := by
  refine hh.congr ht.root_eq ht.par_eq fun n => ?_
  by_cases hn : n = x
  · rw [hn, hlock]
  · exact ht.lock_eq n hn

theorem heldBy (h : HiStep hp s s') (hi : HiInv hp s) : HeldBy s'.tree s'.nodes s'.locks := by
  have hheld := hi.held
  cases h with
  | @book c aw al htree _ _ hw hl _ _ =>
    have hlocks : s.locks =
        s.pinned ++ (s.holders ++ (c.ongoingWriteThrough ++ c.ongoingLoadBack)) := by
      rw [hw, hl, HiState.locks]
    rw [hlocks] at hheld
    exact htree.heldBy hheld
  | refill k => exact hheld
  | split hs hn hr _ _ _ => exact hheld.split hi.shape hs hn hr
  | graft hg _ => exact hheld.graft hi.shape hg
  | @fill n a v hn _ _ _ _ =>
    have ht := fillNode_isTouch s.tree n v
    refine (heldBy_touch hheld ht ?_).congr rfl (fun _ => rfl) fun _ => rfl
    rw [fillNode_self]
  | @demote x q hx _ _ =>
    have ht := emptyNode_isTouch s.tree x (s.tree.len x)
    refine (heldBy_touch hheld ht ?_).congr rfl (fun _ => rfl) fun _ => rfl
    rw [emptyNode_self]
  | drop hx _ hr _ => exact hheld.remove hr hx.mem hx.ne_root hx.unlocked
  | @dropHost x t hx hr _ =>
    have hxr : x ≠ s.tree.rootNode := fun e => hx.off (e ▸ hi.tree.core.root_device)
    exact hheld.remove hr hx.mem hxr (hi.tree.core.off_device _ hx.mem hx.off).2
  | lock hx hl _ => exact (hheld.lock hx hl).perm perm_middle.symm
  | @unlock x t hx hl _ =>
    have := (hheld.perm (HiInv.locks_holder hx)).unlock mem_cons_self hl
    rwa [erase_cons_head] at this
  | @backup x v t hpool ids hx _ _ _ ht _ =>
    refine (ht.heldBy hheld hx).perm ?_
    exact perm_middle.symm.trans (perm_middle.symm.append_left _)
  | @ackWrite x t hx hl _ =>
    have hmem := hi.acked_mem hx
    have := (hheld.perm (HiInv.locks_write hmem)).unlock mem_cons_self hl
    rwa [erase_cons_head] at this
  | leakWrite hx =>
    exact hheld.perm ((HiInv.locks_write (hi.acked_mem hx)).trans perm_middle.symm)
  | @load a x ns v t alloc nodesByReqid hne _ ht _ =>
    have hx : x ∈ s.nodes := (ht.off x (ht.down.last_mem hne)).1
    refine (ht.heldBy hheld hx).perm ?_
    exact perm_middle.symm.trans ((perm_middle.symm.trans
      (perm_middle.symm.append_left _)).append_left _)
  | @ackLoad x t hx hl _ =>
    have hmem := hi.ackedLoad_mem hx
    have := (hheld.perm (HiInv.locks_load hmem)).unlock mem_cons_self hl
    rwa [erase_cons_head] at this

theorem stale_relock (h : ∀ n, n ∉ A → t.onDevice n → ¬ t.backedUp n) (hl : IsRelock t t' δ) :
    ∀ n, n ∉ A → t'.onDevice n → ¬ t'.backedUp n := by
  intro n hn
  rw [onDevice, backedUp, hl.value_eq, hl.host_eq]
  exact h n hn

theorem backedUp_relock (hl : IsRelock t t' δ) (hb : t.backedUp n) : t'.backedUp n :=
  (backedUp_congr (hl.host_eq _)).mpr hb

theorem backedUp_touch (ht : IsTouch t u x) (hhost : (u.nodes x).hostValue = (t.nodes x).hostValue)
    (hb : t.backedUp n) : u.backedUp n := by
  by_cases hn : n = x
  · subst hn
    exact (backedUp_congr hhost).mpr hb
  · exact (ht.backedUp_iff hn).mpr hb

variable (h : HiStep hp s s')
include h

theorem stale (hi : HiInv hp s) : ∀ n, n ∉ s'.nodes → s'.tree.onDevice n → ¬ s'.tree.backedUp n := by
  cases h with
  | book htree =>
    intro n hn
    rw [htree.onDevice_iff, htree.backedUp_iff]
    exact hi.stale n hn
  | refill k => exact hi.stale
  | @split t x k hs _ _ _ _ _ =>
    intro n hn
    obtain ⟨hnw, hnA⟩ := not_or.mp fun hmem => hn (mem_insert.mpr hmem)
    rw [hs.onDevice_iff, hs.backedUp_iff, if_neg hnw, if_neg hnw]
    exact hi.stale n hnA
  | @graft t node key value hg _ =>
    intro n hn
    obtain ⟨hnw, hnA⟩ := not_or.mp fun hmem => hn (mem_insert.mpr hmem)
    rw [hg.onDevice_iff hnw, hg.backedUp_iff hnw]
    exact hi.stale n hnA
  | @fill x a v hx _ _ _ _ =>
    intro n hn
    have hne : n ≠ x := fun e => hn (e ▸ hx)
    have ht := fillNode_isTouch s.tree x v
    have := hi.stale n hn
    rwa [← ht.onDevice_iff hne, ← ht.backedUp_iff hne] at this
  | @demote x q hx _ _ =>
    intro n hn
    have hne : n ≠ x := fun e => hn (e ▸ hx.mem)
    have ht := emptyNode_isTouch s.tree x (s.tree.len x)
    have := hi.stale n hn
    rwa [← ht.onDevice_iff hne, ← ht.backedUp_iff hne] at this
  | @drop x t _ hb hr _ =>
    intro n hn
    rw [hr.onDevice_iff, hr.backedUp_iff]
    by_cases hnx : n = x
    · rw [hnx]
      exact fun _ => hb
    · exact hi.stale n fun hmem => hn (mem_erase.mpr ⟨hnx, hmem⟩)
  | @dropHost x t hx hr _ =>
    intro n hn
    rw [hr.onDevice_iff, hr.backedUp_iff]
    by_cases hnx : n = x
    · rw [hnx]
      exact fun hd => absurd hd hx.off
    · exact hi.stale n fun hmem => hn (mem_erase.mpr ⟨hnx, hmem⟩)
  | lock _ hl _ => exact stale_relock hi.stale hl
  | unlock _ hl _ => exact stale_relock hi.stale hl
  | @backup x v t hpool ids hx _ _ _ ht _ =>
    intro n hn
    have hne : n ≠ x := fun e => hn (e ▸ hx)
    rw [ht.backedUp_iff, onDevice, ht.value_eq]
    exact fun hd hb => hi.stale n hn hd (hb.resolve_left hne)
  | ackWrite _ hl _ => exact stale_relock hi.stale hl
  | leakWrite _ => exact hi.stale
  | @load a x ns v t alloc nodesByReqid _ _ ht _ =>
    intro n hn
    rw [ht.onDevice_iff fun hmem => hn (ht.off n hmem).1, ht.backedUp_iff]
    exact hi.stale n hn
  | ackLoad _ hl _ => exact stale_relock hi.stale hl

theorem backedUp_mono (hi : HiInv hp s) (hn : n ∈ s.nodes)
    (hb : s.tree.backedUp n) : s'.tree.backedUp n := by
  cases h with
  | book htree => exact (htree.backedUp_iff n).mpr hb
  | refill k => exact hb
  | split hs _ _ _ _ _ =>
    have hnw : n ≠ s.tree.counter := fun e => hi.shape.not_mem_counter (e ▸ hn)
    exact (hs.backedUp_iff n).mpr (by rwa [if_neg hnw])
  | graft hg _ =>
    have hnw : n ≠ s.tree.counter := fun e => hi.shape.not_mem_counter (e ▸ hn)
    exact (hg.backedUp_iff hnw).mpr hb
  | @fill x a v _ _ _ _ _ =>
    show (fillNode s.tree x v).backedUp n
    refine backedUp_touch (fillNode_isTouch s.tree x v) ?_ hb
    rw [fillNode_self]
  | @demote x q _ _ _ =>
    show (emptyNode s.tree x (s.tree.len x)).backedUp n
    refine backedUp_touch (emptyNode_isTouch s.tree x (s.tree.len x)) ?_ hb
    rw [emptyNode_self]
  | drop _ _ hr _ => exact (hr.backedUp_iff n).mpr hb
  | dropHost _ hr _ => exact (hr.backedUp_iff n).mpr hb
  | lock _ hl _ => exact backedUp_relock hl hb
  | unlock _ hl _ => exact backedUp_relock hl hb
  | backup _ _ _ _ ht _ => exact (ht.backedUp_iff n).mpr (Or.inr hb)
  | ackWrite _ hl _ => exact backedUp_relock hl hb
  | leakWrite _ => exact hb
  | load _ _ ht _ => exact (ht.backedUp_iff n).mpr hb
  | ackLoad _ hl _ => exact backedUp_relock hl hb

theorem writes (hi : HiInv hp s) :
    s'.dueWrites.Perm s'.cache.ongoingWriteThrough ∧ s'.cache.ongoingWriteThrough.Nodup ∧
      ∀ n ∈ s'.cache.ongoingWriteThrough, s'.tree.backedUp n := by
  have hold : ∀ n ∈ s.cache.ongoingWriteThrough, s'.tree.backedUp n := fun n hn =>
    h.backedUp_mono hi (hi.held.mem n (HiInv.write_mem_locks hn)) (hi.writes_backed n hn)
  cases h with
  | @book c aw al _ _ _ hw _ hdw _ =>
    have hdue : (HiState.mk c s.nodes s.pinned s.holders s.given aw al).dueWrites =
        s.dueWrites := hdw
    rw [hdue, hw]
    exact ⟨hi.writes, hi.writes_nodup, hold⟩
  | @backup x v t hpool ids hx hd hb _ ht _ =>
    have hnew : x ∉ s.cache.ongoingWriteThrough := fun hmem => hb (hi.writes_backed x hmem)
    refine ⟨?_, nodup_cons.mpr ⟨hnew, hi.writes_nodup⟩, ?_⟩
    · have hdue : s.dueWrites ++ [x] =
          s.ackedWrites ++ (s.cache.ackWriteQueue ++ [[x]]).flatten := by
        simp [HiState.dueWrites]
      show (s.ackedWrites ++ (s.cache.ackWriteQueue ++ [[x]]).flatten).Perm _
      rw [← hdue]
      exact (perm_append_singleton x _).trans (hi.writes.cons x)
    · intro n hn
      rcases mem_cons.mp hn with rfl | hn
      · exact (ht.backedUp_iff n).mpr (Or.inl rfl)
      · exact hold n hn
  | @ackWrite x t hx _ _ =>
    refine ⟨?_, hi.writes_nodup.erase x, fun n hn => hold n (mem_of_mem_erase hn)⟩
    have := hi.writes.erase x
    rwa [HiState.dueWrites, erase_append_left _ hx] at this
  | @leakWrite x hx =>
    refine ⟨?_, hi.writes_nodup.erase x, fun n hn => hold n (mem_of_mem_erase hn)⟩
    have := hi.writes.erase x
    rwa [HiState.dueWrites, erase_append_left _ hx] at this
  | _ => exact ⟨hi.writes, hi.writes_nodup, hold⟩

theorem loads (hi : HiInv hp s) :
    s'.dueLoads.Perm s'.cache.ongoingLoadBack ∧ s'.cache.ongoingLoadBack.Nodup := by
  cases h with
  | @book c aw al _ _ _ _ hl _ hdl =>
    have hdue : (HiState.mk c s.nodes s.pinned s.holders s.given aw al).dueLoads =
        s.dueLoads := hdl
    rw [hdue, hl]
    exact ⟨hi.loads, hi.loads_nodup⟩
  | @load a x ns v t alloc nodesByReqid hne _ ht _ =>
    -- a node that is being loaded is on the device
    have hnew : x ∉ s.cache.ongoingLoadBack := fun hmem =>
      (ht.off x (ht.down.last_mem hne)).2 (hi.lock_onDevice (HiInv.load_mem_locks hmem))
    refine ⟨?_, nodup_cons.mpr ⟨hnew, hi.loads_nodup⟩⟩
    refine List.Perm.trans ?_ (hi.loads.cons x)
    simp only [HiState.dueLoads, map_append, ← append_assoc]
    exact perm_append_singleton x _
  | @ackLoad x t hx _ _ =>
    refine ⟨?_, hi.loads_nodup.erase x⟩
    have := hi.loads.erase x
    rwa [HiState.dueLoads, erase_append_left _ hx] at this
  | _ => exact ⟨hi.loads, hi.loads_nodup⟩

theorem pageSizes : s'.cache.allocator.pageSize = s.cache.allocator.pageSize ∧
      s'.cache.hostPool.pageSize = s.cache.hostPool.pageSize := by
  cases h with
  | book _ ha hh => exact ⟨congrArg _ ha, congrArg _ hh⟩
  | refill k => exact ⟨refill_pageSize _ k, rfl⟩
  | demote => exact ⟨free_pageSize _ _, rfl⟩
  | drop => exact ⟨free_pageSize _ _, rfl⟩
  | backup _ _ _ halloc _ _ => exact ⟨rfl, HostPool.alloc_pageSize halloc⟩
  | @load a x ns v t alloc nodesByReqid hne halloc ht _ =>
    have := alloc_pageSize s.cache.allocator (hostSlots s.tree ns).length
    rw [halloc] at this
    exact ⟨this, rfl⟩
  | _ => exact ⟨rfl, rfl⟩

theorem inv (hi : HiInv hp s) : HiInv hp s' := by
  obtain ⟨hwrites, hwnodup, hwbacked⟩ := h.writes hi
  obtain ⟨hloads, hlnodup⟩ := h.loads hi
  obtain ⟨hdev, hhost⟩ := h.pageSizes
  exact ⟨h.treeInv hi.tree, h.heldBy hi, h.stale hi, hwrites, hwnodup, hwbacked, hloads, hlnodup,
    hdev.trans hi.device_page, hhost.trans hi.host_page⟩

theorem keepsPaths (hi : HiInv hp s) : KeepsPaths s.tree s'.tree {n | n ∈ s.locks} := by
  have hmem : {n | n ∈ s.locks} ⊆ (s.nodes : Set NodeId) := fun n hn => hi.held.mem n hn
  have hoff : ∀ x ∈ s.nodes, ¬ s.tree.onDevice x →
      ∀ n ∈ {n | n ∈ s.locks}, ¬ Anc s.tree.par x n := fun x hx hd =>
    hi.held.no_holder_below hx (fun e => hd (e ▸ hi.tree.core.root_device))
      (hi.tree.core.off_device x hx hd).2
  cases h with
  | book htree => exact htree.keepsPaths _
  | refill k => exact .refl _ _
  | split hs hn hr _ hk _ => exact (hs.keepsPaths hi.shape hn hr hk.le).mono hmem
  | graft hg _ => exact (hg.keepsPaths hi.shape).mono hmem
  | @fill x a v hx _ _ hxoff _ =>
    have hpaths := (fillNode_isTouch s.tree x v).keepsPaths (hoff x hx hxoff)
    exact ⟨hpaths.root_eq, hpaths.ns, hpaths.seg, hpaths.value⟩
  | @demote x q hx _ _ =>
    have hpaths := (emptyNode_isTouch s.tree x (s.tree.len x)).keepsPaths
      (hi.held.no_holder_below hx.mem hx.ne_root hx.unlocked)
    exact ⟨hpaths.root_eq, hpaths.ns, hpaths.seg, hpaths.value⟩
  | drop _ _ hr _ => exact hr.keepsPaths _
  | dropHost _ hr _ => exact hr.keepsPaths _
  | lock _ hl _ => exact hl.keepsPaths _
  | unlock _ hl _ => exact hl.keepsPaths _
  | backup _ _ _ _ ht _ => exact ht.keepsPaths _
  | ackWrite _ hl _ => exact hl.keepsPaths _
  | leakWrite _ => exact .refl _ _
  | load _ _ ht _ =>
    exact ht.keepsPaths fun n hn m hm => hoff m (ht.off m hm).1 (ht.off m hm).2 n hn
  | ackLoad _ hl _ => exact hl.keepsPaths _

end HiStep

/-! ## Runs of steps -/

namespace HiSteps

variable {hp : HiParams} {s s' : HiState}

theorem inv (h : HiSteps hp s s') (hi : HiInv hp s) : HiInv hp s' := by
  induction h with
  | refl => exact hi
  | tail _ hstep ih => exact hstep.inv ih

end HiSteps

end Fluxfer.Hi
