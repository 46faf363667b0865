import Fluxfer.Hi.DevicePages
import Fluxfer.Unified.Changes

/-!
# The steps of `UnifiedRadixCache`

With a write-through policy the operations of `UnifiedRadixCache` are sequences of the steps of
`HiRadixCache`, with some more of their own: a leaf of the host forgets its slots when it leaves
the tree, slots of requests go back to the allocator, and `freed` is written. `UniState.hi` reads
a state as one of the two-tier cache.
-/

namespace Fluxfer.Unified

open Radix ParentTree Memory Pages Hi Requests Multiset List

def UnifiedCache.toHi (c : UnifiedCache) (l : Ledger) : HiCache where
  tree := c.tree
  allocator := c.allocator
  hostPool := c.hostPool
  ongoingWriteThrough := c.ongoingWriteThrough.map OngoingWrite.node
  ackWriteQueue := c.ackWriteQueue
  ongoingLoadBack := c.ongoingLoadBack.map Prod.fst
  loadQueue := c.loadQueue
  ackLoadQueue := c.ackLoadQueue
  hybridPendingDeviceDemotions := c.hybridPendingDeviceDemotions
  hybridWriteDemoteNodeIds := c.hybridWriteDemoteNodeIds
  hybridLoadBackNodesByReqid := c.hybridLoadBackNodesByReqid
  ledger := l

structure UniState where
  cache : UnifiedCache
  ledger : Ledger
  nodes : Finset NodeId
  /-- the nodes that requests have locked -/
  holders : List NodeId
  given : List (List Nat)
  ackedWrites : List NodeId
  ackedLoads : List NodeId
  /-- the device pages of requests -/
  owned : Multiset Nat

namespace UniState

abbrev tree (s : UniState) : RadixTree := s.cache.tree

def hi (s : UniState) : HiState where
  cache := s.cache.toHi s.ledger
  nodes := s.nodes
  pinned := []
  holders := s.holders
  given := s.given
  ackedWrites := s.ackedWrites
  ackedLoads := s.ackedLoads

end UniState

inductive UniStep (hp : HiParams) : UniState → UniState → Prop
  /-- a step of the two-tier cache; a copy that starts reads the slots of its node -/
  | step {s s' : UniState} {gs : List (List Nat)} (h : HiStep hp s.hi s'.hi)
      (hfreed : s'.cache.freed = s.cache.freed)
      (hwrites : ∀ w ∈ s'.cache.ongoingWriteThrough, w ∈ s.cache.ongoingWriteThrough ∨
        w.lockParams = some [] ∧ w.deviceIndices = s'.tree.deviceValue w.node)
      (hloads : ∀ e ∈ s'.cache.ongoingLoadBack, e ∈ s.cache.ongoingLoadBack ∨ e.2 = [])
      (hgiven : s'.given = s.given ++ gs) (hlaid : ∀ g ∈ gs, Laid hp.pageSize g)
      (howned : s.owned = s'.owned + (pagesOf hp.pageSize gs.flatten : Multiset Nat)) :
      UniStep hp s s'
  /-- the slots of a leaf that is about to leave the device are recorded as freed -/
  | note {s : UniState} {x : NodeId} (hx : DeviceLeaf s.tree s.nodes x) : UniStep hp s { s with
      cache := { s.cache with
        freed := s.cache.freed ++ [⟨s.tree.deviceValue x, s.cache.ongoingWriteThrough⟩] } }
  /-- slots of a request go back to the allocator -/
  | giveBack {s : UniState} {slots : List Nat} {o : Multiset Nat} (hlaid : Laid hp.pageSize slots)
      (howned : s.owned = o + (pagesOf hp.pageSize slots : Multiset Nat)) :
      UniStep hp s { s with cache := s.cache.free slots, owned := o }
  /-- a request takes slots from the allocator -/
  | take {s : UniState} {needSize : Nat} {slots : List Nat} {a : Allocator}
      (halloc : s.cache.allocator.alloc needSize = (some slots, a)) : UniStep hp s { s with
      cache := { s.cache with allocator := a }
      owned := s.owned + (pagesOf hp.pageSize slots : Multiset Nat) }
  /-- a node that is not in the tree any more forgets its host slots -/
  | forget {s : UniState} {x : NodeId} (hx : x ∉ s.nodes) : UniStep hp s { s with
      cache := s.cache.withTree (forgetHost s.tree x) }

abbrev UniSteps (hp : HiParams) : UniState → UniState → Prop := Relation.ReflTransGen (UniStep hp)

/-- A ledger that nothing is written to: no events and no storage backend. -/
structure IdleLedger (l : Ledger) : Prop where
  events : l.enableKvCacheEvents = false
  storage : l.enableStorage = false
  refs : ∀ n, l.hostRefCounter n = 0

structure UniInv (hp : HiParams) (s : UniState) : Prop where
  state : HiInv hp s.hi
  idle : IdleLedger s.ledger
  device : DeviceInv hp s.hi
  nodup : (s.hi.devicePages hp + s.owned).Nodup
  /-- every copy holds a lock at its node, and reads slots of the path of that node -/
  locked : ∀ w ∈ s.cache.ongoingWriteThrough, w.lockParams = some []
  copies : ∀ w ∈ s.cache.ongoingWriteThrough, ∃ v,
    PathLabel s.tree.par s.tree.deviceValue w.node v ∧ w.deviceIndices <:+ v
  loads : ∀ e ∈ s.cache.ongoingLoadBack, e.2 = []
  history : ∀ f ∈ s.cache.freed, ∀ w ∈ f.inFlight, List.Disjoint w.deviceIndices f.slots

/-! ## One step -/

namespace IdleLedger

variable {l : Ledger} (h : IdleLedger l)
include h

variable (ps : Nat) (t : RadixTree) (n : NodeId)

theorem recordRemoveEvent (m : Medium) : l.recordRemoveEvent ps t n m = l := by
  simp [Ledger.recordRemoveEvent, h.events]

theorem recordStoreEvent (m : Medium) : l.recordStoreEvent ps t n m = l := by
  simp [Ledger.recordStoreEvent, h.events]

theorem loadNodes (ns : List NodeId) : IdleLedger (l.loadNodes ps t ns) := by
  induction ns generalizing l with
  | nil => exact h
  | cons n ns ih =>
    have hcopy : IdleLedger (l.copyToDevice n) := ⟨h.events, h.storage, h.refs⟩
    rw [Ledger.loadNodes, hcopy.recordStoreEvent]
    exact ih hcopy

theorem insertLeaf : IdleLedger (l.insertLeaf ps t n) := by
  have hnew : IdleLedger ((l.newNode n).compute n (t.nodes n).key.extraKey (t.nodes n).key.len) := by
    refine ⟨h.events, h.storage, fun m => ?_⟩
    show (if m = n then 0 else l.hostRefCounter m) = 0
    split_ifs
    · rfl
    · exact h.refs m
  unfold Ledger.insertLeaf
  dsimp only
  rw [if_neg (by rw [hnew.events, hnew.storage]; simp), hnew.recordStoreEvent]
  exact hnew

end IdleLedger

theorem idle_of_step {hp : HiParams} {s s' : HiState} (h : HiStep hp s s')
    (hi : IdleLedger s.cache.ledger) : IdleLedger s'.cache.ledger := by
  cases h with
  | book _ _ _ _ _ _ _ hl => exact hl ▸ hi
  | split =>
    refine ⟨hi.events, hi.storage, fun m => ?_⟩
    show (if m = s.tree.counter then 0 else s.cache.ledger.hostRefCounter m) = 0
    split_ifs
    · rfl
    · exact hi.refs m
  | graft => exact hi.insertLeaf _ _ _
  | fill => exact ⟨hi.events, hi.storage, hi.refs⟩
  | demote => exact (hi.recordRemoveEvent _ _ _ _).symm ▸ hi
  | drop => exact (hi.recordRemoveEvent _ _ _ _).symm ▸ hi
  | dropHost => exact (hi.recordRemoveEvent _ _ _ _).symm ▸ hi
  | backup => exact ⟨hi.events, hi.storage, hi.refs⟩
  | ackWrite =>
    show IdleLedger (Ledger.backupIfStorage _ _)
    rw [hi.recordStoreEvent, Ledger.backupIfStorage, hi.storage]
    exact hi
  | leakWrite =>
    show IdleLedger (Ledger.backupIfStorage _ _)
    rw [hi.recordStoreEvent, Ledger.backupIfStorage, hi.storage]
    exact hi
  | load => exact hi.loadNodes _ _ _
  | _ => exact hi

theorem slots_disjoint {ps : Nat} (hps : 0 < ps) {t : RadixTree} {A : Finset NodeId}
    (hlaid : ValuesLaid ps t A) (hnd : (treePages ps t A).Nodup) {x y : NodeId} (hx : x ∈ A)
    (hy : y ∈ A) (hne : x ≠ y) : List.Disjoint (t.deviceValue x) (t.deviceValue y) := by
  have hpage : ∀ z ∈ A, ∀ i ∈ t.deviceValue z, i / ps ∈ pagesOf ps (t.deviceValue z) :=
    fun z hz i hi => (((hlaid z hz).started hps).mem_pagesOf hps).mpr ⟨i, hi, rfl⟩
  intro i hix hiy
  rw [treePages, ← Finset.add_sum_erase A _ hx,
    ← Finset.add_sum_erase (A.erase x) _ (Finset.mem_erase.mpr ⟨hne.symm, hy⟩), ← add_assoc] at hnd
  have hdis := (nodup_add.mp (nodup_add.mp hnd).1).2.2
  exact disjoint_left.mp hdis (mem_coe.mpr (hpage x hx i hix))
    (mem_coe.mpr (hpage y hy i hiy))

theorem withAllocator_inv {hp : HiParams} {s : HiState} (h : HiInv hp s) {a : Allocator}
    (ha : a.pageSize = s.cache.allocator.pageSize) :
    HiInv hp { s with cache := { s.cache with allocator := a } } :=
  ⟨h.tree, h.held, h.stale, h.writes, h.writes_nodup, h.writes_backed, h.loads, h.loads_nodup,
    ha.trans h.device_page, h.host_page⟩

namespace UniInv

variable {hp : HiParams} {s : UniState}

theorem tree (h : UniInv hp s) : TreeInv hp.toCacheParams s.tree s.nodes := h.state.tree

theorem held (h : UniInv hp s) : HeldBy s.tree s.nodes s.hi.locks := h.state.held

theorem shape (h : UniInv hp s) : ShapeOn hp.toCacheParams s.tree s.nodes := h.state.shape

theorem write_mem {w : OngoingWrite} (hw : w ∈ s.cache.ongoingWriteThrough) :
    w.node ∈ s.hi.locks := HiInv.write_mem_locks (mem_map_of_mem hw)

theorem pages_nodup (h : UniInv hp s) : (s.hi.devicePages hp).Nodup :=
  (nodup_add.mp h.nodup).1

theorem treePages_nodup (h : UniInv hp s) : (treePages hp.pageSize s.tree s.nodes).Nodup :=
  (nodup_add.mp h.pages_nodup).2.1

theorem copy_slot (h : UniInv hp s) {w : OngoingWrite} (hw : w ∈ s.cache.ongoingWriteThrough)
    {i : Nat} (hi : i ∈ w.deviceIndices) :
    ∃ m ∈ s.nodes, Anc s.tree.par m w.node ∧ i ∈ s.tree.deviceValue m := by
  obtain ⟨v, hv, hsuf⟩ := h.copies w hw
  obtain ⟨m, hm, hmem⟩ := hv.exists_anc_of_mem (hsuf.subset hi)
  exact ⟨m, h.shape.rooted.anc_mem (h.state.held.mem _ (write_mem hw)) hm, hm, hmem⟩

theorem copy_disjoint_node (h : UniInv hp s) {w : OngoingWrite}
    (hw : w ∈ s.cache.ongoingWriteThrough) {x : NodeId} (hx : DeviceLeaf s.tree s.nodes x) :
    List.Disjoint w.deviceIndices (s.tree.deviceValue x) := by
  intro i hiw hix
  obtain ⟨m, hm, hanc, him⟩ := h.copy_slot hw hiw
  have hmx : m ≠ x := by
    rintro rfl
    exact h.state.held.no_holder_below hx.mem hx.ne_root hx.unlocked _ (write_mem hw) hanc
  exact slots_disjoint hp.pageSize_pos h.device.laid h.treePages_nodup hm hx.mem hmx him hix

theorem copy_disjoint_owned (h : UniInv hp s) {w : OngoingWrite}
    (hw : w ∈ s.cache.ongoingWriteThrough) {slots : List Nat} {o : Multiset Nat}
    (hlaid : Laid hp.pageSize slots)
    (howned : s.owned = o + (pagesOf hp.pageSize slots : Multiset Nat)) :
    List.Disjoint w.deviceIndices slots := by
  intro i hiw his
  obtain ⟨m, hm, _, him⟩ := h.copy_slot hw hiw
  have hps := hp.pageSize_pos
  have htree : i / hp.pageSize ∈ s.hi.devicePages hp := by
    have hpage := (((h.device.laid m hm).started hps).mem_pagesOf hps).mpr ⟨i, him, rfl⟩
    refine mem_add.mpr (.inr ?_)
    show i / hp.pageSize ∈ treePages hp.pageSize s.tree s.nodes
    rw [treePages, ← Finset.add_sum_erase _ _ hm]
    exact mem_add.mpr (.inl (mem_coe.mpr hpage))
  have howns : i / hp.pageSize ∈ s.owned := by
    rw [howned]
    refine mem_add.mpr (.inr (mem_coe.mpr ?_))
    exact ((hlaid.started hps).mem_pagesOf hps).mpr ⟨i, his, rfl⟩
  exact disjoint_left.mp (nodup_add.mp h.nodup).2.2 htree howns

end UniInv

namespace UniStep

variable {hp : HiParams} {s s' : UniState}

theorem inv (h : UniStep hp s s') (hi : UniInv hp s) : UniInv hp s' := by
  have hps := hp.pageSize_pos
  cases h with
  | @step _ gs h hfreed hwrites hloads hgiven hlaid howned =>
    have hstate := h.inv hi.state
    obtain ⟨hdev, hpages⟩ := h.pages hi.state hi.device hgiven hlaid hi.pages_nodup
    refine ⟨hstate, idle_of_step h hi.idle, hdev, ?_, ?_, ?_, ?_, ?_⟩
    · have := hi.nodup
      rw [howned] at this
      rw [hpages, add_assoc, add_comm (pagesOf _ _ : Multiset Nat)]
      exact this
    · exact fun w hw => (hwrites w hw).elim (hi.locked w) fun hnew => hnew.1
    · intro w hw
      rcases hwrites w hw with hold | ⟨_, hnew⟩
      · obtain ⟨v, hv, hsuf⟩ := hi.copies w hold
        exact ⟨v, (h.keepsPaths hi.state).value _ (UniInv.write_mem hold) v hv, hsuf⟩
      · have hmem : w.node ∈ s'.nodes :=
          hstate.held.mem _ (HiInv.write_mem_locks (mem_map_of_mem hw))
        obtain ⟨v, hv⟩ := hstate.shape.rooted.exists_label s'.tree.deviceValue w.node hmem
        exact ⟨v, hv, hnew ▸ hv.suffix⟩
    · exact fun e he => (hloads e he).elim (hi.loads e) id
    · rw [hfreed]
      exact hi.history
  | @note x hx =>
    refine ⟨hi.state, hi.idle, hi.device, hi.nodup, hi.locked, hi.copies, hi.loads, ?_⟩
    intro f hf w hw
    rcases mem_append.mp hf with hf | hf
    · exact hi.history f hf w hw
    · rw [List.mem_singleton.mp hf] at hw ⊢
      exact hi.copy_disjoint_node hw hx
  | @giveBack slots o hlaid howned =>
    have hnd := hi.nodup
    rw [howned] at hnd
    have hstarted := hlaid.started hps
    have hslots : (pagesOf hp.pageSize slots).Nodup :=
      coe_nodup.mp (nodup_of_le
        ((le_add_left _ _).trans (le_add_left _ _)) hnd)
    have hfree := Allocator.pages_free hps hi.device.ok hstarted hslots
    refine ⟨withAllocator_inv hi.state (Allocator.free_pageSize _ _), hi.idle,
      ⟨hi.device.laid, hi.device.ok.free hstarted⟩, ?_, hi.locked, hi.copies, hi.loads, ?_⟩
    · have heq : s.hi.devicePages hp + (o + (pagesOf hp.pageSize slots : Multiset Nat)) =
          ((s.cache.allocator.free slots).pages + treePages hp.pageSize s.tree s.nodes) + o := by
        show s.cache.allocator.pages + treePages hp.pageSize s.tree s.nodes + _ = _
        have hfree' : (s.cache.allocator.free slots).pages =
          s.cache.allocator.pages + (pagesOf hp.pageSize slots : Multiset Nat) := hfree
        rw [hfree']
        abel
      rw [heq] at hnd
      exact hnd
    · intro f hf w hw
      rcases mem_append.mp hf with hf | hf
      · exact hi.history f hf w hw
      · rw [List.mem_singleton.mp hf] at hw ⊢
        exact hi.copy_disjoint_owned hw hlaid howned
  | @take needSize slots a halloc =>
    have hok0 : s.cache.allocator.Ok hp.pageSize := hi.device.ok
    obtain ⟨_, hok, hpages⟩ := Allocator.alloc_spec hps hok0 halloc
    have hsize : a.pageSize = s.cache.allocator.pageSize :=
      hok.pageSize_eq.trans hok0.pageSize_eq.symm
    refine ⟨withAllocator_inv hi.state hsize, hi.idle, ⟨hi.device.laid, hok⟩, ?_, hi.locked,
      hi.copies, hi.loads, hi.history⟩
    have heq : s.hi.devicePages hp + s.owned =
        (a.pages + treePages hp.pageSize s.tree s.nodes) +
          (s.owned + (pagesOf hp.pageSize slots : Multiset Nat)) := by
      show s.cache.allocator.pages + treePages hp.pageSize s.tree s.nodes + _ = _
      rw [hpages]
      abel
    have hnd := hi.nodup
    rw [heq] at hnd
    exact hnd
  | @forget x hx =>
    have ht := forgetHost_isTouch s.tree x
    have hvalue : ∀ n, ((forgetHost s.tree x).nodes n).value = (s.tree.nodes n).value :=
      forgetHost_value
    have hst := hi.state
    refine ⟨⟨forgetHost_treeInv hst.tree hx, hst.held.congr rfl ht.par_eq forgetHost_lock, ?_,
      hst.writes, hst.writes_nodup, ?_, hst.loads, hst.loads_nodup, hst.device_page,
      hst.host_page⟩, hi.idle, ⟨hi.device.laid.congr fun n _ => hvalue n, hi.device.ok⟩, ?_,
      hi.locked, ?_, hi.loads, hi.history⟩
    · intro n hn hd hb
      by_cases hnx : n = x
      · subst hnx
        exact hb (congrArg TreeNode.hostValue forgetHost_self)
      · refine hst.stale n hn ?_ ((ht.backedUp_iff hnx).mp hb)
        exact (ht.onDevice_iff hnx).mp hd
    · intro n hn
      have hne : n ≠ x := fun e => hx (e ▸ hst.held.mem n (HiInv.write_mem_locks hn))
      exact (ht.backedUp_iff hne).mpr (hst.writes_backed n hn)
    · have hnd := hi.nodup
      have heq : treePages hp.pageSize (forgetHost s.tree x) s.nodes =
        treePages hp.pageSize s.tree s.nodes := treePages_congr _ fun n _ => hvalue n
      show (s.cache.allocator.pages + treePages hp.pageSize (forgetHost s.tree x) s.nodes +
        s.owned).Nodup
      rw [heq]
      exact hnd
    · intro w hw
      obtain ⟨v, hv, hsuf⟩ := hi.copies w hw
      exact ⟨v, (forgetHost_keepsPaths s.tree x Set.univ).value _ trivial v hv, hsuf⟩

end UniStep

theorem UniSteps.inv {hp : HiParams} {s s' : UniState} (h : UniSteps hp s s')
    (hi : UniInv hp s) : UniInv hp s' := by
  induction h with
  | refl => exact hi
  | tail _ hstep ih => exact hstep.inv ih

end Fluxfer.Unified
