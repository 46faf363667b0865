import Fluxfer.Hi.EvictSpec
import Fluxfer.Unified.Steps

/-!
# What the operations of `UnifiedRadixCache` do

For each function of the cache, with one of the two write-through policies: it returns, and what
it does is a sequence of steps. `s'` is the state that it leaves; `Works hp s s'` says that the
steps change nothing beside the cache.
-/

namespace Fluxfer.Unified

open Radix ParentTree Memory Hi UnifiedCache HiStep List RadixTree HiInv LoadOp
open HiCache (hostValue orderedNodes nodesToLoad)

variable {x n a : NodeId} {numTokens : Nat} {v : List Nat} {ns : List NodeId}

/-! ## Frames -/

/-- The locks of requests, their pages and the transfers under way. -/
def UniState.frame (s : UniState) : List NodeId × List NodeId × List NodeId × Multiset Nat :=
  (s.holders, s.ackedWrites, s.ackedLoads, s.owned)

def Kept (s s' : UniState) : Prop := s'.frame = s.frame

/-- Steps that leave this as it is. -/
structure Works (hp : HiParams) (s s' : UniState) : Prop where
  steps : UniSteps hp s s'
  kept : Kept s s'

section Frames

variable {hp : HiParams} {s s' s'' : UniState}

namespace Kept

theorem holders_eq (h : Kept s s') : s'.holders = s.holders := congrArg (·.1) h

theorem ackedWrites_eq (h : Kept s s') : s'.ackedWrites = s.ackedWrites := congrArg (·.2.1) h

theorem ackedLoads_eq (h : Kept s s') : s'.ackedLoads = s.ackedLoads := congrArg (·.2.2.1) h

theorem owned_eq (h : Kept s s') : s'.owned = s.owned := congrArg (·.2.2.2) h

theorem of_eq (hh : s'.holders = s.holders) (hw : s'.ackedWrites = s.ackedWrites)
    (hl : s'.ackedLoads = s.ackedLoads) (ho : s'.owned = s.owned) : Kept s s' := by
  rw [Kept, UniState.frame, hh, hw, hl, ho]
  rfl

theorem give {o o' : Multiset Nat} (h : Kept { s with owned := o } s')
    (g : Kept { s' with owned := o' } s'') : Kept { s with owned := o' } s'' :=
  .of_eq (g.holders_eq.trans h.holders_eq) (g.ackedWrites_eq.trans h.ackedWrites_eq)
    (g.ackedLoads_eq.trans h.ackedLoads_eq) g.owned_eq

end Kept

namespace Works

theorem refl (s : UniState) : Works hp s s := ⟨.refl, rfl⟩

theorem single (h : UniStep hp s s') (hk : Kept s s') : Works hp s s' := ⟨.single h, hk⟩

theorem trans (h : Works hp s s') (g : Works hp s' s'') : Works hp s s'' :=
  ⟨h.steps.trans g.steps, g.kept.trans h.kept⟩

theorem head (h : UniStep hp s s') (hk : Kept s s') (g : Works hp s' s'') : Works hp s s'' :=
  (single h hk).trans g

theorem inv (h : Works hp s s') (hi : UniInv hp s) : UniInv hp s' := h.steps.inv hi

end Works

end Frames

/-- Only leaves of the host have left the tree. -/
structure SameTiers (s s' : UniState) : Prop extends
    SameDevice s.tree s.nodes s'.tree s'.nodes where
  host_eq : ∀ n ∈ s'.nodes, (s'.tree.nodes n).hostValue = (s.tree.nodes n).hostValue

namespace SameTiers

variable {s s' s'' : UniState}

theorem refl (s : UniState) : SameTiers s s := ⟨SameDevice.refl _ _, fun _ _ => rfl⟩

theorem trans (h : SameTiers s s') (g : SameTiers s' s'') : SameTiers s s'' :=
  ⟨h.toSameDevice.trans g.toSameDevice,
    fun n hn => (g.host_eq n hn).trans (h.host_eq n (g.sub hn))⟩

end SameTiers

namespace UniStep

variable {hp : HiParams} {s s' : UniState}

theorem plain (h : HiStep hp s.hi s'.hi) (hfreed : s'.cache.freed = s.cache.freed)
    (hwrites : ∀ w ∈ s'.cache.ongoingWriteThrough, w ∈ s.cache.ongoingWriteThrough)
    (hloads : ∀ e ∈ s'.cache.ongoingLoadBack, e ∈ s.cache.ongoingLoadBack)
    (hgiven : s'.given = s.given) (howned : s'.owned = s.owned) : UniStep hp s s' := by
  refine .step h hfreed (fun w hw => .inl (hwrites w hw)) (fun e he => .inl (hloads e he))
    (hgiven.trans (append_nil _).symm) nofun ?_
  rw [howned, flatten_nil, Pages.pagesOf_nil, Multiset.coe_nil, add_zero]

theorem of_hi (h : HiStep hp s.hi s'.hi)
    (hk : (s'.cache.freed, s'.cache.ongoingWriteThrough, s'.cache.ongoingLoadBack, s'.given,
      s'.owned) = (s.cache.freed, s.cache.ongoingWriteThrough, s.cache.ongoingLoadBack, s.given,
      s.owned)) : UniStep hp s s' := by
  simp only [Prod.mk.injEq] at hk
  exact .plain h hk.1 (fun _ hw => hk.2.1 ▸ hw) (fun _ he => hk.2.2.1 ▸ he) hk.2.2.2.1 hk.2.2.2.2

/-- A step of the two-tier cache in which the tree takes the slots `v` of a request. -/
theorem give {v : List Nat} (h : HiStep hp s.hi s'.hi) (hfreed : s'.cache.freed = s.cache.freed)
    (hwrites : s'.cache.ongoingWriteThrough ⊆ s.cache.ongoingWriteThrough)
    (hloads : s'.cache.ongoingLoadBack ⊆ s.cache.ongoingLoadBack)
    (hgiven : s'.given = s.given ++ [v]) (hlaid : Pages.Laid hp.pageSize v)
    (howned : s.owned = s'.owned + (Pages.pagesOf hp.pageSize v : Multiset Nat)) :
    UniStep hp s s' := by
  refine .step h hfreed (fun w hw => .inl (hwrites hw)) (fun e he => .inl (hloads he)) hgiven
    (fun g hg => mem_singleton.mp hg ▸ hlaid) ?_
  rw [flatten_singleton]
  exact howned

theorem book {c : UnifiedCache} {aw al : List NodeId} (htree : IsSame s.tree c.tree)
    (ha : c.allocator = s.cache.allocator) (hh : c.hostPool = s.cache.hostPool)
    (hw : c.ongoingWriteThrough = s.cache.ongoingWriteThrough)
    (hl : c.ongoingLoadBack = s.cache.ongoingLoadBack)
    (hdw : aw ++ c.ackWriteQueue.flatten = s.hi.dueWrites)
    (hdl : al ++ (c.ackLoadQueue.flatten ++ c.loadQueue.map nodeId) = s.hi.dueLoads)
    (hfreed : c.freed = s.cache.freed) :
    UniStep hp s { s with cache := c, ackedWrites := aw, ackedLoads := al } := by
  refine .plain ?_ hfreed (fun w hw' => hw ▸ hw') (fun e he => hl ▸ he) rfl rfl
  exact HiStep.book htree ha hh (congrArg (map OngoingWrite.node) hw)
    (congrArg (map Prod.fst) hl) hdw hdl rfl

theorem book_tree {t : RadixTree} (hs : IsSame s.tree t) :
    UniStep hp s { s with cache := s.cache.withTree t } :=
  .book hs rfl rfl rfl rfl rfl rfl rfl

end UniStep

/-! ## Locks -/

section Locks

variable {p : CacheParams} {t : RadixTree} {A : Finset NodeId}

theorem incLockRef_of_acquire {t' : RadixTree} {d : Int} {skip : List NodeId}
    (hskip : skipEvicted t (t.counter + 1) n [] = .ok (skip, x))
    (hrun : acquireLoop (t.counter + 1) t x 0 = .ok (d, t')) (h : TreeInv p t' A) (hn : n ∈ A)
    (c : UnifiedCache) (hc : c.tree = t) : c.incLockRef n = .ok (d, skip, c.withTree t') := by
  rw [UnifiedCache.incLockRef, hc, hskip]
  show acquireLoop (t.counter + 1) t x 0 >>= _ = _
  rw [hrun]
  show Except.ok (d, skip, c.withTree (updateEvictableLeafSets t' n)) = _
  rw [updateEvictableLeafSets_self h hn]

theorem incLockRef_tree (h : TreeInv p t A) (hx : x ∈ A) (hd : t.onDevice x) :
    ∃ d t', (∀ c : UnifiedCache, c.tree = t → c.incLockRef x = .ok (d, [], c.withTree t')) ∧
      IsRelock t t' (pathDelta t.par t.rootNode x 1) ∧ TreeInv p t' A := by
  obtain ⟨d, t', hrun, hl, hinv⟩ := acquire_tree h hx hd
  exact ⟨d, t', incLockRef_of_acquire (skipEvicted_onDevice hd) hrun hinv hx, hl, hinv⟩

theorem incLockRef_skip_tree (h : TreeInv p t A) (hn : n ∈ A) :
    ∃ d skip x t', (∀ c : UnifiedCache, c.tree = t →
        c.incLockRef n = .ok (d, skip, c.withTree t')) ∧
      x ∈ A ∧ t.onDevice x ∧ Anc t.par x n ∧
      (∀ m, Anc t.par m n → (m ∈ skip ↔ ¬ Anc t.par m x) ∧ (m ∈ skip → ¬ t.onDevice m)) ∧
      IsRelock t t' (pathDelta t.par t.rootNode x 1) ∧ TreeInv p t' A := by
  obtain ⟨skip, x, hskip, hx, hd, hanc, hmem⟩ := skipEvicted_spec h.core hn
  obtain ⟨d, t', hrun, hl, hinv⟩ := acquire_tree h hx hd
  exact ⟨d, skip, x, t', incLockRef_of_acquire hskip hrun hinv hn, hx, hd, hanc, hmem, hl, hinv⟩

theorem decLockRef_skip_tree {hs skip : List NodeId} (h : TreeInv p t A) (hh : HeldBy t A hs)
    (hx : x ∈ hs) (hd : t.onDevice x) (hn : n ∈ A) (hanc : Anc t.par x n)
    (hskip : ∀ m, Anc t.par m n → (m ∈ skip ↔ ¬ Anc t.par m x)) :
    ∃ t', (∀ c : UnifiedCache, c.tree = t → c.decLockRef n skip = .ok (c.withTree t')) ∧
      IsRelock t t' (pathDelta t.par t.rootNode x (-1)) ∧ TreeInv p t' A := by
  obtain ⟨t', hrun, hl, hinv⟩ := release_tree h hh hx hd hn hanc hskip
  refine ⟨t', ?_, hl, hinv⟩
  intro c hc
  rw [UnifiedCache.decLockRef, hc, hrun]
  show Except.ok (c.withTree (updateEvictableLeafSets t' n)) = _
  rw [updateEvictableLeafSets_self hinv hn]

end Locks

variable {hp : HiParams} {s : UniState}

theorem decLockRef_spec (h : UniInv hp s) (hx : x ∈ s.hi.locks) :
    ∃ t, (∀ c : UnifiedCache, c.tree = s.tree → c.decLockRef x [] = .ok (c.withTree t)) ∧
      IsRelock s.tree t (pathDelta s.tree.par s.tree.rootNode x (-1)) ∧
      TreeInv hp.toCacheParams t s.nodes := by
  refine decLockRef_skip_tree h.tree h.held hx (h.state.lock_onDevice hx)
    (h.held.mem x hx) (anc_refl _ _) fun m hm => ?_
  exact iff_of_false not_mem_nil (not_not.mpr hm)

/-! ## Eviction from the host -/

theorem evictHostLeaf_spec (h : UniInv hp s) (hl : HostLeaf s.tree s.nodes x) :
    ∃ k s', s.cache.evictHostLeaf hp x = .ok (k, s'.cache) ∧ Works hp s s' ∧
      SameTiers s s' ∧ s'.nodes = s.nodes.erase x ∧ s'.cache.tree.counter = s.tree.counter := by
  obtain ⟨q, u, t, hpop, hdel, hr, hinv⟩ := evictHostLeaf_tree h.tree hl
  obtain ⟨v, hv⟩ := Option.ne_none_iff_exists'.mp
    (h.tree.core.off_device x hl.mem hl.off).1
  have hleaf : isHostLeaf s.cache.tree x = true :=
    (isHostLeaf_iff h.tree.core hl.mem).mpr hl
  have hhost : hostValue s.tree x = v := by
    rw [hostValue, hv]
    rfl
  set s1 : UniState := { s with
    cache := { s.cache with tree := t, hostPool := s.cache.hostPool.free v }
    ledger := s.ledger.recordRemoveEvent hp.pageSize s.tree x .cpu
    nodes := s.nodes.erase x }
  have hstep1 : UniStep hp s s1 := by
    refine .of_hi ?_ rfl
    have := dropHost (s := s.hi) hl hr hinv (h.idle.refs x)
    have hhost' : hostValue s.hi.tree x = v := hhost
    rw [hhost'] at this
    exact this
  have hstep2 : UniStep hp s1 { s1 with cache := s1.cache.withTree (forgetHost t x) } :=
    .forget (Finset.notMem_erase x s.nodes)
  have ht := forgetHost_isTouch t x
  refine ⟨v.length, _, ?_, .head hstep1 rfl (.single hstep2 rfl), ?_, rfl, ?_⟩
  · unfold evictHostLeaf
    have hv' : (s.cache.tree.nodes x).hostValue = some v := hv
    have hpop' : RadixTree.popChild hp.pageSize { s.cache.tree.modify x (fun y =>
        { y with hostValue := none }) with
        evictableHostLeaves := s.cache.tree.evictableHostLeaves.erase x } x = .ok (q, u) := hpop
    have hdel' : deleteTombstones hp.pageSize (u.counter + 1) u q =
      .ok (forgetHost t x) := hdel
    simp only [hleaf, hv', bind, Except.bind]
    simp only [RadixTree.modify] at hpop' ⊢
    rw [hpop']
    simp only [hdel']
    rfl
  · refine ⟨⟨ht.counter_eq.trans hr.counter_eq, ht.root_eq.trans hr.root_eq,
      fun n => (ht.par_eq n).trans (hr.par_eq n), fun n => (ht.key_eq n).trans (hr.key_eq n),
      fun n => (forgetHost_value n).trans (hr.value_eq n), Finset.erase_subset _ _, ?_⟩, ?_⟩
    · exact fun n hn hd => Finset.mem_erase.mpr ⟨fun e => hl.off (e ▸ hd), hn⟩
    · exact fun n hn => (ht.host_eq n (Finset.ne_of_mem_erase hn)).trans (hr.host_eq n)
  · exact ht.counter_eq.trans hr.counter_eq

theorem pushParent_length (t : RadixTree) (leaves : ListSet NodeId) (heap : List NodeId)
    (x : NodeId) : (pushParent t leaves heap x).length ≤ heap.length + 1 := by
  unfold pushParent
  split
  · omega
  · split_ifs
    · rw [length_append, length_singleton]
    · omega

/-- The loops of `evict_host` and `evict`: every iteration takes a node out of the heap, and may
bring in the parent of a leaf that was evicted. -/
theorem heapLoop_spec {g : Nat → Nat} {leaves : RadixTree → ListSet NodeId}
    {loop : Nat → UnifiedCache → List NodeId → Nat → Except CacheError (Nat × UnifiedCache)}
    {e : Nat → UnifiedCache → NodeId → Except CacheError (Nat × UnifiedCache)}
    (hloop : ∀ fuel c heap k, loop (fuel + 1) c heap k =
      if k < numTokens ∧ heap ≠ [] then
        let i := g fuel % heap.length
        let x := heap.getD i 0
        let heap := heap.eraseIdx i
        if x ∉ leaves c.tree then loop fuel c heap k
        else do
          let (j, c) ← e fuel c x
          loop fuel c (pushParent c.tree (leaves c.tree) heap x) (k + j)
      else .ok (k, c))
    {f : UniState → Nat} {I : UniState → Prop} {R : UniState → UniState → Prop}
    (hrefl : ∀ s, R s s) (htrans : ∀ {s t u}, R s t → R t u → R s u)
    (hevict : ∀ s fuel x, I s → x ∈ leaves s.tree → ∃ j s',
      e fuel s.cache x = .ok (j, s'.cache) ∧ I s' ∧ R s s' ∧ f s' + 1 = f s) :
    ∀ fuel s heap k, I s → f s + heap.length < fuel →
      ∃ k' s', loop fuel s.cache heap k = .ok (k', s'.cache) ∧ I s' ∧ R s s' := by
  intro fuel
  induction fuel with
  | zero => exact fun s heap k _ hlt => absurd hlt (Nat.not_lt_zero _)
  | succ fuel ih =>
    intro s heap k h hlt
    rw [hloop]
    by_cases hcond : k < numTokens ∧ heap ≠ []
    · rw [if_pos hcond]
      have hi : g fuel % heap.length < heap.length :=
        Nat.mod_lt _ (length_pos_of_ne_nil hcond.2)
      set i := g fuel % heap.length
      set x := heap.getD i 0
      have hlen := length_eraseIdx_add_one hi
      by_cases hx : x ∈ leaves s.cache.tree
      · obtain ⟨j, s1, hrun, h1, hR, hsize⟩ := hevict s fuel x h hx
        have hpush := pushParent_length s1.cache.tree (leaves s1.cache.tree) (heap.eraseIdx i) x
        obtain ⟨k2, s2, hrun2, h2, hR2⟩ := ih s1 (pushParent s1.cache.tree
          (leaves s1.cache.tree) (heap.eraseIdx i) x) (k + j) h1 (by omega)
        refine ⟨k2, s2, ?_, h2, htrans hR hR2⟩
        rw [if_neg (not_not.mpr hx), hrun]
        exact hrun2
      · rw [if_pos hx]
        exact ih s _ k h (by omega)
    · rw [if_neg hcond]
      exact ⟨k, s, rfl, h, hrefl s⟩

theorem evictHost_spec (h : UniInv hp s) (numTokens : Nat) (pick : Nat → Nat) :
    ∃ k s', s.cache.evictHost hp numTokens pick = .ok (k, s'.cache) ∧ UniInv hp s' ∧
      Works hp s s' ∧ SameTiers s s' := by
  refine heapLoop_spec (fun _ _ _ _ => rfl) (R := fun s s' => Works hp s s' ∧ SameTiers s s')
    (fun s => ⟨.refl s, .refl s⟩) (fun h g => ⟨h.1.trans g.1, h.2.trans g.2⟩)
    (f := fun s => s.nodes.card) (fun s _ x h hx => ?_) _ s _ _ h ?_
  · have hleaf := h.tree.mem_hostLeaves.mp hx
    obtain ⟨j, s', hrun, hdid, hsame, hnodes, _⟩ := evictHostLeaf_spec h hleaf
    refine ⟨j, s', hrun, hdid.inv h, ⟨hdid, hsame⟩, ?_⟩
    rw [hnodes]
    exact Finset.card_erase_add_one hleaf.mem
  · have hcard := h.shape.card_le
    have hheap := ListSet.length_le_card fun x hx =>
      (h.tree.mem_hostLeaves.mp hx).mem
    show s.nodes.card + s.tree.evictableHostLeaves.elems.length < 2 * s.tree.counter + 1
    omega

/-! ## Writing to the host -/

theorem makeHostRoom_spec (h : UniInv hp s) (kvTokens : Nat) (pick : Nat → Nat) :
    ∃ enough s', s.cache.makeHostRoom hp kvTokens pick = .ok (enough, s'.cache) ∧
      Works hp s s' ∧ SameTiers s s' := by
  unfold makeHostRoom
  dsimp only
  split_ifs with hfew
  · obtain ⟨k, s', hrun, _, hdid, hsame⟩ :=
      evictHost_spec h (kvTokens - s.cache.hostPool.freeSlots.length) pick
    refine ⟨decide (kvTokens - s.cache.hostPool.freeSlots.length ≤ k), s', ?_, hdid, hsame⟩
    rw [hrun]
    rfl
  · exact ⟨true, s, rfl, .refl s, .refl s⟩

section

variable (h : UniInv hp s) (hn : n ∈ s.nodes)
include h hn

theorem value_length (hd : s.tree.onDevice n) : (s.tree.deviceValue n).length = s.tree.len n :=
  Hi.value_length h.state hn hd

theorem recordWrite_spec {q : NodeId} {hpool : HostPool}
    (hd : s.tree.onDevice n) (hb : ¬ s.tree.backedUp n) (hq : s.tree.par n = some q)
    (hqb : s.tree.backedUp q)
    (halloc : s.cache.hostPool.alloc (s.tree.deviceValue n).length = .ok (some v, hpool))
    (hv : v.length = s.tree.len n) :
    ∃ s', recordWrite hp { s.cache with
          hostPool := hpool
          ackWriteQueue := s.cache.ackWriteQueue ++ [[n]] } n (s.tree.deviceValue n) v false =
        .ok s'.cache ∧
      Works hp s s' ∧ SameDevice s.tree s.nodes s'.tree s'.nodes := by
  obtain ⟨hinv, hud⟩ := backup_treeInv (f := fun x => { x with hostValue := some v })
    (fun _ => rfl) h.tree hn hd hq hqb hv
  obtain ⟨d, t, hlock, hl, hinv'⟩ := incLockRef_tree hinv hn hud
  have hbackup : IsBackup s.tree t n v := .of_modify (fun _ => rfl) hl
  have hnew : n ∉ s.cache.ongoingWriteThrough.map OngoingWrite.node := fun hmem =>
    hb (h.state.writes_backed n hmem)
  have hfilter : (s.cache.ongoingWriteThrough.filter fun w => w.node ≠ n) =
      s.cache.ongoingWriteThrough := by
    refine filter_eq_self.mpr fun w hw => ?_
    exact decide_eq_true fun e => hnew (e ▸ mem_map_of_mem hw)
  have hvalue : t.deviceValue n = s.tree.deviceValue n := deviceValue_congr (hbackup.value_eq _)
  set s1 : UniState := { s with
    cache := { s.cache with
      tree := t
      hostPool := hpool
      ongoingWriteThrough := ⟨n, some [], s.tree.deviceValue n⟩ :: s.cache.ongoingWriteThrough
      ackWriteQueue := s.cache.ackWriteQueue ++ [[n]] }
    ledger := s.ledger.copyToHost n }
  have hstep : UniStep hp s s1 := by
    refine .step (backup hn hd hb halloc hbackup hinv') rfl ?_
      (fun e he => .inl he) (append_nil _).symm nofun ?_
    · intro w hw
      rcases mem_cons.mp hw with rfl | hw
      · exact .inr ⟨rfl, hvalue.symm⟩
      · exact .inl hw
    · rw [flatten_nil, Pages.pagesOf_nil, Multiset.coe_nil, add_zero]
  have hdev : SameDevice s.tree s.nodes t s.nodes :=
    ⟨hbackup.counter_eq, hbackup.root_eq, hbackup.par_eq, hbackup.key_eq, hbackup.value_eq,
      subset_rfl, fun _ hm _ => hm⟩
  unfold recordWrite lockWrite
  simp only [Bool.false_eq_true, if_false, bind, Except.bind]
  rw [hlock]
  · simp only [withTree]
    rw [hfilter]
    by_cases hflag : hp.isHybridWriteThrough = true ∧ (t.nodes n).hicacheDemoteAfterWrite = true
    · set t' := t.modify n fun x => { x with hicacheDemoteAfterWrite := false }
      have hsame : IsSame t t' := modify_isSame (fun _ => rfl)
      have hbook : UniStep hp s1 { s1 with cache := { s1.cache with
          tree := t'
          hybridWriteDemoteNodeIds := s.cache.hybridWriteDemoteNodeIds.insert n } } :=
        .book hsame rfl rfl rfl rfl rfl rfl rfl
      exact ⟨_, if_pos hflag, .head hstep rfl (.single hbook rfl),
        hdev.trans (SameDevice.of_isSame hsame)⟩
    · exact ⟨s1, if_neg hflag, .single hstep rfl, hdev⟩
  · rfl

theorem writeBackup_spec (hr : n ≠ s.tree.rootNode)
    (hd : s.tree.onDevice n) (hb : ¬ s.tree.backedUp n) (pick : Nat → Nat) :
    ∃ k s', s.cache.writeBackup hp n false pick = .ok (k, s'.cache) ∧ Works hp s s' ∧
      SameDevice s.tree s.nodes s'.tree s'.nodes := by
  obtain ⟨q, hqA, hq⟩ := h.shape.rooted.par_mem hn hr
  have hq' : (s.cache.tree.nodes n).parent = some q := hq
  have hvalue := value_of_onDevice hd
  have hlen := value_length h hn hd
  unfold writeBackup
  simp only [hq', Bool.not_false, true_and]
  by_cases hparent : q ≠ s.cache.tree.rootNode ∧ ¬ (s.cache.tree.nodes q).backuped = true
  · rw [if_pos hparent]
    exact ⟨0, s, rfl, .refl s, SameDevice.refl _ _⟩
  rw [if_neg hparent]
  have hqb : s.tree.backedUp q := by
    by_contra hno
    refine hparent ⟨?_, mt backuped_iff.mp hno⟩
    rintro rfl
    exact hno h.tree.core.root_backed
  obtain ⟨enough, s1, hroom, hdid, hsame⟩ :=
    makeHostRoom_spec h (s.tree.deviceValue n).length pick
  have h1 := hdid.inv h
  simp only [hvalue, hroom, bind]
  cases enough with
  | false => exact ⟨0, s1, rfl, hdid, hsame.toSameDevice⟩
  | true =>
    have hdvd : s1.cache.hostPool.pageSize ∣ (s.tree.deviceValue n).length := by
      have : s1.cache.hostPool.pageSize = hp.pageSize := h1.state.host_page
      rw [this, hlen]
      exact h.shape.len_dvd n hn
    unfold write
    rcases HostPool.alloc_cases hdvd with ⟨hnone, _⟩ | ⟨v, hpool, hsome, hv⟩
    · refine ⟨0, s1, ?_, hdid, hsame.toSameDevice⟩
      simp only [hnone, Except.bind]
      rfl
    · have hval : s1.tree.deviceValue n = s.tree.deviceValue n := deviceValue_congr (hsame.value_eq _)
      have hn1 := hsame.device_mem n hn hd
      have hqd := h.tree.core.device_par n hn q hq hd
      have hb1 : ¬ s1.tree.backedUp n := by
        rw [backedUp, hsame.host_eq n hn1]
        exact hb
      have hqb1 : s1.tree.backedUp q := by
        rw [backedUp, hsame.host_eq q (hsame.device_mem q hqA hqd)]
        exact hqb
      obtain ⟨s2, hrec, hdid2, hsame2⟩ := recordWrite_spec h1 hn1
        ((hsame.onDevice_iff n).mpr hd) hb1 ((hsame.par_eq n).trans hq) hqb1 (hval ▸ hsome)
        (by rw [hv, hlen, hsame.len_eq])
      refine ⟨v.length, s2, ?_, hdid.trans hdid2,
        hsame.toSameDevice.trans hsame2⟩
      rw [hval] at hrec
      simp only [hsome, bind, Except.bind, Bool.not_true, Bool.false_eq_true, if_false]
      rw [hrec]

theorem incHitCount_spec (hr : n ≠ s.tree.rootNode)
    (hd : s.tree.onDevice n) (chunked : Bool) (pick : Nat → Nat) :
    ∃ s', s.cache.incHitCount hp n chunked pick = .ok s'.cache ∧ Works hp s s' ∧
      SameDevice s.tree s.nodes s'.tree s'.nodes := by
  unfold UnifiedCache.incHitCount
  split_ifs with hskip
  · exact ⟨s, rfl, .refl s, SameDevice.refl _ _⟩
  · set t := s.tree.modify n fun x => { x with hitCount := x.hitCount + 1 }
    have hsame : IsSame s.tree t := modify_isSame (fun _ => rfl)
    set s1 : UniState := { s with cache := s.cache.withTree t }
    have hstep : UniStep hp s s1 := .book_tree hsame
    show ∃ s', (if ¬ (t.nodes n).backuped = true ∧ _ then _ else _) = _ ∧ _
    split_ifs with hwrite
    · obtain ⟨k, s', hrun, hdid, hdev⟩ := writeBackup_spec (hstep.inv h) hn
        (fun e => hr (e.trans hsame.root_eq)) ((hsame.onDevice_iff n).mpr hd)
        (mt backuped_iff.mpr hwrite.1) pick
      have hrun' : (s.cache.withTree t).writeBackup hp n false pick = .ok (k, s'.cache) := hrun
      refine ⟨s', ?_, .head hstep rfl hdid,
        (SameDevice.of_isSame hsame).trans hdev⟩
      rw [hrun']
      rfl
    · exact ⟨s1, rfl, .single hstep rfl, SameDevice.of_isSame hsame⟩

end

/-! ## Eviction from the device -/

/-- The tree of the proofs, whatever copies are under way. -/
abbrev UniState.TreeInv (hp : HiParams) (s : UniState) : Prop :=
  Radix.TreeInv hp.toCacheParams s.tree s.nodes

theorem evictToHost_spec (h : s.TreeInv hp) (hl : DeviceLeaf s.tree s.nodes x)
    (hb : s.tree.backedUp x) :
    ∃ s', s.cache.evictToHost x = .ok (s.tree.len x, s'.cache) ∧ s'.TreeInv hp ∧ Works hp s s' ∧
      Evicted s.tree s.nodes x s'.tree s'.nodes ∧
      s'.cache.ackWriteQueue = s.cache.ackWriteQueue ∧ s'.cache.hostPool = s.cache.hostPool := by
  obtain ⟨q, _, hq⟩ := h.core.shape.rooted.par_mem hl.mem hl.ne_root
  have hlen := h.core.value_len x hl.mem _ (value_of_onDevice hl.device)
  have hq' : (s.cache.tree.nodes x).parent = some q := hq
  have hvalue := value_of_onDevice hl.device
  have hback : (s.cache.tree.nodes x).backuped = true := backuped_iff.mpr hb
  have hev : ¬ (s.cache.tree.nodes x).evicted = true := fun he => evicted_iff.mp he hl.device
  have hstep1 : UniStep hp s _ := .note hl
  set s1 : UniState := { s with cache := { s.cache with
    freed := s.cache.freed ++ [⟨s.tree.deviceValue x, s.cache.ongoingWriteThrough⟩] } }
  set s2 : UniState := { s1 with
    cache := { s1.cache with
      tree := repair (emptyNode s.tree x (s.tree.len x)) x q
      allocator := s.cache.allocator.free (s.tree.deviceValue x) }
    ledger := s.ledger.recordRemoveEvent hp.pageSize s.tree x .gpu }
  have hstep2 : UniStep hp s1 s2 := .of_hi (demote hl hb hq) rfl
  refine ⟨s2, ?_, emptyNode_treeInv h hl hb hq, .head hstep1 rfl (.single hstep2 rfl),
    emptyNode_evicted s.tree s.nodes x q (s.tree.len x), rfl, rfl⟩
  unfold evictToHost
  rw [if_neg (not_or.mpr ⟨hev, not_not.mpr hback⟩)]
  simp only [hvalue, hq', free]
  rw [hlen]
  have htree := evictToHost_tree h hl hb hq
  unfold emptyNode at htree
  rw [htree]
  rfl

theorem deleteDeviceLeaf_spec (h : s.TreeInv hp) (hl : DeviceLeaf s.tree s.nodes x)
    (hb : ¬ s.tree.backedUp x) :
    ∃ s', s.cache.deleteDeviceLeaf hp x = .ok (s.tree.len x, s'.cache) ∧ s'.TreeInv hp ∧
      Works hp s s' ∧ Evicted s.tree s.nodes x s'.tree s'.nodes ∧
      s'.cache.hostPool = s.cache.hostPool := by
  obtain ⟨q, u, t, hpop, hdel, hr, hinv⟩ := deleteDeviceLeaf_tree h hl hb
  have hlen := h.core.value_len x hl.mem _ (value_of_onDevice hl.device)
  have hvalue := value_of_onDevice hl.device
  have hstep1 : UniStep hp s _ := .note hl
  set s1 : UniState := { s with cache := { s.cache with
    freed := s.cache.freed ++ [⟨s.tree.deviceValue x, s.cache.ongoingWriteThrough⟩] } }
  set s2 : UniState := { s1 with
    cache := { s1.cache with
      tree := t
      allocator := s.cache.allocator.free (s.tree.deviceValue x) }
    ledger := s.ledger.recordRemoveEvent hp.pageSize s.tree x .gpu
    nodes := s.nodes.erase x }
  have hstep2 : UniStep hp s1 s2 := .of_hi (drop hl hb hr hinv) rfl
  refine ⟨s2, ?_, hinv, .head hstep1 rfl (.single hstep2 rfl),
    Evicted.of_remove hr hl.device, rfl⟩
  have hpop' : popChild hp.pageSize { s.cache.tree.addEvictable (-(s.tree.len x)) with
      evictableLeaves := s.cache.tree.evictableLeaves.erase x } x = .ok (q, u) := hpop
  have hdel' : deleteTombstones hp.pageSize (u.counter + 1)
    (updateEvictableLeafSets u q) q = .ok t := hdel
  unfold deleteDeviceLeaf
  simp only [hvalue, bind, Except.bind, free, withTree,
    addEvictable] at hpop' ⊢
  rw [hlen, hpop']
  dsimp only
  rw [hdel']

/-- What `evict` needs: with write-back, a node without backup that may be evicted hangs at one
with a backup, and the host has free slots for all that may be evicted. -/
structure CanEvict (hp : HiParams) (s : UniState) : Prop where
  tree : s.TreeInv hp
  page : s.cache.hostPool.pageSize = hp.pageSize
  back : hp.writePolicy = .writeBack → ∀ n ∈ s.nodes, s.tree.onDevice n →
    (s.tree.nodes n).lockRef = 0 → ¬ s.tree.backedUp n →
    (∃ q, s.tree.par n = some q ∧ s.tree.backedUp q) ∧
      s.tree.evictableSize ≤ s.cache.hostPool.freeSlots.length

/-- Unlocked nodes have left the device. -/
structure EvictsUnlocked (hp : HiParams) (s s' : UniState) : Prop where
  lock_eq : ∀ n, (s'.tree.nodes n).lockRef = (s.tree.nodes n).lockRef
  unlocked : ∀ n ∈ s.nodes, s.tree.onDevice n → ¬ (n ∈ s'.nodes ∧ s'.tree.onDevice n) →
    (s.tree.nodes n).lockRef = 0
  through : hp.writePolicy ≠ .writeBack → Works hp s s' ∧ SameHost s.tree s.nodes s'.tree s'.nodes

theorem EvictsUnlocked.trans {s' s'' : UniState} (h : EvictsUnlocked hp s s')
    (g : EvictsUnlocked hp s' s'') : EvictsUnlocked hp s s'' := by
  refine ⟨fun n => (g.lock_eq n).trans (h.lock_eq n), fun n hn hd hno => ?_, fun hpol =>
    ⟨(h.through hpol).1.trans (g.through hpol).1, (h.through hpol).2.trans (g.through hpol).2⟩⟩
  by_cases hmid : n ∈ s'.nodes ∧ s'.tree.onDevice n
  · exact (h.lock_eq n).symm.trans (g.unlocked n hmid.1 hmid.2 hno)
  · exact h.unlocked n hn hd hmid

/-- `s₁` is `s`, or with write-back `s` with a backup of `x`. -/
structure Backs (hp : HiParams) (s : UniState) (x : NodeId) (s₁ : UniState) : Prop extends
    SameDevice s.tree s.nodes s₁.tree s.nodes where
  tree : s₁.TreeInv hp
  page : s₁.cache.hostPool.pageSize = hp.pageSize
  through : hp.writePolicy ≠ .writeBack → s₁ = s
  nodes_eq : s₁.nodes = s.nodes
  lock_eq : ∀ n, (s₁.tree.nodes n).lockRef = (s.tree.nodes n).lockRef
  backed : ∀ n, s.tree.backedUp n → s₁.tree.backedUp n
  self : s₁.tree.backedUp x
  size_eq : s₁.tree.evictableSize = s.tree.evictableSize
  room : s.cache.hostPool.freeSlots.length ≤ s₁.cache.hostPool.freeSlots.length + s.tree.len x

/-- The write of `_evict_device_leaf` with write-back. -/
theorem writeBack_spec {q : NodeId} (h : CanEvict hp s) (hpol : hp.writePolicy = .writeBack)
    (hl : DeviceLeaf s.tree s.nodes x) (hq : s.tree.par x = some q) (hqb : s.tree.backedUp q)
    (hroom : s.tree.len x ≤ s.cache.hostPool.freeSlots.length) (pick : Nat → Nat) :
    ∃ k s₁, s.cache.writeBackup hp x true pick = .ok (k, s₁.cache) ∧ Backs hp s x s₁ := by
  have hq' : (s.cache.tree.nodes x).parent = some q := hq
  have hvalue := value_of_onDevice hl.device
  have hlen := h.tree.core.value_len x hl.mem _ hvalue
  have hdvd : s.cache.hostPool.pageSize ∣ (s.tree.deviceValue x).length := by
    rw [h.page, hlen]
    exact h.tree.core.shape.len_dvd x hl.mem
  rcases HostPool.alloc_cases hdvd with ⟨_, hlt⟩ | ⟨v, hpool, halloc, hv⟩
  · exact absurd (hlen ▸ hlt) (not_lt.mpr hroom)
  set u := s.tree.modify x fun y => { y with hostValue := some v }
  have ht : IsTouch s.tree u x := modify_isTouch rfl rfl rfl
  have hself : u.nodes x = { s.tree.nodes x with hostValue := some v } := if_pos rfl
  have hback : u.backedUp x := by
    rw [backedUp, hself]
    exact Option.some_ne_none v
  refine ⟨v.length, { s with cache := { s.cache with
    tree := u
    hostPool := hpool
    ackWriteQueue := s.cache.ackWriteQueue ++ [[x]]
    ongoingWriteThrough := ⟨x, none, s.tree.deviceValue x⟩ ::
      s.cache.ongoingWriteThrough.filter (·.node ≠ x) } }, ?_,
    ⟨rfl, rfl, ht.par_eq, ht.key_eq, fun n => ?_, subset_rfl, fun _ hn _ => hn⟩,
    (backup_treeInv (f := fun y => { y with hostValue := some v }) (fun _ => rfl) h.tree hl.mem
      hl.device hq hqb (hv.trans hlen)).1, (HostPool.alloc_pageSize halloc).trans h.page,
    fun e => absurd hpol e, rfl, fun n => ?_, fun n hb => ?_, hback, rfl, ?_⟩
  · have hmode : hp.isHybridWriteThrough = false := by simp [HiParams.isHybridWriteThrough, hpol]
    unfold writeBackup makeHostRoom
    simp [hq', hvalue, bind, Except.bind, write, halloc, recordWrite,
      lockWrite, withTree, hmode, not_lt.mpr (hlen.trans_le hroom)]
    rfl
  · by_cases hn : n = x
    · rw [hn, hself]
    · exact ht.value_eq n hn
  · by_cases hn : n = x
    · rw [hn, hself]
    · exact ht.lock_eq n hn
  · by_cases hn : n = x
    · exact hn ▸ hback
    · exact (ht.backedUp_iff hn).mpr hb
  · rw [← HostPool.alloc_some halloc, length_append, hv, hlen, add_comm]

theorem evictDeviceLeaf_spec (h : CanEvict hp s) (hl : DeviceLeaf s.tree s.nodes x)
    (pick : Nat → Nat) :
    ∃ s', s.cache.evictDeviceLeaf hp x pick = .ok (s.tree.len x, s'.cache) ∧ CanEvict hp s' ∧
      EvictsUnlocked hp s s' ∧
      (onDeviceNodes s'.tree s'.nodes).card + 1 = (onDeviceNodes s.tree s.nodes).card := by
  have hleaf : isDeviceLeaf s.cache.tree x = true := (isDeviceLeaf_iff h.tree.core hl.mem).mpr hl
  unfold evictDeviceLeaf
  rw [if_neg (not_not.mpr hleaf)]
  have hfree : ∀ s' : UniState, (∀ n, n ∈ s'.nodes ∧ s'.tree.onDevice n ↔
      (n ∈ s.nodes ∧ s.tree.onDevice n) ∧ n ≠ x) → ∀ n ∈ s.nodes, s.tree.onDevice n →
      ¬ (n ∈ s'.nodes ∧ s'.tree.onDevice n) → (s.tree.nodes n).lockRef = 0 := by
    intro s' hiff n hn hd hno
    have hnx : n = x := by_contra fun hne => hno ((hiff n).mpr ⟨⟨hn, hd⟩, hne⟩)
    exact hnx ▸ hl.unlocked
  by_cases hdel : ¬ s.tree.backedUp x ∧ hp.writePolicy ≠ .writeBack
  · obtain ⟨s', hrun, h', hdid, hev, hpool⟩ := deleteDeviceLeaf_spec h.tree hl hdel.1
    rw [if_neg (mt backuped_iff.mp hdel.1), if_neg hdel.2]
    exact ⟨s', hrun, ⟨h', hpool ▸ h.page, fun e => absurd e hdel.2⟩,
      ⟨hev.lock_eq, hfree s' hev.device_iff, fun _ => ⟨hdid, hev.toSameHost⟩⟩,
      hev.card hl.mem hl.device⟩
  obtain ⟨q, _, hq⟩ := h.tree.core.shape.rooted.par_mem hl.mem hl.ne_root
  obtain ⟨s₁, heq, hB⟩ : ∃ s₁ : UniState, (if (s.cache.tree.nodes x).backuped = true then
      s.cache.evictToHost x else if hp.writePolicy = .writeBack then do
        let (_, c) ← s.cache.writeBackup hp x true pick
        c.evictToHost x
      else s.cache.deleteDeviceLeaf hp x) = s₁.cache.evictToHost x ∧ Backs hp s x s₁ := by
    by_cases hb : s.tree.backedUp x
    · exact ⟨s, if_pos (backuped_iff.mpr hb), .refl _ _, h.tree, h.page, fun _ => rfl, rfl,
        fun _ => rfl, fun _ hb => hb, hb, rfl, Nat.le_add_right _ _⟩
    · have hpol : hp.writePolicy = .writeBack := not_not.mp fun e => hdel ⟨hb, e⟩
      obtain ⟨⟨q, hq, hqb⟩, hroom⟩ := h.back hpol x hl.mem hl.device hl.unlocked hb
      have hle := len_le_evictable h.tree hl
      obtain ⟨k, s₁, hrun, hB⟩ := writeBack_spec h hpol hl hq hqb (by omega) pick
      refine ⟨s₁, ?_, hB⟩
      rw [if_neg (mt backuped_iff.mp hb), if_pos hpol, hrun]
      rfl
  have hl₁ : DeviceLeaf s₁.tree s₁.nodes x :=
    ⟨hB.nodes_eq ▸ hl.mem, hB.tree.core.shape.rooted.ne_root_of_par ((hB.par_eq x).trans hq),
      (hB.onDevice_iff x).mpr hl.device, (hB.lock_eq x).trans hl.unlocked, fun c hc hcx =>
      mt (hB.onDevice_iff c).mp (hl.childless c (hB.nodes_eq ▸ hc) ((hB.par_eq c).symm.trans hcx))⟩
  obtain ⟨s', hrun, h', hdid, hev, _, hpool⟩ := evictToHost_spec hB.tree hl₁ hB.self
  have hiff := hev.device_iff
  simp only [hB.nodes_eq, hB.onDevice_iff] at hiff
  have hlock : ∀ n, (s'.tree.nodes n).lockRef = (s.tree.nodes n).lockRef := fun n =>
    (hev.lock_eq n).trans (hB.lock_eq n)
  have hbacked : ∀ n, s.tree.backedUp n → s'.tree.backedUp n := fun n hb => by
    rw [backedUp, hev.host_eq]
    exact hB.backed n hb
  refine ⟨s', by rw [heq, hrun, hB.len_eq], ⟨h', hpool ▸ hB.page, fun hpol n hn hd hl' hb => ?_⟩,
    ⟨hlock, hfree s' hiff, fun hpol => ?_⟩, ?_⟩
  · obtain ⟨⟨hnA, hnd⟩, _⟩ := (hiff n).mp ⟨hn, hd⟩
    obtain ⟨⟨q, hq, hqb⟩, hroom⟩ := h.back hpol n hnA hnd ((hlock n).symm.trans hl')
      (mt (hbacked n) hb)
    have hsize := hev.evictable hB.tree h' hl₁
    have hroom' := hB.room
    rw [hB.size_eq, hB.len_eq] at hsize
    rw [← hpool] at hroom'
    exact ⟨⟨q, ((hev.par_eq n).trans (hB.par_eq n)).trans hq, hbacked q hqb⟩, by omega⟩
  · obtain rfl := hB.through hpol
    exact ⟨hdid, hev.toSameHost⟩
  · have hcard := hev.card hl₁.mem hl₁.device
    simpa only [onDeviceNodes, hB.nodes_eq, hB.onDevice_iff] using hcard

/-- `evict` returns for every amount. -/
theorem evict_spec (h : CanEvict hp s) (numTokens : Nat) (pick : Nat → Nat → Nat) :
    ∃ k s', s.cache.evict hp numTokens pick = .ok (k, s'.cache) ∧ CanEvict hp s' ∧
      EvictsUnlocked hp s s' := by
  refine heapLoop_spec
    (e := fun fuel c x => c.evictDeviceLeaf hp x (pick fuel)) (fun _ _ _ _ => rfl)
    (f := fun s => (onDeviceNodes s.tree s.nodes).card)
    (fun s => ⟨fun _ => rfl, fun _ hn hd hno => absurd ⟨hn, hd⟩ hno, fun _ => ⟨.refl s, .refl _ _⟩⟩)
    .trans (fun s fuel x h hx => ?_) _ s _ _ h ?_
  · obtain ⟨s', hrun, h'⟩ := evictDeviceLeaf_spec h (h.tree.mem_leaves.mp hx) (pick fuel)
    exact ⟨_, s', hrun, h'⟩
  · have hcard := h.tree.core.shape.card_le
    have hdev : (onDeviceNodes s.tree s.nodes).card ≤ s.nodes.card := Finset.card_filter_le _ _
    have hheap := ListSet.length_le_card fun x hx => (h.tree.mem_leaves.mp hx).mem
    show _ + s.tree.evictableLeaves.elems.length < 2 * s.tree.counter + 1
    omega

theorem evict_writeThrough (hpol : hp.writePolicy ≠ .writeBack) (h : UniInv hp s) (numTokens : Nat)
    (pick : Nat → Nat → Nat) :
    ∃ k s', s.cache.evict hp numTokens pick = .ok (k, s'.cache) ∧ Works hp s s' ∧
      SameHost s.tree s.nodes s'.tree s'.nodes := by
  obtain ⟨k, s', hrun, _, hev⟩ := evict_spec ⟨h.tree, h.state.host_page, fun e => absurd e hpol⟩
    numTokens pick
  exact ⟨k, s', hrun, hev.through hpol⟩

/-! ## Demotion -/

theorem tryHybridDemoteDeviceNode_spec (h : UniInv hp s) (n : NodeId) :
    ∃ s', s.cache.tryHybridDemoteDeviceNode hp n = .ok s'.cache ∧ Works hp s s' ∧
      s'.cache.ackWriteQueue = s.cache.ackWriteQueue := by
  unfold tryHybridDemoteDeviceNode
  by_cases hmode : ¬ hp.isHybridWriteThrough = true
  · rw [if_pos hmode]
    exact ⟨s, rfl, .refl s, rfl⟩
  rw [if_neg hmode]
  by_cases hskip : n = s.cache.tree.rootNode ∨ (s.cache.tree.nodes n).evicted = true ∨
      ¬ (s.cache.tree.nodes n).backuped = true
  · rw [if_pos hskip]
    exact ⟨s, rfl, .refl s, rfl⟩
  rw [if_neg hskip]
  by_cases hlock : 0 < (s.cache.tree.nodes n).lockRef
  · rw [if_pos hlock]
    have hbook : UniStep hp s { s with cache := { s.cache with
        hybridPendingDeviceDemotions := s.cache.hybridPendingDeviceDemotions.insert n } } :=
      .book (.refl _) rfl rfl rfl rfl rfl rfl rfl
    exact ⟨_, rfl, .single hbook rfl, rfl⟩
  rw [if_neg hlock]
  set s1 : UniState := { s with cache := { s.cache with
    hybridPendingDeviceDemotions := s.cache.hybridPendingDeviceDemotions.erase n } }
  have hbook : UniStep hp s s1 := .book (.refl _) rfl rfl rfl rfl rfl rfl rfl
  by_cases hchild : ∃ x ∈ (s.tree.nodes n).childList, ¬ (s.tree.nodes x).evicted = true
  · exact ⟨s1, if_pos hchild, .single hbook rfl, rfl⟩
  obtain ⟨hdev, hback⟩ := not_or.mp (not_or.mp hskip).2
  have hd : s.tree.onDevice n := not_not.mp (mt evicted_iff.mpr hdev)
  have hb : s.tree.backedUp n := backuped_iff.mp (not_not.mp hback)
  -- a node on both tiers is in the tree
  have hn : n ∈ s.nodes := by
    by_contra hno
    exact h.state.stale n hno hd hb
  have hl : DeviceLeaf s.tree s.nodes n :=
    (deviceLeaf_iff_status h.tree.core hn).mpr ⟨not_or.mpr ⟨hdev, hlock⟩, hchild⟩
  obtain ⟨s2, hrun, _, hdid, _, hq, _⟩ := evictToHost_spec (hbook.inv h).tree hl hb
  refine ⟨s2, (if_neg hchild).trans ?_, .head hbook rfl hdid, hq⟩
  rw [hrun]
  rfl

theorem demoteAll_spec : ∀ (ns : List NodeId) (s : UniState), UniInv hp s →
    ∃ s', demoteAll hp s.cache ns = .ok s'.cache ∧ Works hp s s' ∧
      s'.cache.ackWriteQueue = s.cache.ackWriteQueue := by
  intro ns
  induction ns with
  | nil => exact fun s _ => ⟨s, rfl, .refl s, rfl⟩
  | cons n ns ih =>
    intro s h
    obtain ⟨s1, hrun, hdid, hq⟩ := tryHybridDemoteDeviceNode_spec h n
    obtain ⟨s2, hrun2, hdid2, hq2⟩ := ih s1 (hdid.inv h)
    refine ⟨s2, ?_, hdid.trans hdid2, hq2.trans hq⟩
    unfold demoteAll
    rw [hrun]
    exact hrun2

theorem drainHybridPendingDemotions_spec (h : UniInv hp s) (pick : Nat → Nat) :
    ∃ s', s.cache.drainHybridPendingDemotions hp pick = .ok s'.cache ∧ Works hp s s' ∧
      s'.cache.ackWriteQueue = s.cache.ackWriteQueue := by
  unfold drainHybridPendingDemotions
  by_cases hmode : ¬ hp.isHybridWriteThrough = true
  · rw [if_pos hmode]
    have hbook : UniStep hp s { s with cache := { s.cache with
        hybridPendingDeviceDemotions := .empty
        hybridWriteDemoteNodeIds := .empty
        hybridLoadBackNodesByReqid := ∅ } } := .book (.refl _) rfl rfl rfl rfl rfl rfl rfl
    exact ⟨_, rfl, .single hbook rfl, rfl⟩
  · rw [if_neg hmode]
    exact demoteAll_spec _ s h

theorem demoteHybridLoadBackTailForReq_spec (h : UniInv hp s) (rid : Nat) :
    ∃ s', s.cache.demoteHybridLoadBackTailForReq hp rid = .ok s'.cache ∧ Works hp s s' := by
  set s1 : UniState := { s with cache := { s.cache with
    hybridLoadBackNodesByReqid := s.cache.hybridLoadBackNodesByReqid.erase rid } }
  have hbook : UniStep hp s s1 := .book (.refl _) rfl rfl rfl rfl rfl rfl rfl
  obtain ⟨s2, hrun, hdid, _⟩ := demoteAll_spec
    (s.cache.selectHybridLoadBackTailNodes hp (orderedNodes s.cache.tree
      ((s.cache.hybridLoadBackNodesByReqid.lookup rid).getD []))) s1 (hbook.inv h)
  exact ⟨s2, hrun, .head hbook rfl hdid⟩

/-! ## Acknowledgements -/

theorem map_eraseP {α β : Type*} [DecidableEq β] (f : α → β) (b : β) (l : List α) :
    (l.eraseP fun a => f a = b).map f = (l.map f).erase b := by
  rw [erase_eq_eraseP', eraseP_map]
  congr!

theorem exists_find {α β : Type*} [DecidableEq β] {f : α → β} {b : β} {l : List α}
    (h : b ∈ l.map f) : ∃ a, l.find? (fun a => decide (f a = b)) = some a ∧ a ∈ l := by
  obtain ⟨a0, ha0, hb⟩ := mem_map.mp h
  have hsome : (l.find? fun a => decide (f a = b)).isSome := by
    simpa using ⟨a0, ha0, hb⟩
  obtain ⟨a, ha⟩ := Option.isSome_iff_exists.mp hsome
  exact ⟨a, ha, mem_of_find?_eq_some ha⟩

theorem ackDemote_spec (h : UniInv hp s) (x : NodeId) :
    ∃ s', (if x ∈ s.cache.hybridWriteDemoteNodeIds then
        tryHybridDemoteDeviceNode hp { s.cache with
          hybridWriteDemoteNodeIds := s.cache.hybridWriteDemoteNodeIds.erase x } x
      else .ok s.cache) = .ok s'.cache ∧ Works hp s s' ∧
      s'.cache.ackWriteQueue = s.cache.ackWriteQueue := by
  split_ifs with hmem
  · set s1 : UniState := { s with cache := { s.cache with
      hybridWriteDemoteNodeIds := s.cache.hybridWriteDemoteNodeIds.erase x } }
    have hbook : UniStep hp s s1 := .book (.refl _) rfl rfl rfl rfl rfl rfl rfl
    obtain ⟨s2, hrun, hdid, hq⟩ := tryHybridDemoteDeviceNode_spec (hbook.inv h) x
    exact ⟨s2, hrun, .head hbook rfl hdid, hq⟩
  · exact ⟨s, rfl, .refl s, rfl⟩

theorem ackWrite_spec (h : UniInv hp s) (hx : x ∈ s.ackedWrites) (blocking : Bool) :
    ∃ s', ackWrite hp blocking s.cache x = .ok s'.cache ∧ UniSteps hp s s' ∧
      Kept { s with ackedWrites := s.ackedWrites.erase x } s' ∧
      s'.cache.ackWriteQueue = s.cache.ackWriteQueue := by
  have hmem := h.state.acked_mem hx
  obtain ⟨t, hdec, hl, hinv⟩ := decLockRef_spec h (write_mem_locks hmem)
  obtain ⟨w, hfind, hw⟩ := exists_find hmem
  have hlock := h.locked w hw
  set s1 : UniState := { s with
    cache := { s.cache with
      tree := t
      ongoingWriteThrough := s.cache.ongoingWriteThrough.eraseP fun w => decide (w.node = x) }
    ledger := s.ledger.ackWrite hp.pageSize s.tree x
    ackedWrites := s.ackedWrites.erase x }
  have hstep : UniStep hp s s1 := by
    refine .plain ?_ rfl (fun w hw => mem_of_mem_eraseP hw) (fun _ he => he) rfl rfl
    have hi := ackWrite (s := s.hi) hx hl hinv
    have hwrites : s1.hi.cache.ongoingWriteThrough = s.hi.cache.ongoingWriteThrough.erase x :=
      map_eraseP OngoingWrite.node x s.cache.ongoingWriteThrough
    rw [← hwrites] at hi
    exact hi
  obtain ⟨s2, hrun, hdid, hq⟩ := ackDemote_spec (hstep.inv h) x
  refine ⟨s2, ?_, .head hstep hdid.steps, hdid.kept, hq⟩
  unfold UnifiedCache.ackWrite finishWrite
  simp only [hfind, hlock]
  rw [hdec]
  · exact hrun
  · rfl

theorem ackWrites_spec (blocking : Bool) : ∀ (ns : List NodeId) (s : UniState), UniInv hp s →
    s.ackedWrites = ns →
    ∃ s', ackWrites hp blocking s.cache ns = .ok s'.cache ∧ UniSteps hp s s' ∧
      Kept { s with ackedWrites := [] } s' ∧
      s'.cache.ackWriteQueue = s.cache.ackWriteQueue := by
  intro ns
  induction ns with
  | nil => exact fun s _ hacked => ⟨s, rfl, .refl, .of_eq rfl hacked rfl rfl, rfl⟩
  | cons n ns ih =>
    intro s h hacked
    obtain ⟨s1, hrun, hsteps, hkept, hq⟩ :=
      ackWrite_spec h (hacked ▸ mem_cons_self) blocking
    have hacked1 : s1.ackedWrites = ns := by
      rw [hkept.ackedWrites_eq]
      rw [hacked, erase_cons_head]
    obtain ⟨s2, hrun2, hsteps2, hkept2, hq2⟩ := ih s1 (hsteps.inv h) hacked1
    refine ⟨s2, ?_, hsteps.trans hsteps2,
      .of_eq (hkept2.holders_eq.trans hkept.holders_eq) hkept2.ackedWrites_eq
        (hkept2.ackedLoads_eq.trans hkept.ackedLoads_eq) (hkept2.owned_eq.trans hkept.owned_eq),
      hq2.trans hq⟩
    unfold ackWrites
    rw [hrun]
    exact hrun2

theorem writingCheck_spec (h : UniInv hp s) (hacked : s.ackedWrites = []) (finished : Nat) :
    ∃ s', s.cache.writingCheck hp finished = .ok s'.cache ∧ Works hp s s' := by
  unfold writingCheck
  split_ifs with hempty
  · exact ⟨s, rfl, .refl s⟩
  · set s1 : UniState := { s with
      cache := { s.cache with ackWriteQueue := s.cache.ackWriteQueue.drop finished }
      ackedWrites := (s.cache.ackWriteQueue.take finished).flatten }
    have hbook : UniStep hp s s1 := by
      refine .book (.refl _) rfl rfl rfl rfl ?_ rfl rfl
      show (s.cache.ackWriteQueue.take finished).flatten ++
        (s.cache.ackWriteQueue.drop finished).flatten = s.ackedWrites ++ s.cache.ackWriteQueue.flatten
      rw [hacked, ← flatten_append, take_append_drop, nil_append]
    obtain ⟨s2, hrun, hsteps, hkept, _⟩ := ackWrites_spec false _ s1 (hbook.inv h) rfl
    exact ⟨s2, hrun, .head hbook hsteps, .of_eq hkept.holders_eq
      (hkept.ackedWrites_eq.trans hacked.symm) hkept.ackedLoads_eq hkept.owned_eq⟩

theorem writingCheckBlocking_spec (h : UniInv hp s) (hacked : s.ackedWrites = []) :
    ∃ s', s.cache.writingCheckBlocking hp = .ok s'.cache ∧ Works hp s s' := by
  unfold writingCheckBlocking
  split_ifs with hempty
  · exact ⟨s, rfl, .refl s⟩
  · set s1 : UniState := { s with
      cache := { s.cache with ackWriteQueue := [] }
      ackedWrites := s.cache.ackWriteQueue.flatten }
    have hbook : UniStep hp s s1 := by
      refine .book (.refl _) rfl rfl rfl rfl ?_ rfl rfl
      show s.cache.ackWriteQueue.flatten ++ ([] : List (List NodeId)).flatten =
        s.ackedWrites ++ s.cache.ackWriteQueue.flatten
      rw [hacked, flatten_nil, append_nil, nil_append]
    obtain ⟨s2, hrun, hsteps, hkept, hq⟩ := ackWrites_spec true _ s1 (hbook.inv h) rfl
    have hnone : s2.cache.ongoingWriteThrough = [] := by
      have hperm := (hsteps.inv (hbook.inv h)).state.writes
      have hdue : s2.hi.dueWrites = [] := by
        show s2.ackedWrites ++ s2.cache.ackWriteQueue.flatten = []
        rw [hkept.ackedWrites_eq, hq]
        rfl
      rw [hdue] at hperm
      exact map_eq_nil_iff.mp hperm.symm.eq_nil
    refine ⟨s2, ?_, .head hbook hsteps, .of_eq hkept.holders_eq
      (hkept.ackedWrites_eq.trans hacked.symm) hkept.ackedLoads_eq hkept.owned_eq⟩
    rw [hrun]
    show (if s2.cache.ongoingWriteThrough ≠ [] then _ else _) = _
    rw [if_neg (not_not.mpr hnone)]

theorem ackLoad_spec (h : UniInv hp s) (hx : x ∈ s.ackedLoads) (pick : Nat → Nat) :
    ∃ s', s.cache.ackLoad hp x pick = .ok s'.cache ∧ UniSteps hp s s' ∧
      Kept { s with ackedLoads := s.ackedLoads.erase x } s' := by
  have hmem : x ∈ s.cache.ongoingLoadBack.map Prod.fst := h.state.ackedLoad_mem hx
  obtain ⟨t, hdec, hl, hinv⟩ := decLockRef_spec h (load_mem_locks hmem)
  obtain ⟨e, hfind, he⟩ := exists_find hmem
  have hskip := h.loads e he
  set s1 : UniState := { s with
    cache := { s.cache with
      tree := t
      ongoingLoadBack := s.cache.ongoingLoadBack.eraseP fun e => decide (e.1 = x) }
    ackedLoads := s.ackedLoads.erase x }
  have hstep : UniStep hp s s1 := by
    refine .plain ?_ rfl (fun _ hw => hw) (fun e he => mem_of_mem_eraseP he) rfl rfl
    have hi := ackLoad (s := s.hi) hx hl hinv
    have hloads : s1.hi.cache.ongoingLoadBack = s.hi.cache.ongoingLoadBack.erase x :=
      map_eraseP Prod.fst x s.cache.ongoingLoadBack
    rw [← hloads] at hi
    exact hi
  obtain ⟨s2, hrun, hdid, _⟩ := drainHybridPendingDemotions_spec (hstep.inv h) pick
  refine ⟨s2, ?_, .head hstep hdid.steps, hdid.kept⟩
  unfold UnifiedCache.ackLoad
  simp only [hfind, hskip]
  rw [hdec]
  · exact hrun
  · rfl

theorem ackLoads_spec (pick : Nat → Nat → Nat) : ∀ (ns : List NodeId) (s : UniState),
    UniInv hp s → s.ackedLoads = ns →
    ∃ s', ackLoads hp pick s.cache ns = .ok s'.cache ∧ UniSteps hp s s' ∧
      Kept { s with ackedLoads := [] } s' := by
  intro ns
  induction ns with
  | nil => exact fun s _ hacked => ⟨s, rfl, .refl, .of_eq rfl rfl hacked rfl⟩
  | cons n ns ih =>
    intro s h hacked
    obtain ⟨s1, hrun, hsteps, hkept⟩ := ackLoad_spec h (hacked ▸ mem_cons_self)
      (pick ns.length)
    have hacked1 : s1.ackedLoads = ns := by
      rw [hkept.ackedLoads_eq]
      rw [hacked, erase_cons_head]
    obtain ⟨s2, hrun2, hsteps2, hkept2⟩ := ih s1 (hsteps.inv h) hacked1
    refine ⟨s2, ?_, hsteps.trans hsteps2,
      .of_eq (hkept2.holders_eq.trans hkept.holders_eq)
        (hkept2.ackedWrites_eq.trans hkept.ackedWrites_eq) hkept2.ackedLoads_eq
        (hkept2.owned_eq.trans hkept.owned_eq)⟩
    unfold ackLoads
    rw [hrun]
    exact hrun2

theorem drainLoadBackAcks_spec (h : UniInv hp s) (hacked : s.ackedLoads = []) (finished : Nat)
    (pick : Nat → Nat → Nat) :
    ∃ s', s.cache.drainLoadBackAcks hp finished pick = .ok s'.cache ∧ Works hp s s' := by
  unfold drainLoadBackAcks
  split_ifs with hempty
  · exact ⟨s, rfl, .refl s⟩
  · set s1 : UniState := { s with
      cache := { s.cache with ackLoadQueue := s.cache.ackLoadQueue.drop finished }
      ackedLoads := (s.cache.ackLoadQueue.take finished).flatten }
    have hbook : UniStep hp s s1 := by
      refine .book (.refl _) rfl rfl rfl rfl rfl ?_ rfl
      show (s.cache.ackLoadQueue.take finished).flatten ++
        ((s.cache.ackLoadQueue.drop finished).flatten ++ s.cache.loadQueue.map nodeId) =
        s.ackedLoads ++ (s.cache.ackLoadQueue.flatten ++ s.cache.loadQueue.map nodeId)
      rw [hacked, nil_append, ← append_assoc, ← flatten_append, take_append_drop]
    obtain ⟨s2, hrun, hsteps, hkept⟩ := ackLoads_spec pick _ s1 (hbook.inv h) rfl
    exact ⟨s2, hrun, .head hbook hsteps, .of_eq hkept.holders_eq
      hkept.ackedWrites_eq (hkept.ackedLoads_eq.trans hacked.symm) hkept.owned_eq⟩

theorem startLoading_step (s : UniState) :
    UniStep hp s { s with cache := s.cache.startLoading } := by
  unfold startLoading
  split_ifs with hempty
  · exact .book (.refl _) rfl rfl rfl rfl rfl rfl rfl
  · refine .book (.refl _) rfl rfl rfl rfl rfl ?_ rfl
    show s.ackedLoads ++ ((s.cache.ackLoadQueue ++ [s.cache.loadQueue.map nodeId]).flatten ++
      ([] : List LoadOp).map nodeId) =
      s.ackedLoads ++ (s.cache.ackLoadQueue.flatten ++ s.cache.loadQueue.map nodeId)
    simp

theorem flushHicacheEventsOnIdle_spec (h : UniInv hp s) (hacked : s.ackedWrites = [])
    (hloads : s.ackedLoads = []) (finished : Nat) (pick : Nat → Nat → Nat) :
    ∃ s', s.cache.flushHicacheEventsOnIdle hp finished pick = .ok s'.cache ∧ Works hp s s' := by
  obtain ⟨s1, hrun1, hdid1⟩ : ∃ s1, s.cache.flushWrites hp finished = .ok s1.cache ∧
      Works hp s s1 := by
    unfold flushWrites
    split_ifs
    · exact writingCheckBlocking_spec h hacked
    · exact writingCheck_spec h hacked finished
  have h1 := hdid1.inv h
  obtain ⟨s2, hrun2, hdid2⟩ := drainLoadBackAcks_spec h1
    (hdid1.kept.ackedLoads_eq.trans hloads) s1.cache.ackLoadQueue.length pick
  obtain ⟨s3, hrun3, hdid3, _⟩ :=
    drainHybridPendingDemotions_spec (hdid2.inv h1) (pick 0)
  refine ⟨s3, ?_, (hdid1.trans hdid2).trans hdid3⟩
  unfold flushHicacheEventsOnIdle
  simp only [hrun1, hrun2, hrun3, bind, Except.bind]

/-! ## `load_back` -/

theorem makeDeviceRoom_spec (hpol : hp.writePolicy ≠ .writeBack) (h : UniInv hp s)
    (kvTokens : Nat) (pick : Nat → Nat → Nat) :
    ∃ enough s', s.cache.makeDeviceRoom hp kvTokens pick = .ok (enough, s'.cache) ∧
      Works hp s s' ∧ SameHost s.tree s.nodes s'.tree s'.nodes := by
  unfold makeDeviceRoom
  dsimp only
  split_ifs with hfew
  · obtain ⟨k, s', hrun, hdid, hev⟩ :=
      evict_writeThrough hpol h (kvTokens - s.cache.allocator.availableSize) pick
    refine ⟨decide (kvTokens - s.cache.allocator.availableSize ≤ k), s', ?_, hdid, hev⟩
    rw [hrun]
    rfl
  · exact ⟨true, s, rfl, .refl s, .refl _ _⟩

/-- Afterwards `x` is on the device, in a tree of the same shape. -/
structure OnDeviceAt (s : UniState) (x : NodeId) (s' : UniState) : Prop where
  mem : x ∈ s'.nodes
  device : s'.tree.onDevice x
  par_eq : ∀ n, s'.tree.par n = s.tree.par n

theorem finishLoadBack_spec (h : UniInv hp s) {alloc : Allocator}
    (hch : OffChain s.tree s.nodes a ns x) (hne : ns ≠ [])
    (halloc : s.cache.allocator.alloc (hostSlots s.tree ns).length = (some v, alloc))
    (rid : Option Nat) :
    ∃ s', finishLoadBack hp { s.cache with
          allocator := alloc
          loadQueue := s.cache.loadQueue ++ [⟨hostSlots s.tree ns, v, x, 0⟩] } x rid ns v =
        .ok s'.cache ∧
      Works hp s s' ∧ OnDeviceAt s x s' := by
  have hlen : v.length = (hostSlots s.tree ns).length := by
    refine Allocator.length_alloc halloc ?_
    have : s.cache.allocator.pageSize = hp.pageSize := h.state.device_page
    rw [this]
    exact hostSlots_dvd h.tree.core hch.off
  obtain ⟨hdev, d, t, hrun, hload, hinv⟩ :=
    load_tree h.tree hch.device hch.down hch.off hne hlen
  have hxns := hch.down.last_mem hne
  obtain ⟨hxA, hxoff⟩ := hch.off x hxns
  have hnew : x ∉ s.cache.ongoingLoadBack.map Prod.fst := fun hmem =>
    hxoff (h.state.lock_onDevice (load_mem_locks hmem))
  have hfilter : (s.cache.ongoingLoadBack.filter fun e => e.1 ≠ x) = s.cache.ongoingLoadBack := by
    refine filter_eq_self.mpr fun e he => ?_
    exact decide_eq_true fun heq => hnew (heq ▸ mem_map_of_mem he)
  obtain ⟨u, hfilled, hl⟩ := hload.filled
  -- only the list of the request's nodes depends on the mode
  obtain ⟨nodesByReqid, hrec⟩ : ∃ nodesByReqid, ∀ c : UnifiedCache,
      c.hybridLoadBackNodesByReqid = s.cache.hybridLoadBackNodesByReqid →
      recordHybridLoadBackNodes hp c rid ns =
        { c with hybridLoadBackNodesByReqid := nodesByReqid } := by
    unfold recordHybridLoadBackNodes
    cases rid with
    | none => exact ⟨s.cache.hybridLoadBackNodesByReqid, fun c hc => by rw [← hc]⟩
    | some rid =>
      split_ifs
      · exact ⟨s.cache.hybridLoadBackNodesByReqid, fun c hc => by rw [← hc]⟩
      · exact ⟨s.cache.hybridLoadBackNodesByReqid.insert rid
          ((s.cache.hybridLoadBackNodesByReqid.lookup rid).getD [] ++ ns), fun c hc => by rw [hc]⟩
  set s1 : UniState := { s with
    cache := { s.cache with
      tree := t
      allocator := alloc
      ongoingLoadBack := (x, []) :: s.cache.ongoingLoadBack
      loadQueue := s.cache.loadQueue ++ [⟨hostSlots s.tree ns, v, x, 0⟩]
      hybridLoadBackNodesByReqid := nodesByReqid }
    ledger := s.ledger.loadNodes hp.pageSize s.tree ns }
  have hstep : UniStep hp s s1 := by
    refine .step (load hne halloc hload hinv) rfl (fun w hw => .inl hw) ?_
      (append_nil _).symm nofun ?_
    · intro e he
      rcases mem_cons.mp he with rfl | he
      · exact .inr rfl
      · exact .inl he
    · rw [flatten_nil, Pages.pagesOf_nil, Multiset.coe_nil, add_zero]
  refine ⟨s1, ?_, .single hstep rfl, hxA, ?_, ?_⟩
  · unfold finishLoadBack
    have hlock := incLockRef_of_acquire (skipEvicted_onDevice hdev) hrun hinv hxA
    dsimp only
    rw [hrec, hlock]
    · simp only [bind, Except.bind, withTree]
      rw [hfilter]
    · rfl
    · rfl
  · exact (onDevice_congr (hl.value_eq _)).mpr (hfilled.device x hxns)
  · exact fun n => (hl.par_eq n).trans (hfilled.fill.par_eq n)

theorem load_cases (c : UnifiedCache) (hostIndices : List Nat) (x : NodeId) :
    (∃ v alloc, c.allocator.alloc hostIndices.length = (some v, alloc) ∧
      c.load hostIndices x = (some v, { c with
        allocator := alloc
        loadQueue := c.loadQueue ++ [⟨hostIndices, v, x, 0⟩] })) ∨
    c.load hostIndices x = (none, { c with
      allocator := c.allocator.refill (hostIndices.length / c.allocator.pageSize) }) := by
  unfold UnifiedCache.load
  rcases hal : c.allocator.alloc hostIndices.length with ⟨r, alloc⟩
  cases r with
  | none =>
    right
    rw [Allocator.alloc_eq_none hal]
  | some v => exact .inl ⟨v, alloc, rfl, rfl⟩

theorem refill_step (s : UniState) (k : Nat) : UniStep hp s { s with
    cache := { s.cache with allocator := s.cache.allocator.refill k } } :=
  .of_hi (refill (s := s.hi) k) rfl

/-- The lock that `load_back` takes for itself: it is at the node on the device above the
chain. -/
theorem lockChain_spec (h : UniInv hp s) (hch : OffChain s.tree s.nodes a ns x) (hx : x ∈ s.nodes) :
    ∃ d skip t, (∀ c : UnifiedCache, c.tree = s.tree →
        c.incLockRef x = .ok (d, skip, c.withTree t)) ∧
      UniStep hp s { s with cache := s.cache.withTree t, holders := a :: s.holders } ∧
      SameHost s.tree s.nodes t s.nodes ∧
      ∀ m, Anc s.tree.par m x → (m ∈ skip ↔ ¬ Anc s.tree.par m a) := by
  obtain ⟨d, skip, top, t, hlock, htop, htopd, hanc, hskip, hl, hinv⟩ :=
    incLockRef_skip_tree h.tree hx
  have hax := hch.down.anc.1
  obtain rfl : top = a := by
    have htopa : Anc s.tree.par top a :=
      (hch.down.mem_or_anc hanc).resolve_left fun hmem => (hch.off top hmem).2 htopd
    have hatop : Anc s.tree.par a top := by
      by_contra hno
      exact (hskip a hax).2 ((hskip a hax).1.mpr hno) hch.device
    exact h.shape.rooted.anc_antisymm hch.mem htopa hatop
  refine ⟨d, skip, t, hlock, ?_, .of_relock hl, fun m hm => (hskip m hm).1⟩
  exact .of_hi (lock htop hl hinv) rfl

theorem unlockChain_spec (h : UniInv hp s) {hs skip : List NodeId} (hholders : s.holders = a :: hs)
    (hx : x ∈ s.nodes) (hanc : Anc s.tree.par a x)
    (hskip : ∀ m, Anc s.tree.par m x → (m ∈ skip ↔ ¬ Anc s.tree.par m a)) :
    ∃ t, (∀ c : UnifiedCache, c.tree = s.tree → c.decLockRef x skip = .ok (c.withTree t)) ∧
      UniStep hp s { s with cache := s.cache.withTree t, holders := hs } ∧
      SameHost s.tree s.nodes t s.nodes ∧ a ∈ s.nodes ∧ t.onDevice a := by
  have hmem : a ∈ s.hi.holders := by
    show a ∈ s.holders
    exact hholders ▸ mem_cons_self
  have hlock := holder_mem_locks hmem
  obtain ⟨t, hdec, hl, hinv⟩ := decLockRef_skip_tree h.tree h.held hlock (h.state.lock_onDevice hlock)
    hx hanc hskip
  refine ⟨t, hdec, ?_, .of_relock hl, h.held.mem a hlock, ?_⟩
  · have hi := unlock hmem hl hinv
    have hhs : s.hi.holders.erase a = hs := by
      show s.holders.erase a = hs
      rw [hholders, erase_cons_head]
    rw [hhs] at hi
    exact .of_hi hi rfl
  · exact (onDevice_congr (hl.value_eq _)).mpr (h.state.lock_onDevice hlock)

/-- `load_back`: either the chain is left as it is, or all of it is loaded. -/
theorem loadBack_spec (hpol : hp.writePolicy ≠ .writeBack) (h : UniInv hp s) (hx : x ∈ s.nodes)
    (memQuota : Option Int) (rid : Option Nat) (pick : Nat → Nat → Nat) :
    ∃ b s', s.cache.loadBack hp x memQuota rid pick = .ok (b, s'.cache) ∧ Works hp s s' ∧
      (b = true → OnDeviceAt s x s') := by
  obtain ⟨ns, a, hnodes, hch⟩ := nodesToLoad_spec h.state hx
  have hnodes' : nodesToLoad s.cache.tree (s.cache.tree.counter + 1) x [] = .ok (ns, a) :=
    hnodes
  have hch : OffChain s.tree s.nodes a ns x := hch
  obtain ⟨d, skip, t1, hinc, hstep1, hhost1, hskip⟩ := lockChain_spec h hch hx
  set s1 : UniState := { s with cache := s.cache.withTree t1, holders := a :: s.holders } with hs1
  have h1 := hstep1.inv h
  -- the release of the lock, in a state that evictions have led to
  have hunlock : ∀ s2 : UniState, UniInv hp s2 → SameHost s.tree s.nodes s2.tree s2.nodes →
      s2.holders = a :: s.holders → ∃ t, (∀ c : UnifiedCache, c.tree = s2.tree →
          c.decLockRef x skip = .ok (c.withTree t)) ∧
        UniStep hp s2 { s2 with cache := s2.cache.withTree t, holders := s.holders } ∧
        SameHost s.tree s.nodes t s2.nodes ∧ OffChain t s2.nodes a ns x := by
    intro s2 h2 hhost hholders
    have hpar : s2.tree.par = s.tree.par := funext hhost.par_eq
    have hmem : a ∈ s2.nodes := h2.held.mem a (holder_mem_locks
      (show a ∈ s2.holders from hholders ▸ mem_cons_self))
    have hx2 : x ∈ s2.nodes := by
      rcases hch.down.mem_or_anc (anc_refl _ x) with hxns | hxa
      · exact (hhost.off_mem x hx (hch.off x hxns).2).1
      · obtain rfl := h.shape.rooted.anc_antisymm hch.mem hxa hch.down.anc.1
        exact hmem
    obtain ⟨t, hdec, hstep, hhost', ha, had⟩ := unlockChain_spec h2 hholders hx2
      (hpar ▸ hch.down.anc.1) (hpar ▸ hskip)
    exact ⟨t, hdec, hstep, hhost.trans hhost', hch.sameHost (hhost.trans hhost') ha had⟩
  unfold loadBack
  simp only [hnodes', hinc s.cache rfl, bind, Except.bind]
  by_cases hfew : (ns.map (hostValue s.cache.tree)).flatten.length <
      loadBackThreshold ∨ ∃ q ∈ memQuota,
        q + d < (ns.map (hostValue s.cache.tree)).flatten.length
  · rw [if_pos hfew]
    obtain ⟨t2, hdec, hstep2, _, _⟩ := hunlock s1 h1 hhost1 rfl
    rw [hdec _ rfl]
    exact ⟨false, _, rfl, ⟨(Relation.ReflTransGen.single hstep1).tail hstep2, .of_eq rfl rfl rfl rfl⟩,
      fun hb => Bool.noConfusion hb⟩
  rw [if_neg hfew]
  have hne : ns ≠ [] := by
    rintro rfl
    exact hfew (.inl (show 0 < 256 by decide))
  obtain ⟨enough, s2, hroom, hdid2, hhost2⟩ :=
    makeDeviceRoom_spec hpol h1 (ns.map (hostValue s.cache.tree)).flatten.length pick
  have h2 := hdid2.inv h1
  have hhost := hhost1.trans hhost2
  have hroom' : (s.cache.withTree t1).makeDeviceRoom hp
    (ns.map (hostValue s.cache.tree)).flatten.length pick = .ok (enough, s2.cache) := hroom
  rw [hroom']
  dsimp only
  obtain ⟨t3, hdec, hstep3, hhost3, hch3⟩ := hunlock s2 h2 hhost hdid2.kept.holders_eq
  -- the lock is gone again
  have hdid : Works hp s { s2 with cache := s2.cache.withTree t3, holders := s.holders } :=
    ⟨(Relation.ReflTransGen.head hstep1 hdid2.steps).tail hstep3, .of_eq rfl
      hdid2.kept.ackedWrites_eq hdid2.kept.ackedLoads_eq hdid2.kept.owned_eq⟩
  cases enough with
  | false =>
    rw [hdec _ rfl]
    exact ⟨false, _, rfl, hdid, fun hb => Bool.noConfusion hb⟩
  | true =>
    rcases load_cases s2.cache (ns.map (hostValue s.cache.tree)).flatten x with
      ⟨v, alloc, halloc, hload⟩ | hload
    · rw [hload]
      rw [hdec { s2.cache with
        allocator := alloc
        loadQueue := s2.cache.loadQueue ++
          [⟨(ns.map (hostValue s.cache.tree)).flatten, v, x, 0⟩] } rfl]
      dsimp only
      have hslots : hostSlots t3 ns = hostSlots s.tree ns := hostSlots_congr ns hhost3.host_eq
      set s3 : UniState := { s2 with cache := s2.cache.withTree t3, holders := s.holders }
      have h3 := hstep3.inv h2
      have halloc3 : s3.cache.allocator.alloc (hostSlots s3.tree ns).length = (some v, alloc) := by
        show s2.cache.allocator.alloc (hostSlots t3 ns).length = _
        rw [hslots]
        exact halloc
      obtain ⟨s4, hfin, hdid4, hon⟩ := finishLoadBack_spec h3 hch3 hne halloc3 rid
      have hfin' : finishLoadBack hp (withTree { s2.cache with
          allocator := alloc
          loadQueue := s2.cache.loadQueue ++
            [⟨(ns.map (hostValue s.cache.tree)).flatten, v, x, 0⟩] } t3) x rid ns v =
          .ok s4.cache := by
        have hslots' : hostSlots s3.tree ns = (ns.map (hostValue s.cache.tree)).flatten :=
          hslots
        rw [hslots'] at hfin
        exact hfin
      rw [hfin']
      refine ⟨true, s4, rfl, hdid.trans hdid4, fun _ => ⟨hon.mem, hon.device, fun n => ?_⟩⟩
      exact (hon.par_eq n).trans (hhost3.par_eq n)
    · rw [hload]
      rw [hdec { s2.cache with
        allocator := s2.cache.allocator.refill
          ((ns.map (hostValue s.cache.tree)).flatten.length /
            s2.cache.allocator.pageSize) } rfl]
      have hstep4 : UniStep hp { s2 with cache := s2.cache.withTree t3, holders := s.holders } _ :=
        refill_step _ ((ns.map (hostValue s.cache.tree)).flatten.length /
          s2.cache.allocator.pageSize)
      exact ⟨false, _, rfl, hdid.trans (.single hstep4 rfl), fun hb => Bool.noConfusion hb⟩

theorem collectNewPrefixIndices_spec (h : UniInv hp s) {m : NodeId} (hx : x ∈ s.nodes)
    (hd : s.tree.onDevice x) (hm : Anc s.tree.par m x) :
    ∃ v, collectNewPrefixIndices s.cache.tree m (s.cache.tree.counter + 1) x [] =
      .ok v := by
  refine h.shape.rooted.climb (P := fun fuel n => ∀ acc, s.tree.onDevice n → Anc s.tree.par m n →
      ∃ v, collectNewPrefixIndices s.cache.tree m fuel n acc = .ok v) ?_ x hx [] hd hm
  intro fuel n hn ih acc hd hm
  unfold collectNewPrefixIndices
  by_cases hnm : n = m
  · rw [if_pos hnm]
    exact ⟨acc, rfl⟩
  rw [if_neg hnm]
  obtain ⟨q, hq, hmq⟩ : ∃ q, s.tree.par n = some q ∧ Anc s.tree.par m q := by
    cases hq : s.tree.par n with
    | none => exact absurd ((anc_iff_of_none hq).mp hm).symm hnm
    | some q => exact ⟨q, rfl, ((anc_iff_of_par hq).mp hm).resolve_left (Ne.symm hnm)⟩
  obtain ⟨w, hw⟩ := Option.ne_none_iff_exists'.mp hd
  have hq' : (s.cache.tree.nodes n).parent = some q := hq
  have hw' : (s.cache.tree.nodes n).value = some w := hw
  simp only [hw', hq']
  exact ih q hq (w ++ acc) (h.tree.core.device_par n hn q hq hd) hmq

theorem initLoadBack_spec (hpol : hp.writePolicy ≠ .writeBack) (h : UniInv hp s)
    {bestMatchNode lastNode : NodeId} (hbest : bestMatchNode ∈ s.nodes)
    (hlast : Anc s.tree.par lastNode bestMatchNode) (hostHitLength : Nat) (memQuota : Option Int)
    (rid : Option Nat) (pick : Nat → Nat → Nat) :
    ∃ v n s', s.cache.initLoadBack hp bestMatchNode lastNode hostHitLength memQuota rid pick =
        .ok (v, n, s'.cache) ∧ Works hp s s' := by
  unfold initLoadBack
  split_ifs with htry
  · obtain ⟨b, s1, hrun, hdid, hon⟩ := loadBack_spec hpol h hbest memQuota rid pick
    simp only [hrun, bind, Except.bind]
    cases b with
    | false => exact ⟨[], lastNode, s1, rfl, hdid⟩
    | true =>
      obtain ⟨hmem, hdev, hpar⟩ := hon rfl
      have hanc : Anc s1.tree.par lastNode bestMatchNode := (funext hpar : s1.tree.par = _) ▸ hlast
      obtain ⟨v, hv⟩ := collectNewPrefixIndices_spec (hdid.inv h) hmem hdev hanc
      simp only [hv]
      by_cases hnil : v = []
      · exact ⟨[], lastNode, s1, if_pos hnil, hdid⟩
      · exact ⟨v, bestMatchNode, s1, if_neg hnil, hdid⟩
  · exact ⟨[], lastNode, s, rfl, .refl s⟩

end Fluxfer.Unified
