import Fluxfer.Hi.Runs
import Fluxfer.Unified.WalkSpec

/-!
# Runs of `UnifiedRadixCache`

A session is a cache with the locks of its clients and the device pages that they hold. Clients
lock nodes on the device, release each lock once, insert and give back slots of their own, and
pass to `insert` as `prevPrefixLen` a part of the key that they have locked (`UniSession.Valid`).
-/

namespace Fluxfer.Unified

open Radix ParentTree Memory Pages Hi List Allocator

inductive UniOp
  | matchPrefix (tokenIds : List Nat) (extraKey : Option String) (viewed : Bool)
  | insert (tokenIds : List Nat) (extraKey : Option String) (viewed : Bool) (value : List Nat)
      (prevPrefixLen : Nat) (chunked : Bool) (pick : Nat → Nat → Nat)
  | incLockRef (n : NodeId)
  | decLockRef (n : NodeId)
  | writeBackup (n : NodeId) (pick : Nat → Nat)
  | writingCheck (finished : Nat)
  | evict (numTokens : Nat) (pick : Nat → Nat → Nat)
  | evictHost (numTokens : Nat) (pick : Nat → Nat)
  | loadBack (n : NodeId) (memQuota : Option Int) (rid : Option Nat) (pick : Nat → Nat → Nat)
  | initLoadBack (bestMatchNode lastNode : NodeId) (hostHitLength : Nat) (memQuota : Option Int)
      (rid : Option Nat) (pick : Nat → Nat → Nat)
  | startLoading
  | drainLoadBackAcks (finished : Nat) (pick : Nat → Nat → Nat)
  | demoteHybridLoadBackTail (rid : Nat)
  | drainHybridPendingDemotions (pick : Nat → Nat)
  | flushOnIdle (finished : Nat) (pick : Nat → Nat → Nat)
  /-- whole pages taken for a request; what `alloc_extend` and `alloc_decode` do to the free
  pages is what `alloc` of that many pages does -/
  | allocSlots (needSize : Nat)
  /-- slots of a request given back -/
  | freeSlots (indices : List Nat)

structure UniSession where
  cache : UnifiedCache
  /-- the nodes of the locks that requests have not released -/
  locks : List NodeId
  /-- the device pages of requests -/
  owned : Multiset Nat

namespace UniSession

def init (a : Allocator) (h : HostPool) : UniSession := ⟨UnifiedCache.init a h, [], 0⟩

/-- The slots that `insert` takes from the request. -/
def insertedSlots (hp : HiParams) (key : RadixKey) (value : List Nat) (prevPrefixLen : Nat) :
    List Nat :=
  (insertSlots hp.toCacheParams key (some value)).drop prevPrefixLen

def step (hp : HiParams) (s : UniSession) : UniOp → Except CacheError UniSession
  | .matchPrefix tokenIds extraKey viewed => do
    let (_, c) ← s.cache.matchPrefix hp (clientKey hp.toCacheParams tokenIds extraKey viewed)
    .ok { s with cache := c }
  | .insert tokenIds extraKey viewed value prevPrefixLen chunked pick => do
    let key := clientKey hp.toCacheParams tokenIds extraKey viewed
    let (_, c) ← s.cache.insert hp key value prevPrefixLen chunked pick
    .ok { s with
      cache := c
      owned := s.owned - pagesOf hp.pageSize (insertedSlots hp key value prevPrefixLen) }
  | .incLockRef n => do
    let (_, _, c) ← s.cache.incLockRef n
    .ok { s with cache := c, locks := n :: s.locks }
  | .decLockRef n => do
    let c ← s.cache.decLockRef n []
    .ok { s with cache := c, locks := s.locks.erase n }
  | .writeBackup n pick => do
    let (_, c) ← s.cache.writeBackup hp n false pick
    .ok { s with cache := c }
  | .writingCheck finished => do
    let c ← s.cache.writingCheck hp finished
    .ok { s with cache := c }
  | .evict numTokens pick => do
    let (_, c) ← s.cache.evict hp numTokens pick
    .ok { s with cache := c }
  | .evictHost numTokens pick => do
    let (_, c) ← s.cache.evictHost hp numTokens pick
    .ok { s with cache := c }
  | .loadBack n memQuota rid pick => do
    let (_, c) ← s.cache.loadBack hp n memQuota rid pick
    .ok { s with cache := c }
  | .initLoadBack bestMatchNode lastNode hostHitLength memQuota rid pick => do
    let (_, _, c) ← s.cache.initLoadBack hp bestMatchNode lastNode hostHitLength memQuota rid pick
    .ok { s with cache := c }
  | .startLoading => .ok { s with cache := s.cache.startLoading }
  | .drainLoadBackAcks finished pick => do
    let c ← s.cache.drainLoadBackAcks hp finished pick
    .ok { s with cache := c }
  | .demoteHybridLoadBackTail rid => do
    let c ← s.cache.demoteHybridLoadBackTailForReq hp rid
    .ok { s with cache := c }
  | .drainHybridPendingDemotions pick => do
    let c ← s.cache.drainHybridPendingDemotions hp pick
    .ok { s with cache := c }
  | .flushOnIdle finished pick => do
    let c ← s.cache.flushHicacheEventsOnIdle hp finished pick
    .ok { s with cache := c }
  | .allocSlots needSize =>
    let (slots, a) := s.cache.allocator.alloc needSize
    .ok { s with
      cache := { s.cache with allocator := a }
      owned := s.owned + pagesOf hp.pageSize (slots.getD []) }
  | .freeSlots indices => .ok { s with
      cache := s.cache.free indices
      owned := s.owned - pagesOf hp.pageSize indices }

/-- Slots of requests: whole pages that nobody else holds. -/
def Holds (hp : HiParams) (s : UniSession) (slots : List Nat) : Prop :=
  Laid hp.pageSize slots ∧ (pagesOf hp.pageSize slots : Multiset Nat) ≤ s.owned

/-- What clients keep to. -/
def Valid (hp : HiParams) (s : UniSession) : UniOp → Prop
  | .insert tokenIds extraKey viewed value prevPrefixLen _ _ =>
    let key := clientKey hp.toCacheParams tokenIds extraKey viewed
    EnoughSlots hp.toCacheParams key (some value) ∧ hp.pageSize ∣ prevPrefixLen ∧
    (∃ m, (m = s.cache.tree.rootNode ∨ m ∈ s.locks ∧ s.cache.tree.ns m = extraKey) ∧
      ∃ l, PathLabel s.cache.tree.par s.cache.tree.seg m l ∧
        (queryUnits hp.toCacheParams key).take prevPrefixLen <+: l) ∧
    s.Holds hp (insertedSlots hp key value prevPrefixLen)
  | .incLockRef n => s.cache.tree.Attached n ∧ s.cache.tree.onDevice n
  | .decLockRef n => n ∈ s.locks
  | .writeBackup n _ => s.cache.tree.Attached n ∧ n ≠ s.cache.tree.rootNode ∧
    s.cache.tree.onDevice n ∧ ¬ s.cache.tree.backedUp n
  | .loadBack n _ _ _ => s.cache.tree.Attached n
  | .initLoadBack bestMatchNode lastNode _ _ _ _ => s.cache.tree.Attached bestMatchNode ∧
    Anc s.cache.tree.par lastNode bestMatchNode
  | .freeSlots indices => s.Holds hp indices
  | _ => True

end UniSession

/-- The operations that lead from one session to another. -/
inductive UniRun (hp : HiParams) (s₀ : UniSession) : List UniOp → UniSession → Prop
  | nil : UniRun hp s₀ [] s₀
  | snoc {ops : List UniOp} {s s' : UniSession} {op : UniOp} (h : UniRun hp s₀ ops s)
      (hv : s.Valid hp op) (hs : s.step hp op = .ok s') : UniRun hp s₀ (ops ++ [op]) s'

/-! ## One operation -/

/-- The state `r` of the proofs for the session `s`, between two operations. -/
structure Models (hp : HiParams) (r : UniState) (s : UniSession) : Prop where
  inv : UniInv hp r
  cache : r.cache = s.cache
  holders : r.holders = s.locks
  owned : r.owned = s.owned
  ackedWrites : r.ackedWrites = []
  ackedLoads : r.ackedLoads = []

namespace Models

variable {hp : HiParams} {r r' : UniState} {s : UniSession}

theorem init (size : Nat) (needSort : Bool) (pool : HostPool) (hh : pool.pageSize = hp.pageSize) :
    ∃ r, Models hp r (.init (Allocator.init hp.pageSize size needSort) pool) := by
  set a := Allocator.init hp.pageSize size needSort with ha
  set r : UniState := ⟨UnifiedCache.init a pool, .init false false, {0}, [], [], [], [], 0⟩
  have hstate : HiInv hp r.hi := by
    refine ⟨init_treeInv _, init_heldBy, ?_, .nil, nodup_nil, ?_, .nil, nodup_nil, rfl, hh⟩
    · intro n hn hd
      have hne : n ≠ 0 := fun e => hn (Finset.mem_singleton.mpr e)
      refine absurd ?_ hd
      show (if n = 0 then _ else TreeNode.new).value = none
      rw [if_neg hne]
      rfl
    · exact nofun
  have hnone : ∀ {α : Type} {P : α → Prop}, ∀ w ∈ ([] : List α), P w :=
    nofun
  have hlaid : ValuesLaid hp.pageSize RadixTree.init {0} := by
    intro n hn
    rw [Finset.mem_singleton.mp hn]
    exact Laid.nil hp.pageSize_pos
  have htree : treePages hp.pageSize RadixTree.init {0} = 0 := Finset.sum_singleton _ _
  refine ⟨r, ⟨hstate, ⟨rfl, rfl, fun _ => rfl⟩, ⟨hlaid, Allocator.init_ok _ _ _⟩, ?_, hnone, hnone,
    hnone, hnone⟩, rfl, rfl, rfl, rfl, rfl⟩
  show (a.pages + treePages hp.pageSize RadixTree.init {0} + 0).Nodup
  rw [htree, Allocator.init_pages, add_zero, add_zero]
  exact Multiset.coe_nodup.mpr nodup_range'

section

variable (h : Models hp r s)
include h

theorem of_steps (hdid : Works hp r r') : Models hp r' { s with cache := r'.cache } :=
  have hkept := hdid.kept
  ⟨hdid.inv h.inv, rfl, hkept.holders_eq.trans h.holders, hkept.owned_eq.trans h.owned,
    hkept.ackedWrites_eq.trans h.ackedWrites, hkept.ackedLoads_eq.trans h.ackedLoads⟩

theorem of_given {o g : Multiset Nat} (hg : r.owned = o + g)
    (hsteps : UniSteps hp r r') (hkept : Kept { r with owned := o } r') :
    Models hp r' { s with cache := r'.cache, owned := s.owned - g } := by
  refine ⟨hsteps.inv h.inv, rfl, hkept.holders_eq.trans h.holders, ?_,
    hkept.ackedWrites_eq.trans h.ackedWrites, hkept.ackedLoads_eq.trans h.ackedLoads⟩
  rw [hkept.owned_eq, ← h.owned, hg, Multiset.add_sub_cancel_right]

theorem owned_eq {slots : List Nat} (hs : s.Holds hp slots) :
    r.owned = (s.owned - pagesOf hp.pageSize slots) + (pagesOf hp.pageSize slots : Multiset Nat) := by
  rw [h.owned, Multiset.sub_add_cancel hs.2]

theorem incLockRef {n : NodeId} (hn : n ∈ r.nodes) (hd : s.cache.tree.onDevice n) :
    ∃ s' r', s.step hp (.incLockRef n) = .ok s' ∧ Models hp r' s' := by
  rw [← h.cache] at hd
  obtain ⟨d, t, hrun, hl, hinv⟩ := incLockRef_tree h.inv.tree hn hd
  have hstep : UniStep hp r { r with cache := r.cache.withTree t, holders := n :: r.holders } :=
    .of_hi (HiStep.lock hn hl hinv) rfl
  refine ⟨{ s with cache := r.cache.withTree t, locks := n :: s.locks }, _, ?_, hstep.inv h.inv, rfl,
    congrArg (n :: ·) h.holders, h.owned, h.ackedWrites, h.ackedLoads⟩
  rw [UniSession.step, ← h.cache, hrun r.cache rfl]
  rfl

theorem decLockRef {n : NodeId} (hn : n ∈ s.locks) :
    ∃ s' r', s.step hp (.decLockRef n) = .ok s' ∧ Models hp r' s' := by
  have hmem : n ∈ r.holders := h.holders ▸ hn
  obtain ⟨t, hrun, hl, hinv⟩ := decLockRef_spec h.inv (HiInv.holder_mem_locks hmem)
  have hstep : UniStep hp r { r with
      cache := r.cache.withTree t
      holders := r.holders.erase n } :=
    .of_hi (HiStep.unlock hmem hl hinv) rfl
  refine ⟨{ s with cache := r.cache.withTree t, locks := s.locks.erase n }, _, ?_, hstep.inv h.inv,
    rfl, congrArg (List.erase · n) h.holders, h.owned, h.ackedWrites, h.ackedLoads⟩
  rw [UniSession.step, ← h.cache, hrun r.cache rfl]
  rfl

theorem allocSlots (needSize : Nat) :
    ∃ s' r', s.step hp (.allocSlots needSize) = .ok s' ∧ Models hp r' s' := by
  rw [UniSession.step, ← h.cache]
  cases halloc : r.cache.allocator.alloc needSize with
  | mk slots a =>
    cases slots with
    | none =>
      have hstep : UniStep hp r _ := refill_step r (needSize / r.cache.allocator.pageSize)
      rw [← alloc_eq_none halloc] at hstep
      refine ⟨_, _, rfl, hstep.inv h.inv, rfl, h.holders, ?_, h.ackedWrites, h.ackedLoads⟩
      rw [Option.getD_none, pagesOf_nil, Multiset.coe_nil, add_zero]
      exact h.owned
    | some v =>
      exact ⟨_, _, rfl, (UniStep.take halloc).inv h.inv, rfl, h.holders,
        congrArg (· + (pagesOf hp.pageSize v : Multiset Nat)) h.owned, h.ackedWrites, h.ackedLoads⟩

theorem freeSlots {indices : List Nat} (hv : s.Holds hp indices) :
    ∃ s' r', s.step hp (.freeSlots indices) = .ok s' ∧ Models hp r' s' := by
  have hstep : UniStep hp r _ := .giveBack hv.1 (h.owned_eq hv)
  refine ⟨_, _, rfl, hstep.inv h.inv, ?_, h.holders, rfl, h.ackedWrites, h.ackedLoads⟩
  rw [h.cache]

theorem insert {tokenIds : List Nat} {extraKey : Option String}
    {viewed : Bool} {value : List Nat} {prevPrefixLen : Nat} {chunked : Bool}
    {pick : Nat → Nat → Nat}
    (hv : s.Valid hp (.insert tokenIds extraKey viewed value prevPrefixLen chunked pick)) :
    ∃ s' r', s.step hp (.insert tokenIds extraKey viewed value prevPrefixLen chunked pick) =
      .ok s' ∧ Models hp r' s' := by
  obtain ⟨hslots, hprev, ⟨m, hm, l, hl, hpre⟩, hheld⟩ := hv
  have hprot : Protects r.tree r.nodes extraKey (queryUnits hp.toCacheParams
      (clientKey hp.toCacheParams tokenIds extraKey viewed)) prevPrefixLen m := by
    rw [← h.cache] at hm hl
    rcases hm with rfl | ⟨hlock, hns⟩
    · exact ⟨h.inv.shape.rooted.root_mem, h.inv.tree.core.root_device, .inl rfl, l, hl, hpre⟩
    · have hholder : m ∈ r.holders := h.holders.symm ▸ hlock
      have hmem : m ∈ r.hi.locks := HiInv.holder_mem_locks hholder
      exact ⟨h.inv.held.mem m hmem, h.inv.state.lock_onDevice hmem, .inr hns, l, hl, hpre⟩
  obtain ⟨d, r', hrun, hsteps, hkept, _⟩ := insert_spec h.inv
    (clientKey_bigram hp.toCacheParams tokenIds extraKey viewed) hslots hprev hprot hheld.1
    (h.owned_eq hheld) chunked pick
  refine ⟨_, r', ?_, h.of_given (h.owned_eq hheld) hsteps hkept⟩
  rw [UniSession.step, ← h.cache, hrun]
  rfl

end

theorem step_spec (hpol : hp.writePolicy ≠ .writeBack) (h : Models hp r s) {op : UniOp}
    (hv : s.Valid hp op) : ∃ s' r', s.step hp op = .ok s' ∧ Models hp r' s' := by
  obtain ⟨cache, locks, owned⟩ := s
  obtain rfl : r.cache = cache := h.cache
  have hatt : ∀ {n}, r.cache.tree.Attached n → n ∈ r.nodes := h.inv.shape.attached_iff.mp
  cases op with
  | matchPrefix tokenIds extraKey viewed =>
    obtain ⟨_, r', hrun, hdid⟩ := matchPrefix_spec h.inv
      (clientKey_bigram hp.toCacheParams tokenIds extraKey viewed)
    exact ⟨_, r', bind_of_ok hrun _, h.of_steps hdid⟩
  | insert tokenIds extraKey viewed value prevPrefixLen chunked pick => exact h.insert hv
  | incLockRef n => exact h.incLockRef (hatt hv.1) hv.2
  | decLockRef n => exact h.decLockRef hv
  | writeBackup n pick =>
    obtain ⟨hn, hr, hd, hb⟩ := hv
    obtain ⟨_, r', hrun, hdid, _⟩ := writeBackup_spec h.inv (hatt hn) hr hd hb pick
    exact ⟨_, r', bind_of_ok hrun _, h.of_steps hdid⟩
  | writingCheck finished =>
    obtain ⟨r', hrun, hdid⟩ := writingCheck_spec h.inv h.ackedWrites finished
    exact ⟨_, r', bind_of_ok hrun _, h.of_steps hdid⟩
  | evict numTokens pick =>
    obtain ⟨_, r', hrun, hdid, _⟩ := evict_writeThrough hpol h.inv numTokens pick
    exact ⟨_, r', bind_of_ok hrun _, h.of_steps hdid⟩
  | evictHost numTokens pick =>
    obtain ⟨_, r', hrun, _, hdid, _⟩ := evictHost_spec h.inv numTokens pick
    exact ⟨_, r', bind_of_ok hrun _, h.of_steps hdid⟩
  | loadBack n memQuota rid pick =>
    obtain ⟨_, r', hrun, hdid, _⟩ := loadBack_spec hpol h.inv (hatt hv) memQuota rid pick
    exact ⟨_, r', bind_of_ok hrun _, h.of_steps hdid⟩
  | initLoadBack bestMatchNode lastNode hostHitLength memQuota rid pick =>
    obtain ⟨_, _, r', hrun, hdid⟩ := initLoadBack_spec hpol h.inv (hatt hv.1) hv.2
      hostHitLength memQuota rid pick
    exact ⟨_, r', bind_of_ok hrun _, h.of_steps hdid⟩
  | startLoading =>
    exact ⟨_, _, rfl, h.of_steps (.single (startLoading_step r) rfl)⟩
  | drainLoadBackAcks finished pick =>
    obtain ⟨r', hrun, hdid⟩ := drainLoadBackAcks_spec h.inv h.ackedLoads finished pick
    exact ⟨_, r', bind_of_ok hrun _, h.of_steps hdid⟩
  | demoteHybridLoadBackTail rid =>
    obtain ⟨r', hrun, hdid⟩ := demoteHybridLoadBackTailForReq_spec h.inv rid
    exact ⟨_, r', bind_of_ok hrun _, h.of_steps hdid⟩
  | drainHybridPendingDemotions pick =>
    obtain ⟨r', hrun, hdid, _⟩ := drainHybridPendingDemotions_spec h.inv pick
    exact ⟨_, r', bind_of_ok hrun _, h.of_steps hdid⟩
  | flushOnIdle finished pick =>
    obtain ⟨r', hrun, hdid⟩ :=
      flushHicacheEventsOnIdle_spec h.inv h.ackedWrites h.ackedLoads finished pick
    exact ⟨_, r', bind_of_ok hrun _, h.of_steps hdid⟩
  | allocSlots needSize => exact h.allocSlots needSize
  | freeSlots indices => exact h.freeSlots hv

end Models

/-! ## Whole runs -/

section Run

variable {hp : HiParams} {pool : HostPool} {size : Nat} {needSort : Bool} {ops : List UniOp}
  {s : UniSession}

theorem UniRun.models (hpol : hp.writePolicy ≠ .writeBack) (hh : pool.pageSize = hp.pageSize)
    (h : UniRun hp (.init (init hp.pageSize size needSort) pool) ops s) :
    ∃ r, Models hp r s := by
  induction h with
  | nil => exact Models.init size needSort pool hh
  | snoc _ hv hs ih =>
    obtain ⟨r, hr⟩ := ih
    obtain ⟨s', r', hrun, hr'⟩ := hr.step_spec hpol hv
    obtain rfl := Except.ok.inj (hs.symm.trans hrun)
    exact ⟨r', hr'⟩

/-- The session after an operation that succeeds. -/
def UniSession.next (hp : HiParams) (s : UniSession) (op : UniOp) : UniSession :=
  match s.step hp op with
  | .ok s' => s'
  | .error _ => s

theorem UniRun.next {s0 : UniSession} (h : UniRun hp s0 ops s) (op : UniOp) (hv : s.Valid hp op)
    (hok : (s.step hp op).toBool = true) : UniRun hp s0 (ops ++ [op]) (s.next hp op) := by
  unfold UniSession.next
  cases hs : s.step hp op with
  | error e =>
    rw [hs] at hok
    cases hok
  | ok s' => exact h.snoc hv hs

/-! A run in which a node is split and a slot freed while a copy of the node is in flight. -/

def dupParams : HiParams := ⟨⟨1, Nat.one_pos, false⟩, .writeThrough, .kernel⟩

def dupStart : UniSession :=
  .init (init 1 8 false) ⟨1, [0, 1, 2, 3, 4, 5, 6, 7]⟩

def dupOps : List UniOp :=
  [.allocSlots 4, .insert [5, 6] none false [1, 2] 0 false fun _ _ => 0,
    .insert [5, 7] none false [3, 4] 0 false fun _ _ => 0]

def dupSession : UniSession := dupOps.foldl (UniSession.next dupParams) dupStart

theorem valid_insert_root {tokenIds value : List Nat} {chunked : Bool} {pick : Nat → Nat → Nat}
    (hroot : s.cache.tree.par s.cache.tree.rootNode = none)
    (hslots : EnoughSlots hp.toCacheParams (clientKey hp.toCacheParams tokenIds none false)
      (some value))
    (hheld : s.Holds hp (UniSession.insertedSlots hp
      (clientKey hp.toCacheParams tokenIds none false) value 0)) :
    s.Valid hp (.insert tokenIds none false value 0 chunked pick) :=
  ⟨hslots, dvd_zero _, ⟨_, .inl rfl, _, .root hroot, nil_prefix⟩, hheld⟩

theorem dupSession_run : UniRun dupParams dupStart dupOps dupSession := by
  have h0 : UniRun dupParams dupStart [] dupStart := .nil
  have h1 := h0.next (.allocSlots 4) trivial (by decide)
  have h2 := h1.next (.insert [5, 6] none false [1, 2] 0 false fun _ _ => 0)
    (valid_insert_root rfl (by rintro v ⟨⟩; decide) ⟨⟨[1, 2], by decide, by decide⟩, by decide⟩)
    (by decide)
  exact h2.next (.insert [5, 7] none false [3, 4] 0 false fun _ _ => 0)
    (valid_insert_root rfl (by rintro v ⟨⟩; decide) ⟨⟨[3, 4], by decide, by decide⟩, by decide⟩)
    (by decide)

/-- No slots were freed that a copy in flight was reading. -/
def CopiesProtected (c : UnifiedCache) : Prop :=
  ∀ f ∈ c.freed, ∀ w ∈ f.inFlight, List.Disjoint w.deviceIndices f.slots

/-- With a write-through policy, in every run, nothing that is freed on the device is being
copied to the host. -/
theorem run_copiesProtected (hpol : hp.writePolicy ≠ .writeBack)
    (hh : pool.pageSize = hp.pageSize)
    (h : UniRun hp (.init (init hp.pageSize size needSort) pool) ops s) :
    CopiesProtected s.cache := by
  obtain ⟨r, hr⟩ := h.models hpol hh
  rw [← hr.cache]
  exact hr.inv.history

theorem run_copiesProtected_dup : CopiesProtected dupSession.cache ∧
    dupSession.cache.freed = [⟨[3], [⟨1, some [], [1, 2]⟩]⟩] :=
  ⟨run_copiesProtected (by decide) rfl dupSession_run, by decide⟩

/-! With write-back, a leaf without backup leaves the device with its copy just started. -/

def writeBackParams : HiParams := ⟨⟨1, Nat.one_pos, false⟩, .writeBack, .kernel⟩

def writeBackStart (pool : HostPool) : UniSession := .init (init 1 8 false) pool

def writeBackSession (pool : HostPool) : UniSession :=
  [.allocSlots 1, .insert [5] none false [1] 0 false fun _ _ => 0].foldl
    (UniSession.next writeBackParams) (writeBackStart pool)

section

variable {pool : HostPool} (howned : (([1] : List Nat) : Multiset Nat) ≤
  ((writeBackStart pool).next writeBackParams (.allocSlots 1)).owned)
include howned

theorem writeBackSession_valid :
    ((writeBackStart pool).next writeBackParams (.allocSlots 1)).Valid writeBackParams
      (.insert [5] none false [1] 0 false fun _ _ => 0) :=
  valid_insert_root rfl (by rintro v ⟨⟩; decide) ⟨⟨[1], by decide, by decide⟩, howned⟩

theorem writeBackSession_run : UniRun writeBackParams (writeBackStart pool)
    [.allocSlots 1, .insert [5] none false [1] 0 false fun _ _ => 0] (writeBackSession pool) := by
  have h0 : UniRun writeBackParams (writeBackStart pool) [] (writeBackStart pool) := .nil
  exact (h0.next (.allocSlots 1) trivial rfl).next _ (writeBackSession_valid howned) rfl

end

/-- The slot goes back to the allocator while the copy that reads it is in flight. -/
theorem writeBack_frees_copied : ∃ ops s,
    UniRun writeBackParams (writeBackStart ⟨1, [0, 1]⟩) ops s ∧ ¬ CopiesProtected s.cache := by
  refine ⟨_, _, (writeBackSession_run (by decide)).next (.evict 1 fun _ _ => 0) trivial
    (by decide), fun h => ?_⟩
  have hfreed : ((writeBackSession ⟨1, [0, 1]⟩).next writeBackParams
      (.evict 1 fun _ _ => 0)).cache.freed = [⟨[1], [⟨1, none, [1]⟩]⟩] := by decide
  have hdis := h ⟨[1], [⟨1, none, [1]⟩]⟩ (hfreed ▸ mem_singleton_self _) ⟨1, none, [1]⟩
    (mem_singleton_self _)
  exact hdis (mem_singleton_self 1) (mem_singleton_self 1)

/-- With a write-through policy, in every state of every run, both tiers are closed upwards and no
operation of a client fails. -/
theorem run_unifiedShape (hpol : hp.writePolicy ≠ .writeBack) (hh : pool.pageSize = hp.pageSize)
    (h : UniRun hp (.init (init hp.pageSize size needSort) pool) ops s) :
    TwoTierShape s.cache.tree ∧ ∀ op, s.Valid hp op → ∃ s', s.step hp op = .ok s' := by
  obtain ⟨r, hr⟩ := h.models hpol hh
  refine ⟨?_, fun op hv => ?_⟩
  · rw [← hr.cache]
    exact twoTierShape_of_core hr.inv.tree.core
  · obtain ⟨s', _, hrun, _⟩ := hr.step_spec hpol hv
    exact ⟨s', hrun⟩

theorem run_unifiedShape_dup : TwoTierShape dupSession.cache.tree ∧
    ∀ op, dupSession.Valid dupParams op → ∃ s', dupSession.step dupParams op = .ok s' :=
  run_unifiedShape (by decide) rfl dupSession_run

/-- The sizes and the leaf sets are those of the tree, and a node's lock count is the number of
requests, writes and loads that hold a node at or below it. -/
theorem run_unifiedAccounting (hpol : hp.writePolicy ≠ .writeBack)
    (hh : pool.pageSize = hp.pageSize)
    (h : UniRun hp (.init (init hp.pageSize size needSort) pool) ops s) :
    TwoTierAccounting s.cache.tree (s.locks ++ (s.cache.ongoingWriteThrough.map OngoingWrite.node ++
      s.cache.ongoingLoadBack.map Prod.fst)) := by
  obtain ⟨r, hr⟩ := h.models hpol hh
  rw [← hr.cache, ← hr.holders]
  exact twoTierAccounting_of_held hr.inv.state.tree hr.inv.state.held

theorem run_unifiedAccounting_dup : TwoTierAccounting dupSession.cache.tree [3, 1] ∧
    (dupSession.cache.tree.nodes 2).lockRef = 2 :=
  ⟨run_unifiedAccounting (by decide) rfl dupSession_run, by decide⟩

/-- No device page is in two of the free list, the nodes of the tree and the rows of the requests,
and a copy in flight reads the slots at the end of the path of its node, which is locked on the
device. -/
theorem run_pagesApart (hpol : hp.writePolicy ≠ .writeBack) (hh : pool.pageSize = hp.pageSize)
    (h : UniRun hp (.init (init hp.pageSize size needSort) pool) ops s) :
    (s.cache.allocator.pages + treePages hp.pageSize s.cache.tree s.cache.tree.attached +
      s.owned).Nodup ∧
    ∀ w ∈ s.cache.ongoingWriteThrough, s.cache.tree.Attached w.node ∧
      s.cache.tree.onDevice w.node ∧
      ∃ v, PathLabel s.cache.tree.par s.cache.tree.deviceValue w.node v ∧ w.deviceIndices <:+ v := by
  obtain ⟨r, hr⟩ := h.models hpol hh
  rw [← hr.cache, ← hr.owned, hr.inv.shape.attached_eq]
  refine ⟨hr.inv.nodup, fun w hw => ?_⟩
  have hlock : w.node ∈ r.hi.locks := HiInv.write_mem_locks (mem_map_of_mem hw)
  exact ⟨hr.inv.shape.attached_iff.mpr (hr.inv.state.held.mem _ hlock),
    hr.inv.state.lock_onDevice hlock, hr.inv.copies w hw⟩

theorem run_pagesApart_dup : (dupSession.cache.tree.nodes 1).value = some [2] ∧
    dupSession.cache.tree.onDevice 1 ∧ ∃ v, PathLabel dupSession.cache.tree.par
      dupSession.cache.tree.deviceValue 1 v ∧ [1, 2] <:+ v :=
  ⟨by decide, ((run_pagesApart (by decide) rfl dupSession_run).2 ⟨1, some [], [1, 2]⟩
    (by decide)).2⟩

end Run

end Fluxfer.Unified
