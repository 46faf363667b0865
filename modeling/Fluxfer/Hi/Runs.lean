import Fluxfer.Hi.WalkSpec
import Fluxfer.Radix.Runs

/-!
# Runs of `HiRadixCache`

A session is a cache with the locks of its clients. Clients lock nodes on the device, release each
lock once, and ask for the backup of nodes on the device that have none (`HiSession.Valid`). With
the write-through policies every operation is a sequence of steps (`HiSession.step_spec`), from
which the results on whole runs follow by induction.
-/

namespace Fluxfer.Hi

open Radix ParentTree Memory List

variable {hp : HiParams} {s s' : HiState}

inductive HiOp
  | matchPrefix (tokenIds : List Nat) (extraKey : Option String) (viewed : Bool)
      (pick : Nat → Nat → Nat)
  | insert (tokenIds : List Nat) (extraKey : Option String) (viewed : Bool) (value : List Nat)
      (chunked : Bool) (pick : Nat → Nat → Nat)
  | incLockRef (n : NodeId)
  | decLockRef (n : NodeId)
  | writeBackup (n : NodeId) (pick : Nat → Nat)
  | writingCheck (finished : Nat)
  | evict (numTokens : Nat) (pick : Nat → Nat → Nat)
  | evictHost (numTokens : Nat) (pick : Nat → Nat)
  | loadBack (n : NodeId) (memQuota : Option Int) (rid : Option Nat) (pick : Nat → Nat → Nat)
  | initLoadBack (n : NodeId) (memQuota : Option Int) (rid : Option Nat) (pick : Nat → Nat → Nat)
  | startLoading
  | drainLoadBackAcks (finished : Nat) (pick : Nat → Nat → Nat)
  | demoteHybridLoadBackTail (rid : Nat)
  | drainHybridPendingDemotions (pick : Nat → Nat)
  | flushOnIdle (finished : Nat) (pick : Nat → Nat → Nat)
  /-- slots taken for a request, outside of the cache -/
  | allocSlots (needSize : Nat)
  /-- slots of a request given back -/
  | freeSlots (indices : List Nat)

def HiOp.isFlush : HiOp → Bool
  | .flushOnIdle _ _ => true
  | _ => false

structure HiSession where
  cache : HiCache
  /-- the nodes of the locks that requests have not released -/
  locks : List NodeId
  /-- the writes that were in flight at an idle flush -/
  flushedWrites : List NodeId

namespace HiSession

def initWith (l : Ledger) (a : Allocator) (h : HostPool) : HiSession :=
  ⟨HiCache.initWith l a h, [], []⟩

def init (a : Allocator) (h : HostPool) : HiSession := ⟨HiCache.init a h, [], []⟩

def step (hp : HiParams) (s : HiSession) : HiOp → Except CacheError HiSession
  | .matchPrefix tokenIds extraKey viewed pick => do
    let (_, c) ← s.cache.matchPrefix hp (clientKey hp.toCacheParams tokenIds extraKey viewed) pick
    .ok { s with cache := c }
  | .insert tokenIds extraKey viewed value chunked pick => do
    let (_, c) ← s.cache.insert hp (clientKey hp.toCacheParams tokenIds extraKey viewed) value
      chunked pick
    .ok { s with cache := c }
  | .incLockRef n => do
    let (_, c) ← s.cache.incLockRef n
    .ok { s with cache := c, locks := n :: s.locks }
  | .decLockRef n => do
    let (_, c) ← s.cache.decLockRef n
    .ok { s with cache := c, locks := s.locks.erase n }
  | .writeBackup n pick => do
    let (_, c) ← s.cache.writeBackup hp n false pick
    .ok { s with cache := c }
  | .writingCheck finished => do
    let c ← s.cache.writingCheck hp finished
    .ok { s with cache := c }
  | .evict numTokens pick => do
    let (_, c) ← s.cache.evict hp numTokens pick
    .ok { s with cache := c }
  | .evictHost numTokens pick => do
    let c ← s.cache.evictHost hp numTokens pick
    .ok { s with cache := c }
  | .loadBack n memQuota rid pick => do
    let (_, c) ← s.cache.loadBack hp n memQuota rid pick
    .ok { s with cache := c }
  | .initLoadBack n memQuota rid pick => do
    let (_, _, c) ← s.cache.initLoadBack hp n memQuota rid pick
    .ok { s with cache := c }
  | .startLoading => .ok { s with cache := s.cache.startLoading }
  | .drainLoadBackAcks finished pick => do
    let c ← s.cache.drainLoadBackAcks hp finished pick
    .ok { s with cache := c }
  | .demoteHybridLoadBackTail rid => do
    let c ← s.cache.demoteHybridLoadBackTailForReq hp rid
    .ok { s with cache := c }
  | .drainHybridPendingDemotions pick => do
    let c ← s.cache.drainHybridPendingDemotions hp pick
    .ok { s with cache := c }
  | .flushOnIdle finished pick => do
    let c ← s.cache.flushHicacheEventsOnIdle hp finished pick
    .ok { s with
      cache := c
      flushedWrites := s.cache.ongoingWriteThrough ++ s.flushedWrites }
  | .allocSlots needSize => .ok { s with
      cache := { s.cache with allocator := (s.cache.allocator.alloc needSize).2 } }
  | .freeSlots indices => .ok { s with
      cache := { s.cache with allocator := s.cache.allocator.free indices } }

/-- What clients keep to. -/
def Valid (hp : HiParams) (s : HiSession) : HiOp → Prop
  | .insert tokenIds extraKey viewed value _ _ =>
    EnoughSlots hp.toCacheParams (clientKey hp.toCacheParams tokenIds extraKey viewed) (some value)
  | .incLockRef n => s.cache.tree.Attached n ∧ s.cache.tree.onDevice n
  | .decLockRef n => n ∈ s.locks
  | .writeBackup n _ => s.cache.tree.Attached n ∧ n ≠ s.cache.tree.rootNode ∧
    s.cache.tree.onDevice n ∧ ¬ s.cache.tree.backedUp n
  | .loadBack n _ _ _ => s.cache.tree.Attached n ∧ ¬ s.cache.tree.onDevice n
  | .initLoadBack n _ _ _ => s.cache.tree.Attached n
  | _ => True

end HiSession

open HiSession

/-- The operations that lead from one session to another. -/
inductive HiRun (hp : HiParams) (s₀ : HiSession) : List HiOp → HiSession → Prop
  | nil : HiRun hp s₀ [] s₀
  | snoc {ops : List HiOp} {s s' : HiSession} {op : HiOp} (h : HiRun hp s₀ ops s)
      (hv : s.Valid hp op) (hs : s.step hp op = .ok s') : HiRun hp s₀ (ops ++ [op]) s'

/-! ## One operation -/

namespace HiSession

variable {B : Finset NodeId} {gs : List (List Nat)} {c : HiCache} {n : NodeId} {op : HiOp}

/-- The session as a state of the proofs. -/
def toState (s : HiSession) (A : Finset NodeId) : HiState where
  cache := s.cache
  nodes := A
  pinned := []
  holders := s.flushedWrites ++ s.locks
  given := []
  ackedWrites := []
  ackedLoads := []

structure Inv (hp : HiParams) (s : HiSession) (A : Finset NodeId) : Prop where
  state : HiInv hp (s.toState A)

variable {s : HiSession} {A : Finset NodeId}

theorem initWith_inv (l : Ledger) (a : Allocator) (h : HostPool) (ha : a.pageSize = hp.pageSize)
    (hh : h.pageSize = hp.pageSize) : Inv hp (initWith l a h) {0} := by
  refine ⟨init_treeInv _, init_heldBy, ?_, .nil, nodup_nil, ?_, .nil, nodup_nil, ha, hh⟩
  · intro n hn hd
    have hne : n ≠ 0 := fun e => hn (Finset.mem_singleton.mpr e)
    exact absurd (by show (if n = 0 then _ else TreeNode.new).value = none; rw [if_neg hne]; rfl) hd
  · exact nofun

theorem Inv.of_perm (h : Inv hp s A) {s' : HiSession} {hs : List NodeId}
    (hsteps : HiSteps hp (s.toState A)
      { s.toState A with cache := s'.cache, nodes := B, holders := hs, given := gs })
    (hperm : hs.Perm (s'.flushedWrites ++ s'.locks)) : Inv hp s' B := by
  have hi := hsteps.inv h.state
  exact ⟨hi.tree, hi.held.perm (hperm.append_right _), hi.stale, hi.writes, hi.writes_nodup,
    hi.writes_backed, hi.loads, hi.loads_nodup, hi.device_page, hi.host_page⟩

theorem Inv.of_steps (h : Inv hp s A)
    (hsteps : HiSteps hp (s.toState A) { s.toState A with cache := c, nodes := B, given := gs }) :
    Inv hp { s with cache := c } B :=
  Inv.of_perm h hsteps (.refl _)

theorem Inv.withAllocator (h : Inv hp s A) {a : Allocator}
    (ha : a.pageSize = s.cache.allocator.pageSize) :
    Inv hp { s with cache := { s.cache with allocator := a } } A :=
  ⟨h.state.tree, h.state.held, h.state.stale, h.state.writes, h.state.writes_nodup,
    h.state.writes_backed, h.state.loads, h.state.loads_nodup, ha.trans h.state.device_page,
    h.state.host_page⟩

/-- What an operation does: a number of steps, which end in `r`. Only the allocator of the next
session may differ from that of `r`, as requests take and give back slots themselves. -/
structure Does (hp : HiParams) (s : HiSession) (A : Finset NodeId) (op : HiOp) (s' : HiSession)
    (r : HiState) : Prop where
  steps : HiSteps hp (s.toState A) r
  cache_eq : s'.cache = { r.cache with allocator := s'.cache.allocator }
  inv : Inv hp s' r.nodes
  flushed : op.isFlush = false → s'.flushedWrites = s.flushedWrites

theorem incLockRef_step (h : Inv hp s A) (hn : n ∈ A) (hd : s.cache.tree.onDevice n) :
    ∃ s' r, s.step hp (.incLockRef n) = .ok s' ∧ Does hp s A (.incLockRef n) s' r := by
  obtain ⟨d, t, hrun, hl, hinv⟩ := incLockRef_spec h.state hn hd
  have hstep : HiSteps hp (s.toState A) _ := .single (HiStep.lock hn hl hinv)
  have hi : Inv hp ⟨s.cache.withTree t, n :: s.locks, s.flushedWrites⟩ A :=
    h.of_perm hstep perm_middle.symm
  exact ⟨_, _, by simp only [step, hrun s.cache rfl, bind, Except.bind], hstep, rfl, hi,
    fun _ => rfl⟩

theorem decLockRef_step (h : Inv hp s A) (hn : n ∈ s.locks) :
    ∃ s' r, s.step hp (.decLockRef n) = .ok s' ∧ Does hp s A (.decLockRef n) s' r := by
  have hmem : n ∈ (s.toState A).holders := mem_append_right _ hn
  obtain ⟨d, t, hrun, hl, hinv⟩ := decLockRef_spec h.state (HiInv.holder_mem_locks hmem)
  have hperm : ((s.flushedWrites ++ s.locks).erase n).Perm
      (s.flushedWrites ++ s.locks.erase n) := by
    refine (perm_append_comm.erase n).trans ?_
    rw [erase_append_left _ hn]
    exact perm_append_comm
  have hstep : HiSteps hp (s.toState A) _ := .single (HiStep.unlock hmem hl hinv)
  have hi : Inv hp ⟨s.cache.withTree t, s.locks.erase n, s.flushedWrites⟩ A :=
    h.of_perm hstep hperm
  exact ⟨_, _, by simp only [step, hrun s.cache rfl, bind, Except.bind], hstep, rfl, hi,
    fun _ => rfl⟩

theorem flushOnIdle_step (h : Inv hp s A) (finished : Nat) (pick : Nat → Nat → Nat) :
    ∃ c r, s.step hp (.flushOnIdle finished pick) =
        .ok ⟨c, s.locks, s.cache.ongoingWriteThrough ++ s.flushedWrites⟩ ∧
      Does hp s A (.flushOnIdle finished pick)
        ⟨c, s.locks, s.cache.ongoingWriteThrough ++ s.flushedWrites⟩ r ∧
      c.ongoingWriteThrough = [] ∧
      c.ongoingLoadBack.Perm (s.cache.loadQueue.map LoadOp.nodeId) := by
  obtain ⟨c, leaked, hrun, hdone, hloads, hleaked, hsteps⟩ :=
    flushHicacheEventsOnIdle_spec h.state rfl rfl finished pick
  change s.cache.flushHicacheEventsOnIdle hp finished pick = _ at hrun
  have hperm : (leaked ++ (s.flushedWrites ++ s.locks)).Perm
      (s.cache.ongoingWriteThrough ++ s.flushedWrites ++ s.locks) := by
    rw [append_assoc]
    exact hleaked.append_right _
  exact ⟨c, _, by simp only [step, hrun, bind, Except.bind],
    ⟨hsteps, rfl, h.of_perm hsteps hperm, fun hf => Bool.noConfusion hf⟩, hdone, hloads⟩

theorem Does.of_steps (h : Inv hp s A)
    (hsteps : HiSteps hp (s.toState A) { s.toState A with cache := c, nodes := B }) :
    Does hp s A op { s with cache := c } { s.toState A with cache := c, nodes := B } :=
  ⟨hsteps, rfl, h.of_steps hsteps, fun _ => rfl⟩

theorem step_spec (hpol : hp.writePolicy ≠ .writeBack) (h : Inv hp s A) (hv : s.Valid hp op) :
    ∃ s' r, s.step hp op = .ok s' ∧ Does hp s A op s' r := by
  have hatt : ∀ {n}, s.cache.tree.Attached n → n ∈ A := fun hn =>
    h.state.shape.attached_iff.mp hn
  cases op with
  | matchPrefix tokenIds extraKey viewed pick =>
    obtain ⟨r, c, B, n, l, ns, hrun, hsteps, _, _⟩ := matchPrefix_spec h.state
      (clientKey_bigram hp.toCacheParams tokenIds extraKey viewed) pick
    exact ⟨_, _, bind_of_ok hrun _, .of_steps h hsteps⟩
  | insert tokenIds extraKey viewed value chunked pick =>
    obtain ⟨d, _, c, B, gs, hrun, hins⟩ := insert_spec h.state
      (clientKey_bigram hp.toCacheParams tokenIds extraKey viewed) hv chunked pick
    exact ⟨_, _, bind_of_ok hrun _, hins.steps, rfl, h.of_steps hins.steps, fun _ => rfl⟩
  | incLockRef n => exact incLockRef_step h (hatt hv.1) hv.2
  | decLockRef n => exact decLockRef_step h hv
  | writeBackup n pick =>
    obtain ⟨hn, hr, hd, hb⟩ := hv
    obtain ⟨k, c, B, hrun, hsteps, _⟩ := writeBackup_spec h.state (hatt hn) hr hd hb pick
    exact ⟨_, _, bind_of_ok hrun _, .of_steps h hsteps⟩
  | writingCheck finished =>
    obtain ⟨c, hrun, hsteps⟩ := writingCheck_spec h.state rfl finished
    exact ⟨_, _, bind_of_ok hrun _, .of_steps h hsteps⟩
  | evict numTokens pick =>
    obtain ⟨k, c, B, hrun, hsteps, _⟩ := evict_spec hpol h.state numTokens pick
    exact ⟨_, _, bind_of_ok hrun _, .of_steps h hsteps⟩
  | evictHost numTokens pick =>
    obtain ⟨c, B, hrun, hsteps, _⟩ := evictHost_spec h.state numTokens pick
    exact ⟨_, _, bind_of_ok hrun _, .of_steps h hsteps⟩
  | loadBack n memQuota rid pick =>
    obtain ⟨r, c, B, a, ns, hrun, hsteps, _⟩ :=
      loadBack_spec hpol h.state (hatt hv.1) hv.2 memQuota rid pick
    exact ⟨_, _, bind_of_ok hrun _, .of_steps h hsteps⟩
  | initLoadBack n memQuota rid pick =>
    obtain ⟨v, m, c, B, a, ns, hrun, hsteps, _⟩ :=
      initLoadBack_spec hpol h.state (hatt hv) memQuota rid pick
    exact ⟨_, _, bind_of_ok hrun _, .of_steps h hsteps⟩
  | startLoading => exact ⟨_, _, rfl, .of_steps h (.single (startLoading_step _))⟩
  | drainLoadBackAcks finished pick =>
    obtain ⟨c, hrun, hsteps, _⟩ := drainLoadBackAcks_spec h.state rfl finished pick
    exact ⟨_, _, bind_of_ok hrun _, .of_steps h hsteps⟩
  | demoteHybridLoadBackTail rid =>
    obtain ⟨c, hrun, hsteps⟩ := demoteHybridLoadBackTailForReq_spec h.state rid
    exact ⟨_, _, bind_of_ok hrun _, .of_steps h hsteps⟩
  | drainHybridPendingDemotions pick =>
    obtain ⟨c, hrun, hsteps, _⟩ := drainHybridPendingDemotions_spec h.state pick
    exact ⟨_, _, bind_of_ok hrun _, .of_steps h hsteps⟩
  | flushOnIdle finished pick =>
    obtain ⟨c, r, hrun, hdoes, _⟩ := flushOnIdle_step h finished pick
    exact ⟨_, r, hrun, hdoes⟩
  | allocSlots needSize =>
    exact ⟨_, s.toState A, rfl, .refl, rfl, h.withAllocator (Allocator.alloc_pageSize _ _),
      fun _ => rfl⟩
  | freeSlots indices =>
    exact ⟨_, s.toState A, rfl, .refl, rfl, h.withAllocator (Allocator.free_pageSize _ _),
      fun _ => rfl⟩

end HiSession

/-! ## Whole runs -/

section Run

variable {s₀ : HiSession} {t : RadixTree} {A : Finset NodeId} {hs : List NodeId}
variable {a : Allocator} {pool : HostPool} {ops : List HiOp} {s : HiSession}

theorem HiRun.inv_of (hpol : hp.writePolicy ≠ .writeBack) {A0 : Finset NodeId} (h0 : s₀.Inv hp A0)
    (h : HiRun hp s₀ ops s) :
    ∃ A, s.Inv hp A ∧
      ((∀ op ∈ ops, op.isFlush = false) → s.flushedWrites = s₀.flushedWrites) := by
  induction h with
  | nil => exact ⟨A0, h0, fun _ => rfl⟩
  | snoc _ hv hs ih =>
    obtain ⟨A, hi, hnone⟩ := ih
    obtain ⟨s', r, hrun, hdoes⟩ := step_spec hpol hi hv
    obtain rfl := Except.ok.inj (hs.symm.trans hrun)
    refine ⟨r.nodes, hdoes.inv, fun hno => ?_⟩
    rw [hdoes.flushed (hno _ (mem_append_right _ (mem_singleton_self _)))]
    exact hnone fun op hop => hno op (mem_append_left _ hop)

theorem HiRun.inv (hpol : hp.writePolicy ≠ .writeBack) (ha : a.pageSize = hp.pageSize)
    (hh : pool.pageSize = hp.pageSize) (h : HiRun hp (.init a pool) ops s) :
    ∃ A, s.Inv hp A ∧ ((∀ op ∈ ops, op.isFlush = false) → s.flushedWrites = []) :=
  h.inv_of hpol (initWith_inv _ a pool ha hh)

/-! A run in which a node is split while its backup is in flight. -/

/-- The session after an operation that succeeds. -/
def HiSession.next (hp : HiParams) (s : HiSession) (op : HiOp) : HiSession :=
  match s.step hp op with
  | .ok s' => s'
  | .error _ => s

theorem HiRun.next (h : HiRun hp s₀ ops s) (op : HiOp) (hv : s.Valid hp op)
    (hok : (s.step hp op).toBool = true) : HiRun hp s₀ (ops ++ [op]) (s.next hp op) := by
  unfold HiSession.next
  cases hs : s.step hp op with
  | error e =>
    rw [hs] at hok
    cases hok
  | ok s' => exact h.snoc hv hs

def backupParams : HiParams := ⟨⟨1, Nat.one_pos, false⟩, .writeThrough, .kernel⟩

def backupStart : HiSession :=
  .init (Allocator.init 1 8 false) ⟨1, [0, 1, 2, 3, 4, 5, 6, 7]⟩

def backupOps : List HiOp :=
  [.insert [5, 6] none false [2, 3] false fun _ _ => 0, .matchPrefix [5, 7] none false fun _ _ => 0]

def backupSession : HiSession := backupOps.foldl (next backupParams) backupStart

theorem backupSession_run : HiRun backupParams backupStart backupOps backupSession := by
  have h0 : HiRun backupParams backupStart [] backupStart := .nil
  have h1 := h0.next (.insert [5, 6] none false [2, 3] false fun _ _ => 0)
    (by rintro v ⟨⟩; decide) (by decide)
  exact h1.next (.matchPrefix [5, 7] none false fun _ _ => 0) trivial (by decide)

/-! ### Shape -/

/-- What is on the device and what is backed up. -/
structure TwoTierShape (t : RadixTree) : Prop where
  device : ∀ n m, t.Attached n → t.onDevice n → Anc t.par m n → t.onDevice m
  backed : ∀ n m, t.Attached n → t.backedUp n → Anc t.par m n → t.backedUp m
  off : ∀ n, t.Attached n → ¬ t.onDevice n → t.backedUp n ∧ (t.nodes n).lockRef = 0
  value_len : ∀ n v, t.Attached n → (t.nodes n).value = some v → v.length = t.len n
  host_len : ∀ n v, t.Attached n → (t.nodes n).hostValue = some v → v.length = t.len n

theorem twoTierShape_of_core {p : CacheParams} (h : CoreOn p t A) : TwoTierShape t := by
  have hatt : ∀ {n}, t.Attached n → n ∈ A := fun hn => h.shape.attached_iff.mp hn
  exact ⟨fun n m hn hd hm => (h.anc_device (hatt hn) hd hm).2,
    fun n m hn hb hm => (h.anc_backedUp (hatt hn) hb hm).2,
    fun n hn hd => h.off_device n (hatt hn) hd,
    fun n v hn hv => h.value_len n (hatt hn) v hv,
    fun n v hn hv => h.host_len n (hatt hn) v hv⟩

/-- In every run both tiers are closed upwards, and no operation fails: in particular no
assertion of `load_back`, `_evict_regular` and `_evict_backuped` does. -/
theorem run_twoTierShape (hpol : hp.writePolicy ≠ .writeBack) (ha : a.pageSize = hp.pageSize)
    (hh : pool.pageSize = hp.pageSize) (h : HiRun hp (.init a pool) ops s) :
    TwoTierShape s.cache.tree ∧ ∀ op, s.Valid hp op → ∃ s', s.step hp op = .ok s' := by
  obtain ⟨A, hi, _⟩ := h.inv hpol ha hh
  refine ⟨twoTierShape_of_core hi.state.tree.core, fun op hv => ?_⟩
  obtain ⟨s', _, hrun, _⟩ := step_spec hpol hi hv
  exact ⟨s', hrun⟩

theorem run_twoTierShape_split : TwoTierShape backupSession.cache.tree ∧
    (backupSession.cache.tree.nodes 2).hostValue = some [0] ∧
    (backupSession.cache.tree.nodes 1).hostValue = some [1] :=
  ⟨(run_twoTierShape (by decide) rfl rfl backupSession_run).1, by decide, by decide⟩

/-! ### Accounting -/

/-- Sizes, leaf sets and lock counts of a tree on which the nodes `locks` are locked. -/
structure TwoTierAccounting (t : RadixTree) (locks : List NodeId) : Prop where
  evictable_eq : t.evictableSize =
    ∑ n ∈ t.attached with t.onDevice n ∧ (t.nodes n).lockRef = 0, (t.len n : Int)
  protected_eq : t.protectedSize = ∑ n ∈ t.attached with 0 < (t.nodes n).lockRef, (t.len n : Int)
  leaves_iff : ∀ n, n ∈ t.evictableLeaves ↔ t.Attached n ∧ n ≠ t.rootNode ∧ t.onDevice n ∧
    (t.nodes n).lockRef = 0 ∧ ∀ c, t.Attached c → t.par c = some n → ¬ t.onDevice c
  hostLeaves_iff : ∀ n, n ∈ t.evictableHostLeaves ↔ t.Attached n ∧ ¬ t.onDevice n ∧
    ∀ c, t.Attached c → t.par c = some n → ¬ t.backedUp c
  count : ∀ n, t.Attached n → n ≠ t.rootNode → (t.nodes n).lockRef = holdersBelow t locks n

theorem twoTierAccounting_of_held {p : CacheParams} {locks : List NodeId} (h : TreeInv p t A)
    (hheld : HeldBy t A locks) : TwoTierAccounting t locks := by
  have hshape : ShapeOn p t A := h.core.shape
  have hcounts := h.counts
  have hatt : ∀ {n}, t.Attached n ↔ n ∈ A := hshape.attached_iff
  refine ⟨?_, ?_, ?_, ?_, ?_⟩
  · rw [hshape.attached_eq, Finset.sum_filter]
    exact hcounts.evictable_eq
  · rw [hshape.attached_eq, Finset.sum_filter]
    exact hcounts.protected_eq
  · intro n
    refine (hcounts.leaves_iff n (Set.notMem_empty n)).trans ⟨fun hl => ?_, fun hl => ?_⟩
    · exact ⟨hatt.mpr hl.mem, hl.ne_root, hl.device, hl.unlocked,
        fun c hc => hl.childless c (hatt.mp hc)⟩
    · obtain ⟨hn, hr, hd, hlock, hchild⟩ := hl
      exact ⟨hatt.mp hn, hr, hd, hlock, fun c hc => hchild c (hatt.mpr hc)⟩
  · intro n
    refine (hcounts.hostLeaves_iff n (Set.notMem_empty n)).trans ⟨fun hl => ?_, fun hl => ?_⟩
    · exact ⟨hatt.mpr hl.mem, hl.off, fun c hc => hl.childless c (hatt.mp hc)⟩
    · obtain ⟨hn, hd, hchild⟩ := hl
      exact ⟨hatt.mp hn, hd, fun c hc => hchild c (hatt.mpr hc)⟩
  · intro n hn
    exact hheld.count n (hatt.mp hn)

theorem HiSession.Inv.twoTierAccounting (h : s.Inv hp A) :
    TwoTierAccounting s.cache.tree (s.flushedWrites ++ s.locks ++
      (s.cache.ongoingWriteThrough ++ s.cache.ongoingLoadBack)) :=
  twoTierAccounting_of_held h.state.tree h.state.held

/-- In every run without idle flushes sizes, leaf sets and lock counts are exact. The holders are
the requests, the writes in flight and the loads in flight. -/
theorem run_twoTierAccounting (hpol : hp.writePolicy ≠ .writeBack)
    (ha : a.pageSize = hp.pageSize) (hh : pool.pageSize = hp.pageSize)
    (h : HiRun hp (.init a pool) ops s) (hflush : ∀ op ∈ ops, op.isFlush = false) :
    TwoTierAccounting s.cache.tree
      (s.locks ++ (s.cache.ongoingWriteThrough ++ s.cache.ongoingLoadBack)) := by
  obtain ⟨A, hi, hnone⟩ := h.inv hpol ha hh
  have hacc := hi.twoTierAccounting
  rwa [hnone hflush] at hacc

theorem run_twoTierAccounting_split : TwoTierAccounting backupSession.cache.tree [1] ∧
    (backupSession.cache.tree.nodes 2).lockRef = 1 :=
  ⟨run_twoTierAccounting (by decide) rfl rfl backupSession_run (by decide), by decide⟩

/-- The root has a lock count of 1 that belongs to no holder. -/
theorem root_locked_by_nobody : HiRun backupParams backupStart [] backupStart ∧
    backupStart.cache.tree.Attached 0 ∧ (backupStart.cache.tree.nodes 0).lockRef = 1 ∧
    backupStart.locks ++ (backupStart.cache.ongoingWriteThrough ++
      backupStart.cache.ongoingLoadBack) = [] ∧
    holdersBelow backupStart.cache.tree [] 0 = 0 :=
  ⟨.nil, .root, by decide, by decide, rfl⟩

/-! ### Eviction -/

/-- In both caches `evict` returns the number of slots of the nodes it takes off the device:
unlocked leaves, one after the other, together as many tokens as it was asked for or all that were
evictable, and without the last one fewer than it was asked for. -/
theorem run_evictsEnough {p : CacheParams} {b : Allocator} {tr : List (CacheOp × CacheOut)}
    {r : Session} (hr : Run p (Session.init b) tr r) (hpol : hp.writePolicy ≠ .writeBack)
    (ha : a.pageSize = hp.pageSize) (hh : pool.pageSize = hp.pageSize)
    (h : HiRun hp (.init a pool) ops s) (numTokens : Nat) :
    (∀ pick, ∃ k c, r.cache.evict p numTokens pick = .ok (k, c) ∧
      FreesEnough RadixCache.FreeLeaf (fun c => c.tree.deviceValue) (RadixCache.evictNode p)
        (fun c => c.tree.evictableSize) numTokens r.cache k c) ∧
    ∀ pick, ∃ k c, s.cache.evict hp numTokens pick = .ok (k, c) ∧
      FreesEnough HiCache.FreeLeaf (fun c => c.tree.deviceValue) (HiCache.evictOne hp)
        (fun c => c.tree.evictableSize) numTokens s.cache k c := by
  obtain ⟨_, hbase, _⟩ := hr.inv
  obtain ⟨_, hi, _⟩ := h.inv hpol ha hh
  exact ⟨Radix.evict_frees hbase.base hbase.held numTokens, evict_frees hpol hi.state numTokens⟩

theorem run_evictsEnough_split : ∃ k c,
    splitSession.cache.evict splitParams 1 (fun _ => 0) = .ok (k, c) ∧
      FreesEnough RadixCache.FreeLeaf (fun c => c.tree.deviceValue)
        (RadixCache.evictNode splitParams) (fun c => c.tree.evictableSize) 1 splitSession.cache k c := by
  obtain ⟨tr, hr⟩ := splitSession_run
  exact (run_evictsEnough hr (by decide) rfl rfl backupSession_run 1).1 fun _ => 0

/-! ### Matching -/

/-- With a write-through policy, in every state of every run, `match_prefix` returns the longest
prefix of the key that is on the device, with its slots, and what was on the device stays there. -/
theorem run_matchContract (hpol : hp.writePolicy ≠ .writeBack) (ha : a.pageSize = hp.pageSize)
    (hh : pool.pageSize = hp.pageSize) (h : HiRun hp (.init a pool) ops s) (key : RadixKey)
    (hk : key.isBigram = true → hp.isEagle = true) (pick : Nat → Nat → Nat) :
    ∃ (A : Finset NodeId) (hA : CoreOn hp.toCacheParams s.cache.tree A) (r : HiCache.HiMatchResult)
      (c : HiCache) (B : Finset NodeId) (hB : CoreOn hp.toCacheParams c.tree B),
      s.cache.matchPrefix hp key pick = .ok (r, c) ∧ hA.deviceStore.Sub hB.deviceStore ∧
      hB.deviceStore.IsLongest key.extraKey (queryUnits hp.toCacheParams key)
        r.deviceIndices.length r.deviceIndices ∧
      c.tree.onDevice r.lastDeviceNode ∧ c.tree.backedUp r.lastHostNode := by
  obtain ⟨A, hi, _⟩ := h.inv hpol ha hh
  obtain ⟨r, c, B, n, l, ns, hrun, hsteps, hkeep, hm⟩ := matchPrefix_spec hi.state hk pick
  have hA : CoreOn hp.toCacheParams s.cache.tree A := hi.state.tree.core
  have hB : CoreOn hp.toCacheParams c.tree B := (hsteps.inv hi.state).tree.core
  exact ⟨A, hA, r, c, B, hB, hrun, hkeep.store_sub hA hB, hm.isLongest hB, hm.chain.device, hm.host⟩

theorem run_matchContract_split : ∃ r c, backupSession.cache.matchPrefix backupParams
    ⟨[5, 6], none, false⟩ (fun _ _ => 0) = .ok (r, c) ∧ c.tree.onDevice r.lastDeviceNode := by
  obtain ⟨_, _, r, c, _, _, hrun, _, _, hd, _⟩ := run_matchContract (by decide) rfl rfl
    backupSession_run ⟨[5, 6], none, false⟩ (fun h => absurd h (by decide)) fun _ _ => 0
  exact ⟨r, c, hrun, hd⟩

/-! ### The idle flush -/

theorem TwoTierAccounting.of_unlocked (h : TwoTierAccounting t []) (hroot : t.len t.rootNode = 0) :
    t.protectedSize = 0 ∧
      t.evictableSize = ∑ n ∈ t.attached with t.onDevice n, (t.len n : Int) := by
  have hzero : ∀ n ∈ t.attached, n ≠ t.rootNode → (t.nodes n).lockRef = 0 := by
    intro n hn hr
    simp only [RadixTree.attached, Finset.mem_filter] at hn
    exact h.count n hn.2 hr
  refine ⟨h.protected_eq.trans (Finset.sum_eq_zero fun n hn => ?_), ?_⟩
  · obtain ⟨hmem, hpos⟩ := Finset.mem_filter.mp hn
    by_cases hr : n = t.rootNode
    · rw [hr, hroot]
      rfl
    · rw [hzero n hmem hr] at hpos
      omega
  · rw [h.evictable_eq, Finset.sum_filter, Finset.sum_filter]
    refine Finset.sum_congr rfl fun n hn => ?_
    by_cases hr : n = t.rootNode
    · rw [hr, hroot]
      simp
    · simp only [hzero n hn hr, and_true]

/-- The guard of `on_idle`, which `is_fully_idle` asks of the cache. -/
def HiSession.IsIdle (s : HiSession) : Prop :=
  s.cache.ongoingWriteThrough = [] ∧ s.cache.ongoingLoadBack = []

/-- Runs in which `on_idle` makes the flushes. -/
inductive IdleRun (hp : HiParams) (s₀ : HiSession) : HiSession → Prop
  | nil : IdleRun hp s₀ s₀
  | snoc {s s' : HiSession} {op : HiOp} (h : IdleRun hp s₀ s) (hv : s.Valid hp op)
      (hidle : op.isFlush = true → s.IsIdle) (hs : s.step hp op = .ok s') : IdleRun hp s₀ s'

theorem HiRun.idleRun (h : HiRun hp s₀ ops s) (hflush : ∀ op ∈ ops, op.isFlush = false) :
    IdleRun hp s₀ s := by
  induction h with
  | nil => exact .nil
  | snoc _ hv hs ih =>
    refine (ih fun op hop => hflush op (mem_append_left _ hop)).snoc hv (fun hf => ?_) hs
    exact absurd hf (by simp [hflush _ (mem_append_right _ (mem_singleton_self _))])

theorem IdleRun.inv (hpol : hp.writePolicy ≠ .writeBack) (ha : a.pageSize = hp.pageSize)
    (hh : pool.pageSize = hp.pageSize) (h : IdleRun hp (.init a pool) s) :
    ∃ A, s.Inv hp A ∧ s.flushedWrites = [] := by
  induction h with
  | nil => exact ⟨_, initWith_inv _ a pool ha hh, rfl⟩
  | @snoc s s' op _ hv hidle hs ih =>
    obtain ⟨A, hi, hnone⟩ := ih
    cases hf : op.isFlush with
    | false =>
      obtain ⟨s', r, hrun, hdoes⟩ := step_spec hpol hi hv
      obtain rfl := Except.ok.inj (hs.symm.trans hrun)
      exact ⟨r.nodes, hdoes.inv, (hdoes.flushed hf).trans hnone⟩
    | true =>
      cases op <;> cases hf
      obtain ⟨c, r, hrun, hdoes, _⟩ := flushOnIdle_step hi _ _
      obtain rfl := Except.ok.inj (hs.symm.trans hrun)
      refine ⟨r.nodes, hdoes.inv, ?_⟩
      show s.cache.ongoingWriteThrough ++ s.flushedWrites = []
      rw [(hidle rfl).1, hnone, nil_append]

end Run

end Fluxfer.Hi
