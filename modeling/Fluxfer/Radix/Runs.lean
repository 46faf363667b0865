import Fluxfer.Radix.CacheSpec

/-!
# Runs of `RadixCache`

A session is a cache with the nodes that `match_prefix` has given to its clients and the locks they
hold. Clients lock a node they were given, as long as it is in the tree, and release each lock once
(`Session.Valid`). `Session.step_spec` says what one operation does.
-/

namespace Fluxfer.Radix

open ParentTree Memory Finset

/-- The key a client builds: plain, or for EAGLE possibly in the bigram view already. -/
def clientKey (p : CacheParams) (tokenIds : List Nat) (extraKey : Option String)
    (viewed : Bool) : RadixKey :=
  ⟨tokenIds, extraKey, viewed && p.isEagle⟩

inductive CacheOp
  | matchPrefix (tokenIds : List Nat) (extraKey : Option String) (viewed : Bool)
  | insert (tokenIds : List Nat) (extraKey : Option String) (viewed : Bool)
      (value : Option (List Nat)) (chunked : Bool)
  | incLockRef (n : NodeId)
  | decLockRef (n : NodeId)
  | evict (numTokens : Nat) (pick : Nat → Nat)

/-- What an operation returns. -/
inductive CacheOut
  | matched (deviceIndices : List Nat)
  | inserted (prefixLen : Nat)
  | delta (d : Int)
  | evicted (numTokens : Nat)
deriving DecidableEq

structure Session where
  cache : RadixCache
  /-- the nodes returned by `match_prefix` so far -/
  given : List NodeId
  /-- the nodes of the locks not yet released -/
  locks : List NodeId

namespace Session

def init (a : Allocator) : Session := ⟨⟨RadixTree.init, a⟩, [], []⟩

def withTree (s : Session) (t : RadixTree) : Session :=
  { s with cache := { s.cache with tree := t } }

def step (p : CacheParams) (s : Session) : CacheOp → Except CacheError (CacheOut × Session)
  | .matchPrefix tokenIds extraKey viewed => do
    let (r, t) ← s.cache.tree.matchPrefix p (clientKey p tokenIds extraKey viewed)
    .ok (.matched r.deviceIndices, { s.withTree t with given := r.lastDeviceNode :: s.given })
  | .insert tokenIds extraKey viewed value chunked => do
    let (n, t) ← s.cache.tree.insert p (clientKey p tokenIds extraKey viewed) value chunked
    .ok (.inserted n, s.withTree t)
  | .incLockRef n => do
    let (d, t) ← s.cache.tree.incLockRef n
    .ok (.delta d, { s.withTree t with locks := n :: s.locks })
  | .decLockRef n => do
    let (d, t) ← s.cache.tree.decLockRef n
    .ok (.delta d, { s.withTree t with locks := s.locks.erase n })
  | .evict numTokens pick => do
    let (k, c) ← s.cache.evict p numTokens pick
    .ok (.evicted k, { s with cache := c })

/-- What clients keep to: enough slots for what they insert, locks on nodes they were given
and that eviction has not taken away, and one release for each lock. -/
def Valid (p : CacheParams) (s : Session) : CacheOp → Prop
  | .matchPrefix _ _ _ => True
  | .insert tokenIds extraKey viewed value _ =>
    EnoughSlots p (clientKey p tokenIds extraKey viewed) value
  | .incLockRef n => n ∈ s.given ∧ s.cache.tree.Attached n
  | .decLockRef n => n ∈ s.locks
  | .evict _ _ => True

end Session

/-- The operations and answers that lead from one session to another. -/
inductive Run (p : CacheParams) (s₀ : Session) : List (CacheOp × CacheOut) → Session → Prop
  | nil : Run p s₀ [] s₀
  | snoc {tr : List (CacheOp × CacheOut)} {s s' : Session} {op : CacheOp} {out : CacheOut}
      (h : Run p s₀ tr s) (hv : s.Valid p op) (hs : s.step p op = .ok (out, s')) :
      Run p s₀ (tr ++ [(op, out)]) s'

/-! ## The abstract cache -/

/-- The cache as its clients see it: page-aligned sequences of units with their slots, in
namespaces. -/
abbrev Entries (p : CacheParams) := PrefixStore (Option String) KeyUnit Nat p.pageSize

/-- One operation on the abstract cache. A lookup answers with the longest stored prefix, an
insertion with the length that was stored before it, and an eviction may drop entries. -/
inductive AbsStep (p : CacheParams) (S : Entries p) : CacheOp → CacheOut → Entries p → Prop
  | matchPrefix {tokenIds : List Nat} {extraKey : Option String} {viewed : Bool} {n : Nat}
      {slots : List Nat}
      (h : S.IsLongest extraKey (queryUnits p (clientKey p tokenIds extraKey viewed)) n slots) :
      AbsStep p S (.matchPrefix tokenIds extraKey viewed) (.matched slots) S
  | insert {tokenIds : List Nat} {extraKey : Option String} {viewed chunked : Bool}
      {value : Option (List Nat)} {n : Nat} {slots : List Nat}
      (hv : EnoughSlots p (clientKey p tokenIds extraKey viewed) value)
      (h : S.IsLongest extraKey (queryUnits p (clientKey p tokenIds extraKey viewed)) n slots) :
      AbsStep p S (.insert tokenIds extraKey viewed value chunked) (.inserted n)
        (S.insert extraKey (queryUnits p (clientKey p tokenIds extraKey viewed))
          (insertSlots p (clientKey p tokenIds extraKey viewed) value) (insertSlots_length hv))
  | incLockRef {n : NodeId} {d : Int} : AbsStep p S (.incLockRef n) (.delta d) S
  | decLockRef {n : NodeId} {d : Int} : AbsStep p S (.decLockRef n) (.delta d) S
  | evict {numTokens k : Nat} {pick : Nat → Nat} {S' : Entries p} (h : S'.Sub S) :
      AbsStep p S (.evict numTokens pick) (.evicted k) S'

inductive AbsRun (p : CacheParams) (S₀ : Entries p) : List (CacheOp × CacheOut) → Entries p → Prop
  | nil : AbsRun p S₀ [] S₀
  | snoc {tr : List (CacheOp × CacheOut)} {S S' : Entries p} {op : CacheOp} {out : CacheOut}
      (h : AbsRun p S₀ tr S) (hs : AbsStep p S op out S') : AbsRun p S₀ (tr ++ [(op, out)]) S'

/-- The entries in the tree of a cache: whole pages from the root, with their slots. -/
def RadixTree.Stored (p : CacheParams) (t : RadixTree) (e : Option String) (u : List KeyUnit)
    (s : List Nat) : Prop :=
  PagedTrie.Holds t.par t.attached t.rootNode p.pageSize t.ns t.seg t.deviceValue e u s

/-! ## One operation -/

structure Session.Inv (p : CacheParams) (s : Session) (A : Finset NodeId) : Prop where
  base : BaseInv p s.cache.tree A
  held : HeldBy s.cache.tree A s.locks

theorem BaseInv.store_holds_iff {p : CacheParams} {t : RadixTree} {A : Finset NodeId}
    (h : BaseInv p t A) {e : Option String} {u : List KeyUnit} {s : List Nat} :
    h.store.holds e u s ↔ t.Stored p e u s := by
  unfold RadixTree.Stored
  rw [h.shape.attached_eq]
  exact Iff.rfl

theorem clientKey_bigram (p : CacheParams) (tokenIds : List Nat) (extraKey : Option String)
    (viewed : Bool) (h : (clientKey p tokenIds extraKey viewed).isBigram = true) :
    p.isEagle = true := by
  rw [clientKey, Bool.and_eq_true] at h
  exact h.2

theorem init_store (p : CacheParams) : (init_baseInv p).store = PrefixStore.empty _ _ _ _ := by
  apply PrefixStore.ext
  funext e u s
  apply propext
  constructor
  · rintro ⟨_, hnil | ⟨q, hq, hqr, _⟩⟩
    · exact hnil
    · exact absurd (mem_singleton.mp hq) hqr
  · intro hnil
    refine ⟨?_, Or.inl hnil⟩
    rw [hnil.1]
    exact dvd_zero _

namespace Session

variable {p : CacheParams} {s : Session} {A : Finset NodeId}

theorem init_inv (p : CacheParams) (a : Allocator) : Inv p (init a) {0} :=
  ⟨init_baseInv p, init_heldBy⟩

/-- What one operation of a client does: it succeeds, it is a step of the abstract cache,
and every node above a lock stays. -/
structure StepTo (p : CacheParams) (s : Session) (A : Finset NodeId) (h : Inv p s A)
    (op : CacheOp) (out : CacheOut) (s' : Session) (A' : Finset NodeId) : Prop where
  run : s.step p op = .ok (out, s')
  inv : Inv p s' A'
  abs : AbsStep p h.base.store op out inv.base.store
  keep : ∀ x ∈ s.locks, ∀ n, Anc s.cache.tree.par n x → n ∈ A'

variable (h : Inv p s A)
include h

theorem keep_of_subset {A' : Finset NodeId} (hsub : A ⊆ A') :
    ∀ x ∈ s.locks, ∀ n, Anc s.cache.tree.par n x → n ∈ A' := by
  intro x hx n hn
  exact hsub (h.base.shape.rooted.anc_mem (h.held.mem x hx) hn)

variable (tokenIds : List Nat) (extraKey : Option String) (viewed : Bool)

theorem matchPrefix_step : ∃ out s' A',
      StepTo p s A h (.matchPrefix tokenIds extraKey viewed) out s' A' := by
  obtain ⟨r, t', A', l, hrun, href, hend, hlabel⟩ :=
    matchPrefix_spec h.base (clientKey_bigram p tokenIds extraKey viewed)
  have hinv := h.base.refines href
  have hlong := hend.isLongest hinv hlabel
  have hheld : HeldBy t' A' s.locks := href.heldBy h.base.tree h.held
  refine ⟨_, _, A', by simp only [step, hrun]; rfl, ⟨hinv, hheld⟩, ?_,
    keep_of_subset h href.subset⟩
  change AbsStep p h.base.store _ _ hinv.store
  rw [h.base.store_refines href] at hlong ⊢
  exact .matchPrefix hlong

theorem insert_step (value : Option (List Nat)) (chunked : Bool)
    (hv : EnoughSlots p (clientKey p tokenIds extraKey viewed) value) : ∃ out s' A',
      StepTo p s A h (.insert tokenIds extraKey viewed value chunked) out s' A' := by
  obtain ⟨n, t', A', slots, hrun, hins, hlong, hinv, hstore⟩ :=
    insert_spec h.base (clientKey_bigram p tokenIds extraKey viewed) hv chunked
  refine ⟨.inserted n, s.withTree t', A', ?_, ⟨hinv, hins.heldBy h.base.tree h.held⟩, ?_,
    keep_of_subset h hins.subset⟩
  · simp only [step, hrun, bind, Except.bind]
  · change AbsStep p h.base.store _ _ hinv.store
    rw [hstore]
    exact .insert hv hlong

theorem incLockRef_step {n : NodeId} (hn : n ∈ A) :
    ∃ out s' A', StepTo p s A h (.incLockRef n) out s' A' := by
  obtain ⟨d, t', hrun, hinv, hheld, hl⟩ := incLockRef_spec h.base h.held hn
  refine ⟨.delta d, { s.withTree t' with locks := n :: s.locks }, A, ?_, ⟨hinv, hheld⟩, ?_,
    keep_of_subset h subset_rfl⟩
  · simp only [step, hrun, bind, Except.bind]
  · change AbsStep p h.base.store _ _ hinv.store
    rw [hl.store_eq h.base hinv]
    exact .incLockRef

theorem decLockRef_step {n : NodeId} (hn : n ∈ s.locks) :
    ∃ out s' A', StepTo p s A h (.decLockRef n) out s' A' := by
  obtain ⟨d, t', hrun, hinv, hheld, hl⟩ := decLockRef_spec h.base h.held hn
  refine ⟨.delta d, { s.withTree t' with locks := s.locks.erase n }, A, ?_, ⟨hinv, hheld⟩, ?_,
    keep_of_subset h subset_rfl⟩
  · simp only [step, hrun, bind, Except.bind]
  · change AbsStep p h.base.store _ _ hinv.store
    rw [hl.store_eq h.base hinv]
    exact .decLockRef

theorem evict_step (numTokens : Nat) (pick : Nat → Nat) :
    ∃ out s' A', StepTo p s A h (.evict numTokens pick) out s' A' := by
  obtain ⟨k, c', A', hrun, hev⟩ := evict_spec h.base numTokens pick
  have hinv := hev.baseInv h.base
  have hheld := hev.heldBy h.held
  refine ⟨.evicted k, { s with cache := c' }, A', ?_, ⟨hinv, hheld⟩, .evict (hev.sub h.base hinv),
    ?_⟩
  · simp only [step, hrun, bind, Except.bind]
  · -- a lock keeps its node, and with it the path above
    intro x hx n hn
    rw [← funext hev.par_eq] at hn
    exact hinv.shape.rooted.anc_mem (hheld.mem x hx) hn

theorem step_spec {op : CacheOp} (hv : s.Valid p op) :
    ∃ out s' A', StepTo p s A h op out s' A' := by
  cases op with
  | matchPrefix tokenIds extraKey viewed => exact matchPrefix_step h tokenIds extraKey viewed
  | insert tokenIds extraKey viewed value chunked =>
    exact insert_step h tokenIds extraKey viewed value chunked hv
  | incLockRef n => exact incLockRef_step h (h.base.shape.attached_iff.mp hv.2)
  | decLockRef n => exact decLockRef_step h hv
  | evict numTokens pick => exact evict_step h numTokens pick

end Session

/-! ## Whole runs -/

variable {p : CacheParams} {s : Session} {tr : List (CacheOp × CacheOut)} {a : Allocator}

theorem Run.inv (h : Run p (Session.init a) tr s) : ∃ A, ∃ hi : s.Inv p A,
    AbsRun p (PrefixStore.empty _ _ _ _) tr hi.base.store := by
  induction h with
  | nil =>
    refine ⟨{0}, Session.init_inv p a, ?_⟩
    change AbsRun p _ [] (init_baseInv p).store
    rw [init_store]
    exact .nil
  | snoc _ hv hs ih =>
    obtain ⟨A, hi, hrun⟩ := ih
    obtain ⟨out', s', A', hto⟩ := Session.step_spec hi hv
    have heq := hs.symm.trans hto.run
    obtain ⟨rfl, rfl⟩ := heq
    exact ⟨A', hto.inv, .snoc hrun hto.abs⟩

/-! A run in which a node is locked and then split by a lookup. -/

/-- The session after an operation that succeeds. -/
def Session.next (p : CacheParams) (s : Session) (op : CacheOp) : Session :=
  match s.step p op with
  | .ok (_, s') => s'
  | .error _ => s

theorem Run.next {s0 : Session} (h : Run p s0 tr s) (op : CacheOp) (hv : s.Valid p op)
    (hok : (s.step p op).toBool = true) : ∃ tr', Run p s0 tr' (s.next p op) := by
  unfold Session.next
  cases hs : s.step p op with
  | error e =>
    rw [hs] at hok
    cases hok
  | ok r => exact ⟨_, h.snoc hv hs⟩

def splitParams : CacheParams := ⟨1, Nat.one_pos, false⟩

def splitStart : Session := Session.init (Allocator.init 1 8 false)

def splitSession : Session :=
  [.insert [5, 6] none false (some [2, 3]) false, .matchPrefix [5, 6] none false, .incLockRef 1,
    .matchPrefix [5, 7] none false].foldl (Session.next splitParams) splitStart

theorem splitSession_run : ∃ tr, Run splitParams splitStart tr splitSession := by
  have h0 : Run splitParams splitStart [] splitStart := .nil
  obtain ⟨tr1, h1⟩ := h0.next (.insert [5, 6] none false (some [2, 3]) false)
    (by rintro v ⟨⟩; decide) (by decide)
  obtain ⟨tr2, h2⟩ := h1.next (.matchPrefix [5, 6] none false) trivial (by decide)
  set s2 := Session.next splitParams _ _
  have hchild : s2.cache.tree.find 0 (.plain (.token 5)) = some 1 := by decide
  obtain ⟨tr3, h3⟩ := h2.next (.incLockRef 1) ⟨by decide, .child .root hchild⟩ (by decide)
  exact h3.next (.matchPrefix [5, 7] none false) trivial (by decide)

/-- `RadixCache` refines the abstract cache: the answers of every run are answers of a run of
the abstract cache, which ends with what the tree stores, and no operation fails. -/
theorem run_refines_prefixStore (h : Run p (Session.init a) tr s) :
    (∃ S, AbsRun p (PrefixStore.empty _ _ _ _) tr S ∧
      ∀ e u slots, S.holds e u slots ↔ s.cache.tree.Stored p e u slots) ∧
    ∀ op, s.Valid p op → ∃ out s', s.step p op = .ok (out, s') := by
  obtain ⟨A, hi, hrun⟩ := h.inv
  refine ⟨⟨_, hrun, fun e u slots => hi.base.store_holds_iff⟩, ?_⟩
  intro op hv
  obtain ⟨out, s', A', hto⟩ := Session.step_spec hi hv
  exact ⟨out, s', hto.run⟩

theorem run_refines_prefixStore_split : ∃ tr S,
    AbsRun splitParams (PrefixStore.empty _ _ _ _) tr S ∧
      ∀ e u slots, S.holds e u slots ↔ splitSession.cache.tree.Stored splitParams e u slots := by
  obtain ⟨tr, h⟩ := splitSession_run
  exact ⟨tr, (run_refines_prefixStore h).1⟩

/-- Lock counts, sizes and leaves of a tree on which the nodes `locks` are locked. -/
structure LockAccounting (t : RadixTree) (locks : List NodeId) : Prop where
  count : ∀ n, t.Attached n → n ≠ t.rootNode → (t.nodes n).lockRef = holdersBelow t locks n
  nonneg : ∀ n, t.Attached n → 0 ≤ (t.nodes n).lockRef
  le_parent : ∀ n q, t.Attached n → t.par n = some q → q ≠ t.rootNode →
    (t.nodes n).lockRef ≤ (t.nodes q).lockRef
  evictable_eq : t.evictableSize = ∑ n ∈ t.attached with (t.nodes n).lockRef = 0, (t.len n : Int)
  protected_eq : t.protectedSize = ∑ n ∈ t.attached with 0 < (t.nodes n).lockRef, (t.len n : Int)
  leaves_iff : ∀ n, n ∈ t.evictableLeaves ↔ t.Attached n ∧ n ≠ t.rootNode ∧
    (t.nodes n).lockRef = 0 ∧ (t.nodes n).childList = []

theorem Session.Inv.lockAccounting {A : Finset NodeId} (h : s.Inv p A) :
    LockAccounting s.cache.tree s.locks := by
  have hshape := h.base.shape
  refine ⟨?_, ?_, ?_, ?_, ?_, ?_⟩
  · intro n hn
    exact h.held.count n (hshape.attached_iff.mp hn)
  · intro n hn
    exact h.base.tree.core.lock_nonneg n (hshape.attached_iff.mp hn)
  · intro n q hn hq hqr
    exact h.held.lock_le_parent hshape (hshape.attached_iff.mp hn) hq hqr
  · rw [h.base.tree.counts.evictable_eq, hshape.attached_eq, sum_filter]
    apply sum_congr rfl
    intro n hn
    simp only [RadixTree.evictableWeight, h.base.device n hn, true_and]
  · rw [h.base.tree.counts.protected_eq, hshape.attached_eq, sum_filter]
    rfl
  · intro n
    rw [h.base.tree.mem_leaves, hshape.attached_iff]
    exact h.base.deviceLeaf_iff

/-- In every run the accounting is exact, and an operation never takes away a node on a
locked path. -/
theorem run_lockAccounting (h : Run p (Session.init a) tr s) :
    LockAccounting s.cache.tree s.locks ∧
    ∀ op, s.Valid p op → ∃ out s', s.step p op = .ok (out, s') ∧
      ∀ x ∈ s.locks, ∀ n, Anc s.cache.tree.par n x →
        s.cache.tree.Attached n ∧ s'.cache.tree.Attached n := by
  obtain ⟨A, hi, _⟩ := h.inv
  refine ⟨hi.lockAccounting, ?_⟩
  intro op hv
  obtain ⟨out, s', A', hto⟩ := Session.step_spec hi hv
  refine ⟨out, s', hto.run, ?_⟩
  intro x hx n hn
  rw [hi.base.shape.attached_iff, hto.inv.base.shape.attached_iff]
  exact ⟨hi.base.shape.rooted.anc_mem (hi.held.mem x hx) hn, hto.keep x hx n hn⟩

theorem run_lockAccounting_split : LockAccounting splitSession.cache.tree [1] ∧
    (splitSession.cache.tree.nodes 2).lockRef = 1 := by
  obtain ⟨tr, h⟩ := splitSession_run
  exact ⟨(run_lockAccounting h).1, by decide⟩

end Fluxfer.Radix
