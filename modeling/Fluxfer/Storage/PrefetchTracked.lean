import Fluxfer.Storage.PrefetchSpec

/-!
# Registered prefetches and their operations

The bookkeeping that makes the steps of the prefetch protocol keep all slots: an operation that
can still complete tokens is registered or terminated (`Tracked`), no transfer runs out of host
slots (`Sized`), and the counters are the sums over the registered prefetches (`Counted`).
-/

namespace Fluxfer.Storage

open Radix Hi PrefetchState Multiset Function Option Nat

namespace Stage

/-- The operation may still be revoked. -/
def Asked : Stage → Prop
  | queued | querying => True
  | revoking | trimming _ | buffered | transferring _ _ | releasing => False

/-- The slots of the operation are enough for the pages that are transferred. -/
def Fits (p : PrefetchParams) (op : PrefetchOperation) : Stage → Prop
  | queued | querying => op.keyLen ≤ op.hostIndices.length
  | revoking => True
  | trimming hits =>
    op.hashPages * p.pageSize ≤ hits ∧ op.hashPages * p.pageSize ≤ op.hostIndices.length
  | transferring first prev => op.hashPages * p.pageSize ≤ op.hostIndices.length ∧
    prev = first * p.pageSize ∧ first ≤ op.hashPages
  | buffered | releasing => op.hashPages * p.pageSize ≤ op.hostIndices.length

end Stage

namespace Passage

variable {p : PrefetchParams} {op : PrefetchOperation} {x z : Stage} {y : Option Stage}
  {f : PrefetchOperation → PrefetchOperation} {l d : List Nat}

section

variable (h : Passage p op x f y l d)
include h

theorem requestId_eq : (f op).requestId = op.requestId := by
  cases h <;> rfl

theorem terminated (ht : op.terminated = true) : (f op).terminated = true := by
  cases h <;> first | exact ht | rfl

theorem asked (hy : y = some z) (hz : z.Asked) : x.Asked := by
  cases h <;> cases hy <;> trivial

theorem of_revoking (hx : x = .revoking) :
    y = none ∧ (f op).completedTokens = op.completedTokens := by
  cases h <;> cases hx
  exact ⟨rfl, rfl⟩

theorem to_revoking (hy : y = some .revoking) :
    x = .querying ∧ (f op).completedTokens = op.completedTokens := by
  cases h <;> cases hy
  exact ⟨rfl, rfl⟩

end

theorem batch_le {first prev : Nat} (h : (Stage.transferring first prev).Fits p op) :
    prev + batchPages p op first * p.pageSize ≤ op.hostIndices.length := by
  obtain ⟨hlen, hprev, hfirst⟩ := h
  have hbatch : first + batchPages p op first ≤ op.hashPages := by
    rw [batchPages]
    omega
  calc prev + batchPages p op first * p.pageSize
      = (first + batchPages p op first) * p.pageSize := by rw [hprev, add_mul]
    _ ≤ op.hashPages * p.pageSize := mul_le_mul_right _ hbatch
    _ ≤ _ := hlen

theorem fits (h : Passage p op x f y l d) (hz : x.Waiting → op.completedTokens = 0)
    (hx : x.Fits p op) (hy : y = some z) : z.Fits p (f op) := by
  cases h <;> cases hy
  case trim hits hle =>
    have hpages := div_mul_le_self hits p.pageSize
    exact ⟨hpages, hpages.trans (hle.trans hx)⟩
  case cut hits => exact (le_min hx.1 hx.2).trans_eq (List.length_take).symm
  case start => exact ⟨hx, by rw [hz trivial, zero_mul], zero_le _⟩
  case next first prev hdone hnext =>
    obtain ⟨hlen, hprev, -⟩ := hx
    have hfull : batchPages p op first = p.storageBatchSize := by
      rw [batchPages]
      omega
    exact ⟨hlen, by rw [hdone, hfull, hprev, add_mul], hnext.le⟩
  case stop => exact hx.1
  case finish => exact hx.1
  all_goals first | exact hx | trivial

theorem ne_none (h : Passage p op x f y l d) (hx : x.Fits p op) {first prev : Nat}
    (heq : x = .transferring first prev) : y ≠ none := by
  cases h <;> cases heq
  case die hn hover =>
    have := batch_le hx
    omega
  all_goals exact some_ne_none _

end Passage

namespace PrefetchState

/-- The operation that the prefetch thread asks the storage about. -/
def queriedOps : PrefetchThread → Multiset OpId
  | .querying o => {o}
  | _ => 0

/-- The operations that may still be revoked. -/
def askedOps (s : PrefetchState) : Multiset OpId :=
  s.prefetchQueue + queriedOps s.prefetchThread

structure Tracked (s : PrefetchState) : Prop where
  active : ∀ x ∈ s.stages, x.2 ≠ .revoking →
    (s.operations x.1).terminated = true ∨ s.Registered x.1
  asked : ∀ x ∈ s.stages, x.2.Asked →
    ∀ e, s.find (s.operations x.1).requestId = some e → e.operation = x.1
  revoked : ∀ rid ∈ s.prefetchRevokeQueue, ∀ e, s.find rid = some e →
    (s.operations e.operation).completedTokens = 0 ∧
      ∀ x, (e.operation, x) ∈ s.stages → x = .revoking

structure Counted (s : PrefetchState) : Prop where
  occupied : s.prefetchTokensOccupied =
    (s.ongoingPrefetch.map fun x => (x.2.keyLen : Int)).sum
  refs : ∀ n, s.hostRefCounter n =
    (s.ongoingPrefetch.map fun x => if x.2.lastHostNode = n then 1 else 0).sum

structure Sized (p : PrefetchParams) (s : PrefetchState) : Prop where
  pageSize : s.hostPool.pageSize = p.pageSize
  fits : ∀ x ∈ s.stages, x.2.Fits p (s.operations x.1)
  alive : IoThread.dead ∉ s.ioThreads

/-- The threads, the registrations and the counters fit together. -/
structure Booked (p : PrefetchParams) (s : PrefetchState) : Prop where
  wf : s.Wf
  tracked : s.Tracked
  counted : s.Counted
  sized : s.Sized p

theorem Counted.same {s t : PrefetchState} (hc : s.Counted)
    (hongoing : t.ongoingPrefetch = s.ongoingPrefetch)
    (hoccupied : t.prefetchTokensOccupied = s.prefetchTokensOccupied)
    (hrefs : t.hostRefCounter = s.hostRefCounter) : t.Counted :=
  ⟨by rw [hoccupied, hongoing, hc.occupied], fun n => by rw [hrefs, hongoing, hc.refs]⟩

/-! ## The threads -/

section Threads

variable {p : PrefetchParams} {s t : PrefetchState} {o : OpId} {x : Stage} {y : Option Stage}
  {f : PrefetchOperation → PrefetchOperation} {l d : List Nat}

theorem Passes.tracked (h : Passes p s t o x f y l d) (hs : s.Wf) (ht : s.Tracked) : t.Tracked where
  active := fun z hz hne => by
    rw [Registered, h.ongoing_eq]
    rcases h.mem_stages hs hz with ⟨ho, hy⟩ | ⟨hne', hz⟩
    · have hx : x ≠ .revoking := fun hx => by
        rw [(h.passage.of_revoking hx).1] at hy
        cases hy
      rw [ho, h.op_eq]
      exact (ht.active _ h.mem hx).imp h.passage.terminated id
    · rw [h.op_of_ne hne']
      exact ht.active z hz hne
  asked := fun z hz hasked e he => by
    rw [find, h.ongoing_eq] at he
    rcases h.mem_stages hs hz with ⟨ho, hy⟩ | ⟨hne, hz⟩
    · rw [ho, h.op_eq, h.passage.requestId_eq] at he
      rw [ho]
      exact ht.asked _ h.mem (h.passage.asked hy hasked) e he
    · rw [h.op_of_ne hne] at he
      exact ht.asked z hz hasked e he
  revoked := fun rid hrid e he => by
    rw [find, h.ongoing_eq] at he
    rcases h.revoked rid hrid with hrid | ⟨hy, rfl⟩
    · obtain ⟨hzero, hstage⟩ := ht.revoked rid hrid e he
      by_cases ho : e.operation = o
      · obtain ⟨hy, hkeep⟩ := h.passage.of_revoking (hstage x (ho ▸ h.mem))
        refine ⟨by rw [ho, h.op_eq, hkeep, ← ho, hzero], fun z hz => ?_⟩
        rcases h.mem_stages hs hz with ⟨-, hyz⟩ | ⟨hne, -⟩
        · rw [hy] at hyz
          cases hyz
        · exact absurd ho hne
      · refine ⟨by rw [h.op_of_ne ho, hzero], fun z hz => ?_⟩
        rcases h.mem_stages hs hz with ⟨heq, -⟩ | ⟨-, hz⟩
        · exact absurd heq ho
        · exact hstage z hz
    · -- a revocation is for the prefetch that is registered under the id of the operation
      obtain ⟨hx, hkeep⟩ := h.passage.to_revoking hy
      have ho : e.operation = o := ht.asked _ h.mem (hx ▸ trivial) e he
      refine ⟨?_, fun z hz => ?_⟩
      · rw [ho, h.op_eq, hkeep]
        exact hs.waiting _ h.mem (hx ▸ trivial)
      · rcases h.mem_stages hs hz with ⟨-, hyz⟩ | ⟨hne, -⟩
        · rw [hy] at hyz
          exact (some.inj hyz).symm
        · exact absurd ho hne

theorem Passes.sized (h : Passes p s t o x f y l d) (hs : s.Wf) (hz : s.Sized p) : t.Sized p where
  pageSize := h.hostPool_eq ▸ hz.pageSize
  fits := fun z hmem => by
    rcases h.mem_stages hs hmem with ⟨ho, hy⟩ | ⟨hne, hmem⟩
    · rw [ho, h.op_eq]
      exact h.passage.fits (hs.waiting _ h.mem) (hz.fits _ h.mem) hy
    · rw [h.op_of_ne hne]
      exact hz.fits z hmem
  alive := fun hdead => by
    rcases h.dead hdead with hdead | ⟨hy, first, prev, hx⟩
    · exact hz.alive hdead
    · exact h.passage.ne_none (hz.fits _ h.mem) hx hy

theorem Passes.booked (h : Passes p s t o x f y l d) (hb : s.Booked p) : t.Booked p :=
  ⟨h.wf hb.wf, h.tracked hb.wf hb.tracked, hb.counted.same h.ongoing_eq
    (congrArg (·.2.2.2.2.2) h.books) (congrArg (·.2.2.2.2.1) h.books), h.sized hb.wf hb.sized⟩

theorem Advances.booked (h : Advances p s t) (hb : s.Booked p) : t.Booked p := by
  rcases h with rfl | ⟨o, x, f, y, l, h⟩
  · exact hb
  · exact h.booked hb

end Threads

/-! ## The scheduler thread -/

/-- A step that leaves the operations where they are and revokes none. -/
structure Follows (s t : PrefetchState) : Prop where
  threads : t.threads = s.threads
  sub : t.ongoingPrefetch.Sublist s.ongoingPrefetch
  registered : ∀ x ∈ s.stages, x.2 ≠ .revoking → s.Registered x.1 →
    (t.operations x.1).terminated = true ∨ t.Registered x.1
  ops : ∀ o, t.operations o = s.operations o ∨ t.operations o = (s.operations o).markTerminate
  revoked : t.prefetchRevokeQueue ⊆ s.prefetchRevokeQueue

section Scheduler

variable {s t : PrefetchState} {p : PrefetchParams} {rid : Nat} {e : OngoingPrefetch}

theorem Follows.keeps {α : Type} (h : Follows s t) (g : PrefetchOperation → α)
    (hg : ∀ op, g op.markTerminate = g op) (o : OpId) :
    g (t.operations o) = g (s.operations o) := by
  rcases h.ops o with ho | ho
  · rw [ho]
  · rw [ho, hg]

theorem Follows.tracked (h : Follows s t) (hs : s.Wf) (ht : s.Tracked) : t.Tracked := by
  have hstages := stages_of_threads h.threads
  have hfind : ∀ {k f}, t.find k = some f → s.find k = some f := fun hf =>
    lookup_of_mem hs.keys (h.sub.subset (find_mem hf))
  refine ⟨fun x hx hne => ?_, fun x hx hasked e he => ?_, fun k hk e he => ?_⟩
  · rw [hstages] at hx
    rcases ht.active x hx hne with hterm | hreg
    · left
      rcases h.ops x.1 with ho | ho
      · rwa [ho]
      · rw [ho]
        rfl
    · exact h.registered x hx hne hreg
  · rw [hstages] at hx
    rw [h.keeps (·.requestId) fun _ => rfl] at he
    exact ht.asked x hx hasked e (hfind he)
  · rw [hstages, h.keeps (·.completedTokens) fun _ => rfl]
    exact ht.revoked k (h.revoked hk) e (hfind he)

theorem Follows.sized (h : Follows s t) (hz : s.Sized p) : t.Sized p where
  pageSize := (pageSize_of_threads h.threads).trans hz.pageSize
  fits := fun x hx => by
    rw [stages_of_threads h.threads] at hx
    have hfits := hz.fits x hx
    rcases h.ops x.1 with ho | ho
    · rwa [ho]
    · rw [ho]
      cases hstage : x.2 <;> rw [hstage] at hfits <;> exact hfits
  alive := ioThreads_of_threads h.threads ▸ hz.alive

theorem Follows.booked (h : Follows s t) (hb : s.Booked p) (hwf : t.Wf) (hc : t.Counted) :
    t.Booked p :=
  ⟨hwf, h.tracked hb.wf hb.tracked, hc, h.sized hb.sized⟩

theorem ops_markTerminate (s : PrefetchState) (o o' : OpId) :
    (s.markTerminate o).operations o' = s.operations o' ∨
      (s.markTerminate o).operations o' = (s.operations o').markTerminate := by
  by_cases ho : o' = o
  · exact .inr (by rw [ho, markTerminate, modifyOp_self])
  · exact .inl (modifyOp_of_ne _ ho)

theorem Finishes.follows (h : Finishes s t rid e) (hs : s.Wf) (hfind : s.find rid = some e) :
    Follows s t := by
  refine ⟨h.threads, h.ongoing ▸ List.filter_sublist, fun x _ _ hreg => ?_,
    fun o => h.operations ▸ ops_markTerminate s _ o, h.revokeQueue ▸ fun _ hk => hk⟩
  obtain ⟨x', hx', ho⟩ := hreg
  by_cases hrid : x'.1 = rid
  · have hlookup := lookup_of_mem hs.keys (show (x'.1, x'.2) ∈ s.ongoingPrefetch from hx')
    rw [hrid, ← find, hfind] at hlookup
    left
    rw [h.operations, ← ho, ← some.inj hlookup, markTerminate, modifyOp_self]
    rfl
  · refine .inr ⟨x', ?_, ho⟩
    rw [h.ongoing]
    exact List.mem_filter.mpr ⟨hx', by simpa using hrid⟩

theorem Revokes.follows {rids : List Nat} (h : Revokes s t rids) (hs : s.Wf) (ht : s.Tracked)
    (hrids : rids ⊆ s.prefetchRevokeQueue) : Follows s t := by
  refine ⟨h.threads, h.ongoing ▸ List.filter_sublist, fun x hx hne hreg => ?_,
    fun o => .inl (by rw [h.operations]), h.revokeQueue⟩
  obtain ⟨x', hx', ho⟩ := hreg
  have hkept : x'.1 ∉ rids := fun hmem =>
    hne ((ht.revoked x'.1 (hrids hmem) x'.2 (lookup_of_mem hs.keys hx')).2 x.2 (ho ▸ hx))
  refine .inr ⟨x', ?_, ho⟩
  rw [h.ongoing]
  exact List.mem_filter.mpr ⟨hx', by simpa using hkept⟩

theorem Allocates.booked {v : List Nat} (h : Allocates s t v) (hb : s.Booked p) : t.Booked p := by
  have hongoing : t.ongoingPrefetch = s.ongoingPrefetch := by rw [h.same]
  refine Follows.booked ⟨h.threads, hongoing ▸ .refl _, fun _ _ _ hreg => .inr ?_,
    fun o => .inl (by rw [h.same]), by rw [h.same]; exact fun _ hk => hk⟩ hb (h.moves hb.wf).wf
    (hb.counted.same hongoing (by rw [h.same]) (by rw [h.same]))
  rwa [Registered, hongoing]

/-! ### The counters -/

section

variable (hc : s.Counted) (hs : s.Wf) (hfind : s.find rid = some e)
include hc hs hfind

theorem Counted.protected : 0 < s.hostRefCounter e.lastHostNode := by
  rw [hc.refs, sum_of_lookup hs.keys hfind fun x =>
    if x.2.lastHostNode = e.lastHostNode then 1 else 0, if_pos rfl]
  omega

theorem Counted.le_occupied : (e.keyLen : Int) ≤ s.prefetchTokensOccupied := by
  have hnonneg : 0 ≤ ((s.ongoingPrefetch.filter fun x => x.1 ≠ rid).map fun x =>
      (x.2.keyLen : Int)).sum :=
    List.sum_nonneg fun n hn => by
      obtain ⟨x, -, rfl⟩ := List.mem_map.mp hn
      exact Int.natCast_nonneg _
  rw [hc.occupied, sum_of_lookup hs.keys hfind fun x => (x.2.keyLen : Int)]
  exact le_add_of_nonneg_right hnonneg

theorem Counted.forget (h : Forgets s t rid e) : t.Counted where
  occupied := by
    rw [h.occupied, h.ongoing, hc.occupied, sum_of_lookup hs.keys hfind fun x => (x.2.keyLen : Int),
      add_sub_cancel_left]
  refs := fun n => by
    have hsum := sum_of_lookup hs.keys hfind fun x => if x.2.lastHostNode = n then 1 else 0
    rw [← hc.refs] at hsum
    rw [h.refs, h.ongoing]
    by_cases hn : n = e.lastHostNode
    · subst hn
      rw [update_self, hsum, if_pos rfl, Nat.add_sub_cancel_left]
    · rw [update_of_ne hn, hsum, if_neg (Ne.symm hn), zero_add]

end

theorem Finishes.booked (h : Finishes s t rid e) (hb : s.Booked p) (hfind : s.find rid = some e) :
    t.Booked p :=
  (h.follows hb.wf hfind).booked hb (h.moves hb.wf hfind).wf
    (hb.counted.forget hb.wf hfind h.toForgets)

theorem checkPrefetchProgress_booked (hb : s.Booked p) {a b c : Bool} {minCompleted matched : Nat}
    (hmatched : matched ≤ minCompleted)
    (hmin : ∀ e ∈ s.find rid, minCompleted ≤ (s.operations e.operation).completedTokens) :
    ∃ t, s.checkPrefetchProgress p rid a b c minCompleted matched = .ok t ∧ t.Booked p := by
  have hok : ∃ t, s.checkPrefetchProgress p rid a b c minCompleted matched = .ok t := by
    rw [checkPrefetchProgress]
    cases hfind : s.find rid with
    | none => exact ⟨s, rfl⟩
    | some e =>
      dsimp only
      split_ifs with hcan
      · rw [finishPrefetch, releaseHost_ok]
        · exact ⟨_, rfl⟩
        · exact hb.counted.protected hb.wf hfind
      · exact ⟨s, rfl⟩
  obtain ⟨t, ht⟩ := hok
  refine ⟨t, ht, ?_⟩
  rcases checkPrefetchProgress_finishes hmatched hmin ht with rfl | ⟨e, hfind, hfin⟩
  · exact hb
  · exact hfin.booked hb hfind

theorem releaseAbortedRequest_booked (hb : s.Booked p) (rid : Nat) :
    ∃ t, s.releaseAbortedRequest p rid = .ok t ∧ t.Booked p := by
  cases hfind : s.find rid with
  | none => exact ⟨s, by rw [releaseAbortedRequest, hfind], hb⟩
  | some e =>
    have hok : ∃ t, s.releaseAbortedRequest p rid = .ok t := by
      simp only [releaseAbortedRequest, hfind]
      rw [releaseHost_ok]
      · exact ⟨_, rfl⟩
      · exact hb.counted.protected hb.wf hfind
    obtain ⟨t, ht⟩ := hok
    exact ⟨t, ht, (releaseAbortedRequest_finishes hfind ht).booked hb hfind⟩

theorem terminatePrefetch_booked (hb : s.Booked p) (rid : Nat) :
    (s.terminatePrefetch rid).Booked p := by
  rw [terminatePrefetch]
  cases s.find rid with
  | none => exact hb
  | some e =>
    exact Follows.booked (s := s) ⟨rfl, .refl _,
      fun _ _ _ hreg => .inr hreg, ops_markTerminate s _, fun _ hk => hk⟩ hb
      (markTerminate_moves hb.wf _).wf (hb.counted.same rfl rfl rfl)

theorem revokeAll_counted (hs : s.Wf) (hc : s.Counted) (rids : List Nat) :
    ∃ t, s.revokeAll rids = .ok t ∧ t.Counted := by
  induction rids generalizing s with
  | nil => exact ⟨s, rfl, hc⟩
  | cons rid rids ih =>
    have hone : ∃ u, s.revoke rid = .ok u ∧ u.Counted := by
      rw [revoke]
      cases hfind : s.find rid with
      | none => exact ⟨s, rfl, hc⟩
      | some e =>
        dsimp only
        rw [releaseHost_ok]
        · refine ⟨_, rfl, hc.forget hs hfind ⟨rfl, ?_, rfl⟩⟩
          exact max_eq_left (sub_nonneg.mpr (hc.le_occupied hs hfind))
        · exact hc.protected hs hfind
    obtain ⟨u, hu, hcounted⟩ := hone
    obtain ⟨t, ht, hall⟩ := ih ((revoke_revokes hu).moves hs).wf hcounted
    exact ⟨t, by rw [revokeAll, hu]; exact ht, hall⟩

theorem drain_booked (hb : s.Booked p) (numRevoke numRelease : Nat) :
    ∃ t, s.drain numRevoke numRelease = .ok t ∧ t.Booked p := by
  have hwf : ({ s with prefetchRevokeQueue := s.prefetchRevokeQueue.drop numRevoke } :
      PrefetchState).Wf := hb.wf.same rfl rfl rfl rfl
  obtain ⟨u, hu, hcounted⟩ := revokeAll_counted hwf (hb.counted.same rfl rfl rfl)
    (s.prefetchRevokeQueue.take numRevoke)
  have ht : s.drain numRevoke numRelease = .ok (({ u with
      hostMemReleaseQueue := u.hostMemReleaseQueue.drop numRelease } : PrefetchState).freeHost
        (u.hostMemReleaseQueue.take numRelease).flatten) := by
    rw [drain, hu]
    rfl
  have hrevokes := drain_revokes ht
  exact ⟨_, ht, (hrevokes.follows hb.wf hb.tracked (List.take_subset _ _)).booked hb
    (hrevokes.moves hb.wf).wf (hcounted.same rfl rfl rfl)⟩

end Scheduler

/-! ## New prefetches -/

/-- A request id that no operation and no revocation has. -/
structure FreshId (s : PrefetchState) (rid : Nat) : Prop where
  find : s.find rid = none
  revoked : rid ∉ s.prefetchRevokeQueue
  asked : ∀ o ∈ s.askedOps, (s.operations o).requestId ≠ rid

/-- A new prefetch has an id of its own, and it gets all its slots or none. -/
def FreshPrefetch (p : PrefetchParams) (s : PrefetchState) : PrefetchAction → Prop
  | .prefetch rid _ numTokens evicted =>
    let available := s.hostPool.freeSlots.length + evicted.length
    s.FreshId rid ∧ (numTokens / p.pageSize * p.pageSize ≤ available ∨
      available - available % p.pageSize < p.cacheThreshold)
  | _ => True

section NewPrefetch

variable {s u : PrefetchState} {p : PrefetchParams} {rid n numTokens : Nat} {h : HostPool}
  {evicted : List Nat} {node : NodeId}

theorem mem_askedOps {x : OpId × Stage} (hx : x ∈ s.stages) (h : x.2.Asked) : x.1 ∈ s.askedOps := by
  simp only [stages, mem_add] at hx
  rcases hx with ((hx | hx) | hx) | hx
  · obtain ⟨o, ho, rfl⟩ := List.mem_map.mp hx
    exact mem_add.mpr (.inl ho)
  · refine mem_add.mpr (.inr ?_)
    cases hthread : s.prefetchThread <;> rw [hthread] at hx
    case querying o =>
      obtain rfl := mem_singleton.mp hx
      exact mem_singleton_self o
    case idle => exact absurd hx (notMem_zero x)
    all_goals
      obtain rfl := mem_singleton.mp hx
      exact h.elim
  · obtain ⟨o, ho, rfl⟩ := List.mem_map.mp hx
    exact h.elim
  · obtain ⟨a, -, ha⟩ := mem_sum_map.mp hx
    cases a
    case transferring =>
      obtain rfl := mem_singleton.mp ha
      exact h.elim
    case releasing =>
      obtain rfl := mem_singleton.mp ha
      exact h.elim
    all_goals exact absurd ha (notMem_zero x)

theorem registerPrefetch_tracked (hs : s.Wf) (ht : s.Tracked) (hfresh : s.FreshId rid)
    (node : NodeId) (keyLen : Nat) (v : List Nat) :
    (s.registerPrefetch rid node keyLen v).Tracked := by
  set t := s.registerPrefetch rid node keyLen v with hdef
  have hmem : ∀ {z}, z ∈ t.stages → _ := mem_stages_registerPrefetch s rid node keyLen v hs
  have hnew := registerPrefetch_new s rid node keyLen v
  -- what is found under another id was there
  have hfind : ∀ {k f}, t.find k = some f → k = rid ∧ f.operation = s.counter ∨
      s.find k = some f := by
    intro k f hf
    rcases mem_registerPrefetch s rid node keyLen v (find_mem hf) with heq | ⟨hold, -⟩
    · cases heq
      exact .inl ⟨rfl, rfl⟩
    · exact .inr (lookup_of_mem hs.keys hold)
  refine ⟨fun z hz hne => ?_, fun z hz hasked e he => ?_, fun k hk e he => ?_⟩
  · rcases hmem hz with rfl | ⟨hz, -, hop⟩
    · exact .inr ⟨_, List.mem_cons_self, rfl⟩
    · rw [hop]
      refine (ht.active z hz hne).imp id ?_
      rintro ⟨x, hx, ho⟩
      refine ⟨x, List.mem_cons_of_mem _ (List.mem_filter.mpr ⟨hx, ?_⟩), ho⟩
      simpa using ne_of_lookup_none hfresh.find hx
  · rcases hmem hz with rfl | ⟨hz, -, hop⟩
    · rw [hnew] at he
      rcases hfind he with ⟨-, ho⟩ | hold
      · exact ho
      · rw [hfresh.find] at hold
        cases hold
    · rw [hop] at he
      rcases hfind he with ⟨hrid, -⟩ | hold
      · exact absurd hrid (hfresh.asked z.1 (mem_askedOps hz hasked))
      · exact ht.asked z hz hasked e hold
  · rcases hfind he with ⟨hrid, -⟩ | hold
    · exact absurd (hrid ▸ hk) hfresh.revoked
    · obtain ⟨hzero, hstage⟩ := ht.revoked k hk e hold
      have hlt := hs.entry_lt _ (find_mem hold)
      refine ⟨by rw [registerPrefetch_old s rid node keyLen v hlt, hzero], fun x hx => ?_⟩
      rcases hmem hx with heq | ⟨hx, -, -⟩
      · exact absurd (congrArg Prod.fst heq) (Nat.ne_of_lt hlt)
      · exact hstage x hx

theorem registerPrefetch_counted (hc : s.Counted) (hfind : s.find rid = none) (keyLen : Nat)
    (v : List Nat) (hongoing : u.ongoingPrefetch = s.ongoingPrefetch)
    (hoccupied : u.prefetchTokensOccupied = s.prefetchTokensOccupied)
    (hrefs : u.hostRefCounter = (s.protectHost node).hostRefCounter) :
    (u.registerPrefetch rid node keyLen v).Counted where
  occupied := by
    show u.prefetchTokensOccupied + (keyLen : Int) =
      (((rid, _) :: u.ongoingPrefetch.filter fun x => x.1 ≠ rid).map _).sum
    rw [hongoing, filter_of_lookup_none hfind, List.map_cons, hoccupied, hc.occupied]
    exact add_comm _ _
  refs := fun n => by
    show u.hostRefCounter n =
      (((rid, _) :: u.ongoingPrefetch.filter fun x => x.1 ≠ rid).map _).sum
    rw [hongoing, filter_of_lookup_none hfind, List.map_cons, List.sum_cons, ← hc.refs, hrefs]
    show update s.hostRefCounter node _ n = _
    by_cases hn : n = node
    · subst hn
      rw [update_self, if_pos rfl]
      exact add_comm _ _
    · rw [update_of_ne hn, if_neg (Ne.symm hn)]
      exact (zero_add _).symm

theorem registerPrefetch_sized (hs : s.Wf) (hz : s.Sized p) (rid : Nat) (node : NodeId)
    {keyLen : Nat} {v : List Nat} (hv : keyLen ≤ v.length) :
    (s.registerPrefetch rid node keyLen v).Sized p := by
  refine ⟨hz.pageSize, fun z hmem => ?_, hz.alive⟩
  rcases mem_stages_registerPrefetch s rid node keyLen v hs hmem with rfl | ⟨hmem, -, hop⟩
  · rw [registerPrefetch_new]
    exact hv
  · rw [hop]
    exact hz.fits z hmem

theorem alloc_of_dvd (hn : h.pageSize ∣ n) :
    h.alloc n = if h.freeSlots.length < n then .ok (none, h)
      else .ok (some (h.freeSlots.take n), { h with freeSlots := h.freeSlots.drop n }) := by
  rw [HostPool.alloc, if_neg (not_not.mpr (mod_eq_zero_of_dvd hn))]

theorem allocPrefetch_ok (hsize : s.hostPool.pageSize = p.pageSize) (hn : p.pageSize ∣ n)
    (hroom : n ≤ s.hostPool.freeSlots.length + evicted.length ∨
      s.hostPool.freeSlots.length + evicted.length -
        (s.hostPool.freeSlots.length + evicted.length) % p.pageSize < p.cacheThreshold) :
    ∃ r t, s.allocPrefetch p n evicted = .ok (r, t) ∧ ∀ v, r = some v → n ≤ v.length := by
  have hdvd : s.hostPool.pageSize ∣ n := hsize ▸ hn
  have hlen : (s.evictHost evicted).hostPool.freeSlots.length =
      s.hostPool.freeSlots.length + evicted.length := List.length_append
  have htake : ∀ l : List Nat, ¬ l.length < n → ∀ v, some (l.take n) = some v → n ≤ v.length := by
    intro l hl v hv
    rw [← some.inj hv, List.length_take]
    omega
  rw [allocPrefetch, alloc_of_dvd hdvd]
  by_cases hshort : s.hostPool.freeSlots.length < n
  · rw [if_pos hshort]
    show ∃ r t, ((s.evictHost evicted).hostPool.alloc n >>= _) = _ ∧ _
    rw [alloc_of_dvd (h := (s.evictHost evicted).hostPool) hdvd, hlen]
    by_cases hstill : s.hostPool.freeSlots.length + evicted.length < n
    · rw [if_pos hstill]
      have hfew := hroom.resolve_left (not_le.mpr hstill)
      exact ⟨none, _, if_neg (not_le.mpr hfew), fun v hv => by cases hv⟩
    · rw [if_neg hstill]
      exact ⟨_, _, rfl, htake _ (hlen ▸ hstill)⟩
  · rw [if_neg hshort]
    exact ⟨_, _, rfl, htake _ hshort⟩

theorem prefetchFromStorage_booked (hb : s.Booked p) (hev : evicted.Subperm s.treeSlots)
    (hfresh : s.FreshPrefetch p (.prefetch rid node numTokens evicted)) :
    ∃ t, s.prefetchFromStorage p rid node numTokens evicted = .ok t ∧ t.Booked p := by
  rw [prefetchFromStorage]
  split_ifs with hskip
  · exact ⟨s, rfl, hb⟩
  · obtain ⟨r, u, hok, hlen⟩ := allocPrefetch_ok (s := s.protectHost node)
      hb.sized.pageSize (Dvd.intro_left _ rfl) hfresh.2
    obtain ⟨hu, -⟩ := allocPrefetch_allocates (s := s.protectHost node) hev hok
    rw [hok]
    have hwf := (hu.moves (hb.wf.same rfl rfl rfl rfl)).wf
    have hongoing : u.ongoingPrefetch = s.ongoingPrefetch := by rw [hu.same]; rfl
    have hoccupied : u.prefetchTokensOccupied = s.prefetchTokensOccupied := by rw [hu.same]; rfl
    have hrefs : u.hostRefCounter = (s.protectHost node).hostRefCounter := by rw [hu.same]
    have hfollows : Follows s u := ⟨hu.threads, hongoing ▸ .refl _,
      fun _ _ _ hreg => .inr (by rwa [Registered, hongoing]),
      fun o => .inl (by rw [hu.same]; rfl), by rw [hu.same]; exact fun _ hk => hk⟩
    have htracked := hfollows.tracked hb.wf hb.tracked
    have hsized := hfollows.sized hb.sized
    cases r with
    | some v =>
      refine ⟨_, rfl, registerPrefetch_wf u rid node _ v hwf,
        registerPrefetch_tracked hwf htracked ⟨?_, ?_, ?_⟩ node _ v,
        registerPrefetch_counted hb.counted hfresh.1.find _ v hongoing hoccupied hrefs,
        registerPrefetch_sized hwf hsized rid node (hlen v rfl)⟩
      · rw [hu.same]
        exact hfresh.1.find
      · rw [hu.same]
        exact hfresh.1.revoked
      · rw [hu.same]
        exact hfresh.1.asked
    | none =>
      -- the reference that was taken first is given back
      have href : u.hostRefCounter node = s.hostRefCounter node + 1 := by
        rw [hrefs]
        exact update_self _ _ _
      refine ⟨_, if_pos (href ▸ succ_pos _), hwf.same rfl rfl rfl rfl,
        ⟨htracked.active, htracked.asked, htracked.revoked⟩, hb.counted.same hongoing hoccupied ?_,
        ⟨hsized.pageSize, hsized.fits, hsized.alive⟩⟩
      rw [href, hrefs]
      show update (update s.hostRefCounter node _) node _ = _
      rw [update_idem, Nat.add_sub_cancel, update_eq_self]

end NewPrefetch

/-! ## The books after each step -/

section Booked

variable {s : PrefetchState} {p : PrefetchParams} {a : PrefetchAction}

theorem step_booked (size : Nat) (h : s.Booked p) (hen : s.Enabled p a) (ha : a ≠ .reset)
    (hfresh : s.FreshPrefetch p a) : ∃ t, s.step p size a = .ok t ∧ t.Booked p := by
  cases a with
  | prefetch rid node numTokens evicted => exact prefetchFromStorage_booked h hen hfresh
  | check rid timedOut othersCan othersTerminated minCompleted matched =>
    exact checkPrefetchProgress_booked h hen.1 hen.2
  | terminate rid => exact ⟨_, rfl, terminatePrefetch_booked h rid⟩
  | abort rid => exact releaseAbortedRequest_booked h rid
  | drain numRevoke numRelease => exact drain_booked h numRevoke numRelease
  | writeBackup numTokens =>
    have hok : ∃ t, s.writeBackup numTokens = .ok t := by
      rw [writeBackup, alloc_of_dvd (h.sized.pageSize.symm ▸ hen)]
      split_ifs with hshort
      · exact ⟨s, rfl⟩
      · exact ⟨_, rfl⟩
    obtain ⟨t, ht⟩ := hok
    exact ⟨t, ht, (writeBackup_allocates ht).booked h⟩
  | evictHost evicted => exact ⟨_, rfl, (evictHost_allocates hen).booked h⟩
  | reset => exact absurd rfl ha
  | takePrefetch => exact ⟨_, rfl, (takePrefetch_advances hen).booked h⟩
  | answerQuery o hitPages => exact ⟨_, rfl, (answerQuery_advances hen.1 hen.2).booked h⟩
  | finishQuery => exact ⟨_, rfl, finishQuery_advances.booked h⟩
  | takeTransfer i => exact ⟨_, rfl, (takeTransfer_advances hen).booked h⟩
  | transferPages i o first prevCompleted pages =>
    rcases transferPages_passes hen.1 hen.2 with hsame | ⟨f, y, d, hpass, -⟩
    · exact ⟨_, rfl, hsame.symm ▸ h⟩
    · exact ⟨_, rfl, hpass.booked h⟩
  | finishBatch i o first prevCompleted => exact ⟨_, rfl, (finishBatch_advances hen).booked h⟩
  | releaseRest i o => exact ⟨_, rfl, (releaseRest_advances hen).booked h⟩

theorem Booked.keepsAll (h : s.Booked p) (hen : s.Enabled p a) (hfresh : s.FreshPrefetch p a) :
    s.KeepsAll p a := by
  cases a with
  | prefetch rid node numTokens evicted => exact hfresh.1.find
  | drain numRevoke numRelease =>
    exact fun rid hrid e he => (h.tracked.revoked rid hrid e he).1
  | transferPages i o first prevCompleted pages =>
    have hmem := mem_stages_io hen.1 (mem_singleton_self (o, Stage.transferring _ _))
    exact ⟨hen.2.trans (Passage.batch_le (h.sized.fits _ hmem)),
      h.tracked.active _ hmem fun heq => by cases heq⟩
  | _ => trivial

end Booked

end PrefetchState

end Fluxfer.Storage
