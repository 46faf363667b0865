import Fluxfer.Storage.PrefetchTracked

/-!
# Runs of the prefetch protocol

In a run whose resets find no slot on its way to the free list, no slot is in two places. When in
addition a request id is used again only after its earlier use is gone, and every prefetch gets the
slots it asks for, no slot is lost.
-/

namespace Fluxfer.Storage

open Radix Hi PrefetchState List Nat
open Multiset (coe_nodup le_add_right mem_add mem_coe notMem_zero)

/-- The states that the threads reach from a fresh cache, when each step meets `C`. -/
inductive PrefetchRun (p : PrefetchParams) (size : Nat)
    (C : PrefetchState → PrefetchAction → Prop) : PrefetchState → Prop
  | init : PrefetchRun p size C (.init p.pageSize size)
  | step {s t : PrefetchState} {a : PrefetchAction} :
      PrefetchRun p size C s → s.Enabled p a → C s a → s.step p size a = .ok t →
      PrefetchRun p size C t

instance (p : PrefetchParams) (s : PrefetchState) : (a : PrefetchAction) →
    Decidable (s.Enabled p a)
  | .prefetch _ _ _ evicted => inferInstanceAs (Decidable (evicted.Subperm s.treeSlots))
  | .check rid _ _ _ minCompleted matched => inferInstanceAs (Decidable (matched ≤ minCompleted ∧
      ∀ e ∈ s.find rid, minCompleted ≤ (s.operations e.operation).completedTokens))
  | .terminate _ => inferInstanceAs (Decidable True)
  | .abort _ => inferInstanceAs (Decidable True)
  | .drain _ _ => inferInstanceAs (Decidable True)
  | .writeBackup numTokens => inferInstanceAs (Decidable (p.pageSize ∣ numTokens))
  | .evictHost evicted => inferInstanceAs (Decidable (evicted.Subperm s.treeSlots))
  | .reset => decidable_of_iff
      (s.ongoingPrefetch.isEmpty = true ∧ s.prefetchQueue = [] ∧ s.prefetchThread = .idle)
      (and_congr isEmpty_iff Iff.rfl)
  | .takePrefetch => inferInstanceAs (Decidable (s.prefetchThread = .idle))
  | .answerQuery o hitPages => inferInstanceAs (Decidable (s.prefetchThread = .querying o ∧
      hitPages * p.pageSize ≤ (s.operations o).keyLen))
  | .finishQuery => inferInstanceAs (Decidable True)
  | .takeTransfer i => inferInstanceAs (Decidable (s.ioThreads[i]? = some .idle))
  | .transferPages i o first prevCompleted pages => inferInstanceAs (Decidable
      (s.ioThreads[i]? = some (.transferring o first prevCompleted) ∧
        (s.operations o).completedTokens + pages * p.pageSize ≤
          prevCompleted + batchPages p (s.operations o) first * p.pageSize))
  | .finishBatch i o first prevCompleted =>
      inferInstanceAs (Decidable (s.ioThreads[i]? = some (.transferring o first prevCompleted)))
  | .releaseRest i o => inferInstanceAs (Decidable (s.ioThreads[i]? = some (.releasing o)))

/-- The state after some actions, when each can be taken and meets `C`. -/
def runActions (p : PrefetchParams) (size : Nat) (C : PrefetchState → PrefetchAction → Prop)
    [∀ s a, Decidable (C s a)] : PrefetchState → List PrefetchAction → Option PrefetchState
  | s, [] => some s
  | s, a :: as =>
    if s.Enabled p a ∧ C s a then
      match s.step p size a with
      | .ok t => runActions p size C t as
      | .error _ => none
    else none

namespace PrefetchRun

variable {p : PrefetchParams} {size : Nat} {C D : PrefetchState → PrefetchAction → Prop}
  {s t : PrefetchState}

theorem runActions [∀ s a, Decidable (C s a)] (h : PrefetchRun p size C s)
    (as : List PrefetchAction) (hrun : Storage.runActions p size C s as = some t) :
    PrefetchRun p size C t := by
  induction as generalizing s with
  | nil =>
    cases hrun
    exact h
  | cons a as ih =>
    rw [Storage.runActions] at hrun
    split_ifs at hrun with hok
    cases hstep : s.step p size a with
    | error e =>
      rw [hstep] at hrun
      cases hrun
    | ok u =>
      rw [hstep] at hrun
      exact ih (h.step hok.1 hok.2 hstep) hrun

end PrefetchRun

/-! ## No slot in two places -/

/-- A reset finds the queue of released slots empty, and no operation is in the buffer or with an
I/O thread. -/
def CleanReset (s : PrefetchState) (a : PrefetchAction) : Prop :=
  a = .reset → s.hostMemReleaseQueue = [] ∧ s.prefetchBuffer = [] ∧
    ∀ t ∈ s.ioThreads, t = .idle ∨ t = .dead

namespace PrefetchState

variable {p : PrefetchParams} {size : Nat} {s t : PrefetchState}

theorem wf_init (ps size : Nat) : (init ps size).Wf where
  keys := nodup_nil
  entries := nodup_nil
  entry_lt := nofun
  entry_prefix := nofun
  live := Multiset.nodup_zero
  live_lt := fun x h => absurd h (notMem_zero x)
  waiting := fun _ _ _ => rfl
  completed_le := fun _ => zero_le _

theorem places_init (ps size : Nat) : (init ps size).places = (range size : Multiset Nat) := by
  simp [places, held, init, threadSlots, ioSlots]

theorem stages_reset (s : PrefetchState) (size : Nat) :
    (s.reset size).stages = (s.ioThreads.map ioStages).sum := by
  simp [stages, reset, threadStages, ioStages]

theorem wf_reset (hs : s.Wf) (size : Nat) : (s.reset size).Wf := by
  refine hs.pass (.refl _) rfl ?_ (fun _ => rfl) fun _ => rfl
  rw [stages_reset]
  exact Multiset.le_add_left _ _

section Reset

variable (hio : ∀ t ∈ s.ioThreads, t = IoThread.idle ∨ t = .dead)
include hio

theorem stages_reset_eq_zero : (s.reset size).stages = 0 := by
  rw [stages_reset]
  refine sum_eq_zero fun x hx => ?_
  obtain ⟨t, ht, rfl⟩ := mem_map.mp hx
  rcases hio t ht with rfl | rfl
  · rfl
  · rfl

theorem places_reset (hongoing : s.ongoingPrefetch = []) (hrelease : s.hostMemReleaseQueue = []) :
    (s.reset size).places = (range size : Multiset Nat) := by
  rw [places_eq, stages_reset_eq_zero hio]
  simp [reset, hongoing, hrelease, loose, doneSum, slotsOf]

end Reset

theorem step_places {a : PrefetchAction} (hs : s.Wf)
    (hplaces : s.places ≤ (range size : Multiset Nat)) (hen : s.Enabled p a)
    (hclean : CleanReset s a) (h : s.step p size a = .ok t) :
    t.Wf ∧ t.places ≤ (range size : Multiset Nat) := by
  by_cases ha : a = .reset
  · subst ha
    cases h
    obtain ⟨hrelease, -, hio⟩ := hclean rfl
    exact ⟨wf_reset hs size, (places_reset hio hen.1 hrelease).le⟩
  · obtain ⟨d, hmove, -⟩ := step_moves hs hen ha h
    refine ⟨hmove.wf, le_trans ?_ hplaces⟩
    rw [hmove.places]
    exact le_add_right _ _

end PrefetchState

theorem PrefetchRun.places {p : PrefetchParams} {size : Nat} {s : PrefetchState}
    (h : PrefetchRun p size CleanReset s) :
    s.Wf ∧ s.places ≤ (range size : Multiset Nat) := by
  induction h with
  | init => exact ⟨wf_init _ _, (places_init _ _).le⟩
  | step _ hen hclean hstep ih => exact step_places ih.1 ih.2 hen hclean hstep

/-- In a run with clean resets the free list has no slot twice, and none that the tree has. -/
theorem free_slots_distinct {p : PrefetchParams} {size : Nat} {s : PrefetchState}
    (h : PrefetchRun p size CleanReset s) :
    s.hostPool.freeSlots.Nodup ∧ ∀ x ∈ s.hostPool.freeSlots, x ∉ s.treeSlots := by
  have hle : ((s.hostPool.freeSlots ++ s.treeSlots : List Nat) : Multiset Nat) ≤
      (range size : Multiset Nat) := by
    refine le_trans ?_ h.places.2
    rw [places, add_assoc]
    exact le_add_right _ _
  have hnodup : (s.hostPool.freeSlots ++ s.treeSlots).Nodup :=
    coe_nodup.mp (Multiset.nodup_of_le hle (coe_nodup.mpr nodup_range))
  exact ⟨(nodup_append.mp hnodup).1, fun x hx hx' =>
    disjoint_of_nodup_append hnodup hx hx'⟩

/-- Pages of one token, and no minimum for a prefetch. -/
def onePageParams : PrefetchParams :=
  ⟨1, 1, 1, 8, 128, .bestEffort, Nat.one_pos, succ_pos 127⟩

/-- A prefetch without hits that ends before its slots are released, then a flush and a drain. -/
def flushedPrefetch : List PrefetchAction :=
  [.prefetch 7 0 2 [], .takePrefetch, .answerQuery 0 0, .check 7 false false false 0 0,
    .finishQuery, .reset, .drain 0 2]

/-- The slots that are still on the queue of released slots reach a free list that has them. -/
theorem flush_frees_twice :
    ∃ s, PrefetchRun onePageParams 2 (fun _ _ => True) s ∧ s.hostPool.freeSlots = [0, 1, 0, 1] :=
  ⟨_, PrefetchRun.init.runActions flushedPrefetch rfl, by decide⟩

instance (s : PrefetchState) (a : PrefetchAction) : Decidable (CleanReset s a) :=
  inferInstanceAs (Decidable (a = .reset →
    s.hostMemReleaseQueue = [] ∧ s.prefetchBuffer = [] ∧
      ∀ t ∈ s.ioThreads, t = .idle ∨ t = .dead))

/-- The same with the drain before the flush. -/
def drainedPrefetch : List PrefetchAction :=
  [.prefetch 7 0 2 [], .takePrefetch, .answerQuery 0 0, .check 7 false false false 0 0,
    .finishQuery, .drain 1 2, .reset]

theorem free_slots_distinct_drained :
    ∃ s, PrefetchRun onePageParams 2 CleanReset s ∧ s.hostPool.freeSlots.Nodup ∧
      ∀ x ∈ s.hostPool.freeSlots, x ∉ s.treeSlots := by
  have hrun : PrefetchRun onePageParams 2 CleanReset _ :=
    PrefetchRun.init.runActions drainedPrefetch rfl
  exact ⟨_, hrun, free_slots_distinct hrun⟩

/-! ## No slot lost -/

/-- Prefetches are fresh, and resets are clean. -/
def Careful (p : PrefetchParams) (s : PrefetchState) (a : PrefetchAction) : Prop :=
  s.FreshPrefetch p a ∧ CleanReset s a

namespace PrefetchState

variable {p : PrefetchParams} {size : Nat} {s t : PrefetchState}

theorem booked_init (p : PrefetchParams) (size : Nat) : (init p.pageSize size).Booked p where
  wf := wf_init _ _
  tracked := ⟨fun x hx => absurd hx (notMem_zero x),
    fun x hx => absurd hx (notMem_zero x), nofun⟩
  counted := ⟨rfl, fun _ => rfl⟩
  sized := ⟨rfl, fun x hx => absurd hx (notMem_zero x), fun hmem => by
    cases mem_singleton.mp hmem⟩

theorem booked_reset (h : s.Booked p) (hongoing : s.ongoingPrefetch = [])
    (hio : ∀ t ∈ s.ioThreads, t = IoThread.idle ∨ t = .dead) : (s.reset size).Booked p := by
  have hnone : ∀ x, x ∉ (s.reset size).stages := fun x => by
    rw [stages_reset_eq_zero hio]
    exact notMem_zero x
  refine ⟨wf_reset h.wf size, ⟨fun x hx => absurd hx (hnone x), fun x hx => absurd hx (hnone x),
    nofun⟩, ⟨h.counted.occupied, fun n => ?_⟩,
    h.sized.pageSize, fun x hx => absurd hx (hnone x), fun hmem => ?_⟩
  · show 0 = (s.ongoingPrefetch.map _).sum
    rw [hongoing]
    rfl
  · rcases mem_append.mp hmem with hmem | hmem
    · exact h.sized.alive hmem
    · cases mem_singleton.mp hmem

theorem step_careful {a : PrefetchAction} (h : s.Booked p)
    (hplaces : s.places = (range size : Multiset Nat)) (hen : s.Enabled p a)
    (hcareful : Careful p s a) :
    ∃ t, s.step p size a = .ok t ∧ t.Booked p ∧ t.places = (range size : Multiset Nat) := by
  by_cases ha : a = .reset
  · subst ha
    obtain ⟨hrelease, -, hio⟩ := hcareful.2 rfl
    exact ⟨_, rfl, booked_reset h hen.1 hio, places_reset hio hen.1 hrelease⟩
  · obtain ⟨t, ht, hbooked⟩ := step_booked size h hen ha hcareful.1
    obtain ⟨d, hmove, hd⟩ := step_moves h.wf hen ha ht
    refine ⟨t, ht, hbooked, ?_⟩
    rw [← hplaces, hmove.places, hd (h.keepsAll hen hcareful.1), add_zero]

/-- No prefetch is registered, the threads are idle, and the released slots are drained. -/
structure Settled (s : PrefetchState) : Prop where
  ongoing : s.ongoingPrefetch = []
  queue : s.prefetchQueue = []
  thread : s.prefetchThread = .idle
  buffer : s.prefetchBuffer = []
  io : ∀ t ∈ s.ioThreads, t = IoThread.idle
  released : s.hostMemReleaseQueue = []

theorem Settled.places_eq (h : s.Settled) :
    s.places = ((s.hostPool.freeSlots ++ s.treeSlots : List Nat) : Multiset Nat) := by
  have hio : (s.ioThreads.map (ioSlots s.operations)).sum = 0 :=
    sum_eq_zero fun x hx => by
      obtain ⟨t, ht, rfl⟩ := mem_map.mp hx
      rw [h.io t ht]
      rfl
  rw [places, held, hio]
  simp [h.ongoing, h.queue, h.thread, h.buffer, h.released, threadSlots]

end PrefetchState

theorem PrefetchRun.booked {p : PrefetchParams} {size : Nat} {s : PrefetchState}
    (h : PrefetchRun p size (Careful p) s) :
    s.Booked p ∧ s.places = (range size : Multiset Nat) := by
  induction h with
  | init => exact ⟨booked_init p size, places_init _ _⟩
  | step _ hen hcareful hstep ih =>
    obtain ⟨t, ht, hbooked, hplaces⟩ := step_careful ih.1 ih.2 hen hcareful
    rw [hstep] at ht
    cases ht
    exact ⟨hbooked, hplaces⟩

/-- In a careful run every slot is in one place, a settled state has all of them free or in the
tree, and the counters are the sums over the registered prefetches. No step fails and no I/O
thread dies. -/
theorem prefetch_conserves {p : PrefetchParams} {size : Nat} {s : PrefetchState}
    (h : PrefetchRun p size (Careful p) s) :
    s.places = (range size : Multiset Nat) ∧
      (s.Settled → (s.hostPool.freeSlots ++ s.treeSlots).Perm (range size)) ∧
      s.prefetchTokensOccupied = (s.ongoingPrefetch.map fun x => (x.2.keyLen : Int)).sum ∧
      (∀ n, s.hostRefCounter n =
        (s.ongoingPrefetch.map fun x => if x.2.lastHostNode = n then 1 else 0).sum) ∧
      IoThread.dead ∉ s.ioThreads ∧
      ∀ a, s.Enabled p a → Careful p s a → ∃ t, s.step p size a = .ok t := by
  obtain ⟨hbooked, hplaces⟩ := h.booked
  refine ⟨hplaces, fun hsettled => ?_, hbooked.counted.occupied, hbooked.counted.refs,
    hbooked.sized.alive, fun a hen hcareful => ?_⟩
  · rw [hsettled.places_eq] at hplaces
    exact Multiset.coe_eq_coe.mp hplaces
  · obtain ⟨t, ht, -⟩ := step_careful hbooked hplaces hen hcareful
    exact ⟨t, ht⟩

/-- A second prefetch of a request, while the first one is queued. The revocation of the first
operation ends the second prefetch. -/
def recurringPrefetch : List PrefetchAction :=
  [.prefetch 7 0 1 [], .check 7 false false false 0 0, .prefetch 7 0 1 [], .takePrefetch,
    .answerQuery 0 0, .finishQuery, .takePrefetch, .answerQuery 1 1, .finishQuery, .takeTransfer 0,
    .transferPages 0 1 0 0 1, .finishBatch 0 1 0 0, .releaseRest 0 1, .drain 1 1]

/-- A prefetch with one slot for two tokens. -/
def shortPrefetch : List PrefetchAction :=
  [.prefetch 7 0 2 [], .takePrefetch, .answerQuery 0 2, .finishQuery, .takeTransfer 0,
    .transferPages 0 0 0 0 2, .abort 7]

/-- Slots get lost when a request id recurs, and when fewer slots are granted than hits found. -/
theorem prefetch_loses_slots :
    (∃ s, PrefetchRun onePageParams 2 (fun _ _ => True) s ∧ s.Settled ∧
      s.hostPool.freeSlots ++ s.treeSlots = [0]) ∧
    ∃ s, PrefetchRun onePageParams 1 (fun _ _ => True) s ∧ s.ioThreads = [.dead] ∧
      s.ongoingPrefetch = [] ∧ s.places = 0 := by
  refine ⟨⟨_, PrefetchRun.init.runActions recurringPrefetch rfl, ?_, by decide⟩,
    ⟨_, PrefetchRun.init.runActions shortPrefetch rfl, rfl, rfl, by decide⟩⟩
  exact ⟨rfl, rfl, rfl, rfl, by decide, rfl⟩

instance (s : PrefetchState) (rid : Nat) : Decidable (s.FreshId rid) :=
  decidable_of_iff (s.find rid = none ∧ rid ∉ s.prefetchRevokeQueue ∧
      ∀ o ∈ s.askedOps, (s.operations o).requestId ≠ rid)
    ⟨fun h => ⟨h.1, h.2.1, h.2.2⟩, fun h => ⟨h.find, h.revoked, h.asked⟩⟩

instance (p : PrefetchParams) (s : PrefetchState) : (a : PrefetchAction) →
    Decidable (s.FreshPrefetch p a)
  | .prefetch rid _ numTokens evicted => inferInstanceAs (Decidable (s.FreshId rid ∧
      (numTokens / p.pageSize * p.pageSize ≤ s.hostPool.freeSlots.length + evicted.length ∨
        s.hostPool.freeSlots.length + evicted.length -
          (s.hostPool.freeSlots.length + evicted.length) % p.pageSize < p.cacheThreshold)))
  | .check .. | .terminate _ | .abort _ | .drain .. | .writeBackup _ | .evictHost _ | .reset
  | .takePrefetch | .answerQuery .. | .finishQuery | .takeTransfer _ | .transferPages ..
  | .finishBatch .. | .releaseRest .. => inferInstanceAs (Decidable True)

instance (p : PrefetchParams) (s : PrefetchState) (a : PrefetchAction) :
    Decidable (Careful p s a) :=
  inferInstanceAs (Decidable (s.FreshPrefetch p a ∧ CleanReset s a))

/-- The second prefetch comes after the revocation of the first one is drained. -/
def drainedRecurring : List PrefetchAction :=
  [.prefetch 7 0 1 [], .check 7 false false false 0 0, .takePrefetch, .answerQuery 0 0,
    .finishQuery, .drain 1 1, .prefetch 7 0 1 [], .takePrefetch, .answerQuery 1 1, .finishQuery,
    .takeTransfer 0, .transferPages 0 1 0 0 1, .finishBatch 0 1 0 0, .releaseRest 0 1,
    .check 7 false false false 1 0]

theorem prefetch_conserves_recurring :
    ∃ s, PrefetchRun onePageParams 2 (Careful onePageParams) s ∧ s.Settled ∧
      s.treeSlots = [1] ∧ (s.hostPool.freeSlots ++ s.treeSlots).Perm (range 2) := by
  have hrun : PrefetchRun onePageParams 2 (Careful onePageParams) _ :=
    PrefetchRun.init.runActions drainedRecurring rfl
  refine ⟨_, hrun, ?settled, by decide, (prefetch_conserves hrun).2.1 ?settled⟩
  exact ⟨rfl, rfl, rfl, rfl, by decide, rfl⟩

/-! ## The sizes of keys and slots -/

namespace PrefetchState

variable {p : PrefetchParams} {size : Nat} {s t : PrefetchState}

/-- Keys are whole pages, and a prefetch has no more slots than its key has tokens. -/
structure Keyed (p : PrefetchParams) (s : PrefetchState) : Prop where
  dvd : ∀ o, p.pageSize ∣ (s.operations o).keyLen
  entry_le : ∀ e ∈ s.ongoingPrefetch, e.2.hostIndices.length ≤ e.2.keyLen

theorem Keyed.pass (h : s.Keyed p) (hsub : t.ongoingPrefetch ⊆ s.ongoingPrefetch)
    (hops : ∀ o, (t.operations o).keyLen = (s.operations o).keyLen) : t.Keyed p :=
  ⟨fun o => hops o ▸ h.dvd o, fun e he => h.entry_le e (hsub he)⟩

theorem Passes.keyed {o : OpId} {x : Stage} {y : Option Stage} {l d : List Nat}
    {f : PrefetchOperation → PrefetchOperation} (h : Passes p s t o x f y l d) (hk : s.Keyed p) :
    t.Keyed p := by
  refine hk.pass (h.ongoing_eq ▸ fun _ he => he) fun o' => ?_
  by_cases ho : o' = o
  · rw [ho, h.op_eq]
    cases h.passage <;> rfl
  · rw [h.op_of_ne ho]

theorem Advances.keyed (h : Advances p s t) (hk : s.Keyed p) : t.Keyed p := by
  rcases h with rfl | ⟨o, x, f, y, l, h⟩
  · exact hk
  · exact h.keyed hk

theorem keyLen_markTerminate (s : PrefetchState) (o o' : OpId) :
    ((s.markTerminate o).operations o').keyLen = (s.operations o').keyLen :=
  modifyOp_keeps (f := .markTerminate) (·.keyLen) (fun _ => rfl) s o o'

theorem Finishes.keyed {rid : Nat} {e : OngoingPrefetch} (h : Finishes s t rid e)
    (hk : s.Keyed p) : t.Keyed p :=
  hk.pass (h.ongoing ▸ filter_subset_self _) fun o => h.operations ▸ keyLen_markTerminate s _ o

theorem Allocates.keyed {v : List Nat} (h : Allocates s t v) (hk : s.Keyed p) : t.Keyed p :=
  hk.pass (by rw [h.same]; exact fun _ he => he) fun o => by rw [h.same]

theorem registerPrefetch_keyed (hk : s.Keyed p) (rid : Nat) (node : NodeId) {numTokens : Nat}
    {v : List Nat} (hv : v.length ≤ numTokens / p.pageSize * p.pageSize) :
    (s.registerPrefetch rid node (numTokens / p.pageSize * p.pageSize) v).Keyed p := by
  refine ⟨fun o => ?_, fun e he => ?_⟩
  · by_cases ho : o = s.counter
    · rw [ho, registerPrefetch_new]
      exact Dvd.intro_left _ rfl
    · rw [registerPrefetch_of_ne s rid node _ v ho]
      exact hk.dvd o
  · rcases mem_registerPrefetch s rid node _ v he with rfl | ⟨he, -⟩
    · exact hv
    · exact hk.entry_le e he

theorem step_keyed {a : PrefetchAction} (hk : s.Keyed p) (hen : s.Enabled p a)
    (h : s.step p size a = .ok t) : t.Keyed p := by
  cases a with
  | prefetch rid node numTokens evicted =>
    rcases prefetchFromStorage_cases hen h with rfl | ⟨u, v, hu, ⟨-, hrelease⟩ | ⟨hv, rfl⟩⟩
    · exact hk
    · cases releaseHost_eq_ok hrelease
      exact (hu.keyed (hk.pass (fun _ he => he) fun _ => rfl)).pass
        (fun _ he => he) fun _ => rfl
    · exact registerPrefetch_keyed
        (hu.keyed (hk.pass (fun _ he => he) fun _ => rfl)) rid node hv
  | check rid timedOut othersCan othersTerminated minCompleted matched =>
    rcases checkPrefetchProgress_finishes hen.1 hen.2 h with rfl | ⟨e, -, hfin⟩
    · exact hk
    · exact hfin.keyed hk
  | terminate rid =>
    cases h
    rw [terminatePrefetch]
    cases s.find rid with
    | none => exact hk
    | some e => exact hk.pass (fun _ he => he) (keyLen_markTerminate s _)
  | abort rid =>
    cases hfind : s.find rid with
    | none =>
      rw [step, releaseAbortedRequest, hfind] at h
      cases h
      exact hk
    | some e => exact (releaseAbortedRequest_finishes hfind h).keyed hk
  | drain numRevoke numRelease =>
    have hrevokes := drain_revokes h
    exact hk.pass (hrevokes.ongoing ▸ filter_subset_self _) fun o => by
      rw [hrevokes.operations]
  | writeBackup numTokens => exact (writeBackup_allocates h).keyed hk
  | evictHost evicted =>
    cases h
    exact (evictHost_allocates hen).keyed hk
  | reset =>
    cases h
    exact hk.pass (fun _ he => he) fun _ => rfl
  | takePrefetch =>
    cases h
    exact (takePrefetch_advances hen).keyed hk
  | answerQuery o hitPages =>
    cases h
    exact (answerQuery_advances hen.1 hen.2).keyed hk
  | finishQuery =>
    cases h
    exact finishQuery_advances.keyed hk
  | takeTransfer i =>
    cases h
    exact (takeTransfer_advances hen).keyed hk
  | transferPages i o first prevCompleted pages =>
    cases h
    rcases transferPages_passes hen.1 hen.2 with hsame | ⟨f, y, d, hpass, -⟩
    · rwa [hsame]
    · exact hpass.keyed hk
  | finishBatch i o first prevCompleted =>
    cases h
    exact (finishBatch_advances hen).keyed hk
  | releaseRest i o =>
    cases h
    exact (releaseRest_advances hen).keyed hk

end PrefetchState

theorem PrefetchRun.keyed {p : PrefetchParams} {size : Nat}
    {C : PrefetchState → PrefetchAction → Prop} {s : PrefetchState}
    (h : PrefetchRun p size C s) : s.Wf ∧ s.Keyed p := by
  induction h with
  | init =>
    exact ⟨wf_init _ _, fun _ => dvd_zero _, nofun⟩
  | @step s t a _ hen _ hstep ih =>
    refine ⟨?_, step_keyed ih.2 hen hstep⟩
    by_cases ha : a = .reset
    · subst ha
      cases hstep
      exact wf_reset ih.1 size
    · obtain ⟨d, hmove, -⟩ := step_moves ih.1 hen ha hstep
      exact hmove.wf

/-- The slots of the node that the end of `check_prefetch_progress` makes. -/
def OngoingPrefetch.nodeHostValue (e : OngoingPrefetch) (minCompleted matched : Nat) : List Nat :=
  (e.hostIndices.take minCompleted).drop matched

/-- The length of the key of this node, which is cut from `prefetch_key` in the same way. -/
def OngoingPrefetch.nodeKeyLen (e : OngoingPrefetch) (minCompleted matched : Nat) : Nat :=
  min e.keyLen minCompleted - matched

/-- There is a slot for every token of the pages that are transferred. -/
def PrefetchOperation.PagesFit (p : PrefetchParams) (op : PrefetchOperation) : Prop :=
  op.hashPages * p.pageSize ≤ op.hostIndices.length

namespace PrefetchState

variable {p : PrefetchParams} {s : PrefetchState} {o : OpId}

theorem answered_buffer (hs : s.Wf) (hthread : s.prefetchThread = .querying o) (hits : Nat) :
    o ∈ ((s.answerQuery p o hits).finishQuery p).prefetchBuffer ↔ p.prefetchThreshold ≤ hits := by
  rw [answerQuery]
  split_ifs with hfew
  · refine ⟨fun hmem => absurd ?_ id, fun hle => absurd hfew (not_lt.mpr hle)⟩
    obtain ⟨r, hr, -⟩ := stages_setThread s
    rw [hthread] at hr
    have hstage : (o, Stage.buffered) ∈ s.stages := by
      refine mem_add.mpr (.inl (mem_add.mpr (.inr ?_)))
      exact mem_coe.mpr (mem_map.mpr ⟨o, hmem, rfl⟩)
    rw [hr, mem_add] at hstage
    rcases hstage with hstage | hstage
    · cases Multiset.mem_singleton.mp hstage
    · exact hs.notMem_rest hr _ hstage rfl
  · exact ⟨fun _ => not_lt.mp hfew, fun _ => mem_append_right _ (mem_singleton_self o)⟩

theorem answered_pagesFit {hitPages : Nat}
    (hits : p.prefetchThreshold ≤ hitPages * p.pageSize) :
    (((s.answerQuery p o (hitPages * p.pageSize)).finishQuery p).operations o).PagesFit p ↔
      hitPages * p.pageSize ≤ (s.operations o).hostIndices.length := by
  rw [answerQuery, if_neg (not_lt.mpr hits)]
  have hop : ∀ u : PrefetchState, u.prefetchThread = .trimming o (hitPages * p.pageSize) →
      (u.finishQuery p).operations o = (u.operations o).cutHost (hitPages * p.pageSize) := by
    intro u hu
    rw [finishQuery, hu]
    exact modifyOp_self _ o _
  rw [hop _ rfl]
  show (((s.modifyOp o _).operations o).cutHost _).hashPages * _ ≤
    (((s.modifyOp o _).operations o).cutHost _).hostIndices.length ↔ _
  rw [modifyOp_self]
  show hitPages * p.pageSize / p.pageSize * p.pageSize ≤
    ((s.operations o).hostIndices.take (hitPages * p.pageSize)).length ↔ _
  rw [Nat.mul_div_cancel _ p.pageSize_pos, length_take, le_min_iff]
  exact and_iff_right (le_refl _)

end PrefetchState

/-- A node made from a prefetch has a slot for every token of its key. The pages that an operation
is to transfer have slots, whatever the storage answers, just when the prefetch got as many slots
as its key has tokens or the key is too short to be fetched. -/
theorem prefetch_sizes {p : PrefetchParams} {size : Nat} {s : PrefetchState}
    (h : PrefetchRun p size (fun _ _ => True) s) :
    (∀ rid e minCompleted matched, s.find rid = some e →
      minCompleted ≤ (s.operations e.operation).completedTokens →
      (e.nodeHostValue minCompleted matched).length = e.nodeKeyLen minCompleted matched) ∧
    ∀ o, s.prefetchThread = .querying o →
      ((∀ hitPages, s.Enabled p (.answerQuery o hitPages) →
          o ∈ ((s.answerQuery p o (hitPages * p.pageSize)).finishQuery p).prefetchBuffer →
          (((s.answerQuery p o (hitPages * p.pageSize)).finishQuery p).operations o).PagesFit p) ↔
        (s.operations o).keyLen ≤ (s.operations o).hostIndices.length ∨
          (s.operations o).keyLen < p.prefetchThreshold) := by
  obtain ⟨hs, hk⟩ := h.keyed
  refine ⟨fun rid e minCompleted matched hfind hmin => ?_, fun o hthread => ⟨fun hfit => ?_, ?_⟩⟩
  · have hmem := find_mem hfind
    have hprefix : (s.operations e.operation).hostIndices.length ≤ e.hostIndices.length :=
      (hs.entry_prefix _ hmem).length_le
    have hentry : e.hostIndices.length ≤ e.keyLen := hk.entry_le _ hmem
    have hle := hs.completed_le e.operation
    rw [OngoingPrefetch.nodeHostValue, OngoingPrefetch.nodeKeyLen, length_drop, length_take]
    omega
  · by_contra hnot
    push Not at hnot
    obtain ⟨k, hkey⟩ := hk.dvd o
    rw [mul_comm] at hkey
    have hhits : p.prefetchThreshold ≤ k * p.pageSize := hkey ▸ hnot.2
    have hpages := (answered_pagesFit hhits).mp
      (hfit k ⟨hthread, hkey.ge⟩ ((answered_buffer hs hthread _).mpr hhits))
    omega
  · intro hor hitPages hen hbuffer
    have hhits := (answered_buffer hs hthread _).mp hbuffer
    have hle := hen.2
    refine (answered_pagesFit hhits).mpr ?_
    omega

/-- A prefetch of two tokens with two free slots, before the storage is asked. -/
theorem prefetch_sizes_full : ∃ s, PrefetchRun onePageParams 2 (fun _ _ => True) s ∧
    s.prefetchThread = .querying 0 ∧
    ∀ hitPages, s.Enabled onePageParams (.answerQuery 0 hitPages) →
      0 ∈ ((s.answerQuery onePageParams 0 (hitPages * 1)).finishQuery
        onePageParams).prefetchBuffer →
      (((s.answerQuery onePageParams 0 (hitPages * 1)).finishQuery onePageParams).operations
        0).PagesFit onePageParams := by
  have hrun : PrefetchRun onePageParams 2 (fun _ _ => True) _ :=
    PrefetchRun.init.runActions [.prefetch 7 0 2 [], .takePrefetch] rfl
  exact ⟨_, hrun, rfl, ((prefetch_sizes hrun).2 0 rfl).mpr (.inl (by decide))⟩

/-- With one slot for two tokens, the I/O thread is to transfer two pages. -/
theorem prefetch_exceeds_slots : ∃ s, PrefetchRun onePageParams 1 (fun _ _ => True) s ∧
    s.ioThreads = [.transferring 0 0 0] ∧ ((s.operations 0).hashPages, (s.operations 0).keyLen,
      (s.operations 0).hostIndices) = (2, 2, [0]) :=
  ⟨_, PrefetchRun.init.runActions [.prefetch 7 0 2 [], .takePrefetch, .answerQuery 0 2,
    .finishQuery, .takeTransfer 0] rfl, rfl, rfl⟩

end Fluxfer.Storage
