import Fluxfer.Storage.PrefetchPlaces

/-!
# The steps of the prefetch protocol

A thread takes one operation to its next stage (`Passage`, `Passes`), and the scheduler registers
prefetches and ends them. Each step moves slots between the places of `Storage.PrefetchPlaces`;
what it drops is named in the lemma about the step.
-/

namespace Fluxfer.Storage

open Radix Hi List Function
open Multiset (coe_add coe_eq_coe coe_nil cons_coe map_add mem_map ofList singleton_add zero_le)

/-! ## What a thread does with an operation -/

/-- The stage of the operation, its change, the stage after that, the slots that are released, and
the slots that the operation loses otherwise. -/
inductive Passage (p : PrefetchParams) (op : PrefetchOperation) : Stage →
    (PrefetchOperation → PrefetchOperation) → Option Stage → List Nat → List Nat → Prop
  | take : Passage p op .queued id (some .querying) [] []
  | revoke : Passage p op .querying id (some .revoking) [] []
  | trim {hits : Nat} : hits ≤ op.keyLen →
      Passage p op .querying (.setHashPages (hits / p.pageSize)) (some (.trimming hits))
        (op.hostIndices.drop hits) []
  | letGo : Passage p op .revoking id none op.hostIndices []
  | cut {hits : Nat} : Passage p op (.trimming hits) (.cutHost hits) (some .buffered) [] []
  | skip : Passage p op .buffered id (some .releasing) [] []
  | start : Passage p op .buffered id (some (.transferring 0 op.completedTokens)) [] []
  /-- there is no slot for a page -/
  | die {first prev n : Nat} :
      op.completedTokens + n ≤ prev + PrefetchState.batchPages p op first * p.pageSize →
      op.hostIndices.length < op.completedTokens + n →
      Passage p op (.transferring first prev) id none []
        (op.hostIndices.drop op.completedTokens)
  | arrive {first prev n : Nat} : op.completedTokens + n ≤ op.hostIndices.length →
      Passage p op (.transferring first prev) (.increment n) (some (.transferring first prev)) []
        ((op.hostIndices.drop op.completedTokens).take n)
  | stop {first prev : Nat} :
      Passage p op (.transferring first prev) .markTerminate (some .releasing) [] []
  | next {first prev : Nat} :
      op.completedTokens = prev + PrefetchState.batchPages p op first * p.pageSize →
      first + p.storageBatchSize < op.hashPages →
      Passage p op (.transferring first prev) id
        (some (.transferring (first + p.storageBatchSize) op.completedTokens)) [] []
  | finish {first prev : Nat} :
      Passage p op (.transferring first prev) id (some .releasing) [] []
  | release : Passage p op .releasing id none (op.hostIndices.drop op.completedTokens) []

namespace Passage

variable {p : PrefetchParams} {op : PrefetchOperation} {x z : Stage} {y : Option Stage}
  {f : PrefetchOperation → PrefetchOperation} {l d : List Nat}

theorem isPrefix (h : Passage p op x f y l d) : (f op).hostIndices <+: op.hostIndices := by
  cases h
  case cut => exact take_prefix _ _
  all_goals exact prefix_refl _

section

variable (h : Passage p op x f y l d) (hz : x.Waiting → op.completedTokens = 0)
include h hz

theorem completed_le (hle : op.completedTokens ≤ op.hostIndices.length) :
    (f op).completedTokens ≤ (f op).hostIndices.length := by
  cases h
  case cut => exact (hz trivial).trans_le (Nat.zero_le _)
  case arrive hroom => exact hroom
  all_goals exact hle

theorem waiting (hy : y = some z) (hw : z.Waiting) : (f op).completedTokens = 0 := by
  cases h <;> cases hy <;> first | exact hz trivial | exact hw.elim

theorem slots :
    (x.slots op : Multiset Nat) = (y.elim [] (Stage.slots (f op)) : List Nat) + l + d := by
  cases h
  case trim hits _ =>
    rw [coe_nil, add_zero]
    exact congrArg _ (take_append_drop hits op.hostIndices).symm
  case skip => simp [Stage.slots, hz trivial]
  case start => simp [Stage.slots, hz trivial]
  case arrive n _ =>
    rw [coe_nil, add_zero, add_comm]
    show _ = ((_ ++ op.hostIndices.drop (op.completedTokens + n) : List Nat) : Multiset Nat)
    rw [← drop_drop, take_append_drop]
    rfl
  all_goals simp [Stage.slots, PrefetchOperation.cutHost, PrefetchOperation.markTerminate]

end

theorem lost (h : Passage p op x f y l d) :
    (f op).completedTokens = op.completedTokens ∧ (y ≠ none → d = []) ∨
      ∃ n, f = .increment n ∧ d = (op.hostIndices.drop op.completedTokens).take n ∧
        op.completedTokens + n ≤ op.hostIndices.length := by
  cases h
  case die => exact .inl ⟨rfl, fun hy => absurd rfl hy⟩
  case arrive n hroom => exact .inr ⟨n, rfl, rfl, hroom⟩
  all_goals exact .inl ⟨rfl, fun _ => rfl⟩

end Passage

namespace PrefetchState

def staged (o : OpId) : Option Stage → Multiset (OpId × Stage)
  | none => 0
  | some y => {(o, y)}

/-- What the threads leave alone. -/
def books (s : PrefetchState) : List (Nat × OngoingPrefetch) × OpId × HostPool × List Nat ×
    (NodeId → Nat) × Int :=
  (s.ongoingPrefetch, s.counter, s.hostPool, s.treeSlots, s.hostRefCounter,
    s.prefetchTokensOccupied)

/-- A thread takes the operation `o` from stage `x` to stage `y`. -/
structure Passes (p : PrefetchParams) (s t : PrefetchState) (o : OpId) (x : Stage)
    (f : PrefetchOperation → PrefetchOperation) (y : Option Stage) (l d : List Nat) : Prop where
  passage : Passage p (s.operations o) x f y l d
  stages : ∃ r, s.stages = {(o, x)} + r ∧ t.stages = staged o y + r
  operations : t.operations = (s.modifyOp o f).operations
  books : t.books = s.books
  released : t.hostMemReleaseQueue.flatten = s.hostMemReleaseQueue.flatten ++ l
  revoked : ∀ rid ∈ t.prefetchRevokeQueue,
    rid ∈ s.prefetchRevokeQueue ∨ y = some .revoking ∧ rid = (s.operations o).requestId
  dead : IoThread.dead ∈ t.ioThreads →
    IoThread.dead ∈ s.ioThreads ∨ y = none ∧ ∃ first prev, x = .transferring first prev

namespace Passes

variable {p : PrefetchParams} {s t : PrefetchState} {o : OpId} {x : Stage} {y : Option Stage}
  {f : PrefetchOperation → PrefetchOperation} {l d : List Nat} {z : OpId × Stage}

variable (h : Passes p s t o x f y l d)
include h

theorem ongoing_eq : t.ongoingPrefetch = s.ongoingPrefetch :=
  congrArg (·.1) h.books

theorem counter_eq : t.counter = s.counter :=
  congrArg (·.2.1) h.books

theorem hostPool_eq : t.hostPool = s.hostPool :=
  congrArg (·.2.2.1) h.books

theorem mem : (o, x) ∈ s.stages := by
  obtain ⟨r, hr, -⟩ := h.stages
  rw [hr]
  exact Multiset.mem_add.mpr (.inl (Multiset.mem_singleton_self _))

theorem op_eq : t.operations o = f (s.operations o) := by
  rw [h.operations, modifyOp_self]

theorem op_of_ne {o' : OpId} (ho : o' ≠ o) : t.operations o' = s.operations o' := by
  rw [h.operations, modifyOp_of_ne f ho]

theorem mem_stages (hs : s.Wf) (hz : z ∈ t.stages) :
    z.1 = o ∧ y = some z.2 ∨ z.1 ≠ o ∧ z ∈ s.stages := by
  obtain ⟨r, hr, ht⟩ := h.stages
  rw [ht, Multiset.mem_add] at hz
  rcases hz with hz | hz
  · left
    cases y with
    | none => exact absurd hz (Multiset.notMem_zero z)
    | some y =>
      obtain rfl := Multiset.mem_singleton.mp hz
      exact ⟨rfl, rfl⟩
  · exact .inr ⟨hs.notMem_rest hr z hz, hr ▸ Multiset.mem_add.mpr (.inr hz)⟩

theorem wf (hs : s.Wf) : t.Wf where
  keys := h.ongoing_eq ▸ hs.keys
  entries := h.ongoing_eq ▸ hs.entries
  entry_lt := by
    rw [h.ongoing_eq, h.counter_eq]
    exact hs.entry_lt
  entry_prefix := fun e he => by
    rw [h.ongoing_eq] at he
    by_cases ho : e.2.operation = o
    · rw [ho, h.op_eq]
      exact h.passage.isPrefix.trans (ho ▸ hs.entry_prefix e he)
    · rw [h.op_of_ne ho]
      exact hs.entry_prefix e he
  live := by
    obtain ⟨r, hr, ht⟩ := h.stages
    have hle : t.stages.map Prod.fst ≤ s.stages.map Prod.fst := by
      rw [ht, hr, map_add, map_add]
      refine Multiset.add_le_add_right ?_
      cases y with
      | none => exact zero_le _
      | some y => exact le_refl _
    exact Multiset.nodup_of_le hle hs.live
  live_lt := fun z hz => by
    rw [h.counter_eq]
    rcases h.mem_stages hs hz with ⟨ho, -⟩ | ⟨-, hz⟩
    · exact ho ▸ hs.live_lt _ h.mem
    · exact hs.live_lt z hz
  waiting := fun z hz hw => by
    rcases h.mem_stages hs hz with ⟨ho, hy⟩ | ⟨hne, hz⟩
    · rw [ho, h.op_eq]
      exact h.passage.waiting (hs.waiting _ h.mem) hy hw
    · rw [h.op_of_ne hne]
      exact hs.waiting z hz hw
  completed_le := fun o' => by
    by_cases ho : o' = o
    · rw [ho, h.op_eq]
      exact h.passage.completed_le (hs.waiting _ h.mem) (hs.completed_le o)
    · rw [h.op_of_ne ho]
      exact hs.completed_le o'

theorem loose_eq : t.loose = s.loose + (l : Multiset Nat) := by
  have htree : t.treeSlots = s.treeSlots := congrArg (·.2.2.2.1) h.books
  rw [loose, h.hostPool_eq, htree, h.released, ← coe_add, ← add_assoc, loose]

theorem places_eq (hs : s.Wf) : t.places + (d : Multiset Nat) + s.doneSum = s.places + t.doneSum := by
  obtain ⟨r, hr, ht⟩ := h.stages
  have hslots := h.passage.slots (hs.waiting _ h.mem)
  have hnew : slotsOf t.operations (staged o y) =
      (y.elim [] (Stage.slots (f (s.operations o))) : List Nat) := by
    cases y with
    | none => rfl
    | some y =>
      rw [← h.op_eq]
      exact slotsOf_singleton
  have hrest : slotsOf t.operations r = slotsOf s.operations r := slotsOf_congr fun z hz => by
    rw [h.op_of_ne (hs.notMem_rest hr z hz)]
    exact ⟨rfl, rfl⟩
  rw [PrefetchState.places_eq, PrefetchState.places_eq s, hr, ht, slotsOf_add, slotsOf_add, hnew,
    hrest, h.loose_eq, slotsOf_singleton, hslots]
  abel

theorem doneSum_increment (hs : s.Wf) (hreg : s.Registered o) {n : Nat} (hf : f = .increment n)
    (hn : (s.operations o).completedTokens + n ≤ (s.operations o).hostIndices.length) :
    t.doneSum = s.doneSum +
      (((s.operations o).hostIndices.drop (s.operations o).completedTokens).take n : List Nat) := by
  obtain ⟨e, he, rfl⟩ := hreg
  obtain ⟨r, hr⟩ := hs.entry_prefix e he
  have hone : doneSlots t.operations e.2 = doneSlots s.operations e.2 +
      (((s.operations e.2.operation).hostIndices.drop
        (s.operations e.2.operation).completedTokens).take n : List Nat) := by
    rw [doneSlots, h.op_eq, hf, PrefetchOperation.increment, doneSlots, ← hr,
      take_append_of_le_length hn, take_append_of_le_length (by omega), take_add,
      coe_add]
  obtain ⟨l1, l2, hl⟩ := append_of_mem he
  have hentries := hs.entries
  rw [hl] at hentries
  obtain ⟨h1, h2⟩ := ne_of_nodup hentries
  have hsame : ∀ l' : List (Nat × OngoingPrefetch),
      (∀ e' ∈ l', e'.2.operation ≠ e.2.operation) →
      l'.map (fun e' => doneSlots t.operations e'.2) =
        l'.map fun e' => doneSlots s.operations e'.2 := fun l' hne =>
    map_congr_left fun e' he' => by rw [doneSlots, h.op_of_ne (hne e' he'), doneSlots]
  rw [doneSum, h.ongoing_eq, doneSum, hl]
  simp only [map_append, map_cons, sum_append, sum_cons, hsame l1 h1, hsame l2 h2, hone]
  abel

theorem moves (hs : s.Wf) :
    ∃ d', Moves s t d' ∧ (d = [] → d' = 0) ∧ (y ≠ none → s.Registered o → d' = 0) := by
  have hplaces := h.places_eq hs
  rcases h.passage.lost with ⟨hkeep, hlost⟩ | ⟨n, hf, hd, hn⟩
  · have hdone : t.doneSum = s.doneSum := doneSum_congr h.ongoing_eq fun e _ => by
      by_cases ho : e.2.operation = o
      · rw [ho, h.op_eq, hkeep]
      · rw [h.op_of_ne ho]
    rw [hdone] at hplaces
    refine ⟨d, ⟨h.wf hs, (add_right_cancel hplaces).symm⟩, fun hd => by rw [hd]; rfl,
      fun hy _ => by rw [hlost hy]; rfl⟩
  · by_cases hreg : s.Registered o
    · rw [h.doneSum_increment hs hreg hf hn, ← hd, add_right_comm, ← add_assoc] at hplaces
      exact ⟨0, ⟨h.wf hs, by rw [add_zero, add_right_cancel (add_right_cancel hplaces)]⟩,
        fun _ => rfl, fun _ _ => rfl⟩
    · have hdone : t.doneSum = s.doneSum := doneSum_congr h.ongoing_eq fun e he => by
        rw [h.op_of_ne fun ho => hreg ⟨e, he, ho⟩]
      rw [hdone] at hplaces
      exact ⟨d, ⟨h.wf hs, (add_right_cancel hplaces).symm⟩, fun hd => by rw [hd]; rfl,
        fun _ hreg' => absurd hreg' hreg⟩

end Passes

/-! ## The threads -/

/-- A thread does nothing, or takes an operation on without losing a slot of it. -/
def Advances (p : PrefetchParams) (s t : PrefetchState) : Prop :=
  t = s ∨ ∃ o x f y l, Passes p s t o x f y l []

theorem Advances.moves {p : PrefetchParams} {s t : PrefetchState} (h : Advances p s t) (hs : s.Wf) :
    Moves s t 0 := by
  rcases h with rfl | ⟨o, x, f, y, l, h⟩
  · exact Moves.refl hs
  · obtain ⟨d, hmove, hd, -⟩ := h.moves hs
    exact hd rfl ▸ hmove

section Threads

variable {p : PrefetchParams} {s : PrefetchState} {o : OpId} {i first prev : Nat}

theorem modifyOp_id (s : PrefetchState) (o : OpId) : s.modifyOp o id = s := by
  rw [modifyOp, id, update_eq_self]

theorem flatten_appendHostMemRelease (s : PrefetchState) (l : List Nat) :
    (s.appendHostMemRelease p l).hostMemReleaseQueue.flatten =
      s.hostMemReleaseQueue.flatten ++ l := by
  rw [appendHostMemRelease, flatten_append, flatten_chunks p.pageSize_pos l.length l (le_refl _)]

theorem stages_buffer (s : PrefetchState) (o : OpId) (l : List OpId)
    (h : s.prefetchBuffer.Perm (o :: l)) :
    s.stages = {(o, .buffered)} + ({ s with prefetchBuffer := l } : PrefetchState).stages := by
  have hperm := coe_eq_coe.mpr (h.map fun o => (o, Stage.buffered))
  rw [map_cons, ← cons_coe, ← singleton_add] at hperm
  simp only [stages]
  rw [hperm]
  abel

theorem takePrefetch_advances (hidle : s.prefetchThread = .idle) : Advances p s s.takePrefetch := by
  cases hq : s.prefetchQueue with
  | nil => exact .inl (by rw [takePrefetch, hq])
  | cons o rest =>
    have ht : s.takePrefetch = { s with prefetchQueue := rest }.setThread (.querying o) := by
      rw [takePrefetch, hq]
    obtain ⟨r, hr, hset⟩ := stages_setThread { s with prefetchQueue := rest }
    have hstages : s.stages =
        {(o, .queued)} + ({ s with prefetchQueue := rest } : PrefetchState).stages := by
      simp only [stages, hq, map_cons, ← cons_coe, ← singleton_add]
      abel
    rw [hr, show threadStages s.prefetchThread = 0 by rw [hidle]; rfl, zero_add] at hstages
    rw [ht]
    exact .inr ⟨o, _, _, _, _, .take, ⟨r, hstages, hset _⟩, by rw [modifyOp_id]; rfl, rfl,
      (append_nil _).symm, fun _ h => .inl h, fun h => .inl h⟩

theorem answerQuery_advances (hthread : s.prefetchThread = .querying o) {hits : Nat}
    (hhits : hits ≤ (s.operations o).keyLen) : Advances p s (s.answerQuery p o hits) := by
  obtain ⟨r, hr, hset⟩ := stages_setThread s
  rw [hthread] at hr
  rw [answerQuery]
  split_ifs
  · refine .inr ⟨o, _, _, _, _, .revoke, ⟨r, hr, hset _⟩, by rw [modifyOp_id]; rfl, rfl,
      (append_nil _).symm, fun rid hrid => ?_, fun h => .inl h⟩
    exact (mem_append.mp hrid).imp id fun h => ⟨rfl, mem_singleton.mp h⟩
  · exact .inr ⟨o, _, _, _, _, .trim hhits, ⟨r, hr, hset _⟩, rfl, rfl,
      flatten_appendHostMemRelease _ _, fun _ h => .inl h, fun h => .inl h⟩

theorem finishQuery_advances : Advances p s (s.finishQuery p) := by
  obtain ⟨r, hr, hset⟩ := stages_setThread s
  rw [finishQuery]
  cases hthread : s.prefetchThread with
  | idle => exact .inl rfl
  | querying o => exact .inl rfl
  | revoking o =>
    rw [hthread] at hr
    exact .inr ⟨o, _, _, _, _, .letGo, ⟨r, hr, hset _⟩, by rw [modifyOp_id]; rfl, rfl,
      flatten_appendHostMemRelease _ _, fun _ h => .inl h, fun h => .inl h⟩
  | trimming o hits =>
    rw [hthread] at hr
    refine .inr ⟨o, _, _, _, _, .cut, ⟨r, hr, ?_⟩, rfl, rfl, (append_nil _).symm,
      fun _ h => .inl h, fun h => .inl h⟩
    refine (stages_buffer _ o s.prefetchBuffer (perm_append_singleton _ _)).trans ?_
    exact congrArg _ ((hset .idle).trans (zero_add r))

theorem setIo_passes {a b : IoThread} {t : PrefetchState} {x : Stage} {y : Option Stage}
    {f : PrefetchOperation → PrefetchOperation} {l d : List Nat}
    (h : s.ioThreads[i]? = some a) (ha : ioStages a = {(o, x)}) (hb : ioStages b = staged o y)
    (hpass : Passage p (s.operations o) x f y l d)
    (ht : t = ({ s.modifyOp o f with hostMemReleaseQueue := t.hostMemReleaseQueue }.setIo i b))
    (hl : t.hostMemReleaseQueue.flatten = s.hostMemReleaseQueue.flatten ++ l)
    (hdead : b = .dead → y = none ∧ ∃ first prev, x = .transferring first prev) :
    Passes p s t o x f y l d := by
  obtain ⟨r, hr, hset⟩ := stages_setIo h
  rw [ht]
  refine ⟨hpass, ⟨r, ha ▸ hr, hb ▸ hset b⟩, rfl, rfl, hl, fun _ h => .inl h, fun hmem => ?_⟩
  rcases mem_or_eq_of_mem_set hmem with hmem | hmem
  · exact .inl hmem
  · exact .inr (hdead hmem.symm)

theorem takeTransfer_advances (h : s.ioThreads[i]? = some .idle) :
    Advances p s (s.takeTransfer i) := by
  cases hb : s.prefetchBuffer with
  | nil => exact .inl (by rw [takeTransfer, hb])
  | cons o rest =>
    obtain ⟨r, hr, hset⟩ := stages_setIo (s := { s with prefetchBuffer := rest }) h
    have hstages := stages_buffer s o rest (hb ▸ .refl _)
    rw [hr, show ioStages .idle = 0 from rfl, zero_add] at hstages
    have hpass : ∀ b y, ioStages b = staged o (some y) → b ≠ .dead →
        Passage p (s.operations o) .buffered id (some y) [] [] →
        Advances p s (({ s with prefetchBuffer := rest } : PrefetchState).setIo i b) := by
      intro b y hby hne hpass
      refine .inr ⟨o, _, _, _, _, hpass, ⟨r, hstages, hby ▸ hset b⟩, by rw [modifyOp_id]; rfl,
        rfl, (append_nil _).symm, fun _ h => .inl h, fun hmem => ?_⟩
      exact .inl ((mem_or_eq_of_mem_set hmem).resolve_right fun heq => hne heq.symm)
    rw [takeTransfer, hb]
    dsimp only
    split_ifs
    · exact hpass _ _ rfl (fun hd => by cases hd) .skip
    · exact hpass _ _ rfl (fun hd => by cases hd) .start

theorem finishBatch_advances (h : s.ioThreads[i]? = some (.transferring o first prev)) :
    Advances p s (s.finishBatch p i o first prev) := by
  rw [finishBatch]
  split_ifs with hdone hnext
  · exact .inr ⟨o, _, _, _, _, setIo_passes h rfl rfl .stop rfl (append_nil _).symm
      fun hd => by cases hd⟩
  · exact .inr ⟨o, _, _, _, _, setIo_passes h rfl rfl (.next (not_not.mp hdone) hnext)
      (by rw [modifyOp_id]; rfl) (append_nil _).symm fun hd => by cases hd⟩
  · exact .inr ⟨o, _, _, _, _, setIo_passes h rfl rfl .finish (by rw [modifyOp_id]; rfl)
      (append_nil _).symm fun hd => by cases hd⟩

theorem releaseRest_advances (h : s.ioThreads[i]? = some (.releasing o)) :
    Advances p s (s.releaseRest p i o) :=
  .inr ⟨o, _, _, _, _, setIo_passes h rfl rfl .release (by rw [modifyOp_id]; rfl)
    (flatten_appendHostMemRelease _ _) fun hd => by cases hd⟩

theorem transferPages_passes (h : s.ioThreads[i]? = some (.transferring o first prev)) {pages : Nat}
    (hpages : (s.operations o).completedTokens + pages * p.pageSize ≤
      prev + batchPages p (s.operations o) first * p.pageSize) :
    s.transferPages p i o pages = s ∨
      ∃ f y d, Passes p s (s.transferPages p i o pages) o (.transferring first prev) f y [] d ∧
        ((s.operations o).completedTokens + pages * p.pageSize ≤
            (s.operations o).hostIndices.length →
          (s.operations o).terminated ≠ true ∧ y ≠ none) := by
  rw [transferPages]
  split_ifs with hover hterm
  · refine .inr ⟨_, _, _, setIo_passes h rfl rfl (.die hpages hover) (by rw [modifyOp_id]; rfl)
      (append_nil _).symm fun _ => ⟨rfl, first, prev, rfl⟩, fun hroom => ?_⟩
    omega
  · exact .inl rfl
  · obtain ⟨r, hr, -⟩ := stages_setIo h
    exact .inr ⟨_, _, _, ⟨.arrive (Nat.not_lt.mp hover), ⟨r, hr, hr⟩, rfl, rfl,
      (append_nil _).symm, fun _ h => .inl h, fun h => .inl h⟩,
      fun _ => ⟨hterm, Option.some_ne_none _⟩⟩

end Threads

/-! ## The scheduler thread -/

/-- What the scheduler leaves alone, apart from new operations. -/
def threads (s : PrefetchState) : OpId × List OpId × PrefetchThread × List OpId × List IoThread ×
    Nat :=
  (s.counter, s.prefetchQueue, s.prefetchThread, s.prefetchBuffer, s.ioThreads,
    s.hostPool.pageSize)

/-- The prefetch `e` of the request is no longer registered. -/
structure Forgets (s t : PrefetchState) (rid : Nat) (e : OngoingPrefetch) : Prop where
  ongoing : t.ongoingPrefetch = s.ongoingPrefetch.filter fun x => x.1 ≠ rid
  occupied : t.prefetchTokensOccupied = s.prefetchTokensOccupied - e.keyLen
  refs : t.hostRefCounter =
    update s.hostRefCounter e.lastHostNode (s.hostRefCounter e.lastHostNode - 1)

/-- The prefetch `e` of the request ends: its operation is terminated, and the slots of its
completed tokens are passed on. -/
structure Finishes (s t : PrefetchState) (rid : Nat) (e : OngoingPrefetch) : Prop
    extends Forgets s t rid e where
  threads : t.threads = s.threads
  operations : t.operations = (s.markTerminate e.operation).operations
  revokeQueue : t.prefetchRevokeQueue = s.prefetchRevokeQueue
  loose : t.loose = s.loose + doneSlots s.operations e

/-- The prefetches of the requests `rids` are no longer registered. -/
structure Revokes (s t : PrefetchState) (rids : List Nat) : Prop where
  threads : t.threads = s.threads
  ongoing : t.ongoingPrefetch = s.ongoingPrefetch.filter fun x => x.1 ∉ rids
  operations : t.operations = s.operations
  revokeQueue : t.prefetchRevokeQueue ⊆ s.prefetchRevokeQueue
  loose : t.loose = s.loose

section Scheduler

variable {n matched minCompleted numTokens : Nat} {h h' : HostPool} {v evicted : List Nat}
variable {s t : PrefetchState} {p : PrefetchParams} {rid : Nat} {e : OngoingPrefetch}
  {d : Multiset Nat}

theorem counter_of_threads (h : t.threads = s.threads) : t.counter = s.counter :=
  congrArg (·.1) h

theorem ioThreads_of_threads (h : t.threads = s.threads) : t.ioThreads = s.ioThreads :=
  congrArg (·.2.2.2.2.1) h

theorem pageSize_of_threads (h : t.threads = s.threads) :
    t.hostPool.pageSize = s.hostPool.pageSize :=
  congrArg (·.2.2.2.2.2) h

theorem stages_of_threads (h : t.threads = s.threads) : t.stages = s.stages := by
  have hqueue : t.prefetchQueue = s.prefetchQueue := congrArg (·.2.1) h
  have hthread : t.prefetchThread = s.prefetchThread := congrArg (·.2.2.1) h
  have hbuffer : t.prefetchBuffer = s.prefetchBuffer := congrArg (·.2.2.2.1) h
  rw [stages, stages, hqueue, hthread, hbuffer, ioThreads_of_threads h]

theorem Moves.of_threads (hs : s.Wf) (hthreads : t.threads = s.threads)
    (hsub : t.ongoingPrefetch.Sublist s.ongoingPrefetch)
    (hhost : ∀ o, (t.operations o).hostIndices = (s.operations o).hostIndices)
    (hdone : ∀ o, (t.operations o).completedTokens = (s.operations o).completedTokens)
    (hplaces : s.loose + s.doneSum = t.loose + t.doneSum + d) : Moves s t d := by
  have hstages := stages_of_threads hthreads
  refine ⟨hs.pass hsub (counter_of_threads hthreads) hstages.le hhost hdone, ?_⟩
  rw [places_eq, places_eq, hstages, slotsOf_congr fun x _ => ⟨hhost x.1, hdone x.1⟩,
    add_right_comm, hplaces]
  abel

theorem Moves.of_loose (hs : s.Wf) (hthreads : t.threads = s.threads)
    (hops : t.operations = s.operations) (hongoing : t.ongoingPrefetch = s.ongoingPrefetch)
    (hloose : s.loose = t.loose + d) : Moves s t d := by
  refine .of_threads hs hthreads (hongoing ▸ .refl _) (fun o => by rw [hops])
    (fun o => by rw [hops]) ?_
  rw [doneSum_congr hongoing fun e _ => by rw [hops], hloose, add_right_comm]

theorem completedTokens_markTerminate (s : PrefetchState) (o o' : OpId) :
    ((s.markTerminate o).operations o').completedTokens = (s.operations o').completedTokens :=
  modifyOp_keeps (f := .markTerminate) (·.completedTokens) (fun _ => rfl) s o o'

theorem hostIndices_markTerminate (s : PrefetchState) (o o' : OpId) :
    ((s.markTerminate o).operations o').hostIndices = (s.operations o').hostIndices :=
  modifyOp_keeps (f := .markTerminate) (·.hostIndices) (fun _ => rfl) s o o'

theorem markTerminate_moves (hs : s.Wf) (o : OpId) : Moves s (s.markTerminate o) 0 := by
  refine .of_threads hs rfl (.refl _) (hostIndices_markTerminate s o)
    (completedTokens_markTerminate s o) ?_
  rw [add_zero, doneSum_congr (s := s) (t := s.markTerminate o) rfl fun x _ =>
    completedTokens_markTerminate s o _]
  rfl

theorem Finishes.moves (h : Finishes s t rid e) (hs : s.Wf) (hfind : s.find rid = some e) :
    Moves s t 0 := by
  have hdone : ∀ o, (t.operations o).completedTokens = (s.operations o).completedTokens :=
    fun o => h.operations ▸ completedTokens_markTerminate s _ o
  refine .of_threads hs h.threads (h.ongoing ▸ filter_sublist)
    (fun o => h.operations ▸ hostIndices_markTerminate s _ o) hdone ?_
  have hsum := sum_of_lookup hs.keys hfind fun x => doneSlots s.operations x.2
  have hrest : t.doneSum = ((s.ongoingPrefetch.filter fun x => x.1 ≠ rid).map fun x =>
      doneSlots s.operations x.2).sum := by
    rw [doneSum, h.ongoing]
    refine congrArg sum (map_congr_left fun x _ => ?_)
    rw [doneSlots, hdone, doneSlots]
  rw [hrest, h.loose, add_zero, add_assoc, ← hsum]
  rfl

theorem Revokes.moves (h : Revokes s t rids) (hs : s.Wf) :
    Moves s t ((s.ongoingPrefetch.filter fun x => x.1 ∈ rids).map fun x =>
      doneSlots s.operations x.2).sum := by
  refine .of_threads hs h.threads (h.ongoing ▸ filter_sublist) (fun o => by rw [h.operations])
    (fun o => by rw [h.operations]) ?_
  have hsum := sum_filter_add (fun x : Nat × OngoingPrefetch => x.1 ∈ rids) s.ongoingPrefetch
    fun x => doneSlots s.operations x.2
  rw [h.loose, add_assoc, doneSum, doneSum, h.ongoing, h.operations, hsum, add_comm (sum _)]

theorem releaseHost_eq_ok {n : NodeId} (h : s.releaseHost n = .ok t) : t = { s with
    hostRefCounter := update s.hostRefCounter n (s.hostRefCounter n - 1) } := by
  rw [releaseHost] at h
  split_ifs at h
  cases h
  rfl

theorem releaseHost_ok {n : NodeId} (h : 0 < s.hostRefCounter n) :
    s.releaseHost n = .ok { s with
      hostRefCounter := update s.hostRefCounter n (s.hostRefCounter n - 1) } := by
  rw [releaseHost, if_pos h]

theorem loose_appendHostMemRelease (s : PrefetchState) (l : List Nat) :
    (s.appendHostMemRelease p l).loose = s.loose + (l : Multiset Nat) := by
  rw [loose, flatten_appendHostMemRelease, ← coe_add, ← add_assoc]
  rfl

theorem loose_freeHost (s : PrefetchState) (l : List Nat) :
    (s.freeHost l).loose = s.loose + (l : Multiset Nat) := by
  simp only [loose, freeHost, HostPool.free, ← coe_add]
  abel

theorem loose_addTree (s : PrefetchState) (l : List Nat) :
    (s.addTree l).loose = s.loose + (l : Multiset Nat) := by
  simp only [loose, addTree, ← coe_add]
  abel

/-- The first `completed` slots, cut at `matched` and at `minCompleted`. -/
theorem take_pieces (l : List Nat) {completed : Nat} (hmatched : matched ≤ minCompleted)
    (hmin : minCompleted ≤ completed) :
    ((l.take completed : List Nat) : Multiset Nat) =
      ((l.take minCompleted).drop matched : List Nat) + (l.take matched : List Nat) +
        ((l.take completed).drop minCompleted : List Nat) := by
  have h1 : l.take matched = (l.take minCompleted).take matched := by
    rw [take_take, min_eq_left hmatched]
  have h2 : l.take minCompleted = (l.take completed).take minCompleted := by
    rw [take_take, min_eq_left hmin]
  rw [h1, add_comm (((l.take minCompleted).drop matched : List Nat) : Multiset Nat),
    coe_add, take_append_drop, h2, coe_add, take_append_drop]

theorem finishPrefetch_finishes (hmatched : matched ≤ minCompleted)
    (hmin : minCompleted ≤ (s.operations e.operation).completedTokens)
    (h : s.finishPrefetch p rid e minCompleted matched = .ok t) : Finishes s t rid e := by
  obtain ⟨u, hrelease, hu⟩ := bind_eq_ok h
  cases hu
  cases releaseHost_eq_ok hrelease
  refine ⟨⟨rfl, rfl, rfl⟩, rfl, rfl, rfl, (loose_appendHostMemRelease _ _).trans ?_⟩
  rw [loose_freeHost, loose_addTree, add_assoc, add_assoc, ← add_assoc (ofList _),
    doneSlots, take_pieces e.hostIndices hmatched hmin]
  rfl

theorem releaseAbortedRequest_finishes (hfind : s.find rid = some e)
    (h : s.releaseAbortedRequest p rid = .ok t) : Finishes s t rid e := by
  rw [releaseAbortedRequest, hfind] at h
  obtain ⟨u, hrelease, hu⟩ := bind_eq_ok h
  cases hu
  cases releaseHost_eq_ok hrelease
  exact ⟨⟨rfl, rfl, rfl⟩, rfl, rfl, rfl, loose_appendHostMemRelease _ _⟩

/-- `check_prefetch_progress` does nothing or ends the prefetch. -/
theorem checkPrefetchProgress_finishes {a b c : Bool} (hmatched : matched ≤ minCompleted)
    (hmin : ∀ e ∈ s.find rid, minCompleted ≤ (s.operations e.operation).completedTokens)
    (h : s.checkPrefetchProgress p rid a b c minCompleted matched = .ok t) :
    t = s ∨ ∃ e, s.find rid = some e ∧ Finishes s t rid e := by
  rw [checkPrefetchProgress] at h
  cases hfind : s.find rid with
  | none =>
    rw [hfind] at h
    cases h
    exact .inl rfl
  | some e =>
    simp only [hfind] at h
    split_ifs at h
    · exact .inr ⟨e, rfl, finishPrefetch_finishes hmatched (hmin e hfind) h⟩
    · cases h
      exact .inl rfl

theorem revoke_revokes (h : s.revoke rid = .ok t) : Revokes s t [rid] := by
  have hfilter : (s.ongoingPrefetch.filter fun x => x.1 ∉ [rid]) =
      s.ongoingPrefetch.filter fun x => x.1 ≠ rid := by
    simp only [mem_singleton]
  rw [revoke] at h
  cases hfind : s.find rid with
  | none =>
    rw [hfind] at h
    cases h
    exact ⟨rfl, by rw [hfilter, filter_of_lookup_none hfind], rfl, fun _ h => h, rfl⟩
  | some e =>
    rw [hfind] at h
    obtain ⟨u, hrelease, hu⟩ := bind_eq_ok h
    cases hu
    cases releaseHost_eq_ok hrelease
    exact ⟨rfl, hfilter.symm, rfl, fun _ h => h, rfl⟩

theorem revokeAll_revokes {rids : List Nat} (h : s.revokeAll rids = .ok t) : Revokes s t rids := by
  induction rids generalizing s with
  | nil =>
    cases h
    exact ⟨rfl, by simp, rfl, fun _ h => h, rfl⟩
  | cons rid rids ih =>
    obtain ⟨u, hu, hrest⟩ := bind_eq_ok h
    have hone := revoke_revokes hu
    have hall := ih hrest
    refine ⟨hall.threads.trans hone.threads, ?_, hall.operations.trans hone.operations,
      List.Subset.trans hall.revokeQueue hone.revokeQueue, hall.loose.trans hone.loose⟩
    rw [hall.ongoing, hone.ongoing, filter_filter]
    refine filter_congr fun x _ => ?_
    simp [Bool.and_comm]

/-- `_drain_storage_control_queues_impl` revokes prefetches and frees the slots on the queue. -/
theorem drain_revokes {numRevoke numRelease : Nat} (h : s.drain numRevoke numRelease = .ok t) :
    Revokes s t (s.prefetchRevokeQueue.take numRevoke) := by
  obtain ⟨u, hu, hrest⟩ := bind_eq_ok h
  cases hrest
  have hall := revokeAll_revokes hu
  refine ⟨hall.threads, hall.ongoing, hall.operations,
    fun rid hrid => mem_of_mem_drop (hall.revokeQueue hrid), Eq.trans ?_ hall.loose⟩
  rw [loose_freeHost]
  have hflat : ((u.hostMemReleaseQueue.flatten : List Nat) : Multiset Nat) =
      ((u.hostMemReleaseQueue.take numRelease).flatten : List Nat) +
        ((u.hostMemReleaseQueue.drop numRelease).flatten : List Nat) := by
    rw [coe_add, ← flatten_append, take_append_drop]
  simp only [loose]
  rw [hflat]
  abel

/-! ### Allocation -/

theorem alloc_some (ha : h.alloc n = .ok (some v, h')) :
    v ++ h'.freeSlots = h.freeSlots ∧ h'.pageSize = h.pageSize ∧ v.length ≤ n := by
  rw [HostPool.alloc] at ha
  split_ifs at ha with hmod hlen
  · cases ha
  · cases ha
    exact ⟨take_append_drop _ _, rfl, length_take_le _ _⟩

theorem alloc_none (ha : h.alloc n = .ok (none, h')) : h' = h ∧ h.freeSlots.length < n := by
  rw [HostPool.alloc] at ha
  split_ifs at ha with hmod hlen
  · cases ha
    exact ⟨rfl, hlen⟩
  · cases ha

theorem loose_alloc (hv : v ++ h.freeSlots = s.hostPool.freeSlots) :
    s.loose = ({ s with hostPool := h } : PrefetchState).loose + (v : Multiset Nat) := by
  simp only [loose]
  rw [← hv, ← coe_add]
  abel

theorem loose_evictHost (h : evicted.Subperm s.treeSlots) :
    (s.evictHost evicted).loose = s.loose := by
  have hperm : (s.treeSlots : Multiset Nat) =
      (s.treeSlots.diff evicted : List Nat) + (evicted : Multiset Nat) := by
    rw [add_comm]
    exact coe_eq_coe.mpr (subperm_append_diff_self_of_count_le
      fun x _ => h.count_le x).symm
  rw [evictHost, loose_freeHost]
  simp only [loose]
  rw [hperm]
  abel

/-- Slots move between the host pool, the tree and the caller. -/
structure Allocates (s t : PrefetchState) (v : List Nat) : Prop where
  same : t = { s with hostPool := t.hostPool, treeSlots := t.treeSlots }
  pageSize : t.hostPool.pageSize = s.hostPool.pageSize
  loose : s.loose = t.loose + (v : Multiset Nat)

theorem Allocates.threads (h : Allocates s t v) : t.threads = s.threads := by
  obtain ⟨hsame, hsize, -⟩ := h
  rw [hsame] at hsize ⊢
  exact congrArg (s.counter, s.prefetchQueue, s.prefetchThread, s.prefetchBuffer, s.ioThreads, ·)
    hsize

theorem Allocates.moves (h : Allocates s t v) (hs : s.Wf) : Moves s t v :=
  .of_loose hs h.threads (by rw [h.same]) (by rw [h.same]) h.loose

theorem evictHost_allocates (hev : evicted.Subperm s.treeSlots) :
    Allocates s (s.evictHost evicted) [] :=
  ⟨rfl, rfl, (loose_evictHost hev).symm.trans (add_zero _).symm⟩

theorem writeBackup_allocates (h : s.writeBackup numTokens = .ok t) : Allocates s t [] := by
  obtain ⟨⟨r, h'⟩, ha, hr⟩ := bind_eq_ok h
  cases r with
  | none =>
    cases hr
    exact ⟨rfl, rfl, (add_zero _).symm⟩
  | some v =>
    cases hr
    obtain ⟨hv, hsize, -⟩ := alloc_some ha
    refine ⟨rfl, hsize, ?_⟩
    rw [loose_addTree, ← loose_alloc hv]
    exact (add_zero _).symm

theorem allocPrefetch_allocates {r : Option (List Nat)} (hev : evicted.Subperm s.treeSlots)
    (h : s.allocPrefetch p n evicted = .ok (r, t)) :
    Allocates s t (r.getD []) ∧ ∀ v, r = some v → v.length ≤ n := by
  have hgive : ∀ {u : PrefetchState} {k : Nat} {v : List Nat} {h' : HostPool},
      Allocates s u [] → k ≤ n → u.hostPool.alloc k = .ok (some v, h') →
      Allocates s { u with hostPool := h' } v ∧ ∀ w, some v = some w → w.length ≤ n := by
    intro u k v h' hu hk ha
    obtain ⟨hv, hsize, hlen⟩ := alloc_some ha
    refine ⟨⟨by rw [hu.same], hsize.trans hu.pageSize, ?_⟩,
      fun w hw => Option.some.inj hw ▸ hlen.trans hk⟩
    rw [hu.loose, coe_nil, add_zero, loose_alloc hv]
  have hevict := evictHost_allocates hev
  obtain ⟨⟨r1, h1⟩, ha1, hrest1⟩ := bind_eq_ok h
  cases r1 with
  | some v =>
    cases hrest1
    exact hgive ⟨rfl, rfl, (add_zero _).symm⟩ (le_refl _) ha1
  | none =>
    obtain ⟨⟨r2, h2⟩, ha2, hrest2⟩ := bind_eq_ok hrest1
    cases r2 with
    | some v =>
      cases hrest2
      exact hgive hevict (le_refl _) ha2
    | none =>
      dsimp only at hrest2
      split_ifs at hrest2 with hlen
      · obtain ⟨⟨r3, h3⟩, ha3, hrest3⟩ := bind_eq_ok hrest2
        cases hrest3
        cases r3 with
        | none =>
          rw [(alloc_none ha3).1]
          exact ⟨hevict, fun w hw => by cases hw⟩
        | some v =>
          exact hgive hevict ((Nat.sub_le _ _).trans (alloc_none ha2).2.le) ha3
      · cases hrest2
        exact ⟨hevict, fun w hw => by cases hw⟩

section Register

variable (s rid) (node : NodeId) (keyLen : Nat) (v : List Nat)

theorem registerPrefetch_new :
    (s.registerPrefetch rid node keyLen v).operations s.counter =
      ⟨rid, v, keyLen, 0, 0, false⟩ := update_self _ _ _

theorem registerPrefetch_of_ne {o : OpId} (ho : o ≠ s.counter) :
    (s.registerPrefetch rid node keyLen v).operations o = s.operations o :=
  update_of_ne ho _ _

theorem registerPrefetch_old {o : OpId} (ho : o < s.counter) :
    (s.registerPrefetch rid node keyLen v).operations o = s.operations o :=
  registerPrefetch_of_ne s rid node keyLen v (Nat.ne_of_lt ho)

theorem mem_registerPrefetch {x : Nat × OngoingPrefetch}
    (hx : x ∈ (s.registerPrefetch rid node keyLen v).ongoingPrefetch) :
    x = (rid, ⟨node, keyLen, v, s.counter⟩) ∨ x ∈ s.ongoingPrefetch ∧ x.1 ≠ rid := by
  rcases mem_cons.mp hx with rfl | hx
  · exact .inl rfl
  · exact .inr ⟨mem_of_mem_filter hx, by simpa using of_mem_filter hx⟩

theorem stages_registerPrefetch :
    (s.registerPrefetch rid node keyLen v).stages = {(s.counter, .queued)} + s.stages := by
  simp only [stages, registerPrefetch, setOccupied, map_append, map_cons, map_nil,
    ← coe_add, Multiset.coe_singleton]
  abel

theorem mem_stages_registerPrefetch (hs : s.Wf) {z : OpId × Stage}
    (hz : z ∈ (s.registerPrefetch rid node keyLen v).stages) :
    z = (s.counter, .queued) ∨ z ∈ s.stages ∧ z.1 < s.counter ∧
      (s.registerPrefetch rid node keyLen v).operations z.1 = s.operations z.1 := by
  rw [stages_registerPrefetch, Multiset.mem_add, Multiset.mem_singleton] at hz
  exact hz.imp id fun hz =>
    ⟨hz, hs.live_lt z hz, registerPrefetch_old s rid node keyLen v (hs.live_lt z hz)⟩

theorem registerPrefetch_wf (hs : s.Wf) : (s.registerPrefetch rid node keyLen v).Wf where
  keys := by
    refine nodup_cons.mpr ⟨fun hmem => ?_, hs.keys.sublist (filter_sublist.map _)⟩
    obtain ⟨x, hx, hrid⟩ := mem_map.mp hmem
    exact (by simpa using of_mem_filter hx : x.1 ≠ rid) hrid
  entries := by
    refine nodup_cons.mpr ⟨fun hmem => ?_, hs.entries.sublist (filter_sublist.map _)⟩
    obtain ⟨x, hx, hop⟩ := mem_map.mp hmem
    exact Nat.ne_of_lt (hs.entry_lt x (mem_of_mem_filter hx)) hop
  entry_lt := fun x hx => by
    rcases mem_registerPrefetch s rid node keyLen v hx with rfl | ⟨hx, -⟩
    · exact Nat.lt_succ_self _
    · exact Nat.lt_succ_of_lt (hs.entry_lt x hx)
  entry_prefix := fun x hx => by
    rcases mem_registerPrefetch s rid node keyLen v hx with rfl | ⟨hx, -⟩
    · rw [registerPrefetch_new]
    · rw [registerPrefetch_old s rid node keyLen v (hs.entry_lt x hx)]
      exact hs.entry_prefix x hx
  live := by
    rw [stages_registerPrefetch, map_add, Multiset.map_singleton, singleton_add,
      Multiset.nodup_cons]
    refine ⟨fun hmem => ?_, hs.live⟩
    obtain ⟨z, hz, hlt⟩ := mem_map.mp hmem
    exact Nat.ne_of_lt (hs.live_lt z hz) hlt
  live_lt := fun z hz => by
    rcases mem_stages_registerPrefetch s rid node keyLen v hs hz with rfl | ⟨-, hlt, -⟩
    · exact Nat.lt_succ_self _
    · exact Nat.lt_succ_of_lt hlt
  waiting := fun z hz hw => by
    rcases mem_stages_registerPrefetch s rid node keyLen v hs hz with rfl | ⟨hz, -, hop⟩
    · rw [registerPrefetch_new]
    · rw [hop]
      exact hs.waiting z hz hw
  completed_le := fun o => by
    by_cases ho : o = s.counter
    · rw [ho, registerPrefetch_new]
      exact Nat.zero_le _
    · rw [registerPrefetch_of_ne s rid node keyLen v ho]
      exact hs.completed_le o

theorem registerPrefetch_places (hs : s.Wf) :
    ∃ d, s.places + (v : Multiset Nat) = (s.registerPrefetch rid node keyLen v).places + d ∧
      (s.find rid = none → d = 0) := by
  refine ⟨((s.ongoingPrefetch.filter fun x => x.1 = rid).map fun x =>
    doneSlots s.operations x.2).sum, ?_, fun hnone => ?_⟩
  · have hnew : slotsOf (s.registerPrefetch rid node keyLen v).operations
        {(s.counter, Stage.queued)} = v := by
      rw [slotsOf_singleton, registerPrefetch_new]
      rfl
    have hold : slotsOf (s.registerPrefetch rid node keyLen v).operations s.stages =
        slotsOf s.operations s.stages := slotsOf_congr fun z hz => by
      rw [registerPrefetch_old s rid node keyLen v (hs.live_lt z hz)]
      exact ⟨rfl, rfl⟩
    have hdone : (s.registerPrefetch rid node keyLen v).doneSum =
        ((s.ongoingPrefetch.filter fun x => x.1 ≠ rid).map fun x =>
          doneSlots s.operations x.2).sum := by
      show (map _ ((rid, _) :: s.ongoingPrefetch.filter fun x => x.1 ≠ rid)).sum = _
      rw [map_cons, sum_cons, doneSlots, registerPrefetch_new, take_zero, coe_nil,
        zero_add]
      refine congrArg sum (map_congr_left fun x hx => ?_)
      rw [doneSlots, registerPrefetch_old s rid node keyLen v
        (hs.entry_lt x (mem_of_mem_filter hx)), doneSlots]
    have hsum := sum_filter_add (fun x : Nat × OngoingPrefetch => x.1 = rid) s.ongoingPrefetch
      fun x => doneSlots s.operations x.2
    rw [places_eq, places_eq, stages_registerPrefetch, slotsOf_add, hnew, hold, hdone, doneSum,
      hsum]
    show s.loose + _ + _ + _ = s.loose + _ + _ + _
    abel
  · have hnil : (s.ongoingPrefetch.filter fun x => x.1 = rid) = [] := by
      rw [filter_eq_nil_iff]
      intro x hx
      simpa using ne_of_lookup_none hnone hx
    rw [hnil]
    rfl

end Register

/-- `prefetch_from_storage` does nothing, finds too few slots, or registers a prefetch. -/
theorem prefetchFromStorage_cases {node : NodeId} (hev : evicted.Subperm s.treeSlots)
    (h : s.prefetchFromStorage p rid node numTokens evicted = .ok t) :
    t = s ∨ ∃ u v, Allocates (s.protectHost node) u v ∧ (v = [] ∧ u.releaseHost node = .ok t ∨
      v.length ≤ numTokens / p.pageSize * p.pageSize ∧
        t = u.registerPrefetch rid node (numTokens / p.pageSize * p.pageSize) v) := by
  rw [prefetchFromStorage] at h
  split_ifs at h with hskip
  · cases h
    exact .inl rfl
  · obtain ⟨⟨r, u⟩, halloc, hrest⟩ := bind_eq_ok h
    obtain ⟨hu, hlen⟩ := allocPrefetch_allocates (s := s.protectHost node) hev halloc
    cases r with
    | none => exact .inr ⟨u, [], hu, .inl ⟨rfl, hrest⟩⟩
    | some v =>
      cases hrest
      exact .inr ⟨u, v, hu, .inr ⟨hlen v rfl, rfl⟩⟩

theorem prefetchFromStorage_moves (hs : s.Wf) {node : NodeId} (hev : evicted.Subperm s.treeSlots)
    (h : s.prefetchFromStorage p rid node numTokens evicted = .ok t) :
    ∃ d, Moves s t d ∧ (s.find rid = none → d = 0) := by
  have hprotect : (s.protectHost node).Wf := hs.same rfl rfl rfl rfl
  rcases prefetchFromStorage_cases hev h with rfl | ⟨u, v, hu, ⟨rfl, hrelease⟩ | ⟨-, rfl⟩⟩
  · exact ⟨0, Moves.refl hs, fun _ => rfl⟩
  · have hmove := hu.moves hprotect
    cases releaseHost_eq_ok hrelease
    exact ⟨0, ⟨hmove.wf.same rfl rfl rfl rfl, hmove.places⟩, fun _ => rfl⟩
  · have hmove := hu.moves hprotect
    obtain ⟨d, hplaces, hd⟩ := registerPrefetch_places u rid node
      (numTokens / p.pageSize * p.pageSize) v hmove.wf
    refine ⟨d, ⟨registerPrefetch_wf u rid node _ v hmove.wf, hmove.places.trans hplaces⟩,
      fun hnone => hd ?_⟩
    rw [hu.same]
    exact hnone

end Scheduler

/-! ## Any step -/

/-- What a step drops, when it drops anything. -/
def KeepsAll (p : PrefetchParams) (s : PrefetchState) : PrefetchAction → Prop
  | .prefetch rid _ _ _ => s.find rid = none
  | .drain _ _ => ∀ rid ∈ s.prefetchRevokeQueue, ∀ e ∈ s.find rid,
      (s.operations e.operation).completedTokens = 0
  | .transferPages _ o _ _ pages =>
      (s.operations o).completedTokens + pages * p.pageSize ≤
          (s.operations o).hostIndices.length ∧
        ((s.operations o).terminated = true ∨ s.Registered o)
  | _ => True

/-- A step other than a reset moves slots between the places. It drops slots only when a
registered prefetch is replaced or revoked, or when no one waits for the pages that arrive. -/
theorem step_moves {p : PrefetchParams} {size : Nat} {s t : PrefetchState} {a : PrefetchAction}
    (hs : s.Wf) (hen : s.Enabled p a) (ha : a ≠ .reset) (h : s.step p size a = .ok t) :
    ∃ d, Moves s t d ∧ (s.KeepsAll p a → d = 0) := by
  -- a thread other than one that transfers pages loses no slot
  have hadvances : ∀ {t}, Advances p s t → ∃ d, Moves s t d ∧ (s.KeepsAll p a → d = 0) :=
    fun h => ⟨0, h.moves hs, fun _ => rfl⟩
  cases a with
  | prefetch rid node numTokens evicted => exact prefetchFromStorage_moves hs hen h
  | check rid timedOut othersCan othersTerminated minCompleted matched =>
    rcases checkPrefetchProgress_finishes hen.1 hen.2 h with rfl | ⟨e, hfind, hfin⟩
    · exact ⟨0, Moves.refl hs, fun _ => rfl⟩
    · exact ⟨0, hfin.moves hs hfind, fun _ => rfl⟩
  | terminate rid =>
    cases h
    refine ⟨0, ?_, fun _ => rfl⟩
    rw [terminatePrefetch]
    cases s.find rid with
    | none => exact Moves.refl hs
    | some e => exact markTerminate_moves hs _
  | abort rid =>
    cases hfind : s.find rid with
    | none =>
      rw [step, releaseAbortedRequest, hfind] at h
      cases h
      exact ⟨0, Moves.refl hs, fun _ => rfl⟩
    | some e => exact ⟨0, (releaseAbortedRequest_finishes hfind h).moves hs hfind, fun _ => rfl⟩
  | drain numRevoke numRelease =>
    refine ⟨_, (drain_revokes h).moves hs, fun hzero => ?_⟩
    refine sum_eq_zero fun d hd => ?_
    obtain ⟨x, hx, rfl⟩ := mem_map.mp hd
    obtain ⟨hx, hrid⟩ := mem_filter.mp hx
    rw [doneSlots, hzero x.1 (mem_of_mem_take (of_decide_eq_true hrid)) x.2
      (lookup_of_mem hs.keys hx)]
    rfl
  | writeBackup numTokens => exact ⟨0, (writeBackup_allocates h).moves hs, fun _ => rfl⟩
  | evictHost evicted =>
    cases h
    exact ⟨0, (evictHost_allocates hen).moves hs, fun _ => rfl⟩
  | reset => exact absurd rfl ha
  | takePrefetch =>
    cases h
    exact hadvances (takePrefetch_advances hen)
  | answerQuery o hitPages =>
    cases h
    exact hadvances (answerQuery_advances hen.1 hen.2)
  | finishQuery =>
    cases h
    exact hadvances finishQuery_advances
  | takeTransfer i =>
    cases h
    exact hadvances (takeTransfer_advances hen)
  | transferPages i o first prevCompleted pages =>
    cases h
    rcases transferPages_passes hen.1 hen.2 with hsame | ⟨f, y, l, hpass, hroom⟩
    · rw [hsame]
      exact ⟨0, Moves.refl hs, fun _ => rfl⟩
    · obtain ⟨d, hmove, -, hd⟩ := hpass.moves hs
      refine ⟨d, hmove, fun hkeep => ?_⟩
      obtain ⟨hterm, hy⟩ := hroom hkeep.1
      exact hd hy (hkeep.2.resolve_left hterm)
  | finishBatch i o first prevCompleted =>
    cases h
    exact hadvances (finishBatch_advances hen)
  | releaseRest i o =>
    cases h
    exact hadvances (releaseRest_advances hen)

end PrefetchState

end Fluxfer.Storage
