import Fluxfer.Sched.Trace

/-!
# Runs of the scheduler

What holds in every state that a run reaches, for runs in which requests arrive, are aborted, the
engine is paused and resumed and the cache is flushed between any two iterations.
-/

namespace Fluxfer.Sched

open Scheduler List Option Req

variable {p : Params} {paused : Prop} {s : Scheduler} {e : Event} {C : Scheduler → Event → Prop}
  {b : BatchId} {r : ReqId}

theorem between_initial (p : Params) (paused : Prop) : Between p paused initial where
  wf := ⟨by decide, fun b hb => by simp [initial] at hb,
    fun b hb => by simp [initial] at hb⟩
  cur := rfl
  last b hb := by simp [initial] at hb
  one r := by simp [places, lastMerging, mergingOf, initial, running, ScheduleBatch.empty, parked]
  known r hr := by simp [places, lastMerging, mergingOf, initial, running, ScheduleBatch.empty,
    parked] at hr
  free := ⟨fun r hr => by simp [initial] at hr,
    fun r hr => by simp [initial] at hr⟩
  loads := .refl _
  pending b hb := by simp [initial] at hb
  formed := rfl
  nodup := nodup_nil
  formed_lt e he := by simp [initial] at he
  scheduled h := by simp [initial] at h
  queue := by
    split <;> rfl

theorem Between.pause (h : Between p paused s) (x : Bool) :
    Between p paused { s with enginePaused := x } :=
  h.of_moves rfl (.of_eq (fun _ => rfl) (fun _ hf => hf) (fun _ hr => hr) rfl id)

theorem handle_between (h : Between p paused s) (valid : e.Valid s)
    (hp : ∀ c, e = .pause .retract c → paused) : Between p paused (s.handle p e) := by
  cases e with
  | receive r rid only g => exact (receive_spec h valid rid only g).1
  | abort a => exact (abortRequest_spec h a).1
  | resume => exact h.pause false
  | flush idle => exact (flushCache_spec h idle).1
  | iterate c => exact (iterate_spec h c).1
  | pause mode c =>
    cases mode with
    | abort => exact absurd rfl valid
    | inPlace => exact h.pause true
    | retract =>
      have hs := settleLastBatch_spec (h.pause true) c
      change Between p paused (s.pauseGeneration p c .retract)
      rw [pauseGeneration_retract]
      split
      case isTrue hempty =>
        exact (settled_between (h.pause true) hs (isEmpty_iff.mp hempty)).1
      case isFalse =>
        obtain ⟨w, rep, ht⟩ := retractRunning_spec p
          (({ s with enginePaused := true } : Scheduler).settleLastBatch p c)
        obtain rfl : paused = True := eq_true (hp c rfl)
        exact retracted_between (h.pause true) hs ht

theorem Run.between (h : Run p C s) : Between p True s := by
  induction h with
  | start => exact between_initial p True
  | step run e valid allowed ih => exact handle_between ih valid fun _ _ => trivial

theorem Run.between_false (hC : ∀ s e, C s e → ∀ c, e ≠ .pause .retract c) (h : Run p C s) :
    Between p False s := by
  induction h with
  | start => exact between_initial p False
  | step run e valid allowed ih => exact handle_between ih valid fun c he => hC _ e allowed c he

/-! ## Coverage -/

/-- An event loses no request: a pause in retract mode finds an unfinished chunked request in the
batch that ran last, and an iteration that preempts requests runs others, so that the preempted ones
are queued again. -/
def KeepsRequests (p : Params) (s : Scheduler) (e : Event) : Prop :=
  (∀ c, e = .pause .retract c → ChunkRanLast s) ∧ (s.handle p e).dropped = s.dropped

theorem handle_covered (h : Between p True s) (hc : Covered s) (valid : e.Valid s)
    (hk : ∀ c, e = .pause .retract c → ChunkRanLast s) : Covered (s.handle p e) := by
  cases e with
  | receive r rid only g => exact (receive_spec h valid rid only g).2 hc
  | abort a => exact (abortRequest_spec h a).2 hc
  | resume => exact hc
  | flush idle => exact (flushCache_spec h idle).2 hc
  | iterate c => exact (iterate_spec h c).2.covered hc
  | pause mode c =>
    cases mode with
    | abort => exact absurd rfl valid
    | inPlace => exact hc
    | retract =>
      have hs := settleLastBatch_spec (h.pause true) c
      change Covered (s.pauseGeneration p c .retract)
      rw [pauseGeneration_retract]
      split
      case isTrue hempty =>
        have hm := (settled_between (h.pause true) hs (isEmpty_iff.mp hempty)).2
        have hlast : (({ s with enginePaused := true } : Scheduler).settleLastBatch p c).lastMerging
            = [] := by
          rfl
        exact hm.covered hc
      case isFalse =>
        obtain ⟨w, rep, ht⟩ := retractRunning_spec p
          (({ s with enginePaused := true } : Scheduler).settleLastBatch p c)
        exact retracted_covered (s := { s with enginePaused := true }) hc hs ht (hk c rfl)

theorem Run.covered (h : Run p (KeepsRequests p) s) : Covered s ∧ s.dropped = [] := by
  induction h with
  | start => exact ⟨fun r hr => absurd hr (by simp [initial]), rfl⟩
  | step run e valid allowed ih =>
    exact ⟨handle_covered run.between ih.1 valid allowed.1, allowed.2.trans ih.2⟩

/-- A request is alive: it was received, has not finished and was not answered with an abort. -/
structure Alive (s : Scheduler) (r : ReqId) : Prop where
  arrived : r ∈ s.arrived
  unfinished : (s.reqs r).finished = false
  unanswered : r ∉ s.replied

theorem Alive.placed {l : List ReqId} (ha : Alive s r) (hc : CoveredBy s l) (hd : s.dropped = []) :
    0 < s.places l r := by
  rcases hc r ha.arrived with hf | hrep | hpos
  · exact absurd (ha.unfinished.symm.trans hf) (by decide)
  · refine absurd hrep (not_or.mpr ⟨ha.unanswered, ?_⟩)
    rw [hd]
    exact not_mem_nil
  · exact hpos

/-! ## Publication -/

/-- An iteration does not start by stashing a chunk while a prefill batch is put aside. -/
def StashesReturned (s : Scheduler) (e : Event) : Prop :=
  ∀ c, e = .iterate c → s.stashed = none ∨ s.hybridBubblePendingPrefillBatch = none

theorem handle_tracked (h : Between p True s) (ht : Tracked p s) (valid : e.Valid s) :
    Tracked p (s.handle p e) ∧
      (StashesReturned s e → PublishedReturned s → PublishedReturned (s.handle p e)) := by
  cases e with
  | receive r rid only g =>
    obtain ⟨w, x, rep, he, -⟩ := receive_eq p s r (new rid only) g
    refine ⟨receive_tracked h ht valid _ g, fun _ hp b hb => ?_⟩
    change b ∈ (s.receive p r (new rid only) g).returned
    change b ∈ (s.receive p r (new rid only) g).published at hb
    rw [he] at hb ⊢
    exact hp b hb
  | abort a => exact ⟨abortRequest_tracked ht a, fun _ hp => hp⟩
  | resume => exact ⟨⟨ht.1, ht.2, ht.3⟩, fun _ hp => hp⟩
  | flush idle =>
    refine ⟨flushCache_tracked ht idle, fun _ hp => ?_⟩
    change PublishedReturned (s.flushCache p idle)
    unfold flushCache
    split
    · exact hp
    · exact hp
  | iterate c =>
    obtain ⟨h1, h2⟩ := iterate_tracked h ht c
    exact ⟨h1, fun hs hp => h2 (hs c rfl) hp⟩
  | pause mode c =>
    cases mode with
    | abort => exact absurd rfl valid
    | inPlace => exact ⟨⟨ht.1, ht.2, ht.3⟩, fun _ hp => hp⟩
    | retract =>
      have ht' : Tracked p { s with enginePaused := true } := ⟨ht.1, ht.2, ht.3⟩
      have hs := settleLastBatch_spec (h.pause true) c
      obtain ⟨h1, h2⟩ := settleLastBatch_tracked (h.pause true) ht' c
      change Tracked p (s.pauseGeneration p c .retract) ∧
        (_ → _ → PublishedReturned (s.pauseGeneration p c .retract))
      rw [pauseGeneration_retract]
      split
      case isTrue => exact ⟨h1, fun _ hp => h2 hp⟩
      case isFalse =>
        obtain ⟨w, rep, hr⟩ := retractRunning_spec p
          (({ s with enginePaused := true } : Scheduler).settleLastBatch p c)
        refine ⟨retracted_tracked (h.pause true) hs h1 hr, fun _ hp b hb => ?_⟩
        rw [hr.eq] at hb ⊢
        exact h2 hp b hb

theorem Run.tracked (h : Run p C s) : Tracked p s := by
  induction h with
  | start =>
    exact ⟨fun b hb => by simp [initial] at hb,
      fun b hb => by simp [initial] at hb,
      fun b hb => by simp [initial] at hb⟩
  | step run e valid allowed ih => exact (handle_tracked run.between ih valid).1

theorem Run.publishedReturned (h : Run p StashesReturned s) : PublishedReturned s := by
  induction h with
  | start => exact fun b hb => by simp [initial] at hb
  | step run e valid allowed ih => exact (handle_tracked run.between run.tracked valid).2 allowed ih

/-! ## Fixed runs

Requests `0` and `1` arrive, and request `1` is admitted in chunks. -/

/-- Nothing times out or fails, every waiting request is admitted whole and nothing is loaded. -/
def quietChoices : Choices :=
  { waitingTimeout := fun _ => false, runningTimeout := fun _ => false
    grammarReady := fun _ => false, grammarFailed := fun _ => false, finishedLoads := 0
    noAllocatableReqs := false, priority := fun _ => 0, chunkFits := true, chunkTruncated := true
    addReq := fun _ => .add, runningIsFull := false, loads := [], preloadPages := fun _ => 1
    preempts := [], mixable := false, preloadFinished := false, retract := none, stops := fun _ => false
    disableConsecutivePrefillOverlap := false, needGrammarSync := false }

/-- The normal loop with bubble filling. -/
def bubbleParams : Params :=
  { enableOverlap := false, isHybridSwa := false, isMixedChunk := false, bubbleFilling := true
    maxQueuedRequests := none, enablePriorityPreemption := false }

/-- A list of events that is allowed from a state. -/
def Allowed (p : Params) (C : Scheduler → Event → Prop) : Scheduler → List Event → Prop
  | _, [] => True
  | s, e :: es => e.Valid s ∧ C s e ∧ Allowed p C (s.handle p e) es

theorem Run.foldl (h : Run p C s) {es : List Event} (hes : Allowed p C s es) :
    Run p C (es.foldl (handle p) s) := by
  induction es generalizing s with
  | nil => exact h
  | cons e es ih => exact ih (h.step e hes.1 hes.2.1) hes.2.2

/-! ## Conservation of prefill batches -/

/-- Neither an abort nor a pause. -/
def Undisturbed (_ : Scheduler) : Event → Prop
  | .abort _ => False
  | .pause _ _ => False
  | _ => True

theorem mem_running_mergeLastBatch (hl : s.lastBatch = some b)
    (hext : (s.batches b).isExtend = true) (hne : b ≠ s.runningBatch)
    (hr : r ∈ (s.batches b).merging) (hf : (s.reqs r).finished = false) (hs : s.chunkedReq ≠ some r) :
    r ∈ s.mergeLastBatch.running.reqs := by
  obtain ⟨hr, hc⟩ := mem_filter.mp hr
  have hc : (s.batches b).chunkedReq ≠ some r := by simpa using hc
  simp only [mergeLastBatch, hl, hext, if_true]
  set t := s.filterBatch b (s.chunkedReq.toList ++ (s.batches b).chunkedReq.toList) with ht
  have hmem : r ∈ ((t.noteShrunk b (s.batches b).reqs.length).batches b).reqs := by
    rw [t.noteShrunk_batches (s.batches b).reqs.length hne, ht]
    simp only [filterBatch, setBatch, Function.update_self]
    refine mem_filter.mpr ⟨hr, ?_⟩
    simp [hf, hs, hc]
  refine count_pos_iff.mp ?_
  rw [count_running_takeOver]
  have := count_pos_iff.mpr hmem
  omega

theorem mem_running_filterPrefillOnly (hr : r ∈ s.running.reqs) (hf : (s.reqs r).finished = false) :
    r ∈ s.filterPrefillOnly.running.reqs := by
  have hkeep : r ∈ (s.filterBatch s.runningBatch []).running.reqs := by
    change r ∈ (s.setRunning _).running.reqs
    rw [running_setRunning]
    exact mem_filter.mpr ⟨hr, by simp [hf]⟩
  unfold filterPrefillOnly
  split
  · simp only
    split
    · rw [running_setRunning]
      exact hkeep
    · exact hkeep
  · exact hr

/-- After a prefill batch has run, the next call finds each of its requests finished, in the running
batch or in the chunked slot, and nowhere twice. -/
theorem merged_once (h : Between p False s) (c : Choices) (hl : s.lastBatch = some b)
    (hext : (s.batches b).isExtend = true) (hr : r ∈ (s.batches b).reqs) :
    (s.reqs r).finished = true ∨
      ((s.beginIteration c).places [] r = 1 ∧ (s.beginIteration c).running.reqs.count r +
        (s.beginIteration c).chunkedReq.toList.count r = 1) := by
  obtain ⟨-, hf, hm⟩ := beginIteration_spec c h.wf h.lastApart h.one
  have hone := hm.one h.one r
  have honce : 1 ≤ (s.beginIteration c).running.reqs.count r +
        (s.beginIteration c).chunkedReq.toList.count r →
      (s.beginIteration c).places [] r = 1 ∧ (s.beginIteration c).running.reqs.count r +
        (s.beginIteration c).chunkedReq.toList.count r = 1 := by
    intro h1
    rw [places] at hone ⊢
    omega
  rcases h.last b hl with ⟨-, -, hne, -, -, hk⟩ | ⟨rfl, hmode⟩
  · by_cases hfin : (s.reqs r).finished = true
    · exact .inl hfin
    · refine .inr (honce ?_)
      rcases mem_merging_or hr with hc | hmem
      · -- The chunked request of the batch keeps the slot.
        have hslot : s.chunkedReq = some r := (hk r hc).2.2.resolve_right fun h => h.1
        rw [hf.chunkedReq, count_toList, if_pos hslot]
        omega
      · have hslot : s.chunkedReq ≠ some r := by
          intro hs
          have h1 := h.one r
          have h2 : s.lastMerging = (s.batches b).merging := by
            simp only [lastMerging, mergingOf, hl, hext, if_true]
          have h3 := count_pos_iff.mpr hmem
          rw [places, h2, count_toList, if_pos hs] at h1
          omega
        have hmark : ∀ q : Req, { q with toFinish := true }.finished = q.finished := fun _ => rfl
        set u := ((s.abortOnWaitingTimeout c).abortOnRunningTimeout c).stashChunkedRequest
        have hfu : ∀ a, (u.reqs a).finished = (s.reqs a).finished := fun a =>
          (s.abortOnWaitingTimeout c).setReqs_field _ (fun q => { q with toFinish := true })
            finished hmark a
        have hmem' : r ∈ u.mergeLastBatch.running.reqs :=
          mem_running_mergeLastBatch hl hext hne hmem
            ((hfu r).trans (by simpa using hfin)) hslot
        have hreqs : u.mergeLastBatch.reqs r = u.reqs r := by rw [(mergeLastBatch_same u).1]
        have : r ∈ (s.beginIteration c).running.reqs :=
          mem_running_filterPrefillOnly hmem' (by rw [hreqs, hfu]; simpa using hfin)
        have := count_pos_iff.mpr this
        omega
  · exact (decode_ne_extend hmode hext).elim

/-- Every prefill batch that was formed is handed out once or is put aside, the one put aside waits
only for its preload while the running batch decodes and keeps others from being formed, and its
requests are found once after it has run. -/
theorem prefill_batches_conserved {p : Params} {s : Scheduler} (h : Run p Undisturbed s) :
    (s.formed.map Prod.fst).Nodup ∧
      s.formed.map Prod.fst = s.hybridBubblePendingPrefillBatch.toList ++ s.returned ∧
      (∀ c b, s.hybridBubblePendingPrefillBatch = some b →
        Resumes p c s (s.getNextBatchToRun p c).1 (s.getNextBatchToRun p c).2 b) ∧
      (∀ c b, (s.getNextBatchToRun p c).2 = some b →
        ((s.getNextBatchToRun p c).1.batches b).isExtend = true →
          (s.getNextBatchToRun p c).1.returned = b :: s.returned ∧ b ∉ s.returned) ∧
      ∀ c b, s.lastBatch = some b → (s.batches b).isExtend = true → ∀ r ∈ (s.batches b).reqs,
        (s.reqs r).finished = true ∨
          ((s.beginIteration c).places [] r = 1 ∧ (s.beginIteration c).running.reqs.count r +
            (s.beginIteration c).chunkedReq.toList.count r = 1) := by
  have hb : Between p False s := h.between_false fun _ e he c hc => by
    subst hc
    exact he
  refine ⟨hb.nodup, hb.formed, fun c b hp => (getNextBatchToRun_spec hb c).2 b hp,
    fun c b hret hext => ?_, fun c b hl hext r hr => merged_once hb c hl hext hr⟩
  obtain ⟨hc, -⟩ := getNextBatchToRun_spec hb c
  rcases hc.ret b hret with ⟨-, -, -, hn, hr, -⟩ | ⟨rfl, hmode, -⟩
  · have hnodup := hc.nodup hb
    rw [hc.formed, hn, hr] at hnodup
    exact ⟨hr, (nodup_cons.mp hnodup).1⟩
  · exact (decode_ne_extend hmode hext).elim

/-- Request `0` decodes while the prefill batch with the first chunk of request `1` waits for its
preload. -/
def deferralEvents : List Event :=
  [.receive 0 ['a'] false false, .iterate quietChoices, .receive 1 ['b'] false false,
    .iterate { quietChoices with addReq := fun _ => .addChunk, loads := [7] }]

def deferral : Scheduler := deferralEvents.foldl (handle bubbleParams) .initial

theorem deferral_run (h : ∀ s e, Undisturbed s e → s.stashed = none →
    (s.handle bubbleParams e).dropped = s.dropped → C s e) : Run bubbleParams C deferral :=
  Run.start.foldl ⟨by simp [Event.Valid, initial], h _ _ trivial rfl rfl, trivial,
    h _ _ trivial (by decide) (by decide), show 1 ∉ _ by decide,
    h _ _ trivial (by decide) (by decide), trivial, h _ _ trivial (by decide) (by decide), trivial⟩

theorem deferral_keeps : Run bubbleParams (KeepsRequests bubbleParams) deferral :=
  deferral_run fun _ _ hu _ hd => ⟨fun _ he => by
    subst he
    exact hu.elim, hd⟩

theorem prefill_batches_conserved_deferral :
    Run bubbleParams Undisturbed deferral ∧
      deferral.formed.map Prod.fst =
        deferral.hybridBubblePendingPrefillBatch.toList ++ deferral.returned := by
  have h : Run bubbleParams Undisturbed deferral := deferral_run fun _ _ hu _ _ => hu
  exact ⟨h, (prefill_batches_conserved h).2.1⟩

/-! ## Publication of chunks -/

/-- A call stashes the chunked request only after the batch of its chunk was handed out. -/
def StashIsReturned (s : Scheduler) : Prop :=
  ∀ r, s.stashed = some r → ∃ b, s.lastFormed r = some b ∧ b ∈ s.returned

/-- In every state that a run reaches, the next call stashes a chunk that was handed out exactly if
it stashes nothing or no batch is put aside. If every iteration of a run starts from such a state,
nothing of a batch that is put aside is ever published. -/
theorem stash_returned_iff (p : Params) :
    (∀ C s, Run p C s →
      (StashIsReturned s ↔ s.stashed = none ∨ s.hybridBubblePendingPrefillBatch = none)) ∧
      ∀ s, Run p StashesReturned s → ∀ b ∈ s.published,
        b ∈ s.returned ∧ s.hybridBubblePendingPrefillBatch ≠ some b := by
  refine ⟨fun C s h => ⟨fun hs => ?_, fun hc r hr => ?_⟩, fun s h b hb => ?_⟩
  · cases hst : s.stashed with
    | none => exact .inl rfl
    | some r =>
      obtain ⟨d, hd, hret⟩ := hs r hst
      obtain ⟨d', hd', hiff⟩ := h.between.stashed_lastFormed hst
      obtain rfl := some.inj (hd.symm.trans hd')
      exact .inr (hiff.mp hret)
  · obtain ⟨d, hd, hiff⟩ := h.between.stashed_lastFormed hr
    refine ⟨d, hd, hiff.mpr (hc.resolve_left ?_)⟩
    rw [hr]
    simp
  · have hret := h.publishedReturned b hb
    refine ⟨hret, fun hp => ?_⟩
    have hnodup := h.between.nodup
    rw [h.between.formed, hp] at hnodup
    exact (nodup_cons.mp hnodup).1 hret

/-- Bubble filling puts the batch with the first chunk of request `1` aside, and the next call
stashes that chunk: its slots are in the tree while the batch still waits. -/
theorem stash_before_return :
    Run bubbleParams (fun _ _ => True) deferral ∧ ¬ StashIsReturned deferral ∧
      (deferral.iterate bubbleParams quietChoices).hybridBubblePendingPrefillBatch = some 2 ∧
      2 ∈ (deferral.iterate bubbleParams quietChoices).published ∧
      2 ∉ (deferral.iterate bubbleParams quietChoices).returned := by
  refine ⟨deferral_run fun _ _ _ _ _ => trivial, fun h => ?_,
    by decide, by decide, by decide⟩
  obtain ⟨b, hb, hret⟩ := h 1 (by decide)
  have : b = 2 := (some.inj ((by decide : deferral.lastFormed 1 = some 2).symm.trans hb)).symm
  subst this
  exact absurd hret (by decide)

theorem stash_returned_iff_deferral :
    (StashIsReturned deferral ↔
        deferral.stashed = none ∨ deferral.hybridBubblePendingPrefillBatch = none) ∧
      deferral.published = [1] ∧ ∀ b ∈ deferral.published,
        b ∈ deferral.returned ∧ deferral.hybridBubblePendingPrefillBatch ≠ some b := by
  have h : Run bubbleParams StashesReturned deferral :=
    deferral_run fun _ _ _ hs _ _ _ => .inl hs
  exact ⟨(stash_returned_iff bubbleParams).1 _ _ h, by decide,
    (stash_returned_iff bubbleParams).2 _ h⟩

/-! ## Aborting -/

/-- What an abort does to a request: it leaves the waiting queue with a reply, is marked by the
grammar manager, or gets an abort mark. -/
def AbortReaches (s : Scheduler) (a : AbortReq) (r : ReqId) : Prop :=
  (r ∈ s.waitingQueue ∧ r ∉ (s.abortRequest a).waitingQueue ∧ r ∈ (s.abortRequest a).replied) ∨
    (r ∈ s.grammarQueue ∧ ((s.abortRequest a).reqs r).toFinish = true) ∨
    ((s.abortRequest a).reqs r).toFinish = true

theorem abortRequest_toFinish (s : Scheduler) (a : AbortReq) (r : ReqId) :
    ((s.abortRequest a).reqs r).toFinish = true ↔ (s.reqs r).toFinish = true ∨
      (r ∈ s.grammarQueue ∧ a.hits (s.reqs r) = true) ∨
      (r ∈ s.abortable ∧ (s.reqs r).finished = false ∧ a.hits (s.reqs r) = true) := by
  simp only [abortRequest, setReqs]
  by_cases h1 : r ∈ s.abortable.filter fun r => !(s.reqs r).finished && a.hits (s.reqs r)
  · rw [if_pos h1]
    simp only [mem_filter, Bool.and_eq_true, Bool.not_eq_true'] at h1
    exact ⟨fun _ => .inr (.inr h1), fun _ => rfl⟩
  · rw [if_neg h1]
    simp only [mem_filter, Bool.and_eq_true, Bool.not_eq_true'] at h1
    split
    case isTrue h2 =>
      exact ⟨fun _ => .inr (.inl (mem_filter.mp h2)), fun _ => rfl⟩
    case isFalse h2 =>
      rw [mem_filter] at h2
      exact ⟨.inl, fun h => h.elim id fun h => (h.elim h2 h1).elim⟩

theorem Between.abortable (h : Between p paused s) (hr : r ∈ s.running.reqs ∨ r ∈ s.lastAll) :
    r ∈ s.abortable := by
  unfold Scheduler.abortable
  rw [h.cur]
  cases hl : s.lastBatch with
  | none =>
    refine hr.resolve_right fun hm => ?_
    simp [lastAll, hl] at hm
  | some b =>
    simp only [lastAll, hl] at hr
    simp only
    split
    case isTrue he =>
      rw [he] at hr
      exact hr.elim id id
    case isFalse => exact mem_append.mpr hr

theorem lastMerging_lastAll (hr : r ∈ s.lastMerging) : r ∈ s.lastAll :=
  lastReqs_lastAll (count_pos_iff.mp
    ((count_pos_iff.mpr hr).trans_le (count_lastMerging_le s r)))

/-- In every run that loses no request, an abort reaches every live request it is for exactly if
those among them that are put aside or in the chunked slot are also in the running or the current
batch, or marked already. -/
theorem abort_reaches_iff {p : Params} {s : Scheduler} (h : Run p (KeepsRequests p) s)
    (a : AbortReq) :
    (∀ r, Alive s r → a.hits (s.reqs r) = true → AbortReaches s a r) ↔
      ∀ r, (r ∈ s.parked ∨ s.chunkedReq = some r) → Alive s r → a.hits (s.reqs r) = true →
        r ∈ s.abortable ∨ (s.reqs r).toFinish = true := by
  have hb := h.between
  refine ⟨fun hall r hr halive hhit => ?_, fun hcond r halive hhit => ?_⟩
  · have hplace : s.waitingQueue.count r = 0 ∧ s.grammarQueue.count r = 0 := by
      have h1 := hb.one r
      rw [places, count_toList] at h1
      rcases hr with hr | hr
      · have := count_pos_iff.mpr hr
        omega
      · rw [if_pos hr] at h1
        omega
    have hg : r ∉ s.grammarQueue := count_eq_zero.mp hplace.2
    have hmark : ((s.abortRequest a).reqs r).toFinish = true := by
      rcases hall r halive hhit with ⟨hw, -⟩ | ⟨hg', -⟩ | hm
      · exact absurd hw (count_eq_zero.mp hplace.1)
      · exact absurd hg' hg
      · exact hm
    rcases (abortRequest_toFinish s a r).mp hmark with h1 | h1 | h1
    · exact .inr h1
    · exact absurd h1.1 hg
    · exact .inl h1.1
  · have hmark : r ∈ s.abortable → AbortReaches s a r := fun hr =>
      .inr (.inr ((abortRequest_toFinish s a r).mpr
        (.inr (.inr ⟨hr, halive.unfinished, hhit⟩))))
    have hheld : (r ∈ s.parked ∨ s.chunkedReq = some r) → AbortReaches s a r := by
      intro hr
      rcases hcond r hr halive hhit with h1 | h1
      · exact hmark h1
      · exact .inr (.inr ((abortRequest_toFinish s a r).mpr (.inl h1)))
    have hpos := halive.placed h.covered.1 h.covered.2
    by_cases hw : r ∈ s.waitingQueue
    · refine .inl ⟨hw, fun hmem => ?_, ?_⟩
      · have : (!a.hits (s.reqs r)) = true := (mem_filter.mp hmem).2
        rw [hhit] at this
        exact absurd this (by decide)
      · exact mem_append_right _ (mem_filter.mpr ⟨hw, hhit⟩)
    by_cases hg : r ∈ s.grammarQueue
    · exact .inr (.inl ⟨hg, (abortRequest_toFinish s a r).mpr (.inr (.inl ⟨hg, hhit⟩))⟩)
    by_cases hrun : r ∈ s.running.reqs
    · exact hmark (hb.abortable (.inl hrun))
    by_cases hlast : r ∈ s.lastMerging
    · exact hmark (hb.abortable (.inr (lastMerging_lastAll hlast)))
    by_cases hpark : r ∈ s.parked
    · exact hheld (.inl hpark)
    refine hheld (.inr ?_)
    rw [places, count_eq_zero.mpr hw, count_eq_zero.mpr hg, count_eq_zero.mpr hrun,
      count_eq_zero.mpr hlast, count_eq_zero.mpr hpark, count_toList] at hpos
    by_contra hs
    rw [if_neg hs] at hpos
    exact absurd hpos (by decide)

/-- Request `1` is only in the batch that was put aside and in the chunked slot. An abort of it
changes nothing about it. -/
theorem abort_misses_deferred :
    Run bubbleParams (KeepsRequests bubbleParams) deferral ∧ Alive deferral 1 ∧
      (⟨['b'], false⟩ : AbortReq).hits (deferral.reqs 1) = true ∧
      ¬ AbortReaches deferral ⟨['b'], false⟩ 1 := by
  refine ⟨deferral_keeps, ⟨by decide, by decide, by decide⟩, by decide, ?_⟩
  rintro (⟨h, -⟩ | ⟨h, -⟩ | h)
  · exact absurd h (by decide)
  · exact absurd h (by decide)
  · exact absurd h (by decide)

theorem abort_reaches_running :
    Run bubbleParams (KeepsRequests bubbleParams) deferral ∧
      ∀ r, Alive deferral r → (⟨['a'], false⟩ : AbortReq).hits (deferral.reqs r) = true →
        AbortReaches deferral ⟨['a'], false⟩ r := by
  refine ⟨deferral_keeps, (abort_reaches_iff deferral_keeps ⟨['a'], false⟩).mpr
    fun r hr _ hhit => ?_⟩
  -- Only request `1` is held, and the abort is not for it.
  have hr : r = 1 := by
    rcases hr with hr | hr
    · exact absurd hr (by rw [show deferral.parked = [] by decide]; exact not_mem_nil)
    · exact (some.inj ((show deferral.chunkedReq = some 1 by decide).symm.trans hr)).symm
  subst hr
  exact absurd hhit (by decide)

/-- A request is in one place at most, as long as it is alive in exactly one, and where it is queued
it holds no slot and no lock. -/
theorem alive_in_one_place {p : Params} {s : Scheduler} (h : Run p (KeepsRequests p) s)
    (r : ReqId) : s.places s.lastMerging r ≤ 1 ∧ (Alive s r → s.places s.lastMerging r = 1) ∧
      (r ∈ s.waitingQueue ∨ r ∈ s.grammarQueue → (s.reqs r).holds = false) := by
  have hb := h.between
  refine ⟨hb.one r, fun ha => le_antisymm (hb.one r) (ha.placed h.covered.1 h.covered.2), ?_⟩
  · rintro (hw | hg)
    · exact hb.free.1 r hw
    · exact hb.free.2 r hg

theorem alive_in_one_place_deferral : Alive deferral 1 ∧
    deferral.places deferral.lastMerging 1 = 1 := by
  have ha : Alive deferral 1 := ⟨by decide, by decide, by decide⟩
  exact ⟨ha, (alive_in_one_place deferral_keeps 1).2.1 ha⟩

/-! ## Pausing with retraction -/

/-- A request waits exactly once and owns neither slots nor locks. -/
structure WaitsOnce (s : Scheduler) (r : ReqId) : Prop where
  waiting : s.waitingQueue.count r = 1
  nowhere_else : s.places s.lastMerging r = 1
  free : (s.reqs r).holds = false

/-- A request is in a batch that the next call hands out after the engine is resumed. It was not
retracted and is not in the batch for a chunk only, so that the result is for it. -/
def StillScheduled (p : Params) (s : Scheduler) (r : ReqId) : Prop :=
  ∃ b, s.hybridBubblePendingPrefillBatch = some b ∧ r ∈ (s.batches b).merging ∧
    (s.reqs r).isRetracted = false ∧
    ∀ c, (s.continueGeneration.getNextBatchToRun p c).2 = some b

theorem getNextBatchToRun_of_idle (hw : Wf s) (hl : s.lastBatch = none) (hr : s.running.reqs = [])
    (hp : s.hybridBubblePendingPrefillBatch = some b) (c : Choices) :
    (s.getNextBatchToRun p c).2 = some b := by
  have hmerge : ∀ u : Scheduler, u.lastBatch = none → u.mergeLastBatch = u := by
    intro u hu
    simp only [mergeLastBatch, hu]
  set u := ((s.abortOnWaitingTimeout c).abortOnRunningTimeout c).stashChunkedRequest with hu
  have hbegin : s.beginIteration c = u.filterPrefillOnly := by
    rw [beginIteration, hmerge u hl]
  have hwu : Wf u := ⟨hw.1, hw.2, hw.3⟩
  obtain ⟨-, hf, -⟩ := filterPrefillOnly_spec hwu
  have hpend : (s.beginIteration c).hybridBubblePendingPrefillBatch = some b := by
    rw [hbegin, hf.pending]
    exact hp
  have hempty : (s.beginIteration c).running.isEmpty = true := by
    have hurun : u.running.reqs = [] := hr
    have hfilter : (u.filterBatch u.runningBatch []).running.reqs = [] := by
      change (u.setRunning _).running.reqs = []
      rw [running_setRunning]
      change u.running.reqs.filter _ = []
      rw [hurun, filter_nil]
    rw [hbegin, filterPrefillOnly, ScheduleBatch.isEmpty, List.isEmpty_iff]
    split
    · simp only
      split
      · rw [running_setRunning]
        exact hfilter
      · exact hfilter
    · exact hurun
  rw [getNextBatchToRun, prefillBatch, hpend]
  simp only [chooseBatch]
  split
  · rw [getDecodeBatch, if_pos (by rw [hempty]; rfl)]
  · rfl

theorem Between.lastAll_cases (h : Between p paused s) (hr : r ∈ s.lastAll) :
    r ∈ s.lastReqs ∨ r ∈ s.running.reqs := by
  unfold lastAll at hr
  cases hl : s.lastBatch with
  | none => simp [hl] at hr
  | some b =>
    rw [hl] at hr
    rcases h.last b hl with ⟨hext, -⟩ | ⟨rfl, -⟩
    · refine .inl ?_
      simp only [lastReqs, hl, hext]
      exact hr
    · exact .inr hr

/-- In every run that loses no request, a pause in retract mode that finds something running keeps
every live request exactly if an unfinished chunked request is in the batch that ran last. -/
theorem retract_pause_keeps_iff {p : Params} {s : Scheduler} (h : Run p (KeepsRequests p) s)
    (c : Choices)
    (hrun : (settleLastBatch p c { s with enginePaused := true }).running.isEmpty = false) :
    (∀ r, Alive (s.pauseGeneration p c .retract) r → r ∉ s.grammarQueue →
      WaitsOnce (s.pauseGeneration p c .retract) r ∨
        StillScheduled p (s.pauseGeneration p c .retract) r) ↔ ChunkRanLast s := by
  have hb := h.between.pause true
  set s' : Scheduler := { s with enginePaused := true }
  have htr : Tracked p s' := ⟨h.tracked.1, h.tracked.2, h.tracked.3⟩
  have hs := settleLastBatch_spec hb c
  obtain ⟨w, rep, ht⟩ := retractRunning_spec p (s'.settleLastBatch p c)
  have heq : s.pauseGeneration p c .retract = (s'.settleLastBatch p c).retractRunning p := by
    rw [pauseGeneration_retract, if_neg (by rw [hrun]; decide)]
  rw [heq]
  set v := s'.settleLastBatch p c with hv
  set t := v.retractRunning p
  have hbt : Between p True t := retracted_between hb hs ht
  have harr : t.arrived = s.arrived := by rw [ht.eq, hs.eq]
  have hgram : t.grammarQueue = s.grammarQueue := by rw [ht.eq, hs.eq]
  have hlast : t.lastBatch = none := by rw [ht.eq, hs.eq]
  have hmerge : t.lastMerging = [] := by rw [lastMerging, hlast]; rfl
  have hslot : t.chunkedReq = none := by rw [ht.eq]
  have hpark : t.parked = s'.parked := retracted_parked hs ht
  refine ⟨fun hall r hr => ?_, fun hk r halive hg => ?_⟩
  · by_contra hnot
    obtain ⟨hf, hnot⟩ := not_or.mp hnot
    obtain ⟨hrep, hlr⟩ := not_or.mp hnot
    have hzero := hb.one r
    have harrived : r ∈ s.arrived := by
      refine hb.known r ?_
      rw [places, count_toList, if_pos (show s'.chunkedReq = some r from hr)]
      omega
    rw [places, count_toList, if_pos (show s'.chunkedReq = some r from hr)] at hzero
    have hlr0 : s'.lastReqs.count r = 0 := count_eq_zero.mpr hlr
    have hvrun : v.running.reqs.count r = 0 := by
      have := hs.count_le r
      omega
    have hreqs : t.reqs r = s.reqs r := by
      obtain ⟨x, hx, hsub, -⟩ := settleLastBatch_processes hb c
      rw [ht.others r (count_eq_zero.mp hvrun), hv]
      refine hx.others r fun hmem => ?_
      rcases hb.lastAll_cases (hsub r hmem) with h1 | h1
      · exact hlr h1
      · have := count_pos_iff.mpr h1
        omega
    have hcount := ht.count r
    have hw0 : w.count r = 0 ∧ rep.count r = 0 := by
      split at hcount <;> omega
    have hrept : t.replied = s.replied ++ rep := by rw [ht.eq, hs.eq]
    have hwait : t.waitingQueue = s.waitingQueue ++ w := by rw [ht.eq, hs.eq]
    have halive : Alive t r := by
      refine ⟨harr ▸ harrived, by rw [hreqs]; simpa using hf, ?_⟩
      rw [hrept]
      exact fun hm => (mem_append.mp hm).elim (hrep ∘ .inl) (count_eq_zero.mp hw0.2)
    have hsw : s'.waitingQueue.count r = 0 ∧ s'.grammarQueue.count r = 0 ∧
        s'.parked.count r = 0 := by omega
    rcases hall r halive (count_eq_zero.mp hsw.2.1) with hwt | ⟨b, hpb, hmb, -⟩
    · have := hwt.waiting
      rw [hwait, count_append] at this
      have := hsw.1
      change s.waitingQueue.count r = 0 at this
      omega
    · refine count_eq_zero.mp hsw.2.2 ?_
      rw [← hpark, parked_of_some hpb]
      exact hmb
  · have hpos := halive.placed (retracted_covered (s := s') h.covered.1 hs ht hk) (by
      rw [ht.eq, hs.eq]
      exact h.covered.2)
    have hone := hbt.one r
    rw [places, ht.running, hmerge, hslot, hgram, count_eq_zero.mpr hg] at hpos hone
    simp only [toList_none, Nat.add_zero] at hpos hone
    by_cases hw : r ∈ t.waitingQueue
    · have := count_pos_iff.mpr hw
      refine .inl ⟨by omega, ?_, hbt.free.1 r hw⟩
      rw [places, ht.running, hmerge, hslot, hgram, count_eq_zero.mpr hg]
      simp only [count_nil, toList_none, Nat.add_zero]
      omega
    · rw [count_eq_zero.mpr hw] at hpos
      have hmem : r ∈ t.parked := count_pos_iff.mp (by omega)
      refine .inr ?_
      cases hp : t.hybridBubblePendingPrefillBatch with
      | none =>
        rw [parked_of_none hp] at hmem
        exact absurd hmem not_mem_nil
      | some b =>
        rw [parked_of_some hp] at hmem
        have hready := (retracted_tracked hb hs (settleLastBatch_tracked hb htr c).1 ht).ready b hp
        exact ⟨b, hp, hmem, hready r hmem, getNextBatchToRun_of_idle
          ⟨hbt.wf.1, hbt.wf.2, hbt.wf.3⟩ hlast ht.running hp⟩

/-- The engine is paused in retract mode while the batch is put aside, and two iterations follow. -/
def resumed : Scheduler :=
  [.pause .retract quietChoices, .resume, .iterate quietChoices, .iterate quietChoices].foldl
    (handle bubbleParams) deferral

/-- The pause retracts request `0` and empties the chunked slot, but request `1` is only in the
batch that was put aside. Two iterations after the engine is resumed it is in no place, unfinished,
and still owns its slots. -/
theorem retract_pause_drops_chunk :
    Run bubbleParams (KeepsRequests bubbleParams) deferral ∧
      (settleLastBatch bubbleParams quietChoices
        { deferral with enginePaused := true }).running.isEmpty = false ∧
      Alive (deferral.pauseGeneration bubbleParams quietChoices .retract) 1 ∧
      1 ∉ deferral.grammarQueue ∧
      ¬ WaitsOnce (deferral.pauseGeneration bubbleParams quietChoices .retract) 1 ∧
      ¬ StillScheduled bubbleParams
        (deferral.pauseGeneration bubbleParams quietChoices .retract) 1 ∧
      resumed.places resumed.lastMerging 1 = 0 ∧ (resumed.reqs 1).finished = false ∧
      (resumed.reqs 1).holds = true ∧ resumed.replied = [] := by
  refine ⟨deferral_keeps, by decide, ⟨by decide, by decide, by decide⟩, by decide, fun h => ?_, ?_,
    by decide, by decide, by decide, by decide⟩
  · exact absurd h.waiting (by decide)
  · rintro ⟨b, hb, hmem, -⟩
    have : b = 2 := (some.inj
      ((by decide : (deferral.pauseGeneration bubbleParams quietChoices
        .retract).hybridBubblePendingPrefillBatch = some 2).symm.trans hb)).symm
    subst this
    exact absurd hmem (by decide)

def prefilled : Scheduler :=
  [.receive 0 ['a'] false false, .iterate quietChoices].foldl (handle bubbleParams)
    .initial

theorem retract_pause_keeps_prefilled :
    (settleLastBatch bubbleParams quietChoices
        { prefilled with enginePaused := true }).running.isEmpty = false ∧
      ∀ r, Alive (prefilled.pauseGeneration bubbleParams quietChoices .retract) r →
        r ∉ prefilled.grammarQueue →
          WaitsOnce (prefilled.pauseGeneration bubbleParams quietChoices .retract) r ∨
            StillScheduled bubbleParams
              (prefilled.pauseGeneration bubbleParams quietChoices .retract) r := by
  have h : Run bubbleParams (KeepsRequests bubbleParams) prefilled :=
    Run.start.foldl ⟨by simp [Event.Valid, initial], ⟨fun _ he => by simp at he, rfl⟩, trivial,
      ⟨fun _ he => by simp at he, by decide⟩, trivial⟩
  refine ⟨by decide, (retract_pause_keeps_iff h quietChoices (by decide)).mpr fun r hr => ?_⟩
  exact absurd (hr.symm.trans (by decide : prefilled.chunkedReq = none)) (by simp)

/-! ## Flushing only what is idle -/

/-- No request is in a queue, in a batch, in the chunked slot or in an unprocessed result, and every
one that was received has finished or was answered. -/
structure NothingLive (s : Scheduler) : Prop where
  waiting : s.waitingQueue = []
  grammar : s.grammarQueue = []
  running : s.running.reqs = []
  chunked : s.chunkedReq = none
  last : ∀ b, s.lastBatch = some b → (s.batches b).reqs = []
  cur : ∀ b, s.curBatch = some b → (s.batches b).reqs = []
  results : s.resultQueue = []
  deferred : s.hybridBubblePendingPrefillBatch = none
  ended : ∀ r, ¬ Alive s r

theorem nothingLive_of_idle {cacheIdle : Bool}
    (hpend : ∀ b, s.hybridBubblePendingPrefillBatch = some b → s.ongoingLoadBack ≠ [])
    (hq : p.enableOverlap = false → s.resultQueue = []) (hc : CoveredBy s (s.mergingOf s.curBatch))
    (hd : s.dropped = []) (h : s.isFullyIdle p cacheIdle = true) : NothingLive s := by
  obtain ⟨hrun, hslot, hlast, hcur, hres, hwait, hgram, -, hdef⟩ := idle_spec hpend h
  refine ⟨hwait, hgram, hrun, hslot, hlast, hcur, ?_, hdef, fun r ha => ?_⟩
  · cases ho : p.enableOverlap with
    | true => exact hres ho
    | false => exact hq ho
  · have hpos := ha.placed hc hd
    rw [places, hwait, hgram, hrun, mergingOf_nil hcur, parked_of_none hdef, hslot] at hpos
    exact absurd hpos (lt_irrefl 0)

/-- A request arrives, runs to its end and leaves the running batch. -/
def served : Scheduler :=
  [.receive 0 ['a'] false false, .iterate { quietChoices with stops := fun _ => true },
    .iterate quietChoices].foldl (handle bubbleParams) .initial

/-- Two more iterations after the engine is resumed: request `0` finishes. -/
def forgotten : Scheduler :=
  [.iterate { quietChoices with stops := fun _ => true, finishedLoads := 1 },
    .iterate quietChoices].foldl (handle bubbleParams) resumed

end Fluxfer.Sched
