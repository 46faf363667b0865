import Fluxfer.Sched.Places

/-!
# One call of `get_next_batch_to_run`

Each part of the call moves requests between their places; the call as a whole hands out either
the decode batch, which is the running batch, or a prefill batch, whose requests are then in the
hands of the loop until the next call merges them.
-/

namespace Fluxfer.Sched

open ScheduleBatch List Function Nat

/-- What an operation on the running batch leaves alone: the other batches, and the requests that
are not running. -/
structure RunningOnly (s t : Scheduler) : Prop where
  runningBatch : t.runningBatch = s.runningBatch
  batches : ∀ b, b ≠ s.runningBatch → t.batches b = s.batches b
  running : ∀ r ∈ t.running.reqs, r ∈ s.running.reqs
  reqs : ∀ r, r ∉ s.running.reqs → t.reqs r = s.reqs r
  published : t.published = s.published

namespace RunningOnly

theorem refl (s : Scheduler) : RunningOnly s s :=
  ⟨rfl, fun _ _ => rfl, fun _ h => h, fun _ _ => rfl, rfl⟩

theorem trans {s t u : Scheduler} (h : RunningOnly s t) (h' : RunningOnly t u) :
    RunningOnly s u where
  runningBatch := h'.runningBatch.trans h.runningBatch
  batches b hb := (h'.batches b (h.runningBatch ▸ hb)).trans (h.batches b hb)
  running r hr := h.running r (h'.running r hr)
  reqs r hr := (h'.reqs r fun hm => hr (h.running r hm)).trans (h.reqs r hr)
  published := h'.published.trans h.published

theorem setRunning (s : Scheduler) {x : ScheduleBatch} (h : ∀ r ∈ x.reqs, r ∈ s.running.reqs) :
    RunningOnly s (s.setRunning x) := by
  refine ⟨rfl, fun b hb => s.setBatch_batches_of_ne x hb, ?_, fun _ _ => rfl, rfl⟩
  rw [Scheduler.running_setRunning]
  exact h

theorem setReqs (s : Scheduler) (rs : List ReqId) (f : Req → Req)
    (h : ∀ r ∈ rs, r ∈ s.running.reqs) : RunningOnly s (s.setReqs rs f) := by
  refine ⟨rfl, fun _ _ => rfl, fun _ h => h, fun r hr => ?_, rfl⟩
  exact if_neg fun hm => hr (h r hm)

theorem addRequestsToQueue (p : Params) (s : Scheduler) (rs : List ReqId) :
    RunningOnly s (s.addRequestsToQueue p rs) := by
  obtain ⟨hrun, hbatch, hreqs, -, hpub⟩ := s.addRequestsToQueue_same p rs
  refine ⟨hrun, fun b _ => by rw [hbatch], fun r hr => ?_, fun r _ => by rw [hreqs], hpub⟩
  rwa [Scheduler.running, hrun, hbatch] at hr

end RunningOnly

/-- An operation on the running batch, with the requests in hand before and after. -/
structure Runs (s : Scheduler) (l : List ReqId) (t : Scheduler) (m : List ReqId) : Prop where
  frame : Frame s t
  only : RunningOnly s t
  moves : Moves s l t m

namespace Runs

variable {s t u : Scheduler} {l m n : List ReqId}

theorem refl (s : Scheduler) (l : List ReqId) : Runs s l s l := ⟨.refl s, .refl s, .refl s l⟩

theorem trans (h : Runs s l t m) (h' : Runs t m u n) : Runs s l u n :=
  ⟨h.frame.trans h'.frame, h.only.trans h'.only, h.moves.trans h'.moves⟩

theorem wf (h : Runs s l t m) (hw : Wf s) : Wf t := h.frame.wf h.only.runningBatch hw

theorem setRunning (hw : Wf s) (l : List ReqId) {x : ScheduleBatch}
    (h : x.reqs = s.running.reqs) : Runs s l (s.setRunning x) l :=
  ⟨Scheduler.frame_setRunning hw x, .setRunning s fun _ hr => h ▸ hr,
    Scheduler.moves_setRunning_same hw l h⟩

end Runs

namespace Scheduler

variable {s : Scheduler} {r : ReqId}

variable (p : Params) (c : Choices)

theorem beginIteration_spec (hw : Wf s) (hl : s.LastApart)
    (hone : ∀ r, s.places s.lastMerging r ≤ 1) :
    Wf (s.beginIteration c) ∧ Frame s (s.beginIteration c) ∧
      Moves s s.lastMerging (s.beginIteration c) [] := by
  obtain ⟨hf1, hm1⟩ := s.abortOnWaitingTimeout_spec c s.lastMerging
  set s1 := s.abortOnWaitingTimeout c
  have hf2 : Frame s1 (s1.abortOnRunningTimeout c) := s1.frame_setReqs _ _
  have hm2 : Moves s1 s.lastMerging (s1.abortOnRunningTimeout c) s.lastMerging :=
    s1.moves_setReqs _ _ harmless_mark
  set s2 := s1.abortOnRunningTimeout c
  have hf3 : Frame s2 s2.stashChunkedRequest := s2.frame_publish _
  have hm3 : Moves s2 s.lastMerging s2.stashChunkedRequest s.lastMerging := s2.moves_publish _ _
  set s3 := s2.stashChunkedRequest
  have hf := hf1.trans (hf2.trans hf3)
  have hm := hm1.trans (hm2.trans hm3)
  have hw3 : Wf s3 := hf.wf rfl hw
  obtain ⟨hw4, hf4, hm4⟩ := mergeLastBatch_spec hw3 hl (hm.one hone)
  obtain ⟨hw5, hf5, hm5⟩ := filterPrefillOnly_spec hw4
  exact ⟨hw5, hf.trans (hf4.trans hf5), hm.trans (hm4.trans hm5)⟩

/-! ## The decode batch -/

theorem harmless_resetForRetract (q : Req) : Harmless q q.resetForRetract :=
  ⟨id, fun _ => rfl⟩

theorem keepRunning_runs (hw : Wf s) {kept retracted : List ReqId}
    (hcount : ∀ r, kept.count r + retracted.count r = s.running.reqs.count r) :
    Runs s [] (s.keepRunning kept retracted) retracted := by
  have hw0 : Wf (s.setReqs retracted Req.resetForRetract) := (s.frame_setReqs _ _).wf rfl hw
  have hf : Frame s (s.keepRunning kept retracted) :=
    (s.frame_setReqs _ _).trans (frame_setRunning hw0 _)
  have hmem : ∀ r, r ∈ kept ∨ r ∈ retracted → r ∈ s.running.reqs := by
    intro r hr
    have := hcount r
    refine count_pos_iff.mp ?_
    rcases hr with hr | hr <;> have := count_pos_iff.mpr hr <;> omega
  refine ⟨hf, (RunningOnly.setReqs s _ _ fun r hr => hmem r (.inr hr)).trans
    (.setRunning _ fun r hr => hmem r (.inl hr)),
    (s.moves_setReqs [] retracted harmless_resetForRetract).trans ?_⟩
  refine .of_eq ?_ (fun _ h => h) (fun _ h => h) rfl id
  intro r
  have e := hf.places_eq retracted r
  rw [keepRunning, running_setRunning] at e
  rw [keepRunning, e]
  have := hcount r
  change s.waitingQueue.count r + s.grammarQueue.count r + kept.count r + _ + _ + _ =
    s.waitingQueue.count r + s.grammarQueue.count r + s.running.reqs.count r + 0 +
      s.parked.count r + s.chunkedReq.toList.count r
  omega

theorem keepRunning_free {kept retracted : List ReqId} (hr : r ∈ retracted) :
    ((s.keepRunning kept retracted).reqs r).holds = false := by
  change (if r ∈ retracted then (s.reqs r).resetForRetract else s.reqs r).holds = false
  rw [if_pos hr]
  rfl

theorem abortRunning_runs (hw : Wf s) (l : List ReqId) : Runs s l s.abortRunning l := by
  set f : Req → Req := fun q => { q.resetForRetract with toFinish := true }
  have hw0 : Wf (s.setReqs s.running.reqs f) := (s.frame_setReqs _ _).wf rfl hw
  have h0 := (s.frame_setReqs s.running.reqs f).trans
    (frame_setRunning hw0 { s.running with reqs := [] })
  have hframe : Frame s s.abortRunning :=
    ⟨h0.1, h0.2, h0.3, h0.4, h0.5, h0.6, h0.7, h0.8, h0.9, h0.10, h0.11, h0.12⟩
  have h1 := (RunningOnly.setReqs s s.running.reqs f fun _ h => h).trans
    (.setRunning _ (x := { s.running with reqs := [] }) fun r hr => by simp at hr)
  have hm : Moves s l (s.setReqs s.running.reqs f) l :=
    s.moves_setReqs l _ fun q => ⟨id, fun _ => rfl⟩
  have hrun : s.abortRunning.running.reqs = [] := by
    change ((s.setReqs s.running.reqs f).setRunning { s.running with reqs := [] }).running.reqs = []
    rw [running_setRunning]
  have hplaces : ∀ r, s.abortRunning.places l r + s.running.reqs.count r = s.places l r := by
    intro r
    rw [hframe.places_eq, hrun, count_nil, places]
    change s.waitingQueue.count r + s.grammarQueue.count r + _ + _ + _ + _ + _ = _
    omega
  refine ⟨hframe, ⟨h1.1, h1.2, h1.3, h1.4, h1.5⟩, fun r => ?_, fun r hlt => .inr (.inl ?_),
    hm.finished, fun r => Or.imp_left (mem_append_left _), rfl, hm.free⟩
  · have := hplaces r
    omega
  · have := hplaces r
    exact mem_append_right _ (count_pos_iff.mp (by omega))

theorem abortRunning_free (s : Scheduler) (h : (s.reqs r).holds = false) :
    (s.abortRunning.reqs r).holds = false := by
  change (if r ∈ s.running.reqs then { (s.reqs r).resetForRetract with toFinish := true }
    else s.reqs r).holds = false
  split
  · rfl
  · exact h

/-- Retracted requests go back to the waiting queue without their slots; the one that is aborted
for lack of memory is answered. -/
theorem retractDecode_runs (k : RetractChoice) (hw : Wf s) :
    Runs s [] (s.retractDecode p k) [] := by
  set sorted := s.running.reqs.insertionSort fun a b => k.weight b ≤ k.weight a
  set n := max 1 (min k.keep (sorted.length - 1))
  set retracted := (sorted.drop n).reverse with hretracted
  have hcount : ∀ r, (sorted.take n).count r + retracted.count r = s.running.reqs.count r := by
    intro r
    rw [count_reverse, ← count_append, take_append_drop]
    exact (perm_insertionSort _ _).count_eq r
  have h1 := keepRunning_runs hw hcount
  set s1 := s.keepRunning (sorted.take n) retracted
  have hfree1 : ∀ r ∈ retracted, (s1.reqs r).holds = false := fun r => keepRunning_free
  set s2 := if k.outOfMemory && decide (s1.running.reqs.length ≤ 1) then s1.abortRunning else s1
    with hs2
  have h2 : Runs s1 retracted s2 retracted ∧ ∀ r ∈ retracted, (s2.reqs r).holds = false := by
    rw [hs2]
    split
    · exact ⟨abortRunning_runs (h1.wf hw) retracted,
        fun r hr => s1.abortRunning_free (hfree1 r hr)⟩
    · exact ⟨.refl s1 retracted, hfree1⟩
  have hm3 := s2.moves_addRequestsToQueue p [] retracted h2.2
  rw [append_nil] at hm3
  exact h1.trans (h2.1.trans ⟨s2.frame_addRequestsToQueue p retracted,
    .addRequestsToQueue p s2 retracted, hm3⟩)

theorem updateRunningBatch_runs (hw : Wf s) :
    Runs s [] (s.updateRunningBatch p c) [] ∧
      ((s.updateRunningBatch p c).running.isEmpty = false →
        (s.updateRunningBatch p c).running.forwardMode = some .decode) := by
  have h1 : Runs s [] (s.filterBatch s.runningBatch []) [] := ⟨frame_setRunning hw _,
    .setRunning s fun r hr => mem_of_mem_filter hr, moves_filterRunning hw []⟩
  have hw1 := h1.wf hw
  set s1 := s.filterBatch s.runningBatch [] with hs1
  unfold updateRunningBatch
  simp only
  split
  case isTrue hempty =>
    refine ⟨h1.trans (.setRunning hw1 [] rfl), ?_⟩
    intro h
    rw [running_setRunning] at h
    exact absurd (hempty.symm.trans h) (by decide)
  case isFalse =>
    have h2 : Runs s1 [] (s1.makeRoom p c) [] := by
      unfold makeRoom
      split
      · exact .refl s1 []
      · exact retractDecode_runs p _ hw1
    have hw2 := h2.wf hw1
    set s2 := s1.makeRoom p c
    set s3 := if s2.running.reqs.length < s.running.reqs.length then
      s2.setRunning { s2.running with batchIsFull := false } else s2 with hs3
    have h3 : Runs s2 [] s3 [] := by
      rw [hs3]
      split
      · exact .setRunning hw2 [] rfl
      · exact .refl s2 []
    have h := h1.trans (h2.trans h3)
    split
    case isTrue hempty => exact ⟨h, fun hne => absurd (hempty.symm.trans hne) (by decide)⟩
    case isFalse =>
      refine ⟨h.trans (.setRunning (h3.wf hw2) [] rfl), ?_⟩
      intro _
      rw [running_setRunning]

theorem getDecodeBatch_runs {t : Scheduler} {ret : Option BatchId} (p : Params) (c : Choices)
    (hw : Wf s) (h : s.getDecodeBatch p c = (t, ret)) :
    Runs s [] t [] ∧ ∀ b, ret = some b →
      b = t.runningBatch ∧ t.running.forwardMode = some .decode ∧ t.running.isEmpty = false := by
  unfold getDecodeBatch at h
  split at h
  · obtain ⟨rfl, rfl⟩ := Prod.mk.inj h
    exact ⟨.refl s [], fun b hb => by simp at hb⟩
  · obtain ⟨hr, hmode⟩ := updateRunningBatch_runs p c hw
    obtain ⟨rfl, hret⟩ := Prod.mk.inj h
    refine ⟨hr, ?_⟩
    rintro b rfl
    split at hret
    case isTrue => simp at hret
    case isFalse hne =>
      have hne : (s.updateRunningBatch p c).running.isEmpty = false := by simpa using hne
      exact ⟨(Option.some.inj hret).symm, hmode hne, hne⟩

/-! ## A new prefill batch -/

theorem addWaiting_sublist (l : List ReqId) (m : Bool) : (addWaiting c l m).1.Sublist l := by
  induction l generalizing m with
  | nil => exact .slnil
  | cons a l ih =>
    unfold addWaiting
    split
    · exact (ih m).cons a
    · exact nil_sublist _
    · exact (ih m).cons_cons a
    · split
      · exact (ih false).cons_cons a
      · exact nil_sublist _

theorem addWaiting_no_chunk (l : List ReqId) : (addWaiting c l false).2 = none := by
  induction l with
  | nil => rfl
  | cons a l ih =>
    unfold addWaiting
    split
    · exact ih
    · rfl
    · exact ih
    · rfl

theorem addWaiting_chunk_mem (l : List ReqId) (m : Bool)
    (h : (addWaiting c l m).2 = some r) : r ∈ (addWaiting c l m).1 := by
  induction l generalizing m with
  | nil => simp [addWaiting] at h
  | cons a l ih =>
    unfold addWaiting at h ⊢
    split at h
    · exact ih m h
    · simp at h
    · exact mem_cons_of_mem a (ih m h)
    · split at h
      case isTrue hm =>
        rw [if_pos hm]
        exact mem_cons.mpr (.inl (Option.some.inj h).symm)
      case isFalse => simp at h

end Scheduler

/-- Which requests of a state run, and which of them is left in the chunked slot. -/
structure Selects (s : Scheduler) (canRun : List ReqId) (chunked : Option ReqId) : Prop where
  count_le : ∀ r, canRun.count r ≤ s.waitingQueue.count r + s.chunkedReq.toList.count r
  chunked_from : ∀ r, chunked = some r → (r ∈ canRun ∧ r ∈ s.waitingQueue) ∨ s.chunkedReq = some r
  slot : ∀ r, s.chunkedReq = some r → chunked = some r ∨ r ∈ canRun

theorem Selects.count_eq {s : Scheduler} {canRun : List ReqId} {chunked : Option ReqId}
    (h : Selects s canRun chunked) {r : ReqId}
    (hone : s.waitingQueue.count r + s.chunkedReq.toList.count r ≤ 1) :
    (s.waitingQueue.filter fun r => decide (r ∉ canRun)).count r +
        (canRun.filter fun r => decide (chunked ≠ some r)).count r + chunked.toList.count r =
      s.waitingQueue.count r + s.chunkedReq.toList.count r := by
  have hle := h.count_le r
  have hfrom := h.chunked_from r
  have hslot := h.slot r
  have hwait : (s.waitingQueue.filter fun r => decide (r ∉ canRun)).count r =
      if r ∈ canRun then 0 else s.waitingQueue.count r := by
    rw [count_filter_ite]
    by_cases hr : r ∈ canRun <;> simp [hr]
  have hhand : (canRun.filter fun r => decide (chunked ≠ some r)).count r =
      if chunked = some r then 0 else canRun.count r := by
    rw [count_filter_ite]
    by_cases hr : chunked = some r <;> simp [hr]
  rw [count_toList] at hone hle
  rw [hwait, hhand, count_toList, count_toList]
  by_cases hc : chunked = some r
  · rcases hfrom hc with ⟨hrun, hw⟩ | hs
    · have := count_pos_iff.mpr hw
      split_ifs at * <;> omega
    · rw [if_pos hs] at hone hle ⊢
      split_ifs <;> omega
  · rw [if_neg hc, if_neg hc]
    by_cases hrun : r ∈ canRun
    · have := count_pos_iff.mpr hrun
      rw [if_pos hrun]
      omega
    · have hs : s.chunkedReq ≠ some r := fun hs => (hslot hs).elim hc hrun
      rw [if_neg hrun, count_eq_zero.mpr hrun, if_neg hs]

/-- Two states with the same requests in the queues and in the running batch. The chunked slot may
differ. -/
structure SameRequests (s t : Scheduler) : Prop where
  reqs : t.reqs = s.reqs
  waitingQueue : t.waitingQueue = s.waitingQueue
  grammarQueue : t.grammarQueue = s.grammarQueue
  running : t.running.reqs = s.running.reqs
  left : t.Left = s.Left
  arrived : t.arrived = s.arrived
  pending : t.hybridBubblePendingPrefillBatch = s.hybridBubblePendingPrefillBatch

namespace Scheduler

variable {s : Scheduler} {b : BatchId}

theorem parked_of_none (h : s.hybridBubblePendingPrefillBatch = none) : s.parked = [] := by
  simp only [parked, h]

theorem createBatch_batches (p : Params) (c : Choices) (s : Scheduler) (canRun : List ReqId)
    (newChunked : Option ReqId) (h : b ≠ s.nextBatch) :
    (s.createBatch p c canRun newChunked).batches b = s.batches b := by
  change update s.batches s.nextBatch _ b = _
  rw [update_of_ne h]

theorem createBatch_new (p : Params) (c : Choices) (s : Scheduler) (canRun : List ReqId)
    (newChunked : Option ReqId) :
    ((s.createBatch p c canRun newChunked).batches s.nextBatch).reqs = canRun ∧
      ((s.createBatch p c canRun newChunked).batches s.nextBatch).isExtend = true ∧
      ((s.createBatch p c canRun newChunked).batches s.nextBatch).chunkedReq =
        (newChunked <|> s.chunkedReq) ∧
      ((s.createBatch p c canRun newChunked).batches s.nextBatch).hybridBubbleNeedsPreload =
        (p.bubbleFilling && s.loadQueue.any fun i => decide (0 < c.preloadPages i)) := by
  have h : (s.createBatch p c canRun newChunked).batches s.nextBatch =
      ((s.admitReqs canRun newChunked).newBatch p c canRun).batches s.nextBatch := rfl
  rw [h]
  simp [newBatch, admitReqs, isExtend, ForwardMode.isExtend]

theorem createBatch_req (p : Params) (c : Choices) (s : Scheduler) (canRun : List ReqId)
    (newChunked : Option ReqId) (r : ReqId) :
    let q := (s.createBatch p c canRun newChunked).reqs r
    q.finished = (s.reqs r).finished ∧ (r ∉ canRun → q.holds = (s.reqs r).holds) ∧
      (r ∈ canRun → q.isRetracted = false) ∧
      q.isChunked = if (newChunked <|> s.chunkedReq) = some r then (s.reqs r).isChunked + 1
        else (s.reqs r).isChunked := by
  have h : (s.createBatch p c canRun newChunked).reqs r =
      if r ∈ canRun then { (s.admitReqs canRun newChunked).reqs r with
        holds := true, isRetracted := false } else (s.admitReqs canRun newChunked).reqs r := rfl
  rw [h]
  simp only [admitReqs]
  split_ifs <;> simp_all

theorem createBatch_spec {s₀ : Scheduler} (p : Params) (c : Choices) {canRun : List ReqId}
    {newChunked : Option ReqId} (hsame : SameRequests s₀ s) (hw : Wf s)
    (hp : s.hybridBubblePendingPrefillBatch = none)
    (hsel : Selects s₀ canRun (newChunked <|> s.chunkedReq)) (hone : ∀ r, s₀.places [] r ≤ 1) :
    Wf (s.createBatch p c canRun newChunked) ∧
      Moves s₀ [] (s.createBatch p c canRun newChunked)
        ((s.createBatch p c canRun newChunked).batches s.nextBatch).merging := by
  obtain ⟨hreqs, -, hchunk, -⟩ := s.createBatch_new p c canRun newChunked
  set t := s.createBatch p c canRun newChunked
  have hrun : t.running.reqs = s₀.running.reqs := by
    rw [← hsame.running]
    exact congrArg ScheduleBatch.reqs
      (s.createBatch_batches p c canRun newChunked (Nat.ne_of_lt hw.running_lt))
  have hpark0 : s₀.parked = [] := parked_of_none (hsame.pending ▸ hp)
  have hwait : t.waitingQueue = s₀.waitingQueue.filter fun r => decide (r ∉ canRun) := by
    rw [← hsame.waitingQueue]
    rfl
  have hmerge : (t.batches s.nextBatch).merging =
      canRun.filter fun r => decide ((newChunked <|> s.chunkedReq) ≠ some r) := by
    rw [ScheduleBatch.merging, hreqs, hchunk]
  have hreq := fun r => s.createBatch_req p c canRun newChunked r
  rw [hsame.reqs] at hreq
  refine ⟨⟨lt_succ_of_lt hw.running_lt, ?_, ?_⟩, .of_eq ?_ ?_ ?_ hsame.arrived ?_⟩
  · intro d hd
    exact absurd (hd.symm.trans hp) (by simp)
  · intro d hd
    exact absurd (hd.symm.trans hp) (by simp)
  · intro r
    have ho := hone r
    have hsum := hsel.count_eq (r := r) (by rw [places] at ho; omega)
    have hparkt : t.parked = [] := parked_of_none hp
    have hgram : t.grammarQueue = s₀.grammarQueue := hsame.grammarQueue
    have hslot : t.chunkedReq = (newChunked <|> s.chunkedReq) := rfl
    rw [places, places, hwait, hmerge, hgram, hrun, hparkt, hpark0, hslot, count_nil]
    omega
  · intro r hf
    exact (hreq r).1.trans hf
  · intro r hr
    change s.Left r
    rw [hsame.left]
    exact hr
  · intro hq
    refine ⟨fun r hr => ?_, fun r hr => ?_⟩
    · rw [hwait] at hr
      obtain ⟨hr, hnot⟩ := mem_filter.mp hr
      exact ((hreq r).2.1 (by simpa using hnot)).trans (hq.1 r hr)
    · have hr : r ∈ s₀.grammarQueue := hsame.grammarQueue ▸ hr
      have hnot : r ∉ canRun := by
        intro hrun
        have h1 := count_pos_iff.mpr hr
        have h2 := count_pos_iff.mpr hrun
        have h3 := hsel.count_le r
        have h4 := hone r
        rw [places] at h4
        omega
      exact ((hreq r).2.1 hnot).trans (hq.2 r hr)

theorem mixWithRunning_batch (hb : b < s.nextBatch) (hne : b ≠ s.runningBatch)
    (hext : (s.batches b).isExtend = true) :
    ((s.mixWithRunning b).batches b).reqs =
        (s.batches b).reqs ++ (s.filterBatch s.runningBatch []).running.reqs ∧
      ((s.mixWithRunning b).batches b).isExtend = true ∧
      ((s.mixWithRunning b).batches b).chunkedReq = (s.batches b).chunkedReq ∧
      ((s.mixWithRunning b).batches b).hybridBubbleNeedsPreload =
        (s.batches b).hybridBubbleNeedsPreload := by
  set s1 := s.filterBatch s.runningBatch [] with hs1
  have h1 : s1.batches b = s.batches b := s.setBatch_batches_of_ne _ hne
  have hmix : (s.mixWithRunning b).batches b = (if s1.running.isEmpty then s1 else
      s1.setBatch b { s1.batches b with
        reqs := (s1.batches b).reqs ++ s1.running.reqs
        forwardMode := some .mixed
        decodingReqs := s1.running.reqs
        isPrefillOnly := false }).batches b := by
    refine update_of_ne ?_ _ _
    split
    · exact Nat.ne_of_lt hb
    · exact Nat.ne_of_lt hb
  rw [hmix]
  split
  case isTrue hempty =>
    have hnil : s1.running.reqs = [] := isEmpty_iff.mp hempty
    rw [h1, hnil, append_nil]
    exact ⟨rfl, hext, rfl, rfl⟩
  case isFalse =>
    simp only [setBatch, update_self, h1]
    exact ⟨trivial, rfl, trivial, trivial⟩

theorem mixWithRunning_same (s : Scheduler) (b : BatchId) :
    (s.mixWithRunning b).running.reqs = [] ∧ ∃ B, s.mixWithRunning b =
      { s with batches := B, runningBatch := s.nextBatch, nextBatch := s.nextBatch + 1 } := by
  unfold mixWithRunning
  simp only
  split
  · exact ⟨by simp only [running, update_self, empty], _, rfl⟩
  · exact ⟨by simp only [running, update_self, empty], _, rfl⟩

theorem mixWithRunning_spec (hw : Wf s) (hb : b < s.nextBatch) (hne : b ≠ s.runningBatch)
    (hp : s.hybridBubblePendingPrefillBatch = none) (hext : (s.batches b).isExtend = true)
    (hchunk : (s.batches b).chunkedReq = s.chunkedReq)
    (hone : ∀ r, s.places (s.batches b).merging r ≤ 1) :
    Wf (s.mixWithRunning b) ∧ b ≠ (s.mixWithRunning b).runningBatch ∧
      Moves s (s.batches b).merging (s.mixWithRunning b)
        ((s.mixWithRunning b).batches b).merging := by
  obtain ⟨hreqs, -, hck, -⟩ := mixWithRunning_batch hb hne hext
  obtain ⟨hempty, B, hrest⟩ := s.mixWithRunning_same b
  set s1 := s.filterBatch s.runningBatch []
  rw [hrest] at hreqs hck hempty ⊢
  have hm1 : Moves s (s.batches b).merging s1 (s.batches b).merging := moves_filterRunning hw _
  have hpend : ∀ d, s.hybridBubblePendingPrefillBatch ≠ some d := by simp [hp]
  refine ⟨⟨lt_succ_self _, fun d hd => absurd hd (hpend d), fun d hd => absurd hd (hpend d)⟩,
    Nat.ne_of_lt hb, hm1.trans (.of_eq ?_ (fun _ h => h) (fun _ h => h) rfl id)⟩
  intro r
  have ho := hm1.one hone r
  have e1 : s1.places (s.batches b).merging r = s.waitingQueue.count r +
    s.grammarQueue.count r + s1.running.reqs.count r + (s.batches b).merging.count r +
    s1.parked.count r + s.chunkedReq.toList.count r := rfl
  rw [parked_of_none (s := s1) hp, count_merging, hchunk, count_toList] at e1
  rw [e1] at ho
  rw [e1, places, parked_of_none (by exact hp), count_merging, hck, hchunk, hreqs, hempty,
    count_append, count_toList, count_nil]
  dsimp only
  split_ifs at ho ⊢ <;> omega

end Scheduler

/-- What forming a prefill batch leaves alone. -/
structure FormFrame (s t : Scheduler) : Prop where
  lastBatch : t.lastBatch = s.lastBatch
  pending : t.hybridBubblePendingPrefillBatch = s.hybridBubblePendingPrefillBatch
  resultQueue : t.resultQueue = s.resultQueue
  returned : t.returned = s.returned
  published : t.published = s.published

/-- No prefill batch was formed. A chunked request that could not be scheduled is marked so. -/
structure NoPrefill (s t : Scheduler) : Prop where
  chunkedReq : t.chunkedReq = s.chunkedReq
  unscheduled : t.chunkedReq = none ∨ t.chunkedReqScheduledLastIter = false
  formed : t.formed = s.formed
  nextBatch : t.nextBatch = s.nextBatch
  loads : s.LoadsCounted → t.LoadsCounted

/-- A request is in a queue or in the chunked slot. -/
def Scheduler.Queued (s : Scheduler) (r : ReqId) : Prop :=
  r ∈ s.waitingQueue ∨ r ∈ s.grammarQueue ∨ s.chunkedReq = some r

/-- The prefill batch `b` was formed to run the requests `canRun`. -/
structure NewPrefill (s t : Scheduler) (b : BatchId) (canRun : List ReqId) : Prop where
  addr : b = s.nextBatch
  lt : b < t.nextBatch
  ne : b ≠ t.runningBatch
  extend : (t.batches b).isExtend = true
  chunkedReq : (t.batches b).chunkedReq = t.chunkedReq
  formed : t.formed = (b, canRun) :: s.formed
  subset : ∀ r ∈ canRun, r ∈ (t.batches b).reqs
  source : ∀ r ∈ canRun, s.Queued r
  scheduled : t.chunkedReqScheduledLastIter = true → ∃ r, t.chunkedReq = some r ∧ r ∈ canRun
  preload : (t.batches b).hybridBubbleNeedsPreload = true → t.ongoingLoadBack ≠ []
  loads : t.LoadsCounted
  count_le : ∀ r, (t.batches b).reqs.count r ≤ 1
  isChunked : ∀ r ∈ canRun, (s.reqs r).isChunked ≤ (t.reqs r).isChunked
  chunk_counted : ∀ r, t.chunkedReq = some r → (s.reqs r).isChunked + 1 ≤ (t.reqs r).isChunked
  slot : ∀ r, t.chunkedReq = some r → s.Queued r
  ready : ∀ r ∈ canRun, (t.reqs r).isRetracted = false
  unmixed : t.running.reqs = [] ∨ (t.batches b).reqs = canRun

namespace Scheduler

variable {s₀ s t : Scheduler} {canRun : List ReqId} {newChunked : Option ReqId} {r : ReqId}

variable (p : Params) (c : Choices)

theorem addChunkedReq_cases (s : Scheduler) :
    (s.addChunkedReq p c = ({ s with chunkedReqScheduledLastIter := false }, [])) ∨
      ∃ r, s.chunkedReq = some r ∧
        (s.addChunkedReq p c = ({ s with chunkedReqScheduledLastIter := true }, [r]) ∨
          s.addChunkedReq p c =
            ({ s with chunkedReq := none, chunkedReqScheduledLastIter := false }, [r])) := by
  unfold addChunkedReq
  cases hc : s.chunkedReq with
  | none => exact .inl rfl
  | some r =>
    simp only
    split
    · exact .inl rfl
    · refine .inr ⟨r, rfl, ?_⟩
      split
      · exact .inl rfl
      · exact .inr rfl

theorem selects_addToBatch (p : Params) (c : Choices) (s : Scheduler) :
    let chunk := s.addChunkedReq p c
    let added := addWaiting c s.waitingQueue chunk.1.chunkedReq.isNone
    Selects s (chunk.2 ++ added.1) (added.2 <|> chunk.1.chunkedReq) := by
  have hsub := fun m => addWaiting_sublist c s.waitingQueue m
  have hmem := fun m r h => addWaiting_chunk_mem c s.waitingQueue m (r := r) h
  rcases s.addChunkedReq_cases p c with h | ⟨a, ha, h | h⟩
  · simp only [h, nil_append]
    refine ⟨fun r => ?_, fun r hr => ?_, fun r hr => ?_⟩
    · have := (hsub s.chunkedReq.isNone).count_le r
      omega
    · cases hnew : (addWaiting c s.waitingQueue s.chunkedReq.isNone).2 with
      | none => exact .inr (by simpa [hnew] using hr)
      | some d =>
        have hd : d = r := by simpa [hnew] using hr
        subst hd
        exact .inl ⟨hmem _ _ hnew, (hsub _).subset (hmem _ _ hnew)⟩
    · refine .inl ?_
      rw [hr, Option.isNone_some, addWaiting_no_chunk]
      rfl
  · simp only [h, ha, Option.isNone_some, addWaiting_no_chunk]
    refine ⟨fun r => ?_, fun r hr => .inr (ha.trans hr), fun r hr => .inl ?_⟩
    · have := (hsub false).count_le r
      rw [count_append, ha]
      exact (Nat.add_comm _ _).trans_le (Nat.add_le_add_right this _)
    · exact ha.symm.trans hr
  · simp only [h]
    refine ⟨fun r => ?_, fun r hr => ?_, fun r hr => .inr ?_⟩
    · have := (hsub true).count_le r
      rw [count_append, ha]
      exact (Nat.add_comm _ _).trans_le (Nat.add_le_add_right this _)
    · have hnew : (addWaiting c s.waitingQueue true).2 = some r := by
        cases hnew : (addWaiting c s.waitingQueue true).2 with
        | none => simp [hnew] at hr
        | some d => simpa [hnew] using hr
      exact .inl ⟨mem_append_right _ (hmem _ _ hnew), (hsub _).subset (hmem _ _ hnew)⟩
    · rw [ha] at hr
      simp [(Option.some.inj hr)]

/-- What `addToBatch` knows about its state once the requests are selected. -/
structure Selected (s₀ s : Scheduler) (canRun : List ReqId) (newChunked : Option ReqId) : Prop where
  same : SameRequests s₀ s
  wf : Wf s
  pending : s.hybridBubblePendingPrefillBatch = none
  selects : Selects s₀ canRun (newChunked <|> s.chunkedReq)
  one : ∀ r, s₀.places [] r ≤ 1
  scheduled : (s.chunkedReqScheduledLastIter || newChunked.isSome) = true →
    ∃ r, (newChunked <|> s.chunkedReq) = some r ∧ r ∈ canRun
  loads : s.LoadsCounted

theorem count_le_one_of_selects {chunked : Option ReqId} (h : Selects s canRun chunked)
    (hone : ∀ r, s.places [] r ≤ 1) (r : ReqId) : canRun.count r + s.running.reqs.count r ≤ 1 := by
  have h1 := h.count_le r
  have h2 := hone r
  rw [places] at h2
  omega

theorem readyToLoadHostCache_loads (h : s.LoadsCounted) : s.readyToLoadHostCache.LoadsCounted := by
  unfold LoadsCounted readyToLoadHostCache
  simp only [append_nil]
  split
  case isTrue hempty =>
    have hnil : s.loadQueue = [] := isEmpty_iff.mp hempty
    have := h
    rwa [LoadsCounted, hnil, append_nil] at this
  case isFalse =>
    rw [flatten_append, flatten_singleton]
    exact h

theorem checkHicacheEvents_loads (h : s.LoadsCounted) : (s.checkHicacheEvents c).LoadsCounted := by
  have hsplit : s.ackLoadQueue.flatten ++ s.loadQueue =
      (s.ackLoadQueue.take c.finishedLoads).flatten ++
        ((s.ackLoadQueue.drop c.finishedLoads).flatten ++ s.loadQueue) := by
    rw [← append_assoc, ← flatten_append, take_append_drop]
  have hdiff : ∀ a b : List LoadId, (a ++ b).diff a = b := by
    intro a b
    induction a with
    | nil => rfl
    | cons x a ih => rw [cons_append, diff_cons, erase_cons_head, ih]
  have := List.Perm.diff_right (s.ackLoadQueue.take c.finishedLoads).flatten h
  rwa [hsplit, hdiff] at this

theorem createBatch_newPrefill (h : Selected s₀ s canRun newChunked)
    (hn : s.nextBatch = s₀.nextBatch) (hf : s.formed = s₀.formed) :
    NewPrefill s₀ (s.createBatch p c canRun newChunked) s.nextBatch canRun := by
  obtain ⟨hreqs, hext, hchunk, hpre⟩ := s.createBatch_new p c canRun newChunked
  have hreq := fun r => s.createBatch_req p c canRun newChunked r
  rw [h.same.reqs] at hreq
  refine ⟨hn, Nat.lt_succ_self _, (Nat.ne_of_lt h.wf.running_lt).symm, hext, hchunk, ?_, ?_, ?_,
    h.scheduled, ?_, ?_, ?_, ?_, ?_, ?_, ?_, .inr hreqs⟩
  · change (s.nextBatch, canRun) :: s.formed = _
    rw [hf]
  · intro r hr
    rw [hreqs]
    exact hr
  · intro r hr
    have h1 := h.selects.count_le r
    have h2 := count_pos_iff.mpr hr
    rw [count_toList] at h1
    split at h1
    case isTrue hslot => exact .inr (.inr hslot)
    case isFalse => exact .inl (count_pos_iff.mp (by omega))
  · intro hload
    rw [hpre, Bool.and_eq_true, any_eq_true] at hload
    obtain ⟨i, hi, -⟩ := hload.2
    exact ne_nil_of_mem (h.loads.mem_iff.mpr (mem_append_right _ hi))
  · exact readyToLoadHostCache_loads h.loads
  · intro r
    have := count_le_one_of_selects h.selects h.one r
    rw [hreqs]
    omega
  · intro r _
    rw [(hreq r).2.2.2]
    split <;> omega
  · intro r hr
    rw [(hreq r).2.2.2]
    exact (if_pos hr).ge
  · intro r hr
    exact (h.selects.chunked_from r hr).imp And.right .inr
  · exact fun r => (hreq r).2.2.1

theorem mixWithRunning_newPrefill {b : BatchId} (h : NewPrefill s₀ s b canRun)
    (hone : ∀ r, s.places (s.batches b).merging r ≤ 1) :
    NewPrefill s₀ (s.mixWithRunning b) b canRun := by
  obtain ⟨hreqs, hext, hchunk, hpre⟩ := mixWithRunning_batch h.lt h.ne h.extend
  obtain ⟨hempty, B, hrest⟩ := s.mixWithRunning_same b
  rw [hrest] at hreqs hext hchunk hpre hempty ⊢
  refine ⟨h.addr, Nat.lt_succ_of_lt h.lt, Nat.ne_of_lt h.lt, hext, hchunk.trans h.chunkedReq,
    h.formed, ?_, h.source, h.scheduled, fun hl => h.preload (hpre.symm.trans hl), h.loads, ?_,
    h.isChunked, h.chunk_counted, h.slot, h.ready, .inl hempty⟩
  · intro r hr
    rw [hreqs]
    exact mem_append_left _ (h.subset r hr)
  · intro r
    have h1 := hone r
    have h2 := h.count_le r
    have h3 : (s.filterBatch s.runningBatch []).running.reqs.count r ≤ s.running.reqs.count r := by
      change ((s.setRunning _).running.reqs.count r) ≤ _
      rw [running_setRunning]
      exact List.Sublist.count_le r filter_sublist
    rw [hreqs, count_append]
    -- The chunked request is not running, so it is mixed in for none of its own.
    rw [places, count_merging, h.chunkedReq, count_toList] at h1
    split_ifs at h1 <;> omega

theorem formBatch_spec (h : Selected s₀ s canRun newChunked)
    (hn : s.nextBatch = s₀.nextBatch) (hf : s.formed = s₀.formed) (hff : FormFrame s₀ s) :
    Wf (s.formBatch p c canRun newChunked) ∧ FormFrame s₀ (s.formBatch p c canRun newChunked) ∧
      NewPrefill s₀ (s.formBatch p c canRun newChunked) s.nextBatch canRun ∧
      Moves s₀ [] (s.formBatch p c canRun newChunked)
        ((s.formBatch p c canRun newChunked).batches s.nextBatch).merging := by
  obtain ⟨hw1, hm1⟩ := createBatch_spec p c h.same h.wf h.pending h.selects h.one
  have hnew := createBatch_newPrefill p c h hn hf
  have hff1 : FormFrame s₀ (s.createBatch p c canRun newChunked) :=
    ⟨hff.1, hff.2, hff.3, hff.4, hff.5⟩
  unfold formBatch
  split
  · have hone := hm1.one h.one
    obtain ⟨hw2, -, hm2⟩ := mixWithRunning_spec hw1 hnew.lt hnew.ne h.pending hnew.extend
      hnew.chunkedReq hone
    refine ⟨hw2, ?_, mixWithRunning_newPrefill hnew hone, hm1.trans hm2⟩
    obtain ⟨-, B, hrest⟩ := (s.createBatch p c canRun newChunked).mixWithRunning_same s.nextBatch
    rw [hrest]
    exact ⟨hff1.1, hff1.2, hff1.3, hff1.4, hff1.5⟩
  · exact ⟨hw1, hff1, hnew, hm1⟩

/-- The outcome of forming a prefill batch. -/
def Formed (s t : Scheduler) : Option BatchId → Prop
  | none => NoPrefill s t ∧ Moves s [] t []
  | some b => (∃ canRun, NewPrefill s t b canRun) ∧ Moves s [] t (t.batches b).merging

/-- An earlier state in which the queued requests were queued; `l` was running then. -/
structure Earlier (s s' : Scheduler) (l : List ReqId) : Prop where
  nextBatch : s'.nextBatch = s.nextBatch
  formed : s'.formed = s.formed
  chunkedReq : s'.chunkedReq = s.chunkedReq
  queued : ∀ r, s'.Queued r → s.Queued r
  isChunked : ∀ r, s'.Queued r → (s'.reqs r).isChunked = (s.reqs r).isChunked
  loads : s.LoadsCounted → s'.LoadsCounted
  moves : Moves s [] s' l

theorem NoPrefill.from_earlier {s' : Scheduler} {l : List ReqId} (h : Earlier s s' l)
    (hno : NoPrefill s' t) : NoPrefill s t :=
  ⟨hno.chunkedReq.trans h.chunkedReq, hno.unscheduled, hno.formed.trans h.formed,
    hno.nextBatch.trans h.nextBatch, fun hl => hno.loads (h.loads hl)⟩

theorem NewPrefill.from_earlier {s' : Scheduler} {l : List ReqId} {b : BatchId}
    (h : Earlier s s' l) (hnew : NewPrefill s' t b canRun) : NewPrefill s t b canRun := by
  refine { hnew with
    addr := hnew.addr.trans h.nextBatch, formed := ?_
    source := fun r hr => h.queued r (hnew.source r hr), isChunked := fun r hr => ?_
    chunk_counted := fun r hr => ?_, slot := fun r hr => h.queued r (hnew.slot r hr) }
  · rw [← h.formed]
    exact hnew.formed
  · rw [← h.isChunked r (hnew.source r hr)]
    exact hnew.isChunked r hr
  · rw [← h.isChunked r (hnew.slot r hr)]
    exact hnew.chunk_counted r hr

theorem Formed.from_earlier {s' : Scheduler} {ret : Option BatchId} (h : Earlier s s' [])
    (hf : Formed s' t ret) : Formed s t ret := by
  cases ret with
  | none => exact ⟨NoPrefill.from_earlier h hf.1, h.moves.trans hf.2⟩
  | some b =>
    obtain ⟨⟨canRun, hnew⟩, hm⟩ := hf
    exact ⟨⟨canRun, NewPrefill.from_earlier h hnew⟩, h.moves.trans hm⟩

theorem Earlier.trans {u : Scheduler} {l : List ReqId} (h : Earlier s t []) (h' : Earlier t u l) :
    Earlier s u l where
  nextBatch := h'.nextBatch.trans h.nextBatch
  formed := h'.formed.trans h.formed
  chunkedReq := h'.chunkedReq.trans h.chunkedReq
  queued r hr := h.queued r (h'.queued r hr)
  isChunked r hr := (h'.isChunked r hr).trans (h.isChunked r (h'.queued r hr))
  loads hl := h'.loads (h.loads hl)
  moves := h.moves.trans h'.moves

theorem prioritized_earlier (s : Scheduler) : Earlier s (s.prioritized c) [] := by
  have hperm := perm_insertionSort (fun a b => c.priority a ≤ c.priority b) s.waitingQueue
  refine ⟨rfl, rfl, rfl, fun r => Or.imp_left hperm.mem_iff.mp, fun _ _ => rfl, id,
    .of_eq ?_ (fun _ h => h) (fun _ h => h) rfl ?_⟩
  · intro r
    have := hperm.count_eq r
    change (s.waitingQueue.insertionSort _).count r + s.grammarQueue.count r + _ + _ + _ + _ =
      s.waitingQueue.count r + s.grammarQueue.count r + _ + _ + _ + _
    rw [this]
    rfl
  · intro hq
    exact ⟨fun r hr => hq.1 r (hperm.mem_iff.mp hr), hq.2⟩

theorem mem_preempted (h : r ∈ s.preempted p c) : r ∈ s.running.reqs := by
  unfold preempted at h
  split at h
  · have := (mem_filter.mp (mem_dedup.mp h)).2
    simp only [Bool.and_eq_true, decide_eq_true_eq] at this
    exact this.1
  · exact absurd h not_mem_nil

theorem nodup_preempted (s : Scheduler) : (s.preempted p c).Nodup := by
  unfold preempted
  split
  · exact nodup_dedup _
  · exact nodup_nil

/-- The preempted requests are in hand until they are queued again. -/
theorem preemptToSchedule_runs (hw : Wf s) (hone : ∀ r, s.places [] r ≤ 1) :
    Runs s [] (s.preemptToSchedule p c) (s.preempted p c) := by
  refine keepRunning_runs hw fun r => ?_
  rw [count_filter_ite]
  by_cases hr : r ∈ s.preempted p c
  · have h1 := hone r
    have h2 := count_pos_iff.mpr (mem_preempted p c hr)
    rw [places] at h1
    rw [if_neg (by simpa using hr), count_eq_one_of_mem (s.nodup_preempted p c) hr]
    omega
  · rw [if_pos (by simpa using hr), count_eq_zero.mpr hr, Nat.add_zero]

theorem preemptToSchedule_earlier (hw : Wf s) (hone : ∀ r, s.places [] r ≤ 1) :
    Earlier s (s.preemptToSchedule p c) (s.preempted p c) := by
  have hruns := preemptToSchedule_runs p c hw hone
  refine ⟨rfl, rfl, rfl, fun _ h => h, fun r hr => ?_, id, hruns.moves⟩
  rw [hruns.only.reqs r]
  intro hrun
  have h1 := hone r
  have h2 := count_pos_iff.mpr hrun
  rw [places, count_toList] at h1
  rcases hr with hr | hr | hr
  · have := count_pos_iff.mpr (show r ∈ s.waitingQueue from hr)
    omega
  · have := count_pos_iff.mpr (show r ∈ s.grammarQueue from hr)
    omega
  · rw [if_pos (show s.chunkedReq = some r from hr)] at h1
    omega

theorem formBatch_holds (h : r ∉ canRun) :
    ((s.formBatch p c canRun newChunked).reqs r).holds = (s.reqs r).holds := by
  have hreq := (s.createBatch_req p c canRun newChunked r).2.1 h
  unfold formBatch
  split
  · obtain ⟨-, B, hrest⟩ := (s.createBatch p c canRun newChunked).mixWithRunning_same s.nextBatch
    rw [hrest]
    exact hreq
  · exact hreq

theorem addChunkedReq_state (s : Scheduler) :
    ∃ k f, (s.addChunkedReq p c).1 =
      { s with chunkedReq := k, chunkedReqScheduledLastIter := f } := by
  rcases s.addChunkedReq_cases p c with h | ⟨r, hr, h | h⟩
  · exact ⟨s.chunkedReq, false, by rw [h]⟩
  · exact ⟨s.chunkedReq, true, by rw [h]⟩
  · exact ⟨none, false, by rw [h]⟩

theorem examined_spec (hw : Wf s) (hloads : s.LoadsCounted) :
    SameRequests s (s.examined p c) ∧ Wf (s.examined p c) ∧ FormFrame s (s.examined p c) ∧
      (s.examined p c).LoadsCounted ∧ (s.examined p c).nextBatch = s.nextBatch ∧
      (s.examined p c).formed = s.formed ∧
      (s.examined p c).chunkedReq = (s.addChunkedReq p c).1.chunkedReq ∧
      (s.examined p c).chunkedReqScheduledLastIter =
        (s.addChunkedReq p c).1.chunkedReqScheduledLastIter := by
  obtain ⟨k, f, h⟩ := s.addChunkedReq_state p c
  have hw1 : Wf ((s.addChunkedReq p c).1.startLoadBack c) := by
    rw [h]
    exact ⟨hw.1, hw.2, hw.3⟩
  have hl1 : ((s.addChunkedReq p c).1.startLoadBack c).LoadsCounted := by
    rw [h]
    change (s.ongoingLoadBack ++ c.loads).Perm (s.ackLoadQueue.flatten ++ (s.loadQueue ++ c.loads))
    rw [← append_assoc]
    exact hloads.append_right c.loads
  refine ⟨?_, wf_setRunning hw1 _, ?_, hl1, ?_, ?_, rfl, rfl⟩
  · unfold examined
    refine ⟨?_, ?_, ?_, ?_, ?_, ?_, ?_⟩
    case refine_4 =>
      rw [running_setRunning, h]
      rfl
    all_goals
      rw [h]
      rfl
  · unfold examined
    rw [h]
    exact ⟨rfl, rfl, rfl, rfl, rfl⟩
  · unfold examined
    rw [h]
    rfl
  · unfold examined
    rw [h]
    rfl

theorem addToBatch_scheduled (p : Params) (c : Choices) (s : Scheduler) :
    let chunk := s.addChunkedReq p c
    let added := addWaiting c s.waitingQueue chunk.1.chunkedReq.isNone
    (chunk.1.chunkedReqScheduledLastIter || added.2.isSome) = true →
      ∃ r, (added.2 <|> chunk.1.chunkedReq) = some r ∧ r ∈ chunk.2 ++ added.1 := by
  intro chunk added hflag
  cases hnew : added.2 with
  | some r =>
    exact ⟨r, rfl, mem_append_right _ (addWaiting_chunk_mem c s.waitingQueue _ hnew)⟩
  | none =>
    rw [hnew, Option.isSome_none] at hflag
    rcases s.addChunkedReq_cases p c with h | ⟨r, hr, h | h⟩
    · exact absurd hflag (by simp [chunk, h])
    · refine ⟨r, ?_, ?_⟩
      · simpa [chunk, h] using hr
      · simp [chunk, h]
    · exact absurd hflag (by simp [chunk, h])

theorem addToBatch_spec (hw : Wf s)
    (hp : s.hybridBubblePendingPrefillBatch = none) (hone : ∀ r, s.places [] r ≤ 1)
    (hloads : s.LoadsCounted) :
    Wf (s.addToBatch p c).1 ∧ FormFrame s (s.addToBatch p c).1 ∧
      Formed s (s.addToBatch p c).1 (s.addToBatch p c).2 := by
  have hw0 : Wf (s.prioritized c) := ⟨hw.1, hw.2, hw.3⟩
  have hone0 := (s.prioritized_earlier c).moves.one hone
  have hearly := (s.prioritized_earlier c).trans (preemptToSchedule_earlier p c hw0 hone0)
  have hw1 := (preemptToSchedule_runs p c hw0 hone0).wf hw0
  have hfree : ∀ r ∈ (s.prioritized c).preempted p c,
      (((s.prioritized c).preemptToSchedule p c).reqs r).holds = false := fun r => keepRunning_free
  set s1 := (s.prioritized c).preemptToSchedule p c
  set l := (s.prioritized c).preempted p c
  have hone1 := hearly.moves.one hone
  obtain ⟨hsame, hw2, hff, hl2, hn, hfm, hslot, hflag⟩ := examined_spec p c hw1 hloads
  have hsel := s1.selects_addToBatch p c
  have hsched := s1.addToBatch_scheduled p c
  have hcases := s1.addChunkedReq_cases p c
  set chunk := s1.addChunkedReq p c
  set added := addWaiting c s1.waitingQueue chunk.1.chunkedReq.isNone
  set s2 := s1.examined p c
  have hff' : FormFrame s s2 := ⟨hff.1, hff.2, hff.3, hff.4, hff.5⟩
  have heq : s.addToBatch p c = if (chunk.2 ++ added.1).isEmpty then
        ({ s2 with dropped := l ++ s2.dropped }, none)
      else ((s2.formBatch p c (chunk.2 ++ added.1) added.2).addRequestsToQueue p l,
        some s2.nextBatch) := rfl
  rw [heq]
  by_cases hempty : (chunk.2 ++ added.1).isEmpty = true
  · rw [if_pos hempty]
    refine ⟨⟨hw2.1, hw2.2, hw2.3⟩, ⟨hff'.1, hff'.2, hff'.3, hff'.4, hff'.5⟩, ?_⟩
    have hcan : chunk.2 = [] := (append_eq_nil_iff.mp (isEmpty_iff.mp hempty)).1
    -- No request runs, so the chunked request was not scheduled either.
    rcases hcases with h | ⟨r, hr, h | h⟩
    · have hslot' : s2.chunkedReq = s1.chunkedReq := by rw [hslot, h]
      have hno : NoPrefill s1 { s2 with dropped := l ++ s2.dropped } :=
        ⟨hslot', .inr (hflag.trans (by rw [h])), hfm, hn, fun _ => hl2⟩
      have hplaces : ∀ r, s2.places [] r + l.count r = s1.places l r := by
        intro r
        have hpark1 : s1.parked = [] := parked_of_none hp
        have hpark2 : s2.parked = [] := parked_of_none (hff'.pending.trans hp)
        rw [places, places, hsame.waitingQueue, hsame.grammarQueue, hsame.running, hslot', hpark1,
          hpark2, count_nil]
        omega
      refine ⟨NoPrefill.from_earlier hearly hno, hearly.moves.trans
        ⟨fun r => ?_, fun r hlt => ?_, fun r hf => ?_, fun r hr => ?_, hsame.arrived, ?_⟩⟩
      · exact (le_add_right _ _).trans (hplaces r).le
      · have := hplaces r
        change s2.places [] r < _ at hlt
        exact .inr (.inr (mem_append_left _ (count_pos_iff.mp (by omega))))
      · rw [← hsame.reqs] at hf
        exact hf
      · exact Or.imp_right (mem_append_right _) (hsame.left ▸ hr : s2.Left r)
      · change s1.QueuedFree → s2.QueuedFree
        unfold QueuedFree
        rw [hsame.reqs, hsame.waitingQueue, hsame.grammarQueue]
        exact id
    · rw [h] at hcan
      exact absurd hcan (cons_ne_nil _ _)
    · rw [h] at hcan
      exact absurd hcan (cons_ne_nil _ _)
  · rw [if_neg hempty]
    have hselected : Selected s1 s2 (chunk.2 ++ added.1) added.2 := by
      refine ⟨hsame, hw2, hff'.pending.trans hp, ?_, fun r => ?_, ?_, hl2⟩
      · exact hsel
      · have := hone1 r
        rw [places] at this ⊢
        rw [count_nil]
        omega
      · exact hsched
    obtain ⟨hw3, hff3, hnew, hm⟩ := formBatch_spec p c hselected hn hfm hff
    have hfree3 : ∀ r ∈ l, ((s2.formBatch p c (chunk.2 ++ added.1) added.2).reqs r).holds = false := by
      intro r hr
      rw [formBatch_holds, hsame.reqs]
      · exact hfree r hr
      · intro hrun
        have h1 := hone1 r
        have h2 : (chunk.2 ++ added.1).count r ≤ _ := hsel.count_le r
        have h3 := count_pos_iff.mpr hr
        have h4 := count_pos_iff.mpr hrun
        rw [places] at h1
        omega
    set t := s2.formBatch p c (chunk.2 ++ added.1) added.2
    have hm := (hm.add l).trans (t.moves_addRequestsToQueue p _ l hfree3)
    obtain ⟨w, rep, he, -⟩ := t.addRequestsToQueue_eq p l
    rw [append_nil, he] at hm
    rw [he]
    exact ⟨⟨hw3.1, hw3.2, hw3.3⟩, ⟨hff3.1, hff3.2, hff3.3, hff3.4, hff3.5⟩,
      ⟨_, NewPrefill.from_earlier hearly { hnew with }⟩, hearly.moves.trans hm⟩

theorem moveReadyGrammarRequests_earlier (hfree : s.QueuedFree) :
    Earlier s (s.moveReadyGrammarRequests p c) [] := by
  obtain ⟨hf, hm⟩ := s.moveReadyGrammarRequests_spec p c [] hfree
  refine ⟨hf.nextBatch, hf.formed, hf.chunkedReq, ?_, ?_, hf.loads, hm⟩
  · rintro r (hr | hr | hr)
    · exact (mem_waiting_addRequestsToQueue hr).imp_right fun h => .inl (mem_of_mem_filter h)
    · rw [moveReadyGrammarRequests, (addRequestsToQueue_same p _ _).2.2.2.1] at hr
      exact .inr (.inl (mem_of_mem_filter hr))
    · exact .inr (.inr (hf.chunkedReq ▸ hr))
  · intro r _
    rw [moveReadyGrammarRequests, (addRequestsToQueue_same p _ _).2.2.1]
    simp only [setReqs]
    split <;> rfl

theorem checkHicacheEvents_earlier (s : Scheduler) : Earlier s (s.checkHicacheEvents c) [] :=
  ⟨rfl, rfl, rfl, fun _ h => h, fun _ _ => rfl, checkHicacheEvents_loads c,
    .of_eq (fun _ => rfl) (fun _ h => h) (fun _ h => h) rfl id⟩

theorem setRunning_earlier (hw : Wf s) {x : ScheduleBatch} (h : x.reqs = s.running.reqs) :
    Earlier s (s.setRunning x) [] :=
  ⟨rfl, rfl, rfl, fun _ h => h, fun _ _ => rfl, id, moves_setRunning_same hw [] h⟩

theorem lookAtQueues_spec (hw : Wf s) (hfree : s.QueuedFree) :
    Wf (s.lookAtQueues p c) ∧ FormFrame s (s.lookAtQueues p c) ∧
      Earlier s (s.lookAtQueues p c) [] := by
  obtain ⟨hf, -⟩ := s.moveReadyGrammarRequests_spec p c [] hfree
  have hsame := addRequestsToQueue_same p
    { s.setReqs (s.grammarQueue.filter c.grammarFailed) fun q => { q with toFinish := true } with
      grammarQueue := s.grammarQueue.filter fun r => !(c.grammarReady r || c.grammarFailed r) }
    (s.grammarQueue.filter fun r => c.grammarReady r || c.grammarFailed r)
  set s1 := (s.moveReadyGrammarRequests p c).checkHicacheEvents c with hs1
  have hw1 : Wf s1 := by
    have := hf.wf hsame.1 hw
    exact ⟨this.1, this.2, this.3⟩
  have hff : FormFrame s s1 := ⟨hf.lastBatch, hf.pending, hf.resultQueue, hf.returned,
    hsame.2.2.2.2⟩
  have he : Earlier s s1 [] :=
    (moveReadyGrammarRequests_earlier p c hfree).trans (checkHicacheEvents_earlier c _)
  unfold lookAtQueues
  split
  · exact ⟨wf_setRunning hw1 _, ⟨hff.1, hff.2, hff.3, hff.4, hff.5⟩,
      he.trans (setRunning_earlier hw1 rfl)⟩
  · exact ⟨hw1, hff, he⟩

theorem getNewBatchPrefill_spec (hw : Wf s)
    (hp : s.hybridBubblePendingPrefillBatch = none) (hone : ∀ r, s.places [] r ≤ 1)
    (hfree : s.QueuedFree) (hloads : s.LoadsCounted) :
    Wf (s.getNewBatchPrefill p c).1 ∧ FormFrame s (s.getNewBatchPrefill p c).1 ∧
      Formed s (s.getNewBatchPrefill p c).1 (s.getNewBatchPrefill p c).2 := by
  obtain ⟨hw1, hff1, he⟩ := lookAtQueues_spec p c hw hfree
  have hnone : ∀ t : Scheduler, t.chunkedReq = (s.lookAtQueues p c).chunkedReq →
      (s.lookAtQueues p c).chunkedReq.isNone = true → t.chunkedReq = none := by
    intro t ht hn
    rw [ht]
    exact Option.isNone_iff_eq_none.mp hn
  have hstay : ∀ t : Scheduler, Earlier (s.lookAtQueues p c) t [] →
      (s.lookAtQueues p c).chunkedReq.isNone = true → Formed s t none := by
    intro t ht hn
    have hst := he.trans ht
    exact ⟨⟨hst.chunkedReq, .inl (hnone t ht.chunkedReq hn), hst.formed, hst.nextBatch,
      hst.loads⟩, hst.moves⟩
  set s1 := s.lookAtQueues p c with hs1
  unfold getNewBatchPrefill
  simp only
  split
  case isTrue h =>
    have hn : s1.chunkedReq.isNone = true := (Bool.and_eq_true _ _ ▸ h : _ ∧ _).2
    refine ⟨hw1, hff1, hstay s1 ⟨rfl, rfl, rfl, fun _ h => h, fun _ _ => rfl, id, .refl s1 []⟩ hn⟩
  case isFalse =>
    split
    case isTrue h =>
      simp only [Bool.and_eq_true] at h
      exact ⟨wf_setRunning hw1 _, ⟨hff1.1, hff1.2, hff1.3, hff1.4, hff1.5⟩,
        hstay _ (setRunning_earlier hw1 rfl) h.1.2⟩
    case isFalse =>
      obtain ⟨hw2, hff2, hform⟩ := addToBatch_spec p c hw1 (hff1.pending.trans hp)
        (he.moves.one hone) (he.loads hloads)
      refine ⟨hw2, ⟨hff2.1.trans hff1.1, hff2.2.trans hff1.2, hff2.3.trans hff1.3,
        hff2.4.trans hff1.4, hff2.5.trans hff1.5⟩, hform.from_earlier he⟩

end Scheduler

end Fluxfer.Sched
