import Fluxfer.Sched.Loop

/-!
# Where a request is

`places` counts the positions of a request: in the waiting queue, the grammar queue, the running
batch, the last batch, the batch that was put aside, the chunked slot, and in the hands of the code
that moves it. The chunked request of a prefill batch is counted in the chunked slot only, since
merging a batch leaves it out.
-/

namespace Fluxfer.Sched

open List

theorem count_filter_ite (p : ReqId → Bool) (r : ReqId) (l : List ReqId) :
    (l.filter p).count r = if p r then l.count r else 0 := by
  split
  case isTrue h => exact count_filter h
  case isFalse h =>
    exact count_eq_zero.mpr fun hm => h (mem_filter.mp hm).2

theorem count_toList (o : Option ReqId) (r : ReqId) :
    o.toList.count r = if o = some r then 1 else 0 := by
  cases o with
  | none => rfl
  | some a => by_cases h : a = r <;> simp [h]

/-- The requests that merging the batch into the running batch carries over. -/
def ScheduleBatch.merging (b : ScheduleBatch) : List ReqId :=
  b.reqs.filter fun r => decide (b.chunkedReq ≠ some r)

theorem ScheduleBatch.count_merging (b : ScheduleBatch) (r : ReqId) :
    b.merging.count r = if b.chunkedReq = some r then 0 else b.reqs.count r := by
  rw [ScheduleBatch.merging, count_filter_ite]
  by_cases h : b.chunkedReq = some r <;> simp [h]

namespace Scheduler

/-- A request left unfinished: it was answered, or was preempted and put into no queue. -/
def Left (s : Scheduler) (r : ReqId) : Prop := r ∈ s.replied ∨ r ∈ s.dropped

def parked (s : Scheduler) : List ReqId :=
  match s.hybridBubblePendingPrefillBatch with
  | none => []
  | some b => (s.batches b).merging

/-- In how many places a request is, given the requests in hand. -/
def places (s : Scheduler) (inHand : List ReqId) (r : ReqId) : Nat :=
  s.waitingQueue.count r + s.grammarQueue.count r + s.running.reqs.count r + inHand.count r +
    s.parked.count r + s.chunkedReq.toList.count r

/-- The loads on the way are those that were started and those that are queued. -/
def LoadsCounted (s : Scheduler) : Prop :=
  s.ongoingLoadBack.Perm (s.ackLoadQueue.flatten ++ s.loadQueue)

/-- Queued requests own no slot and no lock. -/
def QueuedFree (s : Scheduler) : Prop :=
  (∀ r ∈ s.waitingQueue, (s.reqs r).holds = false) ∧
    ∀ r ∈ s.grammarQueue, (s.reqs r).holds = false

end Scheduler

/-- The addresses are in use, and the batch that was put aside is not the running batch. -/
structure Wf (s : Scheduler) : Prop where
  running_lt : s.runningBatch < s.nextBatch
  pending_lt : ∀ b, s.hybridBubblePendingPrefillBatch = some b → b < s.nextBatch
  pending_ne : ∀ b, s.hybridBubblePendingPrefillBatch = some b → b ≠ s.runningBatch

/-- What an operation does to the places of the requests. -/
structure Moves (s : Scheduler) (l : List ReqId) (t : Scheduler) (m : List ReqId) : Prop where
  le : ∀ r, t.places m r ≤ s.places l r
  kept : ∀ r, t.places m r < s.places l r → (t.reqs r).finished = true ∨ t.Left r
  finished : ∀ r, (s.reqs r).finished = true → (t.reqs r).finished = true
  left : ∀ r, s.Left r → t.Left r
  arrived : t.arrived = s.arrived
  free : s.QueuedFree → t.QueuedFree

/-- What the operations on queues and on the running batch leave alone. -/
structure Frame (s t : Scheduler) : Prop where
  nextBatch : t.nextBatch = s.nextBatch
  lastBatch : t.lastBatch = s.lastBatch
  chunkedReq : t.chunkedReq = s.chunkedReq
  scheduled : t.chunkedReqScheduledLastIter = s.chunkedReqScheduledLastIter
  pending : t.hybridBubblePendingPrefillBatch = s.hybridBubblePendingPrefillBatch
  pending_batch : ∀ b, s.hybridBubblePendingPrefillBatch = some b → t.batches b = s.batches b
  resultQueue : t.resultQueue = s.resultQueue
  loadQueue : t.loadQueue = s.loadQueue
  ongoingLoadBack : t.ongoingLoadBack = s.ongoingLoadBack
  ackLoadQueue : t.ackLoadQueue = s.ackLoadQueue
  formed : t.formed = s.formed
  returned : t.returned = s.returned

namespace Moves

variable {s t : Scheduler} {l m : List ReqId}

theorem of_eq (hp : ∀ r, t.places m r = s.places l r)
    (hf : ∀ r, (s.reqs r).finished = true → (t.reqs r).finished = true)
    (hr : ∀ r, s.Left r → t.Left r) (ha : t.arrived = s.arrived)
    (hq : s.QueuedFree → t.QueuedFree) : Moves s l t m :=
  ⟨fun r => (hp r).le, fun r h => absurd h (by rw [hp r]; exact Nat.lt_irrefl _), hf, hr, ha, hq⟩

theorem refl (s : Scheduler) (l : List ReqId) : Moves s l s l :=
  of_eq (fun _ => rfl) (fun _ h => h) (fun _ h => h) rfl id

theorem trans {u : Scheduler} {n : List ReqId} (h : Moves s l t m) (h' : Moves t m u n) :
    Moves s l u n where
  le r := (h'.le r).trans (h.le r)
  kept r hlt := by
    by_cases ht : u.places n r < t.places m r
    · exact h'.kept r ht
    · rcases h.kept r (lt_of_le_of_lt (not_lt.mp ht) hlt) with hf | hr
      · exact .inl (h'.finished r hf)
      · exact .inr (h'.left r hr)
  finished r hf := h'.finished r (h.finished r hf)
  left r hr := h'.left r (h.left r hr)
  arrived := h'.arrived.trans h.arrived
  free hq := h'.free (h.free hq)

theorem add (h : Moves s l t m) (k : List ReqId) : Moves s (k ++ l) t (k ++ m) := by
  have hsum : ∀ (u : Scheduler) (n : List ReqId) (r : ReqId),
      u.places (k ++ n) r = u.places n r + k.count r := by
    intro u n r
    simp only [Scheduler.places, count_append]
    omega
  refine ⟨fun r => ?_, fun r hlt => ?_, h.finished, h.left, h.arrived, h.free⟩
  · have := h.le r
    rw [hsum, hsum]
    omega
  · rw [hsum, hsum] at hlt
    exact h.kept r (by omega)

theorem one (h : Moves s l t m) (ho : ∀ r, s.places l r ≤ 1) (r : ReqId) : t.places m r ≤ 1 :=
  (h.le r).trans (ho r)

end Moves

namespace Frame

variable {s t : Scheduler}

theorem refl (s : Scheduler) : Frame s s :=
  ⟨rfl, rfl, rfl, rfl, rfl, fun _ _ => rfl, rfl, rfl, rfl, rfl, rfl, rfl⟩

theorem trans {u : Scheduler} (h : Frame s t) (h' : Frame t u) : Frame s u where
  nextBatch := h'.nextBatch.trans h.nextBatch
  lastBatch := h'.lastBatch.trans h.lastBatch
  chunkedReq := h'.chunkedReq.trans h.chunkedReq
  scheduled := h'.scheduled.trans h.scheduled
  pending := h'.pending.trans h.pending
  pending_batch b hb := (h'.pending_batch b (h.pending.trans hb)).trans (h.pending_batch b hb)
  resultQueue := h'.resultQueue.trans h.resultQueue
  loadQueue := h'.loadQueue.trans h.loadQueue
  ongoingLoadBack := h'.ongoingLoadBack.trans h.ongoingLoadBack
  ackLoadQueue := h'.ackLoadQueue.trans h.ackLoadQueue
  formed := h'.formed.trans h.formed
  returned := h'.returned.trans h.returned

theorem parked (h : Frame s t) : t.parked = s.parked := by
  unfold Scheduler.parked
  rw [h.pending]
  cases hb : s.hybridBubblePendingPrefillBatch with
  | none => rfl
  | some b => simp only [h.pending_batch b hb]

theorem loads (h : Frame s t) (hl : s.LoadsCounted) : t.LoadsCounted := by
  unfold Scheduler.LoadsCounted
  rw [h.ongoingLoadBack, h.ackLoadQueue, h.loadQueue]
  exact hl

theorem wf (h : Frame s t) (hr : t.runningBatch = s.runningBatch) (hw : Wf s) : Wf t where
  running_lt := by rw [hr, h.nextBatch]; exact hw.running_lt
  pending_lt b hb := by rw [h.nextBatch]; exact hw.pending_lt b (h.pending ▸ hb)
  pending_ne b hb := by rw [hr]; exact hw.pending_ne b (h.pending ▸ hb)

theorem places_eq (h : Frame s t) (m : List ReqId) (r : ReqId) :
    t.places m r = t.waitingQueue.count r + t.grammarQueue.count r + t.running.reqs.count r +
      m.count r + s.parked.count r + s.chunkedReq.toList.count r := by
  rw [Scheduler.places, h.parked, h.chunkedReq]

end Frame

namespace Scheduler

variable {b : BatchId} {s : Scheduler} {x : ScheduleBatch}

/-! ## Changes to the running batch and to the requests -/

@[simp]
theorem running_setRunning (s : Scheduler) (x : ScheduleBatch) : (s.setRunning x).running = x := by
  simp only [setRunning, setBatch, running, Function.update_self]

theorem setBatch_batches_of_ne (s : Scheduler) {d : BatchId} (x : ScheduleBatch) (h : d ≠ b) :
    (s.setBatch b x).batches d = s.batches d := by
  simp only [setBatch, Function.update_of_ne h]

theorem frame_setBatch (s : Scheduler) (x : ScheduleBatch)
    (h : ∀ d, s.hybridBubblePendingPrefillBatch = some d → d ≠ b) : Frame s (s.setBatch b x) :=
  ⟨rfl, rfl, rfl, rfl, rfl, fun d hd => s.setBatch_batches_of_ne x (h d hd), rfl, rfl, rfl, rfl,
    rfl, rfl⟩

theorem frame_setRunning (hw : Wf s) (x : ScheduleBatch) : Frame s (s.setRunning x) :=
  s.frame_setBatch x hw.pending_ne

theorem wf_setRunning (hw : Wf s) (x : ScheduleBatch) : Wf (s.setRunning x) :=
  (frame_setRunning hw x).wf rfl hw

theorem moves_setRunning (hw : Wf s) (l : List ReqId)
    (hle : ∀ r, x.reqs.count r ≤ s.running.reqs.count r)
    (hf : ∀ r, x.reqs.count r < s.running.reqs.count r → (s.reqs r).finished = true) :
    Moves s l (s.setRunning x) l := by
  have hp : ∀ r, (s.setRunning x).places l r = s.waitingQueue.count r + s.grammarQueue.count r +
      x.reqs.count r + l.count r + s.parked.count r + s.chunkedReq.toList.count r := by
    intro r
    rw [(frame_setRunning hw x).places_eq, running_setRunning]
    rfl
  refine ⟨?_, ?_, fun r h => h, fun r h => h, rfl, id⟩
  · intro r
    have := hle r
    rw [hp r, places]
    omega
  · intro r hlt
    rw [hp r, places] at hlt
    exact .inl (hf r (by omega))

theorem moves_setRunning_same (hw : Wf s) (l : List ReqId) (h : x.reqs = s.running.reqs) :
    Moves s l (s.setRunning x) l :=
  moves_setRunning hw l (fun r => by rw [h]) fun r hlt => absurd hlt (by rw [h]; exact lt_irrefl _)

theorem moves_filterRunning (hw : Wf s) (l : List ReqId) :
    Moves s l (s.filterBatch s.runningBatch []) l := by
  refine moves_setRunning hw l ?_ ?_
  · intro r
    exact List.Sublist.count_le r filter_sublist
  · intro r hlt
    rw [count_filter_ite] at hlt
    split at hlt
    case isTrue => exact absurd hlt (lt_irrefl _)
    case isFalse h => simpa using h

theorem frame_setReqs (s : Scheduler) (rs : List ReqId) (f : Req → Req) : Frame s (s.setReqs rs f) :=
  ⟨rfl, rfl, rfl, rfl, rfl, fun _ _ => rfl, rfl, rfl, rfl, rfl, rfl, rfl⟩

/-- A change to requests that neither revives one nor gives it slots. -/
structure Harmless (q q' : Req) : Prop where
  finished : q.finished = true → q'.finished = true
  holds : q.holds = false → q'.holds = false

theorem moves_reqs {t : Scheduler} (l : List ReqId) (h : t = { s with reqs := t.reqs })
    (hq : ∀ r, Harmless (s.reqs r) (t.reqs r)) : Moves s l t l := by
  rw [h]
  refine .of_eq (fun _ => rfl) (fun r => (hq r).finished) (fun _ h => h) rfl ?_
  intro hfree
  exact ⟨fun r hr => (hq r).holds (hfree.1 r hr), fun r hr => (hq r).holds (hfree.2 r hr)⟩

theorem moves_setReqs (s : Scheduler) (l rs : List ReqId) {f : Req → Req}
    (hf : ∀ q, Harmless q (f q)) : Moves s l (s.setReqs rs f) l := by
  refine moves_reqs l rfl ?_
  intro r
  simp only [setReqs]
  split
  · exact hf _
  · exact ⟨id, id⟩

theorem frame_publish (s : Scheduler) (rs : List ReqId) : Frame s (s.publish rs) :=
  ⟨rfl, rfl, rfl, rfl, rfl, fun _ _ => rfl, rfl, rfl, rfl, rfl, rfl, rfl⟩

theorem moves_publish (s : Scheduler) (l rs : List ReqId) : Moves s l (s.publish rs) l :=
  .of_eq (fun _ => rfl) (fun _ h => h) (fun _ h => h) rfl id

/-! ## The queues -/

theorem addRequestToQueue_eq (p : Params) (s : Scheduler) (r : ReqId) :
    ∃ w rep : List ReqId, s.addRequestToQueue p r =
      { s with waitingQueue := s.waitingQueue ++ w, replied := s.replied ++ rep } ∧
      ((w = [r] ∧ rep = []) ∨ (w = [] ∧ rep = [r])) := by
  unfold addRequestToQueue
  split
  · exact ⟨[r], [], by simp only [append_nil], .inl ⟨rfl, rfl⟩⟩
  · split
    · exact ⟨[r], [], by simp only [append_nil], .inl ⟨rfl, rfl⟩⟩
    · exact ⟨[], [r], by simp only [append_nil], .inr ⟨rfl, rfl⟩⟩

theorem addRequestsToQueue_eq (p : Params) (s : Scheduler) (rs : List ReqId) :
    ∃ w rep : List ReqId, s.addRequestsToQueue p rs =
      { s with waitingQueue := s.waitingQueue ++ w, replied := s.replied ++ rep } ∧
      ∀ r, w.count r + rep.count r = rs.count r := by
  induction rs generalizing s with
  | nil =>
    refine ⟨[], [], ?_, fun _ => rfl⟩
    simp only [addRequestsToQueue, foldl_nil, append_nil]
  | cons a rs ih =>
    obtain ⟨w, rep, hone, hcases⟩ := s.addRequestToQueue_eq p a
    obtain ⟨w', rep', hrest, hcount⟩ := ih (s.addRequestToQueue p a)
    refine ⟨w ++ w', rep ++ rep', ?_, ?_⟩
    · change (s.addRequestToQueue p a).addRequestsToQueue p rs = _
      rw [hrest, hone]
      simp only [append_assoc]
    · intro r
      have := hcount r
      rcases hcases with ⟨rfl, rfl⟩ | ⟨rfl, rfl⟩ <;>
        simp only [count_append, count_cons, count_nil] <;> omega

theorem frame_addRequestsToQueue (p : Params) (s : Scheduler) (rs : List ReqId) :
    Frame s (s.addRequestsToQueue p rs) := by
  obtain ⟨w, rep, h, -⟩ := s.addRequestsToQueue_eq p rs
  rw [h]
  exact ⟨rfl, rfl, rfl, rfl, rfl, fun _ _ => rfl, rfl, rfl, rfl, rfl, rfl, rfl⟩

theorem addRequestsToQueue_same (p : Params) (s : Scheduler) (rs : List ReqId) :
    (s.addRequestsToQueue p rs).runningBatch = s.runningBatch ∧
      (s.addRequestsToQueue p rs).batches = s.batches ∧
      (s.addRequestsToQueue p rs).reqs = s.reqs ∧
      (s.addRequestsToQueue p rs).grammarQueue = s.grammarQueue ∧
      (s.addRequestsToQueue p rs).published = s.published := by
  obtain ⟨w, rep, h, -⟩ := s.addRequestsToQueue_eq p rs
  rw [h]
  exact ⟨rfl, rfl, rfl, rfl, rfl⟩

theorem mem_waiting_addRequestsToQueue {p : Params} {rs : List ReqId} {r : ReqId}
    (h : r ∈ (s.addRequestsToQueue p rs).waitingQueue) : r ∈ s.waitingQueue ∨ r ∈ rs := by
  obtain ⟨w, rep, he, hcount⟩ := s.addRequestsToQueue_eq p rs
  rw [he] at h
  rcases mem_append.mp h with h | h
  · exact .inl h
  · have h1 := hcount r
    have h2 := count_pos_iff.mpr h
    exact .inr (count_pos_iff.mp (by omega))

theorem moves_addRequestsToQueue (p : Params) (s : Scheduler) (l rs : List ReqId)
    (hfree : ∀ r ∈ rs, (s.reqs r).holds = false) :
    Moves s (rs ++ l) (s.addRequestsToQueue p rs) l := by
  obtain ⟨w, rep, h, hcount⟩ := s.addRequestsToQueue_eq p rs
  have hp : ∀ r, (s.addRequestsToQueue p rs).places l r + rep.count r = s.places (rs ++ l) r := by
    intro r
    have := hcount r
    rw [(s.frame_addRequestsToQueue p rs).places_eq, h]
    simp only [places, running, count_append]
    omega
  refine ⟨fun r => ?_, fun r hlt => ?_, ?_, ?_, ?_, ?_⟩
  · have := hp r
    omega
  · have := hp r
    refine .inr (.inl ?_)
    rw [h]
    exact mem_append_right _ (count_pos_iff.mp (by omega))
  all_goals rw [h]
  · exact fun _ hf => hf
  · exact fun r => Or.imp_left (mem_append_left _)
  · intro hq
    refine ⟨fun r hr => ?_, hq.2⟩
    rcases mem_append.mp hr with hr | hr
    · exact hq.1 r hr
    · have := hcount r
      have := count_pos_iff.mpr hr
      exact hfree r (count_pos_iff.mp (by omega))

theorem abortOnWaitingTimeout_spec (c : Choices) (s : Scheduler) (l : List ReqId) :
    Frame s (s.abortOnWaitingTimeout c) ∧ Moves s l (s.abortOnWaitingTimeout c) l := by
  have hframe : Frame s (s.abortOnWaitingTimeout c) :=
    ⟨rfl, rfl, rfl, rfl, rfl, fun _ _ => rfl, rfl, rfl, rfl, rfl, rfl, rfl⟩
  refine ⟨hframe, ?_, ?_, fun _ h => h, fun r => Or.imp_left (mem_append_left _), rfl, ?_⟩
  · intro r
    have : (s.waitingQueue.filter fun r => !c.waitingTimeout r).count r ≤ s.waitingQueue.count r :=
      List.Sublist.count_le r filter_sublist
    rw [hframe.places_eq]
    simp only [abortOnWaitingTimeout, places, running]
    omega
  · intro r hlt
    refine .inr (.inl (mem_append_right _ (mem_filter.mpr ?_)))
    rw [hframe.places_eq] at hlt
    simp only [abortOnWaitingTimeout, places, running] at hlt
    rw [count_filter_ite] at hlt
    split at hlt
    case isTrue => omega
    case isFalse h =>
      refine ⟨count_pos_iff.mp (by omega), by simpa using h⟩
  · intro hq
    exact ⟨fun r hr => hq.1 r (mem_of_mem_filter hr), hq.2⟩

theorem harmless_mark (q : Req) : Harmless q { q with toFinish := true } := ⟨id, id⟩

theorem moveReadyGrammarRequests_spec (p : Params) (c : Choices) (s : Scheduler)
    (l : List ReqId) (hfree : s.QueuedFree) :
    Frame s (s.moveReadyGrammarRequests p c) ∧ Moves s l (s.moveReadyGrammarRequests p c) l := by
  set isReady : ReqId → Bool := fun r => c.grammarReady r || c.grammarFailed r
  set s1 := s.setReqs (s.grammarQueue.filter c.grammarFailed) fun q => { q with toFinish := true }
  set s2 : Scheduler := { s1 with grammarQueue := s.grammarQueue.filter fun r => !isReady r }
  have hf1 : Frame s s1 := s.frame_setReqs _ _
  have hf2 : Frame s s2 := ⟨rfl, rfl, rfl, rfl, rfl, fun _ _ => rfl, rfl, rfl, rfl, rfl, rfl, rfl⟩
  have h1 : Moves s l s1 l := s.moves_setReqs l _ harmless_mark
  have h2 : Moves s1 l s2 (s.grammarQueue.filter isReady ++ l) := by
    refine .of_eq ?_ (fun _ h => h) (fun _ h => h) rfl ?_
    · intro r
      have e1 : s1.places l r = s.waitingQueue.count r + s.grammarQueue.count r +
        s.running.reqs.count r + l.count r + s.parked.count r + s.chunkedReq.toList.count r :=
        hf1.places_eq l r
      have e2 := hf2.places_eq (s.grammarQueue.filter isReady ++ l) r
      change s2.places _ r = s.waitingQueue.count r +
        (s.grammarQueue.filter fun r => !isReady r).count r + s.running.reqs.count r + _ + _ + _ at e2
      rw [count_append, count_filter_ite, count_filter_ite] at e2
      rw [e2]
      cases isReady r <;>
        simp only [Bool.false_eq_true, Bool.not_false, Bool.not_true, if_true, if_false] <;> omega
    · intro hq
      exact ⟨hq.1, fun r hr => hq.2 r (mem_of_mem_filter hr)⟩
  have h3 : Moves s2 (s.grammarQueue.filter isReady ++ l)
      (s2.addRequestsToQueue p (s.grammarQueue.filter isReady)) l := by
    refine s2.moves_addRequestsToQueue p l _ ?_
    intro r hr
    exact (h1.free hfree).2 r (mem_of_mem_filter hr)
  refine ⟨?_, h1.trans (h2.trans h3)⟩
  exact hf2.trans (s2.frame_addRequestsToQueue p _)

/-! ## The batch of the last iteration -/

/-- The requests of a batch that are still to be merged into the running batch once it has run. -/
def mergingOf (s : Scheduler) : Option BatchId → List ReqId
  | none => []
  | some b => if (s.batches b).isExtend then (s.batches b).merging else []

def lastMerging (s : Scheduler) : List ReqId := s.mergingOf s.lastBatch

/-- A prefill batch that ran last is neither running nor put aside. -/
def LastApart (s : Scheduler) : Prop :=
  ∀ b, s.lastBatch = some b → (s.batches b).isExtend = true →
    b < s.nextBatch ∧ b ≠ s.runningBatch ∧ s.hybridBubblePendingPrefillBatch ≠ some b

theorem wf_takeOver (hw : Wf s) (hlt : b < s.nextBatch)
    (hp : s.hybridBubblePendingPrefillBatch ≠ some b) : Wf (s.takeOver b) := by
  unfold takeOver
  split
  · exact hw
  · split
    · refine ⟨hlt, hw.pending_lt, ?_⟩
      rintro d hd rfl
      exact hp hd
    · exact wf_setRunning hw _

theorem frame_takeOver (hw : Wf s) (b : BatchId) : Frame s (s.takeOver b) := by
  unfold takeOver
  split
  · exact .refl s
  · split
    · exact ⟨rfl, rfl, rfl, rfl, rfl, fun _ _ => rfl, rfl, rfl, rfl, rfl, rfl, rfl⟩
    · exact frame_setRunning hw _

theorem count_running_takeOver (s : Scheduler) (b : BatchId) (r : ReqId) :
    (s.takeOver b).running.reqs.count r =
      s.running.reqs.count r + (s.batches b).reqs.count r := by
  unfold takeOver
  split
  case isTrue h =>
    have : (s.batches b).reqs = [] := isEmpty_iff.mp h
    simp [this]
  case isFalse h =>
    split
    case isTrue h =>
      have : s.running.reqs = [] := isEmpty_iff.mp h
      rw [this]
      simp [running]
    case isFalse h =>
      rw [mergeIntoRunning, running_setRunning, count_append]

theorem takeOver_same (s : Scheduler) (b : BatchId) :
    (s.takeOver b).reqs = s.reqs ∧ (s.takeOver b).waitingQueue = s.waitingQueue ∧
      (s.takeOver b).grammarQueue = s.grammarQueue ∧ (s.takeOver b).Left = s.Left ∧
      (s.takeOver b).arrived = s.arrived ∧ (s.takeOver b).published = s.published := by
  unfold takeOver
  split
  · exact ⟨rfl, rfl, rfl, rfl, rfl, rfl⟩
  · split <;> exact ⟨rfl, rfl, rfl, rfl, rfl, rfl⟩

theorem moves_takeOver (hw : Wf s) (b : BatchId) :
    Moves s (s.batches b).reqs (s.takeOver b) [] := by
  obtain ⟨hreqs, hwait, hgram, hrep, harr, -⟩ := s.takeOver_same b
  refine .of_eq ?_ (by rw [hreqs]; exact fun _ h => h) (by rw [hrep]; exact fun _ h => h) harr
    (by unfold QueuedFree; rw [hreqs, hwait, hgram]; exact id)
  intro r
  rw [(frame_takeOver hw b).places_eq, count_running_takeOver, hwait, hgram, places, count_nil]
  omega

theorem noteShrunk_spec (hw : Wf s) (b : BatchId) (n : Nat) (l : List ReqId) :
    Wf (s.noteShrunk b n) ∧ Frame s (s.noteShrunk b n) ∧ Moves s l (s.noteShrunk b n) l := by
  unfold noteShrunk
  split
  · exact ⟨wf_setRunning hw _, frame_setRunning hw _, moves_setRunning_same hw l rfl⟩
  · exact ⟨hw, .refl s, .refl s l⟩

theorem noteShrunk_batches (s : Scheduler) (n : Nat) (h : b ≠ s.runningBatch) :
    (s.noteShrunk b n).batches b = s.batches b := by
  unfold noteShrunk
  split
  · exact s.setBatch_batches_of_ne _ h
  · rfl

/-- Filtering the batch that is to be merged drops its chunked request, which is in the chunked
slot, and the finished ones. -/
theorem moves_filterLast (hb : b ≠ s.runningBatch) (hp : s.hybridBubblePendingPrefillBatch ≠ some b)
    (hone : ∀ r, s.places (s.batches b).merging r ≤ 1) :
    Moves s (s.batches b).merging
      (s.filterBatch b (s.chunkedReq.toList ++ (s.batches b).chunkedReq.toList))
      ((s.filterBatch b (s.chunkedReq.toList ++ (s.batches b).chunkedReq.toList)).batches b).reqs
    := by
  set t := s.filterBatch b (s.chunkedReq.toList ++ (s.batches b).chunkedReq.toList) with ht
  have hframe : Frame s t := s.frame_setBatch _ fun d hd h => hp (h ▸ hd)
  have hrun : t.running = s.running := s.setBatch_batches_of_ne _ (Ne.symm hb)
  have hcount : ∀ r, (t.batches b).reqs.count r =
      if (s.reqs r).finished = false ∧ s.chunkedReq ≠ some r then (s.batches b).merging.count r
      else 0 := by
    intro r
    simp only [ht, filterBatch, setBatch, Function.update_self]
    rw [count_filter_ite, ScheduleBatch.count_merging]
    by_cases h1 : (s.reqs r).finished = true <;> by_cases h2 : s.chunkedReq = some r <;>
      by_cases h3 : (s.batches b).chunkedReq = some r <;> simp [h2, h3]
  have hp : ∀ r, t.places (t.batches b).reqs r = s.waitingQueue.count r +
      s.grammarQueue.count r + s.running.reqs.count r + (t.batches b).reqs.count r +
      s.parked.count r + s.chunkedReq.toList.count r := by
    intro r
    rw [hframe.places_eq, hrun]
    rfl
  refine ⟨?_, ?_, fun _ h => h, fun _ h => h, rfl, id⟩
  · intro r
    rw [hp r, hcount r, places]
    split <;> omega
  · intro r hlt
    refine .inl ?_
    show (s.reqs r).finished = true
    by_contra hf
    have hslot : s.chunkedReq = some r := by
      by_contra hne
      rw [hp r, hcount r, if_pos ⟨by simpa using hf, hne⟩, places] at hlt
      omega
    -- The request in the chunked slot cannot be among those to be merged as well.
    have h1 := hone r
    have h2 : s.chunkedReq.toList.count r = 1 := by simp [hslot]
    rw [places] at h1
    rw [hp r, places] at hlt
    omega

theorem mergeLastBatch_spec (hw : Wf s) (hl : s.LastApart)
    (hone : ∀ r, s.places s.lastMerging r ≤ 1) :
    Wf s.mergeLastBatch ∧ Frame s s.mergeLastBatch ∧
      Moves s s.lastMerging s.mergeLastBatch [] := by
  cases hlast : s.lastBatch with
  | none =>
    simp only [mergeLastBatch, lastMerging, hlast]
    exact ⟨hw, .refl s, .refl s []⟩
  | some b =>
    by_cases hext : (s.batches b).isExtend = true
    · obtain ⟨hlt, hb, hp⟩ := hl b hlast hext
      have hmerge : s.lastMerging = (s.batches b).merging := by
        simp only [lastMerging, mergingOf, hlast, hext, if_true]
      rw [hmerge] at hone ⊢
      simp only [mergeLastBatch, hlast, hext]
      set t := s.filterBatch b (s.chunkedReq.toList ++ (s.batches b).chunkedReq.toList)
      have hft : Frame s t := s.frame_setBatch _ fun d hd h => hp (h ▸ hd)
      have hwt : Wf t := hft.wf rfl hw
      obtain ⟨hwu, hfu, hmu⟩ :=
        noteShrunk_spec hwt b (s.batches b).reqs.length (t.batches b).reqs
      have hbu := t.noteShrunk_batches (s.batches b).reqs.length hb
      have hmt := moves_takeOver hwu b
      rw [hbu] at hmt
      refine ⟨wf_takeOver hwu ?_ ?_, hft.trans (hfu.trans (frame_takeOver hwu b)),
        (moves_filterLast hb hp hone).trans (hmu.trans hmt)⟩
      · rw [hfu.nextBatch]
        exact hlt
      · rw [hfu.pending]
        exact hp
    · simp only [mergeLastBatch, lastMerging, mergingOf, hlast, hext]
      exact ⟨hw, .refl s, .refl s []⟩

theorem filterPrefillOnly_spec (hw : Wf s) :
    Wf s.filterPrefillOnly ∧ Frame s s.filterPrefillOnly ∧ Moves s [] s.filterPrefillOnly [] := by
  have hf := moves_filterRunning hw []
  have hfr : Frame s (s.filterBatch s.runningBatch []) := frame_setRunning hw _
  have hwf : Wf (s.filterBatch s.runningBatch []) := wf_setRunning hw _
  unfold filterPrefillOnly
  split
  · simp only
    split
    · exact ⟨wf_setRunning hwf _, hfr.trans (frame_setRunning hwf _),
        hf.trans (moves_setRunning_same hwf [] rfl)⟩
    · exact ⟨hwf, hfr, hf⟩
  · exact ⟨hw, .refl s, .refl s []⟩

end Scheduler

end Fluxfer.Sched
