import Fluxfer.Sched.Iterate

/-!
# The messages between two iterations

Receiving, aborting, pausing, resuming and flushing keep what holds between two iterations. They
also keep every unfinished request in some place, with one exception: a pause in retract mode
empties the chunked slot, and a chunked request that is not in the batch that ran last is then
nowhere.
-/

namespace Fluxfer.Sched

open Scheduler ScheduleBatch Function Option Req

variable {s t v : Scheduler} {p : Params} {paused : Prop} {rq : ReqId → Req}
  {w g ar rep : List ReqId} {e : Bool} {r : ReqId}

/-- Every request that was received has finished, left unfinished, or is in a place. -/
def CoveredBy (s : Scheduler) (l : List ReqId) : Prop :=
  ∀ r ∈ s.arrived, (s.reqs r).finished = true ∨ s.Left r ∨ 0 < s.places l r

def Covered (s : Scheduler) : Prop := CoveredBy s s.lastMerging

theorem Moves.covered {l m : List ReqId} (h : Moves s l t m) (hc : CoveredBy s l) :
    CoveredBy t m := by
  intro r hr
  rw [h.arrived] at hr
  by_cases hlt : t.places m r < s.places l r
  · exact (h.kept r hlt).imp_right .inl
  · rcases hc r hr with hf | hrep | hp
    · exact .inl (h.finished r hf)
    · exact .inr (.inl (h.left r hrep))
    · exact .inr (.inr (hp.trans_le (not_lt.mp hlt)))

theorem Between.keep (h : Between p paused s)
    (ht : t = { s with
      reqs := rq, waitingQueue := w, grammarQueue := g, enginePaused := e, arrived := ar
      replied := rep }) (harr : ∀ r ∈ s.arrived, r ∈ t.arrived)
    (hone : ∀ r, t.places s.lastMerging r ≤ 1)
    (hknown : ∀ r, 0 < t.places s.lastMerging r → r ∈ t.arrived) (hfree : t.QueuedFree)
    (hzero : ∀ r ∈ s.arrived, s.places s.lastMerging r = 0 → t.places s.lastMerging r = 0) :
    Between p paused t := by
  subst ht
  have hkept : ∀ b, ChunkKept paused s s.lastMerging b →
      ChunkKept paused { s with
        reqs := rq, waitingQueue := w, grammarQueue := g, enginePaused := e, arrived := ar
        replied := rep } s.lastMerging b := by
    intro b hk r hr
    obtain ⟨h0, h1, h2⟩ := hk r hr
    exact ⟨harr r h0, h1, h2.imp_right fun h2 => ⟨h2.1, hzero r h0 h2.2⟩⟩
  refine ⟨⟨h.wf.1, h.wf.2, h.wf.3⟩, h.cur, fun b hb => (h.last b hb).imp_left fun hl => ?_, hone,
    hknown, hfree, h.loads, fun b hb => (h.pending b hb).imp_right fun h' => h'.imp_right (hkept b),
    h.formed, h.nodup, h.formed_lt, h.scheduled, h.queue⟩
  obtain ⟨h1, h2, h3, h4, h5, h6⟩ := hl
  exact ⟨h1, h2, h3, h4, h5, hkept b h6⟩

theorem Between.of_moves (h : Between p paused s)
    (ht : t = { s with
      reqs := rq, waitingQueue := w, grammarQueue := g, enginePaused := e, arrived := ar
      replied := rep }) (hm : Moves s s.lastMerging t s.lastMerging) : Between p paused t := by
  refine h.keep ht (fun r hr => hm.arrived ▸ hr) (hm.one h.one) ?_ (hm.free h.free) ?_
  · intro r hr
    rw [hm.arrived]
    exact h.known r (hr.trans_le (hm.le r))
  · intro r _ h0
    exact Nat.le_zero.mp ((hm.le r).trans h0.le)

/-! ## Receiving and aborting -/

theorem Between.places_fresh (h : Between p paused s) (hr : r ∉ s.arrived) :
    s.places s.lastMerging r = 0 := by
  by_contra hp
  exact hr (h.known r (Nat.pos_of_ne_zero hp))

theorem receive_eq (p : Params) (s : Scheduler) (r : ReqId) (q : Req) (g : Bool) :
    ∃ w gr rep : List ReqId, s.receive p r q g = { s with
        reqs := update s.reqs r q, arrived := r :: s.arrived
        waitingQueue := s.waitingQueue ++ w, grammarQueue := s.grammarQueue ++ gr
        replied := s.replied ++ rep } ∧
      ((w = [r] ∧ gr = [] ∧ rep = []) ∨ (w = [] ∧ gr = [r] ∧ rep = []) ∨
        (w = [] ∧ gr = [] ∧ rep = [r])) := by
  unfold receive
  cases g with
  | true =>
    refine ⟨[], [r], [], ?_, .inr (.inl ⟨rfl, rfl, rfl⟩)⟩
    simp only [if_true, List.append_nil]
  | false =>
    obtain ⟨w, rep, he, hcases⟩ := addRequestToQueue_eq p
      { s with reqs := update s.reqs r q, arrived := r :: s.arrived } r
    refine ⟨w, [], rep, ?_, ?_⟩
    · simp only [Bool.false_eq_true, if_false, he, List.append_nil]
    · rcases hcases with ⟨rfl, rfl⟩ | ⟨rfl, rfl⟩
      · exact .inl ⟨rfl, rfl, rfl⟩
      · exact .inr (.inr ⟨rfl, rfl, rfl⟩)

theorem receive_spec (h : Between p paused s) (hr : r ∉ s.arrived) (rid : List Char) (only g : Bool) :
    Between p paused (s.receive p r (new rid only) g) ∧
      (Covered s → Covered (s.receive p r (new rid only) g)) := by
  obtain ⟨w, gr, rep, he, hcases⟩ := receive_eq p s r (new rid only) g
  rw [he]
  set t : Scheduler := { s with
    reqs := update s.reqs r (new rid only), arrived := r :: s.arrived
    waitingQueue := s.waitingQueue ++ w, grammarQueue := s.grammarQueue ++ gr
    replied := s.replied ++ rep } with ht
  have hfresh := h.places_fresh hr
  have hplaces : ∀ a, t.places s.lastMerging a =
      s.places s.lastMerging a + w.count a + gr.count a := by
    intro a
    have e : t.places s.lastMerging a = (s.waitingQueue ++ w).count a +
      (s.grammarQueue ++ gr).count a + s.running.reqs.count a + s.lastMerging.count a +
      s.parked.count a + s.chunkedReq.toList.count a := rfl
    rw [e, places, List.count_append, List.count_append]
    omega
  have hother : ∀ a, a ≠ r → w.count a = 0 ∧ gr.count a = 0 := by
    intro a ha
    have hne : r ≠ a := Ne.symm ha
    rcases hcases with ⟨rfl, rfl, rfl⟩ | ⟨rfl, rfl, rfl⟩ | ⟨rfl, rfl, rfl⟩ <;> simp [hne]
  have hself : w.count r + gr.count r ≤ 1 := by
    rcases hcases with ⟨rfl, rfl, rfl⟩ | ⟨rfl, rfl, rfl⟩ | ⟨rfl, rfl, rfl⟩ <;> simp
  have hnew : (t.reqs r).holds = false := by simp [ht, new]
  -- a queued request is an old one or the new one
  have hfree : ∀ old new : List ReqId, (∀ a, a ≠ r → new.count a = 0) →
      (∀ a ∈ old, (s.reqs a).holds = false) → ∀ a ∈ old ++ new, (t.reqs a).holds = false := by
    intro old new hc hold a ha
    by_cases har : a = r
    · exact har ▸ hnew
    · have hmem : a ∈ old := (List.mem_append.mp ha).resolve_right fun hm =>
        absurd (hc a har) (List.count_pos_iff.mpr hm).ne'
      simpa [ht, update_of_ne har] using hold a hmem
  refine ⟨h.keep ht (fun a ha => List.mem_cons_of_mem r ha) (fun a => ?_) (fun a hpos => ?_)
    ⟨hfree _ _ (fun a ha => (hother a ha).1) h.free.1,
      hfree _ _ (fun a ha => (hother a ha).2) h.free.2⟩ (fun a ha h0 => ?_), fun hc a ha => ?_⟩
  · rw [hplaces]
    by_cases ha : a = r
    · subst ha
      omega
    · have := hother a ha
      have := h.one a
      omega
  · by_cases ha : a = r
    · exact ha ▸ List.mem_cons_self
    · have := hother a ha
      rw [hplaces] at hpos
      exact List.mem_cons_of_mem r (h.known a (by omega))
  · have := hother a (ne_of_mem_of_not_mem ha hr)
    rw [hplaces]
    omega
  · have hlast : t.lastMerging = s.lastMerging := rfl
    rw [hlast, hplaces]
    by_cases har : a = r
    · subst har
      rcases hcases with ⟨rfl, rfl, rfl⟩ | ⟨rfl, rfl, rfl⟩ | ⟨rfl, rfl, rfl⟩
      · exact .inr (.inr (by simp))
      · exact .inr (.inr (by simp))
      · exact .inr (.inl (.inl (List.mem_append_right _ List.mem_cons_self)))
    · rcases hc a ((List.mem_cons.mp ha).resolve_left har) with hf | hrep | hp
      · exact .inl (by simpa [ht, update_of_ne har] using hf)
      · exact .inr (.inl (hrep.imp_left (List.mem_append_left _)))
      · exact .inr (.inr (by omega))

theorem abortRequest_moves (s : Scheduler) (a : AbortReq) (l : List ReqId) :
    Moves s l (s.abortRequest a) l := by
  set s1 : Scheduler := { s with
    waitingQueue := s.waitingQueue.filter fun r => !a.hits (s.reqs r)
    replied := s.replied ++ s.waitingQueue.filter fun r => a.hits (s.reqs r) }
  have h1 : Moves s l s1 l := by
    have hplaces : ∀ r, s1.places l r +
        (s.waitingQueue.filter fun r => a.hits (s.reqs r)).count r = s.places l r := by
      intro r
      have e : s1.places l r = (s.waitingQueue.filter fun r => !a.hits (s.reqs r)).count r +
        s.grammarQueue.count r + s.running.reqs.count r + l.count r + s.parked.count r +
        s.chunkedReq.toList.count r := rfl
      rw [e, count_filter_ite, count_filter_ite, places]
      cases a.hits (s.reqs r) <;>
        simp only [Bool.not_false, Bool.not_true, Bool.false_eq_true, if_true, if_false] <;> omega
    refine ⟨fun r => ?_, fun r hlt => .inr (.inl ?_), fun _ h => h,
      fun r => Or.imp_left (List.mem_append_left _), rfl, ?_⟩
    · have := hplaces r
      omega
    · have := hplaces r
      exact List.mem_append_right _ (List.count_pos_iff.mp (by omega))
    · intro hq
      exact ⟨fun r hr => hq.1 r (List.mem_of_mem_filter hr), hq.2⟩
  exact h1.trans ((s1.moves_setReqs l _ harmless_mark).trans (moves_setReqs _ l _ harmless_mark))

theorem abortRequest_spec (h : Between p paused s) (a : AbortReq) :
    Between p paused (s.abortRequest a) ∧ (Covered s → Covered (s.abortRequest a)) :=
  ⟨h.of_moves rfl (abortRequest_moves s a _), (abortRequest_moves s a s.lastMerging).covered⟩

/-! ## Flushing -/

theorem idle_spec {cacheIdle : Bool}
    (hpend : ∀ b, s.hybridBubblePendingPrefillBatch = some b → s.ongoingLoadBack ≠ [])
    (h : s.isFullyIdle p cacheIdle = true) :
    s.running.reqs = [] ∧ s.chunkedReq = none ∧
      (∀ b, s.lastBatch = some b → (s.batches b).reqs = []) ∧
      (∀ b, s.curBatch = some b → (s.batches b).reqs = []) ∧
      (p.enableOverlap = true → s.resultQueue = []) ∧ s.waitingQueue = [] ∧
      s.grammarQueue = [] ∧ s.ongoingLoadBack = [] ∧
      s.hybridBubblePendingPrefillBatch = none := by
  simp only [isFullyIdle, Bool.and_eq_true, Bool.or_eq_true, isEmpty,
    List.isEmpty_iff, isNone_iff_eq_none, all_eq_true] at h
  obtain ⟨⟨⟨⟨⟨⟨⟨⟨hrun, hslot⟩, hlast⟩, hcur⟩, hq⟩, hwait⟩, hgram⟩, -⟩, hload⟩ := h
  refine ⟨hrun, hslot, hlast, hcur, fun ho => hq.resolve_left (by simp [ho]), hwait, hgram, hload, ?_⟩
  cases hb : s.hybridBubblePendingPrefillBatch with
  | none => rfl
  | some b => exact absurd hload (hpend b hb)

theorem mergingOf_nil {o : Option BatchId} (h : ∀ b, o = some b → (s.batches b).reqs = []) :
    s.mergingOf o = [] := by
  unfold mergingOf
  split
  · rfl
  · rename_i b
    split
    · rw [merging, h b rfl, List.filter_nil]
    · rfl

theorem flushCache_spec (h : Between p paused s) (cacheIdle : Bool) :
    Between p paused (s.flushCache p cacheIdle) ∧
      (Covered s → Covered (s.flushCache p cacheIdle)) := by
  unfold flushCache
  split
  case isFalse => exact ⟨h, id⟩
  case isTrue hidle =>
    obtain ⟨hrun, hslot, hlast, -, hq, hwait, hgram, hload, hpend⟩ :=
      idle_spec (fun b hb => (h.pending b hb).2.1) hidle
    set t : Scheduler := { s with
      curBatch := none, lastBatch := none, loadQueue := [], ongoingLoadBack := []
      ackLoadQueue := [], grammarQueue := [] } with ht
    have hmerge : s.lastMerging = [] := mergingOf_nil hlast
    have hplaces : ∀ r, t.places [] r = s.places s.lastMerging r := by
      intro r
      have e : t.places [] r = s.waitingQueue.count r + 0 + s.running.reqs.count r + 0 +
        s.parked.count r + s.chunkedReq.toList.count r := rfl
      rw [e, hmerge, places, hgram, List.count_nil]
    have hm : Moves s s.lastMerging t [] :=
      .of_eq hplaces (fun _ h => h) (fun _ h => h) rfl fun hfree =>
        ⟨hfree.1, by rintro _ ⟨⟩⟩
    have hnone : t.hybridBubblePendingPrefillBatch = none := hpend
    refine ⟨⟨⟨h.wf.1, h.wf.2, h.wf.3⟩, rfl, fun b hb => by simp [ht] at hb, hm.one h.one, ?_,
      hm.free h.free, .refl _, ?_, h.formed, h.nodup, h.formed_lt, h.scheduled, ?_⟩, hm.covered⟩
    · intro r hr
      exact h.known r (hr.trans_le (hm.le r))
    · intro b hb
      exact absurd (hnone.symm.trans hb) (by simp)
    · rw [h.queue]
      split
      case isTrue ho =>
        have hnil := hq ho
        rw [h.queue, if_pos ho] at hnil
        exact hnil
      case isFalse => rfl

/-! ## Pausing -/

namespace Scheduler

/-- All requests of the batch that ran last, if it is a prefill batch. -/
def lastReqs (s : Scheduler) : List ReqId :=
  match s.lastBatch with
  | none => []
  | some b => if (s.batches b).isExtend then (s.batches b).reqs else []

end Scheduler

/-- The state after the last batch was settled for a pause. -/
structure Settles (s v : Scheduler) (q : List ScheduleBatch) : Prop where
  eq : v = { s with
    reqs := v.reqs, batches := v.batches, runningBatch := v.runningBatch, published := v.published
    lastBatch := none, curBatch := none, resultQueue := q }
  wf : Wf v
  pending_batch : ∀ b, s.hybridBubblePendingPrefillBatch = some b → v.batches b = s.batches b
  reqs : ∀ r, Harmless (s.reqs r) (v.reqs r)
  count_le : ∀ r, v.running.reqs.count r ≤ s.running.reqs.count r + s.lastReqs.count r
  dropped : ∀ r, v.running.reqs.count r < s.running.reqs.count r + s.lastReqs.count r →
    (v.reqs r).finished = true

theorem settles_of_nil (hw : Wf s) (hnil : s.lastReqs = []) :
    Settles s { s with lastBatch := none, curBatch := none } s.resultQueue := by
  refine ⟨rfl, ⟨hw.1, hw.2, hw.3⟩, fun _ _ => rfl, fun _ => ⟨id, id⟩, fun r => ?_, fun r h => ?_⟩
  · exact Nat.le_add_right _ _
  · rw [hnil] at h
    exact absurd h (lt_irrefl _)

theorem mergeLastBatchForPause_spec (hw : Wf s) (hl : s.LastApart) :
    Settles s { s.mergeLastBatchForPause with lastBatch := none, curBatch := none }
      s.resultQueue := by
  cases hlast : s.lastBatch with
  | none =>
    simp only [mergeLastBatchForPause, hlast]
    exact settles_of_nil hw (by simp only [lastReqs, hlast])
  | some b =>
    by_cases hext : (s.batches b).isExtend = true
    · obtain ⟨hlt, hne, hp⟩ := hl b hlast hext
      have hreqs : s.lastReqs = (s.batches b).reqs := by simp only [lastReqs, hlast, hext, if_true]
      simp only [mergeLastBatchForPause, hlast, hext, if_true]
      set u := s.filterBatch b [] with hu
      have hfu : Frame s u := s.frame_setBatch _ fun d hd h => hp (h ▸ hd)
      have hwu : Wf u := hfu.wf rfl hw
      have hwv : Wf (u.takeOver b) := wf_takeOver hwu hlt hp
      have hft := frame_takeOver hwu b
      have hsame : (u.takeOver b).reqs = s.reqs := (u.takeOver_same b).1
      have hrun : u.running = s.running := s.setBatch_batches_of_ne _ (Ne.symm hne)
      have hcount : ∀ r, (u.takeOver b).running.reqs.count r = s.running.reqs.count r +
          if (s.reqs r).finished then 0 else (s.batches b).reqs.count r := by
        intro r
        rw [u.count_running_takeOver b, hrun]
        simp only [hu, filterBatch, setBatch, update_self]
        rw [count_filter_ite]
        cases (s.reqs r).finished <;> simp
      refine ⟨?_, ⟨hwv.1, hwv.2, hwv.3⟩, fun d hd => ?_, fun r => ?_, fun r => ?_, fun r hlt => ?_⟩
      · unfold takeOver
        split
        · rfl
        · split <;> rfl
      · exact (hft.pending_batch d hd).trans (hfu.pending_batch d hd)
      · rw [hsame]
        exact ⟨id, id⟩
      · change (u.takeOver b).running.reqs.count r ≤ _
        rw [hcount r, hreqs]
        split <;> omega
      · change (u.takeOver b).running.reqs.count r < _ at hlt
        rw [hcount r, hreqs] at hlt
        rw [hsame]
        by_contra hf
        rw [if_neg hf] at hlt
        exact absurd hlt (lt_irrefl _)
    · simp only [mergeLastBatchForPause, hlast, hext]
      exact settles_of_nil hw (by simp only [lastReqs, hlast, hext]; rfl)

theorem settleLastBatch_spec (h : Between p paused s) (c : Choices) :
    Settles s (s.settleLastBatch p c) [] := by
  set u := if p.enableOverlap && s.lastBatch.isSome then s.popAndProcess p c else s with hu
  -- The queue of results holds the last batch alone, so it is empty after that batch is processed.
  have hup : Updates s u [] := by
    rw [hu]
    split
    case isTrue ho =>
      have ho : p.enableOverlap = true := (Bool.and_eq_true _ _ ▸ ho : _ ∧ _).1
      have hpop := s.popAndProcess_updates p c
      have hlen := h.queue_length ho
      have htail : s.resultQueue.tail = [] := by
        refine List.length_eq_zero_iff.mp ?_
        rw [List.length_tail, hlen]
        split <;> rfl
      rwa [htail] at hpop
    case isFalse hn =>
      have hnil : s.resultQueue = [] := by
        rw [h.queue]
        split
        case isTrue ho =>
          have hlast : s.lastBatch = none := by simpa [ho] using hn
          rw [hlast]
          rfl
        case isFalse => rfl
      exact hnil ▸ Updates.refl s
  obtain ⟨rq, pb, heq⟩ : ∃ rq pb, u = { s with reqs := rq, published := pb, resultQueue := [] } :=
    ⟨_, _, hup.eq⟩
  have hreqs := hup.reqs
  change Settles s { u.mergeLastBatchForPause with lastBatch := none, curBatch := none } []
  clear_value u
  subst heq
  have hs := mergeLastBatchForPause_spec (s := { s with
    reqs := rq, published := pb, resultQueue := [] }) ⟨h.wf.1, h.wf.2, h.wf.3⟩ h.lastApart
  refine ⟨?_, hs.wf, hs.pending_batch, fun r => ?_, hs.count_le, hs.dropped⟩
  · rw [hs.eq]
  · exact ⟨fun hf => (hs.reqs r).finished ((hreqs r).finished hf),
      fun hh => (hs.reqs r).holds ((hreqs r).holds hh)⟩

/-- The state after the running batch was retracted: `w` went to the waiting queue, `rep` found it
full. -/
structure Retracts (v t : Scheduler) (w rep : List ReqId) : Prop where
  eq : t = { v with
    reqs := t.reqs, batches := t.batches, waitingQueue := v.waitingQueue ++ w
    replied := v.replied ++ rep, chunkedReq := none }
  running : t.running.reqs = []
  batches : ∀ b, b ≠ v.runningBatch → t.batches b = v.batches b
  count : ∀ r, w.count r + rep.count r =
    if (v.reqs r).finished then 0 else v.running.reqs.count r
  reqs : ∀ r, Harmless (v.reqs r) (t.reqs r)
  finished : ∀ r, (t.reqs r).finished = (v.reqs r).finished
  free : ∀ r ∈ w, (t.reqs r).holds = false
  others : ∀ r, r ∉ v.running.reqs → t.reqs r = v.reqs r

theorem retractRunning_spec (p : Params) (v : Scheduler) :
    ∃ w rep, Retracts v (v.retractRunning p) w rep := by
  set s1 := v.filterBatch v.runningBatch []
  have hrun1 : s1.running.reqs =
      v.running.reqs.filter fun r => !(v.reqs r).finished && decide (r ∉ ([] : List ReqId)) := by
    change (v.setRunning _).running.reqs = _
    rw [running_setRunning]
    rfl
  set s2 := (s1.setReqs s1.running.reqs resetForRetract).setRunning
    { s1.running with reqs := [] } with hs2
  obtain ⟨w, rep, he, hcount⟩ := s2.addRequestsToQueue_eq p s1.running.reqs
  set s3 := s2.addRequestsToQueue p s1.running.reqs
  have ht : v.retractRunning p =
      { s3.setRunning { s3.running with batchIsFull := false } with chunkedReq := none } := rfl
  have hreqs : ∀ r, (v.retractRunning p).reqs r =
      if r ∈ s1.running.reqs then (v.reqs r).resetForRetract else v.reqs r := by
    intro r
    change s3.reqs r = _
    rw [he]
    rfl
  refine ⟨w, rep, ?_, ?_, ?_, ?_, ?_, ?_, ?_, ?_⟩
  · rw [ht]
    rw [he]
    rfl
  · have h3 : s3.running.reqs = [] := by
      have hb : s3.batches = s2.batches := by rw [he]
      have hr : s3.runningBatch = s2.runningBatch := by rw [he]
      rw [running, hb, hr]
      change s2.running.reqs = []
      rw [running_setRunning]
    change (s3.setRunning _).running.reqs = []
    rw [running_setRunning]
    exact h3
  · intro b hb
    have hr : s3.runningBatch = v.runningBatch := by rw [he]; rfl
    have hb3 : s3.batches b = s2.batches b := by rw [he]
    rw [ht]
    have hb2 : s2.batches b = s1.batches b :=
      (s1.setReqs s1.running.reqs resetForRetract).setBatch_batches_of_ne _ hb
    rw [setRunning, s3.setBatch_batches_of_ne _ (hr ▸ hb), hb3, hb2]
    exact v.setBatch_batches_of_ne _ hb
  · intro r
    rw [hcount r, hrun1, count_filter_ite]
    cases (v.reqs r).finished <;> simp
  · intro r
    rw [hreqs r]
    split
    · exact harmless_resetForRetract _
    · exact ⟨id, id⟩
  · intro r
    rw [hreqs r]
    split <;> rfl
  · intro r hr
    have h1 := hcount r
    have h2 := List.count_pos_iff.mpr hr
    have hmem : r ∈ s1.running.reqs := List.count_pos_iff.mp (by omega)
    rw [hreqs r, if_pos hmem]
    rfl
  · intro r hr
    have hnot : r ∉ s1.running.reqs := fun hm => hr (List.mem_of_mem_filter (hrun1 ▸ hm))
    rw [hreqs r, if_neg hnot]

theorem retracted_parked (hv : Settles s v []) (ht : Retracts v t w rep) : t.parked = s.parked := by
  have hpend : t.hybridBubblePendingPrefillBatch = s.hybridBubblePendingPrefillBatch := by
    rw [ht.eq, hv.eq]
  have hvpend : v.hybridBubblePendingPrefillBatch = s.hybridBubblePendingPrefillBatch := by
    rw [hv.eq]
  cases hb : s.hybridBubblePendingPrefillBatch with
  | none => rw [parked_of_none (hpend.trans hb), parked_of_none hb]
  | some b =>
    rw [parked_of_some (hpend.trans hb), parked_of_some hb,
      ht.batches b (hv.wf.pending_ne b (hvpend.trans hb)), hv.pending_batch b hb]

theorem retracted_places (hv : Settles s v []) (ht : Retracts v t w rep) (r : ReqId) :
    t.places [] r + rep.count r ≤ s.waitingQueue.count r + s.grammarQueue.count r +
        s.running.reqs.count r + s.lastReqs.count r + s.parked.count r ∧
      ((t.reqs r).finished = false → t.places [] r + rep.count r =
        s.waitingQueue.count r + s.grammarQueue.count r + s.running.reqs.count r +
          s.lastReqs.count r + s.parked.count r) := by
  have hwait : t.waitingQueue = s.waitingQueue ++ w := by rw [ht.eq, hv.eq]
  have hgram : t.grammarQueue = s.grammarQueue := by rw [ht.eq, hv.eq]
  have hslot : t.chunkedReq = none := by rw [ht.eq]
  have hpark := retracted_parked hv ht
  have hcount := ht.count r
  have hle := hv.count_le r
  have hdrop := hv.dropped r
  rw [places, hwait, hgram, hslot, hpark, ht.running, List.count_append]
  simp only [toList_none, List.count_nil]
  refine ⟨?_, fun hf => ?_⟩
  · split at hcount <;> omega
  · rw [ht.finished r] at hf
    have hnot : ¬ v.running.reqs.count r < s.running.reqs.count r + s.lastReqs.count r :=
      fun hlt => absurd ((hdrop hlt).symm.trans hf) (by decide)
    rw [if_neg (by simp [hf])] at hcount
    omega

theorem Between.count_lastReqs (h : Between p paused s) (r : ReqId) :
    s.lastReqs.count r = s.lastMerging.count r ∨
      (s.lastMerging.count r = 0 ∧ s.lastReqs.count r ≤ 1 ∧ r ∈ s.arrived ∧
        (s.chunkedReq = some r ∨ s.places s.lastMerging r = 0)) := by
  cases hl : s.lastBatch with
  | none =>
    refine .inl ?_
    simp only [lastReqs, lastMerging, mergingOf, hl]
  | some b =>
    by_cases hext : (s.batches b).isExtend = true
    · have h1 : s.lastReqs = (s.batches b).reqs := by simp only [lastReqs, hl, hext, if_true]
      have h2 : s.lastMerging = (s.batches b).merging := by
        simp only [lastMerging, mergingOf, hl, hext, if_true]
      rcases h.last b hl with ⟨-, -, -, -, -, hk⟩ | ⟨rfl, hmode⟩
      · by_cases hc : (s.batches b).chunkedReq = some r
        · obtain ⟨h3, h4, h5⟩ := hk r hc
          refine .inr ⟨?_, h1 ▸ h4, h3, h5.imp_right fun h => h.2⟩
          rw [h2, count_merging, if_pos hc]
        · refine .inl ?_
          rw [h1, h2, count_merging, if_neg hc]
      · exact (decode_ne_extend hmode hext).elim
    · refine .inl ?_
      simp only [lastReqs, lastMerging, mergingOf, hl, hext]
      rfl

theorem Between.settled {bt : BatchId → ScheduleBatch} {rb : BatchId} {pb w rep : List Nat}
    {slot : Option ReqId} (h : Between p paused s)
    (ht : t = { s with
      reqs := rq, batches := bt, runningBatch := rb, published := pb, lastBatch := none
      curBatch := none, resultQueue := [], waitingQueue := w, replied := rep, chunkedReq := slot })
    (hw : Wf t) (hone : ∀ r, t.places [] r ≤ 1) (hknown : ∀ r, 0 < t.places [] r → r ∈ s.arrived)
    (hfree : t.QueuedFree) (hsched : ChunkScheduled t)
    (hbatch : ∀ b, s.hybridBubblePendingPrefillBatch = some b → bt b = s.batches b)
    (hslot : ∀ b, s.hybridBubblePendingPrefillBatch = some b → ∀ r,
      (s.chunkedReq = some r ∨ (paused ∧ s.places s.lastMerging r = 0)) →
        slot = some r ∨ (paused ∧ t.places [] r = 0)) : Between p paused t := by
  subst ht
  refine ⟨hw, rfl, fun b hb => absurd hb (some_ne_none b).symm, hone, hknown, hfree, h.loads,
    fun b hb => ?_, h.formed, h.nodup, h.formed_lt, hsched, ?_⟩
  · obtain ⟨h1, h2, h3⟩ := h.pending b hb
    have hsame : bt b = s.batches b := hbatch b hb
    refine ⟨(congrArg isExtend hsame).trans h1, h2, fun r hr => ?_⟩
    obtain ⟨h4, h5, h6⟩ := h3 r ((congrArg ScheduleBatch.chunkedReq hsame).symm.trans hr)
    exact ⟨h4, (congrArg (fun x => x.reqs.count r) hsame).trans_le h5, hslot b hb r h6⟩
  · exact (ite_self _).symm

theorem retracted_between (h : Between p True s) (hv : Settles s v []) (ht : Retracts v t w rep) :
    Between p True t := by
  have hplaces := fun r => (retracted_places hv ht r).1
  have heq : t = { s with
      reqs := t.reqs, batches := t.batches, runningBatch := v.runningBatch, published := v.published
      lastBatch := none, curBatch := none, resultQueue := [], waitingQueue := s.waitingQueue ++ w
      replied := s.replied ++ rep, chunkedReq := none } := by
    rw [ht.eq, hv.eq]
  have hpend : v.hybridBubblePendingPrefillBatch = s.hybridBubblePendingPrefillBatch := by
    rw [hv.eq]
  have hold : ∀ r, (s.reqs r).holds = false → (t.reqs r).holds = false :=
    fun r hr => (ht.reqs r).holds ((hv.reqs r).holds hr)
  refine h.settled heq ?_ (fun r => ?_) (fun r hr => ?_) ⟨fun r hr => ?_, fun r hr => ?_⟩ ?_
    (fun b hb => ?_) fun b hb r h6 => .inr ⟨trivial, ?_⟩
  · rw [ht.eq]
    exact ⟨hv.wf.1, hv.wf.2, hv.wf.3⟩
  · have h1 := hplaces r
    have h2 := h.one r
    rw [places, count_toList] at h2
    rcases h.count_lastReqs r with h3 | ⟨h3, h4, -, hs | hz⟩
    · omega
    · rw [if_pos hs] at h2
      omega
    · rw [places] at hz
      omega
  · have h1 := hplaces r
    rcases h.count_lastReqs r with h3 | ⟨-, -, h3, -⟩
    · refine h.known r ?_
      rw [places]
      omega
    · exact h3
  · rw [heq] at hr
    rcases List.mem_append.mp hr with hr | hr
    · exact hold r (h.free.1 r hr)
    · exact ht.free r hr
  · rw [heq] at hr
    exact hold r (h.free.2 r hr)
  · rw [heq]
    exact fun _ r hr => absurd hr (some_ne_none r).symm
  · rw [ht.batches b (hv.wf.pending_ne b (hpend.trans hb)), hv.pending_batch b hb]
  · -- Nothing else ran last while a batch is put aside, so the request was in the slot alone.
    have hlr : s.lastReqs.count r = s.lastMerging.count r := by
      cases hl : s.lastBatch with
      | none => simp only [lastReqs, lastMerging, mergingOf, hl]
      | some d =>
        rcases h.last d hl with ⟨-, -, -, hnone, -⟩ | ⟨rfl, hmode⟩
        · exact absurd (hnone.symm.trans hb) (by simp)
        · have : (s.batches s.runningBatch).isExtend = false := not_extend_of_decode hmode
          simp only [lastReqs, lastMerging, mergingOf, hl, this]
          rfl
    have h7 := hplaces r
    have h8 := h.one r
    rw [places, count_toList] at h8
    rcases h6 with hs | ⟨-, hz⟩
    · rw [if_pos hs] at h8
      omega
    · rw [places] at hz
      omega

theorem settled_between (h : Between p paused s) (hv : Settles s v [])
    (hempty : v.running.reqs = []) : Between p paused v ∧ Moves s s.lastMerging v [] := by
  have heq : v = { s with
      reqs := v.reqs, batches := v.batches, runningBatch := v.runningBatch, published := v.published
      lastBatch := none, curBatch := none, resultQueue := [], waitingQueue := s.waitingQueue
      replied := s.replied, chunkedReq := s.chunkedReq } := by
    rw [hv.eq]
  have hpark : v.parked = s.parked := by
    have hpend : v.hybridBubblePendingPrefillBatch = s.hybridBubblePendingPrefillBatch := by
      rw [heq]
    cases hb : s.hybridBubblePendingPrefillBatch with
    | none => rw [parked_of_none (hpend.trans hb), parked_of_none hb]
    | some b => rw [parked_of_some (hpend.trans hb), parked_of_some hb, hv.pending_batch b hb]
  have hplaces : ∀ r, v.places [] r + s.running.reqs.count r + s.lastMerging.count r =
      s.places s.lastMerging r := by
    intro r
    rw [places, places, hempty, hpark, heq]
    simp only [List.count_nil]
    omega
  have hm : Moves s s.lastMerging v [] := by
    refine ⟨fun r => ?_, fun r hlt => .inl ?_, fun r => (hv.reqs r).finished,
      fun r hr => by rw [heq]; exact hr, by rw [heq], fun hfree => ⟨fun r hr => ?_, fun r hr => ?_⟩⟩
    · have := hplaces r
      omega
    · have h1 := hplaces r
      refine hv.dropped r ?_
      rw [hempty, List.count_nil]
      rcases h.count_lastReqs r with h3 | ⟨h3, -⟩ <;> omega
    · rw [heq] at hr
      exact (hv.reqs r).holds (hfree.1 r hr)
    · rw [heq] at hr
      exact (hv.reqs r).holds (hfree.2 r hr)
  refine ⟨h.settled heq hv.wf (hm.one h.one) (fun r hr => ?_) (hm.free h.free) ?_ hv.pending_batch
    fun b hb r h6 => ?_, hm⟩
  · exact h.known r (hr.trans_le (hm.le r))
  · rw [heq]
    exact h.scheduled
  · exact h6.imp_right fun h6 => ⟨h6.1, Nat.le_zero.mp ((hm.le r).trans h6.2.le)⟩

/-- The condition under which a pause in retract mode drops nothing: an unfinished chunked request
is in the prefill batch that ran last. -/
def ChunkRanLast (s : Scheduler) : Prop :=
  ∀ r, s.chunkedReq = some r →
    (s.reqs r).finished = true ∨ s.Left r ∨ r ∈ s.lastReqs

theorem count_lastMerging_le (s : Scheduler) (r : ReqId) :
    s.lastMerging.count r ≤ s.lastReqs.count r := by
  unfold lastMerging mergingOf lastReqs
  cases s.lastBatch with
  | none => exact le_rfl
  | some b =>
    simp only
    split
    · exact List.Sublist.count_le r List.filter_sublist
    · exact le_rfl

theorem retracted_covered (hc : Covered s) (hv : Settles s v []) (ht : Retracts v t w rep)
    (hk : ChunkRanLast s) : Covered t := by
  intro r hr
  have harr : t.arrived = s.arrived := by rw [ht.eq, hv.eq]
  have hlast : t.lastBatch = none := by rw [ht.eq, hv.eq]
  have hmerge : t.lastMerging = [] := by rw [lastMerging, hlast]; rfl
  have hrep : ∀ r, s.Left r ∨ r ∈ rep → t.Left r := by
    rw [ht.eq, hv.eq]
    rintro r (h | h)
    · exact h.imp_left (List.mem_append_left _)
    · exact .inl (List.mem_append_right _ h)
  have hfin : (s.reqs r).finished = true → (t.reqs r).finished = true :=
    fun hf => (ht.reqs r).finished ((hv.reqs r).finished hf)
  rw [harr] at hr
  rw [hmerge]
  by_cases hf : (t.reqs r).finished = true
  · exact .inl hf
  · have hsum := (retracted_places hv ht r).2 (by simpa using hf)
    -- A request that was anywhere but in the chunked slot alone is queued again or answered.
    have hqueued : 0 < s.waitingQueue.count r + s.grammarQueue.count r + s.running.reqs.count r +
        s.lastReqs.count r + s.parked.count r →
        (t.reqs r).finished = true ∨ t.Left r ∨ 0 < t.places [] r := by
      intro hpos
      by_cases hrc : 0 < rep.count r
      · exact .inr (.inl (hrep r (.inr (List.count_pos_iff.mp hrc))))
      · exact .inr (.inr (by omega))
    rcases hc r hr with h1 | h1 | h1
    · exact .inl (hfin h1)
    · exact .inr (.inl (hrep r (.inl h1)))
    · have hle := count_lastMerging_le s r
      rw [places, count_toList] at h1
      split at h1
      case isTrue hslot =>
        rcases hk r hslot with h2 | h2 | h2
        · exact .inl (hfin h2)
        · exact .inr (.inl (hrep r (.inl h2)))
        · have := List.count_pos_iff.mpr h2
          exact hqueued (by omega)
      case isFalse => exact hqueued (by omega)

theorem pauseGeneration_retract (p : Params) (c : Choices) (s : Scheduler) :
    s.pauseGeneration p c .retract =
      if ({ s with enginePaused := true }.settleLastBatch p c).running.isEmpty then
        { s with enginePaused := true }.settleLastBatch p c
      else ({ s with enginePaused := true }.settleLastBatch p c).retractRunning p := rfl

end Fluxfer.Sched
