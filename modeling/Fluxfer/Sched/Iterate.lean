import Fluxfer.Sched.Next

/-!
# One iteration of the event loop

Processing a result changes requests and publishes slots, and nothing else. An iteration, in the
normal and in the overlap loop, leads from a state between two iterations to another one.
-/

namespace Fluxfer.Sched

open Scheduler

variable {p : Params} {paused : Prop} {s t : Scheduler} {ret : Option BatchId}

/-- Only requests, the record of published slots and the queue of results changed, and no request
was revived or given slots. -/
structure Updates (s t : Scheduler) (q : List ScheduleBatch) : Prop where
  eq : t = { s with reqs := t.reqs, published := t.published, resultQueue := q }
  reqs : ∀ r, Harmless (s.reqs r) (t.reqs r)

namespace Updates

variable {q : List ScheduleBatch}

theorem refl (s : Scheduler) : Updates s s s.resultQueue := ⟨rfl, fun _ => ⟨id, id⟩⟩

theorem trans {u : Scheduler} {q' : List ScheduleBatch} (h : Updates s t q) (h' : Updates t u q') :
    Updates s u q' := by
  refine ⟨?_, fun r => ?_⟩
  · rw [h'.eq, h.eq]
  · exact ⟨fun hf => (h'.reqs r).finished ((h.reqs r).finished hf),
      fun hh => (h'.reqs r).holds ((h.reqs r).holds hh)⟩

theorem resultQueue (h : Updates s t q) :
    t.resultQueue = q := by rw [h.eq]

theorem launch (h : Updates s t q) (batch : Option BatchId) :
    Updates s (t.launch batch) (q ++ batch.toList.map s.batches) := by
  refine ⟨?_, h.reqs⟩
  unfold Scheduler.launch
  rw [h.eq]

end Updates

namespace Scheduler

theorem harmless_receiveToken (c : Choices) (r : ReqId) (q : Req) :
    Harmless q (receiveToken c r q) := by
  unfold receiveToken Req.checkFinished
  cases hf : q.finished <;> cases ht : q.toFinish <;> cases hs : c.stops r <;>
    refine ⟨?_, ?_⟩ <;> simp [hf]

theorem processBatchResult_updates (p : Params) (c : Choices) (s : Scheduler) (b : ScheduleBatch) :
    Updates s (s.processBatchResult p c b) s.resultQueue := by
  unfold processBatchResult
  split
  · refine ⟨rfl, fun r => ?_⟩
    change Harmless (s.reqs r) (s.afterPrefill c b r)
    unfold afterPrefill
    split_ifs
    · exact harmless_receiveToken c r _
    · exact ⟨id, id⟩
    · exact ⟨id, id⟩
  · refine ⟨rfl, fun r => ?_⟩
    change Harmless (s.reqs r) (s.afterDecode p c b r)
    unfold afterDecode
    split
    · exact harmless_receiveToken c r _
    · exact ⟨id, id⟩

theorem popAndProcess_updates (p : Params) (c : Choices) (s : Scheduler) :
    Updates s (s.popAndProcess p c) s.resultQueue.tail := by
  unfold popAndProcess
  split
  case h_1 h =>
    rw [h, List.tail_nil, ← h]
    exact .refl s
  case h_2 b rest h =>
    have := processBatchResult_updates p c { s with resultQueue := rest } b
    rw [h]
    exact ⟨this.eq, this.reqs⟩

theorem runNormal_updates (p : Params) (c : Choices) (s : Scheduler) (ret : Option BatchId) :
    Updates s (s.runNormal p c ret) s.resultQueue := by
  unfold runNormal
  split
  · exact .refl s
  · exact s.processBatchResult_updates p c _

theorem runOverlap_updates {s : Scheduler} (p : Params) (c : Choices) (ret : Option BatchId)
    (hlen : s.resultQueue.length = if s.lastBatch.isSome then 1 else 0) :
    Updates s (s.runOverlap p c ret) (ret.toList.map s.batches) := by
  set disable := s.isDisableOverlapForBatch c ret with hdis
  have hsome : disable = true → s.lastBatch.isSome = true := by
    intro hd
    by_contra hn
    have hnil : s.resultQueue = [] := List.length_eq_zero_iff.mp (by rw [hlen, if_neg hn])
    have hlast : s.lastBatch = none := by simpa using hn
    simp [hdis, isDisableOverlapForBatch, hnil, hlast] at hd
  unfold runOverlap
  rw [← hdis]
  cases hd : disable with
  | true =>
    have h1 := hsome hd
    obtain ⟨x, hx⟩ := List.length_eq_one_iff.mp (hlen.trans (if_pos h1))
    have hpop := s.popAndProcess_updates p c
    rw [hx, List.tail_cons] at hpop
    simp only [Bool.not_true, Bool.and_false, Bool.false_eq_true, if_false]
    have := hpop.launch ret
    rwa [List.nil_append] at this
  | false =>
    have h1 := (Updates.refl s).launch ret
    cases hl : s.lastBatch.isSome with
    | true =>
      obtain ⟨x, hx⟩ := List.length_eq_one_iff.mp (hlen.trans (if_pos hl))
      have h2 := h1.trans (popAndProcess_updates p c _)
      rw [h1.resultQueue, hx] at h2
      exact h2
    | false =>
      have hnil : s.resultQueue = [] := List.length_eq_zero_iff.mp (by rw [hlen, hl]; rfl)
      rwa [hnil] at h1

end Scheduler

theorem Between.queue_length (h : Between p paused s) (ho : p.enableOverlap = true) :
    s.resultQueue.length = if s.lastBatch.isSome then 1 else 0 := by
  rw [h.queue, if_pos ho]
  cases s.lastBatch <;> rfl

theorem Called.nodup (hc : Called paused s t ret) (h : Between p paused s) :
    (t.formed.map Prod.fst).Nodup := by
  rcases hc.fresh with ⟨hf, -⟩ | ⟨canRun, hf, -⟩
  · rw [hf]
    exact h.nodup
  · rw [hf, List.map_cons, List.nodup_cons]
    refine ⟨fun hmem => ?_, h.nodup⟩
    obtain ⟨e, he, heq⟩ := List.mem_map.mp hmem
    exact absurd heq (Nat.ne_of_lt (h.formed_lt e he))

theorem Called.between {u : Scheduler} {rq : ReqId → Req} {d : List BatchId}
    (h : Between p paused s) (hc : Called paused s t ret)
    (hu : u = { t with
      reqs := rq, published := d, curBatch := ret, lastBatch := ret
      resultQueue := if p.enableOverlap then ret.toList.map t.batches else [] })
    (hreqs : ∀ r, Harmless (t.reqs r) (rq r)) :
    Between p paused u ∧ Moves s s.lastMerging u u.lastMerging := by
  subst hu
  set u : Scheduler := { t with
    reqs := rq, published := d, curBatch := ret, lastBatch := ret
    resultQueue := if p.enableOverlap then ret.toList.map t.batches else [] } with hu
  have hmerge : u.lastMerging = t.mergingOf ret := by cases ret <;> rfl
  have hm : Moves s s.lastMerging u (t.mergingOf ret) := by
    refine hc.moves.trans (.of_eq (fun _ => rfl) (fun r => (hreqs r).finished) (fun _ hr => hr) rfl
      fun hq => ⟨fun r hr => ?_, fun r hr => ?_⟩)
    · exact (hreqs r).holds (hq.1 r hr)
    · exact (hreqs r).holds (hq.2 r hr)
  have hkept : ∀ b, ChunkKept paused t (t.mergingOf ret) b →
      ChunkKept paused u u.lastMerging b := by
    intro b hk
    exact hk
  refine ⟨⟨⟨hc.wf.1, hc.wf.2, hc.wf.3⟩, rfl, fun b hb => ?_, ?_, fun r hr => ?_, hm.free h.free,
    hc.loads, fun b hb => ?_, hc.formed, hc.nodup h, fun e he => ?_, hc.scheduled, rfl⟩,
    hmerge ▸ hm⟩
  · rcases hc.ret b hb with ⟨h1, h2, h3, h4, h5, h6⟩ | ⟨h1, h2, -⟩
    · exact Or.inl ⟨h1, h2, h3, h4, congrArg List.head? h5, hkept b h6⟩
    · exact Or.inr ⟨h1, h2⟩
  · exact hm.one h.one
  · rw [hm.arrived]
    exact h.known r (hr.trans_le (hm.le r))
  · obtain ⟨h1, h2, h3⟩ := hc.pending b hb
    exact ⟨h1, h2, hkept b h3⟩
  · have he : e ∈ t.formed := he
    rcases hc.fresh with ⟨hf, hle⟩ | ⟨canRun, hf, hlt⟩
    · exact (h.formed_lt e (hf ▸ he)).trans_le hle
    · rw [hf] at he
      rcases List.mem_cons.mp he with rfl | he
      · exact hlt
      · exact (h.formed_lt e he).trans hlt

theorem iterate_spec (h : Between p paused s) (c : Choices) :
    Between p paused (s.iterate p c) ∧
      Moves s s.lastMerging (s.iterate p c) (s.iterate p c).lastMerging := by
  unfold iterate
  split
  · exact ⟨h, .refl s _⟩
  · obtain ⟨hc, -⟩ := getNextBatchToRun_spec h c
    simp only
    set t := (s.getNextBatchToRun p c).1
    set ret := (s.getNextBatchToRun p c).2
    by_cases ho : p.enableOverlap = true
    · have hlen := h.queue_length ho
      rw [← hc.resultQueue, ← hc.lastBatch] at hlen
      have hup := runOverlap_updates (s := { t with curBatch := ret }) p c ret hlen
      rw [if_pos ho]
      set w := ({ t with curBatch := ret } : Scheduler).runOverlap p c ret
      refine Called.between (d := w.published) h hc ?_ fun r => hup.reqs r
      rw [if_pos ho, hup.eq]
    · have hup := runNormal_updates p c { t with curBatch := ret } ret
      rw [if_neg ho]
      set w := ({ t with curBatch := ret } : Scheduler).runNormal p c ret
      refine Called.between (d := w.published) h hc ?_ fun r => hup.reqs r
      have hnil : t.resultQueue = [] := by rw [hc.resultQueue, h.queue, if_neg ho]
      rw [if_neg ho, hup.eq]
      simp only [hnil]

end Fluxfer.Sched
