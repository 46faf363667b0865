import Fluxfer.Sched.Messages

/-!
# Which slots are published

The KV slots of a request are published when its chunk is stashed and when a result of it is
processed. A batch that is put aside was formed but not executed, so none of its requests may be
published in between. For the chunked request this rests on the count of its unprocessed chunks: as
long as that count is positive, a result only lowers it.
-/

namespace Fluxfer.Sched

open Scheduler ScheduleBatch Option Prod Req

variable {p : Params} {paused : Prop} {s u t : Scheduler} {b : BatchId} {r : ReqId}
  {x : ScheduleBatch}

/-- What the operations before a batch is chosen do not change. -/
structure Quiet (s t : Scheduler) : Prop where
  isChunked : ∀ r, (t.reqs r).isChunked = (s.reqs r).isChunked
  isRetracted : ∀ r, (t.reqs r).isRetracted = (s.reqs r).isRetracted
  waiting : ∀ r ∈ t.waitingQueue, r ∈ s.waitingQueue
  grammarQueue : t.grammarQueue = s.grammarQueue
  published : t.published = s.published

namespace Quiet

theorem trans {u : Scheduler} (h : Quiet s t) (h' : Quiet t u) : Quiet s u where
  isChunked r := (h'.isChunked r).trans (h.isChunked r)
  isRetracted r := (h'.isRetracted r).trans (h.isRetracted r)
  waiting r hr := h.waiting r (h'.waiting r hr)
  grammarQueue := h'.grammarQueue.trans h.grammarQueue
  published := h'.published.trans h.published

theorem of_eq (hr : t.reqs = s.reqs) (hw : t.waitingQueue = s.waitingQueue)
    (hg : t.grammarQueue = s.grammarQueue) (hp : t.published = s.published) : Quiet s t :=
  ⟨fun r => by rw [hr], fun r => by rw [hr], fun r h => hw ▸ h, hg, hp⟩

end Quiet

theorem Scheduler.setReqs_field {α : Type*} (s : Scheduler) (rs : List ReqId) (f : Req → Req)
    (g : Req → α) (h : ∀ q, g (f q) = g q) (r : ReqId) :
    g ((s.setReqs rs f).reqs r) = g (s.reqs r) := by
  simp only [Scheduler.setReqs]
  split
  · exact h _
  · rfl

theorem mergeLastBatch_same (s : Scheduler) :
    s.mergeLastBatch.reqs = s.reqs ∧ s.mergeLastBatch.waitingQueue = s.waitingQueue ∧
      s.mergeLastBatch.grammarQueue = s.grammarQueue ∧
      s.mergeLastBatch.published = s.published := by
  unfold mergeLastBatch
  split
  · exact ⟨rfl, rfl, rfl, rfl⟩
  · rename_i b _
    split
    · set u := (s.filterBatch b (s.chunkedReq.toList ++ (s.batches b).chunkedReq.toList)).noteShrunk
        b (s.batches b).reqs.length with hu
      have hsame : u.reqs = s.reqs ∧ u.waitingQueue = s.waitingQueue ∧
          u.grammarQueue = s.grammarQueue ∧ u.published = s.published := by
        rw [hu, noteShrunk]
        split <;> exact ⟨rfl, rfl, rfl, rfl⟩
      obtain ⟨h1, h2, h3, -, -, h4⟩ := u.takeOver_same b
      exact ⟨h1.trans hsame.1, h2.trans hsame.2.1, h3.trans hsame.2.2.1, h4.trans hsame.2.2.2⟩
    · exact ⟨rfl, rfl, rfl, rfl⟩

theorem mergeLastBatch_quiet (s : Scheduler) : Quiet s s.mergeLastBatch := by
  obtain ⟨h1, h2, h3, h4⟩ := mergeLastBatch_same s
  exact .of_eq h1 h2 h3 h4

theorem filterPrefillOnly_quiet (s : Scheduler) : Quiet s s.filterPrefillOnly := by
  unfold filterPrefillOnly
  split
  · simp only
    split <;> exact .of_eq rfl rfl rfl rfl
  · exact .of_eq rfl rfl rfl rfl

theorem beginIteration_quiet (c : Choices) (s : Scheduler) :
    Quiet { s with published := s.published ++ s.stashed.toList.filterMap s.lastFormed }
      (s.beginIteration c) := by
  set s1 := (s.abortOnWaitingTimeout c).abortOnRunningTimeout c
  have h1 : Quiet { s with published := s.published ++ s.stashed.toList.filterMap s.lastFormed }
      s1.stashChunkedRequest := by
    refine ⟨fun r => ?_, fun r => ?_, fun r hr => List.mem_of_mem_filter hr, rfl, rfl⟩
    · exact (s.abortOnWaitingTimeout c).setReqs_field _ (fun q => { q with toFinish := true })
        isChunked (fun _ => rfl) r
    · exact (s.abortOnWaitingTimeout c).setReqs_field _ (fun q => { q with toFinish := true })
        isRetracted (fun _ => rfl) r
  exact h1.trans ((mergeLastBatch_quiet _).trans (filterPrefillOnly_quiet _))

namespace Scheduler

/-- The requests of the batch that ran last, whatever its mode. -/
def lastAll (s : Scheduler) : List ReqId :=
  match s.lastBatch with
  | none => []
  | some b => (s.batches b).reqs

/-- The requests whose result is unprocessed. -/
def unprocessed (p : Params) (s : Scheduler) : List ReqId :=
  if p.enableOverlap then s.lastAll else []

end Scheduler

/-- The requests that a batch carries over were not retracted, so its result is for them. -/
def Ready (s : Scheduler) (b : BatchId) : Prop :=
  ∀ r ∈ (s.batches b).merging, (s.reqs r).isRetracted = false

/-- What is kept about chunks, retraction and publication between two iterations. -/
structure Tracked (p : Params) (s : Scheduler) : Prop where
  chunk : ∀ b, (s.hybridBubblePendingPrefillBatch = some b ∨
      (p.enableOverlap = true ∧ s.lastBatch = some b ∧ (s.batches b).isExtend = true)) →
    ∀ r ∈ (s.batches b).reqs, s.chunkedReq = some r → 1 ≤ (s.reqs r).isChunked
  ready : ∀ b, s.hybridBubblePendingPrefillBatch = some b → Ready s b
  head : ∀ b, s.hybridBubblePendingPrefillBatch = some b →
    ∃ canRun rest, s.formed = (b, canRun) :: rest ∧ ∀ r ∈ canRun, r ∈ (s.batches b).reqs

theorem Between.pending_apart (h : Between p paused s)
    (hb : s.hybridBubblePendingPrefillBatch = some b) (hr : r ∈ (s.batches b).reqs) :
    r ∉ s.running.reqs := by
  intro hrun
  have h1 := h.one r
  have h2 := List.count_pos_iff.mpr hrun
  rw [places, parked_of_some hb, count_merging, count_toList] at h1
  by_cases hc : (s.batches b).chunkedReq = some r
  · rcases ((h.pending b hb).2.2 r hc).2.2 with hs | ⟨-, hz⟩
    · rw [if_pos hs] at h1
      omega
    · rw [places] at hz
      omega
  · have h3 := List.count_pos_iff.mpr hr
    rw [if_neg hc] at h1
    omega

theorem Between.lastAll_of_pending (h : Between p paused s)
    (hb : s.hybridBubblePendingPrefillBatch = some b) : ∀ r ∈ s.lastAll, r ∈ s.running.reqs := by
  intro r hr
  cases hl : s.lastBatch with
  | none => simp [lastAll, hl] at hr
  | some d =>
    rcases h.last d hl with ⟨-, -, -, hn, -⟩ | ⟨rfl, -⟩
    · exact absurd (hn.symm.trans hb) (by simp)
    · have : s.lastAll = s.running.reqs := by simp only [lastAll, hl]; rfl
      exact this ▸ hr

/-- A request that ran last and is queued, or in the chunked slot, is the chunked request of the
prefill batch that ran last. -/
theorem Between.lastAll_queued (h : Between p paused s) (hr : r ∈ s.lastAll)
    (hq : r ∈ s.waitingQueue ∨ r ∈ s.grammarQueue ∨ s.chunkedReq = some r) :
    ∃ b, s.lastBatch = some b ∧ (s.batches b).isExtend = true ∧ r ∈ (s.batches b).reqs ∧
      s.chunkedReq = some r := by
  have h1 := h.one r
  rw [places, count_toList] at h1
  have hpos : 1 ≤ s.waitingQueue.count r + s.grammarQueue.count r +
      (if s.chunkedReq = some r then 1 else 0) := by
    rcases hq with hq | hq | hq
    · have := List.count_pos_iff.mpr hq
      omega
    · have := List.count_pos_iff.mpr hq
      omega
    · rw [if_pos hq]
      omega
  cases hl : s.lastBatch with
  | none => simp [lastAll, hl] at hr
  | some b =>
    have hr : r ∈ (s.batches b).reqs := by simpa [lastAll, hl] using hr
    have hcount := List.count_pos_iff.mpr hr
    rcases h.last b hl with ⟨hext, -, -, -, -, hk⟩ | ⟨rfl, -⟩
    · have hm : s.lastMerging = (s.batches b).merging := by
        simp only [lastMerging, mergingOf, hl, hext, if_true]
      rw [hm, count_merging] at h1
      by_cases hc : (s.batches b).chunkedReq = some r
      · rcases (hk r hc).2.2 with hs | ⟨-, hz⟩
        · exact ⟨b, rfl, hext, hr, hs⟩
        · rw [places, count_toList] at hz
          omega
      · rw [if_neg hc] at h1
        omega
    · have hcount : 0 < s.running.reqs.count r := hcount
      omega

/-- What a call leaves about the prefill batch that is put aside or handed out. -/
structure Handed (p : Params) (s t : Scheduler) (b : BatchId) : Prop where
  head : ∃ canRun rest, t.formed = (b, canRun) :: rest ∧ (∀ r ∈ canRun, r ∈ (t.batches b).reqs) ∧
    ∀ r ∈ canRun, r ∈ s.unprocessed p →
      (∃ d, s.lastBatch = some d ∧ (s.batches d).isExtend = true) ∧ 1 ≤ (t.reqs r).isChunked
  counted : ∀ r ∈ (t.batches b).reqs, t.chunkedReq = some r →
    1 ≤ (t.reqs r).isChunked ∧ (r ∈ s.unprocessed p → 2 ≤ (t.reqs r).isChunked)

theorem mem_merging_or (h : r ∈ x.reqs) : x.chunkedReq = some r ∨ r ∈ x.merging := by
  by_cases hc : x.chunkedReq = some r
  · exact .inl hc
  · exact .inr (List.mem_filter.mpr ⟨h, by simpa using hc⟩)

theorem Offered.apart (h : Offered paused s b)
    (hone : ∀ r, s.unparked.places (s.batches b).merging r ≤ 1) :
    ∀ r ∈ (s.batches b).reqs, r ∉ s.running.reqs := by
  intro r hr hrun
  have h1 := hone r
  have h2 : 0 < s.unparked.running.reqs.count r := List.count_pos_iff.mpr hrun
  rw [places] at h1
  rcases mem_merging_or hr with hc | hm
  · rcases (h.chunk r hc).2.2 with hs | ⟨-, hz⟩
    · have h3 : s.unparked.chunkedReq.toList.count r = 1 := by
        rw [count_toList, if_pos hs]
      omega
    · rw [places] at hz
      omega
  · have := List.count_pos_iff.mpr hm
    omega

theorem Handed.decode (h : Handed p s u b) (hf : Frame u t) (ho : RunningOnly u t)
    (hne : b ≠ u.runningBatch) (hapart : ∀ r ∈ (u.batches b).reqs, r ∉ u.running.reqs) :
    Handed p s t b := by
  have hbatch : t.batches b = u.batches b := ho.batches b hne
  have hreqs : ∀ r ∈ (u.batches b).reqs, t.reqs r = u.reqs r := fun r hr => ho.reqs r (hapart r hr)
  obtain ⟨canRun, rest, h1, h2, h3⟩ := h.head
  refine ⟨⟨canRun, rest, hf.formed.trans h1, hbatch ▸ h2, fun r hr hx => ?_⟩, fun r hr hs => ?_⟩
  · rw [hreqs r (h2 r hr)]
    exact h3 r hr hx
  · rw [hbatch] at hr
    rw [hreqs r hr]
    exact h.counted r hr (hf.chunkedReq ▸ hs)

theorem chooseBatch_handed (c : Choices) (ho : Offered paused u b)
    (hone : ∀ r, u.unparked.places (u.batches b).merging r ≤ 1) (hh : Handed p s u b)
    (hready : u.running.reqs ≠ [] → Ready u b) :
    (u.chooseBatch p c b).1.published = u.published ∧ Handed p s (u.chooseBatch p c b).1 b ∧
      ((u.chooseBatch p c b).1.hybridBubblePendingPrefillBatch = some b →
        Ready (u.chooseBatch p c b).1 b) ∧
      (∀ d, ((u.chooseBatch p c b).1.hybridBubblePendingPrefillBatch = some d ∨
        ((u.chooseBatch p c b).2 = some d ∧
          ((u.chooseBatch p c b).1.batches d).isExtend = true)) → d = b) := by
  have hapart := ho.apart hone
  unfold chooseBatch
  split
  case isFalse =>
    refine ⟨rfl, ⟨hh.head, hh.counted⟩, fun hp => by simp [returnPrefill] at hp, fun d hd => ?_⟩
    rcases hd with hd | ⟨hd, -⟩
    · simp [returnPrefill] at hd
    · exact (some.inj hd).symm
  case isTrue =>
    cases hdec : u.getDecodeBatch p c with
    | mk t ret =>
      obtain ⟨⟨hf, hro, -⟩, hret⟩ := getDecodeBatch_runs p c ho.wf hdec
      have hht := hh.decode hf hro ho.ne hapart
      cases ret with
      | none =>
        refine ⟨hro.published, ⟨hht.head, hht.counted⟩, fun hp => by simp [returnPrefill] at hp,
          fun d hd => ?_⟩
        rcases hd with hd | ⟨hd, -⟩
        · simp [returnPrefill] at hd
        · exact (some.inj hd).symm
      | some x =>
        obtain ⟨rfl, hmode, hempty⟩ := hret x rfl
        refine ⟨hro.published, ⟨hht.head, hht.counted⟩, fun _ r hr => ?_, fun d hd => ?_⟩
        · -- The running batch decodes, so nothing of it was mixed into the batch.
          have hne : u.running.reqs ≠ [] := by
            intro hnil
            have : t.running.reqs = [] :=
              List.eq_nil_iff_forall_not_mem.mpr fun a ha => by
                have := hro.running a ha
                rw [hnil] at this
                exact absurd this List.not_mem_nil
            rw [isEmpty, this] at hempty
            exact absurd hempty (by decide)
          have hbatch : t.batches b = u.batches b := hro.batches b ho.ne
          have hr : r ∈ (u.batches b).merging := hbatch ▸ hr
          have hr' : t.reqs r = u.reqs r := hro.reqs r (hapart r (List.mem_of_mem_filter hr))
          rw [hr']
          exact hready hne r hr
        · rcases hd with hd | ⟨hd, hext⟩
          · exact (some.inj hd).symm
          · obtain rfl := some.inj hd
            exact (decode_ne_extend hmode hext).elim

theorem getNextBatchToRun_handed (h : Between p paused s) (ht : Tracked p s) (c : Choices) :
    (s.getNextBatchToRun p c).1.published =
        s.published ++ s.stashed.toList.filterMap s.lastFormed ∧
      ∀ b, ((s.getNextBatchToRun p c).1.hybridBubblePendingPrefillBatch = some b ∨
          ((s.getNextBatchToRun p c).2 = some b ∧
            ((s.getNextBatchToRun p c).1.batches b).isExtend = true)) →
        Handed p s (s.getNextBatchToRun p c).1 b ∧
          ((s.getNextBatchToRun p c).1.hybridBubblePendingPrefillBatch = some b →
            Ready (s.getNextBatchToRun p c).1 b) := by
  obtain ⟨-, hf, -⟩ := beginIteration_spec c h.wf h.lastApart h.one
  have hquiet := beginIteration_quiet c s
  rcases getNextBatchToRun_cases h c with ⟨b, hpend, hoff, heq⟩ |
    ⟨-, u, hwu, hpu, -, hff, hcase⟩
  · have hbatch := hf.pending_batch b hpend
    set v := s.beginIteration c
    -- Nothing of the batch ran last: only the running batch can have.
    have hnot : ∀ r ∈ (s.batches b).reqs, r ∉ s.unprocessed p := by
      intro r hr hx
      unfold unprocessed at hx
      split at hx
      · exact h.pending_apart hpend hr (h.lastAll_of_pending hpend r hx)
      · exact absurd hx List.not_mem_nil
    have hh : Handed p s v b := by
      obtain ⟨canRun, rest, h1, h2⟩ := ht.head b hpend
      refine ⟨⟨canRun, rest, hf.formed.trans h1, hbatch ▸ h2, fun r hr hx => ?_⟩, fun r hr hs => ?_⟩
      · exact absurd hx (hnot r (h2 r hr))
      · rw [hbatch] at hr
        have := ht.chunk b (.inl hpend) r hr (hf.chunkedReq ▸ hs)
        rw [hquiet.isChunked r]
        exact ⟨this, fun hx => absurd hx (hnot r hr)⟩
    have hready : Ready v b := by
      intro r hr
      rw [hbatch] at hr
      rw [hquiet.isRetracted r]
      exact ht.ready b hpend r hr
    rw [heq]
    obtain ⟨h1, h2, h3, h4⟩ :=
      chooseBatch_handed c hoff ((offered_pending h c hpend).2.one h.one) hh fun _ => hready
    refine ⟨h1.trans hquiet.published, fun d hd => ?_⟩
    obtain rfl := h4 d hd
    exact ⟨h2, h3⟩
  have hpub := hff.published.trans hquiet.published
  rcases hcase with ⟨b, canRun, hnew, hoff, hmu, heq⟩ | ⟨-, -, -, -, heq⟩
  · set v := s.beginIteration c
    -- A request that ran last and runs again is the chunked one, and its count is positive.
    have hagain : ∀ r, (r ∈ canRun ∨ u.chunkedReq = some r) → r ∈ s.unprocessed p →
        (∃ d, s.lastBatch = some d ∧ (s.batches d).isExtend = true) ∧
          1 ≤ (s.reqs r).isChunked := by
      intro r hr hx
      unfold unprocessed at hx
      split at hx
      case isFalse => exact absurd hx List.not_mem_nil
      case isTrue hov =>
        have hq : r ∈ s.waitingQueue ∨ r ∈ s.grammarQueue ∨ s.chunkedReq = some r := by
          have hsrc : r ∈ v.waitingQueue ∨ r ∈ v.grammarQueue ∨ v.chunkedReq = some r := by
            rcases hr with hr | hr
            · exact hnew.source r hr
            · exact hnew.slot r hr
          rcases hsrc with hs | hs | hs
          · exact .inl (hquiet.waiting r hs)
          · exact .inr (.inl (hquiet.grammarQueue ▸ hs))
          · exact .inr (.inr (hf.chunkedReq ▸ hs))
        obtain ⟨d, hd, hext, hmem, hslot⟩ := h.lastAll_queued hx hq
        exact ⟨⟨d, hd, hext⟩, ht.chunk d (.inr ⟨hov, hd, hext⟩) r hmem hslot⟩
    have hsame : ∀ r, (v.reqs r).isChunked = (s.reqs r).isChunked := hquiet.isChunked
    have hh : Handed p s u b := by
      refine ⟨⟨canRun, v.formed, hnew.formed, hnew.subset, fun r hr hx => ?_⟩, fun r _ hs => ?_⟩
      · obtain ⟨h1, h2⟩ := hagain r (.inl hr) hx
        have := hnew.isChunked r hr
        have := hsame r
        exact ⟨h1, by omega⟩
      · have := hnew.chunk_counted r hs
        have := hsame r
        refine ⟨by omega, fun hx => ?_⟩
        have := (hagain r (.inr hs) hx).2
        omega
    have hready : u.running.reqs ≠ [] → Ready u b := by
      intro hne r hr
      have hreqs := hnew.unmixed.resolve_left hne
      exact hnew.ready r (hreqs ▸ List.mem_of_mem_filter hr)
    rw [heq]
    obtain ⟨h1, h2, h3, h4⟩ := chooseBatch_handed c hoff (hmu.one h.one) hh hready
    refine ⟨h1.trans hpub, fun d hd => ?_⟩
    obtain rfl := h4 d hd
    exact ⟨h2, h3⟩
  · rw [heq]
    cases hdec : u.getDecodeBatch p c with
    | mk t ret' =>
      obtain ⟨hruns, hret⟩ := getDecodeBatch_runs p c hwu hdec
      refine ⟨hruns.only.published.trans hpub, fun b hb => ?_⟩
      rcases hb with hb | ⟨hb, hext⟩
      · exact absurd ((hruns.frame.pending.trans hpu).symm.trans hb) (by simp)
      · obtain ⟨rfl, hmode, -⟩ := hret b hb
        exact (decode_ne_extend hmode hext).elim

/-! ## Processing results -/

/-- What processing the result of a batch does: it publishes requests of the batch, and of a prefill
batch only those without an unprocessed chunk. -/
structure Processes (t w : Scheduler) (x : ScheduleBatch) : Prop where
  isRetracted : ∀ r, (w.reqs r).isRetracted = (t.reqs r).isRetracted
  isChunked_ge : ∀ r, (t.reqs r).isChunked ≤ (w.reqs r).isChunked + 1
  isChunked_eq : ∀ r, (r ∉ x.reqs ∨ x.isExtend = false) →
    (w.reqs r).isChunked = (t.reqs r).isChunked
  published : ∃ rs : List ReqId, w.published = t.published ++ rs.filterMap t.lastFormed ∧
    ∀ r ∈ rs, r ∈ x.reqs ∧ (x.isExtend = true → (t.reqs r).isChunked = 0)
  others : ∀ r, r ∉ x.reqs → w.reqs r = t.reqs r

theorem receiveToken_same (c : Choices) (r : ReqId) (q : Req) :
    (receiveToken c r q).isChunked = q.isChunked ∧
      (receiveToken c r q).isRetracted = q.isRetracted := by
  simp only [receiveToken, checkFinished]
  split_ifs <;> exact ⟨rfl, rfl⟩

theorem processBatchResult_processes (p : Params) (c : Choices) (t : Scheduler)
    (x : ScheduleBatch) : Processes t (t.processBatchResult p c x) x := by
  unfold processBatchResult
  split
  case isTrue hext =>
    have hreqs : ∀ r, (t.processBatchResultPrefill c x).reqs r = t.afterPrefill c x r := fun _ => rfl
    have hothers : ∀ r, r ∉ x.reqs → (t.processBatchResultPrefill c x).reqs r = t.reqs r := by
      intro r hr
      have hdone : r ∉ t.prefillResults x := fun hm => hr (List.mem_of_mem_filter hm)
      rw [hreqs r, afterPrefill, if_neg hdone, if_neg fun hm => hr hm.1]
    refine ⟨fun r => ?_, fun r => ?_, fun r hr => ?_, ?_, hothers⟩
    · rw [hreqs r, afterPrefill]
      split_ifs
      · exact (receiveToken_same c r _).2
      · rfl
      · rfl
    · rw [hreqs r, afterPrefill]
      split_ifs
      · rw [(receiveToken_same c r _).1]
        exact Nat.le_succ _
      · change _ ≤ (t.reqs r).isChunked - 1 + 1
        omega
      · exact Nat.le_succ _
    · rw [hothers r (hr.resolve_right (by simp [hext]))]
    · refine ⟨_, rfl, fun r hr => ?_⟩
      have hr := List.mem_filter.mp (List.mem_of_mem_filter hr)
      have h0 := (Bool.and_eq_true _ _ ▸ hr.2 : _ ∧ _).2
      exact ⟨hr.1, fun _ => by simpa using h0⟩
  case isFalse hext =>
    have hreqs : ∀ r, (t.processBatchResultDecode p c x).reqs r = t.afterDecode p c x r :=
      fun _ => rfl
    have hsame : ∀ r, ((t.processBatchResultDecode p c x).reqs r).isChunked =
        (t.reqs r).isChunked ∧
        ((t.processBatchResultDecode p c x).reqs r).isRetracted = (t.reqs r).isRetracted := by
      intro r
      rw [hreqs r, afterDecode]
      split
      · exact receiveToken_same c r _
      · exact ⟨rfl, rfl⟩
    refine ⟨fun r => (hsame r).2, fun r => ?_, fun r _ => (hsame r).1, ?_, fun r hr => ?_⟩
    · rw [(hsame r).1]
      exact Nat.le_succ _
    · refine ⟨_, rfl, fun r hr => ⟨?_, fun h => absurd h hext⟩⟩
      exact List.mem_of_mem_filter (List.mem_of_mem_filter hr)
    · have hnot : r ∉ t.decodeResults p x := fun hm => hr (List.mem_of_mem_filter hm)
      rw [hreqs r, afterDecode, if_neg hnot]

theorem processes_nothing (t : Scheduler) : Processes t t (empty false) :=
  ⟨fun _ => rfl, fun _ => Nat.le_succ _, fun _ _ => rfl,
    ⟨[], by simp, fun r hr => absurd hr (by simp)⟩, fun _ _ => rfl⟩

theorem runOverlap_processes (p : Params) (c : Choices) (ret : Option BatchId)
    {old : Option ScheduleBatch} (hq : s.resultQueue = old.toList)
    (hl : s.lastBatch.isSome = old.isSome) :
    Processes s (s.runOverlap p c ret) (old.getD (empty false)) := by
  set disable := s.isDisableOverlapForBatch c ret with hdis
  unfold runOverlap
  rw [← hdis]
  cases old with
  | none =>
    have hlast : s.lastBatch = none := by simpa using hl
    have hd : disable = false := by
      simp [hdis, isDisableOverlapForBatch, hq, hlast]
    rw [hd, hlast]
    have h := processes_nothing s
    exact ⟨h.1, h.2, h.3, h.4, h.5⟩
  | some x =>
    have h := processBatchResult_processes p c { s with resultQueue := [] } x
    cases hd : disable with
    | true =>
      have hpop : s.popAndProcess p c = processBatchResult p c { s with resultQueue := [] } x := by
        unfold popAndProcess
        rw [hq]
        rfl
      simp only [Bool.not_true, Bool.and_false, Bool.false_eq_true, if_false, hpop]
      exact ⟨h.1, h.2, h.3, h.4, h.5⟩
    | false =>
      have hpop : (s.launch ret).popAndProcess p c =
          processBatchResult p c { s.launch ret with resultQueue := ret.toList.map s.batches } x := by
        unfold popAndProcess launch
        rw [hq]
        rfl
      simp only [Bool.false_eq_true, if_false, hl, Bool.not_false,
        Bool.and_true, hpop]
      have h := processBatchResult_processes p c
        { s.launch ret with resultQueue := ret.toList.map s.batches } x
      exact ⟨h.1, h.2, h.3, h.4, h.5⟩

def PublishedReturned (s : Scheduler) : Prop := ∀ b ∈ s.published, b ∈ s.returned

theorem lastFormed_mem (h : s.lastFormed r = some b) : ∃ rs, (b, rs) ∈ s.formed ∧ r ∈ rs := by
  unfold lastFormed at h
  cases hf : s.formed.find? fun e => decide (r ∈ e.2) with
  | none => simp [hf] at h
  | some e =>
    rw [hf, map_some, some.injEq] at h
    have h1 := List.mem_of_find?_eq_some hf
    have h2 := List.find?_some hf
    refine ⟨e.2, ?_, by simpa using h2⟩
    rw [← h]
    exact h1

theorem lastFormed_returned
    (hformed : s.formed.map fst = s.hybridBubblePendingPrefillBatch.toList ++ s.returned)
    (hnodup : (s.formed.map fst).Nodup) (h : s.lastFormed r = some b)
    (hnot : ∀ d canRun rest, s.hybridBubblePendingPrefillBatch = some d →
      s.formed = (d, canRun) :: rest → r ∉ canRun) : b ∈ s.returned := by
  obtain ⟨rs, hmem, hr⟩ := lastFormed_mem h
  have hb : b ∈ s.formed.map fst := List.mem_map.mpr ⟨_, hmem, rfl⟩
  have hb' := hb
  rw [hformed] at hb'
  rcases List.mem_append.mp hb' with hp | hret
  · have hp : s.hybridBubblePendingPrefillBatch = some b := by simpa using hp
    cases hf : s.formed with
    | nil => simp [hf] at hmem
    | cons e rest =>
      have he : e.1 = b := by
        rw [hf, hp] at hformed
        exact (List.cons.inj hformed).1
      have hrs : rs = e.2 := by
        rw [hf] at hmem
        rcases List.mem_cons.mp hmem with h1 | h1
        · rw [← h1]
        · rw [hf, List.map_cons, List.nodup_cons] at hnodup
          exact absurd (List.mem_map.mpr ⟨_, h1, he.symm⟩) hnodup.1
      refine absurd (hrs ▸ hr) (hnot b e.2 rest hp ?_)
      rw [hf, ← he]
  · exact hret

theorem find_cons_of_mem {canRun : List ReqId} {rest : List (BatchId × List ReqId)}
    (h : s.formed = (b, canRun) :: rest) (hr : r ∈ canRun) : s.lastFormed r = some b := by
  rw [lastFormed, h, List.find?_cons_of_pos (by simpa using hr)]
  rfl

theorem Between.stashed_lastFormed (h : Between p paused s) (hs : s.stashed = some r) :
    ∃ b, s.lastFormed r = some b ∧
      (b ∈ s.returned ↔ s.hybridBubblePendingPrefillBatch = none) := by
  unfold stashed at hs
  split at hs
  case isFalse => simp at hs
  case isTrue hflag =>
    obtain ⟨b, canRun, rest, hf, hr⟩ := h.scheduled hflag r hs
    refine ⟨b, find_cons_of_mem hf hr, ?_⟩
    have hformed := h.formed
    have hnodup := h.nodup
    rw [hformed] at hnodup
    rw [hf] at hformed
    cases hp : s.hybridBubblePendingPrefillBatch with
    | none =>
      rw [hp] at hformed
      refine ⟨fun _ => rfl, fun _ => ?_⟩
      have : s.returned = b :: rest.map fst := hformed.symm
      rw [this]
      exact List.mem_cons_self
    | some d =>
      rw [hp] at hformed hnodup
      have hd : b = d := (List.cons.inj hformed).1
      subst hd
      refine ⟨fun hmem => ?_, fun h => by simp at h⟩
      exact absurd hmem (List.nodup_cons.mp hnodup).1

theorem Processes.tracked {ret : Option BatchId} (hc : Called paused s t ret)
    (hpub : t.published = s.published ++ s.stashed.toList.filterMap s.lastFormed)
    (hh : ∀ b, (t.hybridBubblePendingPrefillBatch = some b ∨
      (ret = some b ∧ (t.batches b).isExtend = true)) →
      Handed p s t b ∧ (t.hybridBubblePendingPrefillBatch = some b → Ready t b))
    (hx : (p.enableOverlap = true ∧ (∀ r ∈ x.reqs, r ∈ s.unprocessed p) ∧
        ((∃ d, s.lastBatch = some d ∧ (s.batches d).isExtend = true) → x.reqs ≠ [] →
          x.isExtend = true)) ∨
      (p.enableOverlap = false ∧ (t.hybridBubblePendingPrefillBatch ≠ none →
        x.isExtend = false ∧ ∀ r ∈ x.reqs, r ∈ t.running.reqs)))
    (hu : u = { t with
      reqs := u.reqs, published := u.published, curBatch := ret, lastBatch := ret
      resultQueue := u.resultQueue }) (hbu : Between p paused u) (hproc : Processes t u x) :
    Tracked p u ∧ ((∀ b ∈ s.stashed.toList.filterMap s.lastFormed, b ∈ t.returned) →
      (∀ b ∈ s.published, b ∈ t.returned) → PublishedReturned u) := by
  have hbatches : u.batches = t.batches := by rw [hu]
  have hpend : u.hybridBubblePendingPrefillBatch = t.hybridBubblePendingPrefillBatch := by rw [hu]
  have hslot : u.chunkedReq = t.chunkedReq := by rw [hu]
  have hlast : u.lastBatch = ret := by rw [hu]
  have hformed : u.formed = t.formed := by rw [hu]
  have hret : u.returned = t.returned := by rw [hu]
  refine ⟨⟨fun b hb r hr hs => ?_, fun b hb r hr => ?_, fun b hb => ?_⟩, fun hst hold => ?_⟩
  · rw [hbatches] at hr
    rw [hslot] at hs
    have hb' : t.hybridBubblePendingPrefillBatch = some b ∨
        (ret = some b ∧ (t.batches b).isExtend = true) := by
      rcases hb with hb | ⟨-, hb, hext⟩
      · exact .inl (hpend ▸ hb)
      · exact .inr ⟨hlast ▸ hb, hbatches ▸ hext⟩
    obtain ⟨h1, h2⟩ := (hh b hb').1.counted r hr hs
    rcases hx with ⟨-, hsub, -⟩ | ⟨ho, hdec⟩
    · by_cases hm : r ∈ x.reqs
      · have := h2 (hsub r hm)
        have := hproc.isChunked_ge r
        omega
      · rw [hproc.isChunked_eq r (.inl hm)]
        exact h1
    · have hb : t.hybridBubblePendingPrefillBatch = some b := by
        rcases hb with hb | ⟨hov, -⟩
        · exact hpend ▸ hb
        · exact absurd (ho.symm.trans hov) (by decide)
      rw [hproc.isChunked_eq r (.inr (hdec (by rw [hb]; simp)).1)]
      exact h1
  · have hb' := hpend ▸ hb
    rw [hbatches] at hr
    rw [hproc.isRetracted r]
    exact (hh b (.inl hb')).2 hb' r hr
  · have hb' := hpend ▸ hb
    obtain ⟨canRun, rest, h1, h2, -⟩ := (hh b (.inl hb')).1.head
    rw [hformed, hbatches]
    exact ⟨canRun, rest, h1, h2⟩
  · obtain ⟨rs, hrs, hmem⟩ := hproc.published
    intro b hb
    rw [hrs, hpub] at hb
    rw [hret]
    rcases List.mem_append.mp hb with hb | hb
    · rcases List.mem_append.mp hb with hb | hb
      · exact hold b hb
      · exact hst b hb
    · obtain ⟨r, hr, hlf⟩ := List.mem_filterMap.mp hb
      obtain ⟨hrx, hzero⟩ := hmem r hr
      have hnodup := hbu.nodup
      rw [hformed] at hnodup
      refine lastFormed_returned hc.formed hnodup hlf ?_
      intro d canRun rest hd hf hrun
      obtain ⟨hhd, -⟩ := hh d (.inl hd)
      obtain ⟨canRun', rest', h1, h2, h3⟩ := hhd.head
      have hcan : canRun' = canRun := by
        rw [hf] at h1
        exact (mk.inj (List.cons.inj h1).1).2.symm
      subst hcan
      rcases hx with ⟨-, hsub, hext⟩ | ⟨-, hdec⟩
      · obtain ⟨h4, h5⟩ := h3 r hrun (hsub r hrx)
        have := hzero (hext h4 (List.ne_nil_of_mem hrx))
        omega
      · have hrunning := (hdec (by rw [hd]; simp)).2 r hrx
        -- A request of the batch that was put aside is not running.
        have hrunu : u.running = t.running := by
          have : u.runningBatch = t.runningBatch := by rw [hu]
          rw [running, running, hbatches, this]
        refine hbu.pending_apart (hpend.trans hd) (r := r) ?_ ?_
        · rw [hbatches]
          exact h2 r hrun
        · rw [hrunu]
          exact hrunning

theorem runNormal_processes (p : Params) (c : Choices) (t : Scheduler) (ret : Option BatchId) :
    Processes t (t.runNormal p c ret) ((ret.map t.batches).getD (empty false)) := by
  cases ret with
  | none => exact processes_nothing t
  | some b => exact processBatchResult_processes p c t (t.batches b)

/-- An iteration keeps track of chunks, and publishes only what was handed out if it does not start
by stashing a chunk that was put aside. -/
theorem iterate_tracked (h : Between p paused s) (ht : Tracked p s) (c : Choices) :
    Tracked p (s.iterate p c) ∧
      ((s.stashed = none ∨ s.hybridBubblePendingPrefillBatch = none) → PublishedReturned s →
        PublishedReturned (s.iterate p c)) := by
  have hbu := (iterate_spec h c).1
  unfold iterate at hbu ⊢
  split
  case isTrue => exact ⟨ht, fun _ hp => hp⟩
  case isFalse hrunning =>
    rw [if_neg hrunning] at hbu
    obtain ⟨hc, -⟩ := getNextBatchToRun_spec h c
    obtain ⟨hpub, hh⟩ := getNextBatchToRun_handed h ht c
    simp only at hbu ⊢
    set t := (s.getNextBatchToRun p c).1
    set ret := (s.getNextBatchToRun p c).2 with hret
    have key : ∀ (w : Scheduler) (x : ScheduleBatch),
        Updates { t with curBatch := ret } w w.resultQueue →
        Between p paused { w with lastBatch := ret } →
        Processes { t with curBatch := ret } w x →
        ((p.enableOverlap = true ∧ (∀ r ∈ x.reqs, r ∈ s.unprocessed p) ∧
          ((∃ d, s.lastBatch = some d ∧ (s.batches d).isExtend = true) → x.reqs ≠ [] →
            x.isExtend = true)) ∨
        (p.enableOverlap = false ∧ (t.hybridBubblePendingPrefillBatch ≠ none →
          x.isExtend = false ∧ ∀ r ∈ x.reqs, r ∈ t.running.reqs))) →
        Tracked p { w with lastBatch := ret } ∧
          ((s.stashed = none ∨ s.hybridBubblePendingPrefillBatch = none) → PublishedReturned s →
            PublishedReturned { w with lastBatch := ret }) := by
      intro w x hup hbw hproc hx
      obtain ⟨h1, h2⟩ := Processes.tracked (u := { w with lastBatch := ret }) hc hpub hh hx
        (by rw [hup.eq]) hbw ⟨hproc.1, hproc.2, hproc.3, hproc.4, hproc.5⟩
      refine ⟨h1, fun hs hp => h2 (fun b hb => ?_) fun b hb => hc.returned b (hp b hb)⟩
      obtain ⟨r, hr, hlf⟩ := List.mem_filterMap.mp hb
      have hr : s.stashed = some r := by simpa using hr
      obtain ⟨d, hd, hiff⟩ := h.stashed_lastFormed hr
      obtain rfl := some.inj (hd.symm.trans hlf)
      refine hc.returned d (hiff.mpr (hs.resolve_left ?_))
      rw [hr]
      simp
    by_cases ho : p.enableOverlap = true
    · have hlen := h.queue_length ho
      rw [← hc.resultQueue, ← hc.lastBatch] at hlen
      have hq : t.resultQueue = (s.lastBatch.map s.batches).toList := by
        rw [hc.resultQueue, h.queue, if_pos ho]
        cases s.lastBatch <;> rfl
      rw [if_pos ho] at hbu ⊢
      have hup := runOverlap_updates (s := { t with curBatch := ret }) p c ret hlen
      refine key _ _ ⟨hup.eq.trans ?_, hup.reqs⟩ hbu
        (runOverlap_processes (s := { t with curBatch := ret }) p c ret hq ?_)
        (.inl ⟨ho, ?_, ?_⟩)
      · rw [hup.resultQueue]
      · rw [hc.lastBatch, isSome_map]
      · intro r hr
        rw [unprocessed, if_pos ho, lastAll]
        cases hl : s.lastBatch with
        | none => simp [hl, empty] at hr
        | some d => simpa [hl] using hr
      · rintro ⟨d, hd, hext⟩ -
        rw [hd]
        exact hext
    · rw [if_neg ho] at hbu ⊢
      have hup := runNormal_updates p c { t with curBatch := ret } ret
      refine key _ _ ⟨hup.eq.trans ?_, hup.reqs⟩ hbu (runNormal_processes p c _ ret)
        (.inr ⟨by simpa using ho, fun hp => ?_⟩)
      · rw [hup.resultQueue]
      · cases hr : ret with
        | none => exact ⟨rfl, fun r hm => absurd hm (by simp [empty])⟩
        | some b =>
          rcases hc.ret b hr with ⟨-, -, -, hn, -⟩ | ⟨rfl, hmode, -⟩
          · exact absurd hn hp
          · exact ⟨not_extend_of_decode hmode, fun r hm => hm⟩

/-! ## Messages -/

theorem Tracked.keep (h : Tracked p s)
    (hpend : t.hybridBubblePendingPrefillBatch = s.hybridBubblePendingPrefillBatch)
    (hbatch : ∀ b, s.hybridBubblePendingPrefillBatch = some b → t.batches b = s.batches b)
    (hlast : t.lastBatch = none ∨ (t.lastBatch = s.lastBatch ∧ t.batches = s.batches))
    (hslot : ∀ r, t.chunkedReq = some r → s.chunkedReq = some r ∧
      ((s.hybridBubblePendingPrefillBatch ≠ none ∨ t.lastBatch ≠ none) →
        (t.reqs r).isChunked = (s.reqs r).isChunked))
    (hready : ∀ b, s.hybridBubblePendingPrefillBatch = some b →
      ∀ r ∈ (s.batches b).merging, (t.reqs r).isRetracted = (s.reqs r).isRetracted)
    (hformed : t.formed = s.formed) : Tracked p t := by
  refine ⟨fun b hb r hr hs => ?_, fun b hb r hr => ?_, fun b hb => ?_⟩
  · obtain ⟨hs', hcount⟩ := hslot r hs
    rcases hb with hb | ⟨ho, hb, hext⟩
    · have hb := hpend.symm.trans hb
      rw [hbatch b hb] at hr
      rw [hcount (.inl (by rw [hb]; simp))]
      exact h.chunk b (.inl hb) r hr hs'
    · rcases hlast with hn | ⟨hl, he⟩
      · exact absurd (hn.symm.trans hb) (by simp)
      · rw [he] at hext hr
        rw [hcount (.inr (by rw [hb]; simp))]
        exact h.chunk b (.inr ⟨ho, hl ▸ hb, hext⟩) r hr hs'
  · have hb := hpend.symm.trans hb
    rw [hbatch b hb] at hr
    rw [hready b hb r hr]
    exact h.ready b hb r hr
  · have hb := hpend.symm.trans hb
    rw [hformed, hbatch b hb]
    exact h.head b hb

theorem receive_tracked (h : Between p paused s) (ht : Tracked p s) (hr : r ∉ s.arrived) (q : Req)
    (g : Bool) : Tracked p (s.receive p r q g) := by
  obtain ⟨w, x, rep, he, -⟩ := receive_eq p s r q g
  have hother : ∀ a, 0 < s.places s.lastMerging a → (s.receive p r q g).reqs a = s.reqs a := by
    intro a ha
    have hne : a ≠ r := fun har => hr (har ▸ h.known a ha)
    rw [he]
    exact Function.update_of_ne hne _ _
  refine ht.keep (by rw [he]) (fun b _ => by rw [he]) (.inr ⟨by rw [he], by rw [he]⟩)
    (fun a ha => ?_) (fun b hb a ha => ?_) (by rw [he])
  · have ha : s.chunkedReq = some a := by
      rw [he] at ha
      exact ha
    refine ⟨ha, fun _ => ?_⟩
    rw [hother a]
    rw [places, count_toList, if_pos ha]
    omega
  · rw [hother a]
    have := List.count_pos_iff.mpr ha
    rw [places, parked_of_some hb]
    omega

theorem abortRequest_tracked (h : Tracked p s) (a : AbortReq) : Tracked p (s.abortRequest a) := by
  have hfield : ∀ {α : Type} (g : Req → α), (∀ q : Req, g { q with toFinish := true } = g q) →
      ∀ r, g ((s.abortRequest a).reqs r) = g (s.reqs r) := by
    intro α g hg r
    unfold abortRequest
    rw [setReqs_field _ _ _ g hg, setReqs_field _ _ _ g hg]
  exact h.keep rfl (fun _ _ => rfl) (.inr ⟨rfl, rfl⟩)
    (fun r hr => ⟨hr, fun _ => hfield isChunked (fun _ => rfl) r⟩)
    (fun _ _ r _ => hfield isRetracted (fun _ => rfl) r) rfl

theorem flushCache_tracked (h : Tracked p s) (idle : Bool) : Tracked p (s.flushCache p idle) := by
  unfold flushCache
  split
  · exact h.keep rfl (fun _ _ => rfl) (.inl rfl) (fun r hr => ⟨hr, fun _ => rfl⟩)
      (fun _ _ _ _ => rfl) rfl
  · exact h

theorem mergeLastBatchForPause_same (s : Scheduler) :
    s.mergeLastBatchForPause.reqs = s.reqs ∧ s.mergeLastBatchForPause.published = s.published := by
  unfold mergeLastBatchForPause
  split
  · exact ⟨rfl, rfl⟩
  · rename_i b _
    split
    · obtain ⟨h1, -, -, -, -, h2⟩ := (s.filterBatch b []).takeOver_same b
      exact ⟨h1, h2⟩
    · exact ⟨rfl, rfl⟩

theorem settleLastBatch_processes (h : Between p paused s) (c : Choices) :
    ∃ x, Processes s (s.settleLastBatch p c) x ∧ (∀ r ∈ x.reqs, r ∈ s.lastAll) ∧
      (s.hybridBubblePendingPrefillBatch ≠ none → x.isExtend = false) := by
  set u := if p.enableOverlap && s.lastBatch.isSome then s.popAndProcess p c else s with hu
  obtain ⟨hreqs, hpub⟩ := mergeLastBatchForPause_same u
  have key : ∀ x, Processes s u x → Processes s (s.settleLastBatch p c) x := by
    intro x hx
    have hr : ∀ r, (s.settleLastBatch p c).reqs r = u.reqs r := fun r => congrFun hreqs r
    refine ⟨fun r => ?_, fun r => ?_, fun r hm => ?_, ?_, fun r hm => ?_⟩
    · rw [hr]
      exact hx.isRetracted r
    · rw [hr]
      exact hx.isChunked_ge r
    · rw [hr]
      exact hx.isChunked_eq r hm
    · obtain ⟨rs, h1, h2⟩ := hx.published
      exact ⟨rs, hpub.trans h1, h2⟩
    · rw [hr]
      exact hx.others r hm
  by_cases ho : (p.enableOverlap && s.lastBatch.isSome) = true
  · rw [if_pos ho] at hu
    obtain ⟨ho, hs⟩ := (Bool.and_eq_true _ _ ▸ ho : _ ∧ _)
    obtain ⟨b, hb⟩ := isSome_iff_exists.mp hs
    have hq : s.resultQueue = [s.batches b] := by
      rw [h.queue, if_pos ho, hb]
      rfl
    have hpop : u = processBatchResult p c { s with resultQueue := [] } (s.batches b) := by
      rw [hu, popAndProcess, hq]
    refine ⟨s.batches b, key _ ?_, fun r hr => ?_, fun hp => ?_⟩
    · have h1 := processBatchResult_processes p c { s with resultQueue := [] } (s.batches b)
      rw [hpop]
      exact ⟨h1.1, h1.2, h1.3, h1.4, h1.5⟩
    · rw [lastAll, hb]
      exact hr
    · rcases h.last b hb with ⟨-, -, -, hn, -⟩ | ⟨rfl, hmode⟩
      · exact absurd hn hp
      · exact not_extend_of_decode hmode
  · rw [if_neg ho] at hu
    refine ⟨empty false, key _ ?_, fun r hr => ?_, fun _ => rfl⟩
    · rw [hu]
      exact processes_nothing s
    · exact absurd hr (by simp [empty])

theorem settleLastBatch_tracked (h : Between p paused s) (ht : Tracked p s) (c : Choices) :
    Tracked p (s.settleLastBatch p c) ∧
      (PublishedReturned s → PublishedReturned (s.settleLastBatch p c)) := by
  have hv := settleLastBatch_spec h c
  obtain ⟨x, hx, hmem, hdec⟩ := settleLastBatch_processes h c
  refine ⟨ht.keep (by rw [hv.eq]) hv.pending_batch (.inl (by rw [hv.eq])) (fun r hr => ?_)
    (fun b hb r _ => hx.isRetracted r) (by rw [hv.eq]), fun hp b hb => ?_⟩
  · have hslot : (s.settleLastBatch p c).chunkedReq = s.chunkedReq := by rw [hv.eq]
    refine ⟨hslot ▸ hr, fun hd => hx.isChunked_eq r (.inr (hdec (hd.resolve_right ?_)))⟩
    rw [hv.eq]
    simp
  · have hret : (s.settleLastBatch p c).returned = s.returned := by rw [hv.eq]
    rw [hret]
    obtain ⟨rs, hrs, hsub⟩ := hx.published
    rw [hrs] at hb
    rcases List.mem_append.mp hb with hb | hb
    · exact hp b hb
    · obtain ⟨r, hr, hlf⟩ := List.mem_filterMap.mp hb
      refine lastFormed_returned h.formed h.nodup hlf ?_
      intro d canRun rest hd hf hrun
      obtain ⟨canRun', rest', h1, h2⟩ := ht.head d hd
      have hcan : canRun' = canRun := by
        rw [hf] at h1
        exact (mk.inj (List.cons.inj h1).1).2.symm
      exact h.pending_apart hd (h2 r (hcan ▸ hrun))
        (h.lastAll_of_pending hd r (hmem r (hsub r hr).1))

theorem lastReqs_lastAll (hr : r ∈ s.lastReqs) : r ∈ s.lastAll := by
  unfold lastReqs at hr
  unfold lastAll
  cases hl : s.lastBatch with
  | none => simp [hl] at hr
  | some b =>
    simp only [hl] at hr
    split at hr
    · exact hr
    · exact absurd hr List.not_mem_nil

theorem retracted_tracked {v : Scheduler} {w rep : List ReqId} (h : Between p paused s)
    (hv : Settles s v []) (htv : Tracked p v) (ht : Retracts v t w rep) : Tracked p t := by
  have hslot : t.chunkedReq = none := by rw [ht.eq]
  have hvpend : v.hybridBubblePendingPrefillBatch = s.hybridBubblePendingPrefillBatch := by
    rw [hv.eq]
  refine htv.keep (by rw [ht.eq]) (fun b hb => ht.batches b (hv.wf.pending_ne b hb))
    (.inl (by rw [ht.eq, hv.eq])) (fun r hr => absurd (hslot.symm.trans hr) (by simp))
    (fun b hb r hr => ?_) (by rw [ht.eq])
  have hb' := hvpend.symm.trans hb
  rw [hv.pending_batch b hb'] at hr
  have hr' := List.mem_of_mem_filter hr
  rw [ht.others r]
  intro hrun
  have h1 := hv.count_le r
  have h2 := List.count_pos_iff.mpr hrun
  have h3 : s.running.reqs.count r = 0 := List.count_eq_zero.mpr (h.pending_apart hb' hr')
  have h4 : s.lastReqs.count r = 0 := List.count_eq_zero.mpr fun hl =>
    h.pending_apart hb' hr' (h.lastAll_of_pending hb' r (lastReqs_lastAll hl))
  omega

end Fluxfer.Sched
