import Fluxfer.Sched.Batches

/-!
# The batch that is handed out

A prefill batch that was formed, or that was put aside before, is offered. Either it is handed out,
or it is put aside once more while the running batch decodes. `Called` collects what holds after
`get_next_batch_to_run` in either case.
-/

namespace Fluxfer.Sched

open List Option Prod

namespace Scheduler

variable {s : Scheduler}

def unparked (s : Scheduler) : Scheduler := { s with hybridBubblePendingPrefillBatch := none }

theorem places_unparked (s : Scheduler) (l : List ReqId) (r : ReqId) :
    s.unparked.places (l ++ s.parked) r = s.places l r := by
  simp only [places, count_append]
  change s.waitingQueue.count r + s.grammarQueue.count r + s.running.reqs.count r + _ + 0 +
    s.chunkedReq.toList.count r = _
  omega

theorem parked_of_some {b : BatchId} (h : s.hybridBubblePendingPrefillBatch = some b) :
    s.parked = (s.batches b).merging := by
  simp only [parked, h]

theorem places_parked {b : BatchId} (h : s.hybridBubblePendingPrefillBatch = some b) (r : ReqId) :
    s.unparked.places (s.batches b).merging r = s.places [] r := by
  rw [← s.places_unparked [] r, nil_append, parked_of_some h]

end Scheduler

/-- The chunked request of a batch was received, and is in the batch once at most. It is in the
chunked slot, or it is nowhere else at all: a pause may have emptied the slot. `paused` says whether
the run may contain such a pause. -/
def ChunkKept (paused : Prop) (s : Scheduler) (inHand : List ReqId) (b : BatchId) : Prop :=
  ∀ r, (s.batches b).chunkedReq = some r → r ∈ s.arrived ∧ (s.batches b).reqs.count r ≤ 1 ∧
    (s.chunkedReq = some r ∨ (paused ∧ s.places inHand r = 0))

/-- A scheduled chunk is in the batch that was formed last. -/
def ChunkScheduled (s : Scheduler) : Prop :=
  s.chunkedReqScheduledLastIter = true → ∀ r, s.chunkedReq = some r →
    ∃ b canRun rest, s.formed = (b, canRun) :: rest ∧ r ∈ canRun

theorem ChunkKept.moves {paused : Prop} {s t : Scheduler} {l m : List ReqId} {b : BatchId}
    (h : ChunkKept paused s l b) (hc : t.chunkedReq = s.chunkedReq)
    (hb : t.batches b = s.batches b) (hm : Moves s l t m) : ChunkKept paused t m b := by
  intro r hr
  rw [hb] at hr
  obtain ⟨h0, h1, h2⟩ := h r hr
  refine ⟨hm.arrived ▸ h0, hb ▸ h1, h2.imp hc.trans fun h2 => ⟨h2.1, ?_⟩⟩
  exact Nat.le_zero.mp ((hm.le r).trans h2.2.le)

theorem ChunkScheduled.frame {s t : Scheduler} (h : ChunkScheduled s) (hf : Frame s t) :
    ChunkScheduled t := by
  unfold ChunkScheduled
  rw [hf.scheduled, hf.chunkedReq, hf.formed]
  exact h

/-- At most one prefill batch was formed, at a new address. -/
def Fresh (s t : Scheduler) : Prop :=
  (t.formed = s.formed ∧ s.nextBatch ≤ t.nextBatch) ∨
    ∃ canRun, t.formed = (s.nextBatch, canRun) :: s.formed ∧ s.nextBatch < t.nextBatch

/-- What a state in the middle of a call keeps of the state the call started in. -/
structure Since (s u : Scheduler) : Prop where
  lastBatch : u.lastBatch = s.lastBatch
  resultQueue : u.resultQueue = s.resultQueue
  returned : u.returned = s.returned
  fresh : Fresh s u

theorem Since.frame {s u t : Scheduler} (h : Since s u) (hf : Frame u t) : Since s t := by
  refine ⟨hf.lastBatch.trans h.lastBatch, hf.resultQueue.trans h.resultQueue,
    hf.returned.trans h.returned, ?_⟩
  unfold Fresh
  rw [hf.formed, hf.nextBatch]
  exact h.fresh

/-- The prefill batch `b` is offered: it was formed last and not handed out yet. -/
structure Offered (paused : Prop) (s : Scheduler) (b : BatchId) : Prop where
  wf : Wf s
  pending : s.hybridBubblePendingPrefillBatch = none ∨ s.hybridBubblePendingPrefillBatch = some b
  lt : b < s.nextBatch
  ne : b ≠ s.runningBatch
  extend : (s.batches b).isExtend = true
  formed : s.formed.map fst = b :: s.returned
  scheduled : ChunkScheduled s
  chunk : ChunkKept paused s.unparked (s.batches b).merging b
  preload : (s.batches b).hybridBubbleNeedsPreload = true → s.ongoingLoadBack ≠ []
  loads : s.LoadsCounted

/-- The state after a call of `get_next_batch_to_run` that returned `ret`. -/
structure Called (paused : Prop) (s t : Scheduler) (ret : Option BatchId) : Prop where
  wf : Wf t
  moves : Moves s s.lastMerging t (t.mergingOf ret)
  lastBatch : t.lastBatch = s.lastBatch
  resultQueue : t.resultQueue = s.resultQueue
  loads : t.LoadsCounted
  pending : ∀ b, t.hybridBubblePendingPrefillBatch = some b →
    (t.batches b).isExtend = true ∧ t.ongoingLoadBack ≠ [] ∧ ChunkKept paused t (t.mergingOf ret) b
  formed : t.formed.map fst = t.hybridBubblePendingPrefillBatch.toList ++ t.returned
  fresh : Fresh s t
  returned : ∀ b ∈ s.returned, b ∈ t.returned
  scheduled : ChunkScheduled t
  ret : ∀ b, ret = some b →
    ((t.batches b).isExtend = true ∧ b < t.nextBatch ∧ b ≠ t.runningBatch ∧
      t.hybridBubblePendingPrefillBatch = none ∧ t.returned = b :: s.returned ∧
      ChunkKept paused t (t.mergingOf ret) b) ∨
    (b = t.runningBatch ∧ t.running.forwardMode = some .decode ∧ t.running.isEmpty = false)

namespace Scheduler

variable {s u t : Scheduler} {b : BatchId}
variable {paused : Prop}

theorem not_extend_of_decode {x : ScheduleBatch} (h : x.forwardMode = some .decode) :
    x.isExtend = false := by
  simp only [ScheduleBatch.isExtend, h, ForwardMode.isExtend]

theorem decode_ne_extend {x : ScheduleBatch} (h : x.forwardMode = some .decode)
    (hext : x.isExtend = true) : False :=
  absurd (hext.symm.trans (not_extend_of_decode h)) (by decide)

theorem mergingOf_decode (h : s.running.forwardMode = some .decode) :
    s.mergingOf (some s.runningBatch) = [] := by
  have : (s.batches s.runningBatch).isExtend = false := not_extend_of_decode h
  simp only [mergingOf, this, Bool.false_eq_true, if_false]

theorem mergingOf_extend (h : (s.batches b).isExtend = true) :
    s.mergingOf (some b) = (s.batches b).merging := by
  simp only [mergingOf, h, if_true]

theorem returnPrefill_called (h : Offered paused u b)
    (hm : Moves s s.lastMerging u.unparked (u.batches b).merging) (hs : Since s u) :
    Called paused s (u.returnPrefill b) (some b) := by
  have hmerge := mergingOf_extend (s := u.returnPrefill b) h.extend
  have hnone : ∀ d, (u.returnPrefill b).hybridBubblePendingPrefillBatch ≠ some d := fun d hd => by
    simp [returnPrefill] at hd
  refine ⟨⟨h.wf.1, fun d hd => absurd hd (hnone d), fun d hd => absurd hd (hnone d)⟩, ?_,
    hs.lastBatch, hs.resultQueue, h.loads, fun d hd => absurd hd (hnone d), h.formed, hs.fresh,
    fun d hd => mem_cons_of_mem b (hs.returned ▸ hd), h.scheduled, ?_⟩
  · rw [hmerge]
    exact ⟨hm.le, hm.kept, hm.finished, hm.left, hm.arrived, hm.free⟩
  · rintro d hd
    obtain rfl := some.inj hd
    refine .inl ⟨h.extend, h.lt, h.ne, rfl, congrArg _ hs.returned, ?_⟩
    rw [hmerge]
    exact h.chunk

theorem offered_getDecodeBatch {p : Params} {c : Choices} {ret : Option BatchId}
    (h : Offered paused u b) (hd : u.getDecodeBatch p c = (t, ret)) :
    Offered paused t b ∧ Moves u.unparked (u.batches b).merging t.unparked (t.batches b).merging ∧
      t.batches b = u.batches b := by
  obtain ⟨hruns, -⟩ := getDecodeBatch_runs p c h.wf hd
  have hf := hruns.frame
  have hm := hruns.moves
  have hbatch : t.batches b = u.batches b := hruns.only.batches b h.ne
  have hm' : Moves u.unparked (u.batches b).merging t.unparked (t.batches b).merging := by
    have hadd := hm.add (u.batches b).merging
    rw [hbatch]
    have hplaces : ∀ (v : Scheduler) (l : List ReqId) (r : ReqId),
        v.unparked.places l r + v.parked.count r = v.places l r := by
      intro v l r
      rw [← v.places_unparked l r]
      simp only [places, count_append]
      omega
    refine ⟨fun r => ?_, fun r hlt => ?_, hm.finished, hm.left, hm.arrived, hm.free⟩
    · have h1 := hadd.le r
      have h2 := hplaces t (u.batches b).merging r
      have h3 := hplaces u (u.batches b).merging r
      rw [hf.parked] at h2
      rw [append_nil] at h1
      omega
    · have h2 := hplaces t (u.batches b).merging r
      have h3 := hplaces u (u.batches b).merging r
      rw [hf.parked] at h2
      refine hadd.kept r ?_
      rw [append_nil]
      omega
  refine ⟨⟨hruns.wf h.wf, by rw [hf.pending]; exact h.pending, by rw [hf.nextBatch]; exact h.lt,
    by rw [hruns.only.runningBatch]; exact h.ne, by rw [hbatch]; exact h.extend,
    by rw [hf.formed, hf.returned]; exact h.formed, h.scheduled.frame hf,
    h.chunk.moves hf.chunkedReq hbatch hm', ?_, hf.loads h.loads⟩, hm', hbatch⟩
  rw [hbatch, hf.ongoingLoadBack]
  exact h.preload

theorem park_called {d : BatchId} (h : Offered paused t b)
    (hm : Moves s s.lastMerging t.unparked (t.batches b).merging)
    (hneed : (t.batches b).hybridBubbleNeedsPreload = true)
    (hd : d = t.runningBatch ∧ t.running.forwardMode = some .decode ∧ t.running.isEmpty = false)
    (hs : Since s t) :
    Called paused s { t with hybridBubblePendingPrefillBatch := some b } (some d) := by
  set t' : Scheduler := { t with hybridBubblePendingPrefillBatch := some b }
  obtain ⟨rfl, hmode, hne⟩ := hd
  have hmerge : t'.mergingOf (some t.runningBatch) = [] := mergingOf_decode hmode
  have hpark : Moves t.unparked (t.batches b).merging t' [] :=
    .of_eq (fun r => (t'.places_parked rfl r).symm) (fun _ h => h) (fun _ h => h) rfl id
  refine ⟨⟨h.wf.1, ?_, ?_⟩, ?_, hs.lastBatch, hs.resultQueue, h.loads, ?_, h.formed, hs.fresh,
    fun d hd => hs.returned ▸ hd, h.scheduled, ?_⟩
  · intro x hx
    obtain rfl := some.inj hx
    exact h.lt
  · intro x hx
    obtain rfl := some.inj hx
    exact h.ne
  · rw [hmerge]
    exact hm.trans hpark
  · intro x hx
    obtain rfl := some.inj hx
    rw [hmerge]
    exact ⟨h.extend, h.preload hneed, h.chunk.moves rfl rfl hpark⟩
  · rintro x hx
    obtain rfl := some.inj hx
    exact .inr ⟨rfl, hmode, hne⟩

/-- What a call does with an offered batch: it is handed out unless its preload is unfinished and
the running batch can decode. -/
theorem chooseBatch_spec (p : Params) (c : Choices) (h : Offered paused u b)
    (hm : Moves s s.lastMerging u.unparked (u.batches b).merging) (hs : Since s u) :
    Called paused s (u.chooseBatch p c b).1 (u.chooseBatch p c b).2 ∧
      (u.chooseBatch p c b).1.formed = u.formed ∧
      (((u.chooseBatch p c b).2 = some b ∧
          (u.chooseBatch p c b).1.hybridBubblePendingPrefillBatch = none) ∨
        ((u.chooseBatch p c b).1.hybridBubblePendingPrefillBatch = some b ∧
          c.preloadFinished = false ∧ p.bubbleFilling = true ∧
          ∃ d, (u.chooseBatch p c b).2 = some d ∧
            ((u.chooseBatch p c b).1.batches d).forwardMode = some .decode ∧
            ((u.chooseBatch p c b).1.batches d).isEmpty = false)) := by
  unfold chooseBatch
  split
  case isTrue hfill =>
    have hfill : p.bubbleFilling = true ∧ (u.batches b).hybridBubbleNeedsPreload = true ∧
        c.preloadFinished = false := by
      simpa [shouldHybridBubbleFillPrefill, and_assoc] using hfill
    obtain ⟨hbub, hneed, hpre⟩ := hfill
    cases hdec : u.getDecodeBatch p c with
    | mk t ret =>
      obtain ⟨ht, hmt, hbt⟩ := offered_getDecodeBatch h hdec
      obtain ⟨hruns, hret⟩ := getDecodeBatch_runs p c h.wf hdec
      have hst := hs.frame hruns.frame
      cases ret with
      | none =>
        exact ⟨returnPrefill_called ht (hm.trans hmt) hst, hruns.frame.formed, .inl ⟨rfl, rfl⟩⟩
      | some d =>
        have hd := hret d rfl
        refine ⟨park_called ht (hm.trans hmt) (hbt ▸ hneed) hd hst, hruns.frame.formed,
          .inr ⟨rfl, hpre, hbub, d, rfl, ?_, ?_⟩⟩
        · rw [hd.1]
          exact hd.2.1
        · rw [hd.1]
          exact hd.2.2
  case isFalse => exact ⟨returnPrefill_called h hm hs, rfl, .inl ⟨rfl, rfl⟩⟩

end Scheduler

/-- What holds between two iterations, in every run. -/
structure Between (p : Params) (paused : Prop) (s : Scheduler) : Prop where
  wf : Wf s
  cur : s.curBatch = s.lastBatch
  last : ∀ b, s.lastBatch = some b →
    ((s.batches b).isExtend = true ∧ b < s.nextBatch ∧ b ≠ s.runningBatch ∧
      s.hybridBubblePendingPrefillBatch = none ∧ s.returned.head? = some b ∧
      ChunkKept paused s s.lastMerging b) ∨
    (b = s.runningBatch ∧ s.running.forwardMode = some .decode)
  one : ∀ r, s.places s.lastMerging r ≤ 1
  known : ∀ r, 0 < s.places s.lastMerging r → r ∈ s.arrived
  free : s.QueuedFree
  loads : s.LoadsCounted
  pending : ∀ b, s.hybridBubblePendingPrefillBatch = some b →
    (s.batches b).isExtend = true ∧ s.ongoingLoadBack ≠ [] ∧ ChunkKept paused s s.lastMerging b
  formed : s.formed.map fst = s.hybridBubblePendingPrefillBatch.toList ++ s.returned
  nodup : (s.formed.map fst).Nodup
  formed_lt : ∀ e ∈ s.formed, e.1 < s.nextBatch
  scheduled : ChunkScheduled s
  queue : s.resultQueue = if p.enableOverlap then s.lastBatch.toList.map s.batches else []

theorem Between.lastApart {p : Params} {paused : Prop} {s : Scheduler} (h : Between p paused s) :
    s.LastApart := by
  intro b hb hext
  rcases h.last b hb with ⟨-, hlt, hne, hp, -⟩ | ⟨rfl, hmode⟩
  · exact ⟨hlt, hne, by rw [hp]; simp⟩
  · exact (Scheduler.decode_ne_extend hmode hext).elim

namespace Scheduler

variable {p : Params} {s u : Scheduler} {b : BatchId}
variable {paused : Prop}

theorem offered_pending (h : Between p paused s) (c : Choices)
    (hb : s.hybridBubblePendingPrefillBatch = some b) :
    Offered paused (s.beginIteration c) b ∧
      Moves s s.lastMerging (s.beginIteration c).unparked
        ((s.beginIteration c).batches b).merging := by
  obtain ⟨hw, hf, hm⟩ := beginIteration_spec c h.wf h.lastApart h.one
  set v := s.beginIteration c
  have hpv : v.hybridBubblePendingPrefillBatch = some b := hf.pending.trans hb
  have hbatch := hf.pending_batch b hb
  obtain ⟨hext, hload, hchunk⟩ := h.pending b hb
  have hm' := hm.trans (.of_eq (v.places_parked hpv) (fun _ h => h) (fun _ h => h) rfl id)
  refine ⟨⟨hw, .inr hpv, hw.pending_lt b hpv, hw.pending_ne b hpv, by rw [hbatch]; exact hext, ?_,
    h.scheduled.frame hf, hchunk.moves hf.chunkedReq hbatch hm',
    fun _ => by rw [hf.ongoingLoadBack]; exact hload, hf.loads h.loads⟩, hm'⟩
  rw [hf.formed, hf.returned, h.formed, hb]
  rfl

theorem offered_new {canRun : List ReqId} (hw : Wf u)
    (hp : u.hybridBubblePendingPrefillBatch = none) (hnew : NewPrefill s u b canRun)
    (hformed : s.formed.map fst = u.returned)
    (hknown : ∀ r, 0 < u.places (u.batches b).merging r → r ∈ u.arrived) : Offered paused u b := by
  refine ⟨hw, .inl hp, hnew.lt, hnew.ne, hnew.extend, ?_, ?_, ?_, hnew.preload, hnew.loads⟩
  · rw [hnew.formed, map_cons, hformed]
  · intro hflag r hr
    obtain ⟨a, ha, hmem⟩ := hnew.scheduled hflag
    rw [hr] at ha
    obtain rfl := some.inj ha
    exact ⟨b, canRun, s.formed, hnew.formed, hmem⟩
  · intro r hr
    have hslot : u.chunkedReq = some r := hnew.chunkedReq.symm.trans hr
    refine ⟨hknown r ?_, hnew.count_le r, .inl hslot⟩
    rw [places, hslot, toList_some, count_singleton_self]
    omega

theorem decode_called {t : Scheduler} {ret : Option BatchId} {c : Choices} (hw : Wf u)
    (hp : u.hybridBubblePendingPrefillBatch = none) (hm : Moves s s.lastMerging u [])
    (hs : Since s u) (hloads : u.LoadsCounted) (hformed : u.formed.map fst = u.returned)
    (hsched : ChunkScheduled u) (h : u.getDecodeBatch p c = (t, ret)) : Called paused s t ret := by
  obtain ⟨hruns, hret⟩ := getDecodeBatch_runs p c hw h
  have hf := hruns.frame
  have hst := hs.frame hf
  have hpt : t.hybridBubblePendingPrefillBatch = none := hf.pending.trans hp
  have hmerge : t.mergingOf ret = [] := by
    cases ret with
    | none => rfl
    | some b =>
      obtain ⟨rfl, hmode, -⟩ := hret b rfl
      exact mergingOf_decode hmode
  refine ⟨hruns.wf hw, ?_, hst.lastBatch, hst.resultQueue, hf.loads hloads, ?_, ?_, hst.fresh,
    fun b hb => hst.returned ▸ hb, hsched.frame hf, fun b hb => .inr (hret b hb)⟩
  · rw [hmerge]
    exact hm.trans hruns.moves
  · intro b hb
    exact absurd (hpt.symm.trans hb) (by simp)
  · rw [hf.formed, hf.returned, hpt, hformed]
    rfl

/-- What a call does with a batch that was put aside: it forms no other one, and hands this one out
unless its preload is unfinished and the running batch can decode. -/
def Resumes (p : Params) (c : Choices) (s t : Scheduler) (ret : Option BatchId) (b : BatchId) :
    Prop :=
  t.formed = s.formed ∧
    ((ret = some b ∧ t.hybridBubblePendingPrefillBatch = none) ∨
      (t.hybridBubblePendingPrefillBatch = some b ∧ c.preloadFinished = false ∧
        p.bubbleFilling = true ∧
        ∃ d, ret = some d ∧ (t.batches d).forwardMode = some .decode ∧
          (t.batches d).isEmpty = false))

theorem getNextBatchToRun_cases (h : Between p paused s) (c : Choices) :
    (∃ b, s.hybridBubblePendingPrefillBatch = some b ∧ Offered paused (s.beginIteration c) b ∧
      s.getNextBatchToRun p c = (s.beginIteration c).chooseBatch p c b) ∨
    s.hybridBubblePendingPrefillBatch = none ∧ ∃ u, Wf u ∧
      u.hybridBubblePendingPrefillBatch = none ∧ Since s u ∧ FormFrame (s.beginIteration c) u ∧
      ((∃ b canRun, NewPrefill (s.beginIteration c) u b canRun ∧ Offered paused u b ∧
          Moves s s.lastMerging u.unparked (u.batches b).merging ∧
          s.getNextBatchToRun p c = u.chooseBatch p c b) ∨
        (u.LoadsCounted ∧ u.formed.map fst = u.returned ∧ ChunkScheduled u ∧
          Moves s s.lastMerging u [] ∧ s.getNextBatchToRun p c = u.getDecodeBatch p c)) := by
  obtain ⟨hw, hf, hm⟩ := beginIteration_spec c h.wf h.lastApart h.one
  cases hpend : s.hybridBubblePendingPrefillBatch with
  | some b =>
    refine .inl ⟨b, rfl, (offered_pending h c hpend).1, ?_⟩
    simp only [getNextBatchToRun, prefillBatch, hf.pending.trans hpend]
  | none =>
    refine .inr ⟨rfl, ?_⟩
    set v := s.beginIteration c with hv
    have hpv : v.hybridBubblePendingPrefillBatch = none := hf.pending.trans hpend
    obtain ⟨hwu, hff, hformed⟩ := getNewBatchPrefill_spec p c hw hpv (hm.one h.one) (hm.free h.free)
      (hf.loads h.loads)
    have hreturned : v.formed.map fst = (v.getNewBatchPrefill p c).1.returned := by
      rw [hff.returned, hf.returned, hf.formed, h.formed, hpend]
      rfl
    cases hres : v.getNewBatchPrefill p c with
    | mk u ret =>
      rw [hres] at hwu hff hformed hreturned
      have hpu := hff.pending.trans hpv
      have hsince : Fresh s u → Since s u := fun hfresh =>
        ⟨hff.lastBatch.trans hf.lastBatch, hff.resultQueue.trans hf.resultQueue,
          hff.returned.trans hf.returned, hfresh⟩
      cases ret with
      | none =>
        obtain ⟨hno, hmu⟩ := hformed
        refine ⟨u, hwu, hpu, hsince ?_, hff, .inr ⟨hno.loads (hf.loads h.loads), ?_, ?_,
          hm.trans hmu, ?_⟩⟩
        · exact .inl ⟨hno.formed.trans hf.formed, (hno.nextBatch.trans hf.nextBatch).ge⟩
        · rw [hno.formed]
          exact hreturned
        · intro hflag r hr
          rcases hno.unscheduled with hn | hn
          · exact absurd (hn.symm.trans hr) (by simp)
          · exact absurd (hn.symm.trans hflag) (by decide)
        · simp only [getNextBatchToRun, prefillBatch, ← hv, hpv, hres]
      | some b =>
        obtain ⟨⟨canRun, hnew⟩, hmu⟩ := hformed
        have hmu' := hm.trans hmu
        have hun : u.unparked = u := by
          unfold unparked
          rw [← hpu]
        refine ⟨u, hwu, hpu, hsince (.inr ⟨canRun, ?_, ?_⟩), hff, .inl ⟨b, canRun, hnew,
          offered_new hwu hpu hnew hreturned fun r hr => ?_, hun.symm ▸ hmu', ?_⟩⟩
        · rw [hnew.formed, hnew.addr, hf.nextBatch, hf.formed]
        · rw [← hf.nextBatch, ← hnew.addr]
          exact hnew.lt
        · rw [hmu'.arrived]
          exact h.known r (hr.trans_le (hmu'.le r))
        · simp only [getNextBatchToRun, prefillBatch, ← hv, hpv, hres]

theorem getNextBatchToRun_spec (h : Between p paused s) (c : Choices) :
    Called paused s (s.getNextBatchToRun p c).1 (s.getNextBatchToRun p c).2 ∧
      ∀ b, s.hybridBubblePendingPrefillBatch = some b →
        Resumes p c s (s.getNextBatchToRun p c).1 (s.getNextBatchToRun p c).2 b := by
  rcases getNextBatchToRun_cases h c with ⟨b, hpend, hoff, heq⟩ |
    ⟨hpend, u, hwu, hpu, hs, -, ⟨b, canRun, -, hoff, hm, heq⟩ | ⟨hl, hformed, hsched, hm, heq⟩⟩ <;>
    rw [heq]
  · obtain ⟨-, hf, -⟩ := beginIteration_spec c h.wf h.lastApart h.one
    obtain ⟨hcall, hform, hcases⟩ := chooseBatch_spec p c hoff (offered_pending h c hpend).2
      ⟨hf.lastBatch, hf.resultQueue, hf.returned, .inl ⟨hf.formed, hf.nextBatch.ge⟩⟩
    refine ⟨hcall, ?_⟩
    rintro d hd
    obtain rfl := some.inj (hpend.symm.trans hd)
    exact ⟨hform.trans hf.formed, hcases⟩
  · exact ⟨(chooseBatch_spec p c hoff hm hs).1, fun d hd => by simp [hpend] at hd⟩
  · exact ⟨decode_called hwu hpu hm hs hl hformed hsched rfl, fun d hd => by simp [hpend] at hd⟩

end Scheduler

end Fluxfer.Sched
