import Fluxfer.Disagg.StagingRuns

/-!
# Progress of the staging ring

When every watermark has reached the workers, the oldest region in use can be written, unless it
was assigned to an empty ring, went around, and is longer than what lies before the head of the
ring (`StagingAllocator.Roomy`). Then it waits for a watermark beyond that head, and no region is
left to be freed.
-/

namespace Fluxfer.Disagg

open List

namespace StagingAllocator

variable {a : StagingAllocator}

/-- A region that an empty ring places at its start ends before the head. -/
def Roomy (a : StagingAllocator) (n : Nat) : Prop :=
  a.allocations = [] → a.totalSize - a.head < n → n ≤ a.head

/-- The oldest region in use is ready, and in an empty ring the watermark is at the head. -/
structure Prompt (a : StagingAllocator) : Prop where
  empty : a.allocations = [] → a.getWatermark = a.cursor
  front : ∀ e ∈ a.allocations.head?, isWatermarkReady a.getWatermark e.2.round e.2.stop = true

theorem ready_of_round_le {m : Watermark} {r stop : Nat} (h : r ≤ (ofLex m).1) :
    isWatermarkReady m r stop = true := by
  unfold isWatermarkReady
  split_ifs with hr
  · rfl
  · have hlt : r - 1 < (ofLex m).1 := by omega
    simp [hlt]

theorem AtFront.prompt (h : a.AtFront) : a.Prompt where
  empty := h.1
  front e he := by
    rw [h.2 e he]
    exact ready_of_round_le le_rfl

theorem Prompt.push (h : a.Prompt) {n : Nat} (hroom : a.Roomy n) : (a.push (a.place n)).Prompt where
  empty hnil := absurd hnil (append_ne_nil_of_right_ne_nil _ (cons_ne_nil _ _))
  front e he := by
    show isWatermarkReady a.getWatermark _ _ = true
    cases hall : a.allocations with
    | cons f fs =>
      have heq : (f : Nat × Region) = e := by
        simpa [StagingAllocator.push, hall] using he
      exact h.front e (by simp [hall, heq])
    | nil =>
      -- the region is placed in the round of the head, or at the start of the next round
      have heq : (a.nextAllocId, a.place n) = e := by
        simpa [StagingAllocator.push, hall] using he
      rw [← heq, h.empty hall]
      by_cases hfit : n ≤ a.totalSize - a.head
      · rw [place, if_pos hfit]
        exact ready_of_round_le le_rfl
      · have hstop : n ≤ a.head := hroom hall (by omega)
        rw [place, if_neg hfit]
        simp [isWatermarkReady, cursor, Region.stop, hstop]

end StagingAllocator

variable {W : Type} [DecidableEq W] {s : StagingState W}

/-- Runs in which every region assigned to an empty ring is `Roomy` and the worker `w` is among the
subscribers whenever a watermark is sent. -/
inductive PromptRun {W : Type} [DecidableEq W] (totalSize : Nat) (w : W) : StagingState W → Prop
  | init : PromptRun totalSize w (.init totalSize)
  | assign {s : StagingState W} {n : Nat} {x : Nat × Region} {a : StagingAllocator} :
      PromptRun totalSize w s → s.allocator.assign n = some (x, a) → s.allocator.Roomy n →
      PromptRun totalSize w (s.withAllocator a)
  | offer {s : StagingState W} (v : W) {i : Nat} {x : Region} :
      PromptRun totalSize w s → (i, x) ∈ s.allocator.allocations →
      PromptRun totalSize w (s.handleStagingRsp v i x)
  | free {s : StagingState W} {i : Nat} {subscribers : W → Bool} :
      PromptRun totalSize w s → i ∈ s.written → subscribers w = true →
      PromptRun totalSize w (s.freeAndSendWatermark i subscribers)
  | deliver {s : StagingState W} (v : W) {m : Watermark} {ms : List Watermark} :
      PromptRun totalSize w s → s.inFlight v = m :: ms →
      PromptRun totalSize w (s.handleWatermarkMsg v m ms)
  | write {s : StagingState W} {v : W} {i : Nat} {o : Offer} :
      PromptRun totalSize w s → s.CanWrite v i o → PromptRun totalSize w (s.write i o)

theorem PromptRun.run {n : Nat} {w : W} (h : PromptRun n w s) : StagingRun n s := by
  induction h with
  | init => exact .init
  | assign _ ha _ ih => exact ih.step (.assign ha)
  | offer v _ hx ih => exact ih.step (.offer v hx)
  | free _ hi _ ih => exact ih.step (.free _ hi)
  | deliver v _ hq ih => exact ih.step (.deliver v hq)
  | write _ hc ih => exact ih.step (.write hc)

/-- What a worker knows when all messages have reached it. -/
def StagingState.heard (s : StagingState W) (w : W) : Watermark :=
  (s.inFlight w).foldl max (s.remoteWatermarks w)

theorem PromptRun.prompt {n : Nat} {w : W} (h : PromptRun n w s) :
    s.allocator.Prompt ∧ s.heard w = s.allocator.getWatermark := by
  induction h with
  | init => exact ⟨⟨fun _ => rfl, by simp [StagingState.init, StagingAllocator.init]⟩, rfl⟩
  | assign _ ha hroom ih =>
    unfold StagingAllocator.assign at ha
    split_ifs at ha
    obtain ⟨-, rfl⟩ := Prod.mk.inj (Option.some.inj ha)
    exact ⟨ih.1.push hroom, ih.2⟩
  | offer v _ hx ih => exact ih
  | @free s i subscribers hrun _ hsub ih =>
    have hf := hrun.run.inv.allocator.free i
    refine ⟨?_, ?_⟩
    · obtain heq | hat := hf.atFront
      · show (s.allocator.free i).Prompt
        rw [heq]
        exact ih.1
      · exact hat.prompt
    · show (if subscribers w then s.inFlight w ++ [_] else _).foldl max (s.remoteWatermarks w) = _
      rw [if_pos hsub, foldl_append]
      show max (s.heard w) _ = _
      rw [ih.2]
      exact max_eq_right hf.mark_le
  | @deliver s v m ms _ hq ih =>
    refine ⟨ih.1, (Eq.trans ?_ ih.2 : _ = s.allocator.getWatermark)⟩
    unfold StagingState.heard StagingState.handleWatermarkMsg
    by_cases hv : w = v
    · subst hv
      simp only [true_and, hq, foldl_cons]
      congr 1
      split_ifs with hlt
      · exact (max_eq_right hlt.le).symm
      · exact (max_eq_left (not_lt.mp hlt)).symm
    · simp only [hv, false_and, if_false]
  | write _ hc ih => exact ih

/-- **The staging ring does not get stuck.** In a state of such a run in which the worker has
handled all watermarks, the oldest region that is not freed is ready for it. -/
theorem staging_run_progress {W : Type} [DecidableEq W] {n : Nat} {w : W} {s : StagingState W}
    (h : PromptRun n w s) (hw : s.inFlight w = []) {i : Nat} {x : Region}
    (hx : (i, x) ∈ s.allocator.allocations) (hold : ∀ j ∈ s.allocator.ids, i ≤ j) :
    isWatermarkReady (s.remoteWatermarks w) x.round x.stop = true := by
  obtain ⟨hprompt, hheard⟩ := h.prompt
  have hremote : s.remoteWatermarks w = s.allocator.getWatermark := by
    rw [← hheard, StagingState.heard, hw, foldl_nil]
  rw [hremote]
  refine hprompt.front (i, x) ?_
  have hsorted := h.run.inv.allocator.sorted
  cases hall : s.allocator.allocations with
  | nil => rw [hall] at hx; exact absurd hx not_mem_nil
  | cons e es =>
    rw [hall] at hx hsorted
    obtain heq | hmem := mem_cons.mp hx
    · rw [heq]
      rfl
    · have hlt := ((pairwise_cons.mp hsorted).1 _ hmem).1
      have hle := hold e.1 (mem_map_of_mem (by rw [hall]; exact mem_cons_self))
      exact absurd hlt (not_lt.mpr hle)

/-- The steps of a region of a ring of ten bytes: it is assigned, written and freed. -/
def usedRing : StagingState Unit :=
  (((((StagingState.init 10).withAllocator ((StagingAllocator.init 10).push ⟨0, 6, 0⟩)
    ).handleStagingRsp () 0 ⟨0, 6, 0⟩).write 0 ⟨0, 0, 6⟩).freeAndSendWatermark 0 fun _ => true
    ).handleWatermarkMsg () (toLex (0, 6)) []

theorem usedRing_run : PromptRun 10 () usedRing := by
  have h0 : PromptRun 10 () (StagingState.init 10 : StagingState Unit) := .init
  have h1 := h0.assign (n := 6) rfl (fun _ h => absurd h (by decide))
  have h2 := h1.offer () (i := 0) (x := ⟨0, 6, 0⟩) (by decide)
  have h3 := h2.write (v := ()) (i := 0) ⟨by decide, rfl, rfl⟩
  exact (h3.free (by decide) rfl).deliver () rfl

theorem staging_run_progress_used : isWatermarkReady (toLex (0, 6)) 1 5 = true :=
  staging_run_progress (s := usedRing.withAllocator (usedRing.allocator.push ⟨0, 5, 1⟩))
    (usedRing_run.assign (n := 5) rfl fun _ _ => by decide) rfl (i := 1)
    (x := ⟨0, 5, 1⟩) (by decide) (by decide)

/-- Seven bytes go around and wait for a watermark that does not come: all that was assigned
before is freed, and all watermarks have arrived. -/
theorem not_staging_run_progress : ∃ s : StagingState Unit, StagingRun 10 s ∧
    (∀ w, s.inFlight w = []) ∧ s.allocator.allocations = [(1, ⟨0, 7, 1⟩)] ∧ 1 ∉ s.written ∧
    isWatermarkReady (s.remoteWatermarks ()) 1 7 = false := by
  refine ⟨_, usedRing_run.run.step (.assign (n := 7) rfl), fun _ => rfl, rfl, by decide, rfl⟩

end Fluxfer.Disagg
