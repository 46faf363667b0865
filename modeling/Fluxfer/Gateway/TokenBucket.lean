import Fluxfer.Lib.Threads
import Mathlib.Algebra.Order.BigOperators.Group.Finset

/-!
# The token bucket

`TokenBucket` of `core/token_bucket.rs` with refill rate 0, for amounts that are whole numbers. What
it rests on is a parameter: `rnd` rounds the result of an operation to an `f64`, and a `Notify` has
the laws of `tokio::sync::Notify` that the bucket needs.
-/

namespace Fluxfer.TokenBucket

open Threads Relation Finset Nat

/-- Whole numbers up to the capacity are not rounded, as those up to 2 ^ 53 in an `f64`. -/
def Exact (rnd : Nat → Nat) (capacity : Nat) : Prop := ∀ k ≤ capacity, rnd k = k

/-- A future is ready once `notify_waiters` has been called after it was made, and not before. -/
structure Notify where
  State : Type
  Notified : Type
  new : State
  notified : State → Notified
  notifyWaiters : State → State
  Made : State → Notified → Prop
  Ready : State → Notified → Prop
  made_notified : ∀ s, Made s (notified s)
  made_notifyWaiters : ∀ s f, Made s f → Made (notifyWaiters s) f
  not_ready_notified : ∀ s, ¬Ready s (notified s)
  ready_notifyWaiters : ∀ s f, Made s f → Ready (notifyWaiters s) f

variable (N : Notify)

structure Mem where
  tokens : Nat
  notify : N.State

/-- Where a task is. -/
inductive Pc
  | idle
  | acquiring (n : Nat)
  /-- the attempt has failed and `notified` is still to be called -/
  | failed (n : Nat)
  | waiting (n : Nat) (f : N.Notified)
  | holding (n : Nat)
  /-- the tokens are back and `notify_waiters` is still to be called -/
  | returned

/-- What a task does next. The mutex makes `try_acquire_sync` and the return of tokens one step. -/
inductive Next (rnd : Nat → Nat) (capacity : Nat) : Mem N → Pc N → Mem N → Pc N → Prop
  | call (m n) : Next rnd capacity m .idle m (.acquiring n)
  | acquire (m n) (h : n ≤ m.tokens) :
    Next rnd capacity m (.acquiring n) { m with tokens := rnd (m.tokens - n) } (.holding n)
  | fail (m n) (h : m.tokens < n) : Next rnd capacity m (.acquiring n) m (.failed n)
  /-- `try_acquire` ends here, and `acquire_timeout` may -/
  | giveUp (m n) : Next rnd capacity m (.failed n) m .idle
  | wait (m n) : Next rnd capacity m (.failed n) m (.waiting n (N.notified m.notify))
  | timeout (m n f) : Next rnd capacity m (.waiting n f) m .idle
  | wake (m n f) (h : N.Ready m.notify f) : Next rnd capacity m (.waiting n f) m (.acquiring n)
  | giveBack (m n) :
    Next rnd capacity m (.holding n)
      { m with tokens := min (rnd (m.tokens + n)) capacity } .returned
  | notify (m) :
    Next rnd capacity m .returned { m with notify := N.notifyWaiters m.notify } .idle

variable {N}

def Pc.held : Pc N → Nat
  | .holding n => n
  | _ => 0

variable {ι : Type} [DecidableEq ι] {rnd : Nat → Nat} {capacity : Nat}
  {s t : State ι (Mem N) (Pc N)}

def start (N : Notify) (capacity : Nat) : State ι (Mem N) (Pc N) :=
  ⟨⟨capacity, N.new⟩, fun _ => .idle⟩

theorem total_step [Fintype ι] (hr : Exact rnd capacity) (hs : Step (Next N rnd capacity) s t)
    (h : s.mem.tokens + ∑ i, (s.pc i).held ≤ capacity) :
    t.mem.tokens + ∑ i, (t.pc i).held = s.mem.tokens + ∑ i, (s.pc i).held := by
  obtain ⟨i, m, q, hn, rfl⟩ := hs
  have hsum := sum_move Pc.held s i m q
  have hheld : (s.pc i).held ≤ ∑ j, (s.pc j).held :=
    single_le_sum (f := fun j => (s.pc j).held) (fun j _ => zero_le _) (mem_univ i)
  change m.tokens + _ = _
  generalize ∑ j, ((s.move i m q).pc j).held = total', ∑ j, (s.pc j).held = total at *
  generalize s.mem = m₀, s.pc i = p at *
  cases hn <;> simp only [Pc.held, add_zero] at hsum hheld
  case acquire n hle =>
    change rnd (m₀.tokens - n) + total' = _
    rw [hr _ (by omega), hsum]
    omega
  case giveBack n =>
    -- what is returned was held, so that it fits
    change min (rnd (m₀.tokens + n)) capacity + total' = _
    rw [hr _ (by omega), min_eq_left (by omega)]
    omega
  all_goals rw [hsum]

theorem total_eq [Fintype ι] (hr : Exact rnd capacity)
    (h : Steps (Next N rnd capacity) (start N capacity) s) :
    s.mem.tokens + ∑ i, (s.pc i).held = capacity := by
  induction h with
  | refl => simp [start, Pc.held]
  | tail _ hs ih => exact (total_step hr hs ih.le).trans ih

/-- The task has failed and waits, or will, and its wake-up has not come. -/
inductive Waits (w : N.State) (n : Nat) : Pc N → Prop
  | failed : Waits w n (.failed n)
  | waiting (f) (h : ¬N.Ready w f) : Waits w n (.waiting n f)

/-- A task with enough tokens for it is waked by one that has returned tokens. -/
structure NoLost (s : State ι (Mem N) (Pc N)) : Prop where
  made : ∀ i n f, s.pc i = .waiting n f → N.Made s.mem.notify f
  wakes : ∀ i n, Waits s.mem.notify n (s.pc i) → n ≤ s.mem.tokens → ∃ j, s.pc j = .returned

/-- No notification is sent while a task has failed, would not fail any more and has not called
`notified`. -/
def Careful (s t : State ι (Mem N) (Pc N)) : Prop :=
  ∀ j, s.pc j = .returned → t.pc j ≠ .returned → ∀ i n, s.pc i = .failed n → s.mem.tokens < n

/-- A step returns tokens, notifies, or leaves every task that waits with no more tokens. -/
theorem Next.cases {w m : Mem N} {p q : Pc N} (hr : Exact rnd capacity)
    (hcap : w.tokens ≤ capacity) (hn : Next N rnd capacity w p m q) :
    (q = .returned ∧ m.notify = w.notify) ∨
    (p = .returned ∧ q = .idle ∧ m.tokens = w.tokens ∧ m.notify = N.notifyWaiters w.notify) ∨
    (p ≠ .returned ∧ m.tokens ≤ w.tokens ∧ m.notify = w.notify ∧
      ∀ n, Waits w.notify n q → n ≤ m.tokens → Waits w.notify n p) := by
  cases hn with
  | giveBack => exact .inl ⟨rfl, rfl⟩
  | notify => exact .inr (.inl ⟨rfl, rfl, rfl, rfl⟩)
  | acquire n hle =>
    refine .inr (.inr ⟨by simp, ?_, rfl, fun n hw => by cases hw⟩)
    rw [hr _ (by omega)]
    exact sub_le _ _
  | fail n hlt =>
    refine .inr (.inr ⟨by simp, le_rfl, rfl, fun n hw hle => ?_⟩)
    cases hw
    exact absurd hle (not_le.mpr hlt)
  | wait n =>
    refine .inr (.inr ⟨by simp, le_rfl, rfl, fun n hw _ => ?_⟩)
    cases hw
    exact .failed
  | call | giveUp | timeout | wake =>
    exact .inr (.inr ⟨by simp, le_rfl, rfl, fun n hw => by cases hw⟩)

theorem Next.waiting_made {w m : Mem N} {p : Pc N} {n : Nat} {f : N.Notified}
    (hn : Next N rnd capacity w p m (.waiting n f)) : N.Made m.notify f := by
  cases hn
  exact N.made_notified _

theorem NoLost.step (h : NoLost s) (hr : Exact rnd capacity) (hcap : s.mem.tokens ≤ capacity)
    (hs : Step (Next N rnd capacity) s t) (hc : Careful s t) : NoLost t := by
  obtain ⟨i, m, q, hn, rfl⟩ := hs
  have hmade : ∀ f, N.Made s.mem.notify f → N.Made m.notify f := by
    rcases hn.cases hr hcap with h | ⟨-, -, -, h⟩ | ⟨-, -, h, -⟩
    · exact fun f hf => h.2 ▸ hf
    · exact fun f hf => h ▸ N.made_notifyWaiters _ f hf
    · exact fun f hf => h ▸ hf
  refine ⟨fun j n f hj => ?_, fun j n hw hle => ?_⟩
  · refine forall_move (P := fun p : Pc N => p = .waiting n f → _) ?_ (fun j _ hj => ?_) j hj
    · exact fun hq => (hq ▸ hn).waiting_made
    · exact hmade f (h.made j n f hj)
  · change Waits m.notify n _ at hw
    rcases hn.cases hr hcap with ⟨hq, -⟩ | ⟨hp, hq, htok, hnum⟩ | ⟨hp, htok, hnum, hself⟩
    · exact ⟨i, move_self.trans hq⟩
    · -- a task that waits now was about to call `notified`
      rw [hnum] at hw
      have hji : j ≠ i := by
        rintro rfl
        rw [move_self, hq] at hw
        cases hw
      rw [move_of_ne hji] at hw
      generalize hj : s.pc j = p at hw
      cases hw with
      | failed =>
        have hne : (s.move i m q).pc i ≠ .returned := by simp [hq]
        exact absurd (htok ▸ hle) (not_le.mpr (hc i hp hne j n hj))
      | waiting f hf => exact absurd (N.ready_notifyWaiters _ f (h.made j n f hj)) hf
    · -- the task that will notify is another one
      rw [hnum] at hw
      have hw' : Waits s.mem.notify n (s.pc j) := by
        by_cases hji : j = i
        · subst hji
          rw [move_self] at hw
          exact hself n hw hle
        · rwa [move_of_ne hji] at hw
      exact exists_move (P := (· = Pc.returned)) hp (h.wakes j n hw' (hle.trans htok))

/-- A run all of whose steps are careful. -/
abbrev CarefulRun (rnd : Nat → Nat) (capacity : Nat) (s t : State ι (Mem N) (Pc N)) : Prop :=
  ReflTransGen (fun s t => Step (Next N rnd capacity) s t ∧ Careful s t) s t

theorem CarefulRun.noLost [Fintype ι] (hr : Exact rnd capacity)
    (h : CarefulRun rnd capacity (start N capacity) s) :
    Steps (Next N rnd capacity) (start N capacity) s ∧ NoLost s := by
  induction h with
  | refl => exact ⟨.refl, fun _ _ _ h => (by cases h), fun _ _ h => (by cases h)⟩
  | tail _ hs ih =>
    exact ⟨ih.1.tail hs.1, ih.2.step hr ((total_eq hr ih.1).symm ▸ le_self_add) hs.1 hs.2⟩

/-- **Conservation and wake-ups.** The tokens in the bucket and those that are held never exceed the
capacity. In a run of careful steps no task is suspended that would find enough tokens, unless the
notification is still to be sent. -/
theorem conserves_and_wakes [Fintype ι] (N : Notify) (hr : Exact rnd capacity) :
    (∀ s : State ι (Mem N) (Pc N), Steps (Next N rnd capacity) (start N capacity) s →
      s.mem.tokens + ∑ i, (s.pc i).held ≤ capacity) ∧
    ∀ s : State ι (Mem N) (Pc N), CarefulRun rnd capacity (start N capacity) s →
      ∀ i n f, s.pc i = .waiting n f → ¬N.Ready s.mem.notify f → n ≤ s.mem.tokens →
        ∃ j, s.pc j = .returned :=
  ⟨fun _ h => (total_eq hr h).le, fun _ h i n f hi hf =>
    (h.noLost hr).2.wakes i n (hi ▸ .waiting f hf)⟩

/-- A future that remembers how often `notify_waiters` had been called. -/
def Notify.counting : Notify where
  State := Nat
  Notified := Nat
  new := 0
  notified w := w
  notifyWaiters w := w + 1
  Made w f := f ≤ w
  Ready w f := f < w
  made_notified _ := le_refl _
  made_notifyWaiters _ _ := le_succ_of_le
  not_ready_notified _ := lt_irrefl _
  ready_notifyWaiters _ _ := lt_succ_of_le

/-- The token is back while a task sleeps: the one that returned it is still to notify. -/
theorem conserves_and_wakes_returned : ∃ s : State Bool (Mem .counting) (Pc .counting),
    s.pc true = .waiting 1 (0 : Nat) ∧ 1 ≤ s.mem.tokens ∧ ∃ j, s.pc j = .returned := by
  have step : ∀ {s t : State Bool (Mem .counting) (Pc .counting)} {m q}, CarefulRun id 1 s t →
      ∀ i, Next .counting id 1 t.mem (t.pc i) m q → (∀ j, t.pc j ≠ .returned) →
        CarefulRun id 1 s (t.move i m q) :=
    fun h i hn hne => h.tail ⟨⟨i, _, _, hn, rfl⟩, fun j hj => absurd hj (hne j)⟩
  have h0 : CarefulRun id 1 (start .counting 1) (start .counting 1 : State Bool _ _) := .refl
  have h1 := step h0 false (.call _ 1) (fun j h => by cases j <;> cases h)
  have h2 := step h1 false (.acquire _ 1 le_rfl) (fun j h => by cases j <;> cases h)
  have h3 := step h2 true (.call _ 1) (fun j h => by cases j <;> cases h)
  have h4 := step h3 true (.fail _ 1 one_pos) (fun j h => by cases j <;> cases h)
  have h5 := step h4 true (.wait _ 1) (fun j h => by cases j <;> cases h)
  have h6 := step h5 false (.giveBack _ 1) (fun j h => by cases j <;> cases h)
  have hr : Exact id 1 := fun _ _ => rfl
  exact ⟨_, rfl, le_rfl, (conserves_and_wakes .counting hr).2 _ h6 true 1 (0 : Nat) rfl
    (lt_irrefl 0) le_rfl⟩

/-- A notification falls between a failed attempt and the call of `notified`: the task sleeps beside
a full bucket. -/
theorem wakeup_lost : ∃ s : State Bool (Mem .counting) (Pc .counting),
    Steps (Next .counting id 1) (start .counting 1) s ∧ s.pc false = .idle ∧ s.mem.tokens = 1 ∧
    ∃ f, s.pc true = .waiting 1 f ∧ ¬Notify.counting.Ready s.mem.notify f := by
  have h0 : Steps (Next .counting id 1) (start .counting 1) (start .counting 1 : State Bool _ _) :=
    .refl
  have h1 := h0.move false (.call _ 1)
  have h2 := h1.move false (.acquire _ 1 le_rfl)
  have h3 := h2.move true (.call _ 1)
  have h4 := h3.move true (.fail _ 1 one_pos)
  have h5 := h4.move false (.giveBack _ 1)
  have h6 := h5.move false (.notify _)
  have h7 := h6.move true (.wait _ 1)
  exact ⟨_, h7, rfl, rfl, _, rfl, Notify.counting.not_ready_notified _⟩

/-- **No token is lost or made.** In every run the tokens in the bucket and those that are held are
the capacity: `return_tokens` never runs into its bound. -/
theorem tokens_conserved [Fintype ι] (N : Notify) (hr : Exact rnd capacity)
    (s : State ι (Mem N) (Pc N)) (h : Steps (Next N rnd capacity) (start N capacity) s) :
    s.mem.tokens + ∑ i, (s.pc i).held = capacity :=
  total_eq hr h

theorem tokens_conserved_held : ∃ s : State Bool (Mem .counting) (Pc .counting),
    s.pc false = .holding 1 ∧ s.mem.tokens + ∑ i, (s.pc i).held = 3 := by
  have h0 : Steps (Next .counting id 3) (start .counting 3) (start .counting 3 : State Bool _ _) :=
    .refl
  have h1 := h0.move false (.call _ 1)
  have h2 := h1.move false (.acquire _ 1 (by decide))
  exact ⟨_, rfl, tokens_conserved .counting (fun _ _ => rfl) _ h2⟩

end Fluxfer.TokenBucket
