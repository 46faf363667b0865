import Fluxfer.Lib.Threads

/-!
# The circuit breaker

`CircuitBreaker` of `core/circuit_breaker.rs`, one step for each atomic operation and each reading
of the clock. `opened` is not stored by the code: it is the time of the last opening.
-/

namespace Fluxfer.CircuitBreaker

open Threads Relation

inductive CircuitState
  | closed | opened | halfOpen
  deriving DecidableEq

structure Config where
  failureThreshold : Nat
  successThreshold : Nat
  timeoutMs : Nat

structure Mem where
  state : CircuitState
  consecutiveFailures : Nat
  consecutiveSuccesses : Nat
  lastStateChangeMs : Nat
  clock : Nat
  opened : Nat

/-- Where a thread is: in `record_success`, in `record_failure`, in
`check_and_update_state_returning` and in the stores after a change of the state. -/
inductive Pc
  | idle
  | succStore | succAdd | succLoad (successes : Nat)
  | failStore | failAdd | failLoad (failures : Nat)
  | swap (new : CircuitState)
  | checkLoad | checkTime | checkClock (last : Nat) | exchange | reload
  | readClock (new : CircuitState) | storeTime (new : CircuitState) (now : Nat)
  | resetFailures | resetSuccesses

/-- What a thread does next; time may pass at any point. -/
inductive Next (cfg : Config) : Mem → Pc → Mem → Pc → Prop
  | tick (m p k) : Next cfg m p { m with clock := m.clock + k } p
  | recordSuccess (m) : Next cfg m .idle m .succStore
  | succStore (m) : Next cfg m .succStore { m with consecutiveFailures := 0 } .succAdd
  | succAdd (m) : Next cfg m .succAdd
      { m with consecutiveSuccesses := (m.consecutiveSuccesses + 1) % 4294967296 }
      (.succLoad ((m.consecutiveSuccesses + 1) % 4294967296))
  | succLoad (m k) : Next cfg m (.succLoad k) m
      (if m.state = .halfOpen ∧ cfg.successThreshold ≤ k then .swap .closed else .idle)
  | recordFailure (m) : Next cfg m .idle m .failStore
  | failStore (m) : Next cfg m .failStore { m with consecutiveSuccesses := 0 } .failAdd
  | failAdd (m) : Next cfg m .failAdd
      { m with consecutiveFailures := (m.consecutiveFailures + 1) % 4294967296 }
      (.failLoad ((m.consecutiveFailures + 1) % 4294967296))
  | failLoad (m k) : Next cfg m (.failLoad k) m
      (if m.state = .halfOpen ∨ m.state = .closed ∧ cfg.failureThreshold ≤ k then .swap .opened
        else .idle)
  | swap (m new) : Next cfg m (.swap new)
      { m with
        state := new
        opened := if m.state ≠ new ∧ new = .opened then m.clock else m.opened }
      (if m.state = new then .idle else .readClock new)
  | check (m) : Next cfg m .idle m .checkLoad
  | checkLoad (m) : Next cfg m .checkLoad m (if m.state = .opened then .checkTime else .idle)
  | checkTime (m) : Next cfg m .checkTime m (.checkClock m.lastStateChangeMs)
  | checkClock (m last) : Next cfg m (.checkClock last) m
      (if cfg.timeoutMs ≤ m.clock - last then .exchange else .idle)
  | exchange (m) (h : m.state = .opened) :
    Next cfg m .exchange { m with state := .halfOpen } (.readClock .halfOpen)
  | exchangeFail (m) (h : m.state ≠ .opened) : Next cfg m .exchange m .reload
  | reload (m) : Next cfg m .reload m .idle
  | readClock (m new) : Next cfg m (.readClock new) m (.storeTime new m.clock)
  | storeTime (m new now) : Next cfg m (.storeTime new now) { m with lastStateChangeMs := now }
      (if new = .opened then .resetSuccesses else .resetFailures)
  | resetFailures (m) :
    Next cfg m .resetFailures { m with consecutiveFailures := 0 } .resetSuccesses
  | resetSuccesses (m) : Next cfg m .resetSuccesses { m with consecutiveSuccesses := 0 } .idle

/-- The changes of the state that the breaker is to make. -/
inductive Legal : CircuitState → CircuitState → Prop
  | refl (c) : Legal c c
  | trip : Legal .closed .opened
  | probe : Legal .opened .halfOpen
  | fail : Legal .halfOpen .opened
  | recover : Legal .halfOpen .closed

/-- What one step has to respect. -/
def Respects (cfg : Config) (m m' : Mem) : Prop :=
  Legal m.state m'.state ∧
    (m.state = .opened → m'.state = .halfOpen → m.opened + cfg.timeoutMs ≤ m.clock)

/-- Between reading the state and storing the time of a change. -/
def Pc.Critical : Pc → Prop
  | .swap _ | .checkTime | .checkClock _ | .exchange | .readClock _ | .storeTime _ _ => True
  | _ => False

/-- What a thread in its critical part knows. -/
def Pc.Knows (cfg : Config) (m : Mem) : Pc → Prop
  | .swap .closed => m.state = .halfOpen
  | .swap .opened => m.state ≠ .opened
  | .swap .halfOpen => False
  | .checkTime => m.state = .opened ∧ m.opened ≤ m.lastStateChangeMs
  | .checkClock last => m.state = .opened ∧ m.opened ≤ last
  | .exchange => m.state = .opened ∧ m.opened + cfg.timeoutMs ≤ m.clock
  | .readClock new => m.state = new ∧ m.opened ≤ m.clock
  | .storeTime new now => m.state = new ∧ m.opened ≤ now
  | _ => True

variable {ι : Type} [DecidableEq ι] {cfg : Config} {s t : State ι Mem Pc} {m m' : Mem} {p q : Pc}

/-- At most one thread is in its critical part. -/
def Serial (s : State ι Mem Pc) : Prop :=
  ∀ i j, (s.pc i).Critical → (s.pc j).Critical → i = j

def start (now : Nat) : State ι Mem Pc := ⟨⟨.closed, 0, 0, now, now, 0⟩, fun _ => .idle⟩

theorem Pc.knows_of_not_critical (h : ¬p.Critical) : p.Knows cfg m := by
  cases p <;> first | trivial | exact absurd trivial h

/-- Only a thread in its critical part changes the state or its time. -/
theorem Next.frame (hn : Next cfg m p m' q) : p.Critical ∨
    m'.state = m.state ∧ m'.opened = m.opened ∧ m'.lastStateChangeMs = m.lastStateChangeMs ∧
      m.clock ≤ m'.clock := by
  cases hn <;> simp [Pc.Critical]

theorem Pc.Knows.mono (hk : p.Knows cfg m) (hs : m'.state = m.state) (ho : m'.opened = m.opened)
    (hl : m'.lastStateChangeMs = m.lastStateChangeMs) (hc : m.clock ≤ m'.clock) :
    p.Knows cfg m' := by
  unfold Pc.Knows at hk ⊢
  rw [hs, ho, hl]
  split at hk <;> first | trivial | exact hk | exact ⟨hk.1, hk.2.trans hc⟩

theorem Next.respects (hn : Next cfg m p m' q) (hk : p.Knows cfg m) : Respects cfg m m' := by
  have hsame {c : CircuitState} (hs : c = m.state) : Legal m.state c ∧
      (m.state = .opened → c = .halfOpen → m.opened + cfg.timeoutMs ≤ m.clock) :=
    ⟨hs ▸ .refl _, fun ho hh => absurd (hh.symm.trans (hs.trans ho)) (by decide)⟩
  cases hn with
  | swap new =>
    cases new with
    | closed => exact ⟨hk ▸ .recover, fun _ hh => CircuitState.noConfusion hh⟩
    | opened =>
      refine ⟨?_, fun _ hh => CircuitState.noConfusion hh⟩
      cases hs : m.state with
      | closed => exact .trip
      | opened => exact absurd hs hk
      | halfOpen => exact .fail
    | halfOpen => exact hk.elim
  | exchange hs => exact ⟨hs ▸ .probe, fun _ _ => hk.2⟩
  | _ => exact hsame rfl

/-- The time of the last change is still to be stored. -/
def Pc.Stores : Pc → Prop
  | .readClock _ | .storeTime _ _ => True
  | _ => False

structure BreakerInv (cfg : Config) (s : State ι Mem Pc) : Prop where
  clock : s.mem.opened ≤ s.mem.clock
  knows : ∀ i, (s.pc i).Knows cfg s.mem
  stored : s.mem.state = .opened →
    s.mem.opened ≤ s.mem.lastStateChangeMs ∨ ∃ i, (s.pc i).Stores

theorem Next.knows (hn : Next cfg m p m' q) (hk : p.Knows cfg m) (hc : m.opened ≤ m.clock)
    (hl : p = .checkLoad → q = .checkTime → m.state = .opened → m.opened ≤ m.lastStateChangeMs) :
    q.Knows cfg m' := by
  cases hn with
  | tick => exact hk.mono rfl rfl rfl (Nat.le_add_right _ _)
  | succLoad =>
    split_ifs with h
    · exact h.1
    · trivial
  | failLoad =>
    split_ifs with h
    · rcases h with h | h <;> simp [Pc.Knows, h]
    · trivial
  | swap => split_ifs <;> trivial
  | checkLoad =>
    split_ifs with h
    · exact ⟨h, hl rfl (if_pos h) h⟩
    · trivial
  | checkTime => exact hk
  | checkClock last =>
    obtain ⟨hs, hle⟩ := hk
    split_ifs
    · exact ⟨hs, by omega⟩
    · trivial
  | exchange => exact ⟨rfl, hc⟩
  | readClock => exact hk
  | storeTime => split_ifs <;> trivial
  | _ => trivial

theorem Next.clock (hn : Next cfg m p m' q) (hc : m.opened ≤ m.clock) : m'.opened ≤ m'.clock := by
  cases hn with
  | tick => exact hc.trans (Nat.le_add_right _ _)
  | swap =>
    split_ifs
    · exact le_rfl
    · exact hc
  | _ => exact hc

/-- While the breaker is open, the time is stored, or the moving thread will store it, or the step
has nothing to do with it. -/
theorem Next.stored (hn : Next cfg m p m' q) (hk : p.Knows cfg m) (ho : m'.state = .opened) :
    m'.opened ≤ m'.lastStateChangeMs ∨ q.Stores ∨ ¬p.Stores ∧ m.state = .opened ∧
      m'.opened = m.opened ∧ m'.lastStateChangeMs = m.lastStateChangeMs := by
  cases hn with
  | tick =>
    by_cases hp : p.Stores
    · exact .inr (.inl hp)
    · exact .inr (.inr ⟨hp, ho, rfl, rfl⟩)
  | swap new =>
    subst ho
    rw [if_neg hk]
    exact .inr (.inl trivial)
  | exchange => cases ho
  | readClock => exact .inr (.inl trivial)
  | storeTime => exact .inl hk.2
  | _ => exact .inr (.inr ⟨id, ho, rfl, rfl⟩)

theorem Pc.Stores.critical (h : p.Stores) : p.Critical := by
  cases p <;> trivial

theorem BreakerInv.step (h : BreakerInv cfg s) (hs : Step (Next cfg) s t) (hS : Serial s)
    (hT : Serial t) : BreakerInv cfg t := by
  obtain ⟨i, m, q, hn, rfl⟩ := hs
  refine ⟨hn.clock h.clock, forall_move ?_ fun j hj => ?_, fun ho => ?_⟩
  · refine hn.knows (h.knows i) h.clock fun hp hq ho => (h.stored ho).resolve_right ?_
    -- a thread that has still to store would be critical beside this one
    rintro ⟨k, hk⟩
    have hki : k ≠ i := by
      rintro rfl
      rw [hp] at hk
      exact hk
    refine hki (hT k i ?_ ?_)
    · rw [move_of_ne hki]
      exact hk.critical
    · rw [move_self, hq]
      trivial
  · rcases hn.frame with hcrit | ⟨h1, h2, h3, h4⟩
    · exact Pc.knows_of_not_critical fun hj' => hj (hS j i hj' hcrit)
    · exact (h.knows j).mono h1 h2 h3 h4
  · rcases hn.stored (h.knows i) ho with hle | hq | ⟨hp, hopen, h1, h2⟩
    · exact .inl hle
    · exact .inr ⟨i, by rwa [move_self]⟩
    · refine (h.stored hopen).imp (fun hle => ?_) (exists_move hp)
      change m.opened ≤ m.lastStateChangeMs
      rwa [h1, h2]

/-- **Legal changes.** While no two threads are at once between reading the state and storing the
time of a change, every step makes a legal change, and the breaker is probed only once the timeout
since its opening has passed. -/
theorem respects_of_serial (now : Nat)
    (h : ReflTransGen (fun s t => Step (Next cfg) s t ∧ Serial t) (start now) s)
    (hs : Step (Next cfg) s t) : Respects cfg s.mem t.mem := by
  have hinv : BreakerInv cfg s ∧ Serial s := by
    clear hs
    induction h with
    | refl => exact ⟨⟨Nat.zero_le _, fun _ => trivial, fun ho => by cases ho⟩, fun _ _ h => h.elim⟩
    | tail _ hs ih => exact ⟨ih.1.step hs.1 ih.2 hs.2, hs.2⟩
  obtain ⟨i, m, q, hn, rfl⟩ := hs
  exact hn.respects (hinv.1.knows i)

def eager : Config := ⟨1, 1, 10⟩

/-- One thread trips the breaker, and after the timeout the other probes it. -/
theorem respects_of_serial_turns : ∃ s t : State Bool Mem Pc, s.mem.state = .opened ∧
    t.mem.state = .halfOpen ∧ Respects eager s.mem t.mem := by
  let R := fun s t : State Bool Mem Pc => Step (Next eager) s t ∧ Serial t
  have turn {s : State Bool Mem Pc} {m q} (h : ReflTransGen R (start 0) s) (i : Bool)
      (ho : s.pc (!i) = .idle) (hn : Next eager s.mem (s.pc i) m q) :
      ReflTransGen R (start 0) (s.move i m q) := by
    have hcrit : ∀ j, ((s.move i m q).pc j).Critical → j = i := fun j hj => by
      by_contra hne
      rw [move_of_ne hne, Bool.eq_not.mpr hne, ho] at hj
      exact hj
    exact h.tail ⟨⟨i, m, q, hn, rfl⟩, fun j k hj hk => (hcrit j hj).trans (hcrit k hk).symm⟩
  have h1 := turn .refl false rfl (.recordFailure _)
  have h2 := turn h1 false rfl (.failStore _)
  have h3 := turn h2 false rfl (.failAdd _)
  have h4 := turn h3 false rfl (.failLoad _ 1)
  have h5 := turn h4 false rfl (.swap _ .opened)
  have h6 := turn h5 false rfl (.readClock _ .opened)
  have h7 := turn h6 false rfl (.storeTime _ .opened 0)
  have h8 := turn h7 false rfl (.resetSuccesses _)
  have h9 := turn h8 true rfl (.tick _ _ 10)
  have h10 := turn h9 true rfl (.check _)
  have h11 := turn h10 true rfl (.checkLoad _)
  have h12 := turn h11 true rfl (.checkTime _)
  have h13 := turn h12 true rfl (.checkClock _ 0)
  exact ⟨_, _, rfl, rfl, respects_of_serial 0 h13 ⟨true, _, _, .exchange _ rfl, rfl⟩⟩

/-- The breaker opens at 100 and is probed at 100, before the time of its opening is stored. Then
one thread closes it although another has opened it again. -/
theorem respects_fails : ∃ s t u v : State Nat Mem Pc,
    (Steps (Next eager) (start 0) s ∧ Step (Next eager) s t ∧
      s.mem.state = .opened ∧ t.mem.state = .halfOpen ∧ s.mem.opened = 100 ∧ s.mem.clock = 100) ∧
    (Steps (Next eager) (start 0) u ∧ Step (Next eager) u v ∧
      u.mem.state = .opened ∧ v.mem.state = .closed) := by
  have h0 : Steps (Next eager) (start 0) (start 0 : State Nat Mem Pc) := .refl
  have h1 := h0.move 0 (.tick _ _ 100)
  have h2 := h1.move 0 (.recordFailure _)
  have h3 := h2.move 0 (.failStore _)
  have h4 := h3.move 0 (.failAdd _)
  have h5 := h4.move 0 (.failLoad _ 1)
  have h6 := h5.move 0 (.swap _ .opened)
  have h7 := h6.move 1 (.check _)
  have h8 := h7.move 1 (.checkLoad _)
  have h9 := h8.move 1 (.checkTime _)
  have h10 := h9.move 1 (.checkClock _ 0)
  have h11 := h10.move 1 (.exchange _ rfl)
  have h12 := h11.move 2 (.recordSuccess _)
  have h13 := h12.move 2 (.succStore _)
  have h14 := h13.move 2 (.succAdd _)
  have h15 := h14.move 2 (.succLoad _ 1)
  have h16 := h15.move 3 (.recordFailure _)
  have h17 := h16.move 3 (.failStore _)
  have h18 := h17.move 3 (.failAdd _)
  have h19 := h18.move 3 (.failLoad _ 1)
  have h20 := h19.move 3 (.swap _ .opened)
  exact ⟨_, _, _, _, ⟨h10, ⟨1, _, _, .exchange _ rfl, rfl⟩, rfl, rfl, rfl, rfl⟩,
    h20, ⟨2, _, _, .swap _ .closed, rfl⟩, rfl, rfl⟩

end Fluxfer.CircuitBreaker
