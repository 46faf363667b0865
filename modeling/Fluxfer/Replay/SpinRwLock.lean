import Fluxfer.Lib.Threads
import Mathlib.Algebra.Order.BigOperators.Group.Finset

/-!
# The spin lock of the trace replayer

`SpinRwLock` of `trace-replayer/src/lib.rs`, one step for each atomic operation. The state word is
below `2 ^ 64`, and its bits are read off by division.
-/

namespace Fluxfer.SpinRwLock

open Threads Finset Nat

/-- `1 << 63` -/
def writerBit : Nat := 9223372036854775808

/-- `1 << 62` -/
def waiterBit : Nat := 4611686018427387904

def readers (w : Nat) : Nat := w % waiterBit
def waiter (w : Nat) : Nat := w / waiterBit % 2

/-- Where a thread is, with the word it has loaded. -/
inductive Pc
  | idle
  | readLoad | readExchange (w : Nat) | reading
  | writeLoad | writeExchange (w : Nat) | spin | acquire | writing
  deriving DecidableEq

/-- What a thread does next. A weak exchange may fail on the word it expects. -/
inductive Next : Nat → Pc → Nat → Pc → Prop
  | readLock (w) : Next w .idle w .readLoad
  | writeLock (w) : Next w .idle w .writeLoad
  | readBlocked (w) (h : waiterBit ≤ w) : Next w .readLoad w .readLoad
  | readLoad (w) (h : w < waiterBit) : Next w .readLoad w (.readExchange w)
  | readEnter (w) : Next w (.readExchange w) (w + 1) .reading
  | readRetry (w v) : Next w (.readExchange v) w .readLoad
  | readUnlock (w) : Next w .reading ((w + 18446744073709551615) % 18446744073709551616) .idle
  | writeBlocked (w) (h : waiter w = 1) : Next w .writeLoad w .writeLoad
  | writeLoad (w) (h : waiter w = 0) : Next w .writeLoad w (.writeExchange w)
  | register (w) : Next w (.writeExchange w) (w + waiterBit) .spin
  | writeRetry (w v) : Next w (.writeExchange v) w .writeLoad
  | spin (w) (h : ¬(readers w = 0 ∧ w < writerBit)) : Next w .spin w .spin
  | spinFree (w) (h : readers w = 0 ∧ w < writerBit) : Next w .spin w .acquire
  | acquire : Next waiterBit .acquire writerBit .writing
  | acquireFail (w) (h : w ≠ waiterBit) : Next w .acquire w .spin
  | writeUnlock (w) : Next w .writing 0 .idle

def Pc.reads : Pc → Nat
  | .reading => 1
  | _ => 0

def Pc.writes : Pc → Nat
  | .writing => 1
  | _ => 0

/-- A registered writer that has not acquired the lock. -/
def Pc.registered : Pc → Nat
  | .spin | .acquire => 1
  | _ => 0

/-- What the thread knows of the word it has loaded. -/
def Pc.Knows : Pc → Prop
  | .readExchange w => w < waiterBit
  | .writeExchange w => waiter w = 0
  | _ => True

variable {ι : Type} [Fintype ι] {s t : State ι Nat Pc}

def start : State ι Nat Pc := ⟨0, fun _ => .idle⟩

def readCount (s : State ι Nat Pc) : Nat := ∑ i, (s.pc i).reads
def writeCount (s : State ι Nat Pc) : Nat := ∑ i, (s.pc i).writes
def registeredCount (s : State ι Nat Pc) : Nat := ∑ i, (s.pc i).registered

structure LockInv (s : State ι Nat Pc) : Prop where
  word : s.mem = readCount s + writeCount s * writerBit + waiter s.mem * waiterBit
  exclusive : writeCount s = 0 ∨ writeCount s = 1 ∧ readCount s = 0
  knows : ∀ i, (s.pc i).Knows

theorem readCount_le (s : State ι Nat Pc) : readCount s ≤ Fintype.card ι := by
  refine (sum_le_card_nsmul univ _ 1 fun i _ => ?_).trans_eq (by simp)
  cases s.pc i <;> simp [Pc.reads]

theorem Next.knows {w v : Nat} {p q : Pc} (h : Next w p v q) : q.Knows := by
  cases h <;> trivial

variable [DecidableEq ι]

/-- A step keeps the invariant, and it keeps the waiter bit in line with the registered writers
unless it unlocks while one of them waits. -/
theorem LockInv.move (hι : Fintype.card ι < waiterBit) (h : LockInv s) {i : ι} {v : Nat} {q : Pc}
    (hn : Next s.mem (s.pc i) v q) : LockInv (s.move i v q) ∧
      ((s.pc i = .writing → waiter s.mem = 0) →
        waiter v + (s.pc i).registered = waiter s.mem + q.registered) := by
  obtain ⟨hword, hex, hk⟩ := h
  have hknows := forall_move (i := i) (m := v) hn.knows fun j _ => hk j
  have hr : readCount (s.move i v q) + _ = readCount s + _ := sum_move Pc.reads s i v q
  have hw : writeCount (s.move i v q) + _ = writeCount s + _ := sum_move Pc.writes s i v q
  have hle := readCount_le (s.move i v q)
  have hki := hk i
  have hmem : (s.move i v q).mem = v := rfl
  rw [and_comm]
  -- what is left is arithmetic of the word, one goal for each step
  refine ⟨?_, ?_, ?_, hknows⟩ <;> generalize s.move i v q = u at * <;>
    generalize s.mem = w, s.pc i = p at * <;> cases hn <;>
    simp only [hmem, Pc.reads, Pc.writes, Pc.registered, Pc.Knows, waiter, waiterBit,
      writerBit, reduceCtorEq, false_implies, forall_const] at * <;> omega

theorem LockInv.steps (hι : Fintype.card ι < waiterBit) (h : Steps Next start s) : LockInv s := by
  induction h with
  | refl => exact ⟨by simp [start, readCount, writeCount, Pc.reads, Pc.writes, waiter],
      .inl (by simp [start, writeCount, Pc.writes]), fun _ => trivial⟩
  | tail _ hs ih =>
    obtain ⟨i, v, q, hn, rfl⟩ := hs
    exact (ih.move hι hn).1

/-- **Mutual exclusion.** With fewer threads than the reader count can hold, no writer holds the
lock together with a reader or another writer, the reader count is the number of readers, and it
does not underflow when one of them leaves. -/
theorem exclusion (hι : Fintype.card ι < waiterBit) (h : Steps Next start s) :
    writeCount s ≤ 1 ∧ (0 < writeCount s → readCount s = 0) ∧ readers s.mem = readCount s ∧
      ∀ i, s.pc i = .reading → 0 < readers s.mem := by
  obtain ⟨hword, hex, -⟩ := LockInv.steps hι h
  have hle := readCount_le s
  have hreaders : readers s.mem = readCount s := by
    simp only [readers, waiterBit, writerBit] at *
    omega
  refine ⟨by omega, by omega, hreaders, fun i hi => ?_⟩
  have hone := single_le_sum (f := fun i => (s.pc i).reads) (fun _ _ => zero_le _) (mem_univ i)
  rw [hreaders]
  exact lt_of_lt_of_le (by simp [hi, Pc.reads]) hone

/-! ## Too many readers -/

/-- The first `n` threads read. -/
def crowd (n : Nat) : State (Fin waiterBit) Nat Pc :=
  ⟨n, fun i => if i.val < n then .reading else .idle⟩

theorem crowd_reachable (n : Nat) (hn : n ≤ waiterBit) : Steps Next start (crowd n) := by
  induction n with
  | zero => exact .refl
  | succ n ih =>
    let i : Fin waiterBit := ⟨n, hn⟩
    have hi : (crowd n).pc i = .idle := if_neg (lt_irrefl n)
    have h : Steps Next start ((((crowd n).move i n .readLoad).move i n (.readExchange n)).move i
        (n + 1) .reading) := by
      refine (((ih (le_of_lt hn)).move i ?_).move i ?_).move i ?_
      · rw [hi]
        exact .readLock n
      · rw [move_self]
        exact .readLoad n hn
      · rw [move_self]
        exact .readEnter n
    convert h using 1
    refine congrArg (State.mk (n + 1)) (funext fun j => ?_)
    by_cases hj : j = i
    · subst hj
      simp [i]
    · have hne : j.val ≠ n := fun h => hj (Fin.ext h)
      simp only [State.move, Function.update_of_ne hj]
      congr 1
      exact propext (by omega)

/-- A reader count of 62 bits does not count `2 ^ 62` readers. -/
theorem exclusion_crowd : ∃ s : State (Fin waiterBit) Nat Pc, Steps Next start s ∧
    readers s.mem = 0 ∧ readCount s = waiterBit := by
  refine ⟨crowd waiterBit, crowd_reachable _ (le_refl _), mod_self _, ?_⟩
  simp [readCount, crowd, Pc.reads]

/-! ## Waiters -/

/-- A writer unlocks only while nobody waits. -/
def NextClear (w : Nat) (p : Pc) (v : Nat) (q : Pc) : Prop :=
  Next w p v q ∧ (p = .writing → waiter w = 0)

theorem registered_steps (hι : Fintype.card ι < waiterBit) (h : Steps NextClear start s) :
    LockInv s ∧ registeredCount s = waiter s.mem := by
  induction h with
  | refl => exact ⟨LockInv.steps hι .refl, by simp [start, registeredCount, Pc.registered, waiter]⟩
  | @tail s t _ hs ih =>
    obtain ⟨i, v, q, ⟨hn, hclear⟩, rfl⟩ := hs
    obtain ⟨hinv, hwaiter⟩ := ih.1.move hι hn
    have hsum : registeredCount (s.move i v q) + _ = registeredCount s + _ :=
      sum_move Pc.registered s i v q
    have hstep := hwaiter hclear
    refine ⟨hinv, ?_⟩
    change _ = waiter v
    omega

/-- **No lost waiter.** In a run in which writers unlock only while nobody waits, a registered
writer finds the waiter bit set. Once nobody holds the lock its next load and its next exchange
succeed, and no reader enters before. -/
theorem waiter_kept (hι : Fintype.card ι < waiterBit) (h : Steps NextClear start s) (i : ι)
    (hi : (s.pc i).registered = 1) :
    waiter s.mem = 1 ∧
      (readCount s = 0 → writeCount s = 0 → ∀ v q, (Next s.mem .spin v q → q = .acquire) ∧
        (Next s.mem .acquire v q → q = .writing)) ∧
      ∀ j v, ¬Next s.mem (s.pc j) v .reading := by
  obtain ⟨⟨hword, hex, hknows⟩, hreg⟩ := registered_steps hι h
  have hone := single_le_sum (f := fun i => (s.pc i).registered) (fun _ _ => zero_le _)
    (mem_univ i)
  have hset : waiter s.mem = 1 := by
    have hlt : waiter s.mem < 2 := Nat.mod_lt _ Nat.two_pos
    have hle : (s.pc i).registered ≤ registeredCount s := hone
    omega
  refine ⟨hset, fun hr hw v q => ?_, fun j v hn => ?_⟩
  · have hmem : s.mem = waiterBit := by
      rw [hw, hset] at hword
      omega
    rw [hmem]
    constructor <;> intro hn <;> cases hn <;> trivial
  · have hj := hknows j
    generalize s.mem = w, s.pc j = p at hj hn hset
    cases hn
    simp only [waiter, div_eq_of_lt hj] at hset
    cases hset

/-! ## A handover -/

/-- One writer holds the lock and the other has registered. -/
def handed : State Bool Nat Pc := ⟨writerBit + waiterBit, fun b => if b then .spin else .writing⟩

theorem handed_steps : Steps NextClear start handed := by
  have clear {w v : Nat} {p q : Pc} (h : Next w p v q) (hp : p ≠ .writing) : NextClear w p v q :=
    ⟨h, fun he => absurd he hp⟩
  have h0 : Steps NextClear start (start : State Bool Nat Pc) := .refl
  have h1 := h0.move false (clear (.writeLock 0) (by decide))
  have h2 := h1.move false (clear (.writeLoad 0 rfl) (by decide))
  have h3 := h2.move false (clear (.register 0) (by decide))
  have h4 := h3.move false (clear (.spinFree _ (by decide)) (by decide))
  have h5 := h4.move false (clear .acquire (by decide))
  have h6 := h5.move true (clear (.writeLock _) (by decide))
  have h7 := h6.move true (clear (.writeLoad _ (by decide)) (by decide))
  have h8 := h7.move true (clear (.register _) (by decide))
  convert h8 using 1
  exact congrArg (State.mk _) (funext fun b => by cases b <;> rfl)

theorem handed_reachable : Steps Next start handed := by
  refine .mono ?_ _ _ handed_steps
  rintro _ _ ⟨i, v, q, hn, rfl⟩
  exact ⟨i, v, q, hn.1, rfl⟩

theorem exclusion_handed : writeCount handed ≤ 1 ∧ readers handed.mem = readCount handed :=
  have h := exclusion (by decide) handed_reachable
  ⟨h.1, h.2.2.1⟩

theorem waiter_kept_handed : waiter handed.mem = 1 :=
  (waiter_kept (by decide) handed_steps true rfl).1

/-- After the unlock the waiting writer has lost its bit, and the free lock refuses it. -/
theorem waiter_lost : ∃ s : State Bool Nat Pc, Steps Next start s ∧ s.pc true = .spin ∧
    waiter s.mem = 0 ∧ writeCount s = 0 ∧ readCount s = 0 ∧
      ∀ v q, Next s.mem .acquire v q → q ≠ .writing := by
  refine ⟨_, handed_reachable.move false (.writeUnlock _), rfl, rfl, rfl, rfl, ?_⟩
  rintro v q ⟨⟩ ⟨⟩

end Fluxfer.SpinRwLock
