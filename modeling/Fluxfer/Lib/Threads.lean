import Mathlib.Algebra.BigOperators.Group.Finset.Basic

/-!
# Interleaved threads

A program of threads is given by what one thread can do: from the shared memory and its own place to
a new memory and a new place. Every interleaving is a path of `Step`s.
-/

namespace Fluxfer.Threads

open Function Finset

/-- The shared memory and the place of every thread. -/
structure State (ι σ π : Type*) where
  mem : σ
  pc : ι → π

variable {ι σ π : Type*} [DecidableEq ι] {s t : State ι σ π} (next : σ → π → σ → π → Prop)

def State.move (s : State ι σ π) (i : ι) (m : σ) (q : π) : State ι σ π := ⟨m, update s.pc i q⟩

def Step (s t : State ι σ π) : Prop := ∃ i m q, next s.mem (s.pc i) m q ∧ t = s.move i m q

abbrev Steps : State ι σ π → State ι σ π → Prop := Relation.ReflTransGen (Step next)

variable {next} {i j : ι} {m : σ} {q : π}

theorem Steps.move (h : Steps next s t) (i : ι) (hn : next t.mem (t.pc i) m q) :
    Steps next s (t.move i m q) :=
  h.tail ⟨i, m, q, hn, rfl⟩

@[simp] theorem move_self : (s.move i m q).pc i = q := update_self _ _ _

theorem move_of_ne (h : j ≠ i) : (s.move i m q).pc j = s.pc j := update_of_ne h _ _

theorem forall_move {P : π → Prop} (hq : P q) (h : ∀ j, j ≠ i → P (s.pc j)) (j : ι) :
    P ((s.move i m q).pc j) := by
  by_cases hj : j = i
  · rwa [hj, move_self]
  · rw [move_of_ne hj]
    exact h j hj

theorem exists_move {P : π → Prop} (hp : ¬P (s.pc i)) (h : ∃ k, P (s.pc k)) :
    ∃ k, P ((s.move i m q).pc k) := by
  obtain ⟨k, hk⟩ := h
  have hki : k ≠ i := by
    rintro rfl
    exact hp hk
  exact ⟨k, by rwa [move_of_ne hki]⟩

/-- What the threads have together changes by what the moving one gains and loses. -/
theorem sum_move [Fintype ι] {M : Type*} [AddCommMonoid M] (f : π → M) (s : State ι σ π) (i : ι)
    (m : σ) (q : π) : ∑ j, f ((s.move i m q).pc j) + f (s.pc i) = ∑ j, f (s.pc j) + f q := by
  have hne : ∀ j ∈ univ.erase i, f ((s.move i m q).pc j) = f (s.pc j) := fun j hj => by
    rw [move_of_ne (ne_of_mem_erase hj)]
  rw [← add_sum_erase _ _ (mem_univ i), sum_congr rfl hne, move_self,
    ← add_sum_erase univ (fun j => f (s.pc j)) (mem_univ i), add_comm (f q), add_right_comm,
    add_comm (f (s.pc i))]

end Fluxfer.Threads
