import Mathlib.Logic.Function.Basic

/-!
# Writes in any order

A transfer or a kernel is a list of writes of single cells whose order nobody controls. What a
cell holds afterwards is known when all writes of the cell agree.
-/

namespace Fluxfer

variable {α β : Type} [DecidableEq α]

/-- The memory after writes in the order of the list. -/
def writeAll (ws : List (α × β)) (m : α → β) : α → β :=
  ws.foldl (fun m w => Function.update m w.1 w.2) m

theorem writeAll_eq {ws : List (α × β)} {m : α → β} {a : α} {v : β}
    (hsome : (∃ w ∈ ws, w.1 = a) ∨ m a = v) (hall : ∀ w ∈ ws, w.1 = a → w.2 = v) :
    writeAll ws m a = v := by
  induction ws generalizing m with
  | nil => exact hsome.resolve_left (by simp)
  | cons w ws ih =>
    refine ih ?_ fun x hx => hall x (List.mem_cons_of_mem _ hx)
    by_cases hw : w.1 = a
    · right
      subst hw
      exact (Function.update_self _ _ _).trans (hall w List.mem_cons_self rfl)
    · obtain ⟨x, hx, hxa⟩ | hm := hsome
      · obtain rfl | hx := List.mem_cons.mp hx
        · exact absurd hxa hw
        · exact .inl ⟨x, hx, hxa⟩
      · exact .inr ((Function.update_of_ne (Ne.symm hw) _ _).trans hm)

/-- `m'` is the memory after the writes, in some order. -/
def Written (ws : List (α × β)) (m m' : α → β) : Prop :=
  ∃ vs, vs.Perm ws ∧ m' = writeAll vs m

theorem exists_written (ws : List (α × β)) (m : α → β) : ∃ m', Written ws m m' :=
  ⟨writeAll ws m, ws, .refl ws, rfl⟩

theorem Written.eq {ws : List (α × β)} {m m' : α → β} (h : Written ws m m') {a : α} {v : β}
    (hsome : ∃ w ∈ ws, w.1 = a) (hall : ∀ w ∈ ws, w.1 = a → w.2 = v) : m' a = v := by
  obtain ⟨vs, hperm, rfl⟩ := h
  refine writeAll_eq (.inl ?_) fun w hw => hall w (hperm.mem_iff.mp hw)
  obtain ⟨w, hw, ha⟩ := hsome
  exact ⟨w, hperm.mem_iff.mpr hw, ha⟩

end Fluxfer
