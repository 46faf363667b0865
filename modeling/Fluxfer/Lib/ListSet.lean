import Mathlib.Data.Finset.Card
import Mathlib.Data.List.GetD

/-!
# Finite sets with an iteration order

The elements of a set as a list without duplicates, for programs that iterate over a
set and change it between iterations.
-/

namespace Fluxfer

open List

structure ListSet (α : Type*) where
  elems : List α
  nodup : elems.Nodup

namespace ListSet

variable {α : Type*} [DecidableEq α]

instance : Membership α (ListSet α) := ⟨fun s a => a ∈ s.elems⟩

instance (a : α) (s : ListSet α) : Decidable (a ∈ s) := inferInstanceAs (Decidable (a ∈ s.elems))

def empty : ListSet α := ⟨[], nodup_nil⟩

def insert (s : ListSet α) (a : α) : ListSet α := ⟨s.elems.insert a, s.nodup.insert⟩

def erase (s : ListSet α) (a : α) : ListSet α := ⟨s.elems.erase a, s.nodup.erase a⟩

omit [DecidableEq α] in
@[simp]
theorem not_mem_empty {a : α} : ¬ a ∈ (empty : ListSet α) := not_mem_nil

@[simp]
theorem mem_insert {s : ListSet α} {a b : α} : b ∈ s.insert a ↔ b = a ∨ b ∈ s :=
  mem_insert_iff

@[simp]
theorem mem_erase {s : ListSet α} {a b : α} : b ∈ s.erase a ↔ b ≠ a ∧ b ∈ s :=
  s.nodup.mem_erase_iff

theorem erase_of_not_mem {s : ListSet α} {a : α} (h : ¬ a ∈ s) : s.erase a = s := by
  obtain ⟨elems, nodup⟩ := s
  have : elems.erase a = elems := List.erase_of_not_mem h
  simp only [erase, this]

theorem insert_of_mem {s : ListSet α} {a : α} (h : a ∈ s) : s.insert a = s := by
  obtain ⟨elems, nodup⟩ := s
  have : elems.insert a = elems := List.insert_of_mem h
  simp only [insert, this]

theorem length_le_card {s : ListSet α} {A : Finset α} (h : ∀ a ∈ s, a ∈ A) :
    s.elems.length ≤ A.card := by
  rw [← toFinset_card_of_nodup s.nodup]
  exact Finset.card_le_card fun a ha => h a (mem_toFinset.mp ha)

/-- The set that is `s` but for `a`, which is in it when `P` holds. -/
def put (s : ListSet α) (a : α) (P : Prop) [Decidable P] : ListSet α :=
  if P then s.insert a else s.erase a

theorem mem_put {s : ListSet α} {a b : α} {P : Prop} [Decidable P] :
    b ∈ s.put a P ↔ if b = a then P else b ∈ s := by
  unfold put
  split_ifs <;> simp_all

theorem put_self {s : ListSet α} {a : α} {P : Prop} [Decidable P] (h : a ∈ s ↔ P) :
    s.put a P = s := by
  unfold put
  split_ifs with hP
  · exact insert_of_mem (h.mpr hP)
  · exact erase_of_not_mem (mt h.mp hP)

end ListSet

/-! ## An entry taken from a list -/

section Pop

variable {α : Type*} {l : List α}

theorem pop_mem (hne : l ≠ []) (j : Nat) (d : α) : l.getD (j % l.length) d ∈ l := by
  have hidx : j % l.length < l.length := Nat.mod_lt _ (length_pos_of_ne_nil hne)
  rw [getD_eq_getElem _ _ hidx]
  exact getElem_mem hidx

theorem pop_not_mem [DecidableEq α] (hnodup : l.Nodup) (hne : l ≠ []) (j : Nat) (d : α) :
    l.getD (j % l.length) d ∉ l.eraseIdx (j % l.length) := by
  have hidx : j % l.length < l.length := Nat.mod_lt _ (length_pos_of_ne_nil hne)
  rw [getD_eq_getElem _ _ hidx, ← hnodup.erase_getElem _ hidx]
  exact hnodup.not_mem_erase

theorem pop_perm (hne : l ≠ []) (j : Nat) (d : α) :
    (l.getD (j % l.length) d :: l.eraseIdx (j % l.length)).Perm l := by
  have hidx : j % l.length < l.length := Nat.mod_lt _ (length_pos_of_ne_nil hne)
  rw [getD_eq_getElem _ _ hidx]
  exact getElem_cons_eraseIdx_perm hidx

end Pop

end Fluxfer
