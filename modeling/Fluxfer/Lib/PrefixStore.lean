import Mathlib.Tactic

/-!
# Namespaced longest-prefix stores

What a prefix cache is for, without its tree: for each namespace a set of sequences of units, closed
under page-aligned prefixes, with one sequence of slots for each of them.
-/

namespace Fluxfer

open List Nat

variable {κ β γ : Type*} {ps : Nat}

/-- Page-aligned sequences of units with their slots, in namespaces. -/
@[ext]
structure PrefixStore (κ β γ : Type*) (ps : Nat) where
  holds : κ → List β → List γ → Prop
  nil : ∀ e, holds e [] []
  aligned : ∀ {e u s}, holds e u s → ps ∣ u.length
  length_eq : ∀ {e u s}, holds e u s → s.length = u.length
  functional : ∀ {e u s s'}, holds e u s → holds e u s' → s = s'
  prefix_closed : ∀ {e u s n}, holds e u s → ps ∣ n → holds e (u.take n) (s.take n)

namespace PrefixStore

/-- The store that holds nothing but the empty sequence. -/
def empty (κ β γ : Type*) (ps : Nat) : PrefixStore κ β γ ps where
  holds _ u s := u = [] ∧ s = []
  nil _ := ⟨rfl, rfl⟩
  aligned h := by simp [h.1]
  length_eq h := by simp [h.1, h.2]
  functional h h' := by rw [h.2, h'.2]
  prefix_closed h _ := by simp [h.1, h.2]

/-- `n` units of `u` are stored, with the slots `s`, and no more than `n`. -/
structure IsLongest (S : PrefixStore κ β γ ps) (e : κ) (u : List β) (n : Nat) (s : List γ) :
    Prop where
  le : n ≤ u.length
  holds : S.holds e (u.take n) s
  max : ∀ m s', m ≤ u.length → S.holds e (u.take m) s' → m ≤ n

def Sub (T S : PrefixStore κ β γ ps) : Prop := ∀ e u s, T.holds e u s → S.holds e u s

theorem Sub.refl (S : PrefixStore κ β γ ps) : S.Sub S := fun _ _ _ h => h

theorem Sub.trans {T S R : PrefixStore κ β γ ps} (h : T.Sub S) (g : S.Sub R) : T.Sub R :=
  fun e u s ht => g e u s (h e u s ht)

section IsLongest

variable {S : PrefixStore κ β γ ps} {e : κ} {u : List β} {n m : Nat} {s s' : List γ}

theorem IsLongest.length_eq (h : S.IsLongest e u n s) : s.length = n := by
  rw [S.length_eq h.holds, length_take]
  exact min_eq_left h.le

theorem IsLongest.dvd (h : S.IsLongest e u n s) : ps ∣ n := by
  have := S.aligned h.holds
  rwa [length_take, min_eq_left h.le] at this

theorem IsLongest.unique (h : S.IsLongest e u n s) (g : S.IsLongest e u m s') : n = m ∧ s = s' := by
  have hnm : n = m := le_antisymm (g.max n s h.le h.holds) (h.max m s' g.le g.holds)
  subst hnm
  exact ⟨rfl, S.functional h.holds g.holds⟩

theorem IsLongest.slots_eq (h : S.IsLongest e u n s) (hm : m ≤ u.length)
    (hs : S.holds e (u.take m) s') : s' = s.take m := by
  have hle : m ≤ n := h.max m s' hm hs
  have hdvd : ps ∣ m := by
    have := S.aligned hs
    rwa [length_take, min_eq_left hm] at this
  have hpre := S.prefix_closed h.holds hdvd
  rw [take_take, min_eq_left hle] at hpre
  exact S.functional hs hpre

end IsLongest

/-- Storing `u` with the slots `v`: entries that exist keep their slots, and longer
prefixes of `u` continue the slots of the longest one that exists. -/
def insert (S : PrefixStore κ β γ ps) (e : κ) (u : List β) (v : List γ)
    (hv : v.length = u.length) : PrefixStore κ β γ ps where
  holds e' w s := S.holds e' w s ∨
    (e' = e ∧ ps ∣ w.length ∧ ∃ n s0, S.IsLongest e u n s0 ∧ n < w.length ∧
      w.length ≤ u.length ∧ w = u.take w.length ∧ s = (s0 ++ v.drop n).take w.length)
  nil e' := .inl (S.nil e')
  aligned h := by
    rcases h with h | ⟨_, h, _⟩
    · exact S.aligned h
    · exact h
  length_eq h := by
    rcases h with h | ⟨_, _, n, s0, hl, _, hwu, _, rfl⟩
    · exact S.length_eq h
    · rw [length_take, length_append, length_drop, hl.length_eq, hv]
      have := hl.le
      omega
  functional h h' := by
    rcases h with h | ⟨rfl, _, n, s0, hl, hn, hwu, hw, rfl⟩ <;>
      rcases h' with h' | ⟨he, _, n', s0', hl', hn', hwu', hw', rfl⟩
    · exact S.functional h h'
    · subst he
      rw [hw'] at h
      exact absurd (hl'.max _ _ hwu' h) (by omega)
    · rw [hw] at h'
      exact absurd (hl.max _ _ hwu h') (by omega)
    · obtain ⟨rfl, rfl⟩ := hl.unique hl'
      rfl
  prefix_closed {e' w s k} h hk := by
    rcases h with h | ⟨rfl, _, n, s0, hl, hn, hwu, hw, rfl⟩
    · exact .inl (S.prefix_closed h hk)
    · by_cases hkw : k < w.length
      · have hwk : w.take k = u.take k := by
          rw [hw, take_take, min_eq_left (by omega)]
        have hlen : (w.take k).length = k := by
          rw [length_take]
          omega
        rw [take_take, min_eq_left (by omega)]
        by_cases hkn : k ≤ n
        · -- a prefix of what was stored before
          left
          have := S.prefix_closed hl.holds hk
          rw [take_take, min_eq_left hkn] at this
          rwa [hwk, take_append_of_le_length (by rw [hl.length_eq]; exact hkn)]
        · right
          refine ⟨rfl, by rwa [hlen], n, s0, hl, by omega, by omega, ?_, ?_⟩
          · rw [hlen, hwk]
          · rw [hlen]
      · rw [take_of_length_le (by omega)]
        right
        refine ⟨rfl, by assumption, n, s0, hl, hn, hwu, hw, ?_⟩
        rw [take_take, min_eq_right (by omega)]

section Insert

variable {S : PrefixStore κ β γ ps} {e : κ} {u : List β} {v : List γ} {hv : v.length = u.length}

theorem insert_holds_iff {n : Nat} {s0 : List γ} (h : S.IsLongest e u n s0) {e' : κ}
    {w : List β} {s : List γ} :
    (S.insert e u v hv).holds e' w s ↔ S.holds e' w s ∨
      (ps ∣ w.length ∧ e' = e ∧ w <+: u ∧ s = (s0 ++ v.drop n).take w.length) := by
  constructor
  · rintro (hold | ⟨rfl, hd, m, s1, hl, _, _, hw, rfl⟩)
    · exact .inl hold
    · obtain ⟨rfl, rfl⟩ := h.unique hl
      exact .inr ⟨hd, rfl, prefix_iff_eq_take.mpr hw, rfl⟩
  · rintro (hold | ⟨hd, rfl, hw, rfl⟩)
    · exact .inl hold
    · have hw' := prefix_iff_eq_take.mp hw
      by_cases hlt : n < w.length
      · exact .inr ⟨rfl, hd, n, s0, h, hlt, hw.length_le, hw', rfl⟩
      · -- a prefix of what was stored before
        left
        have hpre := S.prefix_closed h.holds hd
        rw [take_take, min_eq_left (by omega), ← hw'] at hpre
        rwa [take_append_of_le_length (by rw [h.length_eq]; omega)]

theorem insert_eq_self {s : List γ} (h : S.IsLongest e u u.length s) : S.insert e u v hv = S := by
  apply PrefixStore.ext
  funext e' w s'
  apply propext
  constructor
  · rintro (hold | ⟨_, _, m, s1, hl, hlt, hle, _⟩)
    · exact hold
    · obtain ⟨rfl, _⟩ := h.unique hl
      omega
  · exact .inl

theorem isLongest_insert {n : Nat} {s : List γ} (hu : ps ∣ u.length) (h : S.IsLongest e u n s) :
    (S.insert e u v hv).IsLongest e u u.length (s ++ v.drop n) := by
  have hlen : (s ++ v.drop n).length = u.length := by
    rw [length_append, length_drop, h.length_eq]
    have := h.le
    omega
  refine ⟨le_rfl, ?_, fun m _ hm _ => hm⟩
  rw [take_length]
  rcases lt_or_eq_of_le h.le with hlt | heq
  · right
    refine ⟨rfl, hu, n, s, h, hlt, le_rfl, by rw [take_length], ?_⟩
    rw [take_of_length_le (by omega)]
  · left
    have hdrop : v.drop n = [] := drop_eq_nil_of_le (by omega)
    have := h.holds
    rw [heq, take_length] at this
    rwa [hdrop, append_nil]

theorem eq_insert {T : PrefixStore κ β γ ps} {n : Nat} {s0 : List γ} (hsub : S.Sub T)
    (hnew : ∀ e' w s, T.holds e' w s → S.holds e' w s ∨ e' = e ∧ w <+: u)
    (h : S.IsLongest e u n s0) (hu : T.holds e u (s0 ++ v.drop n)) : T = S.insert e u v hv := by
  have hpre : ∀ w, ps ∣ w.length → w <+: u → T.holds e w ((s0 ++ v.drop n).take w.length) := by
    intro w hd hw
    have := T.prefix_closed hu hd
    rwa [← prefix_iff_eq_take.mp hw] at this
  apply PrefixStore.ext
  funext e' w s
  apply propext
  rw [insert_holds_iff h]
  constructor
  · intro hw
    rcases hnew e' w s hw with hold | ⟨rfl, hwu⟩
    · exact .inl hold
    · exact .inr ⟨T.aligned hw, rfl, hwu, T.functional hw (hpre w (T.aligned hw) hwu)⟩
  · rintro (hold | ⟨hd, rfl, hwu, rfl⟩)
    · exact hsub e' w s hold
    · exact hpre w hd hwu

theorem exists_holds_insert {n : Nat} {s : List γ} (hu : ps ∣ u.length)
    (h : S.IsLongest e u n s) : ∃ s', (S.insert e u v hv).holds e u s' := by
  have hlong : (S.insert e u v hv).IsLongest e u u.length (s ++ v.drop n) := isLongest_insert hu h
  have hholds := hlong.holds
  rw [take_length] at hholds
  exact ⟨_, hholds⟩

end Insert

end PrefixStore

end Fluxfer
