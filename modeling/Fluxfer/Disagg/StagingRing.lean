import Mathlib.Data.Prod.Lex
import Mathlib.Order.Interval.Finset.Nat

/-!
# The staging ring

The decode side assigns regions of one buffer in ring order, more than fit in it at a time
(`disaggregation/common/staging_buffer.py`). The watermark it reports is the start of the oldest
region in use. A region that is ready for a watermark is clear of every region before it that
the watermark has not passed (`Region.disjoint_of_ready`).
-/

namespace Fluxfer.Disagg

open List Nat Prod

/-- `(round, tail)`, in the order of Python's tuples -/
abbrev Watermark := Nat ×ₗ Nat

structure Region where
  offset : Nat
  size : Nat
  round : Nat
deriving DecidableEq

namespace Region

/-- What `handle_staging_req` sends as `end`. -/
def stop (x : Region) : Nat := x.offset + x.size

def bytes (x : Region) : Finset Nat := Finset.Ico x.offset x.stop

/-- Where the region starts, as a watermark. -/
def mark (x : Region) : Watermark := toLex (x.round, x.offset)

/-- `x` is assigned before `y`: in an earlier round, or below it in the same one. -/
def Before (x y : Region) : Prop := x.round < y.round ∨ x.round = y.round ∧ x.stop ≤ y.offset

end Region

structure StagingAllocator where
  totalSize : Nat
  head : Nat
  round : Nat
  /-- a dictionary, in the order in which the entries were made -/
  allocations : List (Nat × Region)
  allocOrder : List Nat
  nextAllocId : Nat
  watermarkRound : Nat
  watermarkTail : Nat
deriving DecidableEq

namespace StagingAllocator

def init (totalSize : Nat) : StagingAllocator := ⟨totalSize, 0, 0, [], [], 0, 0, 0⟩

def ids (a : StagingAllocator) : List Nat := a.allocations.map fst

def place (a : StagingAllocator) (requiredBytes : Nat) : Region :=
  if requiredBytes ≤ a.totalSize - a.head then ⟨a.head, requiredBytes, a.round⟩
  else ⟨0, requiredBytes, a.round + 1⟩

/-- The allocator with a region added at its head. -/
def push (a : StagingAllocator) (x : Region) : StagingAllocator :=
  { a with
    head := x.stop
    round := x.round
    allocations := a.allocations ++ [(a.nextAllocId, x)]
    allocOrder := a.allocOrder ++ [a.nextAllocId]
    nextAllocId := a.nextAllocId + 1 }

/-- `assign`: none when the region is larger than the buffer -/
def assign (a : StagingAllocator) (requiredBytes : Nat) :
    Option ((Nat × Region) × StagingAllocator) :=
  if a.totalSize < requiredBytes then none
  else some ((a.nextAllocId, a.place requiredBytes), a.push (a.place requiredBytes))

/-- The allocator without an entry, and the front of the order dropped up to an entry. -/
def pop (a : StagingAllocator) (allocId : Nat) : StagingAllocator :=
  let rest := a.allocations.filter (·.1 != allocId)
  { a with
    allocations := rest
    allocOrder := a.allocOrder.dropWhile fun i => !(rest.map fst).contains i }

def setWatermark (a : StagingAllocator) (round tail : Nat) : StagingAllocator :=
  { a with watermarkRound := round, watermarkTail := tail }

def advance (a : StagingAllocator) : StagingAllocator :=
  if a.allocations.isEmpty then a.setWatermark a.round a.head
  else match a.allocOrder with
    | [] => a
    | i :: _ => match a.allocations.lookup i with
      | some x => a.setWatermark x.round x.offset
      | none => a

def free (a : StagingAllocator) (allocId : Nat) : StagingAllocator :=
  if a.ids.contains allocId then (a.pop allocId).advance else a

def getWatermark (a : StagingAllocator) : Watermark := toLex (a.watermarkRound, a.watermarkTail)

/-- Where the next region starts at the earliest. -/
def cursor (a : StagingAllocator) : Watermark := toLex (a.round, a.head)

end StagingAllocator

/-- `is_watermark_ready`, with the last watermark of the session -/
def isWatermarkReady (remote : Watermark) (allocRound allocEnd : Nat) : Bool :=
  if allocRound = 0 then true
  else
    let prevRound := allocRound - 1
    decide (prevRound < (ofLex remote).1) ||
      (prevRound == (ofLex remote).1 && decide (allocEnd ≤ (ofLex remote).2))

/-- What `STAGING_RSP` tells a worker. -/
structure Offer where
  offset : Nat
  round : Nat
  stop : Nat
deriving DecidableEq

def Offer.bytes (o : Offer) : Finset Nat := Finset.Ico o.offset o.stop

def Region.offer (x : Region) : Offer := ⟨x.offset, x.round, x.stop⟩

/-! ## Regions -/

namespace Region

variable {x y : Region}

theorem Before.mark_le (h : x.Before y) : x.mark ≤ y.mark := by
  rw [Prod.Lex.le_iff]
  obtain hlt | ⟨heq, hle⟩ := h
  · exact .inl hlt
  · exact .inr ⟨heq, (le_add_right _ _).trans hle⟩

theorem disjoint_of_stop_le (h : x.stop ≤ y.offset) : Disjoint x.bytes y.bytes := by
  rw [Finset.disjoint_left]
  intro b hx hy
  have hx' := Finset.mem_Ico.mp hx
  have hy' := Finset.mem_Ico.mp hy
  omega

/-- **A region that is ready is clear of every region before it that is still in use**: the
watermark has not passed such a region. -/
theorem disjoint_of_ready {m : Watermark} (hxy : x.Before y) (hm : m ≤ x.mark)
    (hr : isWatermarkReady m y.round y.stop = true) : Disjoint x.bytes y.bytes := by
  obtain hround | ⟨-, hstop⟩ := hxy
  · -- an earlier round: the watermark is in it, and above the end of `y`
    have hm' := Prod.Lex.le_iff.mp hm
    have hpos : ¬ y.round = 0 := by omega
    simp only [isWatermarkReady, if_neg hpos, Bool.or_eq_true, decide_eq_true_eq, Bool.and_eq_true,
      beq_iff_eq] at hr
    simp only [mark, ofLex_toLex] at hm'
    have hle : y.stop ≤ x.offset := by omega
    exact (disjoint_of_stop_le hle).symm
  · exact disjoint_of_stop_le hstop

end Region

/-! ## The allocator -/

namespace StagingAllocator

/-- What the allocator keeps. -/
structure Inv (a : StagingAllocator) : Prop where
  head_le : a.head ≤ a.totalSize
  stop_le : ∀ e ∈ a.allocations, e.2.stop ≤ a.totalSize
  sorted : a.allocations.Pairwise fun e f => e.1 < f.1 ∧ e.2.Before f.2
  id_lt : ∀ e ∈ a.allocations, e.1 < a.nextAllocId
  before : ∀ e ∈ a.allocations, e.2.round < a.round ∨ e.2.round = a.round ∧ e.2.stop ≤ a.head
  order_lt : ∀ i ∈ a.allocOrder, i < a.nextAllocId
  order : a.allocOrder.filter (fun i => a.ids.contains i) = a.ids
  mark_le : ∀ e ∈ a.allocations, a.getWatermark ≤ e.2.mark
  cursor_le : a.getWatermark ≤ a.cursor

theorem init_inv (n : Nat) : (init n).Inv := by
  constructor <;> simp [init, ids, getWatermark, cursor]

variable {a : StagingAllocator}

theorem Inv.before_or (h : a.Inv) {i j : Nat} {x y : Region} (hx : (i, x) ∈ a.allocations)
    (hy : (j, y) ∈ a.allocations) (hij : i ≠ j) :
    i < j ∧ x.Before y ∨ j < i ∧ y.Before x := by
  let R (e f : Nat × Region) := e.1 < f.1 ∧ e.2.Before f.2 ∨ f.1 < e.1 ∧ f.2.Before e.2
  have : Std.Symm R := ⟨fun _ _ hef => hef.symm⟩
  have hp : a.allocations.Pairwise R := h.sorted.imp Or.inl
  exact hp.forall hx hy fun he => hij (congrArg fst he)

theorem Inv.ids_nodup (h : a.Inv) : a.ids.Nodup :=
  pairwise_map.mpr (h.sorted.imp fun hef => hef.1.ne)

theorem Inv.eq_of_mem (h : a.Inv) {i : Nat} {x y : Region} (hx : (i, x) ∈ a.allocations)
    (hy : (i, y) ∈ a.allocations) : x = y :=
  congrArg snd (inj_on_of_nodup_map h.ids_nodup hx hy rfl)

/-! ### Assigning -/

theorem place_stop_le {n : Nat} (hh : a.head ≤ a.totalSize) (hn : n ≤ a.totalSize) :
    (a.place n).stop ≤ a.totalSize := by
  unfold place Region.stop
  split_ifs <;> simp only <;> omega

theorem place_cases (n : Nat) : a.round < (a.place n).round ∨
    a.round = (a.place n).round ∧ (a.place n).offset = a.head := by
  unfold place
  split_ifs
  · exact .inr ⟨rfl, rfl⟩
  · exact .inl (lt_succ_self _)

theorem cursor_le_place (n : Nat) : a.cursor ≤ (a.place n).mark := by
  rw [Prod.Lex.le_iff]
  obtain hlt | ⟨heq, hoff⟩ := a.place_cases n
  · exact .inl hlt
  · exact .inr ⟨heq, hoff.ge⟩

theorem Inv.before_place (h : a.Inv) (n : Nat) {e : Nat × Region} (he : e ∈ a.allocations) :
    e.2.Before (a.place n) := by
  have hb := h.before e he
  unfold Region.Before
  obtain hlt | ⟨heq, hoff⟩ := a.place_cases n <;> omega

theorem Inv.push (h : a.Inv) {n : Nat} (hn : n ≤ a.totalSize) : (a.push (a.place n)).Inv where
  head_le := place_stop_le h.head_le hn
  stop_le := by
    intro e he
    obtain he | he := mem_append.mp he
    · exact h.stop_le e he
    · rw [mem_singleton.mp he]
      exact place_stop_le h.head_le hn
  sorted := by
    refine pairwise_append.mpr ⟨h.sorted, pairwise_singleton _ _, ?_⟩
    intro e he f hf
    rw [mem_singleton.mp hf]
    exact ⟨h.id_lt e he, h.before_place n he⟩
  id_lt := by
    intro e he
    obtain he | he := mem_append.mp he
    · exact (h.id_lt e he).trans (lt_succ_self _)
    · rw [mem_singleton.mp he]
      exact lt_succ_self _
  before := by
    intro e he
    obtain he | he := mem_append.mp he
    · obtain hlt | ⟨heq, hle⟩ := h.before_place n he
      · exact .inl hlt
      · exact .inr ⟨heq, hle.trans (le_add_right _ _)⟩
    · rw [mem_singleton.mp he]
      exact .inr ⟨rfl, le_rfl⟩
  order_lt := by
    intro i hi
    obtain hi | hi := mem_append.mp hi
    · exact (h.order_lt i hi).trans (lt_succ_self _)
    · rw [mem_singleton.mp hi]
      exact lt_succ_self _
  order := by
    have hids : (a.push (a.place n)).ids = a.ids ++ [a.nextAllocId] := by
      simp [ids, StagingAllocator.push]
    have hold : a.allocOrder.filter (fun i => (a.ids ++ [a.nextAllocId]).contains i) = a.ids := by
      refine (filter_congr fun i hi => ?_).trans h.order
      have hne := (h.order_lt i hi).ne
      simp [hne]
    have hnew : [a.nextAllocId].filter (fun i => (a.ids ++ [a.nextAllocId]).contains i) =
        [a.nextAllocId] := by simp
    rw [hids]
    exact (filter_append _ _).trans (congrArg₂ (· ++ ·) hold hnew)
  mark_le := by
    intro e he
    obtain he | he := mem_append.mp he
    · exact h.mark_le e he
    · rw [mem_singleton.mp he]
      exact h.cursor_le.trans (cursor_le_place n)
  cursor_le := by
    refine (h.cursor_le.trans (cursor_le_place n)).trans ?_
    rw [Prod.Lex.le_iff]
    exact .inr ⟨rfl, le_add_right _ _⟩

/-! ### Freeing -/

theorem filter_dropWhile_not {α : Type} (p : α → Bool) (l : List α) :
    (l.dropWhile fun i => !p i).filter p = l.filter p := by
  induction l with
  | nil => rfl
  | cons x xs ih =>
    cases hx : p x with
    | true => simp [hx]
    | false => simp [hx, ih]

theorem ids_pop (i : Nat) : (a.pop i).ids = a.ids.filter (· != i) := by
  simp only [ids, filter_map]
  rfl

theorem pop_order (h : a.Inv) (i : Nat) :
    (a.pop i).allocOrder.filter (fun j => (a.pop i).ids.contains j) = (a.pop i).ids := by
  have hdrop : (a.pop i).allocOrder.filter (fun j => (a.pop i).ids.contains j) =
      a.allocOrder.filter (fun j => (a.pop i).ids.contains j) :=
    filter_dropWhile_not (fun j => (a.pop i).ids.contains j) a.allocOrder
  have hsplit : (fun j => (a.pop i).ids.contains j) = fun j => (j != i) && a.ids.contains j := by
    funext j
    rw [ids_pop, Bool.eq_iff_iff]
    simp [and_comm]
  rw [hdrop, hsplit, ← filter_filter, h.order, ids_pop]

theorem Inv.pop (h : a.Inv) (i : Nat) : (a.pop i).Inv where
  head_le := h.head_le
  stop_le e he := h.stop_le e (mem_of_mem_filter he)
  sorted := h.sorted.filter _
  id_lt e he := h.id_lt e (mem_of_mem_filter he)
  before e he := h.before e (mem_of_mem_filter he)
  order_lt j hj := h.order_lt j ((dropWhile_sublist _).mem hj)
  order := pop_order h i
  mark_le e he := h.mark_le e (mem_of_mem_filter he)
  cursor_le := h.cursor_le

theorem Inv.setWatermark (h : a.Inv) {m n : Nat} (hm : ∀ e ∈ a.allocations, toLex (m, n) ≤ e.2.mark)
    (hc : toLex (m, n) ≤ a.cursor) : (a.setWatermark m n).Inv where
  head_le := h.head_le
  stop_le := h.stop_le
  sorted := h.sorted
  id_lt := h.id_lt
  before := h.before
  order_lt := h.order_lt
  order := h.order
  mark_le := hm
  cursor_le := hc

theorem Inv.lookup_front (h : a.Inv) {i j : Nat} {x : Region} {es : List (Nat × Region)}
    {js : List Nat} (he : a.allocations = (i, x) :: es) (ho : a.allocOrder = j :: js)
    (hj : a.ids.contains j = true) : a.allocations.lookup j = some x := by
  have hids : a.ids = i :: es.map fst := by rw [ids, he]; rfl
  have hfilter := h.order
  rw [ho, filter_cons_of_pos hj] at hfilter
  have hji : j = i := by
    rw [hids] at hfilter
    exact (cons.inj hfilter).1
  rw [hji, he]
  simp

/-- The watermark is at the oldest region in use, or at the head when there is none. -/
def AtFront (a : StagingAllocator) : Prop :=
  (a.allocations = [] → a.getWatermark = a.cursor) ∧
    ∀ e ∈ a.allocations.head?, a.getWatermark = e.2.mark

theorem Inv.advance (h : a.Inv) (hfront : ∀ j ∈ a.allocOrder.head?, a.ids.contains j = true) :
    a.advance.Inv ∧ a.getWatermark ≤ a.advance.getWatermark ∧
      a.advance.allocations = a.allocations ∧ a.advance.nextAllocId = a.nextAllocId ∧
      a.advance.AtFront := by
  unfold StagingAllocator.advance
  cases he : a.allocations with
  | nil =>
    refine ⟨h.setWatermark (by simp [he]) le_rfl, h.cursor_le, he, rfl, fun _ => rfl, ?_⟩
    simp [StagingAllocator.setWatermark, he]
  | cons e es =>
    obtain ⟨i, x⟩ := e
    simp only [isEmpty_cons, Bool.false_eq_true, if_false]
    split
    · next ho =>
      have horder := h.order
      rw [ho, ids, he] at horder
      exact absurd horder.symm (cons_ne_nil _ _)
    · next j js ho =>
      have hlookup := h.lookup_front he ho (hfront j (by simp [ho]))
      rw [← he, hlookup]
      have hmem : (i, x) ∈ a.allocations := by simp [he]
      have hfirst : ∀ e ∈ a.allocations, toLex (x.round, x.offset) ≤ e.2.mark := by
        intro e hmem
        rw [he] at hmem
        obtain rfl | hmem := mem_cons.mp hmem
        · exact le_rfl
        · have hs := h.sorted
          rw [he] at hs
          exact ((pairwise_cons.mp hs).1 e hmem).2.mark_le
      refine ⟨h.setWatermark hfirst ?_, h.mark_le _ hmem, rfl, rfl, ?_, ?_⟩
      · rw [Prod.Lex.le_iff]
        obtain hlt | ⟨heq, hle⟩ := h.before _ hmem
        · exact .inl hlt
        · exact .inr ⟨heq, (le_add_right _ _).trans hle⟩
      · intro hnil
        exact absurd (he.symm.trans hnil) (cons_ne_nil _ _)
      · intro e hhead
        have hhead' : (i, x) = e := by simpa [StagingAllocator.setWatermark, he] using hhead
        rw [← hhead']
        rfl

/-- What `free` leaves. -/
structure Freed (a : StagingAllocator) (i : Nat) (b : StagingAllocator) : Prop where
  inv : b.Inv
  mark_le : a.getWatermark ≤ b.getWatermark
  mem_iff : ∀ e, e ∈ b.allocations ↔ e ∈ a.allocations ∧ e.1 ≠ i
  next_eq : b.nextAllocId = a.nextAllocId
  atFront : b = a ∨ b.AtFront

theorem Inv.free (h : a.Inv) (i : Nat) : a.Freed i (a.free i) := by
  unfold StagingAllocator.free
  split_ifs with hi
  · have hfront : ∀ j ∈ (a.pop i).allocOrder.head?, (a.pop i).ids.contains j = true := by
      intro j hj
      have hdrop := head?_dropWhile_not (fun j => !(a.pop i).ids.contains j) a.allocOrder
      have hj' : (a.allocOrder.dropWhile fun j => !(a.pop i).ids.contains j).head? = some j := hj
      rw [hj'] at hdrop
      simpa using hdrop
    obtain ⟨hinv, hle, halloc, hnext, hat⟩ := (h.pop i).advance hfront
    refine ⟨hinv, hle, fun e => ?_, hnext, .inr hat⟩
    rw [halloc]
    simp [StagingAllocator.pop]
  · refine ⟨h, le_rfl, fun e => ⟨fun he => ⟨he, ?_⟩, And.left⟩, rfl, .inl rfl⟩
    rintro rfl
    exact hi (by simpa [ids] using ⟨e.2, he⟩)

end StagingAllocator

end Fluxfer.Disagg
