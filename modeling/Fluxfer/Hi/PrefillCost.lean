import Mathlib.Data.List.DropRight
import Mathlib.Data.Rat.Floor
import Mathlib.Tactic.Positivity

/-!
# The cost synopsis

`mem_cache/online_prefill_cost.py` keeps the last samples of the prefill batches, in buckets of
their lengths and of the parts of them that were reused. A bucket is a ring with running sums:
what it estimates from is the window of its last eight samples (`SampleRing.Holds`). Seconds are
rationals here.
-/

namespace Fluxfer.Hi

open List Function

/-- `_SampleRing`, of `SAMPLES_PER_BUCKET` samples -/
structure SampleRing where
  q : Fin 8 → ℤ
  t : Fin 8 → ℚ
  size : Nat
  next : Fin 8
  sumQ : ℤ
  sumT : ℚ

namespace SampleRing

def init : SampleRing := ⟨fun _ => 0, fun _ => 0, 0, 0, 0, 0⟩

/-- The sample that is written over leaves the sums. -/
def dropOldest (r : SampleRing) : SampleRing :=
  if r.size = 8 then { r with sumQ := r.sumQ - r.q r.next, sumT := r.sumT - r.t r.next }
  else { r with size := r.size + 1 }

def write (r : SampleRing) (q : ℤ) (t : ℚ) : SampleRing :=
  { r with
    q := update r.q r.next q
    t := update r.t r.next t
    sumQ := r.sumQ + q
    sumT := r.sumT + t
    next := r.next + 1 }

/-- `add`, where the seconds are `none` when they are not finite -/
def add (r : SampleRing) (q : ℤ) : Option ℚ → SampleRing
  | none => r
  | some t => if q ≤ 0 ∨ t ≤ 0 then r else r.dropOldest.write q t

def estimate (r : SampleRing) (q : ℤ) : Option ℚ :=
  if r.sumQ = 0 then none else some (r.sumT / r.sumQ * q)

end SampleRing

/-- The arguments of `OnlinePrefillCostSynopsis.add`. -/
structure CostSample where
  q : ℤ
  h : ℤ
  averageLayerSeconds : Option ℚ

/-- The length and the seconds of a sample that a ring accepts. -/
def CostSample.valid (x : CostSample) : Option (ℤ × ℚ) :=
  x.averageLayerSeconds.bind fun t => if 0 < x.q ∧ 0 < t then some (x.q, t) else none

structure OnlinePrefillCostSynopsis where
  maxLengthBucket : ℤ
  buckets : ℤ × ℤ → Option SampleRing

namespace OnlinePrefillCostSynopsis

def init (maxBatchTokens : ℤ) : OnlinePrefillCostSynopsis :=
  ⟨max 0 ((maxBatchTokens - 1) / 128), fun _ => none⟩

/-- The part of a batch that was reused. -/
def reuse (q h : ℤ) : ℚ := h / (h + q)

def reuseBucket (q h : ℤ) : ℤ :=
  if reuse q h = 0 then 0 else min (⌈reuse q h / (1 / 20)⌉ - 1) 19

/-- `bucket_key`, with `LENGTH_BUCKET_TOKENS` and `REUSE_BUCKET_WIDTH` -/
def bucketKey (c : OnlinePrefillCostSynopsis) (q h : ℤ) : Except String (ℤ × ℤ) :=
  if q ≤ 0 ∨ h < 0 then .error "Q must be positive and H must be non-negative"
  else .ok (min ((q - 1) / 128) c.maxLengthBucket, reuseBucket q h)

def add (c : OnlinePrefillCostSynopsis) (x : CostSample) :
    Except String OnlinePrefillCostSynopsis := do
  let key ← c.bucketKey x.q x.h
  let ring := (c.buckets key).getD .init
  .ok { c with buckets := update c.buckets key (ring.add x.q x.averageLayerSeconds) }

def estimate (c : OnlinePrefillCostSynopsis) (q h : ℤ) : Except String (Option ℚ) := do
  let key ← c.bucketKey q h
  match c.buckets key with
  | none => .ok none
  | some ring => .ok (ring.estimate q)

/-- One sample after the other. An `add` that raises leaves the synopsis as it is. -/
def addAll : OnlinePrefillCostSynopsis → List CostSample → OnlinePrefillCostSynopsis
  | c, [] => c
  | c, x :: xs =>
    match c.add x with
    | .ok d => d.addAll xs
    | .error _ => c.addAll xs

/-- The samples that came to a bucket and are valid. -/
def sampleOf (c : OnlinePrefillCostSynopsis) (key : ℤ × ℤ) (x : CostSample) : Option (ℤ × ℚ) :=
  if c.bucketKey x.q x.h = .ok key then x.valid else none

/-- The lengths and the reused parts of a bucket. The last bucket has all greater lengths, and the
first one the batches without reuse. -/
structure InBucket (c : OnlinePrefillCostSynopsis) (key : ℤ × ℤ) (q h : ℤ) : Prop where
  length_range : 0 ≤ key.1 ∧ key.1 ≤ c.maxLengthBucket
  lt_length : 128 * key.1 < q
  length_lt : key.1 < c.maxLengthBucket → q ≤ 128 * (key.1 + 1)
  reuse_range : 0 ≤ key.2 ∧ key.2 < 20
  lt_reuse : (key.2 : ℚ) / 20 < reuse q h ∨ key.2 = 0 ∧ reuse q h = 0
  reuse_le : reuse q h ≤ (key.2 + 1 : ℚ) / 20

end OnlinePrefillCostSynopsis

/-! ## A ring and its window -/

namespace SampleRing

/-- The ring of samples, the latest one first. -/
structure Holds (r : SampleRing) (l : List (ℤ × ℚ)) : Prop where
  slot : ∀ k : Fin 8, ∀ s ∈ l[k.val]?, (r.q (r.next - 1 - k), r.t (r.next - 1 - k)) = s
  size_eq : r.size = min l.length 8
  sum_eq : (r.sumQ, r.sumT) = (l.take 8).sum
  pos : ∀ s ∈ l, 0 < s.1

theorem init_holds : init.Holds [] := by
  constructor <;> simp [init]

variable {r : SampleRing} {l : List (ℤ × ℚ)}

theorem Holds.dropOldest (h : r.Holds l) : r.dropOldest.size = min (l.length + 1) 8 ∧
    (r.dropOldest.sumQ, r.dropOldest.sumT) = (l.take 7).sum := by
  have hsize := h.size_eq
  have hsum := h.sum_eq
  rw [take_add_one, sum_append] at hsum
  unfold SampleRing.dropOldest
  split_ifs with hfull
  · -- the slot to be written holds the eighth sample
    have hlt : 7 < l.length := by omega
    have hnext : r.next - 1 - 7 = r.next := by
      generalize r.next = n
      revert n
      decide
    have hslot := h.slot 7 l[7] (by simp [hlt])
    rw [hnext] at hslot
    rw [getElem?_eq_getElem hlt, Option.toList_some, sum_singleton, ← hslot] at hsum
    exact ⟨by show r.size = _; omega, sub_eq_iff_eq_add.mpr hsum⟩
  · have hnone : l[7]? = none := getElem?_eq_none (by omega)
    rw [hnone, Option.toList_none, sum_nil, add_zero] at hsum
    exact ⟨by show r.size + 1 = _; omega, hsum⟩

theorem dropOldest_slots (r : SampleRing) :
    r.dropOldest.q = r.q ∧ r.dropOldest.t = r.t ∧ r.dropOldest.next = r.next := by
  unfold dropOldest
  split_ifs <;> exact ⟨rfl, rfl, rfl⟩

theorem Holds.push (h : r.Holds l) {q : ℤ} {t : ℚ} (hq : 0 < q) :
    (r.dropOldest.write q t).Holds ((q, t) :: l) := by
  obtain ⟨hsize, hsum⟩ := h.dropOldest
  obtain ⟨hrq, hrt, hnext⟩ := r.dropOldest_slots
  refine ⟨?_, hsize, ?_, ?_⟩
  · intro k s hs
    simp only [write, hrq, hrt, hnext]
    obtain rfl | hk := eq_or_ne k 0
    · have hfirst : r.next + 1 - 1 - 0 = r.next := by
        generalize r.next = n
        revert n
        decide
      rw [hfirst, update_self]
      simpa using hs
    · have hpred : r.next + 1 - 1 - k = r.next - 1 - (k - 1) ∧ r.next + 1 - 1 - k ≠ r.next ∧
          k.val = (k - 1).val + 1 := by
        generalize r.next = n
        clear hs
        revert n k
        decide
      obtain ⟨heq, hne, hval⟩ := hpred
      rw [update_of_ne hne, update_of_ne hne, heq]
      rw [hval] at hs
      exact h.slot (k - 1) s hs
  · rw [take_succ_cons, sum_cons, ← hsum, add_comm]
    rfl
  · intro s hs
    obtain rfl | hs := mem_cons.mp hs
    · exact hq
    · exact h.pos s hs

theorem Holds.add (h : r.Holds l) (x : CostSample) :
    (r.add x.q x.averageLayerSeconds).Holds (x.valid.toList ++ l) := by
  unfold CostSample.valid
  cases x.averageLayerSeconds with
  | none => exact h
  | some t =>
    simp only [SampleRing.add, Option.bind_some]
    by_cases hpos : 0 < x.q ∧ 0 < t
    · rw [if_pos hpos, if_neg (by simpa using hpos)]
      exact h.push hpos.1
    · rw [if_neg hpos, if_pos (by grind)]
      exact h

theorem Holds.estimate (h : r.Holds l) (q : ℤ) : r.estimate q =
    if l = [] then none else some (q * ((l.take 8).sum.2 / (l.take 8).sum.1)) := by
  unfold SampleRing.estimate
  have hsum : r.sumQ = (l.take 8).sum.1 := congrArg Prod.fst h.sum_eq
  rw [← h.sum_eq]
  cases l with
  | nil => exact if_pos hsum
  | cons s l =>
    have hpos : 0 < r.sumQ := by
      rw [hsum, ← AddMonoidHom.coe_fst, map_list_sum]
      refine sum_pos _ ?_ (by simp)
      intro q hq
      obtain ⟨s, hs, rfl⟩ := mem_map.mp hq
      exact h.pos s (mem_of_mem_take hs)
    rw [if_neg hpos.ne', if_neg (cons_ne_nil _ _), mul_comm (q : ℚ)]

end SampleRing

/-! ## The buckets -/

namespace OnlinePrefillCostSynopsis

variable {c : OnlinePrefillCostSynopsis} {key : ℤ × ℤ} {q h : ℤ}

theorem reuse_lt_one (hq : 0 < q) (hh : 0 ≤ h) : 0 ≤ reuse q h ∧ reuse q h < 1 := by
  have hq' : (0 : ℚ) < q := Int.cast_pos.mpr hq
  unfold reuse
  refine ⟨by positivity, ?_⟩
  rw [div_lt_one (by positivity)]
  linarith

theorem inBucket_bucketKey (hc : 0 ≤ c.maxLengthBucket) (hq : 0 < q) (hh : 0 ≤ h) :
    ∃ key, c.bucketKey q h = .ok key ∧ c.InBucket key q h := by
  refine ⟨_, if_neg (by omega), ?_⟩
  obtain ⟨hnonneg, hlt⟩ := reuse_lt_one hq hh
  have hrange : (0 ≤ reuseBucket q h ∧ reuseBucket q h < 20) ∧
      ((reuseBucket q h : ℚ) / 20 < reuse q h ∨ reuseBucket q h = 0 ∧ reuse q h = 0) ∧
      reuse q h ≤ (reuseBucket q h + 1 : ℚ) / 20 := by
    unfold reuseBucket
    split_ifs with hzero
    · rw [hzero]
      norm_num
    · have hpos : 0 < reuse q h := lt_of_le_of_ne hnonneg (Ne.symm hzero)
      have hceil : ⌈reuse q h / (1 / 20)⌉ ≤ 20 := Int.ceil_le.mpr (by push_cast; linarith)
      have hone : 0 < ⌈reuse q h / (1 / 20)⌉ := Int.ceil_pos.mpr (by linarith)
      have hle := Int.le_ceil (reuse q h / (1 / 20))
      have hge := Int.ceil_lt_add_one (reuse q h / (1 / 20))
      rw [min_eq_left (by omega)]
      push_cast
      refine ⟨⟨by omega, by omega⟩, .inl (by linarith), by linarith⟩
  exact {
    length_range := ⟨le_min (by omega) hc, min_le_right _ _⟩
    lt_length := by
      show 128 * min _ _ < q
      omega
    length_lt := by
      intro hlast
      omega
    reuse_range := hrange.1
    lt_reuse := hrange.2.1
    reuse_le := hrange.2.2 }

def ring (c : OnlinePrefillCostSynopsis) (key : ℤ × ℤ) : SampleRing :=
  (c.buckets key).getD .init

theorem estimate_eq (hk : c.bucketKey q h = .ok key) :
    c.estimate q h = .ok ((c.ring key).estimate q) := by
  simp only [estimate, ring, hk, bind, Except.bind]
  cases c.buckets key <;> rfl

theorem add_holds {l : List (ℤ × ℚ)} (h : (c.ring key).Holds l) {x : CostSample}
    {d : OnlinePrefillCostSynopsis} (hd : c.add x = .ok d) :
    d.bucketKey = c.bucketKey ∧ (d.ring key).Holds ((c.sampleOf key x).toList ++ l) := by
  unfold add at hd
  unfold sampleOf
  cases hk : c.bucketKey x.q x.h with
  | error e => simp [hk, bind, Except.bind] at hd
  | ok k =>
    rw [hk] at hd
    obtain rfl := Except.ok.inj hd
    refine ⟨rfl, ?_⟩
    by_cases hkey : k = key
    · subst hkey
      simpa [ring] using h.add x
    · simpa [ring, update_of_ne (Ne.symm hkey), hkey] using h

theorem addAll_holds {l : List (ℤ × ℚ)} (h : (c.ring key).Holds l) (xs : List CostSample) :
    (c.addAll xs).bucketKey = c.bucketKey ∧
      ((c.addAll xs).ring key).Holds ((xs.filterMap (c.sampleOf key)).reverse ++ l) := by
  induction xs generalizing c l with
  | nil => exact ⟨rfl, h⟩
  | cons x xs ih =>
    unfold addAll
    rw [filterMap_cons]
    cases hd : c.add x with
    | ok d =>
      obtain ⟨hb, hadd⟩ := add_holds h hd
      obtain ⟨hkey, hall⟩ := ih hadd
      have hs : d.sampleOf key = c.sampleOf key := by
        unfold sampleOf
        rw [hb]
      rw [hs] at hall
      refine ⟨hkey.trans hb, ?_⟩
      cases ho : c.sampleOf key x <;> simpa [ho] using hall
    | error e =>
      have hnone : c.sampleOf key x = none := by
        unfold add at hd
        unfold sampleOf
        cases hk : c.bucketKey x.q x.h with
        | error => simp
        | ok k => simp [hk, bind, Except.bind] at hd
      rw [hnone]
      exact ih h

/-- **An estimate is made from the last eight samples of its bucket.** After any samples, the
estimate for a batch is its length times the seconds per token of the last eight valid samples in
the bucket that contains the batch, and there is none exactly when the bucket has no valid sample.
-/
theorem estimate_eq_window (maxBatchTokens : ℤ) (samples : List CostSample) {q h : ℤ}
    (hq : 0 < q) (hh : 0 ≤ h) :
    ∃ key, (init maxBatchTokens).bucketKey q h = .ok key ∧
      (init maxBatchTokens).InBucket key q h ∧
      ((init maxBatchTokens).addAll samples).estimate q h = .ok (
        let window := (samples.filterMap ((init maxBatchTokens).sampleOf key)).rtake 8
        if window = [] then none else some (q * (window.sum.2 / window.sum.1))) := by
  obtain ⟨key, hkey, hin⟩ := inBucket_bucketKey (c := init maxBatchTokens) (le_max_left _ _) hq hh
  refine ⟨key, hkey, hin, ?_⟩
  have hinit : ((init maxBatchTokens).ring key).Holds [] := SampleRing.init_holds
  obtain ⟨hbucket, hholds⟩ := addAll_holds hinit samples
  rw [estimate_eq ((congrFun₂ hbucket q h).trans hkey), hholds.estimate q,
    rtake_eq_reverse_take_reverse]
  simp [sum_reverse]

/-- Two samples in one bucket, one in another, and one that is not valid. -/
def fourSamples : List CostSample :=
  [⟨100, 28, some 1⟩, ⟨300, 28, some 9⟩, ⟨60, 16, some 3⟩, ⟨100, 28, none⟩]

theorem estimate_eq_window_four : ((init 512).addAll fourSamples).estimate 100 28 =
    .ok (some (100 * (4 / 160))) := by
  obtain ⟨key, hkey, -, hest⟩ :=
    estimate_eq_window 512 fourSamples (q := 100) (h := 28) (by decide) (by decide)
  have hk : (init 512).bucketKey 100 28 = .ok (0, 4) := by decide +kernel
  have hwindow : fourSamples.filterMap ((init 512).sampleOf (0, 4)) = [(100, 1), (60, 3)] := by
    decide +kernel
  obtain rfl := Except.ok.inj (hkey.symm.trans hk)
  rw [hest, hwindow]
  decide +kernel

end OnlinePrefillCostSynopsis

end Fluxfer.Hi
