import Mathlib.Data.List.Basic
import Mathlib.Data.List.GetD
import Mathlib.Tactic

/-!
# Radix keys

`RadixKey` of `mem_cache/radix_cache.py`: raw token ids with a namespace tag (`extra_key`) and a
flag that selects the bigram view, in which `n + 1` raw tokens stand for `n` logical units and
slices share one boundary token. `RadixKey.units` is the list of logical units.
-/

namespace Fluxfer.Radix

open List Nat

variable {n ps : Nat}

/-- The errors the modelled cache code can raise. -/
inductive CacheError
  /-- `ValueError` of `RadixKey._check_compatible` -/
  | incompatibleKey
  /-- another `ValueError` -/
  | invalidArgument
  /-- a failed `assert` -/
  | assertion
  /-- a `KeyError` of a dictionary -/
  | missingKey
  /-- a `TypeError` of an operation on `None` -/
  | missingValue
  /-- the `RuntimeError` of an allocation that finds no room -/
  | outOfMemory
  /-- the `RuntimeError` of `release_host` on a node without a host reference -/
  | notProtected
  /-- a loop that does not end -/
  | diverged
deriving DecidableEq, Repr

theorem bind_eq_ok {α β : Type} {x : Except CacheError α} {f : α → Except CacheError β} {b : β}
    (h : (x >>= f) = .ok b) : ∃ a, x = .ok a ∧ f a = .ok b := by
  cases x with
  | error e => cases h
  | ok a => exact ⟨a, rfl, h⟩

theorem bind_of_ok {α β : Type} {x : Except CacheError α} {a : α} (h : x = .ok a)
    (f : α → Except CacheError β) : (x >>= f) = f a := by
  rw [h]
  rfl

/-- A logical unit of a key: a token, or a pair of consecutive tokens. -/
abbrev KeyUnit := Nat × Option Nat

structure RadixKey where
  tokenIds : List Nat
  extraKey : Option String
  isBigram : Bool
deriving DecidableEq, Repr

/-- `child_key` without its namespace. -/
inductive PlainKey
  | token (t : Nat)
  | tokens (ts : List Nat)
  | pair (p : Nat × Nat)
  | pairs (ps : List (Nat × Nat))
deriving DecidableEq, Repr

/-- The dictionary keys of `TreeNode.children`. -/
inductive ChildKey
  | plain (key : PlainKey)
  | namespaced (extra : String) (key : PlainKey)
deriving DecidableEq, Repr

/-- The counting loop over `zip(t0, t1)`. -/
def commonLen {α : Type} [DecidableEq α] : List α → List α → Nat
  | a :: as, b :: bs => if a = b then commonLen as bs + 1 else 0
  | _, _ => 0

/-- The page-wise loop of `match`: `i` moves on while the next pages agree. -/
def pagedLen {α : Type} [DecidableEq α] (pageSize : Nat) (t0 t1 : List α) (minLen : Nat) :
    Nat → Nat → Nat
  | 0, i => i
  | fuel + 1, i =>
    if i < minLen then
      if (t0.drop i).take pageSize ≠ (t1.drop i).take pageSize then i
      else pagedLen pageSize t0 t1 minLen fuel (i + pageSize)
    else i

namespace RadixKey

variable {e : Bool}

def len (k : RadixKey) : Nat := if k.isBigram then k.tokenIds.length - 1 else k.tokenIds.length

def slice (k : RadixKey) (start stop : Nat) : RadixKey :=
  let start := min start k.len
  let stop := min stop k.len
  if k.isBigram then
    { k with
      tokenIds := if start < stop then (k.tokenIds.drop start).take (stop + 1 - start) else [] }
  else { k with tokenIds := (k.tokenIds.drop start).take (stop - start) }

def pageAligned (k : RadixKey) (pageSize : Nat) : RadixKey :=
  if pageSize = 1 then k else k.slice 0 (k.len / pageSize * pageSize)

def toBigramView (k : RadixKey) (isEagle : Bool) : RadixKey :=
  if isEagle && !k.isBigram then { k with isBigram := true } else k

/-- The value part of `maybe_to_bigram_view`: slots are paired with raw tokens, and cut to
the number of bigrams. -/
def bigramValue (k : RadixKey) (isEagle : Bool) (value : List Nat) : List Nat :=
  if isEagle && !k.isBigram then value.take (k.toBigramView isEagle).len else value

/-- `match`, after `_check_compatible`. -/
def matchKey (k other : RadixKey) (pageSize : Nat) : Except CacheError Nat :=
  if k.extraKey ≠ other.extraKey then .error .incompatibleKey
  else if k.isBigram then
    let matched := min (commonLen k.tokenIds other.tokenIds - 1) (min k.len other.len)
    .ok (if 1 < pageSize then matched / pageSize * pageSize else matched)
  else if pageSize = 1 then .ok (commonLen k.tokenIds other.tokenIds)
  else
    let minLen := min k.len other.len
    .ok (pagedLen pageSize k.tokenIds other.tokenIds minLen (minLen + 1) 0)

/-- The first page of the key, as `child_key` spells it. It is only asked of keys of at
least one page, so no read is out of range. -/
def plainKey (k : RadixKey) (pageSize : Nat) : PlainKey :=
  let t := k.tokenIds
  if k.isBigram then
    if pageSize = 1 then .pair (t.getD 0 0, t.getD 1 0)
    else .pairs ((range pageSize).map fun j => (t.getD j 0, t.getD (j + 1) 0))
  else if pageSize = 1 then .token (t.getD 0 0) else .tokens (t.take pageSize)

def childKey (k : RadixKey) (pageSize : Nat) : ChildKey :=
  match k.extraKey with
  | none => .plain (k.plainKey pageSize)
  | some extra => .namespaced extra (k.plainKey pageSize)

/-- `__iter__`: the logical units of the key. -/
def units (k : RadixKey) : List KeyUnit :=
  if k.isBigram then (k.tokenIds.zip k.tokenIds.tail).map fun p => (p.1, some p.2)
  else k.tokenIds.map fun t => (t, none)

/-! ## Length and slices -/

@[simp]
theorem length_units (k : RadixKey) : k.units.length = k.len := by
  unfold units len
  split <;> simp

theorem slice_extraKey (k : RadixKey) (a b : Nat) : (k.slice a b).extraKey = k.extraKey := by
  unfold slice
  split <;> rfl

theorem slice_isBigram (k : RadixKey) (a b : Nat) : (k.slice a b).isBigram = k.isBigram := by
  unfold slice
  split <;> rfl

/-- Consecutive pairs of a window of `n + 1` tokens are a window of `n` pairs. -/
theorem zip_tail_window (t : List Nat) (a n : Nat) :
    ((t.drop a).take (n + 1)).zip ((t.drop a).take (n + 1)).tail =
      ((t.zip t.tail).drop a).take n := by
  apply ext_getElem
  · simp only [length_zip, length_take, length_drop, length_tail]
    omega
  · intro i h1 h2
    simp only [getElem_zip, getElem_take, getElem_drop, getElem_tail]
    rfl

variable (k : RadixKey)
include k

theorem units_slice {a b : Nat} (hab : a ≤ b) (hb : b ≤ k.len) :
    (k.slice a b).units = (k.units.drop a).take (b - a) := by
  have ha : min a k.len = a := by omega
  have hb' : min b k.len = b := by omega
  cases hk : k.isBigram with
  | false =>
    simp only [slice, units, hk, ha, hb', Bool.false_eq_true, if_false, map_take, map_drop]
  | true =>
    simp only [slice, units, hk, ha, hb', if_true]
    by_cases hlt : a < b
    · have hsub : b + 1 - a = b - a + 1 := by omega
      rw [if_pos hlt, hsub, zip_tail_window, ← map_drop, ← map_take]
    · have : b - a = 0 := by omega
      rw [if_neg hlt, this]
      rfl

theorem units_take (hn : n ≤ k.len) : (k.slice 0 n).units = k.units.take n := by
  rw [units_slice k (zero_le n) hn]
  simp

theorem units_drop (hn : n ≤ k.len) : (k.slice n k.len).units = k.units.drop n := by
  rw [units_slice k hn le_rfl]
  simp

theorem len_take (hn : n ≤ k.len) : (k.slice 0 n).len = n := by
  rw [← length_units, units_take k hn, length_take, length_units]
  omega

theorem len_drop (hn : n ≤ k.len) : (k.slice n k.len).len = k.len - n := by
  rw [← length_units, units_drop k hn, length_drop, length_units]

theorem pageAligned_extraKey (ps : Nat) : (k.pageAligned ps).extraKey = k.extraKey := by
  unfold pageAligned
  split
  · rfl
  · exact slice_extraKey _ _ _

theorem pageAligned_isBigram (ps : Nat) : (k.pageAligned ps).isBigram = k.isBigram := by
  unfold pageAligned
  split
  · rfl
  · exact slice_isBigram _ _ _

theorem units_pageAligned (ps : Nat) : (k.pageAligned ps).units = k.units.take (k.len / ps * ps) := by
  unfold pageAligned
  split
  · rename_i h
    rw [h, Nat.div_one, Nat.mul_one, ← length_units, take_length]
  · exact units_take k (div_mul_le_self _ _)

theorem len_pageAligned (ps : Nat) : (k.pageAligned ps).len = k.len / ps * ps := by
  rw [← length_units, units_pageAligned, length_take, length_units]
  have := div_mul_le_self k.len ps
  omega

theorem toBigramView_extraKey (e : Bool) : (k.toBigramView e).extraKey = k.extraKey := by
  unfold toBigramView
  split <;> rfl

theorem toBigramView_of_eq (h : k.isBigram = e) : k.toBigramView e = k := by
  subst h
  unfold toBigramView
  cases k.isBigram <;> simp

theorem bigramValue_of_eq (h : k.isBigram = e) (v : List Nat) : k.bigramValue e v = v := by
  subst h
  unfold bigramValue
  cases k.isBigram <;> simp

theorem toBigramView_isBigram (h : k.isBigram = true → e = true) :
    (k.toBigramView e).isBigram = e := by
  unfold toBigramView
  cases hk : k.isBigram <;> cases e <;> simp_all

end RadixKey

/-! ## Common prefixes -/

section CommonPrefix

variable {α β : Type} [DecidableEq α] [DecidableEq β]

theorem le_commonLen_iff {a b : List α} :
    n ≤ commonLen a b ↔ n ≤ a.length ∧ n ≤ b.length ∧ a.take n = b.take n := by
  induction a generalizing b n with
  | nil => cases n <;> simp [commonLen]
  | cons x xs ih =>
    cases b with
    | nil => cases n <;> simp [commonLen]
    | cons y ys =>
      cases n with
      | zero => simp
      | succ n =>
        by_cases hxy : x = y
        · simp only [commonLen, hxy, if_true, add_le_add_iff_right, ih, length_cons,
            take_succ_cons, cons.injEq, true_and]
        · simp [commonLen, hxy]

theorem commonLen_map {f : α → β} (hf : Function.Injective f) (a b : List α) :
    commonLen (a.map f) (b.map f) = commonLen a b := by
  refine eq_of_forall_le_iff fun n => ?_
  rw [le_commonLen_iff, le_commonLen_iff, length_map, length_map, ← map_take, ← map_take,
    (map_injective_iff.mpr hf).eq_iff]

theorem commonLen_zip_tail (a b : List Nat) :
    commonLen (a.zip a.tail) (b.zip b.tail) = commonLen a b - 1 := by
  induction a generalizing b with
  | nil => simp [commonLen]
  | cons x xs ih =>
    cases b with
    | nil => cases xs <;> simp [commonLen]
    | cons y ys =>
      cases xs with
      | nil => by_cases h : x = y <;> simp [commonLen, h]
      | cons x' xs =>
        cases ys with
        | nil => by_cases h : x = y <;> simp [commonLen, h]
        | cons y' ys =>
          have hrest := ih (y' :: ys)
          simp only [tail_cons, zip_cons_cons, commonLen] at hrest ⊢
          by_cases h : x = y <;> by_cases h' : x' = y' <;> simp_all

theorem take_page_succ {α : Type*} {t0 t1 : List α} {i : Nat} (h : t0.take i = t1.take i)
    (hp : (t0.drop i).take ps = (t1.drop i).take ps) : t0.take (i + ps) = t1.take (i + ps) := by
  rw [take_add, take_add, h, hp]

/-- The page-wise loop counts the common pages. A last partial page counts as well, in full, when
the two sequences are equal. -/
theorem pagedLen_eq (hps : 0 < ps) (t0 t1 : List α) :
    ∀ fuel i, ps ∣ i → i ≤ commonLen t0 t1 → min t0.length t1.length < i + fuel →
      pagedLen ps t0 t1 (min t0.length t1.length) fuel i = commonLen t0 t1 / ps * ps +
        if t0 = t1 ∧ ¬ ps ∣ t0.length then ps else 0 := by
  obtain ⟨hc0, hc1, hcommon⟩ := le_commonLen_iff.mp (le_refl (commonLen t0 t1))
  intro fuel
  induction fuel with
  | zero => intro i _ hi hf; omega
  | succ fuel ih =>
    intro i hd hi hf
    obtain ⟨-, -, heq⟩ := le_commonLen_iff.mp hi
    -- in the last page
    have hlast : commonLen t0 t1 < i + ps → commonLen t0 t1 / ps * ps = i := fun hlt => by
      obtain ⟨a, rfl⟩ := hd
      rw [Nat.mul_comm ps a] at hi hlt ⊢
      rw [Nat.div_eq_of_lt_le hi (by rw [Nat.succ_mul]; exact hlt)]
    unfold pagedLen
    by_cases hlt : i < min t0.length t1.length
    · rw [if_pos hlt]
      by_cases hpage : (t0.drop i).take ps = (t1.drop i).take ps
      · rw [if_neg (not_not.mpr hpage)]
        have htake := take_page_succ heq hpage
        by_cases hle : i + ps ≤ commonLen t0 t1
        · exact ih (i + ps) (hd.add (dvd_refl ps)) hle (by omega)
        · -- both sequences end in this page
          have hlen := congrArg length htake
          have hshort : ¬ (i + ps ≤ t0.length ∧ i + ps ≤ t1.length) := fun h =>
            hle (le_commonLen_iff.mpr ⟨h.1, h.2, htake⟩)
          simp only [length_take] at hlen
          have h0 : t0.length ≤ i + ps := by omega
          have h1 : t1.length ≤ i + ps := by omega
          rw [take_of_length_le h0, take_of_length_le h1] at htake
          subst htake
          rw [min_self] at hlt hf ⊢
          have hnd : ¬ ps ∣ t0.length := fun hdvd => by
            have := le_of_dvd (by omega) (dvd_sub hdvd hd)
            omega
          rw [if_pos ⟨rfl, hnd⟩, hlast (by omega)]
          cases fuel with
          | zero => rfl
          | succ fuel =>
            unfold pagedLen
            rw [if_neg (by omega)]
      · rw [if_pos hpage, if_neg fun h => hpage (by rw [h.1])]
        refine (hlast ?_).symm
        by_contra hge
        refine hpage ?_
        have h := congrArg (fun l => (l.drop i).take ps) hcommon
        simp only [drop_take, take_take] at h
        rwa [min_eq_left (by omega)] at h
    · rw [if_neg hlt, hlast (by omega), if_neg, add_zero]
      rintro ⟨rfl, hnd⟩
      exact hnd (by rwa [show t0.length = i by omega])

theorem plainMatch_eq (hps : 0 < ps) (t0 t1 : List α) :
    (if ps = 1 then .ok (commonLen t0 t1)
      else .ok (pagedLen ps t0 t1 (min t0.length t1.length) (min t0.length t1.length + 1) 0) :
        Except CacheError Nat) =
      .ok (commonLen t0 t1 / ps * ps + if t0 = t1 ∧ ¬ ps ∣ t0.length then ps else 0) := by
  by_cases h1 : ps = 1
  · rw [if_pos h1, if_neg fun h => h.2 (h1 ▸ Nat.one_dvd _), h1, Nat.div_one, Nat.mul_one,
      add_zero]
  · rw [if_neg h1, pagedLen_eq hps _ _ _ 0 (dvd_zero ps) (zero_le _) (by omega)]

end CommonPrefix

/-! ## `match` and `child_key` on logical units -/

namespace RadixKey

variable {k other : RadixKey}

theorem pairUnit_injective :
    Function.Injective fun p : Nat × Nat => ((p.1, some p.2) : KeyUnit) := by
  intro a b h
  obtain ⟨h1, h2⟩ := Prod.mk.inj h
  exact Prod.ext h1 (Option.some.inj h2)

theorem tokenUnit_injective : Function.Injective fun t : Nat => ((t, none) : KeyUnit) :=
  fun _ _ h => (Prod.mk.inj h).1

theorem commonLen_units (hb : k.isBigram = other.isBigram) :
    commonLen k.units other.units = if k.isBigram then commonLen k.tokenIds other.tokenIds - 1
      else commonLen k.tokenIds other.tokenIds := by
  unfold units
  rw [← hb]
  split_ifs
  · rw [commonLen_map pairUnit_injective, commonLen_zip_tail]
  · rw [commonLen_map tokenUnit_injective]

theorem dvd_le_div_mul_iff {m : Nat} (hps : 0 < ps) (hn : ps ∣ n) : n ≤ m / ps * ps ↔ n ≤ m := by
  obtain ⟨a, rfl⟩ := hn
  rw [Nat.mul_comm ps a, Nat.mul_le_mul_right_iff hps, Nat.le_div_iff_mul_le hps]

/-- `match` of compatible keys counts their common pages. For plain keys that are equal, a partial
page at the end is counted in full. -/
theorem matchKey_eq (hps : 0 < ps) (he : k.extraKey = other.extraKey)
    (hb : k.isBigram = other.isBigram) :
    k.matchKey other ps = .ok (commonLen k.units other.units / ps * ps +
      if k.isBigram = false ∧ k.units = other.units ∧ ¬ ps ∣ k.len then ps else 0) := by
  unfold matchKey
  rw [if_neg (not_not.mpr he), commonLen_units hb]
  cases hkb : k.isBigram with
  | true =>
    have hle : commonLen k.tokenIds other.tokenIds - 1 ≤ min k.len other.len := by
      have hcommon := le_commonLen_iff.mp (commonLen_units hb).ge
      simp only [hkb, length_units] at hcommon
      exact le_min hcommon.1 hcommon.2.1
    simp only [if_true, min_eq_left hle, Bool.true_eq_false, false_and, if_false, add_zero]
    split_ifs with h1
    · rfl
    · rw [show ps = 1 by omega, Nat.div_one, Nat.mul_one]
  | false =>
    have hklen : k.len = k.tokenIds.length := by simp [len, hkb]
    have holen : other.len = other.tokenIds.length := by simp [len, ← hb, hkb]
    have hunits : k.units = other.units ↔ k.tokenIds = other.tokenIds := by
      simp only [units, ← hb, hkb]
      exact (map_injective_iff.mpr tokenUnit_injective).eq_iff
    simp only [true_and, hunits, hklen, holen]
    exact plainMatch_eq hps _ _

/-- `match` of compatible page-aligned keys finds the longest common run of pages. -/
theorem matchKey_spec (hps : 0 < ps) (he : k.extraKey = other.extraKey)
    (hb : k.isBigram = other.isBigram) (hk : ps ∣ k.len) :
    ∃ m, k.matchKey other ps = .ok m ∧ ps ∣ m ∧
      ∀ n, ps ∣ n →
        (n ≤ m ↔ n ≤ k.len ∧ n ≤ other.len ∧ k.units.take n = other.units.take n) := by
  refine ⟨_, matchKey_eq hps he hb, ?_, fun n hn => ?_⟩
  · exact (Dvd.intro_left _ rfl).add (by split_ifs <;> simp)
  · rw [if_neg fun h => h.2.2 hk, add_zero, dvd_le_div_mul_iff hps hn, le_commonLen_iff,
      length_units, length_units]

theorem bigram_page {t : List Nat} (h : ps + 1 ≤ t.length) :
    ((range ps).map fun j => (t.getD j 0, t.getD (j + 1) 0)) = (t.zip t.tail).take ps := by
  apply ext_getElem
  · simp only [length_map, length_range, length_take, length_zip, length_tail]
    omega
  · intro i h1 h2
    simp only [length_map, length_range] at h1
    rw [getElem_map, getElem_range, getElem_take, getElem_zip, getElem_tail,
      getD_eq_getElem _ _ (by omega), getD_eq_getElem _ _ (by omega)]

theorem childKey_eq_iff_plainKey :
    k.childKey ps = other.childKey ps ↔
      k.extraKey = other.extraKey ∧ k.plainKey ps = other.plainKey ps := by
  unfold childKey
  cases k.extraKey <;> cases other.extraKey <;> simp

theorem plainKey_eq_iff (hps : 0 < ps) (hb : k.isBigram = other.isBigram) (hk : ps ≤ k.len)
    (ho : ps ≤ other.len) :
    k.plainKey ps = other.plainKey ps ↔ k.units.take ps = other.units.take ps := by
  cases hkb : k.isBigram with
  | true =>
    have hob : other.isBigram = true := by rw [← hb, hkb]
    simp only [len, hkb, hob, if_true] at hk ho
    simp only [units, hkb, hob, if_true, ← map_take, plainKey]
    rw [← bigram_page (by omega),
      ← bigram_page (by omega)]
    by_cases h1 : ps = 1
    · subst h1
      simp
    · simp [h1]
  | false =>
    have hob : other.isBigram = false := by rw [← hb, hkb]
    simp only [len, hob, Bool.false_eq_true, if_false] at hk ho
    simp only [units, hkb, hob, Bool.false_eq_true, if_false, ← map_take, plainKey]
    rw [(map_injective_iff.mpr tokenUnit_injective).eq_iff]
    by_cases h1 : ps = 1
    · subst h1
      match hkt : k.tokenIds, hot : other.tokenIds with
      | a :: _, b :: _ => simp
      | [], _ => simp [hkt] at hk
      | _, [] => simp [hot] at ho
    · simp [h1]

/-- Two keys of one kind and at least one page meet in the same dictionary entry exactly
when they are of one namespace and start with the same page. -/
theorem childKey_eq_iff (hps : 0 < ps) (hb : k.isBigram = other.isBigram) (hk : ps ≤ k.len)
    (ho : ps ≤ other.len) :
    k.childKey ps = other.childKey ps ↔
      k.extraKey = other.extraKey ∧ k.units.take ps = other.units.take ps := by
  rw [childKey_eq_iff_plainKey, plainKey_eq_iff hps hb hk ho]

end RadixKey

end Fluxfer.Radix
