import Fluxfer.Radix.Key

/-!
# The bigram view as a key over pairs

A key in the bigram view never builds its pairs: it slices and compares raw tokens, one more than it
has units. Here it is compared with the plain key over its list of pairs, after any nesting of
slices and page alignments.
-/

namespace Fluxfer.Radix

open List Option Nat

/-- `idx.indices(len)` for one bound of a slice with step 1. -/
def sliceIndex (len default : Nat) : Option Int → Nat
  | none => default
  | some i => min (if i < 0 then i + len else i).toNat len

/-- What makes a key out of a key. -/
inductive KeyOp
  | slice (start stop : Option Int)
  | item (idx : Int)
  | pageAligned (pageSize : Nat)
deriving DecidableEq, Repr

/-- The range of units that an operation takes, and `none` where it raises. -/
def KeyOp.bounds (len : Nat) : KeyOp → Option (Nat × Nat)
  | .slice start stop => some (sliceIndex len 0 start, sliceIndex len len stop)
  | .item idx =>
    let idx := if idx < 0 then idx + len else idx
    if idx < 0 ∨ len ≤ idx then none else some (idx.toNat, idx.toNat + 1)
  | .pageAligned pageSize => if pageSize = 0 then none else some (0, len / pageSize * pageSize)

theorem sliceIndex_le {len d : Nat} (h : d ≤ len) (i : Option Int) : sliceIndex len d i ≤ len := by
  cases i with
  | none => exact h
  | some i => exact min_le_right _ _

theorem KeyOp.bounds_le {op : KeyOp} {len a b : Nat} (h : op.bounds len = some (a, b)) :
    a ≤ len ∧ b ≤ len := by
  cases op with
  | slice start stop =>
    cases h
    exact ⟨sliceIndex_le (zero_le _) _, sliceIndex_le le_rfl _⟩
  | item idx =>
    simp only [bounds] at h
    split_ifs at h <;> (cases h; omega)
  | pageAligned ps =>
    simp only [bounds] at h
    split_ifs at h
    cases h
    exact ⟨zero_le _, div_mul_le_self _ _⟩

/-- A plain key over units of any type. -/
@[ext]
structure UnitKey (α : Type) where
  tokenIds : List α
  extraKey : Option String
deriving DecidableEq, Repr

namespace UnitKey

variable {α : Type}

/-- `__getitem__` and `page_aligned` -/
def apply (k : UnitKey α) (op : KeyOp) : Option (UnitKey α) :=
  (op.bounds k.tokenIds.length).map fun r =>
    { k with tokenIds := (k.tokenIds.drop r.1).take (r.2 - r.1) }

def matchKey [DecidableEq α] (k other : UnitKey α) (pageSize : Nat) : Except CacheError Nat :=
  if k.extraKey ≠ other.extraKey then .error .incompatibleKey
  else if pageSize = 1 then .ok (commonLen k.tokenIds other.tokenIds)
  else
    let minLen := min k.tokenIds.length other.tokenIds.length
    .ok (pagedLen pageSize k.tokenIds other.tokenIds minLen (minLen + 1) 0)

/-- `child_key`, where `one` and `page` spell a unit and a tuple of units. -/
def childKey (one : α → PlainKey) (page : List α → PlainKey) (k : UnitKey α) (pageSize : Nat) :
    Option ChildKey :=
  let plain := if pageSize = 1 then k.tokenIds.head?.map one
    else some (page (k.tokenIds.take pageSize))
  plain.map fun key => k.extraKey.elim (.plain key) fun extra => .namespaced extra key

/-- `hash_page`, where `feed` gives the numbers that are hashed for a unit. -/
def hashPage (feed : α → List Nat) (sha : Option String → List Nat → String) (k : UnitKey α)
    (start stop : Nat) (prior : Option String) : Option String :=
  ((range' start (stop - start)).mapM fun j => k.tokenIds[j]?.map feed).map fun fed =>
    sha prior fed.flatten

end UnitKey

namespace RadixKey

variable {k k' other : RadixKey} {ps : Nat}

/-- `__getitem__` and `page_aligned` -/
def apply (k : RadixKey) : KeyOp → Option RadixKey
  | .pageAligned pageSize => if pageSize = 0 then none else some (k.pageAligned pageSize)
  | op => (op.bounds k.len).map fun r => k.slice r.1 r.2

/-- `child_key` with its reads out of range. -/
def childKey? (k : RadixKey) (pageSize : Nat) : Option ChildKey :=
  if (k.isBigram = true ∨ pageSize = 1) ∧ k.len < pageSize then none else some (k.childKey pageSize)

/-- `hash_page`; `sha` hashes the bytes of numbers of fixed width. -/
def hashPage (sha : Option String → List Nat → String) (k : RadixKey) (start stop : Nat)
    (prior : Option String) : Option String :=
  let t := k.tokenIds
  ((range' start (stop - start)).mapM fun j =>
    if k.isBigram then do
      let a ← t[j]?
      let b ← t[j + 1]?
      some [a, b]
    else t[j]?.map fun a => [a]).map fun fed => sha prior fed.flatten

/-- The list of consecutive token pairs, as a plain key. -/
def pairs (k : RadixKey) : UnitKey (Nat × Nat) := ⟨k.tokenIds.zip k.tokenIds.tail, k.extraKey⟩

section

variable (hk : k.isBigram = true)
include hk

theorem units_eq_pairs : k.units = k.pairs.tokenIds.map fun p => (p.1, some p.2) := by
  rw [units, if_pos hk, pairs]

theorem length_pairs : k.pairs.tokenIds.length = k.len := by
  rw [← length_units, units_eq_pairs hk, length_map]

theorem pairs_tokenIds_eq_iff (ho : other.isBigram = true) :
    k.pairs.tokenIds = other.pairs.tokenIds ↔ k.units = other.units := by
  rw [units_eq_pairs hk, units_eq_pairs ho, (map_injective_iff.mpr pairUnit_injective).eq_iff]

theorem pairs_slice {a b : Nat} (ha : a ≤ k.len) (hb : b ≤ k.len) :
    (k.slice a b).pairs = ⟨(k.pairs.tokenIds.drop a).take (b - a), k.extraKey⟩ := by
  have hs := (slice_isBigram k a b).trans hk
  ext1
  · refine (map_injective_iff.mpr pairUnit_injective) ?_
    rw [← units_eq_pairs hs, map_take, map_drop, ← units_eq_pairs hk]
    rcases Nat.le_total a b with hab | hab
    · exact units_slice k hab hb
    · have hle : ¬ min a k.len < min b k.len := by omega
      simp only [slice, hk, if_true, if_neg hle, Nat.sub_eq_zero_of_le hab, take_zero]
      rfl
  · exact slice_extraKey k a b

theorem apply_pairs (op : KeyOp) : (k.apply op).map pairs = k.pairs.apply op := by
  have hslice : ((op.bounds k.len).map fun r => k.slice r.1 r.2).map pairs = k.pairs.apply op := by
    rw [UnitKey.apply, length_pairs hk]
    cases hr : op.bounds k.len with
    | none => rfl
    | some r =>
      obtain ⟨ha, hb⟩ := KeyOp.bounds_le hr
      exact congrArg some (pairs_slice hk ha hb)
  cases op with
  | slice start stop => exact hslice
  | item idx => exact hslice
  | pageAligned ps =>
    rw [← hslice]
    simp only [apply, KeyOp.bounds]
    split_ifs
    · rfl
    · refine congrArg some ?_
      have hb := div_mul_le_self k.len ps
      ext1
      · rw [pairs_tokenIds_eq_iff ((pageAligned_isBigram k ps).trans hk)
          ((slice_isBigram k _ _).trans hk), units_pageAligned, units_take k hb]
      · exact (pageAligned_extraKey k ps).trans (slice_extraKey k _ _).symm

end

theorem apply_isBigram {op : KeyOp} (h : k.apply op = some k') : k'.isBigram = k.isBigram := by
  have hslice : (op.bounds k.len).map (fun r => k.slice r.1 r.2) = some k' →
      k'.isBigram = k.isBigram := fun h => by
    obtain ⟨r, -, rfl⟩ := map_eq_some_iff.mp h
    exact slice_isBigram k _ _
  cases op with
  | slice start stop => exact hslice h
  | item idx => exact hslice h
  | pageAligned ps =>
    simp only [apply] at h
    split_ifs at h
    cases h
    exact pageAligned_isBigram k ps

theorem applyAll_pairs (hk : k.isBigram = true) (ops : List KeyOp) :
    (ops.foldlM apply k).map pairs = ops.foldlM UnitKey.apply k.pairs ∧
      ∀ k', ops.foldlM apply k = some k' → k'.isBigram = true := by
  induction ops generalizing k with
  | nil => exact ⟨rfl, fun k' h => some.inj h ▸ hk⟩
  | cons op ops ih =>
    rw [foldlM_cons, foldlM_cons, ← apply_pairs hk op]
    cases h : k.apply op with
    | none =>
      refine ⟨rfl, fun k' h => ?_⟩
      cases h
    | some k1 => exact ih ((apply_isBigram h).trans hk)

theorem hashPage_pairs (hk : k.isBigram = true) (sha : Option String → List Nat → String)
    (start stop : Nat) (prior : Option String) :
    k.hashPage sha start stop prior =
      k.pairs.hashPage (fun p => [p.1, p.2]) sha start stop prior := by
  refine congrArg (Option.map _) (congrArg (fun f => mapM f _) (funext fun j => ?_))
  simp only [hk, pairs, zip, getElem?_zipWith, getElem?_tail]
  cases k.tokenIds[j]? with
  | none => rfl
  | some a => cases k.tokenIds[j + 1]? <;> rfl

/-- `child_key` of the view raises on a key that is shorter than a page. -/
theorem childKey?_eq_iff (hk : k.isBigram = true) :
    k.childKey? ps = k.pairs.childKey .pair .pairs ps ↔ ps = 1 ∨ ps ≤ k.len := by
  have hlen := length_pairs hk
  unfold childKey? UnitKey.childKey
  by_cases hle : ps ≤ k.len
  · have htok : ps + 1 ≤ k.tokenIds.length ∨ ps = 0 := by
      simp only [len, hk, if_true] at hle
      omega
    have hplain : (if ps = 1 then k.pairs.tokenIds.head?.map PlainKey.pair
        else some (.pairs (k.pairs.tokenIds.take ps))) = some (k.plainKey ps) := by
      have hpage : ((range ps).map fun j => (k.tokenIds.getD j 0, k.tokenIds.getD (j + 1) 0)) =
          k.pairs.tokenIds.take ps := by
        rcases htok with htok | rfl
        · exact bigram_page htok
        · rfl
      simp only [plainKey]
      split_ifs with h1
      · subst h1
        have hhead := congrArg head? hpage
        rw [head?_take, if_neg one_ne_zero] at hhead
        rw [← hhead]
        rfl
      · rw [hpage]
    rw [if_neg fun h => absurd h.2 (not_lt.mpr hle), hplain]
    refine iff_of_true ?_ (.inr hle)
    unfold childKey
    rw [pairs]
    cases k.extraKey <;> rfl
  · rw [if_pos ⟨.inl hk, Nat.lt_of_not_le hle⟩]
    by_cases h1 : ps = 1
    · have hnil : k.pairs.tokenIds = [] := eq_nil_of_length_eq_zero (by omega)
      rw [if_pos h1, hnil]
      exact iff_of_true rfl (.inl h1)
    · rw [if_neg h1]
      exact iff_of_false (some_ne_none _).symm (by tauto)

theorem matchKey_pairs (hps : 0 < ps) (hk : k.isBigram = true) (ho : other.isBigram = true) :
    k.matchKey other ps = k.pairs.matchKey other.pairs ps ↔
      k.extraKey ≠ other.extraKey ∨ k.pairs.tokenIds ≠ other.pairs.tokenIds ∨ ps ∣ k.len := by
  by_cases he : k.extraKey = other.extraKey
  · have hcommon : commonLen k.units other.units =
        commonLen k.pairs.tokenIds other.pairs.tokenIds := by
      rw [units_eq_pairs hk, units_eq_pairs ho, commonLen_map pairUnit_injective]
    have hplain : k.pairs.matchKey other.pairs ps = .ok (commonLen k.units other.units / ps * ps +
        if k.pairs.tokenIds = other.pairs.tokenIds ∧ ¬ ps ∣ k.len then ps else 0) := by
      have he' : k.pairs.extraKey = other.pairs.extraKey := he
      rw [UnitKey.matchKey, if_neg (not_not.mpr he'), hcommon, ← length_pairs hk]
      exact plainMatch_eq hps _ _
    rw [matchKey_eq hps he (hk.trans ho.symm), hplain, if_neg (by simp [hk]),
      Except.ok.injEq]
    split_ifs with h
    · exact iff_of_false (by omega) (by tauto)
    · exact iff_of_true rfl (by tauto)
  · have he' : k.pairs.extraKey ≠ other.pairs.extraKey := he
    rw [matchKey, UnitKey.matchKey, if_pos he, if_pos he']
    exact iff_of_true rfl (.inl he)

/-- Two bigram keys match on `n` positions when `n + 1` tokens agree. -/
theorem matchKey_tokens {n : Nat} (hk : k.isBigram = true) (ho : other.isBigram = true)
    (he : k.extraKey = other.extraKey) (hn : 0 < n) :
    (∃ m, k.matchKey other 1 = .ok m ∧ n ≤ m) ↔
      n < k.tokenIds.length ∧ n < other.tokenIds.length ∧
        k.tokenIds.take (n + 1) = other.tokenIds.take (n + 1) := by
  rw [matchKey_eq one_pos he (hk.trans ho.symm), commonLen_units (hk.trans ho.symm), if_pos hk,
    if_neg fun h => h.2.2 (Nat.one_dvd _), Nat.div_one, Nat.mul_one, Nat.add_zero]
  have hle : n ≤ commonLen k.tokenIds other.tokenIds - 1 ↔
      n + 1 ≤ commonLen k.tokenIds other.tokenIds := by omega
  rw [← succ_le_iff, ← succ_le_iff, ← le_commonLen_iff, ← hle]
  constructor
  · rintro ⟨_, hm, h⟩
    exact Except.ok.inj hm ▸ h
  · exact fun h => ⟨_, rfl, h⟩

/-- The bigram view after any slices and page alignments is the plain key over pairs after the same
ones: in length, units, hashes, and wherever they are cut again. Their `match` differs on equal keys
with a partial last page, and their `child_key` on keys shorter than a page, and nowhere else. -/
theorem bigram_view_refines (k : RadixKey) (hk : k.isBigram = true) (ops : List KeyOp) :
    (ops.foldlM apply k).map pairs = ops.foldlM UnitKey.apply k.pairs ∧
      ∀ k', ops.foldlM apply k = some k' →
        k'.len = k'.pairs.tokenIds.length ∧
        (∀ sha start stop prior, k'.hashPage sha start stop prior =
          k'.pairs.hashPage (fun p => [p.1, p.2]) sha start stop prior) ∧
        (∀ n ≤ k'.len, (k'.slice 0 n).pairs.tokenIds ++ (k'.slice n k'.len).pairs.tokenIds =
          k'.pairs.tokenIds) ∧
        (∀ ps, k'.childKey? ps = k'.pairs.childKey .pair .pairs ps ↔ ps = 1 ∨ ps ≤ k'.len) ∧
        ∀ other : RadixKey, other.isBigram = true →
          (∀ ps, 0 < ps → (k'.matchKey other ps = k'.pairs.matchKey other.pairs ps ↔
            k'.extraKey ≠ other.extraKey ∨ k'.pairs.tokenIds ≠ other.pairs.tokenIds ∨
              ps ∣ k'.len)) ∧
          (k'.extraKey = other.extraKey → ∀ n, 0 < n →
            ((∃ m, k'.matchKey other 1 = .ok m ∧ n ≤ m) ↔
              n < k'.tokenIds.length ∧ n < other.tokenIds.length ∧
                k'.tokenIds.take (n + 1) = other.tokenIds.take (n + 1))) := by
  obtain ⟨hall, hbigram⟩ := applyAll_pairs hk ops
  refine ⟨hall, fun k' hrun => ?_⟩
  have hk' := hbigram k' hrun
  refine ⟨(length_pairs hk').symm, hashPage_pairs hk', fun n hn => ?_, fun ps => childKey?_eq_iff hk',
    fun other ho => ⟨fun ps hps => matchKey_pairs hps hk' ho, fun he n hn =>
      matchKey_tokens hk' ho he hn⟩⟩
  rw [pairs_slice hk' (Nat.zero_le _) hn, pairs_slice hk' hn le_rfl, Nat.sub_zero, drop_zero,
    ← length_pairs hk', ← length_drop, take_length, take_append_drop]

theorem bigram_view_refines_four :
    (⟨[1, 2, 3, 4], none, true⟩ : RadixKey).isBigram = true ∧
      ([.slice (some 1) none, .pageAligned 2].foldlM apply ⟨[1, 2, 3, 4], none, true⟩).map pairs =
        [.slice (some 1) none, .pageAligned 2].foldlM UnitKey.apply
          (pairs ⟨[1, 2, 3, 4], none, true⟩) :=
  ⟨rfl, (bigram_view_refines ⟨[1, 2, 3, 4], none, true⟩ rfl _).1⟩

/-- Three pairs and pages of two: the plain key over the pairs matches itself on four, and pages of
four have a short first page. -/
theorem bigram_view_partial_page :
    (⟨[1, 2, 3, 4], none, true⟩ : RadixKey).matchKey ⟨[1, 2, 3, 4], none, true⟩ 2 = .ok 2 ∧
      (pairs ⟨[1, 2, 3, 4], none, true⟩).matchKey (pairs ⟨[1, 2, 3, 4], none, true⟩) 2 = .ok 4 ∧
      (⟨[1, 2, 3, 4], none, true⟩ : RadixKey).childKey? 4 = none ∧
      (pairs ⟨[1, 2, 3, 4], none, true⟩).childKey .pair .pairs 4 =
        some (.plain (.pairs [(1, 2), (2, 3), (3, 4)])) := by
  decide

end RadixKey

end Fluxfer.Radix
