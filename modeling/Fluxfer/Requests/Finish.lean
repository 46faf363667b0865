import Mathlib.Tactic

/-!
# When a request is finished

`check_finished` of `Req` (`managers/schedule_batch.py`), for requests without stop strings and
without grammar. The verify phase (`eagle_info.py`, `ngram_info.py`) appends accepted tokens one by
one, with a check after each (`acceptEach`); `process_batch_result_decode` appends all of them and
checks once (`acceptAll`).
-/

namespace Fluxfer.Requests

open List Option Nat Prod

/-- The subclasses of `BaseFinishReason` that are used here. -/
inductive FinishReason
  | matchedToken (matched : Int)
  | matchedStr (matched : String)
  | length (length : Nat)
  | abort (message : String)
deriving DecidableEq

structure Tokenizer where
  eosTokenId : Option Int
  additionalStopTokenIds : List Int

/-- The fields of `Req` that decide when it is finished. A set of token ids is listed in the order
of its iteration. -/
structure GenReq where
  outputIds : List Int
  maxNewTokens : Nat
  ignoreEos : Bool
  stopTokenIds : List Int
  eosTokenIds : List Int
  tokenizer : Option Tokenizer
  vocabSize : Int
  toFinish : Option FinishReason
  finishedReason : Option FinishReason
  finishedLen : Option Nat

namespace GenReq

def finished (r : GenReq) : Bool := r.finishedReason.isSome

def outputIdsThroughStop (r : GenReq) : List Int :=
  match r.finishedLen with
  | some n => r.outputIds.take n
  | none => r.outputIds

/-- `matched_eos` for one token. -/
def matchesEos (r : GenReq) (tokenId : Int) : Bool :=
  tokenId ∈ r.stopTokenIds || tokenId ∈ r.eosTokenIds ||
    match r.tokenizer with
    | none => false
    | some z => some tokenId == z.eosTokenId || tokenId ∈ z.additionalStopTokenIds

/-- The loop of `_check_token_based_finish`; the new tokens begin at `offset`. -/
def tokenLoop (r : GenReq) (offset : Nat) : Nat → List Int → Option GenReq
  | _, [] => none
  | i, tokenId :: rest =>
    if r.matchesEos tokenId then
      some { r with
        finishedReason := some (.matchedToken tokenId)
        finishedLen := some (offset + i + 1) }
    else tokenLoop r offset (i + 1) rest

/-- `_check_token_based_finish`, with the changed request when it returns `True`. -/
def checkTokenBasedFinish (r : GenReq) (newAcceptedTokens : List Int) : Option GenReq :=
  if r.ignoreEos then none
  else r.tokenLoop (r.outputIds.length - newAcceptedTokens.length) 0 newAcceptedTokens

def outsideVocab (r : GenReq) (tokenId : Int) : Bool := r.vocabSize < tokenId || tokenId < 0

/-- The token at `i` is replaced by some stop token. -/
def patchOutput (r : GenReq) (i : Nat) : List Int :=
  let ids := match r.stopTokenIds with
    | [] => r.outputIds
    | t :: _ => r.outputIds.set i t
  match r.eosTokenIds with
  | [] => ids
  | t :: _ => ids.set i t

def vocabLoop (r : GenReq) (offset : Nat) : Nat → List Int → Option GenReq
  | _, [] => none
  | i, tokenId :: rest =>
    if r.outsideVocab tokenId then
      some { r with
        outputIds := r.patchOutput (offset + i)
        finishedReason := some (.matchedStr "NaN happened")
        finishedLen := some (offset + i + 1) }
    else vocabLoop r offset (i + 1) rest

def checkVocabBoundaryFinish (r : GenReq) (newAcceptedTokens : List Int) : Option GenReq :=
  r.vocabLoop (r.outputIds.length - newAcceptedTokens.length) 0 newAcceptedTokens

def lastTokens (r : GenReq) (k : Nat) : List Int :=
  if k = 0 then r.outputIds else r.outputIds.drop (r.outputIds.length - k)

def checkFinished (r : GenReq) (newAcceptedLen : Nat) : GenReq :=
  if r.finished then r
  else
    match r.toFinish with
    | some reason => { r with finishedReason := some reason, toFinish := none }
    | none =>
      if r.maxNewTokens ≤ r.outputIds.length then
        { r with
          finishedReason := some (.length r.maxNewTokens)
          finishedLen := some r.maxNewTokens }
      else
        let newAcceptedTokens := r.lastTokens newAcceptedLen
        match r.checkTokenBasedFinish newAcceptedTokens with
        | some r' => r'
        | none => (r.checkVocabBoundaryFinish newAcceptedTokens).getD r

def extend (r : GenReq) (tokens : List Int) : GenReq :=
  { r with outputIds := r.outputIds ++ tokens }

/-- All tokens are appended, and one check is made. -/
def acceptAll (r : GenReq) (tokens : List Int) : GenReq :=
  (r.extend tokens).checkFinished tokens.length

/-- The tokens are appended one by one, with a check after each, up to the first finish. -/
def acceptEach (r : GenReq) : List Int → GenReq
  | [] => r
  | t :: ts =>
    let r := (r.extend [t]).checkFinished 1
    if r.finished then r else acceptEach r ts

/-! ## One token -/

/-- A token at which the request stops. -/
def stops (r : GenReq) (tokenId : Int) : Bool := !r.ignoreEos && r.matchesEos tokenId

/-- A token at which nothing happens. -/
def Inert (r : GenReq) (tokenId : Int) : Prop :=
  r.stops tokenId = false ∧ r.outsideVocab tokenId = false

/-- The request goes on, and nobody has asked it to finish. -/
structure Going (r : GenReq) : Prop where
  running : r.finishedReason = none
  asked : r.toFinish = none

variable {r : GenReq} {t : Int} {ts tokens : List Int}

/-- The first token that is hit, with its position. -/
def scan (hit : Int → Bool) (out : Nat → Int → GenReq) : Nat → List Int → Option GenReq
  | _, [] => none
  | i, t :: ts => if hit t then some (out i t) else scan hit out (i + 1) ts

section Scan

variable {hit : Int → Bool} {out : Nat → Int → GenReq}

theorem scan_succ (i : Nat) (ts : List Int) :
    scan hit (fun j => out (j + 1)) i ts = scan hit out (i + 1) ts := by
  induction ts generalizing i with
  | nil => rfl
  | cons t ts ih =>
    unfold scan
    rw [ih]

theorem scan_eq_none {i : Nat} (h : ∀ t ∈ ts, hit t = false) : scan hit out i ts = none := by
  induction ts generalizing i with
  | nil => rfl
  | cons t ts ih =>
    unfold scan
    rw [h t mem_cons_self]
    exact ih fun x hx => h x (mem_cons_of_mem _ hx)

theorem exists_scan (out : Nat → Int → GenReq) (i : Nat) (h : ∃ t ∈ ts, hit t = true) :
    ∃ n t, scan hit out i ts = some (out n t) := by
  induction ts generalizing i with
  | nil =>
    obtain ⟨t, ht, _⟩ := h
    exact absurd ht not_mem_nil
  | cons x ts ih =>
    unfold scan
    by_cases hx : hit x = true
    · rw [if_pos hx]
      exact ⟨i, x, rfl⟩
    · rw [if_neg hx]
      obtain ⟨t, ht, hm⟩ := h
      rcases mem_cons.mp ht with rfl | ht
      · exact absurd hm hx
      · exact ih _ ⟨t, ht, hm⟩

end Scan

/-- The request that stops at the token `t`, the one at `n`. -/
def stoppedAt (r : GenReq) (n : Nat) (t : Int) : GenReq :=
  { r with finishedReason := some (.matchedToken t), finishedLen := some (n + 1) }

/-- The request that stops at the token at `n`, which is outside of the vocabulary. -/
def patchedAt (r : GenReq) (n : Nat) : GenReq :=
  { r with
    outputIds := r.patchOutput n
    finishedReason := some (.matchedStr "NaN happened")
    finishedLen := some (n + 1) }

theorem tokenLoop_eq (r : GenReq) (offset i : Nat) (ts : List Int) :
    r.tokenLoop offset i ts = scan r.matchesEos (fun j => r.stoppedAt (offset + j)) i ts := by
  induction ts generalizing i with
  | nil => rfl
  | cons t ts ih =>
    unfold tokenLoop scan
    rw [ih]
    rfl

theorem vocabLoop_eq (r : GenReq) (offset i : Nat) (ts : List Int) :
    r.vocabLoop offset i ts = scan r.outsideVocab (fun j _ => r.patchedAt (offset + j)) i ts := by
  induction ts generalizing i with
  | nil => rfl
  | cons t ts ih =>
    unfold vocabLoop scan
    rw [ih]
    rfl

/-- What the two loops find in new tokens that begin at `offset`. -/
def found (r : GenReq) (offset i : Nat) (ts : List Int) : GenReq :=
  ((scan r.stops (fun j => r.stoppedAt (offset + j)) i ts).orElse fun _ =>
    scan r.outsideVocab (fun j _ => r.patchedAt (offset + j)) i ts).getD r

theorem found_eq (r : GenReq) (offset i : Nat) (ts : List Int) :
    (match (if r.ignoreEos then none else r.tokenLoop offset i ts) with
      | some r' => r'
      | none => (r.vocabLoop offset i ts).getD r) = r.found offset i ts := by
  rw [found, tokenLoop_eq, vocabLoop_eq]
  have hstops : r.stops = fun t => !r.ignoreEos && r.matchesEos t := rfl
  cases he : r.ignoreEos with
  | true =>
    have hnone : scan r.stops (fun j => r.stoppedAt (offset + j)) i ts = none :=
      scan_eq_none fun t _ => by rw [hstops, he]; rfl
    rw [hnone]
    rfl
  | false =>
    have hsame : r.stops = r.matchesEos := by
      rw [hstops, he]
      rfl
    rw [hsame]
    cases scan r.matchesEos (fun j => r.stoppedAt (offset + j)) i ts <;> rfl

theorem found_inert {offset : Nat} {i : Nat} (h : ∀ t ∈ ts, r.Inert t) : r.found offset i ts = r := by
  rw [found, scan_eq_none fun t ht => (h t ht).1, scan_eq_none fun t ht => (h t ht).2]
  rfl

theorem exists_found (offset i : Nat) (h : ∃ t ∈ ts, r.stops t = true) :
    ∃ n t, r.found offset i ts = r.stoppedAt n t := by
  obtain ⟨n, t, hs⟩ := exists_scan (fun j => r.stoppedAt (offset + j)) i h
  refine ⟨offset + n, t, ?_⟩
  rw [found, hs]
  rfl

theorem lastTokens_extend (r : GenReq) (h : ts ≠ []) : (r.extend ts).lastTokens ts.length = ts := by
  have hpos : ts.length ≠ 0 := fun e => h (eq_nil_of_length_eq_zero e)
  unfold lastTokens extend
  rw [if_neg hpos, length_append, Nat.add_sub_cancel, drop_left]

theorem finished_of_running (h : r.finishedReason = none) : r.finished = false := by
  rw [finished, h]
  rfl

theorem Going.extend (hg : r.Going) (ts : List Int) : (r.extend ts).Going :=
  ⟨hg.running, hg.asked⟩

theorem checkFinished_eq (hg : r.Going) (k : Nat) : r.checkFinished k =
    if r.maxNewTokens ≤ r.outputIds.length then
      { r with
        finishedReason := some (.length r.maxNewTokens)
        finishedLen := some r.maxNewTokens }
    else r.found (r.outputIds.length - (r.lastTokens k).length) 0 (r.lastTokens k) := by
  unfold checkFinished
  rw [finished_of_running hg.running, hg.asked, ← found_eq]
  rfl

theorem acceptAll_of_length (hg : r.Going)
    (hlen : r.maxNewTokens ≤ r.outputIds.length + ts.length) : r.acceptAll ts =
      { r.extend ts with
        finishedReason := some (.length r.maxNewTokens)
        finishedLen := some r.maxNewTokens } := by
  rw [acceptAll, checkFinished_eq (hg.extend ts), if_pos]
  · rfl
  · show r.maxNewTokens ≤ (r.outputIds ++ ts).length
    rwa [length_append]

theorem acceptAll_of_lt (hg : r.Going) (hts : ts ≠ [])
    (hlt : r.outputIds.length + ts.length < r.maxNewTokens) : r.acceptAll ts =
      (r.extend ts).found r.outputIds.length 0 ts := by
  have hlen : (r.extend ts).outputIds.length = r.outputIds.length + ts.length := length_append
  rw [acceptAll, checkFinished_eq (hg.extend ts), lastTokens_extend r hts, hlen, Nat.add_sub_cancel]
  exact if_neg (Nat.not_le_of_lt hlt)

theorem extend_extend (r : GenReq) (l k : List Int) : (r.extend l).extend k = r.extend (l ++ k) := by
  unfold extend
  rw [append_assoc]

theorem acceptAll_cons (hg : r.Going) (ht : r.Inert t)
    (hts : ts ≠ []) : r.acceptAll (t :: ts) = (r.extend [t]).acceptAll ts := by
  have hext : (r.extend [t]).extend ts = r.extend (t :: ts) := extend_extend r [t] ts
  have hlen : (r.extend [t]).outputIds.length = r.outputIds.length + 1 := length_append
  have hmax : (r.extend [t]).maxNewTokens = r.maxNewTokens := rfl
  by_cases hle : r.maxNewTokens ≤ r.outputIds.length + (t :: ts).length
  · rw [acceptAll_of_length hg hle, acceptAll_of_length (hg.extend [t]), hext, hmax]
    rw [length_cons] at hle
    omega
  · have hlt := Nat.lt_of_not_le hle
    have hlt' : (r.extend [t]).outputIds.length + ts.length < (r.extend [t]).maxNewTokens := by
      rw [length_cons] at hlt
      omega
    have hstop : (r.extend (t :: ts)).stops t = false := ht.1
    have hvocab : (r.extend (t :: ts)).outsideVocab t = false := ht.2
    rw [acceptAll_of_lt hg (cons_ne_nil t ts) hlt, acceptAll_of_lt (hg.extend [t]) hts hlt', hext, hlen]
    unfold found
    conv_lhs => unfold scan
    rw [hstop, hvocab]
    simp only [Bool.false_eq_true, if_false, ← scan_succ, add_assoc, add_comm 1]

theorem acceptAll_stop (hg : r.Going)
    (hlt : r.outputIds.length + (t :: ts).length < r.maxNewTokens) (ht : r.stops t = true) :
    r.acceptAll (t :: ts) = (r.extend (t :: ts)).stoppedAt r.outputIds.length t := by
  have ht' : (r.extend (t :: ts)).stops t = true := ht
  rw [acceptAll_of_lt hg (cons_ne_nil t ts) hlt, found]
  unfold scan
  rw [if_pos ht']
  rfl

theorem acceptAll_outside (hg : r.Going)
    (hlt : r.outputIds.length + (t :: ts).length < r.maxNewTokens)
    (hstop : ∀ x ∈ t :: ts, r.stops x = false) (ht : r.outsideVocab t = true) :
    r.acceptAll (t :: ts) = (r.extend (t :: ts)).patchedAt r.outputIds.length := by
  have ht' : (r.extend (t :: ts)).outsideVocab t = true := ht
  have hstop' : ∀ x ∈ t :: ts, (r.extend (t :: ts)).stops x = false := hstop
  rw [acceptAll_of_lt hg (cons_ne_nil t ts) hlt, found, scan_eq_none hstop']
  unfold scan
  rw [if_pos ht']
  rfl

theorem acceptEach_cons (r : GenReq) (t : Int) (ts : List Int) : r.acceptEach (t :: ts) =
    if (r.acceptAll [t]).finished then r.acceptAll [t] else (r.acceptAll [t]).acceptEach ts := rfl

/-! ## All tokens -/

/-- What is seen of a request: why it finished, and its output. -/
def outcome (r : GenReq) : Option FinishReason × List Int :=
  (r.finishedReason, r.outputIdsThroughStop)

/-- Nothing stands before the event that a single check reports: before the token that reaches the
length limit no stop token and no token outside of the vocabulary, and before the first stop token
no token outside of the vocabulary. -/
def Undisturbed (r : GenReq) (tokens : List Int) : Prop :=
  if r.maxNewTokens ≤ r.outputIds.length + tokens.length then
    ∀ t ∈ tokens.take (r.maxNewTokens - r.outputIds.length - 1), r.Inert t
  else (∃ t ∈ tokens, r.stops t = true) →
    ∀ t ∈ tokens.takeWhile (fun t => !r.stops t), r.outsideVocab t = false

theorem undisturbed_singleton (r : GenReq) (t : Int) : r.Undisturbed [t] := by
  unfold Undisturbed
  split_ifs with hle
  · have hzero : r.maxNewTokens - r.outputIds.length - 1 = 0 := by
      rw [length_singleton] at hle
      omega
    rw [hzero]
    exact nofun
  · rintro ⟨x, hx, hs⟩ y hy
    obtain rfl := mem_singleton.mp hx
    rw [takeWhile_cons_of_neg (by rw [hs]; decide)] at hy
    exact absurd hy not_mem_nil

theorem undisturbed_cons (hlt : r.outputIds.length + 1 < r.maxNewTokens) (ht : r.Inert t) :
    r.Undisturbed (t :: ts) ↔ (r.extend [t]).Undisturbed ts := by
  have hlen : (r.extend [t]).outputIds.length = r.outputIds.length + 1 := length_append
  have hmax : (r.extend [t]).maxNewTokens = r.maxNewTokens := rfl
  have hstops : (r.extend [t]).stops = r.stops := rfl
  have hvocab : (r.extend [t]).outsideVocab = r.outsideVocab := rfl
  have hinert : (r.extend [t]).Inert = r.Inert := rfl
  unfold Undisturbed
  rw [hlen, hmax, hvocab, hinert, length_cons]
  have hsum : r.outputIds.length + (ts.length + 1) = r.outputIds.length + 1 + ts.length := by omega
  rw [hsum]
  split_ifs with hle
  · obtain ⟨k, hk⟩ : ∃ k, r.maxNewTokens - r.outputIds.length - 1 = k + 1 :=
      ⟨r.maxNewTokens - r.outputIds.length - 2, by omega⟩
    have hk' : r.maxNewTokens - (r.outputIds.length + 1) - 1 = k := by omega
    rw [hk, hk']
    exact ⟨fun h x hx => h x (mem_cons_of_mem _ hx), fun h x hx => by
      rcases mem_cons.mp hx with rfl | hx
      · exact ht
      · exact h x hx⟩
  · rw [takeWhile_cons_of_pos (by rw [ht.1]; rfl)]
    constructor
    · rintro h ⟨x, hx, hs⟩ y hy
      exact h ⟨x, mem_cons_of_mem _ hx, hs⟩ y (mem_cons_of_mem _ hy)
    · rintro h ⟨x, hx, hs⟩ y hy
      rcases mem_cons.mp hx with rfl | hx
      · exact absurd hs (by rw [ht.1]; decide)
      · rcases mem_cons.mp hy with rfl | hy
        · exact ht.2
        · exact h ⟨x, hx, hs⟩ y hy

theorem outcome_of_len {r : GenReq} {n : Nat} (h : r.finishedLen = some n) :
    r.outcome = (r.finishedReason, r.outputIds.take n) := by
  unfold outcome outputIdsThroughStop
  rw [h]

theorem outcome_length (hg : r.Going)
    (hlen : r.maxNewTokens ≤ r.outputIds.length + ts.length) : (r.acceptAll ts).outcome =
      (some (.length r.maxNewTokens), (r.outputIds ++ ts).take r.maxNewTokens) := by
  rw [acceptAll_of_length hg hlen]
  exact outcome_of_len rfl

theorem outcome_stop (hg : r.Going)
    (hlt : r.outputIds.length + (t :: ts).length < r.maxNewTokens) (ht : r.stops t = true) :
    (r.acceptAll (t :: ts)).outcome = (some (.matchedToken t), r.outputIds ++ [t]) := by
  rw [acceptAll_stop hg hlt ht]
  show (_, (r.outputIds ++ t :: ts).take (r.outputIds.length + 1)) = _
  rw [take_length_add_append]
  rfl

/-- The token that is put in the place of `t`. -/
def patchToken (r : GenReq) (t : Int) : Int := r.eosTokenIds.headD (r.stopTokenIds.headD t)

theorem patchOutput_extend (r : GenReq) (t : Int) (ts : List Int) :
    (r.extend (t :: ts)).patchOutput r.outputIds.length =
      r.outputIds ++ r.patchToken t :: ts := by
  have hset : ∀ x y : Int, (r.outputIds ++ x :: ts).set r.outputIds.length y =
      r.outputIds ++ y :: ts := by
    intro x y
    rw [set_append_right _ _ le_rfl, Nat.sub_self]
    rfl
  unfold patchOutput patchToken extend
  cases r.stopTokenIds with
  | nil =>
    cases r.eosTokenIds with
    | nil => rfl
    | cons e es => exact hset t e
  | cons x xs =>
    cases r.eosTokenIds with
    | nil => exact hset t x
    | cons e es =>
      show ((r.outputIds ++ t :: ts).set r.outputIds.length x).set r.outputIds.length e = _
      rw [hset, hset]
      rfl

theorem outcome_outside (hg : r.Going)
    (hlt : r.outputIds.length + (t :: ts).length < r.maxNewTokens)
    (hstop : ∀ x ∈ t :: ts, r.stops x = false) (ht : r.outsideVocab t = true) :
    (r.acceptAll (t :: ts)).outcome =
      (some (.matchedStr "NaN happened"), r.outputIds ++ [r.patchToken t]) := by
  rw [acceptAll_outside hg hlt hstop ht]
  show (_, ((r.extend (t :: ts)).patchOutput r.outputIds.length).take (r.outputIds.length + 1)) = _
  rw [patchOutput_extend, take_length_add_append]
  rfl

theorem not_undisturbed_of_length (hlt : r.outputIds.length + 1 < r.maxNewTokens)
    (hle : r.maxNewTokens ≤ r.outputIds.length + (t :: ts).length) (ht : ¬ r.Inert t) :
    ¬ r.Undisturbed (t :: ts) := by
  unfold Undisturbed
  rw [if_pos hle]
  obtain ⟨k, hk⟩ : ∃ k, r.maxNewTokens - r.outputIds.length - 1 = k + 1 :=
    ⟨r.maxNewTokens - r.outputIds.length - 2, by omega⟩
  rw [hk]
  exact fun h => ht (h t mem_cons_self)

theorem acceptEach_of_first {reason : FinishReason} {l : List Int} (ts : List Int)
    (h : (r.acceptAll [t]).outcome = (some reason, l)) :
    (r.acceptEach (t :: ts)).outcome = (some reason, l) := by
  have hfin : (r.acceptAll [t]).finishedReason = some reason := congrArg fst h
  rw [acceptEach_cons, if_pos (by rw [finished, hfin]; rfl), h]

theorem outcome_length_iff {reason : FinishReason} {l : List Int} (hg : r.Going)
    (hlt : r.outputIds.length + 1 < r.maxNewTokens)
    (hle : r.maxNewTokens ≤ r.outputIds.length + (t :: ts).length) (ht : ¬ r.Inert t)
    (hfirst : (r.acceptAll [t]).outcome = (some reason, l)) (hr : ∀ n, .length n ≠ reason) :
    (r.acceptAll (t :: ts)).outcome = (r.acceptEach (t :: ts)).outcome ↔
      r.Undisturbed (t :: ts) := by
  rw [acceptEach_of_first ts hfirst, outcome_length hg hle]
  exact ⟨fun h => absurd (some.inj (congrArg fst h)) (hr _),
    fun h => absurd h (not_undisturbed_of_length hlt hle ht)⟩

theorem outcome_cons_iff (hg : r.Going) :
    (r.acceptAll (t :: ts)).outcome = (r.acceptEach (t :: ts)).outcome ↔
      r.Undisturbed (t :: ts) := by
  induction ts generalizing r t with
  | nil =>
    have hone : r.acceptEach [t] = r.acceptAll [t] := by
      rw [acceptEach_cons]
      split_ifs
      · rfl
      · rfl
    rw [hone]
    exact ⟨fun _ => undisturbed_singleton r t, fun _ => rfl⟩
  | cons u ts ih =>
    by_cases hone : r.maxNewTokens ≤ r.outputIds.length + 1
    · -- the first token reaches the limit
      have hall : r.maxNewTokens ≤ r.outputIds.length + (t :: u :: ts).length := by
        simp only [length_cons]
        omega
      have hone' : r.maxNewTokens ≤ r.outputIds.length + [t].length := hone
      have hfirst := outcome_length hg hone'
      have hzero : r.maxNewTokens - r.outputIds.length - 1 = 0 := by omega
      rw [acceptEach_of_first _ hfirst, outcome_length hg hall]
      refine ⟨fun _ => ?_, fun _ => ?_⟩
      · unfold Undisturbed
        rw [if_pos hall, hzero]
        exact nofun
      · have hsplit : r.outputIds ++ t :: u :: ts = (r.outputIds ++ [t]) ++ u :: ts := by
          rw [append_assoc]
          rfl
        rw [hsplit, take_append_of_le_length]
        rw [length_append]
        exact hone
    · have hlt : r.outputIds.length + [t].length < r.maxNewTokens := Nat.lt_of_not_le hone
      by_cases hs : r.stops t = true
      · have hfirst := outcome_stop hg hlt hs
        by_cases hle : r.maxNewTokens ≤ r.outputIds.length + (t :: u :: ts).length
        · refine outcome_length_iff hg hlt hle (fun hi => ?_) hfirst (by simp)
          exact absurd (hi.1.symm.trans hs) (by decide)
        · rw [acceptEach_of_first _ hfirst, outcome_stop hg (Nat.lt_of_not_le hle) hs]
          refine ⟨fun _ => ?_, fun _ => rfl⟩
          unfold Undisturbed
          rw [if_neg hle, takeWhile_cons_of_neg (by rw [hs]; decide)]
          exact nofun
      · have hs' : r.stops t = false := Bool.eq_false_iff.mpr hs
        by_cases ho : r.outsideVocab t = true
        · have hfirst := outcome_outside hg hlt
            (fun x hx => by rw [mem_singleton.mp hx]; exact hs') ho
          by_cases hle : r.maxNewTokens ≤ r.outputIds.length + (t :: u :: ts).length
          · refine outcome_length_iff hg hlt hle (fun hi => ?_) hfirst (by simp)
            exact absurd (hi.2.symm.trans ho) (by decide)
          · have hlt' := Nat.lt_of_not_le hle
            rw [acceptEach_of_first _ hfirst]
            by_cases hany : ∃ x ∈ t :: u :: ts, r.stops x = true
            · -- a stop token behind it hides the token outside of the vocabulary
              obtain ⟨n, x, hx⟩ := exists_found (r := r.extend (t :: u :: ts))
                r.outputIds.length 0 hany
              refine ⟨fun h => ?_, fun h => ?_⟩
              · rw [acceptAll_of_lt hg (cons_ne_nil _ _) hlt', hx] at h
                exact FinishReason.noConfusion (some.inj (congrArg fst h))
              · unfold Undisturbed at h
                rw [if_neg hle, takeWhile_cons_of_pos (by rw [hs']; rfl)] at h
                exact absurd ((h hany t mem_cons_self).symm.trans ho) (by decide)
            · rw [outcome_outside hg hlt'
                (fun x hx => Bool.eq_false_iff.mpr fun h => hany ⟨x, hx, h⟩) ho]
              refine ⟨fun _ => ?_, fun _ => rfl⟩
              unfold Undisturbed
              rw [if_neg hle]
              exact fun h => absurd h hany
        · have hi : r.Inert t := ⟨hs', Bool.eq_false_iff.mpr ho⟩
          have hnext : r.acceptAll [t] = r.extend [t] := by
            rw [acceptAll_of_lt hg (cons_ne_nil t []) hlt, found_inert fun x hx => ?_]
            rw [mem_singleton.mp hx]
            exact hi
          have hrun : (r.extend [t]).finished = false := finished_of_running hg.running
          have heach : r.acceptEach (t :: u :: ts) = (r.extend [t]).acceptEach (u :: ts) := by
            rw [acceptEach_cons, hnext, hrun]
            rfl
          rw [heach, acceptAll_cons hg hi (cons_ne_nil u ts), undisturbed_cons hlt hi]
          exact ih (hg.extend [t])

/-! ## Calls without tokens and requests that are asked to finish -/

/-- Nothing in the output so far ends the request. -/
def Settled (r : GenReq) : Prop :=
  r.outputIds.length < r.maxNewTokens ∧ ∀ t ∈ r.outputIds, r.Inert t

/-- Without new tokens `output_ids[-0:]` is the whole output, and all of it is looked at. -/
theorem outcome_nil_iff (hg : r.Going) :
    (r.acceptAll []).outcome = (r.acceptEach []).outcome ↔ r.Settled := by
  have hext : r.extend [] = r := by
    unfold extend
    rw [append_nil]
  have hnone : (r.acceptEach []).finishedReason = none := hg.running
  have hdiffer : (r.acceptAll []).finishedReason ≠ none →
      ¬ (r.acceptAll []).outcome = (r.acceptEach []).outcome := fun hne h =>
    hne ((congrArg fst h).trans hnone)
  by_cases hle : r.maxNewTokens ≤ r.outputIds.length
  · refine ⟨fun h => absurd h (hdiffer ?_), fun h => absurd h.1 (by omega)⟩
    have hle' : r.maxNewTokens ≤ r.outputIds.length + ([] : List Int).length := hle
    rw [acceptAll_of_length hg hle']
    exact some_ne_none _
  · have hcheck : r.acceptAll [] = r.found 0 0 r.outputIds := by
      rw [acceptAll, hext, checkFinished_eq hg, if_neg hle]
      show r.found (r.outputIds.length - r.outputIds.length) 0 r.outputIds = _
      rw [Nat.sub_self]
    by_cases hstop : ∃ t ∈ r.outputIds, r.stops t = true
    · refine ⟨fun h => absurd h (hdiffer ?_), fun h => ?_⟩
      · obtain ⟨n, x, hx⟩ := exists_found 0 0 hstop
        rw [hcheck, hx]
        exact some_ne_none _
      · obtain ⟨t, ht, hs⟩ := hstop
        exact absurd ((h.2 t ht).1.symm.trans hs) (by decide)
    · have hstop' : ∀ t ∈ r.outputIds, r.stops t = false := fun t ht =>
        Bool.eq_false_iff.mpr fun h => hstop ⟨t, ht, h⟩
      by_cases hout : ∃ t ∈ r.outputIds, r.outsideVocab t = true
      · obtain ⟨n, x, hx⟩ := exists_scan (fun j _ => r.patchedAt (0 + j)) 0 hout
        refine ⟨fun h => absurd h (hdiffer ?_), fun h => ?_⟩
        · rw [hcheck, found, scan_eq_none hstop', hx]
          exact some_ne_none _
        · obtain ⟨t, ht, ho⟩ := hout
          exact absurd ((h.2 t ht).2.symm.trans ho) (by decide)
      · have hinert : ∀ t ∈ r.outputIds, r.Inert t := fun t ht =>
          ⟨hstop' t ht, Bool.eq_false_iff.mpr fun h => hout ⟨t, ht, h⟩⟩
        refine ⟨fun _ => ⟨Nat.lt_of_not_le hle, hinert⟩, fun _ => ?_⟩
        rw [hcheck, found_inert hinert]
        rfl

theorem acceptAll_of_asked {reason : FinishReason} (hrun : r.finishedReason = none)
    (hask : r.toFinish = some reason) (ts : List Int) : r.acceptAll ts =
      { r.extend ts with finishedReason := some reason, toFinish := none } := by
  have hrun' : (r.extend ts).finished = false := finished_of_running hrun
  have hask' : (r.extend ts).toFinish = some reason := hask
  unfold acceptAll checkFinished
  rw [hrun', hask']
  rfl

theorem outcome_asked_iff {reason : FinishReason} (hrun : r.finishedReason = none)
    (hlen : r.finishedLen = none) (hask : r.toFinish = some reason) :
    (r.acceptAll tokens).outcome = (r.acceptEach tokens).outcome ↔ tokens.length = 1 := by
  have hout : ∀ ts, (r.acceptAll ts).outcome = (some reason, r.outputIds ++ ts) := by
    intro ts
    rw [acceptAll_of_asked hrun hask]
    have hlen' : (r.extend ts).finishedLen = none := hlen
    simp only [hlen']
    rfl
  cases tokens with
  | nil =>
    refine ⟨fun h => ?_, fun h => absurd h (by decide)⟩
    have hreason := congrArg fst ((hout []).symm.trans h)
    exact absurd (hreason.trans hrun) (some_ne_none _)
  | cons t ts =>
    rw [acceptEach_of_first _ (hout [t]), hout]
    constructor
    · intro h
      have htokens := congrArg length (append_cancel_left (congrArg snd h))
      rwa [length_cons] at htokens
    · intro h
      have hts : ts = [] := eq_nil_of_length_eq_zero (succ.inj h)
      rw [hts]

/-- What decides whether one check for all tokens does the same as a check for each. -/
def OrderFree (r : GenReq) (tokens : List Int) : Prop :=
  match r.toFinish with
  | some _ => tokens.length = 1
  | none => if tokens = [] then r.Settled else r.Undisturbed tokens

/-- One check after all tokens and a check after each token give the same reason and the same
output exactly when no earlier event among the tokens is passed over. -/
theorem acceptAll_eq_acceptEach_iff (r : GenReq) (tokens : List Int)
    (hrun : r.finishedReason = none) (hlen : r.finishedLen = none) :
    ((r.acceptAll tokens).finishedReason = (r.acceptEach tokens).finishedReason ∧
      (r.acceptAll tokens).outputIdsThroughStop = (r.acceptEach tokens).outputIdsThroughStop) ↔
      r.OrderFree tokens := by
  have hpair : ((r.acceptAll tokens).finishedReason = (r.acceptEach tokens).finishedReason ∧
      (r.acceptAll tokens).outputIdsThroughStop = (r.acceptEach tokens).outputIdsThroughStop) ↔
      (r.acceptAll tokens).outcome = (r.acceptEach tokens).outcome := by
    unfold outcome
    rw [Prod.mk.injEq]
  rw [hpair]
  unfold OrderFree
  cases hask : r.toFinish with
  | some reason => exact outcome_asked_iff hrun hlen hask
  | none =>
    have hg : r.Going := ⟨hrun, hask⟩
    cases tokens with
    | nil =>
      exact outcome_nil_iff hg
    | cons t ts =>
      exact outcome_cons_iff hg

/-- A request with the stop token `2` and a vocabulary up to `100`. -/
def stopAtTwo : GenReq where
  outputIds := []
  maxNewTokens := 3
  ignoreEos := false
  stopTokenIds := []
  eosTokenIds := [2]
  tokenizer := none
  vocabSize := 100
  toFinish := none
  finishedReason := none
  finishedLen := none

theorem acceptAll_eq_acceptEach_plain :
    (stopAtTwo.acceptAll [5, 2]).finishedReason = (stopAtTwo.acceptEach [5, 2]).finishedReason ∧
      (stopAtTwo.acceptAll [5, 2]).outputIdsThroughStop =
        (stopAtTwo.acceptEach [5, 2]).outputIdsThroughStop := by
  refine (acceptAll_eq_acceptEach_iff stopAtTwo [5, 2] rfl rfl).mpr ?_
  show stopAtTwo.Undisturbed [5, 2]
  unfold Undisturbed
  rw [if_neg (by decide)]
  decide

/-- Of three tokens that reach the length limit, the first is a stop token: with one check it is
passed over. The same happens to a token outside of the vocabulary before a stop token. -/
theorem acceptAll_passes_over_stop :
    (stopAtTwo.acceptAll [2, 5, 7]).outcome = (some (.length 3), [2, 5, 7]) ∧
    (stopAtTwo.acceptEach [2, 5, 7]).outcome = (some (.matchedToken 2), [2]) ∧
    (stopAtTwo.acceptAll [200, 2]).outcome = (some (.matchedToken 2), [200, 2]) ∧
    (stopAtTwo.acceptEach [200, 2]).outcome = (some (.matchedStr "NaN happened"), [2]) := by
  decide

end GenReq

end Fluxfer.Requests
