import Mathlib.Data.List.Permutation
import SparsePoly.Proofs.Combine

/-!
# Sums of coefficients in wide words

`Polynomial.ofTerms` adds up the coefficients of like terms in integers. Signed words of 128 bits
do as well: coefficients have 64 bits, and a list in memory has no more terms than a word of 64
bits can count. After `n` terms a sum is at most `n * 2 ^ 63` away from zero (`Term.Within`), and
with each further term this bound grows by `2 ^ 63`. The greatest number of terms leaves the bound
just `2 ^ 63` below the end of the range, so a bound that did not count the terms would not do.

* `Term.fits_of_mem_runningTotals`: no value that a sum takes on its way leaves the range.
* `Term.checkedTotal_eq`: an accumulator that wraps around and one that gives up on an overflow both
  come to the exact sum.
* `Polynomial.ofTerms_accumulates`: combining terms with either of them.
-/

namespace SparsePoly

/-- A signed word of 128 bits, to add up coefficients in. -/
abbrev Accumulator := BitVec 128

namespace Accumulator

/-- An integer fits when it lies in the range of a signed word of 128 bits. -/
abbrev Fits (n : Int) : Prop := -2 ^ 127 ≤ n ∧ n ≤ 2 ^ 127 - 1

/-- The accumulator with the value of a coefficient. -/
def ofCoefficient (c : Coefficient) : Accumulator := c.toBitVec.signExtend 128

/-- Adds a coefficient and wraps around when the sum leaves the range. -/
def add (sum : Accumulator) (c : Coefficient) : Accumulator := sum + ofCoefficient c

/-- Adds a coefficient and gives up when the sum leaves the range. -/
def add? (sum : Accumulator) (c : Coefficient) : Option Accumulator :=
  if sum.saddOverflow (ofCoefficient c) then none else some (sum.add c)

variable {sum : Accumulator} {c : Coefficient}

@[simp] theorem toInt_ofCoefficient (c : Coefficient) : (ofCoefficient c).toInt = c.toInt :=
  BitVec.toInt_signExtend_of_le (by decide)

/-- A sum that fits is computed exactly. -/
theorem add?_eq_some (h : Fits (sum.toInt + c.toInt)) :
    sum.add? c = some (sum.add c) ∧ (sum.add c).toInt = sum.toInt + c.toInt := by
  have hoverflow : ¬ sum.saddOverflow (ofCoefficient c) = true := by
    rw [BitVec.saddOverflow, toInt_ofCoefficient, Bool.or_eq_true, decide_eq_true_eq,
      decide_eq_true_eq]
    omega
  refine ⟨if_neg hoverflow, ?_⟩
  rw [add, BitVec.toInt_add_of_not_saddOverflow hoverflow, toInt_ofCoefficient]

end Accumulator

namespace Term

variable {n k : Nat} {sum : Int} {ts run : List Term}

/-! ### The range of a sum -/

/-- What a sum of `n` coefficients can be. -/
def Within (n : Nat) (sum : Int) : Prop := -(n * 2 ^ 63) ≤ sum ∧ sum ≤ n * 2 ^ 63

theorem within_coefficient (c : Coefficient) : Within 1 c.toInt := by
  have hc := Coefficient.fits_toInt c
  unfold Within
  omega

/-- With one coefficient more, a sum is one of a term more. -/
theorem Within.add (h : Within n sum) (c : Coefficient) : Within (n + 1) (sum + c.toInt) := by
  have hc := Coefficient.fits_toInt c
  unfold Within at *
  omega

/-- As many terms as a word of 64 bits can count have a sum that fits. -/
theorem Within.fits (h : Within n sum) (hn : n ≤ 2 ^ 64 - 1) : Accumulator.Fits sum := by
  unfold Within at h
  omega

/-- The values that the sum of some terms takes, from the first coefficient to the total. -/
def runningTotals : List Term → List Int
  | [] => []
  | t :: ts => ts.scanl (fun sum u => sum + u.coefficient.toInt) t.coefficient.toInt

/-- Every value on the way is a sum of as many coefficients as have been added, at most all. -/
private theorem exists_within_of_mem_scanl (hsum : Within n sum) :
    ∀ s ∈ ts.scanl (fun sum u => sum + u.coefficient.toInt) sum,
      ∃ k ≤ n + ts.length, Within k s := by
  induction ts generalizing n sum with
  | nil =>
    intro s hs
    rw [List.scanl_nil, List.mem_singleton] at hs
    exact ⟨n, Nat.le_refl n, hs ▸ hsum⟩
  | cons t ts ih =>
    intro s hs
    rw [List.scanl_cons] at hs
    rcases List.mem_cons.1 hs with rfl | hs
    · exact ⟨n, Nat.le_add_right n _, hsum⟩
    · obtain ⟨k, hk, hwithin⟩ := ih (hsum.add t.coefficient) s hs
      rw [Nat.add_right_comm] at hk
      exact ⟨k, hk, hwithin⟩

/-- No value that the sum takes leaves the range of an accumulator. -/
theorem fits_of_mem_runningTotals (hlength : ts.length ≤ 2 ^ 64 - 1) :
    ∀ s ∈ runningTotals ts, Accumulator.Fits s := by
  cases ts with
  | nil => exact nofun
  | cons t ts =>
    intro s hs
    obtain ⟨k, hk, hwithin⟩ := exists_within_of_mem_scanl (within_coefficient t.coefficient) s hs
    rw [List.length_cons] at hlength
    exact hwithin.fits (by omega)

/-! ### Accumulators -/

/-- The sum of some terms in an accumulator that wraps around. -/
def wrappingTotal : List Term → Accumulator
  | [] => 0
  | t :: ts => ts.foldl (fun sum u => sum.add u.coefficient) (.ofCoefficient t.coefficient)

/-- The sum of some terms in an accumulator that gives up when an addition leaves the range. -/
def checkedTotal : List Term → Option Accumulator
  | [] => some 0
  | t :: ts => ts.foldlM (fun sum u => sum.add? u.coefficient) (.ofCoefficient t.coefficient)

/-- From a sum of `n` coefficients on, further ones are added exactly. -/
private theorem foldlM_add?_eq {sum : Accumulator} (hsum : Within n sum.toInt)
    (hlength : n + ts.length ≤ 2 ^ 64 - 1) :
    ts.foldlM (fun sum u => sum.add? u.coefficient) sum =
        some (ts.foldl (fun sum u => sum.add u.coefficient) sum) ∧
      (ts.foldl (fun sum u => sum.add u.coefficient) sum).toInt =
        ts.foldl (fun sum u => sum + u.coefficient.toInt) sum.toInt := by
  -- the number of terms that have been added bounds the accumulator
  induction ts generalizing n sum with
  | nil => exact ⟨rfl, rfl⟩
  | cons t ts ih =>
    rw [List.length_cons] at hlength
    have hnext := hsum.add t.coefficient
    obtain ⟨hadd, hexact⟩ := Accumulator.add?_eq_some (hnext.fits (by omega))
    rw [← hexact] at hnext
    obtain ⟨hfold, htotal⟩ := ih hnext (by omega)
    refine ⟨?_, ?_⟩
    · rw [List.foldlM_cons, hadd, List.foldl_cons]
      exact hfold
    · rw [List.foldl_cons, htotal, hexact, List.foldl_cons]

/-- Both accumulators come to the exact sum. -/
theorem checkedTotal_eq (hlength : ts.length ≤ 2 ^ 64 - 1) :
    checkedTotal ts = some (wrappingTotal ts) ∧ (wrappingTotal ts).toInt = total ts := by
  cases ts with
  | nil => exact ⟨rfl, rfl⟩
  | cons t ts =>
    have hfirst := Accumulator.toInt_ofCoefficient t.coefficient
    have hwithin := within_coefficient t.coefficient
    rw [← hfirst] at hwithin
    rw [List.length_cons, Nat.add_comm] at hlength
    obtain ⟨hfold, htotal⟩ := foldlM_add?_eq hwithin hlength
    refine ⟨hfold, htotal.trans ?_⟩
    rw [hfirst, total, List.foldl_cons, zero_add]

/-! ### Combining like terms in accumulators -/

/-- The runs of like terms that `Polynomial.ofTerms` adds up. -/
def sortedRuns (terms : List Term) : List (List Term) :=
  likeRuns ((terms.filter fun t => !t.isZero).mergeSort fun t u => t.precedence u != .lt)

/-- A run is no longer than the list that it comes from. -/
theorem length_le_of_mem_sortedRuns (hrun : run ∈ sortedRuns ts) : run.length ≤ ts.length := by
  have hflatten := (List.sublist_flatten_of_mem hrun).length_le
  rw [sortedRuns, likeRuns, List.flatten_splitBy, List.length_mergeSort] at hflatten
  exact hflatten.trans (List.length_filter_le _ ts)

/-- The term that a run of like terms comes to when its coefficients add up to `n`. -/
def ofRun (n : Int) : List Term → Except Error (Option Term)
  | [] => .ok none
  | t :: _ => do
    let c ← Coefficient.checked .coefficientSum n
    return if c = 0 then none else some { t with coefficient := c }

theorem sumRun_eq_ofRun (run : List Term) : sumRun run = ofRun (total run) run := by
  cases run with
  | nil => rfl
  | cons t ts => rfl

end Term

namespace Polynomial

open Term (sortedRuns ofRun runningTotals wrappingTotal checkedTotal total)

/-- The sum of terms given in any order, each run of like terms added up by `accumulate`. Gives up
when that does for any run. -/
def ofTermsIn (accumulate : List Term → Option Accumulator) (terms : List Term) :
    Option (Except Error Polynomial) := do
  let runs ← (sortedRuns terms).mapM fun run => return (run, ← accumulate run)
  return do
    let sums ← runs.mapM fun (run, sum) => ofRun sum.toInt run
    return ⟨sums.filterMap id⟩

variable {accumulate : List Term → Option Accumulator} {ts : List Term} {runs : List (List Term)}

/-- Runs whose sums are exact come to the terms that they come to anyway. -/
private theorem exists_mapM_accumulate
    (h : ∀ run ∈ runs, ∃ sum, accumulate run = some sum ∧ sum.toInt = total run) :
    ∃ sums, (runs.mapM fun run => return (run, ← accumulate run)) = some sums ∧
      (sums.mapM fun (run, sum) => ofRun sum.toInt run) = runs.mapM Term.sumRun := by
  induction runs with
  | nil => exact ⟨[], rfl, rfl⟩
  | cons run runs ih =>
    obtain ⟨⟨sum, haccumulate, hexact⟩, hruns⟩ := List.forall_mem_cons.1 h
    obtain ⟨sums, hmapM, hsums⟩ := ih hruns
    refine ⟨(run, sum) :: sums, ?_, ?_⟩
    · rw [List.mapM_cons, hmapM, haccumulate]
      rfl
    · rw [List.mapM_cons, List.mapM_cons, hsums, Term.sumRun_eq_ofRun, ← hexact]

/-- Sums that are exact make no difference to what terms combine to. -/
theorem ofTermsIn_eq
    (h : ∀ run ∈ sortedRuns ts, ∃ sum, accumulate run = some sum ∧ sum.toInt = total run) :
    ofTermsIn accumulate ts = some (ofTerms ts) := by
  have hofTerms : ofTerms ts = do
      let sums ← (sortedRuns ts).mapM Term.sumRun
      return ⟨sums.filterMap id⟩ := rfl
  obtain ⟨sums, hmapM, hsums⟩ := exists_mapM_accumulate h
  rw [ofTermsIn, hmapM, hofTerms, ← hsums]
  rfl

/-- **Sums of like terms never leave an accumulator.** In a list of no more terms than a word of 64
bits can count, no value that the sum of a run of like terms takes is out of the range of a signed
word of 128 bits. So an accumulator that wraps around comes to the exact total of each run, one
that gives up on an overflow comes to the same, and with either of them terms combine to what they
combine to in integers, the error included. -/
theorem ofTerms_accumulates (hlength : ts.length ≤ 2 ^ 64 - 1) :
    (∀ run ∈ sortedRuns ts,
      (∀ n ∈ runningTotals run, -2 ^ 127 ≤ n ∧ n ≤ 2 ^ 127 - 1) ∧
      (wrappingTotal run).toInt = total run ∧ checkedTotal run = some (wrappingTotal run)) ∧
    ofTermsIn (fun run => some (wrappingTotal run)) ts = some (ofTerms ts) ∧
    ofTermsIn checkedTotal ts = some (ofTerms ts) := by
  have hrun : ∀ run ∈ sortedRuns ts, run.length ≤ 2 ^ 64 - 1 := fun run hrun =>
    (Term.length_le_of_mem_sortedRuns hrun).trans hlength
  refine ⟨fun run h => ⟨Term.fits_of_mem_runningTotals (hrun run h), ?_⟩, ?_, ?_⟩
  · obtain ⟨hchecked, hwrapping⟩ := Term.checkedTotal_eq (hrun run h)
    exact ⟨hwrapping, hchecked⟩
  · exact ofTermsIn_eq fun run h => ⟨_, rfl, (Term.checkedTotal_eq (hrun run h)).2⟩
  · exact ofTermsIn_eq fun run h => ⟨_, Term.checkedTotal_eq (hrun run h)⟩

/-- The greatest coefficient twice and the least once: the sum of the first two is no coefficient,
and the total is one. -/
theorem ofTerms_accumulates_passing_range :
    let x : Monomial := [⟨'x', 1⟩]
    let ts : List Term := [⟨Int64.maxValue, x⟩, ⟨Int64.maxValue, x⟩, ⟨Int64.minValue, x⟩]
    ts.length ≤ 2 ^ 64 - 1 ∧
    ofTermsIn (fun run => some (wrappingTotal run)) ts = some (ofTerms ts) ∧
    ofTermsIn checkedTotal ts = some (ofTerms ts) ∧
    ofTerms ts = .ok ⟨[⟨9223372036854775806, x⟩]⟩ := by
  intro x ts
  have hlength : ts.length ≤ 2 ^ 64 - 1 := by decide
  obtain ⟨-, hwrapping, hchecked⟩ := ofTerms_accumulates hlength
  exact ⟨hlength, hwrapping, hchecked, by cbv⟩

end Polynomial

end SparsePoly
