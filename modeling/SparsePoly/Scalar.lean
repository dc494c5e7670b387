import SparsePoly.Error

/-!
# Coefficients and degrees

Coefficients are signed words of 64 bits and degrees unsigned words of 32 bits. All arithmetic on
them is done exactly, in `Int` and `Nat`, and comes back to a word through `Coefficient.checked`
or `Degree.checked`, which fail exactly when the number does not fit
(`Coefficient.checked_eq_ok_iff`, `Coefficient.checked_eq_error_iff` and their counterparts for
degrees). No operation wraps around.
-/

namespace SparsePoly

/-- The coefficient of a term. -/
abbrev Coefficient := Int64

/-- The degree of a letter in a term. -/
abbrev Degree := UInt32

/-! ### Coefficients -/

namespace Coefficient

/-- An integer fits when it lies in the range of a signed word of 64 bits. -/
abbrev Fits (n : Int) : Prop := -9223372036854775808 ≤ n ∧ n < 9223372036854775808

/-- The coefficient equal to `n`, or an overflow of the given quantity when `n` does not fit. -/
def checked (quantity : Overflow) (n : Int) : Except Error Coefficient :=
  if Fits n then .ok (Int64.ofInt n) else .error (.overflow quantity)

variable {quantity : Overflow} {n : Int} {c : Coefficient} {e : Error}

theorem fits_toInt (c : Coefficient) : Fits c.toInt := ⟨c.le_toInt, c.toInt_lt⟩

/-- Coming back to a word succeeds with the word of the same value and no other. -/
theorem checked_eq_ok_iff : checked quantity n = .ok c ↔ c.toInt = n := by
  unfold checked
  split
  · next h =>
    rw [Except.ok.injEq, ← Int64.toInt_inj, Int64.toInt_ofInt_of_le h.1 h.2]
    exact eq_comm
  · next h =>
    simp only [reduceCtorEq, false_iff]
    exact fun hc => h (hc ▸ fits_toInt c)

/-- Coming back to a word fails exactly for the numbers out of range, with the given cause. -/
theorem checked_eq_error_iff :
    checked quantity n = .error e ↔ ¬ Fits n ∧ e = .overflow quantity := by
  unfold checked
  split
  · next h => exact ⟨nofun, fun he => absurd h he.1⟩
  · next h => exact ⟨fun he => ⟨h, (Except.error.inj he).symm⟩, fun he => he.2 ▸ rfl⟩

/-- A number comes back to a word exactly when it fits. -/
theorem exists_checked_eq_ok_iff : (∃ c, checked quantity n = .ok c) ↔ Fits n :=
  ⟨fun ⟨c, h⟩ => checked_eq_ok_iff.1 h ▸ fits_toInt c, fun h => ⟨Int64.ofInt n, if_pos h⟩⟩

@[simp] theorem checked_toInt (c : Coefficient) : checked quantity c.toInt = .ok c :=
  checked_eq_ok_iff.2 rfl

end Coefficient

/-! ### Degrees -/

namespace Degree

/-- A number fits when it is below the size of an unsigned word of 32 bits. -/
abbrev Fits (n : Nat) : Prop := n < UInt32.size

/-- The degree equal to `n`, or an overflow when `n` does not fit. -/
def checked (n : Nat) : Except Error Degree :=
  if Fits n then .ok (UInt32.ofNat n) else .error (.overflow .degree)

variable {n : Nat} {d : Degree} {e : Error}

/-- Coming back to a word succeeds with the word of the same value and no other. -/
theorem checked_eq_ok_iff : checked n = .ok d ↔ d.toNat = n := by
  unfold checked
  split
  · next h =>
    rw [Except.ok.injEq, ← UInt32.toNat_inj, UInt32.toNat_ofNat_of_lt' h]
    exact eq_comm
  · next h =>
    simp only [reduceCtorEq, false_iff]
    exact fun hd => h (hd ▸ d.toNat_lt)

/-- Coming back to a word fails exactly for the numbers out of range. -/
theorem checked_eq_error_iff : checked n = .error e ↔ ¬ Fits n ∧ e = .overflow .degree := by
  unfold checked
  split
  · next h => exact ⟨nofun, fun he => absurd h he.1⟩
  · next h => exact ⟨fun he => ⟨h, (Except.error.inj he).symm⟩, fun he => he.2 ▸ rfl⟩

@[simp] theorem checked_toNat (d : Degree) : checked d.toNat = .ok d :=
  checked_eq_ok_iff.2 rfl

end Degree

end SparsePoly
