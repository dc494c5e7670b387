/-!
# Sets of letters

A set of lowercase letters is one number with a bit for each letter, the lowest for `a`.
-/

namespace SparsePoly

/-- A set of lowercase letters. -/
structure LetterSet where
  /-- The number whose bit at the index of a letter says whether the letter is in the set. -/
  bits : Nat
deriving DecidableEq, Repr

namespace LetterSet

/-- The place of a lowercase letter in the alphabet, from zero. -/
def index (x : Char) : Nat := x.toNat - 'a'.toNat

/-- The set without letters. -/
def empty : LetterSet := ⟨0⟩

/-- The set with one letter more. -/
def insert (s : LetterSet) (x : Char) : LetterSet := ⟨s.bits ||| 1 <<< index x⟩

/-- Whether a letter is in the set. -/
def contains (s : LetterSet) (x : Char) : Bool := s.bits.testBit (index x)

/-- The code points of the lowercase letters follow one another from `a` to `z`. -/
theorem toNat_of_isLower {x : Char} (h : x.isLower = true) :
    'a'.toNat ≤ x.toNat ∧ x.toNat ≤ 'z'.toNat :=
  (Bool.and_eq_true_iff.1 h).imp of_decide_eq_true of_decide_eq_true

/-- The index of a lowercase letter is below 26. -/
theorem index_lt {x : Char} (h : x.isLower = true) : index x < 26 := by
  have hx := toNat_of_isLower h
  have hz : 'z'.toNat = 'a'.toNat + 25 := rfl
  unfold index
  omega

/-- Distinct lowercase letters have distinct indices. -/
theorem index_inj {x y : Char} (hx : x.isLower = true) (hy : y.isLower = true) :
    index x = index y ↔ x = y := by
  have hx' := toNat_of_isLower hx
  have hy' := toNat_of_isLower hy
  rw [← Char.toNat_inj]
  unfold index
  omega

@[simp] theorem contains_empty (x : Char) : empty.contains x = false := by
  simp [empty, contains]

theorem contains_insert {s : LetterSet} {x y : Char} (hx : x.isLower = true)
    (hy : y.isLower = true) : (s.insert x).contains y = (s.contains y || decide (x = y)) := by
  simp only [contains, insert, Nat.testBit_or, Nat.one_shiftLeft, Nat.testBit_two_pow,
    index_inj hx hy]

end LetterSet

end SparsePoly
