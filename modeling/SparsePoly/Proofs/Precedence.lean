import Mathlib.Data.Char
import SparsePoly.Term
import SparsePoly.Text.LetterSet

/-!
# The order of monomials

`Monomial.precedence` reads two lists of powers side by side, although the letters at one place of
the two lists need not be the same. On well formed monomials it is nevertheless the lexicographic
order of the full vectors of degrees, that of `a` first and that of `z` last. The vectors explain
what the lists hide: the order is total, like monomials are equal monomials, and multiplying two
monomials by the same third one does not change how they compare.

* `Monomial.precedence_eq_compareLex_degrees`: the order is the lexicographic order of the degrees.
* `Monomial.ext_degree`: a well formed monomial is determined by its degrees.
* `Monomial.precedence_of_degree_add`: the order is kept when the same degrees are added to both.
-/

namespace SparsePoly

/-! ### The letters -/

/-- The letters are the lowercase letters. -/
theorem mem_letters_iff {x : Char} : x ∈ letters ↔ x.isLower = true := by
  constructor
  · intro h
    have hall : letters.all Char.isLower = true := by decide
    exact List.all_eq_true.1 hall x h
  · intro h
    obtain ⟨hlow, hhigh⟩ := LetterSet.toNat_of_isLower h
    have hz : 'z'.toNat = 'a'.toNat + 25 := rfl
    refine List.mem_map.2 ⟨x.toNat - 'a'.toNat, List.mem_range.2 (by omega), ?_⟩
    rw [Nat.add_sub_cancel' hlow, Char.ofNat_toNat]

theorem pairwise_letters : letters.Pairwise (· < ·) := by decide

/-! ### Laws of the order -/

/-- The order of powers is lexicographic in the letter, read backwards, and the degree. -/
theorem Power.precedence_eq_compareLex :
    Power.precedence =
      compareLex (fun p q => compare q.symbol p.symbol) (compareOn Power.degree) := rfl

instance : Std.TransCmp Power.precedence := by
  have : Std.TransCmp fun p q : Power => compare q.symbol p.symbol :=
    inferInstanceAs (Std.TransCmp fun p q => compareOn Power.symbol q p)
  rw [Power.precedence_eq_compareLex]
  infer_instance

instance : Std.LawfulEqCmp Power.precedence where
  eq_of_compare {p q} h := by
    obtain ⟨hsymbol, hdegree⟩ := Ordering.then_eq_eq.1 h
    obtain ⟨x, d⟩ := p
    obtain ⟨y, e⟩ := q
    rw [Power.mk.injEq]
    exact ⟨(Std.LawfulEqOrd.eq_of_compare hsymbol).symm, Std.LawfulEqOrd.eq_of_compare hdegree⟩

namespace Monomial

theorem precedence_eq_compareLex : precedence = List.compareLex Power.precedence := by
  funext m n
  induction m generalizing n with
  | nil => cases n <;> rfl
  | cons p m ih =>
    cases n with
    | nil => rfl
    | cons q n => rw [precedence, List.compareLex_cons_cons, ih]

instance : Std.TransCmp precedence := precedence_eq_compareLex ▸ inferInstance

instance : Std.LawfulEqCmp precedence := precedence_eq_compareLex ▸ inferInstance

/-- Only equal monomials compare equal, well formed or not. -/
theorem precedence_eq_eq_iff {m n : Monomial} : m.precedence n = .eq ↔ m = n :=
  Std.LawfulEqCmp.compare_eq_iff_eq

theorem precedence_swap (m n : Monomial) : m.precedence n = (n.precedence m).swap :=
  Std.OrientedCmp.eq_swap

theorem precedence_gt_of_lt {m n : Monomial} (h : m.precedence n = .lt) : n.precedence m = .gt :=
  Std.OrientedCmp.gt_of_lt h

theorem precedence_gt_trans {m n r : Monomial} (hmn : m.precedence n = .gt)
    (hnr : n.precedence r = .gt) : m.precedence r = .gt :=
  Std.TransCmp.gt_trans hmn hnr

theorem precedence_asymm {m n : Monomial} (h : m.precedence n = .gt) : n.precedence m ≠ .gt :=
  Std.OrientedCmp.not_gt_of_gt h

theorem precedence_self_ne_gt (m : Monomial) : m.precedence m ≠ .gt :=
  fun h => precedence_asymm h h

theorem ne_of_precedence_gt {m n : Monomial} (h : m.precedence n = .gt) : m ≠ n := by
  rintro rfl
  exact precedence_self_ne_gt m h

/-! ### The vector of degrees -/

private theorem compare_degree (d e : Degree) : compare d e = compare d.toNat e.toNat := by
  change compareOfLessAndEq d e = compareOfLessAndEq d.toNat e.toNat
  simp only [compareOfLessAndEq, UInt32.lt_iff_toNat_lt, ← UInt32.toNat_inj]

/-- The degrees of the given letters, in their order. -/
def degrees (m : Monomial) (xs : List Char) : List Nat := xs.map fun x => (m.degree x).toNat

section

variable {x : Char} {xs : List Char} {m n : Monomial}

/-- The degrees of a monomial that begins with the first of some ascending letters. -/
private theorem degrees_cons_of_head {d : Degree} (hx : ∀ y ∈ xs, x < y) :
    degrees (⟨x, d⟩ :: m) (x :: xs) = d.toNat :: degrees m xs := by
  have htail : ∀ y ∈ xs, (degree (⟨x, d⟩ :: m) y).toNat = (m.degree y).toNat := by
    intro y hy
    rw [degree_cons, if_neg (Char.ne_of_lt (hx y hy))]
  rw [degrees, List.map_cons, List.map_congr_left htail, degree_cons, if_pos rfl]
  rfl

/-- The degrees of a monomial that has only letters behind the first of some ascending ones. -/
private theorem degrees_cons_of_forall_mem (hx : ∀ y ∈ xs, x < y) (hm : ∀ p ∈ m, p.symbol ∈ xs) :
    degrees m (x :: xs) = 0 :: degrees m xs := by
  have hzero : m.degree x = 0 := degree_eq_zero fun p hp => (Char.ne_of_lt (hx _ (hm p hp))).symm
  rw [degrees, List.map_cons, hzero]
  rfl

/-- A well formed monomial over some ascending letters either begins with the first of them or has
only the others. -/
private theorem eq_cons_or_forall_mem (hx : ∀ y ∈ xs, x < y) (hm : m.WellFormed)
    (hmx : ∀ p ∈ m, p.symbol ∈ x :: xs) :
    (∃ d m', m = ⟨x, d⟩ :: m' ∧ d ≠ 0 ∧ WellFormed m' ∧ ∀ p ∈ m', p.symbol ∈ xs) ∨
      ∀ p ∈ m, p.symbol ∈ xs := by
  cases m with
  | nil => exact .inr nofun
  | cons p m =>
    obtain ⟨-, hpd, hhead, hm'⟩ := wellFormed_cons_iff.1 hm
    have hbehind : ∀ q ∈ m, x ≤ p.symbol → q.symbol ∈ xs := by
      intro q hq hxp
      have hlt : x < q.symbol := Std.lt_of_le_of_lt hxp (hhead q hq)
      exact List.mem_of_ne_of_mem (Char.ne_of_lt hlt).symm (hmx q (.tail p hq))
    obtain ⟨y, d⟩ := p
    rcases List.mem_cons.1 (hmx ⟨y, d⟩ (.head m)) with rfl | hp
    · exact .inl ⟨d, m, rfl, hpd, hm', fun q hq => hbehind q hq (Std.le_refl y)⟩
    · refine .inr (List.forall_mem_cons.2 ⟨hp, fun q hq => hbehind q hq ?_⟩)
      exact Std.le_of_lt (hx y hp)

/-- A monomial that begins with a letter stands before one that has only later letters. -/
private theorem precedence_cons_of_forall_lt {d : Degree} (hn : ∀ q ∈ n, x < q.symbol) :
    precedence (⟨x, d⟩ :: m) n = .gt := by
  cases n with
  | nil => rfl
  | cons q n =>
    have hgt : compare q.symbol x = .gt := compare_gt_iff_gt.2 (hn q (.head n))
    rw [precedence, Power.precedence, hgt]
    rfl

/-- Over any ascending letters the order is the lexicographic order of the degrees. -/
private theorem precedence_eq_compareLex_degrees_of_mem (hxs : xs.Pairwise (· < ·))
    (hm : m.WellFormed) (hn : n.WellFormed) (hmx : ∀ p ∈ m, p.symbol ∈ xs)
    (hnx : ∀ p ∈ n, p.symbol ∈ xs) :
    m.precedence n = List.compareLex compare (m.degrees xs) (n.degrees xs) := by
  induction xs generalizing m n with
  | nil =>
    obtain rfl : m = [] := List.eq_nil_iff_forall_not_mem.2 fun p hp => nomatch hmx p hp
    obtain rfl : n = [] := List.eq_nil_iff_forall_not_mem.2 fun p hp => nomatch hnx p hp
    rfl
  | cons x xs ih =>
    obtain ⟨hx, hxs⟩ := List.pairwise_cons.1 hxs
    -- a letter that only one of the monomials begins with decides the comparison on both sides
    have hone : ∀ {d : Degree} {m' n' : Monomial}, d ≠ 0 → (∀ p ∈ n', p.symbol ∈ xs) →
        precedence (⟨x, d⟩ :: m') n' =
          List.compareLex compare (degrees (⟨x, d⟩ :: m') (x :: xs)) (degrees n' (x :: xs)) := by
      intro d m' n' hd hn'
      have hpos : compare d.toNat 0 = .gt :=
        compare_gt_iff_gt.2 (Nat.pos_of_ne_zero fun h => hd (UInt32.toNat_inj.1 h))
      rw [precedence_cons_of_forall_lt fun q hq => hx _ (hn' q hq), degrees_cons_of_head hx,
        degrees_cons_of_forall_mem hx hn', List.compareLex_cons_cons, hpos]
      rfl
    rcases eq_cons_or_forall_mem hx hm hmx with ⟨d, m, rfl, hd, hm, hmx⟩ | hmx <;>
      rcases eq_cons_or_forall_mem hx hn hnx with ⟨e, n, rfl, he, hn, hnx⟩ | hnx
    · rw [degrees_cons_of_head hx, degrees_cons_of_head hx, List.compareLex_cons_cons,
        ← ih hxs hm hn hmx hnx, ← compare_degree, precedence, Power.precedence,
        Std.ReflOrd.compare_self]
      rfl
    · exact hone hd hnx
    · have hswap := @Std.OrientedCmp.eq_swap _ (List.compareLex compare) _ (m.degrees (x :: xs))
      rw [precedence_swap, hone he hmx, ← hswap]
    · rw [degrees_cons_of_forall_mem hx hmx, degrees_cons_of_forall_mem hx hnx,
        List.compareLex_cons_cons, ih hxs hm hn hmx hnx]
      rfl

/-- On well formed monomials the order is the lexicographic order of the degrees of all letters. -/
theorem precedence_eq_compareLex_degrees (hm : m.WellFormed) (hn : n.WellFormed) :
    m.precedence n = List.compareLex compare (m.degrees letters) (n.degrees letters) :=
  precedence_eq_compareLex_degrees_of_mem pairwise_letters hm hn
    (fun p hp => mem_letters_iff.2 (hm.letter p hp)) fun p hp => mem_letters_iff.2 (hn.letter p hp)

/-- A well formed monomial has no other letters. -/
theorem degree_eq_zero_of_notMem_letters (hm : m.WellFormed) {x : Char} (hx : x ∉ letters) :
    m.degree x = 0 := by
  refine degree_eq_zero fun p hp hpx => hx ?_
  rw [← hpx]
  exact mem_letters_iff.2 (hm.letter p hp)

/-- Well formed monomials with the same degrees are the same. -/
theorem ext_degree (hm : m.WellFormed) (hn : n.WellFormed)
    (h : ∀ x ∈ letters, m.degree x = n.degree x) : m = n := by
  have hdegrees : m.degrees letters = n.degrees letters :=
    List.map_congr_left fun x hx => congrArg UInt32.toNat (h x hx)
  rw [← precedence_eq_eq_iff, precedence_eq_compareLex_degrees hm hn, hdegrees]
  exact Std.ReflCmp.compare_self

end

/-! ### Products -/

/-- The lexicographic order does not change when the same vector is added to both sides. -/
private theorem compareLex_map_add (f g h : Char → Nat) (xs : List Char) :
    List.compareLex compare (xs.map fun x => f x + g x) (xs.map fun x => f x + h x) =
      List.compareLex compare (xs.map g) (xs.map h) := by
  induction xs with
  | nil => rfl
  | cons x xs ih =>
    have hx : compare (f x + g x) (f x + h x) = compare (g x) (h x) := by
      simp only [Nat.compare_eq_ite_lt, Nat.add_lt_add_iff_left]
    rw [List.map_cons, List.map_cons, List.map_cons, List.map_cons, List.compareLex_cons_cons,
      List.compareLex_cons_cons, hx, ih]

/-- Two monomials whose degrees are those of `n` and `n'` with the same degrees added compare as `n`
and `n'` do. -/
theorem precedence_of_degree_add {m n n' r r' : Monomial} (hn : n.WellFormed) (hn' : n'.WellFormed)
    (hr : r.WellFormed) (hr' : r'.WellFormed)
    (h : ∀ x, (r.degree x).toNat = (m.degree x).toNat + (n.degree x).toNat)
    (h' : ∀ x, (r'.degree x).toNat = (m.degree x).toNat + (n'.degree x).toNat) :
    r.precedence r' = n.precedence n' := by
  have hvector : r.degrees letters = letters.map fun x => (m.degree x).toNat + (n.degree x).toNat :=
    List.map_congr_left fun x _ => h x
  have hvector' :
      r'.degrees letters = letters.map fun x => (m.degree x).toNat + (n'.degree x).toNat :=
    List.map_congr_left fun x _ => h' x
  rw [precedence_eq_compareLex_degrees hr hr', precedence_eq_compareLex_degrees hn hn', hvector,
    hvector', compareLex_map_add]
  rfl

end Monomial

instance : Std.TransCmp Term.precedence where
  eq_swap := Monomial.precedence_swap _ _
  isLE_trans {_ u _} := @Std.TransCmp.isLE_trans _ Monomial.precedence _ _ u.monomial _

end SparsePoly
