import SparsePoly.Proofs.Language

/-!
# Other ways to write a polynomial

The terms of a text may be written in another order, and in each term the letters with their
degrees. A first plus may be added or left out, and every term that moves behind another one needs a
sign. None of this matters for what is read. A term that is rewritten in this way stands for the
same polynomial, and a text of terms in range is read by combining them, which is exact; so the
outcome depends on the sums of like terms only, and these do not depend on an order. It makes no
difference either whether a sum leaves the range on the way: a text overflows when a whole sum is
out of range.

* `WrittenTerm.Rewrites`, `WrittenTerm.Arranges`: terms that are written in another way.
* `Polynomial.exact_ofText_arranged`: reading terms in range is exact, however they are arranged.
* `Polynomial.ofText_arranged`: all arrangements of terms are read in the same way.
-/

namespace SparsePoly

namespace WrittenTerm

/-! ### Rewriting one term -/

/-- A term is written in another way: with its letters in another order, and perhaps with a plus
that was missing or without one that was there. -/
structure Rewrites (t u : WrittenTerm) : Prop where
  /-- Both terms have a minus or none has. -/
  sign : u.sign.getD false = t.sign.getD false
  /-- The coefficient is written with the same digits. -/
  digits : u.digits = t.digits
  /-- The letters with their degrees are the same in some order. -/
  powers : u.powers.Perm t.powers

instance (t u : WrittenTerm) : Decidable (t.Rewrites u) :=
  decidable_of_iff (u.sign.getD false = t.sign.getD false ∧ u.digits = t.digits ∧
      u.powers.Perm t.powers)
    ⟨fun ⟨hsign, hdigits, hpowers⟩ => ⟨hsign, hdigits, hpowers⟩,
      fun h => ⟨h.sign, h.digits, h.powers⟩⟩

namespace Rewrites

variable {t u : WrittenTerm}

/-- The coefficient stays the same. -/
theorem coefficient_eq (h : t.Rewrites u) : u.coefficient = t.coefficient := by
  rw [coefficient, coefficient, h.sign, h.digits]

/-- The term stands for the same polynomial. -/
theorem meaning_eq (h : t.Rewrites u) : u.meaning = t.meaning := by
  have hexponents : u.exponents = t.exponents := (h.powers.map _).sum_eq
  rw [meaning, meaning, hexponents, h.coefficient_eq]

/-- The term stays in the grammar. -/
theorem wellFormed (h : t.Rewrites u) (ht : t.WellFormed) : u.WellFormed where
  digit := h.digits ▸ ht.digit
  power p hp := ht.power p (h.powers.mem_iff.1 hp)
  body := ht.body.imp (h.digits ▸ ·) fun hne hnil => hne (hnil ▸ h.powers).nil_eq.symm
  distinct := (h.powers.map _).nodup_iff.2 ht.distinct

/-- The term stays in range. -/
theorem inRange (h : t.Rewrites u) (ht : t.InRange) : u.InRange where
  coefficient := h.coefficient_eq ▸ ht.coefficient
  degree p hp := ht.degree p (h.powers.mem_iff.1 hp)

variable {vs us : List WrittenTerm}

/-- In a row of rewritten terms every term is one of the given terms in another way. -/
theorem exists_of_forall₂ (h : List.Forall₂ Rewrites vs us) : ∀ u ∈ us, ∃ v ∈ vs, v.Rewrites u := by
  induction h with
  | nil => exact nofun
  | cons hvu _ ih =>
    refine List.forall_mem_cons.2 ⟨⟨_, .head _, hvu⟩, fun u hu => ?_⟩
    obtain ⟨v, hv, hvu⟩ := ih u hu
    exact ⟨v, .tail _ hv, hvu⟩

/-- Rewritten terms stand for the same polynomials in a row. -/
theorem map_meaning_eq (h : List.Forall₂ Rewrites vs us) : us.map meaning = vs.map meaning := by
  induction h with
  | nil => rfl
  | cons hvu _ ih => rw [List.map_cons, List.map_cons, hvu.meaning_eq, ih]

end Rewrites

/-! ### Arranging terms -/

/-- The text of a row of terms. -/
def text (ts : List WrittenTerm) : String := String.ofList (ts.flatMap chars)

theorem toList_text (ts : List WrittenTerm) : (text ts).toList = ts.flatMap chars :=
  String.toList_ofList

/-- A row of terms consists of given terms in some order, each written in some way, and all but the
first have a sign. -/
structure Arranges (ts us : List WrittenTerm) : Prop where
  /-- The terms are the given ones in some order, each written in some way. -/
  rewrites : ∃ vs, vs.Perm ts ∧ List.Forall₂ Rewrites vs us
  /-- All terms but the first have a sign. -/
  signed : ∀ u ∈ us.tail, u.sign.isSome = true

namespace Arranges

variable {ts us : List WrittenTerm}

/-- Every term of an arrangement is a given one, written in some way. -/
theorem exists_rewrites (h : Arranges ts us) : ∀ u ∈ us, ∃ t ∈ ts, t.Rewrites u := by
  intro u hu
  obtain ⟨⟨vs, hperm, hvs⟩, -⟩ := h
  obtain ⟨v, hv, hvu⟩ := Rewrites.exists_of_forall₂ hvs u hu
  exact ⟨v, hperm.mem_iff.1 hv, hvu⟩

/-- An arrangement stands for the same polynomial. -/
theorem sum_meaning_eq (h : Arranges ts us) :
    (us.map meaning).sum = (ts.map meaning).sum := by
  obtain ⟨⟨vs, hperm, hvs⟩, -⟩ := h
  rw [Rewrites.map_meaning_eq hvs, (hperm.map meaning).sum_eq]

/-- Some terms have no empty arrangement. -/
theorem ne_nil (h : Arranges ts us) (hne : ts ≠ []) : us ≠ [] := by
  rintro rfl
  obtain ⟨⟨vs, hperm, hvs⟩, -⟩ := h
  cases hvs
  exact hne hperm.nil_eq.symm

/-- The text of an arrangement of terms of the grammar belongs to the grammar. -/
theorem writes_text (h : Arranges ts us) (hne : ts ≠ []) (hts : ∀ t ∈ ts, t.WellFormed) :
    Writes us (text us).toList where
  ne_nil := h.ne_nil hne
  wellFormed u hu := by
    obtain ⟨t, ht, htu⟩ := h.exists_rewrites u hu
    exact htu.wellFormed (hts t ht)
  signed := h.signed
  text_eq := toList_text us

/-- The terms of an arrangement of terms in range are in range. -/
theorem inRange (h : Arranges ts us) (hrange : ∀ t ∈ ts, t.InRange) : ∀ u ∈ us, u.InRange := by
  intro u hu
  obtain ⟨t, ht, htu⟩ := h.exists_rewrites u hu
  exact htu.inRange (hrange t ht)

/-- The sums of like terms are the same in an arrangement. -/
theorem sumAt_eq {m : Monomial} (h : Arranges ts us) (hts : ∀ t ∈ ts, t.Lexical)
    (hus : ∀ u ∈ us, u.Lexical) (hm : m.WellFormed) : sumAt m us = sumAt m ts := by
  rw [← coeff_sum_meaning hus hm, ← coeff_sum_meaning hts hm, h.sum_meaning_eq]

end Arranges

end WrittenTerm

namespace Polynomial

open WrittenTerm (Arranges sumAt text)

variable {ts us : List WrittenTerm}

/-! ### Reading arranged terms -/

/-- Terms of the grammar that are in range are read exactly, in whatever way they are arranged. -/
theorem exact_ofText_arranged (hne : ts ≠ []) (hts : ∀ t ∈ ts, t.WellFormed)
    (hrange : ∀ t ∈ ts, t.InRange) (h : Arranges ts us) :
    Exact (fun m => sumAt m ts) (fun _ => .coefficientSum) (ofText (text us)) := by
  have hwrites := h.writes_text hne hts
  have hlexical : ∀ t ∈ ts, t.Lexical := fun t ht => (hts t ht).toLexical
  exact (exact_ofText hwrites (h.inRange hrange)).congr_integers fun m hm =>
    h.sumAt_eq hlexical hwrites.separated.lexical hm

/-- A term that is read on its own belongs to the grammar and is in range. -/
theorem wellFormed_inRange_of_ofText_singleton {t : WrittenTerm} {p : Polynomial} (ht : t.Lexical)
    (h : ofText (text [t]) = .ok p) : t.WellFormed ∧ t.InRange := by
  have hne : t.lexemes ≠ [] := by
    intro hnil
    have hchars : [t].flatMap WrittenTerm.chars = [] := by
      rw [← WrittenTerm.flatMap_lexemes, List.flatMap_singleton, hnil]
      rfl
    rw [text, hchars] at h
    contradiction
  have hseparated : WrittenTerm.Separated [t] :=
    WrittenTerm.separated_cons_iff.2 ⟨ht, hne, WrittenTerm.separated_nil, nofun⟩
  exact wellFormed_inRange_of_ofText hseparated nofun (WrittenTerm.toList_text [t]) h t (.head [])

/-- Reading does not depend on the order of writing. Take some terms, at least one, each of which is
read when it stands alone. All texts with these terms in some order, each with its letters in some
order and all but the first with a sign, are read in the same way. They are either read as the
canonical polynomial with the sums of like terms as coefficients, or overflow in a sum of
coefficients, because one of these sums is out of range. -/
theorem ofText_arranged (hne : ts ≠ []) (hts : ∀ t ∈ ts, t.Lexical)
    (hread : ∀ t ∈ ts, ∃ p, ofText (text [t]) = .ok p) :
    (∀ us vs, Arranges ts us → Arranges ts vs → ofText (text us) = ofText (text vs)) ∧
    (∀ us, Arranges ts us →
      (∃ p, ofText (text us) = .ok p ∧ p.Canonical ∧
        ∀ m : Monomial, m.WellFormed → p.coefficientAt m = sumAt m ts) ∨
      ofText (text us) = .error (.overflow .coefficientSum) ∧
        ∃ m : Monomial, m.WellFormed ∧ ¬ Coefficient.Fits (sumAt m ts)) ∧
    Overflow.coefficientSum.description = "coefficient sum exceeds i64" := by
  have hterms : ∀ t ∈ ts, t.WellFormed ∧ t.InRange := by
    intro t ht
    obtain ⟨p, hp⟩ := hread t ht
    exact wellFormed_inRange_of_ofText_singleton (hts t ht) hp
  have hexact : ∀ us, Arranges ts us →
      Exact (fun m => sumAt m ts) (fun _ => .coefficientSum) (ofText (text us)) :=
    fun us => exact_ofText_arranged hne (fun t ht => (hterms t ht).1) fun t ht => (hterms t ht).2
  refine ⟨fun us vs hus hvs => (hexact us hus).unique (hexact vs hvs), fun us hus => ?_, rfl⟩
  cases houtcome : ofText (text us) with
  | ok p => exact .inl ⟨p, rfl, (hexact us hus).eq_ok p houtcome⟩
  | error e =>
    obtain ⟨m, hm, rfl⟩ := (hexact us hus).eq_error e houtcome
    exact .inr ⟨rfl, m, hm.wellFormed, hm.not_fits⟩

/-- Two arrangements of the largest coefficient of `x2y`, one more and two less. In the first one
the coefficients leave the range on the way, and the polynomial is the same. -/
theorem ofText_arranged_passing_range :
    let most : WrittenTerm :=
      ⟨none, "9223372036854775807".toList, [⟨'y', []⟩, ⟨'x', ['2']⟩]⟩
    let one : WrittenTerm := ⟨some false, [], [⟨'x', ['2']⟩, ⟨'y', []⟩]⟩
    let two : WrittenTerm := ⟨some true, ['2'], [⟨'x', ['2']⟩, ⟨'y', []⟩]⟩
    let ts := [most, one, two]
    let us := [most, one, { two with powers := two.powers.reverse }]
    let vs := [two, { most with sign := some false, powers := most.powers.reverse }, one]
    (∀ t ∈ ts, t.Lexical) ∧ (∀ t ∈ ts, ∃ p, ofText (text [t]) = .ok p) ∧
      text us = "9223372036854775807yx2+x2y-2yx2" ∧
      text vs = "-2x2y+9223372036854775807x2y+x2y" ∧ Arranges ts us ∧ Arranges ts vs ∧
      ofText (text us) = .ok ⟨[⟨9223372036854775806, [⟨'x', 2⟩, ⟨'y', 1⟩]⟩]⟩ ∧
      ofText (text us) = ofText (text vs) := by
  intro most one two ts us vs
  have hts : ∀ t ∈ ts, t.Lexical := by decide
  have hmost : ofText (text [most]) = .ok ⟨[⟨9223372036854775807, [⟨'x', 2⟩, ⟨'y', 1⟩]⟩]⟩ := by
    decide +kernel
  have hone : ofText (text [one]) = .ok ⟨[⟨1, [⟨'x', 2⟩, ⟨'y', 1⟩]⟩]⟩ := by decide +kernel
  have htwo : ofText (text [two]) = .ok ⟨[⟨-2, [⟨'x', 2⟩, ⟨'y', 1⟩]⟩]⟩ := by decide +kernel
  have hread : ∀ t ∈ ts, ∃ p, ofText (text [t]) = .ok p := by
    simp only [ts, List.forall_mem_cons]
    exact ⟨⟨_, hmost⟩, ⟨_, hone⟩, ⟨_, htwo⟩, List.forall_mem_nil _⟩
  have hus : Arranges ts us :=
    ⟨⟨ts, .refl ts, .cons (by decide) (.cons (by decide) (.cons (by decide) .nil))⟩, by decide⟩
  have hvs : Arranges ts vs :=
    ⟨⟨[two, most, one], by decide,
      .cons (by decide) (.cons (by decide) (.cons (by decide) .nil))⟩, by decide⟩
  have hterms : (Token.scan (text us).toList >>= readTerms) =
      .ok [⟨9223372036854775807, [⟨'x', 2⟩, ⟨'y', 1⟩]⟩, ⟨1, [⟨'x', 2⟩, ⟨'y', 1⟩]⟩,
        ⟨-2, [⟨'x', 2⟩, ⟨'y', 1⟩]⟩] := by decide +kernel
  have hofText : ofText (text us) = .ok ⟨[⟨9223372036854775806, [⟨'x', 2⟩, ⟨'y', 1⟩]⟩]⟩ :=
    (ofText_eq_ofTerms hterms).trans (by cbv)
  have hne : ts ≠ [] := List.cons_ne_nil most [one, two]
  obtain ⟨hsame, -⟩ := ofText_arranged hne hts hread
  exact ⟨hts, hread, by decide, by decide, hus, hvs, hofText, hsame us vs hus hvs⟩

end Polynomial

end SparsePoly
