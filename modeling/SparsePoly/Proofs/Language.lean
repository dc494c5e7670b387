import SparsePoly.Proofs.Exact
import SparsePoly.Proofs.Reading

/-!
# The language of polynomial texts

A text is read as a polynomial exactly when it belongs to the grammar of `Writes`, all its numerals
are in range, and so are the sums of like terms; the polynomial then has these sums as
coefficients. Reading one written term yields a term that stands for the same polynomial
(`WrittenTerm.read_eq_ok`), whatever the order of its letters and whether or not degrees are zero,
and adding up the terms is exact.

* `Polynomial.exact_ofText`: reading a text whose numerals are in range is exact.
* `Polynomial.ofText_eq_ok_iff`: what a text of the grammar is read as.
* `Polynomial.exists_ofText_eq_ok_iff`: which texts of the grammar are read.
* `Polynomial.exists_writes_of_ofText`: nothing else is read.
* `Polynomial.ofText_accepts_grammar`: the three together, by coefficients.
-/

namespace SparsePoly

open MvPolynomial (coeff)

/-! ### Powers -/

/-- The power that a written power is read as. -/
structure WrittenPower.ReadAs (p : WrittenPower) (q : Power) : Prop where
  /-- The letter is the written one. -/
  symbol : q.symbol = p.letter
  /-- The degree is the written one. -/
  degree : q.degree.toNat = p.degree

theorem readPower_eq_ok_iff {used : LetterSet} {p : WrittenPower} {q : Power} {n : Nat} :
    readPower used p.letter n (Degree.checked p.degree) = .ok q ↔
      used.contains p.letter = false ∧ p.ReadAs q := by
  unfold readPower
  by_cases hused : used.contains p.letter = true
  · rw [if_pos hused]
    refine ⟨nofun, fun h => ?_⟩
    rw [h.1] at hused
    contradiction
  · rw [if_neg hused, bind_eq_ok_iff]
    constructor
    · rintro ⟨d, hd, h⟩
      cases h
      exact ⟨Bool.eq_false_iff.2 hused, rfl, Degree.checked_eq_ok_iff.1 hd⟩
    · rintro ⟨-, hsymbol, hdegree⟩
      refine ⟨q.degree, Degree.checked_eq_ok_iff.2 hdegree, ?_⟩
      rw [← hsymbol]
      rfl

namespace WrittenPower

/-- The exponent function of a written power. -/
noncomputable def exponent (p : WrittenPower) : Char →₀ Nat :=
  .single p.letter p.degree

variable {ps : List WrittenPower} {qs : List Power} {n : Nat}

/-- Written powers are read exactly when their letters are new and distinct, each as its letter
with its degree. -/
theorem readAll_eq_ok_iff {used : LetterSet} (hps : ∀ p ∈ ps, p.letter.isLower = true) :
    readAll used n ps = .ok qs ↔
      (∀ p ∈ ps, used.contains p.letter = false) ∧ (ps.map letter).Nodup ∧
        List.Forall₂ ReadAs ps qs := by
  induction ps generalizing used n qs with
  | nil =>
    constructor
    · intro h
      cases h
      exact ⟨nofun, .nil, .nil⟩
    · rintro ⟨-, -, h⟩
      cases h
      rfl
  | cons p ps ih =>
    obtain ⟨hp, hps⟩ := List.forall_mem_cons.1 hps
    have hinsert : ∀ q ∈ ps, ((used.insert p.letter).contains q.letter = false ↔
        used.contains q.letter = false ∧ p.letter ≠ q.letter) := by
      intro q hq
      rw [LetterSet.contains_insert hp (hps q hq), Bool.or_eq_false_iff, decide_eq_false_iff_not]
    -- the letters are new after `p` when they were new before and none is that of `p`
    have hnew : (∀ q ∈ ps, (used.insert p.letter).contains q.letter = false) ↔
        (∀ q ∈ ps, used.contains q.letter = false) ∧ p.letter ∉ ps.map letter := by
      constructor
      · intro h
        refine ⟨fun q hq => ((hinsert q hq).1 (h q hq)).1, fun hmem => ?_⟩
        obtain ⟨q, hq, hqp⟩ := List.mem_map.1 hmem
        exact ((hinsert q hq).1 (h q hq)).2 hqp.symm
      · rintro ⟨hused, hmem⟩ q hq
        refine (hinsert q hq).2 ⟨hused q hq, fun hpq => hmem ?_⟩
        exact List.mem_map.2 ⟨q, hq, hpq.symm⟩
    rw [readAll, bind_eq_ok_iff]
    constructor
    · rintro ⟨q, hq, h⟩
      obtain ⟨qs, hqs, h⟩ := bind_eq_ok_iff.1 h
      cases h
      obtain ⟨hpused, hpq⟩ := readPower_eq_ok_iff.1 hq
      obtain ⟨hused, hnodup, hread⟩ := (ih hps).1 hqs
      obtain ⟨hused, hmem⟩ := hnew.1 hused
      exact ⟨List.forall_mem_cons.2 ⟨hpused, hused⟩, List.nodup_cons.2 ⟨hmem, hnodup⟩,
        .cons hpq hread⟩
    · rintro ⟨hused, hnodup, hread⟩
      obtain ⟨hpused, hused⟩ := List.forall_mem_cons.1 hused
      obtain ⟨hmem, hnodup⟩ := List.nodup_cons.1 hnodup
      cases hread with
      | cons hpq hread =>
        refine ⟨_, readPower_eq_ok_iff.2 ⟨hpused, hpq⟩, bind_eq_ok_iff.2 ⟨_, ?_, rfl⟩⟩
        exact (ih hps).2 ⟨hnew.2 ⟨hused, hmem⟩, hnodup, hread⟩

/-- Written powers whose degrees fit can be read as powers. -/
theorem exists_forall₂_readAs (h : ∀ p ∈ ps, Degree.Fits p.degree) :
    ∃ qs, List.Forall₂ ReadAs ps qs := by
  induction ps with
  | nil => exact ⟨[], .nil⟩
  | cons p ps ih =>
    obtain ⟨hp, hps⟩ := List.forall_mem_cons.1 h
    obtain ⟨qs, hqs⟩ := ih hps
    exact ⟨⟨p.letter, UInt32.ofNat p.degree⟩ :: qs,
      .cons ⟨rfl, UInt32.toNat_ofNat_of_lt' hp⟩ hqs⟩

/-- Powers have the letters and the exponents that are written for them. -/
theorem exponents_of_readAs (h : List.Forall₂ ReadAs ps qs) :
    qs.map Power.symbol = ps.map letter ∧ Monomial.exponents qs = (ps.map exponent).sum := by
  induction h with
  | nil => exact ⟨rfl, rfl⟩
  | cons hpq _ ih =>
    rw [List.map_cons, List.map_cons, ih.1, hpq.symbol, Monomial.exponents_cons, ih.2,
      List.map_cons, List.sum_cons, Power.exponent, exponent, hpq.symbol, hpq.degree]
    exact ⟨rfl, rfl⟩

/-- The exponent of a letter is the sum of the degrees written for it. -/
theorem sum_exponent_apply (ps : List WrittenPower) (x : Char) :
    (ps.map exponent).sum x = ((ps.filter fun p => p.letter = x).map degree).sum :=
  sum_single_apply letter degree ps x

/-- A power is read with a degree that fits. -/
theorem fits_of_readAs (h : List.Forall₂ ReadAs ps qs) : ∀ p ∈ ps, Degree.Fits p.degree := by
  induction h with
  | nil => exact nofun
  | cons hpq _ ih =>
    refine List.forall_mem_cons.2 ⟨?_, ih⟩
    rw [← hpq.degree]
    exact UInt32.toNat_lt _

/-- Powers that are read for distinct letters make a term with every coefficient. -/
theorem exists_ofPowers_eq_ok (hps : ∀ p ∈ ps, p.letter.isLower = true)
    (hdistinct : (ps.map letter).Nodup) (h : List.Forall₂ ReadAs ps qs) (c : Coefficient) :
    ∃ u, Term.ofPowers c qs = .ok u := by
  have hsymbols := (exponents_of_readAs h).1
  refine Term.exists_ofPowers_eq_ok (fun q hq => ?_) (hsymbols ▸ hdistinct) c
  have hmem := List.mem_map_of_mem (f := Power.symbol) hq
  rw [hsymbols] at hmem
  obtain ⟨p, hp, hpq⟩ := List.mem_map.1 hmem
  rw [← hpq]
  exact hps p hp

end WrittenPower

/-! ### Terms -/

namespace WrittenTerm

/-- The exponent function of a written term. -/
noncomputable def exponents (t : WrittenTerm) : Char →₀ Nat :=
  (t.powers.map WrittenPower.exponent).sum

/-- The polynomial that a written term stands for. -/
noncomputable def meaning (t : WrittenTerm) : MvPolynomial Char Int :=
  MvPolynomial.monomial t.exponents t.coefficient

variable {t : WrittenTerm} {ts : List WrittenTerm} {u : Term} {us : List Term} {m : Monomial}
  {n : Nat}

theorem exponents_apply (t : WrittenTerm) (x : Char) : t.exponents x = t.degree x :=
  WrittenPower.sum_exponent_apply t.powers x

/-- A written term denotes the monomial that has its exponents. -/
theorem denotes_iff (ht : t.Lexical) (hm : m.WellFormed) :
    t.Denotes m ↔ t.exponents = m.exponents := by
  constructor
  · intro h
    ext x
    rw [exponents_apply, Monomial.exponents_apply hm]
    by_cases hx : x ∈ letters
    · exact (h x hx).symm
    · -- a letter outside of `letters` is neither written nor in the monomial
      have hnone : (t.powers.filter fun p => p.letter = x) = [] := by
        refine List.filter_eq_nil_iff.2 fun p hp hpx => hx ?_
        rw [← of_decide_eq_true hpx]
        exact mem_letters_iff.2 (ht.power p hp).letter
      rw [degree, hnone, Monomial.degree_eq_zero_of_notMem_letters hm hx]
      rfl
  · intro h x _
    rw [← exponents_apply, h, Monomial.exponents_apply hm]

/-- A term that is read belongs to the grammar, is in range and stands for what is written. -/
theorem read_eq_ok (ht : t.Lexical) (h : t.read n = .ok u) :
    t.WellFormed ∧ t.InRange ∧ u.WellFormed ∧ u.meaning = t.meaning := by
  obtain ⟨c, hc, h⟩ := bind_eq_ok_iff.1 h
  obtain ⟨powers, hpowers, h⟩ := bind_eq_ok_iff.1 h
  split at h
  · contradiction
  · next hbody =>
    obtain ⟨-, hdistinct, hread⟩ :=
      (WrittenPower.readAll_eq_ok_iff fun p hp => (ht.power p hp).letter).1 hpowers
    have hcoefficient : c.toInt = t.coefficient := Coefficient.checked_eq_ok_iff.1 hc
    refine ⟨⟨ht, bodyLexemes_ne_nil_iff.1 hbody, hdistinct⟩,
      ⟨?_, WrittenPower.fits_of_readAs hread⟩, Term.wellFormed_ofPowers h, ?_⟩
    · rw [← hcoefficient]
      exact Coefficient.fits_toInt c
    · rw [Term.meaning_ofPowers h, (WrittenPower.exponents_of_readAs hread).2, hcoefficient]
      rfl

/-- A term of the grammar that is in range is read. -/
theorem exists_read_eq_ok (ht : t.WellFormed) (hrange : t.InRange) (n : Nat) :
    ∃ u, t.read n = .ok u := by
  have hletter : ∀ p ∈ t.powers, p.letter.isLower = true := fun p hp => (ht.power p hp).letter
  obtain ⟨powers, hread⟩ := WrittenPower.exists_forall₂_readAs hrange.degree
  obtain ⟨c, hc⟩ : ∃ c, Coefficient.checked .coefficient t.coefficient = .ok c :=
    ⟨Int64.ofInt t.coefficient, if_pos hrange.coefficient⟩
  obtain ⟨u, hu⟩ := WrittenPower.exists_ofPowers_eq_ok hletter ht.distinct hread c
  have hbody : t.bodyLexemes ≠ [] := bodyLexemes_ne_nil_iff.2 ht.body
  refine ⟨u, bind_eq_ok_iff.2 ⟨c, hc, bind_eq_ok_iff.2 ⟨powers, ?_, (if_neg hbody).trans hu⟩⟩⟩
  exact (WrittenPower.readAll_eq_ok_iff hletter).2
    ⟨fun p _ => LetterSet.contains_empty p.letter, ht.distinct, hread⟩

/-- Terms that are read belong to the grammar, are in range and stand for what is written. -/
theorem readAll_eq_ok (hts : ∀ t ∈ ts, t.Lexical) (h : readAll n ts = .ok us) :
    (∀ t ∈ ts, t.WellFormed ∧ t.InRange) ∧ (∀ u ∈ us, u.WellFormed) ∧
      Polynomial.meaning ⟨us⟩ = (ts.map meaning).sum := by
  induction ts generalizing n us with
  | nil =>
    cases h
    exact ⟨nofun, nofun, rfl⟩
  | cons t ts ih =>
    obtain ⟨ht, hts⟩ := List.forall_mem_cons.1 hts
    obtain ⟨u, hu, h⟩ := bind_eq_ok_iff.1 h
    obtain ⟨us, hus, h⟩ := bind_eq_ok_iff.1 h
    cases h
    obtain ⟨hwf, hrange, huwf, hmeaning⟩ := read_eq_ok ht hu
    obtain ⟨htail, huswf, hsum⟩ := ih hts hus
    refine ⟨List.forall_mem_cons.2 ⟨⟨hwf, hrange⟩, htail⟩,
      List.forall_mem_cons.2 ⟨huwf, huswf⟩, ?_⟩
    rw [Polynomial.meaning_cons, hmeaning, hsum, List.map_cons, List.sum_cons]

/-- Terms of the grammar that are in range are read. -/
theorem exists_readAll_eq_ok (hts : ∀ t ∈ ts, t.WellFormed) (hrange : ∀ t ∈ ts, t.InRange)
    (n : Nat) : ∃ us, readAll n ts = .ok us := by
  induction ts generalizing n with
  | nil => exact ⟨[], rfl⟩
  | cons t ts ih =>
    obtain ⟨ht, hts⟩ := List.forall_mem_cons.1 hts
    obtain ⟨htrange, hrange⟩ := List.forall_mem_cons.1 hrange
    obtain ⟨u, hu⟩ := exists_read_eq_ok ht htrange n
    obtain ⟨us, hus⟩ := ih hts hrange (n + t.chars.length)
    exact ⟨u :: us, bind_eq_ok_iff.2 ⟨u, hu, bind_eq_ok_iff.2 ⟨us, hus, rfl⟩⟩⟩

/-- The coefficients of what is written are the sums over the terms that denote a monomial. -/
theorem coeff_sum_meaning (hts : ∀ t ∈ ts, t.Lexical) (hm : m.WellFormed) :
    coeff m.exponents (ts.map meaning).sum = sumAt m ts := by
  induction ts with
  | nil => exact MvPolynomial.coeff_zero _
  | cons t ts ih =>
    obtain ⟨ht, hts⟩ := List.forall_mem_cons.1 hts
    rw [List.map_cons, List.sum_cons, MvPolynomial.coeff_add, ih hts, meaning,
      MvPolynomial.coeff_monomial, sumAt, sumAt]
    by_cases hden : t.Denotes m
    · rw [if_pos ((denotes_iff ht hm).1 hden), List.filter_cons_of_pos (by simpa using hden),
        List.map_cons, List.sum_cons]
    · rw [if_neg fun h => hden ((denotes_iff ht hm).2 h),
        List.filter_cons_of_neg (by simpa using hden), zero_add]

end WrittenTerm

/-! ### Texts -/

/-- The terms of a text are separated. -/
theorem Writes.separated {ts : List WrittenTerm} {text : List Char} (h : Writes ts text) :
    WrittenTerm.Separated ts := by
  refine ⟨fun t ht => (h.wellFormed t ht).toLexical, fun t ht => ?_, h.signed⟩
  have hbody := WrittenTerm.bodyLexemes_ne_nil_iff.2 (h.wellFormed t ht).body
  exact List.append_ne_nil_of_right_ne_nil _ hbody

namespace Polynomial

variable {s : String} {ts : List WrittenTerm} {p : Polynomial}

/-- What is written determines the coefficients of a term list that it stands for. -/
private theorem coefficientAt_eq_sumAt {m : Monomial} (hts : ∀ t ∈ ts, t.Lexical)
    (hp : ∀ t ∈ p.terms, t.WellFormed)
    (hmeaning : p.meaning = (ts.map WrittenTerm.meaning).sum) (hm : m.WellFormed) :
    p.coefficientAt m = WrittenTerm.sumAt m ts := by
  rw [← coeff_meaning hp hm, hmeaning, WrittenTerm.coeff_sum_meaning hts hm]

/-- Separated terms whose text is read belong to the grammar and are in range. -/
theorem wellFormed_inRange_of_ofText (hts : WrittenTerm.Separated ts) (hne : ts ≠ [])
    (htext : s.toList = ts.flatMap WrittenTerm.chars) (h : ofText s = .ok p) :
    ∀ t ∈ ts, t.WellFormed ∧ t.InRange := by
  rw [ofText_eq_readAll hts hne htext] at h
  obtain ⟨us, hus, -⟩ := bind_eq_ok_iff.1 h
  exact (WrittenTerm.readAll_eq_ok hts.lexical hus).1

/-- Only texts of the grammar are read. -/
theorem exists_writes_of_ofText (h : ofText s = .ok p) : ∃ ts, Writes ts s.toList := by
  obtain ⟨tokens, hscan, hread⟩ := bind_eq_ok_iff.1 h
  obtain ⟨ts, hts, htext, rfl⟩ := Token.scan_eq_ok_iff_separated.1 hscan
  have hne : ts ≠ [] := by
    rintro rfl
    contradiction
  have hterms := wellFormed_inRange_of_ofText hts hne htext h
  exact ⟨ts, hne, fun t ht => (hterms t ht).1, hts.signed, htext⟩

/-- A text of the grammar with its numerals in range is read as the terms that it writes. -/
theorem exists_ofText_eq_ofTerms (h : Writes ts s.toList) (hrange : ∀ t ∈ ts, t.InRange) :
    ∃ us, (∀ u ∈ us, u.WellFormed) ∧ meaning ⟨us⟩ = (ts.map WrittenTerm.meaning).sum ∧
      ofText s = ofTerms us := by
  obtain ⟨us, hus⟩ := WrittenTerm.exists_readAll_eq_ok h.wellFormed hrange 0
  obtain ⟨-, hwf, hmeaning⟩ := WrittenTerm.readAll_eq_ok h.separated.lexical hus
  refine ⟨us, hwf, hmeaning, ?_⟩
  rw [ofText_eq_readAll h.separated h.ne_nil h.text_eq, hus]
  rfl

/-- A text of the grammar with its numerals in range is read exactly: the coefficients are the sums
of like terms. -/
theorem exact_ofText (h : Writes ts s.toList) (hrange : ∀ t ∈ ts, t.InRange) :
    Exact (fun m => WrittenTerm.sumAt m ts) (fun _ => .coefficientSum) (ofText s) := by
  obtain ⟨us, hwf, hmeaning, hofText⟩ := exists_ofText_eq_ofTerms h hrange
  rw [hofText]
  exact (exact_ofTerms hwf).congr_integers fun m hm =>
    coefficientAt_eq_sumAt h.separated.lexical (p := ⟨us⟩) hwf hmeaning hm

/-- The numerals of a text that is read are in range. -/
private theorem inRange_of_ofText (h : Writes ts s.toList) (hp : ofText s = .ok p) :
    ∀ t ∈ ts, t.InRange :=
  fun t ht => (wellFormed_inRange_of_ofText h.separated h.ne_nil h.text_eq hp t ht).2

/-- A text of the grammar is read as the canonical polynomial that it stands for, if its numerals
are in range. -/
theorem ofText_eq_ok_iff (h : Writes ts s.toList) :
    ofText s = .ok p ↔
      (∀ t ∈ ts, t.InRange) ∧ p.Canonical ∧ p.meaning = (ts.map WrittenTerm.meaning).sum := by
  constructor
  · intro hp
    have hrange := inRange_of_ofText h hp
    obtain ⟨us, hwf, hmeaning, hofText⟩ := exists_ofText_eq_ofTerms h hrange
    rw [hofText, ofTerms_eq_ok_iff hwf, hmeaning] at hp
    exact ⟨hrange, hp⟩
  · rintro ⟨hrange, hp⟩
    obtain ⟨us, hwf, hmeaning, hofText⟩ := exists_ofText_eq_ofTerms h hrange
    rw [hofText, ofTerms_eq_ok_iff hwf, hmeaning]
    exact hp

example : ofText "-y2x3" = .ok ⟨[⟨-1, [⟨'x', 3⟩, ⟨'y', 2⟩]⟩]⟩ := by decide +kernel

/-- What is read is canonical. -/
theorem canonical_ofText (hp : ofText s = .ok p) : p.Canonical := by
  obtain ⟨ts, hts⟩ := exists_writes_of_ofText hp
  exact ((ofText_eq_ok_iff hts).1 hp).2.1

/-- A text of the grammar is read exactly when its numerals and the sums of its like terms are in
range. -/
theorem exists_ofText_eq_ok_iff (h : Writes ts s.toList) :
    (∃ p, ofText s = .ok p) ↔
      (∀ t ∈ ts, t.InRange) ∧
        ∀ m : Monomial, m.WellFormed → Coefficient.Fits (WrittenTerm.sumAt m ts) := by
  constructor
  · rintro ⟨p, hp⟩
    have hrange := inRange_of_ofText h hp
    exact ⟨hrange, (exact_ofText h hrange).exists_eq_ok_iff.1 ⟨p, hp⟩⟩
  · rintro ⟨hrange, hsums⟩
    exact (exact_ofText h hrange).exists_eq_ok_iff.2 hsums

/-- A text is read as a polynomial exactly when it belongs to the grammar, its numerals are in
range and so are the sums of its like terms; it is read as the canonical polynomial with these sums
as coefficients. -/
theorem ofText_accepts_grammar (s : String) :
    ((∃ p, ofText s = .ok p) ↔
      ∃ ts, Writes ts s.toList ∧ (∀ t ∈ ts, t.InRange) ∧
        ∀ m : Monomial, m.WellFormed → Coefficient.Fits (WrittenTerm.sumAt m ts)) ∧
    ∀ ts p, Writes ts s.toList →
      (ofText s = .ok p ↔
        (∀ t ∈ ts, t.InRange) ∧ p.Canonical ∧
          ∀ m : Monomial, m.WellFormed → p.coefficientAt m = WrittenTerm.sumAt m ts) := by
  constructor
  · constructor
    · rintro ⟨p, hp⟩
      obtain ⟨ts, hts⟩ := exists_writes_of_ofText hp
      exact ⟨ts, hts, (exists_ofText_eq_ok_iff hts).1 ⟨p, hp⟩⟩
    · rintro ⟨ts, hts, hsums⟩
      exact (exists_ofText_eq_ok_iff hts).2 hsums
  · intro ts p hts
    have hlexical := hts.separated.lexical
    rw [ofText_eq_ok_iff hts]
    refine and_congr_right fun hrange => and_congr_right fun hp => ?_
    constructor
    · exact fun hmeaning m hm => coefficientAt_eq_sumAt hlexical hp.wellFormed hmeaning hm
    · -- the text is read as some polynomial, which has the same coefficients as `p`
      intro hsums
      have hfits : ∀ m : Monomial, m.WellFormed → Coefficient.Fits (WrittenTerm.sumAt m ts) := by
        intro m hm
        rw [← hsums m hm]
        exact coefficientAt_fits hp m
      obtain ⟨q, hq⟩ := (exists_ofText_eq_ok_iff hts).2 ⟨hrange, hfits⟩
      obtain ⟨-, hcanonical, hmeaning⟩ := (ofText_eq_ok_iff hts).1 hq
      have hsame : p = q := ext_coefficientAt hp hcanonical fun m hm => by
        rw [hsums m hm, coefficientAt_eq_sumAt hlexical hcanonical.wellFormed hmeaning hm]
      rw [hsame, hmeaning]

/-- Letters in any order, a degree zero and like terms in a text that is read. -/
theorem ofText_accepts_grammar_mixed :
    let ts : List WrittenTerm := [⟨none, [], [⟨'y', ['2']⟩, ⟨'x', []⟩]⟩, ⟨some true, ['3'], []⟩,
      ⟨some false, [], [⟨'z', ['0']⟩]⟩]
    let p : Polynomial := ⟨[⟨1, [⟨'x', 1⟩, ⟨'y', 2⟩]⟩, ⟨-2, []⟩]⟩
    Writes ts "y2x-3+z0".toList ∧ ofText "y2x-3+z0" = .ok p ∧ (∀ t ∈ ts, t.InRange) ∧
      p.Canonical ∧ ∀ m : Monomial, m.WellFormed → p.coefficientAt m = WrittenTerm.sumAt m ts := by
  intro ts p
  have hts : Writes ts "y2x-3+z0".toList := by decide
  have hread : (Token.scan "y2x-3+z0".toList >>= readTerms) =
      .ok [⟨1, [⟨'x', 1⟩, ⟨'y', 2⟩]⟩, ⟨-3, []⟩, ⟨1, []⟩] := by decide +kernel
  have hp : ofText "y2x-3+z0" = .ok p := (ofText_eq_ofTerms hread).trans (by cbv)
  exact ⟨hts, hp, ((ofText_accepts_grammar "y2x-3+z0").2 ts p hts).1 hp⟩

end Polynomial

end SparsePoly
