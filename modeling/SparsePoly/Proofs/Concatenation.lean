import SparsePoly.Proofs.Language
import SparsePoly.Proofs.Sorting

/-!
# Texts one behind another

A text that begins with a sign can be written behind another one, and what is read is the sum. The
sign keeps the digits at the end of the first text from running on, so the terms of the whole are
those of the first text and then those of the second. Whether they are added up all at once or the
like terms of each text beforehand makes no difference, also for whether that overflows, since only
what the terms stand for matters (`Polynomial.ofTerms_congr`).

* `Writes.append`: the terms of two texts are those of the whole.
* `Polynomial.ofText_append`: reading two texts as one is adding what they are read as.
-/

namespace SparsePoly

/-! ### Terms -/

variable {ts us : List WrittenTerm} {s t : List Char}

/-- The text of a term without a sign begins with a digit or a letter. -/
theorem WrittenTerm.exists_chars_eq_cons {u : WrittenTerm} (hu : u.WellFormed)
    (hsign : u.sign = none) :
    ∃ c cs, u.chars = c :: cs ∧ (c.isDigit = true ∨ c.isLower = true) := by
  obtain ⟨sign, digits, powers⟩ := u
  cases hsign
  cases digits with
  | cons d digits => exact ⟨d, _, rfl, .inl (hu.digit d (.head digits))⟩
  | nil =>
    obtain ⟨p, powers, rfl⟩ := List.exists_cons_of_ne_nil (hu.body.resolve_left fun h => h rfl)
    exact ⟨p.letter, _, rfl, .inr (hu.power p (.head powers)).letter⟩

/-- In a text that begins with a sign every term has one. -/
theorem Writes.forall_isSome_sign (h : Writes ts s)
    (hhead : s.head? = some '+' ∨ s.head? = some '-') : ∀ t ∈ ts, t.sign.isSome = true := by
  obtain ⟨t, ts, rfl⟩ := List.exists_cons_of_ne_nil h.ne_nil
  refine List.forall_mem_cons.2 ⟨?_, h.signed⟩
  cases hsign : t.sign with
  | some negative => rfl
  | none =>
    obtain ⟨c, cs, hchars, hc⟩ :=
      WrittenTerm.exists_chars_eq_cons (h.wellFormed t (.head ts)) hsign
    rw [h.text_eq, List.flatMap_cons, hchars, List.cons_append, List.head?_cons, Option.some.injEq,
      Option.some.injEq] at hhead
    rcases hhead with rfl | rfl
    · exact absurd hc (by decide)
    · exact absurd hc (by decide)

/-- The terms of two texts are those of one text behind the other, if the second begins with a
sign. -/
theorem Writes.append (hs : Writes ts s) (ht : Writes us t)
    (hsigned : ∀ u ∈ us, u.sign.isSome = true) : Writes (ts ++ us) (s ++ t) where
  ne_nil := List.append_ne_nil_of_left_ne_nil hs.ne_nil us
  wellFormed := List.forall_mem_append.2 ⟨hs.wellFormed, ht.wellFormed⟩
  signed := by
    rw [List.tail_append_of_ne_nil hs.ne_nil]
    exact List.forall_mem_append.2 ⟨hs.signed, hsigned⟩
  text_eq := by rw [List.flatMap_append, ← hs.text_eq, ← ht.text_eq]

/-! ### Polynomials -/

namespace Polynomial

variable {first second : String} {p q : Polynomial}

/-- Reading two texts as one, of which the second begins with a sign, is adding the polynomials that
they are read as, also where that overflows. -/
theorem ofText_append (hp : ofText first = .ok p) (hq : ofText second = .ok q)
    (hhead : second.toList.head? = some '+' ∨ second.toList.head? = some '-') :
    ofText (first ++ second) = p.add q := by
  obtain ⟨ts, hts⟩ := exists_writes_of_ofText hp
  obtain ⟨us, hus⟩ := exists_writes_of_ofText hq
  obtain ⟨htsrange, hpcanonical, hpmeaning⟩ := (ofText_eq_ok_iff hts).1 hp
  obtain ⟨husrange, hqcanonical, hqmeaning⟩ := (ofText_eq_ok_iff hus).1 hq
  have hwrites : Writes (ts ++ us) (first ++ second).toList := by
    rw [String.toList_append]
    exact hts.append hus (hus.forall_isSome_sign hhead)
  obtain ⟨vs, hvs, hmeaning, hofText⟩ :=
    exists_ofText_eq_ofTerms hwrites (List.forall_mem_append.2 ⟨htsrange, husrange⟩)
  rw [hofText, add_eq_ofTerms hpcanonical hqcanonical]
  refine ofTerms_congr hvs
    (List.forall_mem_append.2 ⟨hpcanonical.wellFormed, hqcanonical.wellFormed⟩) ?_
  rw [hmeaning, List.map_append, List.sum_append, ← hpmeaning, ← hqmeaning, ← meaning_append]

/-- The sum of two coefficients overflows at the seam of two texts as it does in a sum. -/
theorem ofText_append_overflow :
    let p : Polynomial := ⟨[⟨9223372036854775807, [⟨'x', 2⟩]⟩, ⟨1, [⟨'y', 1⟩]⟩]⟩
    let q : Polynomial := ⟨[⟨1, [⟨'x', 2⟩]⟩, ⟨-1, []⟩]⟩
    ofText "y+9223372036854775807x2" = .ok p ∧ ofText "+x2-1" = .ok q ∧
      p.add q = .error (.overflow .coefficientSum) ∧
      ofText ("y+9223372036854775807x2" ++ "+x2-1") = p.add q := by
  intro p q
  have hps : (Token.scan "y+9223372036854775807x2".toList >>= readTerms) =
      .ok p.terms.reverse := by decide +kernel
  have hqs : (Token.scan "+x2-1".toList >>= readTerms) = .ok q.terms := by decide +kernel
  have hp : ofText "y+9223372036854775807x2" = .ok p := (ofText_eq_ofTerms hps).trans (by cbv)
  have hq : ofText "+x2-1" = .ok q := (ofText_eq_ofTerms hqs).trans (by cbv)
  have hadd : p.add q = .error (.overflow .coefficientSum) := by cbv
  exact ⟨hp, hq, hadd, ofText_append hp hq (.inl rfl)⟩

/-- Without the sign the second text goes on with the number that the first one ends with. -/
example : ofText ("x" ++ "2") = .ok ⟨[⟨1, [⟨'x', 2⟩]⟩]⟩ := by decide +kernel

end Polynomial

end SparsePoly
