import SparsePoly.Proofs.Evaluation

/-!
# Errors quote the text that they are about

An error repeats characters of the input: one that is out of place, a letter that occurs twice, or a
whole operator. `Error.quoted` lists them, and every reader only quotes what it was given. On an
expression line that is a field, so no error quotes a blank.

* `Polynomial.quoted_ofText`, `Operator.quoted_ofText`: the readers quote their text.
* `Operator.apply_eq_error`: the operators quote nothing.
* `quoted_evaluateLine`: no blank is quoted from an expression line.
-/

namespace SparsePoly

/-! ### What an error quotes -/

/-- The characters that an error repeats. -/
def Error.quoted : Error → List Char
  | malformed _ .emptyText => []
  | malformed _ (.unexpectedCharacter c) => [c]
  | malformed _ (.repeatedLetter x) => [x]
  | malformed _ .loneSign => []
  | unknownOperator text => text.toList
  | overflow _ => []
  | invalidSymbol x => [x]

/-- The characters that the error of a line repeats. -/
def LineError.quoted : LineError → List Char
  | fieldCount _ => []
  | evaluation cause => cause.quoted

/-- An overflow quotes nothing. -/
theorem Error.quoted_overflow {e : Error} (h : ∃ quantity, e = .overflow quantity)
    (text : List Char) : e.quoted ⊆ text := by
  obtain ⟨quantity, rfl⟩ := h
  exact List.nil_subset text

/-! ### Readers -/

variable {e : Error} {n : Nat}

/-- Cutting a text into tokens fails at a character of the text. -/
theorem Token.quoted_scan {text : List Char} (h : scan text = .error e) : e.quoted ⊆ text := by
  rcases bind_eq_error_iff.1 h with h | ⟨tokens, -, h⟩
  · obtain ⟨⟨c, position⟩, hc, h⟩ := exists_mem_of_mapM_eq_error h
    simp only [ofChar] at h
    split at h
    · contradiction
    · cases h
      exact List.cons_subset.2 ⟨List.fst_mem_of_mem_zipIdx hc, List.nil_subset text⟩
  · contradiction

namespace WrittenPower

variable {used : LetterSet} {ps : List WrittenPower} {qs : List Power}

/-- The powers that are read have the letters that are written. -/
theorem map_symbol_readAll (hps : ∀ p ∈ ps, p.Lexical) (h : readAll used n ps = .ok qs) :
    qs.map Power.symbol = ps.map letter :=
  (exponents_of_readAs ((readAll_eq_ok_iff fun p hp => (hps p hp).letter).1 h).2.2).1

/-- Reading powers quotes their letters. -/
theorem quoted_readAll (h : readAll used n ps = .error e) : e.quoted ⊆ ps.map letter := by
  induction ps generalizing used n with
  | nil => contradiction
  | cons p ps ih =>
    rcases bind_eq_error_iff.1 h with h | ⟨q, -, h⟩
    · unfold readPower at h
      split at h
      · cases h
        exact List.cons_subset_cons _ (List.nil_subset _)
      · rcases bind_eq_error_iff.1 h with h | ⟨d, -, h⟩
        · exact Error.quoted_overflow ⟨_, (Degree.checked_eq_error_iff.1 h).2⟩ _
        · contradiction
    · rcases bind_eq_error_iff.1 h with h | ⟨qs, -, h⟩
      · exact List.subset_cons_of_subset _ (ih h)
      · contradiction

end WrittenPower

/-- Making a term quotes the symbols of its powers. -/
theorem Term.quoted_ofPowers {c : Coefficient} {powers : List Power}
    (h : ofPowers c powers = .error e) : e.quoted ⊆ powers.map Power.symbol := by
  unfold ofPowers at h
  split at h
  · next p hp =>
    cases h
    have hmem : p.symbol ∈ powers.map Power.symbol :=
      List.mem_map_of_mem (List.mem_of_find?_eq_some hp)
    exact List.cons_subset.2 ⟨hmem, List.nil_subset _⟩
  · split at h
    · contradiction
    · rcases bind_eq_error_iff.1 h with h | ⟨m, -, h⟩
      · exact Error.quoted_overflow ⟨_, (Monomial.ofPowers_eq_error h).1⟩ _
      · contradiction

namespace WrittenTerm

variable {t : WrittenTerm} {ts : List WrittenTerm}

theorem letters_subset_chars (t : WrittenTerm) :
    t.powers.map WrittenPower.letter ⊆ t.chars := by
  intro x hx
  obtain ⟨p, hp, rfl⟩ := List.mem_map.1 hx
  have hpowers : p.letter ∈ t.powers.flatMap WrittenPower.chars :=
    List.mem_flatMap.2 ⟨p, hp, .head p.digits⟩
  exact List.mem_append_right _ (List.mem_append_right _ hpowers)

/-- Reading a term quotes its letters. -/
theorem quoted_read (ht : t.Lexical) (h : t.read n = .error e) : e.quoted ⊆ t.chars := by
  rcases bind_eq_error_iff.1 h with h | ⟨c, -, h⟩
  · exact Error.quoted_overflow ⟨_, (Coefficient.checked_eq_error_iff.1 h).2⟩ _
  · refine List.Subset.trans ?_ t.letters_subset_chars
    rcases bind_eq_error_iff.1 h with h | ⟨powers, hpowers, h⟩
    · exact WrittenPower.quoted_readAll h
    · split at h
      · cases h
        exact List.nil_subset _
      · rw [← WrittenPower.map_symbol_readAll ht.power hpowers]
        exact Term.quoted_ofPowers h

/-- Reading terms quotes their letters. -/
theorem quoted_readAll (hts : ∀ t ∈ ts, t.Lexical) (h : readAll n ts = .error e) :
    e.quoted ⊆ ts.flatMap chars := by
  induction ts generalizing n with
  | nil => contradiction
  | cons t ts ih =>
    obtain ⟨ht, hts⟩ := List.forall_mem_cons.1 hts
    rw [List.flatMap_cons]
    rcases bind_eq_error_iff.1 h with h | ⟨u, -, h⟩
    · exact List.subset_append_of_subset_left _ (quoted_read ht h)
    · rcases bind_eq_error_iff.1 h with h | ⟨us, -, h⟩
      · exact List.subset_append_of_subset_right _ (ih hts h)
      · contradiction

end WrittenTerm

/-- Reading a polynomial quotes its text. -/
theorem Polynomial.quoted_ofText {text : String} (h : ofText text = .error e) :
    e.quoted ⊆ text.toList := by
  cases hscan : Token.scan text.toList with
  | error e' =>
    rw [ofText, hscan] at h
    cases h
    exact Token.quoted_scan hscan
  | ok tokens =>
    obtain ⟨ts, hts, htext, rfl⟩ := Token.scan_eq_ok_iff_separated.1 hscan
    by_cases hnil : ts = []
    · rw [ofText, hscan, hnil] at h
      cases h
      exact List.nil_subset _
    · rw [ofText_eq_readAll hts hnil htext] at h
      rcases bind_eq_error_iff.1 h with h | ⟨us, -, h⟩
      · rw [htext]
        exact WrittenTerm.quoted_readAll hts.lexical h
      · exact Error.quoted_overflow ⟨_, (ofTerms_eq_error h).1⟩ _

namespace Operator

variable {op : Operator} {p q : Polynomial}

/-- Reading an operator quotes its text. -/
theorem quoted_ofText {text : String} (h : ofText text = .error e) : e.quoted ⊆ text.toList := by
  unfold ofText at h
  split at h
  · contradiction
  · contradiction
  · contradiction
  · cases h
    exact List.Subset.refl _

/-- The only errors of an operator are overflows. -/
theorem apply_eq_error (hp : p.Canonical) (hq : q.Canonical) (h : op.apply p q = .error e) :
    ∃ quantity, e = .overflow quantity := by
  cases op with
  | add => exact ⟨_, Polynomial.add_eq_error hp hq h⟩
  | sub =>
    obtain ⟨m, -, he⟩ := (Polynomial.exact_sub hp hq).eq_error e h
    exact ⟨_, he⟩
  | mul => exact Polynomial.mul_eq_error hp hq h

end Operator

/-! ### Lines -/

/-- An evaluation quotes one of its texts. -/
theorem quoted_evaluateTexts {operator left right : String}
    (h : evaluateTexts operator left right = .error e) :
    e.quoted ⊆ operator.toList ∨ e.quoted ⊆ left.toList ∨ e.quoted ⊆ right.toList := by
  rcases bind_eq_error_iff.1 h with h | ⟨op, -, h⟩
  · exact .inl (Operator.quoted_ofText h)
  rcases bind_eq_error_iff.1 h with h | ⟨p, hp, h⟩
  · exact .inr (.inl (Polynomial.quoted_ofText h))
  rcases bind_eq_error_iff.1 h with h | ⟨q, hq, h⟩
  · exact .inr (.inr (Polynomial.quoted_ofText h))
  · have hcanonical := Polynomial.canonical_ofText hp
    have hcanonical' := Polynomial.canonical_ofText hq
    exact .inl (Error.quoted_overflow (op.apply_eq_error hcanonical hcanonical' h) _)

/-- The error of a line quotes no blank. -/
theorem quoted_evaluateLine {line : String} {e : LineError} (h : evaluateLine line = .error e) :
    ∀ c ∈ e.quoted, isBlank c = false := by
  unfold evaluateLine at h
  split at h
  · next operator left right hfields =>
    have hfield := (fields_eq_iff.1 hfields).isField
    have hblank : ∀ f ∈ [operator, left, right], ∀ cs : List Char,
        cs ⊆ (String.ofList f).toList → ∀ c ∈ cs, isBlank c = false := by
      intro f hf cs hcs c hc
      rw [String.toList_ofList] at hcs
      exact (hfield f hf).not_blank c (hcs hc)
    cases heval : evaluateTexts (String.ofList operator) (String.ofList left)
        (String.ofList right) with
    | ok r =>
      rw [heval] at h
      contradiction
    | error cause =>
      rw [heval] at h
      cases h
      rcases quoted_evaluateTexts heval with hquoted | hquoted | hquoted
      · exact hblank operator (by simp) cause.quoted hquoted
      · exact hblank left (by simp) cause.quoted hquoted
      · exact hblank right (by simp) cause.quoted hquoted
  · cases h
    exact nofun

end SparsePoly
