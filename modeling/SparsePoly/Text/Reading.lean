import SparsePoly.Polynomial.Basic
import SparsePoly.Text.LetterSet
import SparsePoly.Text.Numeral
import SparsePoly.Text.Token

/-!
# Reading polynomials

A term is an optional sign, an optional coefficient and a row of letters, each with an optional
degree; a sign alone is not a term. Digits that touch are one number, so a term can end only where
the next sign stands or where the text ends. `readTerm` reads the term that a list of tokens begins
with and says how many tokens it takes; `readTerms` goes on behind these tokens until none is left.

* `readTerm_pos` and `readTerm_le`: a term takes at least one token, and no more than there are.
* `readTerms_of_readTerm`: the terms of a text are its first term and then the terms of what
  follows it.

`Polynomial.ofText` reads a whole text. Terms may stand in any order and like terms may repeat;
they are added up at the end.
-/

namespace SparsePoly

/-! ### The parts of a term -/

/-- The power of a letter that stands at a position. A letter that the term has used before is
refused whatever its degree. -/
def readPower (used : LetterSet) (x : Char) (position : Nat) (degree : Except Error Degree) :
    Except Error Power :=
  if used.contains x then .error (.malformed position (.repeatedLetter x))
  else return ⟨x, ← degree⟩

/-- The powers that the tokens begin with, and how many tokens these take. A letter without a
number has the degree one. -/
def readPowers (used : LetterSet) : List Token → Except Error (List Power × Nat)
  | ⟨.letter x, position⟩ :: ⟨.number digits, _⟩ :: tokens => do
    let p ← readPower used x position (Degree.ofDigits digits)
    let (powers, taken) ← readPowers (used.insert x) tokens
    return (p :: powers, taken + 2)
  | ⟨.letter x, position⟩ :: tokens => do
    let p ← readPower used x position (pure 1)
    let (powers, taken) ← readPowers (used.insert x) tokens
    return (p :: powers, taken + 1)
  | _ => .ok ([], 0)

/-- The coefficient, if there is one, and the powers that the tokens begin with, and how many
tokens these take. -/
def readBody (negative : Bool) :
    List Token → Except Error (Option Coefficient × List Power × Nat)
  | ⟨.number digits, _⟩ :: tokens => do
    let c ← Coefficient.ofDigits negative digits
    let (powers, taken) ← readPowers .empty tokens
    return (some c, powers, taken + 1)
  | tokens => do
    let (powers, taken) ← readPowers .empty tokens
    return (none, powers, taken)

/-! ### Terms -/

/-- The term that some tokens begin with, and how many of them it takes. A term without a sign
counts as positive, one without a coefficient as having the coefficient one. -/
def readTerm : List Token → Except Error (Term × Nat)
  | ⟨.sign negative, position⟩ :: tokens => do
    let (c, powers, taken) ← readBody negative tokens
    if taken = 0 then
      .error (.malformed (position + 1) .loneSign)
    else
      let t ← Term.ofPowers (c.getD (if negative then -1 else 1)) powers
      return (t, taken + 1)
  | tokens => do
    let (c, powers, taken) ← readBody false tokens
    let t ← Term.ofPowers (c.getD 1) powers
    return (t, taken)

/-- The terms of a text, from its tokens. -/
def readTerms : List Token → Except Error (List Term)
  | [] => .ok []
  | first :: tokens => do
    let (t, taken) ← readTerm (first :: tokens)
    return t :: (← readTerms (tokens.drop (taken - 1)))
termination_by tokens => tokens.length

section

variable {used : LetterSet} {negative : Bool} {tokens : List Token} {powers : List Power}
  {c : Option Coefficient} {t : Term} {taken : Nat}

theorem readPowers_le (h : readPowers used tokens = .ok (powers, taken)) :
    taken ≤ tokens.length := by
  fun_induction readPowers used tokens generalizing powers taken with
  | case1 used x position digits _ tokens ih =>
    obtain ⟨p, -, h⟩ := bind_eq_ok_iff.1 h
    obtain ⟨⟨ps, n⟩, hps, h⟩ := bind_eq_ok_iff.1 h
    cases h
    exact Nat.add_le_add_right (ih hps) 2
  | case2 used x position tokens _ ih =>
    obtain ⟨p, -, h⟩ := bind_eq_ok_iff.1 h
    obtain ⟨⟨ps, n⟩, hps, h⟩ := bind_eq_ok_iff.1 h
    cases h
    exact Nat.add_le_add_right (ih hps) 1
  | case3 =>
    cases h
    exact Nat.zero_le _

theorem readBody_le (h : readBody negative tokens = .ok (c, powers, taken)) :
    taken ≤ tokens.length := by
  unfold readBody at h
  split at h
  · obtain ⟨d, -, h⟩ := bind_eq_ok_iff.1 h
    obtain ⟨⟨ps, n⟩, hps, h⟩ := bind_eq_ok_iff.1 h
    cases h
    exact Nat.add_le_add_right (readPowers_le hps) 1
  · obtain ⟨⟨ps, n⟩, hps, h⟩ := bind_eq_ok_iff.1 h
    cases h
    exact readPowers_le hps

/-- A body takes a token unless a sign stands before it or there is none. -/
theorem readBody_pos {first : Token} (hfirst : ∀ s, first.lexeme ≠ .sign s)
    (h : readBody negative (first :: tokens) = .ok (c, powers, taken)) : 0 < taken := by
  obtain ⟨lexeme, position⟩ := first
  cases lexeme with
  | sign s => exact absurd rfl (hfirst s)
  | number digits =>
    obtain ⟨d, -, h⟩ := bind_eq_ok_iff.1 h
    obtain ⟨⟨ps, n⟩, -, h⟩ := bind_eq_ok_iff.1 h
    cases h
    exact Nat.succ_pos _
  | letter x =>
    obtain ⟨⟨ps, n⟩, hps, h⟩ := bind_eq_ok_iff.1 h
    cases h
    unfold readPowers at hps
    split at hps
    · obtain ⟨p, -, hps⟩ := bind_eq_ok_iff.1 hps
      obtain ⟨⟨ps, n⟩, -, hps⟩ := bind_eq_ok_iff.1 hps
      cases hps
      exact Nat.succ_pos _
    · obtain ⟨p, -, hps⟩ := bind_eq_ok_iff.1 hps
      obtain ⟨⟨ps, n⟩, -, hps⟩ := bind_eq_ok_iff.1 hps
      cases hps
      exact Nat.succ_pos _
    · next hletter => exact absurd rfl (hletter _ _ _)

/-- A term takes no more tokens than there are. -/
theorem readTerm_le (h : readTerm tokens = .ok (t, taken)) : taken ≤ tokens.length := by
  unfold readTerm at h
  split at h
  · obtain ⟨⟨c, ps, n⟩, hbody, h⟩ := bind_eq_ok_iff.1 h
    simp only at h
    split at h
    · contradiction
    · obtain ⟨u, -, h⟩ := bind_eq_ok_iff.1 h
      cases h
      exact Nat.add_le_add_right (readBody_le hbody) 1
  · obtain ⟨⟨c, ps, n⟩, hbody, h⟩ := bind_eq_ok_iff.1 h
    obtain ⟨u, -, h⟩ := bind_eq_ok_iff.1 h
    cases h
    exact readBody_le hbody

/-- A term takes at least one token where there is one. -/
theorem readTerm_pos {first : Token} (h : readTerm (first :: tokens) = .ok (t, taken)) :
    0 < taken := by
  unfold readTerm at h
  split at h
  · obtain ⟨⟨c, ps, n⟩, -, h⟩ := bind_eq_ok_iff.1 h
    simp only at h
    split at h
    · contradiction
    · obtain ⟨u, -, h⟩ := bind_eq_ok_iff.1 h
      cases h
      exact Nat.succ_pos _
  · next hsign =>
    obtain ⟨⟨c, ps, n⟩, hbody, h⟩ := bind_eq_ok_iff.1 h
    obtain ⟨u, -, h⟩ := bind_eq_ok_iff.1 h
    cases h
    refine readBody_pos (fun s hs => hsign s first.position tokens ?_) hbody
    rw [← hs]

/-- The terms of a text are its first term and then the terms of what follows it. -/
theorem readTerms_of_readTerm {first : Token} (h : readTerm (first :: tokens) = .ok (t, taken)) :
    readTerms (first :: tokens) =
      (readTerms ((first :: tokens).drop taken)).map (t :: ·) := by
  have hdrop : (first :: tokens).drop taken = tokens.drop (taken - 1) := by
    rw [List.drop_cons (readTerm_pos h)]
  rw [readTerms, h, hdrop]
  rfl

end

/-! ### Polynomials -/

/-- The polynomial that a text writes. -/
def Polynomial.ofText (text : String) : Except Error Polynomial := do
  let tokens ← Token.scan text.toList
  if tokens.isEmpty then
    .error (.malformed 0 .emptyText)
  else
    Polynomial.ofTerms (← readTerms tokens)

/-- A text that has terms is read as their sum. -/
theorem Polynomial.ofText_eq_ofTerms {text : String} {t : Term} {ts : List Term}
    (h : (Token.scan text.toList >>= readTerms) = .ok (t :: ts)) :
    ofText text = ofTerms (t :: ts) := by
  obtain ⟨tokens, hscan, hread⟩ := bind_eq_ok_iff.1 h
  cases tokens with
  | nil =>
    rw [readTerms] at hread
    cases hread
  | cons first tokens =>
    rw [ofText, hscan]
    change (readTerms (first :: tokens) >>= ofTerms) = _
    rw [hread]
    rfl

end SparsePoly
