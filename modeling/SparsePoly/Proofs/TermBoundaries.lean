import SparsePoly.Proofs.Reading

/-!
# Terms are cut at signs

A term takes tokens as long as they fit, and nothing in the reader says that it stops at a sign. It
does because of how a text is cut into tokens: what does not fit behind a coefficient or a degree
would have to be a further number, and no two numbers touch. This side condition passes on to every
row of tokens that is left, so each term begins where the next sign stands, and the terms of a text
divide its tokens among them.

`attempts` are the rows of tokens that `readTerms` reads a term from, one after another.

* `readTerm_ends`: where a term ends, for all tokens with no two numbers in a row.
* `readTerms_eq_mapM`: reading all terms is one reading after another.
* `flatMap_termTokens_of_ok`, `flatMap_termTokens_of_error`: the terms divide the tokens.
* `readTerms_advances`: all of this for the tokens of a text.
-/

namespace SparsePoly

open Lexeme (Readable NoNumber readable_cons_iff)

/-- What is readable is readable from any lexeme on. -/
theorem Lexeme.Readable.suffix {lexemes rest : List Lexeme} (h : Readable lexemes)
    (hrest : rest <:+ lexemes) : Readable rest :=
  ⟨fun l hl => h.wellFormed l (hrest.subset hl), h.apart.suffix hrest⟩

section

variable {used : LetterSet} {negative : Bool} {tokens : List Token} {powers : List Power}
  {c : Option Coefficient} {t : Term} {u : Token} {taken : Nat} {e : Error}

/-! ### Where a term ends -/

/-- The first `taken` tokens are no signs, and a term ends behind them. -/
structure EndsAfter (taken : Nat) (tokens : List Token) : Prop where
  /-- No sign is among them. -/
  noSign : ∀ u ∈ tokens.take taken, ∀ negative, u.lexeme ≠ .sign negative
  /-- Behind them is a sign or nothing. -/
  termEnd : TermEnd ((tokens.drop taken).map Token.lexeme)

private theorem EndsAfter.cons (hu : ∀ negative, u.lexeme ≠ .sign negative)
    (h : EndsAfter taken tokens) : EndsAfter (taken + 1) (u :: tokens) :=
  ⟨List.forall_mem_cons.2 ⟨hu, h.noSign⟩, h.termEnd⟩

/-- The token behind a term is a sign. -/
private theorem TermEnd.exists_sign (h : TermEnd (tokens.map Token.lexeme))
    (hu : u ∈ tokens.head?) : ∃ negative, u.lexeme = .sign negative := by
  obtain ⟨rest, rfl⟩ := List.head?_eq_some_iff.1 hu
  rcases h with hnil | ⟨negative, more, hcons⟩
  · contradiction
  · exact ⟨negative, List.head_eq_of_cons_eq hcons⟩

/-- Tokens that do not begin with a number. -/
private theorem noNumber_map_lexeme
    (h : ∀ digits position rest, tokens = ⟨.number digits, position⟩ :: rest → False) :
    NoNumber (tokens.map Token.lexeme) := by
  cases tokens with
  | nil => exact nofun
  | cons u tokens =>
    obtain ⟨l, n⟩ := u
    cases l with
    | number digits => exact (h digits n tokens rfl).elim
    | sign _ => exact Lexeme.noNumber_cons rfl _
    | letter _ => exact Lexeme.noNumber_cons rfl _

/-- Powers end at a sign unless a number stands where they begin. -/
private theorem readPowers_ends (hread : Readable (tokens.map Token.lexeme))
    (hhead : NoNumber (tokens.map Token.lexeme))
    (h : readPowers used tokens = .ok (powers, taken)) : EndsAfter taken tokens := by
  -- along the reader: it keeps that no number stands where it goes on
  fun_induction readPowers used tokens generalizing powers taken with
  | case1 used x position digits _ tokens ih =>
    obtain ⟨p, -, h⟩ := bind_eq_ok_iff.1 h
    obtain ⟨⟨ps, n⟩, hps, h⟩ := bind_eq_ok_iff.1 h
    cases h
    obtain ⟨-, -, hread⟩ := readable_cons_iff.1 hread
    obtain ⟨-, hapart, hread⟩ := readable_cons_iff.1 hread
    exact .cons (by simp) (.cons (by simp) (ih hread (fun k hk => hapart k hk rfl) hps))
  | case2 used x position tokens hnumber ih =>
    obtain ⟨p, -, h⟩ := bind_eq_ok_iff.1 h
    obtain ⟨⟨ps, n⟩, hps, h⟩ := bind_eq_ok_iff.1 h
    cases h
    obtain ⟨-, -, hread⟩ := readable_cons_iff.1 hread
    exact .cons (by simp) (ih hread (noNumber_map_lexeme hnumber) hps)
  | case3 tokens used hletterNumber hletter =>
    cases h
    refine ⟨List.forall_mem_nil _, ?_⟩
    cases tokens with
    | nil => exact .inl rfl
    | cons u tokens =>
      obtain ⟨l, n⟩ := u
      cases l with
      | sign negative => exact .inr ⟨negative, _, rfl⟩
      | number digits =>
        have hnumber : Lexeme.isNumber (.number digits) = false := hhead _ rfl
        contradiction
      | letter x => exact (hletter x n tokens rfl).elim

/-- A body ends at a sign. -/
private theorem readBody_ends (hread : Readable (tokens.map Token.lexeme))
    (h : readBody negative tokens = .ok (c, powers, taken)) : EndsAfter taken tokens := by
  unfold readBody at h
  split at h
  · obtain ⟨d, -, h⟩ := bind_eq_ok_iff.1 h
    obtain ⟨⟨ps, n⟩, hps, h⟩ := bind_eq_ok_iff.1 h
    cases h
    obtain ⟨-, hapart, hread⟩ := readable_cons_iff.1 hread
    exact .cons (by simp) (readPowers_ends hread (fun k hk => hapart k hk rfl) hps)
  · next hnumber =>
    obtain ⟨⟨ps, n⟩, hps, h⟩ := bind_eq_ok_iff.1 h
    cases h
    exact readPowers_ends hread (noNumber_map_lexeme hnumber) hps

/-- A term ends at a sign, and only its first token can be one. -/
theorem readTerm_ends (hread : Readable (tokens.map Token.lexeme))
    (h : readTerm tokens = .ok (t, taken)) :
    (∀ u ∈ (tokens.take taken).tail, ∀ negative, u.lexeme ≠ .sign negative) ∧
      TermEnd ((tokens.drop taken).map Token.lexeme) := by
  unfold readTerm at h
  split at h
  · obtain ⟨⟨c, ps, n⟩, hbody, h⟩ := bind_eq_ok_iff.1 h
    simp only at h
    split at h
    · contradiction
    · obtain ⟨u, -, h⟩ := bind_eq_ok_iff.1 h
      cases h
      obtain ⟨-, -, hread⟩ := readable_cons_iff.1 hread
      obtain ⟨hsign, hend⟩ := readBody_ends hread hbody
      exact ⟨hsign, hend⟩
  · obtain ⟨⟨c, ps, n⟩, hbody, h⟩ := bind_eq_ok_iff.1 h
    obtain ⟨u, -, h⟩ := bind_eq_ok_iff.1 h
    cases h
    obtain ⟨hsign, hend⟩ := readBody_ends hread hbody
    exact ⟨fun u hu => hsign u (List.mem_of_mem_tail hu), hend⟩

/-! ### One term after another -/

/-- To show something of all rows of tokens, show it of the empty row, of those that no term can be
read from, and of the others from what is left behind their first term. -/
theorem termwise_induction {motive : List Token → Prop} (nil : motive [])
    (error : ∀ {first tokens e}, readTerm (first :: tokens) = .error e → motive (first :: tokens))
    (ok : ∀ {first tokens t taken}, readTerm (first :: tokens) = .ok (t, taken) →
      motive ((first :: tokens).drop taken) → motive (first :: tokens)) :
    ∀ tokens, motive tokens
  | [] => nil
  | first :: tokens => by
    cases h : readTerm (first :: tokens) with
    | error e => exact error h
    | ok result => exact ok h (termwise_induction nil error ok ((first :: tokens).drop result.2))
termination_by tokens => tokens.length
decreasing_by
  have hpos := readTerm_pos h
  rw [List.length_drop, List.length_cons]
  omega

/-- The rows of tokens that `readTerms` reads a term from, in their order. It goes on behind a term
that has been read and stops where none can be. -/
def attempts : List Token → List (List Token)
  | [] => []
  | first :: tokens =>
    (first :: tokens) ::
      match readTerm (first :: tokens) with
      | .ok (_, taken) => attempts (tokens.drop (taken - 1))
      | .error _ => []
termination_by tokens => tokens.length

/-- The tokens of the term that a row begins with, if it can be read. -/
def termTokens (tokens : List Token) : List Token :=
  match readTerm tokens with
  | .ok (_, taken) => tokens.take taken
  | .error _ => []

@[simp] theorem attempts_nil : attempts [] = [] := by
  rw [attempts]

theorem attempts_cons_of_ok {first : Token} (h : readTerm (first :: tokens) = .ok (t, taken)) :
    attempts (first :: tokens) = (first :: tokens) :: attempts ((first :: tokens).drop taken) := by
  rw [attempts, h, List.drop_cons (readTerm_pos h)]

theorem attempts_cons_of_error {first : Token} (h : readTerm (first :: tokens) = .error e) :
    attempts (first :: tokens) = [first :: tokens] := by
  rw [attempts, h]

theorem termTokens_of_ok (h : readTerm tokens = .ok (t, taken)) :
    termTokens tokens = tokens.take taken := by
  rw [termTokens, h]

theorem termTokens_of_error (h : readTerm tokens = .error e) : termTokens tokens = [] := by
  rw [termTokens, h]

/-- Reading all terms is reading one from each row in turn. -/
theorem readTerms_eq_mapM (tokens : List Token) :
    readTerms tokens = (attempts tokens).mapM fun s => (readTerm s).map Prod.fst := by
  induction tokens using termwise_induction with
  | nil =>
    rw [readTerms, attempts_nil]
    rfl
  | error h =>
    rw [readTerms, attempts_cons_of_error h, List.mapM_cons, h]
    rfl
  | ok h ih =>
    rw [readTerms_of_readTerm h, ih, attempts_cons_of_ok h, List.mapM_cons, h]
    rfl

/-- Every row is a suffix of the tokens, and none is empty. -/
theorem suffix_of_mem_attempts {s : List Token} (hs : s ∈ attempts tokens) :
    s <:+ tokens ∧ s ≠ [] := by
  induction tokens using termwise_induction with
  | nil =>
    rw [attempts_nil] at hs
    contradiction
  | @error first tokens e h =>
    rw [attempts_cons_of_error h, List.mem_singleton] at hs
    rw [hs]
    exact ⟨List.suffix_rfl, List.cons_ne_nil first tokens⟩
  | @ok first tokens t taken h ih =>
    rw [attempts_cons_of_ok h] at hs
    rcases List.mem_cons.1 hs with rfl | hs
    · exact ⟨List.suffix_rfl, List.cons_ne_nil first tokens⟩
    · obtain ⟨hsuffix, hne⟩ := ih hs
      exact ⟨hsuffix.trans (List.drop_suffix taken _), hne⟩

/-- There are no more rows than tokens, since each term takes one. -/
theorem length_attempts_le (tokens : List Token) : (attempts tokens).length ≤ tokens.length := by
  induction tokens using termwise_induction with
  | nil =>
    rw [attempts_nil]
    exact Nat.le_refl 0
  | @error first tokens e h =>
    rw [attempts_cons_of_error h]
    exact Nat.le_add_left 1 tokens.length
  | @ok first tokens t taken h ih =>
    have hpos := readTerm_pos h
    rw [List.length_drop, List.length_cons] at ih
    rw [attempts_cons_of_ok h, List.length_cons, List.length_cons]
    omega

/-- Terms that are read divide the tokens among them. -/
theorem flatMap_termTokens_of_ok {ts : List Term} (h : readTerms tokens = .ok ts) :
    (attempts tokens).flatMap termTokens = tokens := by
  induction tokens using termwise_induction generalizing ts with
  | nil =>
    rw [attempts_nil]
    rfl
  | error hread =>
    rw [readTerms, hread] at h
    contradiction
  | @ok first tokens t taken hread ih =>
    rw [readTerms_of_readTerm hread] at h
    cases hrest : readTerms ((first :: tokens).drop taken) with
    | error e =>
      rw [hrest] at h
      contradiction
    | ok us =>
      rw [attempts_cons_of_ok hread, List.flatMap_cons, termTokens_of_ok hread, ih hrest,
        List.take_append_drop]

/-- Where a term cannot be read, the terms before it divide the tokens before it among them. -/
theorem flatMap_termTokens_of_error (h : readTerms tokens = .error e) :
    ∃ rest, (attempts tokens).getLast? = some rest ∧ readTerm rest = .error e ∧
      (attempts tokens).flatMap termTokens ++ rest = tokens := by
  induction tokens using termwise_induction with
  | nil =>
    rw [readTerms] at h
    contradiction
  | @error first tokens e' hread =>
    rw [readTerms, hread] at h
    cases h
    refine ⟨first :: tokens, ?_, hread, ?_⟩
    · rw [attempts_cons_of_error hread]
      rfl
    · rw [attempts_cons_of_error hread, List.flatMap_singleton, termTokens_of_error hread]
      rfl
  | @ok first tokens t taken hread ih =>
    rw [readTerms_of_readTerm hread] at h
    cases hrest : readTerms ((first :: tokens).drop taken) with
    | ok us =>
      rw [hrest] at h
      contradiction
    | error e' =>
      rw [hrest] at h
      cases h
      obtain ⟨rest, hlast, herror, hflat⟩ := ih hrest
      refine ⟨rest, ?_, herror, ?_⟩
      · rw [attempts_cons_of_ok hread, List.getLast?_cons, hlast]
        rfl
      · rw [attempts_cons_of_ok hread, List.flatMap_cons, termTokens_of_ok hread,
          List.append_assoc, hflat, List.take_append_drop]

/-! ### The terms of a text -/

/-- **Reading a text advances from term to term.** Whatever text is cut into tokens, its terms are
read from rows of tokens none of which is empty and whose letters all have one of 26 places in a
set. A term that is read from a row takes at least one of its tokens and at most all, behind it
stands a sign or nothing, and no sign but its first token is among those taken. So there are no
more rows than tokens, and the terms divide the tokens among them: all tokens when they can all be
read, and otherwise those before the first one that cannot. -/
theorem readTerms_advances {text : String} (h : Token.scan text.toList = .ok tokens) :
    (readTerms tokens = (attempts tokens).mapM fun s => (readTerm s).map Prod.fst) ∧
    (∀ s ∈ attempts tokens, s <:+ tokens ∧ s ≠ [] ∧
      (∀ u ∈ s, ∀ x, u.lexeme = .letter x → 'a'.toNat ≤ x.toNat ∧ LetterSet.index x < 26) ∧
      ∀ t taken, readTerm s = .ok (t, taken) →
        1 ≤ taken ∧ taken ≤ s.length ∧
        (∀ u ∈ s[taken]?, ∃ negative, u.lexeme = .sign negative) ∧
        ∀ u ∈ (s.take taken).tail, ∀ negative, u.lexeme ≠ .sign negative) ∧
    (attempts tokens).length ≤ tokens.length ∧
    (∀ ts, readTerms tokens = .ok ts → (attempts tokens).flatMap termTokens = tokens) ∧
    ∀ e, readTerms tokens = .error e →
      ∃ rest, (attempts tokens).getLast? = some rest ∧ readTerm rest = .error e ∧
        (attempts tokens).flatMap termTokens ++ rest = tokens := by
  refine ⟨readTerms_eq_mapM tokens, fun s hs => ?_, length_attempts_le tokens,
    fun ts => flatMap_termTokens_of_ok, fun e => flatMap_termTokens_of_error⟩
  obtain ⟨hsuffix, hne⟩ := suffix_of_mem_attempts hs
  have hread : Readable (s.map Token.lexeme) := by
    obtain ⟨lexemes, hlexemes, -, rfl⟩ := Token.scan_eq_ok_iff.1 h
    have hmap := hsuffix.map Token.lexeme
    rw [Token.map_lexeme_place] at hmap
    exact hlexemes.suffix hmap
  refine ⟨hsuffix, hne, fun u hu x hx => ?_, fun t taken ht => ?_⟩
  · have hletter : x.isLower = true := by
      have hwf := hread.wellFormed _ (List.mem_map_of_mem hu)
      rwa [hx] at hwf
    exact ⟨(LetterSet.toNat_of_isLower hletter).1, LetterSet.index_lt hletter⟩
  · obtain ⟨first, rest, rfl⟩ := List.exists_cons_of_ne_nil hne
    obtain ⟨hsign, hend⟩ := readTerm_ends hread ht
    refine ⟨readTerm_pos ht, readTerm_le ht, fun u hu => ?_, hsign⟩
    rw [← List.head?_drop] at hu
    exact hend.exists_sign hu

/-- The terms of `12x3y-0z` take four and three tokens; of `3x+-y` the first term takes two, and
none can be read from the sign on that follows it. -/
theorem readTerms_advances_lone_sign :
    let tokens : List Token := [⟨.number ['1', '2'], 0⟩, ⟨.letter 'x', 2⟩, ⟨.number ['3'], 3⟩,
      ⟨.letter 'y', 4⟩, ⟨.sign true, 5⟩, ⟨.number ['0'], 6⟩, ⟨.letter 'z', 7⟩]
    let lone : List Token := [⟨.number ['3'], 0⟩, ⟨.letter 'x', 1⟩, ⟨.sign false, 2⟩,
      ⟨.sign true, 3⟩, ⟨.letter 'y', 4⟩]
    Token.scan "12x3y-0z".toList = .ok tokens ∧
    readTerms tokens = .ok [⟨12, [⟨'x', 3⟩, ⟨'y', 1⟩]⟩, .constant 0] ∧
    (attempts tokens).length = 2 ∧ (attempts tokens).flatMap termTokens = tokens ∧
    Token.scan "3x+-y".toList = .ok lone ∧
    ∃ rest, (attempts lone).getLast? = some rest ∧
      readTerm rest = .error (.malformed 3 .loneSign) ∧
      (attempts lone).flatMap termTokens ++ rest = lone := by
  intro tokens lone
  have hscan : Token.scan "12x3y-0z".toList = .ok tokens := rfl
  have hlone : Token.scan "3x+-y".toList = .ok lone := rfl
  have hterms : readTerms tokens = .ok [⟨12, [⟨'x', 3⟩, ⟨'y', 1⟩]⟩, .constant 0] := by
    decide +kernel
  have herror : readTerms lone = .error (.malformed 3 .loneSign) := by decide +kernel
  have hlength : (attempts tokens).length = 2 := by decide +kernel
  obtain ⟨-, -, -, hflat, -⟩ := readTerms_advances hscan
  obtain ⟨-, -, -, -, hrest⟩ := readTerms_advances hlone
  exact ⟨hscan, hterms, hlength, hflat _ hterms, hlone, hrest _ herror⟩

end

end SparsePoly
