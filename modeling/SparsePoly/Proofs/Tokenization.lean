import SparsePoly.Proofs.Scan

/-!
# A text determines its tokens

Which tokens a text has can be said without scanning it: their texts make up the text, each one is
at the place where it says that it is, and digits that touch are in one number. `Token.Tokenizes`
is this description. It fits one row of tokens at most, and the scanner finds it whenever there is
one, which is the case exactly for the texts without foreign characters.

The scanner joins numbers from the end of the text on. Going the other way gives the same tokens: a
digit behind a number is put at its end, and any other character makes a token of its own.

* `Token.scan_eq_ok_iff_tokenizes`: the scanner finds the tokens that are described.
* `Token.scan_concat`, `Token.scan_eq_foldlM`: scanning character by character from the first on.
* `Token.scan_lossless`: the description, when there are tokens, and that they are the only ones.
-/

namespace SparsePoly

namespace Token

/-- What it is for tokens to **tokenize** a text. -/
structure Tokenizes (text : List Char) (tokens : List Token) : Prop where
  /-- The texts of the tokens, one after another, are the text. -/
  text_eq : tokens.flatMap (fun t => t.lexeme.text) = text
  /-- The position of a token is the number of characters before it. -/
  position_eq : ∀ before t after, tokens = before ++ t :: after →
    t.position = (before.flatMap fun u => u.lexeme.text).length
  /-- Letters are lowercase, and numbers are runs of digits with at least one digit. -/
  wellFormed : ∀ t ∈ tokens, t.lexeme.WellFormed
  /-- Of two neighbours at most one is a number. -/
  apart : tokens.IsChain fun t u => t.lexeme.isNumber = true → u.lexeme.isNumber = false

variable {n : Nat} {text : List Char} {tokens : List Token} {t u : Token}

/-- Tokens stand one after another from a position on when the position of each is that far behind
the texts of those before it. -/
theorem eq_place_iff :
    tokens = place n (tokens.map Token.lexeme) ↔
      ∀ before t after, tokens = before ++ t :: after →
        t.position = n + (before.flatMap fun u => u.lexeme.text).length := by
  induction tokens generalizing n with
  | nil =>
    refine iff_of_true rfl fun before t after h => ?_
    exact absurd h.symm (List.append_ne_nil_of_right_ne_nil before (List.cons_ne_nil t after))
  | cons u tokens ih =>
    rw [List.map_cons, place_cons, List.cons.injEq, ih]
    constructor
    · rintro ⟨hu, htokens⟩ before t after h
      cases before with
      | nil =>
        cases h
        rw [hu]
        rfl
      | cons b before =>
        cases h
        rw [htokens before t after rfl, List.flatMap_cons, List.length_append, Nat.add_assoc]
    · intro h
      have hu : u.position = n := h [] u tokens rfl
      refine ⟨by rw [← hu], fun before t after htokens => ?_⟩
      rw [h (u :: before) t after (by rw [htokens, List.cons_append]), List.flatMap_cons,
        List.length_append, Nat.add_assoc]

/-- The tokens of a text are readable lexemes that make up the text, each with its position. -/
theorem tokenizes_iff :
    Tokenizes text tokens ↔
      ∃ lexemes, Lexeme.Readable lexemes ∧ text = lexemes.flatMap Lexeme.text ∧
        tokens = place 0 lexemes := by
  have hplace : tokens = place 0 (tokens.map Token.lexeme) ↔ _ := eq_place_iff
  simp only [Nat.zero_add] at hplace
  constructor
  · rintro ⟨htext, hposition, hwf, hapart⟩
    refine ⟨tokens.map Token.lexeme, ⟨List.forall_mem_map.2 hwf, (List.isChain_map _).2 hapart⟩, ?_,
      hplace.2 hposition⟩
    rw [List.flatMap_map, htext]
  · rintro ⟨lexemes, ⟨hwf, hapart⟩, rfl, rfl⟩
    rw [map_lexeme_place] at hplace
    have hmap := map_lexeme_place 0 lexemes
    refine ⟨?_, hplace.1 rfl, ?_, ?_⟩
    · rw [← List.flatMap_map, hmap]
    · rw [← hmap] at hwf
      exact List.forall_mem_map.1 hwf
    · rw [← hmap] at hapart
      exact (List.isChain_map _).1 hapart

/-- The scanner finds the tokens that tokenize the text. -/
theorem scan_eq_ok_iff_tokenizes : scan text = .ok tokens ↔ Tokenizes text tokens :=
  scan_eq_ok_iff.trans tokenizes_iff.symm

/-- A text cannot be cut into tokens exactly when it has a foreign character. -/
theorem exists_scan_eq_error_iff : (∃ e, scan text = .error e) ↔ ∃ c ∈ text, IsForeign c := by
  constructor
  · rintro ⟨e, h⟩
    obtain ⟨before, c, rest, rfl, -, hc, -⟩ := scan_eq_error_iff.1 h
    exact ⟨c, List.mem_append_right before (.head rest), hc⟩
  · rintro ⟨c, hmem, hc⟩
    cases hscan : scan text with
    | error e => exact ⟨e, rfl⟩
    | ok tokens => exact absurd hc (exists_scan_eq_ok_iff.1 ⟨tokens, hscan⟩ c hmem)

/-! ### From the first character to the last -/

/-- Puts a token behind others, making one number of two that touch. -/
def extend : List Token → Token → List Token
  | [], t => [t]
  | [u], t => join u [t]
  | u :: tokens, t => u :: extend tokens t

private theorem extend_cons (u : Token) (hne : tokens ≠ []) (t : Token) :
    extend (u :: tokens) t = u :: extend tokens t := by
  obtain ⟨v, tokens, rfl⟩ := List.exists_cons_of_ne_nil hne
  rfl

/-- Tokens that are apart are not joined. -/
private theorem join_of_apart (h : Lexeme.Apart t.lexeme u.lexeme) (tokens : List Token) :
    join t (u :: tokens) = t :: u :: tokens := by
  obtain ⟨l, n⟩ := t
  obtain ⟨k, m⟩ := u
  cases l with
  | number digits =>
    cases k with
    | number more => exact absurd (h rfl) nofun
    | sign _ => rfl
    | letter _ => rfl
  | sign _ => rfl
  | letter _ => rfl

private theorem numbers_or_apart (t u : Token) :
    (∃ digits n more m, t = ⟨.number digits, n⟩ ∧ u = ⟨.number more, m⟩) ∨
      Lexeme.Apart t.lexeme u.lexeme := by
  obtain ⟨l, n⟩ := t
  obtain ⟨k, m⟩ := u
  cases l with
  | number digits =>
    cases k with
    | number more => exact .inl ⟨digits, n, more, m, rfl, rfl⟩
    | sign _ => exact .inr fun _ => rfl
    | letter _ => exact .inr fun _ => rfl
  | sign _ => exact .inr nofun
  | letter _ => exact .inr nofun

/-- Of three tokens it does not matter which two are joined first. -/
private theorem join_join (u v t : Token) : join u (join v [t]) = extend (join u [v]) t := by
  rcases numbers_or_apart u v with ⟨digits, n, more, m, rfl, rfl⟩ | huv
  · rcases numbers_or_apart ⟨.number more, m⟩ t with ⟨_, _, last, k, -, rfl⟩ | hvt
    · simp only [join, extend, List.append_assoc]
    · have hut : Lexeme.Apart (.number (digits ++ more)) t.lexeme := hvt
      rw [join_of_apart hvt]
      exact (join_of_apart (t := ⟨.number (digits ++ more), n⟩) hut []).symm
  · rw [join_of_apart huv]
    rcases numbers_or_apart v t with ⟨more, m, last, k, rfl, rfl⟩ | hvt
    · exact join_of_apart (u := ⟨.number (more ++ last), m⟩) huv []
    · rw [join_of_apart hvt, join_of_apart huv, extend_cons u (List.cons_ne_nil v []), extend,
        join_of_apart hvt]

/-- A token is put behind others in the same way before and after one is put before them. -/
private theorem join_extend (u : Token) (tokens : List Token) (t : Token) :
    join u (extend tokens t) = extend (join u tokens) t := by
  cases tokens with
  | nil => rfl
  | cons v tokens =>
    by_cases hne : tokens = []
    · subst hne
      exact join_join u v t
    · rw [extend_cons v hne]
      rcases numbers_or_apart u v with ⟨digits, n, more, m, rfl, rfl⟩ | huv
      · exact (extend_cons _ hne t).symm
      · rw [join_of_apart huv, join_of_apart huv, extend_cons _ (List.cons_ne_nil v tokens),
          extend_cons _ hne]

private theorem foldr_join_concat (tokens : List Token) (t : Token) :
    (tokens ++ [t]).foldr join [] = extend (tokens.foldr join []) t := by
  induction tokens with
  | nil => rfl
  | cons u tokens ih => rw [List.cons_append, List.foldr_cons, ih, join_extend, List.foldr_cons]

/-- One character more at the end of a text is one token more behind its tokens. -/
theorem scan_concat (text : List Char) (c : Char) :
    scan (text ++ [c]) = do
      let tokens ← scan text
      let t ← ofChar c text.length
      return extend tokens t := by
  have hzip : (text ++ [c]).zipIdx = text.zipIdx ++ [(c, text.length)] := by
    rw [List.zipIdx_append, Nat.zero_add]
    rfl
  simp only [scan, hzip, List.mapM_append, List.mapM_cons, List.mapM_nil, bind_assoc, pure_bind,
    foldr_join_concat]

/-- The tokens of a text are found from its first character to its last, each further digit of a
number being put behind those before it. -/
theorem scan_eq_foldlM (text : List Char) :
    scan text = text.zipIdx.foldlM (fun tokens (c, position) => do
      let t ← ofChar c position
      return extend tokens t) [] := by
  induction text using List.reverseRecOn with
  | nil => rfl
  | append_singleton text c ih =>
    rw [scan_concat, ih, List.zipIdx_append, List.foldlM_append, Nat.zero_add]
    simp only [List.zipIdx_singleton, List.foldlM_cons, List.foldlM_nil, bind_assoc, pure_bind]

/-! ### The tokens of a text -/

/-- **Scanning loses nothing.** A text is refused exactly when it has a foreign character. Any
other text is cut into tokens whose texts make it up again, each with the number of characters
before it as its position, letters and runs of digits with no two runs in a row; and it can be cut
into such tokens in one way only. -/
theorem scan_lossless (text : List Char) :
    ((∃ e, scan text = .error e) ↔ ∃ c ∈ text, IsForeign c) ∧
    (∀ tokens, scan text = .ok tokens ↔ Tokenizes text tokens) ∧
    ∀ tokens others, Tokenizes text tokens → Tokenizes text others → others = tokens := by
  refine ⟨exists_scan_eq_error_iff, fun _ => scan_eq_ok_iff_tokenizes, ?_⟩
  intro tokens others htokens hothers
  have hscan := scan_eq_ok_iff_tokenizes.2 htokens
  rw [scan_eq_ok_iff_tokenizes.2 hothers] at hscan
  exact Except.ok.inj hscan

/-- The digits of `-012x3` are two numbers, leading zero included, and no other cut will do; the
superscript of `1²` is no digit. -/
theorem scan_lossless_leading_zero :
    let text := ['-', '0', '1', '2', 'x', '3']
    let tokens : List Token :=
      [⟨.sign true, 0⟩, ⟨.number ['0', '1', '2'], 1⟩, ⟨.letter 'x', 4⟩, ⟨.number ['3'], 5⟩]
    scan text = .ok tokens ∧ Tokenizes text tokens ∧
      (∀ others, Tokenizes text others → others = tokens) ∧ ∃ e, scan ['1', '²'] = .error e := by
  intro text tokens
  have hscan : scan text = .ok tokens := rfl
  obtain ⟨-, hok, hunique⟩ := scan_lossless text
  have htokens := (hok tokens).1 hscan
  refine ⟨hscan, htokens, fun others h => hunique tokens others htokens h, ?_⟩
  exact (scan_lossless ['1', '²']).1.2 ⟨'²', by decide, by decide⟩

end Token

end SparsePoly
