import Mathlib.Data.List.Chain
import SparsePoly.Text.LetterSet
import SparsePoly.Text.Token

/-!
# Cutting a text into tokens loses nothing

A list of lexemes is the reading of exactly one text, the one put together from theirs, and a text
has at most one reading, provided that no two neighbours are numbers: digits that touch belong to
one number. `Lexeme.Readable` is this side condition. The positions carry no information of their
own; `Token.place` computes them from the lexemes. A text without a reading is one with a foreign
character, and the first of these is what it is refused for.

* `Lexeme.ofChar?_eq_some_iff`: the lexeme of a character.
* `Token.scan_eq_ok_iff`: the tokens of a text are its readable lexemes, each with its position.
* `Token.scan_eq_error_iff`: a text is refused for its first foreign character.
-/

namespace SparsePoly

/-- A character that is foreign to polynomial texts: no sign, no decimal digit and no lowercase
letter. -/
def IsForeign (c : Char) : Prop := c ≠ '+' ∧ c ≠ '-' ∧ c.isDigit = false ∧ c.isLower = false

instance (c : Char) : Decidable (IsForeign c) := inferInstanceAs (Decidable (_ ∧ _))

/-- A lowercase letter is no digit. -/
theorem isDigit_eq_false_of_isLower {x : Char} (h : x.isLower = true) : x.isDigit = false := by
  have hlower := (LetterSet.toNat_of_isLower h).1
  have hnine : '9'.toNat < 'a'.toNat := by decide
  refine Bool.eq_false_iff.2 fun hdigit => ?_
  have hle := (Char.isDigit_iff_toNat.1 hdigit).2
  omega

namespace Lexeme

/-- Whether a lexeme is a run of digits. -/
def isNumber : Lexeme → Bool
  | number _ => true
  | _ => false

/-- A lexeme is well formed when a number has digits and no other characters, and a letter is
lowercase. -/
def WellFormed : Lexeme → Prop
  | sign _ => True
  | number digits => digits ≠ [] ∧ ∀ d ∈ digits, d.isDigit = true
  | letter x => x.isLower = true

/-- Two lexemes can be neighbours unless both are numbers. -/
def Apart (l k : Lexeme) : Prop := l.isNumber = true → k.isNumber = false

/-- Lexemes that a text can be cut into. -/
structure Readable (lexemes : List Lexeme) : Prop where
  /-- Every lexeme is well formed. -/
  wellFormed : ∀ l ∈ lexemes, l.WellFormed
  /-- No two numbers touch. -/
  apart : lexemes.IsChain Apart

variable {c : Char} {l : Lexeme} {lexemes : List Lexeme}

theorem readable_nil : Readable [] := ⟨nofun, .nil⟩

theorem readable_cons_iff :
    Readable (l :: lexemes) ↔
      l.WellFormed ∧ (∀ k ∈ lexemes.head?, Apart l k) ∧ Readable lexemes := by
  constructor
  · rintro ⟨hwf, hapart⟩
    obtain ⟨hl, hlexemes⟩ := List.forall_mem_cons.1 hwf
    obtain ⟨hhead, htail⟩ := List.isChain_cons.1 hapart
    exact ⟨hl, hhead, hlexemes, htail⟩
  · rintro ⟨hl, hhead, hlexemes, htail⟩
    exact ⟨List.forall_mem_cons.2 ⟨hl, hlexemes⟩, List.isChain_cons.2 ⟨hhead, htail⟩⟩

/-- The lexeme of a character is the well formed one that is written with this character only. -/
theorem ofChar?_eq_some_iff : ofChar? c = some l ↔ l.WellFormed ∧ l.text = [c] := by
  constructor
  · intro h
    unfold ofChar? at h
    split at h
    · next hc =>
      cases h
      exact ⟨trivial, hc ▸ rfl⟩
    · split at h
      · next hc =>
        cases h
        exact ⟨trivial, hc ▸ rfl⟩
      · split at h
        · next hdigit =>
          cases h
          exact ⟨⟨nofun, fun d hd => by rwa [List.mem_singleton.1 hd]⟩, rfl⟩
        · split at h
          · next hletter =>
            cases h
            exact ⟨hletter, rfl⟩
          · contradiction
  · rintro ⟨hl, htext⟩
    cases l with
    | sign negative =>
      cases negative with
      | false =>
        cases htext
        rfl
      | true =>
        cases htext
        rfl
    | number digits =>
      obtain rfl : digits = [c] := htext
      have hdigit : c.isDigit = true := hl.2 c (.head [])
      have hplus : c ≠ '+' := by
        rintro rfl
        contradiction
      have hminus : c ≠ '-' := by
        rintro rfl
        contradiction
      rw [ofChar?, if_neg hplus, if_neg hminus, if_pos hdigit]
    | letter x =>
      obtain rfl : x = c := List.head_eq_of_cons_eq htext
      have hletter : x.isLower = true := hl
      have hplus : x ≠ '+' := by
        rintro rfl
        contradiction
      have hminus : x ≠ '-' := by
        rintro rfl
        contradiction
      have hdigit : ¬ x.isDigit = true := Bool.eq_false_iff.1 (isDigit_eq_false_of_isLower hletter)
      rw [ofChar?, if_neg hplus, if_neg hminus, if_neg hdigit, if_pos hletter]

/-- The characters without a lexeme are the foreign ones. -/
theorem ofChar?_eq_none_iff : ofChar? c = none ↔ IsForeign c := by
  unfold ofChar?
  split
  · next hplus => exact iff_of_false nofun fun h => h.1 hplus
  · next hplus =>
    split
    · next hminus => exact iff_of_false nofun fun h => h.2.1 hminus
    · next hminus =>
      split
      · next hdigit => exact iff_of_false nofun fun h => Bool.eq_false_iff.1 h.2.2.1 hdigit
      · next hdigit =>
        split
        · next hletter => exact iff_of_false nofun fun h => Bool.eq_false_iff.1 h.2.2.2 hletter
        · next hletter =>
          exact iff_of_true rfl
            ⟨hplus, hminus, Bool.eq_false_iff.2 hdigit, Bool.eq_false_iff.2 hletter⟩

/-- Puts a lexeme before others, making one number of two that touch. -/
def attach : Lexeme → List Lexeme → List Lexeme
  | number digits, number more :: lexemes => number (digits ++ more) :: lexemes
  | l, lexemes => l :: lexemes

theorem flatMap_attach (l : Lexeme) (lexemes : List Lexeme) :
    (attach l lexemes).flatMap text = l.text ++ lexemes.flatMap text := by
  fun_cases attach l lexemes with
  | case1 digits more lexemes => exact List.append_assoc digits more _
  | case2 => rfl

theorem readable_attach (hl : l.WellFormed) (h : Readable lexemes) :
    Readable (attach l lexemes) := by
  fun_cases attach l lexemes with
  | case1 digits more lexemes =>
    obtain ⟨hmore, hhead, hlexemes⟩ := readable_cons_iff.1 h
    have hnumber : WellFormed (number (digits ++ more)) :=
      ⟨List.append_ne_nil_of_left_ne_nil hl.1 more, List.forall_mem_append.2 ⟨hl.2, hmore.2⟩⟩
    exact readable_cons_iff.2 ⟨hnumber, hhead, hlexemes⟩
  | case2 _ _ htouch =>
    refine readable_cons_iff.2 ⟨hl, fun k hk hnumber => ?_, h⟩
    obtain ⟨rest, rfl⟩ := List.head?_eq_some_iff.1 hk
    cases l with
    | number digits =>
      cases k with
      | number more => exact absurd rfl (htouch digits more rest rfl)
      | sign _ => rfl
      | letter _ => rfl
    | sign _ => contradiction
    | letter _ => contradiction

theorem attach_attach (first second : List Char) (lexemes : List Lexeme) :
    attach (number first) (attach (number second) lexemes) =
      attach (number (first ++ second)) lexemes := by
  cases lexemes with
  | nil => rfl
  | cons k lexemes =>
    cases k with
    | number more => simp only [attach, List.append_assoc]
    | sign _ => rfl
    | letter _ => rfl

/-- Lexemes that are apart stay as they are. -/
theorem attach_eq_cons (h : ∀ k ∈ lexemes.head?, Apart l k) :
    attach l lexemes = l :: lexemes := by
  fun_cases attach l lexemes with
  | case1 digits more lexemes => exact absurd (h _ rfl rfl) nofun
  | case2 => rfl

end Lexeme

namespace Token

/-- The tokens of lexemes that stand one after another from a position on. -/
def place (position : Nat) : List Lexeme → List Token
  | [] => []
  | l :: lexemes => ⟨l, position⟩ :: place (position + l.text.length) lexemes

variable {c : Char} {n : Nat} {text : List Char} {l : Lexeme} {lexemes : List Lexeme} {t : Token}
  {tokens : List Token} {e : Error}

@[simp] theorem place_nil (n : Nat) : place n [] = [] := rfl

@[simp] theorem place_cons (n : Nat) (l : Lexeme) (lexemes : List Lexeme) :
    place n (l :: lexemes) = ⟨l, n⟩ :: place (n + l.text.length) lexemes := rfl

@[simp] theorem map_lexeme_place (n : Nat) (lexemes : List Lexeme) :
    (place n lexemes).map Token.lexeme = lexemes := by
  induction lexemes generalizing n with
  | nil => rfl
  | cons l lexemes ih => rw [place_cons, List.map_cons, ih]

/-! ### Character by character -/

/-- The tokens of a text that begins at a position. -/
private def scanFrom (position : Nat) (text : List Char) : Except Error (List Token) := do
  let tokens ← (text.zipIdx position).mapM fun (c, position) => ofChar c position
  return tokens.foldr join []

private theorem scanFrom_cons_eq_ok_iff :
    scanFrom n (c :: text) = .ok tokens ↔
      ∃ t ts, ofChar c n = .ok t ∧ scanFrom (n + 1) text = .ok ts ∧ tokens = join t ts := by
  constructor
  · intro h
    obtain ⟨chars, hchars, h⟩ := bind_eq_ok_iff.1 h
    rw [List.zipIdx_cons] at hchars
    obtain ⟨t, rest, ht, hrest, rfl⟩ := mapM_cons_eq_ok_iff.1 hchars
    cases h
    exact ⟨t, _, ht, bind_eq_ok_iff.2 ⟨rest, hrest, rfl⟩, rfl⟩
  · rintro ⟨t, ts, ht, h, rfl⟩
    obtain ⟨chars, hchars, h⟩ := bind_eq_ok_iff.1 h
    cases h
    refine bind_eq_ok_iff.2 ⟨t :: chars, ?_, rfl⟩
    rw [List.zipIdx_cons]
    exact mapM_cons_eq_ok_iff.2 ⟨t, chars, ht, hchars, rfl⟩

private theorem ofChar_eq_ok_iff :
    ofChar c n = .ok t ↔ t.lexeme.WellFormed ∧ t.lexeme.text = [c] ∧ t.position = n := by
  unfold ofChar
  split
  · next l hl =>
    obtain ⟨hwf, htext⟩ := Lexeme.ofChar?_eq_some_iff.1 hl
    rw [Except.ok.injEq]
    constructor
    · rintro rfl
      exact ⟨hwf, htext, rfl⟩
    · rintro ⟨htwf, httext, rfl⟩
      have hlexeme : some t.lexeme = some l :=
        (Lexeme.ofChar?_eq_some_iff.2 ⟨htwf, httext⟩).symm.trans hl
      rw [← Option.some.inj hlexeme]
  · next hnone =>
    refine ⟨nofun, fun ⟨htwf, httext, _⟩ => ?_⟩
    rw [Lexeme.ofChar?_eq_some_iff.2 ⟨htwf, httext⟩] at hnone
    contradiction

/-- Tokens are joined as their lexemes are attached. -/
private theorem join_place (l : Lexeme) (lexemes : List Lexeme) (n : Nat) :
    join ⟨l, n⟩ (place (n + l.text.length) lexemes) = place n (Lexeme.attach l lexemes) := by
  fun_cases Lexeme.attach l lexemes with
  | case1 digits more lexemes =>
    have hlength : n + digits.length + more.length = n + (digits ++ more).length := by
      rw [List.length_append, Nat.add_assoc]
    simp only [place_cons, Lexeme.text, hlength]
    rfl
  | case2 _ _ htouch =>
    cases lexemes with
    | nil => rfl
    | cons k lexemes =>
      cases l with
      | number digits =>
        cases k with
        | number more => exact absurd rfl (htouch digits more lexemes rfl)
        | sign _ => rfl
        | letter _ => rfl
      | sign _ => rfl
      | letter _ => rfl

/-- The tokens of a text are readable lexemes that make up the text. -/
private theorem exists_of_scanFrom (h : scanFrom n text = .ok tokens) :
    ∃ lexemes, Lexeme.Readable lexemes ∧ text = lexemes.flatMap Lexeme.text ∧
      tokens = place n lexemes := by
  -- from the last character to the first: each one is attached to the lexemes behind it
  induction text generalizing n tokens with
  | nil =>
    cases h
    exact ⟨[], Lexeme.readable_nil, rfl, rfl⟩
  | cons c text ih =>
    obtain ⟨⟨l, position⟩, ts, ht, hts, rfl⟩ := scanFrom_cons_eq_ok_iff.1 h
    obtain ⟨lexemes, hread, rfl, rfl⟩ := ih hts
    obtain ⟨hl, htext, rfl⟩ := ofChar_eq_ok_iff.1 ht
    have hposition : position + 1 = position + l.text.length := by rw [htext, List.length_singleton]
    refine ⟨Lexeme.attach l lexemes, Lexeme.readable_attach hl hread, ?_, ?_⟩
    · rw [Lexeme.flatMap_attach, htext]
      rfl
    · rw [hposition, join_place]

/-- One character more is one lexeme to attach. -/
private theorem scanFrom_cons (hl : l.WellFormed) (htext : l.text = [c])
    (h : scanFrom (n + 1) text = .ok (place (n + 1) lexemes)) :
    scanFrom n (c :: text) = .ok (place n (Lexeme.attach l lexemes)) := by
  refine scanFrom_cons_eq_ok_iff.2 ⟨⟨l, n⟩, _, ofChar_eq_ok_iff.2 ⟨hl, htext, rfl⟩, h, ?_⟩
  rw [← join_place, htext]
  rfl

/-- Digits are attached as one number. -/
private theorem scanFrom_digits {digits : List Char} (hne : digits ≠ [])
    (hdigits : ∀ d ∈ digits, d.isDigit = true)
    (h : scanFrom (n + digits.length) text = .ok (place (n + digits.length) lexemes)) :
    scanFrom n (digits ++ text) = .ok (place n (Lexeme.attach (.number digits) lexemes)) := by
  induction digits generalizing n with
  | nil => contradiction
  | cons d digits ih =>
    obtain ⟨hd, hdigits⟩ := List.forall_mem_cons.1 hdigits
    have hnumber : Lexeme.WellFormed (.number [d]) :=
      ⟨nofun, fun d' hd' => by rwa [List.mem_singleton.1 hd']⟩
    cases digits with
    | nil => exact scanFrom_cons hnumber rfl h
    | cons d' digits =>
      have hlength : n + 1 + (d' :: digits).length = n + (d :: d' :: digits).length := by
        simp only [List.length_cons]
        omega
      rw [← hlength] at h
      -- the digit joins the number that the other digits make
      have hrest := scanFrom_cons hnumber rfl (ih nofun hdigits h)
      rw [Lexeme.attach_attach] at hrest
      exact hrest

/-- Readable lexemes are the tokens of the text that they make up. -/
private theorem scanFrom_flatMap (h : Lexeme.Readable lexemes) (n : Nat) :
    scanFrom n (lexemes.flatMap Lexeme.text) = .ok (place n lexemes) := by
  induction lexemes generalizing n with
  | nil => rfl
  | cons l lexemes ih =>
    obtain ⟨hl, hhead, hlexemes⟩ := Lexeme.readable_cons_iff.1 h
    have hrest := ih hlexemes (n + l.text.length)
    rw [← Lexeme.attach_eq_cons hhead, Lexeme.flatMap_attach]
    cases l with
    | sign negative =>
      cases negative with
      | false => exact scanFrom_cons hl rfl hrest
      | true => exact scanFrom_cons hl rfl hrest
    | number digits => exact scanFrom_digits hl.1 hl.2 hrest
    | letter x => exact scanFrom_cons hl rfl hrest

/-- The tokens of a text are the readable lexemes that make up the text, each with its position. -/
theorem scan_eq_ok_iff :
    scan text = .ok tokens ↔
      ∃ lexemes, Lexeme.Readable lexemes ∧ text = lexemes.flatMap Lexeme.text ∧
        tokens = place 0 lexemes := by
  constructor
  · exact exists_of_scanFrom
  · rintro ⟨lexemes, hread, rfl, rfl⟩
    exact scanFrom_flatMap hread 0

/-! ### Foreign characters -/

private theorem ofChar_eq_error_iff :
    ofChar c n = .error e ↔ IsForeign c ∧ e = .malformed n (.unexpectedCharacter c) := by
  rw [← Lexeme.ofChar?_eq_none_iff]
  unfold ofChar
  split
  · next l hl =>
    rw [hl]
    exact iff_of_false nofun nofun
  · next hnone =>
    rw [hnone, Except.error.injEq, eq_comm (a := e)]
    exact (and_iff_right rfl).symm

private theorem scanFrom_cons_eq_error_iff :
    scanFrom n (c :: text) = .error e ↔
      ofChar c n = .error e ∨ ¬ IsForeign c ∧ scanFrom (n + 1) text = .error e := by
  have hmapM : ∀ m text, scanFrom m text = .error e ↔
      ((text.zipIdx m).mapM fun (c, position) => ofChar c position) = .error e := by
    intro m text
    refine bind_eq_error_iff.trans (or_iff_left ?_)
    rintro ⟨tokens, -, h⟩
    contradiction
  have hok : (∃ t, ofChar c n = .ok t) ↔ ¬ IsForeign c := by
    rw [← Lexeme.ofChar?_eq_none_iff]
    unfold ofChar
    cases Lexeme.ofChar? c with
    | none => exact iff_of_false nofun fun h => h rfl
    | some l => exact iff_of_true ⟨_, rfl⟩ nofun
  rw [hmapM, List.zipIdx_cons, mapM_cons_eq_error_iff, exists_and_right, hok, ← hmapM]

private theorem scanFrom_eq_error_iff :
    scanFrom n text = .error e ↔
      ∃ before c rest, text = before ++ c :: rest ∧ (∀ b ∈ before, ¬ IsForeign b) ∧
        IsForeign c ∧ e = .malformed (n + before.length) (.unexpectedCharacter c) := by
  induction text generalizing n with
  | nil =>
    refine iff_of_false nofun ?_
    rintro ⟨before, c, rest, h, -⟩
    exact List.append_ne_nil_of_right_ne_nil before (List.cons_ne_nil c rest) h.symm
  | cons c text ih =>
    rw [scanFrom_cons_eq_error_iff, ofChar_eq_error_iff, ih]
    constructor
    · rintro (⟨hc, rfl⟩ | ⟨hc, before, d, rest, rfl, hbefore, hd, rfl⟩)
      · exact ⟨[], c, text, rfl, nofun, hc, rfl⟩
      · refine ⟨c :: before, d, rest, rfl, List.forall_mem_cons.2 ⟨hc, hbefore⟩, hd, ?_⟩
        rw [List.length_cons, Nat.add_assoc, Nat.add_comm 1]
    · rintro ⟨before, d, rest, htext, hbefore, hd, rfl⟩
      cases before with
      | nil =>
        cases htext
        exact .inl ⟨hd, rfl⟩
      | cons b before =>
        cases htext
        obtain ⟨hb, hbefore⟩ := List.forall_mem_cons.1 hbefore
        refine .inr ⟨hb, before, d, rest, rfl, hbefore, hd, ?_⟩
        rw [List.length_cons, Nat.add_assoc, Nat.add_comm 1]

/-- A text is refused for its first foreign character. -/
theorem scan_eq_error_iff :
    scan text = .error e ↔
      ∃ before c rest, text = before ++ c :: rest ∧ (∀ b ∈ before, ¬ IsForeign b) ∧
        IsForeign c ∧ e = .malformed before.length (.unexpectedCharacter c) := by
  have h : scanFrom 0 text = .error e ↔ _ := scanFrom_eq_error_iff
  simp only [Nat.zero_add] at h
  exact h

/-- The texts that are cut into tokens are those without foreign characters. -/
theorem exists_scan_eq_ok_iff :
    (∃ tokens, scan text = .ok tokens) ↔ ∀ c ∈ text, ¬ IsForeign c := by
  constructor
  · rintro ⟨tokens, h⟩
    cases hfind : text.find? fun c => IsForeign c with
    | none => simpa using hfind
    | some c =>
      obtain ⟨hc, before, rest, rfl, hbefore⟩ := List.find?_eq_some_iff_append.1 hfind
      have herror := scan_eq_error_iff.2
        ⟨before, c, rest, rfl, by simpa using hbefore, of_decide_eq_true hc, rfl⟩
      rw [h] at herror
      contradiction
  · intro h
    cases hscan : scan text with
    | ok tokens => exact ⟨tokens, rfl⟩
    | error e =>
      obtain ⟨before, c, rest, rfl, -, hc, -⟩ := scan_eq_error_iff.1 hscan
      exact absurd hc (h c (List.mem_append_right before (.head rest)))

end Token

end SparsePoly
