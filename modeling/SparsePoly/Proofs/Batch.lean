import SparsePoly.Proofs.Answers

/-!
# What a batch does

A batch that does not stop at errors skips blank lines, takes a count from the first other line and
then answers one line after another, as many as were announced or as there are. Each answer depends
on its own line only. `answerLines_cons` is one step of this on a sink without a limit, and
`answerLines_append` a whole row of steps, in front of whatever lines come next.

* `countOfText?_eq_some_iff`: the texts that write a count.
* `takeCount_append`: the lines before the count.
* `answerLines_append`: the answers to a row of lines.
* `runBatch_text`: a whole run on lines that are all text.
-/

namespace SparsePoly

/-! ### The count -/

/-- A text writes a count when it is a row of decimal digits, perhaps after a plus, for a number of
at most 64 bits. -/
def WritesCount (text : List Char) (n : Nat) : Prop :=
  ∃ digits, (text = digits ∨ text = '+' :: digits) ∧ digits ≠ [] ∧
    (∀ d ∈ digits, d.isDigit = true) ∧ n = Nat.ofDigitChars 10 digits 0 ∧ n < 2 ^ 64

variable {text : List Char} {n : Nat}

/-- The number that a row of digits writes. -/
private def countOfDigits? (digits : List Char) : Option Nat :=
  if digits ≠ [] ∧ digits.all Char.isDigit ∧ Nat.ofDigitChars 10 digits 0 < UInt64.size then
    some (Nat.ofDigitChars 10 digits 0)
  else none

private theorem countOfDigits?_eq_some_iff {digits : List Char} :
    countOfDigits? digits = some n ↔ digits ≠ [] ∧ (∀ d ∈ digits, d.isDigit = true) ∧
      n = Nat.ofDigitChars 10 digits 0 ∧ n < 2 ^ 64 := by
  have hsize : UInt64.size = 2 ^ 64 := rfl
  rw [countOfDigits?, hsize, ← List.all_eq_true]
  constructor
  · intro h
    split at h
    · next hdigits =>
      cases h
      exact ⟨hdigits.1, hdigits.2.1, rfl, hdigits.2.2⟩
    · contradiction
  · rintro ⟨hne, hdigits, rfl, hlt⟩
    exact if_pos ⟨hne, hdigits, hlt⟩

/-- Without a plus at its beginning a text has to be a row of digits. -/
private theorem countOfText?_of_ne (h : ∀ digits, text ≠ '+' :: digits) :
    countOfText? text = countOfDigits? text := by
  -- the hypothesis excludes the pattern with a plus
  simp only [countOfText?]
  rfl

/-- The texts that write a count, and which. -/
theorem countOfText?_eq_some_iff : countOfText? text = some n ↔ WritesCount text n := by
  constructor
  · intro h
    by_cases hplus : ∃ digits, text = '+' :: digits
    · obtain ⟨digits, rfl⟩ := hplus
      exact ⟨digits, .inr rfl, countOfDigits?_eq_some_iff.1 h⟩
    · rw [countOfText?_of_ne fun digits htext => hplus ⟨digits, htext⟩] at h
      exact ⟨text, .inl rfl, countOfDigits?_eq_some_iff.1 h⟩
  · rintro ⟨digits, rfl | rfl, hdigits⟩
    · rw [countOfText?_of_ne, countOfDigits?_eq_some_iff]
      · exact hdigits
      · rintro digits rfl
        exact absurd (hdigits.2.1 '+' (.head digits)) (by decide)
    · exact countOfDigits?_eq_some_iff.2 hdigits

/-! ### Lines that are text -/

/-- Lines that are all text, numbered from `k` on. -/
def numberedLines (k : Nat) (texts : List String) : List (Line × Nat) := (texts.map .ok).zipIdx k

variable {blank texts rest : List String} {line : String} {k : Nat} {lines : List (Line × Nat)}

theorem numberedLines_cons (k : Nat) (text : String) (texts : List String) :
    numberedLines k (text :: texts) = (.ok text, k) :: numberedLines (k + 1) texts := rfl

theorem numberedLines_append (k : Nat) (texts rest : List String) :
    numberedLines k (texts ++ rest) =
      numberedLines k texts ++ numberedLines (k + texts.length) rest := by
  rw [numberedLines, List.map_append, List.zipIdx_append, List.length_map]
  rfl

/-- Blank lines before the count are skipped. -/
theorem takeCount_append (hblank : ∀ l ∈ blank, trim l.toList = []) :
    takeCount (numberedLines k blank ++ lines) = takeCount lines := by
  induction blank generalizing k with
  | nil => rfl
  | cons l blank ih =>
    obtain ⟨hl, hblank⟩ := List.forall_mem_cons.1 hblank
    rw [numberedLines_cons, List.cons_append, takeCount_cons_of_blank hl]
    exact ih hblank

/-- Blank lines hold no count. -/
theorem takeCount_of_blank (hblank : ∀ l ∈ blank, trim l.toList = []) :
    takeCount (numberedLines k blank) = .error .missingCount := by
  rw [← List.append_nil (numberedLines k blank), takeCount_append hblank, takeCount]

/-- The first line that is not blank holds the count, or else there is none. -/
theorem takeCount_of_text (hblank : ∀ l ∈ blank, trim l.toList = [])
    (hline : trim line.toList ≠ []) :
    takeCount (numberedLines k (blank ++ line :: rest)) =
      match countOfText? (trim line.toList) with
      | some count => .ok (count, numberedLines (k + blank.length + 1) rest)
      | none => .error (.invalidCount (String.ofList (trim line.toList))) := by
  rw [numberedLines_append, takeCount_append hblank, numberedLines_cons]
  exact takeCount_cons_of_text hline

/-! ### The answers -/

variable {s : Sink}

/-- The summary with the answers to some more lines. -/
def Summary.countAll (summary : Summary) (texts : List String) : Summary :=
  texts.foldl (fun summary text => summary.count (evaluateLine text)) summary

/-- The bytes of the answers to some lines, one after another. -/
def answersTo (texts : List String) : List Bytes :=
  texts.map fun text => utf8 (answer (evaluateLine text))

theorem answersTo_cons (text : String) (texts : List String) :
    answersTo (text :: texts) = utf8 (answer (evaluateLine text)) :: answersTo texts := rfl

theorem answersTo_append (first second : List String) :
    answersTo (first ++ second) = answersTo first ++ answersTo second := List.map_append

/-- The answers are the lines of what is written. -/
theorem cutLines_answersTo (texts : List String) :
    cutLines (answersTo texts).flatten = answersTo texts := by
  refine cutLines_flatten fun line hline => ?_
  obtain ⟨text, -, rfl⟩ := List.mem_map.1 hline
  exact isLine_answer text

theorem answersTo_eq (texts : List String) :
    answersTo texts = texts.map fun text => utf8 (answerText (evaluateLine text) ++ "\n") :=
  List.map_congr_left fun text _ => congrArg utf8 (answer_eq (evaluateLine text))

/-- The counts go up by the numbers of lines with and without a result. -/
theorem Summary.countAll_eq (summary : Summary) (texts : List String) :
    summary.countAll texts =
      ⟨summary.evaluated + texts.countP fun text => (evaluateLine text).isOk,
        summary.failed + texts.countP fun text => !(evaluateLine text).isOk⟩ := by
  induction texts generalizing summary with
  | nil => rfl
  | cons text texts ih =>
    have hstep : summary.countAll (text :: texts) =
        (summary.count (evaluateLine text)).countAll texts := rfl
    rw [hstep, ih, Summary.mk.injEq]
    cases h : evaluateLine text with
    | ok r =>
      have hok : (evaluateLine text).isOk = true := by rw [h]; rfl
      simp only [count, List.countP_cons, hok, Bool.not_true, Bool.false_eq_true, if_true, if_false]
      omega
    | error e =>
      have herror : (evaluateLine text).isOk = false := by rw [h]; rfl
      simp only [count, List.countP_cons, herror, Bool.not_false, Bool.false_eq_true, if_true,
        if_false]
      omega

/-- Every line counts once. -/
theorem Summary.answered_countAll (summary : Summary) (texts : List String) :
    (summary.countAll texts).answered = summary.answered + texts.length := by
  rw [countAll_eq, answered, answered,
    List.length_eq_countP_add_countP (fun text => (evaluateLine text).isOk)]
  simp only [Bool.not_eq_true, Bool.decide_eq_false]
  omega

variable {options : BatchOptions} {announced remaining : Nat} {summary : Summary}

/-- A batch that is not told to stop does not. -/
theorem BatchOptions.stop?_default (number : Nat) (evaluation : Except LineError Polynomial) :
    stop? {} number evaluation = none := by
  cases evaluation with
  | ok r => rfl
  | error e => rfl

/-- One line is answered, where the batch does not stop at it. -/
theorem answerLines_cons (hs : s.capacity = none) {text : String}
    (hstop : options.stop? k (evaluateLine text) = none) :
    answerLines options announced (remaining + 1) ((.ok text, k) :: lines) summary s =
      answerLines options announced remaining lines (summary.count (evaluateLine text))
        (s.push (utf8 (answer (evaluateLine text)))) :=
  answerLines_cons_of_hasRoom hstop (Sink.hasRoom_of_unbounded hs _)

/-- A row of announced lines is answered line by line, before the lines that follow are looked
at. -/
theorem answerLines_append (hs : s.capacity = none) :
    answerLines {} announced (texts.length + remaining) (numberedLines k texts ++ lines) summary s =
      answerLines {} announced remaining lines (summary.countAll texts)
        (s.push (answersTo texts).flatten) := by
  induction texts generalizing k summary s with
  | nil =>
    have hpush : s.push (answersTo []).flatten = s := s.push_nil
    rw [hpush, List.length_nil, Nat.zero_add]
    rfl
  | cons text texts ih =>
    have hlength : (text :: texts).length + remaining = texts.length + remaining + 1 := by
      rw [List.length_cons, Nat.add_right_comm]
    rw [numberedLines_cons, List.cons_append, hlength,
      answerLines_cons hs (BatchOptions.stop?_default k _), ih ((s.capacity_push _).trans hs),
      Sink.push_push (Sink.hasRoom_of_unbounded hs _)]
    rfl

/-- Where all lines are text, as many are answered as were announced, or all of them and then
the batch misses the others. -/
theorem answerLines_text (hs : s.capacity = none) :
    answerLines {} announced remaining (numberedLines k rest) summary s =
      ⟨s.push (answersTo (rest.take remaining)).flatten,
        if remaining ≤ rest.length then .ok (summary.countAll (rest.take remaining))
        else .error (.missingLines announced (summary.answered + rest.length))⟩ := by
  by_cases hle : remaining ≤ rest.length
  · obtain ⟨first, second, rfl, rfl⟩ :
        ∃ first second, rest = first ++ second ∧ first.length = remaining :=
      ⟨rest.take remaining, rest.drop remaining, (List.take_append_drop remaining rest).symm,
        List.length_take_of_le hle⟩
    -- when the announced lines are answered the batch is over
    have hanswered : answerLines {} announced (first.length + 0)
        (numberedLines k first ++ numberedLines (k + first.length) second) summary s =
          ⟨s.push (answersTo first).flatten, .ok (summary.countAll first)⟩ := by
      rw [answerLines_append hs, answerLines]
    rw [if_pos hle, List.take_left, numberedLines_append]
    exact hanswered
  · obtain ⟨more, rfl⟩ := Nat.exists_eq_add_of_lt (Nat.lt_of_not_le hle)
    rw [if_neg hle, List.take_of_length_le (Nat.le_of_not_le hle),
      ← List.append_nil (numberedLines k rest), Nat.add_assoc, answerLines_append hs,
      answerLines, Summary.answered_countAll]

/-! ### Runs -/

variable {bytes : Bytes} {ls : List String}

/-- A batch of blank lines misses its count. -/
theorem runBatch_of_blank (hblank : ∀ l ∈ ls, trim l.toList = []) :
    runBatch options (ls.map .ok) s = ⟨s, .error .missingCount⟩ := by
  rw [runBatch, ← numberedLines, takeCount_of_blank hblank]

/-- A batch refuses the first line that is not blank where it writes no count. -/
theorem runBatch_of_not_writesCount (hblank : ∀ l ∈ blank, trim l.toList = [])
    (hline : trim line.toList ≠ []) (hnone : ∀ n, ¬ WritesCount (trim line.toList) n) :
    runBatch options ((blank ++ line :: rest).map .ok) s =
      ⟨s, .error (.invalidCount (String.ofList (trim line.toList)))⟩ := by
  have hcount : countOfText? (trim line.toList) = none :=
    Option.eq_none_iff_forall_ne_some.2 fun n hn => hnone n (countOfText?_eq_some_iff.1 hn)
  rw [runBatch, ← numberedLines, takeCount_of_text hblank hline, hcount]

/-- A batch that finds its count on the first line that is not blank answers the lines behind it. -/
theorem runBatch_of_writesCount (hs : s.capacity = none) (hblank : ∀ l ∈ blank, trim l.toList = [])
    (hline : trim line.toList ≠ []) (hn : WritesCount (trim line.toList) n) :
    runBatch {} ((blank ++ line :: rest).map .ok) s =
      ⟨s.push (answersTo (rest.take n)).flatten,
        if n ≤ rest.length then .ok (Summary.countAll {} (rest.take n))
        else .error (.missingLines n rest.length)⟩ := by
  have hcount := @takeCount_of_text blank rest line 1 hblank hline
  rw [countOfText?_eq_some_iff.2 hn] at hcount
  have hrun : runBatch {} ((blank ++ line :: rest).map .ok) s =
      answerLines {} n n (numberedLines (1 + blank.length + 1) rest) {} s := by
    rw [runBatch, ← numberedLines, hcount]
  have hanswered : Summary.answered {} + rest.length = rest.length := Nat.zero_add rest.length
  rw [hrun, answerLines_text hs, hanswered]

/-- The whole run of a batch that does not stop at errors, on lines that are all text. Where all of
them are blank the count is missing. Otherwise the first line that is not blank has to write a
count, and if it does so, one line of output answers each of the lines after it, as many as were
announced: the result as it is written, or the wording of the error. The batch ends with the
numbers of these two kinds, or with the number of lines where there are fewer than announced. -/
theorem runBatch_text (h : linesOf bytes = ls.map .ok) :
    let outcome := runBatch {} (linesOf bytes) .unbounded
    ((∀ l ∈ ls, trim l.toList = []) →
      outcome.result = .error .missingCount ∧ outcome.sink.bytes = []) ∧
    ∀ blank line rest, ls = blank ++ line :: rest → (∀ l ∈ blank, trim l.toList = []) →
      trim line.toList ≠ [] →
      ((∀ n, ¬ WritesCount (trim line.toList) n) →
        outcome.result = .error (.invalidCount (String.ofList (trim line.toList))) ∧
          outcome.sink.bytes = []) ∧
      ∀ n, WritesCount (trim line.toList) n →
        cutLines outcome.sink.bytes =
          (rest.take n).map (fun l => utf8 (answerText (evaluateLine l) ++ "\n")) ∧
        (n ≤ rest.length → ∃ summary, outcome.result = .ok summary ∧
          summary.evaluated = ((rest.take n).countP fun l => (evaluateLine l).isOk) ∧
          summary.failed = ((rest.take n).countP fun l => !(evaluateLine l).isOk) ∧
          summary.evaluated + summary.failed = n) ∧
        (rest.length < n → outcome.result = .error (.missingLines n rest.length)) := by
  simp only [h]
  refine ⟨fun hblank => ?_, ?_⟩
  · rw [runBatch_of_blank hblank]
    exact ⟨rfl, rfl⟩
  rintro blank line rest rfl hblank hline
  refine ⟨fun hnone => ?_, fun n hn => ?_⟩
  · rw [runBatch_of_not_writesCount hblank hline hnone]
    exact ⟨rfl, rfl⟩
  rw [runBatch_of_writesCount rfl hblank hline hn]
  refine ⟨?_, fun hle => ?_, fun hlt => if_neg (Nat.not_le.2 hlt)⟩
  · rw [Sink.bytes_push_of_unbounded rfl, Sink.bytes_unbounded, List.nil_append,
      cutLines_answersTo, answersTo_eq]
  · refine ⟨_, (if_pos hle).trans (congrArg Except.ok (Summary.countAll_eq _ _)), ?_, ?_, ?_⟩
    · exact Nat.zero_add _
    · exact Nat.zero_add _
    · have hanswered := Summary.answered_countAll {} (rest.take n)
      rw [List.length_take_of_le hle, Summary.countAll_eq] at hanswered
      exact hanswered.trans (Nat.zero_add n)

/-- Three lines are answered after a blank one and the count, one of them with an error, and a
fourth is not looked at. -/
theorem runBatch_text_three :
    let ls := ["", " +3", "+ x y", "% x y", "* x x", "+ y"]
    let outcome := runBatch {} (linesOf (utf8 "\r\n +3\n+ x y\n% x y\n* x x\n+ y")) .unbounded
    linesOf (utf8 "\r\n +3\n+ x y\n% x y\n* x x\n+ y") = ls.map .ok ∧
      WritesCount (trim " +3".toList) 3 ∧
      cutLines outcome.sink.bytes = [utf8 "x+y\n",
        utf8 "error: unknown operator `%`, expected one of `+`, `-`, `*`\n", utf8 "x2\n"] ∧
      outcome.result = .ok ⟨2, 1⟩ := by
  intro ls outcome
  have h : linesOf (utf8 "\r\n +3\n+ x y\n% x y\n* x x\n+ y") = ls.map .ok := rfl
  have hcount : WritesCount (trim " +3".toList) 3 :=
    ⟨['3'], by decide, by decide, List.forall_mem_singleton.2 rfl, rfl, by decide⟩
  have hadd : evaluateLine "+ x y" = .ok ⟨[⟨1, [⟨'x', 1⟩]⟩, ⟨1, [⟨'y', 1⟩]⟩]⟩ := by decide +kernel
  have hbad : evaluateLine "% x y" = .error (.evaluation (.unknownOperator "%")) := rfl
  have hmul : evaluateLine "* x x" = .ok ⟨[⟨1, [⟨'x', 2⟩]⟩]⟩ := by decide +kernel
  obtain ⟨-, hrun⟩ := runBatch_text h
  obtain ⟨-, hrun⟩ := hrun [""] " +3" ["+ x y", "% x y", "* x x", "+ y"] rfl
    (List.forall_mem_singleton.2 rfl) (by decide)
  obtain ⟨hlines, hresult, -⟩ := hrun 3 hcount
  obtain ⟨summary, hresult, hevaluated, hfailed, -⟩ := hresult (by decide)
  refine ⟨h, hcount, ?_, ?_⟩
  · refine hlines.trans ?_
    simp only [List.take, List.map_cons, List.map_nil, hadd, hbad, hmul]
    rfl
  · refine hresult.trans ?_
    simp only [List.take, List.countP_cons, List.countP_nil, hadd, hbad, hmul] at hevaluated hfailed
    obtain ⟨evaluated, failed⟩ := summary
    cases hevaluated
    cases hfailed
    rfl

end SparsePoly
