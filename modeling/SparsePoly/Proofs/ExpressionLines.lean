import SparsePoly.Proofs.Batch

/-!
# The expression lines of a batch

Which lines a batch evaluates can be read off its input: blank lines are skipped, the next line
holds the count, and as many of the lines behind it as were announced are expression lines, up to
one that is no text. `expressionLines` picks them out of numbered lines. For every input, valid or
not, a batch that does not stop at errors answers these lines and no others, whatever its result is.

* `runBatch_cases`: a run finds no count, or it goes on to answer the expression lines.
* `getElem?_of_mem_expressionLines`: the number of an expression line is its place in the input.
* `answerLines_of_leadingTexts_eq_append`: the answers to some expression lines in a row, whether or
  not the batch may stop at one that comes later.
* `bytes_runBatch`, `cutLines_runBatch`: the output and its lines.
-/

namespace SparsePoly

/-! ### The lines that are evaluated -/

/-- Whether a line is a blank text. -/
def Line.isBlank : Line → Bool
  | .ok text => (trim text.toList).isEmpty
  | .error _ => false

/-- The texts of the lines up to the first that has none. -/
def leadingTexts : List (Line × Nat) → List (String × Nat)
  | (.ok text, number) :: lines => (text, number) :: leadingTexts lines
  | _ => []

/-- The expression lines of a batch, from its numbered lines: of the lines behind the count as many
as are announced, or fewer where there are no more or where one of them is no text. -/
def expressionLines (lines : List (Line × Nat)) : List (String × Nat) :=
  match lines.dropWhile fun l => l.1.isBlank with
  | (.ok text, _) :: rest =>
    match countOfText? (trim text.toList) with
    | some announced => leadingTexts (rest.take announced)
    | none => []
  | _ => []

variable {lines rest : List (Line × Nat)} {text : String} {k announced : Nat} {e : BatchError}

theorem expressionLines_of_blank (h : trim text.toList = []) :
    expressionLines ((.ok text, k) :: lines) = expressionLines lines := by
  have hblank : Line.isBlank (.ok text) = true := List.isEmpty_iff.2 h
  rw [expressionLines, List.dropWhile_cons, if_pos hblank]
  rfl

theorem expressionLines_of_text (h : trim text.toList ≠ []) :
    expressionLines ((.ok text, k) :: lines) =
      match countOfText? (trim text.toList) with
      | some announced => leadingTexts (lines.take announced)
      | none => [] := by
  have hblank : ¬ Line.isBlank (.ok text) = true := fun hnil => h (List.isEmpty_iff.1 hnil)
  rw [expressionLines, List.dropWhile_cons, if_neg hblank]

/-- Where no count is found, no line is evaluated. -/
theorem expressionLines_of_takeCount_eq_error (h : takeCount lines = .error e) :
    expressionLines lines = [] := by
  fun_induction takeCount lines with
  | case1 => rfl
  | case2 e' k lines => rfl
  | case3 text k lines hblank ih => rw [expressionLines_of_blank hblank, ih h]
  | case4 text k lines count hblank hcount => contradiction
  | case5 text k lines hblank hcount =>
    rw [expressionLines_of_text hblank, hcount]

/-- Where a count is found, the expression lines are behind it. -/
theorem expressionLines_of_takeCount_eq_ok (h : takeCount lines = .ok (announced, rest)) :
    rest <:+ lines ∧ expressionLines lines = leadingTexts (rest.take announced) := by
  fun_induction takeCount lines with
  | case1 => contradiction
  | case2 => contradiction
  | case3 text k lines hblank ih =>
    obtain ⟨hsuffix, hlines⟩ := ih h
    exact ⟨hsuffix.trans (List.suffix_cons _ _), (expressionLines_of_blank hblank).trans hlines⟩
  | case4 text k lines count hblank hcount =>
    cases h
    rw [expressionLines_of_text hblank, hcount]
    exact ⟨List.suffix_cons _ _, rfl⟩
  | case5 => contradiction

/-- A run finds no count, and then no line is evaluated, or it goes on to answer the lines behind
the count, and the expression lines are those of the announced ones up to one that is no text. -/
theorem runBatch_cases (lines : List Line) :
    (∃ e, expressionLines (lines.zipIdx 1) = [] ∧
        ∀ options s, runBatch options lines s = ⟨s, .error e⟩) ∨
      ∃ announced rest, rest <:+ lines.zipIdx 1 ∧
        expressionLines (lines.zipIdx 1) = leadingTexts (rest.take announced) ∧
        ∀ options s,
          runBatch options lines s = answerLines options announced announced rest {} s := by
  cases hcount : takeCount (lines.zipIdx 1) with
  | error e =>
    have hlines := expressionLines_of_takeCount_eq_error hcount
    exact .inl ⟨e, hlines, fun _ _ => runBatch_of_takeCount_eq_error hcount⟩
  | ok found =>
    obtain ⟨announced, rest⟩ := found
    obtain ⟨hsuffix, hlines⟩ := expressionLines_of_takeCount_eq_ok hcount
    exact .inr ⟨announced, rest, hsuffix, hlines, fun _ _ => runBatch_of_takeCount_eq_ok hcount⟩

/-! ### Their numbers -/

theorem mem_of_mem_leadingTexts (h : (text, k) ∈ leadingTexts lines) : (.ok text, k) ∈ lines := by
  fun_induction leadingTexts lines with
  | case1 text' k' lines ih =>
    rcases List.mem_cons.1 h with heq | h
    · cases heq
      exact .head lines
    · exact .tail _ (ih h)
  | case2 => contradiction

/-- The number of an expression line is its place in the input, counted from one. -/
theorem getElem?_of_mem_expressionLines {lines : List Line}
    (h : (text, k) ∈ expressionLines (lines.zipIdx 1)) :
    1 ≤ k ∧ lines[k - 1]? = some (.ok text) := by
  rcases runBatch_cases lines with ⟨e, hlines, -⟩ | ⟨announced, rest, hsuffix, hlines, -⟩
  · rw [hlines] at h
    contradiction
  · rw [hlines] at h
    have hmem := List.mem_of_mem_take (mem_of_mem_leadingTexts h)
    exact List.mk_mem_zipIdx_iff_le_and_getElem?_sub.1 (hsuffix.mem hmem)

/-! ### Their answers -/

variable {before after : List (String × Nat)} {number remaining : Nat} {summary : Summary}
  {s : Sink}

/-- The first announced line is a text where there is a first text. -/
theorem exists_of_leadingTexts_eq_cons
    (h : leadingTexts (lines.take remaining) = (text, number) :: after) :
    ∃ remaining' lines', remaining = remaining' + 1 ∧ lines = (.ok text, number) :: lines' ∧
      leadingTexts (lines'.take remaining') = after := by
  cases remaining with
  | zero => contradiction
  | succ remaining =>
    cases lines with
    | nil => contradiction
    | cons l lines =>
      obtain ⟨line, k⟩ := l
      cases line with
      | error e => contradiction
      | ok text' =>
        obtain ⟨heq, hafter⟩ := List.cons_eq_cons.1 h
        cases heq
        exact ⟨remaining, lines, rfl, rfl, hafter⟩

/-- Where no text is left among the announced lines, a batch ends, and whether it stops at errors
does not matter. -/
theorem answerLines_of_leadingTexts_eq_nil (h : leadingTexts (lines.take remaining) = []) :
    ∃ result, ∀ options s,
      answerLines options announced remaining lines summary s = ⟨s, result⟩ := by
  cases remaining with
  | zero => exact ⟨.ok summary, fun _ _ => rfl⟩
  | succ remaining =>
    cases lines with
    | nil => exact ⟨_, fun _ _ => rfl⟩
    | cons l lines =>
      obtain ⟨line, k⟩ := l
      cases line with
      | error e => exact ⟨.error (.transfer e), fun _ _ => rfl⟩
      | ok text => contradiction

/-- A batch answers announced lines as long as it does not stop, and then goes on with lines that do
not depend on how it is run. -/
theorem answerLines_of_leadingTexts_eq_append
    (h : leadingTexts (lines.take remaining) = before ++ after) :
    -- what is left is chosen before the options, so that two batches can be compared there
    ∃ remaining' lines', leadingTexts (lines'.take remaining') = after ∧
      ∀ options summary s, s.capacity = none →
        (∀ l ∈ before, options.stop? l.2 (evaluateLine l.1) = none) →
        answerLines options announced remaining lines summary s =
          answerLines options announced remaining' lines' (summary.countAll (before.map Prod.fst))
            (s.push (answersTo (before.map Prod.fst)).flatten) := by
  induction before generalizing remaining lines with
  | nil =>
    refine ⟨remaining, lines, h, fun options summary s hs _ => ?_⟩
    have hnothing : s.push (answersTo []).flatten = s := s.push_nil
    rw [List.map_nil, hnothing]
    rfl
  | cons l before ih =>
    obtain ⟨remaining, lines, rfl, rfl, hlines⟩ := exists_of_leadingTexts_eq_cons h
    obtain ⟨remaining', lines', hafter, hrun⟩ := ih hlines
    refine ⟨remaining', lines', hafter, fun options summary s hs hstop => ?_⟩
    obtain ⟨hl, hstop⟩ := List.forall_mem_cons.1 hstop
    rw [answerLines_cons hs hl, hrun options _ _ ((s.capacity_push _).trans hs) hstop,
      Sink.push_push (Sink.hasRoom_of_unbounded hs _)]
    rfl

/-- A batch that does not stop at errors answers the lines that are announced and are text. -/
theorem sink_answerLines (hs : s.capacity = none) :
    (answerLines {} announced remaining lines summary s).sink =
      s.push (answersTo ((leadingTexts (lines.take remaining)).map Prod.fst)).flatten := by
  obtain ⟨remaining', lines', hnil, hrun⟩ := answerLines_of_leadingTexts_eq_append
    (List.append_nil (leadingTexts (lines.take remaining))).symm
  obtain ⟨result, hend⟩ := answerLines_of_leadingTexts_eq_nil hnil
  rw [hrun {} summary s hs fun l _ => BatchOptions.stop?_default l.2 _, hend]

/-- A batch that does not stop at errors answers its expression lines. -/
theorem sink_runBatch (hs : s.capacity = none) (lines : List Line) :
    (runBatch {} lines s).sink =
      s.push (answersTo ((expressionLines (lines.zipIdx 1)).map Prod.fst)).flatten := by
  rcases runBatch_cases lines with ⟨e, hlines, hrun⟩ | ⟨announced, rest, -, hlines, hrun⟩
  · rw [hlines, hrun]
    exact s.push_nil.symm
  · rw [hlines, hrun, sink_answerLines hs]

/-- The output is made up of the answers to the expression lines. -/
theorem bytes_runBatch (lines : List Line) :
    (runBatch {} lines .unbounded).sink.bytes =
      (answersTo ((expressionLines (lines.zipIdx 1)).map Prod.fst)).flatten := by
  rw [sink_runBatch rfl, Sink.bytes_push_of_unbounded rfl, Sink.bytes_unbounded, List.nil_append]

/-- The output consists of the answers to the lines before a line without a result, the report of
its error and the answers to the lines behind it. -/
theorem bytes_runBatch_of_error {lines : List Line} {cause : LineError}
    (hlines : expressionLines (lines.zipIdx 1) = before ++ (text, number) :: after)
    (hcause : evaluateLine text = .error cause) :
    (runBatch {} lines .unbounded).sink.bytes =
      (answersTo (before.map Prod.fst)).flatten ++ utf8 ("error: " ++ cause.message ++ "\n") ++
        (answersTo (after.map Prod.fst)).flatten := by
  rw [bytes_runBatch, hlines, List.map_append, List.map_cons, answersTo_append, answersTo_cons,
    hcause, List.flatten_append, List.flatten_cons, List.append_assoc]
  rfl

/-- The lines of the output are the answers to the expression lines. -/
theorem cutLines_runBatch (lines : List Line) :
    cutLines (runBatch {} lines .unbounded).sink.bytes =
      answersTo ((expressionLines (lines.zipIdx 1)).map Prod.fst) := by
  rw [bytes_runBatch, cutLines_answersTo]

end SparsePoly
