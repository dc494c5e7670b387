import SparsePoly.Batch.Run
import SparsePoly.Proofs.Lines

/-!
# Batches look at no more than they need

A batch reads its lines one after another and decides what to do with each before it looks at the
next. So when more bytes follow some whole lines, the batch does on these lines what it did without
the others. Either it has come to its end on them, and then what follows is never looked at; or it
has not found its count or not all of the announced lines, and then it goes on from there and only
adds to what it has written.

* `takeCount_append_of_ne`: the count is looked for in the first lines first.
* `answerLines_append_cases`: answers to some lines and to more that follow them.
* `runBatch_prefix`: a run on the beginning of an input, compared with a run on the whole.
-/

namespace SparsePoly

variable {options : BatchOptions} {announced remaining : Nat} {lines more : List (Line × Nat)}
  {summary : Summary} {s : Sink}

/-! ### The count -/

/-- What is found in some lines is found when more lines follow them. Only where all of them are
blank are the others looked at. -/
theorem takeCount_append_of_ne (h : takeCount lines ≠ .error .missingCount)
    (more : List (Line × Nat)) :
    takeCount (lines ++ more) = (takeCount lines).map fun found => (found.1, found.2 ++ more) := by
  induction lines with
  | nil => contradiction
  | cons l lines ih =>
    obtain ⟨line, k⟩ := l
    rw [List.cons_append]
    cases line with
    | error e => rfl
    | ok text =>
      by_cases hblank : trim text.toList = []
      · rw [takeCount_cons_of_blank hblank] at h ⊢
        rw [takeCount_cons_of_blank hblank]
        exact ih h
      · rw [takeCount_cons_of_text hblank, takeCount_cons_of_text hblank]
        cases countOfText? (trim text.toList) with
        | some count => rfl
        | none => rfl

/-! ### The answers -/

/-- The answers to lines are added to what a sink holds. -/
theorem prefix_answerLines :
    s.bytes <+: (answerLines options announced remaining lines summary s).sink.bytes := by
  fun_induction answerLines options announced remaining lines summary s with
  | case1 => exact List.prefix_rfl
  | case2 => exact List.prefix_rfl
  | case3 => exact List.prefix_rfl
  | case4 => exact List.prefix_rfl
  | case5 remaining text number lines summary s evaluation hstop written hroom ih =>
    exact (s.prefix_push written).trans ih
  | case6 remaining text number lines summary s evaluation hstop written hroom =>
    exact s.prefix_push written

/-- Where more lines follow, either they do not matter or some of the announced lines are missing
without them, and then they are answered next. -/
theorem answerLines_append_cases :
    answerLines options announced remaining (lines ++ more) summary s =
        answerLines options announced remaining lines summary s ∨
      ∃ remaining' summary',
        (answerLines options announced remaining lines summary s).result =
            .error (.missingLines announced summary'.answered) ∧
          answerLines options announced remaining (lines ++ more) summary s =
            answerLines options announced remaining' more summary'
              (answerLines options announced remaining lines summary s).sink := by
  fun_induction answerLines options announced remaining lines summary s with
  | case1 => exact .inl rfl
  | case2 remaining summary s => exact .inr ⟨remaining + 1, summary, rfl, rfl⟩
  | case3 => exact .inl rfl
  | case4 remaining text number lines summary s evaluation e hstop =>
    exact .inl (answerLines_cons_of_stop hstop)
  | case5 remaining text number lines summary s evaluation hstop written hroom ih =>
    rw [List.cons_append, answerLines_cons_of_hasRoom hstop hroom]
    exact ih
  | case6 remaining text number lines summary s evaluation hstop written hfull =>
    exact .inl (answerLines_cons_of_full hstop (Bool.eq_false_iff.2 hfull))

/-! ### Runs -/

/-- A run adds to what a sink holds. -/
theorem prefix_runBatch (options : BatchOptions) (lines : List Line) (s : Sink) :
    s.bytes <+: (runBatch options lines s).sink.bytes := by
  rw [runBatch]
  split
  · exact List.prefix_rfl
  · exact prefix_answerLines

/-- A run that ends on some lines ends in the same way when more lines follow. One that misses its
count or its lines has written the first part of what it writes then. -/
theorem runBatch_append_cases (options : BatchOptions) (lines more : List Line) (s : Sink) :
    runBatch options (lines ++ more) s = runBatch options lines s ∨
      ((runBatch options lines s).result = .error .missingCount ∨
        ∃ expected found,
          (runBatch options lines s).result = .error (.missingLines expected found)) ∧
      (runBatch options lines s).sink.bytes <+:
        (runBatch options (lines ++ more) s).sink.bytes := by
  by_cases hmissing : takeCount (lines.zipIdx 1) = .error .missingCount
  · rw [runBatch_of_takeCount_eq_error hmissing]
    exact .inr ⟨.inl rfl, prefix_runBatch options (lines ++ more) s⟩
  · have hwhole := takeCount_append_of_ne hmissing (more.zipIdx (1 + lines.length))
    rw [← List.zipIdx_append] at hwhole
    cases hcount : takeCount (lines.zipIdx 1) with
    | error e =>
      rw [hcount] at hwhole
      rw [runBatch_of_takeCount_eq_error hwhole, runBatch_of_takeCount_eq_error hcount]
      exact .inl rfl
    | ok found =>
      obtain ⟨announced, rest⟩ := found
      rw [hcount] at hwhole
      rw [runBatch_of_takeCount_eq_ok hwhole, runBatch_of_takeCount_eq_ok hcount]
      rcases answerLines_append_cases with hsame | ⟨remaining, summary, hfound, hnext⟩
      · exact .inl hsame
      · rw [hnext]
        exact .inr ⟨.inr ⟨_, _, hfound⟩, prefix_answerLines⟩

/-- For every input of whole lines and whatever follows it, the run on the input has written the
first part of what the run on the whole writes. Where the first does not miss its count or some of
the announced lines, the two end and write alike, so what follows has no effect. -/
theorem runBatch_prefix (options : BatchOptions) {input : Bytes}
    (h : input = [] ∨ input.getLast? = some lineFeed) (rest : Bytes) :
    let first := runBatch options (linesOf input) .unbounded
    let whole := runBatch options (linesOf (input ++ rest)) .unbounded
    first.sink.bytes <+: whole.sink.bytes ∧
    (first.result ≠ .error .missingCount →
      (∀ expected found, first.result ≠ .error (.missingLines expected found)) →
      whole.result = first.result ∧ whole.sink.bytes = first.sink.bytes) := by
  intro first whole
  have hcases := runBatch_append_cases options (linesOf input) (linesOf rest) .unbounded
  rw [← linesOf_append h] at hcases
  rcases hcases with hsame | ⟨hmissing, hkept⟩
  · have hsame : whole = first := hsame
    rw [hsame]
    exact ⟨List.prefix_rfl, fun _ _ => ⟨rfl, rfl⟩⟩
  · refine ⟨hkept, fun hcount hlines => ?_⟩
    rcases hmissing with hmissing | ⟨expected, found, hmissing⟩
    · exact absurd hmissing hcount
    · exact absurd hmissing (hlines expected found)

/-- A line that is no text has no effect behind the announced one, and where the batch still misses
a line, what it has written stays. -/
theorem runBatch_prefix_invalid :
    let enough := utf8 "1\n+ x y\n"
    let short := utf8 "2\n+ x y\n"
    let run (input : Bytes) := runBatch {} (linesOf input) .unbounded
    (run enough).result = .ok ⟨1, 0⟩ ∧ (run (enough ++ [255, 10])).result = .ok ⟨1, 0⟩ ∧
      (run (enough ++ [255, 10])).sink.bytes = (run enough).sink.bytes ∧
      (run short).result = .error (.missingLines 2 1) ∧
      (run short).sink.bytes <+: (run (short ++ [255, 10])).sink.bytes := by
  intro enough short run
  have hvalue : evaluateLine "+ x y" = .ok ⟨[⟨1, [⟨'x', 1⟩]⟩, ⟨1, [⟨'y', 1⟩]⟩]⟩ :=
    toOption_eq_some_iff.1 (by decide +kernel)
  have henough : (run enough).result = .ok ⟨1, 0⟩ := by
    have hlines : linesOf enough = [.ok "1", .ok "+ x y"] := rfl
    have hcount : takeCount ((linesOf enough).zipIdx 1) = .ok (1, [(.ok "+ x y", 2)]) := by
      rw [hlines]
      rfl
    have hrun : run enough = answerLines {} 1 1 [(.ok "+ x y", 2)] {} .unbounded :=
      runBatch_of_takeCount_eq_ok hcount
    rw [hrun, answerLines, hvalue]
    rfl
  have hshort : (run short).result = .error (.missingLines 2 1) := by
    have hlines : linesOf short = [.ok "2", .ok "+ x y"] := rfl
    have hcount : takeCount ((linesOf short).zipIdx 1) = .ok (2, [(.ok "+ x y", 2)]) := by
      rw [hlines]
      rfl
    have hrun : run short = answerLines {} 2 2 [(.ok "+ x y", 2)] {} .unbounded :=
      runBatch_of_takeCount_eq_ok hcount
    rw [hrun, answerLines, hvalue]
    rfl
  have henoughEnds : enough.getLast? = some lineFeed := by decide +kernel
  have hshortEnds : short.getLast? = some lineFeed := by decide +kernel
  obtain ⟨-, hend⟩ := runBatch_prefix {} (.inr henoughEnds) [255, 10]
  obtain ⟨hkept, -⟩ := runBatch_prefix {} (.inr hshortEnds) [255, 10]
  have hdone : ∀ e, (run enough).result ≠ .error e := by
    intro e herror
    rw [henough] at herror
    contradiction
  obtain ⟨hresult, hbytes⟩ := hend (hdone _) fun _ _ => hdone _
  exact ⟨henough, hresult.trans henough, hbytes, hshort, hkept⟩

end SparsePoly
