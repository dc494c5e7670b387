import Mathlib.Data.List.DropRight
import SparsePoly.Proofs.Batch
import SparsePoly.Proofs.Fields
import SparsePoly.Proofs.Lines

/-!
# Line ends do not matter

Inputs come with line feeds or with a carriage return before each, and the last line may have no end
at all. Cutting takes away one carriage return, and only before a line feed, so a line can keep one
that stands in another place. It stands behind the text then, and a batch does not see it: the count
is trimmed, an expression line is cut into fields, and a carriage return is a blank. So all the
lines of a batch may as well be trimmed, and the same input under other line ends has the same
lines.

* `runBatch_map_trimmed`: a batch does the same on trimmed lines.
* `Line.trimmed_ofBytes_eq`: a carriage return behind a line that is trimmed has no effect.
* `cutLines_withReturns`, `exists_unended_line`: the lines under other line ends.
* `runBatch_lineEnds`: runs on an input under other line ends, for every input.
-/

namespace SparsePoly

/-! ### Trimmed lines -/

/-- The line without the blanks around its text. -/
def Line.trimmed : Line → Line
  | .ok text => .ok (String.ofList (trim text.toList))
  | .error e => .error e

variable {options : BatchOptions} {announced remaining : Nat} {lines : List (Line × Nat)}
  {summary : Summary} {s : Sink}

/-- Blanks around an expression line do not matter. -/
theorem evaluateLine_trim (text : String) :
    evaluateLine (String.ofList (trim text.toList)) = evaluateLine text := by
  rw [evaluateLine, String.toList_ofList, fields_trim, evaluateLine]

/-- In trimmed lines the same count is found. -/
theorem takeCount_map_trimmed (lines : List (Line × Nat)) :
    takeCount (lines.map (Prod.map Line.trimmed id)) =
      (takeCount lines).map fun found => (found.1, found.2.map (Prod.map Line.trimmed id)) := by
  induction lines with
  | nil => rfl
  | cons l lines ih =>
    obtain ⟨line, k⟩ := l
    cases line with
    | error e => rfl
    | ok text =>
      have htrim : trim (String.ofList (trim text.toList)).toList = trim text.toList := by
        rw [String.toList_ofList, trim_trim]
      rw [List.map_cons, Prod.map_apply, Line.trimmed]
      by_cases hblank : trim text.toList = []
      · rw [takeCount_cons_of_blank (htrim.trans hblank), takeCount_cons_of_blank hblank, ih]
      · have htext : trim (String.ofList (trim text.toList)).toList ≠ [] := by rwa [htrim]
        rw [takeCount_cons_of_text htext, takeCount_cons_of_text hblank, htrim]
        cases countOfText? (trim text.toList) with
        | some count => rfl
        | none => rfl

/-- Trimmed lines are answered alike. -/
theorem answerLines_map_trimmed :
    answerLines options announced remaining (lines.map (Prod.map Line.trimmed id)) summary s =
      answerLines options announced remaining lines summary s := by
  induction lines generalizing remaining summary s with
  | nil => rfl
  | cons l lines ih =>
    obtain ⟨line, k⟩ := l
    cases remaining with
    | zero => rfl
    | succ remaining =>
      cases line with
      | error e => rfl
      | ok text =>
        simp only [List.map_cons, Prod.map_apply, Line.trimmed, id, answerLines, evaluateLine_trim,
          ih]

/-- A batch does the same on trimmed lines. -/
theorem runBatch_map_trimmed (options : BatchOptions) (lines : List Line) (s : Sink) :
    runBatch options (lines.map Line.trimmed) s = runBatch options lines s := by
  have hcount := takeCount_map_trimmed (lines.zipIdx 1)
  rw [← List.zipIdx_map] at hcount
  cases hfound : takeCount (lines.zipIdx 1) with
  | error e =>
    rw [hfound] at hcount
    rw [runBatch_of_takeCount_eq_error hcount, runBatch_of_takeCount_eq_error hfound]
  | ok found =>
    rw [hfound] at hcount
    rw [runBatch_of_takeCount_eq_ok hcount, runBatch_of_takeCount_eq_ok hfound,
      answerLines_map_trimmed]

/-! ### Carriage returns behind a line -/

/-- A line with one more carriage return behind it is read as the text with that at its end. -/
theorem Line.ofBytes_of_return {line line' : Bytes}
    (h : lineContent line = lineContent line' ++ [carriageReturn]) :
    ofBytes line = (ofBytes line').map (· ++ "\r") := by
  cases hline : ofBytes line with
  | ok text =>
    have hutf8 := ofBytes_eq_ok_iff.1 hline
    rw [h] at hutf8
    obtain ⟨rest, rfl, hrest⟩ := exists_of_utf8_eq_concat (show '\r'.toNat < 128 by decide) hutf8
    rw [ofBytes_eq_ok_iff.2 hrest]
    rfl
  | error e =>
    cases hline' : ofBytes line' with
    | ok text =>
      have hutf8 : utf8 (text ++ "\r") = lineContent line := by
        rw [utf8_append, ofBytes_eq_ok_iff.1 hline', h]
        rfl
      rw [ofBytes_eq_ok_iff.2 hutf8] at hline
      contradiction
    | error e' =>
      obtain rfl := ofBytes_eq_error hline
      obtain rfl := ofBytes_eq_error hline'
      rfl

/-- A carriage return at the end of a text is trimmed away. -/
theorem Line.trimmed_map_return (line : Line) :
    trimmed (line.map (· ++ "\r")) = line.trimmed := by
  cases line with
  | ok text =>
    have htrim : trim (text.toList ++ "\r".toList) = trim text.toList :=
      trim_append_blanks (List.forall_mem_singleton.2 rfl) text.toList
    rw [Except.map, trimmed, String.toList_append, htrim, trimmed]
  | error e => rfl

/-- A carriage return that a line has at its end or not has no effect when the line is trimmed. -/
theorem Line.trimmed_ofBytes_eq {line line' : Bytes}
    (h : lineContent line' = dropEnd carriageReturn (lineContent line)) :
    (ofBytes line').trimmed = (ofBytes line).trimmed := by
  by_cases hend : (lineContent line).getLast? = some carriageReturn
  · obtain ⟨content, hcontent⟩ := List.getLast?_eq_some_iff.1 hend
    rw [dropEnd, if_pos hend, hcontent, List.dropLast_concat] at h
    have hreturn : lineContent line = lineContent line' ++ [carriageReturn] := by rw [hcontent, h]
    rw [ofBytes_of_return hreturn, trimmed_map_return]
  · rw [dropEnd, if_neg hend] at h
    rw [ofBytes, ofBytes, h]

/-! ### Other line ends -/

/-- The bytes with a carriage return before every line feed. -/
def withReturns (bytes : Bytes) : Bytes :=
  bytes.flatMap fun b => if b = lineFeed then [carriageReturn, lineFeed] else [b]

theorem withReturns_lineFeed_cons (bytes : Bytes) :
    withReturns (lineFeed :: bytes) = carriageReturn :: lineFeed :: withReturns bytes := rfl

theorem withReturns_cons {b : UInt8} (hb : b ≠ lineFeed) (bytes : Bytes) :
    withReturns (b :: bytes) = b :: withReturns bytes := by
  rw [withReturns, List.flatMap_cons, if_neg hb]
  rfl

/-- Bytes without a line feed stay as they are. -/
theorem withReturns_of_notMem {bytes : Bytes} (h : lineFeed ∉ bytes) :
    withReturns bytes = bytes := by
  induction bytes with
  | nil => rfl
  | cons b bytes ih =>
    obtain ⟨hb, hbytes⟩ := List.ne_and_not_mem_of_not_mem_cons h
    rw [withReturns_cons (Ne.symm hb), ih hbytes]

/-- With a carriage return before every line feed, the lines are the same but for their ends. -/
theorem cutLines_withReturns (bytes : Bytes) :
    cutLines (withReturns bytes) = (cutLines bytes).map withReturns := by
  induction bytes with
  | nil => rfl
  | cons b bytes ih =>
    by_cases hb : b = lineFeed
    · have hreturn : carriageReturn ≠ lineFeed := by decide
      rw [hb, withReturns_lineFeed_cons, cutLines_cons, cutLines_cons, cutLines_cons,
        consByte_lineFeed, consByte_cons hreturn, consByte_lineFeed, ih]
      rfl
    · rw [withReturns_cons hb, cutLines_cons, cutLines_cons, ih]
      cases cutLines bytes with
      | nil =>
        rw [List.map_nil, consByte, List.map_singleton, withReturns_cons hb]
        rfl
      | cons line lines =>
        rw [List.map_cons, consByte_cons hb, consByte_cons hb, List.map_cons, withReturns_cons hb]

/-- A line with a carriage return before its line feed is the same when it is trimmed. -/
theorem Line.trimmed_ofBytes_withReturns {line : Bytes} (h : IsLine line ∨ lineFeed ∉ line) :
    (ofBytes (withReturns line)).trimmed = (ofBytes line).trimmed := by
  rcases h with ⟨content, hcontent, rfl⟩ | hline
  · have hends : withReturns (content ++ [lineFeed]) =
        content ++ [carriageReturn] ++ [lineFeed] := by
      rw [withReturns, List.flatMap_append, ← withReturns, withReturns_of_notMem hcontent,
        List.append_assoc]
      rfl
    refine (trimmed_ofBytes_eq ?_).symm
    rw [hends, lineContent_concat, lineContent_concat, dropEnd_concat]
  · rw [withReturns_of_notMem hline]

/-- Bytes that no line feed ends are whole lines and one line without an end. -/
theorem exists_unended_line {bytes : Bytes} (hne : bytes ≠ [])
    (hlast : bytes.getLast? ≠ some lineFeed) :
    ∃ whole line, bytes = whole ++ line ∧ (whole = [] ∨ whole.getLast? = some lineFeed) ∧
      lineFeed ∉ line ∧ line ≠ [] := by
  refine ⟨bytes.rdropWhile (· != lineFeed), bytes.rtakeWhile (· != lineFeed),
    List.rdropWhile_append_rtakeWhile.symm, ?_, fun hmem => ?_, fun hnil => ?_⟩
  · by_cases hwhole : bytes.rdropWhile (· != lineFeed) = []
    · exact .inl hwhole
    · have hends := List.rdropWhile_last_not _ _ hwhole
      rw [bne_iff_ne, not_not] at hends
      rw [List.getLast?_eq_some_getLast hwhole, hends]
      exact .inr rfl
  · exact absurd (List.mem_rtakeWhile_imp hmem) (by decide)
  · have hends := List.rtakeWhile_eq_nil_iff.1 hnil hne
    rw [bne_iff_ne, not_not] at hends
    exact hlast (by rw [List.getLast?_eq_some_getLast hne, hends])

/-! ### Runs -/

/-- With a carriage return before every line feed, the lines are the same when they are trimmed. -/
theorem trimmed_linesOf_withReturns (bytes : Bytes) :
    (linesOf (withReturns bytes)).map Line.trimmed = (linesOf bytes).map Line.trimmed := by
  rw [linesOf, linesOf, cutLines_withReturns, List.map_map, List.map_map, List.map_map]
  exact List.map_congr_left fun line hline =>
    Line.trimmed_ofBytes_withReturns (isLine_or_notMem_of_mem_cutLines hline)

/-- With a line feed at the end, the lines are the same when they are trimmed. -/
theorem trimmed_linesOf_concat {bytes : Bytes} (hne : bytes ≠ [])
    (hlast : bytes.getLast? ≠ some lineFeed) :
    (linesOf (bytes ++ [lineFeed])).map Line.trimmed = (linesOf bytes).map Line.trimmed := by
  obtain ⟨whole, line, rfl, hwhole, hline, hlinene⟩ := exists_unended_line hne hlast
  have hunended : linesOf line = [Line.ofBytes line] := by
    rw [linesOf, cutLines_of_notMem hline hlinene, List.map_singleton]
  have hended : linesOf (line ++ [lineFeed]) = [Line.ofBytes (line ++ [lineFeed])] := by
    rw [linesOf, cutLines_append hline]
    rfl
  have hsame : (Line.ofBytes (line ++ [lineFeed])).trimmed = (Line.ofBytes line).trimmed := by
    refine Line.trimmed_ofBytes_eq ?_
    rw [lineContent_concat, lineContent_of_notMem hline]
  rw [List.append_assoc, linesOf_append hwhole, linesOf_append hwhole, hunended, hended,
    List.map_append, List.map_append, List.map_singleton, List.map_singleton, hsame]

/-- Inputs whose lines are the same when they are trimmed are run alike. -/
theorem runBatch_congr_trimmed (options : BatchOptions) (s : Sink) {lines lines' : List Line}
    (h : lines.map Line.trimmed = lines'.map Line.trimmed) :
    runBatch options lines s = runBatch options lines' s := by
  rw [← runBatch_map_trimmed, h, runBatch_map_trimmed]

/-- Line ends do not matter. For every input of bytes, whether or not its lines are text, a batch
ends and writes alike when there is a carriage return before every line feed of the input, and when
the input is not empty and the line feed that its last line lacks is added. -/
theorem runBatch_lineEnds (options : BatchOptions) (bytes : Bytes) :
    let run (input : Bytes) := runBatch options (linesOf input) .unbounded
    (run (withReturns bytes)).result = (run bytes).result ∧
    (run (withReturns bytes)).sink.bytes = (run bytes).sink.bytes ∧
    (bytes ≠ [] → bytes.getLast? ≠ some lineFeed →
      (run (bytes ++ [lineFeed])).result = (run bytes).result ∧
      (run (bytes ++ [lineFeed])).sink.bytes = (run bytes).sink.bytes) := by
  intro run
  have hreturns : run (withReturns bytes) = run bytes :=
    runBatch_congr_trimmed options .unbounded (trimmed_linesOf_withReturns bytes)
  refine ⟨congrArg BatchOutcome.result hreturns,
    congrArg (fun outcome => outcome.sink.bytes) hreturns, fun hne hlast => ?_⟩
  have hended : run (bytes ++ [lineFeed]) = run bytes :=
    runBatch_congr_trimmed options .unbounded (trimmed_linesOf_concat hne hlast)
  exact ⟨congrArg BatchOutcome.result hended,
    congrArg (fun outcome => outcome.sink.bytes) hended⟩

/-- The lines of an input keep carriage returns that others lack, one behind another where lines end
with one already, and one behind the last line as long as no line feed follows. -/
theorem runBatch_lineEnds_kept_returns :
    let input := utf8 "\r\n2\r\n+ x\ty\n* x x\r"
    let run (input : Bytes) := runBatch {} (linesOf input) .unbounded
    linesOf input = [.ok "", .ok "2", .ok "+ x\ty", .ok "* x x\r"] ∧
      linesOf (withReturns input) = [.ok "\r", .ok "2\r", .ok "+ x\ty", .ok "* x x\r"] ∧
      (run (withReturns input)).result = .ok ⟨2, 0⟩ ∧
      (run (withReturns input)).sink.bytes = utf8 "x+y\nx2\n" ∧
      input ≠ [] ∧ input.getLast? ≠ some lineFeed ∧
      linesOf (input ++ [lineFeed]) = [.ok "", .ok "2", .ok "+ x\ty", .ok "* x x"] ∧
      (run (input ++ [lineFeed])).result = .ok ⟨2, 0⟩ ∧
      (run (input ++ [lineFeed])).sink.bytes = utf8 "x+y\nx2\n" := by
  have hlines : linesOf (utf8 "\r\n2\r\n+ x\ty\n* x x\r") =
      [.ok "", .ok "2", .ok "+ x\ty", .ok "* x x\r"] := rfl
  have hreturns : withReturns (utf8 "\r\n2\r\n+ x\ty\n* x x\r") =
      utf8 "\r\r\n2\r\r\n+ x\ty\r\n* x x\r" := by decide +kernel
  have hreturnLines : linesOf (utf8 "\r\r\n2\r\r\n+ x\ty\r\n* x x\r") =
      [.ok "\r", .ok "2\r", .ok "+ x\ty", .ok "* x x\r"] := rfl
  have hendedLines : linesOf (utf8 "\r\n2\r\n+ x\ty\n* x x\r" ++ [lineFeed]) =
      [.ok "", .ok "2", .ok "+ x\ty", .ok "* x x"] := rfl
  have hfirst : evaluateLine "+ x\ty" = .ok ⟨[⟨1, [⟨'x', 1⟩]⟩, ⟨1, [⟨'y', 1⟩]⟩]⟩ := by
    decide +kernel
  have hsecond : evaluateLine "* x x\r" = .ok ⟨[⟨1, [⟨'x', 2⟩]⟩]⟩ := by decide +kernel
  intro input run
  have hrun : run input =
      answerLines {} 0 0 [] ⟨2, 0⟩ (Sink.unbounded.push (utf8 "x+y\nx2\n")) := by
    have hcount : takeCount ((linesOf input).zipIdx 1) =
        .ok (2, [(.ok "+ x\ty", 3), (.ok "* x x\r", 4)]) := by
      rw [show linesOf input = _ from hlines]
      rfl
    have hstop := BatchOptions.stop?_default
    refine (runBatch_of_takeCount_eq_ok hcount).trans ?_
    rw [answerLines_cons rfl (hstop _ _), answerLines_cons rfl (hstop _ _), hfirst, hsecond]
    rfl
  have hresult : (run input).result = .ok ⟨2, 0⟩ := by rw [hrun]; rfl
  have hbytes : (run input).sink.bytes = utf8 "x+y\nx2\n" := by rw [hrun]; rfl
  have hne : input ≠ [] := by decide +kernel
  have hlast : input.getLast? ≠ some lineFeed := by decide +kernel
  obtain ⟨hreturnResult, hreturnBytes, hended⟩ := runBatch_lineEnds {} input
  obtain ⟨hendedResult, hendedBytes⟩ := hended hne hlast
  exact ⟨hlines, (congrArg linesOf hreturns).trans hreturnLines, hreturnResult.trans hresult,
    hreturnBytes.trans hbytes, hne, hlast, hendedLines, hendedResult.trans hresult,
    hendedBytes.trans hbytes⟩

end SparsePoly
