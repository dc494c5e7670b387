import SparsePoly.Batch.Run

/-!
# Sinks with limited room

What a batch writes does not depend on the room that its sink has. The answers and the result of a
run are fixed by its lines, and the run offers the answers to the sink one after another
(`runBatch_eq_offer`). A sink that has no room for one of them fills up with the first part of it,
and then the run ends with this failure and with no other, whatever its result would have been.

A sink takes a text in the same way however the text is divided into pieces (`Sink.offer_eq`). So it
does not matter whether an answer is written at once or bit by bit, nor where in it the room ends.

* `Sink.offer`: offering texts one after another.
* `runBatch_bounded`: a run on a sink with limited room, compared with a run without a limit.
-/

namespace SparsePoly

/-! ### Offering texts to a sink -/

namespace Sink

variable {s : Sink} {texts : List Bytes}

theorem hasRoom_bounded_nil (capacity : Nat) : (bounded capacity).hasRoom [] = true :=
  (hasRoom_iff_of_bounded rfl).2 (Nat.zero_le capacity)

/-- Offers texts to a sink one after another, up to the first that it has no room for. The flag
tells whether there was room for all of them. -/
def offer : Sink → List Bytes → Sink × Bool
  | s, [] => (s, true)
  | s, text :: texts => if s.hasRoom text then (s.push text).offer texts else (s.push text, false)

/-- Texts that are offered one after another are taken as if they were offered at once. -/
theorem offer_eq (h : s.hasRoom [] = true) :
    s.offer texts = (s.push texts.flatten, s.hasRoom texts.flatten) := by
  induction texts generalizing s with
  | nil => rw [offer, List.flatten_nil, push_nil, h]
  | cons text texts ih =>
    rw [offer, List.flatten_cons]
    split
    · next hroom =>
      have hrest : (s.push text).hasRoom [] = true := by
        rw [hasRoom_push hroom, List.append_nil]
        exact hroom
      rw [ih hrest, push_push hroom, hasRoom_push hroom]
    · next hfull =>
      have hlost := push_append_of_not_hasRoom (Bool.eq_false_iff.2 hfull) texts.flatten
      rw [hlost.1, hlost.2]

end Sink

/-! ### Runs -/

variable {options : BatchOptions}

/-- What a batch leaves behind after it has offered its answers: it ends with `result` where there
was room for all of them. -/
def BatchOutcome.ofOffer (result : Except BatchError Summary) (written : Sink × Bool) :
    BatchOutcome :=
  ⟨written.1, if written.2 then result else .error (.transfer .sinkFull)⟩

/-- The answers to the lines and the result are the same for all sinks. -/
theorem answerLines_eq_offer (options : BatchOptions) (announced remaining : Nat)
    (lines : List (Line × Nat)) (summary : Summary) :
    ∃ texts result, ∀ s, answerLines options announced remaining lines summary s =
      .ofOffer result (s.offer texts) := by
  induction remaining generalizing lines summary with
  | zero => exact ⟨[], .ok summary, fun s => rfl⟩
  | succ remaining ih =>
    match lines with
    | [] => exact ⟨[], _, fun s => rfl⟩
    | (.error e, _) :: _ => exact ⟨[], .error (.transfer e), fun s => rfl⟩
    | (.ok text, number) :: lines =>
      cases hstop : options.stop? number (evaluateLine text) with
      | some e => exact ⟨[], .error e, fun s => answerLines_cons_of_stop hstop⟩
      | none =>
        obtain ⟨texts, result, hrest⟩ := ih lines (summary.count (evaluateLine text))
        refine ⟨utf8 (answer (evaluateLine text)) :: texts, result, fun s => ?_⟩
        rw [Sink.offer]
        split
        · next hroom => rw [answerLines_cons_of_hasRoom hstop hroom, hrest]
        · next hfull => exact answerLines_cons_of_full hstop (Bool.eq_false_iff.2 hfull)

/-- A run offers to every sink the same answers and ends with the same result where it has room. -/
theorem runBatch_eq_offer (options : BatchOptions) (lines : List Line) :
    ∃ texts result, ∀ s, runBatch options lines s = .ofOffer result (s.offer texts) := by
  cases hcount : takeCount (lines.zipIdx 1) with
  | error e => exact ⟨[], .error e, fun s => runBatch_of_takeCount_eq_error hcount⟩
  | ok found =>
    obtain ⟨announced, rest⟩ := found
    obtain ⟨texts, result, hanswers⟩ := answerLines_eq_offer options announced announced rest {}
    exact ⟨texts, result, fun s => (runBatch_of_takeCount_eq_ok hcount).trans (hanswers s)⟩

/-- A run on a sink that takes a limited number of bytes is compared with the run on the same input
without a limit. If the sink has room for the whole output, the two end and write alike. Otherwise
the run fails since it cannot write, whatever the result without a limit is, and it has written the
first bytes of the output up to the limit. The sink is left in the same way by the output however it
is divided into pieces that are written one after another until one of them does not fit. -/
theorem runBatch_bounded (options : BatchOptions) (input : Bytes) (capacity : Nat) :
    let full := runBatch options (linesOf input) .unbounded
    let cut := runBatch options (linesOf input) (.bounded capacity)
    (full.sink.bytes.length ≤ capacity →
      cut.result = full.result ∧ cut.sink.bytes = full.sink.bytes) ∧
    (capacity < full.sink.bytes.length →
      cut.result = .error (.transfer .sinkFull) ∧
        cut.sink.bytes = full.sink.bytes.take capacity) ∧
    (∀ pieces : List Bytes, pieces.flatten = full.sink.bytes →
      (Sink.bounded capacity).offer pieces =
        (cut.sink, decide (full.sink.bytes.length ≤ capacity))) ∧
    TransferError.sinkFull.message = "failed to write whole buffer" := by
  obtain ⟨texts, result, hrun⟩ := runBatch_eq_offer options (linesOf input)
  have hfull : runBatch options (linesOf input) .unbounded =
      .ofOffer result (Sink.unbounded.push texts.flatten, true) := by
    rw [hrun, Sink.offer_eq rfl]
    rfl
  have hcut : runBatch options (linesOf input) (.bounded capacity) =
      .ofOffer result ((Sink.bounded capacity).push texts.flatten,
        (Sink.bounded capacity).hasRoom texts.flatten) := by
    rw [hrun, Sink.offer_eq (Sink.hasRoom_bounded_nil capacity)]
  have houtput : (Sink.unbounded.push texts.flatten).bytes = texts.flatten :=
    Sink.bytes_push_of_unbounded rfl _
  have hwritten : ((Sink.bounded capacity).push texts.flatten).bytes =
      texts.flatten.take capacity := Sink.bytes_push_of_bounded rfl _
  have hroom : (Sink.bounded capacity).hasRoom texts.flatten =
      decide (texts.flatten.length ≤ capacity) := by
    rw [Bool.eq_iff_iff, Sink.hasRoom_iff_of_bounded rfl, decide_eq_true_iff, Sink.bytes_bounded,
      List.length_nil, Nat.zero_add]
  simp only [hfull, hcut, BatchOutcome.ofOffer, houtput, hwritten, hroom, if_true,
    decide_eq_true_iff]
  refine ⟨fun hle => ?_, fun hlt => ?_, fun pieces hpieces => ?_, rfl⟩
  · exact ⟨if_pos hle, List.take_of_length_le hle⟩
  · exact ⟨if_neg (Nat.not_le.2 hlt), trivial⟩
  · rw [Sink.offer_eq (Sink.hasRoom_bounded_nil capacity), hpieces, hroom]

/-- The room ends between the two bytes of a character that an error quotes; without a limit the
batch would have missed a line. -/
theorem runBatch_bounded_inside_character :
    let input := utf8 "2\n+ ä x\n"
    let full := runBatch {} (linesOf input) .unbounded
    let cut := runBatch {} (linesOf input) (.bounded 57)
    full.sink.bytes = utf8 "error: parse error at position 0: unexpected character `ä`\n" ∧
      full.result = .error (.missingLines 2 1) ∧ cut.result = .error (.transfer .sinkFull) ∧
      cut.sink.bytes =
        utf8 "error: parse error at position 0: unexpected character `" ++ [195] := by
  intro input full cut
  have hlines : linesOf input = [.ok "2", .ok "+ ä x"] := rfl
  have hcause : evaluateLine "+ ä x" =
      .error (.evaluation (.malformed 0 (.unexpectedCharacter 'ä'))) := rfl
  have hfull : full = ⟨Sink.unbounded.push
      (utf8 "error: parse error at position 0: unexpected character `ä`\n"),
      .error (.missingLines 2 1)⟩ := by
    have hcount : takeCount ((linesOf input).zipIdx 1) = .ok (2, [(.ok "+ ä x", 2)]) := by
      rw [hlines]
      rfl
    have hrun : full = answerLines {} 2 2 [(.ok "+ ä x", 2)] {} .unbounded :=
      runBatch_of_takeCount_eq_ok hcount
    rw [hrun, answerLines, hcause]
    rfl
  have hbytes : full.sink.bytes =
      utf8 "error: parse error at position 0: unexpected character `ä`\n" := by
    rw [hfull]
    exact Sink.bytes_push_of_unbounded rfl _
  have hlt : 57 < full.sink.bytes.length := by
    rw [hbytes]
    decide +kernel
  obtain ⟨hresult, hcut⟩ := (runBatch_bounded {} input 57).2.1 hlt
  refine ⟨hbytes, by rw [hfull], hresult, hcut.trans ?_⟩
  rw [hbytes]
  rfl

end SparsePoly
