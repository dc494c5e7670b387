import SparsePoly.Command.Run
import SparsePoly.Command.Workspace

/-!
# Effects of the command

What the command does to a workspace can be told from the workspace it finds and the two paths that
its reader finds in the arguments. A path is that of a file, unless it is a lone hyphen. Where the
input cannot be opened or the output cannot be created, nothing but a complaint is left. Otherwise
the output, and no other file, holds what a batch writes on the bytes of the input. These are the
bytes before the command, except where the output is the same file, which is empty when it is read.

* `Endpoint.names_ofPath`: which paths go to files and which to the standard streams.
* `Workspace.openInput_eq_error_iff`, `Workspace.createOutput_eq_error_iff`: which inputs cannot be
  opened and which outputs cannot be created.
* `Workspace.createOutput_eq_ok`: the output is the file that its path leads to, and it is empty.
* `Workspace.receives_write`: a file is replaced and every other entry stays.
* `Workspace.readAll_emptied`: what is read when the output has been created.
* `Workspace.runCommand_effects`: what the command leaves behind.
-/

namespace SparsePoly

/-! ### Paths -/

namespace Endpoint

/-- A path is a lone hyphen when it begins with the part `-` and each part that follows adds
nothing, as it is empty or a dot. -/
def IsLoneHyphen (path : String) : Prop :=
  ∃ parts : List (List Char), (∀ part ∈ parts, part = [] ∨ part = ['.']) ∧
    path.toList = ['/'].intercalate (['-'] :: parts)

/-- The end point that a path names: a standard stream for a lone hyphen and a file for every other
path. -/
inductive Names : String → Endpoint → Prop where
  /-- A lone hyphen names the standard input or output. -/
  | standard {path : String} (h : IsLoneHyphen path) : Names path .standard
  /-- Any other path names a file. -/
  | file {path : String} (h : ¬ IsLoneHyphen path) : Names path (.file path)

variable {path : String}

theorem ofPath_of_isLoneHyphen (h : IsLoneHyphen path) : ofPath path = .standard := by
  obtain ⟨parts, hparts, htext⟩ := h
  have hslash : ∀ part ∈ ['-'] :: parts, '/' ∉ part := by
    refine List.forall_mem_cons.2 ⟨by decide, fun part hpart => ?_⟩
    rcases hparts part hpart with rfl | rfl
    · decide
    · decide
  have hsplit : path.toList.splitOn '/' = ['-'] :: parts := by
    rw [htext, List.splitOn_intercalate '/' hslash (List.cons_ne_nil _ _)]
  simp only [ofPath, hsplit]
  exact if_pos (List.all_eq_true.2 fun part hpart => decide_eq_true (hparts part hpart))

theorem ofPath_of_not_isLoneHyphen (h : ¬ IsLoneHyphen path) : ofPath path = .file path := by
  unfold ofPath
  split
  · next parts hsplit =>
    refine if_neg fun hall => h ⟨parts, fun part hpart => ?_, ?_⟩
    · exact of_decide_eq_true (List.all_eq_true.1 hall part hpart)
    · rw [← hsplit, List.intercalate_splitOn]
  · rfl

/-- A path names the end point that the command takes for it. -/
theorem names_ofPath (path : String) : Names path (ofPath path) := by
  by_cases h : IsLoneHyphen path
  · rw [ofPath_of_isLoneHyphen h]
    exact .standard h
  · rw [ofPath_of_not_isLoneHyphen h]
    exact .file h

/-- A path names no other end point. -/
theorem Names.eq_ofPath {endpoint : Endpoint} (h : Names path endpoint) :
    endpoint = ofPath path := by
  cases h with
  | standard h => exact (ofPath_of_isLoneHyphen h).symm
  | file h => exact (ofPath_of_not_isLoneHyphen h).symm

end Endpoint

namespace Workspace

variable {w created : Workspace} {names other : List String} {content bytes : Bytes}
  {input output : Endpoint} {source : Source} {target : Target} {e : SystemError}

/-! ### Entries -/

theorem entry?_of_ne_nil (h : names ≠ []) : w.entry? names = w.entries.lookup names := by
  cases names with
  | nil => contradiction
  | cons name names => rfl

/-- Leaving out the entries under one key does not change what is found under another. -/
private theorem lookup_filter_of_ne {entries : List (List String × Entry)} (h : other ≠ names) :
    (entries.filter fun e => e.1 ≠ names).lookup other = entries.lookup other := by
  induction entries with
  | nil => rfl
  | cons e entries ih =>
    obtain ⟨key, entry⟩ := e
    by_cases hkey : key = names
    · have hother : (other == key) = false := beq_eq_false_iff_ne.2 (hkey ▸ h)
      rw [List.filter_cons_of_neg (by simpa using hkey), List.lookup_cons, hother, ih]
    · rw [List.filter_cons_of_pos (by simpa using hkey), List.lookup_cons, List.lookup_cons, ih]

/-- A file that has been put holds its content. -/
theorem entry?_putFile_self (h : names ≠ []) :
    entry? (w.putFile names content) names = some (.file content) := by
  rw [entry?_of_ne_nil h, putFile, List.lookup_cons_self]

/-- Putting a file changes no other entry. -/
theorem entry?_putFile_of_ne (h : other ≠ names) :
    entry? (w.putFile names content) other = w.entry? other := by
  cases other with
  | nil => rfl
  | cons name other =>
    have hkey : (name :: other == names) = false := beq_eq_false_iff_ne.2 h
    rw [entry?_of_ne_nil (List.cons_ne_nil _ _), entry?_of_ne_nil (List.cons_ne_nil _ _), putFile,
      List.lookup_cons, hkey]
    exact lookup_filter_of_ne h

/-! ### Outputs -/

/-- The target of an output: the standard output, or the file that a path leads to. -/
inductive LeadsTo (w : Workspace) : Endpoint → Target → Prop where
  /-- The standard output is its own target. -/
  | standard : LeadsTo w .standard .standard
  /-- A path leads to a file, which may be there or not, where no folder is. -/
  | file {path : String} {names : List String} : w.locate path = .ok names →
    w.entry? names ≠ some .folder → LeadsTo w (.file path) (.file names)

/-- The root is a folder and no target. -/
theorem LeadsTo.ne_nil (h : w.LeadsTo output (.file names)) : names ≠ [] := by
  cases h with
  | file _ hfolder =>
    rintro rfl
    exact hfolder rfl

/-- The workspace with the file of a target emptied or created. -/
def emptied (w : Workspace) : Target → Workspace
  | .standard => w
  | .file names => w.putFile names []

/-- Emptying a target changes no entry but its own. -/
theorem entry?_emptied_of_ne (h : target ≠ .file names) :
    entry? (w.emptied target) names = w.entry? names := by
  cases target with
  | standard => rfl
  | file other => exact entry?_putFile_of_ne fun hsame => h (by rw [hsame])

/-- Why an output cannot be created. -/
inductive CannotCreate (w : Workspace) : Endpoint → SystemError → Prop where
  /-- The path leads nowhere. -/
  | nowhere {path : String} {e : SystemError} (h : w.walk path (partsNamed path) = .error e) :
    CannotCreate w (.file path) e
  /-- There is a folder where the path leads, or the path ends in a slash and asks for one. -/
  | folder {path : String} {names : List String} (hwalk : w.walk path (partsNamed path) = .ok names)
      (h : partsNamed path ≠ partsOf path ∨ w.entry? names = some .folder) :
    CannotCreate w (.file path) .isAFolder

theorem createOutput_eq_error_iff : w.createOutput output = .error e ↔ w.CannotCreate output e := by
  constructor
  · intro h
    cases output with
    | standard => cases h
    | file path =>
      simp only [createOutput] at h
      split at h
      · next hwalk =>
        cases h
        exact .nowhere hwalk
      · next names hwalk =>
        split at h
        · next hfolder =>
          cases h
          exact .folder hwalk hfolder
        · cases h
  · intro h
    cases h with
    | nowhere hwalk => simp only [createOutput, hwalk]
    | folder hwalk hfolder => simp only [createOutput, hwalk, if_pos hfolder]

/-- To create an output is to empty its target. -/
theorem createOutput_eq_ok (h : w.createOutput output = .ok (target, created)) :
    w.LeadsTo output target ∧ created = w.emptied target := by
  cases output with
  | standard =>
    cases h
    exact ⟨.standard, rfl⟩
  | file path =>
    simp only [createOutput] at h
    split at h
    · contradiction
    · next names hwalk =>
      split at h
      · contradiction
      · next hfile =>
        cases h
        obtain ⟨hslash, hfolder⟩ := not_or.1 hfile
        refine ⟨.file ?_ hfolder, rfl⟩
        rwa [Decidable.not_not.1 hslash] at hwalk

/-- Compared with `w`, the target holds some bytes in `after`, behind what the standard output had
before, and all else is as it was. -/
def Receives (w : Workspace) (target : Target) (bytes : Bytes) (after : Workspace) : Prop :=
  match target with
  | .standard =>
    after.stdout = w.stdout ++ bytes ∧ ∀ names, after.entry? names = w.entry? names
  | .file names =>
    after.stdout = w.stdout ∧ after.entry? names = some (.file bytes) ∧
      ∀ other, other ≠ names → after.entry? other = w.entry? other

/-- What is written to an output is all that its target holds. -/
theorem receives_write (h : w.LeadsTo output target) (bytes : Bytes) :
    w.Receives target bytes ((w.emptied target).write target bytes) := by
  cases target with
  | standard => exact ⟨rfl, fun names => rfl⟩
  | file names =>
    have hnames : names ≠ [] := h.ne_nil
    have hempty : entry? (w.emptied (.file names)) names = some (.file []) :=
      entry?_putFile_self hnames
    have hwrite : (w.emptied (.file names)).write (.file names) bytes =
        (w.emptied (.file names)).putFile names bytes := by
      simp only [write, hempty, List.nil_append]
    rw [hwrite]
    refine ⟨rfl, entry?_putFile_self hnames, fun other hother => ?_⟩
    rw [entry?_putFile_of_ne hother]
    exact entry?_putFile_of_ne hother

theorem stderr_write (w : Workspace) (target : Target) (bytes : Bytes) :
    (w.write target bytes).stderr = w.stderr := by
  cases target with
  | standard => rfl
  | file names =>
    rw [write]
    split
    · rfl
    · rfl

theorem stderr_emptied (w : Workspace) (target : Target) :
    (w.emptied target).stderr = w.stderr := by
  cases target with
  | standard => rfl
  | file names => rfl

/-! ### Inputs -/

/-- Why an input cannot be opened. -/
inductive CannotOpen (w : Workspace) : Endpoint → SystemError → Prop where
  /-- The path leads nowhere. -/
  | nowhere {path : String} {e : SystemError} (h : w.locate path = .error e) :
    CannotOpen w (.file path) e
  /-- There is nothing where the path leads. -/
  | nothing {path : String} {names : List String} (hlocate : w.locate path = .ok names)
      (h : w.entry? names = none) : CannotOpen w (.file path) .notFound

theorem openInput_eq_error_iff : w.openInput input = .error e ↔ w.CannotOpen input e := by
  constructor
  · intro h
    cases input with
    | standard => cases h
    | file path =>
      simp only [openInput] at h
      split at h
      · next hlocate =>
        cases h
        exact .nowhere hlocate
      · next names hlocate =>
        split at h
        · cases h
        · next hnone =>
          cases h
          exact .nothing hlocate (Option.not_isSome_iff_eq_none.1 hnone)
  · intro h
    cases h with
    | nowhere hlocate => simp only [openInput, hlocate]
    | nothing hlocate hnone =>
      simp only [openInput, hlocate, hnone, Option.isSome_none, Bool.false_eq_true, if_false]

theorem exists_openInput_eq_ok (h : ∀ e, ¬ w.CannotOpen input e) :
    ∃ source, w.openInput input = .ok source :=
  exists_eq_ok_of_forall_ne fun e he => h e (openInput_eq_error_iff.1 he)

/-- What an input supplies when the output has been created. The standard input supplies what it
holds, and a file its content, unless it is the output and so is empty. A folder can be opened but
not read. -/
def supplied (w : Workspace) (target : Target) : Endpoint → Except SystemError Bytes
  | .standard => .ok w.stdin
  | .file path =>
    match w.locate path with
    | .error e => .error e
    | .ok names =>
      if target = .file names then .ok []
      else
        match w.entry? names with
        | some (.file content) => .ok content
        | some .folder => .error .isAFolder
        | none => .error .notFound

/-- What is read from an input that was opened before the output was created. -/
theorem readAll_emptied (hopen : w.openInput input = .ok source) (h : w.LeadsTo output target) :
    (w.emptied target).readAll source = w.supplied target input := by
  cases input with
  | standard =>
    cases hopen
    cases target with
    | standard => rfl
    | file names => rfl
  | file path =>
    simp only [openInput] at hopen
    split at hopen
    · contradiction
    · next names hplace =>
      split at hopen
      · next hsome =>
        obtain ⟨entry, hentry⟩ := Option.isSome_iff_exists.1 hsome
        cases hopen
        rw [supplied, hplace, readAll]
        by_cases hsame : target = .file names
        · rw [hsame, emptied, entry?_putFile_self (hsame ▸ h).ne_nil]
          exact (if_pos rfl).symm
        · rw [entry?_emptied_of_ne hsame]
          refine Eq.trans ?_ (if_neg hsame).symm
          rw [hentry]
          cases entry with
          | folder => rfl
          | file content => rfl
      · contradiction

/-! ### Runs -/

theorem run_openInput (w : Workspace) (input : Endpoint) :
    StateT.run (m := Id) (Host.openInput (m := StateM Workspace) input) w =
      (w.openInput input, w) :=
  rfl

theorem run_createOutput_of_eq_error (h : w.createOutput output = .error e) :
    StateT.run (m := Id) (Host.createOutput (m := StateM Workspace) output) w = (.error e, w) := by
  simp only [Host.createOutput, StateT.run_bind, StateT.run_get, pure_bind, h]
  rfl

theorem run_createOutput_of_eq_ok (h : w.createOutput output = .ok (target, created)) :
    StateT.run (m := Id) (Host.createOutput (m := StateM Workspace) output) w =
      (.ok target, created) := by
  simp only [Host.createOutput, StateT.run_bind, StateT.run_get, pure_bind, h]
  rfl

variable {a : Arguments}

/-- Where the input cannot be opened, nothing else is tried. -/
theorem run_runArguments_of_openInput_eq_error (h : w.openInput (.ofPath a.input) = .error e) :
    (runArguments a : StateM Workspace ExitStatus).run w =
      (.failure, w.complain ("error: cannot open " ++ a.input ++ ": " ++ e.message ++ "\n")) := by
  rw [runArguments, StateT.run_bind, run_openInput, h]
  rfl

/-- Where the output cannot be created, nothing is read. -/
theorem run_runArguments_of_createOutput_eq_error
    (hopen : w.openInput (.ofPath a.input) = .ok source)
    (h : w.createOutput (.ofPath a.output) = .error e) :
    (runArguments a : StateM Workspace ExitStatus).run w =
      (.failure,
        w.complain ("error: cannot create " ++ a.output ++ ": " ++ e.message ++ "\n")) := by
  rw [runArguments, StateT.run_bind, run_openInput, hopen]
  change StateT.run (Host.createOutput (m := StateM Workspace) _ >>= _) w = _
  rw [StateT.run_bind, run_createOutput_of_eq_error h]
  rfl

/-- A batch runs on what is left of the input once the output has been created. -/
theorem run_runArguments_of_createOutput_eq_ok
    (hopen : w.openInput (.ofPath a.input) = .ok source)
    (h : w.createOutput (.ofPath a.output) = .ok (target, created)) :
    let outcome :=
      runBatch { failFast := a.failFast } (linesOfInput (created.readAll source)) .unbounded
    (runArguments a : StateM Workspace ExitStatus).run w =
      (statusOfResult outcome.result,
        (created.write target outcome.sink.bytes).complain (complaintOfResult outcome.result)) := by
  rw [runArguments, StateT.run_bind, run_openInput, hopen]
  change StateT.run (Host.createOutput (m := StateM Workspace) _ >>= _) w = _
  rw [StateT.run_bind, run_createOutput_of_eq_ok h]
  rfl

/-- What a target holds does not depend on complaints. -/
theorem Receives.complain {after : Workspace} (h : w.Receives target bytes after) (text : String) :
    w.Receives target bytes (after.complain text) := by
  cases target with
  | standard => exact h
  | file names => exact h

/-! ### Reports -/

/-- What a command tells about the result of its batch, by its status and by what stands in `after`
behind the errors of `w`. -/
structure Reports (w : Workspace) (result : Except BatchError Summary) (status : ExitStatus)
    (after : Workspace) : Prop where
  /-- It succeeds in silence just when there is a result for every expression. -/
  success_iff : status.code = 0 ∧ after.stderr = w.stderr ↔
    ∃ summary, result = .ok summary ∧ summary.failed = 0
  /-- It fails with a warning when the batch is complete and has expressions without a result. -/
  warning : ∀ summary, result = .ok summary → summary.failed ≠ 0 →
    status.code = 1 ∧ after.stderr = w.stderr ++
      utf8 ("warning: " ++ toString summary.failed ++ " of " ++
        toString (summary.evaluated + summary.failed) ++ " expressions could not be evaluated\n")
  /-- It fails with the reason when the batch has ended early. -/
  error : ∀ e, result = .error e →
    status.code = 1 ∧ after.stderr = w.stderr ++ utf8 ("error: " ++ e.message ++ "\n")

/-- Where nothing has been said before, the status and the complaint of a result report it. -/
theorem reports_complain {after : Workspace} (h : after.stderr = w.stderr)
    (result : Except BatchError Summary) :
    w.Reports result (statusOfResult result) (after.complain (complaintOfResult result)) := by
  have hstderr : ∀ text, (after.complain text).stderr = w.stderr ++ utf8 text := fun text => by
    rw [complain, h]
  refine ⟨⟨fun hdone => code_statusOfResult_eq_zero_iff.1 hdone.1, ?_⟩,
    fun summary hresult hfailed => ?_, fun e hresult => ?_⟩
  · rintro ⟨summary, hresult, hfailed⟩
    refine ⟨code_statusOfResult_eq_zero_iff.2 ⟨summary, hresult, hfailed⟩, ?_⟩
    rw [hstderr, hresult, complaintOfResult_of_failed_eq_zero hfailed]
    exact List.append_nil _
  · rw [hstderr, hresult, complaintOfResult_of_failed_ne_zero hfailed,
      statusOfResult_of_failed_ne_zero hfailed]
    exact ⟨rfl, rfl⟩
  · rw [hstderr, hresult]
    exact ⟨rfl, rfl⟩

/-! ### The command -/

/-- What a command that has a batch to run leaves behind, whatever reader has found the two paths
and the flag in its arguments. Where the input cannot be opened or else the output cannot be
created, it fails and only says so. Otherwise the output, and nothing but the output, receives what
the batch writes on the bytes that the input supplies, also when the batch fails midway; and the
command reports the result of the batch. An input that is opened but cannot be read is as one whose
first line cannot be read. -/
theorem runCommand_effects {reader : ArgumentReader} {arguments : List String} {a : Arguments}
    (hread : reader.read arguments = .run a) (w : Workspace) :
    let status := ((reader.runCommand arguments : StateM Workspace ExitStatus).run w).1
    let after := ((reader.runCommand arguments : StateM Workspace ExitStatus).run w).2
    ∃ input output, Endpoint.Names a.input input ∧ Endpoint.Names a.output output ∧
      (∀ e, w.CannotOpen input e →
        status.code = 1 ∧ after = { w with
          stderr := w.stderr ++
            utf8 ("error: cannot open " ++ a.input ++ ": " ++ e.message ++ "\n") }) ∧
      ((∀ e, ¬ w.CannotOpen input e) → ∀ e, w.CannotCreate output e →
        status.code = 1 ∧ after = { w with
          stderr := w.stderr ++
            utf8 ("error: cannot create " ++ a.output ++ ": " ++ e.message ++ "\n") }) ∧
      ((∀ e, ¬ w.CannotOpen input e) → (∀ e, ¬ w.CannotCreate output e) →
        ∃ target outcome, w.LeadsTo output target ∧
          (∀ content, w.supplied target input = .ok content →
            outcome = runBatch { failFast := a.failFast } (linesOf content) .unbounded) ∧
          (∀ e, w.supplied target input = .error e →
            outcome = ⟨.unbounded, .error (.transfer (.system e))⟩) ∧
          w.Receives target outcome.sink.bytes after ∧
          w.Reports outcome.result status after) := by
  have hcommand : (reader.runCommand arguments : StateM Workspace ExitStatus) = runArguments a := by
    rw [ArgumentReader.runCommand, hread]
  rw [hcommand]
  refine ⟨.ofPath a.input, .ofPath a.output, Endpoint.names_ofPath _, Endpoint.names_ofPath _,
    fun e hinput => ?_, fun hinput e houtput => ?_, fun hinput houtput => ?_⟩
  · rw [run_runArguments_of_openInput_eq_error (openInput_eq_error_iff.2 hinput)]
    exact ⟨rfl, rfl⟩
  · obtain ⟨source, hopen⟩ := exists_openInput_eq_ok hinput
    rw [run_runArguments_of_createOutput_eq_error hopen (createOutput_eq_error_iff.2 houtput)]
    exact ⟨rfl, rfl⟩
  · obtain ⟨source, hopen⟩ := exists_openInput_eq_ok hinput
    obtain ⟨⟨target, created⟩, hcreate⟩ :=
      exists_eq_ok_of_forall_ne fun e he => houtput e (createOutput_eq_error_iff.1 he)
    obtain ⟨hleads, hcreated⟩ := createOutput_eq_ok hcreate
    have hrun := run_runArguments_of_createOutput_eq_ok hopen hcreate
    simp only [hcreated, readAll_emptied hopen hleads] at hrun
    rw [hrun]
    refine ⟨target, _, hleads, fun content h => ?_, fun e h => ?_,
      (receives_write hleads _).complain _, reports_complain ?_ _⟩
    · rw [h, linesOfInput]
    · rw [h]
      rfl
    · rw [stderr_write, stderr_emptied]

/-- The expressions come from the standard input, one of them has no result, and the answers go to
the standard output. -/
theorem runCommand_effects_hyphens :
    let w := ofContents [] [("f", utf8 "1\n+ x y\n")] (utf8 "2\n+ x y\n+ x y+\n")
    let reader := ArgumentReader.conventional
    let status := ((reader.runCommand ["-", "-"] : StateM Workspace ExitStatus).run w).1
    let after := ((reader.runCommand ["-", "-"] : StateM Workspace ExitStatus).run w).2
    reader.read ["-", "-"] = .run { input := "-", output := "-" } ∧ status.code = 1 ∧
      after.stdout =
        utf8 "x+y\nerror: parse error at position 2: expected a coefficient or a variable\n" ∧
      after.stderr = utf8 "warning: 1 of 2 expressions could not be evaluated\n" ∧
      after.entry? ["home", "f"] = some (.file (utf8 "1\n+ x y\n")) := by
  intro w reader status after
  have hread : reader.read ["-", "-"] = .run { input := "-", output := "-" } := rfl
  obtain ⟨input, output, hinput, houtput, -, -, hbatch⟩ := runCommand_effects hread w
  obtain rfl : input = .standard := hinput.eq_ofPath
  obtain rfl : output = .standard := houtput.eq_ofPath
  have hopen : ∀ e, ¬ w.CannotOpen .standard e := fun e h => by cases h
  have hcreate : ∀ e, ¬ w.CannotCreate .standard e := fun e h => by cases h
  obtain ⟨target, outcome, hleads, hcontent, -, hreceives, hreports⟩ := hbatch hopen hcreate
  obtain rfl : target = .standard := by
    cases hleads
    rfl
  have houtcome := hcontent _ rfl
  have hbytes : outcome.sink.bytes =
      utf8 "x+y\nerror: parse error at position 2: expected a coefficient or a variable\n" := by
    rw [houtcome]
    decide +kernel
  have hresult : outcome.result = .ok ⟨1, 1⟩ := by
    rw [houtcome]
    exact toOption_eq_some_iff.1 (by decide +kernel)
  obtain ⟨hstdout, hentries⟩ := hreceives
  obtain ⟨hcode, hstderr⟩ := hreports.warning _ hresult (by decide)
  rw [hbytes] at hstdout
  exact ⟨hread, hcode, hstdout, hstderr, hentries ["home", "f"]⟩

/-- A file is both input and output, under two names, so there is nothing left to read. -/
example :
    let w := ofContents ["d"] [("f", utf8 "1\n+ x y\n")] []
    let after := ((runCommand ["f", "./d/../f"] : StateM Workspace ExitStatus).run w).2
    after.entry? ["home", "f"] = some (.file []) ∧
      after.stderr = utf8 "error: missing expression count\n" :=
  ⟨rfl, rfl⟩

end Workspace

end SparsePoly
