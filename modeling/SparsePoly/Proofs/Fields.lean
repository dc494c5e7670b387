import SparsePoly.Text.Blank

/-!
# The fields of a text

`fields` cuts a text at every blank and drops the empty pieces. `HasFields` says what that comes to,
without cutting: blanks may stand before a field, which is a row of other characters, and it ends
where a blank stands or the text ends. A text has its fields in this way and no others
(`fields_eq_iff`). So rows of blanks may be put around a text and between two texts: around they
change nothing, neither the fields nor the trimmed text, and between they keep the fields apart.
-/

namespace SparsePoly

/-- A field: a row of characters, at least one, without a blank. -/
structure IsField (f : List Char) : Prop where
  /-- There is a character. -/
  ne_nil : f ≠ []
  /-- No character is a blank. -/
  not_blank : ∀ c ∈ f, isBlank c = false

/-- A text and its fields, from the first to the last. -/
inductive HasFields : List Char → List (List Char) → Prop where
  /-- The empty text has no fields. -/
  | nil : HasFields [] []
  /-- A blank may stand before the fields. -/
  | blank {c : Char} {text : List Char} {fs : List (List Char)} (hc : isBlank c = true)
      (h : HasFields text fs) : HasFields (c :: text) fs
  /-- A field may end with the text. -/
  | last {f : List Char} (hf : IsField f) : HasFields f [f]
  /-- A field ends where a blank stands, and the other fields are behind it. -/
  | field {c : Char} {f text : List Char} {fs : List (List Char)} (hf : IsField f)
      (hc : isBlank c = true) (h : HasFields text fs) : HasFields (f ++ c :: text) (f :: fs)

variable {c : Char} {f text : List Char} {fs : List (List Char)}

/-- A blank separates the fields before it from those behind it. -/
theorem fields_append_cons (hc : isBlank c = true) (first second : List Char) :
    fields (first ++ c :: second) = fields first ++ fields second := by
  rw [fields, List.splitOnP_append_cons _ _ hc, List.filter_append]
  rfl

/-- A row without blanks is its only field. -/
theorem fields_of_isField (hf : IsField f) : fields f = [f] := by
  rw [fields, List.splitOnP_eq_singleton hf.not_blank]
  exact List.filter_eq_self.2 fun g hg => by simp [List.mem_singleton.1 hg, hf.ne_nil]

theorem HasFields.fields_eq (h : HasFields text fs) : fields text = fs := by
  induction h with
  | nil => rfl
  | @blank c text fs hc _ ih =>
    have hcut := fields_append_cons hc [] text
    rw [List.nil_append] at hcut
    rw [hcut, ih]
    rfl
  | last hf => exact fields_of_isField hf
  | field hf hc _ ih =>
    rw [fields_append_cons hc, fields_of_isField hf, ih]
    rfl

/-- A character that is no blank begins the first field or becomes a part of it. -/
private theorem HasFields.exists_cons (hc : isBlank c = false) (h : HasFields text fs) :
    ∃ gs, HasFields (c :: text) gs := by
  have hsingle : IsField [c] := ⟨List.cons_ne_nil c [], fun d hd => List.mem_singleton.1 hd ▸ hc⟩
  have hlonger : ∀ {g}, IsField g → IsField (c :: g) := fun hg =>
    ⟨List.cons_ne_nil c _, List.forall_mem_cons.2 ⟨hc, hg.not_blank⟩⟩
  cases h with
  | nil => exact ⟨_, .last hsingle⟩
  | blank hd h => exact ⟨_, .field hsingle hd h⟩
  | last hf => exact ⟨_, .last (hlonger hf)⟩
  | field hf hd h => exact ⟨_, .field (hlonger hf) hd h⟩

/-- Every text has fields. -/
theorem exists_hasFields (text : List Char) : ∃ fs, HasFields text fs := by
  induction text with
  | nil => exact ⟨[], .nil⟩
  | cons c text ih =>
    obtain ⟨fs, hfs⟩ := ih
    cases hc : isBlank c with
    | true => exact ⟨fs, .blank hc hfs⟩
    | false => exact hfs.exists_cons hc

/-- Cutting a text at its blanks gives its fields. -/
theorem fields_eq_iff : fields text = fs ↔ HasFields text fs := by
  constructor
  · rintro rfl
    obtain ⟨gs, hgs⟩ := exists_hasFields text
    rw [hgs.fields_eq]
    exact hgs
  · exact HasFields.fields_eq

/-- What a text has as a field is one. -/
theorem HasFields.isField (h : HasFields text fs) : ∀ f ∈ fs, IsField f := by
  induction h with
  | nil => exact nofun
  | blank _ _ ih => exact ih
  | last hf => exact List.forall_mem_cons.2 ⟨hf, nofun⟩
  | field hf _ _ ih => exact List.forall_mem_cons.2 ⟨hf, ih⟩

/-! ### Rows of blanks -/

section

variable {blanks : List Char} (hblanks : ∀ c ∈ blanks, isBlank c = true)

include hblanks

/-- Blanks before a text are no part of its fields. -/
theorem fields_blanks_append (text : List Char) : fields (blanks ++ text) = fields text := by
  induction blanks with
  | nil => rfl
  | cons c blanks ih =>
    obtain ⟨hc, hblanks⟩ := List.forall_mem_cons.1 hblanks
    have hcut := fields_append_cons hc [] (blanks ++ text)
    rw [List.nil_append, ih hblanks] at hcut
    exact hcut

/-- Blanks between two texts separate their fields. -/
theorem fields_append_blanks_append (hne : blanks ≠ []) (first second : List Char) :
    fields (first ++ (blanks ++ second)) = fields first ++ fields second := by
  obtain ⟨c, blanks, rfl⟩ := List.exists_cons_of_ne_nil hne
  obtain ⟨hc, hblanks⟩ := List.forall_mem_cons.1 hblanks
  rw [List.cons_append, fields_append_cons hc, fields_blanks_append hblanks]

/-- Blanks behind a text are no part of its fields. -/
theorem fields_append_blanks (text : List Char) : fields (text ++ blanks) = fields text := by
  by_cases hne : blanks = []
  · rw [hne, List.append_nil]
  · have hcut := fields_append_blanks_append hblanks hne text []
    have hnone : fields [] = [] := rfl
    rwa [List.append_nil, hnone, List.append_nil] at hcut

/-- Blanks before a text are no part of the trimmed text. -/
theorem trim_blanks_append (text : List Char) : trim (blanks ++ text) = trim text := by
  have hdrop : trimLeft (blanks ++ text) = trimLeft text := List.dropWhile_append_of_pos hblanks
  rw [trim, trim, hdrop]

/-- Blanks behind a text are no part of the trimmed text. -/
theorem trim_append_blanks (text : List Char) : trim (text ++ blanks) = trim text := by
  have hdrop : ∀ rest, trimLeft (blanks ++ rest) = trimLeft rest :=
    fun rest => List.dropWhile_append_of_pos hblanks
  have hleft : trimLeft (text ++ blanks) =
      if (trimLeft text).isEmpty then trimLeft blanks else trimLeft text ++ blanks :=
    List.dropWhile_append
  by_cases hempty : trimLeft text = []
  · -- a text of blanks only leaves nothing, with more blanks or without
    have hnothing : trimLeft blanks = [] := by
      rw [← List.append_nil blanks, hdrop]
      rfl
    rw [trim, trim, hleft, hempty, List.isEmpty_nil, if_pos rfl, hnothing]
  · have hreverse : trimLeft (trimLeft text ++ blanks).reverse =
        trimLeft (trimLeft text).reverse := by
      rw [List.reverse_append]
      exact List.dropWhile_append_of_pos fun c hc => hblanks c (List.mem_reverse.1 hc)
    rw [trim, trim, hleft, if_neg fun h => hempty (List.isEmpty_iff.1 h), hreverse]

end

/-- A text is its trimmed form with blanks on both sides. -/
theorem exists_blanks_trim (text : List Char) :
    ∃ before after, (∀ c ∈ before, isBlank c = true) ∧ (∀ c ∈ after, isBlank c = true) ∧
      text = before ++ (trim text ++ after) := by
  have hright : ∀ rest : List Char,
      rest = (trimLeft rest.reverse).reverse ++ (rest.reverse.takeWhile isBlank).reverse := by
    intro rest
    rw [← List.reverse_append, trimLeft, List.takeWhile_append_dropWhile, List.reverse_reverse]
  refine ⟨text.takeWhile isBlank, ((trimLeft text).reverse.takeWhile isBlank).reverse,
    List.all_eq_true.1 List.all_takeWhile,
    fun c hc => List.all_eq_true.1 List.all_takeWhile c (List.mem_reverse.1 hc), ?_⟩
  rw [trim, ← hright, trimLeft, List.takeWhile_append_dropWhile]

/-- Trimming a text leaves its fields as they are. -/
theorem fields_trim (text : List Char) : fields (trim text) = fields text := by
  obtain ⟨before, after, hbefore, hafter, htext⟩ := exists_blanks_trim text
  have hfields := congrArg fields htext
  rw [fields_blanks_append hbefore, fields_append_blanks hafter] at hfields
  exact hfields.symm

/-- Trimming a trimmed text changes nothing. -/
theorem trim_trim (text : List Char) : trim (trim text) = trim text := by
  obtain ⟨before, after, hbefore, hafter, htext⟩ := exists_blanks_trim text
  have htrim := congrArg trim htext
  rw [trim_blanks_append hbefore, trim_append_blanks hafter] at htrim
  exact htrim.symm

end SparsePoly
