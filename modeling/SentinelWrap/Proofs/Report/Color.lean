import Mathlib.Data.List.Forall2
import Mathlib.Tactic.Common
import SentinelWrap.Report.Format

/-! What a colored text shows. Its escape sequences are the ones that painting puts in, as long as
nothing that is reported brings its own; without them it is, line by line, the text that is written
without color. -/
namespace SentinelWrap

namespace Style

/-- A text without its escape sequences. One goes from `ESC[`, over the characters that count as
parameters, to an `m`. -/
def strip (isParameter : Char → Bool) : List Char → List Char
  | [] => []
  | '\x1b' :: '[' :: rest =>
    match _h : rest.dropWhile isParameter with
    | 'm' :: after => strip isParameter after
    | _ => '\x1b' :: strip isParameter ('[' :: rest)
  | c :: cs => c :: strip isParameter cs
termination_by cs => cs.length
decreasing_by
  · have := (rest.dropWhile_suffix isParameter).length_le
    simp only [_h, List.length_cons] at this ⊢
    omega
  all_goals simp

/-- The characters that may stand between the bracket and the `m`: at least digits and semicolons, and
not the `m` itself. -/
structure IsParameterClass (isParameter : Char → Bool) : Prop where
  digit : ∀ c : Char, c.isDigit = true → isParameter c = true
  semicolon : isParameter ';' = true
  final : isParameter 'm' = false

variable {isParameter : Char → Bool}

private theorem strip_cons_of_ne {c : Char} (h : c ≠ '\x1b') (cs : List Char) :
    strip isParameter (c :: cs) = c :: strip isParameter cs := by
  rw [strip]
  rintro rest rfl -
  exact h rfl

theorem strip_append_of_not_mem {text : List Char} (h : '\x1b' ∉ text) (rest : List Char) :
    strip isParameter (text ++ rest) = text ++ strip isParameter rest := by
  induction text with
  | nil => rfl
  | cons c text ih =>
    rw [List.mem_cons, not_or] at h
    rw [List.cons_append, strip_cons_of_ne (Ne.symm h.1), ih h.2, List.cons_append]

/-- One escape sequence is deleted as a whole. -/
theorem strip_sequence_append (hclass : IsParameterClass isParameter) {parameters : List Char}
    (h : parameters.all (fun c => c.isDigit || c == ';') = true) (rest : List Char) :
    strip isParameter ('\x1b' :: '[' :: (parameters ++ ['m']) ++ rest) = strip isParameter rest := by
  have hparameters : ∀ c ∈ parameters, isParameter c = true := fun c hc => by
    have hc := List.all_eq_true.mp h c hc
    rw [Bool.or_eq_true, beq_iff_eq] at hc
    rcases hc with hdigit | rfl
    · exact hclass.digit c hdigit
    · exact hclass.semicolon
  have hdrop : (parameters ++ ['m'] ++ rest).dropWhile isParameter = 'm' :: rest := by
    rw [List.append_assoc, List.dropWhile_append_of_pos hparameters, List.singleton_append,
      List.dropWhile_cons_of_neg (by simp [hclass.final])]
  rw [List.cons_append, List.cons_append, strip]
  split
  · next after heq =>
    rw [hdrop] at heq
    obtain rfl := (List.cons.inj heq).2
    rfl
  · next hne => exact absurd hdrop (hne rest)

/-- A style is taken up by one escape sequence. -/
theorem escape_eq (style : Style) : ∃ parameters,
    parameters.all (fun c => c.isDigit || c == ';') = true ∧
      style.escape = '\x1b' :: '[' :: (parameters ++ ['m']) := by
  cases style with
  | error => exact ⟨['1', ';', '3', '1'], rfl, rfl⟩
  | warning => exact ⟨['3', '3'], rfl, rfl⟩
  | success => exact ⟨['3', '2'], rfl, rfl⟩
  | location => exact ⟨['1'], rfl, rfl⟩
  | dim => exact ⟨['2'], rfl, rfl⟩

private theorem resume_of_not_mem (style : Style) {text : List Char} (h : '\x1b' ∉ text) :
    style.resume text = text := by
  induction text with
  | nil => rfl
  | cons c text ih =>
    rw [List.mem_cons, not_or] at h
    rw [resume, ih h.2]
    rintro rest rfl -
    exact h.1 rfl

/-- Without its escape sequences a text is another one, whatever follows it. -/
def Shows (isParameter : Char → Bool) (text shown : String) : Prop :=
  ∀ rest, strip isParameter (text.toList ++ rest) = shown.toList ++ strip isParameter rest

namespace Shows

theorem append {a b a' b' : String} (ha : Shows isParameter a a') (hb : Shows isParameter b b') :
    Shows isParameter (a ++ b) (a' ++ b') := by
  intro rest
  rw [String.toList_append, String.toList_append, List.append_assoc, ha, hb, List.append_assoc]

/-- A text that no escape sequence starts in shows itself. -/
theorem of_not_mem {text : String} (h : '\x1b' ∉ text.toList) : Shows isParameter text text :=
  strip_append_of_not_mem h

/-- Painting a text does not change what it shows. -/
theorem paint (hclass : IsParameterClass isParameter) (style : Style) {text : String}
    (h : '\x1b' ∉ text.toList) :
    Shows isParameter (style.paint true text) (style.paint false text) := by
  intro rest
  obtain ⟨parameters, hparameters, hescape⟩ := style.escape_eq
  have hreset : reset = '\x1b' :: '[' :: (['0'] ++ ['m']) := rfl
  have hpaint : (style.paint true text).toList = style.escape ++ (text.toList ++ reset) := by
    simp [Style.paint, style.resume_of_not_mem h]
  rw [hpaint, hescape, hreset, List.append_assoc, strip_sequence_append hclass hparameters,
    List.append_assoc, strip_append_of_not_mem h, strip_sequence_append hclass rfl]
  rfl

/-- Lines that show lines make a text that shows a text. -/
theorem join {lines shown : List String} (h : List.Forall₂ (Shows isParameter) lines shown) :
    Shows isParameter (String.join (lines.map (· ++ "\n"))) (String.join (shown.map (· ++ "\n"))) := by
  induction h with
  | nil => exact of_not_mem (by decide)
  | cons hline _ ih =>
    rw [List.map_cons, List.map_cons, String.join_cons, String.join_cons]
    exact (hline.append (of_not_mem (by decide))).append ih

end Shows

theorem forall₂_shows_map {α : Type} {xs : List α} {f g : α → String}
    (h : ∀ x ∈ xs, Shows isParameter (f x) (g x)) :
    List.Forall₂ (Shows isParameter) (xs.map f) (xs.map g) := by
  rwa [List.forall₂_map_left_iff, List.forall₂_map_right_iff, List.forall₂_same]

theorem forall₂_shows_flatMap {α : Type} {xs : List α} {f g : α → List String}
    (h : ∀ x ∈ xs, List.Forall₂ (Shows isParameter) (f x) (g x)) :
    List.Forall₂ (Shows isParameter) (xs.flatMap f) (xs.flatMap g) := by
  rw [List.flatMap_def, List.flatMap_def]
  refine List.rel_flatten ?_
  rwa [List.forall₂_map_left_iff, List.forall₂_map_right_iff, List.forall₂_same]

end Style

/-- No escape sequence starts in what is written of a report. -/
structure Report.EscapeFree (report : Report) : Prop where
  path : '\x1b' ∉ report.path.text.toList
  error : ∀ error ∈ report.error, '\x1b' ∉ error.toList
  message : ∀ found ∈ report.diagnostics, '\x1b' ∉ found.message.toList
  fixMessage : ∀ found ∈ report.diagnostics, ∀ fix ∈ found.fixes, '\x1b' ∉ fix.message.toList

theorem escape_not_mem_toDigits (n : Nat) : '\x1b' ∉ Nat.toDigits 10 n := by
  intro h
  exact absurd (Nat.isDigit_of_mem_toDigits (by decide) (by decide) h) (by decide)

theorem escape_not_mem_position (position : Position) : '\x1b' ∉ position.render.toList := by
  simp [Position.render, toString, escape_not_mem_toDigits]

namespace TextLayout
open Style

theorem escape_not_mem_summary (reports : List Report) : '\x1b' ∉ (summary reports).toList := by
  simp only [summary]
  split_ifs <;> simp [toString, escape_not_mem_toDigits]

variable {isParameter : Char → Bool} {showFixes : Bool} {report : Report}

theorem shows_fixLine (hclass : IsParameterClass isParameter) {fix : Fix}
    (h : '\x1b' ∉ fix.message.toList) :
    Shows isParameter (fixLine ⟨true, showFixes⟩ fix) (fixLine ⟨false, showFixes⟩ fix) :=
  (Shows.of_not_mem (by decide)).append (.paint hclass _ h)

theorem shows_diagnosticLines (hclass : IsParameterClass isParameter) (h : report.EscapeFree)
    {found : Diagnostic} (hfound : found ∈ report.diagnostics) :
    List.Forall₂ (Shows isParameter) (diagnosticLines ⟨true, showFixes⟩ report found)
      (diagnosticLines ⟨false, showFixes⟩ report found) := by
  have hplace : '\x1b' ∉ (report.path.text ++ ":" ++ found.position.render).toList := by
    simp [h.path, escape_not_mem_position]
  have hstatus : Shows isParameter
      (if report.fixed then " " ++ Style.success.paint true "(fixed)" else "")
      (if report.fixed then " " ++ Style.success.paint false "(fixed)" else "") := by
    split_ifs
    · exact (Shows.of_not_mem (by decide)).append (.paint hclass _ (by decide))
    · exact .of_not_mem (by decide)
  refine .cons ?_ ?_
  · exact (((Shows.paint hclass _ hplace).append (.of_not_mem (by decide))).append
      (.of_not_mem (h.message found hfound))).append hstatus
  · cases showFixes with
    | false => exact .nil
    | true =>
      exact forall₂_shows_map fun fix hfix =>
        shows_fixLine hclass (h.fixMessage found hfound fix hfix)

theorem shows_errorLines (hclass : IsParameterClass isParameter) (h : report.EscapeFree) :
    List.Forall₂ (Shows isParameter) (errorLines ⟨true, showFixes⟩ report)
      (errorLines ⟨false, showFixes⟩ report) := by
  unfold errorLines
  split
  · next error herror =>
    have hmessage := h.error error herror
    exact .cons (((Shows.paint hclass _ h.path).append (.of_not_mem (by decide))).append
      (.paint hclass _ hmessage)) .nil
  · exact .nil

/-- Every line of a colored report shows the line that is written without color. -/
theorem shows_lines (hclass : IsParameterClass isParameter) {reports : List Report}
    (h : ∀ report ∈ reports, report.EscapeFree) :
    List.Forall₂ (Shows isParameter) (lines ⟨true, showFixes⟩ reports)
      (lines ⟨false, showFixes⟩ reports) := by
  refine List.rel_append (forall₂_shows_flatMap fun report hreport => ?_)
    (.cons (.paint hclass _ (escape_not_mem_summary reports)) .nil)
  have hreport := h report hreport
  exact List.rel_append (shows_errorLines hclass hreport)
    (forall₂_shows_flatMap fun found hfound => shows_diagnosticLines hclass hreport hfound)

/-- Color adds escape sequences to what is written, and nothing else. -/
theorem strip_render (isParameter : Char → Bool) (hclass : IsParameterClass isParameter)
    (isTerminal showFixes : Bool) (reports : List Report)
    (h : ∀ report ∈ reports, report.EscapeFree) :
    strip isParameter (render ⟨ColorMode.always.isOn isTerminal, showFixes⟩ reports).toList =
      (render ⟨ColorMode.never.isOn isTerminal, showFixes⟩ reports).toList := by
  have hshows : Shows isParameter (render ⟨true, showFixes⟩ reports)
      (render ⟨false, showFixes⟩ reports) := .join (shows_lines hclass h)
  simpa [strip, ColorMode.isOn] using hshows []

def bracketedReports : List Report := [
  { path := ⟨"a[1m.go"⟩
    diagnostics := [⟨"wrap_error", ⟨40, 5, 3⟩, "found [0m", [⟨"use 1;31m", []⟩]⟩]
    fixed := true },
  { path := ⟨"b.go"⟩, error := some "[2m" }]

theorem strip_bracketedReports :
    IsParameterClass (· != 'm') ∧ (∀ report ∈ bracketedReports, report.EscapeFree) ∧
      strip (· != 'm') (render ⟨ColorMode.always.isOn false, true⟩ bracketedReports).toList =
        ("a[1m.go:5:3: found [0m (fixed)\n    use 1;31m\nb.go: [2m\n" ++
          "2 file(s) checked, 1 finding(s), 1 file(s) fixed, 1 file(s) failed\n").toList := by
  have hclass : IsParameterClass (· != 'm') :=
    ⟨fun c hc => by rw [bne_iff_ne]; rintro rfl; exact absurd hc (by decide), by decide, by decide⟩
  have hfree : ∀ report ∈ bracketedReports, report.EscapeFree := by
    simp only [bracketedReports, List.forall_mem_cons, List.not_mem_nil, false_imp_iff, implies_true,
      and_true]
    exact ⟨⟨by decide, by decide, by decide, by decide⟩, ⟨by decide, by decide, by decide, by decide⟩⟩
  exact ⟨hclass, hfree, (strip_render _ hclass false true _ hfree).trans
    (congrArg String.toList (by decide +kernel))⟩

end TextLayout
end SentinelWrap
