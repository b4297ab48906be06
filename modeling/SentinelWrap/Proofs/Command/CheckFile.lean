import SentinelWrap.Command.Check
import SentinelWrap.Proofs.FileSystem.Overwrite
import SentinelWrap.Proofs.Wrapping.FixedText

/-! The check of one file. What it reports and what it writes is decided by what stands at the path;
then either nothing is written or the whole new text is. -/
namespace SentinelWrap.Command

def textOf : Except IoError Entry → Except IoError String
  | .error cause => .error cause
  | .ok .directory => .error .isDirectory
  | .ok (.file content _) => (String.fromUTF8? content).elim (.error .invalidText) .ok

def mayWrite : Except IoError Entry → Bool
  | .ok (.file _ writable) => writable
  | _ => false

/-- The report on a file, and the new text if the file is to be rewritten, by what stands at its
path. -/
def verdict (fix : Bool) (path : Path) (status : Except IoError Entry) : Report × Option String :=
  match examine path fix (textOf status) with
  | .done report => (report, none)
  | .replace report text =>
    if mayWrite status then (report, some text)
    else (.failed path (writeError path .notPermitted), none)

theorem read_eq (fs : FileSystem) (path : Path) : fs.read path = textOf (fs.status path) := by
  unfold FileSystem.read FileSystem.readBytes
  cases fs.status path with
  | error cause => rfl
  | ok entry =>
    cases entry with
    | directory => rfl
    | file content writable =>
      dsimp only [bind, Except.bind, pure, Except.pure, textOf]
      cases String.fromUTF8? content <;> rfl

/-- A text that was written is read again. -/
theorem textOf_file (text : String) (writable : Bool) :
    textOf (.ok (.file text.toUTF8 writable)) = .ok text := by
  have hvalid : String.fromUTF8? text.toUTF8 = some text := dif_pos text.isValidUTF8
  rw [textOf, hvalid]
  rfl

/-- The ways in which the check of a file can end. -/
inductive Ends (fix : Bool) (path : Path) (status : Except IoError Entry) :
    Report × Option String → Prop
  | failed (error : Error) : Ends fix path status (.failed path error, none)
  | reported {text : String} {file : SourceFile} {found : List Diagnostic}
    (htext : textOf status = .ok text) (hparse : SourceFile.parse path text = .ok file)
    (hfound : Wrapping.analyze file = .ok found) (hkept : fix = false ∨ found = []) :
    Ends fix path status ({ path, diagnostics := found }, none)
  | rewritten {text new : String} {file : SourceFile} {found : List Diagnostic}
    (htext : textOf status = .ok text) (hparse : SourceFile.parse path text = .ok file)
    (hfound : Wrapping.analyze file = .ok found) (hfix : fix = true) (hne : found ≠ [])
    (hnew : Diagnostic.applyFixes text found = .ok new) (hwrite : mayWrite status = true) :
    Ends fix path status ({ path, diagnostics := found, fixed := true }, some new)

theorem ends_verdict (fix : Bool) (path : Path) (status : Except IoError Entry) :
    Ends fix path status (verdict fix path status) := by
  unfold verdict examine
  cases htext : textOf status with
  | error cause => exact .failed _
  | ok text =>
    dsimp only [examineText]
    cases hparse : SourceFile.parse path text with
    | error error => exact .failed error
    | ok file =>
      simp only [bind, Except.bind]
      cases hfound : Wrapping.analyze file with
      | error error => exact .failed error
      | ok found =>
        by_cases hkept : fix = false ∨ found = []
        · have hif : (fix && !found.isEmpty) = false := by
            rcases hkept with rfl | rfl <;> simp
          simp only [hif]
          exact .reported htext hparse hfound hkept
        · obtain ⟨hfix, hne⟩ := not_or.mp hkept
          have hif : (fix && !found.isEmpty) = true := by simp_all
          simp only [hif, if_true]
          cases hnew : Diagnostic.applyFixes text found with
          | error error => exact .failed error
          | ok new =>
            simp only [pure, Except.pure]
            split_ifs with hwrite
            · exact .rewritten htext hparse hfound (by simpa using hfix) hne hnew hwrite
            · exact .failed _

/-- Fixes that can be made and written are. -/
theorem verdict_eq_rewritten {path : Path} {status : Except IoError Entry} {text new : String}
    {file : SourceFile} {found : List Diagnostic} (htext : textOf status = .ok text)
    (hparse : SourceFile.parse path text = .ok file) (hfound : Wrapping.analyze file = .ok found)
    (hne : found ≠ []) (hnew : Diagnostic.applyFixes text found = .ok new)
    (hwrite : mayWrite status = true) :
    verdict true path status = ({ path, diagnostics := found, fixed := true }, some new) := by
  have hexamine : examineText path true text =
      .ok (.replace { path, diagnostics := found, fixed := true } new) := by
    simp [examineText, hparse, hfound, hne, hnew, bind, Except.bind, pure, Except.pure]
  simp [verdict, examine, htext, hexamine, hwrite]

theorem path_verdict (fix : Bool) (path : Path) (status : Except IoError Entry) :
    (verdict fix path status).1.path = path := by
  generalize hv : verdict fix path status = v
  have h := ends_verdict fix path status
  rw [hv] at h
  cases h <;> rfl

def rewritten (fs : FileSystem) (path : Path) : Option String → FileSystem
  | none => fs
  | some text =>
    match fs.resolve path with
    | .ok place => fs.overwrite place text
    | .error _ => fs

def IsFile (status : Except IoError Entry) : Prop :=
  ∃ content writable, status = .ok (.file content writable)

theorem exists_place_of_mayWrite {fs : FileSystem} {path : Path}
    (h : mayWrite (fs.status path) = true) :
    ∃ place content, fs.resolve path = .ok place ∧ fs.entry? place = some (.file content true) := by
  match hstatus : fs.status path, h with
  | .ok (.file content true), _ =>
    obtain ⟨place, hplace, hentry⟩ := FileSystem.exists_place_of_status hstatus
    exact ⟨place, content, hplace, hentry⟩

/-- What is read as text is a file, and so is what a new text was worked out for. -/
theorem isFile_of_examine {path : Path} {fix : Bool} {status : Except IoError Entry}
    {report : Report} {new : String}
    (h : examine path fix (textOf status) = .replace report new) : IsFile status := by
  match status with
  | .error cause => cases h
  | .ok .directory => cases h
  | .ok (.file content writable) => exact ⟨content, writable, rfl⟩

/-- A new text is written to a file if that may be written to. -/
theorem finish_replace {fs : FileSystem} {path : Path} {new : String} {report : Report}
    (h : IsFile (fs.status path)) :
    (Outcome.replace report new).finish path fs =
      if mayWrite (fs.status path) then (report, rewritten fs path (some new))
      else (.failed path (writeError path .notPermitted), fs) := by
  obtain ⟨content, writable, hstatus⟩ := h
  obtain ⟨place, hplace, hentry⟩ := FileSystem.exists_place_of_status hstatus
  rw [Outcome.finish, FileSystem.write_of_file hplace hentry, hstatus, rewritten, hplace]
  cases writable <;> rfl

theorem checkFile_eq (fix : Bool) (fs : FileSystem) (path : Path) :
    checkFile fix fs path = ((verdict fix path (fs.status path)).1,
      rewritten fs path (verdict fix path (fs.status path)).2) := by
  unfold checkFile verdict
  rw [read_eq]
  cases hexamine : examine path fix (textOf (fs.status path)) with
  | done report => rfl
  | replace report new =>
    rw [finish_replace (isFile_of_examine hexamine)]
    cases mayWrite (fs.status path) <;> rfl

/-- Two file systems that differ at most in the content of the file at a path. -/
structure DifferOnlyAt (path : Path) (fs after : FileSystem) : Prop where
  current : after.current = fs.current
  places : after.entries.map Prod.fst = fs.entries.map Prod.fst
  elsewhere : ∀ place, fs.resolve path ≠ .ok place → after.entry? place = fs.entry? place
  here : ∀ place, fs.resolve path = .ok place → after.entry? place = fs.entry? place ∨
    ∃ old new, fs.entry? place = some (.file old true) ∧ after.entry? place = some (.file new true)

theorem DifferOnlyAt.refl (path : Path) (fs : FileSystem) : DifferOnlyAt path fs fs :=
  ⟨rfl, rfl, fun _ _ => rfl, fun _ _ => .inl rfl⟩

private theorem differOnlyAt_rewritten {fs : FileSystem} {path : Path} {new : String}
    (h : mayWrite (fs.status path) = true) : DifferOnlyAt path fs (rewritten fs path (some new)) := by
  obtain ⟨place, content, hplace, hentry⟩ := exists_place_of_mayWrite h
  have hfile : fs.HasFile place := ⟨content, true, hentry⟩
  have hrewritten : rewritten fs path (some new) = fs.overwrite place new := by
    rw [rewritten, hplace]
  rw [hrewritten]
  refine ⟨rfl, FileSystem.map_fst_overwrite hfile, fun l hl => ?_, fun l hl => .inr ?_⟩
  · have hne : l ≠ place := by rintro rfl; exact hl hplace
    rw [FileSystem.entry?_overwrite hfile, if_neg hne]
  · obtain rfl : place = l := Except.ok.inj (hplace.symm.trans hl)
    exact ⟨content, new.toUTF8, hentry, by rw [FileSystem.entry?_overwrite hfile, if_pos rfl]⟩

private theorem readBytes_rewritten {fs : FileSystem} {path : Path} {new : String}
    (h : mayWrite (fs.status path) = true) :
    (rewritten fs path (some new)).readBytes path = .ok new.toUTF8 := by
  obtain ⟨place, content, hplace, hentry⟩ := exists_place_of_mayWrite h
  rw [rewritten, hplace]
  unfold FileSystem.readBytes
  rw [FileSystem.status_overwrite_self ⟨content, true, hentry⟩ hplace]
  rfl

/-- The check of a file changes at most the content of that file. If it changed anything, or says
that it did, then fixes were asked for and found, nothing failed, and the new content is the old one
with the fixes applied. A failed check reports no findings and changes nothing; a check that does not
fail reports what the analysis of the file's text finds, and if fixes were asked for, it made them. -/
theorem checkFile_all_or_nothing (fs : FileSystem) (path : Path) (fix : Bool) :
    let report := (checkFile fix fs path).1
    let after := (checkFile fix fs path).2
    DifferOnlyAt path fs after ∧
    (after ≠ fs ∨ report.fixed = true →
      fix = true ∧ report.error = none ∧ report.fixed = true ∧ report.diagnostics ≠ [] ∧
        ∃ old new, fs.read path = .ok old ∧
          Diagnostic.applyFixes old report.diagnostics = .ok new ∧
          after.readBytes path = .ok new.toUTF8) ∧
    (report.error ≠ none → report.diagnostics = [] ∧ report.fixed = false ∧ after = fs) ∧
    (report.error = none → ∃ text file, fs.read path = .ok text ∧
      SourceFile.parse path text = .ok file ∧ Wrapping.analyze file = .ok report.diagnostics) ∧
    (fix = true → report.error = none → report.diagnostics ≠ [] → report.fixed = true) ∧
    (fix = false → after = fs ∧ report.fixed = false) := by
  intro report after
  have hends := ends_verdict fix path (fs.status path)
  have hreport : report = (verdict fix path (fs.status path)).1 := by
    simp only [report, checkFile_eq]
  have hafter : after = rewritten fs path (verdict fix path (fs.status path)).2 := by
    simp only [after, checkFile_eq]
  rw [read_eq]
  clear_value report after
  generalize verdict fix path (fs.status path) = v at hends hreport hafter
  cases hends with
  | failed error =>
    obtain rfl : after = fs := hafter
    subst hreport
    simp [Report.failed, DifferOnlyAt.refl]
  | @reported text file found htext hparse hfound hkept =>
    obtain rfl : after = fs := hafter
    subst hreport
    have hsilent : fix = true → found = [] := by rintro rfl; simpa using hkept
    exact ⟨.refl path after, by simp, by simp, fun _ => ⟨text, file, htext, hparse, hfound⟩,
      fun hfix _ hne => absurd (hsilent hfix) hne, by simp⟩
  | @rewritten text new file found htext hparse hfound hfix hne hnew hwrite =>
    subst hreport hafter
    exact ⟨differOnlyAt_rewritten hwrite,
      fun _ => ⟨hfix, rfl, rfl, hne, text, new, htext, hnew, readBytes_rewritten hwrite⟩, by simp,
      fun _ => ⟨text, file, htext, hparse, hfound⟩, fun _ _ _ => rfl, by simp [hfix]⟩

def oneSite : String := "import \"fmt\";if err!=nil\x7breturn ErrA\x7d"

def oneSiteFixed : String :=
  "import (\n\t\"fmt\"\n\t\"github.com/pkg/errors\"\n);if err!=nil\x7b" ++
    "return errors.Wrap(ErrA, err.Error())\x7d"

theorem exists_found_oneSite : ∃ file found, SourceFile.parse ⟨"a.go"⟩ oneSite = .ok file ∧
    Wrapping.analyze file = .ok found ∧ found ≠ [] ∧
    Diagnostic.applyFixes oneSite found = .ok oneSiteFixed := by
  obtain ⟨file, found, hparse, hfound, hedits⟩ := @Wrapping.exists_of_edits ⟨"a.go"⟩ oneSite
    [⟨⟨25, 36⟩, "return errors.Wrap(ErrA, err.Error())"⟩,
      ⟨⟨0, 12⟩, "import (\n\t\"fmt\"\n\t\"github.com/pkg/errors\"\n)"⟩] (by decide +kernel)
  refine ⟨file, found, hparse, hfound, ?_, ?_⟩
  · rintro rfl
    cases hedits
  · rw [Diagnostic.applyFixes, hedits]
    refine @Edit.applyAll_of_ordered _ _ _
      [⟨⟨0, 12⟩, "import (\n\t\"fmt\"\n\t\"github.com/pkg/errors\"\n)"⟩,
        ⟨⟨25, 36⟩, "return errors.Wrap(ErrA, err.Error())"⟩] ?_ ?_ ?_ ?_ ?_ <;> decide +kernel

def twoFiles : FileSystem where
  entries := [(["a.go"], .file oneSite.toUTF8 true), (["b.go"], .file ⟨#[0xff]⟩ true)]

theorem verdict_twoFiles : ∃ found : List Diagnostic,
    Diagnostic.applyFixes oneSite found = .ok oneSiteFixed ∧
    verdict true ⟨"a.go"⟩ (twoFiles.status ⟨"a.go"⟩) =
      ({ path := ⟨"a.go"⟩, diagnostics := found, fixed := true }, some oneSiteFixed) ∧
    verdict true ⟨"b.go"⟩ (twoFiles.status ⟨"b.go"⟩) =
      (.failed ⟨"b.go"⟩ (readError ⟨"b.go"⟩ .invalidText), none) := by
  obtain ⟨file, found, hparse, hfound, hne, hnew⟩ := exists_found_oneSite
  have hstatus : twoFiles.status ⟨"a.go"⟩ = .ok (.file oneSite.toUTF8 true) := rfl
  refine ⟨found, hnew, ?_, ?_⟩
  · refine verdict_eq_rewritten ?_ hparse hfound hne hnew ?_
    · rw [hstatus, textOf_file]
    · rw [hstatus]
      rfl
  · have htext : textOf (twoFiles.status ⟨"b.go"⟩) = .error .invalidText := by decide
    rw [verdict, htext]
    rfl

theorem checkFile_twoFiles :
    (checkFile true twoFiles ⟨"a.go"⟩).1.fixed = true ∧
      (checkFile true twoFiles ⟨"a.go"⟩).2.readBytes ⟨"a.go"⟩ = .ok oneSiteFixed.toUTF8 ∧
      FileSystem.entry? (checkFile true twoFiles ⟨"a.go"⟩).2 ["b.go"] =
        some (.file ⟨#[0xff]⟩ true) := by
  obtain ⟨found, hnew, hverdict, -⟩ := verdict_twoFiles
  have hreport : (checkFile true twoFiles ⟨"a.go"⟩).1 =
      { path := ⟨"a.go"⟩, diagnostics := found, fixed := true } := by
    rw [checkFile_eq, hverdict]
  have hfixed : (checkFile true twoFiles ⟨"a.go"⟩).1.fixed = true := by rw [hreport]
  have htext : twoFiles.read ⟨"a.go"⟩ = .ok oneSite := by
    have hstatus : twoFiles.status ⟨"a.go"⟩ = .ok (.file oneSite.toUTF8 true) := rfl
    rw [read_eq, hstatus, textOf_file]
  obtain ⟨hframe, hchanged, -⟩ := checkFile_all_or_nothing twoFiles ⟨"a.go"⟩ true
  obtain ⟨-, -, -, -, old, new, hold, happly, hcontent⟩ := hchanged (.inr hfixed)
  obtain rfl : oneSite = old := Except.ok.inj (htext.symm.trans hold)
  rw [hreport] at happly
  obtain rfl : oneSiteFixed = new := Except.ok.inj (hnew.symm.trans happly)
  exact ⟨hfixed, hcontent, hframe.elsewhere ["b.go"] (by decide)⟩

end SentinelWrap.Command
