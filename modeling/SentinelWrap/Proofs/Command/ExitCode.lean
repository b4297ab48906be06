import SentinelWrap.Proofs.Command.RunCheck

/-! The exit code of a check, by what stood in the files when it began. The code is worked out from
the reports; what a report says is traced back to the step at which the check of its file came to an
end. -/
namespace SentinelWrap

namespace Report
variable {fix : Bool} {reports : List Report}

theorem failures_pos_iff : 0 < failures reports ↔ ∃ report ∈ reports, report.error ≠ none := by
  simp [failures, List.countP_pos_iff, Option.isSome_iff_ne_none]

private theorem findings_pos_iff :
    0 < findings reports ↔ ∃ report ∈ reports, report.diagnostics ≠ [] := by
  rw [findings, List.length_pos_iff, ne_eq, List.flatMap_eq_nil_iff]
  push Not
  rfl

theorem exitCode_eq_one_iff :
    exitCode fix reports = 1 ↔ ∃ report ∈ reports, report.error ≠ none := by
  rw [← failures_pos_iff, exitCode]
  split_ifs <;> simp_all

theorem exitCode_eq_three_iff :
    exitCode fix reports = 3 ↔ (∀ report ∈ reports, report.error = none) ∧ fix = false ∧
      ∃ report ∈ reports, report.diagnostics ≠ [] := by
  have hnone : (∀ report ∈ reports, report.error = none) ↔ ¬ 0 < failures reports := by
    rw [failures_pos_iff]
    push Not
    rfl
  rw [hnone, ← findings_pos_iff, exitCode]
  split_ifs <;> simp_all

theorem exitCode_eq_zero_iff :
    exitCode fix reports = 0 ↔ exitCode fix reports ≠ 1 ∧ exitCode fix reports ≠ 3 := by
  unfold exitCode
  split_ifs <;> simp

end Report

namespace Command
open Wrapping (analyze qualifyingReturns)

variable {fs : FileSystem} {fix : Bool} {path : Path}

/-- The file at a path can be read and parsed, and this is what it holds. -/
def Holds (fs : FileSystem) (path : Path) (file : SourceFile) : Prop :=
  ∃ text, fs.read path = .ok text ∧ SourceFile.parse path text = .ok file

def HasSite (fs : FileSystem) (path : Path) : Prop :=
  ∃ file, Holds fs path file ∧ qualifyingReturns file.root ≠ []

/-- What keeps a file from being analyzed or, if it is to be fixed, from being fixed. -/
inductive Fails (fix : Bool) (fs : FileSystem) (path : Path) : Prop
  | unreadable {cause : IoError} (h : fs.read path = .error cause)
  | noFrontEnd (h : Language.ofPath? path = none)
  | rejected {text : String} {fault : Go.Unexpected} (hread : fs.read path = .ok text)
    (hgo : Language.ofPath? path = some .go) (h : Go.parse text.toList = .error fault)
  | noImport {file : SourceFile} (hfile : Holds fs path file)
    (hsite : qualifyingReturns file.root ≠ [])
    (h : ∀ decl ∈ file.root.children, decl.kind ≠ .importGroup)
  | unfixable {file : SourceFile} {found : List Diagnostic} {error : Error} (hfix : fix = true)
    (hfile : Holds fs path file) (hsite : qualifyingReturns file.root ≠ [])
    (hfound : analyze file = .ok found) (h : Diagnostic.applyFixes file.text found = .error error)
  | unwritable {file : SourceFile} {found : List Diagnostic} {new : String} {cause : IoError}
    (hfix : fix = true) (hfile : Holds fs path file) (hsite : qualifyingReturns file.root ≠ [])
    (hfound : analyze file = .ok found)
    (hnew : Diagnostic.applyFixes file.text found = .ok new) (h : fs.write path new = .error cause)

private theorem parse_eq_error {text : String} {error : Error}
    (h : SourceFile.parse path text = .error error) :
    Language.ofPath? path = none ∨
      ∃ fault, Language.ofPath? path = some .go ∧ Go.parse text.toList = .error fault := by
  unfold SourceFile.parse at h
  split at h
  · next hnone => exact .inl hnone
  · next hgo =>
    cases hparse : Go.parse text.toList with
    | ok root => rw [hparse] at h; cases h
    | error fault => exact .inr ⟨fault, hgo, rfl⟩

/-- Of a file that was parsed, there is nothing to report if it has no qualifying return, and to report
those it has takes an import declaration. -/
theorem analyze_of_parse {text : String} {file : SourceFile}
    (h : SourceFile.parse path text = .ok file) :
    (∀ found, analyze file = .ok found → (found = [] ↔ qualifyingReturns file.root = [])) ∧
      ((∃ error, analyze file = .error error) ↔ qualifyingReturns file.root ≠ [] ∧
        ∀ decl ∈ file.root.children, decl.kind ≠ .importGroup) := by
  obtain ⟨rfl, hroot⟩ := Wrapping.parse_eq_ok h
  obtain ⟨span, package, imports, decls, hroot, -, hplaced, honly⟩ := Go.parse_placed hroot
  have hchildren : file.root.children = decls := by rw [hroot]; rfl
  rw [Wrapping.analyze_file file span package imports decls hroot honly, hchildren]
  unfold Wrapping.findings
  cases hreturns : qualifyingReturns file.root with
  | nil => simp
  | cons first rest =>
    dsimp only
    cases hfind : decls.find? (·.kind == .importGroup) with
    | none => simpa using hfind
    | some decl =>
      have hkind : decl.kind = .importGroup := by simpa using List.find?_some hfind
      have hmem := List.mem_of_find?_eq_some hfind
      obtain ⟨s, hs⟩ := hplaced decl hmem decl decl.self_mem_preorder
      cases decl with
      | importGroup place parenthesized specs =>
        obtain rfl : place = some s := hs.span_eq
        simp only [List.map_cons, List.cons_append, Except.ok.injEq, reduceCtorEq, exists_false,
          ne_eq, not_false_eq_true, true_and, false_iff, not_forall]
        exact ⟨fun found hfound => by simp [← hfound], _, hmem, by simp [Node.kind]⟩
      | _ => cases hkind

theorem verdict_eq_reported {status : Except IoError Entry} {text : String} {file : SourceFile}
    {found : List Diagnostic} (htext : textOf status = .ok text)
    (hparse : SourceFile.parse path text = .ok file) (hfound : analyze file = .ok found)
    (hkept : fix = false ∨ found = []) :
    verdict fix path status = ({ path, diagnostics := found }, none) := by
  have hexamine : examineText path fix text = .ok (.done { path, diagnostics := found }) := by
    rcases hkept with rfl | rfl <;>
      simp [examineText, hparse, hfound, bind, Except.bind, pure, Except.pure]
  simp [verdict, examine, htext, hexamine]

/-- A file that was read can be written exactly if it may be. -/
theorem write_eq_error_iff {text new : String} (hread : fs.read path = .ok text) :
    (∃ cause, fs.write path new = .error cause) ↔ mayWrite (fs.status path) = false := by
  rw [read_eq] at hread
  cases hstatus : fs.status path with
  | error cause => rw [hstatus] at hread; cases hread
  | ok entry =>
    cases entry with
    | directory => rw [hstatus] at hread; cases hread
    | file content writable =>
      obtain ⟨place, hplace, hentry⟩ := FileSystem.exists_place_of_status hstatus
      rw [FileSystem.write_of_file hplace hentry]
      cases writable <;> simp [mayWrite]

/-- A check goes through if nothing keeps it from going through, and then it reports the findings. -/
theorem verdict_of_not_fails (h : ¬ Fails fix fs path) :
    ∃ file found, Holds fs path file ∧ analyze file = .ok found ∧
      (verdict fix path (fs.status path) = ({ path, diagnostics := found }, none) ∧
          (fix = false ∨ found = []) ∨
        ∃ new, fix = true ∧ found ≠ [] ∧ Diagnostic.applyFixes file.text found = .ok new ∧
          mayWrite (fs.status path) = true ∧
          verdict fix path (fs.status path) =
            ({ path, diagnostics := found, fixed := true }, some new)) := by
  cases hread : fs.read path with
  | error cause => exact absurd (.unreadable hread) h
  | ok text =>
    have htext : textOf (fs.status path) = .ok text := by rw [← read_eq, hread]
    cases hparse : SourceFile.parse path text with
    | error error =>
      rcases parse_eq_error hparse with hnone | ⟨fault, hgo, hfault⟩
      · exact absurd (.noFrontEnd hnone) h
      · exact absurd (.rejected hread hgo hfault) h
    | ok file =>
      have hfile : Holds fs path file := ⟨text, hread, hparse⟩
      obtain ⟨hnil, herror⟩ := analyze_of_parse hparse
      obtain ⟨rfl, -⟩ := Wrapping.parse_eq_ok hparse
      cases hfound : analyze file with
      | error error =>
        obtain ⟨hsite, hno⟩ := herror.mp ⟨error, hfound⟩
        exact absurd (.noImport hfile hsite hno) h
      | ok found =>
        refine ⟨file, found, hfile, hfound, ?_⟩
        by_cases hkept : fix = false ∨ found = []
        · exact .inl ⟨verdict_eq_reported htext hparse hfound hkept, hkept⟩
        obtain ⟨hfix, hne⟩ := not_or.mp hkept
        obtain rfl : fix = true := by simpa using hfix
        have hsite : qualifyingReturns file.root ≠ [] := mt (hnil found hfound).mpr hne
        cases hnew : Diagnostic.applyFixes file.text found with
        | error error => exact absurd (.unfixable rfl hfile hsite hfound hnew) h
        | ok new =>
          cases hwrite : mayWrite (fs.status path) with
          | false =>
            obtain ⟨cause, hcause⟩ := (@write_eq_error_iff fs path file.text new hread).mpr hwrite
            exact absurd (.unwritable rfl hfile hsite hfound hnew hcause) h
          | true =>
            exact .inr ⟨new, rfl, hne, rfl, rfl,
              verdict_eq_rewritten htext hparse hfound hne hnew hwrite⟩

theorem Holds.unique {file file' : SourceFile} (h : Holds fs path file) (h' : Holds fs path file') :
    file = file' := by
  obtain ⟨text, hread, hparse⟩ := h
  obtain ⟨text', hread', hparse'⟩ := h'
  obtain rfl : text = text' := Except.ok.inj (hread.symm.trans hread')
  exact Except.ok.inj (hparse.symm.trans hparse')

/-- What the check of a file comes to if it does not fail shows that nothing kept it. -/
theorem not_fails_of_holds {file : SourceFile} {found : List Diagnostic} (hfile : Holds fs path file)
    (hfound : analyze file = .ok found)
    (hdone : fix = true → found ≠ [] → mayWrite (fs.status path) = true ∧
      ∃ new, Diagnostic.applyFixes file.text found = .ok new) : ¬ Fails fix fs path := by
  obtain ⟨text, hread, hparse⟩ := id hfile
  obtain ⟨hnil, herror⟩ := analyze_of_parse hparse
  obtain ⟨hgo, -⟩ := Wrapping.parse_eq_ok_iff.mp hparse
  rintro (h | h | ⟨hread', -, h⟩ | ⟨hfile', hsite, h⟩ | ⟨hfix, hfile', hsite, hfound', h⟩ |
    ⟨hfix, hfile', hsite, hfound', hnew, h⟩)
  · cases hread.symm.trans h
  · cases hgo.symm.trans h
  · obtain rfl := Except.ok.inj (hread.symm.trans hread')
    cases h.symm.trans (Wrapping.parse_eq_ok hparse).2
  · obtain rfl := hfile.unique hfile'
    obtain ⟨error, herror⟩ := herror.mpr ⟨hsite, h⟩
    cases hfound.symm.trans herror
  · obtain rfl := hfile.unique hfile'
    obtain rfl := Except.ok.inj (hfound.symm.trans hfound')
    obtain ⟨-, new, hnew⟩ := hdone hfix (mt (hnil found hfound).mp hsite)
    cases h.symm.trans hnew
  · obtain rfl := hfile.unique hfile'
    obtain rfl := Except.ok.inj (hfound.symm.trans hfound')
    have hwrite := (write_eq_error_iff hread).mp ⟨_, h⟩
    rw [(hdone hfix (mt (hnil found hfound).mp hsite)).1] at hwrite
    cases hwrite

theorem error_reportOn (fix : Bool) (fs : FileSystem) (path : Path) :
    (reportOn fix fs path).error = none ↔ ¬ Fails fix fs path := by
  constructor
  · intro h
    have hends := ends_verdict fix path (fs.status path)
    rw [reportOn] at h
    generalize verdict fix path (fs.status path) = v at h hends
    cases hends with
    | failed error => cases h
    | reported htext hparse hfound hkept =>
      refine not_fails_of_holds ⟨_, (read_eq fs path).trans htext, hparse⟩ hfound fun hfix hne => ?_
      rcases hkept with rfl | hnil
      · cases hfix
      · exact absurd hnil hne
    | rewritten htext hparse hfound hfix hne hnew hwrite =>
      refine not_fails_of_holds ⟨_, (read_eq fs path).trans htext, hparse⟩ hfound fun _ _ => ?_
      rw [(Wrapping.parse_eq_ok hparse).1]
      exact ⟨hwrite, _, hnew⟩
  · intro h
    obtain ⟨file, found, -, -, ⟨hverdict, -⟩ | ⟨new, -, -, -, -, hverdict⟩⟩ := verdict_of_not_fails h
    · rw [reportOn, hverdict]
    · rw [reportOn, hverdict]

/-- A report on a file that did not fail has findings exactly if the file has a qualifying return. -/
theorem diagnostics_reportOn (h : ¬ Fails fix fs path) :
    (reportOn fix fs path).diagnostics ≠ [] ↔ HasSite fs path := by
  obtain ⟨file, found, hfile, hfound, hverdict⟩ := verdict_of_not_fails h
  have hdiagnostics : (reportOn fix fs path).diagnostics = found := by
    rcases hverdict with ⟨hverdict, -⟩ | ⟨new, -, -, -, -, hverdict⟩ <;> rw [reportOn, hverdict]
  obtain ⟨text, -, hparse⟩ := id hfile
  rw [hdiagnostics, ne_eq, (analyze_of_parse hparse).1 found hfound]
  constructor
  · exact fun hsite => ⟨file, hfile, hsite⟩
  · rintro ⟨file', hfile', hsite⟩
    rwa [hfile.unique hfile']

/-- What stands at a path after its file was given a new text, or none. -/
def statusAfter (status : Except IoError Entry) : Option String → Except IoError Entry
  | none => status
  | some text => .ok (.file text.toUTF8 true)

private theorem status_rewritten_self {new : Option String} (h : Permitted (fs.status path) new) :
    (rewritten fs path new).status path = statusAfter (fs.status path) new := by
  cases new with
  | none => rfl
  | some text =>
    obtain ⟨place, hplace, hfile, heq⟩ := exists_overwrite h
    rw [heq, FileSystem.status_overwrite_self hfile hplace]
    rfl

theorem permitted_verdict (fix : Bool) (path : Path) (status : Except IoError Entry) :
    Permitted status (verdict fix path status).2 :=
  @Task.permitted_verdict fix ⟨path, .waiting⟩ status

private theorem status_checkFiles_of_apart {paths : List Path}
    (h : ∀ p ∈ paths, ¬ fs.Coincide p path) :
    (checkFiles fix fs paths).2.status path = fs.status path := by
  induction paths generalizing fs with
  | nil => rfl
  | cons p paths ih =>
    obtain ⟨hp, hpaths⟩ := List.forall_mem_cons.mp h
    have hpermitted := permitted_verdict fix p (fs.status p)
    simp only [checkFiles, checkFile_eq]
    rw [ih fun q hq => by rw [coincide_rewritten hpermitted]; exact hpaths q hq,
      status_rewritten hpermitted hp]

/-- Of different files, each is left as its own check leaves it. -/
theorem status_checkFiles {paths : List Path} (h : paths.Pairwise fun p q => ¬ fs.Coincide p q)
    (hpath : path ∈ paths) :
    (checkFiles fix fs paths).2.status path =
      statusAfter (fs.status path) (verdict fix path (fs.status path)).2 := by
  induction paths generalizing fs with
  | nil => cases hpath
  | cons p paths ih =>
    obtain ⟨hp, hpaths⟩ := List.pairwise_cons.mp h
    have hpermitted := permitted_verdict fix p (fs.status p)
    simp only [checkFiles, checkFile_eq]
    rcases List.mem_cons.mp hpath with rfl | hmem
    · rw [status_checkFiles_of_apart, status_rewritten_self hpermitted]
      intro q hq
      rw [coincide_rewritten hpermitted, coincide_comm]
      exact hp q hq
    · rw [ih (hpaths.imp fun hne => by rwa [coincide_rewritten hpermitted]) hmem,
        status_rewritten hpermitted (hp path hmem)]

theorem mem_inOrder_checkFiles {paths : List Path}
    (h : paths.Pairwise fun p q => ¬ fs.Coincide p q) {report : Report} :
    report ∈ inOrder (checkFiles fix fs paths).1 ↔ ∃ path ∈ paths, reportOn fix fs path = report := by
  rw [(perm_inOrder _).mem_iff, checkFiles_eq_map h, List.mem_map]

/-- The exit code is 1 if and only if some file fails. It is 3 if no file fails, nothing is to be
fixed and some file has a qualifying return, and 0 otherwise. When it is 0 and fixes were asked for,
every file with a qualifying return holds its fixed text, and every other file is as it was. -/
theorem exitCode_runCheck (fs : FileSystem) (settings : CheckSettings) (config : Config)
    (paths : List Path)
    (hpaths : Walk.projectFiles fs (settings.selection config) settings.roots = .ok paths)
    (hapart : paths.Pairwise fun p q => ¬ fs.Coincide p q) :
    ∃ reports after, runCheck fs settings config = .ok (reports, after) ∧
      let code := Report.exitCode settings.fix reports
      (code = 1 ↔ ∃ path ∈ paths, Fails settings.fix fs path) ∧
      (code = 3 ↔ (∀ path ∈ paths, ¬ Fails settings.fix fs path) ∧ settings.fix = false ∧
        ∃ path ∈ paths, HasSite fs path) ∧
      (code = 0 ↔ code ≠ 1 ∧ code ≠ 3) ∧
      (code = 0 → settings.fix = true → ∀ path ∈ paths,
        (HasSite fs path → ∃ file found fixed, Holds fs path file ∧ analyze file = .ok found ∧
          Diagnostic.applyFixes file.text found = .ok fixed ∧
          after.readBytes path = .ok fixed.toUTF8) ∧
        (¬ HasSite fs path → after.status path = fs.status path)) := by
  have hrun : runCheck fs settings config = .ok (inOrder (checkFiles settings.fix fs paths).1,
      (checkFiles settings.fix fs paths).2) := by
    have hdiscovered : discovered fs settings config = .ok paths := hpaths
    rw [runCheck_eq, hdiscovered]
  refine ⟨_, _, hrun, ?_⟩
  intro code
  have hone : code = 1 ↔ ∃ path ∈ paths, Fails settings.fix fs path := by
    simp only [code, Report.exitCode_eq_one_iff, mem_inOrder_checkFiles hapart]
    constructor
    · rintro ⟨-, ⟨path, hpath, rfl⟩, herror⟩
      exact ⟨path, hpath, by_contra fun h => herror ((error_reportOn _ _ _).mpr h)⟩
    · rintro ⟨path, hpath, hfails⟩
      exact ⟨_, ⟨path, hpath, rfl⟩, fun h => (error_reportOn _ _ _).mp h hfails⟩
  have hthree : code = 3 ↔ (∀ path ∈ paths, ¬ Fails settings.fix fs path) ∧ settings.fix = false ∧
      ∃ path ∈ paths, HasSite fs path := by
    simp only [code, Report.exitCode_eq_three_iff, mem_inOrder_checkFiles hapart]
    have hnone : (∀ report, (∃ path ∈ paths, reportOn settings.fix fs path = report) →
        report.error = none) ↔ ∀ path ∈ paths, ¬ Fails settings.fix fs path := by
      simp only [forall_exists_index, and_imp, forall_apply_eq_imp_iff₂, error_reportOn]
    rw [hnone]
    refine and_congr_right fun hfails => and_congr_right fun _ => ?_
    constructor
    · rintro ⟨-, ⟨path, hpath, rfl⟩, hne⟩
      exact ⟨path, hpath, (diagnostics_reportOn (hfails path hpath)).mp hne⟩
    · rintro ⟨path, hpath, hsite⟩
      exact ⟨_, ⟨path, hpath, rfl⟩, (diagnostics_reportOn (hfails path hpath)).mpr hsite⟩
  refine ⟨hone, hthree, Report.exitCode_eq_zero_iff, fun hzero hfix path hpath => ?_⟩
  have hfails : ¬ Fails settings.fix fs path := fun h => by
    rw [hone.mpr ⟨path, hpath, h⟩] at hzero
    cases hzero
  have hstatus := @status_checkFiles fs settings.fix path paths hapart hpath
  have hsite := diagnostics_reportOn hfails
  obtain ⟨file, found, hfile, hfound, ⟨hverdict, hkept⟩ | ⟨new, -, hne, hnew, -, hverdict⟩⟩ :=
    verdict_of_not_fails hfails
  · have hnot : ¬ HasSite fs path := by
      rw [← hsite, reportOn, hverdict, not_not]
      exact hkept.resolve_left (by simp [hfix])
    rw [hverdict] at hstatus
    exact ⟨fun h => absurd h hnot, fun _ => hstatus⟩
  · have hhas : HasSite fs path := by
      rw [← hsite, reportOn, hverdict]
      exact hne
    rw [hverdict] at hstatus
    refine ⟨fun _ => ⟨file, found, new, hfile, hfound, hnew, ?_⟩, fun h => absurd hhas h⟩
    rw [FileSystem.readBytes, hstatus]
    rfl

/-- The file with the site is fixed on its own; together with the file that is no text, the check
fails. -/
theorem exitCode_twoFiles :
    (∃ reports after, runCheck twoFiles { paths := [⟨"a.go"⟩], fix := true } {} = .ok (reports, after) ∧
      Report.exitCode true reports = 0 ∧ after.readBytes ⟨"a.go"⟩ = .ok oneSiteFixed.toUTF8) ∧
    ∃ reports after, runCheck twoFiles { paths := [⟨"a.go"⟩, ⟨"b.go"⟩] } {} = .ok (reports, after) ∧
      Report.exitCode false reports = 1 := by
  obtain ⟨file, found, hparse, hfound, hne, hnew⟩ := exists_found_oneSite
  have hread : twoFiles.read ⟨"a.go"⟩ = .ok oneSite := by
    have hstatus : twoFiles.status ⟨"a.go"⟩ = .ok (.file oneSite.toUTF8 true) := rfl
    rw [read_eq, hstatus, textOf_file]
  have hfile : Holds twoFiles ⟨"a.go"⟩ file := ⟨_, hread, hparse⟩
  have hnew' : Diagnostic.applyFixes file.text found = .ok oneSiteFixed := by
    rw [(Wrapping.parse_eq_ok hparse).1, hnew]
  constructor
  · obtain ⟨reports, after, hrun, hone, hthree, hzero, hfixed⟩ := exitCode_runCheck twoFiles
      { paths := [⟨"a.go"⟩], fix := true } {} [⟨"a.go"⟩] (by decide +kernel) (by simp)
    have hcode : Report.exitCode true reports = 0 := by
      refine hzero.mpr ⟨fun h => ?_, fun h => by cases (hthree.mp h).2.1⟩
      obtain ⟨path, hpath, hfails⟩ := hone.mp h
      obtain rfl := List.mem_singleton.mp hpath
      exact not_fails_of_holds hfile hfound (fun _ _ => ⟨rfl, _, hnew'⟩) hfails
    refine ⟨reports, after, hrun, hcode, ?_⟩
    have hsite : HasSite twoFiles ⟨"a.go"⟩ :=
      ⟨file, hfile, mt ((analyze_of_parse hparse).1 found hfound).mpr hne⟩
    obtain ⟨file', found', fixed, hfile', hfound', happly, hcontent⟩ :=
      (hfixed hcode rfl _ (List.mem_singleton_self _)).1 hsite
    obtain rfl := hfile.unique hfile'
    obtain rfl := Except.ok.inj (hfound.symm.trans hfound')
    obtain rfl := Except.ok.inj (hnew'.symm.trans happly)
    exact hcontent
  · have hapart : List.Pairwise (fun p q => ¬ twoFiles.Coincide p q) [⟨"a.go"⟩, ⟨"b.go"⟩] := by
      refine List.pairwise_pair.mpr ?_
      rintro ⟨place, ha, hb⟩
      obtain rfl : ["a.go"] = place := Except.ok.inj ha
      exact absurd (Except.ok.inj hb) (by decide)
    obtain ⟨reports, after, hrun, hone, -⟩ := exitCode_runCheck twoFiles
      { paths := [⟨"a.go"⟩, ⟨"b.go"⟩] } {} [⟨"a.go"⟩, ⟨"b.go"⟩] (by decide +kernel) hapart
    have hunreadable : twoFiles.read ⟨"b.go"⟩ = .error .invalidText := by
      rw [read_eq]
      decide
    exact ⟨reports, after, hrun, hone.mpr ⟨⟨"b.go"⟩, by simp, .unreadable hunreadable⟩⟩

end Command
end SentinelWrap
