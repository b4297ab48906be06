import SentinelWrap.Proofs.Command.Schedule

/-! A check of many files, whatever the order in which they are read and written. Its reports are those
that the files give on their own, in the order of their paths. -/
namespace SentinelWrap.Command

def inOrder (reports : List Report) : List Report := reports.mergeSort fun a b => a.path.le b.path

def discovered (fs : FileSystem) (settings : CheckSettings) (config : Config) :
    Except Error (List Path) :=
  Walk.projectFiles fs (settings.selection config) settings.roots

/-- What a check may return and what file system it may leave, if all of its files may be at work at
the same time. Nothing is begun before all files are known. -/
inductive Executes (fs : FileSystem) (settings : CheckSettings) (config : Config) :
    Except Failure (List Report) → FileSystem → Prop
  | undiscovered {error : Error} (h : discovered fs settings config = .error error) :
    Executes fs settings config (.error (.during "discovering Go files" error)) fs
  | scheduled {paths : List Path} {pool : Pool} {reports : List Report}
    (h : discovered fs settings config = .ok paths)
    (run : Pool.Run settings.fix (.start fs paths) pool) (finished : pool.Finished reports) :
    Executes fs settings config (.ok (inOrder reports)) pool.fs

theorem runCheck_eq (fs : FileSystem) (settings : CheckSettings) (config : Config) :
    runCheck fs settings config =
      match discovered fs settings config with
      | .error error => .error (.during "discovering Go files" error)
      | .ok paths => .ok (inOrder (checkFiles settings.fix fs paths).1,
          (checkFiles settings.fix fs paths).2) := by
  unfold runCheck discovered
  cases Walk.projectFiles fs (settings.selection config) settings.roots <;> rfl

private theorem exists_discovered_error {fs : FileSystem} {settings : CheckSettings}
    {config : Config} {root : Path} {error : Error} (hroot : root ∈ settings.roots)
    (h : Walk.files fs (settings.selection config) root = .error error) :
    ∃ error, discovered fs settings config = .error error := by
  cases hfiles : discovered fs settings config with
  | error error => exact ⟨error, rfl⟩
  | ok paths =>
    obtain ⟨found, hall, -⟩ := Walk.exists_of_projectFiles hfiles
    obtain ⟨i, hi, rfl⟩ := List.mem_iff_getElem.mp hroot
    have hi' : i < found.length := hall.length_eq ▸ hi
    cases h.symm.trans (hall.get hi hi')

/-- The report on a file by what stands at its path when the check begins. -/
def reportOn (fix : Bool) (fs : FileSystem) (path : Path) : Report :=
  (verdict fix path (fs.status path)).1

/-- One file after the other, each is found as it was at the beginning. -/
theorem checkFiles_eq_map {fix : Bool} {fs : FileSystem} {paths : List Path}
    (h : paths.Pairwise fun p q => ¬ fs.Coincide p q) :
    (checkFiles fix fs paths).1 = paths.map (reportOn fix fs) := by
  induction paths generalizing fs with
  | nil => rfl
  | cons path paths ih =>
    rw [List.pairwise_cons] at h
    have hnew := @Task.permitted_verdict fix ⟨path, .waiting⟩ (fs.status path)
    change Permitted (fs.status path) (verdict fix path (fs.status path)).2 at hnew
    have hrest : ∀ p ∈ paths, reportOn fix (rewritten fs path (verdict fix path (fs.status path)).2) p =
        reportOn fix fs p := fun p hp => by
      rw [reportOn, status_rewritten hnew (h.1 p hp), reportOn]
    simp only [checkFiles, checkFile_eq, List.map_cons]
    rw [ih (h.2.imp fun hne => by rwa [coincide_rewritten hnew]), List.map_congr_left hrest]
    rfl

theorem perm_inOrder (reports : List Report) : (inOrder reports).Perm reports :=
  List.mergeSort_perm _ _

/-- Reports on different paths are in strictly increasing order. -/
theorem pairwise_inOrder {reports : List Report}
    (h : (reports.map Report.path).Pairwise fun p q => p.same q = false) :
    (inOrder reports).Pairwise fun a b => a.path.compare b.path = .lt := by
  have hsorted : (inOrder reports).Pairwise fun a b => a.path.le b.path = true := by
    unfold inOrder
    exact @List.pairwise_mergeSort Report (fun a b => a.path.le b.path)
      (fun a b c => @Path.le_trans a.path b.path c.path) (fun a b => Path.le_total a.path b.path) reports
  have hdistinct : (inOrder reports).Pairwise fun a b => a.path.same b.path = false := by
    have hsymm {a b : Report} (hab : a.path.same b.path = false) : b.path.same a.path = false :=
      (Walk.same_comm b.path a.path).trans hab
    exact (List.pairwise_map.mp h).perm (perm_inOrder reports).symm hsymm
  exact (hsorted.and hdistinct).imp fun ⟨hle, hne⟩ => Path.compare_eq_lt_of_le hle hne

/-- If the files below some root cannot be found, the check returns an error and has changed nothing.
Otherwise, if no two paths lead to the same file, every schedule ends as the check of one file after
the other does, with one report for each path. The reports are in strictly increasing order of the
paths, and each is the one that its path and what stood there at the beginning give. -/
theorem executes_iff_runCheck (fs : FileSystem) (settings : CheckSettings) (config : Config) :
    (∀ root ∈ settings.roots, ∀ error,
      Walk.files fs (settings.selection config) root = .error error →
      ∃ failure, runCheck fs settings config = .error failure ∧
        ∀ result after, Executes fs settings config result after ↔
          result = .error failure ∧ after = fs) ∧
    (∀ paths, Walk.projectFiles fs (settings.selection config) settings.roots = .ok paths →
      (paths.Pairwise fun p q => ¬ fs.Coincide p q) →
      ∃ reports fs', runCheck fs settings config = .ok (reports, fs') ∧
        (∀ result after, Executes fs settings config result after ↔
          result = .ok reports ∧ after = fs') ∧
        (reports.map Report.path).Perm paths ∧
        (reports.Pairwise fun a b => a.path.compare b.path = .lt) ∧
        ∀ report ∈ reports,
          report = (verdict settings.fix report.path (fs.status report.path)).1) := by
  refine ⟨fun root hroot error herror => ?_, fun paths hpaths hapart => ?_⟩
  · obtain ⟨error', hdiscovered⟩ := exists_discovered_error hroot herror
    refine ⟨.during "discovering Go files" error', by rw [runCheck_eq, hdiscovered], ?_⟩
    intro result after
    constructor
    · rintro (⟨h⟩ | ⟨h, -, -⟩)
      · obtain rfl := Except.error.inj (hdiscovered.symm.trans h)
        exact ⟨rfl, rfl⟩
      · cases hdiscovered.symm.trans h
    · rintro ⟨rfl, rfl⟩
      exact .undiscovered hdiscovered
  · have hdiscovered : discovered fs settings config = .ok paths := hpaths
    have hsound : Sound (Pool.start fs paths).fs (Pool.start fs paths).tasks := by
      refine ⟨?_, fun task htask => ?_⟩
      · simpa [Pool.start, Function.comp_def] using hapart
      · obtain ⟨path, -, rfl⟩ := List.mem_map.mp htask
        trivial
    have hends {pool : Pool} {reports : List Report}
        (hrun : Pool.Run settings.fix (.start fs paths) pool) (hfinished : pool.Finished reports) :
        checkFiles settings.fix fs paths = (reports, pool.fs) := by
      rw [← @completeAll_of_finished settings.fix pool reports hfinished,
        (Sound.completeAll_of_run hrun hsound).2]
      exact (completeAll_start _ _ _).symm
    have hreports := @checkFiles_eq_map settings.fix fs paths hapart
    have hsame : paths.map (Report.path ∘ reportOn settings.fix fs) = paths :=
      (List.map_congr_left fun path _ => path_verdict _ path _).trans (List.map_id paths)
    refine ⟨inOrder (checkFiles settings.fix fs paths).1, (checkFiles settings.fix fs paths).2,
      by rw [runCheck_eq, hdiscovered], fun result after => ⟨?_, ?_⟩, ?_, ?_, ?_⟩
    · rintro (⟨h⟩ | ⟨h, hrun, hfinished⟩)
      · cases hdiscovered.symm.trans h
      · obtain rfl := Except.ok.inj (hdiscovered.symm.trans h)
        rw [hends hrun hfinished]
        exact ⟨rfl, rfl⟩
    · rintro ⟨rfl, rfl⟩
      obtain ⟨pool, reports, hrun, hfinished⟩ :=
        Pool.exists_run_finished settings.fix (.start fs paths)
      rw [hends hrun hfinished]
      exact .scheduled hdiscovered hrun hfinished
    · refine ((perm_inOrder _).map _).trans ?_
      rw [hreports, List.map_map, hsame]
    · refine pairwise_inOrder ?_
      rw [hreports, List.map_map, hsame]
      obtain ⟨found, -, rfl⟩ := Walk.exists_of_projectFiles hpaths
      exact Walk.pairwise_distinct [] _
    · intro report hreport
      rw [(perm_inOrder _).mem_iff, hreports, List.mem_map] at hreport
      obtain ⟨path, -, rfl⟩ := hreport
      rw [reportOn, path_verdict]

/-- A file that fails is no obstacle to fixing the other one, in whatever order. -/
theorem executes_twoFiles :
    let settings : CheckSettings := { paths := [⟨"b.go"⟩, ⟨"a.go"⟩], fix := true }
    ∃ reports fs', runCheck twoFiles settings {} = .ok (reports, fs') ∧
      (∀ result after, Executes twoFiles settings {} result after ↔
        result = .ok reports ∧ after = fs') ∧
      reports.map Report.path = [⟨"a.go"⟩, ⟨"b.go"⟩] ∧
      reports.map Report.fixed = [true, false] := by
  intro settings
  have hpaths : Walk.projectFiles twoFiles (settings.selection {}) settings.roots =
      .ok [⟨"b.go"⟩, ⟨"a.go"⟩] := by decide +kernel
  have hapart : List.Pairwise (fun p q => ¬ twoFiles.Coincide p q) [⟨"b.go"⟩, ⟨"a.go"⟩] := by
    refine List.pairwise_pair.mpr ?_
    rintro ⟨place, hb, ha⟩
    obtain rfl : ["b.go"] = place := Except.ok.inj hb
    exact absurd (Except.ok.inj ha) (by decide)
  obtain ⟨reports, fs', hrun, hall, hperm, hsorted, hreports⟩ :=
    (executes_iff_runCheck twoFiles settings {}).2 _ hpaths hapart
  refine ⟨reports, fs', hrun, hall, ?_⟩
  obtain ⟨found, -, ha, hb⟩ := verdict_twoFiles
  match reports, hperm.length_eq with
  | [first, second], _ =>
    have hmem {report : Report} (h : report ∈ [first, second]) :
        report.path = ⟨"b.go"⟩ ∨ report.path = ⟨"a.go"⟩ := by
      simpa using hperm.subset (List.mem_map_of_mem h)
    have hlt : first.path.compare second.path = .lt :=
      List.rel_of_pairwise_cons hsorted (List.mem_singleton_self _)
    have hfirst := hreports first (by simp)
    have hsecond := hreports second (by simp)
    rcases hmem (by simp : first ∈ _) with h1 | h1 <;>
      rcases hmem (by simp : second ∈ _) with h2 | h2 <;> rw [h1, h2] at hlt
    case inr.inl =>
      rw [h1, ha] at hfirst
      rw [h2, hb] at hsecond
      rw [hfirst, hsecond]
      exact ⟨rfl, rfl⟩
    all_goals exact absurd hlt (by decide)

end SentinelWrap.Command
