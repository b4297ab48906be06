import SentinelWrap.Proofs.Lists
import SentinelWrap.Proofs.Path.Components
import SentinelWrap.Walk

/-! Which of the files of a project may be listed twice. Repetitions are told by the components of
paths, so a file comes twice only if two roots lead to it from different stems. -/
namespace SentinelWrap.Walk

theorem same_comm (p q : Path) : p.same q = q.same p := by
  unfold Path.same
  exact Bool.beq_comm

theorem mem_of_mem_distinct {p : Path} {seen paths : List Path} (h : p ∈ distinct seen paths) :
    p ∈ paths ∧ ∀ q ∈ seen, p.same q = false := by
  induction paths generalizing seen with
  | nil => cases h
  | cons path paths ih =>
    rw [distinct] at h
    split_ifs at h with hseen
    · exact (ih h).imp_left (List.mem_cons_of_mem _)
    · rcases List.mem_cons.mp h with rfl | h
      · exact ⟨List.mem_cons_self, by simpa using hseen⟩
      · obtain ⟨hmem, hnew⟩ := ih h
        exact ⟨List.mem_cons_of_mem _ hmem, fun q hq => hnew q (List.mem_cons_of_mem _ hq)⟩

/-- No path is kept twice. -/
theorem pairwise_distinct (seen paths : List Path) :
    (distinct seen paths).Pairwise fun p q => p.same q = false := by
  induction paths generalizing seen with
  | nil => exact .nil
  | cons path paths ih =>
    rw [distinct]
    split_ifs
    · exact ih seen
    · refine List.pairwise_cons.mpr ⟨fun q hq => ?_, ih (path :: seen)⟩
      rw [same_comm]
      exact (mem_of_mem_distinct hq).2 path List.mem_cons_self

variable {fs : FileSystem} {selection : Selection} {roots paths : List Path}

/-- The files of a project are what the roots give, without repetitions. -/
theorem exists_of_projectFiles (h : projectFiles fs selection roots = .ok paths) :
    ∃ found, List.Forall₂ (fun root files' => files fs selection root = .ok files') roots found ∧
      paths = distinct [] found.flatten := by
  unfold projectFiles at h
  cases hfound : roots.mapM (files fs selection) with
  | error e => rw [hfound] at h; cases h
  | ok found =>
    rw [hfound] at h
    exact ⟨found, mapM_eq_ok hfound, (Except.ok.inj h).symm⟩

theorem exists_root_of_mem {p : Path} (h : projectFiles fs selection roots = .ok paths)
    (hp : p ∈ paths) : ∃ root ∈ roots, ∃ found, files fs selection root = .ok found ∧ p ∈ found := by
  obtain ⟨found, hall, rfl⟩ := exists_of_projectFiles h
  obtain ⟨ps, hps, hp⟩ := List.mem_flatten.mp (mem_of_mem_distinct hp).1
  obtain ⟨i, hi, rfl⟩ := List.mem_iff_getElem.mp hps
  have hi' : i < roots.length := hall.length_eq ▸ hi
  exact ⟨roots[i], List.getElem_mem hi', found[i], hall.get hi' hi, hp⟩

theorem below?_eq_some_iff {root place : Location} {entry : Entry} {names : List String} :
    below? root (place, entry) = some names ↔
      names ≠ [] ∧ place = root ++ names ∧ ∃ content writable, entry = .file content writable := by
  cases entry with
  | directory => simp [below?]
  | file content writable =>
    simp only [below?, Option.ite_none_right_eq_some, Bool.and_eq_true, List.isPrefixOf_iff_prefix,
      bne_iff_ne, Option.some_inj]
    constructor
    · rintro ⟨⟨⟨rest, rfl⟩, hne⟩, rfl⟩
      simpa [eq_comm] using hne
    · rintro ⟨hne, rfl, -⟩
      simp [hne]

theorem eq_join_of_pick? {p root : Path} {names : List String}
    (h : pick? selection root names = some p) : p = root.join ⟨"/".intercalate names⟩ := by
  simp only [pick?, Option.ite_none_right_eq_some, Option.some_inj] at h
  exact h.2.symm

theorem exists_names_of_mem_filesBelow {p path : Path} {root : Location}
    (h : p ∈ filesBelow fs selection path root) :
    ∃ place entry, (place, entry) ∈ fs.entries ∧ ∃ names, names ≠ [] ∧ names <:+ place ∧
      p = path.join ⟨"/".intercalate names⟩ := by
  rw [filesBelow, List.mem_mergeSort] at h
  simp only [listed, reached, List.mem_filterMap, List.mem_filter] at h
  obtain ⟨names, ⟨⟨⟨place, entry⟩, hentry, hbelow⟩, -⟩, hp⟩ := h
  obtain rfl := eq_join_of_pick? hp
  obtain ⟨hne, rfl, -⟩ := below?_eq_some_iff.mp hbelow
  exact ⟨_, entry, hentry, names, hne, List.suffix_append _ _, rfl⟩

/-- A file is listed by its root, or by names that are joined to the root. -/
theorem eq_or_exists_join {p root : Path} {found : List Path}
    (h : files fs selection root = .ok found) (hp : p ∈ found) :
    p = root ∨ root.text.isEmpty = false ∧ ∃ place entry, (place, entry) ∈ fs.entries ∧
      ∃ names, names ≠ [] ∧ names <:+ place ∧ p = root.join ⟨"/".intercalate names⟩ := by
  unfold files at h
  split at h
  · obtain rfl := Except.ok.inj h
    exact .inl (List.mem_singleton.mp hp)
  · next hresolve =>
    obtain rfl := Except.ok.inj h
    refine .inr ⟨?_, exists_names_of_mem_filesBelow hp⟩
    cases hempty : root.text.isEmpty with
    | false => rfl
    | true =>
      rw [FileSystem.resolve, if_pos hempty] at hresolve
      cases hresolve
  · cases h
  · cases h

/-- The places of a file system are made of what files can be called. -/
def Named (fs : FileSystem) : Prop :=
  ∀ place entry, (place, entry) ∈ fs.entries → ∀ name ∈ place, Path.IsFileName name

/-- A file is listed under the stem of its root. -/
theorem stem_eq_of_mem {p root : Path} {found : List Path} (hnamed : Named fs)
    (h : files fs selection root = .ok found) (hp : p ∈ found) : p.stem = root.stem := by
  rcases eq_or_exists_join h hp with rfl | ⟨hroot, place, entry, hentry, names, hne, hnames, rfl⟩
  · rfl
  · have hcomponents := Path.components_join hroot hne fun name hname =>
      hnamed place entry hentry name (hnames.subset hname)
    refine Path.stem_eq_of_components_eq hcomponents ?_
    simp [Path.Component.isName]

/-- Two of the listed paths lead to the same file only if they have different stems, and so have the
roots that they come from: one path is absolute and the other is not, one begins with `.` and the
other does not, or they differ up to the last `..` in them. -/
theorem projectFiles_coincide (fs : FileSystem) (selection : Selection) (roots paths : List Path)
    (h : projectFiles fs selection roots = .ok paths) :
    paths.Pairwise fun p q => fs.Coincide p q → p.stem ≠ q.stem ∧
      (Named fs → ∃ root ∈ roots, ∃ root' ∈ roots,
        root.stem = p.stem ∧ root'.stem = q.stem ∧ root.stem ≠ root'.stem) := by
  have hdistinct : paths.Pairwise fun p q => p.same q = false := by
    obtain ⟨found, -, rfl⟩ := exists_of_projectFiles h
    exact pairwise_distinct [] _
  refine hdistinct.imp_of_mem fun {p q} hp hq hne hcoincide => ?_
  have hstem : p.stem ≠ q.stem := fun heq => by
    rw [hcoincide.same heq] at hne
    cases hne
  refine ⟨hstem, fun hnamed => ?_⟩
  obtain ⟨root, hroot, found, hfound, hp⟩ := exists_root_of_mem h hp
  obtain ⟨root', hroot', found', hfound', hq⟩ := exists_root_of_mem h hq
  have hpstem := stem_eq_of_mem hnamed hfound hp
  have hqstem := stem_eq_of_mem hnamed hfound' hq
  exact ⟨root, hroot, root', hroot', hpstem.symm, hqstem.symm, by rwa [← hpstem, ← hqstem]⟩

def nestedFiles : FileSystem where
  entries := [(["a.go"], .file ByteArray.empty true), (["d", "b.go"], .file ByteArray.empty true)]

theorem files_nestedFiles :
    files nestedFiles {} ⟨"."⟩ = .ok [⟨"./a.go"⟩, ⟨"./d/b.go"⟩] ∧
      files nestedFiles {} ⟨"./d"⟩ = .ok [⟨"./d/b.go"⟩] ∧
      files nestedFiles {} ⟨"a.go"⟩ = .ok [⟨"a.go"⟩] := by
  have hsorted {path : Path} {root : Location} {paths : List Path}
      (hlisted : listed nestedFiles {} path root = paths)
      (hpaths : paths.Pairwise fun p q => p.le q = true) :
      filesBelow nestedFiles {} path root = paths := by
    rw [filesBelow, hlisted, List.mergeSort_of_pairwise hpaths]
  have hhere : filesBelow nestedFiles {} ⟨"."⟩ [] = [⟨"./a.go"⟩, ⟨"./d/b.go"⟩] :=
    hsorted (by decide +kernel) (by decide +kernel)
  have hbelow : filesBelow nestedFiles {} ⟨"./d"⟩ ["d"] = [⟨"./d/b.go"⟩] :=
    hsorted (by decide +kernel) (by decide +kernel)
  exact ⟨congrArg Except.ok hhere, congrArg Except.ok hbelow, rfl⟩

/-- Overlapping roots of one stem. -/
theorem not_coincide_nestedFiles :
    projectFiles nestedFiles {} [⟨"./d"⟩, ⟨"."⟩] = .ok [⟨"./d/b.go"⟩, ⟨"./a.go"⟩] ∧
      ¬ nestedFiles.Coincide ⟨"./d/b.go"⟩ ⟨"./a.go"⟩ := by
  have hfiles : projectFiles nestedFiles {} [⟨"./d"⟩, ⟨"."⟩] = .ok [⟨"./d/b.go"⟩, ⟨"./a.go"⟩] := by
    obtain ⟨hhere, hbelow, -⟩ := files_nestedFiles
    rw [projectFiles, List.mapM_cons, List.mapM_cons, hbelow, hhere]
    decide +kernel
  refine ⟨hfiles, fun hcoincide => ?_⟩
  have hpairs := projectFiles_coincide _ _ _ _ hfiles
  exact (List.rel_of_pairwise_cons hpairs (List.mem_singleton_self _) hcoincide).1 (by decide)

/-- A directory and a file in it that is spelled without the leading `.`: the file is listed twice. -/
theorem coincide_nestedFiles :
    projectFiles nestedFiles {} [⟨"."⟩, ⟨"a.go"⟩] =
        .ok [⟨"./a.go"⟩, ⟨"./d/b.go"⟩, ⟨"a.go"⟩] ∧
      nestedFiles.Coincide ⟨"./a.go"⟩ ⟨"a.go"⟩ := by
  refine ⟨?_, ["a.go"], rfl, rfl⟩
  obtain ⟨hhere, -, hfile⟩ := files_nestedFiles
  rw [projectFiles, List.mapM_cons, List.mapM_cons, hhere, hfile]
  decide +kernel

end SentinelWrap.Walk
