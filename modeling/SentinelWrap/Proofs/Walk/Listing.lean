import SentinelWrap.Proofs.Path.Order
import SentinelWrap.Proofs.Walk.Descent

/-! The files that a directory stands for. They are listed in the strict order of their paths, and which
ones they are is told by their names and by what is on the way to them. -/
namespace SentinelWrap

namespace Text

private theorem join_append_singleton {separator : List Char} {pieces : List (List Char)}
    (h : pieces ≠ []) (last : List Char) :
    join separator (pieces ++ [last]) = join separator pieces ++ separator ++ last := by
  induction pieces with
  | nil => exact absurd rfl h
  | cons piece pieces ih =>
    cases pieces with
    | nil => rfl
    | cons next pieces =>
      have hrest := ih (by simp)
      simp only [List.cons_append, join] at hrest ⊢
      rw [hrest]
      simp

private theorem eq_singleton_of_join_eq_nil {separator : Char} {pieces : List (List Char)}
    (hne : pieces ≠ []) (h : join [separator] pieces = []) : pieces = [[]] := by
  obtain ⟨piece, pieces, rfl⟩ := List.exists_cons_of_ne_nil hne
  cases pieces with
  | nil => rw [show piece = [] from h]
  | cons next pieces => simp [join] at h

end Text

namespace Path

/-- The extension is what follows the last dot of the file name, if something stands before that dot. -/
theorem extension?_eq_some_iff {p : Path} {extension : String} (hdot : '.' ∉ extension.toList) :
    p.extension? = some extension ↔
      ∃ stem, stem ≠ "" ∧ p.fileName? = some (stem ++ "." ++ extension) := by
  rw [Path.extension?, Option.bind_eq_bind, Option.bind_eq_some_iff]
  constructor
  · rintro ⟨name, hname, h⟩
    have hjoin := Text.join_split '.' name.toList
    generalize Text.split (· == '.') name.toList = pieces at h hjoin
    split at h
    · cases h
    · cases h
    · cases h
    · next hone htwo =>
      obtain ⟨last, hlast, rfl⟩ := Option.map_eq_some_iff.mp h
      obtain ⟨front, rfl⟩ := List.getLast?_eq_some_iff.mp hlast
      have hfront : front ≠ [] := by
        rintro rfl
        exact hone last rfl
      refine ⟨String.ofList (Text.join ['.'] front), fun hnil => ?_, ?_⟩
      · have hsingle := Text.eq_singleton_of_join_eq_nil hfront (by simpa using hnil)
        exact htwo last (by rw [hsingle]; rfl)
      · rw [hname, Option.some_inj, ← String.toList_inj, ← hjoin, Text.join_append_singleton hfront]
        simp
  · rintro ⟨stem, hstem, hname⟩
    refine ⟨_, hname, ?_⟩
    have hpieces : Text.split (· == '.') (stem ++ "." ++ extension).toList =
        Text.split (· == '.') stem.toList ++ [extension.toList] := by
      rw [← Text.split_eq_singleton hdot, ← Text.split_append_cons]
      simp
    have hjoin := Text.join_split '.' stem.toList
    have hne : Text.split (· == '.') stem.toList ≠ [[]] := fun hnil => by
      rw [hnil] at hjoin
      exact hstem (String.toList_eq_nil_iff.mp hjoin.symm)
    have hnil := Text.split_ne_nil (· == '.') stem.toList
    rw [hpieces]
    generalize Text.split (· == '.') stem.toList = front at hne hnil
    have hlast : (front ++ [extension.toList]).getLast?.map String.ofList = some extension := by simp
    split
    · next heq => simp at heq
    · next heq => exact absurd (List.append_inj_left' (heq.trans (List.nil_append _).symm) rfl) hnil
    · next heq =>
      exact absurd (List.append_inj_left' (heq.trans (List.singleton_append).symm) rfl) hne
    · exact hlast

/-- The file name of a path below another one is the last of the names. -/
theorem fileName?_join {root : Path} {names : List String} (hroot : root.text.isEmpty = false)
    (hne : names ≠ []) (h : ∀ name ∈ names, IsFileName name) :
    (root.join ⟨"/".intercalate names⟩).fileName? = names.getLast? := by
  obtain ⟨front, last, rfl⟩ := names.eq_nil_or_concat'.resolve_left hne
  rw [fileName?, components_join hroot hne h]
  simp

end Path

namespace Walk
variable {fs : FileSystem} {selection : Selection} {root : Path} {place : Location}
  {names : List String}

theorem isSkipped_eq_false_iff {name : String} : isSkipped name = false ↔
    name ≠ "vendor" ∧ name ≠ "testdata" ∧ name.toList.head? ≠ some '.' ∧
      name.toList.head? ≠ some '_' := by
  simp [isSkipped, and_assoc]

theorem ofPath?_eq_go_iff {p : Path} :
    Language.ofPath? p = some .go ↔ ∃ stem, stem ≠ "" ∧ p.fileName? = some (stem ++ ".go") := by
  have hextension {e : String} : Language.ofExtension? e = some .go ↔ e = "go" := by
    unfold Language.ofExtension?
    split <;> simp_all
  have hgo := @Path.extension?_eq_some_iff p "go" (by decide)
  simp only [String.append_assoc] at hgo
  rw [Language.ofPath?, Option.bind_eq_some_iff]
  simp only [hextension, exists_eq_right, hgo]
  rfl

/-- No pattern matches, neither the whole path nor the path below the root. Texts that are no patterns
match nothing. -/
def Unmatched (patterns : List String) (path below : String) : Prop :=
  ∀ pattern ∈ patterns, ∀ glob, Glob.parse pattern = .ok glob →
    glob.isMatch path = false ∧ glob.isMatch below = false

theorem any_matchesPattern_eq_false_iff {patterns : List String} {path below : String} :
    patterns.any (matchesPattern path below) = false ↔ Unmatched patterns path below := by
  rw [List.any_eq_false]
  refine forall₂_congr fun pattern _ => ?_
  unfold matchesPattern
  split
  · next glob hglob => simp [hglob]
  · next fault hfault => simp [hfault]

theorem accepts_join_iff (hroot : root.text.isEmpty = false) (hne : names ≠ [])
    (h : ∀ name ∈ names, Path.IsFileName name) :
    selection.accepts (root.join ⟨"/".intercalate names⟩) ⟨"/".intercalate names⟩ = true ↔
      (∃ stem, stem ≠ "" ∧ names.getLast? = some (stem ++ ".go")) ∧
        (selection.includeTests = false →
          ∀ name ∈ names.getLast?, ¬ "_test.go".toList <:+ name.toList) ∧
        Unmatched selection.ignored (root.join ⟨"/".intercalate names⟩).text
          ("/".intercalate names) := by
  have hname := Path.fileName?_join hroot hne h
  have htest : isTest (root.join ⟨"/".intercalate names⟩) = false ↔
      ∀ name ∈ names.getLast?, ¬ "_test.go".toList <:+ name.toList := by
    rw [isTest, hname]
    cases names.getLast? <;> simp [← List.isSuffixOf_iff_suffix]
  rw [Selection.accepts, Bool.and_eq_true, Bool.and_eq_true, beq_iff_eq, ofPath?_eq_go_iff, hname,
    Bool.not_eq_true', any_matchesPattern_eq_false_iff, Bool.or_eq_true, Bool.not_eq_true', htest,
    and_assoc]
  cases selection.includeTests <;> simp

theorem filesBelow_perm (fs : FileSystem) (selection : Selection) (root : Path) (place : Location) :
    (filesBelow fs selection root place).Perm (listed fs selection root place) :=
  List.mergeSort_perm _ _

theorem mem_reached (htree : fs.IsTree) : names ∈ reached fs place ↔
    names ≠ [] ∧ fs.HasFile (place ++ names) ∧ Clear fs place names := by
  rw [reached, List.mem_filter, List.mem_filterMap, htree.hasFile_iff]
  constructor
  · rintro ⟨⟨⟨l, entry⟩, hmem, hbelow⟩, hreached⟩
    obtain ⟨hne, rfl, content, writable, rfl⟩ := below?_eq_some_iff.mp hbelow
    exact ⟨hne, ⟨content, writable, hmem⟩, (isReached_iff_clear hne).mp hreached⟩
  · rintro ⟨hne, ⟨content, writable, hmem⟩, hclear⟩
    exact ⟨⟨_, hmem, below?_eq_some_iff.mpr ⟨hne, rfl, content, writable, rfl⟩⟩,
      (isReached_iff_clear hne).mpr hclear⟩

theorem nodup_reached (htree : fs.IsTree) (place : Location) : (reached fs place).Nodup := by
  have hplaces : fs.entries.Pairwise fun a b => a.1 ≠ b.1 := List.pairwise_map.mp htree.distinct
  refine List.Pairwise.filter _ (List.pairwise_filterMap.mpr (hplaces.imp ?_))
  rintro ⟨l, entry⟩ ⟨l', entry'⟩ hne names hnames names' hnames' rfl
  exact hne ((below?_eq_some_iff.mp hnames).2.1.trans (below?_eq_some_iff.mp hnames').2.1.symm)

/-- The list of entries holds the files that a walk comes to. -/
theorem reached_perm_descend (htree : fs.IsTree) {levels : Nat}
    (hlevels : ∀ entry ∈ fs.entries, entry.1.length ≤ levels) (place : Location) :
    (reached fs place).Perm (descend fs levels place) := by
  refine (List.perm_ext_iff_of_nodup (nodup_reached htree place) (nodup_descend fs levels place)).mpr
    fun names => ?_
  rw [mem_reached htree, mem_descend htree]
  refine and_congr_right fun _ => ⟨fun h => ⟨?_, h⟩, And.right⟩
  obtain ⟨content, writable, hmem⟩ := htree.hasFile_iff.mp h.1
  have hlength := hlevels _ hmem
  rw [List.length_append] at hlength
  omega

/-- A file that has to be listed, by its names below the root. -/
structure Wanted (fs : FileSystem) (selection : Selection) (root : Path) (place : Location)
    (names : List String) : Prop where
  file : fs.HasFile (place ++ names)
  extension : ∃ stem, stem ≠ "" ∧ names.getLast? = some (stem ++ ".go")
  /-- No directory between the root and the file is one that is skipped. -/
  entered : ∀ name ∈ names.dropLast, name ≠ "vendor" ∧ name ≠ "testdata" ∧
    name.toList.head? ≠ some '.' ∧ name.toList.head? ≠ some '_'
  /-- Ignore files exclude neither a directory on the way nor the file. -/
  directory : ∀ above, above ≠ [] → above <+: names → above ≠ names →
    IgnoreFiles.isIgnored fs (place ++ above) true = false
  kept : IgnoreFiles.isIgnored fs (place ++ names) false = false
  test : selection.includeTests = false →
    ∀ name ∈ names.getLast?, ¬ "_test.go".toList <:+ name.toList
  unmatched : Unmatched selection.ignored (root.join ⟨"/".intercalate names⟩).text
    ("/".intercalate names)

theorem isFileName_of_hasFile (htree : fs.IsTree) (h : fs.HasFile (place ++ names)) :
    ∀ name ∈ names, Path.IsFileName name := by
  obtain ⟨content, writable, hmem⟩ := htree.hasFile_iff.mp h
  exact fun name hname => htree.named _ _ hmem name (List.mem_append_right _ hname)

theorem wanted_iff (htree : fs.IsTree) (hroot : root.text.isEmpty = false) :
    Wanted fs selection root place names ↔ names ∈ reached fs place ∧
      pick? selection root names = some (root.join ⟨"/".intercalate names⟩) := by
  rw [mem_reached htree, pick?, Option.ite_none_right_eq_some, and_iff_left rfl]
  constructor
  · intro h
    have hne : names ≠ [] := by
      rintro rfl
      obtain ⟨stem, -, hlast⟩ := h.extension
      cases hlast
    have hentered : ∀ name ∈ names.dropLast, isSkipped name = false := fun name hname =>
      isSkipped_eq_false_iff.mpr (h.entered name hname)
    exact ⟨⟨hne, h.file, hentered, h.directory, h.kept⟩,
      (accepts_join_iff hroot hne (isFileName_of_hasFile htree h.file)).mpr
        ⟨h.extension, h.test, h.unmatched⟩⟩
  · rintro ⟨⟨hne, hfile, hclear⟩, haccepts⟩
    obtain ⟨hextension, htest, hunmatched⟩ :=
      (accepts_join_iff hroot hne (isFileName_of_hasFile htree hfile)).mp haccepts
    exact ⟨hfile, hextension, fun name hname => isSkipped_eq_false_iff.mp (hclear.entered name hname),
      hclear.directory, hclear.file, htest, hunmatched⟩

theorem mem_listed (htree : fs.IsTree) (hroot : root.text.isEmpty = false) {p : Path} :
    p ∈ listed fs selection root place ↔
      ∃ names, p = root.join ⟨"/".intercalate names⟩ ∧ Wanted fs selection root place names := by
  rw [listed, List.mem_filterMap]
  refine exists_congr fun names => ?_
  rw [wanted_iff htree hroot]
  constructor
  · rintro ⟨hreached, hpick⟩
    obtain rfl := eq_join_of_pick? hpick
    exact ⟨rfl, hreached, hpick⟩
  · rintro ⟨rfl, hwanted⟩
    exact hwanted

/-- No two of the listed files have the same path. -/
theorem pairwise_listed (htree : fs.IsTree) (hroot : root.text.isEmpty = false)
    (selection : Selection) (place : Location) :
    (listed fs selection root place).Pairwise fun p q => p.same q = false := by
  rw [listed]
  refine List.pairwise_filterMap.mpr ((nodup_reached htree place).imp_of_mem ?_)
  intro a b ha hb hne p hp q hq
  obtain ⟨hane, hafile, -⟩ := (mem_reached htree).mp ha
  obtain ⟨hbne, hbfile, -⟩ := (mem_reached htree).mp hb
  obtain rfl := eq_join_of_pick? hp
  obtain rfl := eq_join_of_pick? hq
  rw [Path.same, beq_eq_false_iff_ne,
    Path.components_join hroot hane (isFileName_of_hasFile htree hafile),
    Path.components_join hroot hbne (isFileName_of_hasFile htree hbfile)]
  intro heq
  exact hne (List.map_injective_iff.mpr (fun _ _ => Path.Component.name.inj)
    (List.append_cancel_left heq))

theorem pairwise_filesBelow (htree : fs.IsTree) (hroot : root.text.isEmpty = false)
    (selection : Selection) (place : Location) :
    (filesBelow fs selection root place).Pairwise fun p q => p.compare q = .lt := by
  have hsorted : (filesBelow fs selection root place).Pairwise fun p q => p.le q = true :=
    List.pairwise_mergeSort (fun p q r => @Path.le_trans p q r) Path.le_total _
  have hsame : ∀ {p q : Path}, p.same q = false → q.same p = false := fun {p q} h => by
    exact (same_comm q p).trans h
  -- Being different does not depend on the order, so it is seen in the list of entries.
  have hother := ((filesBelow_perm fs selection root place).pairwise_iff hsame).mpr
    (pairwise_listed htree hroot selection place)
  exact (hsorted.and hother).imp fun h => Path.compare_eq_lt_of_le h.1 h.2

/-- A directory stands for the files below it that are wanted, in the strict order of their paths: the
files that a walk from directory to directory comes to and that are selected. -/
theorem files_directory (fs : FileSystem) (selection : Selection) (root : Path) (htree : fs.IsTree)
    (hroot : fs.status root = .ok .directory) :
    ∃ place paths, fs.resolve root = .ok place ∧ files fs selection root = .ok paths ∧
      paths.Pairwise (fun p q => p.compare q = .lt) ∧
      (∀ p, p ∈ paths ↔
        ∃ names, p = root.join ⟨"/".intercalate names⟩ ∧ Wanted fs selection root place names) ∧
      ∀ levels, (∀ entry ∈ fs.entries, entry.1.length ≤ levels) →
        paths.Perm ((descend fs levels place).filterMap (pick? selection root)) := by
  obtain ⟨place, hplace, -⟩ := FileSystem.exists_place_of_status hroot
  have htext : root.text.isEmpty = false := by
    by_contra hempty
    rw [FileSystem.resolve, if_pos (by simpa using hempty)] at hplace
    cases hplace
  have hperm := filesBelow_perm fs selection root place
  refine ⟨place, filesBelow fs selection root place, hplace, ?_, ?_, fun p => ?_,
    fun levels hlevels => ?_⟩
  · rw [files, hroot, hplace]
    rfl
  · exact pairwise_filesBelow htree htext selection place
  · rw [hperm.mem_iff, mem_listed htree htext]
  · rw [listed] at hperm
    exact hperm.trans ((reached_perm_descend htree hlevels place).filterMap _)

/-- Source files next to a test file, a generated file, a directory that is skipped and one that is
ignored. -/
def mixedTree : FileSystem where
  entries := [
    (["pkg", "d.go"], .file ByteArray.empty true),
    (["pkg", "e.pb.go"], .file ByteArray.empty true),
    (["a_test.go"], .file ByteArray.empty true),
    (["a.go"], .file ByteArray.empty true),
    (["vendor", "b.go"], .file ByteArray.empty true),
    ([".git"], .directory),
    ([".gitignore"], .file "gen\n".toUTF8 true),
    (["gen", "c.go"], .file ByteArray.empty true)]

/-- No test files and no generated ones. The second text is no pattern. -/
def mixedSelection : Selection where
  ignored := ["**/*.pb.go", "["]
  includeTests := false

theorem files_mixedTree : mixedTree.IsTree ∧ mixedTree.status ⟨"."⟩ = .ok .directory ∧
    files mixedTree mixedSelection ⟨"."⟩ = .ok [⟨"./a.go"⟩, ⟨"./pkg/d.go"⟩] := by
  have htree : mixedTree.IsTree := by decide +kernel
  have hroot : mixedTree.status ⟨"."⟩ = .ok .directory := by decide +kernel
  obtain ⟨place, paths, hplace, hfiles, hsorted, -, hperm⟩ :=
    files_directory mixedTree mixedSelection ⟨"."⟩ htree hroot
  obtain rfl : [] = place := Except.ok.inj hplace
  have hwalk : (descend mixedTree 2 []).filterMap (pick? mixedSelection ⟨"."⟩) =
      [⟨"./pkg/d.go"⟩, ⟨"./a.go"⟩] := by decide +kernel
  have hfound := hperm 2 (by decide +kernel)
  rw [hwalk] at hfound
  have hlt : [(⟨"./a.go"⟩ : Path), ⟨"./pkg/d.go"⟩].Pairwise fun p q => p.compare q = .lt := by
    decide +kernel
  have hasymm (p q : Path) (hpq : p.compare q = .lt) : ¬ q.compare p = .lt :=
    Std.OrientedCmp.not_lt_of_lt hpq
  have hpaths := (hfound.trans (.swap _ _ _)).eq_of_pairwise
    (fun p q _ _ hpq hqp => absurd hqp (hasymm p q hpq)) hsorted hlt
  exact ⟨htree, hroot, hfiles.trans (congrArg _ hpaths)⟩

end Walk
end SentinelWrap
