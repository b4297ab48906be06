import Mathlib.Data.List.Dedup
import Mathlib.Data.List.Flatten
import SentinelWrap.Proofs.FileSystem.Overwrite
import SentinelWrap.Proofs.Walk.Coincidence

/-! The walk from directory to directory. It goes down the tree of files and turns back at directories
that are skipped or ignored. The files it comes to are the ones that the list of entries holds and no
directory on the way keeps from being reached, each of them once. -/
namespace SentinelWrap

namespace FileSystem

/-- The entries make a tree: all names are names of files, no place has two entries, and nothing stands
below a file. -/
structure IsTree (fs : FileSystem) : Prop where
  named : Walk.Named fs
  distinct : (fs.entries.map Prod.fst).Nodup
  leaf : ∀ file ∈ fs.entries, file.2 ≠ .directory →
    ∀ entry ∈ fs.entries, file.1 <+: entry.1 → entry.1 = file.1

instance (fs : FileSystem) : Decidable fs.IsTree :=
  decidable_of_iff ((∀ entry ∈ fs.entries, ∀ name ∈ entry.1, Path.IsFileName name) ∧
      (fs.entries.map Prod.fst).Nodup ∧ ∀ file ∈ fs.entries, file.2 ≠ .directory →
        ∀ entry ∈ fs.entries, file.1 <+: entry.1 → entry.1 = file.1)
    ⟨fun ⟨hnamed, hdistinct, hleaf⟩ => ⟨fun _ _ h => hnamed _ h, hdistinct, hleaf⟩,
      fun h => ⟨fun _ hentry => h.named _ _ hentry, h.distinct, h.leaf⟩⟩

variable {fs : FileSystem} {place : Location}

theorem mem_of_find? {entry : Entry} {entries : List (Location × Entry)}
    (h : find? place entries = some entry) : (place, entry) ∈ entries := by
  induction entries with
  | nil => cases h
  | cons first entries ih =>
    obtain ⟨l, old⟩ := first
    rw [find?] at h
    split_ifs at h with hl
    · obtain rfl := Option.some.inj h
      exact hl ▸ List.mem_cons_self
    · exact List.mem_cons_of_mem _ (ih h)

theorem find?_of_mem {entry : Entry} {entries : List (Location × Entry)}
    (hdistinct : (entries.map Prod.fst).Nodup) (h : (place, entry) ∈ entries) :
    find? place entries = some entry := by
  induction entries with
  | nil => cases h
  | cons first entries ih =>
    obtain ⟨l, old⟩ := first
    rw [List.map_cons, List.nodup_cons] at hdistinct
    rw [find?]
    rcases List.mem_cons.mp h with heq | hmem
    · obtain ⟨rfl, rfl⟩ := Prod.mk.inj heq
      rw [if_pos rfl]
    · have hl : l ≠ place := by
        rintro rfl
        exact hdistinct.1 (List.mem_map.mpr ⟨_, hmem, rfl⟩)
      rw [if_neg hl, ih hdistinct.2 hmem]

/-- The files of a tree are its entries that are files. -/
theorem IsTree.hasFile_iff (h : fs.IsTree) :
    fs.HasFile place ↔ ∃ content writable, (place, .file content writable) ∈ fs.entries := by
  constructor
  · rintro ⟨content, writable, hentry⟩
    refine ⟨content, writable, mem_of_find? ?_⟩
    unfold entry? at hentry
    split at hentry
    · next found => rw [found, hentry]
    · split_ifs at hentry
      cases hentry
  · rintro ⟨content, writable, hmem⟩
    refine ⟨content, writable, ?_⟩
    unfold entry?
    rw [find?_of_mem h.distinct hmem]

/-- What has entries below it is a directory. -/
theorem IsTree.entry?_of_above (h : fs.IsTree) {l : Location} {entry : Entry}
    (hmem : (l, entry) ∈ fs.entries) (hfront : place <+: l) (hne : place ≠ l) :
    fs.entry? place = some .directory := by
  unfold entry?
  split
  · next found hfound =>
    cases found with
    | directory => rfl
    | file content writable =>
      exact absurd (h.leaf _ (mem_of_find? hfound) (by simp) _ hmem hfront).symm hne
  · rw [if_pos]
    rw [Bool.or_eq_true]
    refine .inr (List.any_eq_true.mpr ⟨(l, entry), hmem, ?_⟩)
    simp [isAbove, List.isPrefixOf_iff_prefix, hfront, hne]

def namesIn (fs : FileSystem) (place : Location) : List String :=
  (fs.entries.filterMap fun entry =>
    if isAbove place entry then entry.1[place.length]? else none).dedup

theorem mem_namesIn {name : String} :
    name ∈ fs.namesIn place ↔ ∃ l entry, (l, entry) ∈ fs.entries ∧ place ++ [name] <+: l := by
  rw [namesIn, List.mem_dedup, List.mem_filterMap]
  constructor
  · rintro ⟨⟨l, entry⟩, hmem, h⟩
    split_ifs at h with habove
    simp only [isAbove, Bool.and_eq_true, List.isPrefixOf_iff_prefix] at habove
    obtain ⟨rest, rfl⟩ := habove.1
    cases rest with
    | nil => simp at h
    | cons first rest =>
      obtain rfl : first = name := by simpa using h
      exact ⟨_, entry, hmem, rest, by simp⟩
  · rintro ⟨l, entry, hmem, rest, rfl⟩
    refine ⟨_, hmem, ?_⟩
    rw [if_pos]
    · simp
    · simp [isAbove, List.isPrefixOf_iff_prefix]

end FileSystem

namespace Walk

/-- Nothing on the way from a directory to a file turns the walk back: no directory is skipped, and
neither a directory nor the file is ignored. -/
structure Clear (fs : FileSystem) (place : Location) (names : List String) : Prop where
  entered : ∀ name ∈ names.dropLast, isSkipped name = false
  directory : ∀ above, above ≠ [] → above <+: names → above ≠ names →
    IgnoreFiles.isIgnored fs (place ++ above) true = false
  file : IgnoreFiles.isIgnored fs (place ++ names) false = false

variable {fs : FileSystem} {place : Location} {name next : String} {names rest : List String}

private theorem clear_singleton :
    Clear fs place [name] ↔ IgnoreFiles.isIgnored fs (place ++ [name]) false = false := by
  refine ⟨Clear.file, fun h => ⟨by simp, fun above hne habove hother => ?_, h⟩⟩
  have hlength := habove.length_le
  have hpos := List.length_pos_iff.mpr hne
  rw [List.length_singleton] at hlength
  exact absurd (habove.eq_of_length (by simp; omega)) hother

private theorem clear_cons_cons : Clear fs place (name :: next :: rest) ↔ isSkipped name = false ∧
    IgnoreFiles.isIgnored fs (place ++ [name]) true = false ∧
      Clear fs (place ++ [name]) (next :: rest) := by
  constructor
  · intro h
    refine ⟨h.entered name (by simp), h.directory [name] (by simp) ⟨next :: rest, rfl⟩ (by simp),
      fun other hother => h.entered other (List.mem_cons_of_mem _ hother),
      fun above hne habove hother => ?_, by simpa using h.file⟩
    simpa using h.directory (name :: above) (by simp) ((List.prefix_cons_inj name).mpr habove)
      (by simpa using hother)
  · rintro ⟨hskipped, hignored, h⟩
    refine ⟨?_, ?_, by simpa using h.file⟩
    · rw [List.dropLast_cons_cons, List.forall_mem_cons]
      exact ⟨hskipped, h.entered⟩
    · rintro (_ | ⟨first, above⟩) hne habove hother
      · exact absurd rfl hne
      obtain ⟨rfl, hrest⟩ := List.cons_prefix_cons.mp habove
      cases above with
      | nil => exact hignored
      | cons second above =>
        simpa using h.directory (second :: above) (by simp) hrest (by simpa using hother)

/-- The check of the walk says that the way is clear. -/
theorem isReached_iff_clear (hne : names ≠ []) :
    isReached fs place names = true ↔ Clear fs place names := by
  have hpos := List.length_pos_iff.mpr hne
  simp only [isReached, Bool.and_eq_true, List.all_eq_true, Bool.not_eq_true', List.mem_range]
  constructor
  · rintro ⟨⟨hentered, hdirectory⟩, hfile⟩
    refine ⟨hentered, fun above habove hfront hother => ?_, hfile⟩
    have hshort : above.length < names.length :=
      Nat.lt_of_le_of_ne hfront.length_le fun hlength => hother (hfront.eq_of_length hlength)
    have hone := List.length_pos_iff.mpr habove
    have htake := hdirectory (above.length - 1) (by omega)
    rwa [Nat.sub_add_cancel hone, ← List.prefix_iff_eq_take.mp hfront] at htake
  · intro h
    refine ⟨⟨h.entered, fun n hn => ?_⟩, h.file⟩
    have hfront := List.take_prefix (n + 1) names
    refine h.directory _ ?_ hfront ?_
    · simpa using hne
    · intro heq
      have hlength := congrArg List.length heq
      rw [List.length_take] at hlength
      omega

/-- The files that a walk comes to at one name in a directory, given those it comes to below: it leaves
out what is ignored, and it enters the other directories unless they are skipped. -/
def visit (fs : FileSystem) (place : Location) (below : List (List String)) (name : String) :
    List (List String) :=
  match fs.entry? (place ++ [name]) with
  | some (.file ..) =>
    if IgnoreFiles.isIgnored fs (place ++ [name]) false then [] else [[name]]
  | some .directory =>
    if isSkipped name || IgnoreFiles.isIgnored fs (place ++ [name]) true then []
    else below.map (name :: ·)
  | none => []

/-- The files below a directory that a walk comes to, at most some levels down. -/
def descend (fs : FileSystem) : (levels : Nat) → Location → List (List String)
  | 0, _ => []
  | levels + 1, place =>
    (fs.namesIn place).flatMap fun name =>
      visit fs place (descend fs levels (place ++ [name])) name

variable {below : List (List String)} {found : List String}

/-- One step of the walk: a file that is not ignored, or what is below a directory that is entered. -/
theorem mem_visit : found ∈ visit fs place below name ↔
    fs.HasFile (place ++ [name]) ∧ found = [name] ∧ Clear fs place [name] ∨
      fs.entry? (place ++ [name]) = some .directory ∧ isSkipped name = false ∧
        IgnoreFiles.isIgnored fs (place ++ [name]) true = false ∧
          ∃ rest ∈ below, found = name :: rest := by
  unfold visit
  split
  · next content writable hentry =>
    have hfile : fs.HasFile (place ++ [name]) := ⟨content, writable, hentry⟩
    rw [clear_singleton]
    split_ifs with hignored <;> simp [hfile, hentry, hignored]
  · next hentry =>
    have hfile : ¬ fs.HasFile (place ++ [name]) := by simp [FileSystem.HasFile, hentry]
    split_ifs with hturn
    · rw [Bool.or_eq_true] at hturn
      rcases hturn with hskipped | hignored <;> simp_all
    · rw [Bool.not_eq_true, Bool.or_eq_false_iff] at hturn
      simp [hfile, hentry, hturn, eq_comm]
  · next hentry => simp [FileSystem.HasFile, hentry]

private theorem head?_of_mem_visit (h : found ∈ visit fs place below name) :
    found.head? = some name := by
  rcases mem_visit.mp h with ⟨-, rfl, -⟩ | ⟨-, -, -, rest, -, rfl⟩ <;> rfl

/-- The walk comes to a file of the tree exactly if its way is clear and not too long. -/
theorem mem_descend (htree : fs.IsTree) {levels : Nat} : found ∈ descend fs levels place ↔
    found ≠ [] ∧ found.length ≤ levels ∧ fs.HasFile (place ++ found) ∧ Clear fs place found := by
  induction levels generalizing place found with
  | zero => cases found <;> simp [descend]
  | succ levels ih =>
    simp only [descend, List.mem_flatMap, mem_visit, ih]
    constructor
    · rintro ⟨name, hname, ⟨hfile, rfl, hclear⟩ | ⟨hentry, hskipped, hignored, rest, hrest, rfl⟩⟩
      · exact ⟨by simp, by simp, hfile, hclear⟩
      · obtain ⟨hne, hlevels, hfile, hclear⟩ := hrest
        obtain ⟨next, rest, rfl⟩ := List.exists_cons_of_ne_nil hne
        refine ⟨by simp, by simpa using hlevels, by simpa using hfile, ?_⟩
        exact clear_cons_cons.mpr ⟨hskipped, hignored, hclear⟩
    · rintro ⟨hne, hlevels, hfile, hclear⟩
      obtain ⟨name, rest, rfl⟩ := List.exists_cons_of_ne_nil hne
      obtain ⟨content, writable, hmem⟩ := htree.hasFile_iff.mp hfile
      have hfront : place ++ [name] <+: place ++ name :: rest := ⟨rest, by simp⟩
      refine ⟨name, FileSystem.mem_namesIn.mpr ⟨_, _, hmem, hfront⟩, ?_⟩
      cases rest with
      | nil => exact .inl ⟨hfile, rfl, hclear⟩
      | cons next rest =>
        obtain ⟨hskipped, hignored, hclear⟩ := clear_cons_cons.mp hclear
        have hentry := htree.entry?_of_above hmem hfront (by simp)
        refine .inr ⟨hentry, hskipped, hignored, next :: rest, ⟨by simp, ?_, ?_, hclear⟩, rfl⟩
        · simpa using hlevels
        · simpa using hfile

theorem nodup_descend (fs : FileSystem) (levels : Nat) (place : Location) :
    (descend fs levels place).Nodup := by
  induction levels generalizing place with
  | zero => exact .nil
  | succ levels ih =>
    rw [descend, List.nodup_flatMap]
    refine ⟨fun name _ => ?_, ?_⟩
    · unfold visit
      split
      · split_ifs <;> simp
      · split_ifs
        · simp
        · exact (ih _).map (List.cons_injective)
      · exact .nil
    · -- What is found at different names differs in the first name.
      have hnames : (fs.namesIn place).Nodup := List.nodup_dedup _
      refine hnames.imp fun {a b} hne => List.disjoint_left.mpr fun found ha hb => ?_
      exact hne (Option.some.inj ((head?_of_mem_visit ha).symm.trans (head?_of_mem_visit hb)))

end Walk
end SentinelWrap
