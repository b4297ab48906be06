import SentinelWrap.Proofs.Wrapping.FixedText
import SentinelWrap.Text.Pieces

/-! The names that the imports of a file bind. The library is called by the name under which it is
added, and no import of another package has that name by default, unless its path ends in the name
the library is given where its own may be in use. -/
namespace SentinelWrap

theorem Text.getLast_suffix_join (sep : List Char) {pieces : List (List Char)} (h : pieces ≠ []) :
    pieces.getLast h <:+ join sep pieces := by
  induction pieces with
  | nil => exact absurd rfl h
  | cons piece pieces ih =>
    cases pieces with
    | nil => exact List.suffix_refl _
    | cons next pieces =>
      rw [List.getLast_cons (by simp)]
      exact (ih (by simp)).trans (List.suffix_append _ _)

namespace ImportSpec

/-- The last part of the path, which names an import that is given no name. -/
def lastSegment (spec : ImportSpec) : String :=
  String.ofList ((Text.split (· == '/') spec.unquoted.toList).getLast (Text.split_ne_nil _ _))

def boundName (spec : ImportSpec) : String := spec.name.getD spec.lastSegment

theorem lastSegment_congr {a b : ImportSpec} (h : a.unquoted = b.unquoted) :
    a.lastSegment = b.lastSegment := by
  simp only [lastSegment, h]

theorem lastSegment_suffix (spec : ImportSpec) :
    spec.lastSegment.toList <:+ spec.unquoted.toList := by
  have h := Text.getLast_suffix_join ['/'] (Text.split_ne_nil (· == '/') spec.unquoted.toList)
  rwa [Text.join_split, ← String.toList_ofList (l := List.getLast _ _)] at h

/-- The import has this name, as one of the two that the library goes by: it is given the name, or it
is the library itself without another name, or a package whose path ends in the library's other
name. -/
def Takes (q : String) (spec : ImportSpec) : Prop :=
  spec.name = some q ∨ spec.name = none ∧
    (q = "errors" ∧ spec.unquoted = "github.com/pkg/errors" ∨
      q = "errorsPkg" ∧ spec.lastSegment = "errorsPkg")

instance decidableTakes (q : String) (spec : ImportSpec) : Decidable (spec.Takes q) :=
  inferInstanceAs (Decidable (_ ∨ _))

end ImportSpec

namespace Wrapping

theorem nameAmong_cases (imports : List ImportSpec) :
    nameAmong imports = "errorsPkg" ∨ nameAmong imports = "errors" ∧ ∀ spec ∈ imports,
      "errors".toList <:+ spec.unquoted.toList → spec.unquoted = "github.com/pkg/errors" := by
  unfold nameAmong
  split_ifs with h
  · exact .inl rfl
  · refine .inr ⟨rfl, fun spec hspec hsuffix => ?_⟩
    by_contra hne
    exact h ⟨spec, hspec, hne, hsuffix⟩

theorem boundName_eq_iff {imports : List ImportSpec} {spec : ImportSpec} (h : spec ∈ imports) :
    spec.boundName = nameAmong imports ↔ spec.Takes (nameAmong imports) := by
  unfold ImportSpec.boundName ImportSpec.Takes
  cases hname : spec.name with
  | some name => simp
  | none =>
    rw [Option.getD_none]
    rcases nameAmong_cases imports with hq | ⟨hq, honly⟩
    · rw [hq]
      exact ⟨fun heq => .inr ⟨rfl, .inr ⟨rfl, heq⟩⟩, fun h => by simpa using h⟩
    · rw [hq]
      constructor
      · intro heq
        have hsuffix := spec.lastSegment_suffix
        rw [heq] at hsuffix
        exact .inr ⟨rfl, .inl ⟨rfl, honly spec h hsuffix⟩⟩
      · intro htakes
        have hpath : spec.unquoted = "github.com/pkg/errors" := by simpa using htakes
        rw [ImportSpec.lastSegment_congr (b := librarySpec false) (by rw [hpath]; decide +kernel)]
        decide +kernel

theorem librarySpec_binds (imports : List ImportSpec) :
    (librarySpec (hasConflict imports)).boundName = nameAmong imports ∧
      (librarySpec (hasConflict imports)).unquoted = "github.com/pkg/errors" := by
  rw [← qualifier_hasConflict]
  cases hasConflict imports <;> decide +kernel

/-- The library is added under the name that the wrapped results call it by. It is the only import
that binds the name, exactly if no import that was there before takes it. -/
theorem binds_once_iff_not_takes {path : Path} {text : String} {file : SourceFile}
    {ds : List Diagnostic} (hparse : SourceFile.parse path text = .ok file)
    (hanalyze : analyze file = .ok ds) (hne : qualifyingReturns file.root ≠ []) :
    ∃ added span parenthesized specs edits,
      file.root.children.find? (·.kind == .importGroup) =
        some (.importGroup (some span) parenthesized specs) ∧
      (qualifyingReturns file.root).mapM (wrapEdit? text.toList (nameAmong file.imports)) =
        some edits ∧
      Diagnostic.edits ds = edits ++ [⟨span, (Node.importGroup (some span) parenthesized
        (specs ++ [added])).render text.toList⟩] ∧
      added.boundName = nameAmong file.imports ∧ added.unquoted = "github.com/pkg/errors" ∧
      ((file.imports ++ [added]).filter (·.boundName == nameAmong file.imports) = [added] ↔
        ∀ spec ∈ file.imports, ¬ spec.Takes (nameAmong file.imports)) := by
  obtain ⟨rfl, hgo⟩ := parse_eq_ok hparse
  obtain ⟨trees, hroot, htrees, hrow, -⟩ := Go.exists_trees_of_parse hgo
  obtain ⟨span, parenthesized, specs, edits, hfind, hedits, heq, -⟩ :=
    edits_eq hroot htrees hrow hanalyze hne
  obtain ⟨hbound, hpath⟩ := librarySpec_binds file.imports
  refine ⟨_, span, parenthesized, specs, edits, hfind, hedits, heq, hbound, hpath, ?_⟩
  rw [List.filter_append, List.filter_cons_of_pos (by simpa using hbound), List.filter_nil]
  have hnone : file.imports.filter (·.boundName == nameAmong file.imports) = [] ↔
      ∀ spec ∈ file.imports, ¬ spec.Takes (nameAmong file.imports) := by
    rw [List.filter_eq_nil_iff]
    refine forall₂_congr fun spec hspec => ?_
    rw [beq_iff_eq, boundName_eq_iff hspec]
  rw [← hnone]
  exact ⟨fun h => List.append_left_eq_self.mp h, fun h => by rw [h, List.nil_append]⟩

def libraryRenamed : String :=
  "import(\"errors\";p\"github.com/pkg/errors\");if err!=nil\x7breturn ErrA\x7d"

theorem binds_once_libraryRenamed : ∃ file ds,
    SourceFile.parse ⟨"a.go"⟩ libraryRenamed = .ok file ∧ analyze file = .ok ds ∧
      qualifyingReturns file.root ≠ [] ∧ ∃ added : ImportSpec,
        added.unquoted = "github.com/pkg/errors" ∧
        (file.imports ++ [added]).filter (·.boundName == nameAmong file.imports) = [added] := by
  obtain ⟨file, ds, hparse, hanalyze, -⟩ := @exists_of_edits ⟨"a.go"⟩ libraryRenamed
    [⟨⟨54, 65⟩, "return errorsPkg.Wrap(ErrA, err.Error())"⟩,
      ⟨⟨0, 41⟩, "import (\n\t\"errors\"\n\tp \"github.com/pkg/errors\"\n" ++
        "\terrorsPkg \"github.com/pkg/errors\"\n)"⟩] (by decide +kernel)
  have hfacts : (SourceFile.parse ⟨"a.go"⟩ libraryRenamed).toOption.all (fun file =>
      !(qualifyingReturns file.root).isEmpty &&
        file.imports.all fun spec => !spec.Takes (nameAmong file.imports)) = true := by
    decide +kernel
  rw [hparse] at hfacts
  simp only [Except.toOption, Option.all_some, Bool.and_eq_true, Bool.not_eq_true',
    List.isEmpty_eq_false_iff, List.all_eq_true, decide_eq_false_iff_not] at hfacts
  obtain ⟨added, -, -, -, -, -, -, -, -, hpath, honce⟩ :=
    binds_once_iff_not_takes hparse hanalyze hfacts.1
  exact ⟨file, ds, hparse, hanalyze, hfacts.1, added, hpath, honce.mpr hfacts.2⟩

def namedErrors : String := "import errors\"fmt\";if err!=nil\x7breturn ErrA\x7d"

/-- After the fix two imports bind the name that the wrapped result calls. -/
theorem binds_twice_namedErrors : ∃ file ds,
    SourceFile.parse ⟨"a.go"⟩ namedErrors = .ok file ∧ analyze file = .ok ds ∧
      Diagnostic.edits ds = [⟨⟨31, 42⟩, "return errors.Wrap(ErrA, err.Error())"⟩,
        ⟨⟨0, 18⟩, "import (\n\terrors \"fmt\"\n\t\"github.com/pkg/errors\"\n)"⟩] ∧
      ((file.imports ++ [librarySpec (hasConflict file.imports)]).filter
        (·.boundName == "errors")).map ImportSpec.unquoted = ["fmt", "github.com/pkg/errors"] := by
  obtain ⟨file, ds, hparse, hanalyze, hedits⟩ := @exists_of_edits ⟨"a.go"⟩ namedErrors
    [⟨⟨31, 42⟩, "return errors.Wrap(ErrA, err.Error())"⟩,
      ⟨⟨0, 18⟩, "import (\n\terrors \"fmt\"\n\t\"github.com/pkg/errors\"\n)"⟩] (by decide +kernel)
  have himports : (SourceFile.parse ⟨"a.go"⟩ namedErrors).toOption.map (fun file =>
      ((file.imports ++ [librarySpec (hasConflict file.imports)]).filter
        (·.boundName == "errors")).map ImportSpec.unquoted) =
          some ["fmt", "github.com/pkg/errors"] := by
    decide +kernel
  rw [hparse] at himports
  exact ⟨file, ds, hparse, hanalyze, hedits, Option.some.inj himports⟩

end Wrapping
end SentinelWrap
