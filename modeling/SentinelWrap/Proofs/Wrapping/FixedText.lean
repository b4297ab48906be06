import SentinelWrap.Proofs.Edit.Substitution
import SentinelWrap.Proofs.Go.Spans
import SentinelWrap.Proofs.Lists
import SentinelWrap.Proofs.Wrapping.Overlap

/-! The text that fixing a file gives. The results of a return are put back as they were written, and
no byte outside the qualifying returns and the first import declaration is touched. -/
namespace SentinelWrap

theorem Span.exists_slice? {s : Span} {source : List Char} (h : s.start ≤ s.stop)
    (hstart : Text.isBoundary s.start source = true)
    (hstop : Text.isBoundary s.stop source = true) : ∃ covered, s.slice? source = some covered := by
  obtain ⟨before, after, rfl, hbefore⟩ := Text.isBoundary_iff.mp hstart
  have hempty : Span.slice? ⟨s.start, s.start⟩ (before ++ after) = some [] :=
    Span.slice?_eq_some_iff.mpr ⟨before, after, rfl, hbefore, hbefore⟩
  exact Span.exists_slice?_of_le hempty h hstop

namespace Node
variable {source : List Char}

def slice? (source : List Char) (n : Node) : Option String := do
  let span ← n.span
  let covered ← span.slice? source
  return String.ofList covered

/-- What covers a range is printed as what it covers, returns and import groups apart. -/
theorem slice?_eq_render {n : Node} (hret : n.kind ≠ .ret) (himport : n.kind ≠ .importGroup)
    {s : Span} {covered : List Char} (hspan : n.span = some s)
    (h : s.slice? source = some covered) : n.slice? source = some (n.render source) := by
  have hslice : n.slice? source = some (String.ofList covered) := by
    simp [slice?, hspan, h]
  have hrender : n.render source = String.ofList (s.slice source) := by
    rw [render, fold_eq]
    cases n with
    | ret => exact absurd rfl hret
    | importGroup => exact absurd rfl himport
    | _ =>
      cases hspan
      rfl
  rw [hslice, hrender, Span.slice, h, Option.getD_some]

private theorem render_ret {span : Option Span} {results : List Node} (h : results ≠ []) :
    (ret span results).render source =
      "return " ++ ", ".intercalate (results.map (render source)) := by
  cases results with
  | nil => exact absurd rfl h
  | cons r rs =>
    rw [render, fold_eq]
    rfl

private theorem render_call {callee : Node} {args : List Node} :
    (call none callee args).render source =
      callee.render source ++ "(" ++ ", ".intercalate (args.map (render source)) ++ ")" := by
  rw [render, fold_eq]
  rfl

private theorem render_memberAccess {operand : Node} {member : Member} :
    (memberAccess none operand member).render source =
      operand.render source ++ "." ++ member.name := by
  rw [render, fold_eq]
  rfl

theorem Covers.lt_of_importGroup {n : Node} {s : Span} (h : n.Covers source s)
    (hkind : n.kind = .importGroup) : s.start < s.stop := by
  obtain ⟨rest, hslice⟩ := h.importGroup hkind
  obtain ⟨before, after, -, hstart, hstop⟩ := Span.slice?_eq_some_iff.mp hslice
  have hsize : Text.size "import".toList = 6 := by decide
  rw [Text.size_append, hsize] at hstop
  omega

end Node

namespace Wrapping
open Go (Tree)
open Go.Lowering (node nodes)

variable {source : List Char} {file : SourceFile}

theorem render_wrapCall (q : String) (value : Node) :
    (wrapCall q value).render source =
      q ++ ".Wrap(" ++ value.render source ++ ", err.Error())" := by
  have hname (name : String) : (Node.identifier none name).render source = name := rfl
  rw [wrapCall, callOf, callOf, Node.render_call, Node.render_memberAccess, hname]
  simp [Node.render_call, Node.render_memberAccess, hname, errorVariable, String.append_assoc]

/-- The edit that wraps the last result of a return and keeps the other ones as they are written. -/
def wrapEdit? (source : List Char) (q : String) : Node → Option Edit
  | .ret (some span) results => do
    let texts ← results.mapM (Node.slice? source)
    let value ← texts.getLast?
    return ⟨span, "return " ++ ", ".intercalate
      (texts.dropLast ++ [q ++ ".Wrap(" ++ value ++ ", err.Error())"])⟩
  | _ => none

theorem wrapEdit?_eq {q : String} {r : Node} (hr : Qualifies r)
    (hresults : ∀ c ∈ r.children, c.slice? file.text.toList = some (c.render file.text.toList)) :
    wrapEdit? file.text.toList q r = some (returnEdit file q r) := by
  obtain ⟨span, leading, value, -⟩ := hr
  have htexts : (leading ++ [value]).mapM (Node.slice? file.text.toList) =
    some ((leading ++ [value]).map (Node.render file.text.toList)) := mapM_eq_some_map hresults
  have hwrapped : wrapped q (.ret (some span) (leading ++ [value])) =
      .ret (some span) (leading ++ [wrapCall q value]) := by
    simp [wrapped]
  rw [returnEdit, hwrapped, Node.render_ret (by simp), wrapEdit?, htexts, List.map_append,
    List.map_append, List.map_singleton, List.map_singleton, render_wrapCall]
  simp [Node.span]

/-- No result of a return is a return or an import group. -/
theorem results_kind_ne {t : Tree} (h : t.Sound source) (hnode : t.isNode = true)
    (hret : (node t).kind = .ret) :
    ∀ r ∈ (node t).children, r.kind ≠ .ret ∧ r.kind ≠ .importGroup := by
  cases t with
  | token t => cases hnode
  | node kind role cs =>
    have hassembled := Go.Lowering.assembled (.node kind role cs) (nodes cs)
    obtain ⟨hkind, hchildren⟩ := hassembled.children_of_ret hret
    intro r hr
    change r ∈ (Go.Lowering.assemble _ _).children at hr
    rw [hchildren] at hr
    have hplain := h.plain
    cases hplain with
    | node _ hplain _ =>
      rcases hplain.results hkind with ⟨t, rfl⟩ | ⟨t, results, rfl, hresults⟩
      · cases hr
      · have hlist : (node (.node "expression_list" .plain results)).children =
          (nodes results).map Prod.snd := rfl
        rw [show nodes [Tree.token t, .node "expression_list" .plain results] =
          [(.plain, node (.node "expression_list" .plain results))] from rfl, List.map_singleton,
          List.flatMap_singleton, hlist, List.mem_map] at hr
        obtain ⟨p, hp, rfl⟩ := hr
        obtain ⟨c, hc, hcnode, rfl⟩ := Go.Lowering.mem_nodes hp
        have hamong := hresults c hc
        cases c with
        | token c => cases hcnode
        | node kind' role' ds =>
          have hassembled' := Go.Lowering.assembled (.node kind' role' ds) (nodes ds)
          refine ⟨fun hret' => ?_, hassembled'.kind_ne_importGroup⟩
          rw [Tree.Among, Go.Grammar.allBut, bne_iff_ne] at hamong
          exact hamong (hassembled'.children_of_ret hret').1

/-- The results of a qualifying return are printed as they are written. -/
theorem slice?_result {trees : List Tree} (htrees : ∀ t ∈ trees, t.Sound source) {r : Node}
    (hr : r ∈ qualifyingReturns (Go.Lowering.file source trees)) :
    ∀ c ∈ r.children, c.slice? source = some (c.render source) := by
  obtain ⟨hq, hmem⟩ := of_mem_qualifyingReturns hr
  obtain ⟨d, hd, hrd⟩ := List.mem_flatMap.mp hmem
  obtain ⟨t, ht, hnode, rfl | ⟨-, rfl⟩⟩ := Go.Lowering.exists_of_mem_decls _ hd
  · intro c hc
    obtain ⟨u, hu, hunode, rfl⟩ := Go.Lowering.exists_within hnode hrd
    obtain ⟨hret, himport⟩ := results_kind_ne ((htrees t ht).within hu) hunode hq.kind_eq c hc
    obtain ⟨s, hs⟩ := Go.Lowering.covers_of_mem_decls _ htrees hd
      (Node.preorder_subset_of_mem hrd (Node.preorder_subset_of_mem_children hc c.self_mem_preorder))
    obtain ⟨covered, hcovered⟩ :=
      Span.exists_slice? hs.start_le_stop hs.start_boundary hs.stop_boundary
    exact Node.slice?_eq_render hret himport hs.span_eq hcovered
  · obtain rfl : r = _ := by simpa [Node.preorder_eq, Node.children] using hrd
    cases hq

/-- The name the library goes by in a file with these imports. -/
def nameAmong (imports : List ImportSpec) : String :=
  if ∃ spec ∈ imports, spec.unquoted ≠ "github.com/pkg/errors" ∧
    "errors".toList <:+ spec.unquoted.toList then "errorsPkg" else "errors"

theorem isRival_iff {spec : ImportSpec} : isRival spec = true ↔
    spec.unquoted ≠ "github.com/pkg/errors" ∧ "errors".toList <:+ spec.unquoted.toList := by
  unfold isRival libraryName library
  rw [Bool.and_eq_true, List.isSuffixOf_iff_suffix, bne_iff_ne, ne_eq, String.toList_inj]
  exact and_comm

theorem qualifier_hasConflict (imports : List ImportSpec) :
    qualifier (hasConflict imports) = nameAmong imports := by
  have hconflict : hasConflict imports = true ↔ ∃ spec ∈ imports,
      spec.unquoted ≠ "github.com/pkg/errors" ∧ "errors".toList <:+ spec.unquoted.toList := by
    rw [hasConflict, List.any_eq_true]
    exact exists_congr fun spec => and_congr_right fun _ => isRival_iff
  unfold qualifier nameAmong
  by_cases h : hasConflict imports = true
  · rw [if_pos h, if_pos (hconflict.mp h), libraryAlias]
  · rw [if_neg h, if_neg (mt hconflict.mpr h), libraryName]

/-- The edits of the findings: one that wraps for each qualifying return, and one for the first import
declaration. None of their ranges is empty. -/
theorem edits_eq {trees : List Tree} {ds : List Diagnostic}
    (hroot : file.root = Go.Lowering.file file.text.toList trees)
    (htrees : ∀ t ∈ trees, t.Sound file.text.toList)
    (hrow : ∃ lo, Go.Token.Row file.text.toList lo (trees.flatMap Tree.tokens))
    (hanalyze : analyze file = .ok ds) (hne : qualifyingReturns file.root ≠ []) :
    ∃ span parenthesized specs edits,
      file.root.children.find? (·.kind == .importGroup) =
        some (.importGroup (some span) parenthesized specs) ∧
      (qualifyingReturns file.root).mapM (wrapEdit? file.text.toList (nameAmong file.imports)) =
        some edits ∧
      Diagnostic.edits ds = edits ++ [⟨span, (Node.importGroup (some span) parenthesized
        (specs ++ [librarySpec (hasConflict file.imports)])).render file.text.toList⟩] ∧
      ∀ e ∈ Diagnostic.edits ds, e.range.start < e.range.stop := by
  have himports : file.imports =
      (Go.Lowering.declared (Go.Point.ofOffset file.text.toList) trees).imports := by
    unfold SourceFile.imports
    rw [hroot]
    rfl
  have hplaced := hrow.elim fun lo hrow => (Go.Lowering.declared_placed
    (Go.Point.ofOffset file.text.toList) (fun t ht => (htrees t ht).full)
    (fun t ht => (htrees t ht).shaped) hrow).2
  rw [analyze_file file _ _ _ _ hroot (Go.Lowering.declared_kind_ne_file _ _), ← himports] at hanalyze
  unfold findings at hanalyze
  split at hanalyze
  · contradiction
  split at hanalyze
  case h_2 => cases hanalyze
  rename_i span parenthesized specs hfind
  obtain rfl := Except.ok.inj hanalyze
  have hedits := edits_map_finding file (qualifier (hasConflict file.imports))
    (qualifyingReturns file.root)
    [importFinding file (hasConflict file.imports) span parenthesized specs]
  rw [qualifier_hasConflict] at hedits ⊢
  refine ⟨span, parenthesized, specs, _, ?_, mapM_eq_some_map fun r hr => ?_, hedits, ?_⟩
  · rw [hroot]
    exact hfind
  · rw [hroot] at hr
    exact wrapEdit?_eq (of_mem_qualifyingReturns hr).1 (slice?_result htrees hr)
  · rw [hedits]
    refine List.forall_mem_append.mpr ⟨List.forall_mem_map.mpr fun r hr => ?_,
      List.forall_mem_singleton.mpr ?_⟩
    · obtain ⟨s, -, hlt, hrange⟩ := placed_of_mem_qualifyingReturns hroot hplaced hr
        (nameAmong file.imports)
      rw [hrange]
      exact hlt
    · obtain ⟨s, hs⟩ := Go.Lowering.covers_of_mem_decls _ htrees (List.mem_of_find?_eq_some hfind)
        (Node.self_mem_preorder _)
      obtain rfl : span = s := Option.some.inj hs.span_eq
      exact hs.lt_of_importGroup rfl

/-- Fixing a file without a qualifying return leaves its text as it is. Otherwise each qualifying
return and the first import declaration are replaced, all at once: in a return the leading results
are kept as they are written and the last one is wrapped; the declaration is printed with the library
added. -/
theorem applyFixes_eq_substituted {path : Path} {text fixed : String} {ds : List Diagnostic}
    (hparse : SourceFile.parse path text = .ok file) (hanalyze : analyze file = .ok ds)
    (hfixed : Diagnostic.applyFixes text ds = .ok fixed) :
    (qualifyingReturns file.root = [] → fixed = text) ∧
      (qualifyingReturns file.root ≠ [] → ∃ span parenthesized specs edits,
        file.root.children.find? (·.kind == .importGroup) =
          some (.importGroup (some span) parenthesized specs) ∧
        (qualifyingReturns file.root).mapM (wrapEdit? text.toList (nameAmong file.imports)) =
          some edits ∧
        fixed.toList = Edit.substituted (edits ++ [⟨span, (Node.importGroup (some span)
          parenthesized (specs ++ [librarySpec (hasConflict file.imports)])).render text.toList⟩])
          0 text.toList) := by
  obtain ⟨rfl, hgo⟩ := parse_eq_ok hparse
  obtain ⟨trees, hroot, htrees, hrow, -⟩ := Go.exists_trees_of_parse hgo
  refine ⟨fun hnone => ?_, fun hne => ?_⟩
  · rw [analyze_file file _ _ _ _ hroot (Go.Lowering.declared_kind_ne_file _ _), findings, hnone]
      at hanalyze
    obtain rfl := Except.ok.inj hanalyze
    obtain ⟨-, -, rfl⟩ := Edit.applyAll_eq_ok_iff.mp hfixed
    simp [Diagnostic.edits, Edit.sorted, Edit.dedup, Edit.splice]
  · obtain ⟨span, parenthesized, specs, edits, hfind, hedits, heq, hnonempty⟩ :=
      edits_eq hroot htrees hrow hanalyze hne
    refine ⟨span, parenthesized, specs, edits, hfind, hedits, ?_⟩
    rw [Edit.toList_of_applyAll hfixed hnonempty, heq]

theorem exists_of_eval {α : Type} {path : Path} {text : String} {a : α}
    {f : SourceFile → List Diagnostic → α}
    (h : (SourceFile.parse path text >>= fun file => (analyze file).map (f file)).toOption = some a) :
    ∃ file ds, SourceFile.parse path text = .ok file ∧ analyze file = .ok ds ∧ f file ds = a := by
  cases hparse : SourceFile.parse path text with
  | error e => simp [hparse, bind, Except.bind, Except.toOption] at h
  | ok file =>
    cases hanalyze : analyze file with
    | error e => simp [hparse, hanalyze, bind, Except.bind, Except.map, Except.toOption] at h
    | ok ds =>
      refine ⟨file, ds, rfl, hanalyze, ?_⟩
      simpa [hparse, hanalyze, bind, Except.bind, Except.map, Except.toOption] using h

theorem exists_of_edits {path : Path} {text : String} {edits : List Edit}
    (h : (SourceFile.parse path text >>= analyze).toOption.map Diagnostic.edits = some edits) :
    ∃ file ds, SourceFile.parse path text = .ok file ∧ analyze file = .ok ds ∧
      Diagnostic.edits ds = edits := by
  refine @exists_of_eval _ path text edits (fun _ => Diagnostic.edits) ?_
  rw [← h]
  cases SourceFile.parse path text with
  | error e => rfl
  | ok file => cases hanalyze : analyze file <;> simp [bind, Except.bind, hanalyze, Except.map,
      Except.toOption]

/-- An inner return of two results over two lines, and an outer one that is found before it. -/
def scatteredReturns : String :=
  "import\"errors\"\nif err!=nil\x7bif err!=nil\x7breturn é,\nio .ErrB\x7d;return ErrA\x7d"

def scatteredReturnsFixed : String :=
  "import (\n\t\"errors\"\n\terrorsPkg \"github.com/pkg/errors\"\n)\nif err!=nil\x7bif err!=nil\x7b" ++
    "return é, errorsPkg.Wrap(io .ErrB, err.Error())\x7d;" ++
    "return errorsPkg.Wrap(ErrA, err.Error())\x7d"

theorem fixed_scatteredReturns : ∃ file ds,
    SourceFile.parse ⟨"a.go"⟩ scatteredReturns = .ok file ∧ analyze file = .ok ds ∧
      Diagnostic.applyFixes scatteredReturns ds = .ok scatteredReturnsFixed ∧
      qualifyingReturns file.root ≠ [] ∧
      ∃ span parenthesized specs edits,
        file.root.children.find? (·.kind == .importGroup) =
          some (.importGroup (some span) parenthesized specs) ∧
        (qualifyingReturns file.root).mapM
          (wrapEdit? scatteredReturns.toList (nameAmong file.imports)) = some edits ∧
        scatteredReturnsFixed.toList = Edit.substituted (edits ++ [⟨span, (Node.importGroup
          (some span) parenthesized (specs ++ [librarySpec (hasConflict file.imports)])).render
            scatteredReturns.toList⟩]) 0 scatteredReturns.toList := by
  obtain ⟨file, ds, hparse, hanalyze, hedits⟩ := @exists_of_edits ⟨"a.go"⟩ scatteredReturns
    [⟨⟨60, 71⟩, "return errorsPkg.Wrap(ErrA, err.Error())"⟩,
      ⟨⟨39, 58⟩, "return é, errorsPkg.Wrap(io .ErrB, err.Error())"⟩,
      ⟨⟨0, 14⟩, "import (\n\t\"errors\"\n\terrorsPkg \"github.com/pkg/errors\"\n)"⟩] (by decide +kernel)
  have hfixed : Diagnostic.applyFixes scatteredReturns ds = .ok scatteredReturnsFixed := by
    rw [Diagnostic.applyFixes, hedits]
    refine @Edit.applyAll_of_ordered _ _ _
      [⟨⟨0, 14⟩, "import (\n\t\"errors\"\n\terrorsPkg \"github.com/pkg/errors\"\n)"⟩,
        ⟨⟨39, 58⟩, "return é, errorsPkg.Wrap(io .ErrB, err.Error())"⟩,
        ⟨⟨60, 71⟩, "return errorsPkg.Wrap(ErrA, err.Error())"⟩] ?_ ?_ ?_ ?_ ?_ <;> decide +kernel
  obtain ⟨hsame, hreplaced⟩ := applyFixes_eq_substituted hparse hanalyze hfixed
  have hne : qualifyingReturns file.root ≠ [] := fun hnone =>
    absurd (hsame hnone) (by decide +kernel)
  exact ⟨file, ds, hparse, hanalyze, hfixed, hne, hreplaced hne⟩

end Wrapping
end SentinelWrap
