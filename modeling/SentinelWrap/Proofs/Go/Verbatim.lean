import SentinelWrap.Proofs.Go.Point
import SentinelWrap.Proofs.Go.Spans

/-! What a syntax tree says in words is what the source says at the place. Names, literals and the
specs of imports are copied from it, and the imports of a file are those of its import groups. -/
namespace SentinelWrap

/-- The spec stands in the source, on its line: the path alone, or a name and after it the path. -/
structure ImportSpec.Written (source : List Char) (spec : ImportSpec) (s : Span) : Prop where
  span_eq : spec.span = some s
  line_eq : spec.line = some ((LineTable.ofText source).position s.start).line
  path_only : spec.name = none → s.slice? source = some spec.path.toList
  name_path : ∀ name, spec.name = some name →
    ∃ gap, s.slice? source = some (name.toList ++ (gap ++ spec.path.toList))

namespace Node

/-- The words of a node stand in the source at its place. -/
structure Written (source : List Char) (n : Node) : Prop where
  identifier : ∀ span name, n = .identifier span name →
    ∃ s, span = some s ∧ s.slice? source = some name.toList
  literal : ∀ span kind text, n = .literal span kind text →
    ∃ s, span = some s ∧ s.slice? source = some text.toList
  member : ∀ span operand member, n = .memberAccess span operand member →
    ∃ s, member.span = some s ∧ s.slice? source = some member.name.toList
  specs : ∀ span parenthesized specs, n = .importGroup span parenthesized specs →
    ∀ spec ∈ specs, ∃ s, spec.Written source s

def specs : Node → List ImportSpec
  | importGroup _ _ specs => specs
  | _ => []

theorem specs_eq_nil {n : Node} (h : n.kind ≠ .importGroup) : n.specs = [] := by
  cases n with
  | importGroup => exact absurd rfl h
  | _ => rfl

end Node

/-- Two ranges one after the other, and what stands between them. -/
theorem Span.exists_slice?_through {a b : Span} {source left right : List Char}
    (ha : a.slice? source = some left) (hb : b.slice? source = some right) (h : a.stop ≤ b.start) :
    ∃ gap, (a.through b).slice? source = some (left ++ (gap ++ right)) := by
  obtain ⟨before, after, rfl, hstart, hstop⟩ := slice?_eq_some_iff.mp ha
  obtain ⟨before', after', heq, hstart', hstop'⟩ := slice?_eq_some_iff.mp hb
  have hprefix : before ++ left <+: before' := by
    refine Text.prefix_of_size_le ⟨after, by simp⟩ ⟨right ++ after', heq.symm⟩ ?_
    rw [Text.size_append]
    omega
  obtain ⟨gap, rfl⟩ := hprefix
  refine ⟨gap, slice?_eq_some_iff.mpr ⟨before, after', by simpa using heq, hstart, ?_⟩⟩
  simp only [through, Text.size_append] at *
  omega

namespace Go
open Token (Row)
open Grammar (IsLeaf isLeafy)

variable {source : List Char}

theorem Tree.Sound.slice?_leaf {kind : String} {role : Role} {t : Token}
    (h : (Tree.node kind role [.token t]).Sound source) :
    t.span.slice? source = some t.text.toList := by
  obtain ⟨lo, hrow⟩ := h.row
  rw [Tree.tokens_node] at hrow
  exact hrow.1

namespace Lowering

/-- Identifiers and literals come from nodes that hold a single token. -/
theorem isLeafy_of_assemble {tree : Tree} {parts : List (Role × Node)}
    (h : (assemble tree parts).kind = .identifier ∨ (assemble tree parts).kind = .literal) :
    isLeafy tree.kind = true := by
  have hother {span : Option Span} {k : String} {ns : List Node}
      (h : (Node.other span k ns).kind = .identifier ∨ (Node.other span k ns).kind = .literal) :
      False := by
    rcases h with h | h <;> cases h
  unfold assemble at h
  dsimp only at h
  split at h
  · cases hc : part? .condition parts with
    | none => exact (hother (by simpa [conditional?, hc] using h)).elim
    | some condition =>
      simp only [conditional?, hc] at h
      rcases h with h | h <;> cases h
  · rcases h with h | h <;> cases h
  iterate 4
    rename_i hkind
    rw [hkind]
    rfl
  · unfold memberAccess? at h
    split at h
    · rcases h with h | h <;> cases h
    · exact (hother h).elim
  · unfold comparison? at h
    split at h
    · cases hop : (Tree.signs tree.children).findSome? Comparison.ofText? with
      | none => exact (hother (by simpa [hop] using h)).elim
      | some op =>
        simp only [hop] at h
        rcases h with h | h <;> cases h
    · exact (hother h).elim
  · unfold call? at h
    cases hparts : parts.map Prod.snd with
    | nil => exact (hother (by simpa [hparts] using h)).elim
    | cons callee rest =>
      cases hlast : rest.getLast? with
      | none => exact (hother (by simpa [hparts, hlast] using h)).elim
      | some arguments =>
        simp only [hparts, List.head?_cons, List.tail_cons, hlast] at h
        rcases h with h | h <;> cases h
  · split at h
    · rename_i hliteral
      simp [isLeafy, hliteral]
    · exact (hother h).elim

/-- The text of such a node is what its span covers. -/
theorem slice?_leafText {t : Tree} (h : t.Sound source) (hnode : t.isNode = true)
    (hleafy : isLeafy t.kind = true) : t.span.slice? source = some t.leafText.toList := by
  cases t with
  | token t => cases hnode
  | node kind role cs =>
    have hplain := h.plain
    cases hplain with
    | node _ hkind _ =>
      obtain ⟨t, rfl⟩ := hkind.leaf hleafy
      exact h.slice?_leaf

theorem slice?_identifier {t : Tree} (h : t.Sound source) (hnode : t.isNode = true)
    {span : Option Span} {name : String} (heq : node t = .identifier span name) :
    ∃ s, span = some s ∧ s.slice? source = some name.toList := by
  cases t with
  | token t => cases hnode
  | node kind role cs =>
    have hleafy := @isLeafy_of_assemble (.node kind role cs) (nodes cs)
      (.inl (congrArg Node.kind heq))
    have hassembled := assembled (.node kind role cs) (nodes cs)
    change assemble _ _ = _ at heq
    rw [heq] at hassembled
    cases hassembled
    exact ⟨_, rfl, slice?_leafText h hnode hleafy⟩

theorem written_node {t : Tree} (h : t.Sound source) (hnode : t.isNode = true) :
    (node t).Written source := by
  refine ⟨fun span name heq => slice?_identifier h hnode heq, fun span kind text heq => ?_,
    fun span operand member heq => ?_, fun span parenthesized specs heq => ?_⟩
  all_goals
    cases t with
    | token t => cases hnode
    | node k role cs => ?_
    have hassembled := assembled (.node k role cs) (nodes cs)
    have hkind := congrArg Node.kind heq
    change assemble _ _ = _ at heq
    rw [heq] at hassembled
    cases hassembled
  case literal => exact ⟨_, rfl, slice?_leafText h hnode (isLeafy_of_assemble (.inr hkind))⟩
  case memberAccess hparts =>
    obtain ⟨p, hp, hmember⟩ := List.mem_map.mp (hparts ▸ List.mem_cons_of_mem _ List.mem_cons_self)
    obtain ⟨c, hc, hcnode, rfl⟩ := mem_nodes hp
    exact slice?_identifier (h.child hc) hcnode hmember

/-- At the start of a text, the reader is in the row of the line that the table gives. -/
theorem line_of_slice? {s : Span} {covered : List Char} (h : s.slice? source = some covered) :
    some ((Point.ofOffset source s.start).row + 1) =
      some ((LineTable.ofText source).position s.start).line := by
  obtain ⟨before, after, rfl, hstart, -⟩ := Span.slice?_eq_some_iff.mp h
  rw [← hstart, Point.position_eq]

/-- A spec that was read from a concrete node stands in the source as it is. -/
theorem written_importSpec {t : Tree} (h : t.Sound source) (hnode : t.isNode = true)
    (hkind : t.kind = "import_spec") :
    (importSpec (Point.ofOffset source) t).Written source t.span := by
  cases t with
  | token t => cases hnode
  | node kind role cs =>
    have hplain := h.plain
    obtain ⟨lo, hrow⟩ := h.row
    rw [Tree.tokens_node] at hrow
    cases hplain with
    | node _ hplain _ =>
      rcases hplain.spec hkind with ⟨_, rfl, _, _, path, rfl⟩ |
        ⟨_, _, rfl, ⟨_, _, name, rfl⟩, _, _, path, rfl⟩
      · exact ⟨rfl, line_of_slice? hrow.1, fun _ => hrow.1, nofun⟩
      · obtain ⟨hname, -, -, hpath, hle, -⟩ := hrow
        refine ⟨rfl, line_of_slice? hname, nofun, ?_⟩
        rintro _ ⟨⟩
        exact Span.exists_slice?_through hname hpath hle

/-- Every spec of an import declaration was read from a concrete node in it. -/
theorem exists_of_mem_importGroup {points : Nat → Point} {t : Tree} (h : t.Sound source)
    (hkind : t.kind = "import_declaration") {spec : ImportSpec}
    (hspec : spec ∈ (importGroup points t).2) :
    ∃ u : Tree, u.Sound source ∧ u.isNode = true ∧ u.kind = "import_spec" ∧
      spec = importSpec points u := by
  have hmem {kind : String} {role : Role} {cs : List Tree}
      (hsound : (Tree.node kind role cs).Sound source)
      (hkind : kind = "import_declaration" ∨ kind = "import_spec_list")
      (hspec : spec ∈ importSpecs points cs) :
      ∃ u : Tree, u.Sound source ∧ u.isNode = true ∧ u.kind = "import_spec" ∧
        spec = importSpec points u := by
    simp only [importSpecs, List.mem_map, List.mem_filter, beq_iff_eq] at hspec
    obtain ⟨u, ⟨hu, hukind⟩, rfl⟩ := hspec
    refine ⟨u, hsound.child hu, ?_, hukind, rfl⟩
    have hplain := hsound.plain
    cases hplain with
    | node _ hplain _ =>
      cases u with
      | token u =>
        have htext := hplain.specs hkind _ hu
        simp only [Tree.Among, Grammar.allBut, bne_iff_ne] at htext
        exact absurd hukind htext
      | node => rfl
  cases t with
  | token t =>
    simp [importGroup, Tree.children, importSpecs] at hspec
  | node kind role cs =>
    obtain rfl : kind = "import_declaration" := hkind
    unfold importGroup at hspec
    split at hspec
    · rename_i group hfind
      have hgroup : group.kind = "import_spec_list" := by simpa using List.find?_some hfind
      cases group with
      | token t => cases hspec
      | node kind' role' ds =>
        exact hmem (h.child (List.mem_of_find?_eq_some hfind)) (.inr hgroup) hspec
    · exact hmem h (.inl rfl) hspec

/-- The imports of a file are those of its import groups, in order. -/
theorem imports_declared (points : Nat → Point) (trees : List Tree) :
    (declared points trees).imports = (declared points trees).decls.flatMap Node.specs := by
  induction trees with
  | nil => rfl
  | cons t trees ih =>
    have hnode : (node t).specs = [] := by
      refine Node.specs_eq_nil ?_
      cases t <;> exact (assembled _ _).kind_ne_importGroup
    simp only [declared]
    split_ifs
    · exact ih
    · exact ih
    · simp [ih, Node.specs]
    · simp [ih, hnode]

/-- Below a declaration there are no import groups. -/
theorem kind_ne_importGroup {points : Nat → Point} {trees : List Tree} {d : Node}
    (hd : d ∈ (declared points trees).decls) :
    ∀ c ∈ d.children, ∀ n ∈ c.preorder, n.kind ≠ .importGroup := by
  obtain ⟨t, -, -, rfl | ⟨-, rfl⟩⟩ := exists_of_mem_decls points hd
  · intro c hc n hn
    exact @forall_mem_preorder (·.kind ≠ .importGroup)
      (fun tree parts => (assembled tree parts).kind_ne_importGroup) t n
      (Node.preorder_subset_of_mem_children hc hn)
  · nofun

theorem written_of_mem_decls {trees : List Tree} (h : ∀ t ∈ trees, t.Sound source) {d n : Node}
    (hd : d ∈ (declared (Point.ofOffset source) trees).decls) (hn : n ∈ d.preorder) :
    n.Written source := by
  obtain ⟨t, ht, hnode, rfl | ⟨hkind, rfl⟩⟩ := exists_of_mem_decls _ hd
  · obtain ⟨u, hu, hunode, rfl⟩ := exists_within hnode hn
    exact written_node ((h t ht).within hu) hunode
  · obtain rfl : n = _ := by simpa [Node.preorder_eq, Node.children] using hn
    refine ⟨by rintro _ _ ⟨⟩, by rintro _ _ _ ⟨⟩, by rintro _ _ _ ⟨⟩, ?_⟩
    rintro _ _ _ ⟨⟩ spec hspec
    obtain ⟨u, hu, hunode, hukind, rfl⟩ := exists_of_mem_importGroup (h t ht) hkind hspec
    exact ⟨u.span, written_importSpec hu hunode hukind⟩

theorem written_of_mem_file {trees : List Tree} (h : ∀ t ∈ trees, t.Sound source) {n : Node}
    (hn : n ∈ (file source trees).preorder) : n.Written source := by
  rw [Node.preorder_eq, List.mem_cons, List.mem_flatMap] at hn
  rcases hn with rfl | ⟨d, hd, hn⟩
  · exact ⟨nofun, nofun, nofun, nofun⟩
  · exact written_of_mem_decls h hd hn

end Lowering

/-- The tree of a source has one file, at the root, and import groups only right below it. The imports
of the file are those of its import groups, in order; and what nodes and specs say stands in the
source where they are. -/
theorem written_of_parse {root : Node} (h : parse source = .ok root) :
    ∃ span package imports decls, root = .file span package imports decls ∧
      (∀ d ∈ decls, ∀ n ∈ d.preorder, n.kind ≠ .file) ∧
      (∀ d ∈ decls, ∀ c ∈ d.children, ∀ n ∈ c.preorder, n.kind ≠ .importGroup) ∧
      imports = decls.flatMap Node.specs ∧
      (∀ n ∈ root.preorder, n.Written source) ∧
      ∀ spec ∈ imports, ∃ s, spec.Written source s := by
  obtain ⟨trees, rfl, hsound, -⟩ := exists_trees_of_parse h
  refine ⟨_, _, _, _, rfl, fun d hd n hn => ?_, fun d hd => Lowering.kind_ne_importGroup hd,
    Lowering.imports_declared _ _, fun n => Lowering.written_of_mem_file hsound, fun spec hspec => ?_⟩
  · exact Lowering.declared_kind_ne_file _ _ n (List.mem_flatMap.mpr ⟨d, hd, hn⟩)
  · rw [Lowering.imports_declared, List.mem_flatMap] at hspec
    obtain ⟨d, hd, hspec⟩ := hspec
    cases d with
    | importGroup span parenthesized specs =>
      exact (Lowering.written_of_mem_decls hsound hd (Node.self_mem_preorder _)).specs _ _ _ rfl
        spec hspec
    | _ => cases hspec

def twoImports : List Char :=
  "import \"é\"\nvar s = \x60\n\x60\nimport (_ /*\n*/ \x60c\x60\n. \"d\")".toList

theorem written_twoImports : ∃ root, parse twoImports = .ok root ∧
    ∃ span package imports decls, root = .file span package imports decls ∧
      (∀ d ∈ decls, ∀ n ∈ d.preorder, n.kind ≠ .file) ∧
      (∀ d ∈ decls, ∀ c ∈ d.children, ∀ n ∈ c.preorder, n.kind ≠ .importGroup) ∧
      imports = decls.flatMap Node.specs ∧
      (∀ n ∈ root.preorder, n.Written twoImports) ∧
      ∀ spec ∈ imports, ∃ s, spec.Written twoImports s := by
  have hok : (parse twoImports).toBool = true := by decide +kernel
  cases hparse : parse twoImports with
  | error e => simp [hparse, Except.toBool] at hok
  | ok root => exact ⟨root, rfl, written_of_parse hparse⟩

end Go
end SentinelWrap
