import SentinelWrap.Proofs.Go.Revision.Group
import SentinelWrap.Proofs.Go.Verbatim
import SentinelWrap.Proofs.Wrapping.Reread
import SentinelWrap.Wrapping.Replacement

/-! Import groups with the library, printed and read again. What is printed is a file's only declaration,
it holds the specs of the group and the library, and it is printed in the same way a second time. -/
namespace SentinelWrap

theorem Span.Lined.le {lo hi : Nat} {ss : List Span} (h : Span.Lined lo hi ss) : lo ≤ hi := by
  induction ss generalizing lo with
  | nil => exact h
  | cons s ss ih => exact Nat.le_trans h.1 (Nat.le_trans h.2.1 (ih h.2.2))

namespace Go.Grammar
open Token
open Text (size)
open Text.Identifier (isContinue)

variable {like : List Token} {S : Tree} {source : List Char}

/-- A path has a quote at either end. -/
theorem two_le_size_path {p : Token} {r : List Char} (hp : IsPath p) (h : Leads p.kind p.text.toList r) :
    2 ≤ size p.text.toList := by
  have halone := (h.string hp []).scan
  rw [List.append_nil] at halone
  obtain ⟨s, hs, hscan⟩ := exists_of_scan? halone
  match hx : p.text.toList with
  | [] => exact absurd hx h.ne_nil
  | [c] =>
    rw [hx] at hscan
    rcases hp with hp | hp <;> rw [hp] at hs
    · obtain rfl : s = Quoted.string := by simpa [classes] using hs
      by_cases hc : c = '"'
      · subst hc
        cases hscan
      · simp [Quoted.string, hc] at hscan
    · obtain rfl : s = Quoted.rawString := by simpa [classes] using hs
      simp [Quoted.rawString, Quoted.rawTail] at hscan
  | c :: d :: x =>
    have hc := c.utf8Size_pos
    have hd := d.utf8Size_pos
    simp only [Text.size_cons]
    omega

theorem SpecTokens.start_add_two_le (h : SpecTokens like S) (hlike : Writable like) {lo : Nat}
    (hrow : Row source lo like) : S.start + 2 ≤ S.stop := by
  have hpath {p : Token} (hp : IsPath p) (hmem : p ∈ like) : p.span.start + 2 ≤ p.span.stop := by
    obtain ⟨r, hr⟩ := hlike p hmem (by rcases hp with hp | hp <;> simp [hp])
    have hstop := (hrow.sits hmem).stop_eq
    have := two_le_size_path hp hr
    omega
  cases h with
  | @path p hp => exact hpath hp (by simp)
  | @named n p hn hp =>
    have hlast := hpath hp (by simp)
    have hfirst := (hrow.sits (t := n) (by simp)).stop_eq
    have hbetween := (@row_append source lo [n] [p]).mp hrow
    have hle := hbetween.2.le_start (List.mem_singleton_self p)
    change n.span.start + 2 ≤ p.span.stop
    simp only [endOf] at hle
    omega

/-- A spec is printed on one line if its path stands on one. -/
theorem SpecTokens.notMem_specText (h : SpecTokens like S) (hlike : Writable like) {points : Nat → Go.Point}
    (hpath : '\n' ∉ (Lowering.importSpec points S).path.toList) : '\n' ∉ specText like := by
  cases h with
  | path hp => exact hpath
  | @named n p hn hp =>
    have hname : '\n' ∉ n.text.toList := by
      rcases hn with ⟨-, htext⟩ | ⟨hkind, -⟩
      · rw [htext]
        decide
      · obtain ⟨r, hr⟩ := hlike n (by simp) (by simp [hkind])
        rw [hkind] at hr
        obtain ⟨c, w, hw, hc, hcontinue, -⟩ := hr.word
        rw [hw]
        intro hmem
        rcases List.mem_cons.mp hmem with rfl | hmem
        · exact absurd hc (by decide +kernel)
        · exact absurd (hcontinue _ hmem) (by decide +kernel)
    have hpath' : '\n' ∉ p.text.toList := hpath
    simp [specText, hname, hpath']

/-- Specs in a row begin on lines in order, and each takes two bytes or more. -/
theorem inOrder_of_lined {lo hi : Nat} {Ss : List Tree} (hlined : Span.Lined lo hi (Ss.map Tree.span))
    (hsizes : ∀ S ∈ Ss, S.start + 2 ≤ S.stop) (hhi : hi ≤ size source)
    (hsize : size source < UInt64.size) :
    (Ss.map (Lowering.importSpec (Go.Point.ofOffset source))).IsChain Node.InOrder ∧
      lo + 2 * Ss.length ≤ hi := by
  induction Ss generalizing lo with
  | nil => exact ⟨.nil, hlined⟩
  | cons S Ss ih =>
    obtain ⟨htwo, hsizes⟩ := List.forall_mem_cons.mp hsizes
    obtain ⟨hlo, -, hlater⟩ := hlined
    have hstop : S.stop ≤ hi := hlater.le
    obtain ⟨hchain, hbound⟩ := ih hlater hsizes
    have hlo' : lo ≤ S.start := hlo
    have hbound' : S.stop + 2 * Ss.length ≤ hi := hbound
    refine ⟨?_, by rw [List.length_cons]; omega⟩
    cases Ss with
    | nil => exact .singleton _
    | cons S' Ss =>
      refine List.isChain_cons_cons.mpr ⟨⟨_, _, rfl, rfl, ?_, ?_⟩, hchain⟩
      · have hstart : S.stop ≤ S'.start := hlater.1
        exact Nat.succ_le_succ (Point.row_moveOn_mono _ (by omega) source)
      · have hrow : (Point.ofOffset source S.start).row ≤ 0 + S.start := Point.row_moveOn_le _ _ source
        omega

section
variable {text : List Char} {tokens pre init us : List Token} {r w t : Token} {cs : List Tree}
  {rest : Tree} {role : Role} {offset : Nat}
  (h : ImportOf tokens cs pre r init w us t rest)
  (hsound : (Tree.node "import_declaration" role cs).Sound source)
include h hsound

theorem ImportOf.stop_boundary : Text.isBoundary w.span.stop source = true := by
  obtain ⟨lo, hrow⟩ := hsound.row
  have hstop : (Tree.node "import_declaration" role cs).stop = w.span.stop :=
    congrArg Span.stop h.span
  rw [← hstop]
  exact (hsound.full.stands hrow).stop_boundary

/-- What stands after the first word of a declaration. -/
theorem ImportOf.exists_body : ∃ body,
    Span.slice? ⟨r.span.stop, w.span.stop⟩ source = some body := by
  obtain ⟨hsits, hrow, hend⟩ := h.row_rest hsound
  rw [← h.span_eq]
  exact Span.exists_slice? (hend ▸ hrow.le_endOf) hsits.boundaries.2 (h.stop_boundary hsound)

variable (hsited : ∀ c ∈ cs, c.Every fun kind cs =>
    isSited kind = true → Rule.Sited Symbol.rule tokens kind cs)
  (hlexes : Lexes offset none text tokens)
include hsited hlexes

/-- A spec of a declaration that was read stands after its first word. -/
theorem ImportOf.bounds :
    ∀ S ∈ specTrees [rest], t.span.stop ≤ S.start ∧ S.start + 2 ≤ S.stop := by
  intro S hS
  obtain ⟨-, hrow, -⟩ := h.row_rest hsound
  obtain ⟨hwithin, like, htokens, hlike⟩ := h.exists_specTokens hsound hsited hlexes hS
  obtain ⟨lo, hrow'⟩ := ((hsound.child (by simp [h.children])).within hwithin).row
  have hstart : (S.withRole .plain).start = S.start := by cases S <;> rfl
  have hstop : (S.withRole .plain).stop = S.stop := by cases S <;> rfl
  rw [← tokens_withRole .plain, htokens.tokens_eq] at hrow'
  rw [← hstart, ← hstop]
  refine ⟨?_, htokens.start_add_two_le hlike hrow'⟩
  have hsub : like ⊆ rest.tokens := by
    rw [← htokens.tokens_eq, tokens_withRole]
    exact hwithin.tokens_subset
  cases like with
  | nil => cases htokens
  | cons u like =>
    rw [htokens.start_eq]
    exact hrow.le_start (hsub List.mem_cons_self)

theorem ImportOf.lined :
    Span.Lined t.span.stop w.span.stop ((specTrees [rest]).map Tree.span) := by
  obtain ⟨-, hrow, hend⟩ := h.row_rest hsound
  have hbounds := h.bounds hsound hsited hlexes
  obtain ⟨ss, hss, hlined⟩ := Lowering.exists_lined_specs (Go.Point.ofOffset source) hsound rfl
  rw [importGroup_snd, show (Tree.node "import_declaration" role cs).children = cs from rfl,
    h.specTrees_eq] at hss
  obtain rfl : (specTrees [rest]).map Tree.span = ss := by
    refine List.map_injective_iff.mpr (Option.some_injective Span) ?_
    rw [← hss, List.map_map, List.map_map]
    rfl
  have hstop : (Tree.node "import_declaration" role cs).stop = w.span.stop :=
    congrArg Span.stop h.span
  rw [hstop] at hlined
  generalize specTrees [rest] = Ss at hbounds hlined
  cases Ss with
  | nil => exact hend ▸ hrow.le_endOf
  | cons S Ss => exact ⟨(hbounds S List.mem_cons_self).1, hlined.2⟩

/-- The specs of a declaration that was read begin on lines in order. -/
theorem ImportOf.inOrder (hsize : size source < UInt64.size) :
    ((specTrees [rest]).map (Lowering.importSpec (Go.Point.ofOffset source))).IsChain Node.InOrder ∧
      6 + 2 * (specTrees [rest]).length ≤ size source := by
  obtain ⟨hsits, -, -⟩ := h.row_rest hsound
  have hword : t.span.stop = t.span.start + 6 := by
    have hstop := hsits.stop_eq
    rw [h.text_eq] at hstop
    exact hstop
  have hhi := Text.le_size_of_isBoundary (h.stop_boundary hsound)
  obtain ⟨hchain, hbound⟩ := inOrder_of_lined (h.lined hsound hsited hlexes)
    (fun S hS => (h.bounds hsound hsited hlexes S hS).2) hhi hsize
  exact ⟨hchain, by omega⟩

/-- A declaration the paths of which stand on one line each has specs that are printed so. -/
theorem ImportOf.notMem_render {points : Nat → Go.Point}
    (hpaths : ∀ spec ∈ (specTrees [rest]).map (Lowering.importSpec points), '\n' ∉ spec.path.toList) :
    ∀ spec ∈ (specTrees [rest]).map (Lowering.importSpec points), '\n' ∉ spec.render.toList := by
  rw [List.forall_mem_map] at hpaths ⊢
  intro S hS
  obtain ⟨-, like, htokens, hlike⟩ := h.exists_specTokens hsound hsited hlexes hS
  have hpath := hpaths S hS
  rw [← importSpec_withRole points .plain] at hpath ⊢
  rw [htokens.render_eq]
  exact htokens.notMem_specText hlike hpath

end

/-- A printed group is read as the same specs, and these are printed in the same way. -/
theorem exists_reread {body : List Char} {specs : List ImportSpec} {Ss : List Tree} {points : Nat → Go.Point}
    (h : List.Forall₂ (SpecOf body) specs Ss) (hne : Ss ≠ [])
    (hkinds : ∀ S ∈ Ss, S.kind = "import_spec")
    (herase : (Ss.map (Lowering.importSpec points)).map ImportSpec.erase = specs.map ImportSpec.erase)
    (hrender : ∀ spec ∈ specs, '\n' ∉ spec.render.toList)
    (hbound : 4 + 2 * specs.length < UInt64.size) :
    ∃ span span' specs', parse (groupFile specs) =
        .ok (.file span (some "p") specs' [.importGroup span' true specs']) ∧
      specs'.map ImportSpec.erase = specs.map ImportSpec.erase ∧
      Node.renderSpecs none specs' = Node.renderSpecs none specs := by
  obtain ⟨span, span', Ss', hbares, hstarts, hparse⟩ := exists_parse_groupFile h hne
  have hsame : (Ss'.map (Lowering.importSpec (Go.Point.ofOffset (groupFile specs)))).map
      ImportSpec.erase = specs.map ImportSpec.erase :=
    (Lowering.erase_importSpecs_of_bare hbares hkinds).trans herase
  refine ⟨span, span', _, hparse, hsame, Node.renderSpecs_none_linesFrom ?_ ?_ hbound⟩
  · have hall := List.forall₂_eq_eq_eq ▸ hsame.symm
    rw [List.forall₂_map_left_iff, List.forall₂_map_right_iff] at hall
    refine hall.imp fun a b heq => ?_
    have hrenders := congrArg ImportSpec.render heq
    exact hrenders.symm
  · have hlines := Node.lines_offsetsFrom hrender none "package p\n\nimport (\n".toList ")\n".toList
    rw [← groupFile_eq, show size "package p\n\nimport (\n".toList = 20 from rfl, ← hstarts] at hlines
    have hfirst : "package p\n\nimport (\n".toList.count '\n' + 1 = 4 := rfl
    rw [hfirst] at hlines
    rw [← hlines]
    simp [Function.comp_def, Lowering.importSpec]

end Go.Grammar

namespace Wrapping
open Go (Tree Token Parsed specTrees)
open Go.Grammar

variable {source : List Char} {tokens : List Token} {trees : List Tree}

/-- An import group of a tree comes from an import declaration. -/
theorem exists_importOf_of_mem (h : Parsed source tokens trees) {group : ImportGroup}
    (hgroup : group.node ∈ (Go.Lowering.file source trees).preorder) :
    ∃ role cs pre r init w us t rest, .node "import_declaration" role cs ∈ trees ∧
      ImportOf tokens cs pre r init w us t rest ∧
      group.parenthesized =
        (Go.Lowering.importGroup (Go.Point.ofOffset source) (.node "import_declaration" role cs)).1 ∧
      group.specs =
        (Go.Lowering.importGroup (Go.Point.ofOffset source) (.node "import_declaration" role cs)).2 := by
  rw [Node.preorder_eq, List.mem_cons, List.mem_flatMap] at hgroup
  rcases hgroup with hgroup | ⟨d, hd, hgroup⟩
  · cases hgroup
  obtain ⟨D, hD, hnode, rfl | ⟨hkind, rfl⟩⟩ := Go.Lowering.exists_of_mem_decls _ hd
  · obtain ⟨u, -, -, heq⟩ := Go.Lowering.exists_within hnode hgroup
    have hkind := congrArg Node.kind heq
    cases u <;> exact absurd hkind.symm (Go.Lowering.assembled _ _).kind_ne_importGroup
  · obtain heq : group.node = _ := by simpa [Node.preorder_eq, Node.children] using hgroup
    cases D with
    | token => cases hnode
    | node kind role cs =>
      obtain rfl : kind = "import_declaration" := hkind
      have hsited := h.sited hD
      cases hsited with
      | node _ hsited _ =>
      obtain ⟨pre, r, init, w, us, t, rest, himport⟩ := exists_importOf (hsited rfl)
      obtain ⟨-, hparens, hspecs⟩ := Node.importGroup.inj heq
      exact ⟨role, cs, pre, r, init, w, us, t, rest, hD, himport, hparens, hspecs⟩

/-- The specs of a group that was read, with the library after them, can be printed and read again. -/
theorem exists_specs_of_mem (h : Parsed source tokens trees) {group : ImportGroup}
    (hgroup : group.node ∈ (Go.Lowering.file source trees).preorder) (conflict : Bool) :
    ∃ (body : List Char) (Ss : List Tree),
      group.specs = Ss.map (Go.Lowering.importSpec (Go.Point.ofOffset source)) ∧
      List.Forall₂ (SpecOf body) (group.specs ++ [librarySpec conflict])
        (Ss.map (Tree.withRole .plain) ++ [libraryTree conflict]) ∧
      (∀ S ∈ Ss, S.kind = "import_spec") ∧ (group.parenthesized = true ∨ group.specs ≠ []) ∧
      (Text.size source < UInt64.size →
        group.specs.IsChain Node.InOrder ∧ 6 + 2 * group.specs.length ≤ Text.size source) ∧
      ((∀ spec ∈ group.specs, '\n' ∉ spec.path.toList) →
        ∀ spec ∈ group.specs, '\n' ∉ spec.render.toList) := by
  obtain ⟨role, cs, pre, r, init, w, us, t, rest, hmem, himport, hparens, hspecs⟩ :=
    exists_importOf_of_mem h hgroup
  obtain ⟨before, text, -, -, hlexes⟩ := h.exists_lexes
  have hsound := h.sound hmem
  have hsited := h.sited hmem
  cases hsited with
  | node _ _ hsited =>
  obtain ⟨body, hbody⟩ := himport.exists_body hsound
  have hspecs' : group.specs =
      (specTrees [rest]).map (Go.Lowering.importSpec (Go.Point.ofOffset source)) := by
    rw [hspecs, importGroup_snd, ← himport.specTrees_eq]
    rfl
  refine ⟨body, specTrees [rest], hspecs', ?_, fun S hS => ?_, ?_, fun hsize => ?_, ?_⟩
  · rw [hspecs]
    exact himport.forall₂_specOf hsound hsited hlexes hbody _ conflict
  · obtain ⟨-, _, _, rfl⟩ :=
      exists_of_mem_specTrees himport (hsound.child (by simp [himport.children])).plain hS
    rfl
  · rw [hparens, hspecs]
    exact parenthesized_or_ne_nil himport
  · rw [hspecs', List.length_map]
    exact himport.inOrder hsound hsited hlexes hsize
  · rw [hspecs']
    exact himport.notMem_render hsound hsited hlexes

def named (spec : ImportSpec) : Option String × String := (spec.name, spec.path)

theorem map_named_of_erase {specs specs' : List ImportSpec}
    (h : specs'.map ImportSpec.erase = specs.map ImportSpec.erase) :
    specs'.map named = specs.map named := by
  have hnamed : named = named ∘ ImportSpec.erase := rfl
  rw [hnamed, ← List.map_map, h, List.map_map]

theorem notMem_render_librarySpec (conflict : Bool) : '\n' ∉ (librarySpec conflict).render.toList := by
  cases conflict <;> decide +kernel

/-- The lines of a printed group with the library. -/
theorem split_groupText {specs : List ImportSpec} (hchain : specs.IsChain Node.InOrder)
    (hlines : ∀ spec ∈ specs, spec.line.isSome) (hrender : ∀ spec ∈ specs, '\n' ∉ spec.render.toList)
    (conflict : Bool) :
    Text.split (· == '\n') ("import".toList ++ ' ' :: groupText (specs ++ [librarySpec conflict])) =
      "import (".toList :: (Node.spacedLines specs ++
        ['\t' :: (librarySpec conflict).render.toList, [')']]) := by
  have hfirst : "import".toList ++ ' ' :: groupText (specs ++ [librarySpec conflict]) =
      "import (".toList ++ '\n' ::
        ((Node.renderSpecs none (specs ++ [librarySpec conflict])).toList ++ [')']) := by
    simp [groupText]
  rw [hfirst, Text.split_line (by decide +kernel), Node.split_renderSpecs hchain hlines hrender rfl
    (notMem_render_librarySpec conflict)]
  cases specs <;> simp [Node.isApart]

/-- An import group with the library, printed alone after a package clause, is accepted, and the file
that is read holds nothing but a group of its specs and the library. Each spec has a line of its own,
with a blank line between two that were written on lines two or more apart and nowhere else, and the
group that is read is printed in the same way. Lines are numbers of 64 bits, and so is the length of
the text. -/
theorem parse_extended {path : Path} {text : String} {file : SourceFile}
    (hparse : SourceFile.parse path text = .ok file) (hsize : Text.size text.toList < UInt64.size)
    {group : ImportGroup} (hgroup : group.node ∈ file.root.preorder)
    (hpaths : ∀ spec ∈ group.specs, '\n' ∉ spec.path.toList) {conflict : Bool} {printed : String}
    (hprinted : (group.extended conflict).node.render text.toList = printed) :
    (∃ (reread : SourceFile) (span : Option Span) (again : ImportGroup),
      SourceFile.parse path ("package p\n\n" ++ printed ++ "\n") = .ok reread ∧
      reread.root = .file span (some "p") again.specs [again.node] ∧
      again.specs.map named = group.specs.map named ++
        [(if conflict then some "errorsPkg" else none, "\"github.com/pkg/errors\"")] ∧
      again.node.render reread.text.toList = printed) ∧
    (∀ spec ∈ group.specs, ∃ s, spec.span = some s ∧ spec.line = some (file.position s.start).line) ∧
    Text.split (· == '\n') printed.toList = "import (".toList :: (Node.spacedLines group.specs ++
      ['\t' :: (librarySpec conflict).render.toList, [')']]) := by
  obtain ⟨hgo, rfl, rfl, hroot⟩ := parse_eq_ok_iff.mp hparse
  obtain ⟨tokens, trees, hlist, hread, htree⟩ := Go.parse_eq_ok_iff.mp hroot
  rw [htree] at hgroup
  have hparsed : Parsed file.text.toList tokens trees := ⟨hlist, hread⟩
  obtain ⟨body, Ss, hspecs, hspecOf, hkinds, hparens, hordered, hlines⟩ :=
    exists_specs_of_mem hparsed hgroup conflict
  obtain ⟨hchain, hbound⟩ := hordered hsize
  have hrender := hlines hpaths
  have hprinted' : printed.toList =
      "import".toList ++ ' ' :: groupText (group.specs ++ [librarySpec conflict]) := by
    rw [← hprinted, ImportGroup.node, render_importGroup]
    exact renderImportGroup_append hparens
  refine ⟨?_, fun spec hspec => ?_, ?_⟩
  · have herase := Go.erase_importSpec_withLibrary (Go.Point.ofOffset file.text.toList)
      (Go.Point.ofOffset file.text.toList) Ss conflict
    rw [← hspecs] at herase
    obtain ⟨span, span', specs', hparse', herase', hagain⟩ := exists_reread hspecOf (by simp)
      (Go.kind_withLibrary hkinds conflict) herase
      (List.forall_mem_append.mpr ⟨hrender, List.forall_mem_singleton.mpr
        (notMem_render_librarySpec conflict)⟩)
      (by rw [List.length_append, List.length_singleton]; omega)
    refine ⟨⟨file.path, "package p\n\n" ++ printed ++ "\n", _⟩, span, ⟨span', true, specs'⟩,
      parse_eq_ok_iff.mpr ⟨hgo, rfl, rfl, ?_⟩, rfl, ?_, ?_⟩
    · have htext : ("package p\n\n" ++ printed ++ "\n").toList =
          groupFile (group.specs ++ [librarySpec conflict]) := by
        rw [String.toList_append, String.toList_append, hprinted']
        rfl
      rw [htext]
      exact hparse'
    · rw [map_named_of_erase herase', List.map_append]
      cases conflict <;> rfl
    · have hgroup' : Node.renderImportGroup true specs' =
          "import (\n" ++ Node.renderSpecs none specs' ++ ")" := rfl
      rw [ImportGroup.node, render_importGroup, hgroup', hagain, ← String.toList_inj, hprinted',
        groupText]
      simp
  · have hwritten := Go.Lowering.written_of_mem_file (fun t => hparsed.sound) hgroup
    obtain ⟨s, hs⟩ := hwritten.specs _ _ _ rfl spec hspec
    exact ⟨s, hs.span_eq, hs.line_eq⟩
  · have hplaced : ∀ spec ∈ group.specs, spec.line.isSome := by
      rw [hspecs, List.forall_mem_map]
      exact fun S _ => rfl
    rw [hprinted']
    exact split_groupText hchain hplaced hrender conflict

theorem ImportGroup.node_of_ofNode? {n : Node} {group : ImportGroup} (h : ofNode? n = some group) :
    group.node = n := by
  cases n with
  | importGroup span parenthesized specs =>
    obtain rfl := Option.some.inj h
    rfl
  | _ => cases h

/-- A group with two specs on one line, a raw path and lines without a spec. -/
def scatteredImports : String :=
  "package p\nimport (a \"x\"; . `d`\n\n\n_ \"e/errors\"\n)\n"

def scatteredImportsPrinted : String :=
  "import (\n\ta \"x\"\n\t. `d`\n\n\t_ \"e/errors\"\n\terrorsPkg \"github.com/pkg/errors\"\n)"

theorem parse_scatteredImportsPrinted : ∃ (file : SourceFile) (group : ImportGroup),
    SourceFile.parse ⟨"a.go"⟩ scatteredImports = .ok file ∧
    Text.size scatteredImports.toList < UInt64.size ∧ group.node ∈ file.root.preorder ∧
    group.specs.map named = [(some "a", "\"x\""), (some ".", "`d`"), (some "_", "\"e/errors\"")] ∧
    (∀ spec ∈ group.specs, '\n' ∉ spec.path.toList) ∧
    (group.extended true).node.render scatteredImports.toList = scatteredImportsPrinted ∧
    (∃ (reread : SourceFile) (span : Option Span) (again : ImportGroup),
      SourceFile.parse ⟨"a.go"⟩ ("package p\n\n" ++ scatteredImportsPrinted ++ "\n") = .ok reread ∧
      reread.root = .file span (some "p") again.specs [again.node] ∧
      again.specs.map named =
        group.specs.map named ++ [(some "errorsPkg", "\"github.com/pkg/errors\"")] ∧
      again.node.render reread.text.toList = scatteredImportsPrinted) ∧
    (∀ spec ∈ group.specs, ∃ s, spec.span = some s ∧ spec.line = some (file.position s.start).line) ∧
    Text.split (· == '\n') scatteredImportsPrinted.toList =
      "import (".toList :: (Node.spacedLines group.specs ++
        ['\t' :: (librarySpec true).render.toList, [')']]) := by
  let specs : List ImportSpec := [⟨some ⟨18, 23⟩, some 2, some "a", "\"x\""⟩,
    ⟨some ⟨25, 30⟩, some 2, some ".", "`d`"⟩, ⟨some ⟨33, 45⟩, some 5, some "_", "\"e/errors\""⟩]
  have hgroups : (SourceFile.parse ⟨"a.go"⟩ scatteredImports).toOption.map (fun file =>
      (file.root.preorder.filterMap ImportGroup.ofNode?).map fun group =>
        (group.parenthesized, group.specs)) = some [(true, specs)] := by
    decide +kernel
  cases hparse : SourceFile.parse ⟨"a.go"⟩ scatteredImports with
  | error e => simp [hparse, Except.toOption] at hgroups
  | ok file =>
    obtain ⟨group, hgroup, hparens, hspecs⟩ : ∃ group,
        file.root.preorder.filterMap ImportGroup.ofNode? = [group] ∧ group.parenthesized = true ∧
          group.specs = specs := by
      simpa [hparse, Except.toOption] using hgroups
    obtain ⟨n, hn, hof⟩ := List.mem_filterMap.mp (hgroup ▸ List.mem_singleton_self group)
    obtain rfl := ImportGroup.node_of_ofNode? hof
    have hpaths : ∀ spec ∈ group.specs, '\n' ∉ spec.path.toList := by
      rw [hspecs]
      decide +kernel
    have hprinted : (group.extended true).node.render scatteredImports.toList =
        scatteredImportsPrinted := by
      have hrender : Node.renderImportGroup true (specs ++ [librarySpec true]) =
          scatteredImportsPrinted := by
        decide +kernel
      rw [ImportGroup.node, render_importGroup, ImportGroup.extended, hparens, hspecs]
      exact hrender
    have hsize : Text.size scatteredImports.toList < UInt64.size := by decide +kernel
    refine ⟨file, group, rfl, hsize, hn, ?_, hpaths, hprinted,
      parse_extended hparse hsize hn hpaths hprinted⟩
    rw [hspecs]
    rfl

end Wrapping
end SentinelWrap
