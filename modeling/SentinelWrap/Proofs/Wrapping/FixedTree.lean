import SentinelWrap.Proofs.Wrapping.Reread

/-! The tree of a fixed text. It is the tree of the text with every site wrapped and the library added to
the first import declaration, so nothing is found in it any more. -/
namespace SentinelWrap.Wrapping
open Go (Tree Token Parsed changeAt)
open Go.Grammar
open Go.Lowering (declared Declared importGroup)

/-- The declarations with the library added to the first import group, which then stands in
parentheses. -/
def addLibrary (conflict : Bool) : List Node → List Node
  | [] => []
  | decl :: decls =>
    match ImportGroup.ofNode? decl with
    | some group => { group.extended conflict with parenthesized := true }.node :: decls
    | none => decl :: addLibrary conflict decls

/-- The file with the library added to its first import group, and at the same place to its imports. -/
def withLibrary (conflict : Bool) : Node → Node
  | .file span package imports decls =>
    match ImportGroup.first? decls with
    | some group => .file span package
        (imports.insertIdx group.specs.length (librarySpec conflict)) (addLibrary conflict decls)
    | none => .file span package imports decls
  | n => n

/-- The tree of a file with its sites wrapped and, if there are any, the library added. -/
def fixedTree (file : SourceFile) : Node :=
  if (qualifyingReturns file.root).isEmpty then file.root
  else wrapAll (qualifier (hasConflict file.imports)) (withLibrary (hasConflict file.imports) file.root)

section
variable {conflict : Bool} {front back : List Node} {span : Option Span} {parenthesized : Bool}
  {specs : List ImportSpec}

theorem ofNode?_eq_none {n : Node} (h : n.kind ≠ .importGroup) : ImportGroup.ofNode? n = none := by
  cases n with
  | importGroup => exact absurd rfl h
  | _ => rfl

private theorem addLibrary_append (hfront : ∀ d ∈ front, d.kind ≠ .importGroup) :
    addLibrary conflict (front ++ .importGroup span parenthesized specs :: back) =
      front ++ .importGroup span true (specs ++ [librarySpec conflict]) :: back := by
  induction front with
  | nil => rfl
  | cons d front ih =>
    obtain ⟨hd, hfront⟩ := List.forall_mem_cons.mp hfront
    rw [List.cons_append, addLibrary, ofNode?_eq_none hd]
    exact congrArg (d :: ·) (ih hfront)

private theorem first?_append (hfront : ∀ d ∈ front, d.kind ≠ .importGroup) :
    ImportGroup.first? (front ++ .importGroup span parenthesized specs :: back) =
      some ⟨span, parenthesized, specs⟩ := by
  have hnone : front.findSome? ImportGroup.ofNode? = none := by
    rw [List.findSome?_eq_none_iff]
    exact fun d hd => ofNode?_eq_none (hfront d hd)
  rw [ImportGroup.first?, List.findSome?_append, hnone]
  rfl

theorem withLibrary_file {root : Option Span} {package : Option String} {later : List ImportSpec}
    (hfront : ∀ d ∈ front, d.kind ≠ .importGroup) :
    withLibrary conflict (.file root package (specs ++ later)
        (front ++ .importGroup span parenthesized specs :: back)) =
      .file root package (specs ++ librarySpec conflict :: later)
        (front ++ .importGroup span true (specs ++ [librarySpec conflict]) :: back) := by
  have hinsert : (specs ++ later).insertIdx specs.length (librarySpec conflict) =
      specs ++ librarySpec conflict :: later := by
    induction specs with
    | nil => rfl
    | cons spec specs ih => simp [ih]
  rw [withLibrary, first?_append hfront]
  simp only [hinsert, addLibrary_append hfront]

end

@[simp] theorem lastName?_erase (n : Node) : lastName? n.erase = lastName? n := by cases n <;> rfl

theorem returnsSentinel_erase {n : Node} : ReturnsSentinel n.erase ↔ ReturnsSentinel n := by
  rw [returnsSentinel_iff, returnsSentinel_iff]
  cases n with
  | ret span results =>
    simp only [Node.erase, Node.eraseAll_eq_map, Site.ofNode?, List.getLast?_map]
    cases results.getLast? with
    | none => rfl
    | some value =>
      simp only [Option.map_some, Option.bind_eq_bind, Option.bind_some, lastName?_erase]
      cases lastName? value with
      | none => rfl
      | some name =>
        simp only [Option.bind_some]
        split_ifs <;> rfl
  | _ => rfl

theorem errNotNil_erase {n : Node} : ErrNotNil n.erase ↔ ErrNotNil n := by
  rw [← isErrNotNil_iff, ← isErrNotNil_iff]
  cases n with
  | comparison span left op right => cases op <;> simp [Node.erase, isErrNotNil]
  | _ => rfl

theorem flagged_erase (n : Node) : flagged n.erase = (flagged n).map (Prod.map id Node.erase) := by
  cases n with
  | conditional span init condition body alternative =>
    cases init <;> cases alternative <;>
      simp [Node.erase, flagged, Node.eraseAll_eq_map, Node.eraseOption_eq_map, errNotNil_erase,
        returnsSentinel_erase, Function.comp_def]
  | _ => simp [Node.erase, flagged, Node.children, Node.eraseAll_eq_map, Function.comp_def]

theorem flaggedBelow_erase (n : Node) :
    flaggedBelow n.erase = (flaggedBelow n).map (Prod.map id Node.erase) := by
  rw [flaggedBelow, flaggedBelow, Node.preorder_erase, List.flatMap_map, List.map_flatMap]
  exact List.flatMap_congr fun m _ => flagged_erase m

/-- In a wrapped tree no child of a node is a site. -/
theorem fst_of_mem_flagged_wrapAll {q : String} {n : Node} :
    ∀ p ∈ flagged (wrapAll q n), p.1 = false := by
  cases n with
  | conditional span init condition body alternative =>
    simp only [wrapAll, flagged, wrapBody_eq_map, List.forall_mem_append, List.forall_mem_cons,
      List.forall_mem_map, Bool.and_eq_false_iff, decide_eq_false_iff_not, implies_true, and_true,
      true_and]
    intro m _
    by_cases hguard : ErrNotNil condition
    · right
      simp only [hguard, decide_true, Bool.true_and]
      exact not_returnsSentinel_wrapIf q m
    · exact .inl (mt errNotNil_wrapAll.mp hguard)
  | _ => simp [wrapAll, flagged]

theorem fst_of_mem_flaggedBelow_wrapAll {q : String} {root : Node} :
    ∀ p ∈ flaggedBelow (wrapAll q root), p.1 = false := by
  intro p hp
  obtain ⟨m, hm, hp⟩ := List.mem_flatMap.mp hp
  rcases mem_preorder_wrapAll hm with ⟨n, -, rfl⟩ | hkind
  · exact fst_of_mem_flagged_wrapAll p hp
  · cases m with
    | conditional => simp [Node.kind, siteKinds] at hkind
    | _ =>
      obtain ⟨_, -, rfl⟩ := List.mem_map.mp hp
      rfl

/-- A tree that is a wrapped one but for the places has no qualifying return. -/
theorem qualifyingReturns_of_erase {q : String} {span : Option Span} {package : Option String}
    {imports : List ImportSpec} {decls : List Node} {root : Node}
    (h : (Node.file span package imports decls).erase = (wrapAll q root).erase) :
    qualifyingReturns (.file span package imports decls) = [] := by
  rw [List.eq_nil_iff_forall_not_mem]
  intro r hr
  have hspan : r.span.isSome = true := by
    obtain ⟨⟨s, leading, value, -⟩, -⟩ := of_mem_qualifyingReturns hr
    rfl
  have hmem := List.mem_map_of_mem (f := Prod.map id Node.erase) ((mem_qualifyingReturns_iff hspan).mp hr)
  rw [← flaggedBelow_erase, h, flaggedBelow_erase] at hmem
  obtain ⟨p, hp, heq⟩ := List.mem_map.mp hmem
  have htrue : p.1 = true := congrArg Prod.fst heq
  rw [fst_of_mem_flaggedBelow_wrapAll p hp] at htrue
  cases htrue

theorem erase_file (source : List Char) (trees : List Tree) : (Go.Lowering.file source trees).erase =
    .file none (declared (Go.Point.ofOffset source) trees).erase.package
      (declared (Go.Point.ofOffset source) trees).erase.imports
      (declared (Go.Point.ofOffset source) trees).erase.decls := by
  rw [Go.Lowering.file, Node.erase, Node.eraseAll_eq_map]
  rfl

theorem erase_declared_of_bare {points points' : Nat → Go.Point} {trees trees' : List Tree}
    (h : trees'.map Tree.bare = trees.map Tree.bare) :
    (declared points' trees').erase = (declared points trees).erase := by
  have hbare (points : Nat → Go.Point) (trees : List Tree) :
      (declared points (trees.map Tree.bare)).erase = (declared points trees).erase := by
    have hchildren (t : Tree) (_ : t ∈ trees) (_ : t.kind = "import_declaration") :
        t.bare.children = t.children.map Tree.bare := by
      cases t <;> simp [Tree.children]
    simpa using Go.Lowering.keeps_bare.erase_declared points points (f := id) (fun _ _ _ => rfl) hchildren
      fun t _ _ _ => Go.Lowering.erase_node_bare t
  have hlines (trees : List Tree) : (declared points' trees).erase = (declared points trees).erase := by
    have hkeeps : Go.Lowering.Keeps id := ⟨fun _ => rfl, fun _ => rfl, fun _ => rfl, by simp⟩
    simpa using hkeeps.erase_declared points points' (f := id) (fun _ _ _ => rfl) (by simp) (by simp)
  rw [← hbare points' trees', h, hbare points' trees, hlines]

section
variable {file : SourceFile} {tokens : List Token} {trees as bs cs : List Tree} {role : Go.Role}
  {pre init us : List Token} {r w m : Token} {rest : Tree}

private theorem range_of_wrapEdit? {source : List Char} {q : String} {n : Node} {e : Edit}
    (h : wrapEdit? source q n = some e) : n.span = some e.range := by
  unfold wrapEdit? at h
  split at h
  · simp only [Option.bind_eq_bind, Option.bind_eq_some_iff, Option.pure_def,
      Option.some.injEq] at h
    obtain ⟨_, -, _, -, rfl⟩ := h
    rfl
  · cases h

theorem isQualifier_nameAmong (imports : List ImportSpec) : IsQualifier (nameAmong imports) := by
  unfold nameAmong
  split_ifs
  · exact .inr rfl
  · exact .inl rfl

private theorem start_mem_siteStarts {root n : Node} (hn : n ∈ qualifyingReturns root)
    (hret : n.kind = .ret) {s : Span} (hspan : n.span = some s) : s.start ∈ siteStarts root := by
  refine List.mem_filterMap.mpr ⟨n, hn, ?_⟩
  simp [start?, hret, hspan]

/-- The edits of the findings give a source that can be read, with the amended trees. -/
theorem exists_revision (h : Parsed file.text.toList tokens trees)
    (hroot : file.root = Go.Lowering.file file.text.toList trees)
    (htrees : trees = as ++ .node "import_declaration" role cs :: bs)
    (himport : ImportOf tokens cs pre r init w us m rest) {edits : List Edit} {all : List Edit}
    (hmapM : (qualifyingReturns file.root).mapM
      (wrapEdit? file.text.toList (nameAmong file.imports)) = some edits)
    (hall : all = edits ++ [⟨(Go.Tree.node "import_declaration" role cs).span, (Node.importGroup
      (some (Go.Tree.node "import_declaration" role cs).span)
      (importGroup (Go.Point.ofOffset file.text.toList) (.node "import_declaration" role cs)).1
      ((importGroup (Go.Point.ofOffset file.text.toList) (.node "import_declaration" role cs)).2 ++
        [librarySpec (hasConflict file.imports)])).render file.text.toList⟩])
    (hnonempty : ∀ e ∈ all, e.range.start < e.range.stop) {fixed : String}
    (hfixed : Edit.applyAll file.text all = .ok fixed) :
    ∃ tokens' trees', Parsed fixed.toList tokens' trees' ∧ trees'.map Tree.bare =
      trees.map fun t => (t.amend (changeAt (nameAmong file.imports) (siteStarts file.root)
        m.span.start (libraryTree (hasConflict file.imports)))).bare := by
  obtain ⟨hfit, hclash, rfl⟩ := Edit.applyAll_eq_ok_iff.mp hfixed
  rw [mapM_eq_some_iff] at hmapM
  obtain ⟨before, text, hsource, -, hlexes⟩ := h.exists_lexes
  have hkind {n : Node} (hn : n ∈ qualifyingReturns file.root) : n.kind = .ret := by
    rw [hroot] at hn
    exact (of_mem_qualifyingReturns hn).1.kind_eq
  rw [String.toList_ofList]
  refine h.exists_revised (isQualifier_nameAmong file.imports) (fun kind children hkept => ?_) ?_ ?_ ?_
  · simp only [Go.isKept, Bool.and_eq_true, bne_iff_ne] at hkept
    exact Go.changeAt_eq_none hkept.1 hkept.2
  · exact
      { fit := fun e he => hfit e (Edit.mem_sorted.mp he)
        ordered := Edit.pairwise_precedes (Edit.pairwise_sorted all)
          (fun e he => Nat.le_of_lt (hnonempty e (Edit.mem_sorted.mp he))) hclash
        after := fun _ _ => Nat.zero_le _ }
  · intro e he
    rw [Edit.mem_sorted, hall] at he
    rcases List.mem_append.mp he with he | he
    · obtain ⟨n, hn, heq⟩ := List.mem_map.mp (hmapM ▸ List.mem_map_of_mem (f := some) he)
      refine replacesBlock_return h hsource hlexes (isQualifier_nameAmong _) (hroot ▸ hn) ?_ heq
      exact fun s hs => start_mem_siteStarts hn (hkind hn) hs
    · obtain rfl := List.mem_singleton.mp he
      exact replacesBlock_import h hsource hlexes (by simp [htrees]) himport _ _ _
  · intro u kind children hsome
    obtain ⟨children', hchange⟩ := Option.ne_none_iff_exists'.mp hsome
    simp only [Edit.mem_sorted, hall, List.mem_append, List.mem_singleton]
    obtain ⟨v, _, _, _, hchildren, hcases⟩ := Go.of_changeAt hchange
    obtain rfl : u = v := by simpa using (List.cons.inj hchildren).1
    rcases hcases with ⟨-, hstart, -⟩ | ⟨-, hplace, -⟩
    · obtain ⟨n, hn, hbegin⟩ := List.mem_filterMap.mp hstart
      obtain ⟨e, he, heq⟩ := List.mem_map.mp (hmapM ▸ List.mem_map_of_mem hn)
      refine ⟨e, .inl he, ?_⟩
      simpa [start?, hkind hn, range_of_wrapEdit? heq.symm] using hbegin
    · refine ⟨_, .inr rfl, ?_⟩
      rw [hplace, himport.children]
      rfl

theorem kind_ne_of_noImport {points : Nat → Go.Point} (h : Go.NoImport as) :
    ∀ d ∈ (declared points as).decls, d.kind ≠ .importGroup := by
  intro d hd
  obtain ⟨t, ht, hnode, rfl | ⟨hkind, -⟩⟩ := Go.Lowering.exists_of_mem_decls points hd
  · cases t <;> exact (Go.Lowering.assembled _ _).kind_ne_importGroup
  · exact absurd hkind (h t ht hnode)

/-- The amended trees declare what the wrapped tree with the library does. -/
theorem erase_wrapAll_withLibrary {starts : List Nat} {q : String} {source : List Char}
    (h : Parsed source tokens trees)
    (htrees : trees = as ++ .node "import_declaration" role cs :: bs) (hfirst : Go.NoImport as)
    (himport : ImportOf tokens cs pre r init w us m rest)
    (hwrap : ∀ d ∈ (declared (Go.Point.ofOffset source) trees).decls, wrapAt q starts d = wrapAll q d)
    (conflict : Bool) (points' : Nat → Go.Point) :
    (wrapAll q (withLibrary conflict (Go.Lowering.file source trees))).erase =
      .file none
        (declared points' (trees.map (Tree.amend (changeAt q starts m.span.start
          (libraryTree conflict))))).erase.package
        (declared points' (trees.map (Tree.amend (changeAt q starts m.span.start
          (libraryTree conflict))))).erase.imports
        (declared points' (trees.map (Tree.amend (changeAt q starts m.span.start
          (libraryTree conflict))))).erase.decls := by
  have haround := Go.declared_around (Go.Point.ofOffset source) htrees rfl hfirst
  rw [h.erase_declared_amend htrees rfl hfirst himport q starts conflict (Go.Point.ofOffset source)]
  rw [haround, List.forall_mem_append, List.forall_mem_cons] at hwrap
  obtain ⟨hfront, -, hback⟩ := hwrap
  rw [List.map_congr_left hfront, List.map_congr_left hback, Go.Lowering.file, haround,
    withLibrary_file (kind_ne_of_noImport hfirst), wrapAll, wrapEach_eq_map, Node.erase,
    Node.eraseAll_eq_map]
  simp [Declared.erase, wrapAll, Node.erase]

end

/-- Fixing a file and reading it again gives the fixed tree, but for the places. -/
theorem exists_parse_fixed {file : SourceFile} {ds : List Diagnostic} {fixed : String}
    (hparse : Go.parse file.text.toList = .ok file.root) (hanalyze : analyze file = .ok ds)
    (hfixed : Diagnostic.applyFixes file.text ds = .ok fixed) (hne : qualifyingReturns file.root ≠ []) :
    ∃ trees, Go.parse fixed.toList = .ok (Go.Lowering.file fixed.toList trees) ∧
      (Go.Lowering.file fixed.toList trees).erase =
        (wrapAll (qualifier (hasConflict file.imports))
          (withLibrary (hasConflict file.imports) file.root)).erase := by
  obtain ⟨_, _, _, decls, hfile, ⟨lo, hi, hlined⟩, hplaced, honly⟩ := Go.parse_placed hparse
  obtain ⟨tokens, trees, hlist, hread, hroot⟩ := Go.parse_eq_ok_iff.mp hparse
  have h : Parsed file.text.toList tokens trees := ⟨hlist, hread⟩
  obtain ⟨span, parenthesized, specs, edits, hfind, hmapM, hedits, hnonempty⟩ :=
    edits_eq hroot (fun t ht => h.sound ht) h.row hanalyze hne
  rw [hroot] at hfind
  obtain ⟨as, role, cs, bs, htrees, hfirst, hgroup⟩ := Go.exists_first_import hfind
  obtain ⟨hspan, rfl, rfl⟩ := Node.importGroup.inj hgroup
  obtain rfl := Option.some.inj hspan
  have hsited := h.sited (t := .node "import_declaration" role cs) (by simp [htrees])
  cases hsited with
  | node _ hsited _ =>
  obtain ⟨pre, r, init, w, us, m, rest, himport⟩ := exists_importOf (hsited rfl)
  obtain ⟨tokens', trees', hparsed, hbare⟩ := exists_revision h hroot htrees himport hmapM hedits
    hnonempty hfixed
  have hnested : ¬ Nested file.root := by
    intro hnested
    rw [analyze_file file _ _ _ _ hfile honly] at hanalyze
    obtain ⟨a, b, herror⟩ := (applyFixes_findings hfile hlined hplaced hanalyze).2 hnested
    rw [hfixed] at herror
    cases herror
  have hwrap : ∀ d ∈ (declared (Go.Point.ofOffset file.text.toList) trees).decls,
      wrapAt (nameAmong file.imports) (siteStarts file.root) d = wrapAll (nameAmong file.imports) d := by
    have hchildren : file.root.children = decls := by rw [hfile, Node.children]
    rw [← hchildren] at hlined hplaced
    have hroots := wrapAt_siteStarts hlined hplaced hnested (by simp [hfile, Node.kind])
      (nameAmong file.imports)
    generalize siteStarts file.root = starts at hroots ⊢
    rw [hroot, Go.Lowering.file, wrapAt, wrapAll, wrapEachAt_eq_map, wrapEach_eq_map] at hroots
    exact List.map_inj_left.mp (Node.file.inj hroots).2.2.2
  have hamend : trees'.map Tree.bare = (trees.map (Tree.amend (changeAt (nameAmong file.imports)
      (siteStarts file.root) m.span.start (libraryTree (hasConflict file.imports))))).map Tree.bare := by
    rw [hbare, List.map_map]
    rfl
  refine ⟨trees', Go.parse_eq_ok_iff.mpr ⟨tokens', trees', hparsed.list, hparsed.read, rfl⟩, ?_⟩
  have herase := erase_wrapAll_withLibrary h htrees hfirst himport hwrap (hasConflict file.imports)
    (Go.Point.ofOffset fixed.toList)
  rw [← hroot] at herase
  rw [qualifier_hasConflict, herase, erase_file, erase_declared_of_bare hamend]

/-- Every text that fixing gives is accepted again, and its tree is the fixed tree of the file but for
the places: all sites are wrapped and the first import declaration has the library. So nothing is found
in it any more. -/
theorem parse_applyFixes {path : Path} {text fixed : String} {file : SourceFile}
    {ds : List Diagnostic} (hparse : SourceFile.parse path text = .ok file)
    (hanalyze : analyze file = .ok ds) (hfixed : Diagnostic.applyFixes text ds = .ok fixed) :
    ∃ file', SourceFile.parse path fixed = .ok file' ∧ file'.root.erase = (fixedTree file).erase ∧
      analyze file' = .ok [] := by
  obtain ⟨rfl, hroot⟩ := parse_eq_ok hparse
  by_cases hnone : qualifyingReturns file.root = []
  · obtain ⟨_, _, _, _, hfile, -, -, honly⟩ := Go.parse_placed hroot
    have hempty : analyze file = .ok [] := by
      rw [analyze_file file _ _ _ _ hfile honly, findings, hnone]
    obtain rfl : [] = ds := by
      rw [hempty] at hanalyze
      exact Except.ok.inj hanalyze
    obtain rfl : file.text = fixed := by
      have hsorted : Edit.sorted (Diagnostic.edits []) = [] := by
        simp [List.eq_nil_iff_forall_not_mem, Edit.mem_sorted, Diagnostic.edits]
      rw [(Edit.applyAll_eq_ok_iff.mp hfixed).2.2, hsorted]
      exact String.ofList_toList.symm
    exact ⟨file, hparse, by simp [fixedTree, hnone], hempty⟩
  · obtain ⟨trees, hparse', herase⟩ := exists_parse_fixed hroot hanalyze hfixed hnone
    obtain ⟨hgo, -⟩ := parse_eq_ok_iff.mp hparse
    refine ⟨⟨path, fixed, _⟩, parse_eq_ok_iff.mpr ⟨hgo, rfl, rfl, hparse'⟩, ?_, ?_⟩
    · rw [fixedTree, if_neg (by simpa using hnone)]
      exact herase
    · have honly := Go.Lowering.declared_kind_ne_file (Go.Point.ofOffset fixed.toList) trees
      have hleft := qualifyingReturns_of_erase herase
      rw [analyze_file _ _ _ _ _ rfl honly, findings]
      dsimp only [Go.Lowering.file] at hleft ⊢
      rw [hleft]

/-- After a byte order mark, a file with two import declarations, of which the first one takes the name
of the library, and sites with a comment between the results and in another branch. -/
def markedSource : String :=
  "\uFEFFimport \"x/errors\"\nimport . \"d\"\nfunc f() error \x7bif err != nil \x7breturn a, /*c*/\n" ++
    "io.ErrA // d\n\x7d else if err != nil \x7breturn ErrB\x7d\x7d"

def markedSourceFixed : String :=
  "\uFEFFimport (\n\t\"x/errors\"\n\terrorsPkg \"github.com/pkg/errors\"\n)\nimport . \"d\"\n" ++
    "func f() error \x7bif err != nil \x7breturn a, errorsPkg.Wrap(io.ErrA, err.Error()) // d\n" ++
    "\x7d else if err != nil \x7breturn errorsPkg.Wrap(ErrB, err.Error())\x7d\x7d"

theorem parse_markedSourceFixed : ∃ file ds,
    SourceFile.parse ⟨"a.go"⟩ markedSource = .ok file ∧ analyze file = .ok ds ∧
      (Diagnostic.edits ds).length = 3 ∧ Diagnostic.applyFixes markedSource ds = .ok markedSourceFixed ∧
      ∃ file', SourceFile.parse ⟨"a.go"⟩ markedSourceFixed = .ok file' ∧
        file'.root.erase = (fixedTree file).erase ∧ analyze file' = .ok [] := by
  obtain ⟨file, ds, hparse, hanalyze, hedits⟩ := @exists_of_edits ⟨"a.go"⟩ markedSource
    [⟨⟨65, 88⟩, "return a, errorsPkg.Wrap(io.ErrA, err.Error())"⟩,
      ⟨⟨116, 127⟩, "return errorsPkg.Wrap(ErrB, err.Error())"⟩,
      ⟨⟨3, 20⟩, "import (\n\t\"x/errors\"\n\terrorsPkg \"github.com/pkg/errors\"\n)"⟩] (by decide +kernel)
  have hlength : (Diagnostic.edits ds).length = 3 := by rw [hedits]; rfl
  have hfixed : Diagnostic.applyFixes markedSource ds = .ok markedSourceFixed := by
    rw [Diagnostic.applyFixes, hedits]
    refine @Edit.applyAll_of_ordered _ _ _
      [⟨⟨3, 20⟩, "import (\n\t\"x/errors\"\n\terrorsPkg \"github.com/pkg/errors\"\n)"⟩,
        ⟨⟨65, 88⟩, "return a, errorsPkg.Wrap(io.ErrA, err.Error())"⟩,
        ⟨⟨116, 127⟩, "return errorsPkg.Wrap(ErrB, err.Error())"⟩] ?_ ?_ ?_ ?_ ?_ <;> decide +kernel
  exact ⟨file, ds, hparse, hanalyze, hlength, hfixed, parse_applyFixes hparse hanalyze hfixed⟩

end SentinelWrap.Wrapping
