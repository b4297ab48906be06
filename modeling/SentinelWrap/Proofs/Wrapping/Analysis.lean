import SentinelWrap.Proofs.Wrapping.Qualifying

/-! The analysis of a file against the list of its qualifying returns. A traversal keeps flags, a
growing list and a slot for a failure; below the root it only ever adds sites, so what it has
collected is a fold over the nodes in preorder. -/
namespace SentinelWrap.Wrapping

/-- A statement is reported exactly if it qualifies, and with its finding. -/
theorem bind_siteDiagnostic? (file : SourceFile) (q : String) (n : Node) :
    (Site.ofNode? n).bind (siteDiagnostic? file q) =
      if Qualifies n then some (finding file q n) else none := by
  split_ifs with h
  · obtain ⟨span, leading, value, hvalue⟩ := h
    obtain ⟨name, hlast, hname⟩ := endsInSentinel_iff.mp hvalue
    simp [Site.ofNode?, hlast, hname, siteDiagnostic?, finding, wrapped, wrappedReturn,
      wrapLast_append, Node.span, Site.statement, analyzerName]
  · cases hsite : Site.ofNode? n with
    | none => rfl
    | some site =>
      cases hspan : site.span with
      | none => simp [siteDiagnostic?, hspan]
      | some span => exact absurd (qualifies_iff.mpr ⟨site, span, hsite, hspan⟩) h

private theorem filterMap_sites (file : SourceFile) (q : String) (n : Node) :
    (sites n).filterMap (siteDiagnostic? file q) = (qualifyingIn n).map (finding file q) := by
  cases n with
  | conditional span init condition body alternative =>
    simp only [sites, Site.inConditional, qualifyingIn]
    by_cases h : ErrNotNil condition
    · rw [if_pos (isErrNotNil_iff.mpr h), if_pos h, List.filterMap_filterMap]
      induction body with
      | nil => rfl
      | cons statement body ih =>
        rw [List.filterMap_cons, bind_siteDiagnostic?, List.filter_cons]
        by_cases hq : Qualifies statement <;> simp [hq, ih]
    · rw [if_neg (mt isErrNotNil_iff.mp h), if_neg h]
      rfl
  | file | ret | importGroup | identifier | memberAccess | comparison | literal | call | other => rfl

private theorem foldl_addSite (file : SourceFile) (found : List Site) (state : State) :
    found.foldl (State.addSite file) state =
      { state with
        modified := state.modified ||
          !(found.filterMap (siteDiagnostic? file (qualifier state.conflict))).isEmpty
        found := state.found ++
          found.filterMap (siteDiagnostic? file (qualifier state.conflict)) } := by
  induction found generalizing state with
  | nil => simp
  | cons site found ih =>
    rw [List.foldl_cons, ih, List.filterMap_cons]
    cases hd : siteDiagnostic? file (qualifier state.conflict) site with
    | none => simp [State.addSite, hd]
    | some d => simp [State.addSite, hd]

theorem contains_filter (kind : NodeKind) :
    filter.contains kind = (kind == .file || kind == .conditional) := by
  rw [Bool.eq_iff_iff, filter, NodeFilter.contains_only]
  simp

theorem foldl_inspect (file : SourceFile) (ns : List Node)
    (h : ∀ n ∈ ns, ∀ state, n.inspect filter (visitor file) state =
      (n.preorder.flatMap sites).foldl (State.addSite file) state) (state : State) :
    (ns.map (Node.inspect filter (visitor file))).foldl (fun state child => child state) state =
      ((ns.flatMap Node.preorder).flatMap sites).foldl (State.addSite file) state := by
  induction ns generalizing state with
  | nil => rfl
  | cons n ns ih =>
    simp only [List.map_cons, List.foldl_cons, List.flatMap_cons, List.flatMap_append,
      List.foldl_append]
    rw [h n List.mem_cons_self]
    exact ih (fun m hm => h m (List.mem_cons_of_mem _ hm)) _

/-- Below the root, a traversal adds the sites of each node in preorder and does nothing else. -/
theorem inspect_eq_foldl (file : SourceFile) (n : Node)
    (h : ∀ m ∈ n.preorder, m.kind ≠ .file) (state : State) :
    n.inspect filter (visitor file) state =
      (n.preorder.flatMap sites).foldl (State.addSite file) state := by
  induction n using Node.children_induction generalizing state with
  | step n ih =>
    have hbelow := foldl_inspect file n.children fun c hc state =>
      ih c hc (fun m hm => h m (Node.preorder_subset_of_mem_children hc hm)) state
    rw [Node.inspect_eq, Node.preorder_eq, List.flatMap_cons, List.foldl_append]
    unfold Node.inspectStep
    dsimp only
    simp only [hbelow, contains_filter]
    have hself : n.kind ≠ .file := h n n.self_mem_preorder
    cases n with
    | file => exact absurd rfl hself
    | conditional => rfl
    | ret | importGroup | identifier | memberAccess | comparison | literal | call | other => rfl

theorem importDiagnostic_eq (file : SourceFile) (decls : List Node) (conflict : Bool) :
    importDiagnostic file decls conflict =
      match decls.find? (·.kind == .importGroup) with
      | some (.importGroup (some span) parenthesized specs) =>
        .ok (importFinding file conflict span parenthesized specs)
      | _ => .error (.missingImport file.path "github.com/pkg/errors") := by
  induction decls with
  | nil => rfl
  | cons decl decls ih =>
    cases decl with
    | importGroup span parenthesized specs => cases span <;> rfl
    | file | conditional | ret | identifier | memberAccess | comparison | literal | call | other =>
      exact ih

/-- The findings in a file with these imports and declarations: one for every qualifying return, and
then one for the first import declaration. Without a declaration to extend there are none. -/
def findings (file : SourceFile) (imports : List ImportSpec) (decls : List Node) :
    Except Error (List Diagnostic) :=
  match qualifyingReturns file.root with
  | [] => .ok []
  | returns =>
    match decls.find? (·.kind == .importGroup) with
    | some (.importGroup (some span) parenthesized specs) =>
      .ok (returns.map (finding file (qualifier (hasConflict imports))) ++
        [importFinding file (hasConflict imports) span parenthesized specs])
    | _ => .error (.missingImport file.path "github.com/pkg/errors")

/-- What a traversal of the whole file has collected when it leaves the root. -/
theorem inspect_file (file : SourceFile) (span : Option Span) (package : Option String)
    (imports : List ImportSpec) (decls : List Node)
    (honly : ∀ n ∈ decls.flatMap Node.preorder, n.kind ≠ .file) :
    let root := Node.file span package imports decls
    let conflict := hasConflict imports
    let found := (qualifyingReturns root).map (finding file (qualifier conflict))
    root.inspect filter (visitor file) {} =
      State.exit file decls { modified := !found.isEmpty, conflict, found } := by
  intro root conflict found
  have hbelow := foldl_inspect file decls fun n hn state =>
    inspect_eq_foldl file n (fun m hm => honly m (List.mem_flatMap.mpr ⟨n, hn, hm⟩)) state
  have hfound : ((decls.flatMap Node.preorder).flatMap sites).filterMap
      (siteDiagnostic? file (qualifier conflict)) = found := by
    have hroot : qualifyingReturns root = (decls.flatMap Node.preorder).flatMap qualifyingIn := by
      rw [qualifyingReturns, Node.preorder_eq]
      rfl
    simp only [found, hroot, List.map_flatMap, List.filterMap_flatMap, filterMap_sites]
  rw [Node.inspect_eq, Node.inspectStep, contains_filter]
  change State.exit file decls ((decls.map (Node.inspect filter (visitor file))).foldl
    (fun state child => child state) (State.enter imports {})) = _
  rw [hbelow, foldl_addSite]
  simp only [State.enter, List.nil_append, Bool.false_or]
  rw [hfound]

theorem analyze_file (file : SourceFile) (span : Option Span) (package : Option String)
    (imports : List ImportSpec) (decls : List Node)
    (hroot : file.root = .file span package imports decls)
    (honly : ∀ n ∈ decls.flatMap Node.preorder, n.kind ≠ .file) :
    analyze file = findings file imports decls := by
  have hstate := inspect_file file span package imports decls honly
  dsimp only at hstate
  rw [← hroot] at hstate
  unfold analyze
  rw [hstate]
  unfold findings State.exit
  cases hreturns : qualifyingReturns file.root with
  | nil => rfl
  | cons first rest =>
    simp only [List.map_cons, List.isEmpty_cons, Bool.not_false, if_true, importDiagnostic_eq]
    cases decls.find? (·.kind == .importGroup) with
    | none => rfl
    | some declaration =>
      cases declaration with
      | importGroup span _ _ => cases span <;> rfl
      | _ => rfl

/-- The findings are those of the qualifying returns, conditional by conditional in preorder, with
one for the first import declaration after them. Every replacement calls the library by the one name
that the imports of the root allow. A reporter hears of exactly these findings, in this order. -/
theorem analyze_eq_findings (file : SourceFile) (span : Option Span) (package : Option String)
    (imports : List ImportSpec) (decls : List Node)
    (hroot : file.root = .file span package imports decls)
    (honly : ∀ n ∈ decls.flatMap Node.preorder, n.kind ≠ .file) :
    analyze file = findings file imports decls ∧
      ∀ {ρ : Type} (report : ρ → Diagnostic → ρ) (reporter : ρ),
        run report file reporter =
          ((findings file imports decls).map List.length,
            ((findings file imports decls).toOption.getD []).foldl report reporter) := by
  have hanalyze := analyze_file file span package imports decls hroot honly
  refine ⟨hanalyze, fun report reporter => ?_⟩
  unfold run
  rw [hanalyze]
  cases findings file imports decls <;> rfl

def nestedReturns : SourceFile :=
  let spec : ImportSpec := ⟨some ⟨7, 12⟩, some 1, none, "\"fmt\""⟩
  let condition : Node :=
    .comparison none (.identifier none "err") .ne (.literal none .nil "nil")
  let inner : Node := .ret (some ⟨13, 24⟩) [.identifier (some ⟨20, 24⟩) "ErrA"]
  let outer : Node := .ret (some ⟨25, 42⟩) [.literal (some ⟨32, 33⟩) .int "0",
    .memberAccess (some ⟨35, 42⟩) (.identifier (some ⟨35, 37⟩) "io") ⟨some ⟨38, 42⟩, "ErrB"⟩]
  { path := ⟨"a.go"⟩
    text := "import \"fmt\"\nreturn ErrA\nreturn 0, io.ErrB"
    root := .file none none [spec] [.importGroup (some ⟨0, 12⟩) false [spec],
      .conditional none none condition [.conditional none none condition [inner] none, outer] none] }

theorem edits_nestedReturns :
    (analyze nestedReturns).map Diagnostic.edits = .ok [
      ⟨⟨25, 42⟩, "return 0, errors.Wrap(io.ErrB, err.Error())"⟩,
      ⟨⟨13, 24⟩, "return errors.Wrap(ErrA, err.Error())"⟩,
      ⟨⟨0, 12⟩, "import (\n\t\"fmt\"\n\t\"github.com/pkg/errors\"\n)"⟩] := by
  have honly : ∀ n ∈ (nestedReturns.root.children).flatMap Node.preorder, n.kind ≠ .file := by
    decide
  rw [(analyze_eq_findings nestedReturns none none _ _ rfl honly).1]
  decide +kernel

end SentinelWrap.Wrapping
