import SentinelWrap.Proofs.Go.Revision.Text
import SentinelWrap.Proofs.Wrapping.FixedText

/-! The edits of the findings as replacements of statements, and the fixed text read again. -/
namespace SentinelWrap.Wrapping
open Go (Tree Token Parsed ReplacesBlock changeAt)
open Go.Grammar
open Go.Lowering (node nodes assemble assemble_eq Form kind_of_ofKind)

/-- A sentinel comes from a name or from a member. -/
theorem form_of_endsInSentinel {tree : Tree} {parts : List (Go.Role × Node)}
    (h : EndsInSentinel (assemble tree parts)) :
    (Form.ofKind tree.kind = .identifier ∧ "Err".toList <+: tree.leafText.toList) ∨
      Form.ofKind tree.kind = .memberAccess ∧ ∃ operand span name,
        parts.map Prod.snd = [operand, .identifier span name] ∧ "Err".toList <+: name.toList := by
  rw [assemble_eq] at h
  cases hform : Form.ofKind tree.kind with
  | conditional =>
    rw [hform, Form.build?, Go.Lowering.conditional?_eq] at h
    cases hcondition : Go.Lowering.part? .condition parts <;> (rw [hcondition] at h; cases h)
  | ret =>
    rw [hform] at h
    cases h
  | identifier =>
    rw [hform] at h
    cases h with
    | identifier _ h => exact .inl ⟨rfl, h⟩
  | memberAccess =>
    rw [hform, Form.build?] at h
    have hassembled : ∀ n, Go.Lowering.memberAccess? tree.span (parts.map Prod.snd) = some n →
        ∃ operand span name, parts.map Prod.snd = [operand, .identifier span name] ∧
          n = .memberAccess (some tree.span) operand ⟨span, name⟩ := by
      intro n hn
      unfold Go.Lowering.memberAccess? at hn
      split at hn
      · rename_i operand span name hparts
        exact ⟨operand, span, name, hparts, (Option.some.inj hn).symm⟩
      · cases hn
    cases hmember : Go.Lowering.memberAccess? tree.span (parts.map Prod.snd) with
    | none =>
      rw [hmember] at h
      cases h
    | some n =>
      rw [hmember] at h
      obtain ⟨operand, span, name, hparts, rfl⟩ := hassembled n hmember
      cases h with
      | memberAccess _ _ h => exact .inr ⟨rfl, operand, span, name, hparts, h⟩
  | comparison =>
    rw [hform, Form.build?, Go.Lowering.comparison?_eq] at h
    cases hpair : Go.Lowering.pair? (parts.map Prod.snd) with
    | none =>
      rw [hpair] at h
      cases h
    | some p =>
      rw [hpair, Option.bind_some] at h
      cases hop : (Tree.signs tree.children).findSome? Comparison.ofText? <;> (rw [hop] at h; cases h)
  | call =>
    rw [hform, Form.build?, Go.Lowering.call?_eq] at h
    cases hhead : (parts.map Prod.snd).head? with
    | none =>
      rw [hhead] at h
      cases h
    | some callee =>
      rw [hhead, Option.bind_some] at h
      cases hlast : (parts.map Prod.snd).tail.getLast? <;> (rw [hlast] at h; cases h)
  | literal | other =>
    rw [hform] at h
    cases h

theorem wrappable_of_endsInSentinel {X : Tree} (hnode : X.isNode = true)
    (h : EndsInSentinel (node X)) : Wrappable X := by
  cases X with
  | token t => cases hnode
  | node kind role cs =>
    rw [node] at h
    rcases form_of_endsInSentinel h with ⟨hform, hprefix⟩ | ⟨hform, operand, span, name, hparts, hprefix⟩
    · refine ⟨.inr (kind_of_ofKind hform), ?_⟩
      rintro w (hX | ⟨Z, d, hX⟩)
      · rw [hX] at hprefix
        exact hprefix
      · have hkind : kind = "selector_expression" := congrArg Tree.kind hX
        rw [hkind] at hform
        cases hform
    · obtain rfl : kind = "selector_expression" := kind_of_ofKind hform
      refine ⟨.inl rfl, ?_⟩
      rintro w (hX | ⟨Z, d, hX⟩)
      · have hselector := (Go.Tree.node.inj hX).1
        rw [wordKind] at hselector
        split_ifs at hselector with hword
        · rw [← hselector] at hword
          exact absurd hword (by decide)
        · exact absurd hselector (by decide)
      · obtain ⟨-, -, rfl⟩ := Go.Tree.node.inj hX
        have hlast : nodes [Z, .token d, .node "field_identifier" .plain [.token w]] =
            nodes [Z] ++ [(.plain, .identifier (some w.span) w.text)] := by
          rw [← List.singleton_append, Go.Lowering.nodes_append]
          rfl
        rw [hlast, List.map_append] at hparts
        have heq : [Node.identifier (some w.span) w.text] = [.identifier span name] :=
          (List.append_inj' (show _ = [operand] ++ [_] from hparts) rfl).2
        obtain ⟨-, rfl⟩ := Node.identifier.inj (List.singleton_inj.mp heq)
        exact hprefix

theorem nodes_eq_map (Xs : List Tree) : (nodes Xs).map Prod.snd = (Xs.filter Tree.isNode).map node := by
  induction Xs with
  | nil => rfl
  | cons X Xs ih =>
    rw [nodes, List.filter_cons]
    split_ifs
    · rw [List.map_cons, List.map_cons, ih]
    · exact ih

private theorem toList_intercalate_append (texts : List (List Char)) (last : String) :
    (", ".intercalate (texts.map String.ofList ++ [last])).toList =
      texts.flatMap (· ++ ", ".toList) ++ last.toList := by
  rw [String.toList_intercalate]
  induction texts with
  | nil => simp [List.intercalate]
  | cons text texts ih =>
    obtain ⟨second, more, hmore⟩ : ∃ second more,
        (texts.map String.ofList ++ [last]).map String.toList = second :: more :=
      List.exists_cons_of_ne_nil (by simp)
    rw [List.map_cons, List.cons_append, List.map_cons, hmore, List.intercalate_cons_cons, ← hmore, ih]
    simp

theorem map_slice? {source : List Char} {results : List Node} {spans : List Span}
    {texts : List (List Char)} (hspans : results.map Node.span = spans.map some)
    (htexts : spans.map (Span.slice? · source) = texts.map some) :
    results.map (Node.slice? source) = (texts.map String.ofList).map some := by
  have hslice : Node.slice? source =
      fun n => n.span.bind fun span => (span.slice? source).map String.ofList := by
    funext n
    rw [Node.slice?]
    cases n.span with
    | none => rfl
    | some span => cases hcovered : span.slice? source <;> simp [hcovered]
  have hmap := congrArg (List.map (Option.map String.ofList)) htexts
  have hbind := congrArg (List.map (Option.bind · fun span =>
    (span.slice? source).map String.ofList)) hspans
  rw [hslice]
  simp only [List.map_map, Function.comp_def, Option.bind_some, Option.map_some] at hmap hbind ⊢
  exact hbind.trans hmap

/-- What is printed for a return whose last result is wrapped. -/
theorem newText_of_wrapEdit? {source : List Char} {q : String} {span : Span} {results : List Node}
    {e : Edit} (h : wrapEdit? source q (.ret (some span) results) = some e)
    {leading : List (List Char)} {value : List Char}
    (hslices : results.map (Node.slice? source) = ((leading ++ [value]).map String.ofList).map some) :
    e.newText.toList = "return".toList ++ ' ' :: wrappedText q leading value := by
  rw [wrapEdit?, mapM_eq_some_iff.mpr hslices] at h
  have hnew : e.newText = "return " ++ ", ".intercalate (leading.map String.ofList ++
      [q ++ ".Wrap(" ++ String.ofList value ++ ", err.Error())"]) := by
    simp only [List.map_append, List.map_cons, List.map_nil, Option.bind_eq_bind, Option.bind_some,
      List.getLast?_concat, List.dropLast_concat, Option.pure_def, Option.some.injEq] at h
    exact congrArg Edit.newText h.symm
  rw [hnew, String.toList_append, toList_intercalate_append]
  simp [wrappedText]

theorem map_span_nodes (Xs : List Tree) : ((nodes Xs).map Prod.snd).map Node.span =
    ((Xs.filter Tree.isNode).map Tree.span).map some := by
  rw [nodes_eq_map, List.map_map, List.map_map]
  exact List.map_congr_left fun X _ => Go.Lowering.span_node X

section
variable {source : List Char} {tokens : List Token} {trees : List Tree}

theorem Qualifies.exists_last {r : Node} (h : Qualifies r) :
    ∃ leading value, r.children = leading ++ [value] ∧ EndsInSentinel value := by
  obtain ⟨span, leading, value, hvalue⟩ := h
  exact ⟨leading, value, rfl, hvalue⟩

/-- A qualifying return comes from a concrete return whose last result can be wrapped. -/
theorem exists_returnOf_of_mem (h : Parsed source tokens trees) {r : Node}
    (hr : r ∈ qualifyingReturns (Go.Lowering.file source trees)) :
    ∃ cs pre a mid us t Xs fuel, ReturnOf tokens cs pre a mid us t Xs fuel ∧
      r = .ret (some (returnTree t Xs).span) ((nodes Xs).map Prod.snd) ∧
      ∀ X, Xs.getLast? = some X → Wrappable X := by
  obtain ⟨hq, hmem⟩ := of_mem_qualifyingReturns hr
  obtain ⟨d, hd, hrd⟩ := List.mem_flatMap.mp hmem
  obtain ⟨t, ht, hnode, rfl | ⟨-, rfl⟩⟩ := Go.Lowering.exists_of_mem_decls _ hd
  · obtain ⟨u, hu, hunode, rfl⟩ := Go.Lowering.exists_within hnode hrd
    obtain ⟨leading, value, hchildren, hvalue⟩ := hq.exists_last
    cases u with
    | token u => cases hunode
    | node kind role cs =>
      obtain rfl : kind = "return_statement" :=
        ((Go.Lowering.assembled _ _).children_of_ret hq.kind_eq).1
      have hplain := ((h.sound ht).within hu).plain
      have hsited := (h.sited ht).within hu
      cases hplain with
      | node _ hplain _ =>
      cases hsited with
      | node _ hsited _ =>
      rcases hplain.results rfl with ⟨a, rfl⟩ | ⟨a, results, rfl, -⟩
      · have hnone : (node (.node "return_statement" role [.token a])).children = [] := rfl
        rw [hnone] at hchildren
        simp at hchildren
      · obtain ⟨pre, b, mid, us, c, Xs, fuel, hreturn⟩ := exists_returnOf (hsited rfl) (by simp)
        obtain ⟨rfl, rfl⟩ : a = c ∧ results = Xs := by simpa using hreturn.children
        rw [Go.Lowering.node_returnTree] at hchildren ⊢
        refine ⟨_, pre, b, mid, us, a, results, fuel, hreturn, rfl, fun X hX => ?_⟩
        obtain ⟨init, Y, _, _, rfl, -, hrun⟩ := hreturn.listed.exists_last
        have hY := isNode_of_expression (Go.Rule.derives_of_run hrun)
        obtain rfl : Y = X := by simpa using hX
        have heq : (init.filter Tree.isNode).map node ++ [node Y] = leading ++ [value] := by
          rw [← hchildren]
          simp [Node.children, nodes_eq_map, hY]
        obtain rfl := List.singleton_inj.mp (List.append_inj' heq rfl).2
        exact wrappable_of_endsInSentinel hY hvalue
  · obtain rfl : r = _ := by simpa [Node.preorder_eq, Node.children] using hrd
    cases hq

/-- The edit for a qualifying return replaces a block. -/
theorem replacesBlock_return {before text : List Char} (h : Parsed source tokens trees)
    (hsource : source = before ++ text) (hlexes : Go.Token.Lexes (Text.size before) none text tokens)
    {q : String} (hq : IsQualifier q) {starts : List Nat} {place : Nat} {spec : Tree} {r : Node}
    {e : Edit} (hr : r ∈ qualifyingReturns (Go.Lowering.file source trees))
    (hstarts : ∀ s, r.span = some s → s.start ∈ starts) (he : wrapEdit? source q r = some e) :
    ReplacesBlock q (changeAt q starts place spec) source tokens e := by
  obtain ⟨cs, pre, a, mid, us, t, Xs, fuel, hreturn, rfl, hX⟩ := exists_returnOf_of_mem h hr
  have hstart : a.span.start ∈ starts := by
    have hmem := hstarts _ rfl
    rwa [hreturn.span] at hmem
  refine hreturn.replacesBlock hq hX hsource hlexes (fun u hu => ?_) ?_ fun leading value hslices =>
    newText_of_wrapEdit? he (map_slice? (map_span_nodes Xs) (by rwa [List.map_map]))
  · rw [← hu] at hstart
    simp [changeAt, hstart]
  · simp only [wrapEdit?, Option.bind_eq_bind, Option.bind_eq_some_iff, Option.pure_def,
      Option.some.injEq] at he
    obtain ⟨_, -, _, -, rfl⟩ := he
    rfl

theorem renderImportGroup_append {parenthesized : Bool} {specs : List ImportSpec} {spec : ImportSpec}
    (h : parenthesized = true ∨ specs ≠ []) :
    (Node.renderImportGroup parenthesized (specs ++ [spec])).toList =
      "import".toList ++ ' ' :: groupText (specs ++ [spec]) := by
  have hgroup : Node.renderImportGroup parenthesized (specs ++ [spec]) =
      "import (\n" ++ Node.renderSpecs none (specs ++ [spec]) ++ ")" := by
    cases parenthesized with
    | true => rfl
    | false =>
      cases specs with
      | nil => simp at h
      | cons first specs =>
        cases specs <;> rfl
  rw [hgroup]
  simp [groupText]

theorem render_importGroup (span : Option Span) (parenthesized : Bool) (specs : List ImportSpec) :
    (Node.importGroup span parenthesized specs).render source =
      Node.renderImportGroup parenthesized specs := by
  rw [Node.render, Node.fold_eq]
  rfl

/-- A declaration without parentheses holds a spec. -/
theorem parenthesized_or_ne_nil {points : Nat → Go.Point} {role : Go.Role} {cs : List Tree}
    {pre init us : List Token} {r w m : Token} {rest : Tree}
    (h : ImportOf tokens cs pre r init w us m rest) :
    (Go.Lowering.importGroup points (.node "import_declaration" role cs)).1 = true ∨
      (Go.Lowering.importGroup points (.node "import_declaration" role cs)).2 ≠ [] := by
  have hfirst : ((Tree.token m).kind == "import_spec_list") = false := by simp [Tree.kind, h.text_eq]
  rcases h.shape with ⟨children, rfl⟩ | ⟨items, rfl⟩
  · right
    rw [importGroup_snd, show (Go.Tree.node "import_declaration" role cs).children = cs from rfl,
      h.specTrees_eq]
    simp [Go.specTrees, Tree.kind]
  · left
    unfold Go.Lowering.importGroup
    rw [Tree.children, h.children, List.find?_cons, hfirst]
    rfl

/-- The edit for the first import declaration replaces a block. -/
theorem replacesBlock_import {before text : List Char} {points : Nat → Go.Point} {role : Go.Role}
    {cs : List Tree} {pre init us : List Token} {r w m : Token} {rest : Tree}
    (h : Parsed source tokens trees) (hsource : source = before ++ text)
    (hlexes : Go.Token.Lexes (Text.size before) none text tokens)
    (hmem : Go.Tree.node "import_declaration" role cs ∈ trees)
    (himport : ImportOf tokens cs pre r init w us m rest) (q : String) (starts : List Nat)
    (conflict : Bool) :
    ReplacesBlock q (changeAt q starts m.span.start (libraryTree conflict)) source tokens
      ⟨(Go.Tree.node "import_declaration" role cs).span, (Node.importGroup
        (some (Go.Tree.node "import_declaration" role cs).span)
        (Go.Lowering.importGroup points (.node "import_declaration" role cs)).1
        ((Go.Lowering.importGroup points (.node "import_declaration" role cs)).2 ++
          [librarySpec conflict])).render source⟩ := by
  have hsited := h.sited hmem
  cases hsited with
  | node _ _ hsited =>
  refine himport.replacesBlock hsource hlexes (fun body hbody => himport.forall₂_specOf (h.sound hmem)
    hsited hlexes hbody points conflict) (by simp) (fun u hu => ?_) rfl ?_
  · have hplace : u.span.start = m.span.start := by rw [hu, himport.span_eq]
    rcases himport.shape with ⟨_, rfl⟩ | ⟨_, rfl⟩ <;> simp [changeAt, hplace]
  · rw [render_importGroup]
    exact renderImportGroup_append (parenthesized_or_ne_nil himport)

end

end SentinelWrap.Wrapping
