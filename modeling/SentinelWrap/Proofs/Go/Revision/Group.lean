import SentinelWrap.Proofs.Go.Revision.Text

/-! An import group that is printed into a file of its own, and what is read there. -/
namespace SentinelWrap.Go.Grammar
open Rule Token
open Text (size)

def finish (offset : Nat) (lineEnd : Option Nat) : Token := ⟨.finish, "", ⟨offset, offset⟩, lineEnd⟩

/-- Nothing begins with the end of the text. -/
theorem item_rejected (offset : Nat) (parts : List Tree) :
    Ends Symbol.rule (.ref .topLevel) parts [finish offset none] .rejected ∧
      Ends Symbol.rule (.ref .statement) parts [finish offset none] .rejected :=
  ⟨⟨nofun, 100, rfl⟩, ⟨nofun, 100, rfl⟩⟩

/-- A package clause and an import declaration, each with a line break after it, are a file. -/
theorem ends_source {package name : Token} {span : Span} {mid : List Token} {D : Tree}
    {mark stop mark' : Nat} (hpackage : (Terminal.word "package").accepts package = true)
    (hname : (Terminal.name []).accepts name = true)
    (hread : ∀ parts, Ends Symbol.rule (.ref .importDeclaration) parts
      (⟨.word, "import", span, none⟩ :: (mid ++ [finish stop (some mark')]))
      (.read (D :: parts) [finish stop (some mark')])) :
    Ends Symbol.rule (.ref .source) []
      (package :: name :: ⟨.word, "import", span, some mark⟩ :: (mid ++ [finish stop (some mark')]))
      (.read [.token (finish stop none), .token (.lineBreak mark'), D, .token (.lineBreak mark),
        .node "package_clause" .plain [.token package, .node "package_identifier" .plain [.token name]]]
        []) := by
  have hclause (rest : List Token) : Ends Symbol.rule (.ref .topLevel) [] (package :: name :: rest)
      (.read [.node "package_clause" .plain
        [.token package, .node "package_identifier" .plain [.token name]]] rest) :=
    .ref (.altLeft (.node (.seq (ends_token hpackage) (ends_leaf hname))))
  have himport (parts : List Tree) : Ends Symbol.rule (.ref .topLevel) parts
      (⟨.word, "import", span, none⟩ :: (mid ++ [finish stop (some mark')]))
      (.read (D :: parts) [finish stop (some mark')]) :=
    .ref (.altRight ⟨nofun, 10, rfl⟩ (.altRight ⟨nofun, 10, rfl⟩
      (.altRight ⟨nofun, 10, rfl⟩ (hread parts))))
  have hstop (parts : List Tree) : Ends Symbol.rule
      (.many ((.ref .topLevel ||| .ref .statement) ++ terminator)) parts [finish stop none]
      (.read parts [finish stop none]) :=
    .manyStop (.seq_rejected (.altRight (item_rejected stop _).1 (item_rejected stop _).2))
  have hsecond (parts : List Tree) : Ends Symbol.rule
      (.many ((.ref .topLevel ||| .ref .statement) ++ terminator)) parts
      (⟨.word, "import", span, none⟩ :: (mid ++ [finish stop (some mark')]))
      (.read (.token (.lineBreak mark') :: D :: parts) [finish stop none]) :=
    (Ends.seq (.altLeft (himport _)) (ends_terminator rfl _ _)).manyStep (hstop _)
  have hitems := (Ends.seq (.altLeft (hclause _)) (@ends_terminator ⟨.word, "import", span, some mark⟩ _
    rfl _ (mid ++ [finish stop (some mark')]))).manyStep (hsecond _)
  exact .ref (.altLeft (.seq (.seq hitems (.altRight (item_rejected stop _).1 ends_empty))
    (ends_token rfl)))

def groupFile (specs : List ImportSpec) : List Char :=
  "package p\n\n".toList ++ ("import".toList ++ ' ' :: groupText specs) ++ ['\n']

/-- What stands before the specs of such a file. -/
theorem groupFile_eq (specs : List ImportSpec) : groupFile specs =
    "package p\n\nimport (\n".toList ++ ((Node.renderSpecs none specs).toList ++ ")\n".toList) := by
  have hfront : "package p\n\nimport (\n".toList =
      "package p\n\n".toList ++ ("import".toList ++ ' ' :: "(\n".toList) := by simp
  have hback : ")\n".toList = [')', '\n'] := by simp
  unfold groupFile groupText
  simp only [hfront, hback, List.append_assoc, List.cons_append, List.nil_append]

/-- The tokens of such a file. -/
theorem exists_list_groupFile {specs : List ImportSpec} {ts : List Token}
    (h : Spells ['\n'] 20 (some 19) ((Node.renderSpecs none specs).toList ++ [')']) ts none) :
    ∃ package name span opening mark stop mark', (Terminal.word "package").accepts package = true ∧
      (Terminal.name []).accepts name = true ∧ name.text = "p" ∧
      (Terminal.sign "(").accepts opening = true ∧
      Token.list (groupFile specs) = .ok (package :: name :: ⟨.word, "import", span, some mark⟩ ::
        opening :: (ts ++ [finish stop (some mark')])) := by
  have hfront : "package p\n\n".toList =
      "package".toList ++ ' ' :: ("p".toList ++ '\n' :: ['\n']) := by simp
  have hopening : "(\n".toList = "(".toList ++ ['\n'] := by simp
  have hfile : groupFile specs = "package".toList ++ ' ' :: ("p".toList ++ '\n' :: '\n' ::
      ("import".toList ++ ' ' :: ("(".toList ++ '\n' ::
        ((Node.renderSpecs none specs).toList ++ [')'] ++ '\n' :: [])))) := by
    unfold groupFile groupText
    simp only [hfront, hopening, List.append_assoc, List.cons_append, List.nil_append]
  have hmarked : Marked [] (groupFile specs) := by
    rw [Marked, markSize_eq, hfile]
    rfl
  have hlast := h.lexes (.blank rfl (.finish _ _))
  generalize (Node.renderSpecs none specs).toList ++ [')'] ++ '\n' :: [] = lines at hfile hlast
  have hopen : Lexes 18 none ("(".toList ++ '\n' :: lines) _ :=
    (Spells.single (leads_of_eval rfl rfl rfl)).lexes (.blank rfl hlast)
  have himport : Lexes 11 (some 9) ("import".toList ++ ' ' :: ("(".toList ++ '\n' :: lines)) _ :=
    (Spells.single (leads_of_eval rfl rfl rfl)).lexes (.blank rfl hopen)
  have hname : Lexes 8 none ("p".toList ++ '\n' :: '\n' :: ("import".toList ++ ' ' ::
      ("(".toList ++ '\n' :: lines))) _ :=
    (Spells.single (leads_of_eval rfl rfl rfl)).lexes (.blank rfl (.blank rfl himport))
  have hall : Lexes 0 none ("package".toList ++ ' ' :: ("p".toList ++ '\n' :: '\n' ::
      ("import".toList ++ ' ' :: ("(".toList ++ '\n' :: lines)))) _ :=
    (Spells.single (leads_of_eval rfl rfl rfl)).lexes (.blank rfl hname)
  rw [← hfile] at hall
  simp only [String.ofList_toList, List.cons_append, List.nil_append] at hall
  exact ⟨_, _, _, _, _, _, _, rfl, rfl, rfl, rfl, hmarked.list_eq.mpr hall⟩

/-- Printed specs are read again, where they were printed. -/
theorem exists_parse_groupFile {body : List Char} {specs : List ImportSpec} {Ss : List Tree}
    (h : List.Forall₂ (SpecOf body) specs Ss) (hne : Ss ≠ []) :
    ∃ (span span' : Option Span) (Ss' : List Tree), Ss'.map Tree.bare = Ss.map Tree.bare ∧
      Ss'.map Tree.start = Node.offsetsFrom none 20 specs ∧
      parse (groupFile specs) = .ok (.file span (some "p")
        (Ss'.map (Lowering.importSpec (Point.ofOffset (groupFile specs))))
        [.importGroup span' true
          (Ss'.map (Lowering.importSpec (Point.ofOffset (groupFile specs))))]) := by
  obtain ⟨ts, close, o, Ss', hspells, hlines, hbares, hstarts, hclose, hline⟩ :=
    @exists_lines ['\n'] _ _ _ h none 20 19
  have hne' : Ss' ≠ [] := by
    rintro rfl
    exact hne (List.map_eq_nil_iff.mp hbares.symm)
  obtain ⟨package, name, span, opening, mark, stop, mark', hpackage, hname, htext, hopening, hlist⟩ :=
    exists_list_groupFile hspells
  obtain ⟨children, -, hgroup, hread⟩ := hlines.exists_ends_group (m := ⟨.word, "import", span, none⟩)
    hne' rfl hopening hclose hline [finish stop (some mark')]
  have hends := @ends_source package name span (opening :: (ts ++ [close]))
    (.node "import_declaration" .plain children) mark stop mark' hpackage hname
    (by simpa using hread)
  have hrun := hends.run_eq (run_source_ne_starved _)
  have htrees : Tree.ofTokens? (package :: name :: ⟨.word, "import", span, some mark⟩ ::
      opening :: (ts ++ [close] ++ [finish stop (some mark')])) = some
        [.node "package_clause" .plain [.token package, .node "package_identifier" .plain [.token name]],
          .token (.lineBreak mark), .node "import_declaration" .plain children,
          .token (.lineBreak mark')] := by
    unfold Tree.ofTokens?
    simp only [List.cons_append, List.append_assoc] at hrun ⊢
    rw [hrun]
    rfl
  refine ⟨some ⟨Lowering.firstOffset (groupFile specs), size (groupFile specs)⟩,
    some (Tree.node "import_declaration" .plain children).span, Ss', hbares, hstarts,
    parse_eq_ok_iff.mpr ⟨_, _, hlist, htrees, ?_⟩⟩
  have hdeclared (points : Nat → Point) : Lowering.declared points
      [.node "package_clause" .plain [.token package, .node "package_identifier" .plain [.token name]],
        .token (.lineBreak mark), .node "import_declaration" .plain children,
        .token (.lineBreak mark')] =
      { package := some "p"
        imports := Ss'.map (Lowering.importSpec points)
        decls := [.importGroup (some (Tree.node "import_declaration" .plain children).span) true
          (Ss'.map (Lowering.importSpec points))] } := by
    simp [Lowering.declared, Tree.isNode, Tree.kind, hgroup, Tree.children, Tree.leafText, htext]
  rw [Lowering.file, hdeclared]

end SentinelWrap.Go.Grammar
