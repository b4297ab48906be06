import SentinelWrap.Go.Lowering
import SentinelWrap.Proofs.Go.Grammar.Outcome
import SentinelWrap.Proofs.Go.Grammar.Parts

/-! Import declarations, and how a group of specs reads that stand on a line each. -/
namespace SentinelWrap.Go.Grammar
open Rule

def pathKind (t : Token) : String :=
  if t.kind = .string then "interpreted_string_literal" else "raw_string_literal"

def nameKind (t : Token) : String :=
  if t.kind = .sign then "dot" else if t.text = "_" then "blank_identifier" else "package_identifier"

def IsImportName (t : Token) : Prop :=
  t.kind = .sign ∧ t.text = "." ∨ t.kind = .word ∧ keywords.contains t.text = false

def IsPath (t : Token) : Prop := t.kind = .string ∨ t.kind = .rawString

/-- The tokens of an import spec and its tree. -/
inductive SpecTokens : List Token → Tree → Prop
  | path {p : Token} (hp : IsPath p) :
    SpecTokens [p] (.node "import_spec" .plain [.node (pathKind p) .plain [.token p]])
  | named {n p : Token} (hn : IsImportName n) (hp : IsPath p) :
    SpecTokens [n, p] (.node "import_spec" .plain
      [.node (nameKind n) .plain [.token n], .node (pathKind p) .plain [.token p]])

variable {parts last : List Tree} {ts us rest : List Token} {n p : Token} {S : Tree}

theorem ends_path (hp : IsPath p) (parts : List Tree) :
    Ends Symbol.rule string parts (p :: rest)
      (.read (.node (pathKind p) .plain [.token p] :: parts) rest) := by
  unfold pathKind
  rcases hp with hp | hp
  · rw [if_pos hp]
    exact .altLeft (ends_leaf (by simp [hp]))
  · rw [if_neg (by simp [hp])]
    exact .altRight (ends_leaf_rejected (by simp [hp])) (ends_leaf (by simp [hp]))

theorem ends_importName (hn : IsImportName n) (parts : List Tree) :
    Ends Symbol.rule importName parts (n :: rest)
      (.read (.node (nameKind n) .plain [.token n] :: parts) rest) := by
  unfold nameKind
  rcases hn with ⟨hkind, htext⟩ | ⟨hkind, hkeyword⟩
  · rw [if_pos hkind]
    exact .altLeft (ends_leaf (by simp [hkind, htext]))
  · rw [if_neg (by simp [hkind])]
    refine .altRight (ends_leaf_rejected (by simp [hkind])) ?_
    split_ifs with hblank
    · exact .altLeft (ends_leaf (by simp [hkind, hblank]))
    · exact .altRight (ends_leaf_rejected (by simp [hblank]))
        (ends_leaf (Terminal.accepts_name.mpr ⟨hkind, hkeyword, rfl⟩))

theorem importName_rejected (hsign : ¬(n.kind = .sign ∧ n.text = ".")) (hword : n.kind ≠ .word)
    (parts : List Tree) : Ends Symbol.rule importName parts (n :: rest) .rejected := by
  refine .altRight (ends_leaf_rejected (by simpa using hsign))
    (.altRight (ends_leaf_rejected ?_) (ends_leaf_rejected ?_)) <;> simp [hword]

theorem SpecTokens.ends (h : SpecTokens ts S) (parts : List Tree) (rest : List Token) :
    Ends Symbol.rule (.ref .importSpec) parts (ts ++ rest) (.read (S :: parts) rest) := by
  cases h with
  | @path p hp =>
    refine .ref (.node (.seq (.altRight (importName_rejected ?_ ?_ []) ends_empty) (ends_path hp [])))
    · rcases hp with hp | hp <;> simp [hp]
    · rcases hp with hp | hp <;> simp [hp]
  | named hn hp => exact .ref (.node (.seq (.altLeft (ends_importName hn [])) (ends_path hp _)))

private theorem exists_path_of_string (h : Derives Symbol.rule string parts ts last us) :
    ∃ p, IsPath p ∧ ts = p :: us := by
  cases h with
  | altLeft h =>
    cases h with
    | leaf hp => exact ⟨_, .inl (Terminal.accepts_kind.mp hp), rfl⟩
  | altRight h =>
    cases h with
    | leaf hp => exact ⟨_, .inr (Terminal.accepts_kind.mp hp), rfl⟩

private theorem exists_name_of_importName (h : Derives Symbol.rule importName parts ts last us) :
    ∃ n, IsImportName n ∧ ts = n :: us := by
  cases h with
  | altLeft h =>
    cases h with
    | leaf hn => exact ⟨_, .inl (Terminal.accepts_sign.mp hn), rfl⟩
  | altRight h =>
    cases h with
    | altLeft h =>
      cases h with
      | leaf hn =>
        rw [Terminal.accepts_word] at hn
        exact ⟨_, .inr ⟨hn.1, by rw [hn.2]; rfl⟩, rfl⟩
    | altRight h =>
      cases h with
      | leaf hn =>
        obtain ⟨hkind, hkeyword, -⟩ := Terminal.accepts_name.mp hn
        exact ⟨_, .inr ⟨hkind, hkeyword⟩, rfl⟩

/-- What is read as an import spec is one. -/
theorem exists_specTokens {fuel : Nat}
    (h : run Symbol.rule fuel (.ref .importSpec) [] ts = .read [S] us) :
    ∃ spec, SpecTokens spec S ∧ ts = spec ++ us := by
  have huniq {spec : List Token} {S' : Tree} (hspec : SpecTokens spec S') (hts : ts = spec ++ us) :
      ∃ spec, SpecTokens spec S ∧ ts = spec ++ us := by
    subst hts
    have heq := (hspec.ends [] us).unique (ends_of_run h nofun)
    obtain rfl : S' = S := by simpa using heq
    exact ⟨spec, hspec, rfl⟩
  have hderives := derives_of_run h
  cases hderives with
  | ref _ hnode =>
    cases hnode with
    | node hseq =>
      cases hseq with
      | seq hname hpath =>
        obtain ⟨p, hp, rfl⟩ := exists_path_of_string hpath
        cases hname with
        | altLeft hname =>
          obtain ⟨n, hn, rfl⟩ := exists_name_of_importName hname
          exact huniq (.named hn hp) rfl
        | altRight hempty =>
          cases hempty
          exact huniq (.path hp) rfl

/-- Tokens of the same kinds and texts read as the same spec. -/
theorem SpecTokens.exists_like (h : SpecTokens ts S) (hlike : us.map Token.bare = ts.map Token.bare) :
    ∃ S' : Tree, SpecTokens us S' ∧ S'.bare = S.bare := by
  cases h with
  | @path p hp =>
    obtain ⟨p', rfl, hp'⟩ := List.map_eq_singleton_iff.mp hlike
    obtain ⟨hkind, -⟩ := Token.bare_eq_bare.mp hp'
    refine ⟨_, .path (by rwa [IsPath, hkind]), ?_⟩
    simp [pathKind, hkind, hp']
  | @named n p hn hp =>
    obtain ⟨n', _, rfl, hn', hrest⟩ := List.map_eq_cons_iff.mp hlike
    obtain ⟨p', rfl, hp'⟩ := List.map_eq_singleton_iff.mp hrest
    obtain ⟨hkind, -⟩ := Token.bare_eq_bare.mp hp'
    obtain ⟨hkind', htext'⟩ := Token.bare_eq_bare.mp hn'
    refine ⟨_, .named (by rwa [IsImportName, hkind', htext']) (by rwa [IsPath, hkind]), ?_⟩
    simp [pathKind, nameKind, hkind, hkind', htext', hp', hn']

/-- The line break before a spec is no part of it. -/
theorem SpecTokens.exists_unmarked {t : Token} (h : SpecTokens (t :: ts) S) :
    ∃ S' : Tree, SpecTokens (t.unmarked :: ts) S' ∧ S'.bare = S.bare ∧ S'.kind = "import_spec" ∧
      ∀ points, Lowering.importSpec points S' = Lowering.importSpec points S := by
  cases h with
  | path hp => exact ⟨_, .path hp, rfl, rfl, fun _ => rfl⟩
  | named hn hp => exact ⟨_, .named hn hp, rfl, rfl, fun _ => rfl⟩

theorem SpecTokens.kind_eq (h : SpecTokens ts S) : S.kind = "import_spec" := by
  cases h <;> rfl

theorem SpecTokens.start_eq {t : Token} (h : SpecTokens (t :: ts) S) : S.start = t.span.start := by
  cases h <;> rfl

def anyBreak : Tree := .token (.lineBreak 0)

def brokenLines (Ss : List Tree) : List Tree := Ss.flatMap fun S => [S, anyBreak]

/-- Tokens that are read as specs, each on a line of its own. -/
inductive SpecLines : List Token → List Tree → Prop
  | nil : SpecLines [] []
  | cons {t : Token} {spec ts : List Token} {S : Tree} {Ss : List Tree} {offset : Nat}
    (hspec : SpecTokens (t :: spec) S) (hline : t.lineEnd = some offset) (later : SpecLines ts Ss) :
    SpecLines (t :: spec ++ ts) (S :: Ss)

theorem ends_terminator {t : Token} {offset : Nat} (hline : t.lineEnd = some offset)
    (parts : List Tree) (rest : List Token) : Ends Symbol.rule terminator parts (t :: rest)
      (.read (.token (.lineBreak offset) :: parts) (t.unmarked :: rest)) :=
  .altLeft (.altLeft (ends_lineEnd hline))

theorem importSpec_rejected {t : Token} (hkind : t.kind = .sign) (htext : t.text ≠ ".")
    (parts : List Tree) (rest : List Token) :
    Ends Symbol.rule (.ref .importSpec) parts (t :: rest) .rejected := by
  refine .ref (.node_rejected (.seq (.altRight (importName_rejected ?_ ?_ []) ends_empty) ?_))
  · simp [htext]
  · simp [hkind]
  · exact .altRight (ends_leaf_rejected (by simp [hkind]))
      (ends_leaf_rejected (by simp [hkind]))

private theorem bare_lineBreak (offset : Nat) :
    Tree.token (Token.lineBreak offset).bare = anyBreak.bare := by
  simp [anyBreak, Token.bare, Token.lineBreak]

private theorem importSpecs_append (points : Nat → Point) (as bs : List Tree) :
    Lowering.importSpecs points (as ++ bs) =
      Lowering.importSpecs points as ++ Lowering.importSpecs points bs := by
  simp [Lowering.importSpecs]

theorem importSpecs_token {t : Token} (h : t.text ≠ "import_spec") (points : Nat → Point)
    (trees : List Tree) :
    Lowering.importSpecs points (.token t :: trees) = Lowering.importSpecs points trees := by
  have hkind : ((Tree.token t).kind == "import_spec") = false := by simpa [Tree.kind] using h
  simp [Lowering.importSpecs, hkind]

theorem importSpecs_cons (h : S.kind = "import_spec") (points : Nat → Point) (trees : List Tree) :
    Lowering.importSpecs points (S :: trees) =
      Lowering.importSpec points S :: Lowering.importSpecs points trees := by
  simp [Lowering.importSpecs, h]

/-- The later specs of a group, and the line break after the last one. -/
theorem SpecLines.exists_ends {Ss : List Tree} {r : Token} {offset : Nat} (h : SpecLines ts Ss)
    (hr : (Terminal.sign ")").accepts r = true) (hline : r.lineEnd = some offset)
    (rest : List Token) : ∃ items : List Tree,
      items.map Tree.bare = anyBreak.bare :: (brokenLines Ss).map Tree.bare ∧
      (∀ points, Lowering.importSpecs points items = Ss.map (Lowering.importSpec points)) ∧
      ∀ parts, ∃ mid us, Ends Symbol.rule (.many (terminator ++ .ref .importSpec)) parts
        (ts ++ r :: rest) (.read mid us) ∧
        Ends Symbol.rule (opt terminator) mid us (.read (items.reverse ++ parts) (r.unmarked :: rest)) := by
  have hbreak (offset : Nat) : (Token.lineBreak offset).text ≠ "import_spec" := by
    simp [Token.lineBreak]
  induction h with
  | nil =>
    refine ⟨[.token (.lineBreak offset)], by simp [brokenLines, bare_lineBreak],
      fun points => importSpecs_token (hbreak offset) points [], fun parts => ?_⟩
    have hstop : Ends Symbol.rule (terminator ++ .ref .importSpec) parts (r :: rest) .rejected := by
      rw [Terminal.accepts_sign] at hr
      refine .seq (ends_terminator hline _ _) (importSpec_rejected ?_ ?_ _ _)
      · exact hr.1
      · simp [Token.unmarked, hr.2]
    exact ⟨parts, r :: rest, .manyStop hstop, .altLeft (ends_terminator hline _ _)⟩
  | @cons t spec ts S Ss offset' hspec hline' later ih =>
    obtain ⟨items, hitems, hspecs, hends⟩ := ih
    obtain ⟨S', hS', hbare, hkind, hsame⟩ := hspec.exists_unmarked
    refine ⟨.token (.lineBreak offset') :: S' :: items, ?_, fun points => ?_, fun parts => ?_⟩
    · simp [hitems, brokenLines, hbare, bare_lineBreak]
    · rw [importSpecs_token (hbreak offset'), importSpecs_cons hkind, hsame, hspecs, List.map_cons]
    · obtain ⟨mid, us, hmany, hopt⟩ := hends (S' :: .token (.lineBreak offset') :: parts)
      have hstep : Ends Symbol.rule (terminator ++ .ref .importSpec) parts
          (t :: (spec ++ (ts ++ r :: rest))) (.read (S' :: .token (.lineBreak offset') :: parts)
            (ts ++ r :: rest)) := .seq (ends_terminator hline' _ _) (hS'.ends _ _)
      refine ⟨mid, us, ?_, by simpa using hopt⟩
      simpa using hstep.manyStep hmany

def groupChildren (m : Token) (Ss : List Tree) : List Tree :=
  [.token m, .node "import_spec_list" .plain
    (.token ⟨.sign, "(", ⟨0, 0⟩, none⟩ :: brokenLines Ss ++ [.token ⟨.sign, ")", ⟨0, 0⟩, none⟩])]

theorem bare_groupChildren {m : Token} {Ss Ss' : List Tree}
    (h : Ss'.map Tree.bare = Ss.map Tree.bare) :
    (groupChildren m Ss').map Tree.bare = (groupChildren m Ss).map Tree.bare := by
  have hlines (Ss : List Tree) : (brokenLines Ss).map Tree.bare =
      (Ss.map Tree.bare).flatMap fun S => [S, anyBreak.bare] := by
    simp [brokenLines, List.map_flatMap, List.flatMap_map]
  simp [groupChildren, hlines, h]

/-- Specs on lines of their own in parentheses are read as a group. -/
theorem SpecLines.exists_ends_group {Ss : List Tree} {m l r : Token} {offset : Nat}
    (h : SpecLines ts Ss) (hne : Ss ≠ []) (hm : (Terminal.word "import").accepts m = true)
    (hl : (Terminal.sign "(").accepts l = true) (hr : (Terminal.sign ")").accepts r = true)
    (hline : r.lineEnd = some offset) (rest : List Token) : ∃ children : List Tree,
      children.map Tree.bare = (groupChildren m Ss).map Tree.bare ∧
      (∀ points, Lowering.importGroup points (.node "import_declaration" .plain children) =
        (true, Ss.map (Lowering.importSpec points))) ∧ ∀ parts,
      Ends Symbol.rule (.ref .importDeclaration) parts (m :: l :: (ts ++ r :: rest))
        (.read (.node "import_declaration" .plain children :: parts) rest) := by
  cases h with
  | nil => contradiction
  | @cons t spec ts S Ss offset' hspec hline' later =>
    obtain ⟨items, hitems, hspecs, hends⟩ := later.exists_ends hr hline rest
    obtain ⟨mid, us, hmany, hopt⟩ := hends [S, .token l]
    have hr' : (Terminal.sign ")").accepts r.unmarked = true := hr
    have hlist : Ends Symbol.rule (.node "import_spec_list" (parens (lines (.ref .importSpec))))
        [.token m] (l :: (t :: spec ++ ts ++ r :: rest)) (.read [.node "import_spec_list" .plain
          (.token r.unmarked :: (items.reverse ++ [S, .token l])).reverse, .token m] rest) := by
      refine .node (.seq (.seq (ends_token hl) (.altLeft (.seq (.seq ?_ hmany) hopt))) (ends_token hr'))
      simpa using hspec.ends [.token l] (ts ++ r :: rest)
    have hitems' : (Tree.token r.unmarked :: (items.reverse ++ [S, .token l])).reverse =
        .token l :: S :: (items ++ [.token r.unmarked]) := by simp
    rw [hitems'] at hlist
    rw [Terminal.accepts_word] at hm
    rw [Terminal.accepts_sign] at hl hr
    refine ⟨[.token m, .node "import_spec_list" .plain
      (.token l :: S :: (items ++ [.token r.unmarked]))], ?_, fun points => ?_, fun parts => ?_⟩
    · simp [groupChildren, brokenLines, hitems, Token.bare, Token.unmarked, hl, hr]
    · have hfirst : ((Tree.token m).kind == "import_spec_list") = false := by simp [Tree.kind, hm.2]
      have hlast : Lowering.importSpecs points [.token r.unmarked] = [] :=
        importSpecs_token (by simp [Token.unmarked, hr.2]) points []
      have hall : Lowering.importSpecs points (.token l :: S :: (items ++ [.token r.unmarked])) =
          (S :: Ss).map (Lowering.importSpec points) := by
        rw [importSpecs_token (by simp [hl.2]), importSpecs_cons hspec.kind_eq, importSpecs_append,
          hspecs, hlast, List.append_nil, List.map_cons]
      unfold Lowering.importGroup
      rw [Tree.children, List.find?_cons, hfirst]
      exact congrArg (Prod.mk true) hall
    · refine .ref (.node (.seq (ends_token ?_) (.altRight (importSpec_rejected hl.1 ?_ _ _) hlist)))
      · exact Terminal.accepts_word.mpr hm
      · simp [hl.2]

end SentinelWrap.Go.Grammar
