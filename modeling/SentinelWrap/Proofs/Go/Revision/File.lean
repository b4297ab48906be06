import SentinelWrap.Proofs.Go.Revision.Specs

/-! The file of amended trees: the returns at some offsets are wrapped, and the first import declaration
holds one more spec. -/
namespace SentinelWrap.Go
open Token (Row endOf)
open Grammar
open Wrapping (wrapAt librarySpec)

/-- A source with its tokens and its trees. -/
structure Parsed (source : List Char) (tokens : List Token) (trees : List Tree) : Prop where
  list : Token.list source = .ok tokens
  read : Tree.ofTokens? tokens = some trees

namespace Parsed
variable {source : List Char} {tokens : List Token} {trees : List Tree} {t : Tree}

theorem sound (h : Parsed source tokens trees) (ht : t ∈ trees) : t.Sound source :=
  (sound_of_ofTokens? h.list h.read).1 t ht

theorem row (h : Parsed source tokens trees) : ∃ lo, Row source lo (trees.flatMap Tree.tokens) :=
  (sound_of_ofTokens? h.list h.read).2.1

theorem bodied (h : Parsed source tokens trees) (ht : t ∈ trees) : t.Every Bodied := by
  obtain ⟨last, hderives⟩ := Tree.derives_of_ofTokens? h.read
  exact hderives.every bodied_rule trivial (List.forall_mem_nil _) t
    (List.mem_cons_of_mem _ (List.mem_reverse.mpr ht))

theorem sited (h : Parsed source tokens trees) (ht : t ∈ trees) :
    t.Every fun kind cs => isSited kind = true → Rule.Sited Symbol.rule tokens kind cs := by
  obtain ⟨last, hderives⟩ := Tree.derives_of_ofTokens? h.read
  exact every_sited hderives t (List.mem_cons_of_mem _ (List.mem_reverse.mpr ht))

end Parsed

section
variable {source : List Char} {tokens : List Token} {trees as bs cs : List Tree} {t rest D : Tree}
  {q : String} {starts : List Nat} {place : Nat} {spec : Tree} {m : Token}

/-- No other declaration begins where the first import does. -/
theorem Parsed.start_ne (h : Parsed source tokens trees) (htrees : trees = as ++ D :: bs)
    (hm : m ∈ D.tokens) (hmtext : m.text = "import") (ht : t ∈ as ++ bs) {u : Token}
    (hu : u ∈ t.tokens) (hutext : u.text = "import") : u.span.start ≠ m.span.start := by
  obtain ⟨lo, hrow⟩ := h.row
  have hlt {a : Token} (hsits : a.Sits source) (htext : a.text = "import") :
      a.span.start < a.span.stop := by
    have hsize : Text.size "import".toList = 6 := rfl
    have hstop := hsits.stop_eq
    rw [htext, hsize] at hstop
    omega
  have hD : D ∈ trees := by simp [htrees]
  obtain ⟨lo', hDrow⟩ := (h.sound hD).row
  have hmlt := hlt (hDrow.sits hm) hmtext
  rw [htrees, List.flatMap_append, List.flatMap_cons] at hrow
  rcases List.mem_append.mp ht with ht | ht
  · have hmem : u ∈ as.flatMap Tree.tokens := List.mem_flatMap.mpr ⟨t, ht, hu⟩
    have hult := hlt (hrow.sits (List.mem_append_left _ hmem)) hutext
    have hle := hrow.stop_le_start hmem (List.mem_append_left _ hm)
    omega
  · have hmem : u ∈ bs.flatMap Tree.tokens := List.mem_flatMap.mpr ⟨t, ht, hu⟩
    rw [← List.append_assoc] at hrow
    have hle := hrow.stop_le_start (List.mem_append_right _ hm) hmem
    omega

theorem Parsed.amendable (h : Parsed source tokens trees) (ht : t ∈ trees)
    (hkept : ∀ u ∈ t.tokens, u.text = "import" → u.span.start ≠ place) :
    t.Every (Amendable q starts place spec) := by
  refine Tree.every_of_within fun kind role cs hwithin => ?_
  have hsound := (h.sound ht).within hwithin
  have hplain := hsound.plain
  have hshaped := hsound.shaped
  have hbodied := (h.bodied ht).within hwithin
  have hsited := (h.sited ht).within hwithin
  cases hplain with
  | node _ hplain _ =>
  cases hshaped with
  | node _ hword _ _ =>
  cases hbodied with
  | node _ hbodied _ =>
  cases hsited with
  | node _ hsited _ =>
  refine ⟨hplain, hbodied, ?_, ?_⟩
  · rintro rfl
    obtain ⟨u, rest, rfl, -, htext⟩ := hword "import" rfl
    have hmem : u ∈ t.tokens := hwithin.tokens_subset (by simp [Tree.tokens_node])
    cases hchange : changeAt q starts place spec "import_declaration" (.token u :: rest) with
    | none => rfl
    | some cs' =>
      obtain ⟨u', _, _, _, heq, ⟨hkind, -⟩ | ⟨-, hplace, -⟩⟩ := of_changeAt hchange
      · exact absurd hkind (by decide)
      · obtain rfl : u = u' := by simpa using (List.cons.inj heq).1
        exact absurd hplace (hkept u hmem htext)
  · rintro rfl u Xs rfl
    obtain ⟨_, _, _, _, _, Xs', _, hreturn⟩ := exists_returnOf (hsited rfl) (by simp)
    obtain ⟨-, rfl⟩ : _ ∧ Xs = Xs' := by simpa using hreturn.children
    obtain ⟨init, X, _, _, rfl, -, hrun⟩ := hreturn.listed.exists_last
    exact ⟨init, X, rfl, isNode_of_expression (Rule.derives_of_run hrun)⟩

open Lowering (declared Declared importSpec importSpecs importGroup)

/-- The lines of a group hold its specs. -/
theorem importSpecs_brokenLines {points : Nat → Point} {Ss : List Tree} {l r : Token}
    (hl : l.text ≠ "import_spec") (hr : r.text ≠ "import_spec")
    (h : ∀ S ∈ Ss, S.kind = "import_spec") :
    importSpecs points (.token l :: brokenLines Ss ++ [.token r]) = Ss.map (importSpec points) := by
  have hfilter : (brokenLines Ss).filter (·.kind == "import_spec") = Ss := by
    induction Ss with
    | nil => rfl
    | cons S Ss ih =>
      obtain ⟨hS, hSs⟩ := List.forall_mem_cons.mp h
      have hbreak : anyBreak.kind = "\n" := rfl
      simpa [brokenLines, hS, hbreak] using ih hSs
  have hfirst : ((Tree.token l).kind == "import_spec") = false := by simpa [Tree.kind] using hl
  have hlast : ((Tree.token r).kind == "import_spec") = false := by simpa [Tree.kind] using hr
  rw [importSpecs, List.filter_append, List.filter_cons, List.filter_singleton, hfirst, hlast, hfilter]
  simp

theorem declared_import (points : Nat → Point) (role : Role) (cs : List Tree) :
    declared points [.node "import_declaration" role cs] =
      { package := none
        imports := (importGroup points (.node "import_declaration" role cs)).2
        decls := [.importGroup (some (Tree.node "import_declaration" role cs).span)
          (importGroup points (.node "import_declaration" role cs)).1
          (importGroup points (.node "import_declaration" role cs)).2] } := by
  simp [declared, Tree.isNode, Tree.kind]

/-- A group of specs. -/
theorem importGroup_groupChildren {points : Nat → Point} {role : Role} {Ss : List Tree}
    (hm : m.text = "import") (h : ∀ S ∈ Ss, S.kind = "import_spec") :
    importGroup points (.node "import_declaration" role (groupChildren m Ss)) =
      (true, Ss.map (importSpec points)) := by
  have hfirst : ((Tree.token m).kind == "import_spec_list") = false := by simp [Tree.kind, hm]
  have hfind : (groupChildren m Ss).find? (·.kind == "import_spec_list") = some
      (.node "import_spec_list" .plain (.token ⟨.sign, "(", ⟨0, 0⟩, none⟩ :: brokenLines Ss ++
        [.token ⟨.sign, ")", ⟨0, 0⟩, none⟩])) := by
    rw [groupChildren, List.find?_cons, hfirst]
    rfl
  unfold importGroup
  rw [Tree.children, hfind]
  exact congrArg (Prod.mk true) (importSpecs_brokenLines (by decide) (by decide) h)

private theorem erase_importSpec_libraryTree (points : Nat → Point) (conflict : Bool) :
    (importSpec points (libraryTree conflict)).erase = (librarySpec conflict).erase := by
  cases conflict <;> simp [Lowering.importSpec, ImportSpec.erase, libraryTree, librarySpec,
    ImportSpec.new, Tree.children, Tree.leafText, looseToken]

theorem kind_withLibrary {Ss : List Tree} (h : ∀ S ∈ Ss, S.kind = "import_spec") (conflict : Bool) :
    ∀ S ∈ Ss.map (Tree.withRole .plain) ++ [libraryTree conflict], S.kind = "import_spec" := by
  refine List.forall_mem_append.mpr ⟨List.forall_mem_map.mpr fun S hS => ?_,
    List.forall_mem_singleton.mpr rfl⟩
  rw [← h S hS]
  cases S <;> rfl

theorem erase_importSpec_withLibrary (points points' : Nat → Point) (Ss : List Tree) (conflict : Bool) :
    ((Ss.map (Tree.withRole .plain) ++ [libraryTree conflict]).map (importSpec points')).map
        ImportSpec.erase =
      (Ss.map (importSpec points) ++ [librarySpec conflict]).map ImportSpec.erase := by
  have hone (S : Tree) : (importSpec points' (S.withRole .plain)).erase = (importSpec points S).erase := by
    rw [importSpec_withRole]
    rfl
  simp [erase_importSpec_libraryTree, hone]

/-- The declaration with the library declares its specs and the library. -/
theorem erase_declared_group (points points' : Nat → Point) (role : Role) {Ss : List Tree}
    (conflict : Bool) (hm : m.text = "import") (h : ∀ S ∈ Ss, S.kind = "import_spec") :
    (declared points' [.node "import_declaration" role
        (groupChildren m (Ss.map (Tree.withRole .plain) ++ [libraryTree conflict]))]).erase =
      { package := none
        imports := (Ss.map (importSpec points) ++ [librarySpec conflict]).map ImportSpec.erase
        decls := [.importGroup none true
          ((Ss.map (importSpec points) ++ [librarySpec conflict]).map ImportSpec.erase)] } := by
  have hspecs := erase_importSpec_withLibrary points points' Ss conflict
  rw [declared_import, importGroup_groupChildren hm (kind_withLibrary h conflict), Declared.erase,
    hspecs, List.map_singleton, Node.erase, hspecs]

def NoImport (as : List Tree) : Prop := ∀ t ∈ as, t.isNode = true → t.kind ≠ "import_declaration"

theorem NoImport.imports_eq_nil (h : NoImport as) (points : Nat → Point) :
    (declared points as).imports = [] := by
  induction as with
  | nil => rfl
  | cons t as ih =>
    obtain ⟨ht, has⟩ := List.forall_mem_cons.mp h
    simp only [declared, beq_iff_eq, Bool.not_eq_true']
    split_ifs with hnode _ hkind
    · exact ih has
    · exact ih has
    · exact absurd hkind (ht (by simpa using hnode))
    · exact ih has

/-- The first import group comes from the first import declaration. -/
theorem exists_first_import {points : Nat → Point} {g : Node}
    (h : (declared points trees).decls.find? (·.kind == .importGroup) = some g) :
    ∃ as role cs bs, trees = as ++ .node "import_declaration" role cs :: bs ∧ NoImport as ∧
      g = .importGroup (some (Tree.node "import_declaration" role cs).span)
        (importGroup points (.node "import_declaration" role cs)).1
        (importGroup points (.node "import_declaration" role cs)).2 := by
  induction trees with
  | nil => cases h
  | cons t trees ih =>
    have hnode : ((Lowering.node t).kind == .importGroup) = false := by
      rw [beq_eq_false_iff_ne]
      cases t <;> exact (Lowering.assembled _ _).kind_ne_importGroup
    have hlater (hskip : t.isNode = true → t.kind ≠ "import_declaration")
        (h : (declared points trees).decls.find? (·.kind == .importGroup) = some g) :
        ∃ as role cs bs, t :: trees = as ++ .node "import_declaration" role cs :: bs ∧ NoImport as ∧
          g = .importGroup (some (Tree.node "import_declaration" role cs).span)
            (importGroup points (.node "import_declaration" role cs)).1
            (importGroup points (.node "import_declaration" role cs)).2 := by
      obtain ⟨as, role, cs, bs, rfl, has, hg⟩ := ih h
      exact ⟨t :: as, role, cs, bs, rfl, List.forall_mem_cons.mpr ⟨hskip, has⟩, hg⟩
    simp only [declared, beq_iff_eq, Bool.not_eq_true'] at h
    split_ifs at h with htoken hclause himport
    · exact hlater (by simp [htoken]) h
    · exact hlater (fun _ => by simp [hclause]) h
    · cases t with
      | token t => exact absurd rfl htoken
      | node kind role cs =>
        obtain rfl : kind = "import_declaration" := himport
        exact ⟨[], role, cs, trees, rfl, List.forall_mem_nil _, (Option.some.inj h).symm⟩
    · rw [List.find?_cons, hnode] at h
      exact hlater (fun _ => himport) h

/-- What the declarations around the first import declare: the same but for the wrapped returns. -/
theorem Parsed.erase_declared_around {us : List Tree} (h : Parsed source tokens trees)
    (hsub : us ⊆ trees)
    (hkept : ∀ t ∈ us, ∀ u ∈ t.tokens, u.text = "import" → u.span.start ≠ place)
    (q : String) (starts : List Nat) (spec : Tree) (points points' : Nat → Point) :
    (declared points' (us.map (Tree.amend (changeAt q starts place spec)))).erase =
      Declared.erase { declared points us with
        decls := (declared points us).decls.map (wrapAt q starts) } := by
  have hamendable : ∀ t ∈ us, t.Every (Amendable q starts place spec) := fun t ht =>
    h.amendable (hsub ht) (hkept t ht)
  refine keeps_amend.erase_declared points points' (fun _ _ _ => rfl) (fun t ht hkind => ?_)
    fun t ht hnode _ => Lowering.erase_node_amend (hamendable t ht) hnode
  cases t with
  | token t => simp [Tree.children]
  | node kind role cs =>
    cases hamendable _ ht with
    | node _ hamendable _ =>
      rw [Tree.amend_of_none (hamendable.kept hkind)]
      rfl

/-- What the trees of a source declare, around the first import declaration. -/
theorem declared_around (points : Nat → Point) {role : Role} (htrees : trees = as ++ D :: bs)
    (hD : D = .node "import_declaration" role cs) (hfirst : NoImport as) :
    declared points trees =
      { package := (declared points bs).package <|> (declared points as).package
        imports := (importGroup points D).2 ++ (declared points bs).imports
        decls := (declared points as).decls ++
          .importGroup (some D.span) (importGroup points D).1 (importGroup points D).2 ::
            (declared points bs).decls } := by
  rw [htrees, Lowering.declared_append, ← List.singleton_append, Lowering.declared_append, hD,
    declared_import, hfirst.imports_eq_nil points]
  simp

/-- What the amended trees declare. -/
theorem Parsed.erase_declared_amend {role : Role} {pre init us : List Token} {r w : Token}
    (h : Parsed source tokens trees) (htrees : trees = as ++ D :: bs)
    (hD : D = .node "import_declaration" role cs) (hfirst : NoImport as)
    (himport : ImportOf tokens cs pre r init w us m rest) (q : String) (starts : List Nat)
    (conflict : Bool) (points points' : Nat → Point) :
    (declared points' (trees.map
        (Tree.amend (changeAt q starts m.span.start (libraryTree conflict))))).erase =
      Declared.erase
        { package := (declared points trees).package
          imports := (importGroup points D).2 ++ librarySpec conflict :: (declared points bs).imports
          decls := (declared points as).decls.map (wrapAt q starts) ++
            .importGroup none true ((importGroup points D).2 ++ [librarySpec conflict]) ::
              (declared points bs).decls.map (wrapAt q starts) } := by
  have hDtrees : D ∈ trees := by simp [htrees]
  have hm : m ∈ D.tokens := by simp [hD, himport.children, Tree.tokens_node]
  have hne : ∀ t ∈ as ++ bs, ∀ u ∈ t.tokens, u.text = "import" → u.span.start ≠ m.span.start :=
    fun t ht u hu hutext => h.start_ne htrees hm himport.text_eq ht hu hutext
  obtain ⟨hnea, hneb⟩ := List.forall_mem_append.mp hne
  have hsub : as ⊆ trees ∧ bs ⊆ trees := by simp [htrees]
  have has := h.erase_declared_around hsub.1 hnea q starts (libraryTree conflict) points points'
  have hbs := h.erase_declared_around hsub.2 hneb q starts (libraryTree conflict) points points'
  have hplain := (h.sound hDtrees).plain
  have hamend : D.amend (changeAt q starts m.span.start (libraryTree conflict)) =
      .node "import_declaration" role (groupChildren m
        ((specTrees [rest]).map (Tree.withRole .plain) ++ [libraryTree conflict])) := by
    rw [hD]
    refine Tree.amend_of_some ?_ role
    rw [himport.children]
    rcases himport.shape with ⟨_, rfl⟩ | ⟨_, rfl⟩ <;> simp [changeAt]
  have hspecs : (importGroup points D).2 = (specTrees [rest]).map (importSpec points) := by
    rw [importGroup_snd, hD, ← himport.specTrees_eq]
    rfl
  have hkinds : ∀ S ∈ specTrees [rest], S.kind = "import_spec" := by
    intro S hS
    rw [hD] at hplain
    cases hplain with
    | node _ _ hplain =>
      obtain ⟨-, _, _, rfl⟩ := exists_of_mem_specTrees himport
        (hplain rest (by simp [himport.children])) hS
      rfl
  have hgroup := erase_declared_group points points' role conflict himport.text_eq hkinds
  rw [← hamend, ← hspecs] at hgroup
  have hpackage : (declared points trees).package =
      ((declared points bs).package <|> (declared points as).package) := by
    rw [declared_around points htrees hD hfirst]
  rw [hpackage, htrees, List.map_append, List.map_cons, Lowering.declared_append,
    ← List.singleton_append, Lowering.declared_append]
  simp only [Declared.erase, Declared.mk.injEq] at has hbs hgroup ⊢
  obtain ⟨hpackage, hfront, hdecls⟩ := has
  obtain ⟨hpackage', hback, hdecls'⟩ := hbs
  obtain ⟨hnone, hadded, hnode⟩ := hgroup
  refine ⟨?_, ?_, ?_⟩
  · rw [hpackage, hpackage', hnone]
    simp
  · rw [List.map_append, List.map_append, hfront, hadded, hback, hfirst.imports_eq_nil points]
    simp
  · rw [List.map_append, List.map_append, hdecls, hnode, hdecls']
    simp [Node.erase]

end
end SentinelWrap.Go
