import SentinelWrap.Proofs.Syntax.Erasure
import SentinelWrap.Proofs.Go.Placement
import SentinelWrap.Proofs.Go.Grammar.Extent

/-! Syntax trees of concrete trees that differ in places only. -/
namespace SentinelWrap.Go.Lowering
open Node (erase eraseAll_eq_map eraseOption_eq_map children_erase)

/-- What a concrete node becomes. -/
inductive Form
  | conditional
  | ret
  | identifier
  | memberAccess
  | comparison
  | call
  | literal (kind : LiteralKind)
  | other

def Form.ofKind : String → Form
  | "if_statement" => .conditional
  | "return_statement" => .ret
  | "identifier" | "field_identifier" | "package_identifier" | "type_identifier" => .identifier
  | "selector_expression" => .memberAccess
  | "binary_expression" => .comparison
  | "call_expression" => .call
  | kind => (literalKind? kind).elim .other .literal

/-- A node of a form, if its parts are as they should be. -/
def Form.build? (tree : Tree) (parts : List (Role × Node)) : Form → Option Node
  | conditional => conditional? tree.span parts
  | ret => some (.ret (some tree.span) ((parts.map Prod.snd).flatMap Node.children))
  | identifier => some (.identifier (some tree.span) tree.leafText)
  | memberAccess => memberAccess? tree.span (parts.map Prod.snd)
  | comparison => comparison? tree.span (Tree.signs tree.children) (parts.map Prod.snd)
  | call => call? tree.span (parts.map Prod.snd)
  | literal kind => some (.literal (some tree.span) kind tree.leafText)
  | other => none

theorem assemble_eq (tree : Tree) (parts : List (Role × Node)) :
    assemble tree parts = ((Form.ofKind tree.kind).build? tree parts).getD
      (.other (some tree.span) tree.kind (parts.map Prod.snd)) := by
  unfold assemble
  dsimp only
  generalize tree.kind = kind
  split
  case h_10 =>
    rename_i h1 h2 h3 h4 h5 h6 h7 h8 h9
    have hform : Form.ofKind kind = (literalKind? kind).elim .other .literal := by
      simp only [Form.ofKind]
    cases hkind : literalKind? kind <;> simp [hform, hkind, Form.build?]
  all_goals rfl

def mapParts (f : Node → Node) (parts : List (Role × Node)) : List (Role × Node) :=
  parts.map fun p => (p.1, f p.2)

variable {tree tree' : Tree} {parts parts' : List (Role × Node)} {form : Form} {f : Node → Node}

theorem part?_mapParts (role : Role) : part? role (mapParts f parts) = (part? role parts).map f := by
  simp [part?, mapParts, List.find?_map, Function.comp_def]

theorem map_snd_mapParts : (mapParts f parts).map Prod.snd = (parts.map Prod.snd).map f := by
  simp [mapParts, Function.comp_def]

theorem conditional?_eq (span : Span) (parts : List (Role × Node)) : conditional? span parts =
    (part? .condition parts).map fun condition => .conditional (some span) (part? .initializer parts)
      condition (((part? .consequence parts).map Node.children).getD []) (part? .alternative parts) := by
  unfold conditional?
  cases part? .condition parts <;> rfl

def pair? {α : Type} : List α → Option (α × α)
  | [a, b] => some (a, b)
  | _ => none

theorem pair?_map {α β : Type} (f : α → β) (as : List α) :
    pair? (as.map f) = (pair? as).map (Prod.map f f) := by
  rcases as with _ | ⟨a, _ | ⟨b, _ | ⟨c, as⟩⟩⟩ <;> rfl

theorem memberAccess?_eq (span : Span) (nodes : List Node) : memberAccess? span nodes =
    (pair? nodes).bind fun p => p.2.identifier?.map fun name =>
      .memberAccess (some span) p.1 ⟨p.2.span, name⟩ := by
  rcases nodes with _ | ⟨a, _ | ⟨b, _ | ⟨c, nodes⟩⟩⟩
  case nil | cons.nil => rfl
  all_goals cases b <;> rfl

theorem comparison?_eq (span : Span) (signs : List String) (nodes : List Node) :
    comparison? span signs nodes = (pair? nodes).bind fun p =>
      (signs.findSome? Comparison.ofText?).map fun op => .comparison (some span) p.1 op p.2 := by
  rcases nodes with _ | ⟨a, _ | ⟨b, _ | ⟨c, nodes⟩⟩⟩
  case cons.cons.nil =>
    unfold comparison?
    dsimp only [pair?, Option.bind_some]
    cases signs.findSome? Comparison.ofText? <;> rfl
  all_goals rfl

theorem call?_eq (span : Span) (nodes : List Node) : call? span nodes =
    nodes.head?.bind fun callee => nodes.tail.getLast?.map fun arguments =>
      .call (some span) callee arguments.children := by
  unfold call?
  cases nodes.head? with
  | none => rfl
  | some callee => cases nodes.tail.getLast? <;> rfl

/-- Nodes of the same form from parts that are the same but for their places. -/
theorem erase_build? (hleaf : tree'.leafText = tree.leafText)
    (hsigns : Tree.signs tree'.children = Tree.signs tree.children)
    (hparts : mapParts erase parts' = mapParts erase parts) :
    (form.build? tree' parts').map erase = (form.build? tree parts).map erase := by
  have hpart (role : Role) : (part? role parts').map erase = (part? role parts).map erase := by
    rw [← part?_mapParts, hparts, part?_mapParts]
  have hnodes : (parts'.map Prod.snd).map erase = (parts.map Prod.snd).map erase := by
    rw [← map_snd_mapParts, hparts, map_snd_mapParts]
  cases form with
  | conditional =>
    have hbody (parts : List (Role × Node)) : (((part? .consequence parts).map Node.children).getD []).map
        erase = (((part? .consequence parts).map erase).map Node.children).getD [] := by
      cases part? .consequence parts <;> simp
    have hform (tree : Tree) (parts : List (Role × Node)) :
        (conditional? tree.span parts).map erase = ((part? .condition parts).map erase).map fun condition =>
          .conditional none ((part? .initializer parts).map erase) condition
            ((((part? .consequence parts).map erase).map Node.children).getD [])
            ((part? .alternative parts).map erase) := by
      rw [conditional?_eq, Option.map_map, Option.map_map]
      simp [Function.comp_def, erase, eraseAll_eq_map, eraseOption_eq_map, hbody]
    simp only [Form.build?, hform, hpart]
  | ret =>
    have hform (nodes : List Node) : (nodes.flatMap Node.children).map erase =
        (nodes.map erase).flatMap Node.children := by
      rw [List.map_flatMap, List.flatMap_map]
      simp
    simp [Form.build?, erase, eraseAll_eq_map, hform, hnodes]
  | identifier => simp [Form.build?, erase, hleaf]
  | literal => simp [Form.build?, erase, hleaf]
  | other => rfl
  | memberAccess =>
    have hform (tree : Tree) (nodes : List Node) : (memberAccess? tree.span nodes).map erase =
        (pair? (nodes.map erase)).bind fun p => p.2.identifier?.map fun name =>
          .memberAccess none p.1 ⟨none, name⟩ := by
      rw [memberAccess?_eq, pair?_map]
      cases pair? nodes with
      | none => rfl
      | some p => simp [Function.comp_def, erase]
    simp only [Form.build?, hform, hnodes]
  | comparison =>
    have hform (tree : Tree) (signs : List String) (nodes : List Node) :
        (comparison? tree.span signs nodes).map erase = (pair? (nodes.map erase)).bind fun p =>
          (signs.findSome? Comparison.ofText?).map fun op => .comparison none p.1 op p.2 := by
      rw [comparison?_eq, pair?_map]
      cases pair? nodes with
      | none => rfl
      | some p => simp [Function.comp_def, erase]
    simp only [Form.build?, hform, hnodes, hsigns]
  | call =>
    have hform (tree : Tree) (nodes : List Node) : (call? tree.span nodes).map erase =
        (nodes.map erase).head?.bind fun callee => (nodes.map erase).tail.getLast?.map fun arguments =>
          .call none callee arguments.children := by
      rw [call?_eq, List.head?_map, ← List.map_tail, List.getLast?_map]
      cases nodes.head? with
      | none => rfl
      | some callee =>
        cases nodes.tail.getLast? <;> simp [erase, eraseAll_eq_map]
    simp only [Form.build?, hform, hnodes]

theorem erase_assemble (hkind : tree'.kind = tree.kind) (hleaf : tree'.leafText = tree.leafText)
    (hsigns : Tree.signs tree'.children = Tree.signs tree.children)
    (hparts : mapParts erase parts' = mapParts erase parts) :
    (assemble tree' parts').erase = (assemble tree parts).erase := by
  have hnodes : (parts'.map Prod.snd).map erase = (parts.map Prod.snd).map erase := by
    rw [← map_snd_mapParts, hparts, map_snd_mapParts]
  have hgetD (o : Option Node) (n : Node) : (o.getD n).erase = (o.map erase).getD n.erase := by
    cases o <;> rfl
  rw [assemble_eq, assemble_eq, hgetD, hgetD, hkind, erase_build? hleaf hsigns hparts, erase, erase,
    eraseAll_eq_map, eraseAll_eq_map, hnodes]

theorem leafText_bare (t : Tree) : t.bare.leafText = t.leafText := by
  cases t with
  | token t => simp [Tree.leafText, Token.bare]
  | node kind role cs => rcases cs with _ | ⟨_ | _, cs⟩ <;> simp [Tree.leafText, Token.bare]

private theorem signs_map_bare (cs : List Tree) :
    Tree.signs (cs.map Tree.bare) = Tree.signs cs := by
  induction cs with
  | nil => rfl
  | cons c cs ih => cases c <;> simp [Tree.signs, Token.bare, ih]

theorem isNode_bare (t : Tree) : t.bare.isNode = t.isNode := by cases t <;> simp [Tree.isNode]

private theorem role_bare (t : Tree) : t.bare.role = t.role := by cases t <;> simp [Tree.role]

theorem kind_bare (t : Tree) : t.bare.kind = t.kind := by cases t <;> simp [Tree.kind, Token.bare]

/-- The nodes among other trees that stand for the first in the same roles. -/
theorem mapParts_nodes {g : Tree → Tree} {f f' : Node → Node} (hnode : ∀ c, (g c).isNode = c.isNode)
    (hrole : ∀ c, (g c).role = c.role) {cs : List Tree}
    (h : ∀ c ∈ cs, c.isNode = true → f (node (g c)) = f' (node c)) :
    mapParts f (nodes (cs.map g)) = mapParts f' (nodes cs) := by
  induction cs with
  | nil => rfl
  | cons c cs ih =>
    obtain ⟨hc, hcs⟩ := List.forall_mem_cons.mp h
    rw [List.map_cons, nodes, nodes, hnode, hrole]
    split_ifs with hisNode
    · exact List.cons_eq_cons.mpr ⟨congrArg (Prod.mk c.role) (hc hisNode), ih hcs⟩
    · exact ih hcs

/-- Places in a concrete tree make no difference but for the places in the syntax tree. -/
theorem erase_node_bare (t : Tree) : (node t.bare).erase = (node t).erase := by
  induction t using Tree.children_induction with
  | token t =>
    rw [Tree.bare_token, node, node]
    exact erase_assemble rfl rfl rfl rfl
  | node kind role cs ih =>
    rw [Tree.bare_node, node, node]
    refine erase_assemble rfl ?_ (signs_map_bare cs) (mapParts_nodes isNode_bare role_bare ?_)
    · rw [← Tree.bare_node, leafText_bare]
    · exact fun c hc _ => ih c hc

/-- A map of trees that keeps what the declarations of a file are told by. -/
structure Keeps (g : Tree → Tree) : Prop where
  isNode : ∀ t, (g t).isNode = t.isNode
  kind : ∀ t, (g t).kind = t.kind
  leafText : ∀ t, (g t).leafText = t.leafText
  children : ∀ t, t.kind ≠ "return_statement" → t.kind ≠ "import_declaration" →
    (g t).children = t.children.map g

theorem keeps_bare : Keeps Tree.bare where
  isNode := isNode_bare
  kind := kind_bare
  leafText := leafText_bare
  children t _ _ := by cases t <;> simp [Tree.children]

variable {g : Tree → Tree} {points points' : Nat → Point} {trees : List Tree}

theorem Keeps.erase_importSpec (h : Keeps g) {t : Tree} (hspec : t.kind = "import_spec") :
    (importSpec points' (g t)).erase = (importSpec points t).erase := by
  have htext : Tree.leafText ∘ g = Tree.leafText := funext h.leafText
  have hchildren := h.children t (by simp [hspec]) (by simp [hspec])
  simp [ImportSpec.erase, importSpec, hchildren, Option.map_map, htext]

theorem Keeps.erase_importSpecs (h : Keeps g) :
    (importSpecs points' (trees.map g)).map ImportSpec.erase =
      (importSpecs points trees).map ImportSpec.erase := by
  have hkind : (fun t : Tree => t.kind == "import_spec") ∘ g = fun t => t.kind == "import_spec" := by
    funext t
    simp [h.kind]
  simp only [importSpecs, List.filter_map, hkind, List.map_map]
  exact List.map_congr_left fun t ht => h.erase_importSpec (by simpa using (List.mem_filter.mp ht).2)

/-- Specs that differ in places only. -/
theorem erase_importSpecs_of_bare {Ss Ss' : List Tree} (h : Ss'.map Tree.bare = Ss.map Tree.bare)
    (hkinds : ∀ S ∈ Ss, S.kind = "import_spec") :
    (Ss'.map (importSpec points')).map ImportSpec.erase =
      (Ss.map (importSpec points)).map ImportSpec.erase := by
  induction Ss generalizing Ss' with
  | nil =>
    obtain rfl := List.map_eq_nil_iff.mp h
    rfl
  | cons S Ss ih =>
    obtain ⟨S', Ss', rfl, hS, hSs⟩ := List.map_eq_cons_iff.mp h
    obtain ⟨hkind, hkinds⟩ := List.forall_mem_cons.mp hkinds
    have hkind' : S'.kind = "import_spec" := by
      rw [← kind_bare, hS, kind_bare, hkind]
    have hone : (importSpec points S.bare).erase = (importSpec points S).erase :=
      keeps_bare.erase_importSpec hkind
    have hone' : (importSpec points S'.bare).erase = (importSpec points' S').erase :=
      keeps_bare.erase_importSpec hkind'
    rw [hS, hone] at hone'
    simp only [List.map_cons, ih hSs hkinds, hone']

/-- Import declarations with corresponding children hold the same specs. -/
theorem Keeps.erase_importGroup (h : Keeps g) {t t' : Tree}
    (hchildren : t'.children = t.children.map g) (points points' : Nat → Point) :
    (importGroup points' t').1 = (importGroup points t).1 ∧
      (importGroup points' t').2.map ImportSpec.erase = (importGroup points t).2.map ImportSpec.erase := by
  have hkind : (fun t : Tree => t.kind == "import_spec_list") ∘ g =
      fun t => t.kind == "import_spec_list" := by
    funext t
    simp [h.kind]
  unfold importGroup
  rw [hchildren, List.find?_map, hkind]
  cases hfind : t.children.find? (·.kind == "import_spec_list") with
  | none => exact ⟨rfl, h.erase_importSpecs⟩
  | some group =>
    have hgroup : group.kind = "import_spec_list" := by simpa using List.find?_some hfind
    refine ⟨rfl, ?_⟩
    dsimp only [Option.map_some]
    rw [h.children group (by simp [hgroup]) (by simp [hgroup])]
    exact h.erase_importSpecs

def Declared.erase (all : Declared) : Declared where
  package := all.package
  imports := all.imports.map ImportSpec.erase
  decls := all.decls.map Node.erase

/-- Corresponding trees declare the same, if those that are no imports become the same nodes. -/
theorem Keeps.erase_declared (h : Keeps g) (points points' : Nat → Point) {f : Node → Node}
    (hf : ∀ span parenthesized specs,
      f (.importGroup span parenthesized specs) = .importGroup span parenthesized specs)
    (hchildren : ∀ t ∈ trees, t.kind = "import_declaration" → (g t).children = t.children.map g)
    (hnode : ∀ t ∈ trees, t.isNode = true → t.kind ≠ "import_declaration" →
      (node (g t)).erase = (f (node t)).erase) :
    (declared points' (trees.map g)).erase =
      Declared.erase { declared points trees with decls := (declared points trees).decls.map f } := by
  induction trees with
  | nil => rfl
  | cons t trees ih =>
    obtain ⟨hchild, hchildren⟩ := List.forall_mem_cons.mp hchildren
    obtain ⟨hfirst, hnode⟩ := List.forall_mem_cons.mp hnode
    have hrest := ih hchildren hnode
    simp only [Declared.erase, Declared.mk.injEq] at hrest ⊢
    obtain ⟨hpackage, himports, hdecls⟩ := hrest
    simp only [List.map_cons, declared, h.isNode, h.kind]
    split_ifs with hisNode hclause himport
    · exact ⟨hpackage, himports, hdecls⟩
    · have hclause : t.kind = "package_clause" := by simpa using hclause
      have hfind : Tree.isNode ∘ g = Tree.isNode := funext h.isNode
      have htext : Tree.leafText ∘ g = Tree.leafText := funext h.leafText
      have hname := h.children t (by simp [hclause]) (by simp [hclause])
      refine ⟨?_, himports, hdecls⟩
      rw [hname, List.find?_map, hfind, Option.map_map, htext, hpackage]
    · obtain ⟨hparens, hspecs⟩ :=
        h.erase_importGroup (hchild (by simpa using himport)) points points'
      refine ⟨hpackage, ?_, ?_⟩
      · simp [hspecs, himports]
      · simp [hf, erase, hparens, hspecs, hdecls]
    · refine ⟨hpackage, himports, ?_⟩
      simp [hfirst (by simpa using hisNode) (by simpa using himport), hdecls]

theorem declared_append (as bs : List Tree) : declared points (as ++ bs) =
    { package := (declared points bs).package <|> (declared points as).package
      imports := (declared points as).imports ++ (declared points bs).imports
      decls := (declared points as).decls ++ (declared points bs).decls } := by
  induction as with
  | nil => simp [declared]
  | cons a as ih =>
    simp only [List.cons_append, declared, ih]
    split_ifs <;> simp [Option.or_assoc]

end SentinelWrap.Go.Lowering
