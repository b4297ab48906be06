import SentinelWrap.Proofs.Go.Grammar.Shape
import SentinelWrap.Proofs.Syntax.Placement

/-! The syntax tree of a source: every node below the file covers a range of the source, and the
ranges are nested and ordered as the nodes are. -/
namespace SentinelWrap.Go
open Token (Row endOf row_append)
open Text (isBoundary isBoundary_iff)
open Node (Lined WellPlaced)

variable {source : List Char}

theorem Token.Sits.boundaries {t : Token} (h : t.Sits source) :
    isBoundary t.span.start source = true ∧ isBoundary t.span.stop source = true := by
  obtain ⟨before, after, rfl, hstart, hstop⟩ := Span.slice?_eq_some_iff.mp h
  refine ⟨isBoundary_iff.mpr ⟨before, _, rfl, hstart⟩, isBoundary_iff.mpr ?_⟩
  exact ⟨before ++ t.text.toList, after, by simp, by simpa using hstop⟩

theorem Token.endOf_append (lo : Nat) (as bs : List Token) :
    endOf lo (as ++ bs) = endOf (endOf lo as) bs := by
  induction as generalizing lo with
  | nil => rfl
  | cons a as ih => exact ih _

/-- A range on character boundaries that begins at `lo` or later and ends at `hi`. -/
structure Stands (source : List Char) (lo hi : Nat) (s : Span) : Prop where
  lo_le : lo ≤ s.start
  start_le_stop : s.start ≤ s.stop
  stop_eq : s.stop = hi
  start_boundary : isBoundary s.start source = true
  stop_boundary : isBoundary s.stop source = true

namespace Tree

/-- To prove a property of all trees, take it for granted of the children of a node. -/
theorem children_induction {P : Tree → Prop} (token : ∀ t, P (.token t))
    (node : ∀ kind role cs, (∀ c ∈ cs, P c) → P (.node kind role cs)) : ∀ t, P t
  | .token t => token t
  | .node kind role cs => node kind role cs fun c _ => children_induction token node c

private theorem stands_list {cs : List Tree}
    (h : ∀ c ∈ cs, ∀ lo, Row source lo c.tokens → Stands source lo (endOf lo c.tokens) c.span)
    (hne : cs ≠ []) {lo : Nat} (hrow : Row source lo (cs.flatMap tokens)) :
    Stands source lo (endOf lo (cs.flatMap tokens)) ⟨startOfList cs, stopOfList cs⟩ := by
  induction cs generalizing lo with
  | nil => exact absurd rfl hne
  | cons c cs ih =>
    rw [List.flatMap_cons, row_append] at hrow
    have hc := h c List.mem_cons_self lo hrow.1
    cases cs with
    | nil => simpa [startOfList, stopOfList, Tree.span] using hc
    | cons d cs =>
      have hrest := ih (fun e he => h e (List.mem_cons_of_mem _ he)) (by simp) hrow.2
      rw [List.flatMap_cons, Token.endOf_append]
      refine ⟨hc.lo_le, ?_, hrest.stop_eq, hc.start_boundary, hrest.stop_boundary⟩
      calc c.start ≤ c.stop := hc.start_le_stop
        _ = endOf lo c.tokens := hc.stop_eq
        _ ≤ startOfList (d :: cs) := hrest.lo_le
        _ ≤ stopOfList (d :: cs) := hrest.start_le_stop

theorem Full.stands {t : Tree} (h : t.Full) {lo : Nat} (hrow : Row source lo t.tokens) :
    Stands source lo (endOf lo t.tokens) t.span := by
  induction h generalizing lo with
  | token t =>
    obtain ⟨hsits, hlo, -⟩ := hrow
    exact ⟨hlo, hsits.start_le_stop, rfl, hsits.boundaries.1, hsits.boundaries.2⟩
  | node kind role hne _ ih =>
    rw [tokens_node] at hrow ⊢
    exact stands_list (fun c hc _ => ih c hc) hne hrow

end Tree

namespace Lowering

/-- What the kind of a concrete tree and its lowered parts can give. -/
inductive Assembled (tree : Tree) (parts : List (Role × Node)) : Node → Prop
  | conditional {condition : Node} (hkind : tree.kind = "if_statement")
    (hcondition : part? .condition parts = some condition) :
    Assembled tree parts (.conditional (some tree.span) (part? .initializer parts) condition
      (((part? .consequence parts).map Node.children).getD []) (part? .alternative parts))
  | ret (hkind : tree.kind = "return_statement") :
    Assembled tree parts (.ret (some tree.span) ((parts.map Prod.snd).flatMap Node.children))
  | identifier : Assembled tree parts (.identifier (some tree.span) tree.leafText)
  | memberAccess {operand : Node} {span : Option Span} {name : String}
    (hparts : parts.map Prod.snd = [operand, .identifier span name]) :
    Assembled tree parts (.memberAccess (some tree.span) operand ⟨span, name⟩)
  | comparison {left right : Node} {op : Comparison} (hparts : parts.map Prod.snd = [left, right]) :
    Assembled tree parts (.comparison (some tree.span) left op right)
  | call {callee arguments : Node} {between : List Node}
    (hparts : parts.map Prod.snd = callee :: (between ++ [arguments])) :
    Assembled tree parts (.call (some tree.span) callee arguments.children)
  | literal {kind : LiteralKind} :
    Assembled tree parts (.literal (some tree.span) kind tree.leafText)
  | other : Assembled tree parts (.other (some tree.span) tree.kind (parts.map Prod.snd))

theorem assembled (tree : Tree) (parts : List (Role × Node)) :
    Assembled tree parts (assemble tree parts) := by
  unfold assemble
  dsimp only
  split
  · rename_i hkind
    cases hc : part? .condition parts with
    | none => simpa [conditional?, hc] using Assembled.other
    | some condition => simpa [conditional?, hc] using Assembled.conditional hkind hc
  · rename_i hkind
    exact .ret hkind
  · exact .identifier
  · exact .identifier
  · exact .identifier
  · exact .identifier
  · unfold memberAccess?
    split
    · rename_i hparts
      exact .memberAccess hparts
    · exact .other
  · unfold comparison?
    split
    · rename_i hparts
      cases (Tree.signs tree.children).findSome? Comparison.ofText? with
      | none => exact .other
      | some op => exact .comparison hparts
    · exact .other
  · unfold call?
    cases hparts : parts.map Prod.snd with
    | nil => simpa [hparts] using @Assembled.other tree parts
    | cons callee rest =>
      cases hlast : rest.getLast? with
      | none => simpa [hparts, hlast] using @Assembled.other tree parts
      | some arguments =>
        obtain ⟨between, rfl⟩ := List.getLast?_eq_some_iff.mp hlast
        simpa using Assembled.call hparts
  · split
    · exact .literal
    · exact .other

theorem Assembled.span_eq {tree : Tree} {parts : List (Role × Node)} {n : Node}
    (h : Assembled tree parts n) : n.span = some tree.span := by
  cases h <;> rfl

theorem span_node (t : Tree) : (node t).span = some t.span := by
  cases t <;> exact (assembled _ _).span_eq

theorem Assembled.kind_ne_file {tree : Tree} {parts : List (Role × Node)} {n : Node}
    (h : Assembled tree parts n) : n.kind ≠ .file := by
  cases h <;> nofun

theorem Assembled.children_of_ret {tree : Tree} {parts : List (Role × Node)} {n : Node}
    (h : Assembled tree parts n) (hret : n.kind = .ret) :
    tree.kind = "return_statement" ∧ n.children = (parts.map Prod.snd).flatMap Node.children := by
  cases h with
  | ret hkind => exact ⟨hkind, rfl⟩
  | _ => cases hret

theorem Assembled.mem_children {tree : Tree} {parts : List (Role × Node)} {n c : Node}
    (h : Assembled tree parts n) (hc : c ∈ n.children) :
    ∃ p ∈ parts.map Prod.snd, c = p ∨ c ∈ p.children := by
  have hpart {role : Role} {m : Node} (hm : part? role parts = some m) :
      m ∈ parts.map Prod.snd := by
    obtain ⟨p, hp, rfl⟩ := Option.map_eq_some_iff.mp hm
    exact List.mem_map_of_mem (List.mem_of_find?_eq_some hp)
  cases h with
  | conditional hkind hcondition =>
    simp only [Node.children, List.mem_append, List.mem_cons, Option.mem_toList] at hc
    rcases hc with (hc | rfl | hc) | hc
    · exact ⟨c, hpart hc, .inl rfl⟩
    · exact ⟨c, hpart hcondition, .inl rfl⟩
    · cases hbody : part? .consequence parts with
      | none => simp [hbody] at hc
      | some body => exact ⟨body, hpart hbody, .inr (by simpa [hbody] using hc)⟩
    · exact ⟨c, hpart hc, .inl rfl⟩
  | ret hkind =>
    obtain ⟨p, hp, hc⟩ := List.mem_flatMap.mp hc
    exact ⟨p, hp, .inr hc⟩
  | memberAccess hparts =>
    obtain rfl := List.mem_singleton.mp hc
    exact ⟨c, by simp [hparts], .inl rfl⟩
  | comparison hparts => exact ⟨c, by rw [hparts]; exact hc, .inl rfl⟩
  | call hparts =>
    rcases List.mem_cons.mp hc with rfl | hc
    · exact ⟨c, by simp [hparts], .inl rfl⟩
    · exact ⟨_, by simp [hparts], .inr hc⟩
  | other => exact ⟨c, hc, .inl rfl⟩
  | identifier | literal => cases hc

private theorem part?_cons (role : Role) (p : Role × Node) (parts : List (Role × Node)) :
    part? role (p :: parts) = if p.1 = role then some p.2 else part? role parts := by
  simp only [part?, List.find?_cons]
  by_cases h : p.1 = role
  · simp [h]
  · simp [beq_eq_false_iff_ne.mpr h, h]

def RolesOrdered (parts : List (Role × Node)) : Prop :=
  parts.Pairwise fun p q => p.1 ≠ .plain → q.1 ≠ .plain → p.1.index ≤ q.1.index

/-- If the roles of the parts come in order, so do the parts with some of these roles. -/
theorem filterMap_part?_sublist {parts : List (Role × Node)} (hparts : RolesOrdered parts)
    {roles : List Role} (hroles : roles.Pairwise fun r s => r.index < s.index)
    (hplain : ∀ r ∈ roles, r ≠ .plain) :
    (roles.filterMap (part? · parts)).Sublist (parts.map Prod.snd) := by
  induction parts generalizing roles with
  | nil =>
    have hnone : roles.filterMap (part? · []) = [] := by
      rw [List.filterMap_eq_nil_iff]
      exact fun _ _ => rfl
    rw [hnone]
    exact .slnil
  | cons p parts ih =>
    obtain ⟨hp, hparts⟩ := List.pairwise_cons.mp hparts
    have hskip {roles : List Role} (h : ∀ r ∈ roles, p.1 ≠ r) :
        roles.filterMap (part? · (p :: parts)) = roles.filterMap (part? · parts) :=
      List.filterMap_congr fun r hr => by rw [part?_cons, if_neg (h r hr)]
    induction roles with
    | nil => exact List.nil_sublist _
    | cons r roles ihr =>
      obtain ⟨hlt, hroles'⟩ := List.pairwise_cons.mp hroles
      obtain ⟨hr, hplain'⟩ := List.forall_mem_cons.mp hplain
      by_cases hpr : p.1 = r
      · have hne : ∀ s ∈ roles, p.1 ≠ s := by
          rintro s hs rfl
          exact absurd (hlt _ hs) (by rw [hpr]; exact Nat.lt_irrefl _)
        have hsome : part? r (p :: parts) = some p.2 := by rw [part?_cons, if_pos hpr]
        simp only [List.filterMap_cons, hsome, hskip hne]
        exact (ih hparts hroles' hplain').cons_cons _
      by_cases hlater : p.1 ∈ roles
      · have hnone : part? r (p :: parts) = none := by
          rw [part?_cons, if_neg hpr]
          unfold part?
          rw [Option.map_eq_none_iff, List.find?_eq_none]
          intro q hq heq
          obtain rfl : q.1 = r := by simpa using heq
          have := hp q hq (hplain' _ hlater) hr
          have := hlt _ hlater
          omega
        simp only [List.filterMap_cons, hnone]
        exact ihr hroles' hplain'
      · rw [hskip (List.forall_mem_cons.mpr ⟨hpr, fun s hs heq => hlater (heq ▸ hs)⟩)]
        exact (ih hparts hroles hplain).cons _

private theorem lined_replace {lo hi : Nat} {ns ms between : List Node} {n : Node}
    (h : Lined lo hi (ns ++ n :: ms))
    (hn : ∀ s, n.span = some s → Lined s.start s.stop between) :
    Lined lo hi (ns ++ between ++ ms) := by
  induction ns generalizing lo with
  | nil =>
    obtain ⟨s, hspan, hlo, -, hrest⟩ := h
    exact Node.lined_append ((hn s hspan).mono hlo) hrest
  | cons m ns ih =>
    obtain ⟨s, hspan, hlo, hle, hrest⟩ := h
    exact ⟨s, hspan, hlo, hle, ih hrest⟩

theorem Assembled.lined {tree : Tree} {parts : List (Role × Node)} {n : Node}
    (h : Assembled tree parts n) (hroles : tree.kind = "if_statement" → RolesOrdered parts)
    (hbelow : ∀ p ∈ parts.map Prod.snd, ∀ s, p.span = some s → Lined s.start s.stop p.children)
    {lo hi : Nat} (hlined : Lined lo hi (parts.map Prod.snd)) : Lined lo hi n.children := by
  cases h with
  | @conditional condition hkind hcondition =>
    have hsub := @filterMap_part?_sublist parts (hroles hkind)
      [.initializer, .condition, .consequence, .alternative] (by decide) (by decide)
    have hlist : [Role.initializer, .condition, .consequence, .alternative].filterMap
        (part? · parts) = (part? .initializer parts).toList ++
          condition :: ((part? .consequence parts).toList ++ (part? .alternative parts).toList) := by
      simp only [List.filterMap_cons, List.filterMap_nil, hcondition]
      cases part? .initializer parts <;> cases part? .consequence parts <;>
        cases part? .alternative parts <;> rfl
    rw [hlist] at hsub
    have hall := hlined.sublist hsub
    cases hbody : part? .consequence parts with
    | none => simpa [Node.children, hbody] using hall
    | some body =>
      have hmem : body ∈ parts.map Prod.snd := hsub.subset (by simp [hbody])
      have hreplaced := @lined_replace lo hi ((part? .initializer parts).toList ++ [condition])
        (part? .alternative parts).toList body.children body (by simpa [hbody] using hall)
        (hbelow body hmem)
      simpa [Node.children] using hreplaced
  | ret hkind => exact hlined.flatMap _ hbelow
  | memberAccess hparts =>
    rw [hparts] at hlined
    exact hlined.sublist (by simp [Node.children])
  | comparison hparts =>
    rw [hparts] at hlined
    exact hlined
  | @call callee arguments between hparts =>
    have hargs : arguments ∈ parts.map Prod.snd := by simp [hparts]
    have hsub : [callee, arguments].Sublist (parts.map Prod.snd) := by
      rw [hparts]
      exact (List.sublist_append_right _ _).cons_cons _
    simpa [Node.children] using
      @lined_replace lo hi [callee] [] _ _ (hlined.sublist hsub) (hbelow _ hargs)
  | other => exact hlined
  | identifier | literal => exact hlined.le

theorem mem_nodes {cs : List Tree} {p : Role × Node} (h : p ∈ nodes cs) :
    ∃ c ∈ cs, c.isNode = true ∧ p = (c.role, node c) := by
  induction cs with
  | nil => cases h
  | cons c cs ih =>
    have hlater (h : p ∈ nodes cs) : ∃ d ∈ c :: cs, d.isNode = true ∧ p = (d.role, node d) := by
      obtain ⟨d, hd, hp⟩ := ih h
      exact ⟨d, List.mem_cons_of_mem _ hd, hp⟩
    simp only [nodes] at h
    split_ifs at h with hnode
    · rcases List.mem_cons.mp h with rfl | h
      · exact ⟨c, List.mem_cons_self, hnode, rfl⟩
      · exact hlater h
    · exact hlater h

theorem rolesOrdered_nodes {cs : List Tree} (h : cs.Pairwise Tree.RoleLe) :
    RolesOrdered (nodes cs) := by
  induction h with
  | nil => exact .nil
  | cons hc _ ih =>
    simp only [nodes]
    split_ifs
    · refine .cons (fun p hp => ?_) ih
      obtain ⟨d, hd, -, rfl⟩ := mem_nodes hp
      exact hc d hd
    · exact ih

/-- The nodes among trees in a row stand in a line. -/
theorem lined_nodes {cs : List Tree} (hfull : ∀ c ∈ cs, c.Full) {lo : Nat}
    (hrow : Row source lo (cs.flatMap Tree.tokens)) :
    Lined lo (endOf lo (cs.flatMap Tree.tokens)) ((nodes cs).map Prod.snd) := by
  induction cs generalizing lo with
  | nil => exact Nat.le_refl _
  | cons c cs ih =>
    obtain ⟨hc, hfull⟩ := List.forall_mem_cons.mp hfull
    rw [List.flatMap_cons, row_append] at hrow
    rw [List.flatMap_cons, Token.endOf_append]
    have hstands := hc.stands hrow.1
    have hrest := ih hfull hrow.2
    simp only [nodes]
    split_ifs
    · refine ⟨c.span, span_node c, hstands.lo_le, hstands.start_le_stop, ?_⟩
      rw [hstands.stop_eq]
      exact hrest
    · exact hrest.mono hrow.1.le_endOf

/-- A line that begins with the first tree. -/
theorem lined_children {kind : String} {role : Role} {cs : List Tree}
    (hfull : (Tree.node kind role cs).Full) {lo : Nat}
    (hrow : Row source lo (cs.flatMap Tree.tokens)) :
    Lined (Tree.startOfList cs) (endOf lo (cs.flatMap Tree.tokens)) ((nodes cs).map Prod.snd) := by
  cases hfull with
  | node _ _ hne hall =>
    cases cs with
    | nil => exact absurd rfl hne
    | cons c cs =>
      obtain ⟨hc, hall⟩ := List.forall_mem_cons.mp hall
      rw [List.flatMap_cons, row_append] at hrow
      have hstands := hc.stands hrow.1
      have hrest := lined_nodes hall hrow.2
      rw [List.flatMap_cons, Token.endOf_append]
      simp only [nodes]
      split_ifs
      · refine ⟨c.span, span_node c, Nat.le_refl _, hstands.start_le_stop, ?_⟩
        rw [hstands.stop_eq]
        exact hrest
      · refine hrest.mono ?_
        rw [← hstands.stop_eq]
        exact hstands.start_le_stop

theorem row_of_mem {cs : List Tree} {c : Tree} (hc : c ∈ cs) {lo : Nat}
    (hrow : Row source lo (cs.flatMap Tree.tokens)) : ∃ lo', Row source lo' c.tokens := by
  obtain ⟨before, after, rfl⟩ := List.append_of_mem hc
  rw [List.flatMap_append, List.flatMap_cons, row_append, row_append] at hrow
  exact ⟨_, hrow.2.1⟩

/-- The results of a return stand after its first word. -/
theorem lined_results {role : Role} {cs : List Tree}
    (hfull : (Tree.node "return_statement" role cs).Full)
    (hshaped : (Tree.node "return_statement" role cs).Shaped)
    (hbelow : ∀ p ∈ (nodes cs).map Prod.snd, ∀ s, p.span = some s →
      Lined s.start s.stop p.children) {lo : Nat}
    (hrow : Row source lo (cs.flatMap Tree.tokens)) :
    Lined (Tree.startOfList cs + 1) (endOf lo (cs.flatMap Tree.tokens))
      (((nodes cs).map Prod.snd).flatMap Node.children) := by
  cases hfull with
  | node _ _ hne hall =>
    cases hshaped with
    | node _ hword _ _ =>
      obtain ⟨t, rest, rfl, -, htext⟩ := hword "return" rfl
      obtain ⟨hsits, -, -, hrest⟩ := hrow
      have hstop : t.span.start + 1 ≤ t.span.stop := by
        rw [hsits.stop_eq, htext]
        exact Nat.add_le_add_left (by decide) _
      have hlined := lined_nodes (List.forall_mem_cons.mp hall).2 hrest
      exact (hlined.flatMap _ hbelow).mono hstop

theorem wellPlaced_node {t : Tree} (hnode : t.isNode = true) (hfull : t.Full) (hshaped : t.Shaped)
    {lo : Nat} (hrow : Row source lo t.tokens) : WellPlaced source (node t) := by
  induction hfull generalizing lo with
  | token => cases hnode
  | @node kind role cs hne hall ih =>
    have hstands := (Tree.Full.node kind role hne hall).stands hrow
    rw [Tree.tokens_node] at hrow hstands
    have hbelow : ∀ p ∈ (nodes cs).map Prod.snd, WellPlaced source p := by
      intro p hp
      obtain ⟨q, hq, rfl⟩ := List.mem_map.mp hp
      obtain ⟨c, hc, hnode, rfl⟩ := mem_nodes hq
      obtain ⟨lo', hrow'⟩ := row_of_mem hc hrow
      cases hshaped with
      | node _ _ _ hshaped => exact ih c hc hnode (hshaped c hc) hrow'
    have hchildren : ∀ p ∈ (nodes cs).map Prod.snd, ∀ s, p.span = some s →
        Lined s.start s.stop p.children := by
      intro p hp s hs
      obtain ⟨u, hu⟩ := hbelow p hp p p.self_mem_preorder
      obtain rfl : u = s := Option.some.inj (hu.span_eq.symm.trans hs)
      exact hu.lined
    have hassembled := assembled (.node kind role cs) (nodes cs)
    have hlined := lined_children (.node kind role hne hall) hrow
    intro m hm
    change m ∈ (assemble (.node kind role cs) (nodes cs)).preorder at hm
    rw [Node.preorder_eq, List.mem_cons, List.mem_flatMap] at hm
    rcases hm with rfl | ⟨c, hc, hm⟩
    · refine ⟨_, hassembled.span_eq, hstands.start_le_stop, hstands.start_boundary,
        hstands.stop_boundary, ?_, fun hret => ?_⟩
      · refine hassembled.lined (fun hkind => rolesOrdered_nodes ?_) hchildren ?_
        · cases hshaped with
          | node _ _ hroles _ => exact hroles hkind
        · rw [hstands.stop_eq]
          exact hlined
      · obtain ⟨hkind, hresults⟩ := hassembled.children_of_ret hret
        obtain rfl : kind = "return_statement" := hkind
        rw [hresults, hstands.stop_eq]
        exact lined_results (.node _ role hne hall) hshaped hchildren hrow
    · obtain ⟨p, hp, rfl | hc⟩ := hassembled.mem_children hc
      · exact hbelow c hp m hm
      · exact (hbelow p hp).child hc m hm

/-- What holds of all that can be assembled holds of every node of a syntax tree. -/
theorem forall_mem_preorder {P : Node → Prop} (hP : ∀ tree parts, P (assemble tree parts))
    (t : Tree) : ∀ n ∈ (node t).preorder, P n := by
  have hstep (tree : Tree) (parts : List (Role × Node))
      (hparts : ∀ p ∈ parts.map Prod.snd, ∀ n ∈ p.preorder, P n) :
      ∀ n ∈ (assemble tree parts).preorder, P n := by
    intro n hn
    rw [Node.preorder_eq, List.mem_cons, List.mem_flatMap] at hn
    rcases hn with rfl | ⟨c, hc, hn⟩
    · exact hP tree parts
    · obtain ⟨p, hp, rfl | hc⟩ := (assembled tree parts).mem_children hc
      · exact hparts c hp n hn
      · exact hparts p hp n (Node.preorder_subset_of_mem_children hc hn)
  induction t using Tree.children_induction with
  | token t => exact hstep _ _ nofun
  | node kind role cs ih =>
    refine hstep _ _ fun p hp => ?_
    obtain ⟨q, hq, rfl⟩ := List.mem_map.mp hp
    obtain ⟨d, hd, -, rfl⟩ := mem_nodes hq
    exact ih d hd

/-- The declarations of a file stand in a line, each in its place. -/
theorem declared_placed (points : Nat → Point) {trees : List Tree} (hfull : ∀ t ∈ trees, t.Full)
    (hshaped : ∀ t ∈ trees, t.Shaped) {lo : Nat} (hrow : Row source lo (trees.flatMap Tree.tokens)) :
    Lined lo (endOf lo (trees.flatMap Tree.tokens)) (declared points trees).decls ∧
      ∀ d ∈ (declared points trees).decls, WellPlaced source d := by
  induction trees generalizing lo with
  | nil => exact ⟨Nat.le_refl _, List.forall_mem_nil _⟩
  | cons t trees ih =>
    obtain ⟨ht, hfull⟩ := List.forall_mem_cons.mp hfull
    obtain ⟨ht', hshaped⟩ := List.forall_mem_cons.mp hshaped
    rw [List.flatMap_cons, row_append] at hrow
    obtain ⟨hlined, hplaced⟩ := ih hfull hshaped hrow.2
    rw [List.flatMap_cons, Token.endOf_append]
    have hstands := ht.stands hrow.1
    have hskip : Lined lo (endOf (endOf lo t.tokens) (trees.flatMap Tree.tokens))
        (declared points trees).decls := hlined.mono hrow.1.le_endOf
    have hcons {n : Node} (hspan : n.span = some t.span) (hn : WellPlaced source n) :
        Lined lo (endOf (endOf lo t.tokens) (trees.flatMap Tree.tokens))
            (n :: (declared points trees).decls) ∧
          ∀ d ∈ n :: (declared points trees).decls, WellPlaced source d := by
      refine ⟨⟨t.span, hspan, hstands.lo_le, hstands.start_le_stop, ?_⟩,
        List.forall_mem_cons.mpr ⟨hn, hplaced⟩⟩
      rw [hstands.stop_eq]
      exact hlined
    simp only [declared]
    split_ifs with hnode hpackage himport
    · exact ⟨hskip, hplaced⟩
    · exact ⟨hskip, hplaced⟩
    · refine hcons rfl fun m hm => ?_
      obtain rfl : m = _ := by simpa [Node.preorder_eq, Node.children] using hm
      exact ⟨t.span, rfl, hstands.start_le_stop, hstands.start_boundary, hstands.stop_boundary,
        hstands.start_le_stop, by rintro ⟨⟩⟩
    · exact hcons (span_node t) (wellPlaced_node (by simpa using hnode) ht ht' hrow.1)

/-- No declaration holds a file. -/
theorem declared_kind_ne_file (points : Nat → Point) (trees : List Tree) :
    ∀ n ∈ (declared points trees).decls.flatMap Node.preorder, n.kind ≠ .file := by
  induction trees with
  | nil => exact List.forall_mem_nil _
  | cons t trees ih =>
    simp only [declared]
    split_ifs
    · exact ih
    · exact ih
    · refine List.forall_mem_append.mpr ⟨fun n hn => ?_, ih⟩
      obtain rfl : n = _ := by simpa [Node.preorder_eq, Node.children] using hn
      rintro ⟨⟩
    · exact List.forall_mem_append.mpr
        ⟨forall_mem_preorder (fun tree parts => (assembled tree parts).kind_ne_file) t, ih⟩

end Lowering

theorem Tree.derives_of_ofTokens? {tokens : List Token} {trees : List Tree}
    (h : Tree.ofTokens? tokens = some trees) :
    ∃ last, Rule.Derives Symbol.rule (.ref .source) [] tokens (last :: trees.reverse) [] := by
  unfold Tree.ofTokens? at h
  split at h
  · rename_i last parts hrun
    obtain rfl : parts.reverse = trees := Option.some.inj h
    rw [List.reverse_reverse]
    exact ⟨last, Rule.derives_of_run hrun⟩
  · cases h

/-- The tree of a source: one file at the root, and its declarations in a line, each of them with all
its nodes in their places. -/
theorem parse_placed {source : List Char} {root : Node} (h : parse source = .ok root) :
    ∃ span package imports decls, root = .file span package imports decls ∧
      (∃ lo hi, Lined lo hi decls) ∧ (∀ d ∈ decls, WellPlaced source d) ∧
      ∀ n ∈ decls.flatMap Node.preorder, n.kind ≠ .file := by
  unfold parse at h
  cases htokens : Token.list source with
  | error e => simp [htokens, bind, Except.bind] at h
  | ok tokens =>
    have hrow := Token.row_of_list htokens
    cases htrees : Tree.ofTokens? tokens with
    | none => simp [htokens, htrees, bind, Except.bind, throw, throwThe, MonadExceptOf.throw] at h
    | some trees =>
      obtain rfl : Lowering.file source trees = root := by
        simpa [htokens, htrees, bind, Except.bind, pure, Except.pure] using h
      obtain ⟨last, hderives⟩ := Tree.derives_of_ofTokens? htrees
      have hfull := hderives.full_of_nil Grammar.grounded_rule rfl
      have hshaped := hderives.shaped Grammar.shapes_rule rfl nofun
      have hall := hderives.row hrow
      rw [yield_cons, yield, List.reverse_reverse, row_append] at hall
      have hplaced := Lowering.declared_placed (Point.ofOffset source)
        (fun t ht => hfull t (List.mem_cons_of_mem _ (List.mem_reverse.mpr ht)))
        (fun t ht => hshaped t (List.mem_cons_of_mem _ (List.mem_reverse.mpr ht))) hall.1
      exact ⟨_, _, _, _, rfl, ⟨_, _, hplaced.1⟩, hplaced.2, Lowering.declared_kind_ne_file _ _⟩

end SentinelWrap.Go
