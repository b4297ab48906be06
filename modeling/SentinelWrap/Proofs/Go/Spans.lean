import SentinelWrap.Proofs.Go.Grammar.Parts
import SentinelWrap.Proofs.Go.Placement

/-! The spans of a syntax tree, from the file down to the members of accesses and the specs of import
groups. They lie on character boundaries, inside each other and in order, and what begins with a
keyword does so in the source. -/
namespace SentinelWrap

namespace Text

theorem isBoundary_take (source : List Char) (n : Nat) :
    isBoundary (size (source.take n)) source = true :=
  isBoundary_iff.mpr ⟨source.take n, source.drop n, (List.take_append_drop n source).symm, rfl⟩

end Text

namespace Span
open Text (size isBoundary isBoundary_iff)

def Lined : Nat → Nat → List Span → Prop
  | lo, hi, [] => lo ≤ hi
  | lo, hi, s :: ss => lo ≤ s.start ∧ s.start ≤ s.stop ∧ Lined s.stop hi ss

theorem Lined.mono {lo lo' hi : Nat} {ss : List Span} (h : Lined lo hi ss) (hle : lo' ≤ lo) :
    Lined lo' hi ss := by
  cases ss with
  | nil => exact Nat.le_trans hle h
  | cons s ss => exact ⟨Nat.le_trans hle h.1, h.2⟩

theorem Lined.widen {lo hi hi' : Nat} {ss : List Span} (h : Lined lo hi ss) (hle : hi ≤ hi') :
    Lined lo hi' ss := by
  induction ss generalizing lo with
  | nil => exact Nat.le_trans h hle
  | cons s ss ih => exact ⟨h.1, h.2.1, ih h.2.2⟩

/-- A range that goes on to a later boundary covers more of the text. -/
theorem exists_slice?_of_le {s : Span} {source covered : List Char} {stop : Nat}
    (h : s.slice? source = some covered) (hle : s.stop ≤ stop)
    (hstop : isBoundary stop source = true) :
    ∃ rest, Span.slice? ⟨s.start, stop⟩ source = some (covered ++ rest) := by
  obtain ⟨before, after, rfl, hstart, hcovered⟩ := slice?_eq_some_iff.mp h
  obtain ⟨a, b, hab, ha⟩ := isBoundary_iff.mp hstop
  have hprefix : before ++ covered <+: a := by
    refine Text.prefix_of_size_le ⟨after, by simp⟩ ⟨b, hab.symm⟩ ?_
    rw [Text.size_append]
    omega
  obtain ⟨rest, rfl⟩ := hprefix
  refine ⟨rest, slice?_eq_some_iff.mpr ⟨before, b, by simpa using hab, hstart, ?_⟩⟩
  simpa [Nat.add_assoc] using ha

end Span

namespace Node
open Text (size isBoundary)

/-- How a node covers a range of its source. The ends are character boundaries, and the children
stand inside it one after the other; so do the specs of an import group. The member of an access
stands after its operand. -/
structure Covers (source : List Char) (n : Node) (s : Span) : Prop where
  span_eq : n.span = some s
  start_le_stop : s.start ≤ s.stop
  stop_le_size : s.stop ≤ size source
  start_boundary : isBoundary s.start source = true
  stop_boundary : isBoundary s.stop source = true
  children : Lined s.start s.stop n.children
  member : ∀ span operand member, n = .memberAccess span operand member →
    ∃ o m : Span, operand.span = some o ∧ member.span = some m ∧ Span.Lined s.start s.stop [o, m]
  specs : ∀ span parenthesized specs, n = .importGroup span parenthesized specs →
    ∃ ss : List Span, specs.map ImportSpec.span = ss.map some ∧ Span.Lined s.start s.stop ss
  ret : n.kind = .ret → ∃ rest, s.slice? source = some ("return".toList ++ rest)
  importGroup : n.kind = .importGroup → ∃ rest, s.slice? source = some ("import".toList ++ rest)

/-- A line of nodes stands between any offsets that enclose all of them. -/
theorem Lined.between {lo lo' hi hi' : Nat} {ns : List Node} (h : Lined lo hi ns) (hle : lo' ≤ hi')
    (hinside : ∀ n ∈ ns, ∀ s, n.span = some s → lo' ≤ s.start ∧ s.stop ≤ hi') :
    Lined lo' hi' ns := by
  induction ns generalizing lo lo' with
  | nil => exact hle
  | cons n ns ih =>
    obtain ⟨s, hspan, -, hs, hrest⟩ := h
    obtain ⟨hn, hinside⟩ := List.forall_mem_cons.mp hinside
    obtain ⟨hstart, hstop⟩ := hn s hspan
    refine ⟨s, hspan, hstart, hs, ih hrest hstop fun m hm t ht => ⟨?_, (hinside m hm t ht).2⟩⟩
    obtain ⟨u, hu, hle, -⟩ := hrest.inside hm
    obtain rfl := Option.some.inj (hu.symm.trans ht)
    exact hle

end Node

namespace Go
open Token (Row endOf startOf row_append)
open Text (size isBoundary)
open Node (Covers)

variable {source : List Char}

/-- The first token of a text stands after the blanks that the text begins with. -/
theorem Token.Lexes.blanks_le {offset : Nat} {lineEnd : Option Nat} {cs : List Char}
    {tokens : List Token} (h : Lexes offset lineEnd cs tokens) :
    offset + size (cs.takeWhile isBlank) ≤ startOf tokens := by
  induction h with
  | finish => exact Nat.le_refl _
  | blank hblank _ ih =>
    rw [List.takeWhile_cons_of_pos hblank, Text.size_cons]
    omega
  | @comment offset lineEnd comment rest tokens hcomment next ih =>
    have hnone : (comment ++ rest).takeWhile isBlank = [] := by
      cases htext : comment ++ rest with
      | nil => rfl
      | cons c cs =>
        refine List.takeWhile_cons_of_neg fun hblank => ?_
        rw [htext] at hcomment
        unfold scanComment at hcomment
        split at hcomment
        · rename_i heq
          rw [(List.cons.inj heq).1] at hblank
          cases hblank
        · rename_i heq
          rw [(List.cons.inj heq).1] at hblank
          cases hblank
        · cases hcomment
    rw [hnone, Text.size_nil]
    omega
  | @token offset lineEnd lexeme rest tokens kind hblank hcomment hscan next ih =>
    have hnone : (lexeme ++ rest).takeWhile isBlank = [] := by
      cases htext : lexeme ++ rest with
      | nil => rfl
      | cons c cs =>
        refine List.takeWhile_cons_of_neg ?_
        rw [htext] at hblank
        simp [hblank c rfl]
    rw [hnone]
    exact Nat.le_refl _

theorem Lowering.firstOffset_le {tokens : List Token} (h : Token.list source = .ok tokens) :
    firstOffset source ≤ startOf tokens := by
  have hblanks := (Token.lexes_of_listFrom h).blanks_le
  unfold firstOffset
  dsimp only
  have hprefix := List.takeWhile_prefix Token.isBlank (l := source.drop (Token.markSize source))
  rw [List.take_add, ← List.prefix_iff_eq_take.mp hprefix, Text.size_append]
  exact hblanks

inductive Tree.Within : Tree → Tree → Prop
  | refl (t : Tree) : Within t t
  | child {t c : Tree} {kind : String} {role : Role} {cs : List Tree} (hc : c ∈ cs)
    (h : Within t c) : Within t (.node kind role cs)

theorem Tree.Every.within {P : String → List Tree → Prop} {t u : Tree} (h : t.Every P)
    (hu : u.Within t) : u.Every P := by
  induction hu with
  | refl => exact h
  | child hc _ ih =>
    cases h with
    | node _ _ hall => exact ih (hall _ hc)

theorem Tree.every_of_within {P : String → List Tree → Prop} {t : Tree}
    (h : ∀ kind role cs, (Tree.node kind role cs).Within t → P kind cs) : t.Every P := by
  induction t using Tree.children_induction with
  | token t => exact .token t
  | node kind role cs ih =>
    refine .node role (h kind role cs (.refl _)) fun c hc => ih c hc fun kind' role' cs' hwithin => ?_
    exact h kind' role' cs' (.child hc hwithin)

theorem Tree.Within.tokens_subset {t u : Tree} (h : u.Within t) : u.tokens ⊆ t.tokens := by
  induction h with
  | refl => exact List.Subset.refl _
  | child hc _ ih =>
    intro a ha
    rw [Tree.tokens_node]
    exact List.mem_flatMap.mpr ⟨_, hc, ih ha⟩

/-- What is known of a concrete tree that was read from a source. -/
structure Tree.Sound (source : List Char) (t : Tree) : Prop where
  full : t.Full
  shaped : t.Shaped
  plain : t.Every Grammar.Plain
  row : ∃ lo, Row source lo t.tokens

theorem Tree.Sound.child {kind : String} {role : Role} {cs : List Tree} {c : Tree}
    (h : (Tree.node kind role cs).Sound source) (hc : c ∈ cs) : c.Sound source := by
  obtain ⟨hfull, hshaped, hplain, lo, hrow⟩ := h
  rw [Tree.tokens_node] at hrow
  cases hfull with
  | node _ _ _ hfull =>
  cases hshaped with
  | node _ _ _ hshaped =>
  cases hplain with
  | node _ _ hplain =>
  exact ⟨hfull c hc, hshaped c hc, hplain c hc, Lowering.row_of_mem hc hrow⟩

theorem Tree.Sound.within {t u : Tree} (h : t.Sound source) (hu : u.Within t) : u.Sound source := by
  induction hu with
  | refl => exact h
  | child hc _ ih => exact ih (h.child hc)

namespace Lowering

/-- Every node of a syntax tree comes from a concrete node. -/
theorem exists_within {t : Tree} (hnode : t.isNode = true) {n : Node} (hn : n ∈ (node t).preorder) :
    ∃ u : Tree, u.Within t ∧ u.isNode = true ∧ n = node u := by
  induction t using Tree.children_induction generalizing n with
  | token t => cases hnode
  | node kind role cs ih =>
    have hpart {p : Node} (hp : p ∈ (nodes cs).map Prod.snd) {m : Node} (hm : m ∈ p.preorder) :
        ∃ u : Tree, u.Within (.node kind role cs) ∧ u.isNode = true ∧ m = node u := by
      obtain ⟨q, hq, rfl⟩ := List.mem_map.mp hp
      obtain ⟨d, hd, hdnode, rfl⟩ := mem_nodes hq
      obtain ⟨u, hu, hunode, rfl⟩ := ih d hd hdnode hm
      exact ⟨u, .child hd hu, hunode, rfl⟩
    have hassembled := assembled (.node kind role cs) (nodes cs)
    rw [Node.preorder_eq, List.mem_cons, List.mem_flatMap] at hn
    rcases hn with rfl | ⟨c, hc, hn⟩
    · exact ⟨.node kind role cs, .refl _, hnode, rfl⟩
    · obtain ⟨p, hp, rfl | hc⟩ := hassembled.mem_children hc
      · exact hpart hp hn
      · exact hpart hp (Node.preorder_subset_of_mem_children hc hn)

/-- A node that begins with a keyword begins so in the source. -/
theorem exists_slice?_keyword {kind keyword : String} {role : Role} {cs : List Tree}
    (h : (Tree.node kind role cs).Sound source) (hkeyword : Tree.keyword? kind = some keyword) :
    ∃ rest, (Tree.node kind role cs).span.slice? source = some (keyword.toList ++ rest) := by
  obtain ⟨hfull, hshaped, -, lo, hrow⟩ := h
  have hstands := hfull.stands hrow
  cases hshaped with
  | node _ hword _ _ =>
    obtain ⟨t, rest, rfl, -, rfl⟩ := hword keyword hkeyword
    rw [Tree.tokens_node] at hrow hstands
    obtain ⟨hsits, -, -, hrest⟩ := hrow
    refine Span.exists_slice?_of_le hsits ?_ hstands.stop_boundary
    exact Nat.le_trans hrest.le_endOf (Nat.le_of_eq hstands.stop_eq.symm)

/-- The spans of trees in a row are lined up. -/
theorem lined_spans {cs ds : List Tree} (hds : ds.Sublist cs) (hfull : ∀ c ∈ cs, c.Full) {lo : Nat}
    (hrow : Row source lo (cs.flatMap Tree.tokens)) :
    Span.Lined lo (endOf lo (cs.flatMap Tree.tokens)) (ds.map Tree.span) := by
  induction hds generalizing lo with
  | slnil => exact Nat.le_refl _
  | cons c _ ih =>
    obtain ⟨-, hfull⟩ := List.forall_mem_cons.mp hfull
    rw [List.flatMap_cons, row_append] at hrow
    rw [List.flatMap_cons, Token.endOf_append]
    exact (ih hfull hrow.2).mono hrow.1.le_endOf
  | cons_cons c _ ih =>
    obtain ⟨hc, hfull⟩ := List.forall_mem_cons.mp hfull
    rw [List.flatMap_cons, row_append] at hrow
    rw [List.flatMap_cons, Token.endOf_append]
    have hstands := hc.stands hrow.1
    refine ⟨hstands.lo_le, hstands.start_le_stop, ?_⟩
    rw [hstands.stop_eq]
    exact ih hfull hrow.2

theorem start_le_of_mem {cs : List Tree} (hfull : ∀ c ∈ cs, c.Full) {lo : Nat}
    {later : List Token} (hrow : Row source lo (cs.flatMap Tree.tokens ++ later)) {c : Tree}
    (hc : c ∈ cs) : startOf (cs.flatMap Tree.tokens ++ later) ≤ c.start := by
  obtain ⟨hne, hstart, -⟩ := (hfull c hc).extent
  rw [hstart]
  cases htokens : c.tokens with
  | nil => exact absurd htokens hne
  | cons t ts =>
    refine (hrow.bounds (List.mem_append_left _ (List.mem_flatMap.mpr ⟨c, hc, ?_⟩))).1
    rw [htokens]
    exact List.mem_cons_self

/-- The spans of some children of a node, in order. -/
theorem lined_spans_children {kind : String} {role : Role} {cs ds : List Tree}
    (h : (Tree.node kind role cs).Sound source) (hds : ds.Sublist cs) :
    Span.Lined (Tree.node kind role cs).start (Tree.node kind role cs).stop (ds.map Tree.span) := by
  obtain ⟨hfull, -, -, lo, hrow⟩ := h
  have hstands := hfull.stands hrow
  have hextent := hfull.extent.2.1
  rw [Tree.tokens_node] at hrow hstands hextent
  have hstop : (Tree.node kind role cs).stop = endOf lo (cs.flatMap Tree.tokens) := hstands.stop_eq
  cases hfull with
  | node _ _ _ hall =>
    cases ds with
    | nil => exact hstands.start_le_stop
    | cons d ds =>
      have hlined := lined_spans hds hall hrow
      rw [← hstop] at hlined
      have hle := @start_le_of_mem _ _ hall _ [] (by simpa using hrow) d
        (hds.subset List.mem_cons_self)
      rw [List.append_nil, ← hextent] at hle
      exact ⟨hle, hlined.2⟩

theorem Assembled.kind_ne_importGroup {tree : Tree} {parts : List (Role × Node)} {n : Node}
    (h : Assembled tree parts n) : n.kind ≠ .importGroup := by
  cases h <;> nofun

theorem covers_node {t : Tree} (h : t.Sound source) (hnode : t.isNode = true) :
    Covers source (node t) t.span := by
  obtain ⟨lo, hrow⟩ := h.row
  obtain ⟨s, hs⟩ := wellPlaced_node hnode h.full h.shaped hrow _ (node t).self_mem_preorder
  obtain rfl : t.span = s := Option.some.inj ((span_node t).symm.trans hs.span_eq)
  cases t with
  | token t => cases hnode
  | node kind role cs =>
    have hassembled : Assembled (.node kind role cs) (nodes cs) (node (.node kind role cs)) :=
      assembled _ _
    refine ⟨hs.span_eq, hs.start_le_stop, Text.le_size_of_isBoundary hs.stop_boundary,
      hs.start_boundary, hs.stop_boundary, hs.lined, ?_, ?_, ?_, ?_⟩
    · intro span operand member heq
      rw [heq] at hassembled
      cases hassembled with
      | memberAccess hparts =>
        have hstands := h.full.stands hrow
        rw [Tree.tokens_node] at hrow hstands
        have hlined := lined_children h.full hrow
        rw [hparts] at hlined
        obtain ⟨o, ho, hlo, ho', m, hm, hle, hm', hstop⟩ := hlined
        rw [← hstands.stop_eq] at hstop
        exact ⟨o, m, ho, hm, hlo, ho', hle, hm', hstop⟩
    · intro span parenthesized specs heq
      rw [heq] at hassembled
      cases hassembled
    · intro hret
      obtain ⟨hkind, -⟩ := hassembled.children_of_ret hret
      obtain rfl : kind = "return_statement" := hkind
      exact exists_slice?_keyword h rfl
    · exact fun himport => absurd himport hassembled.kind_ne_importGroup

/-- The specs of an import declaration stand in a line inside it. -/
theorem exists_lined_specs (points : Nat → Point) {t : Tree} (h : t.Sound source)
    (hnode : t.isNode = true) :
    ∃ ss : List Span, (importGroup points t).2.map ImportSpec.span = ss.map some ∧
      Span.Lined t.start t.stop ss := by
  have hspans (trees : List Tree) : (importSpecs points trees).map ImportSpec.span =
      ((trees.filter (·.kind == "import_spec")).map Tree.span).map some := by
    simp [importSpecs, importSpec]
  cases t with
  | token t => cases hnode
  | node kind role cs =>
    unfold importGroup
    split
    · rename_i group hfind
      have hgroup : group ∈ cs := List.mem_of_find?_eq_some hfind
      refine ⟨_, hspans _, ?_⟩
      obtain ⟨hlo, hle, hhi⟩ := lined_spans_children h (List.singleton_sublist.mpr hgroup)
      cases group with
      | token t => exact Nat.le_trans hlo (Nat.le_trans hle hhi)
      | node kind' role' ds =>
        exact ((lined_spans_children (h.child hgroup) List.filter_sublist).mono hlo).widen hhi
    · exact ⟨_, hspans _, lined_spans_children h List.filter_sublist⟩

theorem covers_importGroup (points : Nat → Point) {t : Tree} (h : t.Sound source)
    (hnode : t.isNode = true) (hkind : t.kind = "import_declaration") {parenthesized : Bool} :
    Covers source (.importGroup (some t.span) parenthesized (importGroup points t).2) t.span := by
  obtain ⟨lo, hrow⟩ := h.row
  have hstands := h.full.stands hrow
  refine ⟨rfl, hstands.start_le_stop, Text.le_size_of_isBoundary hstands.stop_boundary,
    hstands.start_boundary, hstands.stop_boundary, hstands.start_le_stop, nofun, ?_, nofun, ?_⟩
  · rintro _ _ _ ⟨⟩
    exact exists_lined_specs points h hnode
  · intro _
    cases t with
    | token t => cases hnode
    | node kind role cs =>
      obtain rfl : kind = "import_declaration" := hkind
      exact exists_slice?_keyword h rfl

/-- A declaration is an import group or the syntax tree of a concrete node. -/
theorem exists_of_mem_decls (points : Nat → Point) {trees : List Tree} {d : Node}
    (hd : d ∈ (declared points trees).decls) : ∃ t ∈ trees, t.isNode = true ∧
      (d = node t ∨ t.kind = "import_declaration" ∧
        d = .importGroup (some t.span) (importGroup points t).1 (importGroup points t).2) := by
  induction trees with
  | nil => cases hd
  | cons t trees ih =>
    by_cases hlater : d ∈ (declared points trees).decls
    · obtain ⟨u, hu, h⟩ := ih hlater
      exact ⟨u, List.mem_cons_of_mem _ hu, h⟩
    refine ⟨t, List.mem_cons_self, ?_⟩
    simp only [declared] at hd
    split_ifs at hd with hnode hpackage himport
    · exact absurd hd hlater
    · exact absurd hd hlater
    · obtain rfl := (List.mem_cons.mp hd).resolve_right hlater
      exact ⟨by simpa using hnode, .inr ⟨by simpa using himport, rfl⟩⟩
    · obtain rfl := (List.mem_cons.mp hd).resolve_right hlater
      exact ⟨by simpa using hnode, .inl rfl⟩

theorem covers_of_mem_decls (points : Nat → Point) {trees : List Tree}
    (h : ∀ t ∈ trees, t.Sound source) {d n : Node} (hd : d ∈ (declared points trees).decls)
    (hn : n ∈ d.preorder) : ∃ s, Covers source n s := by
  obtain ⟨t, ht, hnode, rfl | ⟨hkind, rfl⟩⟩ := exists_of_mem_decls points hd
  · obtain ⟨u, hu, hunode, rfl⟩ := exists_within hnode hn
    exact ⟨u.span, covers_node ((h t ht).within hu) hunode⟩
  · obtain rfl : n = _ := by simpa [Node.preorder_eq, Node.children] using hn
    exact ⟨t.span, covers_importGroup points (h t ht) hnode hkind⟩

end Lowering

/-- A source can be read if its tokens can. -/
theorem parse_eq_ok_iff {root : Node} : parse source = .ok root ↔
    ∃ tokens trees, Token.list source = .ok tokens ∧ Tree.ofTokens? tokens = some trees ∧
      root = Lowering.file source trees := by
  unfold parse
  cases htokens : Token.list source with
  | error e => simp [bind, Except.bind]
  | ok tokens =>
    cases htrees : Tree.ofTokens? tokens with
    | none => simp [htrees, bind, Except.bind, throw, throwThe, MonadExceptOf.throw]
    | some trees => simp [htrees, bind, Except.bind, pure, Except.pure, eq_comm]

/-- The concrete trees of a source. -/
theorem sound_of_ofTokens? {tokens : List Token} {trees : List Tree}
    (htokens : Token.list source = .ok tokens) (htrees : Tree.ofTokens? tokens = some trees) :
    (∀ t ∈ trees, t.Sound source) ∧ (∃ lo, Row source lo (trees.flatMap Tree.tokens)) ∧
      ∀ t ∈ trees, Lowering.firstOffset source ≤ t.start := by
  obtain ⟨last, hderives⟩ := Tree.derives_of_ofTokens? htrees
  have hmem {t : Tree} (ht : t ∈ trees) : t ∈ last :: trees.reverse :=
    List.mem_cons_of_mem _ (List.mem_reverse.mpr ht)
  have hfull := hderives.full_of_nil Grammar.grounded_rule rfl
  have hshaped := hderives.shaped Grammar.shapes_rule rfl nofun
  have hplain := hderives.every Grammar.builds_rule trivial nofun
  have hrow := hderives.row (Token.row_of_list htokens)
  have hyield : yield (last :: trees.reverse) [] = trees.flatMap Tree.tokens ++ last.tokens := by
    simp [yield]
  rw [hyield] at hrow
  refine ⟨fun t ht => ?_, ⟨_, (row_append.mp hrow).1⟩, fun t ht => ?_⟩
  · exact ⟨hfull t (hmem ht), hshaped t (hmem ht), hplain t (hmem ht),
      Lowering.row_of_mem ht (row_append.mp hrow).1⟩
  · -- The first token of the trees is the first token of the source.
    obtain ⟨mid, hmid, -, hne, hstart⟩ := hderives.exists_yield Grammar.leads_rule
    rw [hyield] at hmid
    have hfirst : startOf (trees.flatMap Tree.tokens ++ last.tokens) = startOf tokens := by
      rw [hmid]
      exact hstart rfl (hne rfl)
    have hle := Lowering.start_le_of_mem (fun t ht => hfull t (hmem ht)) hrow ht
    rw [hfirst] at hle
    exact Nat.le_trans (Lowering.firstOffset_le htokens) hle

/-- The concrete trees of a source that can be read. -/
theorem exists_trees_of_parse {root : Node} (h : parse source = .ok root) :
    ∃ trees, root = Lowering.file source trees ∧ (∀ t ∈ trees, t.Sound source) ∧
      (∃ lo, Row source lo (trees.flatMap Tree.tokens)) ∧
      ∀ t ∈ trees, Lowering.firstOffset source ≤ t.start := by
  obtain ⟨tokens, trees, htokens, htrees, hroot⟩ := parse_eq_ok_iff.mp h
  exact ⟨trees, hroot, sound_of_ofTokens? htokens htrees⟩

/-- Every node of the tree of a source covers a range of it. -/
theorem covers_of_parse {root : Node} (h : parse source = .ok root) :
    ∀ n ∈ root.preorder, ∃ s, Covers source n s := by
  obtain ⟨trees, rfl, hsound, ⟨lo, hrow⟩, hfirst⟩ := exists_trees_of_parse h
  intro n hn
  rw [Node.preorder_eq, List.mem_cons, List.mem_flatMap] at hn
  rcases hn with rfl | ⟨d, hd, hn⟩
  · have hfirst' := Text.isBoundary_take source (Token.markSize source +
      ((source.drop (Token.markSize source)).takeWhile Token.isBlank).length)
    have hlast : isBoundary (size source) source = true :=
      Text.isBoundary_iff.mpr ⟨source, [], by simp, rfl⟩
    have hle := Text.le_size_of_isBoundary hfirst'
    refine ⟨_, rfl, hle, Nat.le_refl _, hfirst', hlast, ?_, nofun, nofun, nofun, nofun⟩
    have hlined := (Lowering.declared_placed (Point.ofOffset source)
      (fun t ht => (hsound t ht).full) (fun t ht => (hsound t ht).shaped) hrow).1
    refine hlined.between hle fun d hd s hs => ?_
    obtain ⟨u, hu⟩ := Lowering.covers_of_mem_decls _ hsound hd d.self_mem_preorder
    obtain rfl := Option.some.inj (hu.span_eq.symm.trans hs)
    refine ⟨?_, hu.stop_le_size⟩
    obtain ⟨t, ht, -, rfl | ⟨-, rfl⟩⟩ := Lowering.exists_of_mem_decls _ hd
    · obtain rfl := Option.some.inj ((Lowering.span_node t).symm.trans hs)
      exact hfirst t ht
    · obtain rfl := Option.some.inj hs
      exact hfirst t ht
  · exact Lowering.covers_of_mem_decls _ hsound hd hn

/-- A byte order mark, blank lines, a group of imports and a member access across lines. -/
def scattered : List Char :=
  "\uFEFF\n import (. \"a\"; b \"c\")\nif err != nil \x7breturn \u00e9, io.\n  ErrB\x7d".toList

theorem covers_scattered : ∃ root, parse scattered = .ok root ∧
    ∀ n ∈ root.preorder, ∃ s, Covers scattered n s := by
  have hok : (parse scattered).toBool = true := by decide +kernel
  cases hparse : parse scattered with
  | error e => simp [hparse, Except.toBool] at hok
  | ok root => exact ⟨root, rfl, covers_of_parse hparse⟩

end Go
end SentinelWrap
