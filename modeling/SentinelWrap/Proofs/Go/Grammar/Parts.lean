import SentinelWrap.Go.Lowering
import SentinelWrap.Proofs.Go.Grammar.Extent

/-! What the parts that a rule adds hold: where the first token of them begins, which kinds they are
of, and of some kinds, what their children are. -/
namespace SentinelWrap.Go
open Token (startOf)

namespace Tree

/-- Every node in the tree has children that its kind allows. -/
inductive Every (P : String → List Tree → Prop) : Tree → Prop
  | token (t : Token) : Every P (.token t)
  | node {kind : String} (role : Role) {children : List Tree} (h : P kind children)
    (hall : ∀ c ∈ children, Every P c) : Every P (.node kind role children)

theorem Every.withRole {P : String → List Tree → Prop} {t : Tree} (h : Every P t) (role : Role) :
    Every P (t.withRole role) := by
  cases h with
  | token t => exact .token t
  | node _ h hall => exact .node role h hall

/-- The kind of the node, or the text of the token, is one of these. -/
def Among (kinds texts : String → Bool) : Tree → Prop
  | token t => texts t.text = true
  | node kind _ _ => kinds kind = true

theorem Among.withRole {kinds texts : String → Bool} {t : Tree} (h : t.Among kinds texts)
    (role : Role) : (t.withRole role).Among kinds texts := by
  cases t <;> exact h

end Tree

namespace Rule
variable {σ : Type} {rules : σ → Rule σ} {rule : Rule σ} {parts last : List Tree}
  {ts us : List Token}

/-- What the rule reads first is no line break, if that holds of all named rules. -/
def leads : Rule σ → Bool
  | lineEnd => false
  | seq a b => a.leads && (a.reads || b.leads)
  | alt a b => a.leads && b.leads
  | many a | node _ a | grow _ a | apart a | role _ a | longer _ a => a.leads
  | _ => true

/-- The tokens of the parts stay, and others are added. If none are, nothing was read. The first of
them begins where the tokens that were to be read begin. -/
theorem Derives.exists_yield
    (hrules : ∀ name, (rules name).reads = true ∧ (rules name).leads = true)
    (h : Derives rules rule parts ts last us) :
    ∃ mid, yield last [] = yield parts [] ++ mid ∧ (mid = [] → us = ts) ∧
      (rule.reads = true → mid ≠ []) ∧
      (rule.leads = true → mid ≠ [] → startOf mid = startOf ts) := by
  induction h with
  | empty | sameLine | newLine | ahead | notAhead | manyStop =>
    exact ⟨[], by simp, fun _ => rfl, by rintro ⟨⟩, fun _ hne => absurd rfl hne⟩
  | token | leaf =>
    exact ⟨[_], by simp [yield], by rintro ⟨⟩, fun _ => List.cons_ne_nil _ _, fun _ _ => rfl⟩
  | @half first _ next =>
    exact ⟨[next.firstHalf first], by simp [yield], by rintro ⟨⟩, fun _ => List.cons_ne_nil _ _,
      fun _ _ => rfl⟩
  | @lineEnd _ offset =>
    exact ⟨[.lineBreak offset], by simp [yield], by rintro ⟨⟩, fun _ => List.cons_ne_nil _ _,
      by rintro ⟨⟩⟩
  | @seq a b _ _ _ ts us _ _ _ iha ihb =>
    obtain ⟨mid, hmid, hstop, hreads, hleads⟩ := iha
    obtain ⟨mid', hmid', hstop', hreads', hleads'⟩ := ihb
    refine ⟨mid ++ mid', by rw [hmid', hmid, List.append_assoc], fun hnil => ?_, fun h => ?_,
      fun h hne => ?_⟩
    · obtain ⟨hnil, hnil'⟩ := List.append_eq_nil_iff.mp hnil
      rw [hstop' hnil', hstop hnil]
    · rw [reads, Bool.or_eq_true] at h
      simpa [or_iff_not_imp_left] using h.imp hreads hreads'
    · rw [leads, Bool.and_eq_true, Bool.or_eq_true] at h
      by_cases hnil : mid = []
      · -- The first rule has read nothing, so the second one begins where it did.
        have hb : b.leads = true := h.2.resolve_left fun ha => hreads ha hnil
        rw [hnil, List.nil_append] at hne ⊢
        rw [hleads' hb hne, hstop hnil]
      · rw [Token.startOf_append hnil, hleads h.1 hnil]
  | altLeft _ ih =>
    obtain ⟨mid, hmid, hstop, hreads, hleads⟩ := ih
    refine ⟨mid, hmid, hstop, fun h => hreads ?_, fun h => hleads ?_⟩
    · exact (Bool.and_eq_true_iff.mp h).1
    · exact (Bool.and_eq_true_iff.mp h).1
  | altRight _ ih =>
    obtain ⟨mid, hmid, hstop, hreads, hleads⟩ := ih
    refine ⟨mid, hmid, hstop, fun h => hreads ?_, fun h => hleads ?_⟩
    · exact (Bool.and_eq_true_iff.mp h).2
    · exact (Bool.and_eq_true_iff.mp h).2
  | manyStep _ _ iha ihs =>
    obtain ⟨mid, hmid, hstop, -, hleads⟩ := iha
    obtain ⟨mid', hmid', hstop', -, hleads'⟩ := ihs
    refine ⟨mid ++ mid', by rw [hmid', hmid, List.append_assoc], fun hnil => ?_, by rintro ⟨⟩,
      fun h hne => ?_⟩
    · obtain ⟨hnil, hnil'⟩ := List.append_eq_nil_iff.mp hnil
      rw [hstop' hnil', hstop hnil]
    · by_cases hnil : mid = []
      · rw [hnil, List.nil_append] at hne ⊢
        rw [hleads' h hne, hstop hnil]
      · rw [Token.startOf_append hnil, hleads h hnil]
  | @ref name _ _ _ _ _ _ ih =>
    obtain ⟨mid, hmid, hstop, hreads, hleads⟩ := ih
    exact ⟨mid, hmid, hstop, fun _ => hreads (hrules name).1, fun _ => hleads (hrules name).2⟩
  | node _ ih =>
    obtain ⟨mid, hmid, hrest⟩ := ih
    exact ⟨mid, by simpa [yield] using hmid, hrest⟩
  | grow _ ih =>
    obtain ⟨mid, hmid, hrest⟩ := ih
    exact ⟨mid, by simpa [yield] using hmid, hrest⟩
  | apart _ ih | longer _ _ ih =>
    obtain ⟨mid, hmid, hrest⟩ := ih
    refine ⟨mid, ?_, hrest⟩
    rw [yield_append, hmid]
    simp [yield]
  | role _ ih =>
    obtain ⟨mid, hmid, hrest⟩ := ih
    refine ⟨mid, ?_, hrest⟩
    rw [yield_append, yield_map_withRole, hmid]
    simp [yield]

/-- The nodes that the rule adds are of these kinds, and the tokens it adds have these texts, if that
holds of the named rules in the table. -/
def addsOnly (kinds texts : String → Bool) (table : σ → Bool) : Rule σ → Bool
  | leaf kind _ | node kind _ | grow kind _ => kinds kind
  | token (.word text) | token (.sign text) | half text _ => texts text
  | token _ => false
  | lineEnd => texts "\n"
  | seq a b | alt a b => a.addsOnly kinds texts table && b.addsOnly kinds texts table
  | many a | apart a | role _ a | longer _ a => a.addsOnly kinds texts table
  | ref name => table name
  | _ => true

theorem Derives.among {kinds texts : String → Bool} {table : σ → Bool}
    (htable : ∀ name, table name = true → (rules name).addsOnly kinds texts table = true)
    (h : Derives rules rule parts ts last us) (hrule : rule.addsOnly kinds texts table = true)
    (hparts : ∀ t ∈ parts, t.Among kinds texts) : ∀ t ∈ last, t.Among kinds texts := by
  induction h with
  | empty | sameLine | newLine | ahead | notAhead | manyStop => exact hparts
  | @token t next _ _ haccepts =>
    refine List.forall_mem_cons.mpr ⟨?_, hparts⟩
    cases t with
    | word text | sign text =>
      simp only [Terminal.accepts_word, Terminal.accepts_sign] at haccepts
      rw [Tree.Among, haccepts.2]
      exact hrule
    | name | kind => cases hrule
  | half | lineEnd | leaf | node => exact List.forall_mem_cons.mpr ⟨hrule, hparts⟩
  | grow => exact List.forall_mem_singleton.mpr hrule
  | seq _ _ iha ihb =>
    simp only [addsOnly, Bool.and_eq_true] at hrule
    exact ihb hrule.2 (iha hrule.1 hparts)
  | altLeft _ ih =>
    simp only [addsOnly, Bool.and_eq_true] at hrule
    exact ih hrule.1 hparts
  | altRight _ ih =>
    simp only [addsOnly, Bool.and_eq_true] at hrule
    exact ih hrule.2 hparts
  | manyStep _ _ iha ihs => exact ihs hrule (iha hrule hparts)
  | ref _ _ ih => exact ih (htable _ hrule) hparts
  | apart _ ih | longer _ _ ih =>
    exact List.forall_mem_append.mpr ⟨ih hrule (List.forall_mem_nil _), hparts⟩
  | role _ ih =>
    refine List.forall_mem_append.mpr ⟨?_, hparts⟩
    simpa using fun t ht => (ih hrule (List.forall_mem_nil _) t ht).withRole _

def Builds (rules : σ → Rule σ) (P : String → List Tree → Prop) : Rule σ → Prop
  | leaf kind _ => ∀ t, P kind [.token t]
  | node kind a => (∀ ts children us, Derives rules a [] ts children us → P kind children.reverse) ∧
    a.Builds rules P
  | grow kind a => (∀ parts ts children us, Derives rules a parts ts children us →
    P kind children.reverse) ∧ a.Builds rules P
  | seq a b | alt a b => a.Builds rules P ∧ b.Builds rules P
  | many a | apart a | role _ a | longer _ a => a.Builds rules P
  | _ => True

theorem Derives.every {P : String → List Tree → Prop}
    (hrules : ∀ name, (rules name).Builds rules P) (h : Derives rules rule parts ts last us)
    (hrule : rule.Builds rules P) (hparts : ∀ t ∈ parts, t.Every P) : ∀ t ∈ last, t.Every P := by
  induction h with
  | empty | sameLine | newLine | ahead | notAhead | manyStop => exact hparts
  | token | half | lineEnd => exact List.forall_mem_cons.mpr ⟨.token _, hparts⟩
  | leaf =>
    refine List.forall_mem_cons.mpr ⟨.node _ (hrule _) ?_, hparts⟩
    exact List.forall_mem_singleton.mpr (.token _)
  | seq _ _ iha ihb => exact ihb hrule.2 (iha hrule.1 hparts)
  | altLeft _ ih => exact ih hrule.1 hparts
  | altRight _ ih => exact ih hrule.2 hparts
  | manyStep _ _ iha ihs => exact ihs hrule (iha hrule hparts)
  | ref _ _ ih => exact ih (hrules _) hparts
  | node ha ih =>
    refine List.forall_mem_cons.mpr ⟨.node _ (hrule.1 _ _ _ ha) ?_, hparts⟩
    simpa using ih hrule.2 (List.forall_mem_nil _)
  | grow ha ih =>
    refine List.forall_mem_singleton.mpr (.node _ (hrule.1 _ _ _ _ ha) ?_)
    simpa using ih hrule.2 hparts
  | apart _ ih | longer _ _ ih =>
    exact List.forall_mem_append.mpr ⟨ih hrule (List.forall_mem_nil _), hparts⟩
  | role _ ih =>
    refine List.forall_mem_append.mpr ⟨?_, hparts⟩
    simpa using fun t ht => (ih hrule (List.forall_mem_nil _) t ht).withRole _

/-- The kinds of the nodes that the rule builds are all ordinary, those of single tokens apart. -/
def ordinary (special leafy : String → Bool) : Rule σ → Bool
  | leaf kind _ => !special kind
  | node kind a | grow kind a => !special kind && !leafy kind && a.ordinary special leafy
  | seq a b | alt a b => a.ordinary special leafy && b.ordinary special leafy
  | many a | apart a | role _ a | longer _ a => a.ordinary special leafy
  | _ => true

theorem builds_of_ordinary {special leafy : String → Bool} {P : String → List Tree → Prop}
    (hleaf : ∀ kind t, special kind = false → P kind [.token t])
    (hnode : ∀ kind children, special kind = false → leafy kind = false → P kind children)
    (h : rule.ordinary special leafy = true) : rule.Builds rules P := by
  induction rule with
  | leaf kind t => exact fun t => hleaf kind t (by simpa [ordinary] using h)
  | node kind a ih | grow kind a ih =>
    simp only [ordinary, Bool.and_eq_true, Bool.not_eq_true'] at h
    refine ⟨?_, ih h.2⟩
    intros
    exact hnode _ _ h.1.1 h.1.2
  | seq a b iha ihb | alt a b iha ihb =>
    simp only [ordinary, Bool.and_eq_true] at h
    exact ⟨iha h.1, ihb h.2⟩
  | many a ih | apart a ih | role r a ih | longer size a ih => exact ih h
  | empty | token | half | lineEnd | sameLine | newLine | ahead | notAhead | ref => trivial

end Rule

namespace Grammar
open Rule

/-- No named rule begins with a line break. -/
theorem leads_rule (name : Symbol) : name.rule.reads = true ∧ name.rule.leads = true := by
  refine ⟨(grounded_rule name).1, Symbol.of_allFlags (p := fun name => name.rule.leads) ?_⟩
  cases name <;> rfl

def isLeafy (kind : String) : Bool :=
  ["identifier", "field_identifier", "package_identifier", "type_identifier"].contains kind ||
    (literalKind? kind).isSome

/-- Kinds whose nodes one rule alone builds. -/
def isSpecial (kind : String) : Bool :=
  ["return_statement", "import_declaration", "import_spec_list", "import_spec"].contains kind

def noStatement : Symbol → Bool
  | .source | .statements | .statement | .returnStatement => false
  | _ => true

def allBut (kind : String) : String → Bool := (· != kind)

theorem addsOnly_noReturn (name : Symbol) (h : noStatement name = true) :
    name.rule.addsOnly (allBut "return_statement") (fun _ => true) noStatement = true := by
  refine Symbol.of_allFlags (p := fun name =>
    name.rule.addsOnly (allBut "return_statement") (fun _ => true) noStatement) ?_
  cases name with
  | source | statements | statement | returnStatement => cases h
  | _ => rfl

/-- Other rules build no return statements and no imports, and only single tokens as identifiers and
literals. -/
theorem ordinary_rule {name : Symbol} (hreturn : name ≠ .returnStatement)
    (himport : name ≠ .importDeclaration) (hspec : name ≠ .importSpec) :
    name.rule.ordinary isSpecial isLeafy = true := by
  refine Symbol.of_allFlags (p := fun name => name.rule.ordinary isSpecial isLeafy) ?_
  cases name with
  | returnStatement | importDeclaration | importSpec => contradiction
  | _ => rfl

def IsLeaf (t : Tree) : Prop := ∃ kind role token, t = .node kind role [.token token]

/-- Identifiers and literals hold a single token, an import spec holds its path and perhaps a name
before it, no other token reads as an import spec, and a return holds a list of results that are no
returns. -/
structure Plain (kind : String) (children : List Tree) : Prop where
  leaf : isLeafy kind = true → ∃ t, children = [.token t]
  spec : kind = "import_spec" →
    (∃ path, children = [path] ∧ IsLeaf path) ∨
      ∃ name path, children = [name, path] ∧ IsLeaf name ∧ IsLeaf path
  specs : kind = "import_declaration" ∨ kind = "import_spec_list" →
    ∀ c ∈ children, c.Among (fun _ => true) (allBut "import_spec")
  results : kind = "return_statement" →
    (∃ t, children = [.token t]) ∨ ∃ t results, children = [.token t, .node "expression_list" .plain
      results] ∧ ∀ r ∈ results, r.Among (allBut "return_statement") (fun _ => true)

private theorem return_children {ts us : List Token} {children : List Tree}
    (h : Derives Symbol.rule (word "return" ++ opt (sameLine ++ ref (.expressions closing))) [] ts
      children us) :
    (∃ t, children.reverse = [.token t]) ∨ ∃ t results, children.reverse = [.token t,
      .node "expression_list" .plain results] ∧
        ∀ r ∈ results, r.Among (allBut "return_statement") (fun _ => true) := by
  cases h with
  | seq hword hresults =>
    cases hword
    cases hresults with
    | altRight hempty =>
      cases hempty
      exact .inl ⟨_, rfl⟩
    | altLeft hresults =>
      cases hresults with
      | seq hline hlist =>
        cases hline
        cases hlist with
        | ref _ hlist =>
          cases hlist with
          | node hlist =>
            refine .inr ⟨_, _, rfl, fun r hr => ?_⟩
            exact hlist.among addsOnly_noReturn rfl (List.forall_mem_nil _) r (List.mem_reverse.mp hr)

private theorem exists_leaf_of_string {parts last : List Tree} {ts us : List Token}
    (h : Derives Symbol.rule string parts ts last us) : ∃ path, last = path :: parts ∧ IsLeaf path := by
  cases h with
  | altLeft h | altRight h =>
    cases h
    exact ⟨_, rfl, _, _, _, rfl⟩

def importName : GoRule :=
  oneOf (leaf "dot" (.sign ".")) [leaf "blank_identifier" (.word "_"), named "package_identifier" []]

private theorem exists_leaf_of_importName {parts last : List Tree} {ts us : List Token}
    (h : Derives Symbol.rule importName parts ts last us) :
    ∃ name, last = name :: parts ∧ IsLeaf name := by
  cases h with
  | altLeft h =>
    cases h
    exact ⟨_, rfl, _, _, _, rfl⟩
  | altRight h =>
    cases h with
    | altLeft h | altRight h =>
      cases h
      exact ⟨_, rfl, _, _, _, rfl⟩

private theorem importSpec_children {ts us : List Token} {children : List Tree}
    (h : Derives Symbol.rule (opt importName ++ string) [] ts children us) :
    (∃ path, children.reverse = [path] ∧ IsLeaf path) ∨
      ∃ name path, children.reverse = [name, path] ∧ IsLeaf name ∧ IsLeaf path := by
  cases h with
  | seq hname hpath =>
    obtain ⟨path, rfl, hleaf⟩ := exists_leaf_of_string hpath
    cases hname with
    | altLeft hname =>
      obtain ⟨name, rfl, hleaf'⟩ := exists_leaf_of_importName hname
      exact .inr ⟨name, path, rfl, hleaf', hleaf⟩
    | altRight hempty =>
      cases hempty
      exact .inl ⟨path, rfl, hleaf⟩

/-- The parts of an import declaration that are tokens do not read as import specs. -/
theorem specs_among {rule : GoRule} {ts us : List Token} {children : List Tree}
    (h : Derives Symbol.rule rule [] ts children us)
    (hrule : rule.addsOnly (fun _ => true) (allBut "import_spec") (· == .importSpec) = true) :
    ∀ c ∈ children, c.Among (fun _ => true) (allBut "import_spec") := by
  refine h.among (fun name hname => ?_) hrule (List.forall_mem_nil _)
  obtain rfl : name = .importSpec := by simpa using hname
  rfl

theorem builds_rule (name : Symbol) : name.rule.Builds Symbol.rule Plain := by
  have hplain {kind : String} {children : List Tree} (hkind : isSpecial kind = false)
      (hleaf : isLeafy kind = true → ∃ t, children = [.token t]) : Plain kind children := by
    refine ⟨hleaf, ?_, ?_, ?_⟩
    · rintro rfl
      cases hkind
    · rintro (rfl | rfl) <;> cases hkind
    · rintro rfl
      cases hkind
  have hordinary {rule : GoRule} (h : rule.ordinary isSpecial isLeafy = true) :
      rule.Builds Symbol.rule Plain := by
    refine builds_of_ordinary (fun kind t hkind => hplain hkind fun _ => ⟨t, rfl⟩)
      (fun kind children hkind hleafy => hplain hkind fun h => ?_) h
    rw [h] at hleafy
    cases hleafy
  by_cases hreturn : name = .returnStatement
  · subst hreturn
    exact ⟨fun ts children us h => ⟨nofun, nofun, nofun, fun _ => return_children h⟩, trivial,
      ⟨trivial, trivial⟩, trivial⟩
  by_cases himport : name = .importDeclaration
  · subst himport
    refine ⟨fun ts children us h => ⟨nofun, nofun, fun _ c hc => ?_, nofun⟩, trivial, trivial,
      fun ts children us h => ⟨nofun, nofun, fun _ c hc => ?_, nofun⟩, hordinary rfl⟩
    · exact specs_among h rfl c (List.mem_reverse.mp hc)
    · exact specs_among h rfl c (List.mem_reverse.mp hc)
  by_cases hspec : name = .importSpec
  · subst hspec
    have hleaf {kind : String} (hkind : isSpecial kind = false) (t : Token) :
        Plain kind [.token t] := hplain hkind fun _ => ⟨t, rfl⟩
    exact ⟨fun ts children us h => ⟨nofun, fun _ => importSpec_children h, nofun, nofun⟩,
      ⟨⟨hleaf rfl, hleaf rfl, hleaf rfl⟩, trivial⟩, hleaf rfl, hleaf rfl⟩
  · exact hordinary (ordinary_rule hreturn himport hspec)

end Grammar
end SentinelWrap.Go
