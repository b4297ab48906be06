import SentinelWrap.Proofs.Go.Grammar.Consumed

/-! The runs behind the nodes of some kinds. A kind that only one named rule builds is told by the run
of that rule and the tokens it began with. -/
namespace SentinelWrap.Go

namespace Rule
variable {σ : Type} {rules : σ → Rule σ}

def plain (special : String → Bool) : Rule σ → Bool
  | leaf kind _ => !special kind
  | node kind a | grow kind a => !special kind && a.plain special
  | seq a b | alt a b => a.plain special && b.plain special
  | many a | apart a | role _ a | longer _ a => a.plain special
  | _ => true

/-- A rule that builds plain nodes, or one node of whatever kind from plain ones. -/
def Specializes (special : String → Bool) (rule : Rule σ) : Prop :=
  rule.plain special = true ∨ ∃ kind a, rule = .node kind a ∧ a.plain special = true

theorem Specializes.plain {special : String → Bool} {rule : Rule σ} (h : rule.Specializes special)
    (hrule : ∀ kind a, rule ≠ .node kind a) : rule.plain special = true :=
  h.resolve_right fun ⟨kind, a, heq, _⟩ => hrule kind a heq

/-- A named rule for nodes of this kind has read one with these children of what was left of some
tokens. -/
def Sited (rules : σ → Rule σ) (tokens : List Token) (kind : String) (children : List Tree) : Prop :=
  ∃ name a mid ts us fuel, rules name = .node kind a ∧ Consumes tokens mid ts ∧
    run rules fuel (.ref name) [] ts = .read [.node kind .plain children] us

theorem run_node_nil {kind : String} {a : Rule σ} {parts children : List Tree} {fuel : Nat}
    {ts us : List Token}
    (h : run rules fuel (.node kind a) parts ts = .read (.node kind .plain children :: parts) us) :
    run rules fuel (.node kind a) [] ts = .read [.node kind .plain children] us := by
  cases fuel with
  | zero => cases h
  | succ fuel =>
    obtain ⟨more, vs, hmore, hread⟩ := Reading.andThen_eq_read.mp h
    obtain ⟨heq, rfl⟩ := Reading.read.inj hread
    exact Reading.andThen_eq_read.mpr ⟨more, vs, hmore, by rw [(List.cons.inj heq).1]⟩

/-- What is known of the parts after a rule. -/
def Told (special : String → Bool) (P : String → List Tree → Prop) :
    Rule σ → List Tree → List Tree → Prop
  | node kind _, parts, last => ∃ children, last = .node kind .plain children :: parts ∧
    (∀ c ∈ children, c.Every P) ∧ (special kind = false → P kind children)
  | _, _, last => ∀ t ∈ last, t.Every P

theorem Told.every {special : String → Bool} {P : String → List Tree → Prop} {rule : Rule σ}
    {parts last : List Tree} (h : Told special P rule parts last) (hrule : rule.plain special = true)
    (hparts : ∀ t ∈ parts, t.Every P) : ∀ t ∈ last, t.Every P := by
  cases rule with
  | node kind a =>
    obtain ⟨children, rfl, hchildren, hkind⟩ := h
    simp only [plain, Bool.and_eq_true, Bool.not_eq_true'] at hrule
    exact List.forall_mem_cons.mpr ⟨.node .plain (hkind hrule.1) hchildren, hparts⟩
  | _ => exact h

/-- Nodes of special kinds were read by the rules that build them. -/
theorem Derives.told {tokens : List Token} {special : String → Bool}
    (hrules : ∀ name, (rules name).Specializes special) (hcuts : ∀ name, (rules name).cuts = true)
    {rule : Rule σ} {parts last : List Tree} {ts us mid : List Token}
    (h : Derives rules rule parts ts last us) (hrule : rule.Specializes special)
    (hcut : rule.cuts = true) (hmid : Consumes tokens mid ts)
    (hparts : ∀ t ∈ parts, t.Every fun kind cs => special kind = true → Sited rules tokens kind cs) :
    Told special (fun kind cs => special kind = true → Sited rules tokens kind cs) rule parts last := by
  induction h generalizing mid with
  | empty | sameLine | newLine | ahead | notAhead | manyStop => exact hparts
  | token | half | lineEnd => exact List.forall_mem_cons.mpr ⟨.token _, hparts⟩
  | leaf =>
    have hkind := hrule.plain (by rintro _ _ ⟨⟩)
    simp only [plain, Bool.not_eq_true'] at hkind
    refine List.forall_mem_cons.mpr ⟨.node _ (fun hspecial => ?_) ?_, hparts⟩
    · rw [hkind] at hspecial
      cases hspecial
    · exact List.forall_mem_singleton.mpr (.token _)
  | @seq a b _ _ _ _ _ _ ha _ iha ihb =>
    obtain ⟨hplain, hplain'⟩ := Bool.and_eq_true_iff.mp (hrule.plain (by rintro _ _ ⟨⟩))
    simp only [cuts, Bool.and_eq_true] at hcut
    have hmiddle := (iha (.inl hplain) hcut.1 hmid hparts).every hplain hparts
    obtain ⟨mid', -, hmid'⟩ := ha.consumes hcuts hcut.1
    exact (ihb (.inl hplain') hcut.2 (hmid.append hmid') hmiddle).every hplain' hmiddle
  | altLeft _ ih =>
    have hplain := (Bool.and_eq_true_iff.mp (hrule.plain (by rintro _ _ ⟨⟩))).1
    simp only [cuts, Bool.and_eq_true] at hcut
    exact (ih (.inl hplain) hcut.1 hmid hparts).every hplain hparts
  | altRight _ ih =>
    have hplain := (Bool.and_eq_true_iff.mp (hrule.plain (by rintro _ _ ⟨⟩))).2
    simp only [cuts, Bool.and_eq_true] at hcut
    exact (ih (.inl hplain) hcut.2 hmid hparts).every hplain hparts
  | manyStep ha _ iha ihs =>
    have hplain := hrule.plain (by rintro _ _ ⟨⟩)
    have hmiddle := (iha (.inl hplain) hcut hmid hparts).every hplain hparts
    obtain ⟨mid', -, hmid'⟩ := ha.consumes hcuts hcut
    exact ihs hrule hcut (hmid.append hmid') hmiddle
  | @ref name parts last ts us hrun h ih =>
    have htold := ih (hrules name) (hcuts name) hmid hparts
    rcases hrules name with hplain | ⟨kind, a, heq, -⟩
    · exact htold.every hplain hparts
    · obtain ⟨fuel, hrun⟩ := hrun
      rw [heq] at htold
      obtain ⟨children, rfl, hchildren, -⟩ := htold
      refine List.forall_mem_cons.mpr ⟨.node _ (fun _ => ?_) hchildren, hparts⟩
      refine ⟨name, a, mid, ts, us, fuel + 1, heq, hmid, ?_⟩
      rw [run, heq]
      rw [heq] at hrun
      exact run_node_nil hrun
  | @node kind a _ children _ _ _ ih =>
    have hplain : a.plain special = true := by
      rcases hrule with hplain | ⟨kind', a', heq, hplain⟩
      · exact (Bool.and_eq_true_iff.mp hplain).2
      · cases heq
        exact hplain
    have hall := (ih (.inl hplain) hcut hmid (List.forall_mem_nil _)).every hplain
      (List.forall_mem_nil _)
    refine ⟨children.reverse, rfl, by simpa using hall, fun hkind hspecial => ?_⟩
    rw [hkind] at hspecial
    cases hspecial
  | grow _ ih =>
    obtain ⟨hkind, hplain⟩ := Bool.and_eq_true_iff.mp (hrule.plain (by rintro _ _ ⟨⟩))
    have hall := (ih (.inl hplain) hcut hmid hparts).every hplain hparts
    refine List.forall_mem_singleton.mpr (.node _ (fun hspecial => ?_) (by simpa using hall))
    rw [hspecial] at hkind
    cases hkind
  | apart _ ih | longer _ _ ih =>
    have hplain := hrule.plain (by rintro _ _ ⟨⟩)
    refine List.forall_mem_append.mpr ⟨?_, hparts⟩
    exact (ih (.inl hplain) hcut hmid (List.forall_mem_nil _)).every hplain (List.forall_mem_nil _)
  | role _ ih =>
    have hplain := hrule.plain (by rintro _ _ ⟨⟩)
    have hall := (ih (.inl hplain) hcut hmid (List.forall_mem_nil _)).every hplain
      (List.forall_mem_nil _)
    refine List.forall_mem_append.mpr ⟨?_, hparts⟩
    simpa using fun t ht => (hall t ht).withRole _

theorem plain_of_ordinary {special special' leafy : String → Bool} {rule : Rule σ}
    (hspecial : ∀ kind, special kind = false → special' kind = false)
    (h : rule.ordinary special leafy = true) : rule.plain special' = true := by
  induction rule with
  | leaf kind t => simpa [plain] using hspecial kind (by simpa [ordinary] using h)
  | node kind a ih | grow kind a ih =>
    simp only [ordinary, Bool.and_eq_true, Bool.not_eq_true'] at h
    simp [plain, hspecial kind h.1.1, ih h.2]
  | seq a b iha ihb | alt a b iha ihb =>
    simp only [ordinary, Bool.and_eq_true] at h
    simp [plain, iha h.1, ihb h.2]
  | many a ih | apart a ih | role r a ih | longer size a ih => exact ih h
  | empty | token | half | lineEnd | sameLine | newLine | ahead | notAhead | ref => rfl

end Rule

namespace Grammar
open Rule

def isSited (kind : String) : Bool :=
  ["return_statement", "import_declaration", "import_spec"].contains kind

theorem isSited_of_isSpecial (kind : String) (h : isSpecial kind = false) : isSited kind = false := by
  simp only [isSpecial, isSited, List.contains_eq_mem, decide_eq_false_iff_not, List.mem_cons,
    List.not_mem_nil, or_false, not_or] at h ⊢
  exact ⟨h.1, h.2.1, h.2.2.2⟩

theorem specializes_rule (name : Symbol) : name.rule.Specializes isSited := by
  by_cases hreturn : name = .returnStatement
  · subst hreturn
    exact .inr ⟨_, _, rfl, rfl⟩
  by_cases himport : name = .importDeclaration
  · subst himport
    exact .inr ⟨_, _, rfl, rfl⟩
  by_cases hspec : name = .importSpec
  · subst hspec
    exact .inr ⟨_, _, rfl, rfl⟩
  exact .inl (plain_of_ordinary isSited_of_isSpecial (ordinary_rule hreturn himport hspec))

theorem symbol_of_isSited {name : Symbol} {kind : String} {a : GoRule} (hkind : isSited kind = true)
    (h : name.rule = .node kind a) : name = .returnStatement ∧ kind = "return_statement" ∨
      name = .importDeclaration ∧ kind = "import_declaration" ∨
      name = .importSpec ∧ kind = "import_spec" := by
  by_cases hreturn : name = .returnStatement
  · subst hreturn
    exact .inl ⟨rfl, (Rule.node.inj h).1.symm⟩
  by_cases himport : name = .importDeclaration
  · subst himport
    exact .inr (.inl ⟨rfl, (Rule.node.inj h).1.symm⟩)
  by_cases hspec : name = .importSpec
  · subst hspec
    exact .inr (.inr ⟨rfl, (Rule.node.inj h).1.symm⟩)
  have hplain := plain_of_ordinary isSited_of_isSpecial (ordinary_rule hreturn himport hspec)
  rw [h, plain, hkind] at hplain
  cases hplain

/-- In the trees of a source the nodes of these kinds are told by their runs. -/
theorem every_sited {tokens us : List Token} {last : List Tree}
    (h : Derives Symbol.rule (.ref .source) [] tokens last us) :
    ∀ t ∈ last, t.Every fun kind cs => isSited kind = true → Sited Symbol.rule tokens kind cs :=
  h.told specializes_rule cuts_rule (.inl rfl) rfl .nil nofun

end Grammar
end SentinelWrap.Go
