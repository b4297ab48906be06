import SentinelWrap.Go.Lowering
import SentinelWrap.Proofs.Go.Grammar.Grounded

/-! What the grammar guarantees of the children of a node, by its kind. Each guarantee is decided on
the rules and carries over to the trees that they derive. -/
namespace SentinelWrap.Go

def Role.index : Role → Nat
  | plain => 0
  | initializer => 1
  | condition => 2
  | consequence => 3
  | alternative => 4

namespace Tree

/-- Of two parts with roles, the first one has the earlier role or the same. -/
def RoleLe (a b : Tree) : Prop :=
  a.role ≠ .plain → b.role ≠ .plain → a.role.index ≤ b.role.index

private theorem role_withRole (role : Role) (t : Tree) :
    (t.withRole role).role = role ∨ (t.withRole role).role = .plain := by
  cases t with
  | token t => exact .inr rfl
  | node kind old children => exact .inl rfl

def keyword? : String → Option String
  | "return_statement" => some "return"
  | "import_declaration" => some "import"
  | _ => none

inductive Shaped : Tree → Prop
  | token (t : Token) : Shaped (.token t)
  | node {kind : String} (role : Role) {children : List Tree}
    (hword : ∀ word, keyword? kind = some word →
      ∃ t rest, children = .token t :: rest ∧ t.kind = .word ∧ t.text = word)
    (hroles : kind = "if_statement" → children.Pairwise RoleLe)
    (h : ∀ c ∈ children, Shaped c) : Shaped (.node kind role children)

theorem Shaped.withRole {t : Tree} (h : Shaped t) (role : Role) : Shaped (t.withRole role) := by
  cases h with
  | token t => exact .token t
  | node _ hword hroles hall => exact .node role hword hroles hall

end Tree

namespace Rule
variable {σ : Type} {rules : σ → Rule σ}

def adds (table : σ → Bool) : Rule σ → Bool
  | grow _ _ => false
  | seq a b | alt a b => a.adds table && b.adds table
  | many a => a.adds table
  | ref name => table name
  | _ => true

theorem Derives.exists_append {table : σ → Bool}
    (htable : ∀ name, table name = true → (rules name).adds table = true) {rule : Rule σ}
    {parts last : List Tree} {ts us : List Token} (h : Derives rules rule parts ts last us)
    (hadds : rule.adds table = true) : ∃ more, last = more ++ parts := by
  induction h with
  | empty | sameLine | newLine | ahead | notAhead | manyStop => exact ⟨[], rfl⟩
  | token | leaf | half | lineEnd | node => exact ⟨[_], rfl⟩
  | seq _ _ iha ihb =>
    simp only [adds, Bool.and_eq_true] at hadds
    obtain ⟨more, rfl⟩ := iha hadds.1
    obtain ⟨more', rfl⟩ := ihb hadds.2
    exact ⟨more' ++ more, by simp⟩
  | altLeft _ ih =>
    simp only [adds, Bool.and_eq_true] at hadds
    exact ih hadds.1
  | altRight _ ih =>
    simp only [adds, Bool.and_eq_true] at hadds
    exact ih hadds.2
  | manyStep _ _ iha ihs =>
    obtain ⟨more, rfl⟩ := iha hadds
    obtain ⟨more', rfl⟩ := ihs hadds
    exact ⟨more' ++ more, by simp⟩
  | ref _ _ ih => exact ih (htable _ hadds)
  | grow => cases hadds
  | apart | longer | role => exact ⟨_, rfl⟩

/-- The rule begins by reading this word and then only adds parts. -/
def beginsWith (table : σ → Bool) (word : String) : Rule σ → Bool
  | token t => t == .word word
  | seq a b => a.beginsWith table word && b.adds table
  | _ => false

theorem Derives.head_eq {table : σ → Bool}
    (htable : ∀ name, table name = true → (rules name).adds table = true) {word : String}
    {rule : Rule σ} {last : List Tree} {ts us : List Token}
    (h : Derives rules rule [] ts last us) (hbegins : rule.beginsWith table word = true) :
    ∃ t rest, last.reverse = .token t :: rest ∧ t.kind = .word ∧ t.text = word := by
  induction rule generalizing last us with
  | token t =>
    obtain rfl : t = .word word := by simpa [beginsWith] using hbegins
    cases h with
    | token haccepts => exact ⟨_, [], rfl, Terminal.accepts_word.mp haccepts⟩
  | seq a b iha ihb =>
    simp only [beginsWith, Bool.and_eq_true] at hbegins
    cases h with
    | seq ha hb =>
      obtain ⟨t, rest, hmid, hword⟩ := iha ha hbegins.1
      obtain ⟨more, rfl⟩ := hb.exists_append htable hbegins.2
      exact ⟨t, rest ++ more.reverse, by simp [hmid], hword⟩
  | _ => cases hbegins

/-- The highest role the rule gives to a part after parts of the roles up to `lo`, if the roles come
in order. -/
def rolesUpTo (lo : Nat) : Rule σ → Option Nat
  | empty | sameLine | newLine | ahead _ | notAhead _ | token _ => some lo
  | seq a b => (a.rolesUpTo lo).bind b.rolesUpTo
  | alt a b => (a.rolesUpTo lo).bind fun hi => (b.rolesUpTo lo).map (max hi)
  | role r _ => if lo ≤ r.index then some r.index else none
  | _ => none

/-- Parts, given last first, whose roles come in order and end with `hi`. -/
def RolesUpTo (hi : Nat) (parts : List Tree) : Prop :=
  parts.reverse.Pairwise Tree.RoleLe ∧ ∀ t ∈ parts, t.role ≠ .plain → t.role.index ≤ hi

theorem RolesUpTo.mono {lo hi : Nat} {parts : List Tree} (h : RolesUpTo lo parts) (hle : lo ≤ hi) :
    RolesUpTo hi parts :=
  ⟨h.1, fun t ht hne => Nat.le_trans (h.2 t ht hne) hle⟩

theorem Derives.rolesUpTo {rule : Rule σ} {parts last : List Tree} {ts us : List Token}
    (h : Derives rules rule parts ts last us) {lo hi : Nat} (hrule : rule.rolesUpTo lo = some hi)
    (hparts : RolesUpTo lo parts) : lo ≤ hi ∧ RolesUpTo hi last := by
  induction h generalizing lo hi with
  | empty | sameLine | newLine | ahead | notAhead =>
    obtain rfl := Option.some.inj hrule
    exact ⟨Nat.le_refl _, hparts⟩
  | token =>
    obtain rfl := Option.some.inj hrule
    refine ⟨Nat.le_refl _, ?_, ?_⟩
    · rw [List.reverse_cons, List.pairwise_append]
      refine ⟨hparts.1, List.pairwise_singleton _ _, fun a _ b hb _ hplain => ?_⟩
      obtain rfl := List.mem_singleton.mp hb
      exact absurd rfl hplain
    · exact List.forall_mem_cons.mpr ⟨fun hplain => absurd rfl hplain, hparts.2⟩
  | seq _ _ iha ihb =>
    obtain ⟨mid, ha, hb⟩ := Option.bind_eq_some_iff.mp hrule
    obtain ⟨hle, hmid⟩ := iha ha hparts
    obtain ⟨hle', hlast⟩ := ihb hb hmid
    exact ⟨Nat.le_trans hle hle', hlast⟩
  | altLeft _ ih =>
    obtain ⟨x, hx, hy⟩ := Option.bind_eq_some_iff.mp hrule
    obtain ⟨y, -, rfl⟩ := Option.map_eq_some_iff.mp hy
    obtain ⟨hle, hlast⟩ := ih hx hparts
    exact ⟨by omega, hlast.mono (by omega)⟩
  | altRight _ ih =>
    obtain ⟨x, -, hmax⟩ := Option.bind_eq_some_iff.mp hrule
    obtain ⟨y, hy, rfl⟩ := Option.map_eq_some_iff.mp hmax
    obtain ⟨hle, hlast⟩ := ih hy hparts
    exact ⟨by omega, hlast.mono (by omega)⟩
  | @role r a parts more ts us _ _ =>
    simp only [Rule.rolesUpTo, Option.ite_none_right_eq_some, Option.some.injEq] at hrule
    obtain ⟨hle, rfl⟩ := hrule
    have hmore : ∀ t ∈ more.map (Tree.withRole r), t.role ≠ .plain → t.role = r := by
      intro t ht hplain
      obtain ⟨t, -, rfl⟩ := List.mem_map.mp ht
      exact (Tree.role_withRole r t).resolve_right hplain
    refine ⟨hle, ?_, List.forall_mem_append.mpr ⟨fun t ht hplain => ?_, (hparts.mono hle).2⟩⟩
    · rw [List.reverse_append, List.pairwise_append]
      refine ⟨hparts.1, ?_, fun a ha b hb hplain hplain' => ?_⟩
      · apply List.pairwise_of_forall_mem_list
        intro a ha b hb hplain hplain'
        have hroles : a.role = b.role :=
          (hmore a (List.mem_reverse.mp ha) hplain).trans (hmore b (List.mem_reverse.mp hb) hplain').symm
        exact Nat.le_of_eq (congrArg Role.index hroles)
      · rw [hmore b (List.mem_reverse.mp hb) hplain']
        exact Nat.le_trans (hparts.2 a (List.mem_reverse.mp ha) hplain) hle
    · exact Nat.le_of_eq (congrArg Role.index (hmore t ht hplain))
  | _ => cases hrule

def isFree (kind : String) : Bool := (Tree.keyword? kind).isNone && kind != "if_statement"

/-- The nodes of the rule get children as their kinds demand. -/
def shaped (table : σ → Bool) : Rule σ → Bool
  | leaf kind _ => isFree kind
  | node kind a =>
    (Tree.keyword? kind).all (a.beginsWith table) &&
      (kind != "if_statement" || (a.rolesUpTo 0).isSome) && a.shaped table
  | grow kind a => isFree kind && a.shaped table
  | seq a b | alt a b => a.shaped table && b.shaped table
  | many a | apart a | role _ a | longer _ a => a.shaped table
  | _ => true

/-- The named rules in the table only add parts, and all of them build shaped trees. -/
structure Shapes (rules : σ → Rule σ) (table : σ → Bool) : Prop where
  adds : ∀ name, table name = true → (rules name).adds table = true
  shaped : ∀ name, (rules name).shaped table = true

private theorem shaped_of_isFree {kind : String} {role : Role} {children : List Tree}
    (hkind : isFree kind = true) (h : ∀ c ∈ children, c.Shaped) :
    (Tree.node kind role children).Shaped := by
  simp only [isFree, Bool.and_eq_true, Option.isNone_iff_eq_none, bne_iff_ne] at hkind
  refine .node role (fun word hword => ?_) (fun hif => absurd hif hkind.2) h
  rw [hkind.1] at hword
  cases hword

theorem Derives.shaped {table : σ → Bool} (hrules : Shapes rules table) {rule : Rule σ}
    {parts last : List Tree} {ts us : List Token} (h : Derives rules rule parts ts last us)
    (hrule : rule.shaped table = true) (hparts : ∀ t ∈ parts, t.Shaped) :
    ∀ t ∈ last, t.Shaped := by
  induction h with
  | empty | sameLine | newLine | ahead | notAhead | manyStop => exact hparts
  | token | half | lineEnd => exact List.forall_mem_cons.mpr ⟨.token _, hparts⟩
  | leaf =>
    refine List.forall_mem_cons.mpr ⟨shaped_of_isFree hrule ?_, hparts⟩
    exact List.forall_mem_singleton.mpr (.token _)
  | seq _ _ iha ihb =>
    simp only [Rule.shaped, Bool.and_eq_true] at hrule
    exact ihb hrule.2 (iha hrule.1 hparts)
  | altLeft _ ih =>
    simp only [Rule.shaped, Bool.and_eq_true] at hrule
    exact ih hrule.1 hparts
  | altRight _ ih =>
    simp only [Rule.shaped, Bool.and_eq_true] at hrule
    exact ih hrule.2 hparts
  | manyStep _ _ iha ihs => exact ihs hrule (iha hrule hparts)
  | ref _ _ ih => exact ih (hrules.shaped _) hparts
  | @node kind a parts children ts us ha ih =>
    simp only [Rule.shaped, Bool.and_eq_true, Bool.or_eq_true, bne_iff_ne] at hrule
    obtain ⟨⟨hword, hroles⟩, hshaped⟩ := hrule
    refine List.forall_mem_cons.mpr ⟨.node .plain (fun word hw => ?_) (fun hif => ?_) ?_, hparts⟩
    · rw [hw] at hword
      exact ha.head_eq hrules.adds hword
    · obtain ⟨hi, hhi⟩ := Option.isSome_iff_exists.mp (hroles.resolve_left (not_not_intro hif))
      exact (ha.rolesUpTo hhi ⟨.nil, nofun⟩).2.1
    · simpa using ih hshaped nofun
  | grow _ ih =>
    simp only [Rule.shaped, Bool.and_eq_true] at hrule
    refine List.forall_mem_singleton.mpr (shaped_of_isFree hrule.1 ?_)
    simpa using ih hrule.2 hparts
  | apart _ ih | longer _ _ ih => exact List.forall_mem_append.mpr ⟨ih hrule nofun, hparts⟩
  | role _ ih =>
    refine List.forall_mem_append.mpr ⟨?_, hparts⟩
    simpa using fun t ht => (ih hrule nofun t ht).withRole _

end Rule

namespace Grammar
open Rule

def onlyAdds : Symbol → Bool
  | .suffix _ => false
  | _ => true

theorem shapes_rule : Shapes Symbol.rule onlyAdds where
  adds name h := by
    refine Symbol.of_allFlags (p := fun name => name.rule.adds onlyAdds) ?_
    cases name with
    | suffix follow => cases h
    | _ => rfl
  shaped name := by
    refine Symbol.of_allFlags (p := fun name => name.rule.shaped onlyAdds) ?_
    cases name <;> rfl

end Grammar
end SentinelWrap.Go
