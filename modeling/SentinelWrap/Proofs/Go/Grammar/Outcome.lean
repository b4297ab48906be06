import SentinelWrap.Proofs.Go.Grammar.Fuel

/-! How a rule ends, whatever fuel it is given, as long as that is enough. -/
namespace SentinelWrap.Go
open Token (worthAll)

namespace Rule
variable {σ : Type} {rules : σ → Rule σ}

/-- With enough fuel a run of the rule ends so. -/
def Ends (rules : σ → Rule σ) (rule : Rule σ) (parts : List Tree) (ts : List Token) (r : Reading) :
    Prop :=
  r ≠ .starved ∧ ∃ fuel, run rules fuel rule parts ts = r

section
variable {rule a b : Rule σ} {parts mid last : List Tree} {ts us vs : List Token} {r r' : Reading}
  {fuel : Nat}

theorem ends_of_run (h : run rules fuel rule parts ts = r) (hr : r ≠ .starved) :
    Ends rules rule parts ts r :=
  ⟨hr, fuel, h⟩

theorem Ends.exists_le (h : Ends rules rule parts ts r) (fuel : Nat) :
    ∃ more, fuel ≤ more ∧ run rules more rule parts ts = r := by
  obtain ⟨hr, least, rfl⟩ := h
  exact ⟨max fuel least, Nat.le_max_left _ _, run_mono (Nat.le_max_right _ _) hr⟩

/-- A run ends in one way only. -/
theorem Ends.run_eq (h : Ends rules rule parts ts r) (hfuel : run rules fuel rule parts ts ≠ .starved) :
    run rules fuel rule parts ts = r := by
  obtain ⟨more, hle, hrun⟩ := h.exists_le fuel
  rw [← hrun, run_mono hle hfuel]

theorem Ends.unique (h : Ends rules rule parts ts r) (h' : Ends rules rule parts ts r') : r = r' := by
  obtain ⟨hr, fuel, rfl⟩ := h
  exact h'.run_eq hr

theorem ends_succ (n : Nat) (hr : r ≠ .starved) (h : run rules (n + 1) rule parts ts = r) :
    Ends rules rule parts ts r :=
  ⟨hr, n + 1, h⟩

theorem ends_empty : Ends rules .empty parts ts (.read parts ts) := ends_succ 0 nofun rfl

theorem Ends.seq (ha : Ends rules a parts ts (.read mid us)) (hb : Ends rules b mid us r) :
    Ends rules (a.seq b) parts ts r := by
  obtain ⟨_, m, hm⟩ := ha
  obtain ⟨n, hle, hn⟩ := hb.exists_le m
  refine ends_succ n hb.1 ?_
  rw [run, run_mono hle (by rw [hm]; rintro ⟨⟩), hm, Reading.read_andThen, hn]

theorem Ends.seq_rejected (ha : Ends rules a parts ts .rejected) :
    Ends rules (a.seq b) parts ts .rejected := by
  obtain ⟨_, m, hm⟩ := ha
  refine ends_succ m nofun ?_
  rw [run, hm, Reading.rejected_andThen]

theorem Ends.altLeft (ha : Ends rules a parts ts (.read last us)) :
    Ends rules (a.alt b) parts ts (.read last us) := by
  obtain ⟨_, m, hm⟩ := ha
  refine ends_succ m nofun ?_
  rw [run, hm, Reading.read_orElse]

theorem Ends.altRight (ha : Ends rules a parts ts .rejected) (hb : Ends rules b parts ts r) :
    Ends rules (a.alt b) parts ts r := by
  obtain ⟨_, m, hm⟩ := ha
  obtain ⟨n, hle, hn⟩ := hb.exists_le m
  refine ends_succ n hb.1 ?_
  rw [run, run_mono hle (by rw [hm]; rintro ⟨⟩), hm, Reading.rejected_orElse, hn]

theorem Ends.manyStop (ha : Ends rules a parts ts .rejected) :
    Ends rules (.many a) parts ts (.read parts ts) := by
  obtain ⟨_, m, hm⟩ := ha
  refine ends_succ m nofun ?_
  rw [run, hm, Reading.rejected_andThen, Reading.rejected_orElse]

theorem Ends.manyStep (ha : Ends rules a parts ts (.read mid us))
    (hlater : Ends rules (.many a) mid us (.read last vs)) :
    Ends rules (.many a) parts ts (.read last vs) := by
  obtain ⟨_, m, hm⟩ := ha
  obtain ⟨n, hle, hn⟩ := hlater.exists_le m
  refine ends_succ n nofun ?_
  rw [run, run_mono hle (by rw [hm]; nofun), hm, Reading.read_andThen, hn, Reading.read_orElse]

theorem Ends.ref {name : σ} (h : Ends rules (rules name) parts ts r) :
    Ends rules (.ref name) parts ts r := by
  obtain ⟨hr, m, hm⟩ := h
  exact ends_succ m hr hm

theorem Ends.node {kind : String} (h : Ends rules a [] ts (.read last us)) :
    Ends rules (.node kind a) parts ts (.read (.node kind .plain last.reverse :: parts) us) := by
  obtain ⟨_, m, hm⟩ := h
  refine ends_succ m nofun ?_
  rw [run, hm, Reading.read_andThen]

/-- A node is added to whatever parts there are. -/
theorem Ends.node_parts {kind : String} {t : Tree}
    (h : Ends rules (.node kind a) [] ts (.read [t] us)) (parts : List Tree) :
    Ends rules (.node kind a) parts ts (.read (t :: parts) us) := by
  obtain ⟨-, fuel, hrun⟩ := h
  cases fuel with
  | zero => cases hrun
  | succ fuel =>
    obtain ⟨children, vs, ha, hread⟩ := Reading.andThen_eq_read.mp hrun
    obtain ⟨heq, rfl⟩ := Reading.read.inj hread
    refine ⟨nofun, fuel + 1, ?_⟩
    rw [run, ha, Reading.read_andThen, (List.cons.inj heq).1]

theorem Ends.of_ref {name : σ} (h : Ends rules (.ref name) parts ts r) :
    Ends rules (rules name) parts ts r := by
  obtain ⟨hr, fuel, hrun⟩ := h
  cases fuel with
  | zero => exact absurd hrun.symm hr
  | succ fuel => exact ⟨hr, fuel, hrun⟩

theorem Ends.grow {kind : String} (h : Ends rules a parts ts (.read last us)) :
    Ends rules (.grow kind a) parts ts (.read [.node kind .plain last.reverse] us) := by
  obtain ⟨_, m, hm⟩ := h
  refine ends_succ m nofun ?_
  rw [run, hm, Reading.read_andThen]

theorem Ends.apart (h : Ends rules a [] ts (.read last us)) :
    Ends rules (.apart a) parts ts (.read (last ++ parts) us) := by
  obtain ⟨_, m, hm⟩ := h
  refine ends_succ m nofun ?_
  rw [run, hm, Reading.read_andThen]

theorem Ends.node_rejected {kind : String} (h : Ends rules a [] ts .rejected) :
    Ends rules (.node kind a) parts ts .rejected := by
  obtain ⟨_, m, hm⟩ := h
  refine ends_succ m nofun ?_
  rw [run, hm, Reading.rejected_andThen]

theorem Ends.grow_rejected {kind : String} (h : Ends rules a parts ts .rejected) :
    Ends rules (.grow kind a) parts ts .rejected := by
  obtain ⟨_, m, hm⟩ := h
  refine ends_succ m nofun ?_
  rw [run, hm, Reading.rejected_andThen]

end

section
variable {terminal : Terminal} {t : Token} {parts : List Tree} {ts : List Token}

theorem ends_token (h : terminal.accepts t = true) :
    Ends rules (.token terminal) parts (t :: ts) (.read (.token t :: parts) ts) := by
  refine ends_succ 0 nofun ?_
  simp [run, h]

theorem ends_token_rejected (h : ¬terminal.accepts t = true) :
    Ends rules (.token terminal) parts (t :: ts) .rejected := by
  refine ends_succ 0 nofun ?_
  simp [run, h]

theorem ends_leaf {kind : String} (h : terminal.accepts t = true) :
    Ends rules (.leaf kind terminal) parts (t :: ts)
      (.read (.node kind .plain [.token t] :: parts) ts) := by
  refine ends_succ 0 nofun ?_
  simp [run, h]

theorem ends_leaf_rejected {kind : String} (h : ¬terminal.accepts t = true) :
    Ends rules (.leaf kind terminal) parts (t :: ts) .rejected := by
  refine ends_succ 0 nofun ?_
  simp [run, h]

theorem ends_sameLine (h : t.lineEnd = none) :
    Ends rules (.sameLine : Rule σ) parts (t :: ts) (.read parts (t :: ts)) := by
  refine ends_succ 0 nofun ?_
  simp [run, h]

theorem ends_ahead (h : terminal.accepts t = true) :
    Ends rules (.ahead terminal : Rule σ) parts (t :: ts) (.read parts (t :: ts)) := by
  refine ends_succ 0 nofun ?_
  simp [run, h]

theorem ends_ahead_rejected (h : ¬terminal.accepts t = true) :
    Ends rules (.ahead terminal : Rule σ) parts (t :: ts) .rejected := by
  refine ends_succ 0 nofun ?_
  simp [run, h]

theorem ends_notAhead (h : ¬terminal.accepts t = true) :
    Ends rules (.notAhead terminal : Rule σ) parts (t :: ts) (.read parts (t :: ts)) := by
  refine ends_succ 0 nofun ?_
  simp [run, h]

theorem ends_lineEnd {offset : Nat} (h : t.lineEnd = some offset) :
    Ends rules (.lineEnd : Rule σ) parts (t :: ts)
      (.read (.token (.lineBreak offset) :: parts) (t.unmarked :: ts)) := by
  refine ends_succ 0 nofun ?_
  simp [run, h, Token.lineBreak, Token.unmarked]

end

/-- The rule groups none of the parts before it, if these named rules do not. -/
def onlyStacks (table : σ → Bool) : Rule σ → Bool
  | grow _ _ => false
  | seq a b | alt a b => a.onlyStacks table && b.onlyStacks table
  | many a => a.onlyStacks table
  | ref name => table name
  | _ => true

def onto (parts : List Tree) : Reading → Reading
  | .read last rest => .read (last ++ parts) rest
  | .starved => .starved
  | .rejected => .rejected

/-- Such a rule ends alike, whatever parts were read before. -/
theorem run_onto {table : σ → Bool}
    (htable : ∀ name, table name = true → (rules name).onlyStacks table = true) {rule : Rule σ}
    (hrule : rule.onlyStacks table = true) (fuel : Nat) (parts : List Tree) (ts : List Token) :
    run rules fuel rule parts ts = onto parts (run rules fuel rule [] ts) := by
  induction fuel generalizing rule parts ts with
  | zero => rfl
  | succ fuel ih =>
    have hseq {a b : Rule σ} (ha : a.onlyStacks table = true) (hb : b.onlyStacks table = true) :
        (run rules fuel a parts ts).andThen (run rules fuel b) =
          onto parts ((run rules fuel a [] ts).andThen (run rules fuel b)) := by
      rw [ih ha]
      cases run rules fuel a [] ts with
      | starved | rejected => rfl
      | read mid us =>
        simp only [onto, Reading.read_andThen]
        rw [ih hb, ih hb mid]
        cases run rules fuel b [] us <;> simp [onto]
    cases rule with
    | seq a b =>
      obtain ⟨ha, hb⟩ := Bool.and_eq_true_iff.mp hrule
      exact hseq ha hb
    | alt a b =>
      obtain ⟨ha, hb⟩ := Bool.and_eq_true_iff.mp hrule
      rw [run, run, ih ha]
      cases run rules fuel a [] ts with
      | starved | read => rfl
      | rejected => exact ih hb parts ts
    | many a =>
      have ha : a.onlyStacks table = true := hrule
      rw [run, run, hseq ha hrule]
      cases (run rules fuel a [] ts).andThen (run rules fuel (.many a)) <;> rfl
    | ref name => exact ih (htable name hrule) parts ts
    | grow kind a => cases hrule
    | node kind a | apart a | role r a =>
      rw [run, run]
      cases run rules fuel a [] ts <;> simp [onto]
    | longer size a =>
      rw [run, run]
      cases run rules fuel a [] ts with
      | starved | rejected => rfl
      | read more us =>
        simp only [Reading.read_andThen]
        split_ifs <;> simp [onto]
    | empty => rfl
    | token terminal | leaf kind terminal | ahead terminal | notAhead terminal =>
      cases ts with
      | nil => rfl
      | cons t ts => cases h : terminal.accepts t <;> simp [run, h, onto]
    | half first second =>
      cases ts with
      | nil => rfl
      | cons t ts => by_cases h : t.kind = .sign ∧ t.text = first ++ second <;> simp [run, h, onto]
    | lineEnd | sameLine | newLine =>
      cases ts with
      | nil => rfl
      | cons t ts => cases h : t.lineEnd <;> simp [run, h, onto]

/-- A node that begins with a token is read alike with another such token in its place. -/
theorem ends_other_head {table : σ → Bool}
    (htable : ∀ name, table name = true → (rules name).onlyStacks table = true) {terminal : Terminal}
    {b : Rule σ} (hb : b.onlyStacks table = true) {kind : String} {fuel : Nat} {t u : Token}
    {ts us : List Token} {children : List Tree}
    (h : run rules fuel (.node kind ((token terminal).seq b)) [] (t :: ts) =
      .read [.node kind .plain (.token t :: children)] us)
    (hu : terminal.accepts u = true) : Ends rules (.node kind ((token terminal).seq b)) [] (u :: ts)
      (.read [.node kind .plain (.token u :: children)] us) := by
  match fuel with
  | 0 | 1 => cases h
  | fuel + 2 =>
    obtain ⟨all, vs, hseq, hread⟩ := Reading.andThen_eq_read.mp h
    obtain ⟨mid, ws, htoken, hrun⟩ := Reading.andThen_eq_read.mp hseq
    have hderives := derives_of_run htoken
    cases hderives with
    | token ht =>
      rw [run_onto htable hb] at hrun
      cases hlast : run rules fuel b [] ts with
      | starved | rejected =>
        rw [hlast] at hrun
        cases hrun
      | read last rest =>
        rw [hlast] at hrun
        obtain ⟨rfl, rfl⟩ := Reading.read.inj hrun
        simp only [Reading.read.injEq, List.cons.injEq, Tree.node.injEq, List.reverse_append,
          List.reverse_cons, List.reverse_nil, List.nil_append, List.singleton_append, true_and,
          and_true] at hread
        obtain ⟨rfl, rfl⟩ := hread
        have hb' : Ends rules b [.token u] ts (.read (last ++ [.token u]) rest) :=
          ends_of_run (by rw [run_onto htable hb, hlast]; rfl) (by rintro ⟨⟩)
        have hnode := @Ends.node _ rules _ [] _ _ _ kind ((ends_token hu).seq hb')
        rwa [List.reverse_append] at hnode

def isTest : Rule σ → Bool
  | empty | sameLine | newLine | ahead _ | notAhead _ => true
  | _ => false

/-- The rule cannot begin with a token that only these terminals may accept, if these named rules
cannot. -/
def refuses (may : Terminal → Bool) (table : σ → Bool) : Rule σ → Bool
  | token t | leaf _ t | ahead t => !may t
  | half first second => !may (.sign (first ++ second))
  | seq a b => a.refuses may table || a.isTest && b.refuses may table
  | alt a b => a.refuses may table && b.refuses may table
  | ref name => table name
  | node _ a | grow _ a | apart a | role _ a | longer _ a => a.refuses may table
  | _ => false

theorem Derives.eq_of_isTest {a : Rule σ} {parts last : List Tree} {ts us : List Token}
    (h : Derives rules a parts ts last us) (ha : a.isTest = true) : last = parts ∧ us = ts := by
  cases h <;> first | exact ⟨rfl, rfl⟩ | cases ha

/-- Nothing is derived from a token that is refused. -/
theorem Derives.not_refuses {may : Terminal → Bool} {table : σ → Bool} {t : Token}
    (hmay : ∀ terminal, terminal.accepts t = true → may terminal = true)
    (htable : ∀ name, table name = true → (rules name).refuses may table = true) {a : Rule σ}
    {parts last : List Tree} {ts us rest : List Token} (h : Derives rules a parts ts last us)
    (hts : ts = t :: rest) : a.refuses may table = false := by
  induction h with
  | token haccepts | leaf haccepts | ahead haccepts =>
    obtain ⟨rfl, -⟩ := List.cons.inj hts
    simpa [refuses] using hmay _ haccepts
  | half hkind htext =>
    obtain ⟨rfl, -⟩ := List.cons.inj hts
    simpa [refuses] using hmay (.sign _) (Terminal.accepts_sign.mpr ⟨hkind, htext⟩)
  | empty | lineEnd | sameLine | newLine | notAhead | manyStop | manyStep => rfl
  | @seq a b _ _ _ _ _ _ ha _ iha ihb =>
    rw [refuses, iha hts, Bool.false_or]
    cases htest : a.isTest with
    | false => rfl
    | true =>
      obtain ⟨-, rfl⟩ := ha.eq_of_isTest htest
      exact ihb hts
  | altLeft _ ih => rw [refuses, ih hts, Bool.false_and]
  | altRight _ ih => rw [refuses, ih hts, Bool.and_false]
  | @ref name _ _ _ _ _ _ ih =>
    cases hname : table name with
    | false => exact hname
    | true =>
      rw [htable name hname] at ih
      exact absurd (ih hts) (by rintro ⟨⟩)
  | node _ ih | grow _ ih | apart _ ih | role _ ih | longer _ _ ih => exact ih hts

end Rule

namespace Grammar
open Rule

variable {rule : GoRule} {parts : List Tree} {ts : List Token}

theorem exists_ends (hpays : rule.pays = true) (parts : List Tree) (ts : List Token) :
    ∃ r, Ends Symbol.rule rule parts ts r :=
  ⟨_, run_ne_starved priced_rule hpays (Nat.le_refl _), _, rfl⟩

/-- What cannot be derived is rejected. -/
theorem ends_rejected (hpays : rule.pays = true)
    (h : ∀ last us, ¬Derives Symbol.rule rule parts ts last us) :
    Ends Symbol.rule rule parts ts .rejected := by
  obtain ⟨r, hr⟩ := exists_ends hpays parts ts
  cases r with
  | starved => exact absurd rfl hr.1
  | rejected => exact hr
  | read last us =>
    obtain ⟨-, fuel, hrun⟩ := hr
    exact absurd (derives_of_run hrun) (h last us)

end Grammar
end SentinelWrap.Go
