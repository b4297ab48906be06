import SentinelWrap.Proofs.Go.Grammar.Derivation

/-! Two runs side by side. A rule stays in step if, wherever the first run of it ends, the second one
ends the same way, after parts and before tokens that correspond. The rules that are built from rules
in step are in step again. -/
namespace SentinelWrap.Go

/-- What it means for the parts of two runs to correspond. -/
structure Lockstep where
  /-- How far the runs have come. -/
  Index : Type
  /-- How much more fuel the second run has at least. -/
  slack : Nat
  /-- What the runs read between two points, last first. -/
  Read : Index → Index → List Tree → List Tree → Prop
  nil (i : Index) : Read i i [] []
  append {i j k : Index} {more more' later later' : List Tree} :
    Read i j more more' → Read j k later later' → Read i k (later ++ more) (later' ++ more')
  role {i j : Index} (role : Role) {more more' : List Tree} : Read i j more more' →
    Read i j (more.map (Tree.withRole role)) (more'.map (Tree.withRole role))

namespace Lockstep
variable {σ : Type} {rules : σ → Rule σ} (L : Lockstep)

/-- How far the runs have come, and the tokens that either has left. -/
abbrev Point := L.Index → List Token → List Token → Prop

variable {L} {P Q S : L.Point} {a a' b b' : Rule σ} {fuel : Nat}

/-- The second run ends as the first one does, and if that has read something, at such a point. -/
def Agree (Q : L.Point) (i : L.Index) (parts parts' : List Tree) : Reading → Reading → Prop
  | .starved, _ => True
  | .rejected, r => r = .rejected
  | .read last ts, r => ∃ j last' ts', r = .read last' ts' ∧ Q j ts ts' ∧
    ∀ k, L.Read k i parts parts' → L.Read k j last last'

/-- From one point to another the two rules stay in step, as far as the fuel goes. -/
def InStep (rules : σ → Rule σ) (fuel : Nat) (P Q : L.Point) (a a' : Rule σ) : Prop :=
  ∀ i ts ts', P i ts ts' → ∀ more, fuel + L.slack ≤ more → ∀ parts parts',
    Agree Q i parts parts' (a.run rules fuel parts ts) (a'.run rules more parts' ts')

theorem Agree.mono {i : L.Index} {parts parts' : List Tree} {r r' : Reading}
    (h : Agree P i parts parts' r r') (hle : ∀ i ts ts', P i ts ts' → Q i ts ts') :
    Agree Q i parts parts' r r' := by
  cases r with
  | starved => trivial
  | rejected => exact h
  | read last ts =>
    obtain ⟨j, last', ts', hr, hP, hread⟩ := h
    exact ⟨j, last', ts', hr, hle j ts ts' hP, hread⟩

/-- What was read before may be counted in. -/
theorem Agree.after {i j : L.Index} {parts parts' mid mid' : List Tree} {r r' : Reading}
    (h : Agree P j mid mid' r r')
    (hread : ∀ k, L.Read k i parts parts' → L.Read k j mid mid') :
    Agree P i parts parts' r r' := by
  cases r with
  | starved => trivial
  | rejected => exact h
  | read last ts =>
    obtain ⟨k, last', ts', hr, hP, hlater⟩ := h
    exact ⟨k, last', ts', hr, hP, fun l hl => hlater l (hread l hl)⟩

theorem Agree.andThen {i : L.Index} {parts parts' mid mid' : List Tree} {r r' : Reading}
    {next next' : List Tree → List Token → Reading} (h : Agree P i mid mid' r r')
    (hnext : ∀ j last last' ts ts', P j ts ts' →
      (∀ k, L.Read k i mid mid' → L.Read k j last last') →
      Agree Q i parts parts' (next last ts) (next' last' ts')) :
    Agree Q i parts parts' (r.andThen next) (r'.andThen next') := by
  cases r with
  | starved => trivial
  | rejected =>
    obtain rfl : r' = .rejected := h
    rfl
  | read last ts =>
    obtain ⟨j, last', ts', rfl, hP, hread⟩ := h
    exact hnext j last last' ts ts' hP hread

theorem Agree.orElse {i : L.Index} {parts parts' : List Tree} {r r' : Reading}
    {other other' : Unit → Reading} (h : Agree P i parts parts' r r')
    (hother : Agree P i parts parts' (other ()) (other' ())) :
    Agree P i parts parts' (r.orElse other) (r'.orElse other') := by
  cases r with
  | starved => trivial
  | rejected =>
    obtain rfl : r' = .rejected := h
    exact hother
  | read last ts =>
    obtain ⟨j, last', ts', rfl, h⟩ := h
    exact ⟨j, last', ts', rfl, h⟩

theorem inStep_zero : InStep rules 0 P Q a a' := fun _ _ _ _ _ _ _ _ => trivial

theorem InStep.mono {P' Q' : L.Point} (h : InStep rules fuel P Q a a')
    (hP : ∀ i ts ts', P' i ts ts' → P i ts ts') (hQ : ∀ i ts ts', Q i ts ts' → Q' i ts ts') :
    InStep rules fuel P' Q' a a' :=
  fun i ts ts' hp more hmore parts parts' => (h i ts ts' (hP i ts ts' hp) more hmore parts parts').mono hQ

/-- The second run has fuel left for one step more. -/
theorem inStep_succ
    (h : ∀ i ts ts', P i ts ts' → ∀ more, fuel + L.slack ≤ more → ∀ parts parts',
      Agree Q i parts parts' (a.run rules (fuel + 1) parts ts) (a'.run rules (more + 1) parts' ts')) :
    InStep rules (fuel + 1) P Q a a' := by
  intro i ts ts' hP more hmore parts parts'
  obtain ⟨more, rfl⟩ : ∃ n, more = n + 1 := ⟨more - 1, by omega⟩
  exact h i ts ts' hP more (by omega) parts parts'

theorem inStep_empty : InStep rules (fuel + 1) P P (.empty : Rule σ) .empty :=
  inStep_succ fun i _ ts' hP _ _ _ parts' => ⟨i, parts', ts', rfl, hP, fun _ h => h⟩

theorem InStep.seq (ha : InStep rules fuel P Q a a') (hb : InStep rules fuel Q S b b') :
    InStep rules (fuel + 1) P S (a.seq b) (a'.seq b') := by
  refine inStep_succ fun i ts ts' hP more hmore parts parts' => ?_
  refine (ha i ts ts' hP more hmore parts parts').andThen fun j mid mid' us us' hQ hread => ?_
  exact (hb j us us' hQ more hmore mid mid').after hread

theorem InStep.alt (ha : InStep rules fuel P Q a a') (hb : InStep rules fuel P Q b b') :
    InStep rules (fuel + 1) P Q (a.alt b) (a'.alt b') :=
  inStep_succ fun i ts ts' hP more hmore parts parts' =>
    (ha i ts ts' hP more hmore parts parts').orElse (hb i ts ts' hP more hmore parts parts')

theorem InStep.many (ha : InStep rules fuel P P a a')
    (hlater : InStep rules fuel P P (.many a) (.many a')) :
    InStep rules (fuel + 1) P P (.many a) (.many a') := by
  refine inStep_succ fun i ts ts' hP more hmore parts parts' => ?_
  refine Agree.orElse ?_ ⟨i, parts', ts', rfl, hP, fun _ h => h⟩
  refine (ha i ts ts' hP more hmore parts parts').andThen fun j mid mid' us us' hQ hread => ?_
  exact (hlater j us us' hQ more hmore mid mid').after hread

theorem InStep.ref {name name' : σ} (h : InStep rules fuel P Q (rules name) (rules name')) :
    InStep rules (fuel + 1) P Q (.ref name) (.ref name') :=
  inStep_succ h

def Keeps (L : Lockstep) (kind : String) : Prop :=
  ∀ i j children children', L.Read i j children children' →
    L.Read i j [.node kind .plain children.reverse] [.node kind .plain children'.reverse]

/-- A node is in step if what is known of the run of its rule makes it correspond. -/
theorem InStep.node_of {kind : String} (h : InStep rules fuel P Q a a')
    (hkind : ∀ i j ts ts' us children children', P i ts ts' →
      a.run rules fuel [] ts = .read children us → L.Read i j children children' →
      L.Read i j [.node kind .plain children.reverse] [.node kind .plain children'.reverse]) :
    InStep rules (fuel + 1) P Q (.node kind a) (.node kind a') := by
  refine inStep_succ fun i ts ts' hP more hmore parts parts' => ?_
  have hagree := h i ts ts' hP more hmore [] []
  simp only [Rule.run]
  cases hrun : a.run rules fuel [] ts with
  | starved => trivial
  | rejected =>
    rw [hrun] at hagree
    have hrun' : a'.run rules more [] ts' = .rejected := hagree
    rw [hrun']
    rfl
  | read children us =>
    rw [hrun] at hagree
    obtain ⟨j, children', us', hrun', hQ, hread⟩ := hagree
    rw [hrun']
    have hnode := hkind i j ts ts' us children children' hP hrun (hread i (L.nil i))
    exact ⟨j, _, us', rfl, hQ, fun k hk => L.append hk hnode⟩

theorem InStep.node {kind : String} (hkind : L.Keeps kind) (h : InStep rules fuel P Q a a') :
    InStep rules (fuel + 1) P Q (.node kind a) (.node kind a') :=
  h.node_of fun i j _ _ _ children children' _ _ => hkind i j children children'

theorem InStep.grow {kind : String} (hkind : L.Keeps kind) (h : InStep rules fuel P Q a a') :
    InStep rules (fuel + 1) P Q (.grow kind a) (.grow kind a') := by
  refine inStep_succ fun i ts ts' hP more hmore parts parts' => ?_
  refine (h i ts ts' hP more hmore parts parts').andThen
    fun j children children' us us' hQ hread => ?_
  exact ⟨j, _, us', rfl, hQ, fun k hk => hkind k j _ _ (hread k hk)⟩

theorem InStep.apart (h : InStep rules fuel P Q a a') :
    InStep rules (fuel + 1) P Q (.apart a) (.apart a') := by
  refine inStep_succ fun i ts ts' hP more hmore parts parts' => ?_
  refine (h i ts ts' hP more hmore [] []).andThen fun j later later' us us' hQ hread => ?_
  exact ⟨j, _, us', rfl, hQ, fun k hk => L.append hk (hread i (L.nil i))⟩

theorem InStep.role (r : Role) (h : InStep rules fuel P Q a a') :
    InStep rules (fuel + 1) P Q (.role r a) (.role r a') := by
  refine inStep_succ fun i ts ts' hP more hmore parts parts' => ?_
  refine (h i ts ts' hP more hmore [] []).andThen fun j later later' us us' hQ hread => ?_
  exact ⟨j, _, us', rfl, hQ, fun k hk => L.append hk (L.role r (hread i (L.nil i)))⟩

/-- What the two runs of a rule read exceeds a size on both sides or on neither. -/
def SameSize (L : Lockstep) (rules : σ → Rule σ) (size : Nat) (P : L.Point) (a a' : Rule σ) : Prop :=
  ∀ i j ts ts' us us' later later' n m, P i ts ts' → a.run rules n [] ts = .read later us →
    a'.run rules m [] ts' = .read later' us' → L.Read i j later later' →
    (size < Tree.sizeOfParts later ↔ size < Tree.sizeOfParts later')

theorem InStep.longer {size : Nat} (hsize : L.SameSize rules size P a a')
    (h : InStep rules fuel P Q a a') :
    InStep rules (fuel + 1) P Q (.longer size a) (.longer size a') := by
  refine inStep_succ fun i ts ts' hP more hmore parts parts' => ?_
  have hagree := h i ts ts' hP more hmore [] []
  simp only [Rule.run]
  cases hrun : a.run rules fuel [] ts with
  | starved => trivial
  | rejected =>
    rw [hrun] at hagree
    have hrun' : a'.run rules more [] ts' = .rejected := hagree
    rw [hrun']
    rfl
  | read later us =>
    rw [hrun] at hagree
    obtain ⟨j, later', us', hrun', hQ, hread⟩ := hagree
    have hread := hread i (L.nil i)
    have hiff := hsize i j ts ts' us us' later later' fuel more hP hrun hrun' hread
    rw [hrun', Reading.read_andThen, Reading.read_andThen]
    by_cases hlonger : size < Tree.sizeOfParts later
    · rw [if_pos hlonger, if_pos (hiff.mp hlonger)]
      exact ⟨j, _, us', rfl, hQ, fun k hk => L.append hk hread⟩
    · rw [if_neg hlonger, if_neg (mt hiff.mpr hlonger)]
      rfl

def InStepAlways (rules : σ → Rule σ) (P Q : L.Point) (a a' : Rule σ) : Prop :=
  ∀ fuel, InStep rules fuel P Q a a'

namespace InStepAlways

theorem of_succ (h : ∀ fuel, InStep rules (fuel + 1) P Q a a') : InStepAlways rules P Q a a'
  | 0 => inStep_zero
  | fuel + 1 => h fuel

theorem empty : InStepAlways rules P P (.empty : Rule σ) .empty := of_succ fun _ => inStep_empty

theorem seq (ha : InStepAlways rules P Q a a') (hb : InStepAlways rules Q S b b') :
    InStepAlways rules P S (a.seq b) (a'.seq b') :=
  of_succ fun fuel => (ha fuel).seq (hb fuel)

theorem alt (ha : InStepAlways rules P Q a a') (hb : InStepAlways rules P Q b b') :
    InStepAlways rules P Q (a.alt b) (a'.alt b') :=
  of_succ fun fuel => (ha fuel).alt (hb fuel)

theorem many (ha : InStepAlways rules P P a a') : InStepAlways rules P P (.many a) (.many a') := by
  intro fuel
  induction fuel with
  | zero => exact inStep_zero
  | succ fuel ih => exact (ha fuel).many ih

theorem ref {name name' : σ} (h : InStepAlways rules P Q (rules name) (rules name')) :
    InStepAlways rules P Q (.ref name) (.ref name') :=
  of_succ fun fuel => (h fuel).ref

theorem longer {size : Nat} (hsize : L.SameSize rules size P a a')
    (h : InStepAlways rules P Q a a') : InStepAlways rules P Q (.longer size a) (.longer size a') :=
  of_succ fun fuel => (h fuel).longer hsize

end InStepAlways
end Lockstep

inductive SameHead : List Token → List Token → Prop
  | nil : SameHead [] []
  | cons {t t' : Token} {ts ts' : List Token} (hkind : t.kind = t'.kind) (htext : t.text = t'.text) :
    SameHead (t :: ts) (t' :: ts')

theorem Terminal.accepts_congr {t t' : Token} (hkind : t.kind = t'.kind) (htext : t.text = t'.text)
    (terminal : Terminal) : terminal.accepts t = terminal.accepts t' := by
  cases terminal <;> simp [accepts, hkind, htext]

namespace Lockstep
variable {σ : Type} {rules : σ → Rule σ} {L : Lockstep} {P Q : L.Point} {fuel : Nat}
  {terminal : Terminal}

/-- Where the next tokens are accepted, the runs can pass them. -/
def Passes (P Q : L.Point) (terminal : Terminal) : Prop :=
  ∀ i t t' ts ts', P i (t :: ts) (t' :: ts') → terminal.accepts t = true →
    ∃ j, Q j ts ts' ∧ L.Read i j [.token t] [.token t']

variable (hhead : ∀ i ts ts', P i ts ts' → SameHead ts ts')
include hhead

theorem inStep_token (h : Passes P Q terminal) :
    InStep rules fuel P Q (.token terminal) (.token terminal) := by
  cases fuel with
  | zero => exact inStep_zero
  | succ fuel =>
    refine inStep_succ fun i ts ts' hP more hmore parts parts' => ?_
    cases hhead i ts ts' hP with
    | nil => rfl
    | @cons t t' ts ts' hkind htext =>
      simp only [Rule.run, ← Terminal.accepts_congr hkind htext terminal]
      split_ifs with haccepts
      · obtain ⟨j, hQ, hread⟩ := h i t t' ts ts' hP haccepts
        exact ⟨j, _, ts', rfl, hQ, fun k hk => L.append hk hread⟩
      · rfl

theorem inStep_leaf {kind : String} (hkind : L.Keeps kind) (h : Passes P Q terminal) :
    InStep rules fuel P Q (.leaf kind terminal) (.leaf kind terminal) := by
  cases fuel with
  | zero => exact inStep_zero
  | succ fuel =>
    refine inStep_succ fun i ts ts' hP more hmore parts parts' => ?_
    cases hhead i ts ts' hP with
    | nil => rfl
    | @cons t t' ts ts' hsame htext =>
      simp only [Rule.run, ← Terminal.accepts_congr hsame htext terminal]
      split_ifs with haccepts
      · obtain ⟨j, hQ, hread⟩ := h i t t' ts ts' hP haccepts
        exact ⟨j, _, ts', rfl, hQ, fun k hk => L.append hk (hkind i j _ _ hread)⟩
      · rfl

theorem inStep_half {first second : String}
    (h : ∀ i t t' ts ts', P i (t :: ts) (t' :: ts') → t.kind = .sign → t.text = first ++ second →
      ∃ j, Q j (t.secondHalf first second :: ts) (t'.secondHalf first second :: ts') ∧
        L.Read i j [.token (t.firstHalf first)] [.token (t'.firstHalf first)]) :
    InStep rules fuel P Q (.half first second) (.half first second) := by
  cases fuel with
  | zero => exact inStep_zero
  | succ fuel =>
    refine inStep_succ fun i ts ts' hP more hmore parts parts' => ?_
    cases hhead i ts ts' hP with
    | nil => rfl
    | @cons t t' ts ts' hkind htext =>
      simp only [Rule.run]
      by_cases hsigns : t.kind = .sign ∧ t.text = first ++ second
      · obtain ⟨j, hQ, hread⟩ := h i t t' ts ts' hP hsigns.1 hsigns.2
        rw [if_pos hsigns, if_pos (by rwa [← hkind, ← htext])]
        exact ⟨j, _, _, rfl, hQ, fun k hk => L.append hk hread⟩
      · rw [if_neg hsigns, if_neg (by rwa [← hkind, ← htext])]
        rfl

theorem inStep_lineEnd
    (h : ∀ i t t' ts ts', P i (t :: ts) (t' :: ts') → t.lineEnd = none ∧ t'.lineEnd = none ∨
      ∃ offset offset' j, t.lineEnd = some offset ∧ t'.lineEnd = some offset' ∧
        Q j (t.unmarked :: ts) (t'.unmarked :: ts') ∧
        L.Read i j [.token (.lineBreak offset)] [.token (.lineBreak offset')]) :
    InStep rules fuel P Q .lineEnd .lineEnd := by
  cases fuel with
  | zero => exact inStep_zero
  | succ fuel =>
    refine inStep_succ fun i ts ts' hP more hmore parts parts' => ?_
    cases hhead i ts ts' hP with
    | nil => rfl
    | @cons t t' ts ts' hkind htext =>
      rcases h i t t' ts ts' hP with ⟨hnone, hnone'⟩ | ⟨offset, offset', j, hsome, hsome', hQ, hread⟩
      · simp only [Rule.run, hnone, hnone']
        rfl
      · simp only [Rule.run, hsome, hsome']
        exact ⟨j, _, _, rfl, hQ, fun k hk => L.append hk hread⟩

def IsTest (rules : σ → Rule σ) (a : Rule σ) (p : Token → Bool) : Prop :=
  ∀ fuel parts ts, a.run rules (fuel + 1) parts ts = match ts with
    | t :: _ => if p t then .read parts ts else .rejected
    | [] => .rejected

theorem inStep_test {a a' : Rule σ} {p p' : Token → Bool} (ha : IsTest rules a p)
    (ha' : IsTest rules a' p')
    (h : ∀ i t t' ts ts', P i (t :: ts) (t' :: ts') →
      p t = p' t' ∧ (p t = true → Q i (t :: ts) (t' :: ts'))) : InStep rules fuel P Q a a' := by
  cases fuel with
  | zero => exact inStep_zero
  | succ fuel =>
    refine inStep_succ fun i ts ts' hP more hmore parts parts' => ?_
    rw [ha, ha']
    cases hhead i ts ts' hP with
    | nil => rfl
    | @cons t t' ts ts' hkind htext =>
      obtain ⟨heq, hQ⟩ := h i t t' ts ts' hP
      simp only [← heq]
      split_ifs with hp
      · exact ⟨i, _, _, rfl, hQ hp, fun _ hk => hk⟩
      · rfl

omit hhead

theorem isTest_ahead : IsTest rules (.ahead terminal) terminal.accepts := fun _ _ _ => rfl

theorem isTest_notAhead : IsTest rules (.notAhead terminal) fun t => !terminal.accepts t := by
  intro fuel parts ts
  cases ts with
  | nil => rfl
  | cons t ts => cases h : terminal.accepts t <;> simp [Rule.run, h]

theorem isTest_sameLine : IsTest rules (.sameLine : Rule σ) fun t => t.lineEnd.isNone :=
  fun _ _ _ => rfl

theorem isTest_newLine : IsTest rules (.newLine : Rule σ) fun t => t.lineEnd.isSome :=
  fun _ _ _ => rfl

/-- Where there is no line break, the rule that may ask for one instead is in step without it. -/
theorem InStep.skipNewLine {a a' : Rule σ} (h : InStep rules fuel P Q a a')
    (hbreak : ∀ i t ts ts', P i (t :: ts) ts' → t.lineEnd = none) :
    InStep rules (fuel + 1) P Q (.alt .newLine a) a' := by
  intro i ts ts' hP more hmore parts parts'
  cases fuel with
  | zero => trivial
  | succ fuel =>
    have hrejected : Rule.newLine.run rules (fuel + 1) parts ts = .rejected := by
      cases ts with
      | nil => rfl
      | cons t ts => simp [Rule.run, hbreak i t ts ts' hP]
    rw [Rule.run, hrejected]
    exact h i ts ts' hP more (by omega) parts parts'

end Lockstep
end SentinelWrap.Go
