import SentinelWrap.Proofs.Go.Grammar.Reading

/-! What a run that succeeds has read. Derivations forget that choices are ordered and that
repetitions are greedy, so properties of all that a grammar can build follow by induction on them.
Of each named rule they keep the run that read it. -/
namespace SentinelWrap.Go

namespace Token

def firstHalf (first : String) (t : Token) : Token :=
  { t with text := first, span := ⟨t.span.start, t.span.start + Text.size first.toList⟩ }

def secondHalf (first second : String) (t : Token) : Token :=
  { t with
    text := second
    span := ⟨t.span.start + Text.size first.toList, t.span.stop⟩
    lineEnd := none }

def lineBreak (offset : Nat) : Token := ⟨.lineEnd, "\n", ⟨offset, offset + 1⟩, none⟩

/-- The token once the line break before it has been read. -/
def unmarked (t : Token) : Token := { t with lineEnd := none }

end Token

namespace Rule
variable {σ : Type} {rules : σ → Rule σ}

/-- From some parts and tokens, a rule may lead to these parts and tokens. -/
inductive Derives (rules : σ → Rule σ) :
    Rule σ → List Tree → List Token → List Tree → List Token → Prop
  | empty {parts : List Tree} {ts : List Token} : Derives rules .empty parts ts parts ts
  | token {t : Terminal} {next : Token} {parts : List Tree} {rest : List Token}
    (h : t.accepts next = true) :
    Derives rules (.token t) parts (next :: rest) (.token next :: parts) rest
  | leaf {kind : String} {t : Terminal} {next : Token} {parts : List Tree} {rest : List Token}
    (h : t.accepts next = true) :
    Derives rules (.leaf kind t) parts (next :: rest) (.node kind .plain [.token next] :: parts) rest
  | half {first second : String} {next : Token} {parts : List Tree} {rest : List Token}
    (hkind : next.kind = .sign) (htext : next.text = first ++ second) :
    Derives rules (.half first second) parts (next :: rest)
      (.token (next.firstHalf first) :: parts) (next.secondHalf first second :: rest)
  | lineEnd {next : Token} {offset : Nat} {parts : List Tree} {rest : List Token}
    (h : next.lineEnd = some offset) :
    Derives rules .lineEnd parts (next :: rest)
      (.token (.lineBreak offset) :: parts) (next.unmarked :: rest)
  | sameLine {next : Token} {parts : List Tree} {rest : List Token} (h : next.lineEnd = none) :
    Derives rules .sameLine parts (next :: rest) parts (next :: rest)
  | newLine {next : Token} {parts : List Tree} {rest : List Token}
    (h : next.lineEnd.isSome = true) : Derives rules .newLine parts (next :: rest) parts (next :: rest)
  | ahead {t : Terminal} {next : Token} {parts : List Tree} {rest : List Token}
    (h : t.accepts next = true) : Derives rules (.ahead t) parts (next :: rest) parts (next :: rest)
  | notAhead {t : Terminal} {next : Token} {parts : List Tree} {rest : List Token}
    (h : t.accepts next = false) :
    Derives rules (.notAhead t) parts (next :: rest) parts (next :: rest)
  | seq {a b : Rule σ} {parts mid last : List Tree} {ts us vs : List Token}
    (first : Derives rules a parts ts mid us) (second : Derives rules b mid us last vs) :
    Derives rules (.seq a b) parts ts last vs
  | altLeft {a b : Rule σ} {parts last : List Tree} {ts us : List Token}
    (h : Derives rules a parts ts last us) : Derives rules (.alt a b) parts ts last us
  | altRight {a b : Rule σ} {parts last : List Tree} {ts us : List Token}
    (h : Derives rules b parts ts last us) : Derives rules (.alt a b) parts ts last us
  | manyStop {a : Rule σ} {parts : List Tree} {ts : List Token} :
    Derives rules (.many a) parts ts parts ts
  | manyStep {a : Rule σ} {parts mid last : List Tree} {ts us vs : List Token}
    (first : Derives rules a parts ts mid us) (later : Derives rules (.many a) mid us last vs) :
    Derives rules (.many a) parts ts last vs
  | ref {name : σ} {parts last : List Tree} {ts us : List Token}
    (hrun : ∃ fuel, run rules fuel (rules name) parts ts = .read last us)
    (h : Derives rules (rules name) parts ts last us) : Derives rules (.ref name) parts ts last us
  | node {kind : String} {a : Rule σ} {parts children : List Tree} {ts us : List Token}
    (h : Derives rules a [] ts children us) :
    Derives rules (.node kind a) parts ts (.node kind .plain children.reverse :: parts) us
  | grow {kind : String} {a : Rule σ} {parts children : List Tree} {ts us : List Token}
    (h : Derives rules a parts ts children us) :
    Derives rules (.grow kind a) parts ts [.node kind .plain children.reverse] us
  | apart {a : Rule σ} {parts more : List Tree} {ts us : List Token}
    (h : Derives rules a [] ts more us) : Derives rules (.apart a) parts ts (more ++ parts) us
  | role {r : Role} {a : Rule σ} {parts more : List Tree} {ts us : List Token}
    (h : Derives rules a [] ts more us) :
    Derives rules (.role r a) parts ts (more.map (Tree.withRole r) ++ parts) us
  | longer {size : Nat} {a : Rule σ} {parts more : List Tree} {ts us : List Token}
    (h : Derives rules a [] ts more us) (hsize : size < Tree.sizeOfParts more) :
    Derives rules (.longer size a) parts ts (more ++ parts) us

theorem derives_of_run {fuel : Nat} {rule : Rule σ} {parts last : List Tree} {ts us : List Token}
    (h : run rules fuel rule parts ts = .read last us) : Derives rules rule parts ts last us := by
  induction fuel generalizing rule parts last ts us with
  | zero => cases h
  | succ fuel ih =>
    cases rule with
    | empty =>
      obtain ⟨rfl, rfl⟩ : parts = last ∧ ts = us := by simpa [run] using h
      exact .empty
    | token t | leaf kind t =>
      cases ts with
      | nil => cases h
      | cons next rest =>
        simp only [run] at h
        split_ifs at h with haccepts
        obtain ⟨rfl, rfl⟩ := Reading.read.inj h
        constructor
        exact haccepts
    | half first second =>
      cases ts with
      | nil => cases h
      | cons next rest =>
        simp only [run] at h
        split_ifs at h with hsigns
        obtain ⟨rfl, rfl⟩ := Reading.read.inj h
        exact .half hsigns.1 hsigns.2
    | lineEnd =>
      cases ts with
      | nil => cases h
      | cons next rest =>
        cases hline : next.lineEnd with
        | none => simp [run, hline] at h
        | some offset =>
          obtain ⟨rfl, rfl⟩ : _ = last ∧ _ = us := by simpa [run, hline] using h
          exact .lineEnd hline
    | sameLine | newLine | ahead t =>
      cases ts with
      | nil => cases h
      | cons next rest =>
        simp only [run] at h
        split_ifs at h with htest
        obtain ⟨rfl, rfl⟩ := Reading.read.inj h
        constructor
        simpa using htest
    | notAhead t =>
      cases ts with
      | nil => cases h
      | cons next rest =>
        simp only [run] at h
        split_ifs at h with htest
        obtain ⟨rfl, rfl⟩ := Reading.read.inj h
        exact .notAhead (by simpa using htest)
    | seq a b =>
      obtain ⟨mid, vs, ha, hb⟩ := Reading.andThen_eq_read.mp h
      exact .seq (ih ha) (ih hb)
    | alt a b =>
      rcases Reading.orElse_eq_read.mp h with ha | ⟨-, hb⟩
      · exact .altLeft (ih ha)
      · exact .altRight (ih hb)
    | many a =>
      rcases Reading.orElse_eq_read.mp h with hstep | ⟨-, hstop⟩
      · obtain ⟨mid, vs, ha, hlater⟩ := Reading.andThen_eq_read.mp hstep
        exact .manyStep (ih ha) (ih hlater)
      · obtain ⟨rfl, rfl⟩ := Reading.read.inj hstop
        exact .manyStop
    | ref name => exact .ref ⟨fuel, h⟩ (ih h)
    | node kind a | grow kind a | apart a | role r a =>
      obtain ⟨more, vs, ha, hmore⟩ := Reading.andThen_eq_read.mp h
      obtain ⟨rfl, rfl⟩ := Reading.read.inj hmore
      constructor
      exact ih ha
    | longer size a =>
      obtain ⟨more, vs, ha, hmore⟩ := Reading.andThen_eq_read.mp h
      split_ifs at hmore with hsize
      obtain ⟨rfl, rfl⟩ := Reading.read.inj hmore
      exact .longer (ih ha) hsize

end Rule
end SentinelWrap.Go
