import SentinelWrap.Proofs.Go.Grammar.Outskirts

/-! How far expressions that may end a statement read. Outside of brackets a result reads no comma.
And an operand reads no dot after anything but a name, and nothing across a line break that follows
its first name; so where line breaks do not count, it reads the same. -/
namespace SentinelWrap.Go
open Grammar (closing)

/-- The parts of a result that is in no brackets, by what may stand before them. -/
inductive Part
  | operand
  | suffix
  /-- A type in front of an operand. -/
  | lead
  | type
  | bracketed
deriving DecidableEq

namespace Symbol

def part? : Symbol → Option Part
  | operand follow => if follow = closing then some .operand else none
  | suffix follow => if follow = closing then some .suffix else none
  | firmType lineEnd _ | softType lineEnd => if lineEnd then some .lead else none
  | type lineEnd | simpleType lineEnd | namedType lineEnd | result lineEnd =>
    if lineEnd then none else some .type
  | typeArguments | plainTypeArguments | parameters | fieldList | block | literalValue
  | arguments => some .bracketed
  | _ => none

/-- What a result is made of, as far as it is in no brackets. -/
def isResultPart : Symbol → Bool
  | expression follow | binary follow _ | unary follow | primary follow => follow = closing
  | name => name.part?.isSome

def relax : Symbol → Symbol
  | operand follow => operand { follow with lineEnd := false }
  | suffix follow => suffix { follow with lineEnd := false }
  | firmType _ plain => firmType false plain
  | softType _ => softType false
  | name => name

end Symbol

abbrev results : Outskirts Bool where
  relaxed := false
  other := id
  token sort _ := if sort = .comma then none else some true
  opens _ := true
  closed := true
  half _ := some false
  sameLine moved := if moved then some true else none
  newLine moved := if moved then some true else none
  ref name _ := if name.isResultPart then some true else none
  join moved moved' := some (moved && moved')

private theorem results_rule {name : Symbol} (h : name.isResultPart = true) (moved : Bool) :
    results.discipline.check name.rule (.outside moved) = some (.outside true) := by
  cases name with
  | expression follow | unary follow | primary follow =>
    obtain rfl : follow = closing := by simpa [Symbol.isResultPart] using h
    cases moved <;> rfl
  | binary follow level =>
    obtain rfl : follow = closing := by simpa [Symbol.isResultPart] using h
    match level with
    | 0 | 1 | 2 | 3 | 4 | 5 | _ + 6 => cases moved <;> rfl
  | operand follow | suffix follow =>
    obtain rfl : follow = closing := by simpa [Symbol.isResultPart, Symbol.part?] using h
    cases moved <;> rfl
  | firmType lineEnd plain =>
    obtain rfl : lineEnd = true := by simpa [Symbol.isResultPart, Symbol.part?] using h
    cases plain <;> cases moved <;> rfl
  | softType lineEnd =>
    obtain rfl : lineEnd = true := by simpa [Symbol.isResultPart, Symbol.part?] using h
    cases moved <;> rfl
  | type lineEnd | simpleType lineEnd | namedType lineEnd | result lineEnd =>
    obtain rfl : lineEnd = false := by simpa [Symbol.isResultPart, Symbol.part?] using h
    cases moved <;> rfl
  | typeArguments | plainTypeArguments | parameters | fieldList | block | literalValue
  | arguments => cases moved <;> rfl
  | _ => cases h

theorem Place.next_ne (place : Place) {sort : TokenSort} :
    place.next sort ≠ .start ∧ place.next sort ≠ .cut := by
  cases place <;> cases sort <;> decide

/-- Results stay in step where no wall stands before anything but a comma. -/
def resultsSound {T : Track} (hwall : ∀ place t ts, T.Wall ⟨0, place⟩ (t :: ts) → t.sort = .comma) :
    results.Sound T where
  means moved place _ := moved = true → place ≠ .start ∧ place ≠ .cut
  token {sort} {_} {_} {place} {t} {ts} h _ hsort := by
    obtain ⟨hcomma, -⟩ := Option.ite_none_left_eq_some.mp h
    refine ⟨fun hw => hcomma ?_, fun _ => place.next_ne⟩
    rw [← hsort, hwall place t ts hw]
  opens {_} {place} {t} {ts} _ _ hsort hw := by
    rw [hwall place t ts hw] at hsort
    cases hsort
  closed _ _ := by decide
  half {_} {_} {place} {t} {_} {ts} h _ hsort := by
    obtain rfl := Option.some.inj h
    refine ⟨fun hw => ?_, nofun⟩
    rw [hwall place t ts hw] at hsort
    cases hsort
  sameLine h hmeans := by
    obtain ⟨hmoved, -⟩ := Option.ite_none_right_eq_some.mp h
    exact ⟨(hmeans hmoved).1, fun _ _ => hmeans hmoved⟩
  newLine h hmeans := by
    obtain ⟨hmoved, -⟩ := Option.ite_none_right_eq_some.mp h
    exact ⟨(hmeans hmoved).1, fun _ => hmeans hmoved⟩
  unbroken h := nomatch h
  ref {_} {known} {_} h := by
    obtain ⟨hname, hknown⟩ := Option.ite_none_right_eq_some.mp h
    obtain rfl := Option.some.inj hknown
    exact ⟨results_rule hname known, (Rule.counterpart_self _).symm⟩
  joinLeft {x} {y} {_} {_} {_} h hmeans hz := by
    obtain rfl := Option.some.inj h
    exact hmeans (Bool.and_eq_true_iff.mp hz).1
  joinRight {x} {y} {_} {_} {_} h hmeans hz := by
    obtain rfl := Option.some.inj h
    exact hmeans (Bool.and_eq_true_iff.mp hz).2

/-- What is known about the place in an operand. -/
inductive Footing
  | start
  /-- Nothing but stars was read. -/
  | lead
  | name
  /-- After the first name, and perhaps stars before it. -/
  | leadName
  /-- There, and the next token stands on the same line. -/
  | joined
  | word
  | dot
  | bare
  /-- Anywhere in the middle, and no line break follows a first name. -/
  | middle
  /-- After a name and nothing else, or after the whole operand. -/
  | ended
deriving DecidableEq

namespace Footing

def next : TokenSort → Footing → Option Footing
  | .name, start => some name
  | .name, lead => some leadName
  | .star, start | .star, lead => some lead
  | _, name | _, leadName | _, ended => none
  | .name, joined | .name, word | .name, middle | .name, bare => some word
  | .dot, joined | .dot, word => some dot
  | .dot, middle | .dot, bare => none
  | _, _ => some bare

def opens : Footing → Bool
  | name | leadName | ended => false
  | _ => true

def sameLine : Footing → Option Footing
  | name | leadName | joined => some joined
  | _ => none

def newLine : Footing → Option Footing
  | name => some name
  | _ => none

def after : Part → Footing → Option Footing
  | .operand, start => some ended
  | .suffix, word => some bare
  | .lead, start | .lead, lead => some middle
  | .type, bare | .type, middle => some middle
  | .bracketed, joined | .bracketed, word | .bracketed, bare | .bracketed, middle => some bare
  | _, _ => none

def join : Footing → Footing → Option Footing
  | bare, name | name, bare | ended, name | name, ended | ended, bare | bare, ended => some ended
  | bare, middle | middle, bare | word, middle | middle, word | joined, middle | middle, joined
  | word, bare | bare, word | joined, bare | bare, joined | word, joined | joined, word =>
    some middle
  | x, y => if x = y then some x else none

def Holds : Footing → Place → List Token → Prop
  | start, place, _ => place = .start
  | lead, place, _ => place = .start ∨ place = .star
  | name, place, _ => place = .name
  | leadName, place, _ => place = .name ∨ place = .starName
  | joined, place, ts => (place = .name ∨ place = .starName) ∧ ∀ t ∈ ts.head?, t.lineEnd = none
  | word, place, _ => place = .word
  | dot, place, _ => place = .dot
  | bare, place, _ => place = .other
  | middle, place, ts => place = .word ∨ place = .other ∨
    (place = .name ∨ place = .starName) ∧ ∀ t ∈ ts.head?, t.lineEnd = none
  | ended, place, _ => place = .name ∨ place = .other

end Footing

abbrev operands (relaxed : Bool) : Outskirts Footing where
  relaxed := relaxed
  other := if relaxed then Symbol.relax else id
  token := Footing.next
  opens := Footing.opens
  closed := .bare
  half _ := none
  sameLine := Footing.sameLine
  newLine := Footing.newLine
  ref name footing := name.part?.bind (Footing.after · footing)
  join := Footing.join

private theorem operands_rule {relaxed : Bool} {name : Symbol} {footing footing' : Footing}
    (h : (operands relaxed).ref name footing = some footing') :
    (operands relaxed).discipline.check name.rule (.outside footing) = some (.outside footing') ∧
      ((operands relaxed).other name).rule =
        name.rule.counterpart relaxed (operands relaxed).other := by
  obtain ⟨part, hpart, hafter⟩ := Option.bind_eq_some_iff.mp h
  cases name with
  | operand follow | suffix follow =>
    obtain ⟨rfl, hpart⟩ := Option.ite_none_right_eq_some.mp hpart
    obtain rfl := Option.some.inj hpart
    cases footing <;> cases hafter
    cases relaxed <;> exact ⟨rfl, rfl⟩
  | firmType lineEnd plain =>
    obtain ⟨rfl, hpart⟩ := Option.ite_none_right_eq_some.mp hpart
    obtain rfl := Option.some.inj hpart
    cases footing <;> cases hafter <;> cases plain <;> cases relaxed <;> exact ⟨rfl, rfl⟩
  | softType lineEnd =>
    obtain ⟨rfl, hpart⟩ := Option.ite_none_right_eq_some.mp hpart
    obtain rfl := Option.some.inj hpart
    cases footing <;> cases hafter <;> cases relaxed <;> exact ⟨rfl, rfl⟩
  | type lineEnd | simpleType lineEnd | namedType lineEnd | result lineEnd =>
    cases lineEnd with
    | true => cases hpart
    | false =>
      obtain rfl := Option.some.inj hpart
      cases footing <;> cases hafter <;> cases relaxed <;> exact ⟨rfl, rfl⟩
  | typeArguments | plainTypeArguments | parameters | fieldList | block | literalValue
  | arguments =>
    obtain rfl := Option.some.inj hpart
    cases footing <;> cases hafter <;> cases relaxed <;> exact ⟨rfl, rfl⟩
  | _ => cases hpart

def IsOperandWall (place : Place) (t : Token) : Prop :=
  place = .other ∧ t.sort = .dot ∨ (place = .name ∨ place = .starName) ∧ t.lineEnd ≠ none

namespace Footing

theorem Holds.next {sort : TokenSort} {footing footing' : Footing} {place : Place} {t : Token}
    {ts : List Token} (h : footing.next sort = some footing')
    (hholds : footing.Holds place (t :: ts)) (hsort : t.sort = sort) :
    ¬IsOperandWall place t ∧ footing'.Holds (place.next sort) ts := by
  subst hsort
  unfold IsOperandWall
  cases footing <;> simp only [Holds] at hholds
  case name | leadName | ended => cases ht : t.sort <;> simp [ht, Footing.next] at h
  case lead =>
    rcases hholds with rfl | rfl <;> cases ht : t.sort <;> rw [ht] at h <;>
      cases h <;> simp [Holds, Place.next]
  case joined =>
    obtain ⟨hplace, hline⟩ := hholds
    have hline : t.lineEnd = none := hline t rfl
    rcases hplace with rfl | rfl <;> cases ht : t.sort <;> rw [ht] at h <;>
      cases h <;> simp [Holds, Place.next, hline]
  case middle =>
    rcases hholds with rfl | rfl | ⟨hplace, hline⟩
    · cases ht : t.sort <;> rw [ht] at h <;> cases h <;> simp [Holds, Place.next]
    · cases ht : t.sort <;> rw [ht] at h <;> cases h <;> simp [Holds, Place.next]
    · have hline : t.lineEnd = none := hline t rfl
      rcases hplace with rfl | rfl <;> cases ht : t.sort <;> rw [ht] at h <;>
        cases h <;> simp [Holds, Place.next, hline]
  all_goals
    subst hholds
    cases ht : t.sort <;> rw [ht] at h <;> cases h <;> simp [Holds, Place.next]

theorem Holds.opens {footing : Footing} {place : Place} {t : Token} {ts : List Token}
    (h : footing.opens = true) (hholds : footing.Holds place (t :: ts)) (hsort : t.sort = .opener) :
    ¬IsOperandWall place t := by
  unfold IsOperandWall
  cases footing <;> simp only [Holds] at hholds
  case name | leadName | ended => cases h
  case lead => rcases hholds with rfl | rfl <;> simp
  case joined => simp [hsort, hholds.2 t rfl]
  case middle =>
    rcases hholds with rfl | rfl | ⟨-, hline⟩
    · simp
    · simp [hsort]
    · simp [hsort, hline t rfl]
  all_goals
    subst hholds
    simp [hsort]

theorem Holds.join {x y z : Footing} {place : Place} {ts : List Token} (h : x.join y = some z) :
    (x.Holds place ts → z.Holds place ts) ∧ (y.Holds place ts → z.Holds place ts) := by
  cases x <;> cases y <;> cases h <;> simp +contextual [Holds]

end Footing

/-- Operands stay in step. Where the rules are relaxed, no line break may follow a first name. -/
def operandsSound {T : Track} {relaxed : Bool}
    (hwall : ∀ place t ts, T.Wall ⟨0, place⟩ (t :: ts) → IsOperandWall place t)
    (hline : relaxed = true → ∀ place i ts ts', T.Ahead ⟨0, place⟩ i ts ts' →
      place = .name ∨ place = .starName → ∃ t rest, ts = t :: rest ∧ t.lineEnd = none) :
    (operands relaxed).Sound T where
  means := Footing.Holds
  token {_} {_} {_} {place} {t} {ts} h hholds hsort := by
    obtain ⟨hfree, hnext⟩ := Footing.Holds.next h hholds hsort
    exact ⟨fun hw => hfree (hwall place t ts hw), hnext⟩
  opens {_} {place} {t} {ts} h hholds hsort hw :=
    Footing.Holds.opens h hholds hsort (hwall place t ts hw)
  closed _ := rfl
  half h := nomatch h
  sameLine {footing} {_} {_} {t} {_} h hholds := by
    cases footing <;> cases h <;> simp only [Footing.Holds] at hholds ⊢
    case name => subst hholds; simp
    case leadName => rcases hholds with rfl | rfl <;> simp
    case joined => rcases hholds.1 with rfl | rfl <;> simp
  newLine {footing} {_} {_} {_} {_} h hholds := by
    cases footing <;> cases h
    exact ⟨by rw [show _ = Place.name from hholds]; decide, hholds⟩
  unbroken {footing} {place} {i} {ts} {ts'} hrelaxed h hahead hholds := by
    refine hline hrelaxed place i ts ts' hahead ?_
    cases footing <;> simp_all [Footing.sameLine, Footing.newLine, Footing.Holds]
  ref := operands_rule
  joinLeft h := (Footing.Holds.join h).1
  joinRight h := (Footing.Holds.join h).2

end SentinelWrap.Go
