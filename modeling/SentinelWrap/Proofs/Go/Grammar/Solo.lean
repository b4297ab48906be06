import SentinelWrap.Proofs.Go.Grammar.Expression

/-! A run beside itself. What a discipline knows at the end of a rule is true of the tokens that the
rule has read. -/
namespace SentinelWrap.Go
open Grammar (closing)

namespace Spot

def after (s : Spot) : List Token → Spot
  | [] => s
  | t :: ts => (s.next t.sort).after ts

theorem after_append (s : Spot) (as bs : List Token) :
    s.after (as ++ bs) = (s.after as).after bs := by
  induction as generalizing s with
  | nil => rfl
  | cons a as ih => exact ih _

def isName : Spot → Bool
  | ⟨0, .name⟩ | ⟨0, .starName⟩ => true
  | _ => false

theorem isName_iff (place : Place) :
    isName ⟨0, place⟩ = true ↔ place = .name ∨ place = .starName := by
  cases place <;> simp [isName]

theorem depth_of_isName {s : Spot} (h : s.isName = true) : s.depth = 0 := by
  obtain ⟨depth, place⟩ := s
  cases depth with
  | zero => rfl
  | succ depth => cases h

/-- The second half of a token leads to where the whole does. -/
theorem half_next (s : Spot) : s.half.next .plain = s.next .plain := by
  obtain ⟨depth, place⟩ := s
  cases depth with
  | zero => cases place <;> rfl
  | succ depth => rfl

theorem half_isCut (s : Spot) : s.half.depth ≠ 0 ∨ s.half.place = .cut := by
  obtain ⟨depth, place⟩ := s
  cases depth with
  | zero => exact .inr rfl
  | succ depth => exact .inl nofun

/-- After an operand a token leads to where it leads after any name. -/
theorem next_word {place : Place} (h : place = .name ∨ place = .other) (sort : TokenSort) :
    next ⟨0, .word⟩ sort = next ⟨0, place⟩ sort := by
  rcases h with rfl | rfl <;> cases sort <;> rfl

/-- No line break follows a first name. -/
def Steady : Spot → List Token → Prop
  | _, [] => True
  | s, t :: ts => (s.isName = true → t.lineEnd = none) ∧ Steady (s.next t.sort) ts

theorem steady_append {s : Spot} {as bs : List Token} :
    s.Steady (as ++ bs) ↔ s.Steady as ∧ (s.after as).Steady bs := by
  induction as generalizing s with
  | nil => simp [Steady, after]
  | cons a as ih => simp only [List.cons_append, Steady, after, ih, and_assoc]

end Spot

theorem sort_secondHalf {t : Token} {first second : String} (hkind : t.kind = .sign)
    (hmem : (first, second) ∈ halves) : (t.secondHalf first second).sort = .plain := by
  simp only [Token.sort, Token.secondHalf, hkind]
  exact halves_cases hmem rfl rfl rfl rfl rfl

section Reached
variable (start : Spot) (tokens : List Token) (steady : Bool)

def Left (s : Spot) (ts : List Token) : Prop :=
  ∃ read, tokens = read ++ ts ∧ start.after read = s ∧ (steady = true → start.Steady read)

/-- Tokens that are left, the first of which may be what is left of one. -/
def Reached (s : Spot) (ts : List Token) : Prop :=
  Left start tokens steady s ts ∨ ∃ t rest, ts = t :: rest ∧
    Left start tokens steady (s.next t.sort) rest ∧ (s.depth ≠ 0 ∨ s.place = .cut)

variable {start tokens steady} {s : Spot} {t : Token} {ts : List Token}

theorem Reached.pass (h : Reached start tokens steady s (t :: ts))
    (hline : steady = true → s.isName = true → t.lineEnd = none) :
    Left start tokens steady (s.next t.sort) ts := by
  rcases h with ⟨read, heq, rfl, hsteady⟩ | ⟨u, rest, heq, hleft, -⟩
  · refine ⟨read ++ [t], by simpa using heq, start.after_append read [t], fun h => ?_⟩
    exact Spot.steady_append.mpr ⟨hsteady h, hline h, trivial⟩
  · obtain ⟨rfl, rfl⟩ := List.cons.inj heq
    exact hleft

theorem Left.reached_cons (u : Token) (h : Left start tokens steady (s.next u.sort) ts)
    (hcut : s.depth ≠ 0 ∨ s.place = .cut) : Reached start tokens steady s (u :: ts) :=
  .inr ⟨u, ts, rfl, h, hcut⟩

end Reached

open Lockstep

def solo (start : Spot) (tokens : List Token) (steady : Bool) : Track where
  Index := Unit
  slack := 0
  Read _ _ _ _ := True
  nil _ := trivial
  append _ _ := trivial
  role := by
    intros
    trivial
  Ahead s _ ts ts' := ts = ts' ∧ Reached start tokens steady s ts
  Wall s ts := steady = true ∧ s.isName = true ∧ ∃ t ∈ ts.head?, t.lineEnd ≠ none
  sameHead {_} {_} {ts} {_} h := by
    obtain ⟨rfl, -⟩ := h
    cases ts with
    | nil => exact .nil
    | cons t ts => exact .cons rfl rfl
  marks h _ := by rw [(List.cons.inj h.1).1]
  pass h hwall _ := by
    obtain ⟨heq, hreached⟩ := h
    obtain ⟨rfl, rfl⟩ := List.cons.inj heq
    refine ⟨(), ⟨rfl, .inl (hreached.pass fun hsteady hname => ?_)⟩, trivial⟩
    by_contra hline
    exact hwall ⟨hsteady, hname, _, rfl, hline⟩
  half {s} {_} {t} {_} {ts} {_} {first} {second} h hwall hkind htext hmem := by
    obtain ⟨heq, hreached⟩ := h
    obtain ⟨rfl, rfl⟩ := List.cons.inj heq
    have hleft := hreached.pass fun hsteady hname => by
      by_contra hline
      exact hwall ⟨hsteady, hname, _, rfl, hline⟩
    rw [Outskirts.Sound.sort_halves hkind htext hmem, ← s.half_next,
      ← sort_secondHalf hkind hmem] at hleft
    exact ⟨(), ⟨rfl, hleft.reached_cons _ s.half_isCut⟩, trivial⟩
  lineEnd {_} {_} {_} {t} {_} {_} {_} h := by
    obtain ⟨heq, hreached⟩ := h
    obtain ⟨rfl, rfl⟩ := List.cons.inj heq
    cases hline : t.lineEnd with
    | none => exact .inl ⟨rfl, rfl⟩
    | some offset =>
      have hleft := hreached.pass (fun _ hname => nomatch Spot.depth_of_isName hname)
      exact .inr ⟨offset, offset, (), rfl, rfl, ⟨rfl, hleft.reached_cons t.unmarked (.inl nofun)⟩, trivial⟩

theorem soloGuards (start : Spot) (tokens : List Token) (steady : Bool) :
    (solo start tokens steady).Guards where
  depth_eq_zero h := Spot.depth_of_isName h.2.1
  keeps _ := fun _ _ _ _ _ => trivial
  sameSize _ := by
    rintro i j ts _ us us' later later' n m ⟨place, rfl, -⟩ hrun hrun' -
    have hn := Rule.run_mono (Nat.le_max_left n m) (by rw [hrun]; nofun)
    have hm := Rule.run_mono (Nat.le_max_right n m) (by rw [hrun']; nofun)
    rw [hrun] at hn
    rw [hrun', hn] at hm
    obtain ⟨rfl, rfl⟩ := Reading.read.inj hm
    exact Iff.rfl
  returns ih := by
    refine Track.inStep_returns ?_ (fun _ _ _ _ _ => trivial) ih
    rintro s i t t' ts ts' ⟨heq, hreached⟩ hdepth hsort
    obtain ⟨rfl, rfl⟩ := List.cons.inj heq
    rw [← hsort]
    refine ⟨(), ⟨rfl, .inl (hreached.pass fun _ hname => ?_)⟩, trivial⟩
    exact absurd (Spot.depth_of_isName hname) hdepth

variable {fuel : Nat} {parts last : List Tree} {ts us : List Token}

theorem exists_reached {α : Type} [DecidableEq α] {O : Outskirts α} {place : Place} {steady : Bool}
    (hO : O.Sound (solo ⟨0, place⟩ ts steady)) {known known' : α} {a : Rule Symbol}
    (hcheck : O.discipline.check a (.outside known) = some (.outside known'))
    (hmeans : hO.means known place ts) (hrun : a.run Symbol.rule fuel parts ts = .read last us) :
    ∃ place', Reached ⟨0, place⟩ ts steady ⟨0, place'⟩ us ∧ hO.means known' place' us := by
  have hleft : Left ⟨0, place⟩ ts steady ⟨0, place⟩ ts := ⟨[], rfl, rfl, fun _ => trivial⟩
  have hpoint : hO.point (.outside known) () ts ts := ⟨place, ⟨rfl, .inl hleft⟩, hmeans⟩
  have hagree := hO.inStep (soloGuards _ ts steady) hcheck () ts ts hpoint fuel (Nat.le_refl _)
    parts parts
  rw [hrun] at hagree
  obtain ⟨_, _, _, -, ⟨place', ⟨-, hreached⟩, hmeans'⟩, -⟩ := hagree
  exact ⟨place', hreached, hmeans'⟩

theorem Reached.left {start : Spot} {tokens : List Token} {steady : Bool} {place : Place}
    (h : Reached start tokens steady ⟨0, place⟩ us) (hplace : place ≠ .cut) :
    Left start tokens steady ⟨0, place⟩ us := by
  rcases h with hleft | ⟨_, _, -, -, hdepth | hcut⟩
  · exact hleft
  · exact absurd rfl hdepth
  · exact absurd hcut hplace

/-- A result is read as a row of tokens that closes its brackets. -/
theorem exists_read_expression
    (h : Rule.run Symbol.rule fuel (.ref (.expression closing)) parts ts = .read last us) :
    ∃ read, ts = read ++ us ∧ read ≠ [] ∧ ∃ place, Spot.after ⟨0, .start⟩ read = ⟨0, place⟩ := by
  have hwall (place : Place) (t : Token) (rest : List Token)
      (hw : (solo ⟨0, .start⟩ ts false).Wall ⟨0, place⟩ (t :: rest)) : t.sort = .comma := by cases hw.1
  have hcheck : results.discipline.check (.ref (.expression closing)) (.outside false) =
    some (.outside true) := rfl
  obtain ⟨place, hreached, hmeans⟩ := exists_reached (resultsSound hwall) hcheck (by rintro ⟨⟩) h
  have hplace : place ≠ .start ∧ place ≠ .cut := hmeans rfl
  obtain ⟨read, heq, hspot, -⟩ := hreached.left hplace.2
  refine ⟨read, heq, ?_, place, hspot⟩
  rintro rfl
  exact hplace.1 (congrArg Spot.place hspot).symm

/-- Beside itself an operand keeps off the line break after a first name. -/
def soloOperands (start : Spot) (tokens : List Token) :
    (operands false).Sound (solo start tokens true) := by
  refine operandsSound (fun place t rest hw => ?_) nofun
  obtain ⟨-, hname, u, hu, hline⟩ := hw
  obtain rfl : t = u := Option.some.inj hu
  exact .inr ⟨(Spot.isName_iff place).mp hname, hline⟩

/-- An operand is read as a row of tokens, a single name or more. No line break follows a first
name. -/
theorem exists_read_operand
    (h : Rule.run Symbol.rule fuel (.ref (.operand closing)) parts ts = .read last us) :
    ∃ read, ts = read ++ us ∧ Spot.Steady ⟨0, .start⟩ read ∧
      (Spot.after ⟨0, .start⟩ read = ⟨0, .name⟩ ∨ Spot.after ⟨0, .start⟩ read = ⟨0, .other⟩) := by
  have hcheck : (operands false).discipline.check (.ref (.operand closing)) (.outside .start) =
    some (.outside .ended) := rfl
  obtain ⟨place, hreached, hmeans⟩ := exists_reached (soloOperands _ ts) hcheck rfl h
  have hplace : place = .name ∨ place = .other := hmeans
  obtain ⟨read, heq, hspot, hsteady⟩ := hreached.left (by rcases hplace with rfl | rfl <;> nofun)
  refine ⟨read, heq, hsteady rfl, ?_⟩
  rcases hplace with rfl | rfl
  · exact .inl hspot
  · exact .inr hspot

theorem exists_read_suffix
    (h : Rule.run Symbol.rule fuel (.ref (.suffix closing)) parts ts = .read last us) :
    ∃ read, ts = read ++ us ∧ Spot.after ⟨0, .word⟩ read = ⟨0, .other⟩ := by
  have hcheck : (operands false).discipline.check (.ref (.suffix closing)) (.outside .word) =
    some (.outside .bare) := rfl
  obtain ⟨place, hreached, hmeans⟩ := exists_reached (soloOperands _ ts) hcheck rfl h
  obtain rfl : place = .other := hmeans
  obtain ⟨read, heq, hspot, -⟩ := hreached.left nofun
  exact ⟨read, heq, hspot⟩

end SentinelWrap.Go
