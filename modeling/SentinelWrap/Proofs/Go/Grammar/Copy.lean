import SentinelWrap.Proofs.Go.Grammar.Extent
import SentinelWrap.Proofs.Go.Grammar.Solo
import SentinelWrap.Proofs.Go.Token.Relex

/-! Expressions that are copied to another place. What follows the copy may be anything that begins
with the same token. -/
namespace SentinelWrap.Go
open Grammar (closing)
open Token (endOf startOf)

section
variable {k k' : Nat}

theorem MarkCopied.isSome {mark mark' : Option Nat} (h : MarkCopied k k' mark mark') :
    mark.isSome = mark'.isSome := by
  cases mark <;> cases mark' <;> first | rfl | cases h

theorem Token.Copied.firstHalf {t t' : Token} (h : t.Copied k k' t') (first : String) :
    (t.firstHalf first).Copied k k' (t'.firstHalf first) where
  kind := h.kind
  text := rfl
  start := h.start
  stop := by
    have := h.start
    simp only [Token.firstHalf]
    omega

theorem Token.Copied.secondHalf {t t' : Token} (h : t.Copied k k' t') (first second : String) :
    (t.secondHalf first second).Copied k k' (t'.secondHalf first second) where
  kind := h.kind
  text := rfl
  start := by
    have := h.start
    simp only [Token.secondHalf]
    omega
  stop := h.stop

theorem copied_lineBreak {offset offset' : Nat} (h : offset + k' = offset' + k) :
    (Token.lineBreak offset).Copied k k' (.lineBreak offset') where
  kind := rfl
  text := rfl
  start := h
  stop := by
    simp only [Token.lineBreak]
    omega

private theorem startOf_copied {as as' : List Token} (h : List.Forall₂ (Token.Copied k k') as as')
    (hne : as ≠ []) : startOf as + k' = startOf as' + k := by
  cases h with
  | nil => contradiction
  | cons hfirst _ => exact hfirst.start

private theorem endOf_copied {as as' : List Token} (h : List.Forall₂ (Token.Copied k k') as as')
    {lo lo' : Nat} (hlo : lo + k' = lo' + k) : endOf lo as + k' = endOf lo' as' + k := by
  induction h generalizing lo lo' with
  | nil => exact hlo
  | cons hfirst _ ih => exact ih hfirst.stop

/-- Tokens that are copied from a spot on. At the start line breaks do not count; if they are to be
steady, none follows a first name. -/
def CopiedFrom (k k' : Nat) (steady : Bool) : Spot → List Token → List Token → Prop
  | _, [], [] => True
  | s, t :: ts, t' :: ts' => t.Copied k k' t' ∧
    (s ≠ ⟨0, .start⟩ → MarkCopied k k' t.lineEnd t'.lineEnd) ∧
    (steady = true → s.isName = true → t.lineEnd = none) ∧
    CopiedFrom k k' steady (s.next t.sort) ts ts'
  | _, _, _ => False

end

open Lockstep

section
variable (k k' : Nat) (steady : Bool) (place : Place) (rest rest' : List Token)

def CopyAhead (s : Spot) (ts ts' : List Token) : Prop :=
  ∃ as as', ts = as ++ rest ∧ ts' = as' ++ rest' ∧ CopiedFrom k k' steady s as as' ∧
    s.after as = ⟨0, place⟩

variable {k k' steady place rest rest'} {s : Spot} {t t' : Token} {ts ts' : List Token}

theorem CopyAhead.cons (h : CopyAhead k k' steady place rest rest' s (t :: ts) (t' :: ts'))
    (hrest : ¬(s = ⟨0, place⟩ ∧ t :: ts = rest)) :
    t.Copied k k' t' ∧ (s ≠ ⟨0, .start⟩ → MarkCopied k k' t.lineEnd t'.lineEnd) ∧
      (steady = true → s.isName = true → t.lineEnd = none) ∧
      CopyAhead k k' steady place rest rest' (s.next t.sort) ts ts' := by
  obtain ⟨as, as', heq, heq', hcopied, hafter⟩ := h
  cases as with
  | nil => exact absurd ⟨hafter, heq⟩ hrest
  | cons a as =>
    cases as' with
    | nil => exact hcopied.elim
    | cons a' as' =>
      obtain ⟨rfl, rfl⟩ := List.cons.inj heq
      obtain ⟨rfl, rfl⟩ := List.cons.inj heq'
      obtain ⟨hfirst, hmark, hsteady, hlater⟩ := hcopied
      exact ⟨hfirst, hmark, hsteady, as, as', rfl, rfl, hlater, hafter⟩

theorem CopyAhead.mk_cons {u u' : Token} (hcopied : u.Copied k k' u')
    (hmark : s ≠ ⟨0, .start⟩ → MarkCopied k k' u.lineEnd u'.lineEnd)
    (hsteady : steady = true → s.isName = true → u.lineEnd = none)
    (h : CopyAhead k k' steady place rest rest' (s.next u.sort) ts ts') :
    CopyAhead k k' steady place rest rest' s (u :: ts) (u' :: ts') := by
  obtain ⟨as, as', rfl, rfl, hlater, hafter⟩ := h
  exact ⟨u :: as, u' :: as', rfl, rfl, ⟨hcopied, hmark, hsteady, hlater⟩, hafter⟩

/-- Where the rest begins on one side, it does so on the other. -/
theorem CopyAhead.eq_rest (h : CopyAhead k k' steady place rest rest' s rest ts') : ts' = rest' := by
  obtain ⟨as, as', heq, heq', hcopied, -⟩ := h
  obtain rfl : as = [] := List.append_left_eq_self.mp heq.symm
  cases as' with
  | nil => exact heq'
  | cons a' as' => exact hcopied.elim

end

theorem yield_eq_append (parts : List Tree) (ts : List Token) :
    yield parts ts = yield parts [] ++ ts := by
  simp [yield]

/-- What follows a copied text on both sides. -/
structure Rests (place : Place) where
  rest : List Token
  rest' : List Token
  sameHead : SameHead rest rest'
  marks {t t' : Token} : t ∈ rest.head? → t' ∈ rest'.head? → t.lineEnd.isSome = t'.lineEnd.isSome

def copyTrack (k k' : Nat) (steady : Bool) {place : Place} (R : Rests place) : Track where
  Index := Unit
  slack := 0
  Read _ _ parts parts' := parts.map Tree.bare = parts'.map Tree.bare ∧
    List.Forall₂ (Token.Copied k k') (yield parts []) (yield parts' [])
  nil _ := ⟨rfl, .nil⟩
  append {_} {_} {_} {more} {more'} {later} {later'} h hlater := by
    refine ⟨by rw [List.map_append, List.map_append, h.1, hlater.1], ?_⟩
    rw [yield_append, yield_append, yield_eq_append, yield_eq_append more']
    exact List.rel_append h.2 hlater.2
  role {_} {_} role {more} {more'} h := by
    refine ⟨?_, by rw [yield_map_withRole, yield_map_withRole]; exact h.2⟩
    have hbare (ts : List Tree) :
        (ts.map (Tree.withRole role)).map Tree.bare = (ts.map Tree.bare).map (Tree.withRole role) := by
      simp
    rw [hbare, hbare, h.1]
  Ahead s _ := CopyAhead k k' steady place R.rest R.rest' s
  Wall s ts := s = ⟨0, place⟩ ∧ ts = R.rest
  sameHead h := by
    obtain ⟨as, as', rfl, rfl, hcopied, -⟩ := h
    cases as <;> cases as' <;> try exact hcopied.elim
    · exact R.sameHead
    · exact .cons hcopied.1.kind hcopied.1.text
  marks h hstart := by
    obtain ⟨as, as', heq, heq', hcopied, -⟩ := h
    cases as <;> cases as' <;> try exact hcopied.elim
    · exact R.marks (by rw [← List.nil_append R.rest, ← heq]; rfl)
        (by rw [← List.nil_append R.rest', ← heq']; rfl)
    · obtain ⟨rfl, -⟩ := List.cons.inj heq
      obtain ⟨rfl, -⟩ := List.cons.inj heq'
      exact (hcopied.2.1 hstart).isSome
  pass h hwall _ := by
    obtain ⟨hcopied, -, -, hlater⟩ := h.cons hwall
    exact ⟨(), hlater, by simp [Token.bare, hcopied.kind, hcopied.text], .cons hcopied .nil⟩
  half {s} {_} {_} {_} {_} {_} {first} {second} h hwall hkind htext hmem := by
    obtain ⟨hcopied, -, -, hlater⟩ := h.cons hwall
    rw [Outskirts.Sound.sort_halves hkind htext hmem, ← s.half_next,
      ← sort_secondHalf hkind hmem] at hlater
    have hahead := CopyAhead.mk_cons (hcopied.secondHalf first second) (fun _ => trivial)
      (fun _ _ => rfl) hlater
    refine ⟨(), hahead, ?_, .cons (hcopied.firstHalf first) .nil⟩
    simp [Token.bare, Token.firstHalf, hcopied.kind]
  lineEnd {_} {_} {_} {t} {t'} {_} {_} h := by
    obtain ⟨hcopied, hmark, -, hlater⟩ := h.cons nofun
    have hmark := hmark nofun
    cases hline : t.lineEnd <;> cases hline' : t'.lineEnd <;> rw [hline, hline'] at hmark
    case none.none => exact .inl ⟨rfl, rfl⟩
    case some.some offset offset' =>
      have hunmarked : t.unmarked.Copied k k' t'.unmarked :=
        ⟨hcopied.kind, hcopied.text, hcopied.start, hcopied.stop⟩
      have hahead := CopyAhead.mk_cons hunmarked (fun _ => trivial) (fun _ _ => rfl) hlater
      exact .inr ⟨offset, offset', (), rfl, rfl, hahead, rfl, .cons (copied_lineBreak hmark) .nil⟩
    all_goals exact hmark.elim

theorem extent_copied {k k' : Nat} {as as' : List Token}
    (h : List.Forall₂ (Token.Copied k k') as as') :
    endOf 0 as - startOf as = endOf 0 as' - startOf as' := by
  by_cases hne : as = []
  · subst hne
    cases h
    rfl
  · have hne' : as' ≠ [] := by
      rintro rfl
      cases h
      contradiction
    have hstart := startOf_copied h hne
    have hend := endOf_copied h (Nat.add_comm k k')
    have hlo : endOf 0 as = endOf k as := Token.endOf_append_of_ne hne 0 k []
    have hlo' : endOf 0 as' = endOf k' as' := Token.endOf_append_of_ne hne' 0 k' []
    omega

/-- The trees that a named rule reads are full. -/
theorem full_of_run {name : Symbol} {fuel : Nat} {last : List Tree} {ts us : List Token}
    (h : Rule.run Symbol.rule fuel (.ref name) [] ts = .read last us) : ∀ t ∈ last, t.Full :=
  (Rule.derives_of_run h).full_of_nil Grammar.grounded_rule rfl

theorem copyTrack_keeps {k k' : Nat} {steady : Bool} {place : Place} {R : Rests place}
    (kind : String) : (copyTrack k k' steady R).Keeps kind := by
  rintro i j children children' ⟨hbare, htokens⟩
  refine ⟨?_, ?_⟩
  · simp only [List.map_cons, Tree.bare_node, List.map_reverse, hbare, List.map_nil]
  · simpa [yield] using htokens

theorem copyGuards (k k' : Nat) (steady : Bool) {place : Place} (R : Rests place) :
    (copyTrack k k' steady R).Guards where
  depth_eq_zero h := by rw [h.1]
  keeps _ := copyTrack_keeps _
  sameSize _ := by
    rintro i j ts ts' us us' later later' n m - hrun hrun' ⟨-, htokens⟩
    rw [Tree.sizeOfParts_eq (full_of_run hrun), Tree.sizeOfParts_eq (full_of_run hrun'),
      extent_copied htokens]
  returns ih := by
    refine Track.inStep_returns ?_ (copyTrack_keeps _) ih
    intro s i t t' ts ts' hahead hdepth hsort
    obtain ⟨hcopied, -, -, hlater⟩ := CopyAhead.cons hahead (fun h => hdepth (by rw [h.1]))
    rw [hsort] at hlater
    exact ⟨(), hlater, by simp [Token.bare, hcopied.kind, hcopied.text], .cons hcopied .nil⟩

section
variable {k k' fuel more : Nat} {place : Place} {as as' rest rest' ts ts' us : List Token}
  {parts parts' last : List Tree}

/-- A copy of a result in front of a comma is read alike. -/
theorem exists_run_expression {R : Rests place}
    (hcomma : ∀ t ∈ R.rest.head?, t.sort = .comma)
    (hcopied : CopiedFrom k k' false ⟨0, .start⟩ as as')
    (hafter : Spot.after ⟨0, .start⟩ as = ⟨0, place⟩)
    (h : Rule.run Symbol.rule fuel (.ref (.expression closing)) [] (as ++ R.rest) =
      .read last R.rest) (hmore : fuel ≤ more) :
    ∃ last', Rule.run Symbol.rule more (.ref (.expression closing)) [] (as' ++ R.rest') =
        .read last' R.rest' ∧ last.map Tree.bare = last'.map Tree.bare := by
  have hwall (place' : Place) (t : Token) (ts : List Token)
      (hw : (copyTrack k k' false R).Wall ⟨0, place'⟩ (t :: ts)) : t.sort = .comma :=
    hcomma t (by rw [← hw.2]; rfl)
  have hcheck : results.discipline.check (.ref (.expression closing)) (.outside false) =
    some (.outside true) := rfl
  have hahead : CopyAhead k k' false place R.rest R.rest' ⟨0, .start⟩ (as ++ R.rest) (as' ++ R.rest') :=
    ⟨as, as', rfl, rfl, hcopied, hafter⟩
  have hagree := (resultsSound hwall).inStep (copyGuards k k' false R) hcheck () _ _
    ⟨.start, hahead, by rintro ⟨⟩⟩ more hmore [] []
  rw [h, Rule.counterpart_self] at hagree
  obtain ⟨_, last', ts', hrun, ⟨_, hexit, -⟩, hread⟩ := hagree
  obtain rfl : ts' = R.rest' := CopyAhead.eq_rest hexit
  exact ⟨last', hrun, (hread () ⟨rfl, .nil⟩).1⟩

/-- In front of a dot that follows no name, operands keep off the rest. -/
def copyOperands (k k' : Nat) (R : Rests .other) (hdot : ∀ t ∈ R.rest.head?, t.sort = .dot) :
    (operands true).Sound (copyTrack k k' true R) := by
  refine operandsSound (fun place t ts hw => ?_) fun _ place i ts ts' hahead hname => ?_
  · exact .inl ⟨congrArg Spot.place hw.1, hdot t (by rw [← hw.2]; rfl)⟩
  · obtain ⟨as, as', rfl, -, hcopied, hafter⟩ := hahead
    cases as with
    | nil => rcases hname with rfl | rfl <;> cases hafter
    | cons a as =>
      cases as' with
      | nil => exact hcopied.elim
      | cons a' as' => exact ⟨a, _, rfl, hcopied.2.2.1 rfl ((Spot.isName_iff place).mpr hname)⟩

/-- A copy of a part of an operand is read alike where line breaks end no statement. -/
theorem exists_run_part {R : Rests .other} (hdot : ∀ t ∈ R.rest.head?, t.sort = .dot)
    {name : Symbol} {footing footing' : Footing}
    (hname : (operands true).ref name footing = some footing') (hholds : footing.Holds place ts)
    (hahead : CopyAhead k k' true .other R.rest R.rest' ⟨0, place⟩ ts ts')
    (hread : (copyTrack k k' true R).Read () () parts parts')
    (h : Rule.run Symbol.rule fuel (.ref name) parts ts = .read last us) (hmore : fuel ≤ more) :
    ∃ last' us' place', Rule.run Symbol.rule more (.ref name.relax) parts' ts' = .read last' us' ∧
      (copyTrack k k' true R).Read () () last last' ∧
      CopyAhead k k' true .other R.rest R.rest' ⟨0, place'⟩ us us' ∧ footing'.Holds place' us := by
  have hcheck : (operands true).discipline.check (.ref name) (.outside footing) =
      some (.outside footing') := congrArg (Option.map Stance.outside) hname
  have hagree := (copyOperands k k' R hdot).inStep (copyGuards k k' true R) hcheck () _ _
    ⟨place, hahead, hholds⟩ more hmore parts parts'
  rw [h] at hagree
  obtain ⟨_, last', us', hrun, ⟨place', hexit, hholds'⟩, hlater⟩ := hagree
  exact ⟨last', us', place', hrun, hlater () hread, hexit, hholds'⟩

/-- After a part of an operand a suffix may follow. -/
theorem CopyAhead.toWord {R : Rests .other}
    (h : CopyAhead k k' true .other R.rest R.rest' ⟨0, place⟩ ts ts')
    (hplace : place = .name ∨ place = .other) (hne : ts ≠ R.rest) :
    CopyAhead k k' true .other R.rest R.rest' ⟨0, .word⟩ ts ts' := by
  obtain ⟨as, as', rfl, rfl, hcopied, hafter⟩ := h
  cases as with
  | nil => exact absurd rfl hne
  | cons a as =>
    cases as' with
    | nil => exact hcopied.elim
    | cons a' as' =>
      obtain ⟨hfirst, hmark, -, hlater⟩ := hcopied
      have hnext := Spot.next_word hplace a.sort
      refine ⟨a :: as, a' :: as', rfl, rfl, ⟨hfirst, fun _ => hmark ?_, nofun, ?_⟩, ?_⟩
      · rcases hplace with rfl | rfl <;> nofun
      · rwa [hnext]
      · rwa [Spot.after, hnext]

end
end SentinelWrap.Go
