import SentinelWrap.Proofs.Go.Grammar.Copy
import SentinelWrap.Proofs.Go.Grammar.Result
import SentinelWrap.Proofs.Lists

/-! A name, or a member of whatever operand, that is copied into the arguments of a call. -/
namespace SentinelWrap.Go
open Grammar (closing)

namespace Spot

/-- No first name is read any more. -/
def Settled (s : Spot) : Prop :=
  s.depth ≠ 0 ∨ s.place = .word ∨ s.place = .dot ∨ s.place = .cut ∨ s.place = .other

private theorem settled_next {s : Spot} (h : s.place ≠ .start ∧ s.place ≠ .star)
    (sort : TokenSort) :
    (s.next sort).Settled := by
  obtain ⟨depth, place⟩ := s
  cases depth with
  | zero => cases place <;> cases sort <;> simp_all [Settled, next, Place.next]
  | succ depth => cases sort <;> simp [Settled, next]

theorem Settled.next {s : Spot} (h : s.Settled) (sort : TokenSort) : (s.next sort).Settled := by
  obtain ⟨depth, place⟩ := s
  cases depth with
  | zero => cases place <;> cases sort <;> simp_all [Settled, Spot.next, Place.next]
  | succ depth => cases sort <;> simp [Settled, Spot.next]

theorem Settled.isName {s : Spot} (h : s.Settled) : s.isName = false := by
  obtain ⟨depth, place⟩ := s
  cases depth with
  | zero => cases place <;> simp_all [Settled, Spot.isName]
  | succ depth => rfl

theorem Settled.steady {s : Spot} (h : s.Settled) (ts : List Token) : s.Steady ts := by
  induction ts generalizing s with
  | nil => trivial
  | cons t ts ih =>
    refine ⟨fun hname => ?_, ih (h.next _)⟩
    rw [h.isName] at hname
    cases hname

private theorem place_next_ne {s : Spot} (h : s.place ≠ .start) (sort : TokenSort) :
    (s.next sort).place ≠ .start ∧ (s.next sort).place ≠ .name := by
  obtain ⟨depth, place⟩ := s
  cases depth with
  | zero => cases place <;> cases sort <;> simp_all [next, Place.next]
  | succ depth => cases sort <;> simp [next]

private theorem place_after_ne {s : Spot} (h : s.place ≠ .start) {ts : List Token} (hne : ts ≠ []) :
    (s.after ts).place ≠ .name := by
  induction ts generalizing s with
  | nil => contradiction
  | cons t ts ih =>
    obtain ⟨hstart, hname⟩ := place_next_ne h t.sort
    cases ts with
    | nil => exact hname
    | cons u ts => exact ih hstart (by simp)

/-- Only a single name ends right after a first name. -/
theorem eq_singleton_of_after {ts : List Token} (h : after ⟨0, .start⟩ ts = ⟨0, .name⟩) :
    ∃ t, ts = [t] ∧ t.sort = .name := by
  cases ts with
  | nil => cases h
  | cons t ts =>
    by_cases hts : ts = []
    · subst hts
      refine ⟨t, rfl, ?_⟩
      simp only [after] at h
      cases hsort : t.sort <;> rw [hsort] at h <;> first | rfl | cases h
    · have hstart : (next ⟨0, .start⟩ t.sort).place ≠ .start := by
        cases t.sort <;> simp [next, Place.next]
      exact absurd (congrArg place h) (place_after_ne hstart hts)

/-- The spot after suffixes that follow an operand, none of them on a line of its own. -/
theorem after_suffix {place : Place} (hplace : place = .name ∨ place = .other) {t : Token}
    {ts : List Token} (hline : t.lineEnd = none) (h : after ⟨0, .word⟩ (t :: ts) = ⟨0, .other⟩) :
    after ⟨0, place⟩ (t :: ts) = ⟨0, .other⟩ ∧ Steady ⟨0, place⟩ (t :: ts) := by
  rw [after, next_word hplace] at h
  refine ⟨h, fun _ => hline, (settled_next ?_ t.sort).steady ts⟩
  rcases hplace with rfl | rfl <;> decide

end Spot

def Token.unmarkHead : List Token → List Token
  | [] => []
  | t :: ts => t.unmarked :: ts

variable {k k' : Nat} {as as' : List Token}

theorem copiedFrom_of_moved {steady : Bool} {s : Spot}
    (h : List.Forall₂ (Token.Moved k k') as as') (hsteady : steady = true → s.Steady as) :
    CopiedFrom k k' steady s as as' := by
  induction h generalizing s with
  | nil => trivial
  | cons hfirst _ ih =>
    exact ⟨hfirst.1, fun _ => hfirst.2, fun h => (hsteady h).1, ih fun h => (hsteady h).2⟩

/-- In a copy the line break before the first token does not count. -/
theorem copiedFrom_start {steady : Bool} (h : List.Forall₂ (Token.Moved k k') (Token.unmarkHead as) as')
    (hsteady : steady = true → Spot.Steady ⟨0, .start⟩ as) :
    CopiedFrom k k' steady ⟨0, .start⟩ as as' := by
  cases as with
  | nil =>
    cases h
    trivial
  | cons a as =>
    cases h with
    | cons hfirst hrest =>
      refine ⟨⟨hfirst.1.kind, hfirst.1.text, hfirst.1.start, hfirst.1.stop⟩, nofun, nofun, ?_⟩
      exact copiedFrom_of_moved hrest fun h => (hsteady h).2

theorem Token.unmarkHead_append {as : List Token} (h : as ≠ []) (bs : List Token) :
    Token.unmarkHead (as ++ bs) = Token.unmarkHead as ++ bs := by
  cases as with
  | nil => contradiction
  | cons a as => rfl

namespace Grammar
open Rule Lockstep

variable {parts parts' last : List Tree} {ts ts' us : List Token} {place : Place}

theorem Suffixes.exists_read (h : Suffixes parts ts last us)
    (hplace : place = .name ∨ place = .other) :
    ∃ read, ts = read ++ us ∧ Spot.Steady ⟨0, place⟩ read ∧
      (read = [] ∧ last = parts ∨ Spot.after ⟨0, place⟩ read = ⟨0, .other⟩) := by
  induction h with
  | nil => exact ⟨[], rfl, trivial, .inl ⟨rfl, rfl⟩⟩
  | @snoc mid last t ts us vs fuel _ hline hrun ih =>
    obtain ⟨earlier, rfl, hsteady, hspot⟩ := ih
    obtain ⟨read, heq, hafter⟩ := exists_read_suffix hrun
    cases read with
    | nil => cases hafter
    | cons u read =>
      obtain ⟨rfl, rfl⟩ := List.cons.inj heq
      have hlast : ∃ place', (place' = .name ∨ place' = .other) ∧
          Spot.after ⟨0, place⟩ earlier = ⟨0, place'⟩ := by
        rcases hspot with ⟨rfl, -⟩ | hspot
        · exact ⟨place, hplace, rfl⟩
        · exact ⟨.other, .inr rfl, hspot⟩
      obtain ⟨place', hplace', hspot⟩ := hlast
      obtain ⟨hafter', hsteady'⟩ := Spot.after_suffix hplace' hline hafter
      refine ⟨earlier ++ t :: read, by simp, ?_, .inr ?_⟩
      · rw [Spot.steady_append, hspot]
        exact ⟨hsteady, hsteady'⟩
      · rw [Spot.after_append, hspot, hafter']

/-- A copy of the suffixes is read alike where line breaks end no statement. -/
theorem Suffixes.copy {R : Rests .other} (hdot : ∀ t ∈ R.rest.head?, t.sort = .dot)
    (h : Suffixes parts ts last us) (hus : R.rest <:+ us) (hplace : place = .name ∨ place = .other)
    (hahead : CopyAhead k k' true .other R.rest R.rest' ⟨0, place⟩ ts ts')
    (hread : (copyTrack k k' true R).Read () () parts parts') :
    ∃ last' us', (copyTrack k k' true R).Read () () last last' ∧
      (∃ place', (place' = .name ∨ place' = .other) ∧
        CopyAhead k k' true .other R.rest R.rest' ⟨0, place'⟩ us us') ∧
      ∀ final vs, Ends Symbol.rule (.many (suffixTail .inside)) last' us' (.read final vs) →
        Ends Symbol.rule (.many (suffixTail .inside)) parts' ts' (.read final vs) := by
  induction h with
  | nil => exact ⟨parts', ts', hread, ⟨place, hplace, hahead⟩, fun _ _ h => h⟩
  | @snoc mid last t ts us vs fuel _ hline hrun ih =>
    obtain ⟨read, heq, hafter⟩ := exists_read_suffix hrun
    have hne : read ≠ [] := by
      rintro rfl
      cases hafter
    obtain ⟨left, rfl⟩ := hus
    obtain ⟨mid', us', hmid, ⟨place', hplace', hahead'⟩, hmany⟩ :=
      ih ⟨read ++ left, by rw [heq, List.append_assoc]⟩ hahead
    have hlonger : t :: us ≠ R.rest := by
      intro hrest
      have := congrArg List.length (heq.symm.trans hrest)
      have := List.length_pos_iff.mpr hne
      simp only [List.length_append] at *
      omega
    have hpart : (operands true).ref (.suffix closing) .word = some .bare := rfl
    obtain ⟨last', vs', place'', hrun', hlast, hahead'', hholds⟩ := exists_run_part hdot hpart rfl
      (hahead'.toWord hplace' hlonger) hmid hrun (Nat.le_refl fuel)
    refine ⟨last', vs', hlast, ⟨place'', .inr hholds, hahead''⟩, fun final ws hlater => ?_⟩
    exact hmany final ws (.manyStep (ends_empty.seq (ends_of_run hrun' nofun)) hlater)

theorem sort_eq_name_iff {t : Token} :
    t.sort = .name ↔ t.kind = .word ∧ keywords.contains t.text = false := by
  unfold Token.sort
  split
  · rename_i hkind
    simp only [hkind, reduceCtorEq, false_and, iff_false]
    unfold TokenSort.ofSign
    split <;> nofun
  · rename_i hkind
    rw [TokenSort.ofWord]
    cases keywords.contains t.text <;> simp [hkind]
  · rename_i hsign hword
    exact ⟨nofun, fun h => absurd h.1 hword⟩

private theorem wordKind_of_name {text : String} (h : valueWords.contains text = false) :
    wordKind text = "identifier" := by
  simp only [valueWords, List.contains_eq_mem, List.mem_cons, List.not_mem_nil, or_false, not_or,
    decide_eq_false_iff_not] at h
  simp [wordKind, h]

/-- An allocator that is read alone is a word. -/
theorem allocation_eq_leaf {t : Token} {Y : Tree}
    (h : Derives Symbol.rule (allocation closing) [] (t :: ts) [Y] ts) :
    ((Terminal.word "new").accepts t = true ∨ (Terminal.word "make").accepts t = true) ∧
      Y = .node "identifier" .plain [.token t] := by
  generalize hlast : [Y] = last at h
  cases h with
  | apart h =>
    cases h with
    | @seq _ _ _ mid _ _ vs _ hname hlater =>
      have hword : ((Terminal.word "new").accepts t = true ∨ (Terminal.word "make").accepts t = true) ∧
          mid = [.node "identifier" .plain [.token t]] ∧ vs = ts := by
        cases hname with
        | altLeft hname =>
          cases hname with
          | leaf haccepts => exact ⟨.inl haccepts, rfl, rfl⟩
        | altRight hname =>
          cases hname with
          | leaf haccepts => exact ⟨.inr haccepts, rfl, rfl⟩
      obtain ⟨haccepts, rfl, rfl⟩ := hword
      refine ⟨haccepts, ?_⟩
      cases hlater with
      | altLeft hcall =>
        -- The arguments would have to be read from no token.
        have hgain : 4 ≤ (joined true ++ grow "call_expression" (node "argument_list" (parens (opt
            (type false ++ many (comma ++ expression .inside) ++ opt comma))))).gain := by decide
        have := hcall.gain_le priced_rule rfl
        exact absurd (Nat.le_trans (Nat.add_le_add_left hgain _) this) (by omega)
      | altRight htest =>
        cases htest with
        | altLeft htest | altRight htest =>
          obtain ⟨rfl, -⟩ := htest.eq_of_isTest rfl
          simpa using hlast

/-- An operand that is a single token is a word or a literal. -/
theorem operand_eq_leaf {t : Token} {Y : Tree}
    (h : Derives Symbol.rule (.ref (.operand closing)) [] (t :: ts) [Y] ts) :
    (t.sort = .name ∧ Y = wordLeaf t) ∨ (t.kind ≠ .word ∧ (literalKind? Y.kind).isSome = true) := by
  have hword {text kind : String} (haccepts : (Terminal.word text).accepts t = true)
      (hsort : TokenSort.ofWord text = .name) (hkind : wordKind text = kind) :
      t.sort = .name ∧ Tree.node kind .plain [.token t] = wordLeaf t := by
    rw [Terminal.accepts_word] at haccepts
    exact ⟨by simpa [Token.sort, haccepts] using hsort, by rw [wordLeaf, haccepts.2, hkind]⟩
  have hliteral {k : TokenKind} (haccepts : (Terminal.kind k).accepts t = true)
      (hk : k ≠ .word) {kind : String} (hkind : (literalKind? kind).isSome = true) :
      t.kind ≠ .word ∧ (literalKind? kind).isSome = true := by
    obtain rfl := Terminal.accepts_kind.mp haccepts
    exact ⟨hk, hkind⟩
  cases h with
  | ref _ hrule =>
    obtain ⟨first, rest, hoperand, hrules⟩ := operand_eq true
    have hclosing : Symbol.rule (.operand closing) = oneOf first rest := hoperand
    rw [hclosing] at hrule
    obtain ⟨a, ha, h⟩ := exists_of_derives_oneOf hrule
    rw [hrules] at ha
    clear hrule
    have hgain (hgain : 3 ≤ a.gain) (hpays : a.pays = true) : False := by
      have := h.gain_le priced_rule hpays
      have := t.worth_le
      rw [Token.worthAll_cons] at *
      omega
    simp only [beforeName, literals, namedLiterals, typedOperands, Bool.false_eq_true, if_false,
      List.mem_cons, List.mem_append, List.not_mem_nil, or_false, or_assoc] at ha
    rcases ha with rfl | rfl | rfl | rfl | rfl | rfl | rfl | rfl | rfl | rfl | rfl | rfl | rfl | rfl |
      rfl | rfl | rfl | rfl | rfl | rfl
    case inl =>
      cases h with
      | altLeft h | altRight h =>
        cases h with
        | leaf haccepts => exact .inr (hliteral haccepts (by rintro ⟨⟩) rfl)
    case inr.inr.inr.inr.inr.inr.inr.inr.inr.inl =>
      obtain ⟨haccepts, rfl⟩ := allocation_eq_leaf h
      rcases haccepts with haccepts | haccepts <;> exact .inl (hword haccepts rfl rfl)
    case inr.inr.inr.inr.inr.inr.inr.inr.inr.inr.inr.inr.inr.inr.inr.inr.inr.inr.inr =>
      cases h with
      | leaf haccepts =>
        obtain ⟨hkind, hkeyword, hvalue⟩ := Terminal.accepts_name.mp haccepts
        refine .inl ⟨sort_eq_name_iff.mpr ⟨hkind, hkeyword⟩, ?_⟩
        rw [wordLeaf, wordKind_of_name hvalue]
    all_goals first
      | exact (hgain (by decide) rfl).elim
      | cases h with
        | leaf haccepts =>
          first
          | exact .inl (hword haccepts rfl rfl)
          | exact .inr (hliteral haccepts (by rintro ⟨⟩) rfl)

/-- Signs that begin an operation begin no operand. -/
def opensOperand : Symbol → Bool
  | .operand _ | .firmType _ _ | .softType _ => true
  | _ => false

private theorem refuses_opensOperand (name : Symbol) (h : opensOperand name = true) :
    name.rule.refuses (maySign isPrefixSign) opensOperand = true := by
  refine Symbol.of_allFlags (p := fun name =>
    name.rule.refuses (maySign isPrefixSign) opensOperand) ?_
  cases name with
  | operand | firmType | softType => rfl
  | _ => cases h

private theorem not_isPrefixSign {t : Token} {follow : Follow}
    (h : Derives Symbol.rule (.ref (.operand follow)) parts (t :: ts) last us)
    (hkind : t.kind = .sign) : isPrefixSign t.text = false := by
  by_contra htext
  rw [Bool.not_eq_false] at htext
  cases h.not_refuses (maySign_of_accepts hkind htext) refuses_opensOperand rfl

def memberOf (operand : Tree) (d m : Token) : Tree :=
  .node "selector_expression" .plain [operand, .token d, .node "field_identifier" .plain [.token m]]

variable {Y Z : Tree} {d m c t : Token} {rest rest' : List Token}

/-- An operand with suffixes and a member after them is a whole argument in front of a comma. -/
theorem ends_memberOf (hhead : t.kind = .sign → isPrefixSign t.text = false)
    (hoperand : Ends Symbol.rule (.ref (.operand .inside)) [] (t :: ts) (.read [Y] us))
    (hsuffixes : ∀ final vs,
      Ends Symbol.rule (.many (suffixTail .inside)) [Z] (d :: m :: c :: rest) (.read final vs) →
      Ends Symbol.rule (.many (suffixTail .inside)) [Y] us (.read final vs))
    (hd : (Terminal.sign ".").accepts d = true) (hm : (Terminal.name []).accepts m = true)
    (hc : (Terminal.sign ",").accepts c = true) :
    Ends Symbol.rule (.ref (.expression .inside)) [] (t :: ts)
      (.read [memberOf Z d m] (c :: rest)) := by
  rw [Terminal.accepts_sign] at hc
  have hhalts : Halts .inside (c :: rest) := halts_of_isStop hc.1 (by rw [hc.2]; rfl)
  have hmember := hsuffixes [memberOf Z d m] (c :: rest)
    (.manyStep (ends_selector .inside hd (by rintro ⟨⟩) hm) (.manyStop (hhalts.suffix _)))
  have hprimary : Ends Symbol.rule (.ref (.primary .inside)) [] (t :: ts)
      (.read [memberOf Z d m] (c :: rest)) := .ref (.apart (hoperand.seq hmember))
  exact hhalts.ends_expression (ends_unary hhead hprimary) []

theorem eq_singleton_of_bare {trees : List Tree} (h : [Z].map Tree.bare = trees.map Tree.bare) :
    ∃ Z', trees = [Z'] ∧ Z'.bare = Z.bare := by
  obtain ⟨Z', rfl⟩ := List.length_eq_one_iff.mp (show trees.length = 1 by
    simpa using (congrArg List.length h).symm)
  exact ⟨Z', rfl, by simpa using h.symm⟩

/-- A copy of an operand with suffixes that does not end right after a first name. -/
theorem exists_ends_operand {n : Nat} {as as' vs : List Token}
    (hoperand : run Symbol.rule n (.ref (.operand closing)) [] (as ++ d :: rest) = .read [Y] vs)
    (hsuffixes : Suffixes [Y] vs [Z] (d :: rest)) (hd : (Terminal.sign ".").accepts d = true)
    (hafter : Spot.after ⟨0, .start⟩ as = ⟨0, .other⟩) (hsteady : Spot.Steady ⟨0, .start⟩ as)
    (hcopy : List.Forall₂ (Token.Moved k k') (Token.unmarkHead as) as') {d' : Token}
    (hd' : d.Moved k k' d') :
    ∃ Y' us Z', Z'.bare = Z.bare ∧
      Ends Symbol.rule (.ref (.operand .inside)) [] (as' ++ d' :: rest') (.read [Y'] us) ∧
      ∀ final vs,
        Ends Symbol.rule (.many (suffixTail .inside)) [Z'] (d' :: rest') (.read final vs) →
        Ends Symbol.rule (.many (suffixTail .inside)) [Y'] us (.read final vs) := by
  let R : Rests .other := {
    rest := d :: rest
    rest' := d' :: rest'
    sameHead := .cons hd'.1.kind hd'.1.text
    marks := by
      intro t t' ht ht'
      obtain rfl := Option.some.inj ht
      obtain rfl := Option.some.inj ht'
      exact hd'.2.isSome }
  have hdot : ∀ t ∈ R.rest.head?, t.sort = .dot := by
    intro t ht
    obtain rfl := Option.some.inj ht
    exact Terminal.sort_of_accepts hd rfl
  have hahead : CopyAhead k k' true .other R.rest R.rest' ⟨0, .start⟩ (as ++ R.rest) (as' ++ R.rest') :=
    ⟨as, as', rfl, rfl, copiedFrom_start hcopy fun _ => hsteady, hafter⟩
  have hpart : (operands true).ref (.operand closing) .start = some .ended := rfl
  obtain ⟨mid, us, place, hrun, hmid, hahead', hholds⟩ := exists_run_part hdot hpart rfl hahead
    ((copyTrack k k' true R).nil ()) hoperand (Nat.le_refl n)
  obtain ⟨last, us', hlast, ⟨place', -, hexit⟩, hmany⟩ :=
    hsuffixes.copy hdot (List.suffix_refl _) hholds hahead' hmid
  obtain rfl : us' = R.rest' := hexit.eq_rest
  obtain ⟨Z', rfl, hZ⟩ := eq_singleton_of_bare hlast.1
  obtain ⟨Y', rfl, -⟩ := eq_singleton_of_bare hmid.1
  exact ⟨Y', us, Z', hZ, ends_of_run hrun nofun, hmany⟩

/-- A member of a word in front of a comma is read as an argument. -/
theorem ends_member_of_word (hkind : t.kind = .word) (hkeyword : keywords.contains t.text = false)
    (hd : (Terminal.sign ".").accepts d = true) (hm : (Terminal.name []).accepts m = true)
    (hc : (Terminal.sign ",").accepts c = true) :
    Ends Symbol.rule (.ref (.expression .inside)) [] (t :: d :: m :: c :: rest)
      (.read [memberOf (wordLeaf t) d m] (c :: rest)) := by
  obtain ⟨hdkind, hdtext⟩ := Terminal.accepts_sign.mp hd
  obtain ⟨hckind, hctext⟩ := Terminal.accepts_sign.mp hc
  have hbarred : Barred (d :: m :: c :: rest) := by
    refine ⟨⟨d, _, rfl, hdkind, by rw [hdtext]; rfl⟩, fun dot name us heq _ => ?_⟩
    simp only [List.cons.injEq] at heq
    exact ⟨c, rest, heq.2.2.symm, hckind, by rw [hctext]; rfl⟩
  have hcall : ¬(Terminal.sign "(").accepts d = true := by simp [hdtext]
  have hhead : t.kind = .sign → isPrefixSign t.text = false := fun hsign => by
    cases hkind.symm.trans hsign
  exact ends_memberOf hhead (ends_word hkind hkeyword hbarred hcall) (fun _ _ h => h) hd hm hc

private theorem accepts_of_moved {terminal : Terminal} {t t' : Token} (h : t.Moved k k' t')
    (ht : terminal.accepts t = true) : terminal.accepts t' = true := by
  rwa [← Terminal.accepts_congr h.1.kind h.1.text]

private theorem bare_memberOf {Z' : Tree} {d' m' : Token} (hZ : Z'.bare = Z.bare)
    (hd : d.Moved k k' d')
    (hm : m.Moved k k' m') : (memberOf Z' d' m').bare = (memberOf Z d m).bare := by
  simp [memberOf, hZ, Token.bare, hd.1.kind, hd.1.text, hm.1.kind, hm.1.text]

/-- A copy of a member is a copy of its operand with a copied dot and a copied name after it. -/
theorem exists_copied_member {as copy : List Token} (has : as ≠ [])
    (hcopy : List.Forall₂ (Token.Moved k k') (Token.unmarkHead (as ++ [d, m])) copy) :
    ∃ as' d' m', copy = as' ++ [d', m'] ∧
      List.Forall₂ (Token.Moved k k') (Token.unmarkHead as) as' ∧
      d.Moved k k' d' ∧ m.Moved k k' m' := by
  rw [Token.unmarkHead_append has] at hcopy
  obtain ⟨as', ds, rfl, hcopied, hds⟩ := exists_append_of_forall₂ hcopy
  cases hds with
  | cons hd' h =>
    cases h with
    | cons hm' h =>
      cases h
      exact ⟨as', _, _, rfl, hcopied, hd', hm'⟩

/-- A copy of a member in front of a comma is read as an argument. -/
theorem exists_ends_member {n : Nat} {as copy vs : List Token}
    (hoperand : run Symbol.rule n (.ref (.operand closing)) [] (as ++ d :: m :: rest) = .read [Y] vs)
    (hsuffixes : Suffixes [Y] vs [Z] (d :: m :: rest)) (hd : (Terminal.sign ".").accepts d = true)
    (hm : (Terminal.name []).accepts m = true)
    (hcopy : List.Forall₂ (Token.Moved k k') (Token.unmarkHead (as ++ [d, m])) copy)
    (hc : (Terminal.sign ",").accepts c = true) :
    ∃ X, X.bare = (memberOf Z d m).bare ∧
      Ends Symbol.rule (.ref (.expression .inside)) [] (copy ++ c :: rest')
        (.read [X] (c :: rest')) := by
  obtain ⟨first, hfirst, hsteady, hspot⟩ := exists_read_operand hoperand
  have hplace : ∃ place, (place = .name ∨ place = .other) ∧
      Spot.after ⟨0, .start⟩ first = ⟨0, place⟩ := by
    rcases hspot with h | h
    · exact ⟨.name, .inl rfl, h⟩
    · exact ⟨.other, .inr rfl, h⟩
  obtain ⟨place, hplace, hspot⟩ := hplace
  obtain ⟨later, rfl, hsteady', hlater⟩ := hsuffixes.exists_read hplace
  obtain rfl := List.append_cancel_right (hfirst.trans (List.append_assoc ..).symm)
  obtain ⟨t, tail, hcons⟩ : ∃ t tail, first ++ later = t :: tail := by
    refine List.exists_cons_of_ne_nil fun hnil => ?_
    obtain ⟨rfl, -⟩ := List.append_eq_nil_iff.mp hnil
    rcases hplace with rfl | rfl <;> cases hspot
  obtain ⟨as', d', m', rfl, has, hd', hm'⟩ := exists_copied_member (by simp [hcons]) hcopy
  obtain ⟨t', tail', rfl, ht'⟩ : ∃ t' tail', as' = t' :: tail' ∧ t.unmarked.Moved k k' t' := by
    rw [hcons] at has
    cases has with
    | cons ht' _ => exact ⟨_, _, rfl, ht'⟩
  by_cases hother : Spot.after ⟨0, .start⟩ (first ++ later) = ⟨0, .other⟩
  · obtain ⟨Y', us, Z', hZ, hY', hmany⟩ := exists_ends_operand hoperand hsuffixes hd hother
      (Spot.steady_append.mpr ⟨hsteady, by rwa [hspot]⟩) has hd'
    have hhead : t'.kind = .sign → isPrefixSign t'.text = false := by
      intro hkind
      rw [hcons] at hoperand
      have htext : t'.text = t.text := ht'.1.text.symm
      rw [htext]
      exact not_isPrefixSign (derives_of_run hoperand) (ht'.1.kind.trans hkind)
    refine ⟨memberOf Z' d' m', bare_memberOf hZ hd' hm', ?_⟩
    simpa using
      ends_memberOf hhead hY' hmany (accepts_of_moved hd' hd) (accepts_of_moved hm' hm) hc
  · -- The operand is a single word.
    rcases hlater with ⟨rfl, hZ⟩ | hlater
    swap
    · rw [Spot.after_append, hspot] at hother
      exact absurd hlater hother
    obtain rfl : Z = Y := by simpa using hZ
    rw [List.append_nil] at hother hcons
    obtain ⟨w, rfl, hsort⟩ := Spot.eq_singleton_of_after (hspot.trans (by
      rcases hplace with rfl | rfl
      · rfl
      · exact absurd hspot hother))
    obtain ⟨rfl, rfl⟩ := List.cons.inj hcons
    obtain rfl : tail' = [] := by simpa [Token.unmarkHead] using has.length_eq
    obtain ⟨hkind, hkeyword⟩ := sort_eq_name_iff.mp hsort
    obtain rfl : Z = wordLeaf w := by
      rcases operand_eq_leaf (derives_of_run hoperand) with ⟨-, hZ⟩ | ⟨hword, -⟩
      · exact hZ
      · exact absurd hkind hword
    have htext : t'.text = w.text := ht'.1.text.symm
    have hkind' : t'.kind = .word := ht'.1.kind.symm.trans hkind
    have hleaf : (wordLeaf t').bare = (wordLeaf w).bare := by
      simp [wordLeaf, Token.bare, htext, hkind', hkind]
    refine ⟨memberOf (wordLeaf t') d' m', bare_memberOf hleaf hd' hm', ?_⟩
    exact ends_member_of_word hkind' (by rwa [htext]) (accepts_of_moved hd' hd)
      (accepts_of_moved hm' hm) hc

/-- A suffix is a member, or makes a node of another kind. -/
theorem suffix_eq_member {mid : List Tree} {X : Tree}
    (h : Derives Symbol.rule (.ref (.suffix closing)) mid ts [X] us) :
    (∃ d m, ts = d :: m :: us ∧ (Terminal.sign ".").accepts d = true ∧
      (Terminal.name []).accepts m = true ∧ X = .node "selector_expression" .plain
        (mid.reverse ++ [.token d, .node "field_identifier" .plain [.token m]])) ∨
    ["type_assertion_expression", "call_expression", "slice_expression",
      "index_expression"].contains X.kind = true := by
  cases h with
  | ref _ h =>
    obtain ⟨a, ha, h⟩ := exists_of_derives_oneOf h
    simp only [List.mem_cons, List.not_mem_nil, or_false] at ha
    rcases ha with rfl | rfl | rfl | rfl | rfl | rfl
    · cases h with
      | grow h =>
        cases h with
        | seq hd hm =>
          cases hd with
          | token hd =>
            cases hm with
            | leaf hm => exact .inl ⟨_, _, rfl, hd, hm, by simp⟩
    · cases h
      exact .inr rfl
    · cases h
      exact .inr rfl
    · cases h
      exact .inr rfl
    · cases h with
      | seq _ h =>
        cases h with
        | altLeft h =>
          cases h
          exact .inr rfl
        | altRight h =>
          cases h with
          | seq _ h =>
            cases h with
            | altLeft h | altRight h =>
              cases h
              exact .inr rfl
    · cases h
      exact .inr rfl

theorem Suffixes.length_eq (h : Suffixes [Y] ts last us) : last.length = 1 := by
  cases h with
  | nil => rfl
  | snoc _ _ hrun => exact (derives_of_run hrun).length_eq count_rule rfl

/-- No operand is a member. -/
theorem operand_kind_ne (h : Derives Symbol.rule (.ref (.operand closing)) [] ts [Y] us) :
    Y.kind ≠ "selector_expression" := by
  have htable (name : Symbol) (hname : opensOperand name = true) :
      name.rule.addsOnly (allBut "selector_expression") (fun _ => false) opensOperand = true := by
    refine Symbol.of_allFlags (p := fun name =>
      name.rule.addsOnly (allBut "selector_expression") (fun _ => false) opensOperand) ?_
    cases name with
    | operand | firmType | softType => rfl
    | _ => cases hname
  have hamong := h.among htable rfl nofun Y (by simp)
  cases Y with
  | token t => cases hamong
  | node kind role children => simpa [Tree.Among, allBut, Tree.kind] using hamong

def isNameKind (kind : String) : Bool :=
  ["identifier", "field_identifier", "package_identifier", "type_identifier"].contains kind

theorem ends_value_of_word (hkind : t.kind = .word) (hkeyword : keywords.contains t.text = false)
    (hc : (Terminal.sign ",").accepts c = true) :
    Ends Symbol.rule (.ref (.expression .inside)) [] (t :: c :: rest)
      (.read [wordLeaf t] (c :: rest)) := by
  rw [Terminal.accepts_sign] at hc
  have hhalts : Halts .inside (c :: rest) := halts_of_isStop hc.1 (by rw [hc.2]; rfl)
  have hbarred : Barred (c :: rest) := by
    refine ⟨⟨c, rest, rfl, hc.1, by rw [hc.2]; rfl⟩, fun dot name us heq hdot => ?_⟩
    obtain ⟨rfl, -⟩ := List.cons.inj heq
    simp [hc.2] at hdot
  have hcall : ¬(Terminal.sign "(").accepts c = true := by simp [hc.2]
  have hprimary : Ends Symbol.rule (.ref (.primary .inside)) [] (t :: c :: rest)
      (.read [wordLeaf t] (c :: rest)) :=
    .ref (.apart ((ends_word hkind hkeyword hbarred hcall).seq (.manyStop (hhalts.suffix _))))
  exact hhalts.ends_expression (ends_unary (fun hsign => by cases hkind.symm.trans hsign) hprimary) []

/-- An operand that becomes an identifier is a single word. -/
theorem exists_word_of_operand {n : Nat} {as : List Token} {X : Tree}
    (h : run Symbol.rule n (.ref (.operand closing)) [] (as ++ rest) = .read [X] rest)
    (hX : isNameKind X.kind = true) : ∃ t, as = [t] ∧ t.sort = .name ∧ X = wordLeaf t := by
  have hderives := derives_of_run h
  have hleafy : isLeafy X.kind = true := by
    rw [isLeafy, Bool.or_eq_true]
    exact .inl hX
  obtain ⟨t, hX'⟩ : ∃ t, X.tokens = [t] := by
    cases hderives.every builds_rule trivial nofun X (by simp) with
    | token t => exact ⟨t, rfl⟩
    | node role hplain _ =>
      obtain ⟨t, rfl⟩ := hplain.leaf hleafy
      exact ⟨t, by simp⟩
  obtain ⟨mid, hmid, hconsumes⟩ := hderives.consumes cuts_rule rfl
  obtain rfl : mid = [t] := by simpa [yield, hX'] using hmid.symm
  obtain ⟨read, heq, -, hspot⟩ := exists_read_operand h
  obtain rfl := List.append_cancel_right heq
  have hne : as ≠ [] := by
    rintro rfl
    rcases hspot with hspot | hspot <;> cases hspot
  obtain rfl := hconsumes.eq_singleton hne
  refine ⟨t, rfl, ?_⟩
  rcases operand_eq_leaf hderives with hword | ⟨-, hliteral⟩
  · exact hword
  · simp only [isNameKind, List.contains_eq_mem, List.mem_cons, List.not_mem_nil, or_false,
      decide_eq_true_eq] at hX
    rcases hX with hX | hX | hX | hX <;> rw [hX] at hliteral <;> cases hliteral

/-- A result that becomes an identifier or a member access is a single word, or an operand with
suffixes and a member after them. -/
theorem value_cases {fuel : Nat} {as : List Token} {X : Tree}
    (h : run Symbol.rule fuel (.ref (.expression closing)) [] (as ++ rest) = .read [X] rest)
    (hX : X.kind = "selector_expression" ∨ isNameKind X.kind = true) :
    (∃ t, as = [t] ∧ t.sort = .name ∧ X = wordLeaf t) ∨
    ∃ first d m n Y Z vs, as = first ++ [d, m] ∧
      run Symbol.rule n (.ref (.operand closing)) [] (first ++ d :: m :: rest) = .read [Y] vs ∧
      Suffixes [Y] vs [Z] (d :: m :: rest) ∧ (Terminal.sign ".").accepts d = true ∧
      (Terminal.name []).accepts m = true ∧ X = memberOf Z d m := by
  have hkind : X.kind ≠ "binary_expression" ∧ X.kind ≠ "unary_expression" := by
    rcases hX with hX | hX
    · rw [hX]
      decide
    · constructor <;> intro heq <;> rw [heq] at hX <;> cases hX
  obtain ⟨-, n, Y, vs, hoperand, hsuffixes⟩ := exists_of_run_result h hkind
  generalize hlast : [X] = last at hsuffixes
  cases hsuffixes with
  | nil =>
    obtain rfl : X = Y := by simpa using hlast
    have hname := hX.resolve_left (operand_kind_ne (derives_of_run hoperand))
    exact .inl (exists_word_of_operand hoperand hname)
  | @snoc mid _ t _ us _ _ hearlier hline hrun =>
    subst hlast
    rcases suffix_eq_member (derives_of_run hrun) with ⟨d, m, heq, hd, hm, rfl⟩ | hother
    · rw [heq] at hearlier
      obtain ⟨Z, rfl⟩ := List.length_eq_one_iff.mp hearlier.length_eq
      obtain ⟨first, hfirst, -, -⟩ := exists_read_operand hoperand
      obtain ⟨later, rfl, -⟩ := hearlier.exists_read (.inl rfl)
      have hall : as ++ rest = (first ++ later ++ [d, m]) ++ rest := by simpa using hfirst
      obtain rfl := List.append_cancel_right hall
      exact .inr ⟨first ++ later, d, m, n, Y, Z, _, rfl, by simpa using hoperand, hearlier, hd, hm, rfl⟩
    · rcases hX with hX | hX
      · rw [hX] at hother
        cases hother
      · simp only [isNameKind, List.contains_eq_mem, List.mem_cons, List.not_mem_nil, or_false,
          decide_eq_true_eq] at hX
        rcases hX with hX | hX | hX | hX <;> rw [hX] at hother <;> cases hother

/-- Such a result ends in a word, its last name. -/
theorem exists_last_word {fuel : Nat} {as : List Token} {X : Tree}
    (h : run Symbol.rule fuel (.ref (.expression closing)) [] (as ++ rest) = .read [X] rest)
    (hX : X.kind = "selector_expression" ∨ isNameKind X.kind = true) :
    ∃ init w, as = init ++ [w] ∧ w.kind = .word ∧ (X = wordLeaf w ∨ ∃ Z d, X = memberOf Z d w) := by
  rcases value_cases h hX with ⟨t, rfl, hsort, rfl⟩ | ⟨first, d, m, _, _, Z, _, rfl, -, -, -, hm, rfl⟩
  · exact ⟨[], t, rfl, (sort_eq_name_iff.mp hsort).1, .inl rfl⟩
  · exact ⟨first ++ [d], m, by simp, (Terminal.accepts_name.mp hm).1, .inr ⟨Z, d, rfl⟩⟩

/-- A copy of a name or of a member in front of a comma is read as an argument. -/
theorem exists_ends_value {fuel : Nat} {as copy : List Token} {X : Tree}
    (h : run Symbol.rule fuel (.ref (.expression closing)) [] (as ++ rest) = .read [X] rest)
    (hX : X.kind = "selector_expression" ∨ isNameKind X.kind = true)
    (hcopy : List.Forall₂ (Token.Moved k k') (Token.unmarkHead as) copy)
    (hc : (Terminal.sign ",").accepts c = true) (rest' : List Token) :
    ∃ X', X'.bare = X.bare ∧ Ends Symbol.rule (.ref (.expression .inside)) [] (copy ++ c :: rest')
      (.read [X'] (c :: rest')) := by
  rcases value_cases h hX with
    ⟨t, rfl, hsort, rfl⟩ | ⟨first, d, m, n, Y, Z, vs, rfl, hoperand, hsuffixes, hd, hm, rfl⟩
  · obtain ⟨hword, hkeyword⟩ := sort_eq_name_iff.mp hsort
    cases hcopy with
    | @cons _ t' _ _ ht' hnil =>
      cases hnil
      have htext : t'.text = t.text := ht'.1.text.symm
      have hkind' : t'.kind = .word := ht'.1.kind.symm.trans hword
      refine ⟨wordLeaf t', ?_, ends_value_of_word hkind' (by rwa [htext]) hc⟩
      simp [wordLeaf, Token.bare, htext, hkind', hword]
  · exact exists_ends_member hoperand hsuffixes hd hm hcopy hc

end Grammar
end SentinelWrap.Go
