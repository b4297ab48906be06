import SentinelWrap.Proofs.Go.Grammar.Value

/-! Return statements with results, and how they read once the last result is wrapped. -/
namespace SentinelWrap.Go.Grammar
open Rule Lockstep

/-- Tokens that are read as a list of results in front of others, within some fuel. -/
inductive Listed (fuel : Nat) (rest : List Token) : List Token → List Tree → Prop
  | last {n : Nat} {as : List Token} {X : Tree} (hn : n < fuel)
    (hrun : run Symbol.rule n (.ref (.expression closing)) [] (as ++ rest) = .read [X] rest) :
    Listed fuel rest as [X]
  | cons {n : Nat} {as ts : List Token} {c : Token} {X : Tree} {Xs : List Tree} (hn : n < fuel)
    (hrun : run Symbol.rule n (.ref (.expression closing)) [] (as ++ c :: (ts ++ rest)) =
      .read [X] (c :: (ts ++ rest)))
    (hc : (Terminal.sign ",").accepts c = true) (hline : c.lineEnd = none)
    (later : Listed fuel rest ts Xs) : Listed fuel rest (as ++ c :: ts) (X :: .token c :: Xs)

def resultTail : GoRule := (joined true ++ comma) ++ expression closing

variable {parts last : List Tree} {ts us rest : List Token} {fuel bound : Nat} {X : Tree}

/-- What an expression adds does not depend on the parts before it. -/
theorem run_expression_nil {follow : Follow}
    (h : run Symbol.rule fuel (.ref (.expression follow)) parts ts = .read last us) :
    ∃ X, last = X :: parts ∧ run Symbol.rule fuel (.ref (.expression follow)) [] ts = .read [X] us := by
  obtain ⟨X, rfl⟩ := exists_cons_of_expression (derives_of_run h)
  refine ⟨X, rfl, ?_⟩
  match fuel with
  | 0 | 1 | 2 => cases h
  | fuel + 3 =>
    obtain ⟨more, vs, hmore, hread⟩ := Reading.andThen_eq_read.mp h
    obtain ⟨heq, rfl⟩ := Reading.read.inj hread
    obtain rfl : more = [X] := List.append_cancel_right heq
    exact Reading.andThen_eq_read.mpr ⟨[X], vs, hmore, rfl⟩

theorem Listed.mono {n : Nat} {Xs : List Tree} (h : Listed n rest ts Xs) (hle : n ≤ bound) :
    Listed bound rest ts Xs := by
  induction h with
  | last hn hrun => exact .last (by omega) hrun
  | cons hn hrun hc hline _ ih => exact .cons (by omega) hrun hc hline ih

private theorem exists_of_run_resultTail
    (h : run Symbol.rule fuel resultTail parts ts = .read last us) :
    ∃ c as X, ts = c :: (as ++ us) ∧ (Terminal.sign ",").accepts c = true ∧ c.lineEnd = none ∧
      last = X :: .token c :: parts ∧
      ∃ n < fuel, run Symbol.rule n (.ref (.expression closing)) [] (as ++ us) = .read [X] us := by
  cases fuel with
  | zero => cases h
  | succ fuel =>
    obtain ⟨mid, vs, hcomma, hrun⟩ := Reading.andThen_eq_read.mp h
    obtain ⟨X, rfl, hnil⟩ := run_expression_nil hrun
    obtain ⟨as, rfl, -⟩ := exists_read_expression hrun
    have hderives := derives_of_run hcomma
    cases hderives with
    | seq hjoined hcomma =>
      cases hjoined with
      | sameLine hline =>
        cases hcomma with
        | token hc => exact ⟨_, as, X, rfl, hc, hline, rfl, fuel, by omega, hnil⟩

private theorem exists_listed_of_many
    (h : run Symbol.rule fuel (.many resultTail) parts ts = .read last us) :
    last = parts ∧ ts = us ∨ ∃ c results Xs, ts = c :: (results ++ us) ∧
      (Terminal.sign ",").accepts c = true ∧ c.lineEnd = none ∧ Listed fuel us results Xs ∧
      last = Xs.reverse ++ (.token c :: parts) := by
  induction fuel generalizing parts ts with
  | zero => cases h
  | succ fuel ih =>
    rcases Reading.orElse_eq_read.mp h with hstep | ⟨-, heq⟩
    · obtain ⟨mid, vs, htail, hlater⟩ := Reading.andThen_eq_read.mp hstep
      obtain ⟨c, as, X, rfl, hc, hline, rfl, n, hn, hrun⟩ := exists_of_run_resultTail htail
      right
      rcases ih hlater with ⟨rfl, rfl⟩ | ⟨c', results, Xs, rfl, hc', hline', hlisted, rfl⟩
      · exact ⟨c, as, [X], rfl, hc, hline, .last (by omega) hrun, rfl⟩
      · refine ⟨c, as ++ c' :: results, X :: .token c' :: Xs, by simp, hc, hline, ?_, by simp⟩
        exact .cons (by omega) hrun hc' hline' (hlisted.mono (by omega))
    · obtain ⟨rfl, rfl⟩ := Reading.read.inj heq
      exact .inl ⟨rfl, rfl⟩

private theorem exists_of_run_expressions
    (h : run Symbol.rule fuel (.ref (.expressions closing)) parts ts = .read last us) :
    ∃ results Xs, ts = results ++ us ∧ Listed fuel us results Xs ∧
      last = .node "expression_list" .plain Xs :: parts ∧
      ∃ n < fuel, ∃ parts, run Symbol.rule n resultTail parts us = .rejected := by
  match fuel with
  | 0 | 1 | 2 => cases h
  | fuel + 3 =>
    obtain ⟨children, vs, hseq, hread⟩ := Reading.andThen_eq_read.mp h
    obtain ⟨rfl, rfl⟩ := Reading.read.inj hread
    obtain ⟨mid, ws, hfirst, hmany⟩ := Reading.andThen_eq_read.mp hseq
    obtain ⟨X, rfl, -⟩ := run_expression_nil hfirst
    obtain ⟨as, rfl, -⟩ := exists_read_expression hfirst
    obtain ⟨n, hn, hrejected⟩ := exists_rejected_of_many hmany
    rcases exists_listed_of_many hmany with ⟨rfl, rfl⟩ | ⟨c, results, Xs, rfl, hc, hline, hlisted, rfl⟩
    · exact ⟨as, [X], rfl, .last (by omega) hfirst, rfl, n, by omega, _, hrejected⟩
    · refine ⟨as ++ c :: results, X :: .token c :: Xs, by simp, ?_, by simp, n, by omega, _, hrejected⟩
      exact .cons (by omega) hfirst hc hline (hlisted.mono (by omega))

def returnTree (r : Token) (Xs : List Tree) : Tree :=
  .node "return_statement" .plain [.token r, .node "expression_list" .plain Xs]

/-- A return statement has no results, or some on the line where it begins. -/
theorem exists_of_run_return
    (h : run Symbol.rule fuel (.ref .returnStatement) parts ts = .read last us) :
    ∃ r, (Terminal.word "return").accepts r = true ∧
      (ts = r :: us ∧ last = .node "return_statement" .plain [.token r] :: parts ∨
      ∃ results Xs, ts = r :: (results ++ us) ∧ Listed fuel us results Xs ∧
        (∀ t ∈ (results ++ us).head?, t.lineEnd = none) ∧ last = returnTree r Xs :: parts ∧
        ∃ n < fuel, ∃ parts, run Symbol.rule n resultTail parts us = .rejected) := by
  match fuel with
  | 0 | 1 | 2 => cases h
  | fuel + 3 =>
    obtain ⟨children, vs, hseq, hread⟩ := Reading.andThen_eq_read.mp h
    obtain ⟨rfl, rfl⟩ := Reading.read.inj hread
    obtain ⟨mid, ws, hword, hopt⟩ := Reading.andThen_eq_read.mp hseq
    have hderives : Derives Symbol.rule (.token (.word "return")) [] ts mid ws := derives_of_run hword
    cases hderives with
    | @token _ r _ _ hr =>
      refine ⟨r, hr, ?_⟩
      match fuel with
      | 0 | 1 => cases hopt
      | fuel + 2 =>
        rcases Reading.orElse_eq_read.mp hopt with hresults | ⟨-, heq⟩
        · obtain ⟨mid, xs, hsame, hlist⟩ := Reading.andThen_eq_read.mp hresults
          have hderives : Derives Symbol.rule .sameLine [.token r] ws mid xs := derives_of_run hsame
          cases hderives with
          | sameLine hline =>
            obtain ⟨results, Xs, hws, hlisted, rfl, n, hn, hrejected⟩ := exists_of_run_expressions hlist
            refine .inr ⟨results, Xs, by rw [hws], hlisted.mono (by omega), ?_, rfl, n, by omega,
              hrejected⟩
            rw [← hws]
            intro t ht
            obtain rfl := Option.some.inj ht
            exact hline
        · obtain ⟨rfl, rfl⟩ := Reading.read.inj heq
          exact .inl ⟨rfl, rfl⟩

theorem Listed.exists_last {Xs : List Tree} (h : Listed fuel rest ts Xs) :
    ∃ leading X n as, Xs = leading ++ [X] ∧ n < fuel ∧
      run Symbol.rule n (.ref (.expression closing)) [] (as ++ rest) = .read [X] rest := by
  induction h with
  | last hn hrun => exact ⟨[], _, _, _, rfl, hn, hrun⟩
  | @cons _ _ _ c X _ _ _ _ _ _ ih =>
    obtain ⟨leading, last, n, as, rfl, hn, hrun⟩ := ih
    exact ⟨X :: .token c :: leading, last, n, as, rfl, hn, hrun⟩

/-- Tokens of these kinds and texts, with no line break among them. -/
def Spelled : List (TokenKind × String) → List Token → Prop :=
  List.Forall₂ fun p t => t.kind = p.1 ∧ t.text = p.2 ∧ t.lineEnd = none

def wrapFront (qualifier : String) : List (TokenKind × String) :=
  [(.word, qualifier), (.sign, "."), (.word, "Wrap"), (.sign, "(")]

def wrapBack : List (TokenKind × String) :=
  [(.sign, ","), (.word, "err"), (.sign, "."), (.word, "Error"), (.sign, "("), (.sign, ")"),
    (.sign, ")")]

def placeless (kind : TokenKind) (text : String) : Token := ⟨kind, text, ⟨0, 0⟩, none⟩

def wrapTree (qualifier : String) (value : Tree) : Tree :=
  memberCall (placeless .word qualifier) (placeless .sign ".") (placeless .word "Wrap")
    (.node "argument_list" .plain [.token (placeless .sign "("), value, .token (placeless .sign ","),
      memberCall (placeless .word "err") (placeless .sign ".") (placeless .word "Error")
        (.node "argument_list" .plain [.token (placeless .sign "("), .token (placeless .sign ")")]),
      .token (placeless .sign ")")])

/-- Results of which the last one is wrapped. -/
def wrapTrees (qualifier : String) : List Tree → List Tree
  | [] => []
  | [X] => [wrapTree qualifier X]
  | X :: Xs => X :: wrapTrees qualifier Xs

/-- The tokens of some results, the trees they are read as, and the tokens of a copy in which the
last result is wrapped. -/
inductive Wraps (qualifier : String) (rest : List Token) :
    List Token → List Tree → List Token → Prop
  | last {n k k' : Nat} {as copy front back : List Token} {X : Tree}
    (hrun : run Symbol.rule n (.ref (.expression closing)) [] (as ++ rest) = .read [X] rest)
    (hX : X.kind = "selector_expression" ∨ isNameKind X.kind = true)
    (hcopy : List.Forall₂ (Token.Moved k k') (Token.unmarkHead as) copy)
    (hfront : Spelled (wrapFront qualifier) front) (hback : Spelled wrapBack back) :
    Wraps qualifier rest as [X] (front ++ (copy ++ back))
  | cons {n k k' : Nat} {as copy ts ts' : List Token} {c c' : Token} {X : Tree} {Xs : List Tree}
    (hrun : run Symbol.rule n (.ref (.expression closing)) [] (as ++ c :: (ts ++ rest)) =
      .read [X] (c :: (ts ++ rest)))
    (hc : (Terminal.sign ",").accepts c = true) (hline : c.lineEnd = none)
    (hcopy : List.Forall₂ (Token.Moved k k') (Token.unmarkHead as) copy)
    (hc' : Spelled [(.sign, ",")] [c']) (later : Wraps qualifier rest ts Xs ts') :
    Wraps qualifier rest (as ++ c :: ts) (X :: .token c :: Xs) (copy ++ c' :: ts')

variable {q : String} {as copy front back rest' ts' : List Token}

/-- A wrapped result is read as such where no result goes on. -/
theorem exists_ends_wrapped {n k k' : Nat}
    (hq : keywords.contains q = false ∧ valueWords.contains q = false)
    (hrun : run Symbol.rule n (.ref (.expression closing)) [] (as ++ rest) = .read [X] rest)
    (hX : X.kind = "selector_expression" ∨ isNameKind X.kind = true)
    (hcopy : List.Forall₂ (Token.Moved k k') (Token.unmarkHead as) copy)
    (hfront : Spelled (wrapFront q) front) (hback : Spelled wrapBack back)
    (hhalts : Halts closing rest') :
    ∃ X', X'.bare = (wrapTree q X).bare ∧ ∀ parts,
      Ends Symbol.rule (.ref (.expression closing)) parts (front ++ (copy ++ back) ++ rest')
        (.read (X' :: parts) rest') := by
  simp only [Spelled, wrapFront, wrapBack, List.forall₂_cons_left_iff, List.forall₂_nil_left_iff]
    at hfront hback
  obtain ⟨n, _, hn, ⟨d, _, hd, ⟨m, _, hm, ⟨l, _, hl, rfl, rfl⟩, rfl⟩, rfl⟩, rfl⟩ := hfront
  obtain ⟨c, _, hc, ⟨e, _, he, ⟨d₂, _, hd₂, ⟨m₂, _, hm₂, ⟨l₂, _, hl₂, ⟨r₂, _, hr₂, ⟨r, _, hr, rfl,
    rfl⟩, rfl⟩, rfl⟩, rfl⟩, rfl⟩, rfl⟩, rfl⟩ := hback
  have hsign {text : String} {t : Token} (h : t.kind = .sign ∧ t.text = text ∧ t.lineEnd = none) :
      (Terminal.sign text).accepts t = true := Terminal.accepts_sign.mpr ⟨h.1, h.2.1⟩
  have hname {text : String} {reserved : List String} {t : Token}
      (h : t.kind = .word ∧ t.text = text ∧ t.lineEnd = none)
      (hkeyword : keywords.contains text = false) (hreserved : reserved.contains text = false) :
      (Terminal.name reserved).accepts t = true := by
    rw [Terminal.accepts_name, h.2.1]
    exact ⟨h.1, hkeyword, hreserved⟩
  obtain ⟨X', hX', hvalue⟩ :=
    exists_ends_value hrun hX hcopy (hsign hc) (e :: d₂ :: m₂ :: l₂ :: r₂ :: r :: rest')
  have hstop : Halts { lineEnd := false } (r :: rest') :=
    halts_of_isStop hr.1 (by rw [hr.2.1]; rfl)
  have hanywhere : false = true → d₂.lineEnd = none ∧ l₂.lineEnd = none := by rintro ⟨⟩
  have hcall := ends_memberCall (hname he rfl rfl) (hsign hd₂) (hname hm₂ rfl rfl) (hsign hl₂)
    hanywhere (ends_no_arguments (hsign hl₂) (hsign hr₂)) hstop []
  have hargs := ends_two_arguments (hsign hl) hvalue (hsign hc) hcall (hsign hr)
  have hwrapped := ends_memberCall (hname hn hq.1 hq.2) (hsign hd) (hname hm rfl rfl) (hsign hl)
    (fun _ => ⟨hd.2.2, hl.2.2⟩) hargs hhalts
  refine ⟨_, ?_, fun parts => by simpa [closing] using hwrapped parts⟩
  simp [wrapTree, memberCall, placeless, Token.bare, hX', hn, hd, hm, hl, hc, he, hd₂, hm₂, hl₂, hr₂, hr]

private theorem ends_expression_parts {follow : Follow}
    (h : Ends Symbol.rule (.ref (.expression follow)) [] ts (.read [X] us)) (parts : List Tree) :
    Ends Symbol.rule (.ref (.expression follow)) parts ts (.read (X :: parts) us) := by
  obtain ⟨-, fuel, hrun⟩ := h
  match fuel with
  | 0 | 1 | 2 => cases hrun
  | fuel + 3 =>
    obtain ⟨more, vs, hmore, hread⟩ := Reading.andThen_eq_read.mp hrun
    obtain ⟨heq, rfl⟩ := Reading.read.inj hread
    obtain rfl : more = [X] := by simpa using heq
    exact ⟨nofun, fuel + 3, Reading.andThen_eq_read.mpr ⟨[X], vs, hmore, rfl⟩⟩

/-- A copy of a result in front of a comma is read alike. -/
theorem exists_ends_result {n k k' : Nat} {c c' : Token}
    (hrun : run Symbol.rule n (.ref (.expression closing)) [] (as ++ c :: rest) =
      .read [X] (c :: rest))
    (hc : (Terminal.sign ",").accepts c = true) (hline : c.lineEnd = none)
    (hcopy : List.Forall₂ (Token.Moved k k') (Token.unmarkHead as) copy)
    (hc' : c'.kind = .sign ∧ c'.text = "," ∧ c'.lineEnd = none) :
    ∃ X', X'.bare = X.bare ∧ ∀ parts, Ends Symbol.rule (.ref (.expression closing)) parts
      (copy ++ c' :: rest') (.read (X' :: parts) (c' :: rest')) := by
  obtain ⟨read, heq, -, place, hplace⟩ := exists_read_expression hrun
  obtain rfl := List.append_cancel_right heq
  have hsign := Terminal.accepts_sign.mp hc
  let R : Rests place := {
    rest := c :: rest
    rest' := c' :: rest'
    sameHead := .cons (hsign.1.trans hc'.1.symm) (hsign.2.trans hc'.2.1.symm)
    marks := by
      intro t t' ht ht'
      obtain rfl := Option.some.inj ht
      obtain rfl := Option.some.inj ht'
      rw [hline, hc'.2.2] }
  have hcomma : ∀ t ∈ R.rest.head?, t.sort = .comma := by
    intro t ht
    obtain rfl := Option.some.inj ht
    exact Terminal.sort_of_accepts hc rfl
  obtain ⟨trees, hrun', hbare⟩ :=
    exists_run_expression hcomma (copiedFrom_start hcopy (by rintro ⟨⟩)) hplace
    hrun (Nat.le_refl n)
  obtain ⟨X', rfl, hX'⟩ := eq_singleton_of_bare hbare
  exact ⟨X', hX', ends_expression_parts (ends_of_run hrun' (by rintro ⟨⟩))⟩

theorem Wraps.ne_nil {Xs : List Tree} (h : Wraps q rest ts Xs ts') : Xs ≠ [] := by
  cases h <;> nofun

/-- A copy of results with the last one wrapped is read as such where no result goes on. -/
theorem Wraps.exists_ends {Xs : List Tree} (h : Wraps q rest ts Xs ts')
    (hq : keywords.contains q = false ∧ valueWords.contains q = false)
    (hhalts : Halts closing rest')
    (htail : ∀ parts, Ends Symbol.rule resultTail parts rest' .rejected) :
    ∃ Xs' : List Tree, Xs'.map Tree.bare = (wrapTrees q Xs).map Tree.bare ∧ ∀ parts, ∃ mid us,
      Ends Symbol.rule (.ref (.expression closing)) parts (ts' ++ rest') (.read mid us) ∧
      Ends Symbol.rule (.many resultTail) mid us (.read (Xs'.reverse ++ parts) rest') := by
  induction h with
  | last hrun hX hcopy hfront hback =>
    obtain ⟨X', hX', hends⟩ := exists_ends_wrapped hq hrun hX hcopy hfront hback hhalts
    exact ⟨[X'], by simp [wrapTrees, hX'], fun parts => ⟨_, _, hends parts, .manyStop (htail _)⟩⟩
  | @cons n k k' as copy ts ts' c c' X Xs hrun hc hline hcopy hc' later ih =>
    obtain ⟨Xs', hXs', hends⟩ := ih
    have hcomma := (List.forall₂_cons.mp hc').1
    obtain ⟨X', hX', hfirst⟩ := exists_ends_result hrun hc hline hcopy hcomma
    have hwrap : wrapTrees q (X :: .token c :: Xs) = X :: .token c :: wrapTrees q Xs := by
      cases Xs with
      | nil => exact absurd rfl later.ne_nil
      | cons Y Ys => rfl
    refine ⟨X' :: .token c' :: Xs', ?_, fun parts => ?_⟩
    · rw [Terminal.accepts_sign] at hc
      simp [hwrap, hX', hXs', Token.bare, hc, hcomma]
    · obtain ⟨mid, us, hnext, hmany⟩ := hends (.token c' :: X' :: parts)
      have haccepts : (Terminal.sign ",").accepts c' = true :=
        Terminal.accepts_sign.mpr ⟨hcomma.1, hcomma.2.1⟩
      have htail : Ends Symbol.rule resultTail (X' :: parts) (c' :: (ts' ++ rest')) (.read mid us) :=
        .seq (.seq (ends_sameLine hcomma.2.2) (ends_token haccepts)) hnext
      refine ⟨_, _, by simpa using hfirst parts, ?_⟩
      simpa using htail.manyStep hmany

/-- A copy begins on the line where what is before it ends. -/
theorem lineEnd_of_copy {k k' : Nat} {t : Token}
    (hcopy : List.Forall₂ (Token.Moved k k') (Token.unmarkHead as) (t :: ts)) : t.lineEnd = none := by
  cases as with
  | nil => cases hcopy
  | cons a as =>
    have hmark : MarkCopied k k' none t.lineEnd := (List.forall₂_cons.mp hcopy).1.2
    cases hline : t.lineEnd with
    | none => rfl
    | some offset =>
      rw [hline] at hmark
      exact hmark.elim

theorem Wraps.exists_head {Xs : List Tree} (h : Wraps q rest ts Xs ts') :
    ∃ t ts'', ts' = t :: ts'' ∧ t.lineEnd = none := by
  cases h with
  | last _ _ _ hfront _ =>
    cases hfront with
    | cons hn _ => exact ⟨_, _, rfl, hn.2.2⟩
  | @cons _ _ _ _ copy _ _ _ c' _ _ _ _ _ hcopy hc' _ =>
    cases copy with
    | nil => exact ⟨c', _, rfl, (List.forall₂_cons.mp hc').1.2.2⟩
    | cons t copy => exact ⟨t, _, rfl, lineEnd_of_copy hcopy⟩

/-- A return with its last result wrapped is read as such where no result goes on. -/
theorem Wraps.exists_ends_return {Xs : List Tree} {r r' : Token} (h : Wraps q rest ts Xs ts')
    (hq : keywords.contains q = false ∧ valueWords.contains q = false)
    (hr : (Terminal.word "return").accepts r = true)
    (hr' : (Terminal.word "return").accepts r' = true) (hhalts : Halts closing rest')
    (htail : ∀ parts, Ends Symbol.rule resultTail parts rest' .rejected) :
    ∃ Xs', (returnTree r' Xs').bare = (returnTree r (wrapTrees q Xs)).bare ∧ ∀ parts,
      Ends Symbol.rule (.ref .returnStatement) parts (r' :: (ts' ++ rest'))
        (.read (returnTree r' Xs' :: parts) rest') := by
  obtain ⟨Xs', hXs', hends⟩ := h.exists_ends hq hhalts htail
  obtain ⟨t, ts'', rfl, hline⟩ := h.exists_head
  have hlist : Ends Symbol.rule (.ref (.expressions closing)) [.token r'] (t :: ts'' ++ rest')
      (.read [.node "expression_list" .plain Xs', .token r'] rest') := by
    obtain ⟨mid, us, hfirst, hmany⟩ := hends []
    rw [List.append_nil] at hmany
    rw [← Xs'.reverse_reverse]
    exact .ref (.node (hfirst.seq hmany))
  refine ⟨Xs', ?_, fun parts => ?_⟩
  · rw [Terminal.accepts_word] at hr hr'
    simp [returnTree, hXs', Token.bare, hr, hr']
  · exact .ref (.node (.seq (ends_token hr') (.altLeft (.seq (ends_sameLine hline) hlist))))

end SentinelWrap.Go.Grammar
