import SentinelWrap.Proofs.Go.Grammar.Amend

/-! Amended tokens are read as the amended trees. -/
namespace SentinelWrap.Go
open Token (Row endOf startOf worthAll)
open Grammar Rule Lockstep

def Terminal.mayImport : Terminal → Bool
  | word text => text == "import"
  | kind k => k == .word
  | _ => false

/-- Neither this rule nor the named rules that it uses read the word that begins an import. -/
def Rule.spares : Rule Symbol → Bool
  | token t | leaf _ t => !t.mayImport
  | seq a b | alt a b => a.spares && b.spares
  | many a | node _ a | grow _ a | apart a | role _ a | longer _ a => a.spares
  | ref name => name.isInner
  | _ => true

theorem Rule.spares_of_balance {a : GoRule} {m n : Nat} (h : balance.check a m = some n) :
    a.spares = true := by
  have hterminal {terminal : Terminal} {m n : Nat} (h : balance.token terminal m = some n) :
      terminal.mayImport = false := by
    obtain ⟨hfree, -⟩ := Option.ite_none_right_eq_some.mp h
    cases terminal with
    | word text | kind k =>
      simp only [Terminal.isFree, Bool.and_eq_true, bne_iff_ne] at hfree
      simp [Terminal.mayImport, hfree]
    | name | sign => rfl
  induction a generalizing m n with
  | empty | half | lineEnd | sameLine | newLine | ahead | notAhead => rfl
  | token t => simp [spares, hterminal h]
  | leaf kind t => simp [spares, hterminal (Option.ite_none_right_eq_some.mp h).2]
  | seq a b iha ihb =>
    obtain ⟨x, ha, hb⟩ := Option.bind_eq_some_iff.mp h
    simp [spares, iha ha, ihb hb]
  | alt a b iha ihb =>
    obtain ⟨x, ha, h⟩ := Option.bind_eq_some_iff.mp h
    obtain ⟨y, hb, -⟩ := Option.bind_eq_some_iff.mp h
    simp [spares, iha ha, ihb hb]
  | many a ih =>
    obtain ⟨x, ha, -⟩ := Option.bind_eq_some_iff.mp h
    exact ih ha
  | ref name => exact (Option.ite_none_right_eq_some.mp h).1
  | node kind a ih | grow kind a ih | longer size a ih =>
    exact ih (Option.ite_none_right_eq_some.mp h).2
  | apart a ih | role r a ih => exact ih h

theorem Grammar.spares_rule {name : Symbol} (h : name.isInner = true) : name.rule.spares = true := by
  by_cases hreturn : name = .returnStatement
  · subst hreturn
    rfl
  · exact spares_of_balance (balanced_rule h hreturn)

/-- Rules that read no import hold none. -/
theorem Rule.Derives.not_import {rule : GoRule} {parts last : List Tree} {ts us : List Token}
    (h : Derives Symbol.rule rule parts ts last us) (hrule : rule.spares = true)
    (hparts : ∀ t ∈ yield parts [], ¬(t.kind = .word ∧ t.text = "import")) :
    ∀ t ∈ yield last [], ¬(t.kind = .word ∧ t.text = "import") := by
  have haccepts {terminal : Terminal} {t : Token} (haccepts : terminal.accepts t = true)
      (hspares : (!terminal.mayImport) = true) : ¬(t.kind = .word ∧ t.text = "import") := by
    rintro ⟨hkind, htext⟩
    cases terminal with
    | word text | kind k => simp_all [Terminal.mayImport]
    | sign text => simp_all
    | name reserved =>
      rw [Terminal.accepts_name, htext] at haccepts
      exact absurd haccepts.2.1 (by decide)
  have hcons {t : Token} {parts : List Tree}
      (hparts : ∀ t ∈ yield parts [], ¬(t.kind = .word ∧ t.text = "import"))
      (ht : ¬(t.kind = .word ∧ t.text = "import")) :
      ∀ u ∈ yield (.token t :: parts) [], ¬(u.kind = .word ∧ u.text = "import") := by
    simpa [yield, or_imp, forall_and] using ⟨by simpa [yield] using hparts, by simpa using ht⟩
  induction h with
  | empty | sameLine | newLine | ahead | notAhead | manyStop => exact hparts
  | token h => exact hcons hparts (haccepts h hrule)
  | leaf h => simpa [yield] using hcons hparts (haccepts h hrule)
  | half hkind => exact hcons hparts fun h => by simp [Token.firstHalf, hkind] at h
  | lineEnd => exact hcons hparts fun h => by simp [Token.lineBreak] at h
  | seq _ _ iha ihb =>
    simp only [spares, Bool.and_eq_true] at hrule
    exact ihb hrule.2 (iha hrule.1 hparts)
  | altLeft _ ih =>
    simp only [spares, Bool.and_eq_true] at hrule
    exact ih hrule.1 hparts
  | altRight _ ih =>
    simp only [spares, Bool.and_eq_true] at hrule
    exact ih hrule.2 hparts
  | manyStep _ _ iha ihs => exact ihs hrule (iha hrule hparts)
  | ref _ _ ih => exact ih (spares_rule hrule) hparts
  | node _ ih =>
    have hall := ih hrule (List.forall_mem_nil _)
    rw [yield_cons, yield_eq_append]
    refine List.forall_mem_append.mpr ⟨hparts, ?_⟩
    simpa [yield] using hall
  | grow _ ih => simpa [yield] using ih hrule hparts
  | apart _ ih | longer _ _ ih =>
    have hall := ih hrule (List.forall_mem_nil _)
    rw [yield_append, yield_eq_append]
    exact List.forall_mem_append.mpr ⟨hparts, hall⟩
  | role _ ih =>
    have hall := ih hrule (List.forall_mem_nil _)
    rw [yield_append, yield_map_withRole, yield_eq_append]
    exact List.forall_mem_append.mpr ⟨hparts, hall⟩

section
variable {rule : GoRule} {fuel : Nat} {last : List Tree} {ts us : List Token}

theorem Orderly.row_of_run (h : Orderly ts) (hrun : run Symbol.rule fuel rule [] ts = .read last us) :
    ∃ source lo, Row source lo (yield last []) := by
  obtain ⟨source, lo, hrow⟩ := h.row
  have hall := (derives_of_run hrun).row (show Row source lo (yield [] ts) from hrow)
  rw [yield_eq_append, Token.row_append] at hall
  exact ⟨source, lo, hall.1⟩

theorem Spread.lt_extent {source : List Char} {lo : Nat} (h : Spread ts) (hrow : Row source lo ts) :
    9 < endOf 0 ts - startOf ts := by
  obtain ⟨a, ha, b, hb, -, hspread⟩ := h
  have hstart := (hrow.bounds ha).1
  have hstop := (hrow.bounds hb).2
  have hlo : endOf lo ts = endOf 0 ts :=
    Token.endOf_append_of_ne (List.ne_nil_of_mem ha) lo 0 []
  omega

/-- After a name a stretch of ten bytes makes more than ten. -/
theorem Spread.lt_extent_of_name {source : List Char} {lo : Nat} {t : Token} (h : Spread (t :: ts))
    (hrow : Row source lo (t :: ts)) (hname : t.sort = .name) (htext : t.text ≠ "") :
    10 < endOf 0 (t :: ts) - startOf (t :: ts) := by
  obtain ⟨a, ha, b, hb, hkeyword, hspread⟩ := h
  have hstop : b.span.stop ≤ endOf t.span.stop ts := (hrow.bounds hb).2
  obtain ⟨hsits, -, -, hlater⟩ := hrow
  have ha : a ∈ ts := by
    refine (List.mem_cons.mp ha).resolve_left ?_
    rintro rfl
    rw [hname] at hkeyword
    cases hkeyword
  have hstart := (hlater.bounds ha).1
  have hfirst : t.span.stop ≤ startOf ts := by
    cases ts with
    | nil => cases ha
    | cons u ts => exact hlater.2.1
  have hpos : 0 < Text.size t.text.toList := by
    rw [Nat.pos_iff_ne_zero]
    intro hzero
    exact htext (String.toList_eq_nil_iff.mp (Text.size_eq_zero_iff.mp hzero))
  have := hsits.stop_eq
  simp only [endOf, startOf]
  omega

/-- A spec of a declaration begins with a name. -/
theorem exists_name_of_run_spec {name : Symbol} (hspec : name.isSpec = true) (horderly : Orderly ts)
    (hrun : run Symbol.rule fuel (.ref name) [] ts = .read last us) :
    ∃ t rest, yield last [] = t :: rest ∧ t.sort = .name ∧ t.text ≠ "" := by
  have hderives := derives_of_run hrun
  obtain ⟨mid, hmid, hconsumes⟩ := hderives.consumes cuts_rule rfl
  obtain ⟨mid', hmid', -, hreads, hleads⟩ := hderives.exists_yield leads_rule
  obtain rfl : mid = mid' := by
    rw [hmid] at hmid'
    exact List.append_cancel_left hmid'
  have hne := hreads rfl
  have hstart := hleads rfl hne
  cases ts with
  | nil =>
    cases hconsumes
    exact absurd rfl hne
  | cons t rest =>
    have hname : (Terminal.name []).accepts t = true := by
      by_contra hname
      cases hderives with
      | ref _ hrule =>
        have hmay (terminal : Terminal) (h : terminal.accepts t = true) :
            (terminal != .name []) = true := by
          rw [bne_iff_ne]
          rintro rfl
          exact hname h
        have htable (name : Symbol) (h : (fun _ => false) name = true) :
            name.rule.refuses (· != .name []) (fun _ => false) = true := nomatch h
        have hrefuses := hrule.not_refuses hmay htable rfl
        cases name with
        | constSpec | typeSpec | varSpec => cases hrefuses
        | _ => cases hspec
    have hword : t.kind = .word := (Terminal.accepts_name.mp hname).1
    have hhead : ∃ later, mid = t :: later := by
      cases hconsumes with
      | nil => exact absurd rfl hne
      | token => exact ⟨_, rfl⟩
      | half _ hkind =>
        rw [hword] at hkind
        cases hkind
      | @lineEnd _ _ _ _ offset hline =>
        obtain ⟨source, lo, -, -, hmark, -⟩ := horderly.row
        have := (hmark offset hline).2.1
        have : offset = t.span.start := hstart
        omega
    obtain ⟨later, rfl⟩ := hhead
    exact ⟨t, later, hmid, Terminal.sort_of_accepts hname rfl,
      horderly.words t List.mem_cons_self hword⟩

end

/-- What two runs on amended tokens have ahead of them. -/
structure AmendedAhead (qualifier : String) (change : Change) (worth : Nat) (i : Nat × Nat)
    (ts ts' : List Token) : Prop where
  amended : Amended qualifier change i ts ts'
  orderly : Orderly ts
  orderly' : Orderly ts'
  worth_le : worthAll ts' ≤ worth

private theorem worth_secondHalf {t : Token} {first second : String} (hkind : t.kind = .sign)
    (htext : t.text = first ++ second) (hmem : (first, second) ∈ halves) :
    (t.secondHalf first second).worth ≤ t.worth := by
  simp only [Token.worth, Token.secondHalf, hkind, htext, if_true]
  refine halves_cases hmem ?_ ?_ ?_ ?_ ?_ <;> decide

section
variable {q : String} {change : Change} {worth : Nat} {i j : Nat × Nat} {t t' : Token}
  {ts ts' : List Token}

theorem AmendedAhead.tail (h : AmendedAhead q change worth i (t :: ts) (t' :: ts'))
    (hlater : Amended q change j ts ts') : AmendedAhead q change worth j ts ts' where
  amended := hlater
  orderly := h.orderly.tail
  orderly' := h.orderly'.tail
  worth_le := by
    have hworth := h.worth_le
    rw [Token.worthAll_cons] at hworth
    omega

/-- A sign is amended by halves. -/
theorem AmendedAhead.secondHalf {first second : String}
    (h : AmendedAhead q change worth i (t :: ts) (t' :: ts')) (hkind : t.kind = .sign)
    (htext : t.text = first ++ second) (hmem : (first, second) ∈ halves) :
    t.Copied i.1 i.2 t' ∧ AmendedAhead q change worth i (t.secondHalf first second :: ts)
      (t'.secondHalf first second :: ts') := by
  obtain ⟨hcopied, hlater⟩ := h.amended.copied fun hword => by simp [hkind] at hword
  have hkind' : t'.kind = .sign := hcopied.kind.symm.trans hkind
  have htext' : t'.text = first ++ second := hcopied.text.symm.trans htext
  have hworth := h.worth_le
  have hle := worth_secondHalf hkind' htext' hmem
  rw [Token.worthAll_cons] at hworth
  refine ⟨hcopied, ?_, h.orderly.secondHalf hkind htext, h.orderly'.secondHalf hkind' htext', ?_⟩
  · refine .kept (hcopied.secondHalf first second) trivial (fun hword => ?_) hlater
    rw [Token.secondHalf, hkind] at hword
    cases hword
  · rw [Token.worthAll_cons]
    omega

end

def amendTrack (qualifier : String) (change : Change) (worth : Nat) : Track where
  Index := Nat × Nat
  slack := 91 + 64 * worth
  Read := AmendedParts change
  nil := .nil
  append := .append
  role {_} {_} role {_} {_} h := AmendedParts.role role h
  Ahead _ := AmendedAhead qualifier change worth
  Wall _ _ := False
  sameHead h := h.amended.sameHead
  marks h _ := h.amended.markCopied.isSome
  pass {_} {i} {_} {_} {_} {_} h _ hfree := by
    obtain ⟨hcopied, hlater⟩ := h.amended.copied hfree.2
    exact ⟨i, h.tail hlater, .token hcopied⟩
  half {_} {i} {_} {_} {_} {_} {first} {_} h _ hkind htext hmem := by
    obtain ⟨hcopied, hahead⟩ := h.secondHalf hkind htext hmem
    exact ⟨i, hahead, .token (hcopied.firstHalf first)⟩
  lineEnd {_} {_} {i} {t} {t'} {_} {_} h := by
    have hmark := h.amended.markCopied
    cases hline : t.lineEnd <;> cases hline' : t'.lineEnd <;> rw [hline, hline'] at hmark
    case none.none => exact .inl ⟨rfl, rfl⟩
    case some.some offset offset' =>
      exact .inr ⟨offset, offset', i, rfl, rfl, ⟨h.amended.unmarked, h.orderly.unmarked,
        h.orderly'.unmarked, h.worth_le⟩, .token (copied_lineBreak hmark)⟩
    all_goals exact hmark.elim

section
variable {q : String} {change : Change} {worth fuel : Nat} {i j : Nat × Nat} {parts parts' : List Tree}
  {ts ts' us us' : List Token}

/-- Where a change is among what two runs have read, and no import, both have read a stretch. -/
theorem AmendedParts.spread {name : Symbol} (h : AmendedParts change i j parts parts')
    (hlt : i.1 < j.1) (hname : name.isInner = true)
    (hrun : run Symbol.rule fuel (.ref name) [] ts = .read parts us) :
    Spread (yield parts []) ∧ Spread (yield parts' []) := by
  refine (h.changed hlt).resolve_right ?_
  rintro ⟨t, ht, himport⟩
  exact (derives_of_run hrun).not_import hname nofun t ht himport

theorem sameSize_spec {name : Symbol} {n : Nat} (hspec : name.isSpec = true) :
    (amendTrack q change worth).SameSize Symbol.rule 10 ((amendTrack q change worth).Inside n)
      (.ref name) (.ref name) := by
  rintro i j ts ts' us us' later later' n m ⟨place, hahead⟩ hrun hrun' hread
  have hread : AmendedParts change i j later later' := hread
  rw [Tree.sizeOfParts_eq (full_of_run hrun), Tree.sizeOfParts_eq (full_of_run hrun')]
  by_cases heq : i.1 = j.1
  · rw [extent_copied (hread.copied heq).2]
  · have hlt : i.1 < j.1 := by
      have := hread.le
      omega
    have hinner : name.isInner = true := by
      cases name <;> first | rfl | cases hspec
    obtain ⟨hspread, hspread'⟩ := hread.spread hlt hinner hrun
    have hlong {ts us : List Token} {last : List Tree} {n : Nat} (horderly : Orderly ts)
        (hrun : run Symbol.rule n (.ref name) [] ts = .read last us)
        (hspread : Spread (yield last [])) :
        10 < endOf 0 (yield last []) - startOf (yield last []) := by
      obtain ⟨source, lo, hrow⟩ := horderly.row_of_run hrun
      obtain ⟨t, rest, hyield, hname, htext⟩ := exists_name_of_run_spec hspec horderly hrun
      rw [hyield] at hrow hspread ⊢
      exact hspread.lt_extent_of_name hrow hname htext
    exact iff_of_true (hlong hahead.orderly hrun hspread) (hlong hahead.orderly' hrun' hspread')

/-- A single statement is short on both sides or on neither. -/
theorem sameSize_statement {n : Nat} :
    (amendTrack q change worth).SameSize Symbol.rule 9 ((amendTrack q change worth).Inside n)
      (.ref .statement) (.ref .statement) := by
  rintro i j ts ts' us us' later later' n m ⟨place, hahead⟩ hrun hrun' hread
  have hread : AmendedParts change i j later later' := hread
  rw [Tree.sizeOfParts_eq (full_of_run hrun), Tree.sizeOfParts_eq (full_of_run hrun')]
  by_cases heq : i.1 = j.1
  · rw [extent_copied (hread.copied heq).2]
  · have hlt : i.1 < j.1 := by
      have := hread.le
      omega
    obtain ⟨hspread, hspread'⟩ := hread.spread hlt rfl hrun
    obtain ⟨source, lo, hrow⟩ := hahead.orderly.row_of_run hrun
    obtain ⟨source', lo', hrow'⟩ := hahead.orderly'.row_of_run hrun'
    exact iff_of_true (hspread.lt_extent hrow) (hspread'.lt_extent hrow')

def KeptAhead (q : String) (change : Change) (worth : Nat) : (amendTrack q change worth).Point :=
  fun i ts ts' => AmendedAhead q change worth i ts ts' ∧ ∀ t rest, ts = t :: rest →
    (∀ t' rest', ts' = t' :: rest' → t.Copied i.1 i.2 t' ∧ Amended q change i rest rest') ∧
      (t.kind = .word → ∀ u kind children, u.span = t.span →
        change kind (Tree.token u :: children) = none)

theorem KeptAhead.passes {n : Nat} {terminal : Terminal} : Passes (KeptAhead q change worth)
    ((amendTrack q change worth).Inside n) terminal := by
  rintro i t t' ts ts' ⟨hahead, hkept⟩ -
  obtain ⟨hcopied, hlater⟩ := (hkept t ts rfl).1 t' ts' rfl
  have hworth := hahead.worth_le
  rw [Token.worthAll_cons] at hworth
  exact ⟨i, ⟨.other, hlater, hahead.orderly.tail, hahead.orderly'.tail, by omega⟩, .token hcopied⟩

/-- Statements and declarations that are not replaced are amended by their children. -/
theorem KeptAhead.node {t : Token} {kind : String} {later : List Tree}
    (h : KeptAhead q change worth i (t :: ts) ts') (ht : t.kind = .word)
    (hread : AmendedParts change i j (later ++ [Tree.token t]) parts') :
    AmendedParts change i j [.node kind .plain (later ++ [Tree.token t]).reverse]
      [.node kind .plain parts'.reverse] := by
  refine hread.node ?_
  rw [List.reverse_append]
  exact (h.2 t ts rfl).2 ht t kind later.reverse rfl

private theorem exists_mem_stop {lo : Nat} (h : ts ≠ []) : ∃ t ∈ ts, t.span.stop = endOf lo ts := by
  induction ts generalizing lo with
  | nil => contradiction
  | cons t ts ih =>
    cases ts with
    | nil => exact ⟨t, List.mem_cons_self, rfl⟩
    | cons u ts =>
      obtain ⟨v, hv, hstop⟩ := @ih t.span.stop nofun
      exact ⟨v, List.mem_cons_of_mem t hv, hstop⟩

/-- A return of ten bytes is a stretch. -/
theorem spread_returnTree {r : Token} {mid rest : List Token} {Xs : List Tree}
    (hr : (Terminal.word "return").accepts r = true)
    (h : Ends Symbol.rule (.ref .returnStatement) [] (r :: (mid ++ rest))
      (.read [returnTree r Xs] rest)) (hsize : r.span.start + 10 ≤ endOf 0 mid) :
    Spread (yield [returnTree r Xs] []) := by
  obtain ⟨-, fuel, hrun⟩ := h
  have hspan := span_of_read (show run Symbol.rule fuel (.ref .returnStatement) []
    ((r :: mid) ++ rest) = .read [returnTree r Xs] rest from hrun) nofun
  have hfull := full_of_run hrun (returnTree r Xs) (by simp)
  obtain ⟨hne, -, hstop⟩ := hfull.extent
  obtain ⟨b, hb, hbstop⟩ : ∃ b ∈ (returnTree r Xs).tokens, b.span.stop = endOf 0 _ :=
    exists_mem_stop hne
  have hmid : mid ≠ [] := by
    rintro rfl
    exact absurd hsize (by simp [endOf])
  have hend : endOf 0 (r :: mid) = endOf 0 mid := Token.endOf_append_of_ne hmid 0 0 [r]
  have hyield : yield [returnTree r Xs] [] = (returnTree r Xs).tokens := by simp [yield]
  rw [hyield]
  refine ⟨r, by simp [returnTree], b, hb, Terminal.sort_of_accepts hr rfl, ?_⟩
  have : (returnTree r Xs).stop = endOf 0 (r :: mid) := congrArg Span.stop hspan
  rw [hbstop, ← hstop 0, this, hend]
  exact hsize

/-- What was rejected before the rest is rejected before the amended rest. -/
theorem ends_rejected_amended {a : GoRule} {p q' bound : Nat} (hcheck : balance.check a p = some q')
    (ih : ∀ m < bound, ∀ a p q', balance.check a p = some q' → InStep Symbol.rule m
      ((amendTrack q change worth).Inside p) ((amendTrack q change worth).Inside q') a a)
    (hahead : AmendedAhead q change worth i ts ts')
    (h : ∃ n < bound, ∃ parts, run Symbol.rule n a parts ts = .rejected) (parts : List Tree) :
    Ends Symbol.rule a parts ts' .rejected := by
  obtain ⟨n, hn, parts', hrun⟩ := h
  have hagree := ih n hn a p q' hcheck i ts ts' ⟨.other, hahead⟩ _ (Nat.le_refl _) parts' parts
  rw [hrun] at hagree
  exact ends_of_run hagree nofun

private theorem halts_amended {bound : Nat}
    (ih : ∀ m < bound, ∀ a p q', balance.check a p = some q' → InStep Symbol.rule m
      ((amendTrack q change worth).Inside p) ((amendTrack q change worth).Inside q') a a)
    (hahead : AmendedAhead q change worth i ts ts') (h : HaltsWithin bound ts) :
    Halts closing ts' where
  suffix := ends_rejected_amended (show balance.check (suffixTail closing) 0 = some 0 from rfl) ih
    hahead h.suffix
  binary level hlevel := by
    have hcheck : balance.check (binaryTail closing level) 0 = some 0 := by
      obtain ⟨hlow, hhigh⟩ := hlevel
      match level with
      | 1 | 2 | 3 | 4 | 5 => rfl
    exact ends_rejected_amended hcheck ih hahead (h.binary level hlevel)

/-- Runs that end in ways that agree do so with any fuel that is enough for the second. -/
theorem agree_of_ends {L : Lockstep} {Q : L.Point} {i : L.Index} {a : GoRule} {more : Nat}
    {r r' : Reading} (h : Ends Symbol.rule a parts ts r) (h' : Ends Symbol.rule a parts' ts' r')
    (hmore : run Symbol.rule more a parts' ts' ≠ .starved) (hagree : Agree Q i parts parts' r r') :
    Agree Q i parts parts' (run Symbol.rule fuel a parts ts) (run Symbol.rule more a parts' ts') := by
  by_cases hstarved : run Symbol.rule fuel a parts ts = .starved
  · rw [hstarved]
    trivial
  · rw [h.run_eq hstarved, h'.run_eq hmore]
    exact hagree

/-- The last of the results that are wrapped is a name or a member. -/
theorem Grammar.Wraps.last_kind {rest ts ts' : List Token} {Xs leading : List Tree} {X : Tree}
    (h : Wraps q rest ts Xs ts') (hXs : Xs = leading ++ [X]) :
    X.kind = "selector_expression" ∨ isNameKind X.kind = true := by
  induction h generalizing leading with
  | @last _ _ _ _ _ _ _ Y _ hY =>
    obtain ⟨-, hX⟩ := List.append_inj' (show ([] : List Tree) ++ [Y] = leading ++ [X] from hXs) rfl
    obtain rfl : Y = X := by simpa using hX
    exact hY
  | @cons _ _ _ _ _ _ _ _ _ Y Ys _ _ _ _ _ later ih =>
    match leading with
    | [] | [_] => exact absurd hXs (by simp [later.ne_nil])
    | _ :: _ :: leading => exact ih (List.cons.inj (List.cons.inj hXs).2).2

theorem AmendedParts.returnTree {r r' : Token} {mid mid' rest rest' : List Token} {Xs Xs' : List Tree}
    (hlt : i.1 < j.1) (hr : (Terminal.word "return").accepts r = true)
    (hr' : (Terminal.word "return").accepts r' = true)
    (h : Ends Symbol.rule (.ref .returnStatement) [] (r :: (mid ++ rest))
      (.read [returnTree r Xs] rest))
    (h' : Ends Symbol.rule (.ref .returnStatement) [] (r' :: (mid' ++ rest'))
      (.read [returnTree r' Xs'] rest'))
    (hsize : r.span.start + 10 ≤ endOf 0 mid) (hsize' : r'.span.start + 10 ≤ endOf 0 mid')
    (hchange : change "return_statement" [.token r, .node "expression_list" .plain Xs] =
      some [.token r, .node "expression_list" .plain (wrapTrees q Xs)])
    (hbare : (returnTree r' Xs').bare = (returnTree r (wrapTrees q Xs)).bare) :
    AmendedParts change i j [returnTree r Xs] [returnTree r' Xs'] where
  bare := by
    rw [List.map_singleton, List.map_singleton, hbare]
    exact congrArg (fun t => [Tree.bare t]) (Tree.amend_of_some hchange .plain).symm
  le := Nat.le_of_lt hlt
  copied heq := absurd heq (Nat.ne_of_lt hlt)
  changed _ := .inl ⟨spread_returnTree hr h hsize, spread_returnTree hr' h' hsize'⟩

theorem AmendedAhead.rest {r r' : Token} {mid mid' rest rest' : List Token}
    (h : AmendedAhead q change worth i (r :: (mid ++ rest)) (r' :: (mid' ++ rest')))
    (hlater : Amended q change j rest rest') : AmendedAhead q change worth j rest rest' where
  amended := hlater
  orderly := h.orderly.tail.append
  orderly' := h.orderly'.tail.append
  worth_le := by
    have hworth := h.worth_le
    rw [Token.worthAll_cons, Token.worthAll_append] at hworth
    omega

/-- A return that is wrapped is read in step. -/
theorem agree_wrapped {n more : Nat} {r r' : Token} {mid mid' rest rest' : List Token}
    {Xs : List Tree} (hq : keywords.contains q = false ∧ valueWords.contains q = false)
    (ih : ∀ m < fuel, ∀ a p q', balance.check a p = some q' → InStep Symbol.rule m
      ((amendTrack q change worth).Inside p) ((amendTrack q change worth).Inside q') a a)
    (hmore : fuel + (amendTrack q change worth).slack ≤ more)
    (hahead : AmendedAhead q change worth i (r :: (mid ++ rest)) (r' :: (mid' ++ rest')))
    (hr : (Terminal.word "return").accepts r = true)
    (hr' : (Terminal.word "return").accepts r' = true)
    (hread : Ends Symbol.rule (.ref .returnStatement) [] (r :: (mid ++ rest))
      (.read [returnTree r Xs] rest))
    (hwraps : Wraps q rest mid Xs mid')
    (hchange : change "return_statement" [.token r, .node "expression_list" .plain Xs] =
        some [.token r, .node "expression_list" .plain (wrapTrees q Xs)])
    (hsize : r.span.start + 10 ≤ endOf 0 mid) (hsize' : r'.span.start + 10 ≤ endOf 0 mid')
    (hlt : i.1 < j.1) (later : Amended q change j rest rest') :
    Agree ((amendTrack q change worth).Inside n) i parts parts'
      (run Symbol.rule fuel (.ref .returnStatement) parts (r :: (mid ++ rest)))
      (run Symbol.rule more (.ref .returnStatement) parts' (r' :: (mid' ++ rest'))) := by
  have hparts : Ends Symbol.rule (.ref .returnStatement) parts (r :: (mid ++ rest))
      (.read (returnTree r Xs :: parts) rest) := .ref (hread.of_ref.node_parts parts)
  by_cases hstarved : run Symbol.rule fuel (.ref .returnStatement) parts (r :: (mid ++ rest)) = .starved
  · rw [hstarved]
    trivial
  have hrun := hparts.run_eq hstarved
  have hrest := hahead.rest later
  -- The run shows that the last result does not go on, so it does not before the amended rest.
  obtain ⟨r₂, -, ⟨-, hlast⟩ | ⟨results, Ys, -, hlisted, -, hlast, htail⟩⟩ := exists_of_run_return hrun
  · cases hlast
  obtain ⟨rfl, rfl⟩ : r = r₂ ∧ Xs = Ys := by simpa [returnTree] using hlast
  obtain ⟨leading, X, m, as, hXs, hm, hresult⟩ := hlisted.exists_last
  have hX : X.kind ≠ "binary_expression" ∧ X.kind ≠ "unary_expression" := by
    rcases hwraps.last_kind hXs with hkind | hkind
    · rw [hkind]
      decide
    · refine ⟨?_, ?_⟩ <;> rintro heq <;> rw [heq] at hkind <;> cases hkind
  obtain ⟨hhalts, -⟩ := exists_of_run_result hresult hX
  have hhalts' := halts_amended (fun k hk => ih k (by omega)) hrest hhalts
  have htail' := ends_rejected_amended (show balance.check resultTail 0 = some 0 from rfl) ih hrest htail
  obtain ⟨Xs', hbare, hends⟩ := hwraps.exists_ends_return hq hr hr' hhalts' htail'
  have hmore' : run Symbol.rule more (.ref .returnStatement) parts' (r' :: (mid' ++ rest')) ≠ .starved := by
    refine run_ref_ne_starved ?_
    have := hahead.worth_le
    have : (amendTrack q change worth).slack = 91 + 64 * worth := rfl
    omega
  refine agree_of_ends hparts (hends parts') hmore' ⟨j, _, rest', rfl, ⟨.other, hrest⟩, fun k hk => ?_⟩
  exact AmendedParts.append hk
    (.returnTree hlt hr hr' hread (hends []) hsize hsize' hchange hbare)

/-- A statement with another first word is none of this kind. -/
theorem agree_other_word {Q : (amendTrack q change worth).Point} {name : Symbol} {kind text : String}
    {a : GoRule} {t t' : Token} {more : Nat} (hname : name.rule = .node kind (word text ++ a))
    (hmore : fuel + (amendTrack q change worth).slack ≤ more)
    (hahead : AmendedAhead q change worth i (t :: ts) (t' :: ts')) (ht : t.text ≠ text) :
    Agree Q i parts parts' (run Symbol.rule fuel (.ref name) parts (t :: ts))
      (run Symbol.rule more (.ref name) parts' (t' :: ts')) := by
  have hends {t : Token} {ts : List Token} (ht : t.text ≠ text) (parts : List Tree) :
      Ends Symbol.rule (.ref name) parts (t :: ts) .rejected := by
    refine .ref ?_
    rw [hname]
    exact .node_rejected (.seq_rejected (ends_token_rejected (by simp [ht])))
  have ht' : t'.text ≠ text := by
    cases hahead.amended.sameHead with
    | cons _ htext => rwa [← htext]
  refine agree_of_ends (hends ht parts) (hends ht' parts') (run_ref_ne_starved ?_) rfl
  have := hahead.worth_le
  have : (amendTrack q change worth).slack = 91 + 64 * worth := rfl
  omega

theorem inStep_return {n : Nat} (hq : keywords.contains q = false ∧ valueWords.contains q = false)
    (ih : ∀ m < fuel, ∀ a p q', balance.check a p = some q' → InStep Symbol.rule m
      ((amendTrack q change worth).Inside p) ((amendTrack q change worth).Inside q') a a) :
    InStep Symbol.rule fuel ((amendTrack q change worth).Inside n)
      ((amendTrack q change worth).Inside n) (.ref .returnStatement) (.ref .returnStatement) := by
  have hword {t : Token} (ht : (Terminal.word "return").accepts t = true) : t.kind = .word :=
    (Terminal.accepts_word.mp ht).1
  have hkept : InStep Symbol.rule fuel (KeptAhead q change worth)
      ((amendTrack q change worth).Inside n) (.ref .returnStatement) (.ref .returnStatement) :=
    Track.inStep_returns_from (fun _ _ _ h => h.1.amended.sameHead) KeptAhead.passes
      (fun _ _ _ _ _ _ _ h ht hread => h.node (hword ht) hread) ih
  rintro i ts ts' ⟨place, hahead⟩ more hmore parts parts'
  cases hahead.amended with
  | nil => exact hkept i [] [] ⟨hahead, by rintro _ _ ⟨⟩⟩ more hmore parts parts'
  | kept hcopied _ hnone later =>
    refine hkept i _ _ ⟨hahead, fun u rest heq => ?_⟩ more hmore parts parts'
    obtain ⟨rfl, rfl⟩ := List.cons.inj heq
    refine ⟨fun u' rest' heq' => ?_, hnone⟩
    obtain ⟨rfl, rfl⟩ := List.cons.inj heq'
    exact ⟨hcopied, later⟩
  | wrapped hr hr' _ hread hwraps hchange hsize hsize' hlt later =>
    exact agree_wrapped hq ih hmore hahead hr hr' (hread _ hr) hwraps (hchange _ rfl) hsize hsize'
      hlt later
  | grouped hm =>
    rw [Terminal.accepts_word] at hm
    exact agree_other_word rfl hmore hahead (by simp [hm.2])

theorem amendGuards (hq : keywords.contains q = false ∧ valueWords.contains q = false)
    (hkept : ∀ kind children, isKept kind = true → change kind children = none) :
    (amendTrack q change worth).Guards where
  depth_eq_zero h := h.elim
  keeps hkind := fun _ _ children _ h => h.node (hkept _ children.reverse hkind)
  sameSize := sameSize_spec
  returns := inStep_return hq

private theorem exists_of_run_import_body {children : List Tree}
    (h : run Symbol.rule fuel (word "import" ++ (.ref .importSpec |||
      .node "import_spec_list" (parens (lines (.ref .importSpec))))) [] ts = .read children us) :
    ∃ t rest later, (Terminal.word "import").accepts t = true ∧ ts = t :: rest ∧
      children = later ++ [Tree.token t] := by
  have hderives := derives_of_run h
  cases hderives with
  | seq hword hspecs =>
    cases hword with
    | token ht =>
      cases hspecs with
      | altLeft hspec =>
        cases hspec with
        | ref _ hspec =>
          cases hspec
          exact ⟨_, _, [_], ht, rfl, rfl⟩
      | altRight hlist =>
        cases hlist
        exact ⟨_, _, [_], ht, rfl, rfl⟩

theorem inStep_imports (hq : keywords.contains q = false ∧ valueWords.contains q = false)
    (hkept : ∀ kind children, isKept kind = true → change kind children = none) :
    InStepAlways Symbol.rule ((amendTrack q change worth).Inside 0)
      ((amendTrack q change worth).Inside 0)
      (.ref .importSpec ||| .node "import_spec_list" (parens (lines (.ref .importSpec))))
      (.ref .importSpec ||| .node "import_spec_list" (parens (lines (.ref .importSpec)))) := by
  have hguards := @amendGuards q change worth hq hkept
  have hinside {a : GoRule} {m n : Nat} (h : balance.check a m = some n) :
      InStepAlways Symbol.rule ((amendTrack q change worth).Inside m)
        ((amendTrack q change worth).Inside n) a a := fun _ => Track.inStep_inside hguards h
  have hspec (n : Nat) : InStepAlways Symbol.rule ((amendTrack q change worth).Inside n)
      ((amendTrack q change worth).Inside n) (.ref .importSpec) (.ref .importSpec) := by
    have hcheck := balance_add (show balance.check Symbol.importSpec.rule 0 = some 0 from rfl) n
    rw [Nat.zero_add] at hcheck
    exact .ref (hinside hcheck)
  have hterminator : InStepAlways Symbol.rule ((amendTrack q change worth).Inside 1)
      ((amendTrack q change worth).Inside 1) terminator terminator := hinside rfl
  have hlines : InStepAlways Symbol.rule ((amendTrack q change worth).Inside 1)
      ((amendTrack q change worth).Inside 1) (lines (.ref .importSpec)) (lines (.ref .importSpec)) :=
    .alt (.seq (.seq (hspec 1) (.many (.seq hterminator (hspec 1)))) (.alt hterminator .empty)) .empty
  have hparens : InStepAlways Symbol.rule ((amendTrack q change worth).Inside 0)
      ((amendTrack q change worth).Inside 0) (parens (lines (.ref .importSpec)))
      (parens (lines (.ref .importSpec))) := .seq (.seq (hinside rfl) hlines) (hinside rfl)
  exact .alt (hspec 0) (.of_succ fun fuel => (hparens fuel).node (hguards.keeps rfl))

theorem AmendedParts.group {m m' : Token} {cs children Ss : List Tree} (hlt : i.1 < j.1)
    (hm : (Terminal.word "import").accepts m = true)
    (hm' : (Terminal.word "import").accepts m' = true)
    (hchange : change "import_declaration" (.token m :: cs) = some (groupChildren m Ss))
    (hbare : children.map Tree.bare = (groupChildren m' Ss).map Tree.bare) :
    AmendedParts change i j [.node "import_declaration" .plain (.token m :: cs)]
      [.node "import_declaration" .plain children] := by
  rw [Terminal.accepts_word] at hm hm'
  refine ⟨?_, Nat.le_of_lt hlt, fun heq => absurd heq (Nat.ne_of_lt hlt), fun _ => .inr ?_⟩
  · simp [Tree.amend_of_some hchange, hbare, groupChildren, Token.bare, hm, hm']
  · exact ⟨m, by simp [yield], hm⟩

/-- Import declarations are read in step, whether one is laid out anew or not. -/
theorem inStep_import (hq : keywords.contains q = false ∧ valueWords.contains q = false)
    (hkept : ∀ kind children, isKept kind = true → change kind children = none) :
    InStepAlways Symbol.rule ((amendTrack q change worth).Inside 0)
      ((amendTrack q change worth).Inside 0) (.ref .importDeclaration) (.ref .importDeclaration) := by
  have hbody : InStepAlways Symbol.rule (KeptAhead q change worth)
      ((amendTrack q change worth).Inside 0) _ _ :=
    .seq (fun _ => inStep_token (fun _ _ _ h => h.1.amended.sameHead)
      (KeptAhead.passes : Passes _ _ (.word "import"))) (inStep_imports hq hkept)
  have hdeclaration : InStepAlways Symbol.rule (KeptAhead q change worth)
      ((amendTrack q change worth).Inside 0) (.ref .importDeclaration) (.ref .importDeclaration) := by
    refine .ref (.of_succ fun fuel => (hbody fuel).node_of ?_)
    intro i j ts ts' us children children' hahead hrun hread
    obtain ⟨t, rest, later, ht, rfl, rfl⟩ := exists_of_run_import_body hrun
    exact hahead.node (Terminal.accepts_word.mp ht).1 hread
  rintro fuel i ts ts' ⟨place, hahead⟩ more hmore parts parts'
  cases hahead.amended with
  | nil => exact hdeclaration fuel i [] [] ⟨hahead, by rintro _ _ ⟨⟩⟩ more hmore parts parts'
  | kept hcopied _ hnone later =>
    refine hdeclaration fuel i _ _ ⟨hahead, fun u rest heq => ?_⟩ more hmore parts parts'
    obtain ⟨rfl, rfl⟩ := List.cons.inj heq
    refine ⟨fun u' rest' heq' => ?_, hnone⟩
    obtain ⟨rfl, rfl⟩ := List.cons.inj heq'
    exact ⟨hcopied, later⟩
  | wrapped hr =>
    rw [Terminal.accepts_word] at hr
    exact agree_other_word rfl hmore hahead (by simp [hr.2])
  | @grouped i j m m' mid mid' rest rest' Ss cs hm hm' _ hread hread' hchange hlt later =>
    obtain ⟨children, hbare, hends⟩ := hread' m' hm'
    have hrest := hahead.rest later
    have hparts : Ends Symbol.rule (.ref .importDeclaration) parts (m :: (mid ++ rest))
        (.read (.node "import_declaration" .plain (.token m :: cs) :: parts) rest) :=
      .ref ((hread m hm).of_ref.node_parts parts)
    refine agree_of_ends hparts (hends parts') (run_ref_ne_starved ?_)
      ⟨j, _, rest', rfl, ⟨.other, hrest⟩, fun k hk => ?_⟩
    · have := hahead.worth_le
      have : (amendTrack q change worth).slack = 91 + 64 * worth := rfl
      omega
    · exact AmendedParts.append hk (.group hlt hm hm' (hchange m rfl) hbare)

theorem inStep_topLevel (hq : keywords.contains q = false ∧ valueWords.contains q = false)
    (hkept : ∀ kind children, isKept kind = true → change kind children = none) :
    InStepAlways Symbol.rule ((amendTrack q change worth).Inside 0)
      ((amendTrack q change worth).Inside 0) (.ref .topLevel) (.ref .topLevel) := by
  have hinside {a : GoRule} (h : balance.check a 0 = some 0) : InStepAlways Symbol.rule
      ((amendTrack q change worth).Inside 0) ((amendTrack q change worth).Inside 0) a a :=
    fun _ => Track.inStep_inside (amendGuards hq hkept) h
  exact .ref (.alt (hinside rfl) (.alt (hinside rfl) (.alt (hinside rfl) (inStep_import hq hkept))))

theorem inStep_source (hq : keywords.contains q = false ∧ valueWords.contains q = false)
    (hkept : ∀ kind children, isKept kind = true → change kind children = none) :
    InStepAlways Symbol.rule ((amendTrack q change worth).Inside 0)
      ((amendTrack q change worth).Inside 0) (.ref .source) (.ref .source) := by
  have hinside {a : GoRule} (h : balance.check a 0 = some 0) : InStepAlways Symbol.rule
      ((amendTrack q change worth).Inside 0) ((amendTrack q change worth).Inside 0) a a :=
    fun _ => Track.inStep_inside (amendGuards hq hkept) h
  have hstatement : InStepAlways Symbol.rule ((amendTrack q change worth).Inside 0)
      ((amendTrack q change worth).Inside 0) (.ref .statement) (.ref .statement) := hinside rfl
  have hfinish : InStepAlways Symbol.rule ((amendTrack q change worth).Inside 0)
      ((amendTrack q change worth).Inside 0) (.token (.kind .finish)) (.token (.kind .finish)) := by
    refine fun _ => inStep_token (fun _ _ _ h => h.choose_spec.amended.sameHead) ?_
    rintro i t t' ts ts' ⟨place, hahead⟩ haccepts
    have hkind : t.kind = .finish := Terminal.accepts_kind.mp haccepts
    obtain ⟨hcopied, hlater⟩ := hahead.amended.copied fun h => by simp [hkind] at h
    have hworth := hahead.worth_le
    rw [Token.worthAll_cons] at hworth
    exact ⟨i, ⟨.other, hlater, hahead.orderly.tail, hahead.orderly'.tail, by omega⟩, .token hcopied⟩
  have htop := @inStep_topLevel q change worth hq hkept
  have hitem : InStepAlways Symbol.rule ((amendTrack q change worth).Inside 0)
      ((amendTrack q change worth).Inside 0) ((.ref .topLevel ||| .ref .statement) ++ terminator)
      ((.ref .topLevel ||| .ref .statement) ++ terminator) :=
    .seq (.alt htop hstatement) (hinside rfl)
  exact .ref (.alt (.seq (.seq (.many hitem) (.alt htop .empty)) hfinish)
    (.alt (.seq (.seq (.seq hitem (.many hitem)) hstatement) hfinish)
      (.seq (.longer sameSize_statement hstatement) hfinish)))

/-- Amended tokens are read as the amended trees. -/
theorem exists_ofTokens?_amended (hq : keywords.contains q = false ∧ valueWords.contains q = false)
    (hkept : ∀ kind children, isKept kind = true → change kind children = none)
    (horderly : Orderly ts) (horderly' : Orderly ts') (hamended : Amended q change i ts ts')
    {trees : List Tree} (h : Tree.ofTokens? ts = some trees) :
    ∃ trees', Tree.ofTokens? ts' = some trees' ∧
      trees'.map Tree.bare = trees.map fun t => (t.amend change).bare := by
  unfold Tree.ofTokens? at h
  split at h
  · rename_i last parts hrun
    obtain rfl : parts.reverse = trees := Option.some.inj h
    have hahead : AmendedAhead q change (worthAll ts') i ts ts' :=
      ⟨hamended, horderly, horderly', Nat.le_refl _⟩
    have hagree := inStep_source hq hkept (fuel ts.length) i ts ts' ⟨.other, hahead⟩ _
      (Nat.le_refl _) [] []
    rw [hrun] at hagree
    obtain ⟨j, last', us', hrun', ⟨_, hexit⟩, hread⟩ := hagree
    obtain rfl : us' = [] := by
      cases hexit.amended
      rfl
    have hread : AmendedParts change i j (last :: parts) last' := hread i (.nil i)
    have hends := (ends_of_run hrun' nofun).run_eq (run_source_ne_starved ts')
    obtain ⟨last', parts', rfl, -, hparts⟩ := List.map_eq_cons_iff.mp hread.bare
    refine ⟨parts'.reverse, by simp [Tree.ofTokens?, hends], ?_⟩
    rw [List.map_reverse, hparts, List.map_reverse]
  · cases h

end
end SentinelWrap.Go
