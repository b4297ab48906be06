import SentinelWrap.Proofs.Go.Revision.Block

/-! The text of a return with its last result wrapped. The results are copied as they are written, so
it gives their tokens again. -/
namespace SentinelWrap.Go.Grammar
open Rule Token
open Text (size)
open Text.Identifier (isContinue)

/-- Lexemes in a row, each in front of the next one. -/
def LeadsAll (after : List Char) : List (TokenKind × String) → Prop
  | [] => True
  | p :: ps => Leads p.1 p.2.toList (ps.flatMap (fun p => p.2.toList) ++ after) ∧ LeadsAll after ps

theorem exists_spelled {after : List Char} {ps : List (TokenKind × String)} (h : LeadsAll after ps)
    (offset : Nat) : ∃ ts, Spells after offset none (ps.flatMap fun p => p.2.toList) ts none ∧
      Spelled ps ts := by
  induction ps generalizing offset with
  | nil => exact ⟨[], .nil, .nil⟩
  | cons p ps ih =>
    obtain ⟨ts, hspells, hspelled⟩ := ih h.2 (offset + size p.2.toList)
    refine ⟨_, (Spells.single h.1).append hspells, .cons ⟨rfl, ?_, rfl⟩ hspelled⟩
    rw [String.ofList_toList]

def IsQualifier (q : String) : Prop := q = "errors" ∨ q = "errorsPkg"

private theorem exists_front {q : String} (hq : IsQualifier q) (after : List Char) (offset : Nat) :
    ∃ front, Spells after offset none (q.toList ++ ".Wrap(".toList) front none ∧
      Spelled (wrapFront q) front := by
  rcases hq with rfl | rfl
  · have hleads : LeadsAll after (wrapFront "errors") :=
      ⟨leads_of_eval rfl rfl rfl, leads_of_eval rfl rfl rfl, leads_of_eval rfl rfl rfl,
        leads_of_eval rfl rfl rfl, trivial⟩
    exact exists_spelled hleads offset
  · have hleads : LeadsAll after (wrapFront "errorsPkg") :=
      ⟨leads_of_eval rfl rfl rfl, leads_of_eval rfl rfl rfl, leads_of_eval rfl rfl rfl,
        leads_of_eval rfl rfl rfl, trivial⟩
    exact exists_spelled hleads offset

private theorem exists_back (after : List Char) (offset : Nat) :
    ∃ back, Spells after offset none ", err.Error())".toList back none ∧ Spelled wrapBack back := by
  have hleads : LeadsAll after wrapBack.tail :=
    ⟨leads_of_eval rfl rfl rfl, leads_of_eval rfl rfl rfl, leads_of_eval rfl rfl rfl,
      leads_of_eval rfl rfl rfl, leads_of_eval rfl rfl rfl, leads_of_eval rfl rfl rfl, trivial⟩
  have hcomma : Leads .sign [','] (' ' :: (wrapBack.tail.flatMap (fun p => p.2.toList) ++ after)) :=
    leads_of_eval rfl rfl rfl
  obtain ⟨back, hspells, hspelled⟩ := exists_spelled hleads (offset + size [','] + ' '.utf8Size)
  have hall := (@Spells.single _ _ offset none _ hcomma).append (.blank rfl hspells)
  exact ⟨_, hall, .cons ⟨rfl, rfl, rfl⟩ hspelled⟩

/-- A result to wrap: a name or a member, the last word of which begins as those of sentinels do. -/
structure Wrappable (X : Tree) : Prop where
  kind : X.kind = "selector_expression" ∨ isNameKind X.kind = true
  word : ∀ w, (X = wordLeaf w ∨ ∃ Z d, X = memberOf Z d w) → "Err".toList <+: w.text.toList

def wrappedText (q : String) (leading : List (List Char)) (value : List Char) : List Char :=
  leading.flatMap (· ++ ", ".toList) ++
    (q.toList ++ ".Wrap(".toList ++ (value ++ ", err.Error())".toList))

private theorem unclosed_value {q : String} (hq : IsQualifier q) {value after : List Char}
    (hvalue : commentTail value = none) (hafter : commentTail after = none) :
    commentTail (wrappedText q [] value ++ after) = none := by
  have hmid : commentTail (value ++ (", err.Error())".toList ++ after)) = none := by
    refine (commentTail_append_iff (by simp)).mpr ⟨hvalue, ?_⟩
    simpa [commentTail_cons_eq_none] using hafter
  rcases hq with rfl | rfl <;> simpa [wrappedText, commentTail_cons_eq_none] using hmid

theorem wrappedText_cons (q : String) (first value : List Char) (leading : List (List Char)) :
    wrappedText q (first :: leading) value = first ++ (", ".toList ++ wrappedText q leading value) := by
  simp [wrappedText]

/-- A result before others leaves no comment open in the new text if the old one has none open. -/
theorem unclosed_cons {q : String} {gap first gap' rest value after : List Char}
    {leading : List (List Char)}
    (hlater : commentTail rest = none → commentTail (wrappedText q leading value ++ after) = none)
    (hclosed : commentTail (gap ++ (first ++ (gap' ++ (",".toList ++ rest)))) = none) :
    commentTail (wrappedText q (first :: leading) value ++ after) = none := by
  have hslice := commentTail_of_append hclosed
  have hrest := hlater (commentTail_of_append (commentTail_of_append (commentTail_of_append hslice)))
  rw [wrappedText_cons, List.append_assoc, commentTail_append_iff (by simp)]
  refine ⟨commentTail_front hslice, ?_⟩
  simpa [commentTail_cons_eq_none] using hrest

/-- What is known of the text of some results at the front of a text, and of the text in which the last
one is wrapped. -/
structure ResultsText (q : String) (source : List Char) (offset : Nat) (cs : List Char)
    (ts us : List Token) (Xs : List Tree) (leading : List (List Char)) (value : List Char)
    (covered after : List Char) : Prop where
  text : cs = covered ++ after
  size_covered : offset + size covered = endOf 0 ts
  long : 3 ≤ Text.size covered ∧ (Stops isContinue cs → 4 ≤ Text.size covered)
  rest : Lexes (endOf 0 ts) none after us
  slices : (Xs.filter Tree.isNode).map (fun X => X.span.slice? source) =
    (leading ++ [value]).map some
  unclosed : ∀ after', (commentTail after = none → commentTail after' = none) →
    commentTail cs = none → commentTail (wrappedText q leading value ++ after') = none
  spells : ∀ after' offset', (commentTail after = none → commentTail after' = none) →
    ∃ ts', Spells after' offset' none (wrappedText q leading value) ts' none ∧ Wraps q us ts Xs ts'

variable {q : String} {source before cs : List Char} {lineEnd : Option Nat} {as us : List Token}
  {X : Tree} {n : Nat}

private theorem mem_of_prefix_err {w : List Char} (h : "Err".toList <+: w) :
    ((∃ d ∈ w, Number.isNumeric d = false) ∧ 2 ≤ w.length) ∧ 3 ≤ Text.size w ∧
      ∀ r, ¬ Stops isContinue (w ++ r) := by
  obtain ⟨more, rfl⟩ := h
  refine ⟨⟨⟨'r', by simp, by decide⟩, by simp⟩, ?_, fun r hstops => ?_⟩
  · rw [Text.size_append]
    exact Nat.le_add_right _ _
  · exact absurd (stops_cons.mp hstops) (by decide)

/-- The text from the first token of an expression to its last one is the text at its span. -/
theorem slice?_span {init : List Token} {w : Token} {gap x r : List Char}
    (hrun : run Symbol.rule n (.ref (.expression closing)) [] (init ++ [w] ++ us) = .read [X] us)
    (hsource : source = before ++ (gap ++ (x ++ w.text.toList ++ r)))
    (hstart : size before + size gap = startOf (init ++ [w]))
    (hstop : startOf (init ++ [w]) + size (x ++ w.text.toList) = w.span.stop) :
    X.span.slice? source = some (x ++ w.text.toList) := by
  have hend : endOf 0 (init ++ [w]) = w.span.stop := endOf_append_of_ne (by simp) 0 0 init
  rw [span_of_read hrun (by simp)]
  refine Span.slice?_eq_some_iff.mpr ⟨before ++ gap, r, by simp [hsource], ?_, ?_⟩
  · rw [Text.size_append, hstart]
  · rw [Text.size_append, hstart, hstop, hend]

/-- The last result. -/
theorem exists_text_last (hq : IsQualifier q) (hus : us ≠ [])
    (hrun : run Symbol.rule n (.ref (.expression closing)) [] (as ++ us) = .read [X] us)
    (hX : Wrappable X) (hsource : source = before ++ cs)
    (h : Lexes (size before) lineEnd cs (as ++ us)) :
    ∃ value covered after,
      ResultsText q source (size before) cs as us [X] [] value covered after := by
  obtain ⟨init, w, rfl, hword, hlast⟩ := exists_last_word hrun hX.kind
  obtain ⟨herr, hlong, hgoes⟩ := mem_of_prefix_err (hX.word w hlast)
  have hend : endOf 0 (init ++ [w]) = w.span.stop := endOf_append_of_ne (by simp) 0 0 init
  rw [List.append_assoc, List.singleton_append] at h
  obtain ⟨gap, x, r, rfl, -, hstart, hstop, hleads, hrest, hcopy⟩ := h.exists_slice hus
  rw [hword] at hleads hcopy
  obtain ⟨c, w', hw, hc, hw', hr⟩ := hleads.word
  refine ⟨x ++ w.text.toList, gap ++ (x ++ w.text.toList), r, by simp, ?_, ⟨?_, fun hstops => ?_⟩, ?_,
    ?_, fun after' hopen hclosed => ?_, fun after' offset' hopen => ?_⟩
  · rw [hend, ← hstop, Text.size_append]
    omega
  · simp only [Text.size_append]
    omega
  · by_contra hshort
    simp only [Text.size_append] at hshort
    obtain rfl := Text.size_eq_zero_iff.mp (show size gap = 0 by omega)
    obtain rfl := Text.size_eq_zero_iff.mp (show size x = 0 by omega)
    exact hgoes r (by simpa using hstops)
  · rwa [hend]
  · have hnode := isNode_of_expression (derives_of_run hrun)
    simp [hnode, slice?_span hrun hsource hstart hstop]
  · rw [← List.append_assoc gap] at hclosed
    have hvalue := commentTail_of_append (commentTail_front hclosed)
    exact unclosed_value hq hvalue (hopen (commentTail_of_append hclosed))
  · have hback : commentTail r = none → commentTail (" err.Error())".toList ++ after') = none := by
      intro hclosed
      simpa [commentTail_cons_eq_none] using hopen hclosed
    have hcomma : Leads .word w.text.toList (", err.Error())".toList ++ after') := by
      rw [hw]
      exact leads_word hc hw' (stops_cons.mpr (by decide))
    obtain ⟨front, hfront, hfront'⟩ := exists_front hq
      (x ++ w.text.toList ++ ", err.Error())".toList ++ after') offset'
    obtain ⟨copy, hspells, hmoved⟩ := hcopy (", err.Error())".toList ++ after')
      (offset' + size (q.toList ++ ".Wrap(".toList)) (follows_word hr herr (.inl rfl) hback) hcomma
    obtain ⟨back, hback, hback'⟩ := exists_back after' (offset' +
      size (q.toList ++ ".Wrap(".toList) + size (x ++ w.text.toList))
    exact ⟨_, hfront.append (hspells.append hback), .last hrun hX.kind hmoved hfront' hback'⟩

theorem ne_nil_of_expression
    (h : run Symbol.rule n (.ref (.expression closing)) [] (as ++ us) = .read [X] us) : as ≠ [] := by
  rintro rfl
  have hderives := derives_of_run h
  obtain ⟨mid, hmid, hconsumes⟩ := hderives.consumes cuts_rule rfl
  obtain ⟨mid', hmid', -, hreads, -⟩ := hderives.exists_yield leads_rule
  obtain rfl := hconsumes.eq_nil
  exact hreads rfl (by simpa using hmid'.symm.trans hmid)

theorem exists_last_token
    (h : run Symbol.rule n (.ref (.expression closing)) [] (as ++ us) = .read [X] us) :
    ∃ init w, as = init ++ [w] := by
  rcases List.eq_nil_or_concat as with hnil | ⟨init, w, heq⟩
  · exact absurd hnil (ne_nil_of_expression h)
  · exact ⟨init, w, heq.trans List.concat_eq_append⟩

/-- A gap in front of a comma begins with a blank or a comment, or is empty. -/
theorem head_of_gap {gap rest : List Char} {offset : Nat} {mark : Option Nat}
    (h : Spells (",".toList ++ rest) offset lineEnd gap [] mark) :
    ∀ d ∈ (gap ++ (",".toList ++ rest)).head?, isBlank d = true ∨ d = '/' ∨ d = ',' := by
  intro d hd
  cases gap with
  | nil => exact .inr (.inr (Option.some.inj hd).symm)
  | cons e gap =>
    rcases h.head_of_nil d hd with hblank | hslash
    · exact .inl hblank
    · exact .inr (.inl hslash)

/-- A result before others. -/
theorem exists_text_cons {ts : List Token} {c : Token} {Xs : List Tree} (hus : us ≠ [])
    (hrun : run Symbol.rule n (.ref (.expression closing)) [] (as ++ c :: (ts ++ us)) =
      .read [X] (c :: (ts ++ us)))
    (hc : (Terminal.sign ",").accepts c = true) (hline : c.lineEnd = none)
    (hlater : ∀ before cs lineEnd, source = before ++ cs → Lexes (size before) lineEnd cs (ts ++ us) →
      ∃ leading value covered after,
        ResultsText q source (size before) cs ts us Xs leading value covered after)
    (hsource : source = before ++ cs) (h : Lexes (size before) lineEnd cs (as ++ c :: ts ++ us)) :
    ∃ leading value covered after, ResultsText q source (size before) cs (as ++ c :: ts) us
      (X :: .token c :: Xs) leading value covered after := by
  have hnode := isNode_of_expression (derives_of_run hrun)
  obtain ⟨init, w, rfl⟩ := exists_last_token hrun
  have hend : endOf 0 (init ++ [w]) = w.span.stop := endOf_append_of_ne (by simp) 0 0 init
  have hall : init ++ [w] ++ c :: ts ++ us = init ++ w :: (c :: (ts ++ us)) := by simp
  rw [hall] at h
  obtain ⟨gap, x, r, rfl, -, hstart, hstop, hleads, hrest, hcopy⟩ := h.exists_slice (by simp)
  have hcut := @Lexes.cut _ _ _ [] _ _ hrest (by simp [hus])
  obtain ⟨gap', r', rfl, hgap, hcomma, hcstart, hcstop, hrest'⟩ := hcut
  have htext : c.text = "," := (Terminal.accepts_sign.mp hc).2
  rw [htext] at hgap hcomma hcstop hcopy hsource hleads ⊢
  have hbefore : size (before ++ (gap ++ (x ++ w.text.toList ++ (gap' ++ ",".toList)))) =
      c.span.stop := by
    simp only [Text.size_append] at hstop ⊢
    omega
  obtain ⟨leading, value, covered, after, rfl, hsize, hlong, hafter, hslices, hunclosed, hspells⟩ :=
    hlater (before ++ (gap ++ (x ++ w.text.toList ++ (gap' ++ ",".toList)))) r' none
      (by simp [hsource]) (by rwa [hbefore])
  have hts : ts ≠ [] := by
    rintro rfl
    simp only [endOf] at hsize
    omega
  have hend' : endOf 0 (init ++ [w] ++ c :: ts) = endOf 0 ts := by
    rw [List.append_cons]
    exact endOf_append_of_ne hts 0 0 _
  refine ⟨(x ++ w.text.toList) :: leading, value,
    gap ++ (x ++ w.text.toList) ++ (gap' ++ ",".toList) ++ covered, after, by simp, ?_, ?_, ?_, ?_,
    fun after' hopen hclosed => ?_, fun after' offset' hopen => ?_⟩
  · rw [hend', ← hsize]
    simp only [Text.size_append]
    omega
  · have hone : size ",".toList = 1 := rfl
    simp only [Text.size_append, hone]
    omega
  · rwa [hend']
  · have hfilter : (X :: .token c :: Xs).filter Tree.isNode = X :: Xs.filter Tree.isNode :=
      List.filter_cons_of_pos hnode
    rw [hfilter, List.map_cons, slice?_span hrun hsource hstart hstop, hslices]
    rfl
  · exact unclosed_cons (hunclosed after' hopen) hclosed
  · have hopen' : commentTail (gap' ++ (",".toList ++ (covered ++ after))) = none →
        commentTail (' ' :: (wrappedText q leading value ++ after')) = none := by
      intro hclosed
      rw [commentTail_cons_eq_none]
      exact ⟨by simp, hunclosed after' hopen (commentTail_of_append (commentTail_of_append hclosed))⟩
    have hfollows := follows_comma (head_of_gap hgap) hopen'
    have hcomma' : Leads .sign [','] (' ' :: (wrappedText q leading value ++ after')) :=
      leads_of_eval rfl rfl rfl
    obtain ⟨copy, hfirst, hmoved⟩ := hcopy _ offset' (by simpa using hfollows.prepend w.text.toList)
      (hleads.follows hfollows)
    obtain ⟨ts', hlast, hwraps⟩ := hspells after'
      (offset' + size (x ++ w.text.toList) + size [','] + ' '.utf8Size) hopen
    have hall := hfirst.append ((Spells.single hcomma').append (.blank rfl hlast))
    rw [wrappedText_cons]
    exact ⟨_, hall, .cons hrun hc hline hmoved (.cons ⟨rfl, rfl, rfl⟩ .nil) hwraps⟩

/-- The text of the results of a return, and of those with the last one wrapped. -/
theorem Listed.exists_text {fuel : Nat} {ts : List Token} {Xs : List Tree}
    (h : Listed fuel us ts Xs) (hq : IsQualifier q) (hus : us ≠ [])
    (hX : ∀ X, Xs.getLast? = some X → Wrappable X) (hsource : source = before ++ cs)
    (hlexes : Lexes (size before) lineEnd cs (ts ++ us)) :
    ∃ leading value covered after,
      ResultsText q source (size before) cs ts us Xs leading value covered after := by
  induction h generalizing before cs lineEnd with
  | last _ hrun => exact ⟨[], exists_text_last hq hus hrun (hX _ rfl) hsource hlexes⟩
  | cons _ hrun hc hline _ ih =>
    refine exists_text_cons hus hrun hc hline (fun before cs lineEnd hsource hlexes => ?_) hsource hlexes
    exact ih (fun Y hY => hX Y (by simp [List.getLast?_cons, hY])) hsource hlexes

theorem Wraps.length_le {ts ts' : List Token} {Xs : List Tree} (h : Wraps q us ts Xs ts') :
    10 ≤ ts'.length := by
  induction h with
  | last _ _ _ hfront hback =>
    have hfront' : 4 = _ := hfront.length_eq
    have hback' : 7 = _ := hback.length_eq
    simp only [List.length_append]
    omega
  | cons _ _ _ _ _ _ ih =>
    simp only [List.length_append, List.length_cons]
    omega

/-- A return with results of which the last one is to be wrapped is a block. -/
theorem ResultsText.block {change : Change} {r : Token} {ts : List Token} {Xs : List Tree}
    {leading : List (List Char)} {value covered after : List Char}
    (h : ResultsText q source r.span.stop cs ts us Xs leading value covered after)
    (hr : (Terminal.word "return").accepts r = true)
    (hstop : r.span.start + size r.text.toList = r.span.stop) (hstops : Stops isContinue cs)
    (hread : ∀ u, (Terminal.word "return").accepts u = true → Ends Symbol.rule
      (.ref .returnStatement) [] (u :: (ts ++ us)) (.read [returnTree u Xs] us))
    (hchange : ∀ u, u.span = r.span → change "return_statement"
      [.token u, .node "expression_list" .plain Xs] =
        some [.token u, .node "expression_list" .plain (wrapTrees q Xs)]) :
    Block q change r ts us covered after (wrappedText q leading value) := by
  have htext : r.text = "return" := (Terminal.accepts_word.mp hr).2
  rw [htext] at hstop
  refine ⟨fun after' hopen hclosed => ?_, fun {after' offset' mark' i j us'} hopen hmark hlt later => ?_⟩
  · rw [← h.text] at hclosed
    exact h.unclosed after' hopen hclosed
  · have hword : Leads .word "return".toList (' ' :: (wrappedText q leading value ++ after')) :=
      leads_of_eval rfl rfl rfl
    obtain ⟨ts', hspells, hwraps⟩ := h.spells after'
      (offset' + size "return".toList + ' '.utf8Size) hopen
    have hall := (@Spells.single _ _ offset' mark' _ hword).append (.blank rfl hspells)
    rw [htext]
    refine ⟨_, ts', hall, .wrapped hr rfl hmark hread hwraps hchange ?_ ?_ hlt later⟩
    · have hsize := h.size_covered
      have hlong := h.long.2 hstops
      have hsix : size "return".toList = 6 := rfl
      omega
    · have hlength := hspells.length_le (Nat.le_add_right_of_le (Nat.le_add_right _ _))
      have hten := hwraps.length_le
      have hend : endOf 0 ts' = endOf offset' ts' := endOf_append_of_ne
        (by rintro rfl; exact absurd hten (by decide)) 0 offset' []
      change offset' + 10 ≤ endOf 0 ts'
      omega

/-- A return with results, and the tokens behind it. -/
structure ReturnOf (tokens : List Token) (cs : List Tree) (pre : List Token) (r : Token)
    (mid us : List Token) (t : Token) (Xs : List Tree) (fuel : Nat) : Prop where
  tokens_eq : tokens = pre ++ r :: (mid ++ us)
  accepts : (Terminal.word "return").accepts r = true
  span_eq : t.span = r.span
  children : cs = [.token t, .node "expression_list" .plain Xs]
  listed : Listed fuel us mid Xs
  span : (returnTree t Xs).span = ⟨r.span.start, endOf 0 mid⟩
  read : ∀ u, (Terminal.word "return").accepts u = true → Ends Symbol.rule
    (.ref .returnStatement) [] (u :: (mid ++ us)) (.read [returnTree u Xs] us)

theorem Listed.ne_nil {fuel : Nat} {ts : List Token} {Xs : List Tree} (h : Listed fuel us ts Xs) :
    ts ≠ [] := by
  cases h with
  | last _ hrun => exact ne_nil_of_expression hrun
  | cons => simp

theorem exists_returnOf {tokens : List Token} {cs : List Tree}
    (h : Sited Symbol.rule tokens "return_statement" cs) (hcs : 1 < cs.length) :
    ∃ pre r mid us t Xs fuel, ReturnOf tokens cs pre r mid us t Xs fuel := by
  obtain ⟨name, a, left, ts, us, fuel, hname, hconsumes, hrun⟩ := h
  obtain ⟨rfl, -⟩ | ⟨-, hkind⟩ | ⟨-, hkind⟩ := symbol_of_isSited rfl hname
  case inr.inl | inr.inr => exact absurd hkind (by decide)
  obtain ⟨t, ht, ⟨rfl, heq⟩ | ⟨mid, Xs, rfl, hlisted, -, heq, -⟩⟩ := exists_of_run_return hrun
  · simp only [List.cons.injEq, Tree.node.injEq, true_and, and_true] at heq
    rw [heq] at hcs
    exact absurd hcs (by simp)
  · obtain rfl : cs = [.token t, .node "expression_list" .plain Xs] := by simpa [returnTree] using heq
    obtain ⟨hkind, htext⟩ := Terminal.accepts_word.mp ht
    obtain ⟨pre, r, rfl, hkind', hunmarked⟩ := hconsumes.exists_head
    obtain ⟨-, htext', hspan⟩ : t.kind = r.kind ∧ t.text = r.text ∧ t.span = r.span := by
      simpa [Token.unmarked] using hunmarked (by simp [hkind])
    refine ⟨pre, r, mid, us, t, Xs, fuel, rfl, ?_, hspan, rfl, hlisted, ?_, fun u hu => ?_⟩
    · simp [← hkind', ← htext', hkind, htext]
    · have hall := @span_of_read _ _ (t :: mid) us fuel hrun (by simp)
      rw [returnTree, hall, ← hspan]
      exact congrArg _ (endOf_append_of_ne hlisted.ne_nil 0 0 [t])
    · cases fuel with
      | zero => cases hrun
      | succ fuel => exact .ref (ends_other_head onlyStacks_rule rfl hrun hu)

theorem Listed.exists_last_word {fuel : Nat} {ts : List Token} {Xs : List Tree}
    (h : Listed fuel us ts Xs) (hX : ∀ X, Xs.getLast? = some X → Wrappable X) :
    ∃ init w, ts = init ++ [w] ∧ w.kind = .word := by
  induction h with
  | last _ hrun =>
    obtain ⟨init, w, rfl, hw, -⟩ := Grammar.exists_last_word hrun (hX _ rfl).kind
    exact ⟨init, w, rfl, hw⟩
  | @cons _ as _ c _ _ _ _ _ _ _ ih =>
    obtain ⟨init, w, rfl, hw⟩ := ih fun Y hY => hX Y (by simp [List.getLast?_cons, hY])
    exact ⟨as ++ c :: init, w, by simp, hw⟩

/-- Something follows a return that ends in a result to wrap, if only the end of the text. -/
theorem ReturnOf.rest_ne_nil {tokens pre mid us : List Token} {r t : Token} {children Xs : List Tree}
    {fuel offset : Nat} {text : List Char} (h : ReturnOf tokens children pre r mid us t Xs fuel)
    (hX : ∀ X, Xs.getLast? = some X → Wrappable X) (hlexes : Lexes offset none text tokens) :
    us ≠ [] := by
  obtain ⟨init, w, hmid, hw⟩ := h.listed.exists_last_word hX
  have hall : tokens = (pre ++ r :: init) ++ [w] ++ us := by simp [h.tokens_eq, hmid]
  rw [hall] at hlexes
  exact hlexes.ne_nil_of_kind (by simp [hw])

/-- An edit that wraps the last result of a return replaces a block. -/
theorem ReturnOf.replacesBlock {change : Change} {tokens pre mid us : List Token} {r t : Token}
    {children Xs : List Tree} {fuel : Nat} {text : List Char} {e : Edit}
    (h : ReturnOf tokens children pre r mid us t Xs fuel) (hq : IsQualifier q)
    (hX : ∀ X, Xs.getLast? = some X → Wrappable X) (hsource : source = before ++ text)
    (hlexes : Lexes (size before) none text tokens)
    (hchange : ∀ u, u.span = r.span → change "return_statement"
      [.token u, .node "expression_list" .plain Xs] =
        some [.token u, .node "expression_list" .plain (wrapTrees q Xs)])
    (hrange : e.range = (returnTree t Xs).span)
    (hnew : ∀ leading value, (Xs.filter Tree.isNode).map (fun X => X.span.slice? source) =
      (leading ++ [value]).map some →
      e.newText.toList = "return".toList ++ ' ' :: wrappedText q leading value) :
    ReplacesBlock q change source tokens e := by
  obtain ⟨hkind, htext⟩ := Terminal.accepts_word.mp h.accepts
  have hus := h.rest_ne_nil hX hlexes
  rw [h.tokens_eq] at hlexes
  obtain ⟨x, y, rfl, -, hleads, hstart, hstop, hrest⟩ := hlexes.cut (by simp [hus])
  rw [hkind] at hleads
  obtain ⟨_, _, -, -, -, hstops⟩ := hleads.word
  have hfront : size (before ++ x ++ r.text.toList) = r.span.stop := by
    simp only [Text.size_append]
    omega
  rw [← hfront] at hrest
  have hsource' : source = before ++ x ++ r.text.toList ++ y := by simp [hsource]
  obtain ⟨leading, value, covered, after, hresults⟩ :=
    h.listed.exists_text hq hus hX hsource' hrest
  rw [hfront] at hresults
  refine ⟨pre, r, mid, us, before ++ x, covered, after, wrappedText q leading value, h.tokens_eq,
    ⟨hkind, .inl htext⟩, ⟨h.listed.ne_nil, hus⟩, by rw [hsource, ← hresults.text]; simp, ?_, hstop,
    hresults.size_covered, hrange.trans h.span, ?_, hresults.rest, ?_⟩
  · rw [Text.size_append, hstart]
  · rw [htext]
    exact hnew leading value hresults.slices
  · exact hresults.block h.accepts hstop hstops h.read hchange

end SentinelWrap.Go.Grammar
