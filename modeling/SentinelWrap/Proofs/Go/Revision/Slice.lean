import SentinelWrap.Proofs.Go.Grammar.Value
import SentinelWrap.Proofs.Go.Token.Relex

/-! Slices of a text from one token to another, and copies of them that something else follows. -/
namespace SentinelWrap.Go.Token
open Text (size)
open Text.Identifier (isStart isContinue)
open Number (isNumeric)

theorem commentTail_append_iff {x y : List Char} (h : y.head? ≠ some '/') :
    commentTail (x ++ y) = none ↔ commentTail x = none ∧ commentTail y = none := by
  induction x with
  | nil => simp [commentTail]
  | cons c x ih =>
    have hhead : (x ++ y).head? = some '/' ↔ x.head? = some '/' := by
      cases x with
      | nil => simp [h]
      | cons d x => rfl
    rw [List.cons_append, commentTail_cons_eq_none, commentTail_cons_eq_none, ih, hhead, and_assoc]

theorem commentTail_of_append {x y : List Char} (h : commentTail (x ++ y) = none) :
    commentTail y = none := by
  induction x with
  | nil => exact h
  | cons c x ih => exact ih (commentTail_cons_eq_none.mp h).2

theorem commentTail_front {x y : List Char} (h : commentTail (x ++ y) = none) :
    commentTail x = none := by
  have hnil : commentTail ([] : List Char) = none := rfl
  simpa using @commentTail_append_eq_none _ _ [] h (fun _ => hnil) (by simp)

section
variable {kind : TokenKind} {x r r' : List Char}

theorem Leads.ne_nil (h : Leads kind x r) : x ≠ [] := ne_nil_of_scan? h.scan

/-- A lexeme in front of something else that may follow it. -/
theorem Leads.follows (h : Leads kind x r) (hfollows : Follows [] r r') : Leads kind x r' where
  blank := h.blank
  comment := hfollows.scanComment_eq_none h.ne_nil h.comment
  scan := hfollows.scan?_eq h.ne_nil h.scan

theorem leads_word {c : Char} {w : List Char} (hc : isStart c = true)
    (hw : ∀ d ∈ w, isContinue d = true) (hr : Stops isContinue r) : Leads .word (c :: w) r where
  blank d hd := by
    obtain rfl := Option.some.inj hd
    by_contra hblank
    simp only [Bool.not_eq_false, isBlank, Bool.or_eq_true, beq_iff_eq] at hblank
    rcases hblank with ((rfl | rfl) | rfl) | rfl <;> exact absurd hc (by decide +kernel)
  comment := by
    have hne : c ≠ '/' := by
      rintro rfl
      exact absurd hc (by decide +kernel)
    rw [List.cons_append, scanComment] <;> simp [hne]
  scan := by
    have hstop : r.takeWhile isContinue = [] := by
      cases r with
      | nil => rfl
      | cons d r => simp [stops_cons.mp hr]
    rw [List.cons_append, scan?_of_isStart hc, List.takeWhile_append_of_pos hw, hstop]
    simp

/-- A word is as long as it can be. -/
theorem Leads.word (h : Leads .word x r) : ∃ c w, x = c :: w ∧ isStart c = true ∧
    (∀ d ∈ w, isContinue d = true) ∧ Stops isContinue r := by
  obtain ⟨c, w, rfl⟩ := List.exists_cons_of_ne_nil h.ne_nil
  obtain ⟨s, hs, hscan⟩ := exists_of_scan? h.scan
  obtain rfl : s = scanWord := by simpa [classes] using hs
  simp only [List.cons_append, scanWord, List.length_cons, Option.ite_none_right_eq_some,
    Option.some.injEq, Nat.add_right_cancel_iff] at hscan
  obtain ⟨hc, hlength⟩ := hscan
  have hprefix : (w ++ r).takeWhile isContinue = w := by
    have := List.takeWhile_prefix isContinue (l := w ++ r)
    exact (List.prefix_of_prefix_length_le this (List.prefix_append w r) (by omega)).eq_of_length hlength
  refine ⟨c, w, rfl, hc, fun d hd => ?_, ?_⟩
  · rw [← hprefix] at hd
    exact List.all_eq_true.mp List.all_takeWhile d hd
  · intro d hd
    obtain ⟨r, rfl⟩ := List.head?_eq_some_iff.mp hd
    by_contra hcontinue
    rw [List.takeWhile_append] at hprefix
    split_ifs at hprefix with hall
    · simp [hcontinue] at hprefix
    · exact hall (congrArg List.length hprefix)

/-- A string is closed by itself. -/
theorem Leads.string (h : Leads kind x r) (hkind : kind = .string ∨ kind = .rawString)
    (r' : List Char) : Leads kind x r' := by
  obtain ⟨s, hs, hscan⟩ := exists_of_scan? h.scan
  obtain ⟨c, w, rfl⟩ := List.exists_cons_of_ne_nil h.ne_nil
  rcases hkind with rfl | rfl
  · obtain rfl : s = Quoted.string := by simpa [classes] using hs
    obtain rfl : c = '"' := by
      by_contra hne
      rw [List.cons_append, Quoted.string] at hscan
      · cases hscan
      · rintro ds heq
        exact hne (List.cons.inj heq).1
    refine ⟨h.blank, rfl, ?_⟩
    have := Quoted.string_append hscan r'
    rw [List.cons_append] at this ⊢
    rw [(scan?_quote (w ++ r')).1, this]
    rfl
  · obtain rfl : s = Quoted.rawString := by simpa [classes] using hs
    obtain rfl : c = '\x60' := by
      by_contra hne
      simp [Quoted.rawString, hne] at hscan
    refine ⟨h.blank, rfl, ?_⟩
    have := Quoted.rawString_append hscan r'
    rw [List.cons_append] at this ⊢
    rw [(scan?_quote (w ++ r')).2.1, this]
    rfl

end

section
variable {r r' : List Char}

/-- Something else may follow a word if it does not go on with it. -/
theorem follows_word {word : List Char} {c : Char} (hr : Stops isContinue r)
    (hword : (∃ d ∈ word, isNumeric d = false) ∧ 2 ≤ word.length) (hc : c = ',' ∨ c = ' ')
    (hopen : commentTail r = none → commentTail r' = none) : Follows word r (c :: r') where
  word := by
    refine ⟨hr, stops_cons.mpr ?_⟩
    rcases hc with rfl | rfl <;> decide +kernel
  number := .inl hword.1
  sign := .inl hword.2
  comment := by rcases hc with rfl | rfl <;> exact stops_cons.mpr rfl
  unclosed h := by
    rw [commentTail_cons_eq_none]
    exact ⟨by rcases hc with rfl | rfl <;> simp, hopen h⟩

/-- A comma may stand closer to whatever it follows. -/
theorem follows_comma (hr : ∀ c ∈ r.head?, isBlank c = true ∨ c = '/' ∨ c = ',')
    (hopen : commentTail r = none → commentTail r' = none) : Follows [] r (',' :: r') := by
  have hstops {q : Char → Bool} (hq : [' ', '\t', '\r', '\n', '/', ','].any q = false) :
      Stops q r ∧ Stops q (',' :: r') := by
    rw [List.any_eq_false] at hq
    refine ⟨fun c hc => ?_, stops_cons.mpr (by simpa using hq ',' (by simp))⟩
    have hmem : c ∈ [' ', '\t', '\r', '\n', '/', ','] := by
      rcases hr c hc with hblank | rfl | rfl
      · simp only [isBlank, Bool.or_eq_true, beq_iff_eq] at hblank
        simp only [List.mem_cons, List.not_mem_nil, or_false]
        tauto
      · simp
      · simp
    simpa using hq c hmem
  refine ⟨hstops (by decide +kernel), .inr (hstops (by decide +kernel)), .inr (hstops (by decide)),
    stops_cons.mpr rfl, fun h => ?_⟩
  rw [commentTail_cons_eq_none]
  exact ⟨by simp, hopen h⟩

end

section
variable {offset : Nat} {lineEnd mark : Option Nat} {cs x after : List Char} {init ts : List Token}
  {w : Token}

/-- The last token is the end of the text. -/
theorem Lexes.exists_last (h : Lexes offset lineEnd cs ts) :
    ∃ init w, ts = init ++ [w] ∧ w.kind = .finish := by
  induction h with
  | finish => exact ⟨[], _, rfl, rfl⟩
  | blank _ _ ih | comment _ _ ih => exact ih
  | token _ _ _ _ ih =>
    obtain ⟨init, w, rfl, hw⟩ := ih
    exact ⟨_ :: init, w, rfl, hw⟩

/-- Tokens of which the last one is not the end of the text have others after them. -/
theorem Lexes.ne_nil_of_kind (h : Lexes offset lineEnd cs (init ++ [w] ++ ts)) (hw : w.kind ≠ .finish) :
    ts ≠ [] := by
  rintro rfl
  obtain ⟨init', w', heq, hw'⟩ := h.exists_last
  rw [List.append_nil] at heq
  obtain rfl := List.singleton_inj.mp (List.append_inj' heq rfl).2
  exact hw hw'

theorem Spells.head_of_nil (h : Spells after offset lineEnd x [] mark) :
    ∀ c ∈ x.head?, isBlank c = true ∨ c = '/' := by
  generalize hts : ([] : List Token) = tokens at h
  cases h with
  | nil => rintro c ⟨⟩
  | blank hblank _ =>
    intro c hc
    obtain rfl := Option.some.inj hc
    exact .inl hblank
  | comment hcomment _ =>
    obtain ⟨u, heq, hpos⟩ := exists_of_scanComment hcomment
    obtain ⟨d, comment, rfl⟩ := List.exists_cons_of_length_pos hpos
    intro c hc
    obtain rfl : d = c := Option.some.inj hc
    exact .inr (List.cons.inj heq).1
  | token => cases hts

theorem Spells.start_lt_stop (h : Spells after offset lineEnd x ts mark) :
    ∀ t ∈ ts, t.span.start < t.span.stop := by
  induction h with
  | nil => exact List.forall_mem_nil _
  | blank _ _ ih | comment _ _ ih => exact ih
  | token _ _ hscan _ ih =>
    refine List.forall_mem_cons.mpr ⟨?_, ih⟩
    exact Nat.lt_add_of_pos_right (Nat.pos_of_ne_zero (mt Text.size_eq_zero_iff.mp (ne_nil_of_scan? hscan)))

/-- No token is empty. -/
theorem Spells.length_le (h : Spells after offset lineEnd x ts mark) {lo : Nat} (hlo : lo ≤ offset) :
    lo + ts.length ≤ endOf lo ts := by
  induction h generalizing lo with
  | nil => exact Nat.le_refl _
  | blank _ _ ih | comment _ _ ih => exact ih (by omega)
  | token _ _ hscan _ ih =>
    have hpos := Nat.pos_of_ne_zero (mt Text.size_eq_zero_iff.mp (ne_nil_of_scan? hscan))
    have hnext := ih (Nat.le_refl _)
    simp only [List.length_cons, endOf]
    omega

/-- The text from the first of some tokens to the last one. Wherever it is copied to, it gives the same
tokens, if what follows it there may follow the last one. -/
theorem Lexes.exists_slice (h : Lexes offset lineEnd cs (init ++ w :: ts)) (hts : ts ≠ []) :
    ∃ gap x r, cs = gap ++ (x ++ w.text.toList ++ r) ∧
      (∃ mark, Spells (x ++ w.text.toList ++ r) offset lineEnd gap [] mark) ∧
      offset + size gap = startOf (init ++ [w]) ∧
      startOf (init ++ [w]) + size (x ++ w.text.toList) = w.span.stop ∧
      Leads w.kind w.text.toList r ∧ Lexes w.span.stop none r ts ∧
      ∀ r' offset', Follows w.text.toList r r' → Leads w.kind w.text.toList r' →
        ∃ copy, Spells r' offset' none (x ++ w.text.toList) copy none ∧
          List.Forall₂ (Moved (startOf (init ++ [w])) offset') (Token.unmarkHead (init ++ [w])) copy := by
  obtain ⟨t, more, hcons⟩ : ∃ t more, init ++ [w] = t :: more :=
    List.exists_cons_of_ne_nil (by simp)
  have hall : init ++ w :: ts = t :: (more ++ ts) := by
    rw [← List.cons_append, ← hcons, List.append_assoc, List.singleton_append]
  rw [hall] at h
  obtain ⟨gap, y, rfl, hgap, hsize, hlexes⟩ := h.cut_before
  obtain ⟨init', w', hinit', hkind, htext, hspan⟩ : ∃ init' w', Token.unmarkHead (init ++ [w]) =
      init' ++ [w'] ∧ w'.kind = w.kind ∧ w'.text = w.text ∧ w'.span = w.span := by
    cases init with
    | nil => exact ⟨[], w.unmarked, rfl, rfl, rfl, rfl⟩
    | cons a init => exact ⟨a.unmarked :: init, w, rfl, rfl, rfl, rfl⟩
  have htokens : { t with lineEnd := none } :: (more ++ ts) = init' ++ w' :: ts := by
    rw [hcons] at hinit'
    have := congrArg (· ++ ts) hinit'
    simpa [Token.unmarkHead, Token.unmarked] using this
  have hlexes := hlexes none
  rw [htokens] at hlexes
  obtain ⟨x, r, rfl, hspells, hleads, hstart, hstop, hrest⟩ := hlexes.cut hts
  rw [htext, hkind] at hleads
  rw [htext] at hspells
  rw [htext, hspan] at hstop
  rw [hspan] at hstart hrest
  rw [hinit', hcons]
  rw [htext, ← List.append_assoc] at hgap
  refine ⟨gap, x, r, by simp [htext], ⟨_, hgap⟩, hsize, ?_, hleads, hrest, ?_⟩
  · change t.span.start + size (x ++ w.text.toList) = w.span.stop
    rw [Text.size_append]
    omega
  · intro r' offset' hfollows hleads'
    obtain ⟨copy, mark, hcopy, hmoved, hmark⟩ := hspells.relex hfollows hleads.ne_nil
      (Nat.add_comm t.span.start offset') (@markCopied_none t.span.start offset')
    have hlast := @Spells.single r' w.text.toList (offset' + size x) mark w.kind hleads'
    refine ⟨_, hcopy.append hlast, List.rel_append hmoved (.cons ⟨⟨hkind, ?_, ?_, ?_⟩, hmark⟩ .nil)⟩
    · rw [htext, String.ofList_toList]
    · rw [hspan]
      change w.span.start + offset' = offset' + size x + t.span.start
      omega
    · rw [hspan]
      change w.span.stop + offset' = offset' + size x + size w.text.toList + t.span.start
      omega

end

end SentinelWrap.Go.Token
