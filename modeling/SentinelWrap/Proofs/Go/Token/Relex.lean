import Mathlib.Data.List.Forall2
import SentinelWrap.Proofs.Go.Token.Locality
import SentinelWrap.Proofs.Go.Token.Row

/-! Texts that are lexed again in another place. A piece of a text that begins and ends between tokens
gives the same tokens wherever what follows it does not change how it is read. -/
namespace SentinelWrap.Go

/-- The same token in a text that was copied from one offset to another. -/
structure Token.Copied (k k' : Nat) (t t' : Token) : Prop where
  kind : t.kind = t'.kind
  text : t.text = t'.text
  start : t.span.start + k' = t'.span.start + k
  stop : t.span.stop + k' = t'.span.stop + k

def MarkCopied (k k' : Nat) : Option Nat → Option Nat → Prop
  | none, none => True
  | some offset, some offset' => offset + k' = offset' + k
  | _, _ => False

/-- The same token in a copy, and so is the line break before it. -/
def Token.Moved (k k' : Nat) (t t' : Token) : Prop :=
  t.Copied k k' t' ∧ MarkCopied k k' t.lineEnd t'.lineEnd

namespace Token
open Text (size)
open Text.Identifier (isStart isContinue)
open Number (isNumeric)

/-- Two texts that may follow the same lexemes, where both begin with the shared one: what follows that
goes on with no word, and unless the shared text shows it already, with no number and no sign. It
neither begins nor closes a comment. -/
structure Follows (shared r r' : List Char) : Prop where
  word : Stops isContinue r ∧ Stops isContinue r'
  number : (∃ c ∈ shared, isNumeric c = false) ∨ Stops isNumeric r ∧ Stops isNumeric r'
  sign : 2 ≤ shared.length ∨ Stops isSignTail r ∧ Stops isSignTail r'
  comment : Stops (fun c => c == '/' || c == '*') r'
  unclosed : commentTail r = none → commentTail r' = none

namespace Follows
variable {x shared r r' : List Char}

theorem prepend (h : Follows shared r r') (x : List Char) : Follows (x ++ shared) r r' where
  word := h.word
  number := h.number.imp_left fun ⟨c, hc, hnumeric⟩ => ⟨c, List.mem_append_right x hc, hnumeric⟩
  sign := h.sign.imp_left fun hlength => by rw [List.length_append]; omega
  comment := h.comment
  unclosed := h.unclosed

theorem blind {s : Scan} (h : Follows shared r r') (hs : s.Blind isNumeric) (x : List Char) :
    s (x ++ (shared ++ r)) = s (x ++ (shared ++ r')) := by
  rcases h.number with ⟨c, hc, hnumeric⟩ | ⟨hr, hr'⟩
  · obtain ⟨before, after, rfl⟩ := List.append_of_mem hc
    have hstop (w : List Char) : Stops isNumeric (c :: w) := stops_cons.mpr hnumeric
    simpa using (hs (x ++ before) _ _ (hstop (after ++ r)) (hstop (after ++ r'))).1
  · simpa using (hs (x ++ shared) r r' hr hr').1

/-- A token is found again if what follows it may. -/
theorem scan?_eq {kind : TokenKind} (h : Follows shared r r') (hx : x ≠ [])
    (hscan : scan? (x ++ (shared ++ r)) = some (kind, x.length)) :
    scan? (x ++ (shared ++ r')) = some (kind, x.length) := by
  have hquoted {s : Scan} {kind' : TokenKind}
      (hs : s (x ++ (shared ++ r)) = some x.length → s (x ++ (shared ++ r')) = some x.length)
      (heq : scan? (x ++ (shared ++ r)) = (s (x ++ (shared ++ r))).map (kind', ·))
      (heq' : scan? (x ++ (shared ++ r')) = (s (x ++ (shared ++ r'))).map (kind', ·)) :
      scan? (x ++ (shared ++ r')) = some (kind, x.length) := by
    rw [heq] at hscan
    obtain ⟨n, hn, hpair⟩ := Option.map_eq_some_iff.mp hscan
    obtain ⟨rfl, rfl⟩ := Prod.mk.inj hpair
    rw [heq', hs hn]
    rfl
  obtain ⟨c, y, rfl⟩ := List.exists_cons_of_ne_nil hx
  by_cases hquote : ['"', '\x60', '\''].contains c = true
  · -- A quoted literal is closed by itself.
    have hr := scan?_quote (y ++ (shared ++ r))
    have hr' := scan?_quote (y ++ (shared ++ r'))
    simp only [List.contains_iff_mem, List.mem_cons, List.not_mem_nil, or_false] at hquote
    rcases hquote with rfl | rfl | rfl
    · exact hquoted (fun hn => Quoted.string_append hn _) hr.1 hr'.1
    · exact hquoted (fun hn => Quoted.rawString_append hn _) hr.2.1 hr'.2.1
    · exact hquoted (fun hn => Quoted.rune_append hn _) hr.2.2 hr'.2.2
  · rw [← hscan]
    have hnone := quoted_eq_none (by simpa using hquote : ['"', '\x60', '\''].contains c = false)
    refine (scan?_congr ?_).symm
    have hword := scanWord_append (c := c) (y := y ++ shared) h.word.1 h.word.2
    have hsign := scanSign_append (c := c) (y := y ++ shared) (h.prepend y).sign
    simp only [List.append_assoc] at hword hsign
    simp only [classes, List.forall_mem_cons, List.not_mem_nil, false_imp_iff, implies_true, and_true,
      List.cons_append, hnone]
    exact ⟨hword, h.blind Number.blind_int (c :: y), h.blind Number.blind_float (c :: y),
      h.blind Number.blind_imaginary (c :: y), trivial, trivial, trivial, hsign⟩

theorem scanComment_eq_none (h : Follows shared r r') (hx : x ≠ [])
    (hscan : scanComment (x ++ (shared ++ r)) = none) : scanComment (x ++ (shared ++ r')) = none := by
  rw [← List.append_assoc] at hscan ⊢
  have hne : x ++ shared ≠ [] := by simp [hx]
  generalize x ++ shared = u at hscan hne
  match u with
  | [] => contradiction
  | [c] =>
    have hhead := h.comment
    cases r' with
    | nil =>
      rw [List.append_nil, scanComment] <;> simp
    | cons d r' =>
      simp only [stops_cons, Bool.or_eq_false_iff, beq_eq_false_iff_ne] at hhead
      rw [List.cons_append, List.nil_append, scanComment] <;> simp [hhead]
  | c :: d :: u =>
    have hhead : r'.head? ≠ some '/' := by
      intro hslash
      have := h.comment '/' hslash
      simp at this
    by_cases hline : c = '/' ∧ d = '/'
    · obtain ⟨rfl, rfl⟩ := hline
      cases hscan
    by_cases hblock : c = '/' ∧ d = '*'
    · obtain ⟨rfl, rfl⟩ := hblock
      simp only [List.cons_append, scanComment, Option.map_eq_none_iff] at hscan ⊢
      exact commentTail_append_eq_none hscan h.unclosed hhead
    · simp only [List.cons_append]
      rw [scanComment]
      · intro cs heq
        exact hline ⟨(List.cons.inj heq).1, (List.cons.inj (List.cons.inj heq).2).1⟩
      · intro cs heq
        exact hblock ⟨(List.cons.inj heq).1, (List.cons.inj (List.cons.inj heq).2).1⟩

end Follows

theorem exists_of_scanComment {cs : List Char} {n : Nat} (h : scanComment cs = some n) :
    ∃ u, cs = '/' :: u ∧ 0 < n := by
  unfold scanComment at h
  split at h
  · obtain rfl := Option.some.inj h
    exact ⟨_, rfl, by omega⟩
  · obtain ⟨m, -, rfl⟩ := Option.map_eq_some_iff.mp h
    exact ⟨_, rfl, by omega⟩
  · cases h

private theorem length_takeWhile_append {p : Char → Bool} {x r : List Char} :
    ((x ++ r).takeWhile p).length = x.length ↔ (∀ c ∈ x, p c = true) ∧ Stops p r := by
  induction x with
  | nil => cases r <;> simp [Stops, List.takeWhile_cons]
  | cons c x ih =>
    by_cases hc : p c = true
    · simp [hc, ih]
    · simp [hc]

/-- A comment is as long as it can be: a line comment stops only before the line break, a block
comment where it is closed first. -/
theorem scanComment_eq_length_iff {x r : List Char} : scanComment (x ++ r) = some x.length ↔
    (∃ u, x = '/' :: '/' :: u ∧ (∀ c ∈ u, (c != '\n') = true) ∧ Stops (· != '\n') r) ∨
      ∃ u, x = '/' :: '*' :: u ∧ commentTail (u ++ r) = some u.length := by
  constructor
  · intro h
    have hx {d e : Char} {cs : List Char} (heq : x ++ r = d :: e :: cs) (hlength : 2 ≤ x.length) :
        ∃ u, x = d :: e :: u ∧ cs = u ++ r := by
      match x with
      | [] | [_] => simp at hlength
      | a :: b :: u =>
        simp only [List.cons_append, List.cons.injEq] at heq
        obtain ⟨rfl, rfl, rfl⟩ := heq
        exact ⟨u, rfl, rfl⟩
    rw [scanComment.eq_def] at h
    split at h
    · rename_i cs heq
      have hlength := Option.some.inj h
      obtain ⟨u, rfl, rfl⟩ := hx heq (by omega)
      simp only [List.length_cons, Nat.add_right_cancel_iff] at hlength
      exact .inl ⟨u, rfl, length_takeWhile_append.mp hlength⟩
    · rename_i cs heq
      obtain ⟨m, hm, hlength⟩ := Option.map_eq_some_iff.mp h
      obtain ⟨u, rfl, rfl⟩ := hx heq (by omega)
      simp only [List.length_cons, Nat.add_right_cancel_iff] at hlength
      exact .inr ⟨u, rfl, hlength ▸ hm⟩
    · cases h
  · rintro (⟨u, rfl, hu⟩ | ⟨u, rfl, hu⟩)
    · simp only [List.cons_append, scanComment, length_takeWhile_append.mpr hu, List.length_cons]
    · simp [scanComment, hu]

/-- A comment is found again if what follows it begins as before, or not at all. -/
theorem scanComment_congr {x r r' : List Char} (hr : ∀ c ∈ r'.head?, c ∈ r.head?)
    (h : scanComment (x ++ r) = some x.length) : scanComment (x ++ r') = some x.length := by
  rw [scanComment_eq_length_iff] at h ⊢
  refine h.imp (fun ⟨u, hx, hu, hstops⟩ => ⟨u, hx, hu, fun c hc => hstops c (hr c hc)⟩)
    fun ⟨u, hx, hu⟩ => ⟨u, hx, commentTail_append hu (Nat.le_refl _) r'⟩

/-- The tokens of a piece of a text, up to the text after it, and the mark the piece leaves. -/
inductive Spells (after : List Char) :
    Nat → Option Nat → List Char → List Token → Option Nat → Prop
  | nil {offset : Nat} {lineEnd : Option Nat} : Spells after offset lineEnd [] [] lineEnd
  | blank {offset : Nat} {lineEnd mark : Option Nat} {c : Char} {x : List Char} {ts : List Token}
    (hblank : isBlank c = true)
    (next : Spells after (offset + c.utf8Size) (markAfter c offset lineEnd) x ts mark) :
    Spells after offset lineEnd (c :: x) ts mark
  | comment {offset : Nat} {lineEnd mark : Option Nat} {comment x : List Char} {ts : List Token}
    (hcomment : scanComment (comment ++ (x ++ after)) = some comment.length)
    (next : Spells after (offset + size comment) lineEnd x ts mark) :
    Spells after offset lineEnd (comment ++ x) ts mark
  | token {offset : Nat} {lineEnd mark : Option Nat} {lexeme x : List Char} {ts : List Token}
    {kind : TokenKind} (hblank : ∀ c ∈ lexeme.head?, isBlank c = false)
    (hcomment : scanComment (lexeme ++ (x ++ after)) = none)
    (hscan : scan? (lexeme ++ (x ++ after)) = some (kind, lexeme.length))
    (next : Spells after (offset + size lexeme) none x ts mark) :
    Spells after offset lineEnd (lexeme ++ x)
      (⟨kind, String.ofList lexeme, ⟨offset, offset + size lexeme⟩, lineEnd⟩ :: ts) mark

theorem ne_nil_of_scan? {x r : List Char} {kind : TokenKind}
    (h : scan? (x ++ r) = some (kind, x.length)) : x ≠ [] := by
  rintro rfl
  exact scan?_ne_zero h

structure Leads (kind : TokenKind) (lexeme rest : List Char) : Prop where
  blank : ∀ c ∈ lexeme.head?, isBlank c = false
  comment : scanComment (lexeme ++ rest) = none
  scan : scan? (lexeme ++ rest) = some (kind, lexeme.length)

/-- A lexeme at the front of a text, by evaluation. -/
theorem leads_of_eval {kind : TokenKind} {lexeme rest : List Char}
    (hblank : lexeme.head?.any isBlank = false) (hcomment : scanComment (lexeme ++ rest) = none)
    (hscan : scan? (lexeme ++ rest) = some (kind, lexeme.length)) : Leads kind lexeme rest where
  blank c hc := by
    rw [Option.mem_def.mp hc] at hblank
    exact hblank
  comment := hcomment
  scan := hscan

namespace Spells
variable {after x y : List Char} {offset : Nat} {lineEnd mark mark' : Option Nat}
  {as bs : List Token}

theorem single {kind : TokenKind} (h : Leads kind x after) :
    Spells after offset lineEnd x
      [⟨kind, String.ofList x, ⟨offset, offset + size x⟩, lineEnd⟩] none := by
  have := @Spells.token after offset lineEnd none x [] [] kind h.blank h.comment h.scan .nil
  rwa [List.append_nil] at this

theorem append (h : Spells (y ++ after) offset lineEnd x as mark)
    (h' : Spells after (offset + size x) mark y bs mark') :
    Spells after offset lineEnd (x ++ y) (as ++ bs) mark' := by
  induction h with
  | nil => exact h'
  | blank hblank _ ih => exact .blank hblank (ih (by simpa [Nat.add_assoc] using h'))
  | comment hcomment _ ih =>
    rw [List.append_assoc]
    exact .comment (by simpa using hcomment) (ih (by simpa [Nat.add_assoc] using h'))
  | token hblank hcomment hscan _ ih =>
    rw [List.append_assoc]
    exact .token hblank (by simpa using hcomment) (by simpa using hscan)
      (ih (by simpa [Nat.add_assoc] using h'))

theorem lexes (h : Spells y offset lineEnd x as mark) (h' : Lexes (offset + size x) mark y bs) :
    Lexes offset lineEnd (x ++ y) (as ++ bs) := by
  induction h with
  | nil => exact h'
  | blank hblank _ ih => exact .blank hblank (ih (by simpa [Nat.add_assoc] using h'))
  | comment hcomment _ ih =>
    rw [List.append_assoc]
    exact .comment hcomment (ih (by simpa [Nat.add_assoc] using h'))
  | token hblank hcomment hscan _ ih =>
    rw [List.append_assoc, List.cons_append]
    refine .token ?_ hcomment hscan (ih (by simpa [Nat.add_assoc] using h'))
    rwa [List.head?_append_of_ne_nil _ (ne_nil_of_scan? hscan)]

end Spells

theorem markCopied_none {k k' : Nat} : MarkCopied k k' none none := trivial

theorem markCopied_markAfter {k k' offset offset' : Nat} {mark mark' : Option Nat}
    (h : MarkCopied k k' mark mark') (hoffset : offset + k' = offset' + k) (c : Char) :
    MarkCopied k k' (markAfter c offset mark) (markAfter c offset' mark') := by
  unfold markAfter
  split_ifs
  · match mark, mark', h with
    | none, none, _ => exact hoffset
    | some _, some _, h => exact h
  · exact h

/-- A piece is read as before where what follows it may follow it. -/
theorem Spells.relex {shared r r' x : List Char} {offset offset' k k' : Nat}
    {lineEnd lineEnd' mark : Option Nat} {as : List Token}
    (h : Spells (shared ++ r) offset lineEnd x as mark) (hfollows : Follows shared r r')
    (hshared : shared ≠ []) (hoffset : offset + k' = offset' + k)
    (hmark : MarkCopied k k' lineEnd lineEnd') :
    ∃ as' mark', Spells (shared ++ r') offset' lineEnd' x as' mark' ∧
      List.Forall₂ (Moved k k') as as' ∧ MarkCopied k k' mark mark' := by
  induction h generalizing offset' lineEnd' with
  | nil => exact ⟨[], lineEnd', .nil, .nil, hmark⟩
  | @blank offset lineEnd mark c x ts hblank _ ih =>
    have hnext : offset + c.utf8Size + k' = offset' + c.utf8Size + k := by omega
    obtain ⟨as', mark', hspells, hmoved, hmark'⟩ := ih hnext (markCopied_markAfter hmark hoffset c)
    exact ⟨as', mark', .blank hblank hspells, hmoved, hmark'⟩
  | @comment offset lineEnd mark comment x ts hcomment _ ih =>
    have hnext : offset + size comment + k' = offset' + size comment + k := by omega
    obtain ⟨as', mark', hspells, hmoved, hmark'⟩ := ih hnext hmark
    have hhead (r : List Char) : (x ++ (shared ++ r)).head? = (x ++ shared).head? := by
      rw [← List.append_assoc, List.head?_append_of_ne_nil (x ++ shared) (by simp [hshared])]
    have hagain : scanComment (comment ++ (x ++ (shared ++ r'))) = some comment.length :=
      scanComment_congr (fun c hc => by rwa [hhead] at hc ⊢) hcomment
    exact ⟨as', mark', .comment hagain hspells, hmoved, hmark'⟩
  | @token offset lineEnd mark lexeme x ts kind hblank hcomment hscan _ ih =>
    have hnext : offset + size lexeme + k' = offset' + size lexeme + k := by omega
    obtain ⟨as', mark', hspells, hmoved, hmark'⟩ := ih hnext markCopied_none
    have hne := ne_nil_of_scan? hscan
    have hlater := hfollows.prepend x
    rw [← List.append_assoc x] at hscan hcomment
    refine ⟨_, mark', .token hblank ?_ ?_ hspells,
      .cons ⟨⟨rfl, rfl, hoffset, hnext⟩, hmark⟩ hmoved, hmark'⟩
    · rw [← List.append_assoc x]
      exact hlater.scanComment_eq_none hne hcomment
    · rw [← List.append_assoc x]
      exact hlater.scan?_eq hne hscan

/-- The same text is read as before at any place. -/
theorem Lexes.moved {x : List Char} {offset offset' k k' : Nat} {lineEnd lineEnd' : Option Nat}
    {ts : List Token} (h : Lexes offset lineEnd x ts) (hoffset : offset + k' = offset' + k)
    (hmark : MarkCopied k k' lineEnd lineEnd') :
    ∃ ts', Lexes offset' lineEnd' x ts' ∧ List.Forall₂ (Moved k k') ts ts' := by
  induction h generalizing offset' lineEnd' with
  | finish => exact ⟨_, .finish offset' lineEnd', .cons ⟨⟨rfl, rfl, hoffset, hoffset⟩, hmark⟩ .nil⟩
  | @blank offset lineEnd c x ts hblank _ ih =>
    have hnext : offset + c.utf8Size + k' = offset' + c.utf8Size + k := by omega
    obtain ⟨ts', hlexes, hmoved⟩ := ih hnext (markCopied_markAfter hmark hoffset c)
    exact ⟨ts', .blank hblank hlexes, hmoved⟩
  | @comment offset lineEnd comment x ts hcomment _ ih =>
    have hnext : offset + size comment + k' = offset' + size comment + k := by omega
    obtain ⟨ts', hlexes, hmoved⟩ := ih hnext hmark
    exact ⟨ts', .comment hcomment hlexes, hmoved⟩
  | @token offset lineEnd lexeme x ts kind hblank hcomment hscan _ ih =>
    have hnext : offset + size lexeme + k' = offset' + size lexeme + k := by omega
    obtain ⟨ts', hlexes, hmoved⟩ := ih hnext markCopied_none
    exact ⟨_, .token hblank hcomment hscan hlexes, .cons ⟨⟨rfl, rfl, hoffset, hnext⟩, hmark⟩ hmoved⟩

namespace Lexes
variable {cs : List Char} {offset : Nat} {lineEnd : Option Nat} {as ts : List Token} {t : Token}

/-- A text is cut before a token. From there on any mark may have been left. -/
theorem cut_before (h : Lexes offset lineEnd cs (t :: ts)) :
    ∃ x y, cs = x ++ y ∧ Spells y offset lineEnd x [] t.lineEnd ∧ offset + size x = t.span.start ∧
      ∀ mark, Lexes t.span.start mark y ({ t with lineEnd := mark } :: ts) := by
  generalize hts : t :: ts = tokens at h
  induction h with
  | finish =>
    obtain ⟨rfl, rfl⟩ := List.cons.inj hts
    exact ⟨[], _, rfl, .nil, by simp, .finish _⟩
  | blank hblank _ ih =>
    obtain ⟨x, y, rfl, hspells, hsize, hlexes⟩ := ih hts
    exact ⟨_ :: x, y, rfl, .blank hblank hspells, by simp only [Text.size_cons]; omega, hlexes⟩
  | @comment offset lineEnd comment rest tokens hcomment _ ih =>
    obtain ⟨x, y, rfl, hspells, hsize, hlexes⟩ := ih hts
    exact ⟨comment ++ x, y, by simp, .comment hcomment hspells,
      by simp only [Text.size_append]; omega, hlexes⟩
  | token hblank hcomment hscan next =>
    obtain ⟨rfl, rfl⟩ := List.cons.inj hts
    exact ⟨[], _, rfl, .nil, by simp, fun mark => .token hblank hcomment hscan next⟩

/-- A text is cut around a token that is not its end. -/
theorem cut (h : Lexes offset lineEnd cs (as ++ t :: ts)) (hts : ts ≠ []) :
    ∃ x r, cs = x ++ (t.text.toList ++ r) ∧
      Spells (t.text.toList ++ r) offset lineEnd x as t.lineEnd ∧
      Leads t.kind t.text.toList r ∧ offset + size x = t.span.start ∧
      t.span.start + size t.text.toList = t.span.stop ∧ Lexes t.span.stop none r ts := by
  generalize htokens : as ++ t :: ts = tokens at h
  induction h generalizing as with
  | finish =>
    have hlength := congrArg List.length htokens
    have := List.length_pos_iff.mpr hts
    simp only [List.length_append, List.length_cons, List.length_nil] at hlength
    omega
  | blank hblank _ ih =>
    obtain ⟨x, r, rfl, hspells, hleads, hsize, hlexes⟩ := ih htokens
    exact ⟨_ :: x, r, rfl, .blank hblank hspells, hleads, by simp only [Text.size_cons]; omega, hlexes⟩
  | @comment offset lineEnd comment rest tokens hcomment _ ih =>
    obtain ⟨x, r, rfl, hspells, hleads, hsize, hlexes⟩ := ih htokens
    exact ⟨comment ++ x, r, by simp, .comment hcomment hspells, hleads,
      by simp only [Text.size_append]; omega, hlexes⟩
  | @token offset lineEnd lexeme rest tokens kind hblank hcomment hscan next ih =>
    have hhead : ∀ c ∈ lexeme.head?, isBlank c = false := by
      rwa [List.head?_append_of_ne_nil _ (ne_nil_of_scan? hscan)] at hblank
    cases as with
    | nil =>
      obtain ⟨rfl, rfl⟩ := List.cons.inj htokens
      simp only [String.toList_ofList]
      exact ⟨[], rest, rfl, .nil, ⟨hhead, hcomment, hscan⟩, by simp, trivial, next⟩
    | cons a as =>
      obtain ⟨rfl, hlater⟩ := List.cons.inj htokens
      obtain ⟨x, r, rfl, hspells, hleads, hsize, hlexes⟩ := ih hlater
      exact ⟨lexeme ++ x, r, by simp, .token hhead hcomment hscan hspells, hleads,
        by simp only [Text.size_append]; omega, hlexes⟩

/-- Enough fuel finds the tokens. -/
theorem listFrom_eq {fuel : Nat} (h : Lexes offset lineEnd cs ts) (hfuel : cs.length ≤ fuel) :
    listFrom fuel offset lineEnd cs = .ok ts := by
  induction h generalizing fuel with
  | finish => cases fuel <;> rfl
  | @blank offset lineEnd c rest tokens hblank _ ih =>
    cases fuel with
    | zero => simp at hfuel
    | succ fuel =>
      have hrest := ih (Nat.le_of_succ_le_succ hfuel)
      simpa [listFrom, hblank, markAfter] using hrest
  | @comment offset lineEnd comment rest tokens hcomment _ ih =>
    obtain ⟨c, comment, rfl, hblank⟩ : ∃ c u, comment = c :: u ∧ isBlank c = false := by
      obtain ⟨u, heq, hlength⟩ := exists_of_scanComment hcomment
      obtain ⟨c, comment, rfl⟩ := List.exists_cons_of_length_pos hlength
      obtain ⟨rfl, -⟩ := List.cons.inj heq
      exact ⟨_, comment, rfl, rfl⟩
    cases fuel with
    | zero => simp at hfuel
    | succ fuel =>
      have hrest := @ih fuel (by simp at hfuel; omega)
      simp only [List.cons_append] at hcomment ⊢
      simp only [listFrom, hblank, hcomment, Bool.false_eq_true, if_false]
      simpa using hrest
  | @token offset lineEnd lexeme rest tokens kind hblank hcomment hscan _ ih =>
    obtain ⟨c, lexeme, rfl⟩ := List.exists_cons_of_ne_nil (ne_nil_of_scan? hscan)
    have hc : isBlank c = false := hblank c rfl
    cases fuel with
    | zero => simp at hfuel
    | succ fuel =>
      have hrest := @ih fuel (by simp at hfuel; omega)
      simp only [List.cons_append] at hcomment hscan ⊢
      simp only [listFrom, hc, hcomment, hscan, Bool.false_eq_true, if_false]
      have htake : (c :: (lexeme ++ rest)).take (c :: lexeme).length = c :: lexeme := by simp
      have hdrop : (c :: (lexeme ++ rest)).drop (c :: lexeme).length = rest := by simp
      rw [htake, hdrop, hrest]
      rfl

end Lexes

end Token
end SentinelWrap.Go
