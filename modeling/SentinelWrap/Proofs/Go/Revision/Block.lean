import SentinelWrap.Proofs.Edit.Splice
import SentinelWrap.Proofs.Go.Grammar.Amend
import SentinelWrap.Proofs.Go.Revision.Slice
import SentinelWrap.Proofs.Lists

/-! Texts in which some statements are replaced. If each replacement gives amended tokens, so does the
whole text. -/
namespace SentinelWrap.Go
open Text (size)
open Token (Lexes Spells Leads Follows Row commentTail startOf endOf)
open Text.Identifier (isContinue)

variable {q : String} {change : Change} {i : Nat × Nat}

/-- No node that begins where one of the tokens stands is changed. -/
def Untouched (change : Change) (ts : List Token) : Prop :=
  ∀ t ∈ ts, ∀ u kind children, u.span = t.span → change kind (.token u :: children) = none

/-- Copied tokens in front of amended ones. -/
theorem Amended.prepend {pre pre' ts ts' : List Token}
    (h : List.Forall₂ (Token.Moved i.1 i.2) pre pre') (hkept : Untouched change pre)
    (later : Amended q change i ts ts') : Amended q change i (pre ++ ts) (pre' ++ ts') := by
  induction h with
  | nil => exact later
  | cons hfirst _ ih =>
    obtain ⟨hone, hrest⟩ := List.forall_mem_cons.mp hkept
    exact .kept hfirst.1 hfirst.2 (fun _ => hone) (ih hrest)

namespace Grammar
open Rule

/-- The named rules behind statements that begin with a word group nothing before them. -/
def groupsNothing : Symbol → Bool
  | .expressions _ | .importSpec => true
  | _ => false

theorem onlyStacks_rule (name : Symbol) (h : groupsNothing name = true) :
    name.rule.onlyStacks groupsNothing = true := by
  cases name with
  | expressions | importSpec => rfl
  | _ => cases h

end Grammar

/-- A statement of a text that is replaced by another one with the same first word: the tokens `r` to
the last one of `mid` are read of `body` after that word, and `new` takes its place after a blank. -/
structure Block (q : String) (change : Change) (r : Token) (mid us : List Token)
    (body after new : List Char) : Prop where
  unclosed : ∀ after', (commentTail after = none → commentTail after' = none) →
    commentTail (body ++ after) = none → commentTail (new ++ after') = none
  amended : ∀ {after' : List Char} {offset' : Nat} {mark' : Option Nat} {i j : Nat × Nat}
    {us' : List Token}, (commentTail after = none → commentTail after' = none) →
    MarkCopied i.1 i.2 r.lineEnd mark' → i.1 < j.1 → Amended q change j us us' →
    ∃ r' mid', Spells after' offset' mark' (r.text.toList ++ ' ' :: new) (r' :: mid') none ∧
      Amended q change i (r :: (mid ++ us)) (r' :: (mid' ++ us'))

structure Opens (r : Token) : Prop where
  kind : r.kind = .word
  text : r.text = "return" ∨ r.text = "import"

/-- An edit of a source that replaces a block among some tokens of it. -/
structure Replaces (q : String) (change : Change) (source : List Char) (e : Edit) (ts : List Token)
    (pre : List Token) (r : Token) (mid us : List Token) (front body after new : List Char) :
    Prop where
  tokens : ts = pre ++ r :: (mid ++ us)
  opens : Opens r
  ne_nil : mid ≠ [] ∧ us ≠ []
  text : source = front ++ (r.text.toList ++ (body ++ after))
  start : size front = r.span.start
  stop : r.span.start + size r.text.toList = r.span.stop
  size_body : r.span.stop + size body = endOf 0 mid
  range : e.range = ⟨r.span.start, endOf 0 mid⟩
  newText : e.newText.toList = r.text.toList ++ ' ' :: new
  rest : Lexes (endOf 0 mid) none after us
  block : Block q change r mid us body after new

def ReplacesBlock (q : String) (change : Change) (source : List Char) (ts : List Token) (e : Edit) :
    Prop :=
  ∃ pre r mid us front body after new,
    Replaces q change source e ts pre r mid us front body after new

theorem Opens.long {r : Token} (h : Opens r) :
    (∃ d ∈ r.text.toList, Number.isNumeric d = false) ∧ 2 ≤ r.text.toList.length ∧
      0 < size r.text.toList := by
  rcases h.text with heq | heq <;> rw [heq] <;> exact ⟨⟨'t', by decide, by decide⟩, by decide, by decide⟩

section
variable {source front body after new : List Char} {e : Edit} {ts pre mid us : List Token} {r : Token}

theorem Replaces.size_front
    (h : Replaces q change source e ts pre r mid us front body after new) :
    size front = e.range.start := by rw [h.range, h.start]

/-- The edit covers the first word of the block and what is read after it. -/
theorem Replaces.size_covered
    (h : Replaces q change source e ts pre r mid us front body after new) :
    e.range.start + size (r.text.toList ++ body) = e.range.stop := by
  have hstop := h.stop
  have hbody := h.size_body
  rw [h.range, Text.size_append]
  change r.span.start + (size r.text.toList + size body) = endOf 0 mid
  omega

theorem Replaces.start_lt_stop
    (h : Replaces q change source e ts pre r mid us front body after new) :
    e.range.start < e.range.stop := by
  have hcovered := h.size_covered
  have hpos := h.opens.long.2.2
  rw [Text.size_append] at hcovered
  omega

/-- A later block is found among the tokens after an earlier one. -/
theorem ReplacesBlock.behind {later : Edit} {lo : Nat}
    (h : Replaces q change source e ts pre r mid us front body after new) (hrow : Row source lo ts)
    (hlater : ReplacesBlock q change source ts later) (hle : e.range.stop ≤ later.range.start) :
    ReplacesBlock q change source us later := by
  obtain ⟨pre₂, r₂, mid₂, us₂, front₂, body₂, after₂, new₂, h₂⟩ := hlater
  have heq : (pre ++ r :: mid) ++ us = pre₂ ++ r₂ :: (mid₂ ++ us₂) := by
    rw [← h₂.tokens, h.tokens]
    simp
  have hnot : r₂ ∉ pre ++ r :: mid := by
    intro hmem
    have hall : ts = (pre ++ r :: mid) ++ us := by simp [h.tokens]
    rw [hall, Token.row_append] at hrow
    have hbound := (hrow.1.bounds hmem).2
    rw [List.append_cons, Token.endOf_append_of_ne h.ne_nil.1 lo 0] at hbound
    have hpos := h₂.opens.long.2.2
    have hstop := h₂.stop
    rw [h.range, h₂.range] at hle
    change endOf 0 mid ≤ r₂.span.start at hle
    omega
  obtain ⟨pre', hus⟩ := exists_suffix_of_not_mem heq hnot
  exact ⟨pre', r₂, mid₂, us₂, front₂, body₂, after₂, new₂, { h₂ with tokens := hus }⟩

/-- What stands before a block in the rest of a source. -/
theorem Replaces.exists_kept {before rest : List Char}
    (h : Replaces q change source e ts pre r mid us front body after new)
    (hsource : source = before ++ rest) (hlexes : Lexes (size before) none rest ts) :
    ∃ kept, rest = kept ++ (r.text.toList ++ (body ++ after)) ∧ front = before ++ kept ∧
      Spells (r.text.toList ++ (body ++ after)) (size before) none kept pre r.lineEnd ∧
      Leads .word r.text.toList (body ++ after) := by
  rw [h.tokens] at hlexes
  obtain ⟨kept, y, rfl, hspells, hleads, hstart, -⟩ := hlexes.cut (by simp [h.ne_nil])
  have hsize : size front = size (before ++ kept) := by rw [Text.size_append, hstart, h.start]
  rw [h.text, ← List.append_assoc before] at hsource
  obtain ⟨rfl, hrest⟩ := Text.append_inj_of_size hsource hsize
  obtain rfl := List.append_cancel_left hrest
  rw [h.opens.kind] at hleads
  exact ⟨kept, rfl, rfl, hspells, hleads⟩

/-- The text up to a block and its replacement give amended tokens in front of others. -/
theorem Replaces.exists_amended {before kept after' : List Char} {offset' : Nat} {us' : List Token}
    (h : Replaces q change source e ts pre r mid us front body after new)
    (hfront : front = before ++ kept)
    (hspells : Spells (r.text.toList ++ (body ++ after)) (size before) none kept pre r.lineEnd)
    (hleads : Leads .word r.text.toList (body ++ after))
    (hkept : Untouched change pre)
    (hopen : commentTail after = none → commentTail after' = none)
    (hlexes : Lexes (offset' + size (kept ++ e.newText.toList)) none after' us')
    (hamended : Amended q change (e.range.stop, offset' + size (kept ++ e.newText.toList)) us us') :
    ∃ ts', Lexes offset' none (kept ++ e.newText.toList ++ after') ts' ∧
      Amended q change (size before, offset') ts ts' := by
  have hfollows : Follows r.text.toList (body ++ after) (' ' :: (new ++ after')) := by
    obtain ⟨_, _, -, -, -, hstops⟩ := hleads.word
    obtain ⟨hnumeric, hlength, -⟩ := h.opens.long
    exact Token.follows_word hstops ⟨hnumeric, hlength⟩ (.inr rfl) (h.block.unclosed after' hopen)
  obtain ⟨pre', mark', hkept', hmoved, hmark⟩ := hspells.relex hfollows hleads.ne_nil
    (Nat.add_comm (size before) offset') (@Token.markCopied_none (size before) offset')
  have hlt : size before < e.range.stop := by
    have hstart := h.size_front
    have hstop := h.start_lt_stop
    rw [hfront, Text.size_append] at hstart
    omega
  obtain ⟨r', mid', hnew, hblock⟩ : ∃ r' mid',
      Spells after' (offset' + size kept) mark' (r.text.toList ++ ' ' :: new) (r' :: mid') none ∧
        Amended q change (size before, offset') (r :: (mid ++ us)) (r' :: (mid' ++ us')) :=
    h.block.amended hopen hmark hlt hamended
  rw [← h.newText] at hnew
  have hkept'' : Spells (e.newText.toList ++ after') offset' none kept pre' mark' := by
    rw [h.newText]
    simpa using hkept'
  refine ⟨_, (hkept''.append hnew).lexes hlexes, ?_⟩
  rw [h.tokens]
  simpa using Amended.prepend hmoved hkept hblock

/-- What is changed begins before `cursor`, or where one of the edits begins. -/
def ChangedBy (change : Change) (cursor : Nat) (edits : List Edit) : Prop :=
  ∀ u kind children, change kind (.token u :: children) ≠ none →
    u.span.start < cursor ∨ ∃ e ∈ edits, e.range.start = u.span.start

theorem ChangedBy.tail {cursor : Nat} {edits : List Edit} (h : ChangedBy change cursor (e :: edits))
    (hle : cursor ≤ e.range.start) (hlt : e.range.start < e.range.stop) :
    ChangedBy change e.range.stop edits := by
  intro u kind children hsome
  rcases h u kind children hsome with hbefore | ⟨e', he', heq⟩
  · exact .inl (by omega)
  · rcases List.mem_cons.mp he' with rfl | he'
    · exact .inl (by omega)
    · exact .inr ⟨e', he', heq⟩

/-- Tokens from the cursor on that begin before every edit are untouched. -/
theorem ChangedBy.untouched {cursor : Nat} {edits : List Edit} (h : ChangedBy change cursor edits)
    (hle : ∀ t ∈ ts, cursor ≤ t.span.start) (hlt : ∀ t ∈ ts, ∀ e ∈ edits, t.span.start < e.range.start) :
    Untouched change ts := by
  intro t ht u kind children hspan
  by_contra hsome
  have hcursor := hle t ht
  rcases h u kind children hsome with hbefore | ⟨e, he, heq⟩
  · rw [hspan] at hbefore
    omega
  · have hedit := hlt t ht e he
    rw [hspan] at heq
    omega

/-- The tokens before a block begin before its edit and before every later one. -/
theorem Replaces.start_lt_start {cursor : Nat} {kept x : List Char} {lineEnd mark : Option Nat}
    {edits : List Edit} (h : Replaces q change source e ts pre r mid us front body after new)
    (hrow : Row source cursor ts) (hspells : Spells x cursor lineEnd kept pre mark)
    (hordered : (e :: edits).Pairwise Edit.Precedes) :
    ∀ t ∈ pre, ∀ e' ∈ e :: edits, t.span.start < e'.range.start := by
  obtain ⟨hpre, hr⟩ : Row source cursor pre ∧ endOf cursor pre ≤ e.range.start := by
    rw [h.tokens, Token.row_append] at hrow
    rw [h.range]
    exact ⟨hrow.1, hrow.2.2.1⟩
  intro t ht e' he'
  have hbound := (hpre.bounds ht).2
  have hword := hspells.start_lt_stop t ht
  have hnonempty := h.start_lt_stop
  rcases List.mem_cons.mp he' with rfl | he'
  · omega
  · have hlater := (List.rel_of_pairwise_cons hordered he').1
    omega

/-- A replacement leaves no comment open where the text had none open. -/
theorem Replaces.commentTail_eq_none {kept after' : List Char}
    (h : Replaces q change source e ts pre r mid us front body after new)
    (hopen : commentTail after = none → commentTail after' = none)
    (hclosed : commentTail (kept ++ (r.text.toList ++ (body ++ after))) = none) :
    commentTail (kept ++ e.newText.toList ++ after') = none := by
  have hnew : commentTail (body ++ after) = none → commentTail (' ' :: (new ++ after')) = none := by
    intro hbody
    rw [Token.commentTail_cons_eq_none]
    exact ⟨by simp, h.block.unclosed _ hopen hbody⟩
  have hall := @Token.commentTail_append_eq_none (kept ++ r.text.toList) _ _ (by simpa using hclosed)
    hnew (by simp)
  rw [h.newText]
  simpa using hall

/-- Replacing blocks one after the other gives amended tokens. -/
theorem exists_amended_splice {before rest : List Char} {edits : List Edit} {offset' : Nat}
    (hsource : source = before ++ rest) (hlexes : Lexes (size before) none rest ts)
    (hahead : Edit.Ahead source (size before) edits)
    (hblocks : ∀ e ∈ edits, ReplacesBlock q change source ts e)
    (hchange : ChangedBy change (size before) edits) :
    (∃ ts', Lexes offset' none (Edit.splice (size before) rest edits) ts' ∧
      Amended q change (size before, offset') ts ts') ∧
    (commentTail rest = none → commentTail (Edit.splice (size before) rest edits) = none) := by
  induction edits generalizing before rest ts offset' with
  | nil =>
    have hrow := hlexes.row hsource rfl (Nat.le_refl _) (by rintro _ ⟨⟩)
    obtain ⟨ts', hlexes', hmoved⟩ := hlexes.moved (Nat.add_comm (size before) offset')
      (@Token.markCopied_none (size before) offset')
    have hkept : Untouched change ts :=
      hchange.untouched (fun _ => hrow.le_start) fun _ _ => List.forall_mem_nil _
    exact ⟨⟨ts', hlexes', by simpa using Amended.prepend hmoved hkept .nil⟩, id⟩
  | cons e edits ih =>
    have hrow := hlexes.row hsource rfl (Nat.le_refl _) (by rintro _ ⟨⟩)
    obtain ⟨pre, r, mid, us, front, body, after, new, h⟩ := hblocks e List.mem_cons_self
    obtain ⟨kept, rfl, rfl, hspells, hleads⟩ := h.exists_kept hsource hlexes
    have hstart : size before + size kept = e.range.start := by rw [← Text.size_append, h.size_front]
    have hstop : size (before ++ kept ++ (r.text.toList ++ body)) = e.range.stop := by
      rw [Text.size_append, h.size_front, h.size_covered]
    have hkept : Untouched change pre := by
      refine hchange.untouched (fun t ht => ?_) (h.start_lt_start hrow hspells hahead.ordered)
      exact hrow.le_start (by simp [h.tokens, ht])
    have hblocks' : ∀ e' ∈ edits, ReplacesBlock q change source us e' := fun e' he' =>
      ReplacesBlock.behind h hrow (hblocks e' (List.mem_cons_of_mem e he'))
        (List.rel_of_pairwise_cons hahead.ordered he').1
    have hchange' : ChangedBy change e.range.stop edits :=
      hchange.tail (hahead.after e List.mem_cons_self) h.start_lt_stop
    have hlater : Lexes e.range.stop none after us := by
      rw [h.range]
      exact h.rest
    obtain ⟨⟨us', hlexes', hamended⟩, hopen⟩ := @ih us (before ++ kept ++ (r.text.toList ++ body)) after
      (offset' + size (kept ++ e.newText.toList)) (by simp [h.text]) (by rwa [hstop])
      (by rw [hstop]; exact hahead.tail) hblocks' (by rwa [hstop])
    rw [hstop] at hlexes' hamended hopen
    have hsplice : Edit.splice (size before) (kept ++ (r.text.toList ++ (body ++ after))) (e :: edits) =
        kept ++ e.newText.toList ++ Edit.splice e.range.stop after edits := by
      rw [← List.append_assoc r.text.toList]
      exact Edit.splice_cons hstart h.size_covered
    rw [hsplice]
    exact ⟨h.exists_amended rfl hspells hleads hkept hopen hlexes' hamended, h.commentTail_eq_none hopen⟩

end

end SentinelWrap.Go
