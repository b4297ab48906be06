import SentinelWrap.Proofs.Go.Grammar.Rerun
import SentinelWrap.Proofs.Go.Revision.File

/-! Sources in which some statements are replaced: they can be read, and their trees are the amended
ones but for the places. -/
namespace SentinelWrap

namespace Edit
open Text (size)
variable {before rest : List Char} {edits : List Edit}

/-- What stands before all edits is kept. -/
theorem splice_append (h : Ahead (before ++ rest) (size before) edits) :
    splice 0 (before ++ rest) edits = before ++ splice (size before) rest edits := by
  cases edits with
  | nil => rfl
  | cons e edits =>
    obtain ⟨kept, covered, after, rfl, hstart, hstop⟩ :=
      exists_cut (h.fit e List.mem_cons_self) (h.after e List.mem_cons_self)
    rw [splice_cons hstart (by omega), ← List.append_assoc before,
      @splice_cons 0 (before ++ kept) covered after e edits (by rw [Text.size_append]; omega) (by omega)]
    simp

/-- A text with edits begins as before, or with the text of an edit. -/
theorem head?_splice (h : Ahead (before ++ rest) (size before) edits)
    (hne : ∀ e ∈ edits, e.newText.toList ≠ []) :
    (splice (size before) rest edits).head? = rest.head? ∨
      ∃ e ∈ edits, (splice (size before) rest edits).head? = e.newText.toList.head? := by
  cases edits with
  | nil => exact .inl rfl
  | cons e edits =>
    obtain ⟨kept, covered, after, rfl, hstart, hstop⟩ :=
      exists_cut (h.fit e List.mem_cons_self) (h.after e List.mem_cons_self)
    rw [splice_cons hstart (by omega)]
    cases kept with
    | nil =>
      obtain ⟨c, new, hnew⟩ := List.exists_cons_of_ne_nil (hne e List.mem_cons_self)
      exact .inr ⟨e, List.mem_cons_self, by simp [hnew]⟩
    | cons c kept => exact .inl rfl

end Edit

namespace Go
open Token (Lexes Row)
open Text (size)
open Grammar

/-- A text is read after its byte order mark, if it has one. -/
def Marked (before rest : List Char) : Prop := Token.markSize (before ++ rest) = before.length

theorem markSize_eq (source : List Char) :
    Token.markSize source = if source.head? = some '\uFEFF' then 1 else 0 := by
  unfold Token.markSize
  split
  · rfl
  · rename_i hne
    cases source with
    | nil => rfl
    | cons c source =>
      rw [if_neg]
      intro hc
      obtain rfl := Option.some.inj hc
      exact hne source rfl

private theorem exists_marked (source : List Char) :
    ∃ before rest, source = before ++ rest ∧ Marked before rest := by
  refine ⟨source.take (Token.markSize source), source.drop (Token.markSize source), by simp, ?_⟩
  rw [Marked, List.take_append_drop, markSize_eq]
  cases source with
  | nil => rfl
  | cons c source => split_ifs <;> rfl

theorem Marked.of_head? {before rest rest' : List Char} (h : Marked before rest)
    (hhead : rest'.head? = rest.head? ∨ rest'.head? ≠ some '\uFEFF') : Marked before rest' := by
  rw [Marked, markSize_eq] at h ⊢
  cases before with
  | nil =>
    simp only [List.nil_append, List.length_nil, ite_eq_right_iff] at h ⊢
    rcases hhead with hhead | hhead
    · rwa [hhead]
    · exact fun heq => absurd heq hhead
  | cons c before => exact h

/-- The tokens of a text after its mark. -/
theorem Marked.list_eq {before rest : List Char} {ts : List Token} (h : Marked before rest) :
    Token.list (before ++ rest) = .ok ts ↔ Lexes (size before) none rest ts := by
  have hlist : Token.list (before ++ rest) =
      Token.listFrom (before ++ rest).length (size before) none rest := by
    rw [Token.list, show Token.markSize (before ++ rest) = before.length from h]
    simp
  rw [hlist]
  exact ⟨Token.lexes_of_listFrom, fun hlexes => hlexes.listFrom_eq (by simp)⟩

private theorem orderly_of_lexes {source before rest : List Char} {ts : List Token}
    (hsource : source = before ++ rest) (h : Lexes (size before) none rest ts) : Orderly ts where
  row := ⟨source, size before, h.row hsource rfl (Nat.le_refl _) (by rintro _ ⟨⟩)⟩
  words t ht hkind hempty := by
    obtain ⟨r, hleads⟩ := h.exists_leads ht (by simp [hkind])
    exact hleads.ne_nil (by simp [hempty])

variable {source : List Char} {tokens : List Token} {trees : List Tree} {q : String} {change : Change}
  {edits : List Edit}

/-- The tokens of a source are those of its text after the mark. -/
theorem Parsed.exists_lexes (h : Parsed source tokens trees) : ∃ before rest,
    source = before ++ rest ∧ Marked before rest ∧ Lexes (size before) none rest tokens := by
  obtain ⟨before, rest, hsource, hmarked⟩ := exists_marked source
  refine ⟨before, rest, hsource, hmarked, ?_⟩
  rw [← hmarked.list_eq, ← hsource]
  exact h.list

theorem ReplacesBlock.head?_newText {e : Edit} (h : ReplacesBlock q change source tokens e) :
    e.newText.toList ≠ [] ∧ e.newText.toList.head? ≠ some '\uFEFF' := by
  obtain ⟨_, r, _, _, _, _, _, _, h⟩ := h
  rw [h.newText]
  rcases h.opens.text with heq | heq <;> rw [heq] <;> simp

/-- A source whose statements are replaced by edits can be read again, and its trees are amended. -/
theorem Parsed.exists_revised (h : Parsed source tokens trees) (hq : IsQualifier q)
    (hkept : ∀ kind children, isKept kind = true → change kind children = none)
    (hahead : Edit.Ahead source 0 edits)
    (hblocks : ∀ e ∈ edits, ReplacesBlock q change source tokens e)
    (hchange : ∀ u kind children, change kind (.token u :: children) ≠ none →
      ∃ e ∈ edits, e.range.start = u.span.start) :
    ∃ tokens' trees', Parsed (Edit.splice 0 source edits) tokens' trees' ∧
      trees'.map Tree.bare = trees.map fun t => (t.amend change).bare := by
  obtain ⟨before, rest, hsource, hmarked, hlexes⟩ := h.exists_lexes
  have hrow := hlexes.row hsource rfl (Nat.le_refl _) (by rintro _ ⟨⟩)
  have hafter : ∀ e ∈ edits, size before ≤ e.range.start := by
    intro e he
    obtain ⟨pre, r, mid, us, _, _, _, _, hreplaces⟩ := hblocks e he
    rw [hreplaces.range]
    exact hrow.le_start (by simp [hreplaces.tokens])
  have hahead' : Edit.Ahead (before ++ rest) (size before) edits := by
    rw [← hsource]
    exact { hahead with after := hafter }
  obtain ⟨⟨ts', hlexes', hamended⟩, -⟩ := @exists_amended_splice q change source tokens before rest
    edits (size before) hsource hlexes (hsource ▸ hahead') hblocks fun u kind children hsome =>
      .inr (hchange u kind children hsome)
  have hmarked' : Marked before (Edit.splice (size before) rest edits) := by
    refine hmarked.of_head? ?_
    refine (Edit.head?_splice hahead' fun e he => (hblocks e he).head?_newText.1).imp_right ?_
    rintro ⟨e, he, heq⟩
    rw [heq]
    exact (hblocks e he).head?_newText.2
  have hword : keywords.contains q = false ∧ valueWords.contains q = false := by
    rcases hq with rfl | rfl <;> exact ⟨by decide, by decide⟩
  obtain ⟨trees', htrees', hbare⟩ := exists_ofTokens?_amended hword hkept
    (orderly_of_lexes hsource hlexes) (orderly_of_lexes rfl hlexes') hamended h.read
  refine ⟨ts', trees', ⟨?_, htrees'⟩, hbare⟩
  rw [hsource, Edit.splice_append hahead', hmarked'.list_eq]
  exact hlexes'

end Go
end SentinelWrap
