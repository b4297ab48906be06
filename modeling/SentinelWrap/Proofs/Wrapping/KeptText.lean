import SentinelWrap.Proofs.Go.Token.Comments
import SentinelWrap.Proofs.Wrapping.Reread

/-! What a wrapped return keeps of the statement it replaces. White space apart, it is the statement as
it was written, with the last result wrapped, but without the comments that stand outside of the
results. What is written inside of a result is kept in any case. -/
namespace SentinelWrap

namespace Text

def woven (gaps texts : List (List Char)) : List Char :=
  (List.zipWith (· ++ ·) gaps texts).flatten

@[simp] theorem woven_cons (gap text : List Char) (gaps texts : List (List Char)) :
    woven (gap :: gaps) (text :: texts) = gap ++ (text ++ woven gaps texts) := by
  simp [woven]

@[simp] theorem woven_nil (texts : List (List Char)) : woven [] texts = [] := rfl

end Text

namespace Span
variable {source : List Char} {lo : Nat} {value : Span} {spans : List Span}

theorem slice?_append {a b c : Nat} {left right : List Char}
    (hleft : slice? ⟨a, b⟩ source = some left) (hright : slice? ⟨b, c⟩ source = some right) :
    slice? ⟨a, c⟩ source = some (left ++ right) := by
  obtain ⟨before, after, rfl, hstart, hstop⟩ := slice?_eq_some_iff.mp hleft
  obtain ⟨before', after', heq, hstart', hstop'⟩ := slice?_eq_some_iff.mp hright
  simp only at hstart hstop hstart' hstop'
  rw [← List.append_assoc] at heq
  obtain ⟨rfl, rfl⟩ := Text.append_inj_of_size heq (by rw [Text.size_append]; omega)
  refine slice?_eq_some_iff.mpr ⟨before, after', by simp, hstart, ?_⟩
  simp only [Text.size_append] at hstop' ⊢
  omega

/-- The ranges in front of some others that follow each other, from an offset on. -/
def gapsFrom : Nat → List Span → List Span
  | _, [] => []
  | lo, s :: spans => ⟨lo, s.start⟩ :: gapsFrom s.stop spans

/-- What stands in front of each of some ranges, from an offset on, and what they cover. -/
structure Laid (source : List Char) (lo : Nat) (spans : List Span)
    (gaps texts : List (List Char)) : Prop where
  gaps_eq : (gapsFrom lo spans).map (slice? · source) = gaps.map some
  texts_eq : spans.map (slice? · source) = texts.map some

namespace Laid
variable {gaps texts leading : List (List Char)} {covered : List Char}

theorem cons {s : Span} {gap text : List Char} (hgap : slice? ⟨lo, s.start⟩ source = some gap)
    (htext : s.slice? source = some text) (h : Laid source s.stop spans gaps texts) :
    Laid source lo (s :: spans) (gap :: gaps) (text :: texts) where
  gaps_eq := by rw [gapsFrom, List.map_cons, hgap, h.gaps_eq, List.map_cons]
  texts_eq := by rw [List.map_cons, htext, h.texts_eq, List.map_cons]

theorem exists_cons {s : Span} (h : Laid source lo (s :: spans) gaps texts) :
    ∃ gap gaps' text texts', gaps = gap :: gaps' ∧ texts = text :: texts' ∧
      slice? ⟨lo, s.start⟩ source = some gap ∧ s.slice? source = some text ∧
      Laid source s.stop spans gaps' texts' := by
  obtain ⟨gap, gaps', rfl, hgap, hgaps⟩ := List.map_eq_cons_iff.mp h.gaps_eq.symm
  obtain ⟨text, texts', rfl, htext, htexts⟩ := List.map_eq_cons_iff.mp h.texts_eq.symm
  exact ⟨gap, gaps', text, texts', rfl, rfl, hgap.symm, htext.symm, hgaps.symm, htexts.symm⟩

theorem length_eq (h : Laid source lo spans gaps texts) : gaps.length = texts.length := by
  induction spans generalizing lo gaps texts with
  | nil =>
    have hgaps := congrArg List.length h.gaps_eq
    have htexts := congrArg List.length h.texts_eq
    simp_all [gapsFrom]
  | cons s spans ih =>
    obtain ⟨gap, gaps, text, texts, rfl, rfl, -, -, hlater⟩ := h.exists_cons
    rw [List.length_cons, List.length_cons, ih hlater]

/-- What stands before the last range, whatever is put there. -/
theorem exists_before (h : Laid source lo (spans ++ [value]) gaps (leading ++ [covered])) :
    ∃ before, slice? ⟨lo, value.start⟩ source = some before ∧
      ∀ last, Text.woven gaps (leading ++ [last]) = before ++ last := by
  induction spans generalizing lo gaps leading with
  | nil =>
    obtain ⟨gap, gaps, text, texts, rfl, htexts, hgap, -, hlater⟩ := h.exists_cons
    obtain rfl : leading = [] := by
      have hlength := congrArg List.length hlater.texts_eq
      have hlength' := congrArg List.length htexts
      simp only [List.map_nil, List.length_nil, List.length_map, List.length_append,
        List.length_cons] at hlength hlength'
      exact List.length_eq_zero_iff.mp (by omega)
    exact ⟨gap, hgap, by simp [Text.woven]⟩
  | cons s spans ih =>
    obtain ⟨gap, gaps, text, texts, rfl, htexts, hgap, htext, hlater⟩ := h.exists_cons
    cases leading with
    | nil =>
      obtain ⟨-, rfl⟩ := List.cons.inj htexts
      have hlength := congrArg List.length hlater.texts_eq
      simp at hlength
    | cons first leading =>
      obtain ⟨rfl, rfl⟩ := List.cons.inj htexts
      obtain ⟨before, hbefore, hwoven⟩ := ih hlater
      refine ⟨_, slice?_append (slice?_append hgap htext) hbefore, fun last => ?_⟩
      rw [List.cons_append, Text.woven_cons, hwoven]
      simp

end Laid
end Span

section
open Text (squeezed squeezed_append woven)
open Go.Token (uncommented length_squeezed_uncommented)
variable {gaps texts leading : List (List Char)} {gap last : List Char}

theorem length_squeezed_woven (h : gaps.length = texts.length) :
    (squeezed (woven (gaps.map uncommented) texts)).length ≤ (squeezed (woven gaps texts)).length ∧
      ((squeezed (woven (gaps.map uncommented) texts)).length =
        (squeezed (woven gaps texts)).length → ∀ gap ∈ gaps, uncommented gap = gap) := by
  induction gaps generalizing texts with
  | nil => exact ⟨Nat.le_refl _, fun _ => List.forall_mem_nil _⟩
  | cons gap gaps ih =>
    obtain ⟨text, texts, rfl⟩ := List.exists_cons_of_length_eq_add_one h.symm
    obtain ⟨hle, heq⟩ := ih (Nat.succ.inj h)
    obtain ⟨hle', heq'⟩ := length_squeezed_uncommented gap
    simp only [List.map_cons, Text.woven_cons, squeezed_append, List.length_append,
      List.forall_mem_cons]
    exact ⟨by omega, fun h => ⟨heq' (by omega), heq (by omega)⟩⟩

/-- Without the comments in the gaps a text is the same, white space apart, only if there are none. -/
theorem squeezed_woven_eq_iff (h : gaps.length = texts.length) :
    squeezed (woven gaps texts) = squeezed (woven (gaps.map uncommented) texts) ↔
      ∀ gap ∈ gaps, uncommented gap = gap := by
  refine ⟨fun heq => (length_squeezed_woven h).2 (congrArg List.length heq.symm), fun hgaps => ?_⟩
  have hmap : gaps.map uncommented = gaps := by
    rw [List.map_congr_left hgaps, List.map_id']
  rw [hmap]

/-- Where commas stand in the gaps, apart from white space and comments, the text is a list. -/
theorem squeezed_woven_commas (h : gaps.length = leading.length)
    (hgaps : ∀ gap ∈ gaps, squeezed (uncommented gap) = [',']) :
    squeezed (woven ((gap :: gaps).map uncommented) (leading ++ [last])) =
      squeezed (uncommented gap) ++ squeezed (leading.flatMap (· ++ ", ".toList) ++ last) := by
  induction leading generalizing gap gaps with
  | nil =>
    obtain rfl := List.length_eq_zero_iff.mp h
    simp [squeezed_append]
  | cons first leading ih =>
    obtain ⟨second, gaps, rfl⟩ := List.exists_cons_of_length_eq_add_one h
    obtain ⟨hsecond, hgaps⟩ := List.forall_mem_cons.mp hgaps
    have hcomma : squeezed ", ".toList = [','] := rfl
    rw [List.map_cons, List.cons_append, Text.woven_cons, squeezed_append, squeezed_append,
      ih (Nat.succ.inj h) hgaps, hsecond, List.flatMap_cons]
    simp only [squeezed_append, hcomma, List.append_assoc]

end

namespace Go.Grammar
open Rule Token
open Text (size squeezed squeezed_append)

variable {source pre front cs key : List Char} {lineEnd : Option Nat} {as us : List Token} {X : Tree}
  {n : Nat}

/-- An expression, and the gap before it, which begins with a text that is no comment. -/
theorem exists_gap (hus : us ≠ [])
    (hrun : run Symbol.rule n (.ref (.expression closing)) [] (as ++ us) = .read [X] us)
    (hsource : source = pre ++ (front ++ cs))
    (hfront : ∀ x, x <+: cs → squeezed (uncommented (front ++ x)) = key ++ squeezed (uncommented x))
    (hlexes : Lexes (size (pre ++ front)) lineEnd cs (as ++ us)) :
    ∃ gap text r, Span.slice? ⟨size pre, X.span.start⟩ source = some gap ∧
      X.span.slice? source = some text ∧ squeezed (uncommented gap) = key ∧
      X.span.stop = endOf 0 as ∧ source = pre ++ (gap ++ text) ++ r ∧
      size (pre ++ (gap ++ text)) = X.span.stop ∧ Lexes X.span.stop none r us := by
  have hspan := span_of_read hrun (ne_nil_of_expression hrun)
  obtain ⟨init, w, rfl⟩ := exists_last_token hrun
  have hend : endOf 0 (init ++ [w]) = w.span.stop := endOf_append_of_ne (by simp) 0 0 init
  rw [List.append_assoc, List.singleton_append] at hlexes
  obtain ⟨gap, x, r, rfl, ⟨mark, hgap⟩, hstart, hstop, -, hrest, -⟩ := hlexes.exists_slice hus
  have hsize : size (pre ++ (front ++ gap)) = startOf (init ++ [w]) := by
    rw [← hstart]
    simp [Nat.add_assoc]
  have hsize' : size (pre ++ (front ++ gap ++ (x ++ w.text.toList))) = X.span.stop := by
    rw [hspan, ← List.append_assoc, Text.size_append, hsize, hstop, hend]
  refine ⟨front ++ gap, x ++ w.text.toList, r, ?_, ?_, ?_, by rw [hspan], by simp [hsource], hsize', ?_⟩
  · rw [hspan]
    refine Span.slice?_eq_some_iff.mpr ⟨pre, x ++ w.text.toList ++ r, by simp [hsource], rfl, ?_⟩
    rw [← Text.size_append, hsize]
  · exact slice?_span hrun (hsource.trans (List.append_assoc ..).symm) hstart hstop
  · have hempty := hgap.squeezed_uncommented List.nil_prefix
    rw [List.append_nil] at hempty
    rw [hfront gap (List.prefix_append ..), hempty]
    simp [squeezed]
  · rw [hspan, hend]
    exact hrest

/-- The results of a return, and the gaps between them. Apart from white space and comments, the first
gap is what the statement begins with, and the other ones are commas. -/
theorem Listed.exists_laid {fuel : Nat} {ts : List Token} {Xs : List Tree} (h : Listed fuel us ts Xs)
    (hus : us ≠ []) (hsource : source = pre ++ (front ++ cs))
    (hfront : ∀ x, x <+: cs → squeezed (uncommented (front ++ x)) = key ++ squeezed (uncommented x))
    (hlexes : Lexes (size (pre ++ front)) lineEnd cs (ts ++ us)) :
    ∃ spans value gap gaps leading covered,
      (Xs.filter Tree.isNode).map Tree.span = spans ++ [value] ∧ value.stop = endOf 0 ts ∧
      Span.Laid source (size pre) (spans ++ [value]) (gap :: gaps) (leading ++ [covered]) ∧
      squeezed (uncommented gap) = key ∧ ∀ gap ∈ gaps, squeezed (uncommented gap) = [','] := by
  induction h generalizing pre front cs key lineEnd with
  | @last n as X _ hrun =>
    obtain ⟨gap, text, r, hgap, htext, hkey, hstop, -⟩ := exists_gap hus hrun hsource hfront hlexes
    refine ⟨[], X.span, gap, [], [], text, ?_, hstop, .cons hgap htext ⟨rfl, rfl⟩, hkey,
      List.forall_mem_nil _⟩
    simp [isNode_of_expression (derives_of_run hrun)]
  | @cons n as ts c X Xs _ hrun hc _ later ih =>
    rw [List.append_assoc, List.cons_append] at hlexes
    obtain ⟨gap, text, r, hgap, htext, hkey, -, hsource', hsize, hrest⟩ :=
      exists_gap (by simp) hrun hsource hfront hlexes
    have hcut := @Lexes.cut _ _ _ [] _ _ hrest (by simp [hus])
    obtain ⟨gap', r', rfl, hgap', -, hcstart, hcstop, hrest'⟩ := hcut
    have hcomma : c.text = "," := (Terminal.accepts_sign.mp hc).2
    have hfront' : ∀ x, x <+: r' →
        squeezed (uncommented (gap' ++ ",".toList ++ x)) = [','] ++ squeezed (uncommented x) := by
      intro x hx
      rw [List.append_assoc, hgap'.squeezed_uncommented, uncommented_append (by decide),
        squeezed_append]
      · rfl
      · rw [hcomma]
        exact (List.prefix_append_right_inj _).mpr hx
    have hsize' : size (pre ++ (gap ++ text) ++ (gap' ++ ",".toList)) = c.span.stop := by
      rw [← hcomma, Text.size_append, hsize, ← hcstop, ← hcstart, Text.size_append, Nat.add_assoc]
    have hsplit : source = pre ++ (gap ++ text) ++ (gap' ++ ",".toList ++ r') := by
      rw [hsource', hcomma, List.append_assoc gap']
    obtain ⟨spans, value, second, gaps, leading, covered, hspans, hstop, hlaid, hsecond, hgaps⟩ :=
      ih hsplit hfront' (hsize' ▸ hrest')
    rw [hsize] at hlaid
    refine ⟨X.span :: spans, value, gap, second :: gaps, text :: leading, covered, ?_, ?_,
      .cons hgap htext hlaid, hkey, List.forall_mem_cons.mpr ⟨hsecond, hgaps⟩⟩
    · rw [List.filter_cons_of_pos (isNode_of_expression (derives_of_run hrun)), List.map_cons,
        List.cons_append, ← hspans]
      rfl
    · rw [hstop, List.append_cons]
      exact (endOf_append_of_ne later.ne_nil 0 0 _).symm

end Go.Grammar

namespace Wrapping
open Go (Parsed Token Tree)
open Go.Grammar (ReturnOf returnTree)
open Go.Lowering (node nodes)
open Go.Token (uncommented)
open Text (size squeezed squeezed_append woven)

def wrapText (q : String) (value : List Char) : List Char :=
  q.toList ++ ".Wrap(".toList ++ (value ++ ", err.Error())".toList)

/-- What is written for a return, but for a call that wraps the last result in the place of that. -/
def wrappedSlice? (source : List Char) (q : String) : Node → Option (List Char)
  | .ret (some statement) results => do
    let value ← results.getLast? >>= Node.span
    let before ← Span.slice? ⟨statement.start, value.start⟩ source
    let covered ← value.slice? source
    let after ← Span.slice? ⟨value.stop, statement.stop⟩ source
    return before ++ wrapText q covered ++ after
  | _ => none

variable {source : List Char} {tokens : List Token} {trees : List Tree} {file : SourceFile} {r : Node}

theorem wrappedSlice?_of_laid {q : String} {statement value : Span} {results : List Node}
    {spans : List Span} {gaps leading : List (List Char)} {covered : List Char}
    (hspans : results.map Node.span = (spans ++ [value]).map some) (hstop : value.stop = statement.stop)
    (h : Span.Laid source statement.start (spans ++ [value]) gaps (leading ++ [covered])) :
    statement.slice? source = some (woven gaps (leading ++ [covered])) ∧
      wrappedSlice? source q (.ret (some statement) results) =
        some (woven gaps (leading ++ [wrapText q covered])) := by
  obtain ⟨before, hbefore, hwoven⟩ := h.exists_before
  have hcovered : value.slice? source = some covered := by
    have := congrArg List.getLast? h.texts_eq
    simpa using this
  have hlast : (results.getLast? >>= Node.span) = some value := by
    have := congrArg List.getLast? hspans
    simp only [List.getLast?_map, List.getLast?_concat, Option.map_some] at this
    cases hresult : results.getLast? with
    | none => simp [hresult] at this
    | some result => simpa [hresult] using this
  have hempty : Span.slice? ⟨value.stop, statement.stop⟩ source = some [] := by
    obtain ⟨front, back, rfl, hstart, hstop'⟩ := Span.slice?_eq_some_iff.mp hcovered
    refine Span.slice?_eq_some_iff.mpr ⟨front ++ covered, back, by simp, ?_, ?_⟩ <;>
      simp only [Text.size_append, Text.size_nil, ← hstop] <;> omega
  refine ⟨?_, ?_⟩
  · rw [hwoven]
    have hwhole := Span.slice?_append hbefore hcovered
    rwa [hstop] at hwhole
  · simp only [wrappedSlice?, hlast, hbefore, hcovered, hempty, hwoven, Option.bind_eq_bind,
      Option.bind_some, Option.pure_def, List.append_nil]

/-- The results of a qualifying return, and the gaps around them. -/
theorem exists_laid_of_mem (h : Parsed source tokens trees)
    (hr : r ∈ qualifyingReturns (Go.Lowering.file source trees)) :
    ∃ statement spans value gap gaps leading covered,
      r.span = some statement ∧ r.children.map Node.span = (spans ++ [value]).map some ∧
      value.stop = statement.stop ∧
      Span.Laid source statement.start (spans ++ [value]) (gap :: gaps) (leading ++ [covered]) ∧
      squeezed (uncommented gap) = "return".toList ∧
      ∀ gap ∈ gaps, squeezed (uncommented gap) = [','] := by
  obtain ⟨cs, pre, a, mid, us, t, Xs, fuel, hreturn, rfl, hX⟩ := exists_returnOf_of_mem h hr
  obtain ⟨before, text, hsource, -, hlexes⟩ := h.exists_lexes
  have hus := hreturn.rest_ne_nil hX hlexes
  rw [hreturn.tokens_eq] at hlexes
  obtain ⟨x, y, rfl, -, -, hstart, hstop, hrest⟩ := hlexes.cut (by simp [hus])
  have hword : a.text = "return" := (Go.Terminal.accepts_word.mp hreturn.accepts).2
  rw [hword] at hsource hstop
  have hsize : size (before ++ x) = a.span.start := by rw [Text.size_append, hstart]
  have hsize' : size (before ++ x ++ "return".toList) = a.span.stop := by
    rw [Text.size_append, hsize, hstop]
  rw [← hsize'] at hrest
  obtain ⟨spans, value, gap, gaps, leading, covered, hspans, hvalue, hlaid, hgap, hgaps⟩ :=
    hreturn.listed.exists_laid hus (hsource.trans (List.append_assoc ..).symm)
      (fun z _ => by rw [Token.uncommented_append (by decide), squeezed_append]) hrest
  refine ⟨_, spans, value, gap, gaps, leading, covered, rfl, ?_, ?_, ?_, hgap, hgaps⟩
  · rw [← hspans]
    exact map_span_nodes Xs
  · rw [hreturn.span, hvalue]
  · rw [hreturn.span, ← hsize]
    exact hlaid

/-- The new text for such a return, white space apart. -/
theorem squeezed_newText {q : String} {statement : Span} {results : List Node} {spans : List Span}
    {lo : Nat} {gap covered : List Char} {gaps leading : List (List Char)} {e : Edit}
    (hedit : wrapEdit? source q (.ret (some statement) results) = some e)
    (hspans : results.map Node.span = spans.map some)
    (hlaid : Span.Laid source lo spans (gap :: gaps) (leading ++ [covered]))
    (hgap : squeezed (uncommented gap) = "return".toList)
    (hgaps : ∀ gap ∈ gaps, squeezed (uncommented gap) = [',']) :
    squeezed e.newText.toList =
      squeezed (woven ((gap :: gaps).map uncommented) (leading ++ [wrapText q covered])) := by
  have hblank (cs : List Char) : squeezed (' ' :: cs) = squeezed cs := rfl
  rw [newText_of_wrapEdit? hedit (map_slice? hspans hlaid.texts_eq),
    squeezed_woven_commas (by simpa using hlaid.length_eq) hgaps, hgap, squeezed_append, hblank]
  rfl

/-- All findings but the last one are for qualifying returns. -/
theorem exists_of_mem_dropLast {ds : List Diagnostic} {d : Diagnostic}
    (hroot : file.root = Go.Lowering.file source trees) (hanalyze : analyze file = .ok ds)
    (hd : d ∈ ds.dropLast) :
    ∃ r ∈ qualifyingReturns file.root, d = finding file (nameAmong file.imports) r := by
  have himports : file.imports =
      (Go.Lowering.declared (Go.Point.ofOffset source) trees).imports := by
    unfold SourceFile.imports
    rw [hroot]
    rfl
  rw [analyze_file file _ _ _ _ hroot (Go.Lowering.declared_kind_ne_file _ _), ← himports] at hanalyze
  unfold findings at hanalyze
  split at hanalyze
  · obtain rfl := Except.ok.inj hanalyze
    cases hd
  · split at hanalyze
    · obtain rfl := Except.ok.inj hanalyze
      rw [List.dropLast_concat, qualifier_hasConflict] at hd
      obtain ⟨r, hr, rfl⟩ := List.mem_map.mp hd
      exact ⟨r, hr, rfl⟩
    · cases hanalyze

/-- A finding for a return replaces it, and only it. White space apart, the new text is that of the
statement with the last result wrapped, and without the comments that stand outside of the results. So
it keeps all else that was written exactly if there are no such comments. -/
theorem squeezed_newText_eq_uncommented {path : Path} {text : String} {ds : List Diagnostic}
    {d : Diagnostic} (hparse : SourceFile.parse path text = .ok file)
    (hanalyze : analyze file = .ok ds) (hd : d ∈ ds.dropLast) :
    ∃ e, d.fixes.flatMap (·.edits) = [e] ∧ ∃ r ∈ qualifyingReturns file.root,
      r.span = some e.range ∧ ∃ spans gaps leading value,
        r.children.map Node.span = spans.map some ∧
        Span.Laid text.toList e.range.start spans gaps (leading ++ [value]) ∧
        e.range.slice? text.toList = some (woven gaps (leading ++ [value])) ∧
        squeezed e.newText.toList = squeezed (woven (gaps.map uncommented)
          (leading ++ [wrapText (nameAmong file.imports) value])) ∧
        ((wrappedSlice? text.toList (nameAmong file.imports) r).map squeezed =
          some (squeezed e.newText.toList) ↔ ∀ gap ∈ gaps, uncommented gap = gap) := by
  obtain ⟨rfl, hgo⟩ := parse_eq_ok hparse
  obtain ⟨tokens, trees, hlist, hread, hroot⟩ := Go.parse_eq_ok_iff.mp hgo
  have h : Parsed file.text.toList tokens trees := ⟨hlist, hread⟩
  obtain ⟨r, hr, rfl⟩ := exists_of_mem_dropLast hroot hanalyze hd
  obtain ⟨statement, spans, value, gap, gaps, leading, covered, hspan, hspans, hstop, hlaid, hgap,
    hgaps⟩ := exists_laid_of_mem h (hroot ▸ hr)
  have hq := (of_mem_qualifyingReturns (hroot ▸ hr)).1
  have hedit := wrapEdit?_eq (q := nameAmong file.imports) hq
    (slice?_result (fun t ht => h.sound ht) (hroot ▸ hr))
  obtain ⟨results, rfl⟩ : ∃ results, r = .ret (some statement) results := by
    cases hq
    obtain rfl := Option.some.inj hspan
    exact ⟨_, rfl⟩
  rw [Node.children] at hspans
  obtain ⟨hslice, hwrapped⟩ := wrappedSlice?_of_laid (q := nameAmong file.imports) hspans hstop hlaid
  have hnew := squeezed_newText hedit hspans hlaid hgap hgaps
  refine ⟨_, rfl, _, hr, rfl, spans ++ [value], gap :: gaps, leading, covered, hspans, hlaid, hslice,
    hnew, ?_⟩
  change _ = some (squeezed (returnEdit file (nameAmong file.imports) _).newText.toList) ↔ _
  rw [hwrapped, Option.map_some, Option.some.injEq, hnew]
  exact squeezed_woven_eq_iff (by simpa using hlaid.length_eq)

/-- Comments in both results and before the second one. -/
def commentedResults : String :=
  "import\"fmt\";if err!=nil\x7breturn f(/*a*/),/*b*/io./*c*/ErrA\x7d"

theorem squeezed_newText_commentedResults : ∃ file ds d,
    SourceFile.parse ⟨"a.go"⟩ commentedResults = .ok file ∧ analyze file = .ok ds ∧ d ∈ ds.dropLast ∧
      d.fixes.flatMap (·.edits) =
        [⟨⟨24, 57⟩, "return f(/*a*/), errors.Wrap(io./*c*/ErrA, err.Error())"⟩] ∧
      ∃ r ∈ qualifyingReturns file.root, r.span = some ⟨24, 57⟩ ∧ ∃ spans gaps leading value,
        r.children.map Node.span = spans.map some ∧
        Span.Laid commentedResults.toList 24 spans gaps (leading ++ [value]) ∧
        squeezed "return f(/*a*/), errors.Wrap(io./*c*/ErrA, err.Error())".toList =
          squeezed (woven (gaps.map uncommented)
            (leading ++ [wrapText (nameAmong file.imports) value])) := by
  obtain ⟨file, ds, hparse, hanalyze, hfacts⟩ := @exists_of_eval _ ⟨"a.go"⟩ commentedResults
    [[⟨⟨24, 57⟩, "return f(/*a*/), errors.Wrap(io./*c*/ErrA, err.Error())"⟩]]
    (fun _ ds => ds.dropLast.map fun d => d.fixes.flatMap (·.edits)) (by decide +kernel)
  obtain ⟨d, hds, hfixes⟩ := List.map_eq_singleton_iff.mp hfacts
  have hd : d ∈ ds.dropLast := by simp [hds]
  obtain ⟨e, hedits, r, hr, hspan, spans, gaps, leading, value, hspans, hlaid, -, hnew, -⟩ :=
    squeezed_newText_eq_uncommented hparse hanalyze hd
  obtain rfl := List.singleton_inj.mp (hfixes.symm.trans hedits)
  exact ⟨file, ds, d, hparse, hanalyze, hd, hfixes, r, hr, hspan, spans, gaps, leading, value, hspans,
    hlaid, hnew⟩

def commentBeforeSentinel : String := "import\"fmt\";if err!=nil\x7breturn/*a*/ErrA\x7d"

/-- The comment is lost. -/
theorem squeezed_newText_ne_commentBeforeSentinel : ∃ file ds d r,
    SourceFile.parse ⟨"a.go"⟩ commentBeforeSentinel = .ok file ∧ analyze file = .ok ds ∧
      d ∈ ds.dropLast ∧ r ∈ qualifyingReturns file.root ∧
      d.fixes.flatMap (·.edits) = [⟨⟨24, 39⟩, "return errors.Wrap(ErrA, err.Error())"⟩] ∧
      r.span = some ⟨24, 39⟩ ∧
      wrappedSlice? commentBeforeSentinel.toList (nameAmong file.imports) r =
        some "return/*a*/errors.Wrap(ErrA, err.Error())".toList ∧
      squeezed "return errors.Wrap(ErrA, err.Error())".toList ≠
        squeezed "return/*a*/errors.Wrap(ErrA, err.Error())".toList := by
  obtain ⟨file, ds, hparse, hanalyze, hfacts⟩ := @exists_of_eval _ ⟨"a.go"⟩ commentBeforeSentinel
    ([[⟨⟨24, 39⟩, "return errors.Wrap(ErrA, err.Error())"⟩]],
      [(some ⟨24, 39⟩, some "return/*a*/errors.Wrap(ErrA, err.Error())".toList)])
    (fun file ds => (ds.dropLast.map fun d => d.fixes.flatMap (·.edits),
      (qualifyingReturns file.root).map fun r =>
        (r.span, wrappedSlice? commentBeforeSentinel.toList (nameAmong file.imports) r)))
    (by decide +kernel)
  obtain ⟨hds, hreturns⟩ := Prod.mk.inj hfacts
  obtain ⟨d, hds, hfixes⟩ := List.map_eq_singleton_iff.mp hds
  obtain ⟨r, hreturns, hr⟩ := List.map_eq_singleton_iff.mp hreturns
  obtain ⟨hspan, hslice⟩ := Prod.mk.inj hr
  exact ⟨file, ds, d, r, hparse, hanalyze, by simp [hds], by simp [hreturns], hfixes, hspan, hslice,
    by decide⟩

end Wrapping
end SentinelWrap
