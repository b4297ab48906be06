import SentinelWrap.Proofs.Edit.Splice
import SentinelWrap.Proofs.Go.Placement
import SentinelWrap.Proofs.Wrapping.Analysis

/-! When the fixes for the findings in a file can all be applied: the edits always fit the text, and
two of them clash exactly if a qualifying return stands inside a result of another one. -/
namespace SentinelWrap

namespace Edit

theorem applicable_of_fits {text : List Char} {edits : List Edit}
    (hfits : ∀ e ∈ edits, e.fits text = true)
    (hapart : ∀ a ∈ edits, ∀ b ∈ edits, a ≠ b → a.overlaps b = false ∧ a.range ≠ b.range) :
    Applicable text edits where
  ordered e he := (fits_iff.mp (hfits e he)).1
  inside e he := Text.le_size_of_isBoundary (fits_iff.mp (hfits e he)).2.2
  boundaries e he := (fits_iff.mp (hfits e he)).2
  apart := hapart

/-- Edits that fit the text are applied or found to clash. -/
theorem applyAll_of_fits {text : String} {edits : List Edit}
    (hfits : ∀ e ∈ edits, e.fits text.toList = true) :
    (Applicable text.toList edits → ∃ out, applyAll text edits = .ok out) ∧
      (¬ Applicable text.toList edits →
        ∃ a b, applyAll text edits = .error (.overlappingEdits a b)) := by
  constructor
  · intro h
    exact ⟨_, applyAll_eq_ok_iff.mpr ⟨hfits, (applicable_iff.mp h).2, rfl⟩⟩
  · intro h
    have hall : (sorted edits).find? (fun e => !e.fits text.toList) = none := by
      rw [List.find?_eq_none]
      intro e he
      simp [hfits e (mem_sorted.mp he)]
    cases hclash : clash? (sorted edits) with
    | none => exact absurd (applicable_iff.mpr ⟨hfits, hclash⟩) h
    | some pair =>
      refine ⟨pair.1.range, pair.2.range, ?_⟩
      unfold applyAll
      dsimp only
      rw [hall, hclash]
      rfl

end Edit

namespace Wrapping
open Node (Lined WellPlaced Placed Before)

/-- Some qualifying return stands inside a result of another one. -/
def Nested (root : Node) : Prop :=
  ∃ outer ∈ qualifyingReturns root, ∃ inner ∈ qualifyingReturns root,
    ∃ result ∈ outer.children, inner ∈ result.preorder

def returnEdit (file : SourceFile) (qualifier : String) (statement : Node) : Edit :=
  ⟨statement.span.getD ⟨0, 0⟩, (wrapped qualifier statement).render file.text.toList⟩

theorem edits_map_finding (file : SourceFile) (q : String) (returns : List Node)
    (rest : List Diagnostic) :
    Diagnostic.edits (returns.map (finding file q) ++ rest) =
      returns.map (returnEdit file q) ++ Diagnostic.edits rest := by
  induction returns with
  | nil => rfl
  | cons r returns ih =>
    have hcons : Diagnostic.edits (finding file q r :: (returns.map (finding file q) ++ rest)) =
      returnEdit file q r :: Diagnostic.edits (returns.map (finding file q) ++ rest) := rfl
    rw [List.map_cons, List.cons_append, hcons, ih]
    rfl

/-- There is an edit for each qualifying return, and at most one more, for an import declaration. -/
theorem edits_findings {file : SourceFile} {imports : List ImportSpec} {decls : List Node}
    {ds : List Diagnostic} (h : findings file imports decls = .ok ds) :
    ∃ last : Option Edit, Diagnostic.edits ds = (qualifyingReturns file.root).map
        (returnEdit file (qualifier (hasConflict imports))) ++ last.toList ∧
      ∀ e, last = some e → ∃ d ∈ decls, d.kind = .importGroup ∧ d.span = some e.range := by
  unfold findings at h
  split at h
  · rename_i hreturns
    obtain rfl := Except.ok.inj h
    exact ⟨none, by rw [hreturns]; rfl, nofun⟩
  · split at h
    · rename_i span parenthesized specs hfind
      obtain rfl := Except.ok.inj h
      refine ⟨some _, edits_map_finding _ _ _ _, fun e he => ?_⟩
      obtain rfl := Option.some.inj he
      exact ⟨_, List.mem_of_find?_eq_some hfind, rfl, rfl⟩
    · cases h

theorem of_mem_qualifyingReturns {span : Option Span} {package : Option String}
    {imports : List ImportSpec} {decls : List Node} {r : Node}
    (h : r ∈ qualifyingReturns (.file span package imports decls)) :
    Qualifies r ∧ r ∈ decls.flatMap Node.preorder := by
  have hroot : qualifyingReturns (.file span package imports decls) =
      (decls.flatMap Node.preorder).flatMap qualifyingIn := by
    rw [qualifyingReturns, Node.preorder_eq]
    rfl
  rw [hroot] at h
  obtain ⟨n, hn, hr⟩ := List.mem_flatMap.mp h
  obtain ⟨d, hd, hn⟩ := List.mem_flatMap.mp hn
  have hmem (hc : r ∈ n.children) : r ∈ decls.flatMap Node.preorder :=
    List.mem_flatMap.mpr ⟨d, hd, Node.preorder_subset_of_mem hn
      (Node.preorder_subset_of_mem_children hc r.self_mem_preorder)⟩
  cases n with
  | conditional span init condition body alternative =>
    simp only [qualifyingIn] at hr
    split_ifs at hr
    · obtain ⟨hbody, hq⟩ := List.mem_filter.mp hr
      exact ⟨by simpa using hq, hmem (by simp [Node.children, hbody])⟩
    · cases hr
  | _ => cases hr

theorem Qualifies.kind_eq {r : Node} (h : Qualifies r) : r.kind = .ret := by
  cases h
  rfl

theorem apart_of_stop_le {a b : Edit} (h : a.range.stop ≤ b.range.start)
    (hne : a.range.start < a.range.stop ∨ b.range.start < b.range.stop) :
    (a.overlaps b = false ∧ a.range ≠ b.range) ∧ b.overlaps a = false ∧ b.range ≠ a.range := by
  have hrange : a.range ≠ b.range := by
    intro heq
    rw [heq] at h hne
    omega
  simp only [Edit.overlaps, Bool.and_eq_false_iff, decide_eq_false_iff_not]
  exact ⟨⟨.inr (by omega), hrange⟩, .inl (by omega), hrange.symm⟩

section
variable {file : SourceFile} {span : Option Span} {package : Option String}
  {imports : List ImportSpec} {decls : List Node} {lo hi : Nat} {ds : List Diagnostic}

theorem fits_of_placed {n : Node} {s : Span} {e : Edit}
    (h : Placed file.text.toList n s) (he : e.range = s) : e.fits file.text.toList = true := by
  rw [Edit.fits_iff, he]
  exact ⟨h.start_le_stop, h.start_boundary, h.stop_boundary⟩

/-- The place of a qualifying return, and the edit that replaces it. -/
theorem placed_of_mem_qualifyingReturns
    (hroot : file.root = .file span package imports decls)
    (hplaced : ∀ d ∈ decls, WellPlaced file.text.toList d) {r : Node}
    (hr : r ∈ qualifyingReturns file.root) (q : String) :
    ∃ s, Placed file.text.toList r s ∧ s.start < s.stop ∧ (returnEdit file q r).range = s := by
  rw [hroot] at hr
  obtain ⟨hq, hmem⟩ := of_mem_qualifyingReturns hr
  obtain ⟨d, hd, hrd⟩ := List.mem_flatMap.mp hmem
  obtain ⟨s, hs⟩ := hplaced d hd r hrd
  refine ⟨s, hs, (hs.results hq.kind_eq).le, ?_⟩
  simp [returnEdit, hs.span_eq]

theorem not_applicable_of_nested (hroot : file.root = .file span package imports decls)
    (hplaced : ∀ d ∈ decls, WellPlaced file.text.toList d) (hnested : Nested file.root) {q : String}
    {edits : List Edit} (hedits : ∀ r ∈ qualifyingReturns file.root, returnEdit file q r ∈ edits) :
    ¬ Edit.Applicable file.text.toList edits := by
  obtain ⟨outer, houter, inner, hinner, result, hresult, hmem⟩ := hnested
  obtain ⟨s, hs, -, hrange⟩ := placed_of_mem_qualifyingReturns hroot hplaced houter q
  obtain ⟨u, hu, hlt, hrange'⟩ := placed_of_mem_qualifyingReturns hroot hplaced hinner q
  have hrets := hroot ▸ houter
  obtain ⟨hq, hmem'⟩ := of_mem_qualifyingReturns hrets
  obtain ⟨d, hd, hod⟩ := List.mem_flatMap.mp hmem'
  have hbelow : WellPlaced file.text.toList result := fun m hm =>
    hplaced d hd m (Node.preorder_subset_of_mem hod (Node.preorder_subset_of_mem_children hresult hm))
  obtain ⟨t, ht, hstart, hstop⟩ := (hs.results hq.kind_eq).inside hresult
  obtain ⟨v, hv, hstart', hstop'⟩ := hbelow.inside ht hmem
  obtain rfl : v = u := Option.some.inj (hv.span_eq.symm.trans hu.span_eq)
  intro happlicable
  have hne : returnEdit file q outer ≠ returnEdit file q inner := by
    intro heq
    rw [heq, hrange'] at hrange
    rw [hrange] at hstart'
    omega
  have hoverlaps := (happlicable.apart _ (hedits outer houter) _ (hedits inner hinner) hne).1
  simp only [Edit.overlaps, hrange, hrange', Bool.and_eq_false_iff, decide_eq_false_iff_not]
    at hoverlaps
  omega

theorem apart_of_not_nested (hroot : file.root = .file span package imports decls)
    (hlined : Lined lo hi decls) (hplaced : ∀ d ∈ decls, WellPlaced file.text.toList d)
    (hnested : ¬ Nested file.root) (q : String) {r r' : Node}
    (hr : r ∈ qualifyingReturns file.root) (hr' : r' ∈ qualifyingReturns file.root) (hne : r ≠ r') :
    (returnEdit file q r).overlaps (returnEdit file q r') = false ∧
      (returnEdit file q r).range ≠ (returnEdit file q r').range := by
  obtain ⟨s, hs, hlt, hrange⟩ := placed_of_mem_qualifyingReturns hroot hplaced hr q
  obtain ⟨s', hs', hlt', hrange'⟩ := placed_of_mem_qualifyingReturns hroot hplaced hr' q
  have hmem := (of_mem_qualifyingReturns (hroot ▸ hr)).2
  have hmem' := (of_mem_qualifyingReturns (hroot ▸ hr')).2
  -- A return that holds another one holds it in a result.
  have hinside {a b : Node} (ha : a ∈ qualifyingReturns file.root)
      (hb : b ∈ qualifyingReturns file.root) (hab : a ≠ b) : a ∉ b.preorder := by
    intro hmem
    rw [Node.preorder_eq, List.mem_cons, List.mem_flatMap] at hmem
    obtain ⟨result, hresult, hmem⟩ := hmem.resolve_left hab
    exact hnested ⟨b, hb, a, ha, result, hresult, hmem⟩
  rcases hlined.apartOrNested hplaced (fun d hd => (hplaced d hd).apartOrNested) hmem hmem' with
    ⟨u, v, hu, hv, hle⟩ | ⟨u, v, hu, hv, hle⟩ | hin | hin
  · obtain rfl := Option.some.inj (hu.symm.trans hs.span_eq)
    obtain rfl := Option.some.inj (hv.symm.trans hs'.span_eq)
    exact (apart_of_stop_le (by rw [hrange, hrange']; exact hle) (.inl (by rw [hrange]; exact hlt))).1
  · obtain rfl := Option.some.inj (hu.symm.trans hs'.span_eq)
    obtain rfl := Option.some.inj (hv.symm.trans hs.span_eq)
    exact (apart_of_stop_le (by rw [hrange, hrange']; exact hle) (.inr (by rw [hrange]; exact hlt))).2
  · exact absurd hin (hinside hr hr' hne)
  · exact absurd hin (hinside hr' hr (Ne.symm hne))

/-- The edit of an import declaration touches no return. -/
theorem apart_of_importGroup (hroot : file.root = .file span package imports decls)
    (hlined : Lined lo hi decls) (hplaced : ∀ d ∈ decls, WellPlaced file.text.toList d) (q : String)
    {r d : Node} {e : Edit} (hr : r ∈ qualifyingReturns file.root) (hd : d ∈ decls)
    (hkind : d.kind = .importGroup) (hspan : d.span = some e.range) :
    ((returnEdit file q r).overlaps e = false ∧ (returnEdit file q r).range ≠ e.range) ∧
      e.overlaps (returnEdit file q r) = false ∧ e.range ≠ (returnEdit file q r).range := by
  obtain ⟨s, hs, hlt, hrange⟩ := placed_of_mem_qualifyingReturns hroot hplaced hr q
  obtain ⟨hq, hmem⟩ := of_mem_qualifyingReturns (hroot ▸ hr)
  obtain ⟨c, hc, hrc⟩ := List.mem_flatMap.mp hmem
  have hself := d.self_mem_preorder
  rcases hlined.before_of_mem hc hd with rfl | hbefore | hbefore
  · obtain ⟨span, parenthesized, specs, rfl⟩ : ∃ a b c', c = .importGroup a b c' := by
      cases c <;> simp_all [Node.kind]
    obtain rfl : r = _ := by simpa [Node.preorder_eq, Node.children] using hrc
    cases hq
  · obtain ⟨u, v, hu, hv, hle⟩ := hbefore.of_mem_preorder (hplaced c hc) (hplaced d hd) hrc hself
    obtain rfl := Option.some.inj (hu.symm.trans hs.span_eq)
    obtain rfl := Option.some.inj (hv.symm.trans hspan)
    exact apart_of_stop_le (by rw [hrange]; exact hle) (.inl (by rw [hrange]; exact hlt))
  · obtain ⟨u, v, hu, hv, hle⟩ := hbefore.of_mem_preorder (hplaced d hd) (hplaced c hc) hself hrc
    obtain rfl := Option.some.inj (hu.symm.trans hspan)
    obtain rfl := Option.some.inj (hv.symm.trans hs.span_eq)
    exact (apart_of_stop_le (by rw [hrange]; exact hle) (.inr (by rw [hrange]; exact hlt))).symm

theorem applyFixes_findings (hroot : file.root = .file span package imports decls)
    (hlined : Lined lo hi decls) (hplaced : ∀ d ∈ decls, WellPlaced file.text.toList d)
    (hds : findings file imports decls = .ok ds) :
    (¬ Nested file.root → ∃ fixed, Diagnostic.applyFixes file.text ds = .ok fixed) ∧
      (Nested file.root →
        ∃ a b, Diagnostic.applyFixes file.text ds = .error (.overlappingEdits a b)) := by
  obtain ⟨last, hedits, hlast⟩ := edits_findings hds
  generalize hq : qualifier (hasConflict imports) = q at hedits
  have hmem (e : Edit) : e ∈ Diagnostic.edits ds ↔
      (∃ r ∈ qualifyingReturns file.root, returnEdit file q r = e) ∨ last = some e := by
    rw [hedits, List.mem_append, List.mem_map, Option.mem_toList]
  have hfits : ∀ e ∈ Diagnostic.edits ds, e.fits file.text.toList = true := by
    intro e he
    rcases (hmem e).mp he with ⟨r, hr, rfl⟩ | he
    · obtain ⟨s, hs, -, hrange⟩ := placed_of_mem_qualifyingReturns hroot hplaced hr q
      exact fits_of_placed hs hrange
    · obtain ⟨d, hd, -, hspan⟩ := hlast e he
      obtain ⟨s, hs⟩ := hplaced d hd d d.self_mem_preorder
      exact fits_of_placed hs (Option.some.inj (hspan.symm.trans hs.span_eq))
  obtain ⟨hok, herror⟩ := Edit.applyAll_of_fits hfits
  refine ⟨fun hnested => hok ?_, fun hnested => herror ?_⟩
  · refine Edit.applicable_of_fits hfits fun a ha b hb hne => ?_
    rcases (hmem a).mp ha with ⟨r, hr, rfl⟩ | ha <;> rcases (hmem b).mp hb with ⟨r', hr', rfl⟩ | hb
    · exact apart_of_not_nested hroot hlined hplaced hnested q hr hr' fun h => hne (by rw [h])
    · obtain ⟨d, hd, hkind, hspan⟩ := hlast b hb
      exact (apart_of_importGroup hroot hlined hplaced q hr hd hkind hspan).1
    · obtain ⟨d, hd, hkind, hspan⟩ := hlast a ha
      exact (apart_of_importGroup hroot hlined hplaced q hr' hd hkind hspan).2
    · exact absurd (Option.some.inj (ha.symm.trans hb)) hne
  · exact not_applicable_of_nested hroot hplaced hnested fun r hr => (hmem _).mpr (.inl ⟨r, hr, rfl⟩)

end

theorem parse_eq_ok_iff {path : Path} {text : String} {file : SourceFile} :
    SourceFile.parse path text = .ok file ↔ Language.ofPath? path = some .go ∧ file.path = path ∧
      file.text = text ∧ Go.parse text.toList = .ok file.root := by
  unfold SourceFile.parse
  cases hlanguage : Language.ofPath? path with
  | none => simp [throw, throwThe, MonadExceptOf.throw]
  | some language =>
    cases language
    cases hparse : Go.parse text.toList with
    | error fault => simp [throw, throwThe, MonadExceptOf.throw]
    | ok root =>
      constructor
      · intro h
        obtain rfl := Except.ok.inj h
        exact ⟨rfl, rfl, rfl, rfl⟩
      · rintro ⟨-, rfl, rfl, hroot⟩
        obtain rfl := Except.ok.inj hroot
        rfl

theorem parse_eq_ok {path : Path} {text : String} {file : SourceFile}
    (h : SourceFile.parse path text = .ok file) :
    file.text = text ∧ Go.parse text.toList = .ok file.root :=
  (parse_eq_ok_iff.mp h).2.2

/-- Of a file that can be read and analyzed, all findings can be fixed at once, unless a qualifying
return stands inside a result of another one. Then the edits of the two overlap. -/
theorem applyFixes_ok_iff_not_nested {path : Path} {text : String} {file : SourceFile}
    {ds : List Diagnostic} (hparse : SourceFile.parse path text = .ok file)
    (hanalyze : analyze file = .ok ds) :
    ((∃ fixed, Diagnostic.applyFixes text ds = .ok fixed) ↔ ¬ Nested file.root) ∧
      (Nested file.root → ∃ a b, Diagnostic.applyFixes text ds = .error (.overlappingEdits a b)) := by
  obtain ⟨rfl, hroot⟩ := parse_eq_ok hparse
  obtain ⟨span, package, imports, decls, hroot, ⟨lo, hi, hlined⟩, hplaced, honly⟩ :=
    Go.parse_placed hroot
  rw [analyze_file file span package imports decls hroot honly] at hanalyze
  obtain ⟨hok, herror⟩ := applyFixes_findings hroot hlined hplaced hanalyze
  refine ⟨⟨fun ⟨fixed, hfixed⟩ hnested => ?_, hok⟩, herror⟩
  obtain ⟨a, b, hclash⟩ := herror hnested
  rw [hfixed] at hclash
  cases hclash

/-- A return with a closure among its results, and a return in that closure. -/
def closureInResult : String :=
  "import\"a\";if err!=nil\x7breturn func()\x7bif err!=nil\x7breturn ErrB\x7d\x7d,ErrA\x7d"

theorem ranges_closureInResult : ∃ file ds, SourceFile.parse ⟨"a.go"⟩ closureInResult = .ok file ∧
    analyze file = .ok ds ∧
    (Diagnostic.edits ds).map Edit.range = [⟨22, 66⟩, ⟨48, 59⟩, ⟨0, 9⟩] := by
  have hranges : ((SourceFile.parse ⟨"a.go"⟩ closureInResult >>= analyze).toOption.map
      fun ds => (Diagnostic.edits ds).map Edit.range) = some [⟨22, 66⟩, ⟨48, 59⟩, ⟨0, 9⟩] := by
    decide +kernel
  cases hparse : SourceFile.parse ⟨"a.go"⟩ closureInResult with
  | error e => simp [hparse, bind, Except.bind, Except.toOption] at hranges
  | ok file =>
    cases hanalyze : analyze file with
    | error e => simp [hparse, hanalyze, bind, Except.bind, Except.toOption] at hranges
    | ok ds =>
      refine ⟨file, ds, rfl, hanalyze, ?_⟩
      simpa [hparse, hanalyze, bind, Except.bind, Except.toOption] using hranges

theorem applyFixes_ne_ok_of_overlap {text : String} {ds : List Diagnostic} {a b : Span}
    {rest : List Span} (hranges : (Diagnostic.edits ds).map Edit.range = a :: b :: rest)
    (hne : a ≠ b) (hstart : a.start < b.stop) (hstop : b.start < a.stop) (fixed : String) :
    Diagnostic.applyFixes text ds ≠ .ok fixed := by
  intro hfixed
  obtain ⟨hfits, hclash, -⟩ := Edit.applyAll_eq_ok_iff.mp hfixed
  have happlicable := Edit.applicable_iff.mpr ⟨hfits, hclash⟩
  obtain ⟨outer, _, hedits, rfl, hrest⟩ := List.map_eq_cons_iff.mp hranges
  obtain ⟨inner, _, rfl, rfl, -⟩ := List.map_eq_cons_iff.mp hrest
  have hoverlaps := (happlicable.apart outer (by simp [hedits]) inner (by simp [hedits])
    fun h => hne (by rw [h])).1
  simp [Edit.overlaps, hstart, hstop] at hoverlaps

/-- The two returns are both reported, and their fixes cannot be applied. -/
theorem applyFixes_closureInResult : ∃ file ds,
    SourceFile.parse ⟨"a.go"⟩ closureInResult = .ok file ∧ analyze file = .ok ds ∧
      ∀ fixed, Diagnostic.applyFixes closureInResult ds ≠ .ok fixed := by
  obtain ⟨file, ds, hparse, hanalyze, hranges⟩ := ranges_closureInResult
  exact ⟨file, ds, hparse, hanalyze,
    applyFixes_ne_ok_of_overlap hranges (by decide) (by decide) (by decide)⟩

theorem nested_closureInResult : ∃ file ds,
    SourceFile.parse ⟨"a.go"⟩ closureInResult = .ok file ∧ analyze file = .ok ds ∧
      Nested file.root ∧
      ∃ a b, Diagnostic.applyFixes closureInResult ds = .error (.overlappingEdits a b) := by
  obtain ⟨file, ds, hparse, hanalyze, hranges⟩ := ranges_closureInResult
  obtain ⟨hiff, herror⟩ := applyFixes_ok_iff_not_nested hparse hanalyze
  have hnested : Nested file.root := by
    by_contra h
    obtain ⟨fixed, hfixed⟩ := hiff.mpr h
    exact applyFixes_ne_ok_of_overlap hranges (by decide) (by decide) (by decide) fixed hfixed
  exact ⟨file, ds, hparse, hanalyze, hnested, herror hnested⟩

/-- In a file of which every node has its place, fixing what was found fails exactly if a qualifying
return stands inside a result of another one, and always because two edits overlap. -/
theorem applyFixes_error_iff_nested {file : SourceFile} {ds : List Diagnostic}
    (hroot : file.root.kind = .file)
    (honly : ∀ n ∈ file.root.children.flatMap Node.preorder, n.kind ≠ .file)
    (hspans : file.root.WellSpanned file.text.toList) (hanalyze : analyze file = .ok ds) :
    ((∃ error, Diagnostic.applyFixes file.text ds = .error error) ↔ Nested file.root) ∧
      ∀ error, Diagnostic.applyFixes file.text ds = .error error →
        ∃ a b, error = .overlappingEdits a b := by
  obtain ⟨span, package, imports, decls, hfile⟩ :
      ∃ span package imports decls, file.root = .file span package imports decls := by
    cases hcases : file.root with
    | file span package imports decls => exact ⟨span, package, imports, decls, rfl⟩
    | _ => simp [hcases, Node.kind] at hroot
  have hplaced : WellPlaced file.text.toList file.root := hspans.wellPlaced
  have hchildren : file.root.children = decls := by rw [hfile]; rfl
  obtain ⟨s, hs⟩ := hplaced _ file.root.self_mem_preorder
  have hlined : Lined s.start s.stop decls := hchildren ▸ hs.lined
  rw [analyze_file file span package imports decls hfile (hchildren ▸ honly)] at hanalyze
  obtain ⟨hok, herror⟩ := applyFixes_findings hfile hlined
    (fun d hd => hplaced.child (hchildren ▸ hd)) hanalyze
  have hnested {error : Error} (h : Diagnostic.applyFixes file.text ds = .error error) :
      Nested file.root := by
    by_contra hnot
    obtain ⟨fixed, hfixed⟩ := hok hnot
    cases h.symm.trans hfixed
  refine ⟨⟨fun ⟨error, h⟩ => hnested h, fun h => ?_⟩, fun error h => ?_⟩
  · obtain ⟨a, b, hclash⟩ := herror h
    exact ⟨_, hclash⟩
  · obtain ⟨a, b, hclash⟩ := herror (hnested h)
    exact ⟨a, b, Except.error.inj (h.symm.trans hclash)⟩

/-- The same source, with a tree that has no more than its returns need. -/
def closureTree : SourceFile :=
  let spec : ImportSpec := ⟨none, none, none, "\"a\""⟩
  let condition (start : Nat) : Node :=
    .comparison (some ⟨start, start + 8⟩) (.identifier (some ⟨start, start + 3⟩) "err") .ne
      (.literal (some ⟨start + 5, start + 8⟩) .nil "nil")
  let inner : Node := .ret (some ⟨48, 59⟩) [.identifier (some ⟨55, 59⟩) "ErrB"]
  let closure : Node := .other (some ⟨29, 61⟩) "func_literal"
    [.conditional (some ⟨36, 60⟩) none (condition 39) [inner] none]
  let outer : Node := .ret (some ⟨22, 66⟩) [closure, .identifier (some ⟨62, 66⟩) "ErrA"]
  { path := ⟨"a.go"⟩
    text := closureInResult
    root := .file (some ⟨0, 67⟩) none [spec] [.importGroup (some ⟨0, 9⟩) false [spec],
      .conditional (some ⟨10, 67⟩) none (condition 13) [outer] none] }

theorem overlap_closureTree : closureTree.root.WellSpanned closureTree.text.toList ∧
    ∃ ds a b, analyze closureTree = .ok ds ∧ Nested closureTree.root ∧
      Diagnostic.applyFixes closureTree.text ds = .error (.overlappingEdits a b) := by
  have hspans : closureTree.root.WellSpanned closureTree.text.toList := by decide +kernel
  obtain ⟨ds, hanalyze⟩ : ∃ ds, analyze closureTree = .ok ds := by
    have hok : (analyze closureTree).isOk = true := by decide +kernel
    cases hanalyze : analyze closureTree with
    | error error => rw [hanalyze] at hok; cases hok
    | ok ds => exact ⟨ds, rfl⟩
  have hnested : Nested closureTree.root :=
    ⟨_, List.mem_cons_self, _, List.mem_cons_of_mem _ List.mem_cons_self, _, List.mem_cons_self,
      by simp [Node.preorder_eq, Node.children]⟩
  obtain ⟨hiff, hoverlap⟩ := applyFixes_error_iff_nested rfl (by decide) hspans hanalyze
  obtain ⟨error, herror⟩ := hiff.mpr hnested
  obtain ⟨a, b, rfl⟩ := hoverlap error herror
  exact ⟨hspans, ds, a, b, hanalyze, hnested, herror⟩

end Wrapping
end SentinelWrap
