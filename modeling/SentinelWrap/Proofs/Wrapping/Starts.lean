import Mathlib.Data.List.Perm.Basic
import SentinelWrap.Proofs.Wrapping.Overlap
import SentinelWrap.Proofs.Wrapping.WrapAll

/-! Sites told by the offsets at which they begin. No two returns of a source begin at the same offset,
so wrapping the returns at the offsets of the sites wraps the sites and nothing else. -/
namespace SentinelWrap.Wrapping
open Node (Lined WellPlaced Placed)

def beginsAt (starts : List Nat) : Node → Bool
  | .ret (some span) _ => starts.contains span.start
  | _ => false

mutual

/-- The tree with the returns that begin at some offsets wrapped. Their results stay as they are. -/
def wrapAt (q : String) (starts : List Nat) : Node → Node
  | .file span package imports decls => .file span package imports (wrapEachAt q starts decls)
  | .conditional span init condition body alternative =>
    .conditional span (wrapOptionAt q starts init) (wrapAt q starts condition)
      (wrapEachAt q starts body) (wrapOptionAt q starts alternative)
  | .ret span results =>
    if beginsAt starts (.ret span results) then wrappedReturn q span results
    else .ret span (wrapEachAt q starts results)
  | .importGroup span parenthesized specs => .importGroup span parenthesized specs
  | .identifier span name => .identifier span name
  | .memberAccess span operand member => .memberAccess span (wrapAt q starts operand) member
  | .comparison span left op right =>
    .comparison span (wrapAt q starts left) op (wrapAt q starts right)
  | .literal span kind text => .literal span kind text
  | .call span callee args => .call span (wrapAt q starts callee) (wrapEachAt q starts args)
  | .other span kind children => .other span kind (wrapEachAt q starts children)

def wrapEachAt (q : String) (starts : List Nat) : List Node → List Node
  | [] => []
  | n :: ns => wrapAt q starts n :: wrapEachAt q starts ns

def wrapOptionAt (q : String) (starts : List Nat) : Option Node → Option Node
  | none => none
  | some n => some (wrapAt q starts n)

end

theorem wrapEachAt_eq_map (q : String) (starts : List Nat) (ns : List Node) :
    wrapEachAt q starts ns = ns.map (wrapAt q starts) := by
  induction ns with
  | nil => rfl
  | cons n ns ih => simp [wrapEachAt, ih]

theorem wrapOptionAt_eq_map (q : String) (starts : List Nat) (n : Option Node) :
    wrapOptionAt q starts n = n.map (wrapAt q starts) := by
  cases n <;> rfl

/-- The children of a node, each with whether it is a site where it stands. -/
def flagged : Node → List (Bool × Node)
  | .conditional _ init condition body alternative =>
    init.toList.map (false, ·) ++ (false, condition) ::
      body.map (fun n => (decide (ErrNotNil condition) && decide (ReturnsSentinel n), n)) ++
      alternative.toList.map (false, ·)
  | n => n.children.map (false, ·)

/-- The node with other children, each made from the old one and whether that is a site. -/
def rebuild (g : Bool → Node → Node) : Node → Node
  | .file span package imports decls => .file span package imports (decls.map (g false))
  | .conditional span init condition body alternative =>
    .conditional span (init.map (g false)) (g false condition)
      (body.map fun n => g (decide (ErrNotNil condition) && decide (ReturnsSentinel n)) n)
      (alternative.map (g false))
  | .ret span results => .ret span (results.map (g false))
  | .importGroup span parenthesized specs => .importGroup span parenthesized specs
  | .identifier span name => .identifier span name
  | .memberAccess span operand member => .memberAccess span (g false operand) member
  | .comparison span left op right => .comparison span (g false left) op (g false right)
  | .literal span kind text => .literal span kind text
  | .call span callee args => .call span (g false callee) (args.map (g false))
  | .other span kind children => .other span kind (children.map (g false))

variable {q : String} {starts : List Nat} {n : Node} {g g' : Bool → Node → Node}

theorem map_snd_flagged (n : Node) : (flagged n).map Prod.snd = n.children := by
  cases n <;> simp [flagged, Node.children, Function.comp_def]

theorem rebuild_congr (h : ∀ p ∈ flagged n, g p.1 p.2 = g' p.1 p.2) : rebuild g n = rebuild g' n := by
  cases n with
  | conditional span init condition body alternative =>
    simp only [flagged, List.forall_mem_append, List.forall_mem_cons, List.forall_mem_map,
      Option.mem_toList] at h
    obtain ⟨⟨hinit, hcondition, hbody⟩, halternative⟩ := h
    simp only [rebuild, Node.conditional.injEq, true_and]
    exact ⟨Option.map_congr hinit, hcondition, List.map_congr_left hbody, Option.map_congr halternative⟩
  | file | ret | other =>
    simp only [flagged, Node.children, List.forall_mem_map] at h
    simp [rebuild, List.map_congr_left h]
  | call =>
    simp only [flagged, Node.children, List.forall_mem_map, List.forall_mem_cons] at h
    simp [rebuild, h.1, List.map_congr_left h.2]
  | memberAccess | comparison =>
    simp only [flagged, Node.children, List.forall_mem_map, List.forall_mem_cons] at h
    simp [rebuild, h]
  | importGroup | identifier | literal => rfl

private theorem rebuild_id (n : Node) : rebuild (fun _ c => c) n = n := by
  cases n <;> simp [rebuild]

theorem wrapIf_false (q : String) (n : Node) : wrapIf q false n = n := by cases n <;> rfl

theorem wrapAll_eq_rebuild (q : String) (n : Node) :
    wrapAll q n = rebuild (fun isSite c => wrapIf q isSite (wrapAll q c)) n := by
  cases n <;> simp [wrapAll, rebuild, wrapEach_eq_map, wrapOption_eq_map, wrapBody_eq_map, wrapIf_false]

theorem wrapAt_eq_rebuild (h : beginsAt starts n = false) :
    wrapAt q starts n = rebuild (fun _ c => wrapAt q starts c) n := by
  cases n <;> simp [wrapAt, rebuild, wrapEachAt_eq_map, wrapOptionAt_eq_map, h]

/-- All nodes below a node, each with whether it is a site where it stands. -/
def flaggedBelow (n : Node) : List (Bool × Node) := n.preorder.flatMap flagged

theorem flaggedBelow_eq (n : Node) :
    flaggedBelow n = flagged n ++ n.children.flatMap flaggedBelow := by
  rw [flaggedBelow, Node.preorder_eq, List.flatMap_cons, List.flatMap_assoc]
  rfl

theorem perm_flaggedBelow (n : Node) :
    ((flaggedBelow n).map Prod.snd).Perm (n.children.flatMap Node.preorder) := by
  induction n using Node.children_induction with
  | step n ih =>
    rw [flaggedBelow_eq, List.map_append, map_snd_flagged, List.map_flatMap]
    have hchildren : n.children.flatMap Node.preorder =
        n.children.flatMap fun c => c :: c.children.flatMap Node.preorder :=
      List.flatMap_congr fun c _ => Node.preorder_eq c
    have hbelow := (List.Perm.flatMap_left n.children ih).append_left n.children
    rw [hchildren]
    exact hbelow.trans (by simpa using List.map_append_flatMap_perm n.children id _)

theorem mem_of_mem_flaggedBelow {p : Bool × Node} (h : p ∈ flaggedBelow n) :
    p.2 ∈ n.children.flatMap Node.preorder :=
  (perm_flaggedBelow n).mem_iff.mp (List.mem_map_of_mem h)

theorem mem_flaggedBelow_of_mem {m : Node} {p : Bool × Node} (hm : m ∈ n.preorder)
    (hp : p ∈ flaggedBelow m) : p ∈ flaggedBelow n := by
  obtain ⟨k, hk, hp⟩ := List.mem_flatMap.mp hp
  exact List.mem_flatMap.mpr ⟨k, Node.preorder_subset_of_mem hm hk, hp⟩

def start? (n : Node) : Option Nat := if n.kind = .ret then n.span.map Span.start else none

theorem pairwise_starts_list {lo hi : Nat} {ns : List Node} (h : Lined lo hi ns)
    (hns : ∀ n ∈ ns, ∀ s, n.span = some s → (n.preorder.filterMap start?).Pairwise (· < ·) ∧
      ∀ a ∈ n.preorder.filterMap start?, s.start ≤ a ∧ a < s.stop) :
    ((ns.flatMap Node.preorder).filterMap start?).Pairwise (· < ·) ∧
      ∀ a ∈ (ns.flatMap Node.preorder).filterMap start?, lo ≤ a ∧ a < hi := by
  induction ns generalizing lo with
  | nil => exact ⟨.nil, List.forall_mem_nil _⟩
  | cons n ns ih =>
    obtain ⟨s, hspan, hlo, hle, hrest⟩ := h
    obtain ⟨hn, hns⟩ := List.forall_mem_cons.mp hns
    obtain ⟨hfirst, hbounds⟩ := hn s hspan
    obtain ⟨hlater, hbounds'⟩ := ih hrest hns
    have hhi := hrest.le
    rw [List.flatMap_cons, List.filterMap_append, List.pairwise_append, List.forall_mem_append]
    refine ⟨⟨hfirst, hlater, fun a ha b hb => ?_⟩, fun a ha => ?_, fun b hb => ?_⟩
    · have := hbounds a ha
      have := hbounds' b hb
      omega
    · have := hbounds a ha
      omega
    · have := hbounds' b hb
      omega

/-- The returns of a tree begin one after the other, in preorder. -/
theorem pairwise_starts {source : List Char} (h : WellPlaced source n) :
    ∀ s, n.span = some s → (n.preorder.filterMap start?).Pairwise (· < ·) ∧
      ∀ a ∈ n.preorder.filterMap start?, s.start ≤ a ∧ a < s.stop := by
  induction n using Node.children_induction with
  | step n ih =>
    intro s hspan
    obtain ⟨s', hs⟩ := h n n.self_mem_preorder
    obtain rfl := Option.some.inj (hspan.symm.trans hs.span_eq)
    have hbelow := fun c hc => ih c hc (h.child hc)
    rw [Node.preorder_eq, List.filterMap_cons]
    by_cases hret : n.kind = .ret
    · obtain ⟨hpairwise, hbounds⟩ := pairwise_starts_list (hs.results hret) hbelow
      have hlt := (hs.results hret).le
      simp only [start?, hret, if_true, hspan, Option.map_some]
      refine ⟨List.pairwise_cons.mpr ⟨fun a ha => (hbounds a ha).1, hpairwise⟩, ?_⟩
      refine List.forall_mem_cons.mpr ⟨⟨Nat.le_refl _, hlt⟩, fun a ha => ?_⟩
      have := hbounds a ha
      omega
    · simp only [start?, hret, if_false]
      exact pairwise_starts_list hs.lined hbelow

/-- No two returns of a file begin at the same offset, so a node below it that begins where a return
does is that return, and stands there once. -/
theorem eq_of_start? {source : List Char} {lo hi : Nat} {root : Node}
    (hlined : Lined lo hi root.children) (hplaced : ∀ d ∈ root.children, WellPlaced source d)
    {a b : Bool × Node} (ha : a ∈ flaggedBelow root) (hb : b ∈ flaggedBelow root) {offset : Nat}
    (hstart : start? a.2 = some offset) (hstart' : start? b.2 = some offset) : a = b := by
  have hpairwise := (pairwise_starts_list hlined fun d hd => pairwise_starts (hplaced d hd)).1
  have hnodup : ((flaggedBelow root).filterMap (start? ∘ Prod.snd)).Nodup := by
    rw [← List.filterMap_map]
    exact ((perm_flaggedBelow root).filterMap start?).nodup_iff.mpr (hpairwise.imp Nat.ne_of_lt)
  rw [List.Nodup, List.pairwise_filterMap] at hnodup
  by_contra hne
  have hsymm : Std.Symm fun x y : Bool × Node => ∀ c, (start? ∘ Prod.snd) x = some c →
      ∀ c', (start? ∘ Prod.snd) y = some c' → c ≠ c' :=
    ⟨fun x y hxy c hc c' hc' heq => hxy c' hc' c hc heq.symm⟩
  exact hnodup.forall ha hb hne offset hstart offset hstart' rfl

def siteStarts (root : Node) : List Nat := (qualifyingReturns root).filterMap start?

theorem start?_eq_some_iff {offset : Nat} : start? n = some offset ↔
    ∃ span results, n = .ret (some span) results ∧ span.start = offset := by
  cases n with
  | ret span results => cases span <;> simp [start?, Node.kind, Node.span]
  | _ => simp [start?, Node.kind]

theorem beginsAt_iff : beginsAt starts n = true ↔ ∃ offset ∈ starts, start? n = some offset := by
  cases n with
  | ret span results => cases span <;> simp [beginsAt, start?, Node.kind, Node.span]
  | _ => simp [beginsAt, start?, Node.kind]

theorem mem_qualifyingIn_iff {r : Node} (hspan : r.span.isSome = true) :
    r ∈ qualifyingIn n ↔ (true, r) ∈ flagged n := by
  have hqualifies : Qualifies r ↔ ReturnsSentinel r := by
    refine ⟨Qualifies.returnsSentinel, ?_⟩
    rintro ⟨span, leading, value, hvalue⟩
    obtain ⟨span, rfl⟩ := Option.isSome_iff_exists.mp hspan
    exact .intro span leading value hvalue
  cases n with
  | conditional span init condition body alternative =>
    by_cases hguard : ErrNotNil condition <;> simp [qualifyingIn, flagged, hguard, hqualifies]
  | _ => simp [qualifyingIn, flagged]

/-- A return qualifies exactly if it is a site somewhere below the root. -/
theorem mem_qualifyingReturns_iff {r root : Node} (hspan : r.span.isSome = true) :
    r ∈ qualifyingReturns root ↔ (true, r) ∈ flaggedBelow root := by
  simp only [qualifyingReturns, flaggedBelow, List.mem_flatMap, mem_qualifyingIn_iff hspan]

theorem ReturnsSentinel.kind_eq (h : ReturnsSentinel n) : n.kind = .ret := by
  cases h
  rfl

theorem returnsSentinel_of_mem_flagged {c : Node} (h : (true, c) ∈ flagged n) : ReturnsSentinel c := by
  cases n with
  | conditional span init condition body alternative =>
    have hsite : c ∈ body ∧ ErrNotNil condition ∧ ReturnsSentinel c := by simpa [flagged] using h
    exact hsite.2.2
  | _ => simp [flagged] at h

/-- A node below the root begins at the offset of a site exactly if it is one. -/
theorem beginsAt_siteStarts {source : List Char} {lo hi : Nat} {root : Node}
    (hlined : Lined lo hi root.children) (hplaced : ∀ d ∈ root.children, WellPlaced source d)
    {p : Bool × Node} (hp : p ∈ flaggedBelow root) : beginsAt (siteStarts root) p.2 = p.1 := by
  obtain ⟨d, hd, hpd⟩ := List.mem_flatMap.mp (mem_of_mem_flaggedBelow hp)
  obtain ⟨s, hs⟩ := hplaced d hd p.2 hpd
  have hspan : p.2.span.isSome = true := by simp [hs.span_eq]
  rw [Bool.eq_iff_iff, beginsAt_iff]
  constructor
  · rintro ⟨offset, hoffset, hstart⟩
    obtain ⟨r, hr, hr'⟩ := List.mem_filterMap.mp hoffset
    obtain ⟨span, results, rfl, -⟩ := start?_eq_some_iff.mp hr'
    have hsite := (mem_qualifyingReturns_iff rfl).mp hr
    exact congrArg Prod.fst (eq_of_start? hlined hplaced hp hsite hstart hr')
  · intro hsite
    have hp' : (true, p.2) ∈ flaggedBelow root := hsite ▸ hp
    obtain ⟨m, -, hm⟩ := List.mem_flatMap.mp hp'
    have hret := (returnsSentinel_of_mem_flagged hm).kind_eq
    have hstart : start? p.2 = some s.start := by simp [start?, hret, hs.span_eq]
    exact ⟨s.start, List.mem_filterMap.mpr
      ⟨p.2, (mem_qualifyingReturns_iff hspan).mpr hp', hstart⟩, hstart⟩

theorem wrapAll_eq_self (h : ∀ p ∈ flaggedBelow n, p.1 = false) : wrapAll q n = n := by
  induction n using Node.children_induction with
  | step n ih =>
    rw [wrapAll_eq_rebuild]
    refine (rebuild_congr fun p hp => ?_).trans (rebuild_id n)
    have hmem : p ∈ flaggedBelow n := by simp [flaggedBelow_eq n, hp]
    have hchild : p.2 ∈ n.children := map_snd_flagged n ▸ List.mem_map_of_mem hp
    rw [h p hmem, wrapIf_false]
    exact ih p.2 hchild fun p' hp' => h p' (mem_flaggedBelow_of_mem
      (Node.preorder_subset_of_mem_children hchild p.2.self_mem_preorder) hp')

/-- Wrapping at the right offsets wraps all sites, if no result of a site holds another one. -/
theorem wrapAt_eq_wrapAll (hbelow : ∀ p ∈ flaggedBelow n, beginsAt starts p.2 = p.1)
    (hresults : ∀ r ∈ n.preorder, beginsAt starts r = true →
      ∀ c ∈ r.children, ∀ p ∈ flaggedBelow c, p.1 = false) :
    wrapAt q starts n = wrapIf q (beginsAt starts n) (wrapAll q n) := by
  induction n using Node.children_induction with
  | step n ih =>
    by_cases hn : beginsAt starts n = true
    · obtain ⟨offset, -, hstart⟩ := beginsAt_iff.mp hn
      obtain ⟨span, results, rfl, -⟩ := start?_eq_some_iff.mp hstart
      have hself : results.map (wrapAll q) = results := by
        refine (List.map_congr_left fun c hc => ?_).trans (List.map_id results)
        exact wrapAll_eq_self (hresults _ (Node.self_mem_preorder _) hn c hc)
      rw [wrapAt, if_pos hn, wrapAll, wrapEach_eq_map, hself, hn, wrapIf, if_pos rfl]
    · rw [Bool.not_eq_true] at hn
      rw [hn, wrapIf_false, wrapAt_eq_rebuild hn, wrapAll_eq_rebuild]
      refine rebuild_congr fun p hp => ?_
      have hmem : p ∈ flaggedBelow n := by simp [flaggedBelow_eq n, hp]
      have hchild : p.2 ∈ n.children := map_snd_flagged n ▸ List.mem_map_of_mem hp
      have hsub := Node.preorder_subset_of_mem_children hchild
      rw [← hbelow p hmem]
      exact ih p.2 hchild
        (fun p' hp' => hbelow p' (mem_flaggedBelow_of_mem (hsub p.2.self_mem_preorder) hp'))
        fun r hr => hresults r (hsub hr)

/-- Where no qualifying return stands inside a result of another one, no result of a site holds a
site. -/
theorem eq_false_of_not_nested {source : List Char} {root r c : Node} {p : Bool × Node}
    (hplaced : ∀ d ∈ root.children, WellPlaced source d) (hnested : ¬ Nested root)
    (hr : (true, r) ∈ flaggedBelow root) (hc : c ∈ r.children) (hp : p ∈ flaggedBelow c) :
    p.1 = false := by
  by_contra hsite
  rw [Bool.not_eq_false] at hsite
  have hqualifies {m : Node} (hm : (true, m) ∈ flaggedBelow root) : m ∈ qualifyingReturns root := by
    obtain ⟨d, hd, hmd⟩ := List.mem_flatMap.mp (mem_of_mem_flaggedBelow hm)
    obtain ⟨s, hs⟩ := hplaced d hd m hmd
    exact (mem_qualifyingReturns_iff (by simp [hs.span_eq])).mpr hm
  have hroot : r ∈ root.preorder := by
    rw [Node.preorder_eq]
    exact List.mem_cons_of_mem _ (mem_of_mem_flaggedBelow hr)
  have hmem : p.2 ∈ c.preorder := by
    rw [Node.preorder_eq]
    exact List.mem_cons_of_mem _ (mem_of_mem_flaggedBelow hp)
  refine hnested ⟨r, hqualifies hr, p.2, hqualifies ?_, c, hc, hmem⟩
  rw [← hsite]
  exact mem_flaggedBelow_of_mem (Node.preorder_subset_of_mem hroot
    (Node.preorder_subset_of_mem_children hc c.self_mem_preorder)) hp

/-- In a file, the returns to wrap are told by the offsets at which they begin. -/
theorem wrapAt_siteStarts {source : List Char} {lo hi : Nat} {root : Node}
    (hlined : Lined lo hi root.children) (hplaced : ∀ d ∈ root.children, WellPlaced source d)
    (hnested : ¬ Nested root) (hfile : root.kind ≠ .ret) (q : String) :
    wrapAt q (siteStarts root) root = wrapAll q root := by
  have hbelow := fun p (hp : p ∈ flaggedBelow root) => beginsAt_siteStarts hlined hplaced hp
  have hroot : beginsAt (siteStarts root) root = false := by
    cases root <;> first | rfl | exact absurd rfl hfile
  rw [wrapAt_eq_wrapAll hbelow, hroot, wrapIf_false]
  intro r hr hbegins c hc p hp
  rw [Node.preorder_eq, List.mem_cons] at hr
  rcases hr with rfl | hr
  · rw [hroot] at hbegins
    cases hbegins
  obtain ⟨⟨isSite, _⟩, hsite, rfl⟩ := List.mem_map.mp ((perm_flaggedBelow root).mem_iff.mpr hr)
  obtain rfl : true = isSite := hbegins.symm.trans (hbelow _ hsite)
  exact eq_false_of_not_nested hplaced hnested hsite hc hp

end SentinelWrap.Wrapping
