import SentinelWrap.Proofs.Wrapping.Analysis

/-! Trees in which every site is wrapped, wherever it stands. Wrapping changes neither the conditions
nor the names that the matcher looks at, and what it inserts is a call, which is no sentinel: so no
site is left. -/
namespace SentinelWrap.Wrapping

/-- A return statement whose last result is a sentinel, with or without a place in a source. -/
inductive ReturnsSentinel : Node → Prop
  | intro (span : Option Span) (leading : List Node) (value : Node) (h : EndsInSentinel value) :
    ReturnsSentinel (.ret span (leading ++ [value]))

theorem returnsSentinel_iff {n : Node} : ReturnsSentinel n ↔ (Site.ofNode? n).isSome = true := by
  constructor
  · rintro ⟨span, leading, value, h⟩
    obtain ⟨name, hlast, hname⟩ := endsInSentinel_iff.mp h
    simp [Site.ofNode?, hlast, hname]
  · intro h
    obtain ⟨site, hsite⟩ := Option.isSome_iff_exists.mp h
    cases n with
    | ret span results =>
      simp only [Site.ofNode?, Option.bind_eq_bind, Option.bind_eq_some_iff] at hsite
      obtain ⟨value, hvalue, name, hlast, hif⟩ := hsite
      split_ifs at hif with hname
      obtain ⟨leading, rfl⟩ := List.getLast?_eq_some_iff.mp hvalue
      exact .intro span leading value (endsInSentinel_iff.mpr ⟨name, hlast, hname⟩)
    | _ => cases hsite

theorem Qualifies.returnsSentinel {n : Node} (h : Qualifies n) : ReturnsSentinel n := by
  obtain ⟨span, leading, value, hvalue⟩ := h
  exact .intro _ leading value hvalue

instance decidableReturnsSentinel (n : Node) : Decidable (ReturnsSentinel n) :=
  decidable_of_iff _ returnsSentinel_iff.symm

/-- A return statement with its last result wrapped, where that is asked for. -/
def wrapIf (qualifier : String) (isSite : Bool) : Node → Node
  | .ret span results =>
    if isSite then wrappedReturn qualifier span results else .ret span results
  | n => n

mutual

/-- Every site of a tree wrapped, also those inside the results of other sites. -/
def wrapAll (q : String) : Node → Node
  | .file span package imports decls => .file span package imports (wrapEach q decls)
  | .conditional span init condition body alternative =>
    .conditional span (wrapOption q init) (wrapAll q condition)
      (wrapBody q (ErrNotNil condition) body) (wrapOption q alternative)
  | .ret span results => .ret span (wrapEach q results)
  | .importGroup span parenthesized specs => .importGroup span parenthesized specs
  | .identifier span name => .identifier span name
  | .memberAccess span operand member => .memberAccess span (wrapAll q operand) member
  | .comparison span left op right => .comparison span (wrapAll q left) op (wrapAll q right)
  | .literal span kind text => .literal span kind text
  | .call span callee args => .call span (wrapAll q callee) (wrapEach q args)
  | .other span kind children => .other span kind (wrapEach q children)

def wrapEach (q : String) : List Node → List Node
  | [] => []
  | n :: ns => wrapAll q n :: wrapEach q ns

def wrapOption (q : String) : Option Node → Option Node
  | none => none
  | some n => some (wrapAll q n)

/-- The statements of a body; in a body that is guarded by `err != nil` they may be sites. -/
def wrapBody (q : String) (isGuarded : Bool) : List Node → List Node
  | [] => []
  | n :: ns =>
    wrapIf q (isGuarded && ReturnsSentinel n) (wrapAll q n) :: wrapBody q isGuarded ns

end

theorem wrapEach_eq_map (q : String) (ns : List Node) : wrapEach q ns = ns.map (wrapAll q) := by
  induction ns with
  | nil => rfl
  | cons n ns ih => simp [wrapEach, ih]

theorem wrapOption_eq_map (q : String) (n : Option Node) : wrapOption q n = n.map (wrapAll q) := by
  cases n <;> rfl

theorem wrapBody_eq_map (q : String) (isGuarded : Bool) (ns : List Node) :
    wrapBody q isGuarded ns =
      ns.map fun n => wrapIf q (isGuarded && ReturnsSentinel n) (wrapAll q n) := by
  induction ns with
  | nil => rfl
  | cons n ns ih => simp [wrapBody, ih]

@[simp] theorem kind_wrapAll (q : String) (n : Node) : (wrapAll q n).kind = n.kind := by
  cases n <;> rfl

@[simp] theorem lastName?_wrapAll (q : String) (n : Node) : lastName? (wrapAll q n) = lastName? n := by
  cases n <;> rfl

theorem endsInSentinel_wrapAll {q : String} {n : Node} :
    EndsInSentinel (wrapAll q n) ↔ EndsInSentinel n := by
  simp only [endsInSentinel_iff, lastName?_wrapAll]

theorem isErrNotNil_wrapAll (q : String) (n : Node) : isErrNotNil (wrapAll q n) = isErrNotNil n := by
  have hname (m : Node) : (wrapAll q m).identifier? = m.identifier? := by cases m <;> rfl
  have hnil (m : Node) : (wrapAll q m).isNil = m.isNil := by cases m <;> rfl
  cases n with
  | comparison span left op right =>
    cases op <;> simp [wrapAll, isErrNotNil, hname, hnil]
  | file | conditional | ret | importGroup | identifier | memberAccess | literal | call | other => rfl

theorem errNotNil_wrapAll {q : String} {n : Node} : ErrNotNil (wrapAll q n) ↔ ErrNotNil n := by
  rw [← isErrNotNil_iff, ← isErrNotNil_iff, isErrNotNil_wrapAll]

/-- A return is a sentinel's before and after its parts are wrapped. -/
theorem returnsSentinel_wrapAll {q : String} {n : Node} :
    ReturnsSentinel (wrapAll q n) ↔ ReturnsSentinel n := by
  constructor
  · intro h
    match n with
    | .ret span results =>
      generalize hm : wrapAll q (.ret span results) = m at h
      obtain ⟨span', leading, value, hvalue⟩ := h
      simp only [wrapAll, wrapEach_eq_map, Node.ret.injEq] at hm
      obtain ⟨as, bs, rfl, -, hbs⟩ := List.map_eq_append_iff.mp hm.2
      obtain ⟨b, rfl, rfl⟩ := List.map_eq_singleton_iff.mp hbs
      exact .intro span as b (endsInSentinel_wrapAll.mp hvalue)
  · rintro ⟨span, leading, value, hvalue⟩
    simp only [wrapAll, wrapEach_eq_map, List.map_append, List.map_cons, List.map_nil]
    exact .intro span _ _ (endsInSentinel_wrapAll.mpr hvalue)

theorem not_endsInSentinel_wrapCall (q : String) (value : Node) :
    ¬ EndsInSentinel (wrapCall q value) := nofun

/-- The last result of a wrapped return is the call of the library. -/
theorem not_returnsSentinel_wrappedReturn (q : String) (span : Option Span) (results : List Node) :
    ¬ ReturnsSentinel (wrappedReturn q span results) := by
  intro h
  generalize hm : wrappedReturn q span results = m at h
  obtain ⟨span', leading, value, hvalue⟩ := h
  obtain ⟨-, hresults⟩ := Node.ret.inj hm
  rcases List.eq_nil_or_concat results with rfl | ⟨as, b, rfl⟩
  · simp [wrapLast] at hresults
  · rw [List.concat_eq_append, wrapLast_append] at hresults
    obtain ⟨-, hlast⟩ := List.append_inj' hresults rfl
    obtain rfl : wrapCall q b = value := by simpa using hlast
    exact not_endsInSentinel_wrapCall q b hvalue

theorem not_returnsSentinel_wrapIf (q : String) (n : Node) :
    ¬ ReturnsSentinel (wrapIf q (ReturnsSentinel n) (wrapAll q n)) := by
  intro h
  by_cases hn : ReturnsSentinel n
  · match n with
    | .ret span results =>
      simp only [wrapAll, wrapIf, hn, decide_true, if_true] at h
      exact not_returnsSentinel_wrappedReturn q span _ h
  · have hsame : wrapIf q (ReturnsSentinel n) (wrapAll q n) = wrapAll q n := by
      cases n <;> simp [wrapAll, wrapIf, hn]
    rw [hsame, returnsSentinel_wrapAll] at h
    exact hn h

/-- No qualifying return is left directly in a wrapped node. -/
theorem qualifyingIn_wrapAll (q : String) (n : Node) : qualifyingIn (wrapAll q n) = [] := by
  cases n with
  | conditional span init condition body alternative =>
    simp only [wrapAll, qualifyingIn]
    split_ifs with hguard
    · have hguard' : ErrNotNil condition := errNotNil_wrapAll.mp hguard
      rw [List.filter_eq_nil_iff, wrapBody_eq_map]
      simp only [List.forall_mem_map, hguard', decide_true, Bool.true_and]
      intro n _ hq
      exact not_returnsSentinel_wrapIf q n (of_decide_eq_true hq).returnsSentinel
    · rfl
  | file | ret | importGroup | identifier | memberAccess | comparison | literal | call | other => rfl

/-- The kinds of the nodes that wrapping inserts or rebuilds around a site. -/
def siteKinds : List NodeKind := [.ret, .call, .memberAccess, .identifier]

theorem mem_preorder_wrapCall {q : String} {value m : Node} (h : m ∈ (wrapCall q value).preorder) :
    m ∈ value.preorder ∨ m.kind ∈ siteKinds := by
  simp only [wrapCall, callOf, Node.preorder_eq (.call ..), Node.preorder_eq (.memberAccess ..),
    Node.preorder_eq (.identifier ..), Node.children, List.flatMap_cons, List.flatMap_nil,
    List.append_nil, List.mem_cons, List.mem_append, List.cons_append, List.not_mem_nil,
    or_false, false_or] at h
  rcases h with rfl | rfl | rfl | h | rfl | rfl | rfl
  case inr.inr.inr.inl => exact .inl h
  all_goals exact .inr (by simp [Node.kind, siteKinds])

theorem mem_preorder_wrapIf {q : String} {isSite : Bool} {n m : Node}
    (h : m ∈ (wrapIf q isSite n).preorder) : m ∈ n.preorder ∨ m.kind ∈ siteKinds := by
  match n, isSite with
  | .ret span results, true =>
    rw [wrapIf, if_pos rfl, wrappedReturn, Node.preorder_eq, List.mem_cons] at h
    rcases h with rfl | h
    · exact .inr (by simp [Node.kind, siteKinds])
    obtain ⟨r, hr, hm⟩ := List.mem_flatMap.mp h
    rw [Node.preorder_eq, List.mem_cons, List.mem_flatMap]
    rcases List.eq_nil_or_concat results with rfl | ⟨as, b, rfl⟩
    · cases hr
    simp only [Node.children, List.concat_eq_append, wrapLast_append, List.mem_append,
      List.mem_singleton] at hr ⊢
    rcases hr with hr | rfl
    · exact .inl (.inr ⟨r, .inl hr, hm⟩)
    · exact (mem_preorder_wrapCall hm).imp_left fun hm => .inr ⟨b, .inr rfl, hm⟩
  | .ret _ _, false => exact .inl h
  | .file .., _ | .conditional .., _ | .importGroup .., _ | .identifier .., _
  | .memberAccess .., _ | .comparison .., _ | .literal .., _ | .call .., _ | .other .., _ =>
    exact .inl h

/-- The children of a wrapped node are wrapped children, or returns that are wrapped themselves. -/
theorem exists_of_mem_children_wrapAll {q : String} {n c : Node} (h : c ∈ (wrapAll q n).children) :
    ∃ d ∈ n.children, ∃ isSite, c = wrapIf q isSite (wrapAll q d) := by
  have hplain (d : Node) : wrapAll q d = wrapIf q false (wrapAll q d) := by cases d <;> rfl
  cases n with
  | conditional span init condition body alternative =>
    simp only [wrapAll, Node.children, wrapOption_eq_map, wrapBody_eq_map, List.mem_append,
      List.mem_cons, Option.mem_toList, Option.map_eq_some_iff, List.mem_map] at h ⊢
    rcases h with (⟨d, hd, rfl⟩ | rfl | ⟨d, hd, rfl⟩) | ⟨d, hd, rfl⟩
    · exact ⟨d, .inl (.inl hd), _, hplain d⟩
    · exact ⟨condition, .inl (.inr (.inl rfl)), _, hplain condition⟩
    · exact ⟨d, .inl (.inr (.inr hd)), _, rfl⟩
    · exact ⟨d, .inr hd, _, hplain d⟩
  | file | ret | importGroup | identifier | memberAccess | comparison | literal | call | other =>
    simp only [wrapAll, Node.children, wrapEach_eq_map, List.mem_cons, List.mem_map,
      List.not_mem_nil, or_false] at h ⊢
    <;> grind

/-- Every node of a wrapped tree comes from a node of the tree, or was put in around a site. -/
theorem mem_preorder_wrapAll {q : String} {n m : Node} (h : m ∈ (wrapAll q n).preorder) :
    (∃ n' ∈ n.preorder, m = wrapAll q n') ∨ m.kind ∈ siteKinds := by
  induction n using Node.children_induction generalizing m with
  | step n ih =>
    rw [Node.preorder_eq, List.mem_cons, List.mem_flatMap] at h
    rcases h with rfl | ⟨c, hc, hm⟩
    · exact .inl ⟨n, n.self_mem_preorder, rfl⟩
    obtain ⟨d, hd, isSite, rfl⟩ := exists_of_mem_children_wrapAll hc
    rcases mem_preorder_wrapIf hm with hm | hkind
    · refine (ih d hd hm).imp_left fun ⟨n', hn', heq⟩ => ?_
      exact ⟨n', Node.preorder_subset_of_mem_children hd hn', heq⟩
    · exact .inr hkind

theorem qualifyingReturns_wrapAll (q : String) (root : Node) :
    qualifyingReturns (wrapAll q root) = [] := by
  rw [qualifyingReturns, List.flatMap_eq_nil_iff]
  intro m hm
  rcases mem_preorder_wrapAll hm with ⟨n, -, rfl⟩ | hkind
  · exact qualifyingIn_wrapAll q n
  · cases m with
    | conditional => simp [Node.kind, siteKinds] at hkind
    | file | ret | importGroup | identifier | memberAccess | comparison | literal | call | other => rfl

/-- In a file whose sites are all wrapped, by whatever name of the library, nothing is found. -/
theorem analyze_wrapAll (path : Path) (text q : String) (span : Option Span)
    (package : Option String) (imports : List ImportSpec) (decls : List Node)
    (honly : ∀ n ∈ decls.flatMap Node.preorder, n.kind ≠ .file) :
    analyze ⟨path, text, wrapAll q (.file span package imports decls)⟩ = .ok [] := by
  have honly' : ∀ m ∈ (wrapEach q decls).flatMap Node.preorder, m.kind ≠ .file := by
    intro m hm
    obtain ⟨c, hc, hm⟩ := List.mem_flatMap.mp hm
    rw [wrapEach_eq_map] at hc
    obtain ⟨d, hd, rfl⟩ := List.mem_map.mp hc
    rcases mem_preorder_wrapAll hm with ⟨n, hn, rfl⟩ | hkind
    · rw [kind_wrapAll]
      exact honly n (List.mem_flatMap.mpr ⟨d, hd, hn⟩)
    · rintro heq
      simp [heq, siteKinds] at hkind
  rw [analyze_file _ span package imports (wrapEach q decls) rfl honly', findings,
    qualifyingReturns_wrapAll]

/-- A closure with a site of its own stands before the sentinel of another site, and a third site in
the other branch. -/
def closureBeforeSentinel : List Node :=
  let condition : Node :=
    .comparison none (.identifier none "err") .ne (.literal none .nil "nil")
  let inner : Node := .ret (some ⟨9, 20⟩) [.identifier none "ErrA"]
  let closure : Node := .other none "func_literal" [.conditional none none condition [inner] none]
  let access : Node := .memberAccess none (.call none closure []) ⟨none, "ErrB"⟩
  let outer : Node := .ret (some ⟨0, 40⟩) [closure, access]
  let last : Node := .ret (some ⟨50, 60⟩) [.identifier none "ErrC"]
  [.conditional none none condition [outer] (some (.conditional none none condition [last] none))]

theorem analyze_wrapAll_closureBeforeSentinel :
    (qualifyingReturns (.file none none [] closureBeforeSentinel)).map Node.span =
        [some ⟨0, 40⟩, some ⟨9, 20⟩, some ⟨9, 20⟩, some ⟨50, 60⟩] ∧
      analyze ⟨⟨"a.go"⟩, "", wrapAll "errors" (.file none none [] closureBeforeSentinel)⟩ = .ok [] := by
  refine ⟨by decide +kernel, analyze_wrapAll _ _ _ _ _ _ _ ?_⟩
  decide +kernel

end SentinelWrap.Wrapping
