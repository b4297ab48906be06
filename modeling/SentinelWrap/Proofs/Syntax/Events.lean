import SentinelWrap.Proofs.Syntax.Preorder

/-! What a traversal tells its callback. A full traversal is a row of events, two for each node; what
a callback hears is this row without the nodes of other kinds and without what it refuses to hear of.
It does not depend on how the tree is walked, so the answers of the callback may depend on all that it
has heard. -/
namespace SentinelWrap

/-- What happens at a node in the course of a traversal. Nodes are told apart by their places: which
child to go to, step by step from the root. -/
structure Event where
  place : List Nat
  node : Node
  action : Action

abbrev Forest := List (Node × List Nat)

namespace Node

def childrenAt (n : Node) (place : List Nat) : Forest :=
  n.children.zipIdx.map fun (c, i) => (c, place ++ [i])

/-- The events of a full traversal of a tree that stands at a place: each node is visited before its
children and left after them. -/
def events : Node → List Nat → List Event :=
  fold fun n children place =>
    ⟨place, n, .visit⟩ :: children.zipIdx.flatMap (fun (c, i) => c (place ++ [i])) ++
      [⟨place, n, .leave⟩]

end Node

def Forest.events (forest : Forest) : List Event := forest.flatMap fun (n, place) => n.events place

theorem Node.events_eq (n : Node) (place : List Nat) :
    n.events place = ⟨place, n, .visit⟩ :: (n.childrenAt place).events ++ [⟨place, n, .leave⟩] := by
  unfold Node.events
  rw [fold_eq, List.zipIdx_map, List.flatMap_map]
  simp only [Forest.events, childrenAt, List.flatMap_map]
  rfl

theorem Forest.events_cons (n : Node) (place : List Nat) (forest : Forest) :
    Forest.events ((n, place) :: forest) = ⟨place, n, .visit⟩ ::
      (n.childrenAt place).events ++ ⟨place, n, .leave⟩ :: forest.events := by
  rw [List.append_cons, ← Node.events_eq]
  rfl

section
variable {σ : Type}

/-- What a callback hears of a row of events, with its answers. Only nodes of some kinds are reported.
While the children of the node at a place are refused, everything is dropped up to the event of leaving
that node, and this event as well. -/
def heard (kinds : List NodeKind) (visitor : Visitor σ) :
    Option (List Nat) → List Event → σ → List (Event × Bool) × σ
  | _, [], state => ([], state)
  | some refused, e :: es, state =>
    if e.action = .leave ∧ e.place = refused then heard kinds visitor none es state
    else heard kinds visitor (some refused) es state
  | none, e :: es, state =>
    if e.node.kind ∈ kinds then
      let (answer, state) := visitor e.node e.action state
      let refused := if e.action = .visit ∧ answer = false then some e.place else none
      let (later, state) := heard kinds visitor refused es state
      ((e, answer) :: later, state)
    else heard kinds visitor none es state

/-- A callback that takes down what it is told and what it answers. -/
def Visitor.recorded (visitor : Visitor σ) : Visitor (σ × List (Node × Action × Bool)) :=
  fun node action (state, record) =>
    let (answer, state) := visitor node action state
    (answer, state, record ++ [(node, action, answer)])

/-- A callback that answers something else to every event of leaving. -/
def Visitor.leaving (visitor : Visitor σ) (answer : Node → σ → Bool) : Visitor σ
  | node, .visit, state => visitor node .visit state
  | node, .leave, state => (answer node state, (visitor node .leave state).2)

inductive Told (kinds : List NodeKind) : Forest → List (Event × Bool) → Prop
  | nil : Told kinds [] []
  | unreported {n : Node} {place : List Nat} {forest : Forest} {inner later : List (Event × Bool)}
    (hkind : n.kind ∉ kinds) (hinner : Told kinds (n.childrenAt place) inner)
    (hlater : Told kinds forest later) : Told kinds ((n, place) :: forest) (inner ++ later)
  | refused {n : Node} {place : List Nat} {forest : Forest} {later : List (Event × Bool)}
    (hkind : n.kind ∈ kinds) (hlater : Told kinds forest later) :
    Told kinds ((n, place) :: forest) ((⟨place, n, .visit⟩, false) :: later)
  | entered {n : Node} {place : List Nat} {forest : Forest} {inner later : List (Event × Bool)}
    (hkind : n.kind ∈ kinds) (hinner : Told kinds (n.childrenAt place) inner) (answer : Bool)
    (hlater : Told kinds forest later) : Told kinds ((n, place) :: forest)
      ((⟨place, n, .visit⟩, true) :: inner ++ (⟨place, n, .leave⟩, answer) :: later)

variable {kinds : List NodeKind} {visitor : Visitor σ}

theorem Told.append {a b : Forest} {es es' : List (Event × Bool)} (h : Told kinds a es)
    (h' : Told kinds b es') : Told kinds (a ++ b) (es ++ es') := by
  induction h with
  | nil => exact h'
  | unreported hkind hinner _ _ ih =>
    rw [List.append_assoc]
    exact .unreported hkind hinner ih
  | refused hkind _ ih => exact .refused hkind ih
  | entered hkind hinner answer _ _ ih =>
    simp only [List.cons_append, List.append_assoc]
    exact .entered hkind hinner answer ih

/-- A traversal of some trees: what is heard of them, whatever comes after them, and the state that it
leads to. -/
structure Hears (kinds : List NodeKind) (visitor : Visitor σ) (forest : Forest) (state : σ)
    (es : List (Event × Bool)) (final : σ) : Prop where
  told : Told kinds forest es
  heard_append : ∀ rest, heard kinds visitor none (forest.events ++ rest) state =
    (es ++ (heard kinds visitor none rest final).1, (heard kinds visitor none rest final).2)
  inspect : (forest.map fun p => p.1.inspect (.only kinds) visitor).foldl
    (fun state child => child state) state = final
  recorded : ∀ record, (forest.map fun p => p.1.inspect (.only kinds) visitor.recorded).foldl
    (fun state child => child state) (state, record) =
      (final, record ++ es.map fun (e, answer) => (e.node, e.action, answer))

theorem Forest.events_append (a b : Forest) : (a ++ b).events = a.events ++ b.events :=
  List.flatMap_append

theorem hears_nil (state : σ) : Hears kinds visitor [] state [] state where
  told := .nil
  heard_append _ := rfl
  inspect := rfl
  recorded record := by simp

theorem Hears.append {a b : Forest} {state mid final : σ} {es es' : List (Event × Bool)}
    (h : Hears kinds visitor a state es mid) (h' : Hears kinds visitor b mid es' final) :
    Hears kinds visitor (a ++ b) state (es ++ es') final where
  told := h.told.append h'.told
  heard_append rest := by
    rw [Forest.events_append, List.append_assoc, h.heard_append, h'.heard_append]
    simp
  inspect := by rw [List.map_append, List.foldl_append, h.inspect, h'.inspect]
  recorded record := by
    rw [List.map_append, List.foldl_append, h.recorded, h'.recorded]
    simp

/-- While the children of a node are refused, what does not leave that node is not heard. -/
theorem heard_refused {place : List Nat} {es rest : List Event}
    (h : ∀ e ∈ es, e.place ≠ place) (state : σ) :
    heard kinds visitor (some place) (es ++ rest) state =
      heard kinds visitor (some place) rest state := by
  induction es with
  | nil => rfl
  | cons e es ih =>
    rw [List.cons_append, heard, if_neg fun hleave => h e List.mem_cons_self hleave.2]
    exact ih fun e he => h e (List.mem_cons_of_mem _ he)

theorem mem_childrenAt {n c : Node} {place q : List Nat} (h : (c, q) ∈ n.childrenAt place) :
    c ∈ n.children ∧ ∃ i, q = place ++ [i] := by
  obtain ⟨⟨d, i⟩, hd, heq⟩ := List.mem_map.mp h
  obtain ⟨rfl, rfl⟩ := Prod.mk.inj heq
  exact ⟨List.fst_mem_of_mem_zipIdx hd, i, rfl⟩

/-- The events of a tree happen at its place and below. -/
theorem prefix_of_mem_events {n : Node} {place : List Nat} {e : Event} (h : e ∈ n.events place) :
    place <+: e.place := by
  induction n using Node.children_induction generalizing place with
  | step n ih =>
    rw [Node.events_eq, List.cons_append, List.mem_cons, List.mem_append, List.mem_singleton] at h
    rcases h with rfl | h | rfl
    · exact List.prefix_rfl
    · obtain ⟨⟨c, q⟩, hc, he⟩ := List.mem_flatMap.mp h
      obtain ⟨hmem, i, rfl⟩ := mem_childrenAt hc
      exact (List.prefix_append place [i]).trans (ih c hmem he)
    · exact List.prefix_rfl

/-- The events of the children happen below the place of a node. -/
theorem below_of_mem_events {n : Node} {place : List Nat} {e : Event}
    (h : e ∈ (n.childrenAt place).events) : place <+: e.place ∧ e.place ≠ place := by
  obtain ⟨⟨c, q⟩, hc, he⟩ := List.mem_flatMap.mp h
  obtain ⟨-, i, rfl⟩ := mem_childrenAt hc
  have hbegins := prefix_of_mem_events he
  refine ⟨(List.prefix_append place [i]).trans hbegins, fun heq => ?_⟩
  have hlength := hbegins.length_le
  rw [heq, List.length_append, List.length_singleton] at hlength
  omega

theorem map_inspect_childrenAt {τ : Type} (visitor : Visitor τ) (n : Node) (place : List Nat) :
    ((n.childrenAt place).map fun p => p.1.inspect (.only kinds) visitor) =
      n.children.map (Node.inspect (.only kinds) visitor) := by
  have hnodes : (n.childrenAt place).map Prod.fst = n.children := by
    simp [Node.childrenAt, List.map_map, Function.comp_def]
  conv_rhs => rw [← hnodes, List.map_map]
  rfl

/-- A tree whose root is reported or not, refused or entered, once it is known of its children. -/
theorem exists_hears_node {n : Node} {place : List Nat}
    (hchildren : ∀ state, ∃ es final, Hears kinds visitor (n.childrenAt place) state es final)
    (state : σ) : ∃ es final, Hears kinds visitor [(n, place)] state es final := by
  have hevents : Forest.events [(n, place)] = ⟨place, n, .visit⟩ ::
    (n.childrenAt place).events ++ [⟨place, n, .leave⟩] := Forest.events_cons n place []
  have hrun {τ : Type} (visitor : Visitor τ) (state : τ) :
      ([(n, place)].map fun p => p.1.inspect (.only kinds) visitor).foldl
        (fun state child => child state) state = Node.inspectStep (.only kinds) visitor n
          ((n.childrenAt place).map fun p => p.1.inspect (.only kinds) visitor) state := by
    rw [map_inspect_childrenAt, ← Node.inspect_eq]
    rfl
  by_cases hkind : n.kind ∈ kinds
  · have hcontains := (NodeFilter.contains_only kinds n.kind).mpr hkind
    obtain ⟨answer, state', hvisit⟩ : ∃ answer state', visitor n .visit state = (answer, state') :=
      ⟨_, _, rfl⟩
    cases answer with
    | false =>
      refine ⟨_, state', .refused hkind .nil, fun rest => ?_, ?_, fun record => ?_⟩
      · rw [hevents, List.append_assoc, List.cons_append, heard, if_pos hkind, hvisit]
        simp only [true_and, if_true]
        rw [heard_refused fun e he => (below_of_mem_events he).2]
        simp [heard]
      · rw [hrun, Node.inspectStep, if_pos hcontains, hvisit]
      · rw [hrun, Node.inspectStep, if_pos hcontains, Visitor.recorded, hvisit]
        rfl
    | true =>
      obtain ⟨es, final, hinner⟩ := hchildren state'
      obtain ⟨answer, final', hleave⟩ : ∃ answer final', visitor n .leave final = (answer, final') :=
        ⟨_, _, rfl⟩
      refine ⟨_, final', .entered hkind hinner.told answer .nil, fun rest => ?_, ?_, fun record => ?_⟩
      · rw [hevents, List.append_assoc, List.cons_append, heard, if_pos hkind, hvisit]
        simp [hinner.heard_append, heard, hkind, hleave]
      · rw [hrun, Node.inspectStep, if_pos hcontains, hvisit]
        simp only [hinner.inspect, hleave]
      · rw [hrun, Node.inspectStep, if_pos hcontains]
        simp [Visitor.recorded, hvisit, hinner.recorded, hleave]
  · have hcontains := mt (NodeFilter.contains_only kinds n.kind).mp hkind
    obtain ⟨es, final, hinner⟩ := hchildren state
    refine ⟨es ++ [], final, .unreported hkind hinner.told .nil, fun rest => ?_, ?_, fun record => ?_⟩
    · rw [hevents, List.append_assoc, List.cons_append, heard, if_neg hkind]
      simp [hinner.heard_append, heard, hkind]
    · rw [hrun, Node.inspectStep, if_neg hcontains]
      exact hinner.inspect
    · rw [hrun, Node.inspectStep, if_neg hcontains]
      simpa using hinner.recorded record

theorem exists_hears (n : Node) (place : List Nat) (state : σ) :
    ∃ es final, Hears kinds visitor [(n, place)] state es final := by
  induction n using Node.children_induction generalizing place state with
  | step n ih =>
    refine exists_hears_node (fun state => ?_) state
    have hforest (forest : Forest) (hsub : ∀ p ∈ forest, p.1 ∈ n.children) (state : σ) :
        ∃ es final, Hears kinds visitor forest state es final := by
      induction forest generalizing state with
      | nil => exact ⟨_, _, hears_nil state⟩
      | cons p forest ihforest =>
        obtain ⟨es, mid, hfirst⟩ := ih p.1 (hsub p List.mem_cons_self) p.2 state
        obtain ⟨es', final, hlater⟩ :=
          ihforest (fun q hq => hsub q (List.mem_cons_of_mem _ hq)) mid
        exact ⟨_, _, hfirst.append hlater⟩
    exact hforest _ (fun p hp => (mem_childrenAt hp).1) state

end

/-- The places of the visits that are still open after some events, the most recent one first. There is
no answer if a node is left that is not the most recent one to be entered. -/
def stillOpen? : List (List Nat) → List (Event × Bool) → Option (List (List Nat))
  | opened, [] => some opened
  | opened, (⟨place, _, .visit⟩, answer) :: es =>
    stillOpen? (if answer then place :: opened else opened) es
  | recent :: opened, (⟨place, _, .leave⟩, _) :: es =>
    if recent = place then stillOpen? opened es else none
  | [], (⟨_, _, .leave⟩, _) :: _ => none

def leaves (place : List Nat) (p : Event × Bool) : Bool :=
  p.1.action == .leave && p.1.place == place

/-- Some node above a place was refused. -/
def Hides (es : List (Event × Bool)) (place : List Nat) : Prop :=
  ∃ f, (f, false) ∈ es ∧ f.action = .visit ∧ f.place <+: place ∧ f.place ≠ place

def Forest.Apart (forest : Forest) : Prop :=
  forest.Pairwise fun a b => ¬ a.2 <+: b.2 ∧ ¬ b.2 <+: a.2

namespace Told
variable {kinds : List NodeKind} {forest : Forest} {es : List (Event × Bool)} {n : Node}
  {place : List Nat} {e : Event}

theorem kind_mem {p : Event × Bool} (h : Told kinds forest es) (hp : p ∈ es) :
    p.1.node.kind ∈ kinds := by
  induction h with
  | nil => cases hp
  | unreported _ _ _ ihinner ihlater => exact (List.mem_append.mp hp).elim ihinner ihlater
  | refused hkind _ ih =>
    rcases List.mem_cons.mp hp with rfl | hp
    · exact hkind
    · exact ih hp
  | entered hkind _ _ _ ihinner ihlater =>
    simp only [List.cons_append, List.mem_cons, List.mem_append] at hp
    rcases hp with rfl | hp | rfl | hp
    · exact hkind
    · exact ihinner hp
    · exact hkind
    · exact ihlater hp

/-- What is heard of some trees are events of these. -/
theorem mem_events {p : Event × Bool} (h : Told kinds forest es) (hp : p ∈ es) :
    p.1 ∈ forest.events := by
  induction h with
  | nil => cases hp
  | unreported _ _ _ ihinner ihlater =>
    rcases List.mem_append.mp hp with hp | hp
    · simp [Forest.events_cons, ihinner hp]
    · simp [Forest.events_cons, ihlater hp]
  | refused _ _ ih =>
    rcases List.mem_cons.mp hp with rfl | hp
    · simp [Forest.events_cons]
    · simp [Forest.events_cons, ih hp]
  | entered _ _ _ _ ihinner ihlater =>
    simp only [List.cons_append, List.mem_cons, List.mem_append] at hp
    rcases hp with rfl | hp | rfl | hp
    · simp [Forest.events_cons]
    · simp [Forest.events_cons, ihinner hp]
    · simp [Forest.events_cons]
    · simp [Forest.events_cons, ihlater hp]

/-- Every visit that is entered is left again, and before every one that was open already. -/
theorem stillOpen?_append (h : Told kinds forest es) (opened : List (List Nat))
    (rest : List (Event × Bool)) : stillOpen? opened (es ++ rest) = stillOpen? opened rest := by
  induction h generalizing opened rest with
  | nil => rfl
  | unreported _ _ _ ihinner ihlater => rw [List.append_assoc, ihinner, ihlater]
  | refused _ _ ih => exact ih opened rest
  | entered _ _ _ _ ihinner ihlater =>
    rw [List.append_assoc, List.cons_append, stillOpen?, if_pos rfl, ihinner, List.cons_append,
      stillOpen?, if_pos rfl, ihlater]

end Told

namespace Forest.Apart
variable {forest : Forest} {n : Node} {place x : List Nat} {e : Event}

theorem childrenAt (n : Node) (place : List Nat) : (n.childrenAt place).Apart := by
  have hne {a b : Nat} (hab : a ≠ b) : ¬ place ++ [a] <+: place ++ [b] := by
    intro hbegins
    have heq := hbegins.eq_of_length (by simp)
    exact hab (by simpa using heq)
  have hindex : (n.children.zipIdx.map Prod.snd).Nodup := by
    rw [List.zipIdx_map_snd]
    exact List.nodup_range'
  rw [Forest.Apart, Node.childrenAt, List.pairwise_map]
  rw [List.Nodup, List.pairwise_map] at hindex
  exact hindex.imp fun hab => ⟨hne hab, hne hab.symm⟩

/-- Nothing that happens in a tree happens above or below an event of another tree. -/
theorem not_prefix (h : Forest.Apart ((n, place) :: forest)) (hx : place <+: x)
    (he : e ∈ forest.events) : ¬ x <+: e.place ∧ ¬ e.place <+: x := by
  obtain ⟨⟨m, q⟩, hm, he⟩ := List.mem_flatMap.mp he
  have hq := prefix_of_mem_events he
  obtain ⟨hpq, hqp⟩ := List.rel_of_pairwise_cons h hm
  refine ⟨fun hbegins => ?_, fun hbegins => ?_⟩
  · exact (List.prefix_or_prefix_of_prefix (hx.trans hbegins) hq).elim hpq hqp
  · exact (List.prefix_or_prefix_of_prefix hx (hq.trans hbegins)).elim hpq hqp

theorem place_ne (h : Forest.Apart ((n, place) :: forest)) (hx : place <+: x)
    (he : e ∈ forest.events) : e.place ≠ x := by
  rintro rfl
  exact (h.not_prefix hx he).1 List.prefix_rfl

end Forest.Apart

namespace Told
variable {kinds : List NodeKind} {forest : Forest} {es : List (Event × Bool)} {e : Event}

theorem countP_leaves_eq_zero {place : List Nat} (h : Told kinds forest es)
    (hforest : ∀ e ∈ forest.events, e.place ≠ place) : es.countP (leaves place) = 0 := by
  rw [List.countP_eq_zero]
  intro p hp hleaves
  refine hforest p.1 (h.mem_events hp) ?_
  simpa using (Bool.and_eq_true_iff.mp hleaves).2

/-- A node that is entered is left once, and one that is refused is not left. -/
theorem countP_leaves {answer : Bool} (h : Told kinds forest es) (hapart : forest.Apart)
    (he : (e, answer) ∈ es) (hvisit : e.action = .visit) :
    es.countP (leaves e.place) = if answer then 1 else 0 := by
  induction h with
  | nil => cases he
  | @unreported n place forest inner later _ hinner hlater ihinner ihlater =>
    rw [List.countP_append]
    rcases List.mem_append.mp he with he | he
    · have hplace := below_of_mem_events (hinner.mem_events he)
      rw [ihinner (.childrenAt n place) he,
        hlater.countP_leaves_eq_zero fun f hf => hapart.place_ne hplace.1 hf, Nat.add_zero]
    · have hinner' : ∀ f ∈ (n.childrenAt place).events, f.place ≠ e.place := fun f hf =>
        (hapart.place_ne (below_of_mem_events hf).1 (hlater.mem_events he)).symm
      rw [ihlater hapart.of_cons he, hinner.countP_leaves_eq_zero hinner', Nat.zero_add]
  | @refused n place forest later _ hlater ih =>
    have hhead : leaves e.place (⟨place, n, .visit⟩, false) = false := rfl
    rw [List.countP_cons_of_neg (by simp [hhead])]
    rcases List.mem_cons.mp he with heq | he
    · obtain ⟨rfl, rfl⟩ := Prod.mk.inj heq
      exact hlater.countP_leaves_eq_zero fun f hf => hapart.place_ne List.prefix_rfl hf
    · exact ih hapart.of_cons he
  | @entered n place forest inner later _ hinner leaving hlater ihinner ihlater =>
    have hhead : leaves e.place (⟨place, n, .visit⟩, true) = false := rfl
    rw [List.cons_append, List.countP_cons_of_neg (by simp [hhead]), List.countP_append,
      List.countP_cons]
    simp only [List.cons_append, List.mem_cons, List.mem_append] at he
    rcases he with heq | he | heq | he
    · obtain ⟨rfl, rfl⟩ := Prod.mk.inj heq
      have hself : leaves place (⟨place, n, .leave⟩, leaving) = true := by simp [leaves]
      rw [hinner.countP_leaves_eq_zero fun f hf => (below_of_mem_events hf).2,
        hlater.countP_leaves_eq_zero fun f hf => hapart.place_ne List.prefix_rfl hf, if_pos hself]
      rfl
    · have hplace := below_of_mem_events (hinner.mem_events he)
      have hself : leaves e.place (⟨place, n, .leave⟩, leaving) = false := by
        simpa [leaves] using hplace.2.symm
      rw [ihinner (.childrenAt n place) he,
        hlater.countP_leaves_eq_zero fun f hf => hapart.place_ne hplace.1 hf, hself]
      rfl
    · obtain ⟨rfl, rfl⟩ := Prod.mk.inj heq
      cases hvisit
    · have hmem := hlater.mem_events he
      have hinner' : ∀ f ∈ (n.childrenAt place).events, f.place ≠ e.place := fun f hf =>
        (hapart.place_ne (below_of_mem_events hf).1 hmem).symm
      have hself : leaves e.place (⟨place, n, .leave⟩, leaving) = false := by
        simpa [leaves] using (hapart.place_ne List.prefix_rfl hmem).symm
      rw [ihlater hapart.of_cons he, hinner.countP_leaves_eq_zero hinner', hself]
      simp

/-- Where trees lie all aside, nothing is heard of a place and nothing that is heard hides it. -/
theorem silent {place : List Nat} (h : Told kinds forest es)
    (haside : ∀ f ∈ forest.events, ¬ f.place <+: place) :
    (∀ e answer, e.place = place → (e, answer) ∉ es) ∧ ¬ Hides es place := by
  refine ⟨fun e answer hplace he => ?_, fun ⟨f, hf, _, hbegins, _⟩ => ?_⟩
  · exact haside e (h.mem_events he) (hplace ▸ List.prefix_rfl)
  · exact haside f (h.mem_events hf) hbegins

/-- A node is heard of exactly if its kind is reported and no node above it was refused. -/
theorem exists_mem_iff (h : Told kinds forest es) (hapart : forest.Apart) (he : e ∈ forest.events)
    (hvisit : e.action = .visit) :
    (∃ answer, (e, answer) ∈ es) ↔ e.node.kind ∈ kinds ∧ ¬ Hides es e.place := by
  induction h with
  | nil => cases he
  | @unreported n place forest inner later hkind hinner hlater ihinner ihlater =>
    simp only [Forest.events_cons, List.cons_append, List.mem_cons, List.mem_append] at he
    rcases he with rfl | he | rfl | he
    · refine iff_of_false (fun ⟨answer, hmem⟩ => ?_) fun ⟨hmem, _⟩ => hkind hmem
      exact hkind ((Told.unreported hkind hinner hlater).kind_mem hmem)
    · have hfar := hlater.silent fun f hf => (hapart.not_prefix (below_of_mem_events he).1 hf).2
      have hiff := ihinner (.childrenAt n place) he
      grind [Hides]
    · cases hvisit
    · have hfar := hinner.silent fun f hf => (hapart.not_prefix (below_of_mem_events hf).1 he).1
      have hiff := ihlater hapart.of_cons he
      grind [Hides]
  | @refused n place forest later hkind hlater ih =>
    simp only [Forest.events_cons, List.cons_append, List.mem_cons, List.mem_append] at he
    rcases he with rfl | he | rfl | he
    · have hfar := hlater.silent fun f hf => (hapart.not_prefix List.prefix_rfl hf).2
      grind [Hides]
    · have hfar := hlater.silent fun f hf => (hapart.not_prefix (below_of_mem_events he).1 hf).2
      have hbelow := below_of_mem_events he
      grind [Hides]
    · cases hvisit
    · have hiff := ih hapart.of_cons he
      have hfar := hapart.not_prefix List.prefix_rfl he
      grind [Hides]
  | @entered n place forest inner later hkind hinner leaving hlater ihinner ihlater =>
    simp only [Forest.events_cons, List.cons_append, List.mem_cons, List.mem_append] at he
    rcases he with rfl | he | rfl | he
    · have hfar := hlater.silent fun f hf => (hapart.not_prefix List.prefix_rfl hf).2
      have hclose := hinner.silent fun f hf hbegins => (below_of_mem_events hf).2
        (hbegins.eq_of_length_le (below_of_mem_events hf).1.length_le)
      grind [Hides]
    · have hfar := hlater.silent fun f hf => (hapart.not_prefix (below_of_mem_events he).1 hf).2
      have hbelow := below_of_mem_events he
      have hiff := ihinner (.childrenAt n place) he
      grind [Hides]
    · cases hvisit
    · have hfar := hinner.silent fun f hf => (hapart.not_prefix (below_of_mem_events hf).1 he).1
      have hiff := ihlater hapart.of_cons he
      have hplace := hapart.place_ne List.prefix_rfl he
      grind [Hides]

end Told

section
variable {σ : Type}

/-- What is answered to the events of leaving has no influence. -/
theorem inspect_leaving (kinds : List NodeKind) (visitor : Visitor σ) (answer : Node → σ → Bool)
    (n : Node) : n.inspect (.only kinds) (visitor.leaving answer) = n.inspect (.only kinds) visitor := by
  induction n using Node.children_induction with
  | step n ih =>
    rw [Node.inspect_eq, Node.inspect_eq, List.map_congr_left ih]
    rfl

/-- A callback hears of a tree what is left of the events of a full traversal without the nodes of
other kinds and without what it refuses, from a visit that it answers with `false` up to the event of
leaving the same node. So whatever node is left is the last one that was entered; a node that was
entered is left once and one that was refused is not; and only nodes that were refused hide those below
them. -/
theorem inspect_heard (kinds : List NodeKind) (visitor : Visitor σ) (root : Node) (state : σ) :
    let (es, final) := heard kinds visitor none (root.events []) state
    root.inspect (.only kinds) visitor state = final ∧
      root.inspect (.only kinds) visitor.recorded (state, []) =
        (final, es.map fun (e, answer) => (e.node, e.action, answer)) ∧
      (∀ answer, root.inspect (.only kinds) (visitor.leaving answer) state = final) ∧
      stillOpen? [] es = some [] ∧
      (∀ e answer, (e, answer) ∈ es → e.action = .visit →
        es.countP (leaves e.place) = if answer then 1 else 0) ∧
      ∀ e ∈ root.events [], e.action = .visit →
        ((∃ answer, (e, answer) ∈ es) ↔ e.node.kind ∈ kinds ∧ ¬ Hides es e.place) := by
  obtain ⟨es, final, h⟩ := @exists_hears σ kinds visitor root [] state
  have hevents : Forest.events [(root, [])] = root.events [] := List.flatMap_singleton ..
  have hheard : heard kinds visitor none (root.events []) state = (es, final) := by
    simpa [hevents, heard] using h.heard_append []
  have hapart : Forest.Apart [(root, [])] := List.pairwise_singleton _ _
  rw [hheard]
  refine ⟨h.inspect, by simpa using h.recorded [], fun answer => ?_, ?_, fun e answer he hvisit => ?_,
    fun e he hvisit => ?_⟩
  · rw [inspect_leaving]
    exact h.inspect
  · simpa [stillOpen?] using h.told.stillOpen?_append [] []
  · exact h.told.countP_leaves hapart he hvisit
  · rw [← hevents] at he
    exact h.told.exists_mem_iff hapart he hvisit

end

end SentinelWrap
