import Mathlib.Data.List.Chain
import SentinelWrap.Proofs.Syntax.Preorder
import SentinelWrap.Proofs.Text.Split

/-! Where the nodes of a tree stand in its source. Children stand inside their parent and one after
the other, so two nodes of a tree stand apart unless one holds the other. -/
namespace SentinelWrap.Node
open Text (isBoundary)

def Lined : Nat → Nat → List Node → Prop
  | lo, hi, [] => lo ≤ hi
  | lo, hi, n :: ns =>
    ∃ s : Span, n.span = some s ∧ lo ≤ s.start ∧ s.start ≤ s.stop ∧ Lined s.stop hi ns

/-- The node covers this range of the source, and its children stand in a line inside it. Those of a
return begin after it does. -/
structure Placed (source : List Char) (n : Node) (s : Span) : Prop where
  span_eq : n.span = some s
  start_le_stop : s.start ≤ s.stop
  start_boundary : isBoundary s.start source = true
  stop_boundary : isBoundary s.stop source = true
  lined : Lined s.start s.stop n.children
  results : n.kind = .ret → Lined (s.start + 1) s.stop n.children

def WellPlaced (source : List Char) (n : Node) : Prop := ∀ m ∈ n.preorder, ∃ s, Placed source m s

theorem Lined.le {lo hi : Nat} {ns : List Node} (h : Lined lo hi ns) : lo ≤ hi := by
  induction ns generalizing lo with
  | nil => exact h
  | cons n ns ih =>
    obtain ⟨s, -, hlo, hle, hrest⟩ := h
    have := ih hrest
    omega

theorem Lined.mono {lo lo' hi : Nat} {ns : List Node} (h : Lined lo hi ns) (hle : lo' ≤ lo) :
    Lined lo' hi ns := by
  cases ns with
  | nil => exact Nat.le_trans hle h
  | cons n ns =>
    obtain ⟨s, hspan, hlo, hrest⟩ := h
    exact ⟨s, hspan, Nat.le_trans hle hlo, hrest⟩

theorem Lined.sublist {lo hi : Nat} {ns ms : List Node} (h : Lined lo hi ns) (hsub : ms.Sublist ns) :
    Lined lo hi ms := by
  induction hsub generalizing lo with
  | slnil => exact h
  | cons n _ ih =>
    obtain ⟨s, -, hlo, hle, hrest⟩ := h
    exact ih (hrest.mono (Nat.le_trans hlo hle))
  | cons_cons n _ ih =>
    obtain ⟨s, hspan, hlo, hle, hrest⟩ := h
    exact ⟨s, hspan, hlo, hle, ih hrest⟩

theorem lined_append {lo mid hi : Nat} {ns ms : List Node} (hns : Lined lo mid ns)
    (hms : Lined mid hi ms) : Lined lo hi (ns ++ ms) := by
  induction ns generalizing lo with
  | nil => exact hms.mono hns
  | cons n ns ih =>
    obtain ⟨s, hspan, hlo, hle, hrest⟩ := hns
    exact ⟨s, hspan, hlo, hle, ih hrest⟩

/-- In place of each node of a line, nodes may stand that are in a line inside it. -/
theorem Lined.flatMap {lo hi : Nat} {ns : List Node} (h : Lined lo hi ns) (f : Node → List Node)
    (hf : ∀ n ∈ ns, ∀ s, n.span = some s → Lined s.start s.stop (f n)) :
    Lined lo hi (ns.flatMap f) := by
  induction ns generalizing lo with
  | nil => exact h
  | cons n ns ih =>
    obtain ⟨s, hspan, hlo, hle, hrest⟩ := h
    rw [List.flatMap_cons]
    refine lined_append ((hf n List.mem_cons_self s hspan).mono hlo) (ih hrest ?_)
    exact fun m hm => hf m (List.mem_cons_of_mem _ hm)

theorem Lined.inside {lo hi : Nat} {ns : List Node} (h : Lined lo hi ns) {n : Node} (hn : n ∈ ns) :
    ∃ s, n.span = some s ∧ lo ≤ s.start ∧ s.stop ≤ hi := by
  induction ns generalizing lo with
  | nil => cases hn
  | cons m ns ih =>
    obtain ⟨s, hspan, hlo, hle, hrest⟩ := h
    rcases List.mem_cons.mp hn with rfl | hn
    · exact ⟨s, hspan, hlo, hrest.le⟩
    · obtain ⟨t, ht, hstart, hstop⟩ := ih hrest hn
      exact ⟨t, ht, by omega, hstop⟩

/-- The first node ends before the second begins, or where it begins. -/
def Before (a b : Node) : Prop :=
  ∃ s t : Span, a.span = some s ∧ b.span = some t ∧ s.stop ≤ t.start

theorem Lined.before_of_mem {lo hi : Nat} {ns : List Node} (h : Lined lo hi ns) {a b : Node}
    (ha : a ∈ ns) (hb : b ∈ ns) : a = b ∨ Before a b ∨ Before b a := by
  induction ns generalizing lo with
  | nil => cases ha
  | cons n ns ih =>
    obtain ⟨s, hspan, -, -, hrest⟩ := h
    rcases List.mem_cons.mp ha with rfl | ha' <;> rcases List.mem_cons.mp hb with rfl | hb'
    · exact .inl rfl
    · obtain ⟨t, ht, hstart, -⟩ := hrest.inside hb'
      exact .inr (.inl ⟨s, t, hspan, ht, hstart⟩)
    · obtain ⟨t, ht, hstart, -⟩ := hrest.inside ha'
      exact .inr (.inr ⟨s, t, hspan, ht, hstart⟩)
    · exact ih hrest ha' hb'

theorem WellPlaced.child {source : List Char} {n c : Node} (h : WellPlaced source n)
    (hc : c ∈ n.children) : WellPlaced source c :=
  fun m hm => h m (preorder_subset_of_mem_children hc hm)

/-- A node of a tree stands inside its root. -/
theorem WellPlaced.inside {source : List Char} {n m : Node} {s : Span} (h : WellPlaced source n)
    (hspan : n.span = some s) (hm : m ∈ n.preorder) :
    ∃ t, Placed source m t ∧ s.start ≤ t.start ∧ t.stop ≤ s.stop := by
  induction n using children_induction generalizing s with
  | step n ih =>
    obtain ⟨u, hu⟩ := h n n.self_mem_preorder
    obtain rfl : u = s := Option.some.inj (hu.span_eq.symm.trans hspan)
    rw [preorder_eq, List.mem_cons, List.mem_flatMap] at hm
    rcases hm with rfl | ⟨c, hc, hm⟩
    · exact ⟨u, hu, Nat.le_refl _, Nat.le_refl _⟩
    · obtain ⟨v, hv, hstart, hstop⟩ := hu.lined.inside hc
      obtain ⟨t, ht, hstart', hstop'⟩ := ih c hc (h.child hc) hv hm
      exact ⟨t, ht, by omega, by omega⟩

theorem Before.of_mem_preorder {source : List Char} {c d a b : Node} (h : Before c d)
    (hc : WellPlaced source c) (hd : WellPlaced source d) (ha : a ∈ c.preorder)
    (hb : b ∈ d.preorder) : Before a b := by
  obtain ⟨s, t, hs, ht, hle⟩ := h
  obtain ⟨u, hu, -, hstop⟩ := hc.inside hs ha
  obtain ⟨v, hv, hstart, -⟩ := hd.inside ht hb
  exact ⟨u, v, hu.span_eq, hv.span_eq, by omega⟩

/-- Neither node holds a byte of the other, or one of them holds the other. -/
def ApartOrNested (a b : Node) : Prop :=
  Before a b ∨ Before b a ∨ a ∈ b.preorder ∨ b ∈ a.preorder

theorem Lined.apartOrNested {source : List Char} {lo hi : Nat} {ns : List Node}
    (hlined : Lined lo hi ns) (hplaced : ∀ n ∈ ns, WellPlaced source n) {a b : Node}
    (hsame : ∀ n ∈ ns, a ∈ n.preorder → b ∈ n.preorder → ApartOrNested a b)
    (ha : a ∈ ns.flatMap preorder) (hb : b ∈ ns.flatMap preorder) : ApartOrNested a b := by
  obtain ⟨c, hc, ha⟩ := List.mem_flatMap.mp ha
  obtain ⟨d, hd, hb⟩ := List.mem_flatMap.mp hb
  rcases hlined.before_of_mem hc hd with rfl | hbefore | hbefore
  · exact hsame c hc ha hb
  · exact .inl (hbefore.of_mem_preorder (hplaced c hc) (hplaced d hd) ha hb)
  · exact .inr (.inl (hbefore.of_mem_preorder (hplaced d hd) (hplaced c hc) hb ha))

/-- Two nodes of a tree stand apart unless one holds the other. -/
theorem WellPlaced.apartOrNested {source : List Char} {n a b : Node} (h : WellPlaced source n)
    (ha : a ∈ n.preorder) (hb : b ∈ n.preorder) : ApartOrNested a b := by
  induction n using children_induction with
  | step n ih =>
    obtain ⟨s, hs⟩ := h n n.self_mem_preorder
    have ha' := ha
    have hb' := hb
    rw [preorder_eq, List.mem_cons] at ha' hb'
    rcases ha' with rfl | ha'
    · exact .inr (.inr (.inr hb))
    rcases hb' with rfl | hb'
    · exact .inr (.inr (.inl ha))
    exact hs.lined.apartOrNested (fun c hc => h.child hc) (fun c hc => ih c hc (h.child hc)) ha' hb'

/-- The node covers this range of the source; its children stand inside it, each over before the next
begins. A return is not empty and begins before its results. -/
structure Spanned (source : List Char) (n : Node) (s : Span) : Prop where
  span_eq : n.span = some s
  start_le_stop : s.start ≤ s.stop
  start_boundary : isBoundary s.start source = true
  stop_boundary : isBoundary s.stop source = true
  inside : ∀ c ∈ n.children, ∀ t ∈ c.span, s.start ≤ t.start ∧ t.stop ≤ s.stop
  consecutive : n.children.IsChain Before
  nonempty : n.kind = .ret → s.start < s.stop
  results : n.kind = .ret → ∀ c ∈ n.children, ∀ t ∈ c.span, s.start < t.start

def WellSpanned (source : List Char) (n : Node) : Prop := ∀ m ∈ n.preorder, ∃ s, Spanned source m s

instance decidableBefore (a b : Node) : Decidable (Before a b) :=
  decidable_of_iff (∃ s ∈ a.span, ∃ t ∈ b.span, s.stop ≤ t.start)
    ⟨fun ⟨s, hs, t, ht, h⟩ => ⟨s, t, hs, ht, h⟩, fun ⟨s, t, hs, ht, h⟩ => ⟨s, hs, t, ht, h⟩⟩

instance decidableSpanned (source : List Char) (n : Node) (s : Span) :
    Decidable (Spanned source n s) :=
  decidable_of_iff (n.span = some s ∧ s.start ≤ s.stop ∧ isBoundary s.start source = true ∧
      isBoundary s.stop source = true ∧
      (∀ c ∈ n.children, ∀ t ∈ c.span, s.start ≤ t.start ∧ t.stop ≤ s.stop) ∧
      n.children.IsChain Before ∧ (n.kind = .ret → s.start < s.stop) ∧
      (n.kind = .ret → ∀ c ∈ n.children, ∀ t ∈ c.span, s.start < t.start))
    ⟨fun ⟨h1, h2, h3, h4, h5, h6, h7, h8⟩ => ⟨h1, h2, h3, h4, h5, h6, h7, h8⟩,
      fun ⟨h1, h2, h3, h4, h5, h6, h7, h8⟩ => ⟨h1, h2, h3, h4, h5, h6, h7, h8⟩⟩

instance decidableWellSpanned (source : List Char) (n : Node) : Decidable (WellSpanned source n) :=
  decidable_of_iff (∀ m ∈ n.preorder, ∃ s ∈ m.span, Spanned source m s)
    ⟨fun h m hm => (h m hm).imp fun _ => And.right,
      fun h m hm => (h m hm).imp fun _ hs => ⟨hs.span_eq, hs⟩⟩

/-- Nodes of which each is over before the next begins are in a line. -/
theorem lined_of_isChain {lo hi : Nat} {ns : List Node} (hle : lo ≤ hi) (hchain : ns.IsChain Before)
    (hspan : ∀ n ∈ ns, ∃ s : Span, n.span = some s ∧ s.start ≤ s.stop ∧ s.stop ≤ hi)
    (hhead : ∀ n ∈ ns.head?, ∀ s, n.span = some s → lo ≤ s.start) : Lined lo hi ns := by
  induction ns generalizing lo with
  | nil => exact hle
  | cons n ns ih =>
    obtain ⟨⟨s, hs, hle, hhi⟩, hrest⟩ := List.forall_mem_cons.mp hspan
    refine ⟨s, hs, hhead n rfl s hs, hle, ih hhi hchain.of_cons hrest fun m hm t ht => ?_⟩
    obtain ⟨u, v, hu, hv, hbefore⟩ := (List.isChain_cons.mp hchain).1 m hm
    obtain rfl : u = s := Option.some.inj (hu.symm.trans hs)
    obtain rfl : v = t := Option.some.inj (hv.symm.trans ht)
    exact hbefore

theorem Spanned.placed {source : List Char} {n : Node} {s : Span} (h : Spanned source n s)
    (hbelow : ∀ c ∈ n.children, ∃ t, Spanned source c t) : Placed source n s := by
  have hspan : ∀ c ∈ n.children, ∃ t : Span, c.span = some t ∧ t.start ≤ t.stop ∧ t.stop ≤ s.stop := by
    intro c hc
    obtain ⟨t, ht⟩ := hbelow c hc
    exact ⟨t, ht.span_eq, ht.start_le_stop, (h.inside c hc t ht.span_eq).2⟩
  refine ⟨h.span_eq, h.start_le_stop, h.start_boundary, h.stop_boundary, ?_, fun hret => ?_⟩
  · refine lined_of_isChain h.start_le_stop h.consecutive hspan fun c hc t ht => ?_
    exact (h.inside c (List.mem_of_mem_head? hc) t ht).1
  · refine lined_of_isChain (h.nonempty hret) h.consecutive hspan fun c hc t ht => ?_
    exact h.results hret c (List.mem_of_mem_head? hc) t ht

theorem WellSpanned.wellPlaced {source : List Char} {n : Node} (h : WellSpanned source n) :
    WellPlaced source n := by
  intro m hm
  obtain ⟨s, hs⟩ := h m hm
  refine ⟨s, hs.placed fun c hc => h c ?_⟩
  exact preorder_subset_of_mem hm (preorder_subset_of_mem_children hc c.self_mem_preorder)

end SentinelWrap.Node
