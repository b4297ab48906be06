import SentinelWrap.Proofs.Go.Grammar.Grounded

/-! The extent of concrete trees, and what is left of them without it. -/
namespace SentinelWrap.Go
open Token (endOf)

def Token.startOf : List Token → Nat
  | [] => 0
  | t :: _ => t.span.start

open Token (startOf)

theorem Token.startOf_append {as : List Token} (h : as ≠ []) (bs : List Token) :
    startOf (as ++ bs) = startOf as := by
  cases as with
  | nil => contradiction
  | cons a as => rfl

theorem Token.endOf_append_of_ne {bs : List Token} (h : bs ≠ []) (lo lo' : Nat) (as : List Token) :
    endOf lo (as ++ bs) = endOf lo' bs := by
  induction as generalizing lo with
  | nil =>
    cases bs with
    | nil => contradiction
    | cons b bs => rfl
  | cons a as ih => exact ih _

theorem Token.Row.bounds {source : List Char} {lo : Nat} {t : Token} {ts : List Token}
    (h : Row source lo ts) (ht : t ∈ ts) : startOf ts ≤ t.span.start ∧ t.span.stop ≤ endOf lo ts := by
  induction ts generalizing lo with
  | nil => cases ht
  | cons u ts ih =>
    obtain ⟨hsits, -, -, hrow⟩ := h
    rcases List.mem_cons.mp ht with rfl | ht
    · exact ⟨Nat.le_refl _, hrow.le_endOf⟩
    · have hbounds := ih hrow ht
      refine ⟨?_, hbounds.2⟩
      have hle := hsits.start_le_stop
      have hfirst : u.span.stop ≤ startOf ts := by
        cases ts with
        | nil => cases ht
        | cons v ts => exact hrow.2.1
      have : startOf (u :: ts) = u.span.start := rfl
      omega

theorem Token.Row.le_start {source : List Char} {lo : Nat} {ts : List Token} {t : Token}
    (h : Row source lo ts) (ht : t ∈ ts) : lo ≤ t.span.start := by
  have hbound := (h.bounds ht).1
  cases ts with
  | nil => cases ht
  | cons u ts => exact Nat.le_trans h.2.1 hbound

theorem Token.Row.stop_le_start {source : List Char} {lo : Nat} {as bs : List Token} {a b : Token}
    (h : Row source lo (as ++ bs)) (ha : a ∈ as) (hb : b ∈ bs) : a.span.stop ≤ b.span.start := by
  rw [Token.row_append] at h
  exact Nat.le_trans (h.1.bounds ha).2 (h.2.le_start hb)

namespace Tree

theorem stopOfList_cons {cs : List Tree} (h : cs ≠ []) (c : Tree) :
    stopOfList (c :: cs) = stopOfList cs := by
  cases cs with
  | nil => contradiction
  | cons d cs => rw [stopOfList]

private theorem stopOfList_append {cs : List Tree} (c : Tree) :
    stopOfList (cs ++ [c]) = c.stop := by
  induction cs with
  | nil => rfl
  | cons d cs ih => rw [List.cons_append, stopOfList_cons (by simp), ih]

theorem extent_list {cs : List Tree} (hne : cs ≠ [])
    (h : ∀ c ∈ cs, c.tokens ≠ [] ∧ c.start = startOf c.tokens ∧ ∀ lo, c.stop = endOf lo c.tokens) :
    cs.flatMap tokens ≠ [] ∧ startOfList cs = startOf (cs.flatMap tokens) ∧
      ∀ lo, stopOfList cs = endOf lo (cs.flatMap tokens) := by
  induction cs with
  | nil => contradiction
  | cons c cs ih =>
    obtain ⟨⟨hc, hstart, hstop⟩, hrest⟩ := List.forall_mem_cons.mp h
    rw [List.flatMap_cons, Token.startOf_append hc]
    refine ⟨by simp [hc], by rw [startOfList, hstart], fun lo => ?_⟩
    cases cs with
    | nil => simp [stopOfList, hstop lo]
    | cons d cs =>
      obtain ⟨hne', -, hstop'⟩ := ih (by simp) hrest
      rw [stopOfList_cons (by simp), Token.endOf_append_of_ne hne' lo lo, hstop' lo]

/-- A full tree extends from its first token to its last one. -/
theorem Full.extent {t : Tree} (h : t.Full) :
    t.tokens ≠ [] ∧ t.start = startOf t.tokens ∧ ∀ lo, t.stop = endOf lo t.tokens := by
  induction h with
  | token t => exact ⟨by simp, rfl, fun _ => rfl⟩
  | node kind role hne _ ih =>
    rw [tokens_node]
    exact extent_list hne ih

private theorem sizeOfParts_eq_of_ne {parts : List Tree} (hne : parts ≠ []) :
    sizeOfParts parts = stopOfList parts.reverse - startOfList parts.reverse := by
  cases parts with
  | nil => contradiction
  | cons last parts =>
    have hstart : ∃ first, (last :: parts).getLast? = some first ∧
        startOfList (last :: parts).reverse = first.start := by
      obtain ⟨first, rest, heq⟩ := List.exists_cons_of_ne_nil
        (show (last :: parts).reverse ≠ [] by simp)
      refine ⟨first, ?_, by rw [heq, startOfList]⟩
      rw [← List.head?_reverse, heq, List.head?_cons]
    obtain ⟨first, hlast, hfirst⟩ := hstart
    rw [hfirst, List.reverse_cons, stopOfList_append]
    simp [sizeOfParts, hlast]

theorem sizeOfParts_eq {parts : List Tree} (h : ∀ t ∈ parts, t.Full) :
    sizeOfParts parts = endOf 0 (yield parts []) - startOf (yield parts []) := by
  cases parts with
  | nil => rfl
  | cons last parts =>
    have hne : (last :: parts).reverse ≠ [] := by simp
    have hextent := extent_list hne fun c hc => (h c (List.mem_reverse.mp hc)).extent
    rw [sizeOfParts_eq_of_ne (by simp), yield, List.append_nil, hextent.2.1, hextent.2.2 0]

end Tree

def Token.bare (t : Token) : Token := { t with span := ⟨0, 0⟩, lineEnd := none }

theorem Token.bare_eq_bare {t t' : Token} : t.bare = t'.bare ↔ t.kind = t'.kind ∧ t.text = t'.text := by
  simp [Token.bare]

namespace Tree

mutual

/-- The tree without the places of its tokens. -/
def bare : Tree → Tree
  | token t => token t.bare
  | node kind role children => node kind role (bareOfList children)

def bareOfList : List Tree → List Tree
  | [] => []
  | t :: ts => t.bare :: bareOfList ts

end

private theorem bareOfList_eq_map (ts : List Tree) : bareOfList ts = ts.map bare := by
  induction ts with
  | nil => rfl
  | cons t ts ih => rw [bareOfList, ih, List.map_cons]

@[simp] theorem bare_token (t : Token) : (token t).bare = token t.bare := by
  rw [bare]

@[simp] theorem bare_node (kind : String) (role : Role) (children : List Tree) :
    (node kind role children).bare = node kind role (children.map bare) := by
  rw [bare, bareOfList_eq_map]

@[simp] theorem bare_withRole (role : Role) (t : Tree) :
    (t.withRole role).bare = t.bare.withRole role := by
  cases t with
  | token t => simp [withRole]
  | node kind _ children => simp [withRole]

end Tree
end SentinelWrap.Go
