import SentinelWrap.Proofs.Go.Grammar.Imports
import SentinelWrap.Proofs.Go.Grammar.Returns
import SentinelWrap.Proofs.Go.Grammar.Sited

/-! Trees with other children in some places, and tokens that are the same but for the statements that
those places come from. -/
namespace SentinelWrap.Go
open Token (Row endOf startOf)

/-- The children that a node gets, by its kind and those it has. -/
abbrev Change := String → List Tree → Option (List Tree)

namespace Tree
variable (change : Change)

mutual

/-- The tree with other children where a change gives some. They are not changed again. -/
def amend : Tree → Tree
  | token t => token t
  | node kind role children => node kind role ((change kind children).getD (amendOfList children))

def amendOfList : List Tree → List Tree
  | [] => []
  | t :: ts => t.amend :: amendOfList ts

end

variable {change} {kind : String} {children children' : List Tree}

private theorem amendOfList_eq_map (ts : List Tree) :
    amendOfList change ts = ts.map (amend change) := by
  induction ts with
  | nil => rfl
  | cons t ts ih => rw [amendOfList, ih, List.map_cons]

@[simp] theorem amend_token (t : Token) : (token t).amend change = token t := by
  rw [amend]

theorem amend_of_none (h : change kind children = none) (role : Role) :
    (node kind role children).amend change = node kind role (children.map (amend change)) := by
  rw [amend, h, Option.getD_none, amendOfList_eq_map]

theorem amend_of_some (h : change kind children = some children') (role : Role) :
    (node kind role children).amend change = node kind role children' := by
  rw [amend, h, Option.getD_some]

theorem amend_withRole (role : Role) (t : Tree) :
    (t.withRole role).amend change = (t.amend change).withRole role := by
  cases t with
  | token t => simp [withRole]
  | node kind _ children => simp [withRole, amend]

end Tree

/-- Tokens that stand in a row in some source, none of whose words is empty. -/
structure Orderly (ts : List Token) : Prop where
  row : ∃ source lo, Row source lo ts
  words : ∀ t ∈ ts, t.kind = .word → t.text ≠ ""

namespace Orderly
variable {t : Token} {ts : List Token}

theorem tail (h : Orderly (t :: ts)) : Orderly ts := by
  obtain ⟨source, lo, -, -, -, hrow⟩ := h.row
  exact ⟨⟨source, _, hrow⟩, fun u hu => h.words u (List.mem_cons_of_mem t hu)⟩

theorem append {us : List Token} (h : Orderly (ts ++ us)) : Orderly us := by
  induction ts with
  | nil => exact h
  | cons t ts ih => exact ih h.tail

theorem secondHalf {first second : String} (h : Orderly (t :: ts)) (hkind : t.kind = .sign)
    (htext : t.text = first ++ second) : Orderly (t.secondHalf first second :: ts) := by
  obtain ⟨source, lo, hrow⟩ := h.row
  obtain ⟨-, -, -, hrow⟩ := Rule.row_halves htext hrow
  refine ⟨⟨source, _, hrow⟩, List.forall_mem_cons.mpr ⟨fun hword => ?_, h.tail.words⟩⟩
  rw [Token.secondHalf, hkind] at hword
  cases hword

theorem unmarked (h : Orderly (t :: ts)) : Orderly (t.unmarked :: ts) := by
  obtain ⟨source, lo, hsits, hlo, -, hrow⟩ := h.row
  refine ⟨⟨source, lo, hsits, hlo, nofun, hrow⟩, List.forall_mem_cons.mpr ⟨?_, h.tail.words⟩⟩
  exact h.words t List.mem_cons_self

end Orderly

open Grammar Rule

/-- Tokens, and the same tokens in a text where some returns are wrapped and an import declaration is
laid out anew. Between two such changes the text is copied; the index tells from where and to where.
Each change goes with one of the tree. -/
inductive Amended (qualifier : String) (change : Change) :
    Nat × Nat → List Token → List Token → Prop
  | nil {i : Nat × Nat} : Amended qualifier change i [] []
  | kept {i : Nat × Nat} {t t' : Token} {ts ts' : List Token} (hcopied : t.Copied i.1 i.2 t')
    (hmark : MarkCopied i.1 i.2 t.lineEnd t'.lineEnd)
    (hkept : t.kind = .word → ∀ u kind children, u.span = t.span →
      change kind (.token u :: children) = none)
    (later : Amended qualifier change i ts ts') : Amended qualifier change i (t :: ts) (t' :: ts')
  | wrapped {i j : Nat × Nat} {r r' : Token} {mid mid' rest rest' : List Token} {Xs : List Tree}
    (hr : (Terminal.word "return").accepts r = true)
    (hr' : (Terminal.word "return").accepts r' = true)
    (hmark : MarkCopied i.1 i.2 r.lineEnd r'.lineEnd)
    (hread : ∀ u, (Terminal.word "return").accepts u = true → Ends Symbol.rule
      (.ref .returnStatement) [] (u :: (mid ++ rest)) (.read [returnTree u Xs] rest))
    (hwraps : Wraps qualifier rest mid Xs mid')
    (hchange : ∀ u, u.span = r.span → change "return_statement"
      [.token u, .node "expression_list" .plain Xs] =
        some [.token u, .node "expression_list" .plain (wrapTrees qualifier Xs)])
    (hsize : r.span.start + 10 ≤ endOf 0 mid) (hsize' : r'.span.start + 10 ≤ endOf 0 mid')
    (hlt : i.1 < j.1) (later : Amended qualifier change j rest rest') :
    Amended qualifier change i (r :: (mid ++ rest)) (r' :: (mid' ++ rest'))
  | grouped {i j : Nat × Nat} {m m' : Token} {mid mid' rest rest' : List Token} {Ss cs : List Tree}
    (hm : (Terminal.word "import").accepts m = true)
    (hm' : (Terminal.word "import").accepts m' = true)
    (hmark : MarkCopied i.1 i.2 m.lineEnd m'.lineEnd)
    (hread : ∀ u, (Terminal.word "import").accepts u = true → Ends Symbol.rule
      (.ref .importDeclaration) [] (u :: (mid ++ rest))
        (.read [.node "import_declaration" .plain (.token u :: cs)] rest))
    (hread' : ∀ u, (Terminal.word "import").accepts u = true → ∃ children : List Tree,
      children.map Tree.bare = (groupChildren u Ss).map Tree.bare ∧ ∀ parts, Ends Symbol.rule
        (.ref .importDeclaration) parts (u :: (mid' ++ rest'))
          (.read (.node "import_declaration" .plain children :: parts) rest'))
    (hchange : ∀ u, u.span = m.span → change "import_declaration" (.token u :: cs) =
      some (groupChildren u Ss))
    (hlt : i.1 < j.1) (later : Amended qualifier change j rest rest') :
    Amended qualifier change i (m :: (mid ++ rest)) (m' :: (mid' ++ rest'))

namespace Amended
variable {q : String} {change : Change} {i : Nat × Nat} {t t' : Token} {ts ts' : List Token}

theorem sameHead (h : Amended q change i ts ts') : SameHead ts ts' := by
  cases h with
  | nil => exact .nil
  | kept hcopied _ _ _ => exact .cons hcopied.kind hcopied.text
  | wrapped hr hr' | grouped hr hr' =>
    rw [Terminal.accepts_word] at hr hr'
    exact .cons (hr.1.trans hr'.1.symm) (hr.2.trans hr'.2.symm)

theorem markCopied (h : Amended q change i (t :: ts) (t' :: ts')) :
    MarkCopied i.1 i.2 t.lineEnd t'.lineEnd := by
  cases h with
  | kept _ hmark _ _ => exact hmark
  | wrapped _ _ hmark | grouped _ _ hmark => exact hmark

/-- Once the line break before them is read, the tokens still correspond. -/
theorem unmarked (h : Amended q change i (t :: ts) (t' :: ts')) :
    Amended q change i (t.unmarked :: ts) (t'.unmarked :: ts') := by
  cases h with
  | kept hcopied _ hkept later =>
    exact .kept ⟨hcopied.kind, hcopied.text, hcopied.start, hcopied.stop⟩ trivial hkept later
  | wrapped hr hr' _ hread hwraps hchange hsize hsize' hlt later =>
    exact .wrapped hr hr' trivial hread hwraps hchange hsize hsize' hlt later
  | grouped hm hm' _ hread hread' hchange hlt later =>
    exact .grouped hm hm' trivial hread hread' hchange hlt later

/-- A token that begins no change is copied. -/
theorem copied (h : Amended q change i (t :: ts) (t' :: ts'))
    (ht : ¬(t.kind = .word ∧ (t.text = "return" ∨ t.text = "import"))) :
    t.Copied i.1 i.2 t' ∧ Amended q change i ts ts' := by
  cases h with
  | kept hcopied _ _ later => exact ⟨hcopied, later⟩
  | wrapped hr | grouped hr =>
    rw [Terminal.accepts_word] at hr
    exact absurd ⟨hr.1, by simp [hr.2]⟩ ht

end Amended

def Spread (ts : List Token) : Prop :=
  ∃ a ∈ ts, ∃ b ∈ ts, a.sort = .keyword ∧ a.span.start + 10 ≤ b.span.stop

/-- What holds of tokens, and of others that stand for them, where a change is among them: both are
long, or there is an import. -/
def Changed (ts ts' : List Token) : Prop :=
  Spread ts ∧ Spread ts' ∨ ∃ t ∈ ts, t.kind = .word ∧ t.text = "import"

theorem Changed.mono {ts ts' us us' : List Token} (h : Changed ts ts') (hsub : ts ⊆ us)
    (hsub' : ts' ⊆ us') : Changed us us' := by
  rcases h with ⟨⟨a, ha, b, hb, h⟩, ⟨c, hc, d, hd, h'⟩⟩ | ⟨t, ht, himport⟩
  · exact .inl ⟨⟨a, hsub ha, b, hsub hb, h⟩, ⟨c, hsub' hc, d, hsub' hd, h'⟩⟩
  · exact .inr ⟨t, hsub ht, himport⟩

structure AmendedParts (change : Change) (i j : Nat × Nat) (parts parts' : List Tree) : Prop where
  bare : parts'.map Tree.bare = parts.map fun t => (t.amend change).bare
  le : i.1 ≤ j.1
  copied : i.1 = j.1 → i = j ∧
    List.Forall₂ (Token.Copied i.1 i.2) (yield parts []) (yield parts' [])
  changed : i.1 < j.1 → Changed (yield parts []) (yield parts' [])

namespace AmendedParts
variable {change : Change} {i j k : Nat × Nat} {more more' later later' : List Tree}

theorem nil (i : Nat × Nat) : AmendedParts change i i [] [] where
  bare := rfl
  le := Nat.le_refl _
  copied _ := ⟨rfl, .nil⟩
  changed h := absurd h (Nat.lt_irrefl _)

theorem append (h : AmendedParts change i j more more')
    (hlater : AmendedParts change j k later later') :
    AmendedParts change i k (later ++ more) (later' ++ more') where
  bare := by rw [List.map_append, List.map_append, h.bare, hlater.bare]
  le := Nat.le_trans h.le hlater.le
  copied heq := by
    have := h.le
    have := hlater.le
    obtain ⟨rfl, hmore⟩ := h.copied (by omega)
    obtain ⟨rfl, hnext⟩ := hlater.copied (by omega)
    rw [yield_append, yield_append, yield_eq_append, yield_eq_append more']
    exact ⟨rfl, List.rel_append hmore hnext⟩
  changed hlt := by
    rw [yield_append, yield_append, yield_eq_append, yield_eq_append more']
    by_cases hfirst : i.1 < j.1
    · exact (h.changed hfirst).mono (List.subset_append_left ..) (List.subset_append_left ..)
    · have := h.le
      exact (hlater.changed (by omega)).mono (List.subset_append_right ..)
        (List.subset_append_right ..)

theorem role (role : Role) (h : AmendedParts change i j more more') :
    AmendedParts change i j (more.map (Tree.withRole role)) (more'.map (Tree.withRole role)) where
  bare := by
    have hmap := congrArg (List.map (Tree.withRole role)) h.bare
    simpa [Tree.amend_withRole, Function.comp_def] using hmap
  le := h.le
  copied := by simpa [yield_map_withRole] using h.copied
  changed := by simpa [yield_map_withRole] using h.changed

theorem token {t t' : Token} (h : t.Copied i.1 i.2 t') :
    AmendedParts change i i [.token t] [.token t'] where
  bare := by simp [Token.bare_eq_bare.mpr ⟨h.kind, h.text⟩]
  le := Nat.le_refl _
  copied _ := ⟨rfl, by simpa [yield] using h⟩
  changed h := absurd h (Nat.lt_irrefl _)

/-- Children that are amended one by one make an amended node. -/
theorem node {kind : String} (h : AmendedParts change i j more more')
    (hkind : change kind more.reverse = none) :
    AmendedParts change i j [.node kind .plain more.reverse] [.node kind .plain more'.reverse] where
  bare := by
    have hmap := congrArg List.reverse h.bare
    simpa [Tree.amend_of_none hkind, Function.comp_def] using hmap
  le := h.le
  copied := by simpa [yield] using h.copied
  changed := by simpa [yield] using h.changed

end AmendedParts
end SentinelWrap.Go
