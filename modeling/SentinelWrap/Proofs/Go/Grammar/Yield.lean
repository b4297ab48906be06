import SentinelWrap.Proofs.Go.Grammar.Derivation
import SentinelWrap.Proofs.Go.Token.Row

/-! The tokens that concrete trees hold. Whatever a rule reads, the tokens of the parts and those
still to be read stay in one row, though a token may be cut in two and a line break may become a
token. -/
namespace SentinelWrap.Go
open Token (Row endOf row_append)
open Text (isBoundary isBoundary_iff)

namespace Tree

mutual

def tokens : Tree → List Token
  | token t => [t]
  | node _ _ children => tokensOfList children

def tokensOfList : List Tree → List Token
  | [] => []
  | c :: cs => c.tokens ++ tokensOfList cs

end

private theorem tokensOfList_eq (ts : List Tree) : tokensOfList ts = ts.flatMap tokens := by
  induction ts with
  | nil => rfl
  | cons t ts ih => rw [tokensOfList, ih, List.flatMap_cons]

@[simp] theorem tokens_token (t : Token) : (token t).tokens = [t] := rfl

@[simp] theorem tokens_node (kind : String) (role : Role) (children : List Tree) :
    (node kind role children).tokens = children.flatMap tokens := tokensOfList_eq children

@[simp] theorem tokens_withRole (role : Role) (t : Tree) : (t.withRole role).tokens = t.tokens := by
  cases t <;> rfl

end Tree

/-- The tokens of the parts read so far, which stand last first, and those still to be read. -/
def yield (parts : List Tree) (ts : List Token) : List Token :=
  parts.reverse.flatMap Tree.tokens ++ ts

theorem yield_cons (t : Tree) (parts : List Tree) (ts : List Token) :
    yield (t :: parts) ts = yield parts (t.tokens ++ ts) := by
  simp [yield]

theorem yield_append (more parts : List Tree) (ts : List Token) :
    yield (more ++ parts) ts = yield parts (yield more ts) := by
  simp [yield]

theorem yield_map_withRole (role : Role) (parts : List Tree) (ts : List Token) :
    yield (parts.map (Tree.withRole role)) ts = yield parts ts := by
  simp [yield, ← List.map_reverse, List.flatMap_map]

namespace Rule
variable {σ : Type} {rules : σ → Rule σ} {source : List Char}

/-- Only what is still to be read changes its tokens. -/
theorem row_yield_mono {lo : Nat} {parts : List Tree} {ts us : List Token}
    (h : ∀ lo, Row source lo ts → Row source lo us) (hrow : Row source lo (yield parts ts)) :
    Row source lo (yield parts us) := by
  unfold yield at hrow ⊢
  rw [row_append] at hrow ⊢
  exact ⟨hrow.1, h _ hrow.2⟩

theorem row_halves {lo : Nat} {t : Token} {first second : String} {rest : List Token}
    (htext : t.text = first ++ second) (h : Row source lo (t :: rest)) :
    Row source lo (t.firstHalf first :: t.secondHalf first second :: rest) := by
  obtain ⟨hsits, hlo, hmark, hrest⟩ := h
  obtain ⟨before, after, hsource, hstart, hstop⟩ := Span.slice?_eq_some_iff.mp hsits
  rw [htext, String.toList_append] at hsource hstop
  rw [Text.size_append] at hstop
  refine ⟨?_, hlo, hmark, ?_, ?_, nofun, hrest⟩
  · refine Span.slice?_eq_some_iff.mpr ⟨before, second.toList ++ after, ?_, hstart, ?_⟩
    · simpa [Token.firstHalf] using hsource
    · simp [Token.firstHalf, hstart]
  · refine Span.slice?_eq_some_iff.mpr ⟨before ++ first.toList, after, ?_, ?_, ?_⟩
    · simpa [Token.secondHalf] using hsource
    · simp [Token.secondHalf, hstart]
    · simp only [Token.secondHalf, Text.size_append]
      omega
  · simp [Token.firstHalf, Token.secondHalf]

private theorem row_lineBreak {lo offset : Nat} {t : Token} {rest : List Token}
    (hline : t.lineEnd = some offset) (h : Row source lo (t :: rest)) :
    Row source lo (.lineBreak offset :: t.unmarked :: rest) := by
  obtain ⟨hsits, -, hmark, hrest⟩ := h
  obtain ⟨hlo, hstart, hslice⟩ := hmark offset hline
  have hbreak : (Token.lineBreak offset).Sits source := by
    rw [Token.Sits, Token.lineBreak, hslice]
    simp
  exact ⟨hbreak, hlo, nofun, hsits, hstart, nofun, hrest⟩

theorem Derives.row {rule : Rule σ} {parts last : List Tree} {ts us : List Token}
    (h : Derives rules rule parts ts last us) {lo : Nat} (hrow : Row source lo (yield parts ts)) :
    Row source lo (yield last us) := by
  induction h generalizing lo with
  | empty | sameLine | newLine | ahead | notAhead | manyStop => exact hrow
  | token | leaf => simpa [yield_cons] using hrow
  | half hkind htext =>
    rw [yield_cons]
    exact row_yield_mono (fun _ => row_halves htext) hrow
  | lineEnd hline =>
    rw [yield_cons]
    exact row_yield_mono (fun _ => row_lineBreak hline) hrow
  | seq _ _ ihfirst ihlater | manyStep _ _ ihfirst ihlater => exact ihlater (ihfirst hrow)
  | altLeft _ ih | altRight _ ih | ref _ _ ih => exact ih hrow
  | node _ ih =>
    rw [yield_cons, Tree.tokens_node]
    exact row_yield_mono (fun _ h => ih h) hrow
  | grow _ ih =>
    rw [yield_cons, Tree.tokens_node]
    exact ih hrow
  | apart _ ih | longer _ _ ih =>
    rw [yield_append]
    exact row_yield_mono (fun _ h => ih h) hrow
  | role _ ih =>
    rw [yield_append, yield_map_withRole]
    exact row_yield_mono (fun _ h => ih h) hrow

end Rule
end SentinelWrap.Go
