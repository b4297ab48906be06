import SentinelWrap.Proofs.Go.Token.Scan
import SentinelWrap.Proofs.Text.Split

/-! Lexing as a relation, and the row in which the tokens of a source stand. -/
namespace SentinelWrap.Go.Token
open Text (size)

/-- The mark a line break leaves for the next token, unless an earlier one has left it. -/
def markAfter (c : Char) (offset : Nat) (lineEnd : Option Nat) : Option Nat :=
  if c == '\n' then lineEnd <|> some offset else lineEnd

/-- The tokens of a text at an offset, by what stands at its front. -/
inductive Lexes : Nat → Option Nat → List Char → List Token → Prop
  | finish (offset : Nat) (lineEnd : Option Nat) :
    Lexes offset lineEnd [] [⟨.finish, "", ⟨offset, offset⟩, lineEnd⟩]
  | blank {offset : Nat} {lineEnd : Option Nat} {c : Char} {rest : List Char} {tokens : List Token}
    (hblank : isBlank c = true)
    (next : Lexes (offset + c.utf8Size) (markAfter c offset lineEnd) rest tokens) :
    Lexes offset lineEnd (c :: rest) tokens
  | comment {offset : Nat} {lineEnd : Option Nat} {comment rest : List Char} {tokens : List Token}
    (hcomment : scanComment (comment ++ rest) = some comment.length)
    (next : Lexes (offset + size comment) lineEnd rest tokens) :
    Lexes offset lineEnd (comment ++ rest) tokens
  | token {offset : Nat} {lineEnd : Option Nat} {lexeme rest : List Char} {tokens : List Token}
    {kind : TokenKind} (hblank : ∀ c ∈ (lexeme ++ rest).head?, isBlank c = false)
    (hcomment : scanComment (lexeme ++ rest) = none)
    (hscan : scan? (lexeme ++ rest) = some (kind, lexeme.length))
    (next : Lexes (offset + size lexeme) none rest tokens) :
    Lexes offset lineEnd (lexeme ++ rest)
      (⟨kind, String.ofList lexeme, ⟨offset, offset + size lexeme⟩, lineEnd⟩ :: tokens)

theorem lexes_of_listFrom {fuel offset : Nat} {lineEnd : Option Nat} {cs : List Char}
    {tokens : List Token} (h : listFrom fuel offset lineEnd cs = .ok tokens) :
    Lexes offset lineEnd cs tokens := by
  induction fuel generalizing offset lineEnd cs tokens with
  | zero =>
    cases cs with
    | nil =>
      obtain rfl := Except.ok.inj h
      exact .finish offset lineEnd
    | cons c rest => cases h
  | succ fuel ih =>
    cases cs with
    | nil =>
      obtain rfl := Except.ok.inj h
      exact .finish offset lineEnd
    | cons c rest =>
      simp only [listFrom] at h
      split_ifs at h with hblank hline
      · exact .blank hblank (by simpa [markAfter, hline] using ih h)
      · exact .blank hblank (by simpa [markAfter, hline] using ih h)
      have hsplit (n : Nat) := List.take_append_drop n (c :: rest)
      split at h
      next n hn =>
        have hlen := List.length_take_of_le (bounded_comment _ _ hn)
        rw [← hsplit n]
        exact .comment (by rw [hsplit, hn, hlen]) (ih h)
      next hcomment =>
        split at h
        next kind n hn =>
          have hlen := List.length_take_of_le (scan?_le hn)
          cases hlater : listFrom fuel (offset + size ((c :: rest).take n)) none
              ((c :: rest).drop n) with
          | error e => simp [hlater, bind, Except.bind] at h
          | ok later =>
            obtain rfl : _ = tokens := by
              simpa [hlater, bind, Except.bind, pure, Except.pure] using h
            have hhead : ∀ d ∈ ((c :: rest).take n ++ (c :: rest).drop n).head?,
                isBlank d = false := by
              rw [hsplit]
              simpa using hblank
            have hstep := @Lexes.token offset lineEnd _ _ _ kind hhead (by rw [hsplit, hcomment])
              (by rw [hsplit, hn, hlen]) (ih hlater)
            rwa [hsplit] at hstep
        next => cases h

def Sits (source : List Char) (t : Token) : Prop := t.span.slice? source = some t.text.toList

/-- The line break before a token stands between an offset and the token. -/
def MarkedAfter (source : List Char) (lo : Nat) (t : Token) : Prop :=
  ∀ offset, t.lineEnd = some offset →
    lo ≤ offset ∧ offset + 1 ≤ t.span.start ∧ Span.slice? ⟨offset, offset + 1⟩ source = some ['\n']

/-- Tokens from an offset on, one after the other. -/
def Row (source : List Char) : Nat → List Token → Prop
  | _, [] => True
  | lo, t :: ts => t.Sits source ∧ lo ≤ t.span.start ∧ t.MarkedAfter source lo ∧
    Row source t.span.stop ts

theorem Sits.start_le_stop {source : List Char} {t : Token} (h : t.Sits source) :
    t.span.start ≤ t.span.stop := by
  obtain ⟨before, after, -, hstart, hstop⟩ := Span.slice?_eq_some_iff.mp h
  omega

theorem Sits.stop_eq {source : List Char} {t : Token} (h : t.Sits source) :
    t.span.stop = t.span.start + size t.text.toList := by
  obtain ⟨before, after, -, hstart, hstop⟩ := Span.slice?_eq_some_iff.mp h
  omega

/-- Lexing a text that stands at an offset of a source gives a row from that offset on. -/
theorem Lexes.row {source : List Char} {offset lo : Nat} {lineEnd : Option Nat} {cs : List Char}
    {tokens : List Token} (h : Lexes offset lineEnd cs tokens) {before : List Char}
    (hsource : source = before ++ cs) (hoffset : size before = offset) (hlo : lo ≤ offset)
    (hmark : ∀ mark, lineEnd = some mark → lo ≤ mark ∧ mark + 1 ≤ offset ∧
      Span.slice? ⟨mark, mark + 1⟩ source = some ['\n']) : Row source lo tokens := by
  induction h generalizing before lo with
  | finish offset lineEnd =>
    refine ⟨?_, hlo, hmark, trivial⟩
    refine Span.slice?_eq_some_iff.mpr ⟨before, [], ?_, hoffset, ?_⟩
    · simpa using hsource
    · simpa using hoffset
  | @blank offset lineEnd c rest tokens hblank next ih =>
    refine @ih lo (before ++ [c]) (by simpa using hsource) (by simp [hoffset]) (by omega) ?_
    intro mark hm
    have hpos := c.utf8Size_pos
    unfold markAfter at hm
    split_ifs at hm with hc
    · cases lineEnd with
      | some earlier =>
        obtain ⟨h1, h2, h3⟩ := hmark mark (by simpa using hm)
        exact ⟨h1, by omega, h3⟩
      | none =>
        obtain rfl : offset = mark := by simpa using hm
        obtain rfl : c = '\n' := by simpa using hc
        have hone : ('\n').utf8Size = 1 := rfl
        refine ⟨hlo, by omega, Span.slice?_eq_some_iff.mpr ⟨before, rest, hsource, hoffset, ?_⟩⟩
        simp [hoffset, hone]
    · obtain ⟨h1, h2, h3⟩ := hmark mark hm
      exact ⟨h1, by omega, h3⟩
  | @comment offset lineEnd comment rest tokens hcomment next ih =>
    refine @ih lo (before ++ comment) (by simpa using hsource) (by simp [hoffset]) (by omega) ?_
    intro mark hm
    obtain ⟨h1, h2, h3⟩ := hmark mark hm
    exact ⟨h1, by omega, h3⟩
  | @token offset lineEnd lexeme rest tokens kind hblank hcomment hscan next ih =>
    refine ⟨?_, hlo, hmark, ?_⟩
    · refine Span.slice?_eq_some_iff.mpr ⟨before, rest, by simpa using hsource, hoffset, ?_⟩
      simp [hoffset]
    · exact @ih _ (before ++ lexeme) (by simpa using hsource) (by simp [hoffset]) (by simp)
        (fun _ h => nomatch h)

theorem row_of_list {source : List Char} {tokens : List Token} (h : list source = .ok tokens) :
    Row source (size (source.take (markSize source))) tokens :=
  (lexes_of_listFrom h).row (List.take_append_drop _ _).symm rfl (Nat.le_refl _) nofun

def endOf : Nat → List Token → Nat
  | lo, [] => lo
  | _, t :: ts => endOf t.span.stop ts

theorem row_append {source : List Char} {lo : Nat} {as bs : List Token} :
    Row source lo (as ++ bs) ↔ Row source lo as ∧ Row source (endOf lo as) bs := by
  induction as generalizing lo with
  | nil => simp [Row, endOf]
  | cons a as ih => simp only [List.cons_append, Row, endOf, ih, and_assoc]

theorem Row.le_endOf {source : List Char} {lo : Nat} {ts : List Token} (h : Row source lo ts) :
    lo ≤ endOf lo ts := by
  induction ts generalizing lo with
  | nil => exact Nat.le_refl _
  | cons t ts ih =>
    obtain ⟨hsits, hlo, -, hrest⟩ := h
    have := hsits.start_le_stop
    have := ih hrest
    rw [endOf]
    omega

theorem Row.sits {source : List Char} {lo : Nat} {ts : List Token} {t : Token}
    (h : Row source lo ts) (ht : t ∈ ts) : t.Sits source := by
  induction ts generalizing lo with
  | nil => cases ht
  | cons u ts ih =>
    rcases List.mem_cons.mp ht with rfl | ht
    · exact h.1
    · exact ih h.2.2.2 ht

end SentinelWrap.Go.Token
