/-! Texts cut at separators and put together again. -/
namespace SentinelWrap.Text

/-- The pieces between the separators; a text without one is a single piece. -/
def split (isSeparator : Char → Bool) : List Char → List (List Char)
  | [] => [[]]
  | c :: cs =>
    if isSeparator c then [] :: split isSeparator cs
    else
      match split isSeparator cs with
      | [] => [[c]]
      | piece :: pieces => (c :: piece) :: pieces

def join (separator : List Char) : List (List Char) → List Char
  | [] => []
  | [piece] => piece
  | piece :: pieces => piece ++ separator ++ join separator pieces

/-- A text without the characters of a kind at its end. -/
def trimEnd (p : Char → Bool) (cs : List Char) : List Char := (cs.reverse.dropWhile p).reverse

theorem split_ne_nil (p : Char → Bool) (cs : List Char) : split p cs ≠ [] := by
  induction cs with
  | nil => simp [split]
  | cons c cs ih =>
    simp only [split]
    split
    · simp
    · split <;> simp

/-- Cutting at a character and joining with it gives the text back. -/
theorem join_split (sep : Char) (cs : List Char) : join [sep] (split (· == sep) cs) = cs := by
  induction cs with
  | nil => rfl
  | cons c cs ih =>
    simp only [split]
    split
    next h =>
      have hc : c = sep := by simpa using h
      cases hs : split (· == sep) cs with
      | nil => exact absurd hs (split_ne_nil _ _)
      | cons p ps => rw [hs] at ih; simp [join, ih, hc]
    next h =>
      cases hs : split (· == sep) cs with
      | nil => exact absurd hs (split_ne_nil _ _)
      | cons p ps =>
        rw [hs] at ih
        cases ps <;> simp_all [join]

end SentinelWrap.Text
