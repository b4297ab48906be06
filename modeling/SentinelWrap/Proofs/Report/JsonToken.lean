import Mathlib.Tactic.Common
import Mathlib.Tactic.IntervalCases
import SentinelWrap.Report.JsonValue
import SentinelWrap.Text.Hex

/-! The tokens of a JSON text. Blanks may stand between any two of them, and characters of strings may
be escaped in any of the ways there are; what is written for a string, a number or a truth value is
read as one token. -/
namespace SentinelWrap.JsonText
open JsonValue (escapeChar)

/-- The character that a code unit stands for. The first unit of a pair needs the second one. -/
def codeUnit? (cs : List Char) : Option (Char × List Char) := do
  let (unit, rest) ← Text.hexNumber? 4 cs
  match Text.scalar? unit, rest with
  | some c, rest => return (c, rest)
  | none, '\\' :: 'u' :: rest =>
    let (next, rest) ← Text.hexNumber? 4 rest
    if 0xd800 ≤ unit && unit < 0xdc00 && 0xdc00 ≤ next && next < 0xe000 then
      return (Char.ofNat (0x10000 + (unit - 0xd800) * 0x400 + (next - 0xdc00)), rest)
    else none
  | none, _ => none

def escaped? : List Char → Option (Char × List Char)
  | '"' :: rest => some ('"', rest)
  | '\\' :: rest => some ('\\', rest)
  | '/' :: rest => some ('/', rest)
  | 'b' :: rest => some ('\x08', rest)
  | 'f' :: rest => some ('\x0c', rest)
  | 'n' :: rest => some ('\n', rest)
  | 'r' :: rest => some ('\r', rest)
  | 't' :: rest => some ('\t', rest)
  | 'u' :: rest => codeUnit? rest
  | _ => none

private theorem suffix_of_hexNumber? {n count : Nat} {cs rest : List Char}
    (h : Text.hexNumber? count cs = some (n, rest)) : rest <:+ cs := by
  simp only [Text.hexNumber?] at h
  split at h
  · obtain ⟨values, -, h⟩ := Option.bind_eq_some_iff.mp h
    obtain rfl := (Prod.mk.inj (Option.some.inj h)).2
    exact List.drop_suffix count cs
  · cases h

private theorem suffix_of_codeUnit? {c : Char} {cs rest : List Char}
    (h : codeUnit? cs = some (c, rest)) :
    rest <:+ cs := by
  obtain ⟨⟨unit, after⟩, hunit, h⟩ := Option.bind_eq_some_iff.mp h
  have hafter := suffix_of_hexNumber? hunit
  dsimp only at h
  split at h
  · obtain rfl := (Prod.mk.inj (Option.some.inj h)).2
    exact hafter
  · obtain ⟨⟨next, last⟩, hnext, h⟩ := Option.bind_eq_some_iff.mp h
    split_ifs at h
    obtain rfl := (Prod.mk.inj (Option.some.inj h)).2
    exact (suffix_of_hexNumber? hnext).trans
      (((List.suffix_cons _ _).trans (List.suffix_cons _ _)).trans hafter)
  · cases h

theorem length_of_escaped? {c : Char} {cs rest : List Char} (h : escaped? cs = some (c, rest)) :
    rest.length < cs.length := by
  cases cs with
  | nil => cases h
  | cons d cs =>
    have hsuffix : rest <:+ cs := by
      unfold escaped? at h
      split at h
      case h_9 heq =>
        obtain rfl := (List.cons.inj heq).2
        exact suffix_of_codeUnit? h
      case h_10 => cases h
      all_goals
        next heq =>
          obtain rfl := (List.cons.inj heq).2
          obtain rfl := (Prod.mk.inj (Option.some.inj h)).2
          exact List.suffix_rfl
    exact Nat.lt_succ_of_le hsuffix.length_le

def string? (cs : List Char) : Option (List Char × List Char) :=
  match cs with
  | [] => none
  | c :: rest =>
    if c = '"' then some ([], rest)
    else if c = '\\' then
      match _h : escaped? rest with
      | some (c, after) => (string? after).map fun (text, after) => (c :: text, after)
      | none => none
    else if c.toNat < 0x20 then none
    else (string? rest).map fun (text, after) => (c :: text, after)
termination_by cs.length
decreasing_by
  · have := length_of_escaped? _h
    simp only [List.length_cons]
    omega
  · simp

theorem length_of_string? {cs text rest : List Char} (h : string? cs = some (text, rest)) :
    rest.length < cs.length := by
  fun_induction string? cs generalizing text with
  | case1 => cases h
  | case2 rest' =>
    obtain rfl := (Prod.mk.inj (Option.some.inj h)).2
    simp
  | case3 rest' c after hescaped _ ih =>
    obtain ⟨⟨more, last⟩, hmore, h⟩ := Option.map_eq_some_iff.mp h
    obtain rfl := (Prod.mk.inj h).2
    have hlast := ih hmore
    have hafter := length_of_escaped? hescaped
    simp only [List.length_cons]
    omega
  | case4 => cases h
  | case5 => cases h
  | case6 c rest' _ _ _ ih =>
    obtain ⟨⟨more, last⟩, hmore, h⟩ := Option.map_eq_some_iff.mp h
    obtain rfl := (Prod.mk.inj h).2
    exact Nat.lt_succ_of_lt (ih hmore)

inductive Token
  | openArray
  | closeArray
  | openObject
  | closeObject
  | comma
  | colon
  | bool (value : Bool)
  | number (value : Nat)
  | string (text : String)
deriving DecidableEq, Repr

def isBlank (c : Char) : Bool := c == ' ' || c == '\t' || c == '\n' || c == '\r'

def mark? : Char → Option Token
  | '[' => some .openArray
  | ']' => some .closeArray
  | '\x7b' => some .openObject
  | '\x7d' => some .closeObject
  | ',' => some .comma
  | ':' => some .colon
  | _ => none

/-- The number that a digit begins. Only zero begins with a zero. -/
def numberFrom (digit : Char) (rest : List Char) : Token × List Char :=
  if digit = '0' then (.number 0, rest)
  else
    (.number (Nat.ofDigitChars 10 (digit :: rest.takeWhile Char.isDigit) 0),
      rest.dropWhile Char.isDigit)

def truth? : List Char → Option (Token × List Char)
  | 't' :: 'r' :: 'u' :: 'e' :: rest => some (.bool true, rest)
  | 'f' :: 'a' :: 'l' :: 's' :: 'e' :: rest => some (.bool false, rest)
  | _ => none

def token? : List Char → Option (Token × List Char)
  | [] => none
  | c :: rest =>
    if c = '"' then (string? rest).map fun (text, after) => (.string (String.ofList text), after)
    else if c.isDigit then some (numberFrom c rest)
    else
      match mark? c with
      | some mark => some (mark, rest)
      | none => truth? (c :: rest)

private theorem suffix_numberFrom (c : Char) (cs : List Char) : (numberFrom c cs).2 <:+ cs := by
  unfold numberFrom
  split_ifs
  · exact List.suffix_rfl
  · exact cs.dropWhile_suffix _

private theorem suffix_of_truth? {token : Token} {c : Char} {cs rest : List Char}
    (h : truth? (c :: cs) = some (token, rest)) : rest <:+ cs := by
  unfold truth? at h
  split at h
  · next heq =>
    obtain rfl := (List.cons.inj heq).2
    obtain rfl := (Prod.mk.inj (Option.some.inj h)).2
    exact List.suffix_append ['r', 'u', 'e'] _
  · next heq =>
    obtain rfl := (List.cons.inj heq).2
    obtain rfl := (Prod.mk.inj (Option.some.inj h)).2
    exact List.suffix_append ['a', 'l', 's', 'e'] _
  · cases h

theorem length_of_token? {token : Token} {cs rest : List Char} (h : token? cs = some (token, rest)) :
    rest.length < cs.length := by
  cases cs with
  | nil => cases h
  | cons c cs =>
    refine Nat.lt_succ_of_le ?_
    simp only [token?] at h
    split_ifs at h
    · obtain ⟨⟨text, after⟩, htext, h⟩ := Option.map_eq_some_iff.mp h
      obtain rfl := (Prod.mk.inj h).2
      exact (length_of_string? htext).le
    · obtain rfl : (numberFrom c cs).2 = rest := congrArg Prod.snd (Option.some.inj h)
      exact (suffix_numberFrom c cs).length_le
    · split at h
      · exact (Prod.mk.inj (Option.some.inj h)).2 ▸ Nat.le_refl _
      · exact (suffix_of_truth? h).length_le

def tokens? (cs : List Char) : Option (List Token) :=
  match cs with
  | [] => some []
  | c :: rest =>
    if isBlank c then tokens? rest
    else
      match _h : token? (c :: rest) with
      | some (token, after) => (tokens? after).map (token :: ·)
      | none => none
termination_by cs.length
decreasing_by
  · simp
  · exact length_of_token? _h

private theorem hexNumber?_control {n : Nat} (h : n < 0x20) (rest : List Char) :
    Text.hexNumber? 4 ('0' :: '0' :: Nat.digitChar (n / 16) :: Nat.digitChar (n % 16) :: rest) =
      some (n, rest) := by
  interval_cases n <;> rfl

theorem escaped?_control {c : Char} (h : c.toNat < 0x20) (rest : List Char) :
    escaped? ('u' :: '0' :: '0' :: Nat.digitChar (c.toNat / 16) :: Nat.digitChar (c.toNat % 16) ::
      rest) = some (c, rest) := by
  have hscalar : Text.scalar? c.toNat = some c := by
    rw [Text.scalar?, if_pos (show c.toNat.isValidChar from c.valid), Char.ofNat_toNat]
  simp [escaped?, codeUnit?, hexNumber?_control h, hscalar]

theorem string?_escaped {c : Char} {cs rest : List Char} (h : escaped? cs = some (c, rest)) :
    string? ('\\' :: cs) = (string? rest).map fun (text, after) => (c :: text, after) := by
  rw [string?, if_neg (by decide), if_pos rfl]
  split
  · next heq =>
    rw [h] at heq
    cases heq
    rfl
  · next heq => rw [h] at heq; cases heq

/-- A character is read as it was written. -/
theorem string?_escapeChar (c : Char) (rest : List Char) :
    string? (escapeChar c ++ rest) =
      (string? rest).map fun (text, after) => (c :: text, after) := by
  unfold escapeChar
  split
  case h_8 c hquote hslash _ _ _ _ _ =>
    split_ifs with hcontrol
    · exact string?_escaped (escaped?_control hcontrol rest)
    · rw [List.singleton_append, string?, if_neg hquote, if_neg hslash, if_neg hcontrol]
  all_goals exact string?_escaped rfl

theorem string?_flatMap_escapeChar (text rest : List Char) :
    string? (text.flatMap escapeChar ++ '"' :: rest) = some (text, rest) := by
  induction text with
  | nil => simp [string?]
  | cons c text ih => rw [List.flatMap_cons, List.append_assoc, string?_escapeChar, ih]; rfl

theorem isDigit_of_isBlank {c : Char} (h : isBlank c = true) : c.isDigit = false := by
  simp only [isBlank, Bool.or_eq_true, beq_iff_eq] at h
  rcases h with ((rfl | rfl) | rfl) | rfl <;> decide

theorem isBlank_of_token? {token : Token} {c : Char} {cs rest : List Char}
    (h : token? (c :: cs) = some (token, rest)) : isBlank c = false := by
  rw [← Bool.not_eq_true]
  intro hblank
  simp only [isBlank, Bool.or_eq_true, beq_iff_eq] at hblank
  rcases hblank with ((rfl | rfl) | rfl) | rfl <;> cases h

theorem tokens?_of_token? {token : Token} {cs rest : List Char} (h : token? cs = some (token, rest)) :
    tokens? cs = (tokens? rest).map (token :: ·) := by
  cases cs with
  | nil => cases h
  | cons c cs =>
    rw [tokens?, if_neg (by simp [isBlank_of_token? h])]
    split
    · next heq =>
      rw [h] at heq
      cases heq
      rfl
    · next heq => rw [h] at heq; cases heq

theorem tokens?_append_of_blank {blanks : List Char} (h : blanks.all isBlank = true)
    (rest : List Char) : tokens? (blanks ++ rest) = tokens? rest := by
  induction blanks with
  | nil => rfl
  | cons c blanks ih =>
    rw [List.all_cons, Bool.and_eq_true] at h
    rw [List.cons_append, tokens?, if_pos h.1, ih h.2]

private theorem head?_toDigits {n : Nat} (h : 0 < n) : (Nat.toDigits 10 n).head? ≠ some '0' := by
  induction n using Nat.strongRecOn with
  | ind n ih =>
    by_cases hlt : n < 10
    · rw [Nat.toDigits_of_lt_base hlt]
      simpa using h.ne'
    · rw [Nat.toDigits_of_base_le (by decide) (by omega)]
      obtain ⟨d, ds, hds⟩ := List.exists_cons_of_ne_nil (@Nat.toDigits_ne_nil (n / 10) 10)
      have hhead := ih (n / 10) (by omega) (by omega)
      rw [hds] at hhead ⊢
      exact hhead

/-- A number is read to its end, if no further digit follows. -/
theorem token?_toDigits (n : Nat) {rest : List Char} (h : ∀ c ∈ rest.head?, c.isDigit = false) :
    token? (Nat.toDigits 10 n ++ rest) = some (.number n, rest) := by
  have hdigits : ∀ c ∈ Nat.toDigits 10 n, c.isDigit = true := fun c =>
    Nat.isDigit_of_mem_toDigits (by decide) (by decide)
  have hrest : rest.takeWhile Char.isDigit = [] ∧ rest.dropWhile Char.isDigit = rest := by
    cases rest with
    | nil => exact ⟨rfl, rfl⟩
    | cons c rest => simp [h c rfl]
  obtain ⟨d, ds, hds⟩ := List.exists_cons_of_ne_nil (@Nat.toDigits_ne_nil n 10)
  have hvalue : Nat.ofDigitChars 10 (d :: ds) 0 = n := hds ▸ Nat.ofDigitChars_ten_toDigits
  rw [hds, List.forall_mem_cons] at hdigits
  have hquote : d ≠ '"' := by rintro rfl; exact absurd hdigits.1 (by decide)
  rw [hds, List.cons_append, token?, if_neg hquote, if_pos hdigits.1, numberFrom]
  split_ifs with hzero
  · -- No other number is written with a zero in front.
    have hn : n = 0 := by
      by_contra hn
      exact head?_toDigits (Nat.pos_of_ne_zero hn) (by rw [hds, hzero]; rfl)
    subst hn
    obtain rfl : ds = [] := by simpa using (List.cons.inj hds).2.symm
    rfl
  · rw [List.takeWhile_append_of_pos hdigits.2, List.dropWhile_append_of_pos hdigits.2, hrest.1,
      hrest.2, List.append_nil, hvalue]

/-- A text is made of some tokens, whatever follows it that is no further digit. -/
def Spells (text : String) (tokens : List Token) : Prop :=
  ∀ rest : List Char, (∀ c ∈ rest.head?, c.isDigit = false) →
    tokens? (text.toList ++ rest) = (tokens? rest).map (tokens ++ ·)

namespace Spells
variable {text : String} {tokens : List Token}

/-- In front of a text, a token that ends where its own text does, whatever follows. -/
theorem cons {front : String} {token : Token}
    (hfront : ∀ rest, token? (front.toList ++ rest) = some (token, rest)) (h : Spells text tokens) :
    Spells (front ++ text) (token :: tokens) := by
  intro rest hrest
  rw [String.toList_append, List.append_assoc, tokens?_of_token? (hfront _), h rest hrest,
    Option.map_map]
  rfl

theorem blanks {front : String} (hfront : front.toList.all isBlank = true) (h : Spells text tokens) :
    Spells (front ++ text) tokens := by
  intro rest hrest
  rw [String.toList_append, List.append_assoc, tokens?_append_of_blank hfront, h rest hrest]

theorem append {next : String} {more : List Token} (h : Spells text tokens) (hnext : Spells next more)
    (hseam : ∃ c cs, next.toList = c :: cs ∧ c.isDigit = false) :
    Spells (text ++ next) (tokens ++ more) := by
  intro rest hrest
  obtain ⟨c, cs, hcs, hc⟩ := hseam
  have hhead : ∀ d ∈ (next.toList ++ rest).head?, d.isDigit = false := by simp [hcs, hc]
  rw [String.toList_append, List.append_assoc, h _ hhead, hnext rest hrest, Option.map_map]
  simp [Function.comp_def]

theorem nil : Spells "" [] := by
  intro rest _
  simp

theorem number (n : Nat) : Spells (toString n) [.number n] := by
  intro rest hrest
  rw [Nat.toString_eq_ofList_toDigits, String.toList_ofList,
    tokens?_of_token? (token?_toDigits n hrest)]
  rfl

theorem single {token : Token}
    (h : ∀ rest, token? (text.toList ++ rest) = some (token, rest)) : Spells text [token] := by
  simpa using cons h nil

end Spells

theorem token?_quote (text : String) (rest : List Char) :
    token? ((JsonValue.quote text).toList ++ rest) = some (.string text, rest) := by
  rw [JsonValue.quote, String.toList_ofList, List.cons_append, List.cons_append, token?, if_pos rfl,
    List.append_assoc, List.singleton_append, string?_flatMap_escapeChar]
  simp

end SentinelWrap.JsonText
