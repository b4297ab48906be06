import SentinelWrap.Proofs.Go.Token.Scan

/-! How far scans look ahead. What follows a lexeme may be exchanged as long as both texts begin with
something that no lexeme of its class goes on with. -/
namespace SentinelWrap.Go
open Text.Identifier (isStart isContinue)

/-- The text is empty or begins with another character. -/
def Stops (q : Char → Bool) (r : List Char) : Prop := ∀ c ∈ r.head?, q c = false

@[simp] theorem stops_nil (q : Char → Bool) : Stops q [] := nofun

@[simp] theorem stops_cons {q : Char → Bool} {c : Char} {r : List Char} :
    Stops q (c :: r) ↔ q c = false := by
  simp [Stops]

namespace Scan

/-- The scan does not look past a character that it cannot take. -/
def Blind (q : Char → Bool) (s : Scan) : Prop :=
  ∀ x r r', Stops q r → Stops q r' →
    s (x ++ r) = s (x ++ r') ∧ ∀ n, s (x ++ r) = some n → n ≤ x.length

variable {q : Char → Bool} {s t : Scan}

theorem blind_one {p : Char → Bool} (h : ∀ c, p c = true → q c = true) : Blind q (one p) := by
  have hstop {r : List Char} (hr : Stops q r) : one p r = none := by
    cases r with
    | nil => rfl
    | cons c r =>
      have hp : p c = false := by
        by_contra hp
        have hq := h c (by simpa using hp)
        rw [stops_cons.mp hr] at hq
        cases hq
      simp [one, hp]
  intro x r r' hr hr'
  cases x with
  | nil => simp [hstop hr, hstop hr']
  | cons c x =>
    refine ⟨rfl, fun n hn => ?_⟩
    simp only [List.cons_append, one, Option.ite_none_right_eq_some, Option.some.injEq] at hn
    simp [← hn.2]

theorem blind_char {c : Char} (h : q c = true) : Blind q (char c) := by
  refine blind_one fun d hd => ?_
  obtain rfl : d = c := by simpa using hd
  exact h

theorem Blind.andThen (hs : Blind q s) (ht : Blind q t) : Blind q (s.andThen t) := by
  intro x r r' hr hr'
  obtain ⟨heq, hle⟩ := hs x r r' hr hr'
  simp only [Scan.andThen, ← heq]
  cases hn : s (x ++ r) with
  | none => exact ⟨rfl, by rintro n ⟨⟩⟩
  | some n =>
    have hn := hle n hn
    obtain ⟨heq', hle'⟩ := ht (x.drop n) r r' hr hr'
    simp only [Option.bind_eq_bind, Option.bind_some, List.drop_append_of_le_length hn, ← heq']
    refine ⟨trivial, fun k hk => ?_⟩
    obtain ⟨m, hm, rfl⟩ : ∃ m, t (x.drop n ++ r) = some m ∧ n + m = k := by
      simpa [Option.bind_eq_some_iff] using hk
    have := hle' m hm
    rw [List.length_drop] at this
    omega

theorem blind_all {ss : List Scan} (h : ∀ s ∈ ss, Blind q s) : Blind q (all ss) := by
  induction ss with
  | nil =>
    rintro x r r' - -
    refine ⟨rfl, fun n hn => ?_⟩
    obtain rfl : 0 = n := Option.some.inj hn
    exact Nat.zero_le _
  | cons s ss ih =>
    obtain ⟨hs, hss⟩ := List.forall_mem_cons.mp h
    exact hs.andThen (ih hss)

theorem Blind.opt (hs : Blind q s) : Blind q (opt s) := by
  intro x r r' hr hr'
  obtain ⟨heq, hle⟩ := hs x r r' hr hr'
  refine ⟨by rw [Scan.opt, Scan.opt, heq], fun n hn => ?_⟩
  obtain rfl : (s (x ++ r)).getD 0 = n := Option.some.inj hn
  cases hm : s (x ++ r) with
  | none => exact Nat.zero_le _
  | some m => exact hle m hm

theorem blind_longest {ss : List Scan} (h : ∀ s ∈ ss, Blind q s) : Blind q (longest ss) := by
  intro x r r' hr hr'
  have hfold (best : Option Nat) (hbest : ∀ n, best = some n → n ≤ x.length) :
      ss.foldl (fun best s => longer best (s (x ++ r))) best =
        ss.foldl (fun best s => longer best (s (x ++ r'))) best ∧
      ∀ n, ss.foldl (fun best s => longer best (s (x ++ r))) best = some n → n ≤ x.length := by
    induction ss generalizing best with
    | nil => exact ⟨rfl, hbest⟩
    | cons s ss ih =>
      obtain ⟨hs, hss⟩ := List.forall_mem_cons.mp h
      obtain ⟨heq, hle⟩ := hs x r r' hr hr'
      simp only [List.foldl_cons, ← heq]
      exact ih hss _ fun n hn => (longer_eq_some hn).elim (hbest n) (hle n)
  exact hfold none nofun

theorem digitsTail_cons {p : Char → Bool} {c : Char} (h : c ≠ '_') (cs : List Char) :
    digitsTail p (c :: cs) = if p c then digitsTail p cs + 1 else 0 := by
  rw [digitsTail]
  intro d ds heq
  exact absurd heq h

section
variable {p : Char → Bool} (hp : ∀ c, p c = true → q c = true) (hline : p '_' = false)
  (hlow : q '_' = true)
include hp

theorem eq_false_of_not {c : Char} (hc : q c = false) : p c = false := by
  by_contra h
  have hq := hp c (by simpa using h)
  rw [hc] at hq
  cases hq

include hlow in
private theorem digitsTail_of_stops {r : List Char} (hr : Stops q r) : digitsTail p r = 0 := by
  cases r with
  | nil => rfl
  | cons c r =>
    have hc := stops_cons.mp hr
    have hne : c ≠ '_' := by
      rintro rfl
      rw [hlow] at hc
      cases hc
    rw [digitsTail_cons hne, eq_false_of_not hp hc]
    rfl

include hline in
private theorem digitsTail_low {r : List Char} (hr : Stops q r) : digitsTail p ('_' :: r) = 0 := by
  cases r with
  | nil => simp [digitsTail, hline]
  | cons c r => simp [digitsTail, eq_false_of_not hp (stops_cons.mp hr)]

include hline hlow

private theorem digitsTail_append {r r' : List Char} (hr : Stops q r) (hr' : Stops q r')
    (x : List Char) :
    digitsTail p (x ++ r) = digitsTail p (x ++ r') ∧ digitsTail p (x ++ r) ≤ x.length := by
  have hstop {r : List Char} (hr : Stops q r) : digitsTail p r = 0 :=
    digitsTail_of_stops hp hlow hr
  have hlowStop {r : List Char} (hr : Stops q r) : digitsTail p ('_' :: r) = 0 :=
    digitsTail_low hp hline hr
  induction hlength : x.length using Nat.strongRecOn generalizing x with
  | ind n ih =>
    match x with
    | [] => simp [hstop hr, hstop hr']
    | [c] =>
      by_cases hc : c = '_'
      · subst hc
        simp [hlowStop hr, hlowStop hr']
      · simp only [List.cons_append, List.nil_append, digitsTail_cons hc, hstop hr, hstop hr']
        refine ⟨trivial, ?_⟩
        rw [← hlength]
        split_ifs <;> simp
    | c :: d :: x =>
      simp only [List.length_cons] at hlength
      by_cases hc : c = '_'
      · subst hc
        obtain ⟨heq, hle⟩ := ih x.length (by omega) x rfl
        simp only [List.cons_append, digitsTail, ← heq]
        refine ⟨trivial, ?_⟩
        split_ifs <;> omega
      · obtain ⟨heq, hle⟩ := ih (x.length + 1) (by omega) (d :: x) rfl
        simp only [List.cons_append, digitsTail_cons hc] at heq hle ⊢
        rw [← heq]
        refine ⟨rfl, ?_⟩
        split_ifs <;> omega

theorem blind_digits : Blind q (digits p) := by
  intro x r r' hr hr'
  have hstop {r : List Char} (hr : Stops q r) : digits p r = none := by
    cases r with
    | nil => rfl
    | cons c r => simp [digits, eq_false_of_not hp (stops_cons.mp hr)]
  cases x with
  | nil => simp [hstop hr, hstop hr']
  | cons c x =>
    obtain ⟨heq, hle⟩ := digitsTail_append hp hline hlow hr hr' x
    simp only [List.cons_append, digits, heq]
    refine ⟨trivial, fun n hn => ?_⟩
    simp only [Option.ite_none_right_eq_some, Option.some.injEq] at hn
    rw [← hn.2, List.length_cons]
    omega

end

/-- The scan finds nothing that begins with another character. -/
def Needs (p : Char → Bool) (s : Scan) : Prop := ∀ c cs, p c = false → s (c :: cs) = none

section
variable {p : Char → Bool}

theorem needs_one {p' : Char → Bool} (h : ∀ c, p' c = true → p c = true) : Needs p (one p') :=
  fun c cs hc => by simp [one, eq_false_of_not h hc]

theorem needs_digits {p' : Char → Bool} (h : ∀ c, p' c = true → p c = true) : Needs p (digits p') :=
  fun c cs hc => by simp [digits, eq_false_of_not h hc]

theorem Needs.all {s : Scan} (h : Needs p s) (ss : List Scan) : Needs p (all (s :: ss)) :=
  fun c cs hc => by simp [Scan.all, Scan.andThen, h c cs hc]

theorem needs_longest {ss : List Scan} (h : ∀ s ∈ ss, Needs p s) : Needs p (longest ss) := by
  intro c cs hc
  unfold longest
  induction ss with
  | nil => rfl
  | cons s ss ih =>
    obtain ⟨hs, hss⟩ := List.forall_mem_cons.mp h
    simpa [hs c cs hc, longer] using ih hss

end

def Positive (s : Scan) : Prop := ∀ cs, s cs ≠ some 0

theorem positive_one (p : Char → Bool) : Positive (one p) := by
  intro cs
  cases cs <;> simp [one]

theorem positive_digits (p : Char → Bool) : Positive (digits p) := by
  intro cs
  cases cs <;> simp [digits]

theorem Positive.all {s : Scan} (h : Positive s) (ss : List Scan) : Positive (all (s :: ss)) := by
  intro cs hzero
  obtain ⟨n, hn, m, -, hsum⟩ : ∃ n, s cs = some n ∧ ∃ m, Scan.all ss (cs.drop n) = some m ∧
      n + m = 0 := by
    simpa [Scan.all, Scan.andThen, Option.bind_eq_some_iff] using hzero
  obtain rfl : n = 0 := by omega
  exact h cs hn

theorem positive_longest {ss : List Scan} (h : ∀ s ∈ ss, Positive s) : Positive (longest ss) := by
  intro cs
  unfold longest
  have hbest : (none : Option Nat) ≠ some 0 := nofun
  generalize (none : Option Nat) = best at hbest
  induction ss generalizing best with
  | nil => exact hbest
  | cons s ss ih =>
    obtain ⟨hs, hss⟩ := List.forall_mem_cons.mp h
    exact ih hss _ fun hzero => (longer_eq_some hzero).elim hbest (hs cs)

end Scan

namespace Number
open Scan

def isNumeric (c : Char) : Bool :=
  isHex c || ['x', 'X', 'o', 'O', 'p', 'P', 'i', '_', '.', '+', '-'].contains c

theorem isNumeric_of_isHex {c : Char} (h : isHex c = true) : isNumeric c = true := by
  simp [isNumeric, h]

theorem isNumeric_of_isDigit {c : Char} (h : c.isDigit = true) : isNumeric c = true :=
  isNumeric_of_isHex (by simp [isHex, h])

theorem blind_letter {c : Char} (h : isNumeric c = true) (h' : isNumeric c.toUpper = true) :
    Blind isNumeric (letter c) := by
  refine blind_one fun d hd => ?_
  simp only [Bool.or_eq_true, beq_iff_eq] at hd
  rcases hd with rfl | rfl
  · exact h
  · exact h'

theorem blind_decimals : Blind isNumeric decimals :=
  blind_digits (fun _ => isNumeric_of_isDigit) rfl rfl

theorem blind_hexes : Blind isNumeric hexes := blind_digits (fun _ => isNumeric_of_isHex) rfl rfl

theorem blind_lowLine : Blind isNumeric lowLine := (blind_char rfl).opt

theorem blind_sign : Blind isNumeric sign := by
  refine (blind_one fun c hc => ?_).opt
  simp only [Bool.or_eq_true, beq_iff_eq] at hc
  rcases hc with rfl | rfl <;> rfl

theorem blind_exponent {mark : Char} (h : isNumeric mark = true)
    (h' : isNumeric mark.toUpper = true) : Blind isNumeric (exponent mark) := by
  refine blind_all ?_
  simp [blind_letter h h', blind_sign, blind_decimals]

theorem isNumeric_of_between {c lo hi : Char} (hlo : '0' ≤ lo) (hhi : hi ≤ '9')
    (h : (decide (lo ≤ c) && decide (c ≤ hi)) = true) : isNumeric c = true := by
  simp only [Bool.and_eq_true, decide_eq_true_eq] at h
  refine isNumeric_of_isDigit ?_
  have h0 : '0' ≤ c := Char.le_trans hlo h.1
  have h9 : c ≤ '9' := Char.le_trans h.2 hhi
  simp [Char.isDigit]
  exact ⟨h0, h9⟩

theorem blind_int : Blind isNumeric int := by
  have hbinary : Blind isNumeric (digits isBinary) := by
    refine blind_digits (fun c hc => ?_) rfl rfl
    simp only [isBinary, Bool.or_eq_true, beq_iff_eq] at hc
    rcases hc with rfl | rfl <;> rfl
  have hoctal : Blind isNumeric (digits isOctal) :=
    blind_digits (fun c hc => isNumeric_of_between (by decide) (by decide) hc) rfl rfl
  have hfirst : Blind isNumeric (one fun c => '1' ≤ c && c ≤ '9') :=
    blind_one fun c hc => isNumeric_of_between (by decide) (by decide) hc
  have hzero : Blind isNumeric (char '0') := blind_char rfl
  refine blind_longest ?_
  simp only [List.forall_mem_cons, List.not_mem_nil, false_imp_iff, implies_true, and_true]
  refine ⟨blind_all ?_, hzero, blind_all ?_, blind_all ?_, blind_all ?_⟩ <;>
    simp only [List.forall_mem_cons, List.not_mem_nil, false_imp_iff, implies_true, and_true]
  · exact ⟨hzero, blind_letter rfl rfl, blind_lowLine, hbinary⟩
  · exact ⟨hfirst, (blind_all (by simp [blind_lowLine, blind_decimals])).opt⟩
  · exact ⟨hzero, (blind_letter rfl rfl).opt, blind_lowLine, hoctal⟩
  · exact ⟨hzero, blind_letter rfl rfl, blind_lowLine, blind_hexes⟩

theorem blind_float : Blind isNumeric float := by
  have hzero : Blind isNumeric (char '0') := blind_char rfl
  have hdot : Blind isNumeric (char '.') := blind_char rfl
  have hx : Blind isNumeric (letter 'x') := blind_letter rfl rfl
  have he : Blind isNumeric (exponent 'e') := blind_exponent rfl rfl
  have hp : Blind isNumeric (exponent 'p') := blind_exponent rfl rfl
  refine blind_longest ?_
  simp only [List.forall_mem_cons, List.not_mem_nil, false_imp_iff, implies_true, and_true]
  refine ⟨blind_all ?_, blind_all ?_, blind_all ?_, blind_all ?_, blind_all ?_, blind_all ?_⟩ <;>
    simp [hzero, hdot, hx, he, hp, he.opt, blind_decimals, blind_decimals.opt, blind_hexes,
      blind_hexes.opt, blind_lowLine]

theorem blind_imaginary : Blind isNumeric imaginary := by
  have hi : Blind isNumeric (char 'i') := blind_char rfl
  have hnumber : Blind isNumeric (longest [decimals, int, float]) :=
    blind_longest (by simp [blind_decimals, blind_int, blind_float])
  exact blind_all (by simp [hi, hnumber])

def isFirst (c : Char) : Bool := c.isDigit || c == '.'

theorem needs_char {c : Char} (h : isFirst c = true) : Needs isFirst (char c) := by
  refine needs_one fun d hd => ?_
  obtain rfl : d = c := by simpa using hd
  exact h

theorem needs_decimals : Needs isFirst decimals := needs_digits fun c hc => by simp [isFirst, hc]

theorem needs_int : Needs isFirst int := by
  have hzero : Needs isFirst (char '0') := needs_char rfl
  have hfirst : Needs isFirst (one fun c => '1' ≤ c && c ≤ '9') := by
    refine needs_one fun c hc => ?_
    simp only [Bool.and_eq_true, decide_eq_true_eq] at hc
    have h0 : '0' ≤ c := Char.le_trans (by decide) hc.1
    have hdigit : c.isDigit = true := by
      simp only [Char.isDigit, Bool.and_eq_true, decide_eq_true_eq]
      exact ⟨h0, hc.2⟩
    simp [isFirst, hdigit]
  exact needs_longest (by simp [hzero, hzero.all, hfirst.all])

theorem needs_float : Needs isFirst float := by
  have hzero : Needs isFirst (char '0') := needs_char rfl
  have hdot : Needs isFirst (char '.') := needs_char rfl
  exact needs_longest (by simp [hzero.all, hdot.all, needs_decimals.all])

theorem needs_imaginary : Needs isFirst imaginary :=
  (needs_longest (by simp [needs_decimals, needs_int, needs_float])).all _

theorem positive_int : Positive int := by
  have hone (p : Char → Bool) (ss : List Scan) := (positive_one p).all ss
  exact positive_longest (by simp [char, positive_one, hone])

theorem positive_float : Positive float := by
  have hone (p : Char → Bool) (ss : List Scan) := (positive_one p).all ss
  have hdecimals (ss : List Scan) := (positive_digits Char.isDigit).all ss
  exact positive_longest (by simp [char, decimals, hone, hdecimals])

theorem positive_imaginary : Positive imaginary :=
  (positive_longest (by
    simp [decimals, positive_digits, positive_int, positive_float])).all _

end Number

namespace Quoted
open Number (isHex isOctal)

/-- What stands after the opening quote of an interpreted string. -/
inductive StringBody : List Char → Prop
  | close : StringBody ['"']
  | hex {a b : Char} {u : List Char} (h : [a, b].all isHex = true) (later : StringBody u) :
    StringBody ('\\' :: 'x' :: a :: b :: u)
  | short {a b c d : Char} {u : List Char} (h : [a, b, c, d].all isHex = true)
    (later : StringBody u) : StringBody ('\\' :: 'u' :: a :: b :: c :: d :: u)
  | long {a b c d e f g h : Char} {u : List Char} (hall : [a, b, c, d, e, f, g, h].all isHex = true)
    (later : StringBody u) :
    StringBody ('\\' :: 'U' :: a :: b :: c :: d :: e :: f :: g :: h :: u)
  | escape {c : Char} {u : List Char} (hc : c ≠ 'x' ∧ c ≠ 'u' ∧ c ≠ 'U') (later : StringBody u) :
    StringBody ('\\' :: c :: u)
  | plain {c : Char} {u : List Char} (hc : c ≠ '"' ∧ c ≠ '\n' ∧ c ≠ '\\') (later : StringBody u) :
    StringBody (c :: u)

theorem StringBody.ne_nil {u : List Char} (h : StringBody u) : u ≠ [] := by
  cases h <;> nofun

theorem exists_body {cs : List Char} {n : Nat} (h : stringTail cs = some n) :
    ∃ u v, cs = u ++ v ∧ u.length = n ∧ StringBody u := by
  fun_induction stringTail cs generalizing n with
  | case1 cs => exact ⟨['"'], cs, rfl, Option.some.inj h, .close⟩
  | case2 | case4 | case6 | case8 | case9 | case12 => cases h
  | case3 a b cs hall ih =>
    obtain ⟨m, hm, rfl⟩ := Option.map_eq_some_iff.mp h
    obtain ⟨u, v, rfl, rfl, hu⟩ := ih hm
    exact ⟨_, v, rfl, rfl, .hex hall hu⟩
  | case5 a b c d cs hall ih =>
    obtain ⟨m, hm, rfl⟩ := Option.map_eq_some_iff.mp h
    obtain ⟨u, v, rfl, rfl, hu⟩ := ih hm
    exact ⟨_, v, rfl, rfl, .short hall hu⟩
  | case7 a b c d e f g i cs hall ih =>
    obtain ⟨m, hm, rfl⟩ := Option.map_eq_some_iff.mp h
    obtain ⟨u, v, rfl, rfl, hu⟩ := ih hm
    exact ⟨_, v, rfl, rfl, .long hall hu⟩
  | case10 c cs _ _ _ hc ih =>
    obtain ⟨m, hm, rfl⟩ := Option.map_eq_some_iff.mp h
    obtain ⟨u, v, rfl, rfl, hu⟩ := ih hm
    refine ⟨_, v, rfl, rfl, .escape ?_ hu⟩
    simpa [not_or, and_assoc] using hc
  | case11 c cs hquote hline hx hu hU hescape ih =>
    obtain ⟨m, hm, rfl⟩ := Option.map_eq_some_iff.mp h
    obtain ⟨u, v, rfl, rfl, hbody⟩ := ih hm
    refine ⟨_, v, rfl, rfl, .plain ⟨hquote, hline, ?_⟩ hbody⟩
    rintro rfl
    obtain ⟨d, w, rfl⟩ := List.exists_cons_of_ne_nil hbody.ne_nil
    exact hescape d (w ++ v) rfl rfl

theorem StringBody.stringTail_append {u : List Char} (h : StringBody u) (v : List Char) :
    stringTail (u ++ v) = some u.length := by
  induction h with
  | close => rfl
  | hex hall _ ih => simp [stringTail, hall, ih]
  | short hall _ ih => simp [stringTail, hall, ih]
  | long hall _ ih => simp [stringTail, hall, ih]
  | escape hc _ ih =>
    rw [List.cons_append, List.cons_append, stringTail, ih]
    · simp [hc]
    all_goals simp [hc]
  | plain hc _ ih =>
    rw [List.cons_append, stringTail, ih]
    · simp
    all_goals simp [hc]

/-- A string is closed by itself. -/
theorem string_append {x r : List Char} (h : string (x ++ r) = some x.length) (r' : List Char) :
    string (x ++ r') = some x.length := by
  unfold string at h
  split at h
  · rename_i cs hcs
    obtain ⟨m, hm, hlength⟩ := Option.map_eq_some_iff.mp h
    obtain ⟨u, v, rfl, rfl, hu⟩ := exists_body hm
    obtain ⟨rfl, -⟩ := List.append_inj (show x ++ r = ('"' :: u) ++ v from hcs) hlength.symm
    simp [string, hu.stringTail_append]
  · cases h

private theorem rawTail_append {u v : List Char} {n : Nat} (h : rawTail (u ++ v) = some n)
    (hn : n ≤ u.length) (v' : List Char) : rawTail (u ++ v') = some n := by
  induction u generalizing n with
  | nil =>
    obtain rfl : n = 0 := by simpa using hn
    cases v with
    | nil => cases h
    | cons c v =>
      simp only [List.nil_append, rawTail] at h
      split_ifs at h
      · cases h
      · obtain ⟨m, -, hm⟩ := Option.map_eq_some_iff.mp h
        cases hm
  | cons c u ih =>
    simp only [List.cons_append, rawTail] at h ⊢
    split_ifs at h ⊢ with hc
    · exact h
    · obtain ⟨m, hm, rfl⟩ := Option.map_eq_some_iff.mp h
      rw [ih hm (by simpa using hn)]
      rfl

theorem rawString_append {x r : List Char} (h : rawString (x ++ r) = some x.length) (r' : List Char) :
    rawString (x ++ r') = some x.length := by
  cases x with
  | nil =>
    cases r with
    | nil => cases h
    | cons c r =>
      simp only [List.nil_append, rawString, Option.ite_none_right_eq_some] at h
      obtain ⟨m, -, hm⟩ := Option.map_eq_some_iff.mp h.2
      cases hm
  | cons c x =>
    simp only [List.cons_append, rawString, Option.ite_none_right_eq_some] at h
    obtain ⟨m, hm, hlength⟩ := Option.map_eq_some_iff.mp h.2
    obtain rfl : m = x.length := by simpa using hlength
    simp [rawString, h.1, rawTail_append hm (Nat.le_refl _) r']

theorem rune_append {x r : List Char} (h : rune (x ++ r) = some x.length) (r' : List Char) :
    rune (x ++ r') = some x.length := by
  unfold rune at h
  split at h
  case h_1 c rest heq =>
    split_ifs at h with hc
    obtain ⟨rfl, -⟩ := List.append_inj (show x ++ r = ['\'', '\\', c, '\''] ++ rest from heq)
      (Option.some.inj h).symm
    simp [rune, hc]
  case h_2 a b rest hother heq =>
    split_ifs at h with hc
    obtain ⟨rfl, -⟩ := List.append_inj (show x ++ r = ['\'', '\\', 'x', a, b, '\''] ++ rest from heq)
      (Option.some.inj h).symm
    simp [rune, hc]
  case h_3 a b c rest hother hother' heq =>
    split_ifs at h with hc
    obtain ⟨rfl, -⟩ := List.append_inj (show x ++ r = ['\'', '\\', a, b, c, '\''] ++ rest from heq)
      (Option.some.inj h).symm
    simp [rune, hc]
  case h_4 a b c d rest hother hother' heq =>
    split_ifs at h with hc
    obtain ⟨rfl, -⟩ := List.append_inj
      (show x ++ r = ['\'', '\\', 'u', a, b, c, d, '\''] ++ rest from heq) (Option.some.inj h).symm
    simp [rune, hc]
  case h_5 a b c d e f g i rest hother hother' heq =>
    split_ifs at h with hc
    obtain ⟨rfl, -⟩ := List.append_inj
      (show x ++ r = ['\'', '\\', 'U', a, b, c, d, e, f, g, i, '\''] ++ rest from heq)
      (Option.some.inj h).symm
    simp [rune, hc]
  case h_6 c rest hother hother' heq =>
    split_ifs at h with hc
    obtain ⟨rfl, -⟩ := List.append_inj (show x ++ r = ['\'', c, '\''] ++ rest from heq)
      (Option.some.inj h).symm
    simp only [Bool.or_eq_true, beq_iff_eq, not_or] at hc
    simp [rune, hc]
  case h_7 => cases h

end Quoted

namespace Token
open Scan
open Number (isNumeric)

def isSignTail (c : Char) : Bool := ['^', '=', '<', '>', '.', '&', '|', '-', '+'].contains c

private theorem isPrefixOf_append_of_le {l y : List Char} (h : l.length ≤ y.length)
    (r r' : List Char) :
    l.isPrefixOf (y ++ r) = l.isPrefixOf (y ++ r') := by
  induction l generalizing y with
  | nil => simp
  | cons c l ih =>
    cases y with
    | nil => simp at h
    | cons d y => simp [List.isPrefixOf, ih (by simpa using h)]

private theorem isPrefixOf_append_of_stops {q : Char → Bool} {l y r r' : List Char}
    (hl : ∀ c ∈ l, q c = true) (hr : Stops q r) (hr' : Stops q r') :
    l.isPrefixOf (y ++ r) = l.isPrefixOf (y ++ r') := by
  have hstop {c : Char} {l r : List Char} (hc : q c = true) (hr : Stops q r) :
      (c :: l).isPrefixOf r = false := by
    cases r with
    | nil => rfl
    | cons d r =>
      have hne : c ≠ d := by
        rintro rfl
        rw [stops_cons.mp hr] at hc
        cases hc
      simp [List.isPrefixOf, hne]
  induction l generalizing y with
  | nil => simp
  | cons c l ih =>
    obtain ⟨hc, hl⟩ := List.forall_mem_cons.mp hl
    cases y with
    | nil => rw [List.nil_append, List.nil_append, hstop hc hr, hstop hc hr']
    | cons d y => simp [List.isPrefixOf, ih hl]

/-- A sign has at most three characters. -/
theorem scanSign_append {c : Char} {y r r' : List Char}
    (h : 2 ≤ y.length ∨ Stops isSignTail r ∧ Stops isSignTail r') :
    scanSign (c :: (y ++ r)) = scanSign (c :: (y ++ r')) := by
  have hsigns : signs.all (fun s => s.toList.length ≤ 3 && s.toList.tail.all isSignTail) = true := by
    decide +kernel
  simp only [List.all_eq_true, Bool.and_eq_true, decide_eq_true_eq] at hsigns
  have hfind : ∀ s ∈ signs, s.toList.isPrefixOf (c :: (y ++ r)) =
      s.toList.isPrefixOf (c :: (y ++ r')) := by
    intro s hs
    obtain ⟨hlength, htail⟩ := hsigns s hs
    cases hlist : s.toList with
    | nil => rfl
    | cons d l =>
      rw [hlist] at hlength htail
      simp only [List.length_cons] at hlength
      have hrest : l.isPrefixOf (y ++ r) = l.isPrefixOf (y ++ r') := by
        rcases h with hy | ⟨hr, hr'⟩
        · exact isPrefixOf_append_of_le (by omega) r r'
        · exact isPrefixOf_append_of_stops htail hr hr'
      simp [List.isPrefixOf, hrest]
  unfold scanSign
  congr 1
  revert hfind
  generalize signs = texts
  intro hfind
  induction texts with
  | nil => rfl
  | cons s texts ih =>
    obtain ⟨hs, htexts⟩ := List.forall_mem_cons.mp hfind
    rw [List.find?_cons, List.find?_cons, hs, ih htexts]

theorem scanWord_append {c : Char} {y r r' : List Char} (hr : Stops isContinue r)
    (hr' : Stops isContinue r') : scanWord (c :: (y ++ r)) = scanWord (c :: (y ++ r')) := by
  have hstop {r : List Char} (hr : Stops isContinue r) : r.takeWhile isContinue = [] := by
    cases r with
    | nil => rfl
    | cons d r => simp [stops_cons.mp hr]
  have htake {r : List Char} (hr : Stops isContinue r) :
      (y ++ r).takeWhile isContinue = y.takeWhile isContinue := by
    rw [List.takeWhile_append]
    split_ifs with h
    · rw [hstop hr, List.append_nil]
      exact ((List.takeWhile_prefix _).eq_of_length h).symm
    · rfl
  simp only [scanWord, htake hr, htake hr']

theorem scan?_congr {cs cs' : List Char} (h : ∀ p ∈ classes, p.2 cs = p.2 cs') :
    scan? cs = scan? cs' := by
  unfold scan?
  generalize none = best
  generalize classes = scans at h
  induction scans generalizing best with
  | nil => rfl
  | cons p scans ih =>
    obtain ⟨hp, hscans⟩ := List.forall_mem_cons.mp h
    simp only [List.foldl_cons, hp]
    exact ih _ hscans

/-- Where one class finds something at most, it decides. -/
theorem scan?_of_only {cs : List Char} {kind : TokenKind} {s : Scan}
    {before after : List (TokenKind × Scan)} (hclasses : classes = before ++ (kind, s) :: after)
    (hbefore : ∀ p ∈ before, p.2 cs = none) (hafter : ∀ p ∈ after, p.2 cs = none) :
    scan? cs = (s cs).map (kind, ·) := by
  have hskip {f : Option (TokenKind × Nat) → TokenKind × Scan → Option (TokenKind × Nat)}
      (hf : ∀ best p, p.2 cs = none → f best p = best) {scans : List (TokenKind × Scan)}
      (h : ∀ p ∈ scans, p.2 cs = none) (best : Option (TokenKind × Nat)) :
      scans.foldl f best = best := by
    induction scans with
    | nil => rfl
    | cons p scans ih =>
      obtain ⟨hp, hscans⟩ := List.forall_mem_cons.mp h
      rw [List.foldl_cons, hf best p hp, ih hscans]
  rw [scan?, hclasses, List.foldl_append, List.foldl_cons, hskip ?_ hbefore, hskip ?_ hafter]
  · cases hs : s cs <;> simp [hs]
  · intro best p hp
    simp [hp]
  · intro best p hp
    simp [hp]

theorem exists_of_scan? {cs : List Char} {kind : TokenKind} {n : Nat}
    (h : scan? cs = some (kind, n)) : ∃ s, (kind, s) ∈ classes ∧ s cs = some n := by
  unfold scan? at h
  -- Along the classes, the best match so far is a match of one of them.
  refine List.foldlRecOn classes _
    (motive := fun best => ∀ p, best = some p → ∃ s, (p.1, s) ∈ classes ∧ s cs = some p.2)
    (by rintro _ ⟨⟩) (fun best hbest p hp q hq => ?_) _ h
  dsimp only at hq
  split at hq
  · split_ifs at hq
    · obtain rfl := Option.some.inj hq
      exact ⟨_, hp, ‹_›⟩
    · exact hbest q hq
  · obtain rfl := Option.some.inj hq
    exact ⟨_, hp, ‹_›⟩
  · exact hbest q hq

theorem positive_rune : Positive Quoted.rune := by
  intro cs hzero
  unfold Quoted.rune at hzero
  split at hzero
  all_goals first
    | cases hzero
    | (split_ifs at hzero; cases hzero)

theorem positive_sign : Positive scanSign := by
  intro cs hzero
  obtain ⟨text, htext, hlength⟩ := Option.map_eq_some_iff.mp hzero
  have hsigns : ∀ s ∈ signs, s.length ≠ 0 := by decide +kernel
  exact hsigns text (List.mem_of_find?_eq_some htext) hlength

theorem scan?_ne_zero {cs : List Char} {kind : TokenKind} : scan? cs ≠ some (kind, 0) := by
  intro h
  obtain ⟨s, hs, hzero⟩ := exists_of_scan? h
  have hword : Positive scanWord := by
    rintro (_ | ⟨c, cs⟩) <;> simp [scanWord]
  have hstring : Positive Quoted.string := by
    intro cs
    unfold Quoted.string
    split <;> simp
  have hraw : Positive Quoted.rawString := by
    rintro (_ | ⟨c, cs⟩) <;> simp [Quoted.rawString]
  have hclasses : ∀ p ∈ classes, Positive p.2 := by
    simp [classes, hword, Number.positive_int, Number.positive_float, Number.positive_imaginary,
      positive_rune, hstring, hraw, positive_sign]
  exact hclasses _ hs cs hzero

/-- Each kind of quote begins one class of tokens. -/
theorem scan?_quote (cs : List Char) :
    scan? ('"' :: cs) = (Quoted.string ('"' :: cs)).map (TokenKind.string, ·) ∧
    scan? ('\x60' :: cs) = (Quoted.rawString ('\x60' :: cs)).map (TokenKind.rawString, ·) ∧
    scan? ('\'' :: cs) = (Quoted.rune ('\'' :: cs)).map (TokenKind.rune, ·) := by
  refine ⟨?_, ?_, ?_⟩
  · refine @scan?_of_only _ .string _ [_, _, _, _, _] [_, _] rfl ?_ ?_ <;>
      simp only [List.forall_mem_cons, List.not_mem_nil, false_imp_iff, implies_true, and_true]
    · exact ⟨rfl, rfl, rfl, rfl, rfl⟩
    · exact ⟨rfl, rfl⟩
  · refine @scan?_of_only _ .rawString _ [_, _, _, _, _, _] [_] rfl ?_ ?_ <;>
      simp only [List.forall_mem_cons, List.not_mem_nil, false_imp_iff, implies_true, and_true]
    · exact ⟨rfl, rfl, rfl, rfl, rfl, rfl⟩
    · rfl
  · refine @scan?_of_only _ .rune _ [_, _, _, _] [_, _, _] rfl ?_ ?_ <;>
      simp only [List.forall_mem_cons, List.not_mem_nil, false_imp_iff, implies_true, and_true]
    · exact ⟨rfl, rfl, rfl, rfl⟩
    · exact ⟨rfl, rfl, rfl⟩

private theorem isDigit_of_isStart {c : Char} (h : isStart c = true) : c.isDigit = false := by
  by_contra hdigit
  simp only [Bool.not_eq_false, Char.isDigit, Bool.and_eq_true, decide_eq_true_eq] at hdigit
  have hlo : 48 ≤ c.toNat := hdigit.1
  have hhi : c.toNat ≤ 57 := hdigit.2
  have hne : c ≠ '_' := by
    rintro rfl
    exact absurd hhi (by decide)
  rw [isStart, if_pos (by omega)] at h
  simp only [hne, decide_false, Bool.or_false] at h
  rcases Bool.or_eq_true_iff.mp h with hupper | hlower
  · have : 65 ≤ c.toNat := (of_decide_eq_true hupper).1
    omega
  · change (decide ('a'.val ≤ c.val) && decide (c.val ≤ 'z'.val)) = true at hlower
    have : 97 ≤ c.toNat := of_decide_eq_true (Bool.and_eq_true_iff.mp hlower).1
    omega

def isOtherStart (c : Char) : Bool := c.isDigit || ['"', '\x60', '\''].contains c ||
  ['&', '<', '>', '.', '|', '+', '-', '=', '!', ':', '*', '/', '%', '^', '~', '(', ')', '[', ']',
    '\x7b', '\x7d', ',', ';', '\x00'].contains c

private theorem isOtherStart_of_isStart {c : Char} (h : isStart c = true) :
    isOtherStart c = false := by
  by_contra hother
  simp only [Bool.not_eq_false, isOtherStart, isDigit_of_isStart h, Bool.false_or, Bool.or_eq_true,
    List.contains_iff_mem] at hother
  have hnone : ['"', '\x60', '\''].any isStart = false := by decide +kernel
  have hnone' : ['&', '<', '>', '.', '|', '+', '-', '=', '!', ':', '*', '/', '%', '^', '~', '(',
      ')', '[', ']', '\x7b', '\x7d', ',', ';', '\x00'].any isStart = false := by decide +kernel
  rcases hother with hmem | hmem
  · exact List.any_eq_false.mp hnone c hmem h
  · exact List.any_eq_false.mp hnone' c hmem h

theorem scanSign_eq_none {c : Char} (h : isOtherStart c = false) (cs : List Char) :
    scanSign (c :: cs) = none := by
  have hsigns : signs.all (fun s => s.toList.head?.any isOtherStart) = true := by decide +kernel
  simp only [List.all_eq_true, Option.any_eq_true] at hsigns
  rw [scanSign, Option.map_eq_none_iff, List.find?_eq_none]
  intro s hs
  obtain ⟨d, hd, hstart⟩ := hsigns s hs
  cases hlist : s.toList with
  | nil => simp [hlist] at hd
  | cons e l =>
    obtain rfl : e = d := by simpa [hlist] using hd
    have hne : e ≠ c := by
      rintro rfl
      rw [h] at hstart
      cases hstart
    simp [List.isPrefixOf, hne]

theorem quoted_eq_none {c : Char} (h : ['"', '\x60', '\''].contains c = false) (cs : List Char) :
    Quoted.string (c :: cs) = none ∧ Quoted.rawString (c :: cs) = none ∧
      Quoted.rune (c :: cs) = none := by
  simp only [List.contains_eq_mem, decide_eq_false_iff_not, List.mem_cons, List.not_mem_nil, or_false,
    not_or] at h
  refine ⟨?_, ?_, ?_⟩
  · rw [Quoted.string]
    rintro ds heq
    exact h.1 (List.cons.inj heq).1
  · simp [Quoted.rawString, h.2.1]
  · rw [Quoted.rune] <;> simp [h.2.2]

/-- A letter begins a word and nothing else. -/
theorem scan?_of_isStart {c : Char} (h : isStart c = true) (cs : List Char) :
    scan? (c :: cs) = some (.word, (cs.takeWhile isContinue).length + 1) := by
  have hother := isOtherStart_of_isStart h
  have hword : scanWord (c :: cs) = some ((cs.takeWhile isContinue).length + 1) := by simp [scanWord, h]
  have hfirst : Number.isFirst c = false := by
    simp only [isOtherStart, Bool.or_eq_false_iff] at hother
    have hdot : c ≠ '.' := by
      rintro rfl
      cases h
    simp [Number.isFirst, hother, hdot]
  have hquoted := quoted_eq_none (c := c) (by
    simp only [isOtherStart, Bool.or_eq_false_iff] at hother
    exact hother.1.2) cs
  rw [@scan?_of_only (c :: cs) .word scanWord [] _ rfl (List.forall_mem_nil _) ?_, hword]
  · rfl
  · simp [Number.needs_int c cs hfirst, Number.needs_float c cs hfirst,
      Number.needs_imaginary c cs hfirst, hquoted, scanSign_eq_none hother]

theorem commentTail_cons_eq_none {c : Char} {cs : List Char} :
    commentTail (c :: cs) = none ↔ ¬(c = '*' ∧ cs.head? = some '/') ∧ commentTail cs = none := by
  rw [commentTail.eq_def]
  split
  · rename_i heq
    obtain ⟨rfl, rfl⟩ := List.cons.inj heq
    simp
  · rename_i heq hother
    obtain ⟨rfl, rfl⟩ := List.cons.inj hother
    rw [Option.map_eq_none_iff]
    refine ⟨fun h => ⟨?_, h⟩, fun h => h.2⟩
    rintro ⟨rfl, hhead⟩
    obtain ⟨ds, rfl⟩ := List.head?_eq_some_iff.mp hhead
    exact heq ds rfl rfl
  · rename_i heq
    cases heq

theorem commentTail_append_eq_none {u r r' : List Char} (h : commentTail (u ++ r) = none)
    (hr : commentTail r = none → commentTail r' = none) (hhead : r'.head? ≠ some '/') :
    commentTail (u ++ r') = none := by
  induction u with
  | nil => exact hr h
  | cons c u ih =>
    rw [List.cons_append, commentTail_cons_eq_none] at h ⊢
    refine ⟨?_, ih h.2⟩
    rintro ⟨rfl, hslash⟩
    cases u with
    | nil => exact hhead hslash
    | cons d u => exact h.1 ⟨rfl, hslash⟩

theorem commentTail_append {u v : List Char} {n : Nat} (h : commentTail (u ++ v) = some n)
    (hn : n ≤ u.length) (v' : List Char) : commentTail (u ++ v') = some n := by
  have hpos {cs : List Char} {n : Nat} (h : commentTail cs = some n) : 2 ≤ n := by
    fun_induction commentTail cs generalizing n with
    | case1 => exact Nat.le_of_eq (Option.some.inj h)
    | case2 c cs _ ih =>
      obtain ⟨m, hm, rfl⟩ := Option.map_eq_some_iff.mp h
      have := ih hm
      omega
    | case3 => cases h
  induction u generalizing n with
  | nil =>
    have := hpos h
    simp only [List.length_nil] at hn
    omega
  | cons c u ih =>
    cases u with
    | nil =>
      have := hpos h
      simp only [List.length_cons, List.length_nil] at hn
      omega
    | cons d u =>
      by_cases hclose : c = '*' ∧ d = '/'
      · obtain ⟨rfl, rfl⟩ := hclose
        exact h
      · have hstep (w : List Char) : commentTail (c :: d :: w) = (commentTail (d :: w)).map (· + 1) := by
          rw [commentTail]
          rintro ds rfl heq
          exact hclose ⟨rfl, (List.cons.inj heq).1⟩
        simp only [List.cons_append, hstep] at h ih ⊢
        obtain ⟨m, hm, rfl⟩ := Option.map_eq_some_iff.mp h
        rw [ih hm (by simpa using hn)]
        rfl

end Token
end SentinelWrap.Go
