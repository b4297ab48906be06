import SentinelWrap.Go.Grammar.Rules
import SentinelWrap.Proofs.Go.Grammar.Discipline
import SentinelWrap.Proofs.Go.Grammar.Grounded

/-! Brackets. Every named rule closes the brackets that it opens and no others. So two runs inside of
brackets stay in step as long as the tokens there correspond, whatever stands outside. -/
namespace SentinelWrap.Go

/-- What a token is to the brackets and the names around it. -/
inductive TokenSort
  | opener
  | closer
  | comma
  | dot
  | star
  | name
  | keyword
  | plain
deriving DecidableEq

namespace TokenSort

def ofSign : String → TokenSort
  | "(" | "[" | "\x7b" => opener
  | ")" | "]" | "\x7d" => closer
  | "," => comma
  | "." => dot
  | "*" => star
  | _ => plain

def ofWord (text : String) : TokenSort := if keywords.contains text then keyword else name

end TokenSort

def Token.sort (t : Token) : TokenSort :=
  match t.kind with
  | .sign => .ofSign t.text
  | .word => .ofWord t.text
  | _ => .plain

namespace Terminal

def sort? : Terminal → Option TokenSort
  | word text => some (.ofWord text)
  | name _ => some .name
  | sign text => some (.ofSign text)
  | kind k => if k = .word ∨ k = .sign then none else some .plain

theorem sort_of_accepts {terminal : Terminal} {t : Token} {sort : TokenSort}
    (h : terminal.accepts t = true) (hsort : terminal.sort? = some sort) : t.sort = sort := by
  cases terminal with
  | word text | sign text =>
    simp only [accepts_word, accepts_sign] at h
    obtain rfl := Option.some.inj hsort
    simp [Token.sort, h.1, h.2]
  | name reserved =>
    obtain ⟨hkind, hkeyword, -⟩ := accepts_name.mp h
    obtain rfl := Option.some.inj hsort
    simp only [Token.sort, TokenSort.ofWord, hkind, hkeyword]
    rfl
  | kind k =>
    rw [accepts_kind] at h
    simp only [sort?, Option.ite_none_left_eq_some, Option.some.injEq, not_or] at hsort
    obtain ⟨⟨hword, hsign⟩, rfl⟩ := hsort
    rw [← h] at hword hsign
    unfold Token.sort
    split <;> simp_all

end Terminal

/-- Where a token stands that is in no bracket, by what was read just before it. -/
inductive Place
  | start
  | star
  /-- After a name that was read first. -/
  | name
  /-- After a name with nothing but stars before it. -/
  | starName
  /-- After any other name. -/
  | word
  /-- After a dot. -/
  | dot
  /-- In front of the second half of a token. -/
  | cut
  | other
deriving DecidableEq

def Place.next : Place → TokenSort → Place
  | .start, .star | .star, .star => .star
  | .start, .name => .name
  | .star, .name => .starName
  | .start, _ | .star, _ | .dot, _ | .cut, _ => .other
  | _, .name => .word
  | _, .dot => .dot
  | _, _ => .other

/-- The number of open brackets, and the place if there is none. -/
structure Spot where
  depth : Nat
  place : Place

namespace Spot

def next : Spot → TokenSort → Spot
  | ⟨depth, _⟩, .opener => ⟨depth + 1, .other⟩
  | ⟨depth, _⟩, .closer => ⟨depth - 1, .other⟩
  | ⟨0, place⟩, sort => ⟨0, place.next sort⟩
  | ⟨depth + 1, _⟩, _ => ⟨depth + 1, .other⟩

def half : Spot → Spot
  | ⟨0, _⟩ => ⟨0, .cut⟩
  | ⟨depth + 1, _⟩ => ⟨depth + 1, .other⟩

@[simp] theorem next_opener (depth : Nat) (place : Place) :
    next ⟨depth, place⟩ .opener = ⟨depth + 1, .other⟩ := by
  cases depth <;> rfl

@[simp] theorem next_closer (depth : Nat) (place : Place) :
    next ⟨depth, place⟩ .closer = ⟨depth - 1, .other⟩ := by
  cases depth <;> rfl

end Spot

/-- Neither the end of the source nor a word that begins what may be replaced as a whole. -/
def Token.IsFree (t : Token) : Prop :=
  t.kind ≠ .finish ∧ ¬(t.kind = .word ∧ (t.text = "return" ∨ t.text = "import"))

def Terminal.isFree : Terminal → Bool
  | word text => text != "return" && text != "import"
  | name _ | sign _ => true
  | kind k => k != .finish && k != .word

theorem Terminal.free_of_accepts {terminal : Terminal} {t : Token} (h : terminal.accepts t = true)
    (hfree : terminal.isFree = true) : t.IsFree := by
  unfold Token.IsFree
  cases terminal with
  | word text =>
    rw [accepts_word] at h
    simp only [isFree, Bool.and_eq_true, bne_iff_ne] at hfree
    simp [h.1, h.2, hfree]
  | name reserved =>
    obtain ⟨hkind, hkeyword, -⟩ := accepts_name.mp h
    refine ⟨by simp [hkind], ?_⟩
    rintro ⟨-, heq | heq⟩ <;> rw [heq] at hkeyword <;> cases hkeyword
  | sign text =>
    rw [accepts_sign] at h
    simp [h.1]
  | kind k =>
    rw [accepts_kind] at h
    simp only [isFree, Bool.and_eq_true, bne_iff_ne] at hfree
    simp [h, hfree]

def halves : List (String × String) :=
  [("+", "+"), ("-", "-"), ("<", "-"), ("&", "&"), ("&", "^")]

instance decidableMemHalves (pair : String × String) : Decidable (pair ∈ halves) :=
  inferInstanceAs (Decidable (pair ∈ [_, _, _, _, _]))

@[elab_as_elim]
theorem halves_cases {motive : String → String → Prop} {first second : String}
    (h : (first, second) ∈ halves) (plus : motive "+" "+") (minus : motive "-" "-")
    (arrow : motive "<" "-") (and : motive "&" "&") (clear : motive "&" "^") :
    motive first second := by
  simp only [halves, List.mem_cons, Prod.mk.injEq, List.not_mem_nil, or_false] at h
  rcases h with ⟨rfl, rfl⟩ | ⟨rfl, rfl⟩ | ⟨rfl, rfl⟩ | ⟨rfl, rfl⟩ | ⟨rfl, rfl⟩
  · exact plus
  · exact minus
  · exact arrow
  · exact and
  · exact clear

/-- Tokens that correspond, as seen from each spot that two runs come by. -/
structure Track extends Lockstep where
  Ahead : Spot → Index → List Token → List Token → Prop
  /-- Here the correspondence ends. -/
  Wall : Spot → List Token → Prop
  sameHead {s : Spot} {i : Index} {ts ts' : List Token} : Ahead s i ts ts' → SameHead ts ts'
  marks {s : Spot} {i : Index} {t t' : Token} {ts ts' : List Token} :
    Ahead s i (t :: ts) (t' :: ts') → s ≠ ⟨0, .start⟩ → t.lineEnd.isSome = t'.lineEnd.isSome
  pass {s : Spot} {i : Index} {t t' : Token} {ts ts' : List Token} :
    Ahead s i (t :: ts) (t' :: ts') → ¬Wall s (t :: ts) → t.IsFree →
    ∃ j, Ahead (s.next t.sort) j ts ts' ∧ Read i j [.token t] [.token t']
  half {s : Spot} {i : Index} {t t' : Token} {ts ts' : List Token} {first second : String} :
    Ahead s i (t :: ts) (t' :: ts') → ¬Wall s (t :: ts) → t.kind = .sign →
    t.text = first ++ second → (first, second) ∈ halves →
    ∃ j, Ahead s.half j (t.secondHalf first second :: ts)
        (t'.secondHalf first second :: ts') ∧
      Read i j [.token (t.firstHalf first)] [.token (t'.firstHalf first)]
  lineEnd {depth : Nat} {place : Place} {i : Index} {t t' : Token} {ts ts' : List Token} :
    Ahead ⟨depth + 1, place⟩ i (t :: ts) (t' :: ts') → t.lineEnd = none ∧ t'.lineEnd = none ∨
      ∃ offset offset' j, t.lineEnd = some offset ∧ t'.lineEnd = some offset' ∧
        Ahead ⟨depth + 1, place⟩ j (t.unmarked :: ts) (t'.unmarked :: ts') ∧
        Read i j [.token (.lineBreak offset)] [.token (.lineBreak offset')]

def Symbol.isInner : Symbol → Bool
  | source | topLevel | importDeclaration | importSpec => false
  | _ => true

def isKept (kind : String) : Bool := kind != "return_statement" && kind != "import_declaration"

/-- What a group of declarations is made of. -/
def Symbol.isSpec : Symbol → Bool
  | constSpec | typeSpec | varSpec => true
  | _ => false

def Rule.isSpec : Rule Symbol → Bool
  | ref name => name.isSpec
  | _ => false

def TokenSort.brackets : TokenSort → Nat → Option Nat
  | opener, n => some (n + 1)
  | closer, n + 1 => some n
  | closer, 0 => none
  | _, n => some n

abbrev balance : Discipline Symbol where
  State := Nat
  relaxed := false
  other := id
  token terminal n := if terminal.isFree then terminal.sort?.bind (·.brackets n) else none
  half first second n := if (first, second) ∈ halves then some n else none
  lineEnd := some
  sameLine := some
  newLine := some
  ref name n := if name.isInner then some n else none
  join m n := if m = n then some n else none
  kind := isKept
  longer size a := size == 10 && a.isSpec

theorem TokenSort.brackets_add {sort : TokenSort} {m n : Nat} (h : sort.brackets m = some n)
    (k : Nat) : sort.brackets (m + k) = some (n + k) := by
  cases sort with
  | closer =>
    cases m with
    | zero => cases h
    | succ m =>
      obtain rfl : m = n := Option.some.inj h
      rw [Nat.add_right_comm]
      rfl
  | opener =>
    obtain rfl : m + 1 = n := Option.some.inj h
    exact congrArg some (Nat.add_right_comm m k 1)
  | _ =>
    obtain rfl : m = n := Option.some.inj h
    rfl

/-- Brackets around the whole do not matter. -/
theorem balance_add {a : Rule Symbol} {m n : Nat} (h : balance.check a m = some n) (k : Nat) :
    balance.check a (m + k) = some (n + k) := by
  have htoken {terminal : Terminal} {m n : Nat} (h : balance.token terminal m = some n) :
      balance.token terminal (m + k) = some (n + k) := by
    simp only [Option.ite_none_right_eq_some, Option.bind_eq_some_iff] at h ⊢
    obtain ⟨hfree, sort, hsort, hn⟩ := h
    exact ⟨hfree, sort, hsort, TokenSort.brackets_add hn k⟩
  have hjoin {x y z : Nat} (h : balance.join x y = some z) : x = z ∧ y = z := by
    simp only [Option.ite_none_right_eq_some, Option.some.injEq] at h
    omega
  induction a generalizing m n with
  | empty | lineEnd | sameLine | newLine | ahead | notAhead =>
    obtain rfl := Option.some.inj h
    rfl
  | token t => exact htoken h
  | leaf kind t =>
    obtain ⟨hkind, ht⟩ := Option.ite_none_right_eq_some.mp h
    exact Option.ite_none_right_eq_some.mpr ⟨hkind, htoken ht⟩
  | half first second | ref name =>
    simp only [Discipline.check, Option.ite_none_right_eq_some, Option.some.injEq] at h ⊢
    exact ⟨h.1, by rw [h.2]⟩
  | seq a b iha ihb =>
    obtain ⟨x, ha, hb⟩ := Option.bind_eq_some_iff.mp h
    exact Option.bind_eq_some_iff.mpr ⟨_, iha ha, ihb hb⟩
  | alt a b iha ihb =>
    obtain ⟨x, ha, h⟩ := Option.bind_eq_some_iff.mp h
    obtain ⟨y, hb, h⟩ := Option.bind_eq_some_iff.mp h
    obtain ⟨hx, hy⟩ := hjoin h
    subst hx hy
    refine Option.bind_eq_some_iff.mpr ⟨_, iha ha, Option.bind_eq_some_iff.mpr ⟨_, ihb hb, ?_⟩⟩
    simp
  | many a ih =>
    obtain ⟨x, ha, h⟩ := Option.bind_eq_some_iff.mp h
    obtain ⟨hx, hm⟩ := Option.ite_none_right_eq_some.mp h
    obtain rfl := Option.some.inj hm
    obtain ⟨-, rfl⟩ := hjoin hx
    refine Option.bind_eq_some_iff.mpr ⟨_, ih ha, ?_⟩
    simp
  | node kind a ih | grow kind a ih | longer size a ih =>
    simp only [Discipline.check, Option.ite_none_right_eq_some] at h ⊢
    exact ⟨h.1, ih h.2⟩
  | apart a ih | role r a ih => exact ih h

namespace Grammar

/-- Every named rule closes the brackets it opens. -/
theorem balanced_rule {name : Symbol} (h : name.isInner = true)
    (hreturn : name ≠ .returnStatement) : balance.check name.rule 0 = some 0 := by
  refine of_decide_eq_true
    (Symbol.of_allFlags (p := fun name => balance.check name.rule 0 = some 0) ?_)
  cases name with
  | source | topLevel | importDeclaration | importSpec => cases h
  | returnStatement => contradiction
  | _ => rfl

end Grammar

namespace Track
open Lockstep
variable (T : Track)

/-- The runs are inside of brackets, of which `n` may be closed. -/
def Inside (n : Nat) : T.Point := fun i ts ts' => ∃ place, T.Ahead ⟨n + 1, place⟩ i ts ts'

/-- What a track has to guarantee for the rules that do not follow from others. -/
structure Guards : Prop where
  depth_eq_zero {s : Spot} {ts : List Token} : T.Wall s ts → s.depth = 0
  keeps {kind : String} : isKept kind = true → T.Keeps kind
  sameSize {name : Symbol} {n : Nat} : name.isSpec = true →
    T.SameSize Symbol.rule 10 (T.Inside n) (.ref name) (.ref name)
  returns {fuel n : Nat} : (∀ m < fuel, ∀ a p q, balance.check a p = some q →
      InStep Symbol.rule m (T.Inside p) (T.Inside q) a a) →
    InStep Symbol.rule fuel (T.Inside n) (T.Inside n) (.ref .returnStatement) (.ref .returnStatement)

variable {T}

private theorem exists_of_run_return_body {fuel : Nat} {ts us : List Token} {children : List Tree}
    (h : Rule.run Symbol.rule fuel (Grammar.word "return" ++
      Rule.opt (.sameLine ++ .ref (.expressions Grammar.closing))) [] ts = .read children us) :
    ∃ t rest later, (Terminal.word "return").accepts t = true ∧ ts = t :: rest ∧
      children = later ++ [.token t] := by
  have hderives := Rule.derives_of_run h
  cases hderives with
  | seq hword hresults =>
    cases hword with
    | token ht =>
      cases hresults with
      | altRight hempty =>
        cases hempty
        exact ⟨_, _, [], ht, rfl, rfl⟩
      | altLeft hresults =>
        cases hresults with
        | seq hline hlist =>
          cases hline
          cases hlist with
          | ref _ hlist =>
            cases hlist
            exact ⟨_, _, [_], ht, rfl, rfl⟩

/-- Points from which return statements are read like anything else. -/
theorem inStep_returns_from {P : T.Point} {fuel n : Nat}
    (hhead : ∀ i ts ts', P i ts ts' → SameHead ts ts')
    (hword : Passes P (T.Inside n) (.word "return"))
    (hkeeps : ∀ i j t ts ts' later children', P i (t :: ts) ts' →
      (Terminal.word "return").accepts t = true → T.Read i j (later ++ [.token t]) children' →
      T.Read i j [.node "return_statement" .plain (later ++ [.token t]).reverse]
        [.node "return_statement" .plain children'.reverse])
    (ih : ∀ m < fuel, ∀ a p q, balance.check a p = some q →
      InStep Symbol.rule m (T.Inside p) (T.Inside q) a a) :
    InStep Symbol.rule fuel P (T.Inside n) (.ref .returnStatement) (.ref .returnStatement) := by
  match fuel with
  | 0 => exact inStep_zero
  | 1 => exact InStep.ref inStep_zero
  | 2 => exact InStep.ref (InStep.node_of inStep_zero nofun)
  | fuel + 3 =>
    have hresults : balance.check
        (Rule.opt (.sameLine ++ .ref (.expressions Grammar.closing))) 0 = some 0 := rfl
    have hcheck := balance_add hresults n
    rw [Nat.zero_add] at hcheck
    refine InStep.ref (InStep.node_of (InStep.seq (inStep_token hhead hword)
      (ih fuel (by omega) _ n n hcheck)) ?_)
    intro i j ts ts' us children children' hP hrun hread
    obtain ⟨t, rest, later, ht, rfl, rfl⟩ := exists_of_run_return_body hrun
    exact hkeeps i j t rest ts' later children' hP ht hread

/-- A track on which return statements are read like anything else. -/
theorem inStep_returns
    (hpass : ∀ s i t t' ts ts', T.Ahead s i (t :: ts) (t' :: ts') → s.depth ≠ 0 →
      t.sort = .keyword → ∃ j, T.Ahead (s.next .keyword) j ts ts' ∧
        T.Read i j [.token t] [.token t'])
    (hkeeps : T.Keeps "return_statement") {fuel n : Nat}
    (ih : ∀ m < fuel, ∀ a p q, balance.check a p = some q →
      InStep Symbol.rule m (T.Inside p) (T.Inside q) a a) :
    InStep Symbol.rule fuel (T.Inside n) (T.Inside n) (.ref .returnStatement)
      (.ref .returnStatement) := by
  refine inStep_returns_from (fun _ _ _ h => T.sameHead h.choose_spec) ?_
    (fun i j _ _ _ _ children' _ _ => hkeeps i j _ children') ih
  rintro i t t' ts ts' ⟨place, hahead⟩ haccepts
  have hsort : t.sort = .keyword := Terminal.sort_of_accepts haccepts rfl
  obtain ⟨j, hnext, hread⟩ := hpass _ i t t' ts ts' hahead nofun hsort
  exact ⟨j, ⟨_, hnext⟩, hread⟩

private theorem passes_inside (hT : T.Guards) {terminal : Terminal} {m n : Nat}
    (h : balance.token terminal m = some n) : Passes (T.Inside m) (T.Inside n) terminal := by
  rintro i t t' ts ts' ⟨place, hahead⟩ haccepts
  obtain ⟨hfree, hbrackets⟩ := Option.ite_none_right_eq_some.mp h
  obtain ⟨sort, hsort, hn⟩ := Option.bind_eq_some_iff.mp hbrackets
  have hwall : ¬T.Wall ⟨m + 1, place⟩ (t :: ts) := fun hw => nomatch hT.depth_eq_zero hw
  obtain ⟨j, hnext, hread⟩ := T.pass hahead hwall (Terminal.free_of_accepts haccepts hfree)
  rw [Terminal.sort_of_accepts haccepts hsort] at hnext
  refine ⟨j, ?_, hread⟩
  cases sort with
  | opener =>
    obtain rfl := Option.some.inj hn
    exact ⟨_, by simpa using hnext⟩
  | closer =>
    cases m with
    | zero => cases hn
    | succ m =>
      obtain rfl := Option.some.inj hn
      exact ⟨_, by simpa using hnext⟩
  | _ =>
    obtain rfl := Option.some.inj hn
    exact ⟨.other, hnext⟩

def balanceSound (hT : T.Guards) : balance.Sound Symbol.rule T.toLockstep where
  meaning := T.Inside
  sameHead h := T.sameHead h.choose_spec
  token h := passes_inside hT h
  half fuel h := by
    obtain ⟨hmem, hn⟩ := Option.ite_none_right_eq_some.mp h
    obtain rfl := Option.some.inj hn
    refine inStep_half (fun _ _ _ h => T.sameHead h.choose_spec) ?_
    rintro i t t' ts ts' ⟨place, hahead⟩ hkind htext
    obtain ⟨j, hnext, hread⟩ :=
      T.half hahead (fun hw => nomatch hT.depth_eq_zero hw) hkind htext hmem
    exact ⟨j, ⟨_, hnext⟩, hread⟩
  lineEnd fuel h := by
    obtain rfl := Option.some.inj h
    refine inStep_lineEnd (fun _ _ _ h => T.sameHead h.choose_spec) ?_
    rintro i t t' ts ts' ⟨place, hahead⟩
    rcases T.lineEnd hahead with hnone | ⟨offset, offset', j, hsome, hsome', hnext, hread⟩
    · exact .inl hnone
    · exact .inr ⟨offset, offset', j, hsome, hsome', ⟨place, hnext⟩, hread⟩
  sameLine fuel h := by
    obtain rfl := Option.some.inj h
    refine inStep_test (fun _ _ _ h => T.sameHead h.choose_spec) isTest_sameLine isTest_sameLine ?_
    rintro i t t' ts ts' ⟨place, hahead⟩
    have hmark := T.marks hahead nofun
    exact ⟨by simpa [← Option.not_isSome] using hmark, fun _ => ⟨place, hahead⟩⟩
  newLine fuel h := by
    obtain rfl := Option.some.inj h
    refine inStep_test (fun _ _ _ h => T.sameHead h.choose_spec) isTest_newLine isTest_newLine ?_
    rintro i t t' ts ts' ⟨place, hahead⟩
    exact ⟨T.marks hahead nofun, fun _ => ⟨place, hahead⟩⟩
  unbroken h := nomatch h
  ref {name} {n} {_} fuel h ih := by
    obtain ⟨hinner, hn⟩ := Option.ite_none_right_eq_some.mp h
    obtain rfl := Option.some.inj hn
    simp only [Rule.counterpart_self] at ih
    by_cases hname : name = .returnStatement
    · subst hname
      exact hT.returns ih
    cases fuel with
    | zero => exact inStep_zero
    | succ fuel =>
      have hcheck := balance_add (Grammar.balanced_rule hinner hname) n
      rw [Nat.zero_add] at hcheck
      exact (ih fuel (by omega) _ _ _ hcheck).ref
  joinLeft h hm := by
    obtain ⟨rfl, hz⟩ := Option.ite_none_right_eq_some.mp h
    obtain rfl := Option.some.inj hz
    exact hm
  joinRight h hm := by
    obtain ⟨rfl, hz⟩ := Option.ite_none_right_eq_some.mp h
    obtain rfl := Option.some.inj hz
    exact hm
  kind := hT.keeps
  longer {size} {a} {_} {_} h _ := by
    obtain ⟨hsize, hspec⟩ := Bool.and_eq_true_iff.mp h
    obtain rfl : size = 10 := by simpa using hsize
    rw [Rule.counterpart_self]
    cases a with
    | ref name => exact hT.sameSize hspec
    | _ => cases hspec

theorem inStep_inside (hT : T.Guards) {fuel m n : Nat} {a : Rule Symbol}
    (h : balance.check a m = some n) : InStep Symbol.rule fuel (T.Inside m) (T.Inside n) a a := by
  have hstep := @Discipline.Sound.inStep _ _ _ _ (balanceSound hT) fuel _ _ _ h
  rwa [Rule.counterpart_self] at hstep

end Track
end SentinelWrap.Go
