import SentinelWrap.Proofs.Go.Grammar.Derivation
import SentinelWrap.Go.Grammar.Rules

/-! No run of the grammar uses up its fuel. Between two tokens the rules nest only so deep, and each
token that is read pays for the rules that follow it. -/
namespace SentinelWrap.Go

/-- A sign that may be left of another one is worth less, so that both halves of that one pay. -/
def signWorth (text : String) : Nat := if ["+", "-", "&", "^"].contains text then 1 else 2

namespace Token

def worth (t : Token) : Nat := if t.kind = .sign then signWorth t.text else 2

def worthAll (ts : List Token) : Nat := ts.foldr (fun t n => t.worth + n) 0

@[simp] theorem worthAll_cons (t : Token) (ts : List Token) :
    worthAll (t :: ts) = t.worth + worthAll ts := by
  simp [worthAll]

theorem worthAll_append (ts us : List Token) :
    worthAll (ts ++ us) = worthAll ts + worthAll us := by
  induction ts with
  | nil => simp [worthAll]
  | cons t ts ih => rw [List.cons_append, worthAll_cons, ih, worthAll_cons, Nat.add_assoc]

theorem worth_le (t : Token) : t.worth ≤ 2 := by
  unfold worth signWorth
  split_ifs <;> omega

theorem worthAll_le (ts : List Token) : worthAll ts ≤ 2 * ts.length := by
  induction ts with
  | nil => exact Nat.le_refl _
  | cons t ts ih =>
    have := t.worth_le
    rw [worthAll_cons, List.length_cons]
    omega

end Token

open Token (worthAll)

def Terminal.worth : Terminal → Nat
  | sign text => signWorth text
  | kind .sign => 1
  | _ => 2

private theorem one_le_signWorth (text : String) : 1 ≤ signWorth text := by
  unfold signWorth
  split_ifs <;> omega

theorem Terminal.worth_le_two (terminal : Terminal) : terminal.worth ≤ 2 := by
  unfold worth signWorth
  split
  · split_ifs <;> omega
  · omega
  · omega

theorem Terminal.worth_le {terminal : Terminal} {t : Token} (h : terminal.accepts t = true) :
    terminal.worth ≤ t.worth := by
  cases terminal with
  | word text | name reserved =>
    simp only [accepts_word, accepts_name] at h
    simp [worth, Token.worth, h]
  | sign text =>
    rw [accepts_sign] at h
    simp [worth, Token.worth, h]
  | kind k =>
    obtain rfl := accepts_kind.mp h
    by_cases hsign : t.kind = .sign
    · rw [hsign, Token.worth, if_pos hsign]
      exact one_le_signWorth t.text
    · rw [Token.worth, if_neg hsign]
      exact worth_le_two _

namespace Rule
variable {σ : Type} {rules : σ → Rule σ} {need : σ → Nat}

/-- What the tokens are worth that the rule reads, at least, if every named rule reads something. -/
def gain : Rule σ → Nat
  | token t | leaf _ t => t.worth
  | half first second => signWorth (first ++ second) - signWorth second
  | seq a b => a.gain + b.gain
  | alt a b => min a.gain b.gain
  | ref _ => 1
  | node _ a | grow _ a | apart a | role _ a | longer _ a => a.gain
  | _ => 0

/-- Repetitions read something each time, and halves are worth no more than the whole. -/
def pays : Rule σ → Bool
  | seq a b | alt a b => a.pays && b.pays
  | many a => 0 < a.gain && a.pays
  | half first second => signWorth second ≤ signWorth (first ++ second)
  | node _ a | grow _ a | apart a | role _ a | longer _ a => a.pays
  | _ => true

/-- The fuel that the rule uses before it is paid for, given what the named rules use. -/
def cost (need : σ → Nat) : Rule σ → Nat
  | seq a b => 1 + max (a.cost need) (b.cost need - 64 * a.gain)
  | alt a b => 1 + max (a.cost need) (b.cost need)
  | ref name => 1 + need name
  | many a | node _ a | grow _ a | apart a | role _ a | longer _ a => 1 + a.cost need
  | _ => 1

def isPriced (need : σ → Nat) (fuel : Nat) (rule : Rule σ) : Bool :=
  0 < rule.gain && rule.pays && rule.cost need ≤ fuel

def Priced (rules : σ → Rule σ) (need : σ → Nat) : Prop :=
  ∀ name, (rules name).isPriced need (need name) = true

theorem isPriced_iff {fuel : Nat} {rule : Rule σ} : rule.isPriced need fuel = true ↔
    0 < rule.gain ∧ rule.pays = true ∧ rule.cost need ≤ fuel := by
  simp [isPriced, and_assoc]

theorem Derives.gain_le (hrules : Priced rules need) {rule : Rule σ}
    {parts last : List Tree} {ts us : List Token} (h : Derives rules rule parts ts last us)
    (hpays : rule.pays = true) : worthAll us + rule.gain ≤ worthAll ts := by
  induction h with
  | empty | sameLine | newLine | ahead | notAhead | manyStop => exact Nat.le_refl _
  | token haccepts | leaf haccepts =>
    have := Terminal.worth_le haccepts
    simp only [Token.worthAll_cons, gain]
    omega
  | half hkind htext =>
    simp only [pays, decide_eq_true_eq] at hpays
    simp only [Token.worthAll_cons, gain, Token.worth, Token.secondHalf, hkind, htext, if_true]
    omega
  | lineEnd => exact Nat.le_refl _
  | seq _ _ iha ihb =>
    simp only [pays, Bool.and_eq_true] at hpays
    have := iha hpays.1
    have := ihb hpays.2
    simp only [gain]
    omega
  | altLeft _ ih =>
    simp only [pays, Bool.and_eq_true] at hpays
    have := ih hpays.1
    simp only [gain]
    omega
  | altRight _ ih =>
    simp only [pays, Bool.and_eq_true] at hpays
    have := ih hpays.2
    simp only [gain]
    omega
  | manyStep _ _ iha ihs =>
    have := ihs hpays
    simp only [pays, Bool.and_eq_true] at hpays
    have := iha hpays.2
    simp only [gain] at *
    omega
  | @ref name _ _ _ _ _ _ ih =>
    obtain ⟨hgain, hpays, -⟩ := isPriced_iff.mp (hrules name)
    have := ih hpays
    simp only [gain]
    omega
  | node _ ih | grow _ ih | apart _ ih | role _ ih | longer _ _ ih => exact ih hpays

private theorem andThen_ne_starved {r : Reading} {next : List Tree → List Token → Reading}
    (hr : r ≠ .starved) (hnext : ∀ parts ts, r = .read parts ts → next parts ts ≠ .starved) :
    r.andThen next ≠ .starved := by
  cases r with
  | starved => exact absurd rfl hr
  | rejected => nofun
  | read parts ts => exact hnext parts ts rfl

private theorem orElse_ne_starved {r : Reading} {other : Unit → Reading} (hr : r ≠ .starved)
    (hother : other () ≠ .starved) : r.orElse other ≠ .starved := by
  cases r with
  | starved => exact absurd rfl hr
  | rejected => exact hother
  | read parts ts => nofun

/-- A run with fuel for its rule and for all tokens comes to an end. -/
theorem run_ne_starved (hrules : Priced rules need) {fuel : Nat} {rule : Rule σ}
    {parts : List Tree} {ts : List Token} (hpays : rule.pays = true)
    (hfuel : rule.cost need + 64 * worthAll ts ≤ fuel) :
    run rules fuel rule parts ts ≠ .starved := by
  induction fuel generalizing rule parts ts with
  | zero => cases rule <;> simp only [cost] at hfuel <;> omega
  | succ fuel ih =>
    have hgain {a : Rule σ} {parts last : List Tree} {us : List Token} (ha : a.pays = true)
        (h : run rules fuel a parts ts = .read last us) :=
      (derives_of_run h).gain_le hrules ha
    cases rule with
    | empty => rintro ⟨⟩
    | token t | leaf kind t | half first second =>
      cases ts with
      | nil => rintro ⟨⟩
      | cons next rest =>
        simp only [run]
        split_ifs <;> rintro ⟨⟩
    | lineEnd =>
      cases ts with
      | nil => rintro ⟨⟩
      | cons next rest =>
        simp only [run]
        split <;> rintro ⟨⟩
    | sameLine | newLine | ahead t | notAhead t =>
      cases ts with
      | nil => rintro ⟨⟩
      | cons next rest =>
        simp only [run]
        split_ifs <;> rintro ⟨⟩
    | seq a b =>
      simp only [pays, Bool.and_eq_true] at hpays
      simp only [cost] at hfuel
      refine andThen_ne_starved (ih hpays.1 (by omega)) fun mid us ha => ih hpays.2 ?_
      have := hgain hpays.1 ha
      omega
    | alt a b =>
      simp only [pays, Bool.and_eq_true] at hpays
      simp only [cost] at hfuel
      exact orElse_ne_starved (ih hpays.1 (by omega)) (ih hpays.2 (by omega))
    | many a =>
      have hmany := hpays
      simp only [pays, Bool.and_eq_true, decide_eq_true_eq] at hpays
      have hcost : (many a).cost need = 1 + a.cost need := rfl
      refine orElse_ne_starved (andThen_ne_starved (ih hpays.2 (by omega)) fun mid us ha => ?_)
        (by rintro ⟨⟩)
      have := hgain hpays.2 ha
      exact ih hmany (by omega)
    | ref name =>
      obtain ⟨-, hpays, hcost⟩ := isPriced_iff.mp (hrules name)
      simp only [cost] at hfuel
      exact ih hpays (by omega)
    | node kind a | grow kind a | apart a | role r a =>
      simp only [cost] at hfuel
      exact andThen_ne_starved (ih hpays (by omega)) fun _ _ _ => by rintro ⟨⟩
    | longer size a =>
      simp only [cost] at hfuel
      refine andThen_ne_starved (ih hpays (by omega)) fun _ _ _ => ?_
      split_ifs <;> rintro ⟨⟩

end Rule

namespace Grammar

/-- The fuel that the named rules use before a token pays for it. -/
def need : Symbol → Nat
  | .source => 90
  | .statements => 86
  | .statement => 82
  | .expressions _ | .simple _ _ | .literalElement => 62
  | .expression _ => 59
  | .binary _ level => 61 - 3 * min level 5
  | .unary _ => 43
  | .primary _ => 40
  | .operand _ => 37
  | .interfaceElement => 23
  | .parameter => 22
  | .typeElement _ => 21
  | .type _ | .result _ => 18
  | .firmType _ _ => 17
  | .simpleType _ | .suffix _ => 16
  | .field => 14
  | .topLevel => 12
  | _ => 8

private theorem need_le (name : Symbol) : need name ≤ 90 := by
  cases name <;> simp only [need] <;> omega

private theorem priced_binary (follow : Follow) (level : Nat) :
    (Symbol.binary follow level).rule.isPriced need (need (.binary follow level)) = true := by
  obtain ⟨n, hn, hrule, hneed⟩ : ∃ n < 7,
      (Symbol.binary follow level).rule = (Symbol.binary follow n).rule ∧
        need (.binary follow level) = need (.binary follow n) := by
    match level with
    | 0 | 1 | 2 | 3 | 4 | 5 => exact ⟨_, by omega, rfl, rfl⟩
    | level + 6 => exact ⟨6, by omega, rfl, by simp only [need]; omega⟩
  rw [hrule, hneed]
  obtain ⟨lineEnd, block, noLiteral, step, typeSwitch⟩ := follow
  clear hrule hneed
  revert n lineEnd block noLiteral step typeSwitch
  decide +kernel

theorem priced_rule : Rule.Priced Symbol.rule need := by
  intro name
  cases name with
  | binary follow level => exact priced_binary follow level
  | simple first later =>
    obtain ⟨lineEnd, block, noLiteral, step, typeSwitch⟩ := first
    obtain ⟨lineEnd', block', noLiteral', step', typeSwitch'⟩ := later
    revert lineEnd block noLiteral step typeSwitch lineEnd' block' noLiteral' step' typeSwitch'
    decide +kernel
  | expressions follow | expression follow | unary follow | primary follow | operand follow
  | suffix follow =>
    obtain ⟨lineEnd, block, noLiteral, step, typeSwitch⟩ := follow
    revert lineEnd block noLiteral step typeSwitch
    decide +kernel
  | result lineEnd | type lineEnd | simpleType lineEnd | namedType lineEnd | softType lineEnd
  | typeElement lineEnd =>
    revert lineEnd
    decide +kernel
  | firmType lineEnd plain =>
    revert lineEnd plain
    decide +kernel
  | _ => decide +kernel

theorem run_ref_ne_starved {name : Symbol} {fuel : Nat} {parts : List Tree} {ts : List Token}
    (h : 91 + 64 * worthAll ts ≤ fuel) :
    Rule.run Symbol.rule fuel (.ref name) parts ts ≠ .starved := by
  refine Rule.run_ne_starved priced_rule rfl ?_
  have := need_le name
  simp only [Rule.cost]
  omega

/-- No source is too long for its fuel. -/
theorem run_source_ne_starved (tokens : List Token) :
    Rule.run Symbol.rule (fuel tokens.length) (.ref .source) [] tokens ≠ .starved := by
  refine run_ref_ne_starved ?_
  have := Token.worthAll_le tokens
  rw [fuel]
  omega

end Grammar
end SentinelWrap.Go
