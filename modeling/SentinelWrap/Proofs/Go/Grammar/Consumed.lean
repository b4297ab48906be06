import SentinelWrap.Proofs.Go.Grammar.Parts

/-! Which tokens a rule has read of those that were to be read. -/
namespace SentinelWrap.Go
open Token (endOf startOf)

/-- Reading the tokens in the middle leaves the last ones of the first. -/
inductive Consumes : List Token → List Token → List Token → Prop
  | nil {ts : List Token} : Consumes ts [] ts
  | token {t : Token} {ts mid us : List Token} (h : Consumes ts mid us) :
    Consumes (t :: ts) (t :: mid) us
  | half {t : Token} {ts mid us : List Token} {first second : String} (hfirst : first ≠ "")
    (hkind : t.kind = .sign) (htext : t.text = first ++ second)
    (h : Consumes (t.secondHalf first second :: ts) mid us) :
    Consumes (t :: ts) (t.firstHalf first :: mid) us
  | lineEnd {t : Token} {ts mid us : List Token} {offset : Nat} (hline : t.lineEnd = some offset)
    (h : Consumes (t.unmarked :: ts) mid us) : Consumes (t :: ts) (.lineBreak offset :: mid) us

namespace Consumes
variable {t u : Token} {ts us vs mid mid' read : List Token}

theorem append (h : Consumes ts mid us) (h' : Consumes us mid' vs) :
    Consumes ts (mid ++ mid') vs := by
  induction h with
  | nil => exact h'
  | token _ ih => exact .token (ih h')
  | half hfirst hkind htext _ ih => exact .half hfirst hkind htext (ih h')
  | lineEnd hline _ ih => exact .lineEnd hline (ih h')

theorem length_le (h : Consumes ts mid us) : us.length ≤ ts.length := by
  induction h with
  | nil => exact Nat.le_refl _
  | token _ ih => exact Nat.le_succ_of_le ih
  | half _ _ _ _ ih | lineEnd _ _ ih => exact ih

/-- What is left of a token gets smaller as it is cut and its line break is read. -/
def weight (t : Token) : Nat := 2 * t.text.length + t.lineEnd.toList.length

theorem weight_le (h : Consumes (t :: ts) mid (u :: ts)) :
    weight u ≤ weight t ∧ (mid ≠ [] → weight u < weight t) := by
  generalize hts : t :: ts = tokens at h
  generalize hus : u :: ts = left at h
  induction h generalizing t with
  | nil =>
    obtain ⟨rfl, -⟩ := List.cons.inj (hts.trans hus.symm)
    exact ⟨Nat.le_refl _, fun hne => absurd rfl hne⟩
  | token h =>
    obtain ⟨-, rfl⟩ := List.cons.inj hts
    have := h.length_le
    rw [← hus, List.length_cons] at this
    omega
  | @half v _ _ _ first second hfirst _ htext _ ih =>
    obtain ⟨rfl, rfl⟩ := List.cons.inj hts
    have hpos : 0 < first.length := Nat.pos_of_ne_zero (mt String.length_eq_zero_iff.mp hfirst)
    have hlt : weight (t.secondHalf first second) < weight t := by
      simp only [weight, Token.secondHalf, htext, String.length_append, Option.toList_none,
        List.length_nil]
      omega
    have := (ih rfl hus).1
    exact ⟨by omega, fun _ => by omega⟩
  | lineEnd hline _ ih =>
    obtain ⟨rfl, rfl⟩ := List.cons.inj hts
    have hlt : weight t.unmarked < weight t := by simp [weight, Token.unmarked, hline]
    have := (ih rfl hus).1
    exact ⟨by omega, fun _ => by omega⟩

/-- Where nothing is left out, nothing was read. -/
theorem eq_nil (h : Consumes ts mid ts) : mid = [] := by
  cases ts with
  | nil =>
    cases h
    rfl
  | cons t ts =>
    by_contra hne
    exact Nat.lt_irrefl _ (h.weight_le.2 hne)

/-- Tokens that were read one and all end where what was read of them does. -/
theorem endOf_eq (h : Consumes (read ++ us) mid us) (lo : Nat) : endOf lo mid = endOf lo read := by
  generalize hts : read ++ us = ts at h
  induction h generalizing read lo with
  | nil =>
    obtain rfl := List.append_left_eq_self.mp hts
    rfl
  | @token t ts mid us h ih =>
    cases read with
    | nil =>
      obtain rfl : us = t :: ts := hts
      cases eq_nil (Consumes.token h)
    | cons a read =>
      obtain ⟨rfl, rfl⟩ := List.cons.inj hts
      exact ih _ rfl
  | @half t ts mid us first second hfirst hkind htext h ih =>
    cases read with
    | nil =>
      obtain rfl : us = t :: ts := hts
      cases eq_nil (Consumes.half hfirst hkind htext h)
    | cons a read =>
      obtain ⟨rfl, rfl⟩ := List.cons.inj hts
      exact @ih (a.secondHalf first second :: read) _ rfl
  | @lineEnd t ts mid us offset hline h ih =>
    cases read with
    | nil =>
      obtain rfl : us = t :: ts := hts
      cases eq_nil (Consumes.lineEnd hline h)
    | cons a read =>
      obtain ⟨rfl, rfl⟩ := List.cons.inj hts
      exact @ih (a.unmarked :: read) _ rfl

theorem eq_singleton (h : Consumes (read ++ us) [t] us) (hne : read ≠ []) : read = [t] := by
  have hlength {v w : Token} {vs : List Token} (heq : read ++ v :: vs = w :: vs) : False := by
    have := congrArg List.length heq
    have := List.length_pos_iff.mpr hne
    simp only [List.length_append, List.length_cons] at *
    omega
  generalize hts : read ++ us = ts at h
  cases h with
  | token h =>
    cases h
    exact List.append_cancel_right (hts.trans (List.singleton_append ..).symm)
  | half _ _ _ h | lineEnd _ h =>
    cases h
    exact (hlength hts).elim

/-- What is left begins with the rest of a token. If that is no sign, only the line break before it
may have been read. -/
theorem exists_head (h : Consumes ts mid (t :: us)) : ∃ before u, ts = before ++ u :: us ∧
    t.kind = u.kind ∧ (t.kind ≠ .sign → t.unmarked = u.unmarked) := by
  generalize hus : t :: us = left at h
  induction h with
  | nil => exact ⟨[], t, hus.symm, rfl, fun _ => rfl⟩
  | @token v _ _ _ _ ih =>
    obtain ⟨before, u, rfl, hu⟩ := ih hus
    exact ⟨v :: before, u, rfl, hu⟩
  | @half v _ _ _ first second _ hkind _ _ ih =>
    obtain ⟨before, u, heq, hu⟩ := ih hus
    cases before with
    | nil =>
      obtain ⟨rfl, rfl⟩ := List.cons.inj heq
      exact ⟨[], v, rfl, hu.1, fun hsign => absurd (hu.1.trans hkind) hsign⟩
    | cons b before =>
      obtain ⟨-, rfl⟩ := List.cons.inj heq
      exact ⟨v :: before, u, rfl, hu⟩
  | @lineEnd v _ _ _ _ _ _ ih =>
    obtain ⟨before, u, heq, hu⟩ := ih hus
    cases before with
    | nil =>
      obtain ⟨rfl, rfl⟩ := List.cons.inj heq
      exact ⟨[], v, rfl, hu⟩
    | cons b before =>
      obtain ⟨-, rfl⟩ := List.cons.inj heq
      exact ⟨v :: before, u, rfl, hu⟩

end Consumes

namespace Rule
variable {σ : Type} {rules : σ → Rule σ}

/-- Where the rule cuts a token in two, the first half is not empty. -/
def cuts : Rule σ → Bool
  | half first _ => first != ""
  | seq a b | alt a b => a.cuts && b.cuts
  | many a | node _ a | grow _ a | apart a | role _ a | longer _ a => a.cuts
  | _ => true

theorem Derives.consumes (hrules : ∀ name, (rules name).cuts = true) {rule : Rule σ}
    {parts last : List Tree} {ts us : List Token} (h : Derives rules rule parts ts last us)
    (hrule : rule.cuts = true) :
    ∃ mid, yield last [] = yield parts [] ++ mid ∧ Consumes ts mid us := by
  induction h with
  | empty | sameLine | newLine | ahead | notAhead | manyStop => exact ⟨[], by simp, .nil⟩
  | token | leaf => exact ⟨[_], by simp [yield], .token .nil⟩
  | half hkind htext =>
    exact ⟨[_], by simp [yield], .half (by simpa [cuts] using hrule) hkind htext .nil⟩
  | lineEnd hline => exact ⟨[_], by simp [yield], .lineEnd hline .nil⟩
  | seq _ _ iha ihb =>
    simp only [cuts, Bool.and_eq_true] at hrule
    obtain ⟨mid, hmid, hconsumes⟩ := iha hrule.1
    obtain ⟨mid', hmid', hconsumes'⟩ := ihb hrule.2
    exact ⟨mid ++ mid', by rw [hmid', hmid, List.append_assoc], hconsumes.append hconsumes'⟩
  | altLeft _ ih =>
    simp only [cuts, Bool.and_eq_true] at hrule
    exact ih hrule.1
  | altRight _ ih =>
    simp only [cuts, Bool.and_eq_true] at hrule
    exact ih hrule.2
  | manyStep _ _ iha ihs =>
    obtain ⟨mid, hmid, hconsumes⟩ := iha hrule
    obtain ⟨mid', hmid', hconsumes'⟩ := ihs hrule
    exact ⟨mid ++ mid', by rw [hmid', hmid, List.append_assoc], hconsumes.append hconsumes'⟩
  | ref _ _ ih => exact ih (hrules _)
  | node _ ih | grow _ ih =>
    obtain ⟨mid, hmid, hconsumes⟩ := ih hrule
    exact ⟨mid, by simpa [yield] using hmid, hconsumes⟩
  | apart _ ih | longer _ _ ih =>
    obtain ⟨mid, hmid, hconsumes⟩ := ih hrule
    refine ⟨mid, ?_, hconsumes⟩
    rw [yield_append, hmid]
    simp [yield]
  | role _ ih =>
    obtain ⟨mid, hmid, hconsumes⟩ := ih hrule
    refine ⟨mid, ?_, hconsumes⟩
    rw [yield_append, yield_map_withRole, hmid]
    simp [yield]

end Rule

namespace Grammar
open Rule

theorem cuts_rule (name : Symbol) : name.rule.cuts = true := by
  refine Symbol.of_allFlags (p := fun name => name.rule.cuts) ?_
  cases name <;> rfl

/-- The tree that a named rule has read of some tokens extends over all of them. -/
theorem span_of_read {name : Symbol} {X : Tree} {read us : List Token} {fuel : Nat}
    (h : Rule.run Symbol.rule fuel (.ref name) [] (read ++ us) = .read [X] us) (hne : read ≠ []) :
    X.span = ⟨startOf read, endOf 0 read⟩ := by
  have hderives := derives_of_run h
  obtain ⟨mid, hmid, hconsumes⟩ := hderives.consumes cuts_rule rfl
  obtain ⟨mid', hmid', -, hreads, hleads⟩ := hderives.exists_yield leads_rule
  have hX : X.tokens = mid := by simpa [yield] using hmid
  obtain rfl : mid = mid' := by simpa [yield, hX] using hmid'
  have hfull := hderives.full_of_nil grounded_rule rfl X (by simp)
  obtain ⟨hne', hstart, hstop⟩ := hfull.extent
  rw [hX] at hne' hstart hstop
  rw [Tree.span, hstart, hstop 0, hconsumes.endOf_eq 0, hleads rfl hne', Token.startOf_append hne]

end Grammar
end SentinelWrap.Go
