import SentinelWrap.Proofs.Go.Grammar.Flags
import SentinelWrap.Proofs.Go.Grammar.Yield

/-! Every node of a concrete tree holds a token, so its span runs from a first token to a last one. -/
namespace SentinelWrap.Go

namespace Tree

inductive Full : Tree → Prop
  | token (t : Token) : Full (.token t)
  | node (kind : String) (role : Role) {children : List Tree} (hne : children ≠ [])
    (h : ∀ c ∈ children, Full c) : Full (.node kind role children)

theorem Full.withRole {t : Tree} (h : Full t) (role : Role) : Full (t.withRole role) := by
  cases h with
  | token t => exact .token t
  | node kind _ hne hall => exact .node kind role hne hall

end Tree

namespace Rule
variable {σ : Type} {rules : σ → Rule σ}

/-- The rule adds a part wherever it succeeds, if all named rules do. -/
def reads : Rule σ → Bool
  | empty | sameLine | newLine | ahead _ | notAhead _ | many _ => false
  | token _ | leaf _ _ | half _ _ | lineEnd | ref _ => true
  | seq a b => a.reads || b.reads
  | alt a b => a.reads && b.reads
  | node _ a | grow _ a | apart a | role _ a | longer _ a => a.reads

/-- No node of the rule is built from nothing. Whether some part has been read already is given. -/
def grounded (held : Bool) : Rule σ → Bool
  | seq a b => a.grounded held && b.grounded (held || a.reads)
  | alt a b => a.grounded held && b.grounded held
  | many a => a.grounded held
  | node _ a => a.reads && a.grounded false
  | grow _ a => (held || a.reads) && a.grounded held
  | apart a | role _ a | longer _ a => a.grounded false
  | _ => true

def Grounded (rules : σ → Rule σ) : Prop :=
  ∀ name, (rules name).reads = true ∧ (rules name).grounded false = true

private theorem grounded_of_false {rule : Rule σ} {held : Bool} (h : rule.grounded false = true) :
    rule.grounded held = true := by
  cases held with
  | false => exact h
  | true =>
    induction rule with
    | seq a b iha ihb =>
      simp only [grounded, Bool.and_eq_true, Bool.false_or, Bool.true_or] at h ⊢
      refine ⟨iha h.1, ?_⟩
      cases hreads : a.reads with
      | false => exact ihb (by simpa [hreads] using h.2)
      | true => simpa [hreads] using h.2
    | alt a b iha ihb =>
      simp only [grounded, Bool.and_eq_true] at h ⊢
      exact ⟨iha h.1, ihb h.2⟩
    | many a ih => exact ih h
    | grow kind a ih =>
      simp only [grounded, Bool.and_eq_true, Bool.true_or] at h ⊢
      exact ⟨trivial, ih h.2⟩
    | node | apart | role | longer => exact h
    | empty | token | leaf | half | lineEnd | sameLine | newLine | ahead | notAhead | ref => rfl

/-- A grounded rule keeps full trees full, never loses all parts, and has a part to show once it has
read something. -/
theorem Derives.full (hrules : Grounded rules) {rule : Rule σ} {parts last : List Tree}
    {ts us : List Token} (h : Derives rules rule parts ts last us) {held : Bool}
    (hheld : held = true → parts ≠ []) (hground : rule.grounded held = true)
    (hfull : ∀ t ∈ parts, t.Full) :
    (∀ t ∈ last, t.Full) ∧ (parts ≠ [] → last ≠ []) ∧ (rule.reads = true → last ≠ []) := by
  induction h generalizing held with
  | empty | sameLine | newLine | ahead | notAhead | manyStop => exact ⟨hfull, id, nofun⟩
  | token | half | lineEnd =>
    refine ⟨List.forall_mem_cons.mpr ⟨.token _, hfull⟩, fun _ => ?_, fun _ => ?_⟩ <;> simp
  | leaf =>
    refine ⟨List.forall_mem_cons.mpr ⟨.node _ _ (by simp) ?_, hfull⟩, fun _ => ?_, fun _ => ?_⟩
    · simpa using Tree.Full.token _
    · simp
    · simp
  | @seq a b parts mid last ts us vs _ _ iha ihb =>
    simp only [grounded, Bool.and_eq_true] at hground
    obtain ⟨hmid, hkeep, hreads⟩ := iha hheld hground.1 hfull
    have hheld' : (held || a.reads) = true → mid ≠ [] := by
      rw [Bool.or_eq_true]
      exact fun h => h.elim (fun h => hkeep (hheld h)) hreads
    obtain ⟨hlast, hkeep', hreads'⟩ := ihb hheld' hground.2 hmid
    refine ⟨hlast, fun h => hkeep' (hkeep h), fun h => ?_⟩
    rw [reads, Bool.or_eq_true] at h
    exact h.elim (fun h => hkeep' (hreads h)) hreads'
  | altLeft _ ih =>
    simp only [grounded, Bool.and_eq_true] at hground
    obtain ⟨hlast, hkeep, hreads⟩ := ih hheld hground.1 hfull
    refine ⟨hlast, hkeep, fun h => hreads ?_⟩
    rw [reads, Bool.and_eq_true] at h
    exact h.1
  | altRight _ ih =>
    simp only [grounded, Bool.and_eq_true] at hground
    obtain ⟨hlast, hkeep, hreads⟩ := ih hheld hground.2 hfull
    refine ⟨hlast, hkeep, fun h => hreads ?_⟩
    rw [reads, Bool.and_eq_true] at h
    exact h.2
  | manyStep _ _ iha ihs =>
    obtain ⟨hmid, hkeep, -⟩ := iha hheld hground hfull
    obtain ⟨hlast, hkeep', -⟩ := ihs (fun h => hkeep (hheld h)) hground hmid
    exact ⟨hlast, fun h => hkeep' (hkeep h), nofun⟩
  | @ref name _ _ _ _ _ _ ih =>
    obtain ⟨hreads, hground⟩ := hrules name
    obtain ⟨hlast, hkeep, hmore⟩ := ih hheld (grounded_of_false hground) hfull
    exact ⟨hlast, hkeep, fun _ => hmore hreads⟩
  | node _ ih =>
    simp only [grounded, Bool.and_eq_true] at hground
    obtain ⟨hall, -, hmore⟩ := @ih false nofun hground.2 nofun
    refine ⟨List.forall_mem_cons.mpr ⟨.node _ _ ?_ ?_, hfull⟩, fun _ => ?_, fun _ => ?_⟩
    · simpa using hmore hground.1
    · simpa using hall
    · simp
    · simp
  | @grow kind a _ _ _ _ _ ih =>
    simp only [grounded, Bool.and_eq_true, Bool.or_eq_true] at hground
    obtain ⟨hall, hkeep, hmore⟩ := ih hheld hground.2 hfull
    refine ⟨List.forall_mem_singleton.mpr (.node _ _ ?_ ?_), fun _ => ?_, fun _ => ?_⟩
    · simpa using hground.1.elim (fun h => hkeep (hheld h)) hmore
    · simpa using hall
    · simp
    · simp
  | apart _ ih | longer _ _ ih =>
    obtain ⟨hall, -, hmore⟩ := @ih false nofun hground nofun
    refine ⟨List.forall_mem_append.mpr ⟨hall, hfull⟩, fun h => ?_, fun h => ?_⟩
    · simp [h]
    · simp [hmore h]
  | role _ ih =>
    obtain ⟨hall, -, hmore⟩ := @ih false nofun hground nofun
    refine ⟨List.forall_mem_append.mpr ⟨?_, hfull⟩, fun h => ?_, fun h => ?_⟩
    · simpa using fun t ht => (hall t ht).withRole _
    · simp [h]
    · simp [hmore h]

theorem Derives.full_of_nil (hrules : Grounded rules) {rule : Rule σ} {last : List Tree}
    {ts us : List Token} (h : Derives rules rule [] ts last us)
    (hground : rule.grounded false = true) : ∀ t ∈ last, t.Full := by
  have hheld : false = true → ([] : List Tree) ≠ [] := nofun
  exact (h.full hrules hheld hground (List.forall_mem_nil _)).1

end Rule

namespace Grammar
open Rule

theorem grounded_rule : Grounded Symbol.rule := by
  intro name
  rw [← Bool.and_eq_true]
  refine Symbol.of_allFlags (p := fun name => name.rule.reads && name.rule.grounded false) ?_
  cases name <;> rfl

end Grammar
end SentinelWrap.Go
