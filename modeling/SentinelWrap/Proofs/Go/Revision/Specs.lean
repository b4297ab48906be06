import SentinelWrap.Proofs.Go.Revision.Amendment
import SentinelWrap.Proofs.Go.Revision.Import
import SentinelWrap.Proofs.Go.Verbatim
import SentinelWrap.Wrapping.Library

/-! The specs of an import declaration and the one of the library, and their trees: what is printed for
them gives their tokens again. -/
namespace SentinelWrap.Go

/-- A token that is left and is no sign is one of the tokens, but for the line break before it. -/
theorem Consumes.exists_of_mem {ts mid us : List Token} {u : Token} (h : Consumes ts mid us)
    (hu : u ∈ us) (hsign : u.kind ≠ .sign) : ∃ t ∈ ts, u.unmarked = t.unmarked := by
  induction h with
  | nil => exact ⟨u, hu, rfl⟩
  | token _ ih =>
    obtain ⟨t, ht, heq⟩ := ih hu
    exact ⟨t, List.mem_cons_of_mem _ ht, heq⟩
  | half _ hkind _ _ ih =>
    obtain ⟨t, ht, heq⟩ := ih hu
    rcases List.mem_cons.mp ht with rfl | ht
    · exact absurd ((congrArg Token.kind heq).trans hkind) hsign
    · exact ⟨t, List.mem_cons_of_mem _ ht, heq⟩
  | @lineEnd v _ _ _ _ _ _ ih =>
    obtain ⟨t, ht, heq⟩ := ih hu
    rcases List.mem_cons.mp ht with rfl | ht
    · exact ⟨v, List.mem_cons_self, heq⟩
    · exact ⟨t, List.mem_cons_of_mem _ ht, heq⟩

namespace Token

theorem Lexes.exists_leads {offset : Nat} {lineEnd : Option Nat} {cs : List Char} {ts : List Token}
    {t : Token} (h : Lexes offset lineEnd cs ts) (ht : t ∈ ts) (hkind : t.kind ≠ .finish) :
    ∃ r, Leads t.kind t.text.toList r := by
  obtain ⟨as, bs, rfl⟩ := List.append_of_mem ht
  have hbs : bs ≠ [] := by
    rw [← List.singleton_append, ← List.append_assoc] at h
    exact h.ne_nil_of_kind hkind
  obtain ⟨_, r, -, -, hleads, -⟩ := h.cut hbs
  exact ⟨r, hleads⟩

/-- A token inside of a range closes no comment, if the text of the range closes none. -/
theorem Sits.commentTail_eq_none {source body : List Char} {t : Token} {s : Span} (h : t.Sits source)
    (hbody : s.slice? source = some body) (hstart : s.start ≤ t.span.start)
    (hstop : t.span.stop ≤ s.stop) (hclosed : commentTail body = none) :
    commentTail t.text.toList = none := by
  obtain ⟨before, after, hsource, hbefore, hend⟩ := Span.slice?_eq_some_iff.mp hbody
  obtain ⟨before', after', rfl, hbefore', hend'⟩ := Span.slice?_eq_some_iff.mp h
  obtain ⟨x, rfl⟩ : before <+: before' :=
    Text.prefix_of_size_le ⟨body ++ after, hsource.symm⟩ ⟨_, rfl⟩ (by omega)
  rw [List.append_assoc, List.append_cancel_left_eq] at hsource
  obtain ⟨y, rfl⟩ : x ++ t.text.toList <+: body := by
    refine Text.prefix_of_size_le ⟨after', by simpa using hsource⟩ ⟨after, rfl⟩ ?_
    rw [Text.size_append] at *
    omega
  exact commentTail_of_append (commentTail_front hclosed)

end Token

namespace Grammar
open Rule Token
open Wrapping (librarySpec libraryAlias)

theorem importGroup_snd (points : Nat → Point) (t : Tree) :
    (Lowering.importGroup points t).2 = (specTrees t.children).map (Lowering.importSpec points) := by
  unfold Lowering.importGroup specTrees
  cases t.children.find? (·.kind == "import_spec_list") <;> rfl

theorem tokens_withRole (role : Role) (S : Tree) : (S.withRole role).tokens = S.tokens := by
  cases S with
  | token => rfl
  | node kind role' children => simp [Tree.withRole, Tree.tokens_node]

theorem importSpec_withRole (points : Nat → Point) (role : Role) (S : Tree) :
    Lowering.importSpec points (S.withRole role) = Lowering.importSpec points S := by
  cases S <;> rfl

variable {like : List Token} {S : Tree}

theorem SpecTokens.render_eq (h : SpecTokens like S) (points : Nat → Point) :
    (Lowering.importSpec points S).render.toList = specText like := by
  cases h with
  | path hp => rfl
  | named hn hp => simp [Lowering.importSpec, ImportSpec.render, Tree.children, Tree.leafText, specText]

theorem SpecTokens.tokens_eq (h : SpecTokens like S) : S.tokens = like := by
  cases h <;> simp [Tree.tokens_node]

/-- A spec that was read stands for tokens that may be written anew. -/
theorem exists_writable {tokens : List Token} {children : List Tree} {offset : Nat}
    {text : List Char} (hlexes : Lexes offset none text tokens)
    (h : Sited Symbol.rule tokens "import_spec" children) :
    ∃ like, SpecTokens like (.node "import_spec" .plain children) ∧ Writable like := by
  obtain ⟨name, a, left, ts, us, fuel, hname, hconsumes, hrun⟩ := h
  obtain ⟨-, hkind⟩ | ⟨-, hkind⟩ | ⟨rfl, -⟩ := symbol_of_isSited rfl hname
  case inl | inr.inl => exact absurd hkind (by decide)
  obtain ⟨like, hspec, rfl⟩ := exists_specTokens hrun
  refine ⟨like, hspec, fun t ht hsign => ?_⟩
  obtain ⟨u, hu, heq⟩ := hconsumes.exists_of_mem (List.mem_append_left us ht) hsign
  obtain ⟨hkind, htext, -⟩ : t.kind = u.kind ∧ t.text = u.text ∧ t.span = u.span := by
    simpa [Token.unmarked] using heq
  rw [hkind, htext]
  refine hlexes.exists_leads hu ?_
  rw [← hkind]
  cases hspec with
  | @path p hp =>
    obtain rfl := List.mem_singleton.mp ht
    rcases hp with hp | hp <;> simp [hp]
  | @named n p hn hp =>
    rcases List.mem_pair.mp ht with rfl | rfl
    · rcases hn with hn | hn <;> simp [hn.1]
    · rcases hp with hp | hp <;> simp [hp]

/-- A token of no place. -/
def looseToken (kind : TokenKind) (text : String) : Token := ⟨kind, text, ⟨0, 0⟩, none⟩

def libraryTokens (conflict : Bool) : List Token :=
  (if conflict then [looseToken .word libraryAlias] else []) ++
    [looseToken .string (librarySpec conflict).path]

def libraryTree (conflict : Bool) : Tree :=
  .node "import_spec" .plain ((if conflict then
      [.node "package_identifier" .plain [.token (looseToken .word libraryAlias)]] else []) ++
    [.node "interpreted_string_literal" .plain
      [.token (looseToken .string (librarySpec conflict).path)]])

theorem specTokens_library (conflict : Bool) :
    SpecTokens (libraryTokens conflict) (libraryTree conflict) := by
  cases conflict with
  | false => exact .path (.inl rfl)
  | true => exact @SpecTokens.named (looseToken .word libraryAlias) _ (.inr ⟨rfl, rfl⟩) (.inl rfl)

theorem writable_library (conflict : Bool) : Writable (libraryTokens conflict) := by
  have hpath : Leads .string (librarySpec conflict).path.toList [] := by
    cases conflict <;> exact leads_of_eval rfl rfl rfl
  have halias : Leads .word libraryAlias.toList [] := leads_of_eval rfl rfl rfl
  intro t ht _
  cases conflict with
  | false =>
    obtain rfl := List.mem_singleton.mp ht
    exact ⟨[], hpath⟩
  | true =>
    rcases List.mem_pair.mp ht with rfl | rfl
    · exact ⟨[], halias⟩
    · exact ⟨[], hpath⟩

theorem specOf_library (conflict : Bool) (body : List Char) :
    SpecOf body (librarySpec conflict) (libraryTree conflict) := by
  refine ⟨libraryTokens conflict, specTokens_library conflict, writable_library conflict, ?_, ?_⟩
  · cases conflict <;> rfl
  · intro _ t ht
    cases conflict with
    | false =>
      obtain rfl := List.mem_singleton.mp ht
      rfl
    | true => rcases List.mem_pair.mp ht with rfl | rfl <;> rfl

section
variable {source text body : List Char} {tokens pre init us : List Token} {r w t : Token}
  {cs : List Tree} {rest : Tree} {role : Role}

/-- The specs of an import declaration are nodes that stand in it. -/
theorem exists_of_mem_specTrees (h : ImportOf tokens cs pre r init w us t rest)
    (hplain : rest.Every Plain) (hS : S ∈ specTrees [rest]) :
    S.Within rest ∧ ∃ role' children, S = .node "import_spec" role' children := by
  rcases h.shape with ⟨children, rfl⟩ | ⟨items, rfl⟩
  · obtain rfl : S = .node "import_spec" .plain children := by
      simpa [specTrees, Tree.kind] using hS
    exact ⟨.refl _, _, _, rfl⟩
  · obtain ⟨hmem, hkind⟩ : S ∈ items ∧ S.kind = "import_spec" := by
      simpa [specTrees, Tree.kind, Tree.children] using hS
    cases S with
    | token u =>
      cases hplain with
      | node _ hplain _ =>
        have hamong := hplain.specs (.inr rfl) _ hmem
        rw [Tree.Among, allBut, bne_iff_ne] at hamong
        exact absurd hkind hamong
    | node kind role' children =>
      obtain rfl : kind = "import_spec" := hkind
      exact ⟨.child hmem (.refl _), _, _, rfl⟩

theorem ImportOf.specTrees_eq (h : ImportOf tokens cs pre r init w us t rest) :
    specTrees cs = specTrees [rest] := by
  have hlist : ((Tree.token t).kind == "import_spec_list") = false := by
    simp [Tree.kind, h.text_eq]
  have hspec : ((Tree.token t).kind == "import_spec") = false := by simp [Tree.kind, h.text_eq]
  rw [h.children, specTrees, specTrees, List.find?_cons, hlist, List.filter_cons, hspec]
  rfl

/-- The specs of a declaration that was read stand for tokens that may be written anew. -/
theorem ImportOf.exists_specTokens {offset : Nat} (h : ImportOf tokens cs pre r init w us t rest)
    (hsound : (Tree.node "import_declaration" role cs).Sound source)
    (hsited : ∀ c ∈ cs, c.Every fun kind cs => isSited kind = true → Sited Symbol.rule tokens kind cs)
    (hlexes : Lexes offset none text tokens) (hS : S ∈ specTrees [rest]) :
    S.Within rest ∧ ∃ like, SpecTokens like (S.withRole .plain) ∧ Writable like := by
  have hrest : rest ∈ cs := by simp [h.children]
  obtain ⟨hwithin, role', children, rfl⟩ :=
    exists_of_mem_specTrees h (hsound.child hrest).plain hS
  have hevery := (hsited rest hrest).within hwithin
  cases hevery with
  | node _ hspec _ => exact ⟨hwithin, exists_writable hlexes (hspec rfl)⟩

/-- The tokens after the first word of a declaration stand between its ends. -/
theorem ImportOf.row_rest (h : ImportOf tokens cs pre r init w us t rest)
    (hsound : (Tree.node "import_declaration" role cs).Sound source) :
    t.Sits source ∧ Row source t.span.stop rest.tokens ∧ endOf t.span.stop rest.tokens = w.span.stop := by
  obtain ⟨lo, hrow⟩ := hsound.row
  have hstop := (hsound.full.stands hrow).stop_eq
  have hspan : (Tree.node "import_declaration" role cs).stop = w.span.stop :=
    congrArg Span.stop h.span
  have htokens : (Tree.node "import_declaration" role cs).tokens = t :: rest.tokens := by
    simp [h.children, Tree.tokens_node]
  rw [htokens] at hrow hstop
  obtain ⟨hsits, -, -, hrow⟩ := hrow
  exact ⟨hsits, hrow, hstop.symm.trans hspan⟩

/-- The specs of a declaration that was read, with the library after them, have their tokens again
where they are printed. -/
theorem ImportOf.forall₂_specOf {offset : Nat} (h : ImportOf tokens cs pre r init w us t rest)
    (hsound : (Tree.node "import_declaration" role cs).Sound source)
    (hsited : ∀ c ∈ cs, c.Every fun kind cs => isSited kind = true → Sited Symbol.rule tokens kind cs)
    (hlexes : Lexes offset none text tokens)
    (hbody : Span.slice? ⟨r.span.stop, w.span.stop⟩ source = some body) (points : Nat → Point)
    (conflict : Bool) :
    List.Forall₂ (SpecOf body)
      ((Lowering.importGroup points (.node "import_declaration" role cs)).2 ++ [librarySpec conflict])
      ((specTrees [rest]).map (Tree.withRole .plain) ++ [libraryTree conflict]) := by
  obtain ⟨-, hrow, hstop⟩ := h.row_rest hsound
  rw [importGroup_snd, show (Tree.node "import_declaration" role cs).children = cs from rfl,
    h.specTrees_eq]
  refine List.rel_append ?_ (.cons (specOf_library conflict body) .nil)
  rw [List.forall₂_map_left_iff, List.forall₂_map_right_iff, List.forall₂_same]
  intro S hS
  obtain ⟨hwithin, like, htokens, hlike⟩ := h.exists_specTokens hsound hsited hlexes hS
  refine ⟨like, htokens, hlike, ?_, fun hclosed u hu => ?_⟩
  · rw [← importSpec_withRole points .plain]
    exact htokens.render_eq points
  · rw [← htokens.tokens_eq, tokens_withRole] at hu
    have hu' := hwithin.tokens_subset hu
    have hle := hrow.le_start hu'
    refine (hrow.sits hu').commentTail_eq_none hbody ?_ ?_ hclosed
    · rwa [← h.span_eq]
    · rw [← hstop]
      exact (hrow.bounds hu').2

end

end Grammar
end SentinelWrap.Go
