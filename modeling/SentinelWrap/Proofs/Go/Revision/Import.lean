import SentinelWrap.Proofs.Go.Revision.Block
import SentinelWrap.Proofs.Syntax.ImportLayout

/-! The text of an import declaration with one more spec. The specs are written anew, each on a line of
its own, so it gives their tokens again. -/
namespace SentinelWrap.Go.Grammar
open Rule Token
open Text (size)
open Text.Identifier (isContinue)

/-- Tokens that may be written anew. -/
def Writable (like : List Token) : Prop :=
  ∀ t ∈ like, t.kind ≠ .sign → ∃ r, Leads t.kind t.text.toList r

def specText : List Token → List Char
  | [] => []
  | [t] => t.text.toList
  | t :: ts => t.text.toList ++ ' ' :: specText ts

variable {like : List Token} {S : Tree} {after : List Char}

private theorem leads_path {p : Token} (hp : IsPath p) (h : Writable [p]) :
    Leads p.kind p.text.toList after := by
  obtain ⟨r, hr⟩ := h p (by simp) (by rcases hp with hp | hp <;> simp [hp])
  exact hr.string hp after

private theorem leads_importName {n : Token} (hn : IsImportName n) (h : Writable [n]) :
    Leads n.kind n.text.toList (' ' :: after) := by
  rcases hn with ⟨hkind, htext⟩ | ⟨hkind, -⟩
  · rw [hkind, htext]
    exact leads_of_eval rfl rfl rfl
  · obtain ⟨r, hr⟩ := h n (by simp) (by simp [hkind])
    rw [hkind] at hr ⊢
    obtain ⟨c, w, hw, hc, hcontinue, -⟩ := hr.word
    rw [hw]
    exact leads_word hc hcontinue (stops_cons.mpr (by decide))

/-- A spec that is written anew has its tokens, and the line break before it is kept. -/
theorem SpecTokens.exists_spells (h : SpecTokens like S) (hlike : Writable like) (offset : Nat)
    (mark : Option Nat) : ∃ t spec, Spells after offset mark (specText like) (t :: spec) none ∧
      (t :: spec).map Token.bare = like.map Token.bare ∧ t.lineEnd = mark ∧ t.span.start = offset := by
  cases h with
  | @path p hp =>
    refine ⟨_, [], .single (leads_path hp hlike), ?_, rfl, rfl⟩
    simp [Token.bare, specText]
  | @named n p hn hp =>
    obtain ⟨hname, hpath⟩ : Writable [n] ∧ Writable [p] := by
      simpa [Writable] using hlike
    have hall := (@Spells.single _ _ offset mark _
      (@leads_importName (p.text.toList ++ after) n hn hname)).append
      (.blank rfl (.single (leads_path hp hpath)))
    exact ⟨_, _, hall, by simp [Token.bare], rfl, rfl⟩

/-- A printed spec and its tree. It closes no comment that is not closed in some text. -/
def SpecOf (body : List Char) (spec : ImportSpec) (S : Tree) : Prop :=
  ∃ like, SpecTokens like S ∧ Writable like ∧ spec.render.toList = specText like ∧
    (commentTail body = none → ∀ t ∈ like, commentTail t.text.toList = none)

/-- Specs that are printed on lines of their own have their tokens on such lines. -/
theorem exists_lines {body : List Char} {specs : List ImportSpec} {Ss : List Tree}
    (h : List.Forall₂ (SpecOf body) specs Ss) (previous : Option Nat) (offset m : Nat) :
    ∃ ts r o Ss',
      Spells after offset (some m) ((Node.renderSpecs previous specs).toList ++ [')']) (ts ++ [r]) none ∧
      SpecLines ts Ss' ∧ Ss'.map Tree.bare = Ss.map Tree.bare ∧
      Ss'.map Tree.start = Node.offsetsFrom previous offset specs ∧
      (Terminal.sign ")").accepts r = true ∧ r.lineEnd = some o := by
  induction h generalizing previous offset m with
  | nil =>
    have hclose : Leads .sign [')'] after := leads_of_eval rfl rfl rfl
    exact ⟨[], _, m, [], .single hclose, .nil, rfl, rfl, rfl, rfl⟩
  | @cons spec S specs Ss hspec _ ih =>
    obtain ⟨like, htokens, hlike, htext, -⟩ := hspec
    have hline (offset : Nat) : ∃ ts r o Ss',
        Spells after offset (some m) ('\t' :: (specText like ++ '\n' ::
          ((Node.renderSpecs (spec.line <|> previous) specs).toList ++ [')']))) (ts ++ [r]) none ∧
        SpecLines ts Ss' ∧ Ss'.map Tree.bare = (S :: Ss).map Tree.bare ∧
        Ss'.map Tree.start = (offset + 1) :: Node.offsetsFrom (spec.line <|> previous)
          (offset + 1 + size (specText like) + 1) specs ∧
        (Terminal.sign ")").accepts r = true ∧ r.lineEnd = some o := by
      obtain ⟨ts, r, o, Ss', hspells, hlines, hbares, hstarts, hr⟩ := ih (spec.line <|> previous)
        (offset + '\t'.utf8Size + size (specText like) + '\n'.utf8Size)
        (offset + '\t'.utf8Size + size (specText like))
      obtain ⟨t, spec', hfirst, hbare, hmark, hstart⟩ :=
        htokens.exists_spells hlike (offset + '\t'.utf8Size) (some m)
      obtain ⟨S', hS', hbare'⟩ := htokens.exists_like hbare
      have hall := @Spells.append after _ _ _ (some m) none _ _ _ hfirst (.blank rfl hspells)
      rw [← List.append_assoc] at hall
      refine ⟨t :: spec' ++ ts, r, o, S' :: Ss', .blank rfl hall, .cons hS' hmark hlines, ?_, ?_, hr⟩
      · rw [List.map_cons, hbare', hbares, List.map_cons]
      · rw [List.map_cons, hS'.start_eq, hstart, hstarts]
        rfl
    rw [Node.toList_renderSpecs_cons, htext, Node.offsetsFrom, Node.gapBefore, htext]
    split_ifs
    · obtain ⟨ts, r, o, Ss', hspells, hlines⟩ := hline (offset + '\n'.utf8Size)
      refine ⟨ts, r, o, Ss', ?_, hlines⟩
      have hall := @Spells.blank after offset (some m) none '\n' _ _ rfl hspells
      simpa using hall
    · obtain ⟨ts, r, o, Ss', hspells, hlines⟩ := hline offset
      exact ⟨ts, r, o, Ss', by simpa using hspells, hlines⟩

private theorem unclosed_specText (h : SpecTokens like S)
    (hlike : ∀ t ∈ like, commentTail t.text.toList = none) {rest : List Char}
    (hrest : commentTail rest = none) : commentTail (specText like ++ '\n' :: rest) = none := by
  have hline : commentTail ('\n' :: rest) = none := by
    rw [commentTail_cons_eq_none]
    exact ⟨by simp, hrest⟩
  cases h with
  | @path p hp =>
    exact (commentTail_append_iff (by simp)).mpr ⟨hlike p (by simp), hline⟩
  | @named n p hn hp =>
    have hpath := (commentTail_append_iff (by simp)).mpr ⟨hlike p (by simp), hline⟩
    rw [specText, List.append_assoc, commentTail_append_iff (by simp), List.cons_append,
      commentTail_cons_eq_none]
    exact ⟨hlike n (by simp), by simp, hpath⟩
    simp

private theorem unclosed_lines {body rest : List Char} {specs : List ImportSpec} {Ss : List Tree}
    (h : List.Forall₂ (SpecOf body) specs Ss) (hbody : commentTail body = none)
    (hrest : commentTail rest = none) (previous : Option Nat) :
    commentTail ((Node.renderSpecs previous specs).toList ++ rest) = none := by
  induction h generalizing previous with
  | nil => exact hrest
  | @cons spec S specs Ss hspec _ ih =>
    obtain ⟨like, htokens, -, htext, hlike⟩ := hspec
    have hline := unclosed_specText htokens (hlike hbody) (ih (spec.line <|> previous))
    simp only [Node.renderSpecs, String.toList_append, htext]
    split_ifs <;> simpa [commentTail_cons_eq_none] using hline

def groupText (specs : List ImportSpec) : List Char :=
  "(\n".toList ++ ((Node.renderSpecs none specs).toList ++ [')'])

/-- An import declaration that is laid out as a group is a block. -/
theorem block_import {q : String} {change : Change} {r : Token} {mid us : List Token}
    {body after : List Char} {specs : List ImportSpec} {Ss children : List Tree}
    (hr : (Terminal.word "import").accepts r = true)
    (hread : ∀ u, (Terminal.word "import").accepts u = true → Ends Symbol.rule
      (.ref .importDeclaration) [] (u :: (mid ++ us))
        (.read [.node "import_declaration" .plain (.token u :: children)] us))
    (hspecs : List.Forall₂ (SpecOf body) specs Ss) (hne : Ss ≠ [])
    (hchange : ∀ u, u.span = r.span → change "import_declaration" (.token u :: children) =
      some (groupChildren u Ss)) : Block q change r mid us body after (groupText specs) := by
  have htext : r.text = "import" := (Terminal.accepts_word.mp hr).2
  refine ⟨fun after' hopen hclosed => ?_, fun {after' offset' mark' i j us'} hopen hmark hlt later => ?_⟩
  · have hlast : commentTail (')' :: after') = none := by
      rw [commentTail_cons_eq_none]
      exact ⟨by simp, hopen (commentTail_of_append hclosed)⟩
    have hlines := unclosed_lines hspecs (commentTail_front hclosed) hlast none
    simpa [groupText, commentTail_cons_eq_none] using hlines
  · have hword : Leads .word "import".toList (' ' :: (groupText specs ++ after')) :=
      leads_of_eval rfl rfl rfl
    have hopens : Leads .sign ['('] ('\n' :: ((Node.renderSpecs none specs).toList ++ [')'] ++ after')) :=
      leads_of_eval rfl rfl rfl
    obtain ⟨ts, close, o, Ss', hspells, hlines, hbares, -, hclose, hline⟩ := @exists_lines after' _ _ _
      hspecs none
      (offset' + size "import".toList + ' '.utf8Size + size ['('] + '\n'.utf8Size)
      (offset' + size "import".toList + ' '.utf8Size + size ['('])
    obtain ⟨l, hl, hgroup⟩ : ∃ l, (Terminal.sign "(").accepts l = true ∧ Spells after'
        (offset' + size "import".toList + ' '.utf8Size) none (groupText specs) (l :: (ts ++ [close])) none :=
      ⟨_, rfl, (Spells.single hopens).append (.blank rfl hspells)⟩
    have hall := (@Spells.single _ _ offset' mark' _ hword).append (.blank rfl hgroup)
    rw [htext]
    refine ⟨_, _, hall, .grouped hr rfl hmark hread (fun u hu => ?_) hchange hlt later⟩
    have hne' : Ss' ≠ [] := by
      rintro rfl
      exact hne (List.map_eq_nil_iff.mp hbares.symm)
    obtain ⟨children, hchildren, -, hends⟩ := hlines.exists_ends_group hne' hu hl hclose hline us'
    exact ⟨children, by rw [hchildren, bare_groupChildren hbares], by simpa using hends⟩

/-- An import declaration, and the tokens behind it. -/
structure ImportOf (tokens : List Token) (cs : List Tree) (pre : List Token) (r : Token)
    (init : List Token) (w : Token) (us : List Token) (t : Token) (rest : Tree) : Prop where
  tokens_eq : tokens = pre ++ r :: (init ++ [w] ++ us)
  accepts : (Terminal.word "import").accepts r = true
  kind_last : w.kind ≠ .finish
  span_eq : t.span = r.span
  text_eq : t.text = "import"
  children : cs = [.token t, rest]
  shape : (∃ children, rest = .node "import_spec" .plain children) ∨
    ∃ items, rest = .node "import_spec_list" .plain items
  span : (Tree.node "import_declaration" .plain cs).span = ⟨r.span.start, w.span.stop⟩
  read : ∀ u, (Terminal.word "import").accepts u = true → Ends Symbol.rule
    (.ref .importDeclaration) [] (u :: (init ++ [w] ++ us))
      (.read [.node "import_declaration" .plain [.token u, rest]] us)

theorem exists_of_derives_importSpec {parts last : List Tree} {ts us : List Token}
    (h : Derives Symbol.rule (.ref .importSpec) parts ts last us) :
    ∃ init w children, ts = init ++ [w] ++ us ∧ w.kind ≠ .finish ∧
      last = .node "import_spec" .plain children :: parts := by
  cases h with
  | ref hrun h =>
    obtain ⟨children, rfl⟩ : ∃ children, last = .node "import_spec" .plain children :: parts := by
      cases h
      exact ⟨_, rfl⟩
    obtain ⟨fuel, hrun⟩ := hrun
    have hspec : run Symbol.rule (fuel + 1) (.ref .importSpec) [] ts =
        .read [.node "import_spec" .plain children] us := run_node_nil hrun
    obtain ⟨spec, htokens, rfl⟩ := exists_specTokens hspec
    cases htokens with
    | @path p hp => exact ⟨[], p, _, rfl, by rcases hp with hp | hp <;> simp [hp], rfl⟩
    | @named n p hn hp => exact ⟨[n], p, _, rfl, by rcases hp with hp | hp <;> simp [hp], rfl⟩

/-- An import declaration holds a spec or a list of specs. -/
theorem exists_of_derives_import {ts us : List Token} {cs : List Tree}
    (h : Derives Symbol.rule (.ref .importDeclaration) [] ts
      [.node "import_declaration" .plain cs] us) :
    ∃ t init w rest, ts = t :: (init ++ [w] ++ us) ∧ (Terminal.word "import").accepts t = true ∧
      w.kind ≠ .finish ∧ cs = [.token t, rest] ∧
      ((∃ children, rest = .node "import_spec" .plain children) ∨
        ∃ items, rest = .node "import_spec_list" .plain items) := by
  cases h with
  | ref _ h =>
    cases h with
    | node h =>
      cases h with
      | seq hword hrest =>
        cases hword with
        | @token _ t _ _ ht =>
          cases hrest with
          | altLeft hspec =>
            obtain ⟨init, w, children, rfl, hw, rfl⟩ := exists_of_derives_importSpec hspec
            exact ⟨t, init, w, _, rfl, ht, hw, rfl, .inl ⟨_, rfl⟩⟩
          | altRight hlist =>
            cases hlist with
            | node hparens =>
              cases hparens with
              | seq hitems hclose =>
                cases hclose with
                | @token _ close _ _ hclose =>
                  obtain ⟨mid, -, hconsumes⟩ := hitems.consumes cuts_rule rfl
                  obtain ⟨init, w, rfl, hkind, -⟩ := hconsumes.exists_head
                  have hsign : close.kind = .sign :=
                    (Terminal.accepts_sign.mp hclose).1
                  refine ⟨t, init, w, _, by simp, ht, ?_, rfl, .inr ⟨_, rfl⟩⟩
                  rw [← hkind, hsign]
                  decide

theorem exists_importOf {tokens : List Token} {cs : List Tree}
    (h : Sited Symbol.rule tokens "import_declaration" cs) :
    ∃ pre r init w us t rest, ImportOf tokens cs pre r init w us t rest := by
  obtain ⟨name, a, left, ts, us, fuel, hname, hconsumes, hrun⟩ := h
  obtain ⟨-, hkind⟩ | ⟨rfl, -⟩ | ⟨-, hkind⟩ := symbol_of_isSited rfl hname
  case inl | inr.inr => exact absurd hkind (by decide)
  obtain ⟨t, init, w, rest, rfl, ht, hw, rfl, hshape⟩ := exists_of_derives_import (derives_of_run hrun)
  obtain ⟨hkind, htext⟩ := Terminal.accepts_word.mp ht
  obtain ⟨pre, r, rfl, hkind', hunmarked⟩ := hconsumes.exists_head
  obtain ⟨-, htext', hspan⟩ : t.kind = r.kind ∧ t.text = r.text ∧ t.span = r.span := by
    simpa [Token.unmarked] using hunmarked (by simp [hkind])
  refine ⟨pre, r, init, w, us, t, rest, rfl, ?_, hw, hspan, htext, rfl, hshape, ?_, fun u hu => ?_⟩
  · simp [← hkind', ← htext', hkind, htext]
  · have hall := @span_of_read _ _ (t :: (init ++ [w])) us fuel hrun (by simp)
    rw [hall, ← hspan]
    exact congrArg _ (@endOf_append_of_ne [w] (by simp) 0 0 (t :: init))
  · cases fuel with
    | zero => cases hrun
    | succ fuel => exact .ref (ends_other_head onlyStacks_rule rfl hrun hu)

/-- An edit that lays out an import declaration as a group replaces a block. -/
theorem ImportOf.replacesBlock {q : String} {change : Change} {tokens pre init us : List Token}
    {r w t : Token} {cs Ss : List Tree} {rest : Tree} {source before text : List Char}
    {specs : List ImportSpec} {e : Edit} (h : ImportOf tokens cs pre r init w us t rest)
    (hsource : source = before ++ text) (hlexes : Lexes (size before) none text tokens)
    (hspecs : ∀ body, Span.slice? ⟨r.span.stop, w.span.stop⟩ source = some body →
      List.Forall₂ (SpecOf body) specs Ss) (hne : Ss ≠ [])
    (hchange : ∀ u, u.span = r.span → change "import_declaration" [.token u, rest] =
      some (groupChildren u Ss))
    (hrange : e.range = (Tree.node "import_declaration" .plain cs).span)
    (hnew : e.newText.toList = "import".toList ++ ' ' :: groupText specs) :
    ReplacesBlock q change source tokens e := by
  obtain ⟨hkind, htext⟩ := Terminal.accepts_word.mp h.accepts
  have hend : endOf 0 (init ++ [w]) = w.span.stop := endOf_append_of_ne (by simp) 0 0 init
  rw [h.tokens_eq] at hlexes
  have hus : us ≠ [] := by
    have hall : pre ++ r :: (init ++ [w] ++ us) = (pre ++ r :: init) ++ [w] ++ us := by simp
    rw [hall] at hlexes
    exact hlexes.ne_nil_of_kind h.kind_last
  obtain ⟨x, y, rfl, -, -, hstart, hstop, hrest⟩ := hlexes.cut (by simp)
  rw [List.append_assoc, List.singleton_append] at hrest
  obtain ⟨x', after, rfl, -, -, hstart', hstop', hafter⟩ := hrest.cut hus
  have hbody : Span.slice? ⟨r.span.stop, w.span.stop⟩ source = some (x' ++ w.text.toList) := by
    refine Span.slice?_eq_some_iff.mpr ⟨before ++ x ++ r.text.toList, after, by simp [hsource], ?_, ?_⟩
    · simp only [Text.size_append]
      omega
    · simp only [Text.size_append]
      omega
  refine ⟨pre, r, init ++ [w], us, before ++ x, x' ++ w.text.toList, after, groupText specs,
    h.tokens_eq, ⟨hkind, .inr htext⟩, ⟨by simp, hus⟩, by simp [hsource], ?_, hstop, ?_, ?_, ?_, ?_, ?_⟩
  · rw [Text.size_append, hstart]
  · rw [hend, Text.size_append]
    omega
  · rw [hend, hrange, h.span]
  · rw [htext, hnew]
  · rwa [hend]
  · exact block_import h.accepts h.read (hspecs _ hbody) hne hchange

end SentinelWrap.Go.Grammar
