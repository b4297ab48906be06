import SentinelWrap.Proofs.Go.Grammar.Flags
import SentinelWrap.Proofs.Go.Grammar.Outcome

/-! Names, members and calls as expressions. -/
namespace SentinelWrap.Go.Grammar
open Rule

def mayName : Terminal → Bool
  | .name _ => true
  | .word text => !keywords.contains text && !valueWords.contains text
  | .kind k => k == .word
  | .sign _ => false

def maySign (texts : String → Bool) : Terminal → Bool
  | .sign text => texts text
  | .kind k => k == .sign
  | _ => false

private theorem mayName_of_accepts {t : Token} (ht : (Terminal.name valueWords).accepts t = true)
    (terminal : Terminal) (h : terminal.accepts t = true) : mayName terminal = true := by
  obtain ⟨hkind, hkeyword, hvalue⟩ := Terminal.accepts_name.mp ht
  cases terminal with
  | name => rfl
  | word text =>
    rw [Terminal.accepts_word] at h
    rw [mayName, ← h.2, hkeyword, hvalue]
    rfl
  | kind k =>
    obtain rfl := Terminal.accepts_kind.mp h
    simp [mayName, hkind]
  | sign text => simp [hkind] at h

theorem maySign_of_accepts {texts : String → Bool} {t : Token} (hkind : t.kind = .sign)
    (htext : texts t.text = true) (terminal : Terminal) (h : terminal.accepts t = true) :
    maySign texts terminal = true := by
  cases terminal with
  | word text | name reserved => simp [hkind] at h
  | kind k =>
    obtain rfl := Terminal.accepts_kind.mp h
    simp [maySign, hkind]
  | sign text =>
    rw [Terminal.accepts_sign] at h
    rw [maySign, ← h.2, htext]

def opening? : Symbol → Option String
  | .typeArguments | .plainTypeArguments | .typeParameters => some "["
  | .arguments | .parameters => some "("
  | .literalValue | .fieldList | .block => some "\x7b"
  | _ => none

/-- Named rules that begin with a bracket of another kind. -/
def opensOther (texts : String → Bool) (name : Symbol) : Bool := (opening? name).any (!texts ·)

private theorem refuses_opensOther (texts : String → Bool) (name : Symbol)
    (h : opensOther texts name = true) :
    name.rule.refuses (maySign texts) (opensOther texts) = true := by
  cases name with
  | typeArguments | plainTypeArguments | typeParameters | arguments | parameters | literalValue
  | fieldList | block =>
    simp only [opensOther, opening?, Option.any_some, Bool.not_eq_true'] at h
    simp [Symbol.rule, typeArguments, plainTypeArguments, typeParameters, arguments, parameters,
      literalValue, fieldList, block, parens, braces, sign, append_eq, refuses, maySign, h]
  | _ => cases h

variable {rule : GoRule} {parts last : List Tree} {t : Token} {ts us : List Token}

theorem not_derives_of_name (ht : (Terminal.name valueWords).accepts t = true)
    (hrule : rule.refuses mayName (fun _ => false) = true) :
    ¬Derives Symbol.rule rule parts (t :: ts) last us := by
  intro h
  have htable (name : Symbol) (hname : false = true) :
      name.rule.refuses mayName (fun _ => false) = true := nomatch hname
  rw [h.not_refuses (mayName_of_accepts ht) htable rfl] at hrule
  cases hrule

theorem not_derives_of_sign {p : String → Bool} (hkind : t.kind = .sign) (htext : p t.text = true)
    (hrule : rule.refuses (maySign p) (opensOther p) = true) :
    ¬Derives Symbol.rule rule parts (t :: ts) last us := by
  intro h
  rw [h.not_refuses (maySign_of_accepts hkind htext) (refuses_opensOther p) rfl] at hrule
  cases hrule

/-- Signs that begin neither an index nor a literal. -/
def isBar (text : String) : Bool := text != "[" && text != "\x7b"

/-- The next token is such a sign, and so is the next one after a member. -/
structure Barred (ts : List Token) : Prop where
  next : ∃ t rest, ts = t :: rest ∧ t.kind = .sign ∧ isBar t.text = true
  member : ∀ dot name us, ts = dot :: name :: us → (Terminal.sign ".").accepts dot = true →
    ∃ t rest, us = t :: rest ∧ t.kind = .sign ∧ isBar t.text = true

theorem isTest_joined (lineEnd : Bool) : (joined lineEnd).isTest = true := by
  cases lineEnd <;> rfl

/-- A qualified type name is a name, a dot and another name. -/
theorem exists_of_derives_qualified {lineEnd : Bool} {reserved : List String}
    (h : Derives Symbol.rule (node "qualified_type" (named "package_identifier" reserved ++
      joined lineEnd ++ sign "." ++ named "type_identifier" [])) parts (t :: ts) last us) :
    ∃ dot name, ts = dot :: name :: us ∧ (Terminal.sign ".").accepts dot = true := by
  cases h with
  | node h =>
    cases h with
    | seq h hname =>
      cases h with
      | seq h hdot =>
        cases h with
        | seq hfirst hjoined =>
          cases hfirst
          obtain ⟨-, rfl⟩ := hjoined.eq_of_isTest (isTest_joined lineEnd)
          cases hdot with
          | token hdot =>
            cases hname
            exact ⟨_, _, rfl, hdot⟩

variable {lineEnd : Bool}

/-- After a type name there is a sign that begins no literal. -/
theorem Barred.exists_of_derives (hts : Barred ts)
    (h : Derives Symbol.rule (operandType lineEnd) parts (t :: ts) last us) :
    ∃ t rest, us = t :: rest ∧ t.kind = .sign ∧ isBar t.text = true := by
  cases h with
  | altLeft h =>
    obtain ⟨dot, name, heq, hdot⟩ := exists_of_derives_qualified h
    exact hts.member dot name us heq hdot
  | altRight h =>
    cases h with
    | seq hname hjoined =>
      cases hname
      obtain ⟨-, rfl⟩ := hjoined.eq_of_isTest (isTest_joined lineEnd)
      exact hts.next

theorem Barred.not_derives_after_type (hts : Barred ts)
    (hrule : rule.refuses (maySign isBar) (opensOther isBar) = true) :
    ¬Derives Symbol.rule (operandType lineEnd ++ rule) parts (t :: ts) last us := by
  intro h
  cases h with
  | seq htype hlater =>
    obtain ⟨v, rest, rfl, hkind, htext⟩ := hts.exists_of_derives htype
    exact not_derives_of_sign hkind htext hrule hlater

theorem Barred.not_derives_generic {plain : Bool} (hts : Barred ts) :
    ¬Derives Symbol.rule (genericOperand lineEnd plain) parts (t :: ts) last us := by
  intro h
  cases h with
  | apart h => cases plain <;> exact hts.not_derives_after_type rfl h

theorem exists_of_derives_oneOf {first : GoRule} {rest : List GoRule}
    (h : Derives Symbol.rule (oneOf first rest) parts ts last us) :
    ∃ a ∈ first :: rest, Derives Symbol.rule a parts ts last us := by
  induction rest generalizing first with
  | nil => exact ⟨first, by simp, h⟩
  | cons next rest ih =>
    cases h with
    | altLeft h => exact ⟨first, by simp, h⟩
    | altRight h =>
      obtain ⟨a, ha, h⟩ := ih h
      exact ⟨a, List.mem_cons_of_mem _ ha, h⟩

theorem Barred.not_derives_firmType {plain : Bool} (hts : Barred ts)
    (ht : (Terminal.name valueWords).accepts t = true) :
    ¬Derives Symbol.rule (.ref (.firmType lineEnd plain)) parts (t :: ts) last us := by
  intro h
  cases h with
  | ref _ h =>
    obtain ⟨a, ha, h⟩ := exists_of_derives_oneOf h
    have hrefused (hrule : a.refuses mayName (fun _ => false) = true) :=
      not_derives_of_name ht hrule h
    simp only [List.mem_cons, List.not_mem_nil, or_false] at ha
    rcases ha with rfl | rfl | rfl | rfl | rfl | rfl | rfl | rfl | rfl | rfl | rfl
    case inr.inr.inr.inr.inr.inr.inr.inr.inl => exact hts.not_derives_generic h
    all_goals exact hrefused rfl

theorem Barred.exists_of_derives_softType (hts : Barred ts)
    (ht : (Terminal.name valueWords).accepts t = true)
    (h : Derives Symbol.rule (.ref (.softType lineEnd)) parts (t :: ts) last us) :
    ∃ t rest, us = t :: rest ∧ t.kind = .sign ∧ isBar t.text = true := by
  cases h with
  | ref _ h =>
    obtain ⟨a, ha, h⟩ := exists_of_derives_oneOf h
    simp only [List.mem_cons, List.not_mem_nil, or_false] at ha
    rcases ha with rfl | rfl | rfl
    · exact hts.exists_of_derives h
    · exact absurd h (not_derives_of_name ht rfl)
    · exact absurd h (not_derives_of_name ht rfl)

/-- The rules of an operand that are tried before a name. -/
def beforeName (lineEnd : Bool) : List GoRule :=
  string :: (literals ++ [allocation { lineEnd }, functionLiteral, compositeLiteral] ++
    namedLiterals { lineEnd } ++ typedOperands { lineEnd } ++
    [node "parenthesized_expression" (parens (expression .inside))])

theorem operand_eq (lineEnd : Bool) : ∃ first rest, operand { lineEnd } = oneOf first rest ∧
    first :: rest = beforeName lineEnd ++ [named "identifier" valueWords] := by
  refine ⟨string, _, rfl, ?_⟩
  simp [beforeName]

theorem ends_oneOf {first a : GoRule} {rest before after : List GoRule}
    (hrules : first :: rest = before ++ a :: after)
    (hbefore : ∀ b ∈ before, Ends Symbol.rule b parts ts .rejected)
    (ha : Ends Symbol.rule a parts ts (.read last us)) :
    Ends Symbol.rule (oneOf first rest) parts ts (.read last us) := by
  induction before generalizing first rest with
  | nil =>
    obtain ⟨rfl, rfl⟩ := List.cons.inj hrules
    cases rest with
    | nil => exact ha
    | cons next rest => exact ha.altLeft
  | cons b before ih =>
    obtain ⟨rfl, hrest⟩ := List.cons.inj hrules
    obtain ⟨hb, hbefore⟩ := List.forall_mem_cons.mp hbefore
    cases rest with
    | nil => simp at hrest
    | cons next rest => exact hb.altRight (ih hrest hbefore)

theorem Barred.not_derives_before (hts : Barred ts)
    (ht : (Terminal.name valueWords).accepts t = true) (hrule : rule ∈ beforeName lineEnd) :
    ¬Derives Symbol.rule rule parts (t :: ts) last us := by
  intro h
  have hrefused (hrule : rule.refuses mayName (fun _ => false) = true) :=
    not_derives_of_name ht hrule h
  simp only [beforeName, List.mem_cons, List.mem_append, List.not_mem_nil, or_false, or_assoc]
    at hrule
  rcases hrule with rfl | hrule | rfl | rfl | rfl | hrule | hrule | rfl
  case inr.inl =>
    simp only [literals, List.mem_cons, List.not_mem_nil, or_false] at hrule
    rcases hrule with rfl | rfl | rfl | rfl | rfl | rfl | rfl | rfl <;> exact hrefused rfl
  case inr.inr.inr.inr.inr.inl =>
    rcases List.mem_append.mp hrule with hrule | hrule
    · simp only [Bool.false_eq_true, if_false, List.mem_cons, List.not_mem_nil, or_false] at hrule
      rcases hrule with rfl | rfl
      · cases h with
        | apart h =>
          cases h with
          | seq h _ => exact hts.not_derives_generic h
      · cases h with
        | apart h =>
          cases h with
          | seq h hvalue =>
            obtain ⟨dot, name, heq, hdot⟩ := exists_of_derives_qualified h
            obtain ⟨v, rest, rfl, hkind, htext⟩ := hts.member dot name _ heq hdot
            exact not_derives_of_sign hkind htext rfl hvalue
    · obtain rfl := List.mem_singleton.mp hrule
      cases h with
      | apart h =>
        cases h with
        | seq h hvalue =>
          cases h with
          | seq hname hjoined =>
            cases hname
            obtain ⟨-, rfl⟩ := hjoined.eq_of_isTest (isTest_joined lineEnd)
            obtain ⟨v, rest, rfl, hkind, htext⟩ := hts.next
            exact not_derives_of_sign hkind htext rfl hvalue
  case inr.inr.inr.inr.inr.inr.inl =>
    simp only [typedOperands, List.mem_cons, List.not_mem_nil, or_false] at hrule
    rcases hrule with rfl | rfl | rfl
    · cases h with
      | apart h =>
        cases h with
        | seq h _ => exact hts.not_derives_firmType ht h
    · cases h with
      | apart h =>
        cases h with
        | seq h _ => exact hts.not_derives_firmType ht h
    · cases h with
      | apart h =>
        cases h with
        | seq h hlater =>
          obtain ⟨v, rest, rfl, hkind, htext⟩ := hts.exists_of_derives_softType ht h
          exact not_derives_of_sign hkind htext rfl hlater
  all_goals exact hrefused rfl

private theorem pays_before (h : rule ∈ beforeName lineEnd) : rule.pays = true := by
  have hall : ∀ lineEnd, (beforeName lineEnd).all pays = true := by decide +kernel
  exact List.all_eq_true.mp (hall lineEnd) rule h

/-- A name is read as an operand, unless an index or a literal may begin after it. -/
theorem ends_identifier (ht : (Terminal.name valueWords).accepts t = true) (hts : Barred ts) :
    Ends Symbol.rule (.ref (.operand { lineEnd })) parts (t :: ts)
      (.read (.node "identifier" .plain [.token t] :: parts) ts) := by
  obtain ⟨first, rest, hoperand, hrules⟩ := operand_eq lineEnd
  refine Ends.ref ?_
  rw [Symbol.rule, hoperand]
  refine ends_oneOf hrules (fun b hb => ?_) (ends_leaf ht)
  exact ends_rejected (pays_before hb) fun _ _ => hts.not_derives_before ht hb

def mayWord (text : String) : Terminal → Bool
  | .word w => w == text
  | .name reserved => !keywords.contains text && !reserved.contains text
  | .kind k => k == .word
  | .sign _ => false

private theorem ends_rejected_of_word {text : String} (ht : (Terminal.word text).accepts t = true)
    (hpays : rule.pays = true) (hrule : rule.refuses (mayWord text) (fun _ => false) = true) :
    Ends Symbol.rule rule parts (t :: ts) .rejected := by
  refine ends_rejected hpays fun last us h => ?_
  rw [Terminal.accepts_word] at ht
  have hmay (terminal : Terminal) (h : terminal.accepts t = true) : mayWord text terminal = true := by
    cases terminal with
    | word w =>
      rw [Terminal.accepts_word] at h
      simp [mayWord, ← h.2, ht.2]
    | name reserved => simpa [mayWord, ht] using h
    | kind k =>
      obtain rfl := Terminal.accepts_kind.mp h
      simp [mayWord, ht.1]
    | sign w => simp [ht.1] at h
  have htable (name : Symbol) (hname : false = true) :
      name.rule.refuses (mayWord text) (fun _ => false) = true := by cases hname
  rw [h.not_refuses hmay htable rfl] at hrule
  cases hrule

def wordKind (text : String) : String :=
  if ["nil", "true", "false", "iota"].contains text then text else "identifier"

def wordLeaf (t : Token) : Tree := .node (wordKind t.text) .plain [.token t]

/-- An operand is read by the first of its rules that does not refuse its word. -/
theorem ends_operand_of_word {text : String} {a : GoRule}
    (ht : (Terminal.word text).accepts t = true)
    (hfind : (beforeName false).find?
      (fun b => !(b.pays && b.refuses (mayWord text) fun _ => false)) = some a)
    (ha : Ends Symbol.rule a parts (t :: ts) (.read last us)) :
    Ends Symbol.rule (.ref (.operand .inside)) parts (t :: ts) (.read last us) := by
  obtain ⟨first, rest, hoperand, hrules⟩ := operand_eq false
  obtain ⟨-, before, after, hsplit, hbefore⟩ := List.find?_eq_some_iff_append.mp hfind
  rw [hsplit, List.append_assoc, List.cons_append] at hrules
  refine .ref ?_
  rw [Symbol.rule, Follow.inside, hoperand]
  refine ends_oneOf hrules (fun b hb => ?_) ha
  have hrefuses := hbefore b hb
  rw [Bool.not_not, Bool.and_eq_true] at hrefuses
  exact ends_rejected_of_word ht hrefuses.1 hrefuses.2

/-- An allocator without arguments is a name. -/
theorem ends_allocation {u : Token} (hcall : ¬(Terminal.sign "(").accepts u = true)
    (ht : (Terminal.word "new").accepts t = true ∨ (Terminal.word "make").accepts t = true) :
    Ends Symbol.rule (allocation .inside) parts (t :: u :: ts)
      (.read (.node "identifier" .plain [.token t] :: parts) (u :: ts)) := by
  have hname : Ends Symbol.rule (leaf "identifier" (.word "new") ||| leaf "identifier" (.word "make"))
      [] (t :: u :: ts) (.read [.node "identifier" .plain [.token t]] (u :: ts)) := by
    by_cases hnew : (Terminal.word "new").accepts t = true
    · exact .altLeft (ends_leaf hnew)
    · exact .altRight (ends_leaf_rejected hnew) (ends_leaf (ht.resolve_left hnew))
  have hrejected (parts : List Tree) : Ends Symbol.rule (grow "call_expression" (node "argument_list"
      (parens (opt (type false ++ many (comma ++ expression .inside) ++ opt comma))))) parts (u :: ts)
      .rejected :=
    .grow_rejected (.node_rejected (.seq_rejected (.seq_rejected (ends_token_rejected hcall))))
  exact .apart (hname.seq (.altRight (ends_empty.seq (hrejected _)) (ends_notAhead hcall)))

/-- A word is read as an operand, unless arguments, an index or a literal may begin after it. -/
theorem ends_word {u : Token} (hkind : t.kind = .word) (hkeyword : keywords.contains t.text = false)
    (hts : Barred (u :: ts)) (hcall : ¬(Terminal.sign "(").accepts u = true) :
    Ends Symbol.rule (.ref (.operand .inside)) parts (t :: u :: ts)
      (.read (wordLeaf t :: parts) (u :: ts)) := by
  unfold wordLeaf wordKind
  by_cases hvalue : valueWords.contains t.text = true
  · have haccepts : (Terminal.word t.text).accepts t = true := by simp [hkind]
    have hmem : t.text ∈ valueWords := by simpa using hvalue
    simp only [valueWords, List.mem_cons, List.not_mem_nil, or_false] at hmem
    rcases hmem with h | h | h | h | h | h <;> rw [h] at haccepts ⊢
    · exact ends_operand_of_word haccepts rfl (ends_leaf haccepts)
    · exact ends_operand_of_word haccepts rfl (ends_leaf haccepts)
    · exact ends_operand_of_word haccepts rfl (ends_leaf haccepts)
    · exact ends_operand_of_word haccepts rfl (ends_leaf haccepts)
    · exact ends_operand_of_word haccepts rfl (ends_allocation hcall (.inl haccepts))
    · exact ends_operand_of_word haccepts rfl (ends_allocation hcall (.inr haccepts))
  · have hname : (Terminal.name valueWords).accepts t = true :=
      Terminal.accepts_name.mpr ⟨hkind, hkeyword, by simpa using hvalue⟩
    have hplain : ["nil", "true", "false", "iota"].contains t.text = false := by
      simp only [valueWords, List.contains_eq_mem, List.mem_cons, List.not_mem_nil, or_false,
        not_or, decide_eq_true_eq] at hvalue
      simp [hvalue]
    rw [hplain]
    exact ends_identifier hname hts

def suffixTail (follow : Follow) : GoRule := joined follow.lineEnd ++ .ref (.suffix follow)

def side (level : Nat) (follow : Follow) : GoRule :=
  if level < 5 then .ref (.binary follow (level + 1)) else .ref (.unary follow)

/-- What goes on after an expression of this level. -/
def binaryTail (follow : Follow) (level : Nat) : GoRule :=
  joined follow.lineEnd ++
    grow "binary_expression" (operator follow level ++ side level { follow with typeSwitch := false })

/-- No expression goes on here. -/
structure Halts (follow : Follow) (ts : List Token) : Prop where
  suffix (parts : List Tree) : Ends Symbol.rule (suffixTail follow) parts ts .rejected
  binary (level : Nat) (h : 1 ≤ level ∧ level ≤ 5) (parts : List Tree) :
    Ends Symbol.rule (binaryTail follow level) parts ts .rejected

def isStop (text : String) : Bool := text == "," || text == ")"

theorem halts_of_isStop (hkind : t.kind = .sign) (htext : isStop t.text = true) :
    Halts .inside (t :: ts) where
  suffix parts := by
    refine ends_rejected rfl fun last us h => ?_
    cases h with
    | seq hjoined h =>
      obtain ⟨-, rfl⟩ := hjoined.eq_of_isTest rfl
      cases h with
      | ref _ h => exact not_derives_of_sign hkind htext rfl h
  binary level hlevel parts := by
    obtain ⟨hlow, hhigh⟩ := hlevel
    match level with
    | 1 | 2 | 3 | 4 | 5 => exact ends_rejected rfl fun last us h => not_derives_of_sign hkind htext rfl h

variable {follow : Follow} {X : Tree}

theorem Halts.ends_level (hus : Halts follow us) (level : Nat) (hlevel : 1 ≤ level ∧ level ≤ 5)
    (h : Ends Symbol.rule (side level follow) [] ts (.read [X] us)) (parts : List Tree) :
    Ends Symbol.rule (.ref (.binary follow level)) parts ts (.read (X :: parts) us) :=
  .ref (.apart (h.seq (.manyStop (hus.binary level hlevel [X]))))

theorem Halts.ends_expression (hus : Halts follow us)
    (h : Ends Symbol.rule (.ref (.unary follow)) [] ts (.read [X] us)) (parts : List Tree) :
    Ends Symbol.rule (.ref (.expression follow)) parts ts (.read (X :: parts) us) := by
  have h5 := hus.ends_level 5 (by decide) h []
  have h4 := hus.ends_level 4 (by decide) h5 []
  have h3 := hus.ends_level 3 (by decide) h4 []
  have h2 := hus.ends_level 2 (by decide) h3 []
  exact .ref (hus.ends_level 1 (by decide) h2 parts)

/-- Signs that begin an expression without an operand. -/
def isPrefixSign (text : String) : Bool :=
  ["+", "-", "!", "^", "&", "++", "--", "&&", "&^"].contains text

def mayOther : Terminal → Bool
  | .sign _ => false
  | .kind k => k != .sign
  | _ => true

private theorem not_derives_of_ne_sign (hkind : t.kind ≠ .sign)
    (hrule : rule.refuses mayOther (fun _ => false) = true) :
    ¬Derives Symbol.rule rule parts (t :: ts) last us := by
  intro h
  have hmay (terminal : Terminal) (h : terminal.accepts t = true) : mayOther terminal = true := by
    cases terminal with
    | word text | name reserved => rfl
    | kind k =>
      obtain rfl := Terminal.accepts_kind.mp h
      simpa [mayOther] using hkind
    | sign text => simp [hkind] at h
  have htable (name : Symbol) (hname : false = true) :
      name.rule.refuses mayOther (fun _ => false) = true := by cases hname
  rw [h.not_refuses hmay htable rfl] at hrule
  cases hrule

theorem ends_unary (ht : t.kind = .sign → isPrefixSign t.text = false)
    (h : Ends Symbol.rule (.ref (.primary follow)) parts (t :: ts) (.read last us)) :
    Ends Symbol.rule (.ref (.unary follow)) parts (t :: ts) (.read last us) := by
  refine .ref ?_
  by_cases hstar : (Terminal.sign "*").accepts t = true
  · exact .altLeft (.seq (.altLeft (ends_ahead hstar)) h)
  by_cases harrow : (Terminal.sign "<-").accepts t = true
  · exact .altLeft (.seq (.altRight (ends_ahead_rejected hstar) (ends_ahead harrow)) h)
  refine .altRight ?_ (.altRight ?_ h)
  · exact .seq_rejected (.altRight (ends_ahead_rejected hstar) (ends_ahead_rejected harrow))
  · refine ends_rejected rfl fun last us h => ?_
    by_cases hkind : t.kind = .sign
    · have htext : (!isPrefixSign t.text && t.text != "*" && t.text != "<-") = true := by
        simp only [Terminal.accepts_sign, hkind, true_and] at hstar harrow
        simp [ht hkind, hstar, harrow]
      exact not_derives_of_sign (p := fun s => !isPrefixSign s && s != "*" && s != "<-")
        hkind htext rfl h
    · exact not_derives_of_ne_sign hkind rfl h

theorem ends_joined (ht : lineEnd = true → t.lineEnd = none) :
    Ends Symbol.rule (joined lineEnd) parts (t :: ts) (.read parts (t :: ts)) := by
  cases lineEnd with
  | false => exact ends_empty
  | true => exact ends_sameLine (ht rfl)

variable {n d m l r : Token}

theorem ends_selector (follow : Follow) (hd : (Terminal.sign ".").accepts d = true)
    (hline : follow.lineEnd = true → d.lineEnd = none)
    (hm : (Terminal.name []).accepts m = true) :
    Ends Symbol.rule (suffixTail follow) parts (d :: m :: ts)
      (.read [.node "selector_expression" .plain
        (parts.reverse ++ [.token d, .node "field_identifier" .plain [.token m]])] ts) := by
  have hmember : Ends Symbol.rule (grow "selector_expression"
      (sign "." ++ named "field_identifier" [])) parts (d :: m :: ts) _ :=
    .grow (.seq (ends_token hd) (ends_leaf hm))
  simp only [List.reverse_cons, List.append_assoc, List.singleton_append] at hmember
  exact .seq (ends_joined hline) (.ref hmember.altLeft)

private theorem ends_call_suffix (follow : Follow) {args : Tree}
    (hl : (Terminal.sign "(").accepts l = true) (hline : follow.lineEnd = true → l.lineEnd = none)
    (hargs : Ends Symbol.rule (.ref .arguments) parts (l :: ts) (.read (args :: parts) us)) :
    Ends Symbol.rule (suffixTail follow) parts (l :: ts)
      (.read [.node "call_expression" .plain (parts.reverse ++ [args])] us) := by
  obtain ⟨hkind, htext⟩ := Terminal.accepts_sign.mp hl
  rw [← beq_iff_eq] at htext
  have hrejected {rule : GoRule} (hpays : rule.pays = true)
      (hrule : rule.refuses (maySign (· == "(")) (opensOther (· == "(")) = true) :
      Ends Symbol.rule rule parts (l :: ts) .rejected :=
    ends_rejected hpays fun _ _ => not_derives_of_sign hkind htext hrule
  refine .seq (ends_joined hline) (.ref ?_)
  refine .altRight (hrejected rfl rfl) (.altRight (hrejected ?_ ?_) (.altRight (hrejected rfl rfl) ?_))
  · cases follow.typeSwitch <;> rfl
  · cases follow.typeSwitch <;> rfl
  · rw [← List.reverse_cons]
    exact .altLeft (.grow hargs)

def memberCall (n d m : Token) (args : Tree) : Tree :=
  .node "call_expression" .plain
    [.node "selector_expression" .plain
      [.node "identifier" .plain [.token n], .token d, .node "field_identifier" .plain [.token m]],
     args]

theorem ends_memberCall {args : Tree} (hn : (Terminal.name valueWords).accepts n = true)
    (hd : (Terminal.sign ".").accepts d = true) (hm : (Terminal.name []).accepts m = true)
    (hl : (Terminal.sign "(").accepts l = true)
    (hline : lineEnd = true → d.lineEnd = none ∧ l.lineEnd = none)
    (hargs : ∀ parts, Ends Symbol.rule (.ref .arguments) parts (l :: ts) (.read (args :: parts) us))
    (hus : Halts { lineEnd } us) (parts : List Tree) :
    Ends Symbol.rule (.ref (.expression { lineEnd })) parts (n :: d :: m :: l :: ts)
      (.read (memberCall n d m args :: parts) us) := by
  have hbarred : Barred (d :: m :: l :: ts) := by
    rw [Terminal.accepts_sign] at hd hl
    refine ⟨⟨d, _, rfl, hd.1, by rw [hd.2]; rfl⟩, fun dot name us heq _ => ?_⟩
    simp only [List.cons.injEq] at heq
    exact ⟨l, ts, heq.2.2.symm, hl.1, by rw [hl.2]; rfl⟩
  have hname : n.kind = .word := (Terminal.accepts_name.mp hn).1
  have hprimary : Ends Symbol.rule (.ref (.operand { lineEnd }) ++ many (suffixTail { lineEnd })) []
      (n :: d :: m :: l :: ts) (.read [memberCall n d m args] us) := by
    refine .seq (ends_identifier hn hbarred) ?_
    refine .manyStep (ends_selector { lineEnd } hd (fun h => (hline h).1) hm) ?_
    refine .manyStep (ends_call_suffix { lineEnd } hl (fun h => (hline h).2) (hargs _)) ?_
    exact .manyStop (hus.suffix _)
  have hunary : Ends Symbol.rule (.ref (.unary { lineEnd })) [] (n :: d :: m :: l :: ts)
      (.read [memberCall n d m args] us) :=
    ends_unary (fun hsign => by cases hname.symm.trans hsign) (.ref (.apart hprimary))
  exact hus.ends_expression hunary parts

/-- The names of what an expression may begin with. -/
def opensValue : Symbol → Bool
  | .expression _ | .binary _ _ | .unary _ | .primary _ | .operand _ | .firmType _ _
  | .softType _ => true
  | _ => false

private theorem refuses_opensValue (name : Symbol) (h : opensValue name = true) :
    name.rule.refuses (maySign isStop) opensValue = true := by
  refine Symbol.of_allFlags (p := fun name => name.rule.refuses (maySign isStop) opensValue) ?_
  cases name with
  | expression | binary | unary | primary | operand | firmType | softType => rfl
  | _ => cases h

theorem not_derives_expression (hkind : t.kind = .sign) (htext : isStop t.text = true) :
    ¬Derives Symbol.rule (.ref (.expression follow)) parts (t :: ts) last us := by
  intro h
  have := h.not_refuses (maySign_of_accepts hkind htext) refuses_opensValue rfl
  cases this

theorem ends_no_arguments (hl : (Terminal.sign "(").accepts l = true)
    (hr : (Terminal.sign ")").accepts r = true) (parts : List Tree) :
    Ends Symbol.rule (.ref .arguments) parts (l :: r :: us)
      (.read (.node "argument_list" .plain [.token l, .token r] :: parts) us) := by
  obtain ⟨hkind, hclose⟩ := Terminal.accepts_sign.mp hr
  have htext : isStop r.text = true := by simp [isStop, hclose]
  refine .ref (.node (.seq (.seq (ends_token hl) (.altRight ?_ ends_empty)) (ends_token hr)))
  refine ends_rejected rfl fun last us h => ?_
  cases h with
  | seq h _ =>
    cases h with
    | seq h _ =>
      cases h with
      | apart h =>
        cases h with
        | seq h _ => exact not_derives_expression hkind htext h

/-- An expression is a whole argument in front of such a sign. -/
theorem ends_argument (hkind : t.kind = .sign) (htext : isStop t.text = true)
    (h : Ends Symbol.rule (expression .inside) [] ts (.read [X] (t :: us))) (parts : List Tree) :
    Ends Symbol.rule (apart (expression .inside ++ opt (grow "variadic_argument" (sign "..."))))
      parts ts (.read (X :: parts) (t :: us)) :=
  .apart (.seq h (.altRight
    (ends_rejected rfl fun _ _ => not_derives_of_sign hkind htext rfl) ends_empty))

theorem ends_two_arguments {c : Token} {Y : Tree} {vs : List Token}
    (hl : (Terminal.sign "(").accepts l = true)
    (hX : Ends Symbol.rule (expression .inside) [] ts (.read [X] (c :: vs)))
    (hc : (Terminal.sign ",").accepts c = true)
    (hY : Ends Symbol.rule (expression .inside) [] vs (.read [Y] (r :: us)))
    (hr : (Terminal.sign ")").accepts r = true) (parts : List Tree) :
    Ends Symbol.rule (.ref .arguments) parts (l :: ts)
      (.read (.node "argument_list" .plain [.token l, X, .token c, Y, .token r] :: parts) us) := by
  obtain ⟨hckind, hctext⟩ := Terminal.accepts_sign.mp hc
  obtain ⟨hrkind, hrtext⟩ := Terminal.accepts_sign.mp hr
  have hfirst := ends_argument hckind (by rw [hctext]; rfl) hX
  have hsecond := ends_argument hrkind (by rw [hrtext]; rfl) hY
  have hcomma (parts : List Tree) : Ends Symbol.rule comma parts (r :: us) .rejected :=
    ends_token_rejected (by simp [hrtext])
  have hlater : Ends Symbol.rule (many (comma ++ apart (expression .inside ++
      opt (grow "variadic_argument" (sign "..."))))) [X, .token l] (c :: vs)
      (.read [Y, .token c, X, .token l] (r :: us)) :=
    .manyStep (.seq (ends_token hc) (hsecond _)) (.manyStop (.seq_rejected (hcomma _)))
  have hlist := ((hfirst [.token l]).seq hlater).seq (.altRight (hcomma _) ends_empty)
  exact .ref (.node (.seq (.seq (ends_token hl) hlist.altLeft) (ends_token hr)))

end SentinelWrap.Go.Grammar
