import Mathlib.Data.List.Forall2
import SentinelWrap.Proofs.Report.JsonToken

/-! Reading a JSON text. The reader takes one token after the other and keeps what is open around the
place it stands at. Every value is read back from the text that is written for it. -/
namespace SentinelWrap.JsonText

/-- An array or an object that is not closed yet, with what was read of it, last part first. -/
inductive Frame
  | array (items : List JsonValue)
  /-- The value of the named field is still to come. -/
  | object (fields : List (String × JsonValue)) (name : String)

/-- What the reader has to find next, inside of the frames that are open. -/
inductive State
  | value (around : List Frame)
  /-- After the opening bracket of an array. -/
  | firstItem (around : List Frame)
  /-- After the opening brace of an object. -/
  | firstField (around : List Frame)
  /-- After a comma in an object. -/
  | field (fields : List (String × JsonValue)) (around : List Frame)
  | colon (fields : List (String × JsonValue)) (name : String) (around : List Frame)
  /-- After a value: a comma or the end of what is around it. -/
  | after (value : JsonValue) (around : List Frame)

def begin? (around : List Frame) : Token → Option State
  | .bool value => some (.after (.bool value) around)
  | .number value => some (.after (.number value) around)
  | .string text => some (.after (.string text) around)
  | .openArray => some (.firstItem around)
  | .openObject => some (.firstField around)
  | _ => none

def step? : State → Token → Option State
  | .value around, token => begin? around token
  | .firstItem around, .closeArray => some (.after (.array []) around)
  | .firstItem around, token => begin? (.array [] :: around) token
  | .firstField around, .closeObject => some (.after (.object []) around)
  | .firstField around, .string name => some (.colon [] name around)
  | .field fields around, .string name => some (.colon fields name around)
  | .colon fields name around, .colon => some (.value (.object fields name :: around))
  | .after value (.array items :: around), .comma => some (.value (.array (value :: items) :: around))
  | .after value (.array items :: around), .closeArray =>
    some (.after (.array (value :: items).reverse) around)
  | .after value (.object fields name :: around), .comma =>
    some (.field ((name, value) :: fields) around)
  | .after value (.object fields name :: around), .closeObject =>
    some (.after (.object ((name, value) :: fields).reverse) around)
  | _, _ => none

def value? (text : String) : Option JsonValue := do
  match ← (← tokens? text.toList).foldlM step? (.value []) with
  | .after value [] => return value
  | _ => none

mutual

def tokensOf : JsonValue → List Token
  | .bool value => [.bool value]
  | .number value => [.number value]
  | .string text => [.string text]
  | .array items => .openArray :: ([.comma].intercalate (tokensOfItems items) ++ [.closeArray])
  | .object fields => .openObject :: ([.comma].intercalate (tokensOfFields fields) ++ [.closeObject])

def tokensOfItems : List JsonValue → List (List Token)
  | [] => []
  | item :: items => tokensOf item :: tokensOfItems items

def tokensOfFields : List (String × JsonValue) → List (List Token)
  | [] => []
  | (name, value) :: fields => (.string name :: .colon :: tokensOf value) :: tokensOfFields fields

end

theorem spells_newLine {depth : Nat} {text : String} {tokens : List Token} (h : Spells text tokens) :
    Spells (JsonValue.newLine depth ++ text) tokens := by
  refine h.blanks ?_
  simp [JsonValue.newLine, isBlank]

/-- Items with commas between them, and what ends them. -/
theorem spells_intercalate {depth : Nat} {texts : List String} {tokens : List (List Token)}
    (h : List.Forall₂ Spells texts tokens) (hne : texts ≠ []) {ending : String} {last : List Token}
    (hending : Spells ending last) (hseam : ∃ c cs, ending.toList = c :: cs ∧ c.isDigit = false) :
    Spells (("," ++ JsonValue.newLine depth).intercalate texts ++ ending)
      ([.comma].intercalate tokens ++ last) := by
  induction h with
  | nil => exact absurd rfl hne
  | @cons text token texts tokens htext hrest ih =>
    cases hrest with
    | nil => simpa using htext.append hending hseam
    | @cons next more texts tokens hnext hrest =>
      have hcomma : Spells ("," ++ (JsonValue.newLine depth ++
          (("," ++ JsonValue.newLine depth).intercalate (next :: texts) ++ ending)))
          (.comma :: ([.comma].intercalate (more :: tokens) ++ last)) :=
        .cons (fun _ => rfl) (spells_newLine (ih (by simp)))
      have hall := htext.append hcomma ⟨',', _, by simp; rfl, by decide⟩
      simpa [String.intercalate_cons_cons, List.intercalate_cons_cons, String.append_assoc] using hall

/-- Items between two brackets. -/
theorem spells_block {depth : Nat} {opening closing : String} {first last : Token}
    {texts : List String} {tokens : List (List Token)}
    (hopening : ∀ rest, token? (opening.toList ++ rest) = some (first, rest))
    (hclosing : ∀ rest, token? (closing.toList ++ rest) = some (last, rest))
    (h : List.Forall₂ Spells texts tokens) :
    Spells (JsonValue.block depth opening closing texts)
      (first :: ([.comma].intercalate tokens ++ [last])) := by
  cases h with
  | nil => exact .cons hopening (.single hclosing)
  | cons htext hrest =>
    have hending : Spells (JsonValue.newLine depth ++ closing) [last] :=
      spells_newLine (.single hclosing)
    have hitems := @spells_intercalate (depth + 1) _ _ (.cons htext hrest) (by simp) _ _ hending
      ⟨'\n', _, by simp [JsonValue.newLine]; rfl, by decide⟩
    simpa [JsonValue.block, String.append_assoc] using Spells.cons hopening (spells_newLine hitems)

mutual

/-- The text of a value is made of its tokens. -/
theorem spells_render (depth : Nat) : ∀ value : JsonValue,
    Spells (value.render depth) (tokensOf value)
  | .bool true => show Spells "true" [.bool true] from .single fun _ => rfl
  | .bool false => show Spells "false" [.bool false] from .single fun _ => rfl
  | .number n => .number n
  | .string text => .single (token?_quote text)
  | .array items => spells_block (fun _ => rfl) (fun _ => rfl) (spells_renderItems (depth + 1) items)
  | .object fields =>
    spells_block (fun _ => rfl) (fun _ => rfl) (spells_renderFields (depth + 1) fields)

theorem spells_renderItems (depth : Nat) : ∀ items : List JsonValue,
    List.Forall₂ Spells (JsonValue.renderItems depth items) (tokensOfItems items)
  | [] => .nil
  | item :: items => .cons (spells_render depth item) (spells_renderItems depth items)

theorem spells_renderFields (depth : Nat) : ∀ fields : List (String × JsonValue),
    List.Forall₂ Spells (JsonValue.renderFields depth fields) (tokensOfFields fields)
  | [] => .nil
  | (name, value) :: fields => by
    have hfield : Spells (JsonValue.quote name ++ (":" ++ (" " ++ value.render depth)))
        (.string name :: .colon :: tokensOf value) :=
      .cons (token?_quote name) (.cons (fun _ => rfl) ((spells_render depth value).blanks rfl))
    refine .cons ?_ (spells_renderFields depth fields)
    have hspace : ": " = ":" ++ " " := rfl
    rwa [hspace, String.append_assoc, String.append_assoc]

end

/-- The reader takes in the tokens of a value, whatever is open around it. -/
def IsRead (value : JsonValue) : Prop :=
  ∀ around, (tokensOf value).foldlM step? (.value around) = some (.after value around)

theorem exists_intercalate_cons {α : Type} (separator front : List α) (more : List (List α)) :
    ∃ rest, separator.intercalate (front :: more) = front ++ rest := by
  cases more with
  | nil => exact ⟨[], by simp⟩
  | cons next more => exact ⟨_, by rw [List.intercalate_cons_cons, List.append_assoc]⟩

/-- After the opening bracket, the first item begins like any other one. -/
theorem foldlM_firstItem (item : JsonValue) (rest : List Token) (around : List Frame) :
    (tokensOf item ++ rest).foldlM step? (.firstItem around) =
      (tokensOf item ++ rest).foldlM step? (.value (.array [] :: around)) := by
  cases item <;> rfl

private theorem foldlM_items {items : List JsonValue} (h : ∀ item ∈ items, IsRead item)
    (hne : items ≠ []) (before : List JsonValue) (around : List Frame) :
    List.foldlM step? (.value (.array before :: around))
        ([.comma].intercalate (tokensOfItems items) ++ [.closeArray]) =
      some (.after (.array (before.reverse ++ items)) around) := by
  induction items generalizing before with
  | nil => exact absurd rfl hne
  | cons item items ih =>
    rw [List.forall_mem_cons] at h
    cases items with
    | nil => simp [tokensOfItems, h.1 _, step?]
    | cons next items =>
      have hrest := ih h.2 (by simp) (item :: before)
      simp only [tokensOfItems, List.intercalate_cons_cons, List.append_assoc, List.reverse_cons]
        at hrest ⊢
      rw [List.foldlM_append, h.1]
      exact hrest

theorem isRead_array {items : List JsonValue} (h : ∀ item ∈ items, IsRead item) :
    IsRead (.array items) := by
  intro around
  cases items with
  | nil => rfl
  | cons item items =>
    have hitems := foldlM_items h (by simp) [] around
    -- The states differ only until the first token of the first item.
    obtain ⟨rest, hrest⟩ := exists_intercalate_cons [.comma] (tokensOf item) (tokensOfItems items)
    rw [tokensOf, List.foldlM_cons]
    rw [tokensOfItems, hrest, List.append_assoc] at hitems ⊢
    exact (foldlM_firstItem item _ around).trans hitems

private theorem foldlM_fields {fields : List (String × JsonValue)}
    (h : ∀ field ∈ fields, IsRead field.2)
    (hne : fields ≠ []) (before : List (String × JsonValue)) (around : List Frame) :
    List.foldlM step? (.field before around)
        ([.comma].intercalate (tokensOfFields fields) ++ [.closeObject]) =
      some (.after (.object (before.reverse ++ fields)) around) := by
  induction fields generalizing before with
  | nil => exact absurd rfl hne
  | cons field fields ih =>
    obtain ⟨name, value⟩ := field
    rw [List.forall_mem_cons] at h
    cases fields with
    | nil => simp [tokensOfFields, h.1 _, step?]
    | cons next fields =>
      have hrest := ih h.2 (by simp) ((name, value) :: before)
      simp only [tokensOfFields, List.intercalate_cons_cons, List.append_assoc, List.reverse_cons]
        at hrest ⊢
      change (tokensOf value ++ _).foldlM step? (.value (.object before name :: around)) = _
      rw [List.foldlM_append, h.1]
      exact hrest

theorem isRead_object {fields : List (String × JsonValue)} (h : ∀ field ∈ fields, IsRead field.2) :
    IsRead (.object fields) := by
  intro around
  cases fields with
  | nil => rfl
  | cons field fields =>
    obtain ⟨name, value⟩ := field
    have hfields := foldlM_fields h (by simp) [] around
    obtain ⟨rest, hrest⟩ := exists_intercalate_cons [.comma]
      (.string name :: .colon :: tokensOf value) (tokensOfFields fields)
    rw [tokensOf, List.foldlM_cons]
    rw [tokensOfFields, hrest] at hfields ⊢
    exact hfields

mutual

theorem isRead : ∀ value : JsonValue, IsRead value
  | .bool _ => fun _ => rfl
  | .number _ => fun _ => rfl
  | .string _ => fun _ => rfl
  | .array items => isRead_array (isRead_items items)
  | .object fields => isRead_object (isRead_fields fields)

theorem isRead_items : ∀ items : List JsonValue, ∀ item ∈ items, IsRead item
  | [] => by simp
  | item :: items => List.forall_mem_cons.mpr ⟨isRead item, isRead_items items⟩

theorem isRead_fields : ∀ fields : List (String × JsonValue), ∀ field ∈ fields, IsRead field.2
  | [] => by simp
  | (_, value) :: fields => List.forall_mem_cons.mpr ⟨isRead value, isRead_fields fields⟩

end

/-- A value is read back from its text, also if blanks follow. -/
theorem value?_render (value : JsonValue) (depth : Nat) {blanks : String}
    (h : blanks.toList.all isBlank = true) : value? (value.render depth ++ blanks) = some value := by
  have hblanks : tokens? blanks.toList = some [] := by
    rw [← List.append_nil blanks.toList, tokens?_append_of_blank h, tokens?]
  have hhead : ∀ c ∈ blanks.toList.head?, c.isDigit = false := fun c hc =>
    isDigit_of_isBlank (List.all_eq_true.mp h c (List.mem_of_mem_head? hc))
  have htokens := spells_render depth value blanks.toList hhead
  rw [value?, String.toList_append, htokens, hblanks]
  simp [isRead value []]

end SentinelWrap.JsonText
