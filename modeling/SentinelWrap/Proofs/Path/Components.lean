import Mathlib.Tactic.Common
import SentinelWrap.FileSystem

/-! Where paths lead, by their components. A path is a stem, up to its last component that is not a
name, and the names after it; these are the end of the place that it leads to. So two paths of one
stem that lead to one place are the same path. -/
namespace SentinelWrap

namespace Text

theorem split_append_cons (sep : Char) (a b : List Char) :
    split (· == sep) (a ++ sep :: b) = split (· == sep) a ++ split (· == sep) b := by
  induction a with
  | nil => simp [split]
  | cons c a ih =>
    simp only [List.cons_append, split, ih]
    split_ifs with hc
    · rfl
    · cases hs : split (· == sep) a with
      | nil => exact absurd hs (split_ne_nil _ _)
      | cons piece pieces => rfl

theorem split_eq_singleton {sep : Char} {cs : List Char} (h : sep ∉ cs) :
    split (· == sep) cs = [cs] := by
  induction cs with
  | nil => rfl
  | cons c cs ih =>
    simp only [List.mem_cons, not_or] at h
    simp [split, Ne.symm h.1, ih h.2]

/-- The first piece is empty exactly where the text begins with a separator or is empty. -/
theorem head?_split_eq_nil {sep : Char} {cs : List Char} :
    (split (· == sep) cs).head? = some [] ↔ cs = [] ∨ cs.head? = some sep := by
  cases cs with
  | nil => simp [split]
  | cons c cs =>
    simp only [split, beq_iff_eq]
    split_ifs with hc
    · simp [hc]
    · cases hs : split (· == sep) cs with
      | nil => exact absurd hs (split_ne_nil _ _)
      | cons piece pieces => simp [hc]

end Text

namespace Path

namespace Component

def follow (place : Location) : Component → Location
  | root => []
  | here => place
  | up => place.dropLast
  | name text => place ++ [text]

def isName : Component → Bool
  | name _ => true
  | _ => false

end Component

def componentsOf : List (List Char) → List Component
  | [] | [[]] => []
  | [] :: rest => .root :: rest.filterMap component?
  | ['.'] :: rest => .here :: rest.filterMap component?
  | pieces => pieces.filterMap component?

theorem components_eq (p : Path) : p.components = componentsOf p.pieces := rfl

theorem componentsOf_cons_of_not_idle {piece : List Char} (h : isIdle piece = false)
    (rest : List (List Char)) :
    componentsOf (piece :: rest) = (piece :: rest).filterMap component? := by
  simp only [isIdle, Bool.or_eq_false_iff, beq_eq_false_iff_ne] at h
  rw [componentsOf] <;> simp_all

theorem componentsOf_append {ps : List (List Char)} (hps : ps ≠ []) (hempty : ps ≠ [[]])
    (qs : List (List Char)) :
    componentsOf (ps ++ qs) = componentsOf ps ++ qs.filterMap component? := by
  obtain ⟨piece, rest, rfl⟩ := List.exists_cons_of_ne_nil hps
  by_cases hidle : isIdle piece = true
  · simp only [isIdle, Bool.or_eq_true, beq_iff_eq] at hidle
    rcases hidle with rfl | rfl
    · have hrest : rest ≠ [] := by
        rintro rfl
        exact hempty rfl
      obtain ⟨next, rest, rfl⟩ := List.exists_cons_of_ne_nil hrest
      change Component.root :: (next :: rest ++ qs).filterMap component? = _
      rw [List.filterMap_append]
      rfl
    · simp [componentsOf]
  · have hidle : isIdle piece = false := by simpa using hidle
    rw [List.cons_append, componentsOf_cons_of_not_idle hidle, componentsOf_cons_of_not_idle hidle,
      ← List.cons_append, List.filterMap_append]

def followPiece (place : Location) (piece : List Char) : Location :=
  (component? piece).elim place (Component.follow place)

private theorem foldl_followPiece (place : Location) (pieces : List (List Char)) :
    pieces.foldl followPiece place = (pieces.filterMap component?).foldl Component.follow place := by
  induction pieces generalizing place with
  | nil => rfl
  | cons piece pieces ih =>
    rw [List.foldl_cons, ih, List.filterMap_cons]
    cases h : component? piece with
    | none => simp [followPiece, h]
    | some c => simp [followPiece, h]

theorem toList_ne_nil {p : Path} (h : p.text.isEmpty = false) : p.text.toList ≠ [] := by
  rw [Ne, String.toList_eq_nil_iff]
  simpa using h

theorem pieces_ne_singleton {p : Path} (h : p.text.isEmpty = false) : p.pieces ≠ [[]] := by
  intro heq
  have hjoin := Text.join_split '/' p.text.toList
  rw [show Text.split (· == '/') p.text.toList = [[]] from heq] at hjoin
  exact toList_ne_nil h hjoin.symm

theorem isAbsolute_iff {p : Path} (h : p.text.isEmpty = false) :
    p.isAbsolute = true ↔ ∃ rest, p.pieces = [] :: rest := by
  have hne := toList_ne_nil h
  have hhead := @Text.head?_split_eq_nil '/' p.text.toList
  rw [or_iff_right hne] at hhead
  rw [isAbsolute, beq_iff_eq, ← hhead, List.head?_eq_some_iff]
  rfl

/-- The pieces of a path lead where its components do. -/
theorem foldl_pieces {p : Path} (h : p.text.isEmpty = false) (place : Location) :
    p.pieces.foldl followPiece (if p.isAbsolute then [] else place) =
      p.components.foldl Component.follow place := by
  have hidle (place : Location) : followPiece place ['.'] = place := rfl
  rw [components_eq]
  by_cases habs : p.isAbsolute = true
  · obtain ⟨rest, hrest⟩ := (isAbsolute_iff h).mp habs
    have hne : rest ≠ [] := by
      rintro rfl
      exact pieces_ne_singleton h hrest
    obtain ⟨next, rest, rfl⟩ := List.exists_cons_of_ne_nil hne
    rw [if_pos habs, hrest, foldl_followPiece]
    rfl
  · rw [if_neg habs, foldl_followPiece]
    have hne : p.pieces ≠ [] := Text.split_ne_nil _ _
    obtain ⟨piece, rest, hpieces⟩ := List.exists_cons_of_ne_nil hne
    rw [hpieces]
    cases piece with
    | nil => exact absurd ((isAbsolute_iff h).mpr ⟨rest, hpieces⟩) habs
    | cons c piece =>
      by_cases hdot : isIdle (c :: piece) = true
      · obtain ⟨rfl, rfl⟩ : c = '.' ∧ piece = [] := by simpa [isIdle] using hdot
        rfl
      · rw [componentsOf_cons_of_not_idle (by simpa using hdot)]

/-- The components up to the last one that is not a name. -/
def stem (p : Path) : List Component := (p.components.reverse.dropWhile Component.isName).reverse

def names (p : Path) : List Component := (p.components.reverse.takeWhile Component.isName).reverse

theorem stem_append_names (p : Path) : p.stem ++ p.names = p.components := by
  rw [stem, names, ← List.reverse_append, List.takeWhile_append_dropWhile, List.reverse_reverse]

theorem isName_of_mem_names {p : Path} {c : Component} (h : c ∈ p.names) : c.isName = true :=
  List.all_eq_true.mp (List.all_takeWhile) c (List.mem_reverse.mp h)

theorem stem_eq_of_components_eq {p q : Path} {cs : List Component}
    (h : p.components = q.components ++ cs) (hcs : ∀ c ∈ cs, c.isName = true) :
    p.stem = q.stem := by
  have hdrop : (cs.reverse ++ q.components.reverse).dropWhile Component.isName =
      q.components.reverse.dropWhile Component.isName := by
    rw [List.dropWhile_append_of_pos]
    exact fun c hc => hcs c (List.mem_reverse.mp hc)
  rw [stem, stem, h, List.reverse_append, hdrop]

/-- Names are appended to the place they start at. -/
theorem exists_foldl_follow {cs : List Component} (h : ∀ c ∈ cs, c.isName = true)
    (place : Location) :
    ∃ texts : List String, cs = texts.map .name ∧ cs.foldl Component.follow place = place ++ texts := by
  induction cs generalizing place with
  | nil => exact ⟨[], rfl, by simp⟩
  | cons c cs ih =>
    match c, h c List.mem_cons_self with
    | .name text, _ =>
      obtain ⟨texts, rfl, hfold⟩ :=
        ih (fun c hc => h c (List.mem_cons_of_mem _ hc)) (place ++ [text])
      exact ⟨text :: texts, rfl, by rw [List.foldl_cons, Component.follow, hfold]; simp⟩

/-- What a file can be called. -/
structure IsFileName (text : String) : Prop where
  not_idle : isIdle text.toList = false
  ne_up : text ≠ ".."
  no_separator : '/' ∉ text.toList

instance (text : String) : Decidable (IsFileName text) :=
  decidable_of_iff (isIdle text.toList = false ∧ text ≠ ".." ∧ '/' ∉ text.toList)
    ⟨fun ⟨hidle, hup, hsep⟩ => ⟨hidle, hup, hsep⟩,
      fun h => ⟨h.not_idle, h.ne_up, h.no_separator⟩⟩

private theorem component?_of_isFileName {text : String} (h : IsFileName text) :
    component? text.toList = some (.name text) := by
  have hup : (text.toList == ['.', '.']) = false := by
    rw [beq_eq_false_iff_ne]
    exact fun heq => h.ne_up (String.toList_inj.mp heq)
  simp [component?, h.not_idle, hup]

private theorem filterMap_component? {texts : List String} (h : ∀ text ∈ texts, IsFileName text) :
    (texts.map String.toList).filterMap component? = texts.map .name := by
  induction texts with
  | nil => rfl
  | cons text texts ih =>
    rw [List.forall_mem_cons] at h
    simp [component?_of_isFileName h.1, ih h.2]

theorem split_intercalate {texts : List String} (hne : texts ≠ [])
    (h : ∀ text ∈ texts, '/' ∉ text.toList) :
    Text.split (· == '/') ("/".intercalate texts).toList = texts.map String.toList := by
  induction texts with
  | nil => exact absurd rfl hne
  | cons text texts ih =>
    rw [List.forall_mem_cons] at h
    cases texts with
    | nil => simp [Text.split_eq_singleton h.1]
    | cons next texts =>
      have hsep : "/".toList = ['/'] := rfl
      rw [String.intercalate_cons_cons, String.toList_append, String.toList_append, hsep,
        List.append_assoc, List.singleton_append, Text.split_append_cons,
        Text.split_eq_singleton h.1, ih (by simp) h.2]
      rfl

/-- The components of a path below another one are appended to those of the other. -/
theorem components_join {p : Path} {texts : List String} (hp : p.text.isEmpty = false)
    (hne : texts ≠ []) (h : ∀ text ∈ texts, IsFileName text) :
    (p.join ⟨"/".intercalate texts⟩).components = p.components ++ texts.map .name := by
  have hbelow := split_intercalate hne fun text ht => (h text ht).no_separator
  have hrelative : isAbsolute ⟨"/".intercalate texts⟩ = false := by
    obtain ⟨text, texts, rfl⟩ := List.exists_cons_of_ne_nil hne
    have htext := h text List.mem_cons_self
    rw [isAbsolute, beq_eq_false_iff_ne]
    intro hslash
    have hhead := (@Text.head?_split_eq_nil '/' _).mpr (.inr hslash)
    rw [hbelow] at hhead
    have hnil : text.toList = [] := by simpa using hhead
    simpa [hnil, isIdle] using htext.not_idle
  unfold join
  simp only [hrelative, hp, Bool.or_self, Bool.false_eq_true, if_false]
  split_ifs with hend
  · -- The separator is there already; without it the path ends in an idle piece.
    obtain ⟨front, hfront⟩ := List.getLast?_eq_some_iff.mp (beq_iff_eq.mp hend)
    have hpieces : p.pieces = Text.split (· == '/') front ++ [[]] := by
      rw [pieces, hfront, Text.split_append_cons]
      rfl
    rw [components_eq, components_eq, hpieces, pieces, String.toList_append, hfront,
      List.append_assoc, List.singleton_append, Text.split_append_cons, hbelow,
      ← filterMap_component? h]
    by_cases hnil : Text.split (· == '/') front = [[]]
    · obtain ⟨text, texts, rfl⟩ := List.exists_cons_of_ne_nil hne
      rw [hnil]
      rfl
    · rw [componentsOf_append (Text.split_ne_nil _ _) hnil,
        componentsOf_append (Text.split_ne_nil _ _) hnil]
      simp [component?, isIdle]
  · have hsep : "/".toList = ['/'] := rfl
    rw [components_eq, components_eq, pieces, String.toList_append, String.toList_append, hsep,
      List.append_assoc, List.singleton_append, Text.split_append_cons, hbelow]
    rw [← filterMap_component? h]
    exact componentsOf_append (Text.split_ne_nil _ _) (pieces_ne_singleton hp) _

end Path

namespace FileSystem

/-- A step that succeeds leads to the place one piece further on. -/
theorem step_eq_ok {fs : FileSystem} {place next : Location} {piece : List Char}
    (h : fs.step place piece = .ok next) : next = Path.followPiece place piece := by
  unfold step at h
  split at h
  · cases h
  · cases h
  · unfold Path.followPiece Path.component?
    split_ifs at h ⊢ with hidle hup
    · exact (Except.ok.inj h).symm
    · exact (Except.ok.inj h).symm
    · exact (Except.ok.inj h).symm

theorem foldlM_step_eq_ok {fs : FileSystem} {place next : Location} {pieces : List (List Char)}
    (h : pieces.foldlM fs.step place = .ok next) : next = pieces.foldl Path.followPiece place := by
  induction pieces generalizing place with
  | nil => exact (Except.ok.inj h).symm
  | cons piece pieces ih =>
    rw [List.foldlM_cons] at h
    cases hstep : fs.step place piece with
    | error cause => rw [hstep] at h; cases h
    | ok middle =>
      rw [hstep] at h
      rw [List.foldl_cons, ← step_eq_ok hstep]
      exact ih h

/-- A path leads where its components do, from the current directory. -/
theorem resolve_eq_ok {fs : FileSystem} {p : Path} {place : Location}
    (h : fs.resolve p = .ok place) : place = p.components.foldl Path.Component.follow fs.current := by
  unfold resolve at h
  by_cases hempty : p.text.isEmpty = true
  · rw [if_pos hempty] at h
    cases h
  · rw [if_neg hempty] at h
    rw [foldlM_step_eq_ok h, Path.foldl_pieces (by simpa using hempty)]

/-- Two paths lead to the same place. -/
def Coincide (fs : FileSystem) (p q : Path) : Prop :=
  ∃ place, fs.resolve p = .ok place ∧ fs.resolve q = .ok place

/-- Paths of one stem that lead to the same place are the same path. -/
theorem Coincide.same {fs : FileSystem} {p q : Path} (h : fs.Coincide p q) (hstem : p.stem = q.stem) :
    p.same q = true := by
  obtain ⟨place, hp, hq⟩ := h
  have hplace : p.components.foldl Path.Component.follow fs.current =
      q.components.foldl Path.Component.follow fs.current :=
    (resolve_eq_ok hp).symm.trans (resolve_eq_ok hq)
  rw [← p.stem_append_names, ← q.stem_append_names, List.foldl_append, List.foldl_append,
    hstem] at hplace
  obtain ⟨texts, hnames, hfold⟩ := Path.exists_foldl_follow
    (fun c => @Path.isName_of_mem_names p c) (q.stem.foldl Path.Component.follow fs.current)
  obtain ⟨texts', hnames', hfold'⟩ := Path.exists_foldl_follow
    (fun c => @Path.isName_of_mem_names q c) (q.stem.foldl Path.Component.follow fs.current)
  rw [hfold, hfold', List.append_cancel_left_eq] at hplace
  rw [Path.same, beq_iff_eq, ← p.stem_append_names, ← q.stem_append_names, hstem, hnames, hnames',
    hplace]

end FileSystem
end SentinelWrap
