import SentinelWrap.Proofs.Syntax.Preorder
import SentinelWrap.Wrapping.Analysis

/-! The returns that are to be reported, said without the matcher, and the findings for them. -/
namespace SentinelWrap

namespace Node

theorem identifier?_eq_some_iff {n : Node} {name : String} :
    n.identifier? = some name ↔ ∃ span, n = .identifier span name := by
  cases n <;> simp [identifier?]

theorem isNil_iff {n : Node} : n.isNil = true ↔ ∃ span text, n = .literal span .nil text := by
  constructor
  · intro h
    unfold isNil at h
    split at h
    · exact ⟨_, _, rfl⟩
    · cases h
  · rintro ⟨span, text, rfl⟩
    rfl

end Node

namespace Wrapping

/-- The comparison `err != nil`, in this order. -/
inductive ErrNotNil : Node → Prop
  | intro (span left right : Option Span) (text : String) :
    ErrNotNil (.comparison span (.identifier left "err") .ne (.literal right .nil text))

/-- An identifier or a member access whose final name begins with `Err`. -/
inductive EndsInSentinel : Node → Prop
  | identifier (span : Option Span) {name : String} (h : "Err".toList <+: name.toList) :
    EndsInSentinel (.identifier span name)
  | memberAccess (span : Option Span) (operand : Node) {member : Member}
    (h : "Err".toList <+: member.name.toList) : EndsInSentinel (.memberAccess span operand member)

/-- A return statement with a place in the source whose last result is a sentinel. -/
inductive Qualifies : Node → Prop
  | intro (span : Span) (leading : List Node) (value : Node) (h : EndsInSentinel value) :
    Qualifies (.ret (some span) (leading ++ [value]))

theorem isErrNotNil_iff {n : Node} : isErrNotNil n = true ↔ ErrNotNil n := by
  constructor
  · intro h
    unfold isErrNotNil at h
    split at h
    · simp only [Bool.and_eq_true, beq_iff_eq] at h
      obtain ⟨left, rfl⟩ := Node.identifier?_eq_some_iff.mp h.1
      obtain ⟨right, text, rfl⟩ := Node.isNil_iff.mp h.2
      exact .intro _ left right text
    · cases h
  · rintro ⟨⟩
    rfl

theorem isSentinel_iff {name : String} : isSentinel name = true ↔ "Err".toList <+: name.toList := by
  rw [isSentinel, sentinelMark, List.isPrefixOf_iff_prefix]

theorem endsInSentinel_iff {n : Node} :
    EndsInSentinel n ↔ ∃ name, lastName? n = some name ∧ isSentinel name = true := by
  constructor
  · rintro (⟨-, h⟩ | ⟨-, -, h⟩)
    · exact ⟨_, rfl, isSentinel_iff.mpr h⟩
    · exact ⟨_, rfl, isSentinel_iff.mpr h⟩
  · rintro ⟨name, hlast, hname⟩
    cases n with
    | identifier span text =>
      obtain rfl : text = name := by simpa [lastName?] using hlast
      exact .identifier span (isSentinel_iff.mp hname)
    | memberAccess span operand member =>
      obtain rfl : member.name = name := by simpa [lastName?] using hlast
      exact .memberAccess span operand (isSentinel_iff.mp hname)
    | file | conditional | ret | importGroup | comparison | literal | call | other =>
      cases hlast

/-- The matcher finds a site with a span in exactly the qualifying statements. -/
theorem qualifies_iff {n : Node} :
    Qualifies n ↔ ∃ site span, Site.ofNode? n = some site ∧ site.span = some span := by
  constructor
  · rintro ⟨span, leading, value, h⟩
    obtain ⟨name, hlast, hname⟩ := endsInSentinel_iff.mp h
    refine ⟨⟨some span, leading ++ [value], value, name⟩, span, ?_, rfl⟩
    simp [Site.ofNode?, hlast, hname]
  · rintro ⟨site, span, hsite, hspan⟩
    match n with
    | .ret at_ results =>
      simp only [Site.ofNode?, Option.bind_eq_bind, Option.bind_eq_some_iff] at hsite
      obtain ⟨value, hvalue, name, hlast, hif⟩ := hsite
      split_ifs at hif with hname
      obtain rfl : _ = site := Option.some.inj hif
      obtain rfl : at_ = some span := hspan
      obtain ⟨leading, rfl⟩ := List.getLast?_eq_some_iff.mp hvalue
      exact .intro span leading value (endsInSentinel_iff.mpr ⟨name, hlast, hname⟩)

instance decidableErrNotNil (n : Node) : Decidable (ErrNotNil n) :=
  decidable_of_iff _ isErrNotNil_iff

instance decidableQualifies (n : Node) : Decidable (Qualifies n) :=
  decidable_of_iff (((Site.ofNode? n).bind Site.span).isSome = true) <| by
    rw [qualifies_iff, Option.isSome_iff_exists]
    simp only [Option.bind_eq_some_iff]
    exact ⟨fun ⟨span, site, h⟩ => ⟨site, span, h⟩, fun ⟨site, span, h⟩ => ⟨span, site, h⟩⟩

def qualifyingIn : Node → List Node
  | .conditional _ _ condition body _ =>
    if ErrNotNil condition then body.filter (Qualifies ·) else []
  | _ => []

/-- The qualifying returns of a tree, conditional by conditional. -/
def qualifyingReturns (root : Node) : List Node := root.preorder.flatMap qualifyingIn

/-- A return statement with its last result wrapped; any other node as it is. -/
def wrapped (qualifier : String) : Node → Node
  | .ret span results =>
    .ret span (results.dropLast ++ (results.getLast?.map (wrapCall qualifier)).toList)
  | n => n

theorem wrapLast_append (qualifier : String) (leading : List Node) (value : Node) :
    wrapLast qualifier (leading ++ [value]) = leading ++ [wrapCall qualifier value] := by
  induction leading with
  | nil => rfl
  | cons result leading ih =>
    rw [List.cons_append, wrapLast, ih]
    · rfl
    · simp

/-- The finding for a return: its place, and the wrapped statement to put there. -/
def finding (file : SourceFile) (qualifier : String) (statement : Node) : Diagnostic :=
  let range := statement.span.getD ⟨0, 0⟩
  let old := statement.render file.text.toList
  let new := (wrapped qualifier statement).render file.text.toList
  { analyzer := "wrap_error"
    position := file.position range.start
    message := s!"unwrapped error found '{old}'"
    fixes := [{
      message := s!"should replace '{old}' with '{new}'"
      edits := [⟨range, new⟩] }] }

/-- The finding for an import declaration: its place, and the declaration with the library. -/
def importFinding (file : SourceFile) (conflict : Bool) (span : Span) (parenthesized : Bool)
    (specs : List ImportSpec) : Diagnostic :=
  let new := Node.importGroup (some span) parenthesized (specs ++ [librarySpec conflict])
  { analyzer := "wrap_error"
    position := file.position span.start
    message := "adding \"github.com/pkg/errors\" import"
    fixes := [{
      message := "adding \"github.com/pkg/errors\" import"
      edits := [⟨span, new.render file.text.toList⟩] }] }

end Wrapping
end SentinelWrap
