import Mathlib.Tactic.Common
import SentinelWrap.FileSystem

/-! Writing to a file that is there. The places of the file system stay the same, and so does where
every path leads; only the one entry differs, so writes to different files commute. -/
namespace SentinelWrap.FileSystem

private theorem find?_put (l place : Location) (e : Entry) (es : List (Location × Entry)) :
    find? l (put place e es) = if l = place then some e else find? l es := by
  induction es with
  | nil => simp only [put, find?, eq_comm]
  | cons entry es ih =>
    obtain ⟨k, old⟩ := entry
    by_cases hk : k = place
    · subst hk
      by_cases hl : k = l
      · simp [put, find?, hl]
      · simp [put, find?, hl, Ne.symm hl]
    · rw [put, if_neg hk]
      simp only [find?, ih]
      by_cases hl : k = l
      · have : l ≠ place := hl ▸ hk
        simp [hl, this]
      · simp [hl]

private theorem map_fst_put {place : Location} {e : Entry} {es : List (Location × Entry)}
    (h : find? place es ≠ none) : (put place e es).map Prod.fst = es.map Prod.fst := by
  induction es with
  | nil => exact absurd rfl h
  | cons entry es ih =>
    obtain ⟨k, old⟩ := entry
    by_cases hk : k = place
    · simp [put, hk]
    · simp only [find?, hk, if_false] at h
      simp [put, hk, ih h]

/-- Entries that are put at different places commute, if one of the places is taken already. -/
theorem put_comm {a b : Location} (x y : Entry) {es : List (Location × Entry)} (hne : a ≠ b)
    (h : find? a es ≠ none) : put a x (put b y es) = put b y (put a x es) := by
  induction es with
  | nil => exact absurd rfl h
  | cons entry es ih =>
    obtain ⟨k, old⟩ := entry
    by_cases ha : k = a
    · have hb : k ≠ b := ha ▸ hne
      simp [put, ha, hne]
    · simp only [find?, ha, if_false] at h
      by_cases hb : k = b
      · simp [put, hb, hne.symm]
      · simp [put, ha, hb, ih h]

private theorem any_isAbove (place : Location) (es : List (Location × Entry)) :
    es.any (isAbove place) = (es.map Prod.fst).any fun l => place.isPrefixOf l && place != l := by
  rw [List.any_map]
  rfl

def overwrite (fs : FileSystem) (place : Location) (text : String) : FileSystem :=
  { fs with entries := put place (.file text.toUTF8 true) fs.entries }

def HasFile (fs : FileSystem) (place : Location) : Prop :=
  ∃ content writable, fs.entry? place = some (.file content writable)

variable {fs : FileSystem} {place l : Location} {text : String} {path : Path}

theorem HasFile.find?_ne_none (h : fs.HasFile place) : find? place fs.entries ≠ none := by
  obtain ⟨content, writable, h⟩ := h
  intro hnone
  unfold entry? at h
  rw [hnone] at h
  dsimp only at h
  split_ifs at h
  cases h

@[simp] theorem overwrite_current : (fs.overwrite place text).current = fs.current := rfl

theorem map_fst_overwrite (h : fs.HasFile place) :
    (fs.overwrite place text).entries.map Prod.fst = fs.entries.map Prod.fst :=
  map_fst_put h.find?_ne_none

theorem entry?_overwrite (h : fs.HasFile place) :
    entry? (fs.overwrite place text) l =
      if l = place then some (.file text.toUTF8 true) else fs.entry? l := by
  have habove : (fs.overwrite place text).entries.any (isAbove l) = fs.entries.any (isAbove l) := by
    rw [any_isAbove, any_isAbove, map_fst_overwrite h]
  unfold entry?
  rw [habove, overwrite, find?_put]
  split_ifs <;> rfl

private theorem step_overwrite (h : fs.HasFile place) :
    (fs.overwrite place text).step = fs.step := by
  funext l piece
  unfold step
  rw [entry?_overwrite h]
  by_cases hl : l = place
  · obtain ⟨content, writable, hentry⟩ := h
    rw [if_pos hl, hl, hentry]
  · rw [if_neg hl]

/-- Every path leads where it led before. -/
theorem resolve_overwrite (h : fs.HasFile place) :
    (fs.overwrite place text).resolve path = fs.resolve path := by
  unfold resolve
  rw [step_overwrite h, overwrite_current]

theorem overwrite_comm {a b : Location} {s t : String} (hne : a ≠ b) (h : fs.HasFile a) :
    (fs.overwrite a s).overwrite b t = (fs.overwrite b t).overwrite a s := by
  unfold overwrite
  rw [put_comm _ _ hne h.find?_ne_none]

theorem status_eq : fs.status path =
    (fs.resolve path).bind fun place => (fs.entry? place).elim (.error .notFound) .ok := by
  unfold status
  cases fs.resolve path with
  | error cause => rfl
  | ok place =>
    dsimp only [bind, Except.bind]
    cases fs.entry? place <;> rfl

theorem exists_place_of_status {entry : Entry} (h : fs.status path = .ok entry) :
    ∃ place, fs.resolve path = .ok place ∧ fs.entry? place = some entry := by
  rw [status_eq] at h
  cases hresolve : fs.resolve path with
  | error cause => rw [hresolve] at h; cases h
  | ok place =>
    rw [hresolve] at h
    refine ⟨place, rfl, ?_⟩
    cases hentry : fs.entry? place with
    | none => simp [Except.bind, hentry] at h
    | some found => simpa [Except.bind, hentry] using h

/-- What stands at a path is left alone by a write to another place. -/
theorem status_overwrite_of_ne (h : fs.HasFile place) (hne : fs.resolve path ≠ .ok place) :
    (fs.overwrite place text).status path = fs.status path := by
  rw [status_eq, status_eq, resolve_overwrite h]
  cases hresolve : fs.resolve path with
  | error cause => rfl
  | ok l =>
    have hl : l ≠ place := by rintro rfl; exact hne hresolve
    simp only [Except.bind, entry?_overwrite h, if_neg hl]

theorem status_overwrite_self (h : fs.HasFile place) (hplace : fs.resolve path = .ok place) :
    (fs.overwrite place text).status path = .ok (.file text.toUTF8 true) := by
  rw [status_eq, resolve_overwrite h, hplace]
  simp [Except.bind, entry?_overwrite h]

theorem write_of_file {content : ByteArray} {writable : Bool} (hplace : fs.resolve path = .ok place)
    (hfile : fs.entry? place = some (.file content writable)) :
    fs.write path text =
      if writable then .ok (fs.overwrite place text) else .error .notPermitted := by
  unfold write
  rw [hplace]
  simp only [bind, Except.bind, hfile]
  cases writable <;> rfl

end SentinelWrap.FileSystem
