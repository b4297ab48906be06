import Mathlib.Data.List.Infix
import SentinelWrap.Config.Load
import SentinelWrap.Proofs.Path.Components

/-! Which configuration file takes effect. The directories from the current one up are asked in turn;
a file that can be read but is malformed does not end the search. -/
namespace SentinelWrap

namespace Path

theorem pieces_pathOf {place : Location} (hne : place ≠ []) (h : ∀ name ∈ place, IsFileName name) :
    (FileSystem.pathOf place).pieces = [] :: place.map String.toList := by
  have hbelow := split_intercalate hne fun name hname => (h name hname).no_separator
  have htext : (FileSystem.pathOf place).text.toList = [] ++ '/' :: ("/".intercalate place).toList := by
    simp [FileSystem.pathOf]
  rw [pieces, htext, Text.split_append_cons, hbelow]
  rfl

/-- The path of a place is put together from its pieces. -/
theorem ofPieces_map_toList {place : Location} (h : ∀ name ∈ place, IsFileName name) :
    ofPieces ([] :: place.map String.toList) = FileSystem.pathOf place := by
  cases place with
  | nil => rfl
  | cons name rest =>
    have hjoin := Text.join_split '/' (FileSystem.pathOf (name :: rest)).text.toList
    have hpieces := pieces_pathOf (List.cons_ne_nil name rest) h
    rw [show Text.split (· == '/') _ = _ from hpieces] at hjoin
    rw [ofPieces, if_neg (by simp), hjoin, String.ofList_toList]

private theorem trimIdle_map_toList {place : Location} (h : ∀ name ∈ place, IsFileName name) :
    trimIdle (place.map String.toList) = place.map String.toList := by
  induction place using List.reverseRecOn with
  | nil => rfl
  | append_singleton place name _ =>
    have hname := (h name (by simp)).not_idle
    simp [trimIdle, hname]

private theorem parent?_pathOf_nil : (FileSystem.pathOf []).parent? = none := by decide

theorem parent?_pathOf {place : Location} {name : String}
    (h : ∀ text ∈ place ++ [name], IsFileName text) :
    (FileSystem.pathOf (place ++ [name])).parent? = some (FileSystem.pathOf place) := by
  have hplace : ∀ text ∈ place, IsFileName text := fun text ht => h text (by simp [ht])
  have hlead : (FileSystem.pathOf (place ++ [name])).leadAndBody =
      ([[]], (place ++ [name]).map String.toList) := by
    rw [leadAndBody, pieces_pathOf (by simp) h]
    cases place <;> rfl
  have hbody : (place ++ [name]).map String.toList ≠ [] := by simp
  rw [parent?, hlead]
  dsimp only
  rw [trimIdle_map_toList h]
  split
  · next heq => exact absurd heq hbody
  · rw [List.map_append, List.map_singleton, List.dropLast_concat, trimIdle_map_toList hplace,
      List.singleton_append, ofPieces_map_toList hplace]

/-- The directories above the path of a place are the paths of the places above it. -/
theorem ancestors_pathOf (limit : Nat) {place : Location} (h : ∀ name ∈ place, IsFileName name) :
    ancestors limit (FileSystem.pathOf place) =
      (place.inits.reverse.take limit).map FileSystem.pathOf := by
  induction limit generalizing place with
  | zero => rfl
  | succ limit ih =>
    induction place using List.reverseRecOn with
    | nil =>
      rw [ancestors, parent?_pathOf_nil]
      simp
    | append_singleton place name _ =>
      rw [ancestors, parent?_pathOf h]
      dsimp only
      rw [ih fun text ht => h text (by simp [ht])]
      simp [List.inits_append]

end Path

namespace Config
open FileSystem (pathOf)

/-- The current directory and those above it, nearest first, as far as they are searched. -/
def searched (current : Location) : List Location := current.inits.reverse.take searchLimit

def textIn (fs : FileSystem) (dir : Location) : Option String :=
  (fs.read ((pathOf dir).join ⟨fileName⟩)).toOption

def configIn (fs : FileSystem) (dir : Location) : Option Config :=
  (textIn fs dir).bind fun text => (parse text).toOption

theorem toOption_loadFrom (fs : FileSystem) (dir : Location) :
    (loadFrom fs ((pathOf dir).join ⟨fileName⟩)).toOption = configIn fs dir := by
  unfold loadFrom configIn textIn
  cases fs.read ((pathOf dir).join ⟨fileName⟩) <;> rfl

theorem load_eq_findSome? {fs : FileSystem} (h : ∀ name ∈ fs.current, Path.IsFileName name) :
    load fs = ((searched fs.current).findSome? (configIn fs)).getD {} := by
  have hcandidates : candidates fs =
      (searched fs.current).map fun dir => (pathOf dir).join ⟨fileName⟩ := by
    rw [candidates, Path.ancestors_pathOf searchLimit h, List.map_map]
    rfl
  rw [load, hcandidates, List.findSome?_map]
  congr 2
  exact funext (toOption_loadFrom fs)

/-- Directories without a configuration file that can be read are passed over. -/
theorem findSome?_configIn_append {fs : FileSystem} {nearer : List Location}
    (h : ∀ dir ∈ nearer, textIn fs dir = none) (dirs : List Location) :
    (nearer ++ dirs).findSome? (configIn fs) = dirs.findSome? (configIn fs) := by
  have hnone : nearer.findSome? (configIn fs) = none := by
    rw [List.findSome?_eq_none_iff]
    intro dir hdir
    rw [configIn, h dir hdir]
    rfl
  rw [List.findSome?_append, hnone, Option.none_or]

/-- Without a configuration file to read, the defaults are taken. The nearest file that can be read
decides alone if it is valid. If it is malformed, it is passed over, and what takes effect is the
nearest valid file further up. -/
theorem load_of_nearest_readable (fs : FileSystem)
    (hnames : ∀ name ∈ fs.current, Path.IsFileName name) :
    ((∀ dir ∈ searched fs.current, textIn fs dir = none) → load fs = {}) ∧
      ∀ nearer dir further text, searched fs.current = nearer ++ dir :: further →
        (∀ d ∈ nearer, textIn fs d = none) → textIn fs dir = some text →
        (∀ config, parse text = .ok config → load fs = config) ∧
        ∀ error, parse text = .error error →
          load fs = (further.findSome? (configIn fs)).getD {} := by
  rw [load_eq_findSome? hnames]
  refine ⟨fun hnone => ?_, fun nearer dir further text hsearched hnearer htext => ?_⟩
  · rw [← List.append_nil (searched fs.current), findSome?_configIn_append hnone]
    rfl
  · rw [hsearched, findSome?_configIn_append hnearer, List.findSome?_cons]
    refine ⟨fun config hparse => ?_, fun error hparse => ?_⟩
    · have hdir : configIn fs dir = some config := by rw [configIn, htext, Option.bind_some, hparse]; rfl
      rw [hdir, Option.getD_some]
    · have hdir : configIn fs dir = none := by rw [configIn, htext, Option.bind_some, hparse]; rfl
      rw [hdir]

def projectInProject (inner : String) : FileSystem where
  entries := [([fileName], .file "[analysis]\njobs = 2\n".toUTF8 true),
    (["pkg", fileName], .file inner.toUTF8 true)]
  current := ["pkg"]

private theorem read_of_status {fs : FileSystem} {path : Path} {text : String} {writable : Bool}
    (h : fs.status path = .ok (.file text.toUTF8 writable)) : fs.read path = .ok text := by
  have hvalid : String.fromUTF8? text.toUTF8 = some text := dif_pos text.isValidUTF8
  simp only [FileSystem.read, FileSystem.readBytes, h, bind, Except.bind, pure, Except.pure, hvalid]

theorem textIn_projectInProject (inner : String) :
    textIn (projectInProject inner) ["pkg"] = some inner ∧
      textIn (projectInProject inner) [] = some "[analysis]\njobs = 2\n" := by
  constructor
  · rw [textIn, @read_of_status _ _ inner true rfl]
    rfl
  · rw [textIn, @read_of_status _ _ "[analysis]\njobs = 2\n" true rfl]
    rfl

theorem isFileName_projectInProject (inner : String) :
    ∀ name ∈ (projectInProject inner).current, Path.IsFileName name := by
  intro name hname
  obtain rfl := List.mem_singleton.mp hname
  exact ⟨by decide, by decide, by decide⟩

theorem configIn_projectInProject (inner : String) :
    configIn (projectInProject inner) [] = some { jobs := 2 } := by
  rw [configIn, (textIn_projectInProject inner).2]
  decide +kernel

theorem load_projectInProject :
    load (projectInProject "[analysis]\njobs = 1\n") = { jobs := 1 } ∧
      load (projectInProject "[ignore\n") = { jobs := 2 } := by
  have hnearest (inner : String) := (load_of_nearest_readable (projectInProject inner)
    (isFileName_projectInProject inner)).2 [] ["pkg"] [[]] inner rfl (by simp)
    (textIn_projectInProject inner).1
  constructor
  · exact (hnearest _).1 _ (by decide +kernel)
  · cases hparse : parse "[ignore\n" with
    | error error =>
      rw [(hnearest _).2 error hparse, List.findSome?_cons, configIn_projectInProject]
      rfl
    | ok config =>
      have hnone : (parse "[ignore\n").toOption = none := by decide +kernel
      rw [hparse] at hnone
      cases hnone

/-- The file in the current directory is malformed, and it is the outer project's that takes
effect, not the defaults. -/
theorem load_ne_defaults_of_malformed :
    let fs := projectInProject "[ignore\n"
    textIn fs fs.current = some "[ignore\n" ∧ (parse "[ignore\n").isOk = false ∧ load fs ≠ {} := by
  intro fs
  refine ⟨(textIn_projectInProject _).1, by decide +kernel, ?_⟩
  have hinner : configIn fs ["pkg"] = none := by
    rw [configIn, (textIn_projectInProject _).1]
    decide +kernel
  have hsearched : searched fs.current = [["pkg"], []] := rfl
  rw [load_eq_findSome? (isFileName_projectInProject _), hsearched, List.findSome?_cons, hinner,
    List.findSome?_cons, configIn_projectInProject]
  decide

end Config
end SentinelWrap
