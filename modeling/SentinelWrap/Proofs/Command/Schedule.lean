import Mathlib.Logic.Relation
import SentinelWrap.Proofs.Command.CheckFile
import SentinelWrap.Proofs.Path.Order
import SentinelWrap.Proofs.Walk.Coincidence

/-! Files that are checked at the same time. Each is read in one step and written in another, and the
steps of different files come in any order. As long as no two paths lead to the same file, a step
changes nothing that another task still looks at; so what a pool of tasks comes to, if they are
brought to an end one after the other, is the same before and after every step. -/
namespace SentinelWrap.Command

section Rewriting
variable {fs : FileSystem} {p q : Path} {s t : Option String}

/-- There is nothing to write, or it may be written. -/
def Permitted (status : Except IoError Entry) (new : Option String) : Prop :=
  new.isSome = true → mayWrite status = true

theorem exists_overwrite {text : String} (h : Permitted (fs.status p) (some text)) :
    ∃ place, fs.resolve p = .ok place ∧ fs.HasFile place ∧
      rewritten fs p (some text) = fs.overwrite place text := by
  obtain ⟨place, content, hplace, hentry⟩ := exists_place_of_mayWrite (h rfl)
  exact ⟨place, hplace, ⟨content, true, hentry⟩, by rw [rewritten, hplace]⟩

private theorem resolve_rewritten (h : Permitted (fs.status p) s) :
    (rewritten fs p s).resolve q = fs.resolve q := by
  cases s with
  | none => rfl
  | some text =>
    obtain ⟨place, -, hfile, heq⟩ := exists_overwrite h
    rw [heq, FileSystem.resolve_overwrite hfile]

theorem coincide_rewritten (h : Permitted (fs.status p) s) {a b : Path} :
    (rewritten fs p s).Coincide a b ↔ fs.Coincide a b := by
  simp only [FileSystem.Coincide, resolve_rewritten h]

theorem status_rewritten (h : Permitted (fs.status p) s) (hne : ¬ fs.Coincide p q) :
    (rewritten fs p s).status q = fs.status q := by
  cases s with
  | none => rfl
  | some text =>
    obtain ⟨place, hplace, hfile, heq⟩ := exists_overwrite h
    rw [heq, FileSystem.status_overwrite_of_ne hfile fun hq => hne ⟨place, hplace, hq⟩]

theorem rewritten_comm (hp : Permitted (fs.status p) s) (hq : Permitted (fs.status q) t)
    (hne : ¬ fs.Coincide p q) :
    rewritten (rewritten fs p s) q t = rewritten (rewritten fs q t) p s := by
  match s, t with
  | none, _ => rfl
  | some _, none => rfl
  | some text, some text' =>
    obtain ⟨a, ha, hafile, heqa⟩ := exists_overwrite hp
    obtain ⟨b, hb, hbfile, heqb⟩ := exists_overwrite hq
    have hab : a ≠ b := by
      rintro rfl
      exact hne ⟨a, ha, hb⟩
    calc rewritten (rewritten fs p (some text)) q (some text')
        = (fs.overwrite a text).overwrite b text' := by
          rw [heqa, rewritten, FileSystem.resolve_overwrite hafile, hb]
      _ = (fs.overwrite b text').overwrite a text := FileSystem.overwrite_comm hab hafile
      _ = rewritten (rewritten fs q (some text')) p (some text) := by
          rw [heqb, rewritten, FileSystem.resolve_overwrite hbfile, ha]

end Rewriting

/-- How far the check of a file has come. -/
inductive Stage
  | waiting
  /-- The file was read, and its new text is still to be written. -/
  | writing (report : Report) (text : String)
  | finished (report : Report)

structure Task where
  path : Path
  stage : Stage

namespace Task

/-- One step: the file is read and examined, or it is written. -/
def advance (fix : Bool) (fs : FileSystem) (task : Task) : Option (Task × FileSystem) :=
  match task.stage with
  | .waiting =>
    match examine task.path fix (fs.read task.path) with
    | .done report => some (⟨task.path, .finished report⟩, fs)
    | .replace report text => some (⟨task.path, .writing report text⟩, fs)
  | .writing report text =>
    match (Outcome.replace report text).finish task.path fs with
    | (report, fs) => some (⟨task.path, .finished report⟩, fs)
  | .finished _ => none

def complete (fix : Bool) (fs : FileSystem) (task : Task) : Report × FileSystem :=
  match task.stage with
  | .waiting => checkFile fix fs task.path
  | .writing report text => (Outcome.replace report text).finish task.path fs
  | .finished report => (report, fs)

/-- A step does not change what a task comes to. -/
theorem complete_of_advance {fix : Bool} {fs fs' : FileSystem} {task task' : Task}
    (h : task.advance fix fs = some (task', fs')) :
    task'.complete fix fs' = task.complete fix fs := by
  obtain ⟨path, stage⟩ := task
  cases stage with
  | waiting =>
    simp only [advance] at h
    simp only [complete, checkFile]
    cases hexamine : examine path fix (fs.read path) with
    | done report =>
      rw [hexamine] at h
      obtain ⟨rfl, rfl⟩ := Prod.mk.inj (Option.some.inj h)
      rfl
    | replace report text =>
      rw [hexamine] at h
      obtain ⟨rfl, rfl⟩ := Prod.mk.inj (Option.some.inj h)
      rfl
  | writing report text =>
    obtain ⟨rfl, rfl⟩ := Prod.mk.inj (Option.some.inj h)
    rfl
  | finished report => cases h

/-! What a task does is decided by what stands at its path. -/

def verdict (fix : Bool) (task : Task) (status : Except IoError Entry) : Report × Option String :=
  match task.stage with
  | .waiting => Command.verdict fix task.path status
  | .writing report text =>
    if mayWrite status then (report, some text)
    else (.failed task.path (writeError task.path .notPermitted), none)
  | .finished report => (report, none)

def next? (fix : Bool) (task : Task) (status : Except IoError Entry) :
    Option (Stage × Option String) :=
  match task.stage with
  | .waiting =>
    match examine task.path fix (textOf status) with
    | .done report => some (.finished report, none)
    | .replace report text => some (.writing report text, none)
  | .writing .. => some (.finished (task.verdict fix status).1, (task.verdict fix status).2)
  | .finished _ => none

/-- A task that is about to write has read a file. -/
def Ready (status : Except IoError Entry) (task : Task) : Prop :=
  match task.stage with
  | .writing .. => IsFile status
  | _ => True

variable {fix : Bool} {fs : FileSystem} {task : Task}

theorem permitted_verdict (status : Except IoError Entry) :
    Permitted status (task.verdict fix status).2 := by
  obtain ⟨path, stage⟩ := task
  cases stage with
  | waiting =>
    generalize hv : Command.verdict fix path status = v
    have hends := ends_verdict fix path status
    rw [hv] at hends
    simp only [verdict, hv]
    cases hends with
    | failed | reported => nofun
    | rewritten _ _ _ _ _ _ hwrite => exact fun _ => hwrite
  | writing report text =>
    simp only [verdict]
    split_ifs with hwrite
    · exact fun _ => hwrite
    · nofun
  | finished report => nofun

theorem permitted_next {status : Except IoError Entry} {stage : Stage} {new : Option String}
    (h : task.next? fix status = some (stage, new)) : Permitted status new := by
  obtain ⟨path, stage'⟩ := task
  cases stage' with
  | waiting =>
    simp only [next?] at h
    split at h
    all_goals
      obtain ⟨-, rfl⟩ := Prod.mk.inj (Option.some.inj h)
      nofun
  | writing report text =>
    obtain ⟨-, rfl⟩ := Prod.mk.inj (Option.some.inj h)
    exact permitted_verdict status
  | finished report => cases h

theorem complete_eq (h : task.Ready (fs.status task.path)) :
    task.complete fix fs = ((task.verdict fix (fs.status task.path)).1,
      rewritten fs task.path (task.verdict fix (fs.status task.path)).2) := by
  obtain ⟨path, stage⟩ := task
  cases stage with
  | waiting => exact checkFile_eq fix fs path
  | writing report text =>
    simp only [complete, verdict, finish_replace h]
    split_ifs <;> rfl
  | finished report => rfl

theorem advance_eq (h : task.Ready (fs.status task.path)) :
    task.advance fix fs = (task.next? fix (fs.status task.path)).map fun (stage, new) =>
      (⟨task.path, stage⟩, rewritten fs task.path new) := by
  obtain ⟨path, stage⟩ := task
  cases stage with
  | waiting =>
    simp only [advance, next?, read_eq]
    cases examine path fix (textOf (fs.status path)) <;> rfl
  | writing report text =>
    have hcomplete := @complete_eq fix fs ⟨path, .writing report text⟩ h
    simp only [complete] at hcomplete
    simp only [advance, next?, hcomplete, Option.map_some]
  | finished report => rfl

theorem path_of_advance {fs' : FileSystem} {task' : Task}
    (h : task.advance fix fs = some (task', fs')) : task'.path = task.path := by
  obtain ⟨path, stage⟩ := task
  unfold advance at h
  split at h
  · split at h <;> obtain ⟨rfl, -⟩ := Prod.mk.inj (Option.some.inj h) <;> rfl
  · obtain ⟨rfl, -⟩ := Prod.mk.inj (Option.some.inj h)
    rfl
  · cases h

theorem ready_of_advance {fs' : FileSystem} {task' : Task}
    (h : task.advance fix fs = some (task', fs')) : task'.Ready (fs'.status task'.path) := by
  obtain ⟨path, stage⟩ := task
  cases stage with
  | waiting =>
    simp only [advance, read_eq] at h
    cases hexamine : examine path fix (textOf (fs.status path)) with
    | done report =>
      rw [hexamine] at h
      obtain ⟨rfl, rfl⟩ := Prod.mk.inj (Option.some.inj h)
      trivial
    | replace report text =>
      rw [hexamine] at h
      obtain ⟨rfl, rfl⟩ := Prod.mk.inj (Option.some.inj h)
      exact isFile_of_examine hexamine
  | writing report text =>
    obtain ⟨rfl, rfl⟩ := Prod.mk.inj (Option.some.inj h)
    trivial
  | finished report => cases h

/-- A step rewrites at most the task's own file, and it is the same step wherever the same stands at
the task's path. -/
theorem exists_rewritten_of_advance {fs' : FileSystem} {task' : Task}
    (hready : task.Ready (fs.status task.path)) (h : task.advance fix fs = some (task', fs')) :
    ∃ new, Permitted (fs.status task.path) new ∧ fs' = rewritten fs task.path new ∧
      ∀ fs₂ : FileSystem, fs₂.status task.path = fs.status task.path →
        task.advance fix fs₂ = some (task', rewritten fs₂ task.path new) := by
  rw [advance_eq hready] at h
  obtain ⟨⟨stage, new⟩, hnext, heq⟩ := Option.map_eq_some_iff.mp h
  obtain ⟨rfl, rfl⟩ := Prod.mk.inj heq
  refine ⟨new, permitted_next hnext, rfl, fun fs₂ hstatus => ?_⟩
  rw [advance_eq (by rwa [hstatus]), hstatus, hnext]
  rfl

end Task

/-- The tasks of a run and the file system that they share. -/
structure Pool where
  tasks : List Task
  fs : FileSystem

namespace Pool

def start (fs : FileSystem) (paths : List Path) : Pool := ⟨paths.map (⟨·, .waiting⟩), fs⟩

/-- One of the tasks takes a step. -/
inductive Step (fix : Bool) : Pool → Pool → Prop
  | advance (before after : List Task) {task task' : Task} {fs fs' : FileSystem}
    (h : task.advance fix fs = some (task', fs')) :
    Step fix ⟨before ++ task :: after, fs⟩ ⟨before ++ task' :: after, fs'⟩

abbrev Run (fix : Bool) : Pool → Pool → Prop := Relation.ReflTransGen (Step fix)

def Finished (pool : Pool) (reports : List Report) : Prop :=
  pool.tasks.map Task.stage = reports.map .finished

end Pool

def completeAll (fix : Bool) : FileSystem → List Task → List Report × FileSystem
  | fs, [] => ([], fs)
  | fs, task :: tasks =>
    let (report, fs) := task.complete fix fs
    let (reports, fs) := completeAll fix fs tasks
    (report :: reports, fs)

theorem completeAll_start (fix : Bool) (fs : FileSystem) (paths : List Path) :
    completeAll fix fs (Pool.start fs paths).tasks = checkFiles fix fs paths := by
  unfold Pool.start
  dsimp only
  generalize hfs : fs = fs'
  clear hfs
  induction paths generalizing fs' with
  | nil => rfl
  | cons path paths ih =>
    simp only [List.map_cons, completeAll, checkFiles, Task.complete, ih]

theorem completeAll_of_finished {fix : Bool} {pool : Pool} {reports : List Report}
    (h : pool.Finished reports) : completeAll fix pool.fs pool.tasks = (reports, pool.fs) := by
  obtain ⟨tasks, fs⟩ := pool
  unfold Pool.Finished at h
  dsimp only at h ⊢
  induction tasks generalizing reports with
  | nil =>
    obtain rfl : reports = [] := by simpa using h
    rfl
  | cons task tasks ih =>
    cases reports with
    | nil => simp at h
    | cons report reports =>
      simp only [List.map_cons, List.cons.injEq] at h
      simp only [completeAll, Task.complete, h.1, ih h.2]

/-- No two tasks share a file, and those that are about to write have one. -/
structure Sound (fs : FileSystem) (tasks : List Task) : Prop where
  apart : (tasks.map Task.path).Pairwise fun p q => ¬ fs.Coincide p q
  ready : ∀ task ∈ tasks, task.Ready (fs.status task.path)

theorem coincide_comm {fs : FileSystem} {p q : Path} : fs.Coincide p q ↔ fs.Coincide q p := by
  unfold FileSystem.Coincide
  exact exists_congr fun _ => And.comm

namespace Sound
variable {fix : Bool} {fs fs' : FileSystem} {before after tasks : List Task} {task task' : Task}

theorem not_coincide (h : Sound fs (before ++ task :: after)) {other : Task}
    (hother : other ∈ before ++ after) : ¬ fs.Coincide task.path other.path := by
  have hapart := h.apart
  rw [List.map_append, List.map_cons, List.pairwise_append, List.pairwise_cons] at hapart
  obtain ⟨-, ⟨hafter, -⟩, hbefore⟩ := hapart
  rcases List.mem_append.mp hother with hmem | hmem
  · rw [coincide_comm]
    exact hbefore _ (List.mem_map_of_mem hmem) _ List.mem_cons_self
  · exact hafter _ (List.mem_map_of_mem hmem)

/-- Rewriting the file of one task leaves the other tasks as sound as they were. -/
theorem rewritten {new : Option String} (h : Sound fs (before ++ task :: after))
    (hnew : Permitted (fs.status task.path) new) (htask : task'.path = task.path)
    (hready : task'.Ready ((rewritten fs task.path new).status task'.path)) :
    Sound (rewritten fs task.path new) (before ++ task' :: after) where
  apart := by
    have hpaths : (before ++ task' :: after).map Task.path =
        (before ++ task :: after).map Task.path := by simp [htask]
    simp only [hpaths, coincide_rewritten hnew]
    exact h.apart
  ready other hother := by
    rw [List.mem_append, List.mem_cons, or_left_comm, ← List.mem_append] at hother
    rcases hother with rfl | hother
    · exact hready
    · rw [status_rewritten hnew (h.not_coincide hother)]
      refine h.ready other ?_
      rw [List.mem_append, List.mem_cons, or_left_comm, ← List.mem_append]
      exact .inr hother

theorem advance (hsound : Sound fs (before ++ task :: after))
    (h : task.advance fix fs = some (task', fs')) : Sound fs' (before ++ task' :: after) := by
  obtain ⟨new, hnew, rfl, -⟩ :=
    Task.exists_rewritten_of_advance (hsound.ready task (by simp)) h
  exact hsound.rewritten hnew (Task.path_of_advance h) (Task.ready_of_advance h)

/-- The first task is brought to an end. -/
theorem complete (h : Sound fs (task :: tasks)) : Sound (task.complete fix fs).2 tasks := by
  have hready := h.ready task List.mem_cons_self
  have hnew := @Task.permitted_verdict fix task (fs.status task.path)
  rw [Task.complete_eq hready]
  refine ⟨?_, fun other hother => ?_⟩
  · simp only [coincide_rewritten hnew]
    exact (List.pairwise_cons.mp h.apart).2
  · have hne := @not_coincide fs [] tasks task h other hother
    rw [status_rewritten hnew hne]
    exact h.ready other (List.mem_cons_of_mem _ hother)

/-- A step of one task and the end of another may change places. -/
theorem complete_comm (h : Sound fs (task :: tasks)) {other other' : Task} (hother : other ∈ tasks)
    (hstep : other.advance fix fs = some (other', fs')) :
    (task.complete fix fs').1 = (task.complete fix fs).1 ∧
      other.advance fix (task.complete fix fs).2 = some (other', (task.complete fix fs').2) := by
  have hne := @not_coincide fs [] tasks task h other hother
  have hready := h.ready task List.mem_cons_self
  obtain ⟨new, hnew, rfl, hagain⟩ :=
    Task.exists_rewritten_of_advance (h.ready other (List.mem_cons_of_mem _ hother)) hstep
  have hverdict := @Task.permitted_verdict fix task (fs.status task.path)
  have hstatus : (Command.rewritten fs other.path new).status task.path = fs.status task.path :=
    status_rewritten hnew (mt coincide_comm.mp hne)
  rw [Task.complete_eq hready, Task.complete_eq (by rwa [hstatus]), hstatus]
  refine ⟨rfl, ?_⟩
  rw [hagain _ (status_rewritten hverdict hne), rewritten_comm hverdict hnew hne]

/-- What a pool comes to is the same before and after a step. -/
theorem completeAll_of_advance (hsound : Sound fs (before ++ task :: after))
    (h : task.advance fix fs = some (task', fs')) :
    completeAll fix fs' (before ++ task' :: after) =
      completeAll fix fs (before ++ task :: after) := by
  -- Along the tasks before the one that steps: each of them may be brought to an end first.
  induction before generalizing fs fs' with
  | nil => simp only [List.nil_append, completeAll, Task.complete_of_advance h]
  | cons other before ih =>
    obtain ⟨hreport, hlater⟩ := complete_comm hsound (by simp : task ∈ before ++ task :: after) h
    have hrest := ih (complete hsound) hlater
    simp only [List.cons_append, completeAll, hreport, hrest]

/-- The step lemma carried along a run. -/
theorem completeAll_of_run {pool pool' : Pool} (h : Pool.Run fix pool pool')
    (hsound : Sound pool.fs pool.tasks) :
    Sound pool'.fs pool'.tasks ∧
      completeAll fix pool'.fs pool'.tasks = completeAll fix pool.fs pool.tasks := by
  induction h with
  | refl => exact ⟨hsound, rfl⟩
  | tail _ hstep ih =>
    obtain ⟨hsound', heq⟩ := ih
    cases hstep with
    | advance before after hadvance =>
      exact ⟨hsound'.advance hadvance, (hsound'.completeAll_of_advance hadvance).trans heq⟩

end Sound

theorem Pool.run_cons {fix : Bool} (task : Task) {tasks tasks' : List Task} {fs fs' : FileSystem}
    (h : Run fix ⟨tasks, fs⟩ ⟨tasks', fs'⟩) : Run fix ⟨task :: tasks, fs⟩ ⟨task :: tasks', fs'⟩ := by
  have hstep : ∀ pool pool' : Pool, Step fix pool pool' →
      Step fix ⟨task :: pool.tasks, pool.fs⟩ ⟨task :: pool'.tasks, pool'.fs⟩ := by
    rintro _ _ ⟨before, after, hadvance⟩
    exact .advance (task :: before) after hadvance
  exact h.lift (fun pool : Pool => (⟨task :: pool.tasks, pool.fs⟩ : Pool)) hstep

/-- A task with nothing else to be done first reaches its end in at most two steps. -/
theorem Pool.run_complete (fix : Bool) (task : Task) (tasks : List Task) (fs : FileSystem) :
    Run fix ⟨task :: tasks, fs⟩
      ⟨⟨task.path, .finished (task.complete fix fs).1⟩ :: tasks, (task.complete fix fs).2⟩ := by
  obtain ⟨path, stage⟩ := task
  have hwrite (report : Report) (text : String) : Run fix ⟨⟨path, .writing report text⟩ :: tasks, fs⟩
      ⟨⟨path, .finished ((Outcome.replace report text).finish path fs).1⟩ :: tasks,
        ((Outcome.replace report text).finish path fs).2⟩ :=
    .single (.advance [] tasks rfl)
  cases stage with
  | waiting =>
    simp only [Task.complete, checkFile]
    cases hexamine : examine path fix (fs.read path) with
    | done report =>
      refine .single (.advance [] tasks ?_)
      simp only [Task.advance, hexamine, Outcome.finish]
    | replace report text =>
      refine .head (.advance [] tasks ?_) (hwrite report text)
      simp only [Task.advance, hexamine]
  | writing report text => exact hwrite report text
  | finished report => exact .refl

/-- Every pool can be brought to its end. -/
theorem Pool.exists_run_finished (fix : Bool) (pool : Pool) :
    ∃ pool' reports, Run fix pool pool' ∧ pool'.Finished reports := by
  obtain ⟨tasks, fs⟩ := pool
  induction tasks generalizing fs with
  | nil => exact ⟨⟨[], fs⟩, [], .refl, rfl⟩
  | cons task tasks ih =>
    obtain ⟨⟨tasks', fs'⟩, reports, hrun, hfinished⟩ := ih (task.complete fix fs).2
    refine ⟨_, (task.complete fix fs).1 :: reports,
      (run_complete fix task tasks fs).trans (run_cons _ hrun), ?_⟩
    simp only [Finished, List.map_cons] at hfinished ⊢
    rw [hfinished]

end SentinelWrap.Command
