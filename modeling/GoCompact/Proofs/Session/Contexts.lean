import Mathlib
import GoCompact.Session

namespace GoCompact

namespace Reader

variable {r r' : Reader} {fragment : Fragment}

@[simp]
theorem start_refused (r : Reader) (refusal : Refusal) : (r.refused refusal).start = r.start := rfl

-- A run changes no more than what the next one starts with anyway.
theorem start_run (r : Reader) (fragment : Fragment) : (r.run fragment).1.start = r.start := by
  simp only [run]
  split
  · rfl
  · split <;> rfl

-- What a run reads is what the source is read as, whatever earlier runs have left.
theorem run_eq_parse (r : Reader) (fragment : Fragment) :
    (r.run fragment).2 = fragment.parse r.limit r.source r.file := by
  simp only [run, Fragment.parse, Fragment.parseTokens, start]
  cases Lexer.tokens r.source r.file with
  | error d => rfl
  | ok tokens =>
      simp only [bind, Except.bind]
      cases fragment.parseIn ⟨0, 0, r.limit⟩ tokens <;> rfl

theorem run_congr (h : r.start = r'.start) : (r.run fragment).2 = (r'.run fragment).2 := by
  obtain ⟨hsource, hfile, hlimit, -, -⟩ := Reader.mk.inj h
  rw [run_eq_parse, run_eq_parse, hsource, hfile, hlimit]

end Reader

namespace Step

-- Steps that leave the innermost context, normally or by a failure.
def closes : Step → Bool
  | .leave | .fail => true
  | _ => false

-- Steps that enter or leave a context.
def delimits : Step → Bool
  | .enter _ => true
  | step => step.closes

-- Steps that are there to change the settings.
def configures : Step → Bool
  | .set _ | .reset => true
  | step => step.delimits

-- Steps that make a reader of this name.
def makes (id : Text) : Step → Bool
  | .make name _ _ => name == id
  | _ => false

-- Steps that leave just the contexts they enter.
inductive Balanced : List Step → Prop
  | nil : Balanced []
  | cons {step : Step} {steps : List Step} (hstep : step.delimits = false) (h : Balanced steps) :
      Balanced (step :: steps)
  | context {settings : Settings} {inner : List Step} {close : Step} {steps : List Step}
      (hinner : Balanced inner) (hclose : close.closes = true) (h : Balanced steps) :
      Balanced (.enter settings :: (inner ++ close :: steps))

end Step

namespace Session

open Step (Balanced)

variable {s : Session} {steps : List Step}

-- The session after some steps.
def after (s : Session) (steps : List Step) : Session := steps.foldl (fun s step => (s.step step).1) s

@[simp]
theorem after_cons (s : Session) (step : Step) (steps : List Step) :
    s.after (step :: steps) = (s.step step).1.after steps :=
  rfl

@[simp]
theorem after_append (s : Session) (steps others : List Step) :
    s.after (steps ++ others) = (s.after steps).after others :=
  List.foldl_append

theorem length_run (s : Session) (steps : List Step) : (s.run steps).length = steps.length := by
  induction steps generalizing s with
  | nil => rfl
  | cons step steps ih => exact congrArg Nat.succ (ih _)

theorem run_append (s : Session) (steps others : List Step) :
    s.run (steps ++ others) = s.run steps ++ (s.after steps).run others := by
  induction steps generalizing s with
  | nil => rfl
  | cons step steps ih =>
      simp only [List.cons_append, run, after_cons]
      rw [ih]

-- What is shown for a step is found where the step stands.
theorem getElem?_run (s : Session) (step : Step) (steps others : List Step) :
    (s.run (steps ++ step :: others))[steps.length]? =
      some (((s.after steps).step step).1.settings, ((s.after steps).step step).2) := by
  rw [run_append, List.getElem?_append_right (s.length_run steps).le, length_run, Nat.sub_self]
  rfl

-- One step: what it does to the settings, to the open contexts and to the readers.
theorem settings_step {step : Step} (h : step.configures = false) (s : Session) :
    (s.step step).1.settings = s.settings := by
  cases step with
  | run id fragment =>
      simp only [Session.step]
      split <;> rfl
  | set | reset | enter | leave | fail => cases h
  | _ => rfl

theorem outer_step {step : Step} (h : step.delimits = false) (s : Session) :
    (s.step step).1.outer = s.outer := by
  cases step with
  | run id fragment =>
      simp only [Session.step]
      split <;> rfl
  | enter | leave | fail => cases h
  | _ => rfl

-- Leaving a context brings back what was active before it.
theorem step_of_closes {step : Step} {previous : Settings} {others : List Settings}
    (h : step.closes = true) (houter : s.outer = previous :: others) :
    (s.step step).1.settings = previous ∧ (s.step step).1.outer = others := by
  have hleave : s.leave = { s with settings := previous, outer := others } := by
    simp only [Session.leave, houter]
  cases step with
  | leave => simp [Session.step, hleave]
  | fail => simp [Session.step, hleave]
  | _ => cases h

-- The reader of a name, apart from what its runs have left.
def reader? (s : Session) (id : Text) : Option Reader := (s.readers.lookup id).map Reader.start

theorem reader?_step {step : Step} {id : Text} (h : step.makes id = false) (s : Session) :
    (s.step step).1.reader? id = s.reader? id := by
  cases step with
  | run name fragment =>
      simp only [Session.step]
      split
      · rename_i r hr
        cases hid : id == name with
        | false => simp [reader?, List.lookup, hid]
        | true =>
            obtain rfl := eq_of_beq hid
            simp [reader?, hr, Reader.start_run]
      · rfl
  | make name source file =>
      have hne : (id == name) = false := by rwa [BEq.comm]
      simp [Session.step, reader?, List.lookup, hne]
  | leave =>
      simp only [Session.step, Session.leave]
      split <;> rfl
  | fail =>
      simp only [Session.step, Session.leave]
      split <;> rfl
  | _ => rfl

-- Along balanced steps no context is left that was open before them.
theorem outer_after (h : Balanced steps) (s : Session) :
    (s.after steps).outer = s.outer := by
  induction h generalizing s with
  | nil => rfl
  | cons hstep _ ih => rw [after_cons, ih, outer_step hstep]
  | context _ hclose _ ihinner ih =>
      rw [after_cons, after_append, after_cons, ih]
      exact (step_of_closes hclose (ihinner _)).2

theorem settings_after_close {inner : List Step} {close : Step} (hinner : Balanced inner)
    (hclose : close.closes = true) (s : Session) (settings : Settings) :
    (((s.after (.enter settings :: inner)).step close).1).settings = s.settings := by
  have houter := outer_after hinner (s.step (.enter settings)).1
  exact (step_of_closes hclose houter).1

-- A reader stays what it is until another one of its name is made.
theorem reader?_after {id : Text} (h : ∀ step ∈ steps, step.makes id = false) (s : Session) :
    (s.after steps).reader? id = s.reader? id := by
  induction steps generalizing s with
  | nil => rfl
  | cons step steps ih =>
      obtain ⟨hstep, hsteps⟩ := List.forall_mem_cons.mp h
      rw [after_cons, ih hsteps, reader?_step hstep]

theorem reader?_make {id source : Text} {file : Option Text}
    (h : ∀ step ∈ steps, step.makes id = false) (s : Session) :
    (s.after (.make id source file :: steps)).reader? id =
      some (.new source file s.settings.limit) := by
  rw [after_cons, reader?_after h]
  simp [Session.step, reader?, Reader.new, Reader.start]

-- Running a reader shows what its source is written as, however often it was run before.
theorem step_run {id source : Text} {file : Option Text} {limit : Limit} (fragment : Fragment)
    (h : s.reader? id = some (.new source file limit)) :
    (s.step (.run id fragment)).2 = .ofText (compact fragment limit source file) := by
  obtain ⟨r, hr, hstart⟩ := Option.map_eq_some_iff.mp h
  have hfresh : (r.run fragment).2 = ((Reader.new source file limit).run fragment).2 :=
    Reader.run_congr hstart
  have hread : (r.run fragment).2 = fragment.parse limit source file :=
    hfresh.trans (Reader.run_eq_parse _ _)
  simp only [Session.step, hr, hread]
  rfl

-- In every run, the step that leaves a context shows the settings from before the step that entered it,
-- a step that only reads or writes shows the settings from before it, and running a reader gives what
-- its source is written as under the limit that was active when the reader was made.
theorem run_contexts (s : Session) (steps : List Step) :
    (∀ (settings : Settings) (inner : List Step) (close : Step) (others : List Step),
      Balanced inner → close.closes = true → ∃ result : StepResult,
        (s.run (steps ++ Step.enter settings :: (inner ++ close :: others)))[
          steps.length + inner.length + 1]? = some ((s.after steps).settings, result)) ∧
    (∀ (step : Step) (others : List Step), step.configures = false → ∃ result : StepResult,
      (s.run (steps ++ step :: others))[steps.length]? = some ((s.after steps).settings, result)) ∧
    ∀ (id source : Text) (file : Option Text) (later : List Step) (fragment : Fragment)
      (others : List Step), (∀ step ∈ later, step.makes id = false) → ∃ settings : Settings,
        (s.run (steps ++ Step.make id source file :: (later ++ Step.run id fragment :: others)))[
          steps.length + later.length + 1]? = some (settings,
            StepResult.ofText (compact fragment (s.after steps).settings.limit source file)) := by
  refine ⟨?_, ?_, ?_⟩
  · intro settings inner close others hinner hclose
    have hshown := s.getElem?_run close (steps ++ .enter settings :: inner) others
    simp only [List.append_assoc, List.cons_append, List.length_append, List.length_cons,
      after_append, ← Nat.add_assoc] at hshown
    rw [hshown, settings_after_close hinner hclose]
    exact ⟨_, rfl⟩
  · intro step others hstep
    rw [s.getElem?_run step steps others, settings_step hstep]
    exact ⟨_, rfl⟩
  · intro id source file later fragment others hlater
    have hshown := s.getElem?_run (.run id fragment) (steps ++ .make id source file :: later) others
    simp only [List.append_assoc, List.cons_append, List.length_append, List.length_cons,
      after_append, ← Nat.add_assoc] at hshown
    rw [hshown]
    rw [step_run fragment (reader?_make hlater (s.after steps))]
    exact ⟨_, rfl⟩

-- A context in which the settings are reset and another context fails, and which fails itself. The
-- reader that was made in it keeps its limit of one level.
theorem run_contexts_failed :
    let low : Settings := ⟨.int 1, .bool true⟩
    let own : Settings := ⟨.int 7, .bool false⟩
    let inner : List Step := [.make "p" "f((x))" none, .reset, .enter own, .fail, .run "p" .expression]
    let steps : List Step := .set own :: .enter low :: (inner ++ [.fail, .run "p" .file])
    Balanced inner ∧
      (∃ result : StepResult, ((new .standard).run steps)[7]? = some (own, result)) ∧
      (∃ result : StepResult, ((new .standard).run steps)[6]? = some (Settings.standard, result)) ∧
      ∃ settings : Settings, ((new .standard).run steps)[8]? =
        some (settings, StepResult.ofText (compact .file (.atMost 1) "f((x))" none)) := by
  intro low own inner steps
  have hnested : Balanced (.enter own :: ([] ++ .fail :: [.run "p" .expression])) :=
    .context .nil rfl (.cons rfl .nil)
  have hinner : Balanced inner := .cons rfl (.cons rfl hnested)
  have hcontext := (run_contexts (new .standard) [.set own]).1 low inner .fail [.run "p" .file] hinner rfl
  have hrun := (run_contexts (new .standard) [.set own, .enter low, .make "p" "f((x))" none, .reset,
    .enter own, .fail]).2.1 (.run "p" .expression) [.fail, .run "p" .file] rfl
  have hreader := (run_contexts (new .standard) [.set own, .enter low]).2.2 "p" "f((x))" none
    [.reset, .enter own, .fail, .run "p" .expression, .fail] .file [] (by simp [Step.makes])
  exact ⟨hinner, hcontext, hrun, hreader⟩

end Session

end GoCompact
