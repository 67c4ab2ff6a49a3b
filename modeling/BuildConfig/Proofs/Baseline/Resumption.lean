/-
Completed work is never repeated.

An evaluation is run as often as it takes, in environments that may answer in any way
and may interrupt at any point.  What it looks up over all runs falls into four blocks,
one for each piece of work that looks something up, and these follow one another.  A run
adds one lookup at most to a block.  It adds none to a block that has been told
something of use, or to one with a later block behind it.

The invariant is `Evaluation.Going` of the journal so far together with that of the run.
Within a run an evaluation goes on only with values, so a block that the run has added
to already is complete; this is why a run does not add to a block twice.
-/
import BuildConfig.Proofs.Baseline.Trail

namespace BuildConfig.Baseline

/-! ### What one run adds -/

/-- The lookups of a run, at most one a block, when these were made before it. -/
structure Journal.Adds (before made : Journal) (lookups : List Lookup) : Prop where
  lookups_eq : lookups = made.lookups
  /-- They are also the last ones of all. -/
  append_eq : (before.append made).lookups = before.lookups ++ lookups
  once : ∀ phase, (made phase).length ≤ 1

namespace Journal.Adds

variable {before made : Journal} {lookups : List Lookup} {phase : Phase} {asked : Option Lookup}

private theorem nothing (before : Journal) : before.Adds .empty [] :=
  ⟨rfl, by simp, fun _ => by simp [Journal.empty]⟩

private theorem note (h : before.Adds made lookups) (hphase : phase ∈ asking)
    (hend : (before.append made).EndsAt phase) (hfirst : asked.isSome → made phase = []) :
    before.Adds (made.note phase asked) (lookups ++ asked.toList) := by
  have hmade : made.EndsAt phase := fun later hlater =>
    (List.append_eq_nil_iff.mp (hend later hlater)).2
  refine ⟨?_, ?_, ?_⟩
  · rw [hmade.lookups_note hphase, h.lookups_eq]
  · rw [Journal.append_note, hend.lookups_note hphase, h.append_eq, List.append_assoc]
  · intro other
    by_cases hother : other = phase
    · subst hother
      cases asked with
      | none => simpa using h.once other
      | some lookup => simp [hfirst rfl]
    · rw [Journal.note_of_ne hother]
      exact h.once other

end Journal.Adds

namespace Evaluation

variable {ς σ : Type} {request : Request} {settings : Settings} {sink : ς}
  {evaluation : Evaluation ς} {before : Journal}

/-- An evaluation within a run, which has gone on with a value whenever it looked something up. -/
def Runs (request : Request) (settings : Settings) (sink : ς) (before : Journal)
    (evaluation : Evaluation ς) (recorded : Recorded σ) : Prop :=
  ∃ made : Journal, before.Adds made recorded.lookups ∧
    (∀ phase, ∀ lookup ∈ made phase, lookup.HasValue) ∧
    Going request settings sink (before.append made) evaluation

variable [Sink ς Outcome]

/-- An evaluation after a run. -/
def Rests (request : Request) (settings : Settings) (sink : ς) (before : Journal)
    (ending : RunEnd) (evaluation : Evaluation ς) (recorded : Recorded σ) : Prop :=
  ∃ made : Journal, before.Adds made recorded.lookups ∧
    Machine.Stands (Going request settings sink (before.append made))
      (Gone request settings sink (before.append made)) ending evaluation

theorem Runs.step [Environment σ] {recorded : Recorded σ}
    (h : Runs request settings sink before evaluation recorded) :
    (Machine.step evaluation recorded).Meets (Runs request settings sink before)
      (Rests request settings sink before) := by
  obtain ⟨made, hadds, hvalues, hgoing⟩ := h
  obtain ⟨phase, hphase, asked, hlookups, hend, hasks, hstays⟩ := hgoing.step recorded
  have hfirst : asked.isSome → made phase = [] := by
    intro hsome
    refine List.eq_nil_iff_forall_not_mem.mpr ?_
    intro lookup hmem
    exact hasks hsome lookup (List.mem_append_right _ hmem) (hvalues phase lookup hmem)
  have hafter := hadds.note hphase hend hfirst
  rw [← Journal.append_note] at hstays
  generalize Machine.step evaluation recorded = stepped at hlookups hstays ⊢
  obtain ⟨ending, after, later⟩ := stepped
  dsimp only at hlookups hstays
  rw [← hlookups] at hafter
  cases ending with
  | suspended => exact ⟨_, hafter, hstays⟩
  | interrupted => exact ⟨_, hafter, hstays⟩
  | done => exact ⟨_, hafter, hstays⟩
  | next =>
      refine ⟨_, hafter, ?_, hstays.1⟩
      intro other lookup hmem
      by_cases hother : other = phase
      · subst hother
        rw [Journal.note_same] at hmem
        obtain hbefore | hnew := List.mem_append.mp hmem
        · exact hvalues other lookup hbefore
        · exact hstays.2 lookup (by simpa using hnew)
      · rw [Journal.note_of_ne hother] at hmem
        exact hvalues other lookup hmem

/-- **One run, with what it looks up.** -/
theorem Going.run [Environment σ] (h : Going request settings sink before evaluation) (world : σ) :
    Rests request settings sink before (Machine.run evaluation (Recorded.start world)).ending
      (Machine.run evaluation (Recorded.start world)).machine
      (Machine.run evaluation (Recorded.start world)).world := by
  refine Machine.run_rule (Runs request settings sink before) (Rests request settings sink before)
    ?_ ?_ ?_ ?_
  · rintro evaluation recorded ⟨made, hadds, _, hgoing⟩ _
    exact ⟨made, hadds, hgoing⟩
  · intro evaluation recorded hruns _
    exact hruns
  · intro evaluation recorded hruns
    exact hruns.step
  · refine ⟨.empty, .nothing before, ?_, by rwa [Journal.append_empty]⟩
    intro phase lookup hmem
    exact absurd hmem List.not_mem_nil

theorem lookups_run_of_finished [Environment σ] (h : evaluation.stage = .finished) (world : σ) :
    (Machine.run evaluation (Recorded.start world)).world.lookups = [] := by
  cases hraised : (Environment.raised (Recorded.start world)).1 with
  | true =>
      rw [Machine.run_of_raised hraised]
      rfl
  | false =>
      rw [Machine.run_of_lowered hraised, step_of_finished h]
      rfl

/-! ### Any number of runs -/

theorem lookups_of_finished (h : evaluation.stage = .finished) (worlds : List World) :
    Machine.lookups evaluation worlds = worlds.map fun _ => [] := by
  induction worlds with
  | nil => rfl
  | cons world rest ih =>
      rw [Machine.lookups, lookups_run_of_finished h, run_of_finished h, ih]
      rfl

/-- The lookups of several runs, each of which adds at most one a block. -/
structure Added (before : Journal) (journals : List Journal) (lookups : List (List Lookup)) :
    Prop where
  lookups_eq : lookups = journals.map Journal.lookups
  append_eq : (before.append (.join journals)).lookups = before.lookups ++ lookups.flatten
  once : ∀ made ∈ journals, ∀ phase, (made phase).length ≤ 1

private theorem Added.cons {made : Journal} {journals : List Journal} {first : List Lookup}
    {rest : List (List Lookup)} (hfirst : before.Adds made first)
    (hrest : Added (before.append made) journals rest) :
    Added before (made :: journals) (first :: rest) := by
  refine ⟨?_, ?_, ?_⟩
  · rw [List.map_cons, hfirst.lookups_eq, hrest.lookups_eq]
  · rw [Journal.append_join, hrest.append_eq, hfirst.append_eq, List.flatten_cons,
      List.append_assoc]
  · rw [List.forall_mem_cons]
    exact ⟨hfirst.once, hrest.once⟩

private theorem Added.nothing (before : Journal) (worlds : List World) :
    Added before (worlds.map fun _ => .empty) (worlds.map fun _ => []) := by
  induction worlds with
  | nil => exact ⟨rfl, by simp, fun _ hmade => absurd hmade List.not_mem_nil⟩
  | cons world rest ih =>
      refine Added.cons (.nothing before) ?_
      rwa [Journal.append_empty]

private theorem Gone.added (h : Gone request settings sink before evaluation)
    (worlds : List World) :
    ∃ journals : List Journal, Added before journals (Machine.lookups evaluation worlds) ∧
      Gone request settings sink (before.append (.join journals))
        (Machine.runs evaluation worlds).machine := by
  rw [lookups_of_finished h.stage_eq, runs_of_finished h.stage_eq]
  have hjoin : before.append (.join (worlds.map fun _ => .empty)) = before := by
    funext phase
    simp [Journal.append, Journal.join, Journal.empty]
  exact ⟨_, .nothing before worlds, by rwa [hjoin]⟩

/-- **Any number of runs, with what each of them looks up.** -/
theorem Going.runs (h : Going request settings sink before evaluation) (worlds : List World) :
    ∃ journals : List Journal, Added before journals (Machine.lookups evaluation worlds) ∧
      (Going request settings sink (before.append (.join journals))
          (Machine.runs evaluation worlds).machine ∨
        Gone request settings sink (before.append (.join journals))
          (Machine.runs evaluation worlds).machine) := by
  induction worlds generalizing before evaluation with
  | nil =>
      refine ⟨[], .nothing before [], Or.inl ?_⟩
      rw [Journal.join_nil, Journal.append_empty]
      exact h
  | cons world rest ih =>
      obtain ⟨made, hadds, hstands⟩ := h.run world.state
      have hrecorded := Machine.run_recorded evaluation (Recorded.start world.state)
      generalize hran : Machine.run evaluation (Recorded.start world.state) = ran
        at hadds hstands hrecorded
      obtain ⟨ending, after, later⟩ := ran
      rw [Machine.lookups, Machine.runs, hran]
      dsimp only
      rw [show Machine.run evaluation world.state = _ from hrecorded]
      have hmore : ∃ journals : List Journal,
          Added (before.append made) journals (Machine.lookups after rest) ∧
            (Going request settings sink ((before.append made).append (.join journals))
                (Machine.runs after rest).machine ∨
              Gone request settings sink ((before.append made).append (.join journals))
                (Machine.runs after rest).machine) := by
        cases ending with
        | suspended => exact ih hstands
        | interrupted => exact ih hstands
        | done =>
            obtain ⟨journals, hadded, hgone⟩ := Gone.added hstands rest
            exact ⟨journals, hadded, Or.inr hgone⟩
      obtain ⟨journals, hadded, hends⟩ := hmore
      refine ⟨made :: journals, Added.cons hadds hadded, ?_⟩
      rwa [Journal.append_join]

/--
**Completed work is never repeated.**  Over any number of runs, in any environments,
the lookups of an evaluation form the four blocks of an orderly journal, one after the
other.  Every run adds one at most to each block, and only the last lookup of a block can
have told it anything; in particular nothing is looked up in a block after a value.
-/
theorem lookups_orderly (request : Request) (settings : Settings) (sink : ς)
    (worlds : List World) :
    ∃ journals : List Journal,
      Machine.lookups (begin request settings sink) worlds = journals.map Journal.lookups ∧
      (∀ made ∈ journals, ∀ phase, (made phase).length ≤ 1) ∧
      (Machine.lookups (begin request settings sink) worlds).flatten =
        (Journal.join journals).lookups ∧
      Orderly request settings (.join journals) ∧
      ∀ phase ∈ asking, ∀ lookup ∈ (Journal.join journals phase).dropLast,
        phase.Useless lookup := by
  obtain ⟨journals, hadded, hends⟩ := (going_begin request settings sink).runs worlds
  have horderly : Orderly request settings (.join journals) := by
    obtain hgoing | hgone := hends
    · exact hgoing.trail.orderly
    · obtain ⟨outcome, _, hconcluded⟩ := hgone.concluded
      exact hconcluded.orderly
  refine ⟨journals, hadded.lookups_eq, hadded.once, hadded.append_eq.symm, horderly, ?_⟩
  intro phase hphase lookup hmem
  exact (horderly.block phase hphase).useless_dropLast hmem

end Evaluation

end BuildConfig.Baseline
