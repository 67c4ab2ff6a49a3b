/-
Every run of a batch ends when those of the machine that it goes on with do.

A batch runs that machine inside a step of its own, so a step comes to nothing as long as
the machine's run does not.  A step that goes on never runs the machine, so how far the batch
is bounds the number of its steps, and every run is left by a step that comes to something:
`exists_takes`.  Any machine will do, one that need not end too, as long as its own runs from
then on come to something.
-/
import BuildConfig.Proofs.Mapping.Protocol

namespace BuildConfig.Mapping.Batch

variable {ς ν σ : Type} [Sink ς Delivery] [Environment σ] {B : Behaviour ν}
  {batch : Batch ς ν} {world : σ}

/-! ### How far a batch is -/

/-- Every step that goes on brings the batch closer to the machine that it goes on with. -/
theorem lowers_rank :
    Machine.Lowers (fun batch => batch.stage.rank)
      ((behaviour B).Steps : Batch ς ν → σ → _ → Prop) := by
  rintro batch next world later ⟨act, hdoes⟩
  show next.stage.rank < batch.stage.rank
  generalize hstepped : Stepped.mk .next next later = stepped at hdoes
  cases hdoes with
  | found hstage _ =>
      cases hstepped
      simp [hstage, Stage.rank]
  | refused hstage _ =>
      cases hstepped
      simp [hstage, deliver, Stage.rank]
  | applied hstage =>
      cases hstepped
      simp [hstage, deliver, Stage.rank]
  | @continued ran hstage _ =>
      cases hending : ran.ending <;> rw [hending] at hstepped <;> cases hstepped
  | _ => cases hstepped

theorem rank_le (stage : Stage) : stage.rank ≤ 2 := by
  cases stage <;> simp [Stage.rank]

theorem length_le_of_takes {taken : List (Attempt (Batch ς ν))} {ran : Ran (Batch ς ν) σ}
    (h : (behaviour B).Takes batch world taken ran) : taken.length ≤ 3 :=
  Nat.le_trans (h.length_le lowers_rank) (Nat.succ_le_succ (rank_le batch.stage))

/-! ### The runs of a batch -/

/-- When the machine returns, each step of the batch comes to something. -/
theorem exists_steps (h : B.Returns batch.after) (world : σ) :
    ∃ stepped, (behaviour B).Steps batch world stepped := by
  cases hstage : batch.stage with
  | fetching => exact ⟨_, exists_does_of_fetching hstage rfl⟩
  | applying table => exact ⟨_, _, .applied hstage⟩
  | continuing =>
      obtain ⟨ran, hran⟩ := h batch.after .start ⟨world⟩
      exact ⟨_, _, .continued hstage hran⟩
  | finished => exact ⟨_, _, .rested hstage⟩

/-- **Every run of a batch ends** when those of the machine that it goes on with do. -/
theorem exists_takes (h : B.Returns batch.after) (world : σ) :
    ∃ taken ran, (behaviour B).Takes batch world taken ran :=
  Machine.exists_loops lowers_rank (fun h hstep => h.resumed (resumed_after_of_steps hstep))
    (fun world h => exists_steps h world) world h

end BuildConfig.Mapping.Batch
