/-
What a request for a baseline is due to come to.

`Request.due` says it without machines: it takes the answers as they are, does the
pieces of work one after the other, and has no notion of being resumed.  It is a result
that may never come, because an answer that is needed is missing or is a failure of a
kind that is not declared.

The pieces have names of their own, and so has what is left to do after each, so that a
machine in the middle of its work can be compared with the rest of the meaning.
-/
import BuildConfig.Proofs.Baseline.Delivery
import BuildConfig.Proofs.Evaluation.Answers
import BuildConfig.Proofs.Mapping.Rules
import BuildConfig.Proofs.Transition.Exec

namespace BuildConfig.Baseline

open BuildConfig.Bundle (Edits)

/-- The options that a request starts from. -/
def Source.due (answers : Answers) : Source → Due Empty Bundle
  | .precomputed => (answers .baseline).known Empty
  | .inline bundle => some (.ok bundle)

/-- What comes of a bundle that rules were applied to. -/
def ofRules : Except OptionsError Bundle → Due EvaluationError Configuration
  | .ok result => some (.ok ⟨result⟩)
  | .error e => some (.error (.options e))

/-- What a bundle is mapped to by the rules at its place. -/
def mapped (answers : Answers) (bundle : Bundle) : Due EvaluationError Configuration :=
  ((answers (.rules (.ofBundle bundle))).known MappingError).andThen .mapping fun rules =>
    ofRules (rules.map bundle)

/-- The transition that a reference stands for in its book. -/
def found (reference : Transition.Reference) (book : Transition.Book) :
    Due LoadError (Option Transition.Custom) :=
  some ((book.find reference.name).map some)

/-- The custom transition that a bundle names, if it names one. -/
def loaded (answers : Answers) (bundle : Bundle) : Due LoadError (Option Transition.Custom) :=
  match Transition.Reference.ofBundle bundle with
  | .error e => some (.error e)
  | .ok none => some (.ok none)
  | .ok (some reference) =>
    ((answers (.book reference.book)).known LoadError).andThen id (found reference)

/-- The bundle on the platform that is asked for, if one is. -/
def placed (request : Request) (settings : Settings) (custom : Option Transition.Custom)
    (bundle : Bundle) : Except OptionsError Bundle :=
  if request.exec then
    let exec : Transition.Exec := ⟨request.platform.getD settings.placeholder, custom⟩
    exec.patch.applyWithin bundle
  else
    match request.platform with
    | some platform => bundle.withPlatforms [platform]
    | none => .ok bundle

/-- The platform that a request is put on: on its way to execution there always is one. -/
def Request.target (request : Request) (settings : Settings) : Option Label :=
  if request.exec then some (request.platform.getD settings.placeholder) else request.platform

namespace Request

variable (request : Request) (settings : Settings) (answers : Answers)

/-- What is left when the bundle is on its platform. -/
def dueOncePlaced (bundle : Bundle) : Due EvaluationError Configuration :=
  if remaps request settings then mapped answers bundle else some (.ok ⟨bundle⟩)

/-- What is left when the custom transition is there. -/
def dueOnceLoaded (bundle : Bundle) (custom : Option Transition.Custom) :
    Due EvaluationError Configuration :=
  match placed request settings custom bundle with
  | .error e => some (.error (.options e))
  | .ok bundle => request.dueOncePlaced settings answers bundle

/-- What is left when the options are mapped. -/
def dueOnceMapped (bundle : Bundle) : Due EvaluationError Configuration :=
  (loaded answers bundle).andThen .load fun custom =>
    request.dueOnceLoaded settings answers bundle custom

/-- What is left when the options are there. -/
def dueOnceStarted (bundle : Bundle) : Due EvaluationError Configuration :=
  if bundle.lacksConfiguration then some (.ok ⟨bundle⟩)
  else
    (mapped answers bundle).andThen id fun result =>
      request.dueOnceMapped settings answers result.bundle

/-- What a request is due to come to. -/
def due : Due EvaluationError Configuration :=
  (request.source.due answers).andThen Empty.elim fun bundle =>
    request.dueOnceStarted settings answers bundle

end Request

variable {σ : Type} [Environment σ] {answers : Answers} {whole : Prop}

/-! ### The pieces of work -/

theorem ofRules_eq_ok_iff {outcome : Except OptionsError Bundle} {result : Configuration} :
    ofRules outcome = some (.ok result) ↔ outcome = .ok result.bundle := by
  cases outcome with
  | error e => simp [ofRules]
  | ok other =>
      cases result
      simp [ofRules]

theorem mapped_eq_ok_iff {bundle : Bundle} {result : Configuration} :
    mapped answers bundle = some (.ok result) ↔
      ∃ rules, answers (.rules (.ofBundle bundle)) = .ready rules ∧
        rules.map bundle = .ok result.bundle := by
  unfold mapped
  rw [Due.andThen_eq_ok_iff]
  constructor
  · rintro ⟨rules, hknown, hmap⟩
    exact ⟨rules, Answer.known_eq_ok_iff.mp hknown, ofRules_eq_ok_iff.mp hmap⟩
  · rintro ⟨rules, hready, hmap⟩
    exact ⟨rules, Answer.known_eq_ok_iff.mpr hready, ofRules_eq_ok_iff.mpr hmap⟩

theorem lacksConfiguration_of_mapped {bundle : Bundle} {result : Configuration}
    (h : mapped answers bundle = some (.ok result)) :
    result.bundle.lacksConfiguration = bundle.lacksConfiguration := by
  obtain ⟨rules, _, hmap⟩ := mapped_eq_ok_iff.mp h
  exact (Mapping.Rules.sameShape_map hmap).lacksConfiguration

/-- Putting a bundle on its platform edits the platforms and what the transition touches. -/
theorem edits_placed {request : Request} {settings : Settings} {custom : Option Transition.Custom}
    {bundle result : Bundle} (h : placed request settings custom bundle = .ok result) :
    Edits (fun name => name = .platforms ∨
      request.exec = true ∧ Transition.Exec.Touches custom name) bundle result := by
  unfold placed at h
  split at h
  · rename_i hexec
    exact (Transition.Exec.edits_patch h).mono fun name htouches => Or.inr ⟨hexec, htouches⟩
  · split at h
    · exact (Bundle.edits_withOption h).mono fun name hname => Or.inl hname
    · cases h
      exact .refl _ bundle

theorem platforms_placed {request : Request} {settings : Settings}
    {custom : Option Transition.Custom} {bundle result : Bundle} {platform : Label}
    (h : placed request settings custom bundle = .ok result)
    (htarget : request.target settings = some platform) : result.platforms = [platform] := by
  unfold placed at h
  unfold Request.target at htarget
  split at h
  · rename_i hexec
    rw [if_pos hexec] at htarget
    cases htarget
    exact Transition.Exec.platforms_patch h
  · rename_i hexec
    rw [if_neg hexec] at htarget
    rw [htarget] at h
    exact Bundle.platforms_withPlatforms h

theorem lacksConfiguration_of_placed {request : Request} {settings : Settings}
    {custom : Option Transition.Custom} {bundle result : Bundle}
    (h : placed request settings custom bundle = .ok result)
    (hbundle : bundle.lacksConfiguration = false) : result.lacksConfiguration = false := by
  rw [(edits_placed h).shape.lacksConfiguration, hbundle]

theorem fits_ofBook (reference : Transition.Reference) (book : Transition.Book) :
    (Transition.ofBook reference book).Fits whole (found reference book) := by
  unfold Transition.ofBook found
  cases book.find reference.name with
  | error e => exact .refused e
  | ok custom => exact .value (some custom)

/-- **Loading comes to the transition that is due, or to nothing.** -/
theorem fits_load {world : σ} (h : Environment.Serves answers whole world) (bundle : Bundle) :
    (Transition.load bundle world).1.Fits whole (loaded answers bundle) ∧
      Environment.Serves answers whole (Transition.load bundle world).2 := by
  unfold Transition.load loaded
  cases Transition.Reference.ofBundle bundle with
  | error e => exact ⟨.refused e, h⟩
  | ok named =>
      cases named with
      | none => exact ⟨.value none, h⟩
      | some reference =>
          have hserves := h.request (ε := LoadError) (.book reference.book)
          have hfits := Environment.fits_request (ε := LoadError) h (.book reference.book)
          -- The type of the book is spelled out, so that what is known of it can be generalized.
          show (_ : Reply LoadError (Option Transition.Custom)).Fits whole
            (((answers (.book reference.book)).known LoadError : Due LoadError
              (Key.book reference.book).Value).andThen id _) ∧ _
          generalize (answers (.book reference.book)).known LoadError = known at hfits ⊢
          dsimp only
          generalize Environment.request LoadError (.book reference.book) world = asked
            at hserves hfits ⊢
          obtain ⟨reply, later⟩ := asked
          cases hfits with
          | value book => exact ⟨fits_ofBook reference book, hserves⟩
          | refused e => exact ⟨.refused e, hserves⟩
          | missing hnone =>
              refine ⟨.missing ?_, hserves⟩
              intro hwhole
              rw [hnone hwhole]
              rfl
          | interrupted hnot => exact ⟨.interrupted hnot, hserves⟩

/-- A move is to the bundle that is on its platform; without a move that is the bundle itself. -/
theorem placed_eq_move (request : Request) (settings : Settings)
    (custom : Option Transition.Custom) (bundle : Bundle) :
    placed request settings custom bundle =
      (Evaluation.move request settings custom bundle).map (·.getD bundle) := by
  have hmap : ∀ moved : Except OptionsError Bundle,
      (moved.map some).map (·.getD bundle) = moved := by
    intro moved
    cases moved <;> rfl
  unfold placed Evaluation.move
  split
  · exact (hmap _).symm
  · cases request.platform with
    | some platform => exact (hmap _).symm
    | none => rfl

end BuildConfig.Baseline
