/-
Answers, and the environments that give them.

`Answers` is what there is under every key once everything is there.  An environment
can be short of that in two ways: it says that a key is missing although there is
something under it, and it raises its flag.  `Below` allows both, at any time and
as often as it likes, but nothing else; `Full` allows neither.  An environment changes
whenever it is asked something, so both speak of all that it can become.

`fits_request` is what the rest of the library uses: a request comes to what the
answers say or to nothing, and to nothing only when that is all there is or the
environment is not a full one.  `Machine.run_settles` lifts the same from the steps of
a machine to its runs.
-/
import BuildConfig.Evaluation.Store
import BuildConfig.Proofs.Evaluation.Runs

namespace BuildConfig

/-- What there is under every key. -/
abbrev Answers : Type :=
  (key : Key) → Answer key.Value

/-- A result that is due; none when it never comes. -/
abbrev Due (ε α : Type) : Type :=
  Option (Except ε α)

/-- The result of going on with a value, while an error is an error of the whole. -/
def Due.andThen {ε ε' α β : Type} (due : Due ε α) (wrap : ε → ε') (next : α → Due ε' β) :
    Due ε' β :=
  match due with
  | none => none
  | some (.error e) => some (.error (wrap e))
  | some (.ok a) => next a

theorem Due.andThen_eq_ok_iff {ε ε' α β : Type} {due : Due ε α} {wrap : ε → ε'}
    {next : α → Due ε' β} {b : β} :
    due.andThen wrap next = some (.ok b) ↔
      ∃ a, due = some (.ok a) ∧ next a = some (.ok b) := by
  constructor
  · intro h
    unfold Due.andThen at h
    split at h
    · cases h
    · cases h
    · rename_i a
      exact ⟨a, rfl, h⟩
  · rintro ⟨a, rfl, hnext⟩
    exact hnext

theorem Due.andThen_id {ε α : Type} (due : Due ε α) :
    due.andThen id (fun a => some (.ok a)) = due := by
  cases due with
  | none => rfl
  | some result => cases result <;> rfl

/-- The value or the declared error in an answer; none when it has neither. -/
def Answer.known {α : Type} (ε : Type) [Declared ε] : Answer α → Due ε α
  | ready value => some (.ok value)
  | failed failure => (Declared.ofCause? failure.cause).map Except.error
  | missing => none

theorem Answer.known_eq_ok_iff {ε α : Type} [Declared ε] {answer : Answer α} {value : α} :
    answer.known ε = some (.ok value) ↔ answer = .ready value := by
  cases answer with
  | ready other => simp [Answer.known]
  | failed failure => simp [Answer.known]
  | missing => simp [Answer.known]

/-- How a reply can stand to what is known; in a `whole` environment it keeps nothing back. -/
inductive Reply.Fits {ε α : Type} (whole : Prop) : Due ε α → Reply ε α → Prop
  | value (a : α) : Fits whole (some (.ok a)) (.value a)
  | refused (e : ε) : Fits whole (some (.error e)) (.refused e)
  | missing {known : Due ε α} (h : whole → known = none) : Fits whole known .missing
  | interrupted {known : Due ε α} (h : ¬ whole) : Fits whole known .interrupted

namespace Environment

variable {σ : Type} [Environment σ] {answers : Answers} {whole : Prop} {world : σ}

/-- What an environment can become. -/
inductive Later (world : σ) : σ → Prop
  | refl : Later world world
  | raised {later : σ} (h : Later world later) : Later world (raised later).2
  | ask {later : σ} (h : Later world later) (key : Key) : Later world (ask key later).2

theorem Later.trans {a b c : σ} (h : Later a b) (k : Later b c) : Later a c := by
  induction k with
  | refl => exact h
  | raised _ ih => exact .raised ih
  | ask _ key ih => exact .ask ih key

/-- Whatever the environment says is missing or as in the answers. -/
def Below (answers : Answers) (world : σ) : Prop :=
  ∀ later, Later world later → ∀ key,
    (ask key later).1 = .missing ∨ (ask key later).1 = answers key

/-- The environment says what is in the answers and never raises its flag. -/
def Full (answers : Answers) (world : σ) : Prop :=
  ∀ later, Later world later →
    (raised later).1 = false ∧ ∀ key, (ask key later).1 = answers key

/-- The environment gives the answers, and keeps nothing back if it is to be `whole`. -/
structure Serves (answers : Answers) (whole : Prop) (world : σ) : Prop where
  below : Below answers world
  full : whole → Full answers world

theorem Full.serves (h : Full answers world) : Serves answers True world :=
  ⟨fun later hlater key => Or.inr ((h later hlater).2 key), fun _ => h⟩

theorem Below.serves (h : Below answers world) : Serves answers False world :=
  ⟨h, False.elim⟩

namespace Serves

theorem later {after : σ} (h : Serves answers whole world) (hafter : Later world after) :
    Serves answers whole after := by
  refine ⟨?_, ?_⟩
  · intro later hlater
    exact h.below later (hafter.trans hlater)
  · intro hwhole later hlater
    exact h.full hwhole later (hafter.trans hlater)

theorem raised (h : Serves answers whole world) :
    Serves answers whole (Environment.raised world).2 :=
  h.later (.raised .refl)

theorem ask (h : Serves answers whole world) (key : Key) :
    Serves answers whole (Environment.ask key world).2 :=
  h.later (.ask .refl key)

theorem not_whole (h : Serves answers whole world) (hraised : (Environment.raised world).1 = true) :
    ¬ whole := by
  intro hwhole
  rw [(h.full hwhole world .refl).1] at hraised
  cases hraised

end Serves

theorem request_of_raised {ε : Type} [Declared ε] {key : Key} (h : (raised world).1 = true) :
    request ε key world = (.interrupted, (raised world).2) := by
  unfold request
  split <;> rename_i hraised
  · rw [hraised]
  · rw [hraised] at h
    cases h

theorem request_of_lowered {ε : Type} [Declared ε] {key : Key} (h : (raised world).1 = false) :
    request ε key world =
      ((ask key (raised world).2).1.reply ε, (ask key (raised world).2).2) := by
  unfold request
  split <;> rename_i hraised
  · rw [hraised] at h
    cases h
  · rw [hraised]

theorem Serves.request {ε : Type} [Declared ε] (h : Serves answers whole world) (key : Key) :
    Serves answers whole (Environment.request ε key world).2 := by
  cases hraised : (Environment.raised world).1 with
  | true =>
      rw [request_of_raised hraised]
      exact h.raised
  | false =>
      rw [request_of_lowered hraised]
      exact h.raised.ask key

/-- What is known of an answer is what a reply says. -/
theorem fits_reply {ε α : Type} [Declared ε] (answer : Answer α) :
    (answer.reply ε).Fits whole (answer.known ε) := by
  cases answer with
  | ready value => exact .value value
  | missing => exact .missing fun _ => rfl
  | failed failure =>
      dsimp only [Answer.reply, Answer.known]
      cases (Declared.ofCause? failure.cause : Option ε) with
      | some e => exact .refused e
      | none => exact .missing fun _ => rfl

/-- **A request comes to what is known of the answer, or to nothing.** -/
theorem fits_request {ε : Type} [Declared ε] (h : Serves answers whole world) (key : Key) :
    (request ε key world).1.Fits whole ((answers key).known ε) := by
  cases hraised : (Environment.raised world).1 with
  | true =>
      rw [request_of_raised hraised]
      exact .interrupted (h.not_whole hraised)
  | false =>
      rw [request_of_lowered hraised]
      obtain hmissing | hasked := h.raised.below _ .refl key
      · rw [hmissing]
        refine .missing ?_
        intro hwhole
        rw [← (h.raised.full hwhole _ .refl).2 key, hmissing]
        rfl
      · rw [hasked]
        exact fits_reply _

end Environment

/-! ### Runs from which a result is due -/

/--
How a run can end that a result is due from.  It pays what is due, or goes on owing
it; in a whole environment it goes on only when the result never comes.
-/
def RunEnd.Settles {μ σ ε α : Type} [Environment σ] (answers : Answers) (whole : Prop)
    (due : Due ε α) (owes : μ → Prop) (paid : Except ε α → μ → Prop) :
    RunEnd → μ → σ → Prop
  | .done, machine, world =>
    (∃ outcome, due = some outcome ∧ paid outcome machine) ∧
      Environment.Serves answers whole world
  | .suspended, machine, world =>
    owes machine ∧ (whole → due = none) ∧ Environment.Serves answers whole world
  | .interrupted, machine, world =>
    owes machine ∧ ¬ whole ∧ Environment.Serves answers whole world

/-- The rule for runs from which a result is due: a step goes on owing it or ends as a run may. -/
theorem Machine.run_settles {μ σ ε α : Type} [Machine μ] [Machine.Ends μ] [Environment σ]
    {answers : Answers} {whole : Prop} {due : Due ε α} (owes : μ → Prop)
    (paid : Except ε α → μ → Prop)
    (hstep : ∀ machine (world : σ), owes machine → Environment.Serves answers whole world →
      (step machine world).Meets
        (fun after later => owes after ∧ Environment.Serves answers whole later)
        (RunEnd.Settles answers whole due owes paid))
    {machine : μ} {world : σ} (h : owes machine)
    (hserves : Environment.Serves answers whole world) :
    RunEnd.Settles answers whole due owes paid (run machine world).ending
      (run machine world).machine (run machine world).world := by
  refine run_rule (fun after later => owes after ∧ Environment.Serves answers whole later)
    (RunEnd.Settles answers whole due owes paid) ?_ ?_ ?_ ⟨h, hserves⟩
  · intro machine world h hraised
    exact ⟨h.1, h.2.not_whole hraised, h.2.raised⟩
  · intro machine world h _
    exact ⟨h.1, h.2.raised⟩
  · intro machine world h
    exact hstep machine world h.1 h.2

/-! ### Stores -/

namespace Store

variable {answers : Answers} {store : Store}

/-- The rules that a store answers with stand in one of its entries. -/
theorem exists_entry_of_ready {location : Mapping.Location} {rules : Mapping.Rules}
    (h : store.answer (.rules location) = .ready rules) :
    ∃ place, (⟨.rules place, .ok rules⟩ : Entry) ∈ store.entries := by
  unfold answer at h
  cases hfind : store.entries.findSome? fun entry => entry.answer? (.rules location) with
  | none =>
      rw [hfind] at h
      cases h
  | some found =>
      rw [hfind] at h
      obtain ⟨entry, hentry, hanswer⟩ := List.exists_of_findSome?_eq_some hfind
      cases h
      obtain ⟨key, held⟩ := entry
      unfold Entry.answer? at hanswer
      split at hanswer
      · rename_i hsame
        have hidentity := Key.same_iff.mp hsame
        cases key with
        | rules place =>
            cases held with
            | ok value =>
                cases hanswer
                exact ⟨place, hentry⟩
            | error failure => cases hanswer
        | baseline => cases hidentity
        | book label => cases hidentity
        | note shelf name => cases hidentity
      · cases hanswer

theorem entries_record_ring (store : Store) (key : Key) :
    (store.record key).ring.entries = store.entries := by
  unfold ring
  split
  · rfl
  · split <;> rfl

/-- A store only ever changes in what is written down about the requests. -/
private theorem entries_of_later {later : Store} (h : Environment.Later store later) :
    later.entries = store.entries := by
  induction h with
  | refl => rfl
  | raised _ ih => exact ih
  | ask _ key ih => exact (entries_record_ring _ key).trans ih

theorem answer_congr {a b : Store} (h : a.entries = b.entries) (key : Key) :
    a.answer key = b.answer key := by
  unfold answer
  rw [h]

theorem answer_of_later {later : Store} (h : Environment.Later store later) (key : Key) :
    later.answer key = store.answer key :=
  answer_congr (entries_of_later h) key

theorem below (h : ∀ key, store.answer key = .missing ∨ store.answer key = answers key) :
    Environment.Below answers store := by
  intro later hlater key
  show later.answer key = _ ∨ later.answer key = _
  rw [answer_of_later hlater]
  exact h key

theorem lowered_of_later {later : Store} (hflag : store.flag = false) (halarm : store.alarm = none)
    (h : Environment.Later store later) : later.flag = false ∧ later.alarm = none := by
  induction h with
  | refl => exact ⟨hflag, halarm⟩
  | raised _ ih => exact ih
  | @ask later _ key ih =>
      show ((later.record key).ring).flag = false ∧ ((later.record key).ring).alarm = none
      have hring : (later.record key).ring = later.record key := by
        unfold ring
        rw [show (later.record key).alarm = none from ih.2]
      rw [hring]
      exact ih

/-- A store whose flag is down and whose alarm is not set keeps nothing back. -/
theorem full (hflag : store.flag = false) (halarm : store.alarm = none)
    (h : ∀ key, store.answer key = answers key) : Environment.Full answers store := by
  intro later hlater
  refine ⟨(lowered_of_later hflag halarm hlater).1, ?_⟩
  intro key
  show later.answer key = _
  rw [answer_of_later hlater]
  exact h key

end Store

end BuildConfig
