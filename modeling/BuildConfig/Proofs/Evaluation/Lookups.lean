/-
What machines look up.

`Recorded` is an environment together with the lookups that were made in it, in order
and with their answers.  `Machine.lookups` are those of any number of runs, one list a
run.  The runs are the ones that `Machine.runs` speaks of: an environment with its
record says the same as without it, so a machine that is uniform does the same in both.

`Asked` are the lookups of someone who needs one key and asks for it again until there
is an answer of use.
-/
import BuildConfig.Proofs.Evaluation.Answers
import BuildConfig.Proofs.Evaluation.Views

namespace BuildConfig

open Environment (View)

/-- A question to an environment, and the answer. -/
structure Lookup where
  key : Key
  answer : Answer key.Value

/-- The answer is a value. -/
def Lookup.HasValue (lookup : Lookup) : Prop :=
  ∃ value, lookup.answer = .ready value

/-- The answer tells nothing: it is neither a value nor an error of the declared kind. -/
def Lookup.Useless (ε : Type) [Declared ε] (lookup : Lookup) : Prop :=
  lookup.answer.known ε = none

theorem Lookup.Useless.not_hasValue {ε : Type} [Declared ε] {lookup : Lookup}
    (h : lookup.Useless ε) : ¬ lookup.HasValue := by
  rintro ⟨value, hvalue⟩
  unfold Useless at h
  rw [hvalue] at h
  cases h

/-- An environment, and the lookups that were made in it. -/
structure Recorded (σ : Type) where
  world : σ
  lookups : List Lookup

namespace Recorded

variable {σ : Type}

/-- An environment in which nothing has been looked up. -/
def start (world : σ) : Recorded σ :=
  ⟨world, []⟩

variable [Environment σ]

instance : Environment (Recorded σ) where
  raised recorded :=
    ((Environment.raised recorded.world).1,
      ⟨(Environment.raised recorded.world).2, recorded.lookups⟩)
  ask key recorded :=
    ((Environment.ask key recorded.world).1,
      ⟨(Environment.ask key recorded.world).2,
        recorded.lookups ++ [⟨key, (Environment.ask key recorded.world).1⟩]⟩)

theorem view_world : View (world : Recorded σ → σ) :=
  ⟨fun _ => rfl, fun _ _ => rfl⟩

end Recorded

namespace Machine

variable {μ : Type} [Machine μ] [Ends μ]

/-- What a machine looks up when it is run in one world after the other, run by run. -/
def lookups (machine : μ) : List World → List (List Lookup)
  | [] => []
  | world :: worlds =>
    (run machine (Recorded.start world.state)).world.lookups ::
      lookups (run machine world.state).machine worlds

variable [Uniform μ] {σ : Type} [Environment σ]

/-- Writing the lookups down does not change a run. -/
theorem run_recorded (machine : μ) (recorded : Recorded σ) :
    run machine recorded.world =
      ⟨(run machine recorded).ending, (run machine recorded).machine,
        (run machine recorded).world.world⟩ :=
  run_view Recorded.view_world machine recorded

end Machine

/-! ### Asking again -/

/--
Lookups for one key by someone who declared errors of one kind, of which only the last
one can have told anything; what is due is what it told.
-/
inductive Asked (ε : Type) [Declared ε] (key : Key) : List Lookup → Due ε key.Value → Prop
  | nothing : Asked ε key [] none
  | again {block : List Lookup} (h : Asked ε key block none) (answer : Answer key.Value) :
      Asked ε key (block ++ [⟨key, answer⟩]) (answer.known ε)

namespace Asked

variable {ε : Type} [Declared ε] {key : Key} {block : List Lookup} {due : Due ε key.Value}
  {value : key.Value}

theorem key_eq (h : Asked ε key block due) {lookup : Lookup} (hmem : lookup ∈ block) :
    lookup.key = key := by
  induction h with
  | nothing => simp at hmem
  | again _ answer ih =>
      obtain hbefore | hlast := List.mem_append.mp hmem
      · exact ih hbefore
      · rw [List.mem_singleton.mp hlast]

theorem eq_append (h : Asked ε key block (some (.ok value))) :
    ∃ before, Asked ε key before none ∧ block = before ++ [⟨key, .ready value⟩] := by
  generalize hdue : some (Except.ok value) = due at h
  cases h with
  | nothing => simp at hdue
  | again hbefore answer => exact ⟨_, hbefore, by rw [Answer.known_eq_ok_iff.mp hdue.symm]⟩

theorem mem_of_value (h : Asked ε key block (some (.ok value))) : ⟨key, .ready value⟩ ∈ block := by
  obtain ⟨before, -, rfl⟩ := h.eq_append
  exact List.mem_append_right _ (List.mem_singleton.mpr rfl)

theorem hasValue_last {lookup : Lookup} (h : Asked ε key (block ++ [lookup]) (some (.ok value))) :
    lookup.HasValue := by
  obtain ⟨before, -, hblock⟩ := h.eq_append
  have hlast : [lookup] = [⟨key, .ready value⟩] := (List.append_inj' hblock rfl).2
  cases hlast
  exact ⟨value, rfl⟩

theorem useless (h : Asked ε key block none) {lookup : Lookup} (hmem : lookup ∈ block) :
    lookup.Useless ε := by
  generalize hdue : (none : Due ε key.Value) = due at h
  induction h with
  | nothing => simp at hmem
  | again _ answer ih =>
      obtain hbefore | hlast := List.mem_append.mp hmem
      · exact ih hbefore rfl
      · rw [List.mem_singleton.mp hlast]
        exact hdue.symm

/-- No lookup but the last one told anything. -/
theorem useless_dropLast (h : Asked ε key block due) {lookup : Lookup}
    (hmem : lookup ∈ block.dropLast) : lookup.Useless ε := by
  cases h with
  | nothing => simp at hmem
  | again hbefore answer =>
      rw [List.dropLast_concat] at hmem
      exact hbefore.useless hmem

theorem value_unique (h : Asked ε key block (some (.ok value))) {other : key.Value}
    (hmem : ⟨key, .ready other⟩ ∈ block) : other = value := by
  obtain ⟨before, hbefore, rfl⟩ := h.eq_append
  obtain hbefore' | hlast := List.mem_append.mp hmem
  · exact absurd ⟨other, rfl⟩ (hbefore.useless hbefore').not_hasValue
  · simpa using hlast

end Asked

/-- What a request can come to, and what is looked up, when nothing was told so far. -/
inductive Requested {σ : Type} (ε : Type) [Declared ε] (key : Key) (block before : List Lookup) :
    Reply ε key.Value × Recorded σ → Prop
  | interrupted (later : σ) : Requested ε key block before (.interrupted, ⟨later, before⟩)
  | value {later : σ} {value : key.Value}
      (h : Asked ε key (block ++ [⟨key, .ready value⟩]) (some (.ok value))) :
      Requested ε key block before (.value value, ⟨later, before ++ [⟨key, .ready value⟩]⟩)
  | refused {later : σ} {answer : Answer key.Value} {e : ε}
      (h : Asked ε key (block ++ [⟨key, answer⟩]) (some (.error e))) :
      Requested ε key block before (.refused e, ⟨later, before ++ [⟨key, answer⟩]⟩)
  | missing {later : σ} {answer : Answer key.Value}
      (h : Asked ε key (block ++ [⟨key, answer⟩]) none) :
      Requested ε key block before (.missing, ⟨later, before ++ [⟨key, answer⟩]⟩)

namespace Asked

variable {σ ε : Type} [Declared ε] {key : Key} {block before : List Lookup}

theorem requested (h : Asked ε key block none) (answer : Answer key.Value) (later : σ) :
    Requested ε key block before (answer.reply ε, ⟨later, before ++ [⟨key, answer⟩]⟩) := by
  have hagain := h.again answer
  cases answer with
  | ready value => exact .value hagain
  | missing => exact .missing hagain
  | failed failure =>
      dsimp only [Answer.known] at hagain
      dsimp only [Answer.reply]
      cases hcause : (Declared.ofCause? failure.cause : Option ε) with
      | none =>
          rw [hcause] at hagain
          exact .missing hagain
      | some e =>
          rw [hcause] at hagain
          exact .refused hagain

/-- **A request makes one lookup and comes to what the answer means, or it is interrupted.** -/
theorem request [Environment σ] (h : Asked ε key block none) (recorded : Recorded σ) :
    Requested ε key block recorded.lookups (Environment.request ε key recorded) := by
  cases hraised : (Environment.raised recorded).1 with
  | true =>
      rw [Environment.request_of_raised hraised]
      exact .interrupted _
  | false =>
      rw [Environment.request_of_lowered hraised]
      exact h.requested _ _

end Asked

/-! ### Stores -/

namespace Store

variable {μ : Type} [Machine μ] [Machine.Ends μ] [Machine.Uniform μ]

/-- What is looked up in a store is answered from its entries. -/
theorem answer_of_run {store : Store} {machine : μ} {lookup : Lookup}
    (h : lookup ∈ (Machine.run machine (Recorded.start store)).world.lookups) :
    lookup.answer = store.answer lookup.key := by
  refine (Machine.run_world (fun recorded : Recorded Store =>
    recorded.world.entries = store.entries ∧
      ∀ lookup ∈ recorded.lookups, lookup.answer = store.answer lookup.key)
    ?_ ?_ machine ⟨rfl, fun _ hnone => absurd hnone List.not_mem_nil⟩).2 lookup h
  · intro recorded hkept
    exact hkept
  · rintro key recorded ⟨hentries, hlookups⟩
    refine ⟨(entries_record_ring _ key).trans hentries, ?_⟩
    intro other hother
    obtain hbefore | hlast := List.mem_append.mp hother
    · exact hlookups other hbefore
    · rw [List.mem_singleton.mp hlast]
      exact answer_congr hentries key

end Store

end BuildConfig
