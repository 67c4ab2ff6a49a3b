/-
What a store tells, whatever was done with it.

Entries are put into a store and taken out, keys are looked up, and what was looked up is
forgotten, all in any order and under any of the names that a key has.  Entries and
requests have nothing to do with each other until someone asks what is still missing, so
each is followed on its own.  The last use that was about a key says what there is under
it; the requests are the keys that were looked up since they were last forgotten.

Every use has one lemma for the entries (`answer_after`) and one for the requests
(`requests_after`), and histories follow from these by induction.
-/
import BuildConfig.Proofs.Distinct
import BuildConfig.Proofs.Evaluation.Entries
import BuildConfig.Proofs.Evaluation.Requests
import Mathlib.Data.List.Induction

namespace BuildConfig

/-- Keys are the same when they are equal, or name rules by paths with the same parts. -/
theorem Key.same_iff_eq_or {a b : Key} :
    a.same b = true ↔
      a = b ∨ ∃ l m : Mapping.Location, a = .rules l ∧ b = .rules m ∧ l.place = m.place := by
  rw [same_iff]
  constructor
  · intro h
    cases a with
    | rules l =>
        cases b with
        | rules m => exact Or.inr ⟨l, m, rfl, rfl, Identity.rules.inj h⟩
        | _ => cases h
    | _ =>
        cases b <;> cases h
        exact Or.inl rfl
  · rintro (rfl | ⟨l, m, rfl, rfl, h⟩)
    · rfl
    · exact congrArg Identity.rules h

namespace Store

variable {store : Store}

/-- What can be done with a store. -/
inductive Use : Type 1
  | insert (key : Key) (value : key.Value)
  | fail (key : Key) (failure : Failure)
  | remove (key : Key)
  | lookup (key : Key)
  /-- A lookup by someone who declared errors of one kind, and stops at a raised flag. -/
  | request (ε : Type) [Declared ε] (key : Key)
  | clearRequests
  | interrupt
  | lower
  | setAlarm (n : Nat)

/-- The store after something is done with it. -/
def after (store : Store) : Use → Store
  | .insert key value => store.insert key value
  | .fail key failure => store.fail key failure
  | .remove key => store.remove key
  | .lookup key => (Environment.ask key store).2
  | @Use.request ε _ key => (Environment.request ε key store).2
  | .clearRequests => store.clearRequests
  | .interrupt => store.interrupt
  | .lower => store.lower
  | .setAlarm n => store.setAlarm n

/-- The store after all of this is done with it, one after the other. -/
def afterAll (store : Store) (uses : List Use) : Store :=
  uses.foldl after store

private theorem afterAll_append_singleton (store : Store) (uses : List Use) (use : Use) :
    store.afterAll (uses ++ [use]) = (store.afterAll uses).after use := by
  simp [afterAll]

/-! ### What there is under a key -/

/-- What a use puts under a key, or takes away from it; none when it is not about the key. -/
def Use.leaves? (key : Key) : Use → Option (Answer key.Value)
  | .insert other value =>
    if h : other.same key = true then some (.ready (cast (Key.value_eq_of_same h) value)) else none
  | .fail other failure => if other.same key then some (.failed failure) else none
  | .remove other => if other.same key then some .missing else none
  | _ => none

private theorem toAnswer_ok {α β : Type} (h : α = β) (value : α) :
    Entry.toAnswer (h ▸ (.ok value : Except Failure α)) = .ready (cast h value) := by
  cases h
  rfl

private theorem toAnswer_error {α β : Type} (h : α = β) (failure : Failure) :
    Entry.toAnswer (h ▸ (.error failure : Except Failure α)) = (.failed failure : Answer β) := by
  cases h
  rfl

/-- **A use changes what there is under the keys that it is about.** -/
private theorem answer_after (store : Store) (use : Use) (key : Key) :
    (store.after use).answer key = (use.leaves? key).getD (store.answer key) := by
  cases use with
  | insert other value =>
      refine (answer_put store _ key).trans (congrArg (Option.getD · _) ?_)
      simp only [Entry.answer?, Use.leaves?, toAnswer_ok]
  | fail other failure =>
      refine (answer_put store _ key).trans (congrArg (Option.getD · _) ?_)
      simp only [Entry.answer?, Use.leaves?, toAnswer_error]
      rfl
  | remove other =>
      cases hsame : other.same key with
      | true => simpa [after, Use.leaves?, hsame] using answer_remove_of_same store hsame
      | false => simpa [after, Use.leaves?, hsame] using answer_remove_of_not_same store hsame
  | lookup other => exact answer_congr (entries_record_ring store other) key
  | request ε other =>
      exact answer_of_later ((Environment.kept_later store).request other store .refl) key
  | clearRequests => rfl
  | interrupt => rfl
  | lower => rfl
  | setAlarm n => rfl

/-- **The last use that was about a key says what there is under it.** -/
theorem answer_afterAll (store : Store) (uses : List Use) (key : Key) :
    (store.afterAll uses).answer key =
      (uses.reverse.findSome? (·.leaves? key)).getD (store.answer key) := by
  induction uses using List.reverseRecOn with
  | nil => rfl
  | append_singleton uses use ih =>
      rw [afterAll_append_singleton, answer_after, ih, List.reverse_append, List.reverse_singleton,
        List.singleton_append, List.findSome?_cons]
      cases use.leaves? key with
      | some answer => rfl
      | none => rfl

/-! ### What was asked for -/

/-- The key that a use looks up; a request looks nothing up while the flag is raised. -/
def Use.key? (store : Store) : Use → Option Key
  | .lookup key => some key
  | @Use.request _ _ key => if store.flag then none else some key
  | _ => none

/-- The keys that are looked up while all of this is done, one after the other. -/
def lookedUp (store : Store) : List Use → List Key
  | [] => []
  | use :: uses => (use.key? store).toList ++ lookedUp (store.after use) uses

private theorem requests_record_ring (store : Store) (key : Key) :
    (store.record key).ring.requests = store.requests ++ [key] := by
  unfold ring
  split
  · rfl
  · split <;> rfl

theorem request_eq (ε : Type) [Declared ε] (key : Key) (store : Store) :
    Environment.request ε key store =
      if store.flag then (.interrupted, store)
      else ((Environment.ask key store).1.reply ε, (Environment.ask key store).2) := by
  cases hflag : store.flag with
  | true => exact Environment.request_of_raised hflag
  | false => exact Environment.request_of_lowered hflag

/-- **A use writes down the key that it looks up**, unless it is there to forget them all. -/
private theorem requests_after (store : Store) {use : Use} (h : use ≠ .clearRequests) :
    (store.after use).requests = store.requests ++ (use.key? store).toList := by
  cases use with
  | clearRequests => exact absurd rfl h
  | lookup key => exact requests_record_ring store key
  | request ε key =>
      simp only [after, Use.key?, request_eq]
      split
      · exact (List.append_nil _).symm
      · exact requests_record_ring store key
  | insert key value => exact (List.append_nil _).symm
  | fail key failure => exact (List.append_nil _).symm
  | remove key => exact (List.append_nil _).symm
  | interrupt => exact (List.append_nil _).symm
  | lower => exact (List.append_nil _).symm
  | setAlarm n => exact (List.append_nil _).symm

theorem requests_afterAll {uses : List Use} (h : Use.clearRequests ∉ uses) :
    (store.afterAll uses).requests = store.requests ++ lookedUp store uses := by
  induction uses generalizing store with
  | nil => simp [afterAll, lookedUp]
  | cons use rest ih =>
      obtain ⟨huse, hrest⟩ := not_or.mp (List.mem_cons.not.mp h)
      show ((store.after use).afterAll rest).requests = _
      rw [ih hrest, requests_after store (Ne.symm huse), lookedUp, List.append_assoc]

/-- Every history is split where the requests were last forgotten, if they were at all. -/
theorem exists_eq_recent (uses : List Use) : ∃ earlier recent, uses = earlier ++ recent ∧
    (earlier = [] ∨ ∃ before, earlier = before ++ [.clearRequests]) ∧
      Use.clearRequests ∉ recent := by
  induction uses using List.reverseRecOn with
  | nil => exact ⟨[], [], rfl, Or.inl rfl, List.not_mem_nil⟩
  | append_singleton uses use ih =>
      by_cases hclear : use = .clearRequests
      · subst hclear
        exact ⟨uses ++ [.clearRequests], [], (List.append_nil _).symm, Or.inr ⟨uses, rfl⟩,
          List.not_mem_nil⟩
      · obtain ⟨earlier, recent, rfl, hearlier, hrecent⟩ := ih
        refine ⟨earlier, recent ++ [use], List.append_assoc _ _ _, hearlier, ?_⟩
        simpa [hrecent] using Ne.symm hclear

/-- What is pending is what was asked for and is missing now, each key at its first request. -/
theorem pending_eq (store : Store) :
    store.pending =
      (store.requests.filter fun key => (store.answer key).isMissing).eraseDupsBy Key.same := by
  have hmissing : (fun key => !store.contains key) = fun key => (store.answer key).isMissing := by
    funext key
    rw [contains_eq, Bool.not_not]
  rw [pending, hmissing]
  exact foldl_add_new Key.same_comm _ []

/-! ### Histories -/

/-- What a store tells of its history. -/
structure Recalls (uses : List Use) (store : Store) : Prop where
  /-- A lookup is answered by the last use that put something under the key or took it away. -/
  answer : ∀ key, (Environment.ask key store).1 =
    (uses.reverse.findSome? (·.leaves? key)).getD .missing
  /-- The requests are the keys that were looked up since they were last forgotten. -/
  requests : ∃ earlier recent, uses = earlier ++ recent ∧
    (earlier = [] ∨ ∃ before, earlier = before ++ [.clearRequests]) ∧
    Use.clearRequests ∉ recent ∧ store.requests = lookedUp (empty.afterAll earlier) recent
  /-- A key was looked up as often as it stands there, under whatever name. -/
  lookups : ∀ key, store.lookups key = (store.requests.filter (·.same key)).length
  /-- What is pending stands there and is missing now; the first of all names is kept. -/
  pending : store.pending =
    (store.requests.filter fun key => (Environment.ask key store).1.isMissing).eraseDupsBy Key.same
  /-- A request is a lookup, and at a raised flag it changes nothing. -/
  request : ∀ (ε : Type) [Declared ε] (key : Key), Environment.request ε key store =
    if store.flag then (.interrupted, store)
    else ((Environment.ask key store).1.reply ε, (Environment.ask key store).2)

/-- **After any history a store tells what came of it**, and it takes keys for the same only
when they are equal or name rules by paths with the same parts. -/
theorem recalls_history :
    (∀ a b : Key, a.same b = true ↔
      a = b ∨ ∃ l m : Mapping.Location, a = .rules l ∧ b = .rules m ∧ l.place = m.place) ∧
    ∀ uses : List Use, Recalls uses (empty.afterAll uses) := by
  refine ⟨fun a b => Key.same_iff_eq_or, fun uses => ⟨?_, ?_, ?_, ?_, ?_⟩⟩
  · exact answer_afterAll empty uses
  · obtain ⟨earlier, recent, rfl, hearlier, hrecent⟩ := exists_eq_recent uses
    refine ⟨earlier, recent, rfl, hearlier, hrecent, ?_⟩
    have hnone : (empty.afterAll earlier).requests = [] := by
      obtain rfl | ⟨before, rfl⟩ := hearlier
      · rfl
      · rw [afterAll_append_singleton]
        rfl
    rw [afterAll, List.foldl_append]
    show ((empty.afterAll earlier).afterAll recent).requests = _
    rw [requests_afterAll hrecent, hnone, List.nil_append]
  · intro key
    exact List.countP_eq_length_filter
  · exact pending_eq _
  · intro ε declared key
    exact request_eq ε key _

/-- One place under two names: what is put in under one is taken out under the other. -/
example :
    let first : Key := .rules ⟨some "tools/map"⟩
    let second : Key := .rules ⟨some "tools//map"⟩
    let store := empty.afterAll [.fail second ⟨.other "broken", []⟩, .lookup first, .remove first,
      .lookup second, .interrupt, .request Empty second]
    store.pending = [first] ∧ store.lookups second = 2 := by
  decide

end Store

end BuildConfig
