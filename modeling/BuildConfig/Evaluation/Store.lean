/-
The environment that is a table.

Values and failures are put under keys beforehand, and everything else is missing.  Every
request is written down in order, so one can see afterwards what was asked for, how often,
and what is still missing.  The flag is raised by hand, or by an alarm that goes off with
one of the coming requests.
-/
import BuildConfig.Evaluation.Environment

namespace BuildConfig

/-- What is known about a key. -/
structure Store.Entry where
  key : Key
  held : Except Failure key.Value

namespace Store.Entry

/-- What is known, as an answer. -/
def toAnswer {α : Type} : Except Failure α → Answer α
  | .ok value => .ready value
  | .error failure => .failed failure

/-- The answer of an entry to a request for a key, if it is about that key. -/
def answer? (entry : Entry) (key : Key) : Option (Answer key.Value) :=
  if h : entry.key.same key = true then
    some (toAnswer (Key.value_eq_of_same h ▸ entry.held))
  else none

end Store.Entry

/-- A table of entries, the requests made so far, and the flag. -/
structure Store where
  entries : List Store.Entry
  /-- The requests in the order in which they were made. -/
  requests : List Key
  flag : Bool
  /-- The number of requests after which the flag is raised. -/
  alarm : Option Nat

namespace Store

/-- The store with nothing in it. -/
def empty : Store :=
  ⟨[], [], false, none⟩

/-! ### Entries -/

/-- The store without what it has under a key. -/
def remove (store : Store) (key : Key) : Store :=
  { store with entries := store.entries.filter fun entry => !entry.key.same key }

/-- The store with an entry, in place of the one it had under the key. -/
def put (store : Store) (entry : Entry) : Store :=
  { store.remove entry.key with entries := entry :: (store.remove entry.key).entries }

/-- The store with a value under a key. -/
def insert (store : Store) (key : Key) (value : key.Value) : Store :=
  store.put ⟨key, .ok value⟩

/-- The store with a failure under a key. -/
def fail (store : Store) (key : Key) (failure : Failure) : Store :=
  store.put ⟨key, .error failure⟩

/-- Whether there is an entry under a key. -/
def contains (store : Store) (key : Key) : Bool :=
  store.entries.any fun entry => entry.key.same key

/-- What the store has under a key. -/
def answer (store : Store) (key : Key) : Answer key.Value :=
  (store.entries.findSome? fun entry => entry.answer? key).getD .missing

/-! ### The flag -/

/-- Raises the flag. -/
def interrupt (store : Store) : Store :=
  { store with flag := true }

/-- Lowers the flag; an alarm stays set. -/
def lower (store : Store) : Store :=
  { store with flag := false }

/-- Sets the alarm to the n-th request from now on, the next one being the first. -/
def setAlarm (store : Store) (n : Nat) : Store :=
  { store with alarm := some n }

/-- The alarm after one more request: none left to go means that it goes off. -/
def ring (store : Store) : Store :=
  match store.alarm with
  | none => store
  | some n =>
    if n ≤ 1 then { store with flag := true, alarm := none }
    else { store with alarm := some (n - 1) }

/-! ### Requests -/

/-- Writes a request down. -/
def record (store : Store) (key : Key) : Store :=
  { store with requests := store.requests ++ [key] }

/-- Forgets the requests made so far. -/
def clearRequests (store : Store) : Store :=
  { store with requests := [] }

/-- The number of requests for a key. -/
def lookups (store : Store) (key : Key) : Nat :=
  store.requests.countP fun requested => requested.same key

/-- The keys with one more at the end, unless it is among them. -/
def addNew (keys : List Key) (key : Key) : List Key :=
  if keys.any (·.same key) then keys else keys ++ [key]

/-- The requested keys without an entry, once each, in the order of their first request. -/
def pending (store : Store) : List Key :=
  (store.requests.filter fun key => !store.contains key).foldl addNew []

instance : Environment Store where
  raised store := (store.flag, store)
  ask key store := (store.answer key, (store.record key).ring)

end Store

end BuildConfig
