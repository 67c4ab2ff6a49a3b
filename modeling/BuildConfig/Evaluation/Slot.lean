/-
Sinks, to which machines deliver, and slots, which keep one outcome.

A slot holds the first error that was written to it, or else the first value.  So an
error replaces a value, and nothing replaces an error.  Taking the outcome empties the
slot.
-/

namespace BuildConfig

/-- A type of places to which things of another type are delivered. -/
class Sink (ς : Type) (δ : outParam Type) where
  /-- The sink after a delivery. -/
  accept : ς → δ → ς

/-- A list keeps everything that was delivered, in order. -/
instance {δ : Type} : Sink (List δ) δ :=
  ⟨fun delivered x => delivered ++ [x]⟩

/-- A place for one outcome. -/
structure Slot (ε α : Type) where
  outcome : Option (Except ε α)

namespace Slot

variable {ε α : Type}

/-- The slot to which nothing was written. -/
def empty : Slot ε α :=
  ⟨none⟩

/-- A value is kept when there is no outcome yet. -/
def setValue (slot : Slot ε α) (value : α) : Slot ε α :=
  match slot.outcome with
  | none => ⟨some (.ok value)⟩
  | some _ => slot

/-- An error is kept when there is no error yet. -/
def setError (slot : Slot ε α) (error : ε) : Slot ε α :=
  match slot.outcome with
  | none => ⟨some (.error error)⟩
  | some (.ok _) => ⟨some (.error error)⟩
  | some (.error _) => slot

/-- Whether there is an outcome. -/
def isSet (slot : Slot ε α) : Bool :=
  slot.outcome.isSome

/-- The outcome, and the slot without it. -/
def take (slot : Slot ε α) : Option (Except ε α) × Slot ε α :=
  (slot.outcome, empty)

/-- Outcomes are delivered to a slot as what they are. -/
instance : Sink (Slot ε α) (Except ε α) where
  accept slot
    | .ok value => slot.setValue value
    | .error error => slot.setError error

end Slot

end BuildConfig
