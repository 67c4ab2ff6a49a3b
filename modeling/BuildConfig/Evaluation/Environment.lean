/-
Environments, from which evaluations get what they depend on.

An environment never waits.  Asked for a key, it says that the value is there, that it
failed, or that it is missing, and it may remember the question.  It can also be told to
give up, and then shows that by a raised flag.  Nothing is assumed about how the answers
to different questions hang together: an environment is any type with these two
questions, each of which may change it.
-/
import BuildConfig.Evaluation.Failure
import BuildConfig.Evaluation.Key

namespace BuildConfig

/-- What an environment says about a key. -/
inductive Answer (α : Type)
  | ready (value : α)
  | failed (failure : Failure)
  | missing

/-- A type of environments. -/
class Environment (σ : Type) where
  /-- Whether the evaluation is being abandoned. -/
  raised : σ → Bool × σ
  /-- What there is under a key. -/
  ask : (key : Key) → σ → Answer key.Value × σ

/-- What a request for a value comes to. -/
inductive Reply (ε α : Type)
  /-- The value is there. -/
  | value (a : α)
  /-- The value is not there, or failed with an error that was not declared. -/
  | missing
  /-- The value failed with a declared error. -/
  | refused (e : ε)
  /-- Nothing was asked, because the evaluation is being abandoned. -/
  | interrupted

namespace Answer

/-- What an answer means to someone who declared errors of one kind. -/
def reply {α : Type} (ε : Type) [Declared ε] : Answer α → Reply ε α
  | ready value => .value value
  | failed failure =>
    match Declared.ofCause? failure.cause with
    | some e => .refused e
    | none => .missing
  | missing => .missing

end Answer

/-- Asks for the value of a key, unless the evaluation is being abandoned. -/
def Environment.request {σ : Type} [Environment σ] (ε : Type) [Declared ε] (key : Key) (world : σ) :
    Reply ε key.Value × σ :=
  match raised world with
  | (true, world) => (.interrupted, world)
  | (false, world) =>
    match ask key world with
    | (answer, world) => (answer.reply ε, world)

end BuildConfig
