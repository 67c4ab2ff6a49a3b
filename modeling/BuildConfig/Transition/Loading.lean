/-
Loading the custom transition that a bundle names.

The option for it holds a reference, written as the label of a book, a percent sign, and
the name of a transition in that book.  An empty option means that there is no custom
transition.
-/
import BuildConfig.Evaluation.Environment

namespace BuildConfig.Transition

/-- A transition in a book. -/
structure Reference where
  book : Label
  name : String
  deriving DecidableEq

namespace Reference

/-- The reference that a text stands for. -/
def read (text : String) : Except LoadError Reference :=
  match Text.cut? '%' text.toList with
  | none => .error (.notAReference text)
  | some (book, name) =>
    if book.isEmpty || name.isEmpty then .error (.notAReference text)
    else
      match Label.read (String.ofList book) with
      | .error cause => .error (.badBook cause)
      | .ok label => .ok ⟨label, String.ofList name⟩

/-- The reference in a bundle, if there is one. -/
def ofBundle (bundle : Bundle) : Except LoadError (Option Reference) :=
  let text := bundle.stringAt .execTransition
  if text.isEmpty then .ok none else (read text).map some

end Reference

/-- What a reference comes to once its book is there. -/
def ofBook (reference : Reference) (book : Book) : Reply LoadError (Option Custom) :=
  match book.find reference.name with
  | .error e => .refused e
  | .ok custom => .value (some custom)

/-- The custom transition that the bundle names, if it names one. -/
def load {σ : Type} [Environment σ] (bundle : Bundle) (world : σ) :
    Reply LoadError (Option Custom) × σ :=
  match Reference.ofBundle bundle with
  | .error e => (.refused e, world)
  | .ok none => (.value none, world)
  | .ok (some reference) =>
    match Environment.request LoadError (.book reference.book) world with
    | (.value book, world) => (ofBook reference book, world)
    | (.missing, world) => (.missing, world)
    | (.refused e, world) => (.refused e, world)
    | (.interrupted, world) => (.interrupted, world)

end BuildConfig.Transition
