/-
Requests for baselines.

A baseline is the configuration that a build starts from.  A request says which options to
start with, whether to move them through the transition onto an execution platform, and
which platform to put them on.  Equal requests are the same request.
-/
import BuildConfig.Bundle.Basic

namespace BuildConfig.Baseline

/-- Where the options of a baseline come from. -/
inductive Source
  /-- The options of the build. -/
  | precomputed
  /-- Options that come with the request. -/
  | inline (bundle : Bundle)
  deriving DecidableEq

/-- What is asked for. -/
structure Request where
  source : Source
  /-- Whether the baseline goes through the transition onto an execution platform. -/
  exec : Bool
  /-- The platform that the baseline is put on. -/
  platform : Option Label
  deriving DecidableEq

end BuildConfig.Baseline
