import Gantry.Number

/-!
Faults as they are reported: a category, a message where there is one, and
what a caller needs to act on it. Each part of the library has failures of its
own, which say what happened, and turns them into faults in one place.
-/

namespace Gantry

inductive Fault where
  /-- Formula text cannot be read; the position is missing for an empty one. -/
  | parse (message formula : String) (position : Option Nat)
  | unbound (message : String) (names : List String)
  | shape (message : String)
  | input (message : String)
  | diverged (message : String) (epoch : Nat) (sample : Option Nat)
      (weights : List (String × Binary64))
  | value (message : Option String)
  | type (message : Option String)
  | key (message : Option String)
  | index
  | attribute
  | overflow
  | undefinedName
  | tooDeep
  /-- Generated text cannot be read. -/
  | unreadable
  /-- Stopped by an observer. -/
  | interrupted
  | unsupported
  deriving DecidableEq, Inhabited

end Gantry
