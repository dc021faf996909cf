import Gantry.Document.Datum
import Gantry.Formula.Operation

/-!
How training is set up. Settings are what a user gives; options are settings
that have been found sound. A learning rate is constant or a schedule over the
epochs, and is checked again in every epoch.
-/

namespace Gantry.Training

inductive Rate where
  | constant (rate : Datum)
  /-- An initial rate that shrinks by a factor in every epoch. -/
  | decay (rate factor : Number)
  /-- One rate for each epoch. -/
  | table (rates : List Datum)
  deriving Inhabited

/-- When weights change: after each example, or once an epoch by the mean. -/
inductive Update where
  | example | epoch
  deriving DecidableEq, Inhabited

inductive OptionFailure where
  | maxEpochs
  | tolerance
  | rate
  | decay
  | update (given : Datum)
  /-- The rate of an epoch is no positive number. -/
  | epochRate (epoch : Int) (given : Datum)
  | fault (f : Fault)
  deriving Inhabited

def Update.name : Update → String
  | .example => "example"
  | .epoch => "epoch"

def Update.ofName? : String → Option Update
  | "example" => some .example
  | "epoch" => some .epoch
  | _ => none

def OptionFailure.asFault : OptionFailure → Fault
  | .maxEpochs => .input "max_epochs must be a positive integer"
  | .tolerance => .input "tolerance must be non-negative"
  | .rate => .input "learning_rate must be positive or a schedule"
  | .decay => .input "exponential_decay needs rate > 0 and 0 < decay <= 1"
  | .update given => .input ("update must be one of ('example', 'epoch'), got " ++ given.literal)
  | .epochRate epoch given =>
    .input ("learning rate for epoch " ++ toString epoch ++ " must be positive, got " ++ given.shown)
  | .fault f => f

structure Settings where
  maxEpochs : Datum
  tolerance : Datum
  rate : Rate
  update : Datum
  deriving Inhabited

/-- A hundred epochs, a tolerance of `1e-7`, a rate of `0.1`, and an update
after each example. -/
def Settings.standard : Settings where
  maxEpochs := .ofNat 100
  tolerance := .ofReal (Binary64.ofDecimal false 1 (-7))
  rate := .constant (.ofReal (Binary64.ofDecimal false 1 (-1)))
  update := .text "example"

structure Options where
  maxEpochs : Nat
  tolerance : Number
  rate : Rate
  update : Update
  deriving Inhabited

/-- A number in a setting. -/
def numberOf (d : Datum) : Except OptionFailure Number := d.toNumber.mapError .fault

def Settings.checkMaxEpochs (s : Settings) : Except OptionFailure Nat :=
  match s.maxEpochs with
  | .number (.int n) => if 1 ≤ n then .ok n.toNat else .error .maxEpochs
  | .flag true => .ok 1
  | _ => .error .maxEpochs

def Settings.checkTolerance (s : Settings) : Except OptionFailure Number := do
  let tolerance ← numberOf s.tolerance
  if (Number.int 0).le tolerance then return tolerance else throw .tolerance

def Settings.checkRate (s : Settings) : Except OptionFailure Rate :=
  match s.rate with
  | .constant d => do
    let rate ← numberOf d
    if (Number.int 0).lt rate then return s.rate else throw .rate
  | schedule => .ok schedule

def Settings.checkUpdate (s : Settings) : Except OptionFailure Update :=
  match s.update with
  | .text name =>
    match Update.ofName? name with
    | some u => .ok u
    | none => .error (.update s.update)
  | d => .error (.update d)

def Settings.check (s : Settings) : Except OptionFailure Options := do
  let maxEpochs ← s.checkMaxEpochs
  let tolerance ← s.checkTolerance
  let rate ← s.checkRate
  let update ← s.checkUpdate
  return ⟨maxEpochs, tolerance, rate, update⟩

/-- A schedule that shrinks the rate by a factor no greater than one. -/
def Rate.shrinking (rate factor : Datum) : Except OptionFailure Rate := do
  let rate ← numberOf rate
  if rate.le (.int 0) then throw .decay
  let factor ← numberOf factor
  if (Number.int 0).lt factor && factor.le (.int 1) then return .decay rate factor else throw .decay

/-- A power of a factor between zero and one. A power of the whole number one
stays whole; the others are doubles, which must not run out of range. -/
def factorPower (factor exponent : Number) : Except Fault Number :=
  match factor, exponent with
  | .int b, .int e => .ok (if 0 ≤ e then .int (Int.pow b e.toNat) else .real Binary64.one)
  | _, _ =>
    match factor.toBinary64?, exponent.toBinary64? with
    | some b, some e =>
      let p := b.pow e
      if p.isInfinite && e.isFinite then .error .overflow else .ok (.real p)
    | _, _ => .error .overflow

/-- The rate that a shrinking schedule gives for an epoch. -/
def decayed (rate factor epoch : Number) : Except Fault Number := do
  let p ← factorPower factor epoch
  match rate.mul p with
  | some r => return r
  | none => throw .overflow

/-- An entry of a table; negative places count from the end. -/
def entry? (rates : List Datum) (i : Int) : Option Datum :=
  if 0 ≤ i then rates[i.toNat]?
  else if -i ≤ rates.length then rates[rates.length - (-i).toNat]?
  else none

/-- What a rate says about an epoch. -/
def Rate.at (r : Rate) (epoch : Int) : Except Fault Datum :=
  match r with
  | .constant d => .ok d
  | .decay rate factor => (decayed rate factor (.int epoch)).map .number
  | .table rates =>
    match entry? rates epoch with
    | some d => .ok d
    | none => .error .index

/-- A number as machine arithmetic sees it. -/
def wordReal (d : Datum) : Except Fault Binary64 := do
  match (← d.toNumber) with
  | .real x => return x
  | .int n =>
    match Whole.toReal? n with
    | some x => return x
    | none => throw (.type none)

/-- The learning rate of an epoch. -/
def Options.rateAt (o : Options) (epoch : Int) : Except OptionFailure Binary64 :=
  match o.rate.at epoch with
  | .error f => .error (.fault f)
  | .ok d =>
    match wordReal d with
    | .error f => .error (.fault f)
    | .ok x =>
      if x.isFinite && Binary64.zero.lt x then .ok x else .error (.epochRate epoch d)

@[simp] theorem Update.ofName?_name (u : Update) : Update.ofName? u.name = some u := by
  cases u <;> rfl

end Gantry.Training
