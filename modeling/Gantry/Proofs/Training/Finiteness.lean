import Gantry.Proofs.Number.Quotient
import Gantry.Proofs.Training.Atomicity
import Gantry.Proofs.Training.Stopping

/-!
Which losses are finite. Training looks at the loss of every example before it
adds it up, but not at the sum. So a mean that is not finite ends training just
if a loss was not finite itself, and losses of the range whose sum is beyond it
are reported as an infinite mean.
-/

namespace Gantry.Training

/-! ### The losses of an epoch -/

section Losses

variable {α : Type} [Scalar α] {gauge : Gauge α} {each : Bool} {examples : List (Example α)}
  {epoch i : Nat} {rate loss : α} {start after losses : List α} {s s' : Sweep α} {h : Halt α}

/-- The losses of the examples of an epoch, whether they are within range or
not. Each is that of the weights which the examples before have led to. -/
def epochLosses (gauge : Gauge α) (each : Bool) (rate : α) :
    List α → List (Example α) → Except Fault (List α)
  | _, [] => .ok []
  | weights, e :: es => do
    let (loss, gradient) ← gauge weights e
    let losses ←
      epochLosses gauge each rate (if each then step rate weights gradient else weights) es
    return loss :: losses

/-- Losses added up in order. -/
def sumOf (losses : List α) : α := losses.foldl (· + ·) Scalar.zero

def meanOf (losses : List α) : α := sumOf losses / Scalar.ofNat losses.length

/-- Losses that are within range on their own, but not together. -/
def Overflows (losses : List α) : Prop :=
  (∀ loss ∈ losses, Scalar.isFinite loss = true) ∧ Scalar.isFinite (sumOf losses) = false

theorem epochLosses_cons {weights : List α} {e : Example α} {es : List (Example α)} :
    epochLosses gauge each rate weights (e :: es) = .ok losses ↔
      ∃ loss gradient rest, gauge weights e = .ok (loss, gradient) ∧
        epochLosses gauge each rate (if each then step rate weights gradient else weights) es =
          .ok rest ∧ losses = loss :: rest := by
  rw [epochLosses]
  cases gauge weights e with
  | error f => simp [bind, Except.bind]
  | ok measured =>
      obtain ⟨loss, gradient⟩ := measured
      cases hrest : epochLosses gauge each rate
          (if each then step rate weights gradient else weights) es with
      | error f => simp [bind, Except.bind, hrest]
      | ok rest => simp [bind, Except.bind, pure, Except.pure, hrest, eq_comm]

/-- Where an example leaves the weights. -/
theorem Sweep.weights_of_take {e : Example α} {gradient : List α}
    (hs : s.take gauge each epoch rate start i e = .ok s')
    (hgauge : gauge s.weights e = .ok (loss, gradient)) :
    Scalar.isFinite loss = true ∧ s'.total = s.total + loss ∧
      s'.weights = if each then step rate s.weights gradient else s.weights := by
  obtain ⟨loss', gradient', hgauge', hfinite, htotal, htrue, hfalse⟩ := take_eq_ok hs
  cases hgauge.symm.trans hgauge'
  refine ⟨hfinite, htotal, ?_⟩
  cases each with
  | true => exact (htrue rfl).1
  | false => exact (hfalse rfl).1

/-- Examples that go through have finite losses, and these are what is added up. -/
theorem Sweep.epochLosses_of_takeAll
    (hall : s.takeAll gauge each epoch rate start i examples = .ok s') :
    ∃ losses, epochLosses gauge each rate s.weights examples = .ok losses ∧
      losses.length = examples.length ∧ (∀ loss ∈ losses, Scalar.isFinite loss = true) ∧
      s'.total = losses.foldl (· + ·) s.total := by
  induction examples generalizing i s with
  | nil =>
      cases hall
      exact ⟨[], rfl, rfl, nofun, rfl⟩
  | cons e examples ih =>
      rw [takeAll] at hall
      cases htake : s.take gauge each epoch rate start i e with
      | error h => simp [htake] at hall
      | ok s₁ =>
          rw [htake] at hall
          obtain ⟨loss, gradient, hgauge, -⟩ := take_eq_ok htake
          obtain ⟨hfinite, htotal, hweights⟩ := weights_of_take htake hgauge
          obtain ⟨losses, hlosses, hlength, hall', hsum⟩ := ih hall
          rw [hweights] at hlosses
          refine ⟨loss :: losses, epochLosses_cons.2 ⟨loss, gradient, losses, hgauge, hlosses, rfl⟩,
            congrArg (· + 1) hlength, List.forall_mem_cons.2 ⟨hfinite, hall'⟩, ?_⟩
          rw [hsum, htotal, List.foldl_cons]

/-- An epoch whose examples all have a loss, finite or not, only halts by
diverging, with the weights it started from. -/
theorem Sweep.diverged_of_takeAll
    (hlosses : epochLosses gauge each rate s.weights examples = .ok losses)
    (hhalt : s.takeAll gauge each epoch rate start i examples = .error h) :
    ∃ what sample, h = ⟨.diverged what epoch sample start, start⟩ := by
  induction examples generalizing i s losses with
  | nil => cases hhalt
  | cons e examples ih =>
      obtain ⟨loss, gradient, rest, hgauge, hrest, rfl⟩ := epochLosses_cons.1 hlosses
      rw [takeAll] at hhalt
      cases htake : s.take gauge each epoch rate start i e with
      | error h' =>
          rw [htake] at hhalt
          cases hhalt
          cases take_eq_error_iff.1 htake with
          | fault hfault => cases hfault.symm.trans hgauge
          | measure => exact ⟨_, _, rfl⟩
          | update => exact ⟨_, _, rfl⟩
      | ok s₁ =>
          rw [htake] at hhalt
          exact ih ((weights_of_take htake hgauge).2.2 ▸ hrest) hhalt

/-- An epoch that runs to its end reports the mean of finite losses. -/
theorem epochLosses_of_runEpoch
    (hrun : runEpoch gauge each examples epoch rate start = .ok (after, loss)) :
    ∃ losses, epochLosses gauge each rate start examples = .ok losses ∧
      losses.length = examples.length ∧ (∀ loss ∈ losses, Scalar.isFinite loss = true) ∧
      loss = meanOf losses := by
  obtain ⟨s, hall, rfl, -⟩ := runEpoch_eq_ok hrun
  obtain ⟨losses, hlosses, hlength, hfinite, hsum⟩ := Sweep.epochLosses_of_takeAll hall
  refine ⟨losses, hlosses, hlength, hfinite, ?_⟩
  rw [hsum, meanOf, sumOf, hlength]
  rfl

theorem diverged_of_runEpoch (hlosses : epochLosses gauge each rate start examples = .ok losses)
    (hhalt : runEpoch gauge each examples epoch rate start = .error h) :
    ∃ what sample, h = ⟨.diverged what epoch sample start, start⟩ := by
  obtain hall | ⟨-, rfl, -⟩ := runEpoch_halts hhalt
  · exact Sweep.diverged_of_takeAll hlosses hall
  · exact ⟨_, _, rfl⟩

end Losses

/-! ### The losses of a course -/

/-- Training comes to an epoch with a learning rate for it. -/
structure Begins (options : Options) (interrupts : Nat → Bool) (reports : List (Report Binary64))
    (k : Nat) (rate : Binary64) : Prop where
  reached : k ≤ reports.length
  within : k < options.maxEpochs
  rate : options.rateAt k = .ok rate
  goesOn : GoesOn options.plan interrupts (reports.take k)

section Courses

variable {options : Options} {gauge : Gauge Binary64} {examples : List (Example Binary64)}
  {interrupts : Nat → Bool} {initial weights losses : List Binary64}
  {reports : List (Report Binary64)} {outcome : Except (Stop Binary64) (Result Binary64)} {k : Nat}
  {rate : Binary64}

/-- A mean of losses is finite just when their sum is. -/
theorem isFinite_meanOf (hsome : losses ≠ []) :
    (meanOf losses).isFinite = (sumOf losses).isFinite :=
  Binary64.isFinite_div_ofNat (by simpa using hsome)

theorem overflows_iff (hsome : losses ≠ []) :
    Overflows losses ↔
      (∀ loss ∈ losses, loss.isFinite = true) ∧ (meanOf losses).isFinite = false := by
  rw [isFinite_meanOf hsome]
  exact Iff.rfl

theorem epochLosses_ne_nil {each : Bool} {start : List Binary64} (hsome : examples ≠ [])
    (hlosses : epochLosses gauge each rate start examples = .ok losses) : losses ≠ [] := by
  cases examples with
  | nil => exact absurd rfl hsome
  | cons e es =>
      obtain ⟨loss, -, rest, -, -, rfl⟩ := epochLosses_cons.1 hlosses
      exact List.cons_ne_nil loss rest

/-- A reported loss is the mean of finite losses, and is finite unless these
overflow together. -/
theorem Course.isFinite_loss (h : Course options.plan gauge examples initial reports)
    (hsome : examples ≠ []) (hk : k < reports.length) :
    ∃ losses, epochLosses gauge (options.update == .example) reports[k].rate
        (startOf initial reports k) examples = .ok losses ∧
      reports[k].loss = meanOf losses ∧ (∀ loss ∈ losses, loss.isFinite = true) ∧
      (reports[k].loss.isFinite = false ↔ Overflows losses) := by
  obtain ⟨losses, hlosses, -, hfinite, hmean⟩ := epochLosses_of_runEpoch (h k hk).2.2
  refine ⟨losses, hlosses, hmean, hfinite, ?_⟩
  rw [overflows_iff (epochLosses_ne_nil hsome hlosses), hmean]
  exact ⟨fun hmean => ⟨hfinite, hmean⟩, And.right⟩

/-- The losses of a result have been reported. -/
theorem Ending.losses_reported {r : Result Binary64} (hmax : 1 ≤ options.maxEpochs)
    (h : Ending options.plan gauge examples interrupts initial reports weights (.ok r)) :
    r.losses ⊆ reports.map Report.loss ∧ r.loss ∈ reports.map Report.loss := by
  have hlast {ls : List Binary64} (hr : r.losses = ls) (hsome : ls ≠ []) : r.loss ∈ ls :=
    hr ▸ List.mem_of_getLast? (Result.getLast?_losses (hr ▸ hsome))
  cases h with
  | exhausted _ hlength =>
      refine ⟨List.Subset.refl _, hlast rfl fun hnil => ?_⟩
      rw [List.map_eq_nil_iff.1 hnil] at hlength
      exact absurd hlength (Nat.ne_of_lt hmax)
  | @risen _ q _ _ _ hverdict =>
      obtain ⟨d, p, rfl, -⟩ := verdictAfter_ne_goOn (hverdict.trans_ne (by simp))
      have hsubset : (d ++ [p]).map Report.loss ⊆ (d ++ [p] ++ [q]).map Report.loss :=
        List.map_subset _ (List.subset_append_left _ _)
      exact ⟨hsubset, hsubset (hlast rfl (by simp))⟩
  | settled => exact ⟨List.Subset.refl _, hlast rfl (by simp)⟩

/-- Training that comes to an epoch without reporting it stops there. -/
theorem Ending.diverged (hbegins : Begins options interrupts reports reports.length rate)
    (hlosses : epochLosses gauge (options.update == .example) rate
      (startOf initial reports reports.length) examples = .ok losses)
    (h : Ending options.plan gauge examples interrupts initial reports weights outcome) :
    weights = startOf initial reports reports.length ∧ ∃ what sample,
      outcome = .error (.diverged what reports.length sample weights) := by
  obtain ⟨-, hwithin, hrate, hgoesOn⟩ := hbegins
  have hplan : options.plan.rate reports.length = .ok rate := by
    simp [Options.plan, hrate, Except.mapError]
  rw [List.take_length] at hgoesOn
  rw [startOf_length] at hlosses ⊢
  -- Only an epoch that halts is begun and not reported; other ends follow a report.
  cases h with
  | exhausted _ hlength => exact absurd hlength (Nat.ne_of_lt hwithin)
  | unrated _ _ hunrated => cases hplan.symm.trans hunrated
  | halted _ _ hrate' hrun =>
      obtain rfl := Except.ok.inj (hplan.symm.trans hrate')
      obtain ⟨what, sample, rfl⟩ := diverged_of_runEpoch hlosses hrun
      exact ⟨rfl, what, sample, rfl⟩
  | @interrupted done r _ _ hinterrupts =>
      have hlast := (hgoesOn done.length (by simp)).1
      rw [hinterrupts] at hlast
      cases hlast
  | @risen done r _ _ _ hverdict =>
      have hlast := (hgoesOn done.length (by simp)).2
      simp [hverdict] at hlast
  | @settled done r _ _ _ hverdict =>
      have hlast := (hgoesOn done.length (by simp)).2
      simp [hverdict] at hlast

end Courses

/-- Training that is not refused is a run from the weights of the network. -/
theorem fitWith_eq_ofRun {compile : Compile} {net : Network} {s : Settings}
    {examples : List (Example Binary64)} {options : Options} {gauge : Gauge Binary64}
    {names : List String} (observer : Observer) (hcompile : Compiles compile)
    (hchecked : checked net s examples = .ok options)
    (hcompiled : (compile net).1 = .ok (gauge, names)) (hnames : names = net.weightNames) :
    ∃ net', net'.weights = net.weights ∧ gauge.Fits net.weights.length ∧
      fitWith compile net s examples observer = .ofRun net' observer
        (descend options.plan gauge examples observer.interruptsAfter net.weightValues) := by
  obtain ⟨net', hweights, ⟨f, hrefusal, -⟩ |
    ⟨options', gauge', names', hchecked', hcompiled', hfits, hfit⟩⟩ :=
    fitWith_cases hcompile net s examples observer
  · cases hrefusal with
    | unsound hunsound => cases hunsound.symm.trans hchecked
    | uncompiled huncompiled => cases huncompiled.symm.trans hcompiled
    | misordered hcompiled' hmisordered =>
        cases hcompiled.symm.trans hcompiled'
        exact absurd hnames hmisordered
  · cases hchecked.symm.trans hchecked'
    cases hcompiled.symm.trans hcompiled'
    exact ⟨net', hweights, hfits, hfit⟩

/-- A run that stops short leaves its weights and its failure in the network. -/
theorem ofRun_of_error {net net' : Network} {run : Run Binary64} {stop : Stop Binary64}
    (observer : Observer) (hweights : net'.weights = net.weights)
    (hlength : run.weights.length = net.weights.length) (houtcome : run.outcome = .error stop) :
    (Fit.ofRun net' observer run).network.weightValues = run.weights ∧
      (Fit.ofRun net' observer run).outcome = .error (.stopped net.weightNames stop) := by
  have hnames : net'.weightNames = net.weightNames :=
    congrArg (List.map Network.Weight.name) hweights
  rw [← hweights] at hlength
  simp only [Fit.ofRun, houtcome, Network.weightValues_withValues hlength,
    Network.weightNames_withValues hlength, hnames, and_self]

/-- Every loss that training reports is the mean of finite losses, and so is
every loss of its result. It is finite itself unless the losses overflow in
their sum. A mean that is not finite for another reason ends training: the
failure carries the weights that the epoch started from, and the network has
them again. -/
theorem fitWith_finite {compile : Compile} {net : Network} {s : Settings}
    {examples : List (Example Binary64)} {options : Options} {gauge : Gauge Binary64}
    {names : List String} (observer : Observer) (hcompile : Compiles compile)
    (hchecked : checked net s examples = .ok options)
    (hcompiled : (compile net).1 = .ok (gauge, names)) (hnames : names = net.weightNames) :
    let fit := fitWith compile net s examples observer
    let start := startOf net.weightValues fit.reports
    let lossesAt := fun rate k =>
      epochLosses gauge (options.update == .example) rate (start k) examples
    (∀ k (_ : k < fit.reports.length), ∃ losses, lossesAt fit.reports[k].rate k = .ok losses ∧
      fit.reports[k].loss = meanOf losses ∧ (∀ loss ∈ losses, loss.isFinite = true) ∧
      (fit.reports[k].loss.isFinite = false ↔ Overflows losses)) ∧
    (∀ r, fit.finished = some r →
      r.losses ⊆ fit.reports.map Report.loss ∧ r.loss ∈ fit.reports.map Report.loss) ∧
    ∀ k rate losses, Begins options observer.interruptsAfter fit.reports k rate →
      lossesAt rate k = .ok losses → (meanOf losses).isFinite = false → ¬Overflows losses →
      k = fit.reports.length ∧ fit.network.weightValues = start k ∧ ∃ what sample,
        fit.outcome = .error (.stopped net.weightNames (.diverged what k sample (start k))) := by
  intro fit start lossesAt
  have hsome := (checked_sound hchecked).2.2
  have hcourse : Course options.plan gauge examples net.weightValues fit.reports :=
    fitWith_course observer hcompile hchecked hcompiled
  refine ⟨fun k hk => hcourse.isFinite_loss hsome hk, fun r hfinished => ?_, ?_⟩
  · obtain ⟨options', gauge', names', hchecked', hcompiled', -, hending, -⟩ :=
      fitWith_finished hcompile hfinished
    cases hchecked.symm.trans hchecked'
    exact hending.losses_reported (checked_sound hchecked).1
  · intro k rate losses hbegins hlosses hmean hoverflows
    rw [overflows_iff (epochLosses_ne_nil hsome hlosses), not_and_or] at hoverflows
    have hloss := hoverflows.resolve_right (by simp [hmean])
    -- An epoch that is reported has finite losses only.
    have hlast : k = fit.reports.length := by
      refine (Nat.lt_or_eq_of_le hbegins.reached).resolve_left fun hk => hloss ?_
      obtain ⟨losses', hlosses', -, hfinite, -⟩ := hcourse.isFinite_loss hsome hk
      have hrate := Options.rate_plan_eq_ok (hcourse k hk).2.1
      rw [Except.ok.inj (hbegins.rate.symm.trans hrate)] at hlosses
      exact Except.ok.inj (hlosses.symm.trans hlosses') ▸ hfinite
    subst hlast
    obtain ⟨net', hweights, hfits, hfit⟩ :=
      fitWith_eq_ofRun observer hcompile hchecked hcompiled hnames
    set run := descend options.plan gauge examples observer.interruptsAfter net.weightValues
    have hreports : fit.reports = run.reports := by rw [← reports_ofRun net' observer, ← hfit]
    have hlength : run.weights.length = net.weights.length :=
      length_weights_descend options.plan examples observer.interruptsAfter hfits
        net.length_weightValues
    have hending := (descend_ending options.plan gauge examples observer.interruptsAfter
      net.weightValues).2
    rw [← hreports] at hending
    obtain ⟨hstart, what, sample, houtcome⟩ := hending.diverged hbegins hlosses
    obtain ⟨hvalues, hstopped⟩ := ofRun_of_error observer hweights hlength houtcome
    rw [← hfit, hstart] at hvalues hstopped
    exact ⟨rfl, hvalues, what, sample, hstopped⟩

/-! ### Lines that are far off -/

/-- An example that asks the line to pass, at zero, through a power of ten. -/
def atZero (k : Int) : Example Binary64 := ⟨[Binary64.zero], [Binary64.ofDecimal false 1 k]⟩

/-- The square of the second error is beyond the range. The weights that the
first example has moved are put back. -/
theorem fitWith_finite_line :
    let s := lineSettings Binary64.half Binary64.half .example
    let options : Options :=
      ⟨5, .real Binary64.half, .constant (.ofReal Binary64.half), .example⟩
    let examples := [onAxis, atZero 200]
    let fit := fitWith compileLine line s examples .silent
    let losses := [Binary64.one, Binary64.infinity]
    Compiles compileLine ∧ checked line s examples = .ok options ∧
      Begins options Observer.silent.interruptsAfter fit.reports 0 Binary64.half ∧
      epochLosses lineGauge true Binary64.half line.weightValues examples = .ok losses ∧
      (meanOf losses).isFinite = false ∧ ¬Overflows losses ∧
      fit.network.weightValues = line.weightValues ∧ ∃ what sample, fit.outcome =
        .error (.stopped line.weightNames (.diverged what 0 sample line.weightValues)) := by
  intro s options examples fit losses
  have hchecked : checked line s examples = .ok options := rfl
  have hbegins : Begins options Observer.silent.interruptsAfter fit.reports 0 Binary64.half :=
    ⟨Nat.zero_le _, by decide, rfl, nofun⟩
  have hlosses : epochLosses lineGauge true Binary64.half line.weightValues examples =
      .ok losses := by decide +kernel
  have hmean : (meanOf losses).isFinite = false := by decide +kernel
  have hoverflows : ¬Overflows losses := fun h =>
    absurd (h.1 Binary64.infinity (by simp [losses])) (by decide +kernel)
  obtain ⟨-, hweights, hstopped⟩ := (fitWith_finite .silent compiles_compileLine hchecked rfl
    rfl).2.2 0 _ losses hbegins hlosses hmean hoverflows
  exact ⟨compiles_compileLine, hchecked, hbegins, hlosses, hmean, hoverflows, hweights, hstopped⟩

/-- Two errors whose squares are in the range, but whose sum is not: training
reports a loss that is infinite, and comes to a result with it. -/
theorem infinite_loss_reported :
    let rate := Binary64.ofDecimal false 1 (-1)
    let s : Settings :=
      ⟨.ofNat 1, .ofReal Binary64.half, .constant (.ofReal rate), .text "epoch"⟩
    let examples := [atZero 154, atZero 154]
    let fit := fitWith compileLine line s examples .silent
    Compiles compileLine ∧
      (∃ losses, epochLosses lineGauge false rate line.weightValues examples = .ok losses ∧
        ∀ loss ∈ losses, loss.isFinite = true) ∧
      fit.reports.map Report.loss = [Binary64.infinity] ∧
      fit.outcome.toOption.map Result.losses = some [Binary64.infinity] ∧
      fit.outcome.toOption.map Result.loss = some Binary64.infinity ∧
      Binary64.infinity.isFinite = false := by
  intro rate s examples fit
  have hlosses : epochLosses lineGauge false rate line.weightValues examples =
      .ok (List.replicate 2 (Binary64.ofDecimal false 1 154 * Binary64.ofDecimal false 1 154)) := by
    decide +kernel
  exact ⟨compiles_compileLine, ⟨_, hlosses, by decide +kernel⟩, by decide +kernel,
    by decide +kernel, by decide +kernel, by decide⟩

end Gantry.Training
