import Gantry.Proofs.Training.Fitting

/-!
Training is atomic per epoch. Within an epoch weights may move after every
example, but however training comes to its end, the network is left with
weights that some epoch started from or ended with. A failure in an epoch
forgets what its examples had done.
-/

namespace Gantry.Training

variable {compile : Compile} {net : Network} {s : Settings} {examples : List (Example Binary64)}
  {observer : Observer}

/-! ### Exits -/

/-- The exits of training: the weights that each leaves in the network, and its outcome. -/
inductive Exit (compile : Compile) (net : Network) (s : Settings)
    (examples : List (Example Binary64)) (observer : Observer) (reports : List (Report Binary64)) :
    List Binary64 → Except FitFailure (Result Binary64) → Prop
  | refused {f : FitFailure} :
      Refusal compile net s examples f → reports = [] →
      Exit compile net s examples observer reports net.weightValues (.error f)
  /-- The next epoch had no rate. -/
  | unrated {options : Options} {f : OptionFailure} :
      checked net s examples = .ok options → options.rateAt reports.length = .error f →
      Exit compile net s examples observer reports
        (startOf net.weightValues reports reports.length)
        (.error (.stopped net.weightNames (.fault f.asFault)))
  /-- The next epoch diverged; the failure carries the weights it started from. -/
  | diverged {options : Options} {gauge : Gauge Binary64} {names : List String} {rate : Binary64}
      {what : Divergence} {sample : Option Nat} :
      checked net s examples = .ok options → (compile net).1 = .ok (gauge, names) →
      options.rateAt reports.length = .ok rate →
      Diverges gauge (options.update == .example) examples reports.length rate
        (startOf net.weightValues reports reports.length) what sample →
      Exit compile net s examples observer reports
        (startOf net.weightValues reports reports.length)
        (.error (.stopped net.weightNames (.diverged what reports.length sample
          (startOf net.weightValues reports reports.length))))
  /-- The observer of an epoch objected, after its end. -/
  | interrupted {k : Nat} :
      reports.length = k + 1 → observer.interruptsAfter k = true →
      Exit compile net s examples observer reports (startOf net.weightValues reports (k + 1))
        (.error (.stopped net.weightNames .interrupted))
  /-- The observer of the result objected, which is too late to change it. -/
  | objected {k : Nat} :
      k ≤ reports.length → observer.interruptsAtEnd = true →
      Exit compile net s examples observer reports (startOf net.weightValues reports k)
        (.error (.stopped net.weightNames .interrupted))
  | returned {k : Nat} {r : Result Binary64} :
      k ≤ reports.length → r.weights = startOf net.weightValues reports k →
      Exit compile net s examples observer reports r.weights (.ok r)

theorem Options.rate_plan_eq_error {options : Options} {k : Nat} {f : Fault}
    (h : options.plan.rate k = .error f) : ∃ f', options.rateAt k = .error f' ∧ f = f'.asFault := by
  simp only [plan] at h
  cases hrate : options.rateAt k with
  | error f' =>
      rw [hrate] at h
      cases h
      exact ⟨f', rfl, rfl⟩
  | ok x => simp [hrate, Except.mapError] at h

theorem Options.rate_plan_eq_ok {options : Options} {k : Nat} {x : Binary64}
    (h : options.plan.rate k = .ok x) : options.rateAt k = .ok x := by
  simp only [plan] at h
  cases hrate : options.rateAt k with
  | error f' => simp [hrate, Except.mapError] at h
  | ok y => simpa [hrate, Except.mapError] using h

section Runs

variable {options : Options} {gauge : Gauge Binary64} {names : List String}
  {reports : List (Report Binary64)} {weights : List Binary64}

/-- Training that stops short is at the boundary of its last epoch. -/
theorem Exit.of_stop {stop : Stop Binary64} (hchecked : checked net s examples = .ok options)
    (hcompiled : (compile net).1 = .ok (gauge, names)) (hfits : gauge.Fits net.weights.length)
    (hanswers : gauge.Answers net.weights.length examples)
    (hcourse : Course options.plan gauge examples net.weightValues reports)
    (hending : Ending options.plan gauge examples observer.interruptsAfter net.weightValues
      reports weights (.error stop)) :
    weights.length = net.weights.length ∧
      Exit compile net s examples observer reports weights
        (.error (.stopped net.weightNames stop)) := by
  have hlast := hcourse.length_startOf hfits net.length_weightValues (Nat.le_refl _)
  rw [startOf_length] at hlast
  cases hending with
  | unrated _ _ hrate =>
      obtain ⟨f, hunrated, rfl⟩ := Options.rate_plan_eq_error hrate
      refine ⟨hlast, ?_⟩
      rw [← startOf_length]
      exact .unrated hchecked hunrated
  | halted _ _ hrate hrun =>
      obtain ⟨what, sample, rfl, hdiverges⟩ := runEpoch_eq_error hfits hanswers hlast hrun
      rw [← startOf_length] at hdiverges
      refine ⟨hlast, ?_⟩
      rw [← startOf_length]
      exact .diverged hchecked hcompiled (Options.rate_plan_eq_ok hrate) hdiverges
  | @interrupted done r _ _ hinterrupts =>
      have hcount : (done ++ [r]).length = done.length + 1 := by simp
      rw [weightsAfter_concat] at hlast
      refine ⟨hlast, ?_⟩
      rw [← weightsAfter_concat net.weightValues done r, ← startOf_length, hcount]
      exact .interrupted hcount hinterrupts

end Runs

/-- Whatever a compilation derives from a network, training leaves it at the
boundary of an epoch. -/
theorem fitWith_exit (hcompile : Compiles compile)
    (hanswers : ∀ gauge names, (compile net).1 = .ok (gauge, names) →
      gauge.Answers net.weights.length examples) :
    let fit := fitWith compile net s examples observer
    (∀ options gauge names, checked net s examples = .ok options →
      (compile net).1 = .ok (gauge, names) →
      Course options.plan gauge examples net.weightValues fit.reports) ∧
    fit.network.weightNames = net.weightNames ∧
    Exit compile net s examples observer fit.reports fit.network.weightValues fit.outcome := by
  refine ⟨fun options gauge names => fitWith_course observer hcompile, ?_⟩
  obtain ⟨net', hweights, ⟨f, hrefusal, hfit⟩ |
    ⟨options, gauge, names, hchecked, hcompiled, hfits, hfit⟩⟩ :=
    fitWith_cases hcompile net s examples observer
  all_goals
    have hvalues : net'.weightValues = net.weightValues :=
      congrArg (List.map Network.Weight.value) hweights
    have hnames : net'.weightNames = net.weightNames :=
      congrArg (List.map Network.Weight.name) hweights
  · simp only [hfit, Fit.refused, hvalues, hnames]
    exact ⟨trivial, .refused hrefusal rfl⟩
  · obtain ⟨hcourse, hending⟩ := descend_ending options.plan gauge examples
      observer.interruptsAfter net.weightValues
    rw [hfit]
    generalize descend options.plan gauge examples observer.interruptsAfter net.weightValues = run
      at hcourse hending
    cases houtcome : run.outcome with
    | error stop =>
        rw [houtcome] at hending
        obtain ⟨hlength, hexit⟩ :=
          Exit.of_stop hchecked hcompiled hfits (hanswers gauge names hcompiled) hcourse hending
        rw [← hweights] at hlength
        simp only [Fit.ofRun, houtcome, Network.weightValues_withValues hlength,
          Network.weightNames_withValues hlength, hnames]
        exact ⟨trivial, hexit⟩
    | ok r =>
        rw [houtcome] at hending
        have hlength := hending.length_weights hfits hcourse
        obtain ⟨hr, k, hk, hboundary⟩ := hending.weights_of_ok
        rw [← hweights] at hlength
        simp only [Fit.ofRun, houtcome, Network.weightValues_withValues hlength,
          Network.weightNames_withValues hlength, hnames]
        refine ⟨trivial, ?_⟩
        cases hend : observer.interruptsAtEnd with
        | true => exact hboundary ▸ .objected hk hend
        | false => exact hr ▸ .returned hk (hr.trans hboundary)

/-- A rate that is far too great. The first example has already moved the
weights when the second runs out of range, and they are put back. -/
theorem fitWith_exit_line :
    let s := lineSettings (Binary64.ofRatio false (2 ^ 1000) 1) Binary64.half .example
    let fit := fitWith compileLine line s [onAxis, onAxis] .silent
    Compiles compileLine ∧ lineGauge.Answers line.weights.length [onAxis, onAxis] ∧
      Exit compileLine line s [onAxis, onAxis] .silent fit.reports fit.network.weightValues
        fit.outcome ∧
      fit.network.weightValues = line.weightValues ∧
      fit.outcome.mapError FitFailure.asFault = .error
        (.diverged "training diverged: non-finite loss or gradient at epoch 0, example 1" 0 (some 1)
          [("w0r0c0", Binary64.one), ("w0b0", Binary64.zero)]) := by
  have hanswers : lineGauge.Answers line.weights.length [onAxis, onAxis] :=
    answers_lineGauge (by simp)
  refine ⟨compiles_compileLine, hanswers, ?_, by decide +kernel, by decide +kernel⟩
  exact (fitWith_exit compiles_compileLine fun gauge names h => by cases h; exact hanswers).2.2

end Gantry.Training
