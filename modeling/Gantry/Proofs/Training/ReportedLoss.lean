import Gantry.Proofs.Training.Stopping

/-!
To which weights a reported loss belongs. Where weights move once an epoch,
the loss of an epoch is that of the weights it started from. Training that
stops because the loss rose goes back by one epoch in both, so the network and
the result still belong together.
-/

namespace Gantry.Training

variable {plan : Plan Binary64} {options : Options} {gauge : Gauge Binary64}
  {examples : List (Example Binary64)} {interrupts : Nat → Bool} {initial weights : List Binary64}
  {reports done : List (Report Binary64)} {r : Result Binary64}

/-- Losses are numbers, as long as the number of examples is within range. -/
theorem Course.isNaN_loss (h : Course plan gauge examples initial reports)
    (hsome : examples ≠ []) (hcount : (Binary64.ofNat examples.length).isFinite = true) :
    ∀ report ∈ reports, report.loss.isNaN = false := by
  intro report hreport
  obtain ⟨k, hk, rfl⟩ := List.getElem_of_mem hreport
  obtain ⟨s, hall, hloss, -⟩ := runEpoch_eq_ok (h k hk).2.2
  rw [hloss]
  refine Binary64.isNaN_div ?_ hcount (Binary64.magnitude_ofNat_ne_zero (by simpa using hsome))
  refine Sweep.takeAll_total_induction (motive := fun x : Binary64 => x.isNaN = false) ?_ ?_ hall
  · show Binary64.zero.isNaN = false
    decide +kernel
  · intro total loss htotal hfinite
    exact Binary64.isNaN_add htotal hfinite

/-- Beyond the range no loss is less than another. -/
theorem Course.rank_loss (h : Course plan gauge examples initial reports)
    (hcount : (Binary64.ofNat examples.length).isInfinite = true) :
    ∀ report ∈ reports, report.loss.isNaN = false → report.loss.rank = 0 := by
  intro report hreport hnan
  obtain ⟨k, hk, rfl⟩ := List.getElem_of_mem hreport
  obtain ⟨s, hall, hloss, -⟩ := runEpoch_eq_ok (h k hk).2.2
  rw [hloss] at hnan ⊢
  exact Binary64.rank_div_of_isInfinite hcount hnan

/-- Each reported loss is the mean loss at the weights its epoch started from. -/
theorem Course.meanLoss_startOf (h : Course plan gauge examples initial reports)
    (hepoch : plan.eachExample = false) {k : Nat} (hk : k < reports.length) :
    meanLoss gauge examples (startOf initial reports k) = .ok reports[k].loss := by
  have hrun := (h k hk).2.2
  rw [hepoch] at hrun
  exact meanLoss_of_runEpoch hrun

/-- Losses of two epochs of a course that differ are among numbers throughout. -/
theorem Course.isNaN_loss_of_lt (h : Course plan gauge examples initial reports)
    (hsome : examples ≠ []) {p q : Report Binary64} (hp : p ∈ reports) (hq : q ∈ reports)
    (hlt : p.loss.lt q.loss = true) : ∀ report ∈ reports, report.loss.isNaN = false := by
  obtain ⟨hpnan, hqnan, hrank⟩ := Binary64.lt_iff.1 hlt
  -- A number of examples beyond the range makes every mean zero, and zeros do not differ.
  rcases Binary64.isInfinite_or_isFinite (Binary64.isNaN_ofNat examples.length) with
    hcount | hcount
  · rw [h.rank_loss hcount p hp hpnan, h.rank_loss hcount q hq hqnan] at hrank
    omega
  · exact h.isNaN_loss hsome hcount

/-- Training whose last loss rose ended with the epoch before. -/
theorem Ending.of_rise
    (h : Ending plan gauge examples interrupts initial reports weights (.ok r)) {k : Nat}
    (hk : k + 2 = reports.length)
    (hrise : Scalar.lt (reports[k].loss - reports[k + 1].loss) Scalar.zero = true) :
    ∃ d p q, reports = d ++ [p] ++ [q] ∧ GoesOn plan interrupts (d ++ [p]) ∧ r.loss = p.loss ∧
      weights = startOf initial reports d.length := by
  cases h with
  | exhausted hgoesOn _ => simp [(hgoesOn.gain (k := k) (by omega)).1] at hrise
  | @risen _ q hgoesOn _ _ hverdict =>
      obtain ⟨d, p, rfl, -⟩ := verdictAfter_ne_goOn (hverdict.trans_ne (by simp))
      refine ⟨d, p, q, rfl, hgoesOn, by simp [Result.loss], ?_⟩
      rw [weightsAfter_dropLast initial (d ++ [p]) [q]]
      simp
  | settled hgoesOn _ _ hverdict =>
      obtain ⟨d, p, rfl, -, hsettled⟩ := verdictAfter_ne_goOn (hverdict.trans_ne (by simp))
      obtain ⟨-, hp, hq⟩ := getElem_last k hk
      rw [hp, hq, (hsettled hverdict).1] at hrise
      cases hrise

theorem le_last_of_goesOn {d : List (Report Binary64)} {p : Report Binary64}
    (h : GoesOn plan interrupts (d ++ [p]))
    (hnan : ∀ report ∈ d ++ [p], report.loss.isNaN = false) :
    ∀ report ∈ d ++ [p], p.loss.le report.loss = true := by
  have hpairs := nonincreasing_iff.2 fun k hk => h.nonincreasing hnan hk
  rw [List.map_append, List.pairwise_append] at hpairs
  intro report hreport
  rcases List.mem_append.1 hreport with hbefore | hlast
  · exact hpairs.2.2 _ (List.mem_map_of_mem hbefore) _ (by simp)
  · obtain rfl := List.mem_singleton.1 hlast
    exact Binary64.le_refl (hnan report hreport)

/-- Where the last loss rose, the weights and the loss of the result belong together. -/
theorem Ending.reportedLoss
    (h : Ending plan gauge examples interrupts initial reports weights (.ok r))
    (hcourse : Course plan gauge examples initial reports) (hepoch : plan.eachExample = false)
    (hsome : examples ≠ []) {k : Nat} (hk : k + 2 = reports.length)
    (hrise : reports[k].loss.lt reports[k + 1].loss = true) :
    meanLoss gauge examples weights = .ok r.loss ∧
      ∀ report ∈ reports, r.loss.le report.loss = true := by
  have hnan := hcourse.isNaN_loss_of_lt hsome (List.getElem_mem _) (List.getElem_mem _) hrise
  obtain ⟨d, p, q, rfl, hgoesOn, hloss, rfl⟩ := h.of_rise hk
    ((gain_neg (hnan _ (List.getElem_mem _)) (hnan _ (List.getElem_mem _))).trans hrise)
  obtain ⟨rfl, hp, hq⟩ := getElem_last k hk
  rw [hp, hq] at hrise
  rw [hloss]
  constructor
  · rw [hcourse.meanLoss_startOf hepoch (by simp), hp]
  · have hleast := le_last_of_goesOn hgoesOn fun report hreport =>
      hnan report (List.mem_append_left _ hreport)
    intro report hreport
    rcases List.mem_append.1 hreport with hbefore | hlast
    · exact hleast report hbefore
    · obtain rfl := List.mem_singleton.1 hlast
      exact Binary64.le_of_lt hrise

/-- Where weights move once an epoch, every run reports the mean loss at the
weights that an epoch started from. If training stops because the loss rose,
the loss of its result is the mean loss at the weights it leaves in the
network, and no epoch had a smaller one. -/
theorem fitWith_reportedLoss {compile : Compile} {net : Network} {s : Settings}
    {names : List String} (observer : Observer) (hcompile : Compiles compile)
    (hchecked : checked net s examples = .ok options)
    (hcompiled : (compile net).1 = .ok (gauge, names)) (hepoch : options.update = .epoch) :
    let fit := fitWith compile net s examples observer
    (∀ k (_ : k < fit.reports.length),
      meanLoss gauge examples (startOf net.weightValues fit.reports k) =
        .ok fit.reports[k].loss) ∧
    ∀ r, fit.finished = some r → ∀ k (_ : k + 2 = fit.reports.length),
      fit.reports[k].loss.lt fit.reports[k + 1].loss = true →
      meanLoss gauge examples fit.network.weightValues = .ok r.loss ∧
        ∀ report ∈ fit.reports, r.loss.le report.loss = true := by
  have hcourse := fitWith_course observer hcompile hchecked hcompiled
  have hplan : options.plan.eachExample = false := by simp [Options.plan, hepoch]
  refine ⟨fun k hk => hcourse.meanLoss_startOf hplan hk, fun r hfinished k hk hrise => ?_⟩
  obtain ⟨options', gauge', names', hchecked', hcompiled', -, hending, hweights⟩ :=
    fitWith_finished hcompile hfinished
  cases hchecked.symm.trans hchecked'
  cases hcompiled.symm.trans hcompiled'
  rw [hweights]
  exact hending.reportedLoss hcourse hplan (checked_sound hchecked).2.2 hk hrise

theorem rise_of_two {a b : Binary64} (hlosses : reports.map Report.loss = [a, b])
    (hlt : a.lt b = true) (k : Nat) (hk : k + 2 = reports.length) :
    reports[k].loss.lt reports[k + 1].loss = true := by
  match reports, hlosses with
  | [p, q], hlosses =>
      simp only [List.map_cons, List.map_nil, List.cons.injEq, and_true] at hlosses
      obtain rfl : k = 0 := by simpa using hk
      simpa [hlosses] using hlt

/-- A rate at which the line overshoots: the loss rises from one to nine, and
training ends with the line that it began with. -/
theorem fitWith_reportedLoss_line :
    let s := lineSettings Binary64.one Binary64.half .epoch
    let options : Options :=
      ⟨5, .real Binary64.half, .constant (.ofReal Binary64.one), .epoch⟩
    let fit := fitWith compileLine line s [onAxis] .silent
    let r : Result Binary64 := ⟨false, line.weightValues, [Binary64.one]⟩
    Compiles compileLine ∧ checked line s [onAxis] = .ok options ∧ options.update = .epoch ∧
      fit.reports.map Report.loss = [Binary64.one, Binary64.ofNat 9] ∧ fit.finished = some r ∧
      meanLoss lineGauge [onAxis] fit.network.weightValues = .ok r.loss := by
  intro s options fit r
  have hchecked : checked line s [onAxis] = .ok options := rfl
  have hlosses : fit.reports.map Report.loss = [Binary64.one, Binary64.ofNat 9] := by
    decide +kernel
  have hfinished : fit.finished = some r := by decide +kernel
  have hcount : 0 + 2 = fit.reports.length := by simpa using (congrArg List.length hlosses).symm
  have hepoch : options.update = .epoch := rfl
  have hreported := fitWith_reportedLoss .silent compiles_compileLine hchecked rfl hepoch
  refine ⟨compiles_compileLine, hchecked, hepoch, hlosses, hfinished, ?_⟩
  exact (hreported.2 r hfinished 0 hcount (rise_of_two hlosses (by decide +kernel) 0 hcount)).1

end Gantry.Training
