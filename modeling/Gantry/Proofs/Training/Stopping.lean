import Gantry.Proofs.Number.Order
import Gantry.Proofs.Training.Fitting

/-!
When training stops. Before its last epoch every loss has fallen by at least
the tolerance; the last one may fall by less, which is convergence, or rise,
and then it is not reported and the weights are those that the epoch before
started from. Gains are differences of doubles, whose sign is exact.
-/

namespace Gantry.Training

/-! ### Gains of a course -/

section Gains

variable {α : Type} [Scalar α] {plan : Plan α} {interrupts : Nat → Bool} {done : List (Report α)}
  {p r : Report α} {loss : α}

theorem verdictAfter_concat :
    verdictAfter plan (done ++ [p]) loss =
      if Scalar.lt (p.loss - loss) Scalar.zero then .risen
      else if plan.settled (p.loss - loss) then .settled
      else .goOn := by
  simp [verdictAfter, verdict]

/-- Epochs after which training goes on have not risen, and have gained enough. -/
theorem GoesOn.gain (h : GoesOn plan interrupts done) {k : Nat} (hk : k + 1 < done.length) :
    Scalar.lt (done[k].loss - done[k + 1].loss) Scalar.zero = false ∧
      plan.settled (done[k].loss - done[k + 1].loss) = false := by
  have hverdict := (h (k + 1) hk).2
  rw [List.take_succ_eq_append_getElem (Nat.lt_of_succ_lt hk), verdictAfter_concat] at hverdict
  split at hverdict
  · cases hverdict
  · split at hverdict
    · cases hverdict
    · simp_all

end Gains

/-! ### Sound options -/

theorem Settings.checkMaxEpochs_sound {s : Settings} {n : Nat} (h : s.checkMaxEpochs = .ok n) :
    1 ≤ n := by
  unfold checkMaxEpochs at h
  split at h
  · split at h
    · cases h
      omega
    · cases h
  · cases h
    exact Nat.le_refl 1
  · cases h

theorem Settings.checkTolerance_sound {s : Settings} {tolerance : Number}
    (h : s.checkTolerance = .ok tolerance) : (Number.int 0).le tolerance = true := by
  unfold checkTolerance at h
  cases hnumber : numberOf s.tolerance with
  | error f => simp [hnumber, Bind.bind, Except.bind] at h
  | ok n =>
      simp only [hnumber, Bind.bind, Except.bind] at h
      split at h
      · cases h
        assumption
      · cases h

theorem Settings.check_sound {s : Settings} {options : Options} (h : s.check = .ok options) :
    1 ≤ options.maxEpochs ∧ (Number.int 0).le options.tolerance = true := by
  unfold check at h
  cases hepochs : s.checkMaxEpochs with
  | error f => simp [hepochs, Bind.bind, Except.bind] at h
  | ok maxEpochs =>
      cases htolerance : s.checkTolerance with
      | error f => simp [hepochs, htolerance, Bind.bind, Except.bind] at h
      | ok tolerance =>
          cases hrate : s.checkRate with
          | error f => simp [hepochs, htolerance, hrate, Bind.bind, Except.bind] at h
          | ok rate =>
              cases hupdate : s.checkUpdate with
              | error f => simp [hepochs, htolerance, hrate, hupdate, Bind.bind, Except.bind] at h
              | ok update =>
                  simp only [hepochs, htolerance, hrate, hupdate, Bind.bind, Except.bind] at h
                  cases h
                  exact ⟨checkMaxEpochs_sound hepochs, checkTolerance_sound htolerance⟩

theorem checked_sound {net : Network} {s : Settings} {examples : List (Example Binary64)}
    {options : Options} (h : checked net s examples = .ok options) :
    1 ≤ options.maxEpochs ∧ (Number.int 0).le options.tolerance = true ∧ examples ≠ [] := by
  unfold checked at h
  cases hcheck : s.check with
  | error f => simp [hcheck, Except.mapError, Bind.bind, Except.bind] at h
  | ok options' =>
      obtain ⟨rfl, hsome⟩ : options' = options ∧ examples ≠ [] := by
        simp only [hcheck, Except.mapError, Bind.bind, Except.bind] at h
        repeat' split at h
        all_goals simp_all [pure, Except.pure, throw, throwThe, MonadExceptOf.throw]
      exact ⟨(Settings.check_sound hcheck).1, (Settings.check_sound hcheck).2, hsome⟩

/-! ### The stopping rule -/

/-- How training that came to a result was stopped. -/
structure Stopped (options : Options) (initial : List Binary64) (reports : List (Report Binary64))
    (r : Result Binary64) : Prop where
  nonincreasing : r.losses.Pairwise fun a b => b.le a = true
  epochs_pos : 1 ≤ r.epochs
  epochs_le : r.epochs ≤ options.maxEpochs
  epochs_eq : r.epochs = r.losses.length
  loss_last : r.losses.getLast? = some r.loss
  /-- Every epoch but the last gained enough on the one before. -/
  improved : ∀ k (_ : k + 2 < reports.length),
    options.tolerance.le (.real (reports[k].loss - reports[k + 1].loss)) = true
  ended : reports.length = options.maxEpochs ∨ ∃ k, ∃ _ : k + 2 = reports.length,
    (Number.real (reports[k].loss - reports[k + 1].loss)).lt options.tolerance = true
  converged_iff : r.converged = true ↔ ∃ k, ∃ _ : k + 2 = reports.length,
    Binary64.zero.le (reports[k].loss - reports[k + 1].loss) = true ∧
      (Number.real (reports[k].loss - reports[k + 1].loss)).lt options.tolerance = true
  /-- A last loss that has risen is dropped, with the weights it was made from
  and those it led to. -/
  risen : ∀ k (_ : k + 2 = reports.length), reports[k].loss.lt reports[k + 1].loss = true →
    r.losses = (reports.map Report.loss).dropLast ∧ r.converged = false ∧
      r.weights = startOf initial reports k
  kept : (∀ k (_ : k + 2 = reports.length), reports[k].loss.lt reports[k + 1].loss = false) →
    r.losses = reports.map Report.loss ∧ r.weights = startOf initial reports reports.length

section Stopped

variable {options : Options} {gauge : Gauge Binary64} {examples : List (Example Binary64)}
  {interrupts : Nat → Bool} {initial : List Binary64} {reports done : List (Report Binary64)}
  {weights : List Binary64} {r : Result Binary64} {a b : Binary64} {tolerance : Number}

@[simp] theorem settled_plan (options : Options) (gain : Binary64) :
    options.plan.settled gain = (Number.real gain).lt options.tolerance := rfl

theorem zero_eq : (Scalar.zero : Binary64) = Binary64.zero := by decide +kernel

/-- A gain is negative just when the loss has risen. -/
theorem gain_neg (ha : a.isNaN = false) (hb : b.isNaN = false) :
    Scalar.lt (a - b) Scalar.zero = a.lt b := by
  rw [zero_eq]
  exact Binary64.lt_sub_zero ha hb

theorem lt_tolerance_of_rise (htolerance : (Number.int 0).le tolerance = true)
    (h : Scalar.lt (a - b) Scalar.zero = true) : (Number.real (a - b)).lt tolerance = true := by
  rw [zero_eq] at h
  exact Number.lt_of_lt_of_le (Number.lt_zero_of_lt_zero h) htolerance

theorem tolerance_le (ha : a.isFinite = true) (hb : b.isFinite = true)
    (htolerance : (Number.int 0).le tolerance = true)
    (h : (Number.real (a - b)).lt tolerance = false) : tolerance.le (.real (a - b)) = true :=
  Number.le_of_not_lt (Binary64.isNaN_sub_of_isFinite ha hb) (Number.isNaN_of_le htolerance) h

theorem zero_le_gain (ha : a.isFinite = true) (hb : b.isFinite = true)
    (h : Scalar.lt (a - b) Scalar.zero = false) : Binary64.zero.le (a - b) = true := by
  rw [zero_eq] at h
  exact (Binary64.not_lt (Binary64.isNaN_sub_of_isFinite ha hb) (by decide)).1 h

theorem isNaN_of_finite (hfinite : ∀ report ∈ reports, report.loss.isFinite = true) :
    ∀ report ∈ reports, report.loss.isNaN = false := fun report hreport =>
  Binary64.isNaN_eq_false_of_isFinite (hfinite report hreport)

theorem nonincreasing_iff :
    (reports.map Report.loss).Pairwise (fun a b => b.le a = true) ↔
      ∀ k (_ : k + 1 < reports.length), reports[k + 1].loss.le reports[k].loss = true := by
  have htrans : Trans (fun a b : Binary64 => b.le a = true) (fun a b : Binary64 => b.le a = true)
    (fun a b : Binary64 => b.le a = true) := ⟨fun h h' => Binary64.le_trans h' h⟩
  rw [← List.isChain_iff_pairwise, List.isChain_iff_getElem]
  simp

theorem GoesOn.nonincreasing {plan : Plan Binary64} (h : GoesOn plan interrupts done)
    (hnan : ∀ report ∈ done, report.loss.isNaN = false) {k : Nat} (hk : k + 1 < done.length) :
    done[k + 1].loss.le done[k].loss = true := by
  have hbefore := hnan _ (List.getElem_mem (Nat.lt_of_succ_lt hk))
  have hafter := hnan _ (List.getElem_mem hk)
  have hgain := (h.gain hk).1
  rw [gain_neg hbefore hafter] at hgain
  exact (Binary64.not_lt hbefore hafter).1 hgain

theorem GoesOn.improved (htolerance : (Number.int 0).le options.tolerance = true)
    (h : GoesOn options.plan interrupts done)
    (hfinite : ∀ report ∈ done, report.loss.isFinite = true) {k : Nat} (hk : k + 1 < done.length) :
    options.tolerance.le (.real (done[k].loss - done[k + 1].loss)) = true :=
  tolerance_le (hfinite _ (List.getElem_mem (Nat.lt_of_succ_lt hk)))
    (hfinite _ (List.getElem_mem hk)) htolerance (h.gain hk).2

theorem Result.getLast?_losses (h : r.losses ≠ []) : r.losses.getLast? = some r.loss := by
  rw [Result.loss, List.getLastD_eq_getLast?, List.getLast?_eq_some_getLast h]
  rfl

/-- Training that has used up its epochs. -/
theorem stopped_of_exhausted (hmax : 1 ≤ options.maxEpochs)
    (htolerance : (Number.int 0).le options.tolerance = true)
    (hfinite : ∀ report ∈ done, report.loss.isFinite = true)
    (h : GoesOn options.plan interrupts done) (hlength : done.length = options.maxEpochs) :
    Stopped options initial done ⟨false, weightsAfter initial done, done.map Report.loss⟩ where
  nonincreasing := nonincreasing_iff.2 fun k hk => h.nonincreasing (isNaN_of_finite hfinite) hk
  epochs_pos := by simp [Result.epochs, hlength, hmax]
  epochs_le := by simp [Result.epochs, hlength]
  epochs_eq := rfl
  loss_last := Result.getLast?_losses fun hnil => by simp at hnil; simp [hnil] at hlength; omega
  improved k hk := h.improved htolerance hfinite (Nat.lt_of_succ_lt hk)
  ended := .inl hlength
  converged_iff := by
    refine iff_of_false nofun ?_
    rintro ⟨k, hk, -, hlt⟩
    have hsettled := (h.gain (k := k) (by omega)).2
    rw [settled_plan, hlt] at hsettled
    cases hsettled
  risen k hk hrise := by
    have hgain := (h.gain (k := k) (by omega)).1
    rw [gain_neg (isNaN_of_finite hfinite _ (List.getElem_mem (by omega)))
      (isNaN_of_finite hfinite _ (List.getElem_mem (by omega))), hrise] at hgain
    cases hgain
  kept _ := ⟨rfl, (startOf_length ..).symm⟩

variable {d : List (Report Binary64)} {p q : Report Binary64}

theorem getElem_last (k : Nat) (hk : k + 2 = (d ++ [p] ++ [q]).length) :
    k = d.length ∧ (d ++ [p] ++ [q])[k] = p ∧ (d ++ [p] ++ [q])[k + 1] = q := by
  obtain rfl : k = d.length := by simpa using hk
  simp

theorem getElem_before {k : Nat} (hk : k + 2 < (d ++ [p] ++ [q]).length) :
    ∃ _ : k + 1 < (d ++ [p]).length, (d ++ [p] ++ [q])[k] = (d ++ [p])[k] ∧
      (d ++ [p] ++ [q])[k + 1] = (d ++ [p])[k + 1] := by
  rw [List.length_append, List.length_singleton] at hk
  exact ⟨by omega, List.getElem_append_left _, List.getElem_append_left _⟩

theorem GoesOn.improved_before (htolerance : (Number.int 0).le options.tolerance = true)
    (h : GoesOn options.plan interrupts (d ++ [p]))
    (hfinite : ∀ report ∈ d ++ [p] ++ [q], report.loss.isFinite = true) (k : Nat)
    (hk : k + 2 < (d ++ [p] ++ [q]).length) :
    options.tolerance.le
      (.real ((d ++ [p] ++ [q])[k].loss - (d ++ [p] ++ [q])[k + 1].loss)) = true := by
  obtain ⟨hk', hp, hq⟩ := getElem_before hk
  rw [hp, hq]
  exact h.improved htolerance (fun _ hmem => hfinite _ (List.mem_append_left _ hmem)) hk'

/-- Training whose last loss has risen. -/
theorem stopped_of_rise (htolerance : (Number.int 0).le options.tolerance = true)
    (hfinite : ∀ report ∈ d ++ [p] ++ [q], report.loss.isFinite = true)
    (h : GoesOn options.plan interrupts (d ++ [p]))
    (hlength : (d ++ [p]).length < options.maxEpochs)
    (hrise : Scalar.lt (p.loss - q.loss) Scalar.zero = true) :
    Stopped options initial (d ++ [p] ++ [q])
      ⟨false, weightsAfter initial (d ++ [p]).dropLast, (d ++ [p]).map Report.loss⟩ where
  nonincreasing := nonincreasing_iff.2 fun k hk =>
    h.nonincreasing (fun _ hmem => isNaN_of_finite hfinite _ (List.mem_append_left _ hmem)) hk
  epochs_pos := by simp [Result.epochs]
  epochs_le := by simpa [Result.epochs] using hlength.le
  epochs_eq := rfl
  loss_last := Result.getLast?_losses (by simp)
  improved := h.improved_before htolerance hfinite
  ended := by
    refine .inr ⟨d.length, by simp, ?_⟩
    obtain ⟨-, hp, hq⟩ := getElem_last (d := d) (p := p) (q := q) d.length (by simp)
    rw [hp, hq]
    exact lt_tolerance_of_rise htolerance hrise
  converged_iff := by
    refine iff_of_false nofun ?_
    rintro ⟨k, hk, hle, -⟩
    obtain ⟨-, hp, hq⟩ := getElem_last k hk
    rw [hp, hq, Binary64.le_iff] at hle
    rw [zero_eq] at hrise
    exact absurd (Binary64.lt_iff.1 hrise).2.2 (Int.not_lt.2 hle.2.2)
  risen k hk _ := by
    obtain ⟨rfl, -, -⟩ := getElem_last k hk
    refine ⟨by simp, rfl, ?_⟩
    rw [weightsAfter_dropLast initial (d ++ [p]) [q]]
    simp
  kept hfell := by
    have hlast := hfell d.length (by simp)
    obtain ⟨-, hp, hq⟩ := getElem_last (d := d) (p := p) (q := q) d.length (by simp)
    rw [hp, hq, ← gain_neg (isNaN_of_finite hfinite p (by simp))
      (isNaN_of_finite hfinite q (by simp)), hrise] at hlast
    cases hlast

/-- Training that has converged. -/
theorem stopped_of_settled (htolerance : (Number.int 0).le options.tolerance = true)
    (hfinite : ∀ report ∈ d ++ [p] ++ [q], report.loss.isFinite = true)
    (h : GoesOn options.plan interrupts (d ++ [p]))
    (hlength : (d ++ [p]).length < options.maxEpochs)
    (hfell : Scalar.lt (p.loss - q.loss) Scalar.zero = false)
    (hsettled : (Number.real (p.loss - q.loss)).lt options.tolerance = true) :
    Stopped options initial (d ++ [p] ++ [q])
      ⟨true, q.weights, (d ++ [p] ++ [q]).map Report.loss⟩ where
  nonincreasing := nonincreasing_iff.2 fun k hk => by
    rcases Nat.lt_or_eq_of_le (Nat.succ_le_of_lt hk) with hlt | heq
    · obtain ⟨hk', hp, hq⟩ := getElem_before hlt
      rw [hp, hq]
      exact h.nonincreasing (fun _ hmem => isNaN_of_finite hfinite _
        (List.mem_append_left _ hmem)) hk'
    · obtain ⟨-, hp, hq⟩ := getElem_last k heq
      have hpnan := isNaN_of_finite hfinite p (by simp)
      have hqnan := isNaN_of_finite hfinite q (by simp)
      rw [hp, hq]
      rw [gain_neg hpnan hqnan] at hfell
      exact (Binary64.not_lt hpnan hqnan).1 hfell
  epochs_pos := by simp [Result.epochs]
  epochs_le := by
    rw [Result.epochs, List.length_map, List.length_append, List.length_singleton]
    exact hlength
  epochs_eq := rfl
  loss_last := Result.getLast?_losses (by simp)
  improved := h.improved_before htolerance hfinite
  ended := by
    refine .inr ⟨d.length, by simp, ?_⟩
    obtain ⟨-, hp, hq⟩ := getElem_last (d := d) (p := p) (q := q) d.length (by simp)
    rw [hp, hq]
    exact hsettled
  converged_iff := by
    refine iff_of_true rfl ⟨d.length, by simp, ?_⟩
    obtain ⟨-, hp, hq⟩ := getElem_last (d := d) (p := p) (q := q) d.length (by simp)
    rw [hp, hq]
    exact ⟨zero_le_gain (hfinite p (by simp)) (hfinite q (by simp)) hfell, hsettled⟩
  risen k hk hrise := by
    obtain ⟨-, hp, hq⟩ := getElem_last k hk
    rw [hp, hq, ← gain_neg (isNaN_of_finite hfinite p (by simp))
      (isNaN_of_finite hfinite q (by simp)), hfell] at hrise
    cases hrise
  kept _ := ⟨rfl, by rw [startOf_length, weightsAfter_concat]⟩

/-- What a verdict to end says of the last two epochs. -/
theorem verdictAfter_ne_goOn {done : List (Report Binary64)} {loss : Binary64}
    {plan : Plan Binary64} (h : verdictAfter plan done loss ≠ .goOn) :
    ∃ d p, done = d ++ [p] ∧
      (verdictAfter plan done loss = .risen → Scalar.lt (p.loss - loss) Scalar.zero = true) ∧
      (verdictAfter plan done loss = .settled → Scalar.lt (p.loss - loss) Scalar.zero = false ∧
        plan.settled (p.loss - loss) = true) := by
  rcases List.eq_nil_or_concat done with rfl | ⟨d, p, rfl⟩
  · exact absurd rfl h
  · refine ⟨d, p, by simp, ?_⟩
    rw [List.concat_eq_append, verdictAfter_concat]
    split
    · simp_all
    · split <;> simp_all

theorem Ending.stopped (hmax : 1 ≤ options.maxEpochs)
    (htolerance : (Number.int 0).le options.tolerance = true)
    (hfinite : ∀ report ∈ reports, report.loss.isFinite = true)
    (h : Ending options.plan gauge examples interrupts initial reports weights (.ok r)) :
    Stopped options initial reports r := by
  cases h with
  | exhausted hgoesOn hlength => exact stopped_of_exhausted hmax htolerance hfinite hgoesOn hlength
  | risen hgoesOn hlength _ hverdict =>
      obtain ⟨d, p, rfl, hrise, -⟩ := verdictAfter_ne_goOn (hverdict.trans_ne (by simp))
      exact stopped_of_rise htolerance hfinite hgoesOn hlength (hrise hverdict)
  | settled hgoesOn hlength _ hverdict =>
      obtain ⟨d, p, rfl, -, hsettled⟩ := verdictAfter_ne_goOn (hverdict.trans_ne (by simp))
      exact stopped_of_settled htolerance hfinite hgoesOn hlength (hsettled hverdict).1
        (hsettled hverdict).2

end Stopped

/-- Training that came to a result, with finite losses all the way, followed
the stopping rule. -/
theorem fitWith_stopped {compile : Compile} {net : Network} {s : Settings}
    {examples : List (Example Binary64)} {observer : Observer} {r : Result Binary64}
    (hcompile : Compiles compile)
    (hfinished : (fitWith compile net s examples observer).finished = some r)
    (hfinite : ∀ report ∈ (fitWith compile net s examples observer).reports,
      report.loss.isFinite = true) :
    ∃ options gauge names, checked net s examples = .ok options ∧
      (compile net).1 = .ok (gauge, names) ∧
      Course options.plan gauge examples net.weightValues
        (fitWith compile net s examples observer).reports ∧
      Stopped options net.weightValues (fitWith compile net s examples observer).reports r ∧
      (fitWith compile net s examples observer).network.weightValues = r.weights := by
  obtain ⟨options, gauge, names, hchecked, hcompiled, hcourse, hending, hweights⟩ :=
    fitWith_finished hcompile hfinished
  obtain ⟨hmax, htolerance, -⟩ := checked_sound hchecked
  exact ⟨options, gauge, names, hchecked, hcompiled, hcourse,
    hending.stopped hmax htolerance hfinite, hweights⟩

/-- Losses of one, a quarter and a sixteenth, with a tolerance of one half: the
third epoch is the first that gains less. -/
theorem fitWith_stopped_line :
    let s := lineSettings (Binary64.ofRatio false 1 8) Binary64.half .epoch
    let fit := fitWith compileLine line s [onAxis] .silent
    let weights := [Binary64.ofRatio false 9 16, Binary64.ofRatio true 7 16]
    let losses := [Binary64.one, Binary64.ofRatio false 1 4, Binary64.ofRatio false 1 16]
    Compiles compileLine ∧ fit.finished = some ⟨true, weights, losses⟩ ∧
      (∀ report ∈ fit.reports, report.loss.isFinite = true) ∧
      ∃ options, checked line s [onAxis] = .ok options ∧
        Stopped options line.weightValues fit.reports ⟨true, weights, losses⟩ := by
  intro s fit weights losses
  have hfinished : fit.finished = some ⟨true, weights, losses⟩ := by decide +kernel
  have hfinite : ∀ report ∈ fit.reports, report.loss.isFinite = true := by decide +kernel
  obtain ⟨options, -, -, hchecked, -, -, hstopped, -⟩ :=
    fitWith_stopped compiles_compileLine hfinished hfinite
  exact ⟨compiles_compileLine, hfinished, hfinite, options, hchecked, hstopped⟩

end Gantry.Training
