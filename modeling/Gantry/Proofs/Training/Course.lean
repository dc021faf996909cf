import Gantry.Proofs.Training.Epoch

/-!
The course of training. Each epoch starts from the weights that the epochs
before have reported, so the reports alone say where every epoch began. A loop
invariant ties what the loop carries to the reports so far, and gives the six
ways in which training can end.
-/

namespace Gantry.Training

variable {α : Type}

/-! ### Boundaries of epochs -/

/-- The weights that reported epochs have led to. -/
def weightsAfter (initial : List α) (reports : List (Report α)) : List α :=
  (reports.getLast?.map Report.weights).getD initial

/-- The weights that an epoch starts from. -/
def startOf (initial : List α) (reports : List (Report α)) (k : Nat) : List α :=
  weightsAfter initial (reports.take k)

@[simp] theorem weightsAfter_nil (initial : List α) : weightsAfter initial [] = initial := rfl

@[simp] theorem weightsAfter_concat (initial : List α) (reports : List (Report α)) (r : Report α) :
    weightsAfter initial (reports ++ [r]) = r.weights := by
  simp [weightsAfter]

theorem startOf_length (initial : List α) (reports : List (Report α)) :
    startOf initial reports reports.length = weightsAfter initial reports := by
  rw [startOf, List.take_length]

theorem startOf_succ (initial : List α) {reports : List (Report α)} {k : Nat}
    (hk : k < reports.length) : startOf initial reports (k + 1) = reports[k].weights := by
  rw [startOf, List.take_succ_eq_append_getElem hk, weightsAfter_concat]

theorem startOf_append {initial : List α} {reports more : List (Report α)} {k : Nat}
    (hk : k ≤ reports.length) :
    startOf initial (reports ++ more) k = startOf initial reports k := by
  rw [startOf, List.take_append_of_le_length hk, startOf]

theorem weightsAfter_dropLast (initial : List α) (done more : List (Report α)) :
    weightsAfter initial done.dropLast = startOf initial (done ++ more) (done.length - 1) := by
  rw [startOf_append (Nat.sub_le ..), startOf, List.dropLast_eq_take]

variable [Scalar α]

section Epochs

variable (plan : Plan α) (gauge : Gauge α) (examples : List (Example α)) (interrupts : Nat → Bool)
  (initial : List α)

/-- Each report tells of an epoch that ran to its end, from the weights where
the epoch before left off. -/
def Course (reports : List (Report α)) : Prop :=
  ∀ k (_ : k < reports.length), reports[k].epoch = k ∧ plan.rate k = .ok reports[k].rate ∧
    runEpoch gauge plan.eachExample examples k reports[k].rate (startOf initial reports k) =
      .ok (reports[k].weights, reports[k].loss)

/-- What the loss of an epoch meant for training. -/
def verdictAfter (reports : List (Report α)) (loss : α) : Verdict :=
  verdict plan.settled (reports.map Report.loss).reverse loss

/-- After none of the epochs there was a reason to end. -/
def GoesOn (reports : List (Report α)) : Prop :=
  ∀ k (_ : k < reports.length), interrupts k = false ∧
    verdictAfter plan (reports.take k) reports[k].loss = .goOn

/-- What the loop carries when it comes to its next epoch. -/
structure Underway (done : List (Report α)) (previous losses weights : List α) : Prop where
  course : Course plan gauge examples initial done
  goesOn : GoesOn plan interrupts done
  losses : losses = (done.map Report.loss).reverse
  weights : weights = weightsAfter initial done
  previous : done ≠ [] → previous = weightsAfter initial done.dropLast

/-- The ends of training: what had been reported, the weights it left and its outcome. -/
inductive Ending : List (Report α) → List α → Except (Stop α) (Result α) → Prop
  | exhausted {done : List (Report α)} :
      GoesOn plan interrupts done → done.length = plan.maxEpochs →
      Ending done (weightsAfter initial done)
        (.ok ⟨false, weightsAfter initial done, done.map Report.loss⟩)
  | unrated {done : List (Report α)} {f : Fault} :
      GoesOn plan interrupts done → done.length < plan.maxEpochs →
      plan.rate done.length = .error f →
      Ending done (weightsAfter initial done) (.error (.fault f))
  | halted {done : List (Report α)} {rate : α} {h : Halt α} :
      GoesOn plan interrupts done → done.length < plan.maxEpochs →
      plan.rate done.length = .ok rate →
      runEpoch gauge plan.eachExample examples done.length rate (weightsAfter initial done) =
        .error h →
      Ending done h.weights (.error h.stop)
  | interrupted {done : List (Report α)} {r : Report α} :
      GoesOn plan interrupts done → done.length < plan.maxEpochs →
      interrupts done.length = true →
      Ending (done ++ [r]) r.weights (.error .interrupted)
  | risen {done : List (Report α)} {r : Report α} :
      GoesOn plan interrupts done → done.length < plan.maxEpochs →
      interrupts done.length = false → verdictAfter plan done r.loss = .risen →
      Ending (done ++ [r]) (weightsAfter initial done.dropLast)
        (.ok ⟨false, weightsAfter initial done.dropLast, done.map Report.loss⟩)
  | settled {done : List (Report α)} {r : Report α} :
      GoesOn plan interrupts done → done.length < plan.maxEpochs →
      interrupts done.length = false → verdictAfter plan done r.loss = .settled →
      Ending (done ++ [r]) r.weights
        (.ok ⟨true, r.weights, (done ++ [r]).map Report.loss⟩)

end Epochs

variable {plan : Plan α} {gauge : Gauge α} {examples : List (Example α)} {interrupts : Nat → Bool}
  {initial previous losses weights : List α} {done : List (Report α)} {r : Report α}

theorem Course.concat (h : Course plan gauge examples initial done)
    (hepoch : r.epoch = done.length) (hrate : plan.rate done.length = .ok r.rate)
    (hrun : runEpoch gauge plan.eachExample examples done.length r.rate
      (weightsAfter initial done) = .ok (r.weights, r.loss)) :
    Course plan gauge examples initial (done ++ [r]) := by
  intro k hk
  rw [List.length_append, List.length_singleton] at hk
  rcases Nat.lt_succ_iff_lt_or_eq.1 hk with hlt | rfl
  · rw [startOf_append (Nat.le_of_lt hlt)]
    simpa [hlt] using h k hlt
  · rw [startOf_append (Nat.le_refl _), startOf_length]
    simpa using ⟨hepoch, hrate, hrun⟩

theorem GoesOn.concat (h : GoesOn plan interrupts done)
    (hinterrupts : interrupts done.length = false)
    (hverdict : verdictAfter plan done r.loss = .goOn) :
    GoesOn plan interrupts (done ++ [r]) := by
  intro k hk
  rw [List.length_append, List.length_singleton] at hk
  rcases Nat.lt_succ_iff_lt_or_eq.1 hk with hlt | rfl
  · rw [List.take_append_of_le_length (Nat.le_of_lt hlt)]
    simpa [hlt] using h k hlt
  · simpa using ⟨hinterrupts, hverdict⟩

theorem runEpochs_ending {remaining : Nat}
    (h : Underway plan gauge examples interrupts initial done previous losses weights)
    (hmax : done.length + remaining = plan.maxEpochs) :
    let run :=
      runEpochs plan gauge examples interrupts remaining done.length previous losses weights
    Course plan gauge examples initial (done ++ run.reports) ∧
      Ending plan gauge examples interrupts initial (done ++ run.reports) run.weights
        run.outcome := by
  -- On the epochs that are left; what one of them does to the loop keeps it under way or ends it.
  induction remaining generalizing done previous losses weights with
  | zero =>
      obtain ⟨hcourse, hgoesOn, rfl, rfl, -⟩ := h
      simp only [runEpochs, finish, List.append_nil, List.reverse_reverse]
      exact ⟨hcourse, .exhausted hgoesOn hmax⟩
  | succ remaining ih =>
      obtain ⟨hcourse, hgoesOn, rfl, rfl, hprevious⟩ := h
      have hlt : done.length < plan.maxEpochs := by omega
      cases hrate : plan.rate done.length with
      | error f =>
          simp only [runEpochs, hrate, Halt.asRun, List.append_nil]
          exact ⟨hcourse, .unrated hgoesOn hlt hrate⟩
      | ok rate =>
          cases hrun : runEpoch gauge plan.eachExample examples done.length rate
              (weightsAfter initial done) with
          | error h =>
              simp only [runEpochs, hrate, hrun, Halt.asRun, List.append_nil]
              exact ⟨hcourse, .halted hgoesOn hlt hrate hrun⟩
          | ok result =>
              obtain ⟨after, loss⟩ := result
              have hnext := hcourse.concat (r := ⟨done.length, loss, rate, after⟩) rfl hrate hrun
              cases hinterrupts : interrupts done.length with
              | true =>
                  simp only [runEpochs, hrate, hrun, hinterrupts, if_true, Run.report, Halt.asRun]
                  exact ⟨hnext, .interrupted hgoesOn hlt hinterrupts⟩
              | false =>
                  simp only [runEpochs, hrate, hrun, hinterrupts, Bool.false_eq_true, if_false,
                    Run.report]
                  cases hverdict : verdict plan.settled (done.map Report.loss).reverse loss with
                  | risen =>
                      -- The first loss cannot have risen, so there are weights to go back to.
                      have hne : done ≠ [] := by
                        rintro rfl
                        cases hverdict
                      simp only [finish, List.reverse_reverse, hprevious hne]
                      exact ⟨hnext, .risen hgoesOn hlt hinterrupts hverdict⟩
                  | settled =>
                      have hend : Ending plan gauge examples interrupts initial _ _ _ :=
                        .settled (r := ⟨done.length, loss, rate, after⟩) hgoesOn hlt hinterrupts
                          hverdict
                      rw [List.map_append] at hend
                      simp only [finish, List.reverse_cons, List.reverse_reverse]
                      exact ⟨hnext, hend⟩
                  | goOn =>
                      have hunderway : Underway plan gauge examples interrupts initial
                          (done ++ [⟨done.length, loss, rate, after⟩]) (weightsAfter initial done)
                          (loss :: (done.map Report.loss).reverse) after :=
                        ⟨hnext, hgoesOn.concat hinterrupts hverdict, by simp, by simp, by simp⟩
                      have hrest := ih hunderway (by simp; omega)
                      simpa [List.append_assoc] using hrest

/-- Every run of training follows a course and comes to one of its ends. -/
theorem descend_ending (plan : Plan α) (gauge : Gauge α) (examples : List (Example α))
    (interrupts : Nat → Bool) (initial : List α) :
    let run := descend plan gauge examples interrupts initial
    Course plan gauge examples initial run.reports ∧
      Ending plan gauge examples interrupts initial run.reports run.weights run.outcome :=
  have hstart : Underway plan gauge examples interrupts initial [] [] [] initial :=
    ⟨nofun, nofun, rfl, rfl, nofun⟩
  runEpochs_ending hstart (Nat.zero_add _)

/-! ### What every course and every ending have -/

variable {reports : List (Report α)} {k n : Nat}

/-- No epoch changes the number of weights. -/
theorem Course.length_startOf (h : Course plan gauge examples initial reports)
    (hfits : gauge.Fits n) (hinitial : initial.length = n) (hk : k ≤ reports.length) :
    (startOf initial reports k).length = n := by
  induction k with
  | zero => exact hinitial
  | succ k ih =>
      rw [startOf_succ initial hk]
      exact runEpoch_length hfits (ih (Nat.le_of_succ_le hk)) (h k hk).2.2

/-- However training ends, it leaves as many weights as it began with. -/
theorem Ending.length_eq {outcome : Except (Stop α) (Result α)}
    (h : Ending plan gauge examples interrupts initial reports weights outcome)
    (hcourse : Course plan gauge examples initial reports) (hfits : gauge.Fits n)
    (hinitial : initial.length = n) : weights.length = n := by
  have hstart {k : Nat} (hk : k ≤ reports.length) := hcourse.length_startOf hfits hinitial hk
  have hlast := hstart (Nat.le_refl _)
  rw [startOf_length] at hlast
  cases h with
  | exhausted => exact hlast
  | unrated => exact hlast
  | halted _ _ _ hrun => exact length_of_runEpoch_eq_error hfits hlast hrun
  | interrupted => rwa [weightsAfter_concat] at hlast
  | @risen done r =>
      rw [weightsAfter_dropLast initial done [r]]
      exact hstart (by simp; omega)
  | settled => rwa [weightsAfter_concat] at hlast

theorem length_weights_descend (plan : Plan α) (examples : List (Example α))
    (interrupts : Nat → Bool) (hfits : gauge.Fits n) (hinitial : initial.length = n) :
    (descend plan gauge examples interrupts initial).weights.length = n := by
  obtain ⟨hcourse, hending⟩ := descend_ending plan gauge examples interrupts initial
  exact hending.length_eq hcourse hfits hinitial

/-- Training that comes to a result leaves the weights of the result, which
are those of a boundary. -/
theorem Ending.weights_of_ok {result : Result α}
    (h : Ending plan gauge examples interrupts initial reports weights (.ok result)) :
    result.weights = weights ∧ ∃ k ≤ reports.length, weights = startOf initial reports k := by
  cases h with
  | exhausted => exact ⟨rfl, _, Nat.le_refl _, (startOf_length ..).symm⟩
  | @risen done _ => exact ⟨rfl, done.length - 1, by simp; omega, weightsAfter_dropLast ..⟩
  | settled =>
      refine ⟨rfl, _, Nat.le_refl _, ?_⟩
      rw [startOf_length, weightsAfter_concat]

end Gantry.Training
