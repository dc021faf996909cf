import Gantry.Proofs.Training.Exactness

/-!
Training by whole epochs does not depend on the order of its examples. Within an epoch the weights
stay, so all that an example does is to add its loss and its gradient; in exact arithmetic sums do
not depend on the order, and so every epoch ends alike, and the whole run.
-/

namespace Gantry.Training

variable {α : Type}

/-- All that training leaves behind, except for what a failure says. -/
def Run.returned (run : Run α) : List α × List (Report α) × Option (Result α) :=
  (run.weights, run.reports, run.outcome.toOption)

/-- Two results that are the same but for what a failure says. -/
theorem toOption_eq_cases {ε β : Type} {x y : Except ε β} (h : x.toOption = y.toOption) :
    (∃ f g, x = .error f ∧ y = .error g) ∨ ∃ b, x = .ok b ∧ y = .ok b := by
  rcases x with f | b <;> rcases y with g | c
  · exact .inl ⟨f, g, rfl, rfl⟩
  · cases h
  · cases h
  · cases h
    exact .inr ⟨b, rfl, rfl⟩

theorem Run.returned_report {r : Report α} {run run' : Run α} (h : run.returned = run'.returned) :
    (run.report r).returned = (run'.report r).returned := by
  obtain ⟨hweights, hreports, houtcome⟩ : run.weights = run'.weights ∧
      run.reports = run'.reports ∧ run.outcome.toOption = run'.outcome.toOption := by
    simpa [returned] using h
  simp [returned, report, hweights, hreports, houtcome]

/-! ### One epoch -/

section Sums

variable [Scalar α]

/-- What an example adds to an epoch that leaves the weights alone. -/
def Sweep.add (s : Sweep α) (loss : α) (gradient : List α) : Sweep α :=
  { s with total := s.total + loss, gradient := List.zipWith (· + ·) s.gradient gradient }

/-- Adds an example to an epoch, as long as it can be measured. -/
def gather (gauge : Gauge α) (s? : Option (Sweep α)) (e : Example α) : Option (Sweep α) :=
  s?.bind fun s => (gauge s.weights e).toOption.map fun measured => s.add measured.1 measured.2

/-- The weights and the mean loss that an epoch ends with, if only their mean moves the weights. -/
def Sweep.ended (rate : α) (count : Nat) (s : Sweep α) : List α × α :=
  (step rate s.weights (s.gradient.map (· / Scalar.ofNat count)), s.total / Scalar.ofNat count)

end Sums

section Exact

attribute [local instance] Scalar.ofField

variable {K : Type} [Field K] [LinearOrder K] {gauge : Gauge K} {examples examples' : List (Example K)}
  {a b e : Example K} {s : Sweep K} {s? : Option (Sweep K)} {rate : K} {start weights : List K}
  {epoch i : Nat} {halt : Halt K}

theorem Sweep.toOption_take :
    (s.take gauge false epoch rate start i e).toOption = gather gauge (some s) e := by
  rw [take, gather, Option.bind_some]
  cases gauge s.weights e with
  | error f => rfl
  | ok measured =>
      dsimp only
      rw [Scalar.allFinite_ofField]
      rfl

theorem foldl_gather_none (examples : List (Example K)) :
    examples.foldl (gather gauge) none = none := by
  induction examples with
  | nil => rfl
  | cons e examples ih => exact ih

theorem Sweep.toOption_takeAll : (s.takeAll gauge false epoch rate start i examples).toOption =
    examples.foldl (gather gauge) (some s) := by
  induction examples generalizing i s with
  | nil => rfl
  | cons e examples ih =>
      have htake : (s.take gauge false epoch rate start i e).toOption = gather gauge (some s) e :=
        toOption_take
      rw [List.foldl_cons, takeAll, ← htake]
      cases s.take gauge false epoch rate start i e with
      | error h => exact (foldl_gather_none examples).symm
      | ok s' => exact ih

theorem zipWith_add_right_comm {α : Type} [AddCommSemigroup α] (xs ys zs : List α) :
    List.zipWith (· + ·) (List.zipWith (· + ·) xs ys) zs =
      List.zipWith (· + ·) (List.zipWith (· + ·) xs zs) ys := by
  induction xs generalizing ys zs with
  | nil => rfl
  | cons x xs ih =>
      cases ys <;> cases zs <;> simp [ih, add_right_comm]

theorem Sweep.add_swap (x y : K) (xs ys : List K) :
    (s.add x xs).add y ys = (s.add y ys).add x xs := by
  simp only [add, zipWith_add_right_comm s.gradient xs ys, add_right_comm]

theorem gather_right_comm :
    gather gauge (gather gauge s? a) b = gather gauge (gather gauge s? b) a := by
  cases s? with
  | none => rfl
  | some s =>
      have hweights (x : K) (xs : List K) : (s.add x xs).weights = s.weights := rfl
      simp only [gather, Option.bind_some]
      cases ha : gauge s.weights a with
      | error f => cases hb : gauge s.weights b <;> simp [Except.toOption, hweights, ha]
      | ok measured =>
          cases hb : gauge s.weights b with
          | error f => simp [Except.toOption, hweights, hb]
          | ok measured' => simp [Except.toOption, hweights, ha, hb, Sweep.add_swap measured.1]

/-- The examples of an epoch may be taken in in any order. -/
theorem Sweep.toOption_takeAll_perm (h : examples.Perm examples') :
    (s.takeAll gauge false epoch rate start i examples).toOption =
      (s.takeAll gauge false epoch rate start i examples').toOption := by
  rw [toOption_takeAll, toOption_takeAll]
  exact h.foldl_eq' (fun _ _ _ _ _ => gather_right_comm) (some s)

theorem toOption_runEpoch : (runEpoch gauge false examples epoch rate start).toOption =
    ((Sweep.start start).takeAll gauge false epoch rate start 0 examples).toOption.map
      (Sweep.ended rate examples.length) := by
  unfold runEpoch
  cases (Sweep.start start).takeAll gauge false epoch rate start 0 examples with
  | error h => rfl
  | ok s =>
      dsimp only
      rw [Scalar.allFinite_ofField]
      rfl

theorem runEpoch_perm (h : examples.Perm examples') :
    (runEpoch gauge false examples epoch rate start).toOption =
      (runEpoch gauge false examples' epoch rate start).toOption := by
  rw [toOption_runEpoch, toOption_runEpoch, Sweep.toOption_takeAll_perm h, h.length_eq]

/-- An epoch that halts leaves the weights it started from. -/
theorem weights_of_runEpoch_eq_error
    (h : runEpoch gauge false examples epoch rate start = .error halt) : halt.weights = start := by
  obtain hall | ⟨-, rfl, -⟩ := runEpoch_halts h
  · obtain ⟨before, e, behind, s, -, hbefore, hbreak⟩ := Sweep.takeAll_eq_error_iff.1 hall
    cases hbreak with
    | fault => exact Sweep.takeAll_weights hbefore
    | measure => rfl
    | update heach => cases heach
  · rfl

/-! ### All epochs -/

theorem runEpochs_perm {plan : Plan K} {interrupts : Nat → Bool} (hmode : plan.eachExample = false)
    (h : examples.Perm examples') (remaining epoch : Nat) (previous losses weights : List K) :
    (runEpochs plan gauge examples interrupts remaining epoch previous losses weights).returned =
      (runEpochs plan gauge examples' interrupts remaining epoch previous losses weights).returned := by
  induction remaining generalizing epoch previous losses weights with
  | zero => rfl
  | succ remaining ih =>
      rw [runEpochs, runEpochs, hmode]
      cases plan.rate epoch with
      | error f => rfl
      | ok rate =>
          have hepoch : (runEpoch gauge false examples epoch rate weights).toOption =
            (runEpoch gauge false examples' epoch rate weights).toOption := runEpoch_perm h
          dsimp only
          obtain ⟨halt, halt', hrun, hrun'⟩ | ⟨⟨after, loss⟩, hrun, hrun'⟩ :=
            toOption_eq_cases hepoch
          · have hsame : halt.weights = halt'.weights :=
              (weights_of_runEpoch_eq_error hrun).trans (weights_of_runEpoch_eq_error hrun').symm
            rw [hrun, hrun']
            simp only [Run.returned, Halt.asRun, hsame]
            rfl
          · rw [hrun, hrun']
            refine Run.returned_report ?_
            split
            · rfl
            · split
              · rfl
              · rfl
              · exact ih (epoch + 1) _ _ _

/-! ### Training -/

theorem toOption_checked_perm {net : Network} {s : Settings} {es es' : List (Example Binary64)}
    (h : es.Perm es') : (checked net s es).toOption = (checked net s es').toOption := by
  refine Option.ext fun options => ?_
  rw [toOption_eq_some_iff, toOption_eq_some_iff, checked_eq_ok_iff, checked_eq_ok_iff]
  have hnil : es = [] ↔ es' = [] := ⟨fun hes => (hes ▸ h).nil_eq.symm, fun hes => (hes ▸ h).eq_nil⟩
  simp only [ne_eq, hnil, h.mem_iff]

theorem update_of_check {s : Settings} {options : Options} (h : s.check = .ok options)
    (hupdate : s.update = .text Update.epoch.name) : options.update = .epoch := by
  unfold Settings.check at h
  obtain ⟨maxEpochs, -, h⟩ := Formula.bind_eq_ok_iff.1 h
  obtain ⟨tolerance, -, h⟩ := Formula.bind_eq_ok_iff.1 h
  obtain ⟨rate, -, h⟩ := Formula.bind_eq_ok_iff.1 h
  obtain ⟨update, hchecked, h⟩ := Formula.bind_eq_ok_iff.1 h
  have hofName : s.checkUpdate = .ok .epoch := by
    unfold Settings.checkUpdate
    rw [hupdate]
    dsimp only
    rw [Update.ofName?_name]
  cases hofName.symm.trans hchecked
  cases h
  rfl

end Exact

end Gantry.Training

namespace Gantry.Numerics

open Training

attribute [local instance] Scalar.ofField

variable {K : Type} [Field K] [LinearOrder K] {ε β : Type}

/-- Training that moves the weights once an epoch comes to the same weights, reports and result, in
whatever order its examples are given. -/
theorem fit_perm (R : Numerics ε β K) (net : Network) (s : Settings)
    (hupdate : s.update = .text Update.epoch.name) {examples examples' : List (Example K)}
    (h : examples.Perm examples') (observer : Observer) (weights : List K) :
    (R.fit net s examples observer weights).toOption.map Run.returned =
      (R.fit net s examples' observer weights).toOption.map Run.returned := by
  have hchecked : (checked net s (examples.map Example.outline)).toOption =
      (checked net s (examples'.map Example.outline)).toOption :=
    toOption_checked_perm (h.map Example.outline)
  unfold fit
  obtain ⟨f, f', hok, hok'⟩ | ⟨options, hok, hok'⟩ := toOption_eq_cases hchecked
  · rw [hok, hok']
    rfl
  · have hmode : (R.plan options).eachExample = false := by
      rw [plan, update_of_check (checked_eq_ok_iff.1 hok).1 hupdate]
      rfl
    rw [hok, hok']
    dsimp only
    cases R.measure net with
    | error f => rfl
    | ok measured =>
        dsimp only
        split
        · rfl
        · exact congrArg some (runEpochs_perm hmode h _ 0 [] [] weights)

/-- Points that a line cannot pass through at once. -/
def points : List (Example ℚ) := [⟨[0], [1]⟩, ⟨[1], [0]⟩, ⟨[2], [3]⟩]

/-- Three points in two orders: either run comes to a result, and to the same one. -/
theorem fit_perm_points :
    (lineSettings .half .zero .epoch).update = .text Update.epoch.name ∧
      points.Perm points.reverse ∧
      ∃ run r run', exact.fit line (lineSettings .half .zero .epoch) points .silent [1, 0] = .ok run ∧
        run.outcome = .ok r ∧
        exact.fit line (lineSettings .half .zero .epoch) points.reverse .silent [1, 0] = .ok run' ∧
        run'.returned = run.returned := by
  have hperm : points.Perm points.reverse := points.reverse_perm.symm
  have hchecked : checked line (lineSettings .half .zero .epoch) (points.map Example.outline) =
      .ok ⟨5, .real .zero, .constant (.ofReal .half), .epoch⟩ := rfl
  obtain ⟨gauge, hmeasure, hmeasures⟩ := exists_exact_measure_line
  have hweights : ([1, 0] : List ℚ).length = line.weights.length := rfl
  have hsilent : ∀ k, Observer.silent.interruptsAfter k = false := fun _ => rfl
  obtain ⟨run, r, hrun, hr⟩ := exists_exact_result hmeasure hmeasures hchecked hweights
    (fun k => ⟨.half, rfl⟩) hsilent
  have hsame := fit_perm exact line (lineSettings .half .zero .epoch) rfl hperm .silent [1, 0]
  rw [hrun] at hsame
  cases hrun' : exact.fit line (lineSettings .half .zero .epoch) points.reverse .silent [1, 0] with
  | error f =>
      rw [hrun'] at hsame
      cases hsame
  | ok run' =>
      rw [hrun'] at hsame
      exact ⟨rfl, hperm, run, r, run', hrun, hr, rfl, (Option.some.inj hsame).symm⟩

end Gantry.Numerics
