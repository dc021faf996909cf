import Gantry.Training.Descent

/-!
One epoch. It takes in its examples in order, up to the first that does not go
through. Numbers that run out of range halt it with the weights it started
from, whatever the examples before have made of them; only an error of the
measure itself leaves the weights of the middle of an epoch.
-/

namespace Gantry.Training

variable {α : Type} [Scalar α] {gauge : Gauge α} {each : Bool} {examples : List (Example α)}
  {epoch i : Nat} {rate loss : α} {start after : List α} {s s' : Sweep α} {e : Example α}
  {h : Halt α}

/-! ### What a gauge gives -/

/-- Gradients have an entry for every weight. -/
def Gauge.Fits (gauge : Gauge α) (n : Nat) : Prop :=
  ∀ weights e loss gradient, weights.length = n → gauge weights e = .ok (loss, gradient) →
    gradient.length = n

/-- Examples have a loss and a gradient at all weights, which may be out of range. -/
def Gauge.Answers (gauge : Gauge α) (n : Nat) (examples : List (Example α)) : Prop :=
  ∀ weights e, weights.length = n → e ∈ examples →
    ∃ loss gradient, gauge weights e = .ok (loss, gradient)

/-! ### Single examples -/

/-- How an example stops an epoch that is under way. -/
inductive Sweep.Breaks (gauge : Gauge α) (each : Bool) (epoch : Nat) (rate : α) (start : List α)
    (i : Nat) (e : Example α) (s : Sweep α) : Halt α → Prop
  | fault {f : Fault} :
      gauge s.weights e = .error f →
      s.Breaks gauge each epoch rate start i e ⟨.fault f, s.weights⟩
  | measure {loss : α} {gradient : List α} :
      gauge s.weights e = .ok (loss, gradient) →
      (Scalar.isFinite loss && Scalar.allFinite gradient) = false →
      s.Breaks gauge each epoch rate start i e ⟨.diverged .measure epoch (some i) start, start⟩
  | update {loss : α} {gradient : List α} :
      each = true → gauge s.weights e = .ok (loss, gradient) →
      (Scalar.isFinite loss && Scalar.allFinite gradient) = true →
      Scalar.allFinite (step rate s.weights gradient) = false →
      s.Breaks gauge each epoch rate start i e ⟨.diverged .update epoch (some i) start, start⟩

theorem Sweep.take_eq_error_iff :
    s.take gauge each epoch rate start i e = .error h ↔
      s.Breaks gauge each epoch rate start i e h := by
  constructor
  · intro hbreak
    cases hgauge : gauge s.weights e with
    | error f =>
        simp only [take, hgauge, Except.error.injEq] at hbreak
        exact hbreak ▸ .fault hgauge
    | ok measured =>
        obtain ⟨loss, gradient⟩ := measured
        cases hfinite : Scalar.isFinite loss && Scalar.allFinite gradient with
        | false =>
            simp only [take, hgauge, hfinite, Bool.not_false, if_true, Except.error.injEq] at hbreak
            exact hbreak ▸ .measure hgauge hfinite
        | true =>
            simp only [take, hgauge, hfinite, Bool.not_true, Bool.false_eq_true, if_false] at hbreak
            split at hbreak
            · rename_i heach
              cases hupdate : Scalar.allFinite (step rate s.weights gradient) with
              | false =>
                  simp only [hupdate, Bool.false_eq_true, if_false, Except.error.injEq] at hbreak
                  exact hbreak ▸ .update heach hgauge hfinite hupdate
              | true => simp [hupdate] at hbreak
            · cases hbreak
  · rintro (hgauge | ⟨hgauge, hfinite⟩ | ⟨rfl, hgauge, hfinite, hupdate⟩)
    · simp only [take, hgauge]
    · simp [take, hgauge, hfinite]
    · simp [take, hgauge, hfinite, hupdate]

/-- What an example that goes through does to an epoch. -/
theorem Sweep.take_eq_ok (hs : s.take gauge each epoch rate start i e = .ok s') :
    ∃ loss gradient, gauge s.weights e = .ok (loss, gradient) ∧
      Scalar.isFinite loss = true ∧ s'.total = s.total + loss ∧
      (each = true → s'.weights = step rate s.weights gradient ∧ s'.gradient = s.gradient) ∧
      (each = false → s'.weights = s.weights ∧
        s'.gradient = List.zipWith (· + ·) s.gradient gradient) := by
  cases hgauge : gauge s.weights e with
  | error f => simp [take, hgauge] at hs
  | ok measured =>
      obtain ⟨loss, gradient⟩ := measured
      refine ⟨loss, gradient, rfl, ?_⟩
      cases hfinite : Scalar.isFinite loss && Scalar.allFinite gradient with
      | false => simp [take, hgauge, hfinite] at hs
      | true =>
          simp only [take, hgauge, hfinite, Bool.not_true, Bool.false_eq_true, if_false] at hs
          rw [Bool.and_eq_true] at hfinite
          cases each with
          | true =>
              simp only [if_true] at hs
              split at hs
              · cases hs
                exact ⟨hfinite.1, rfl, fun _ => ⟨rfl, rfl⟩, nofun⟩
              · cases hs
          | false =>
              cases hs
              exact ⟨hfinite.1, rfl, nofun, fun _ => ⟨rfl, rfl⟩⟩

/-! ### All examples -/

theorem Sweep.takeAll_append (before behind : List (Example α)) :
    s.takeAll gauge each epoch rate start i (before ++ behind) =
      match s.takeAll gauge each epoch rate start i before with
      | .error h => .error h
      | .ok s' => s'.takeAll gauge each epoch rate start (i + before.length) behind := by
  induction before generalizing i s with
  | nil => rfl
  | cons e before ih =>
      rw [List.cons_append, takeAll, takeAll]
      cases s.take gauge each epoch rate start i e with
      | error h => rfl
      | ok s' =>
          rw [List.length_cons, Nat.add_comm before.length, ← Nat.add_assoc]
          exact ih

/-- The examples halt an epoch at the first that does not go through. -/
theorem Sweep.takeAll_eq_error_iff :
    s.takeAll gauge each epoch rate start i examples = .error h ↔
      ∃ before e behind s', examples = before ++ e :: behind ∧
        s.takeAll gauge each epoch rate start i before = .ok s' ∧
        s'.Breaks gauge each epoch rate start (i + before.length) e h := by
  constructor
  · intro hhalt
    -- Either the first example breaks the epoch, or it is among those before the one that does.
    induction examples generalizing i s with
    | nil => cases hhalt
    | cons e examples ih =>
        rw [takeAll] at hhalt
        cases htake : s.take gauge each epoch rate start i e with
        | error h' =>
            rw [htake] at hhalt
            cases hhalt
            exact ⟨[], e, examples, s, rfl, rfl, take_eq_error_iff.1 htake⟩
        | ok s₁ =>
            rw [htake] at hhalt
            obtain ⟨before, e', behind, s', hsplit, hbefore, hbreak⟩ := ih hhalt
            refine ⟨e :: before, e', behind, s', by rw [hsplit, List.cons_append], ?_, ?_⟩
            · rw [takeAll, htake]
              exact hbefore
            · rwa [List.length_cons, Nat.add_comm before.length, ← Nat.add_assoc]
  · rintro ⟨before, e, behind, s', rfl, hbefore, hbreak⟩
    rw [takeAll_append, hbefore]
    simp only [takeAll, take_eq_error_iff.2 hbreak]

/-- A property of an epoch under way that every example keeps. -/
theorem Sweep.takeAll_induction {motive : Sweep α → Prop} (hs : motive s)
    (htake : ∀ {i e s s'}, motive s → s.take gauge each epoch rate start i e = .ok s' → motive s')
    (hall : s.takeAll gauge each epoch rate start i examples = .ok s') : motive s' := by
  induction examples generalizing i s with
  | nil =>
      cases hall
      exact hs
  | cons e examples ih =>
      rw [takeAll] at hall
      cases hstep : s.take gauge each epoch rate start i e with
      | error h => simp [hstep] at hall
      | ok s₁ =>
          rw [hstep] at hall
          exact ih (htake hs hstep) hall

/-- Weights and gradient keep their lengths. -/
theorem Sweep.takeAll_length {n : Nat} (hfits : gauge.Fits n) (hw : s.weights.length = n)
    (hg : s.gradient.length = n)
    (hall : s.takeAll gauge each epoch rate start i examples = .ok s') :
    s'.weights.length = n ∧ s'.gradient.length = n := by
  refine takeAll_induction (motive := fun s => s.weights.length = n ∧ s.gradient.length = n)
    ⟨hw, hg⟩ (fun {i e s s'} hs htake => ?_) hall
  obtain ⟨loss, gradient, hgauge, -, -, htrue, hfalse⟩ := take_eq_ok htake
  have hlen := hfits _ _ _ _ hs.1 hgauge
  cases each with
  | true =>
      obtain ⟨hweights, hgradient⟩ := htrue rfl
      rw [hweights, hgradient, step, List.length_zipWith, hs.1, hlen, Nat.min_self]
      exact ⟨rfl, hs.2⟩
  | false =>
      obtain ⟨hweights, hgradient⟩ := hfalse rfl
      rw [hweights, hgradient, List.length_zipWith, hs.2, hlen, Nat.min_self]
      exact ⟨hs.1, rfl⟩

/-! ### The whole epoch -/

/-- How an epoch diverges: which numbers ran out of range, and at which example. -/
inductive Diverges (gauge : Gauge α) (each : Bool) (examples : List (Example α)) (epoch : Nat)
    (rate : α) (start : List α) : Divergence → Option Nat → Prop
  | measure {before behind : List (Example α)} {e : Example α} {s : Sweep α} {loss : α}
      {gradient : List α} :
      examples = before ++ e :: behind →
      (Sweep.start start).takeAll gauge each epoch rate start 0 before = .ok s →
      gauge s.weights e = .ok (loss, gradient) →
      (Scalar.isFinite loss && Scalar.allFinite gradient) = false →
      Diverges gauge each examples epoch rate start .measure (some before.length)
  | exampleUpdate {before behind : List (Example α)} {e : Example α} {s : Sweep α} {loss : α}
      {gradient : List α} :
      each = true → examples = before ++ e :: behind →
      (Sweep.start start).takeAll gauge each epoch rate start 0 before = .ok s →
      gauge s.weights e = .ok (loss, gradient) →
      Scalar.allFinite (step rate s.weights gradient) = false →
      Diverges gauge each examples epoch rate start .update (some before.length)
  | epochUpdate {s : Sweep α} :
      each = false →
      (Sweep.start start).takeAll gauge each epoch rate start 0 examples = .ok s →
      Scalar.allFinite (step rate start (s.gradient.map (· / Scalar.ofNat examples.length))) =
        false →
      Diverges gauge each examples epoch rate start .update none

/-- Unless each example moves them, weights stay until the end of the epoch. -/
theorem Sweep.takeAll_weights
    (hall : s.takeAll gauge false epoch rate start i examples = .ok s') :
    s'.weights = s.weights := by
  refine takeAll_induction (motive := fun s' => s'.weights = s.weights) rfl
    (fun {i e s₁ s₂} hs htake => ?_) hall
  obtain ⟨_, _, -, -, -, -, hfalse⟩ := take_eq_ok htake
  rw [(hfalse rfl).1, hs]

/-- What halts an epoch is one of its examples, or the update at its end. -/
theorem runEpoch_halts (hhalt : runEpoch gauge each examples epoch rate start = .error h) :
    (Sweep.start start).takeAll gauge each epoch rate start 0 examples = .error h ∨
      each = false ∧ h = ⟨.diverged .update epoch none start, start⟩ ∧
        ∃ s, (Sweep.start start).takeAll gauge each epoch rate start 0 examples = .ok s ∧
          Scalar.allFinite
            (step rate s.weights (s.gradient.map (· / Scalar.ofNat examples.length))) = false := by
  unfold runEpoch at hhalt
  cases hall : (Sweep.start start).takeAll gauge each epoch rate start 0 examples with
  | error h' =>
      simp only [hall, Except.error.injEq] at hhalt
      exact .inl (congrArg Except.error hhalt)
  | ok s =>
      simp only [hall] at hhalt
      split at hhalt
      · cases hhalt
      · rename_i heach
        split at hhalt
        · cases hhalt
        · rename_i hupdate
          cases hhalt
          exact .inr ⟨by simpa using heach, rfl, s, rfl, by simpa using hupdate⟩

/-- An epoch that halts without an error of its measure has diverged and gives
back the weights it started from. -/
theorem runEpoch_eq_error {n : Nat} (hfits : gauge.Fits n) (hanswers : gauge.Answers n examples)
    (hstart : start.length = n)
    (hhalt : runEpoch gauge each examples epoch rate start = .error h) :
    ∃ what sample, h = ⟨.diverged what epoch sample start, start⟩ ∧
      Diverges gauge each examples epoch rate start what sample := by
  have hgradient : (Sweep.start start).gradient.length = n := by simp [Sweep.start, hstart]
  obtain hall | ⟨rfl, rfl, s, hall, hupdate⟩ := runEpoch_halts hhalt
  · obtain ⟨before, e, behind, s, hsplit, hbefore, hbreak⟩ := Sweep.takeAll_eq_error_iff.1 hall
    rw [Nat.zero_add] at hbreak
    cases hbreak with
    | fault hgauge =>
        -- A gauge has an answer at all weights, also at those of the middle of an epoch.
        obtain ⟨loss, gradient, hanswer⟩ :=
          hanswers s.weights e (Sweep.takeAll_length hfits hstart hgradient hbefore).1
            (by simp [hsplit])
        simp [hanswer] at hgauge
    | measure hgauge hfinite => exact ⟨_, _, rfl, .measure hsplit hbefore hgauge hfinite⟩
    | update heach hgauge _ hupdate =>
        exact ⟨_, _, rfl, .exampleUpdate heach hsplit hbefore hgauge hupdate⟩
  · rw [Sweep.takeAll_weights hall] at hupdate
    exact ⟨_, _, rfl, .epochUpdate rfl hall hupdate⟩

/-- What an epoch that runs to its end gives. -/
theorem runEpoch_eq_ok (hrun : runEpoch gauge each examples epoch rate start = .ok (after, loss)) :
    ∃ s, (Sweep.start start).takeAll gauge each epoch rate start 0 examples = .ok s ∧
      loss = s.total / Scalar.ofNat examples.length ∧
      after = if each then s.weights
        else step rate s.weights (s.gradient.map (· / Scalar.ofNat examples.length)) := by
  unfold runEpoch at hrun
  cases hall : (Sweep.start start).takeAll gauge each epoch rate start 0 examples with
  | error h => simp [hall] at hrun
  | ok s =>
      simp only [hall] at hrun
      refine ⟨s, rfl, ?_⟩
      cases each with
      | true => simp_all
      | false =>
          simp only [Bool.false_eq_true, if_false] at hrun ⊢
          split at hrun
          · cases hrun
            exact ⟨rfl, rfl⟩
          · cases hrun

/-- An epoch keeps the number of weights. -/
theorem runEpoch_length {n : Nat} (hfits : gauge.Fits n) (hstart : start.length = n)
    (hrun : runEpoch gauge each examples epoch rate start = .ok (after, loss)) :
    after.length = n := by
  obtain ⟨s, hall, -, rfl⟩ := runEpoch_eq_ok hrun
  obtain ⟨hweights, hgradient⟩ :=
    Sweep.takeAll_length hfits hstart (by simp [Sweep.start, hstart]) hall
  split
  · exact hweights
  · simp [step, hweights, hgradient]

/-- An epoch that halts leaves as many weights as it started from. -/
theorem length_of_runEpoch_eq_error {n : Nat} (hfits : gauge.Fits n) (hstart : start.length = n)
    (hhalt : runEpoch gauge each examples epoch rate start = .error h) : h.weights.length = n := by
  obtain hall | ⟨-, rfl, -⟩ := runEpoch_halts hhalt
  · obtain ⟨before, e, behind, s, -, hbefore, hbreak⟩ := Sweep.takeAll_eq_error_iff.1 hall
    cases hbreak with
    | fault =>
        exact (Sweep.takeAll_length hfits hstart (by simp [Sweep.start, hstart]) hbefore).1
    | measure => exact hstart
    | update => exact hstart
  · exact hstart

/-! ### Losses -/

/-- The mean loss over examples at fixed weights. -/
def meanLoss (gauge : Gauge α) (examples : List (Example α)) (weights : List α) :
    Except Fault α := do
  let total ← examples.foldlM (fun total e => return total + (← gauge weights e).1) Scalar.zero
  return total / Scalar.ofNat examples.length

theorem Sweep.takeAll_total
    (hall : s.takeAll gauge false epoch rate start i examples = .ok s') :
    examples.foldlM (fun total e => return total + (← gauge s.weights e).1) s.total =
      .ok s'.total := by
  induction examples generalizing i s with
  | nil =>
      cases hall
      rfl
  | cons e examples ih =>
      rw [takeAll] at hall
      cases htake : s.take gauge false epoch rate start i e with
      | error h => simp [htake] at hall
      | ok s₁ =>
          rw [htake] at hall
          obtain ⟨loss, gradient, hgauge, -, htotal, -, hfalse⟩ := take_eq_ok htake
          rw [List.foldlM_cons, hgauge, ← ih hall, (hfalse rfl).1, htotal]
          rfl

/-- Where weights move only at the end of an epoch, its loss is that of the
weights it starts from. -/
theorem meanLoss_of_runEpoch
    (hrun : runEpoch gauge false examples epoch rate start = .ok (after, loss)) :
    meanLoss gauge examples start = .ok loss := by
  obtain ⟨s, hall, rfl, -⟩ := runEpoch_eq_ok hrun
  have htotal := Sweep.takeAll_total hall
  simp only [Sweep.start] at htotal
  rw [meanLoss, htotal]
  rfl

/-- The losses that an epoch adds up are finite. -/
theorem Sweep.takeAll_total_induction {motive : α → Prop} (hs : motive s.total)
    (hadd : ∀ {total loss}, motive total → Scalar.isFinite loss = true → motive (total + loss))
    (hall : s.takeAll gauge each epoch rate start i examples = .ok s') : motive s'.total := by
  refine takeAll_induction (motive := fun s => motive s.total) hs
    (fun {i e s s'} hs htake => ?_) hall
  obtain ⟨loss, gradient, -, hfinite, htotal, -⟩ := take_eq_ok htake
  rw [htotal]
  exact hadd hs hfinite

end Gantry.Training
