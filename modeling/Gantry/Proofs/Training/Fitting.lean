import Gantry.Proofs.Training.Compilation
import Gantry.Proofs.Training.Course

/-!
Training a network, taken apart. It is refused before it begins, or it is a
run of gradient descent from the weights of the network, which gets the
weights of the run.
-/

namespace Gantry.Training

variable {compile : Compile} {net : Network} {s : Settings} {examples : List (Example Binary64)}
  {observer : Observer}

/-- Why training may be refused before it begins. -/
inductive Refusal (compile : Compile) (net : Network) (s : Settings)
    (examples : List (Example Binary64)) : FitFailure → Prop
  | unsound {f : FitFailure} :
      checked net s examples = .error f → Refusal compile net s examples f
  | uncompiled {f : Network.Failure} :
      (compile net).1 = .error f → Refusal compile net s examples (.network f)
  | misordered {gauge : Gauge Binary64} {names : List String} :
      (compile net).1 = .ok (gauge, names) → names ≠ net.weightNames →
      Refusal compile net s examples .gradientOrder

/-- Training is refused with the weights as they were, or it is a run from
the weights of the network. -/
theorem fitWith_cases (hcompile : Compiles compile) (net : Network) (s : Settings)
    (examples : List (Example Binary64)) (observer : Observer) :
    ∃ net', net'.weights = net.weights ∧
      ((∃ f, Refusal compile net s examples f ∧
        fitWith compile net s examples observer = .refused net' f) ∨
      ∃ options gauge names, checked net s examples = .ok options ∧
        (compile net).1 = .ok (gauge, names) ∧ gauge.Fits net.weights.length ∧
        fitWith compile net s examples observer = .ofRun net' observer
          (descend options.plan gauge examples observer.interruptsAfter net.weightValues)) := by
  cases hchecked : checked net s examples with
  | error f => exact ⟨net, rfl, .inl ⟨f, .unsound hchecked, by simp only [fitWith, hchecked]⟩⟩
  | ok options =>
      have hweights := hcompile.weights net
      have hvalues : (compile net).2.weightValues = net.weightValues :=
        congrArg (List.map Network.Weight.value) hweights
      have hnames : (compile net).2.weightNames = net.weightNames :=
        congrArg (List.map Network.Weight.name) hweights
      refine ⟨(compile net).2, hweights, ?_⟩
      cases hcompiled : (compile net).1 with
      | error f =>
          have heq : compile net = (.error f, (compile net).2) := by rw [← hcompiled]
          exact .inl ⟨_, .uncompiled hcompiled, by simp only [fitWith, hchecked]; rw [heq]⟩
      | ok measure =>
          obtain ⟨gauge, names⟩ := measure
          have heq : compile net = (.ok (gauge, names), (compile net).2) := by rw [← hcompiled]
          by_cases horder : names = net.weightNames
          · have hfits := hcompile.fits net gauge names hcompiled
            rw [horder, Network.weightNames, List.length_map] at hfits
            refine .inr ⟨options, gauge, names, rfl, rfl, hfits, ?_⟩
            simp only [fitWith, hchecked]
            rw [heq]
            simp only [hnames, horder, hvalues, ne_eq, not_true_eq_false, if_false]
          · refine .inl ⟨_, .misordered hcompiled horder, ?_⟩
            simp only [fitWith, hchecked]
            rw [heq]
            simp only [hnames, horder, ne_eq, not_false_eq_true, if_true]

theorem Ending.length_weights {plan : Plan Binary64} {gauge : Gauge Binary64}
    {reports : List (Report Binary64)} {interrupts : Nat → Bool} {weights : List Binary64}
    {r : Result Binary64} (hfits : gauge.Fits net.weights.length)
    (hcourse : Course plan gauge examples net.weightValues reports)
    (hending : Ending plan gauge examples interrupts net.weightValues reports weights (.ok r)) :
    weights.length = net.weights.length :=
  hending.length_eq hcourse hfits net.length_weightValues

theorem reports_ofRun (net : Network) (observer : Observer) (run : Run Binary64) :
    (Fit.ofRun net observer run).reports = run.reports := by
  unfold Fit.ofRun
  dsimp only
  split <;> rfl

/-- Whatever training comes to, its reports follow a course. -/
theorem fitWith_course (observer : Observer) (hcompile : Compiles compile) {options : Options}
    {gauge : Gauge Binary64} {names : List String} (hchecked : checked net s examples = .ok options)
    (hcompiled : (compile net).1 = .ok (gauge, names)) :
    Course options.plan gauge examples net.weightValues
      (fitWith compile net s examples observer).reports := by
  obtain ⟨net', -, ⟨f, -, hfit⟩ | ⟨options', gauge', names', hchecked', hcompiled', -, hfit⟩⟩ :=
    fitWith_cases hcompile net s examples observer
  · rw [hfit]
    exact nofun
  · cases hchecked.symm.trans hchecked'
    cases hcompiled.symm.trans hcompiled'
    rw [hfit, reports_ofRun]
    exact (descend_ending ..).1

/-- Training that came to a result has an ending of its course. -/
theorem fitWith_finished (hcompile : Compiles compile) {r : Result Binary64}
    (h : (fitWith compile net s examples observer).finished = some r) :
    ∃ options gauge names, checked net s examples = .ok options ∧
      (compile net).1 = .ok (gauge, names) ∧
      Course options.plan gauge examples net.weightValues
        (fitWith compile net s examples observer).reports ∧
      Ending options.plan gauge examples observer.interruptsAfter net.weightValues
        (fitWith compile net s examples observer).reports r.weights (.ok r) ∧
      (fitWith compile net s examples observer).network.weightValues = r.weights := by
  obtain ⟨net', hweights, ⟨f, -, hfit⟩ |
    ⟨options, gauge, names, hchecked, hcompiled, hfits, hfit⟩⟩ :=
    fitWith_cases hcompile net s examples observer
  · rw [hfit] at h
    cases h
  · obtain ⟨hcourse, hending⟩ := descend_ending options.plan gauge examples
      observer.interruptsAfter net.weightValues
    rw [hfit] at h ⊢
    generalize descend options.plan gauge examples observer.interruptsAfter net.weightValues = run
      at hcourse hending h
    cases houtcome : run.outcome with
    | error stop =>
        rw [Fit.ofRun, houtcome] at h
        cases h
    | ok r' =>
        obtain rfl : r' = r := by simpa [Fit.ofRun, houtcome] using h
        rw [houtcome] at hending
        have hlength := hending.length_weights hfits hcourse
        have hr := hending.weights_of_ok.1
        rw [← hweights] at hlength
        simp only [Fit.ofRun, houtcome, Network.weightValues_withValues hlength]
        exact ⟨options, gauge, names, hchecked, hcompiled, hcourse, hr ▸ hending, hr.symm⟩

/-! ### A line

A network of one dense layer with one input and one output, and its squared
error as a measure. -/

def line : Network where
  sequential := true
  inputs := 1
  layers := [⟨.dense ⟨1, .identity, .identity, none, []⟩, some ⟨0, 1⟩,
    [⟨"w0r0c0", Binary64.one⟩, ⟨"w0b0", Binary64.zero⟩]⟩]
  cache := .empty

/-- The squared error of a line and its gradient. -/
def lineGauge : Gauge Binary64 := fun weights e =>
  match weights, e.input, e.target with
  | [slope, bias], [x], [y] =>
    let error := slope * x + bias - y
    .ok (error * error, [(error + error) * x, error + error])
  | _, _, _ => .error (.type none)

def compileLine : Compile := fun net => (.ok (lineGauge, ["w0r0c0", "w0b0"]), net)

/-- Five epochs at a constant rate. -/
def lineSettings (rate tolerance : Binary64) (update : Update) : Settings :=
  ⟨.ofNat 5, .ofReal tolerance, .constant (.ofReal rate), .text update.name⟩

/-- An example that asks the line to pass through a point of the first axis. -/
def onAxis : Example Binary64 := ⟨[Binary64.one], [Binary64.zero]⟩

theorem compiles_compileLine : Compiles compileLine where
  layers _ := rfl
  fits net gauge names h weights e loss gradient _ hgauge := by
    cases h
    unfold lineGauge at hgauge
    split at hgauge
    · cases hgauge
      rfl
    · cases hgauge

theorem answers_lineGauge {examples : List (Example Binary64)} (h : ∀ e ∈ examples, e = onAxis) :
    lineGauge.Answers 2 examples := by
  intro weights e hweights he
  obtain rfl := h e he
  match weights, hweights with
  | [slope, bias], _ => exact ⟨_, _, rfl⟩

end Gantry.Training
