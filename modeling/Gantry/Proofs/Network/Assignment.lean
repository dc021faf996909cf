import Gantry.Proofs.Network.Weights
import Mathlib.Data.List.TakeWhile

/-!
Weights set by name. All names are looked up before anything is stored, so one
that is unknown stops everything. Values are converted as they are stored, so
one that is no number stops only what comes after it: the main statement says
what a call stores, and when one that fails has changed nothing.
-/

namespace Gantry

open Gantry.Network (Weight)

namespace Network

variable {net : Network} {values : List (String × Datum)}

theorem weights_mapWeights (net : Network) (f : Weight → Weight) :
    (net.mapWeights f).weights = net.weights.map f := by
  simp [weights, mapWeights, List.flatMap_map, List.map_flatMap]

/-- Whether a weight can take the value that goes with a name. -/
def readable (p : String × Datum) : Bool := p.2.toReal.toBool

/-- A weight with the value that goes with its name, if one does. -/
def assigned (values : List (String × Datum)) (w : Weight) : Weight :=
  match (values.lookup w.name).map Datum.toReal with
  | some (.ok x) => put w x
  | _ => w

theorem assigned_of_notMem {w : Weight} (h : w.name ∉ values.map Prod.fst) :
    assigned values w = w := by
  have hnone : values.lookup w.name = none := by
    rw [List.lookup_eq_none_iff]
    intro p hp
    rw [bne_iff_ne]
    rintro heq
    exact h (heq ▸ List.mem_map_of_mem hp)
  simp [assigned, hnone]

theorem assigned_of_mem {w : Weight} {p : String × Datum} {x : Binary64}
    (hdistinct : (values.map Prod.fst).Nodup) (hp : p ∈ values) (hname : w.name = p.1)
    (hx : p.2.toReal = .ok x) : assigned values w = put w x := by
  have hlookup : values.lookup w.name = some p.2 := by
    induction values with
    | nil => cases hp
    | cons q values ih =>
        rw [List.map_cons, List.nodup_cons] at hdistinct
        rw [List.lookup_cons]
        rcases List.mem_cons.1 hp with rfl | htail
        · simp [hname]
        · have hne : (w.name == q.1) = false := by
            rw [beq_eq_false_iff_ne]
            rintro heq
            exact hdistinct.1 (heq ▸ hname ▸ List.mem_map_of_mem htail)
          rw [hne]
          exact ih hdistinct.2 htail
  simp [assigned, hlookup, hx]

theorem exists_of_readable {p : String × Datum} (h : readable p = true) :
    ∃ x, p.2.toReal = .ok x := by
  cases hx : p.2.toReal with
  | error f => simp [readable, hx, Except.toBool] at h
  | ok x => exact ⟨x, rfl⟩

/-- A weight keeps its value just when it is given the one that it has. -/
theorem assigned_eq_self_iff {w : Weight} (hdistinct : (values.map Prod.fst).Nodup)
    (hreadable : ∀ p ∈ values, readable p = true) :
    assigned values w = w ↔ ∀ p ∈ values, w.name = p.1 → p.2.toReal = .ok w.value := by
  constructor
  · intro hkept p hp hname
    obtain ⟨x, hx⟩ := exists_of_readable (hreadable p hp)
    rw [assigned_of_mem hdistinct hp hname hx] at hkept
    rw [hx, ← congrArg Weight.value hkept]
    rfl
  · intro hsame
    by_cases hmem : w.name ∈ values.map Prod.fst
    · obtain ⟨p, hp, hname⟩ := List.mem_map.1 hmem
      exact assigned_of_mem hdistinct hp hname.symm (hsame p hp hname.symm)
    · exact assigned_of_notMem hmem

/-- One value is stored, and then the others, which go to other names. -/
theorem assigned_cons {name : String} {d : Datum} {x : Binary64} (hx : d.toReal = .ok x)
    (hname : name ∉ values.map Prod.fst) :
    (assigned values ∘ fun w => if w.name = name then put w x else w) =
      assigned ((name, d) :: values) := by
  funext w
  by_cases hw : w.name = name
  · subst hw
    rw [Function.comp_apply, if_pos rfl, assigned_of_notMem (w := put w x) hname]
    simp [assigned, hx]
  · have hne : (w.name == name) = false := beq_eq_false_iff_ne.2 hw
    simp [assigned, hw, List.lookup_cons, hne]

/-- Values are stored up to the first that is no number. -/
theorem storeWeights_eq (net : Network) (hdistinct : (values.map Prod.fst).Nodup) :
    (net.storeWeights values).2 = net.mapWeights (assigned (values.takeWhile readable)) ∧
      ((net.storeWeights values).1 = .ok () ↔ ∀ p ∈ values, readable p = true) := by
  induction values generalizing net with
  | nil =>
      have hid : assigned [] = id := rfl
      simp [storeWeights, mapWeights, hid]
  | cons p values ih =>
      obtain ⟨name, d⟩ := p
      rw [List.map_cons, List.nodup_cons] at hdistinct
      rw [List.forall_mem_cons, List.takeWhile_cons, storeWeights]
      cases hx : d.toReal with
      | error f =>
          have hstop : readable (name, d) = false := by simp [readable, hx, Except.toBool]
          have hid : assigned [] = id := rfl
          simp [hstop, mapWeights, hid]
      | ok x =>
          have hgoes : readable (name, d) = true := by simp [readable, hx, Except.toBool]
          have hfirst : net.setWeight name x =
              net.mapWeights fun w => if w.name = name then put w x else w := rfl
          have hrest : name ∉ (values.takeWhile readable).map Prod.fst := fun h =>
            hdistinct.1 (((List.takeWhile_prefix _).sublist.map _).subset h)
          obtain ⟨hstored, hdone⟩ := ih (net.setWeight name x) hdistinct.2
          simp only [hgoes, if_true, true_and]
          refine ⟨?_, hdone⟩
          rw [hstored, hfirst, mapWeights_mapWeights, assigned_cons hx hrest]

theorem setWeights_of_known (h : ∀ p ∈ values, p.1 ∈ net.weightNames) :
    net.setWeights values = net.storeWeights values := by
  have hknown : (values.map Prod.fst).filter (fun name => !net.weightNames.contains name) = [] := by
    simpa [List.filter_eq_nil_iff] using fun name d hp => h (name, d) hp
  rw [setWeights, hknown]

theorem setWeights_of_unknown {p : String × Datum} (hp : p ∈ values)
    (h : p.1 ∉ net.weightNames) : ∃ names, net.setWeights values = (.error (.weights names), net) := by
  have hmem : p.1 ∈ (values.map Prod.fst).filter fun name => !net.weightNames.contains name := by
    rw [List.mem_filter]
    exact ⟨List.mem_map_of_mem hp, by simpa using h⟩
  unfold setWeights
  split
  · rename_i hnil
    rw [hnil] at hmem
    cases hmem
  · exact ⟨_, rfl⟩

/-- Setting weights by name succeeds if all names are known and all values are
numbers, and then puts each value into the weight of its name and leaves the
others alone. If it fails, the weights are as before if a name is unknown, and
else just when every value ahead of the first that is no number was there
already. -/
theorem setWeights_allOrNothing_iff (hdistinct : (values.map Prod.fst).Nodup) :
    ((net.setWeights values).1 = .ok () ↔
      (∀ p ∈ values, p.1 ∈ net.weightNames) ∧ ∀ p ∈ values, readable p = true) ∧
    ((net.setWeights values).1 = .ok () →
      (net.setWeights values).2 = net.mapWeights (assigned values)) ∧
    ((net.setWeights values).1 ≠ .ok () →
      ((net.setWeights values).2.weights = net.weights ↔
        (∃ p ∈ values, p.1 ∉ net.weightNames) ∨
          ∀ p ∈ values.takeWhile readable, ∀ w ∈ net.weights, w.name = p.1 →
            p.2.toReal = .ok w.value)) := by
  by_cases hknown : ∀ p ∈ values, p.1 ∈ net.weightNames
  · obtain ⟨hstored, hdone⟩ := net.storeWeights_eq hdistinct
    rw [setWeights_of_known hknown, hdone, hstored, weights_mapWeights]
    refine ⟨(and_iff_right hknown).symm, fun hall => ?_, fun _ => ?_⟩
    · rw [List.takeWhile_eq_self_iff.2 hall]
    · have hprefix : (values.takeWhile readable).map Prod.fst |>.Nodup :=
        hdistinct.sublist ((List.takeWhile_prefix _).sublist.map _)
      have hkept {w : Weight} := assigned_eq_self_iff (w := w) hprefix
        fun p hp => List.mem_takeWhile_imp hp
      have hnone : ¬∃ p ∈ values, p.1 ∉ net.weightNames := fun ⟨p, hp, h⟩ => h (hknown p hp)
      have hmap : net.weights.map (assigned (values.takeWhile readable)) = net.weights ↔
          ∀ w ∈ net.weights, assigned (values.takeWhile readable) w = w := by
        simpa only [List.map_id, id] using
          List.map_inj_left (l := net.weights) (f := assigned (values.takeWhile readable)) (g := id)
      rw [or_iff_right hnone, hmap]
      exact ⟨fun h p hp w hw => hkept.1 (h w hw) p hp, fun h w hw => hkept.2 fun p hp => h p hp w hw⟩
  · have hunknown : ∃ p ∈ values, p.1 ∉ net.weightNames := by simpa using hknown
    obtain ⟨p, hp, h⟩ := hunknown
    obtain ⟨names, heq⟩ := setWeights_of_unknown hp h
    simp only [heq]
    refine ⟨iff_of_false (by simp) fun hall => hknown hall.1, by simp, fun _ => ?_⟩
    exact iff_of_true trivial (.inl ⟨p, hp, h⟩)

/-- One input times a weight, and another weight added. -/
def slope : Network where
  sequential := true
  inputs := 1
  layers := [⟨.dense ⟨1, .identity, .identity, none, []⟩, some ⟨0, 1⟩,
    [⟨"w0r0c0", .one⟩, ⟨"w0b0", .zero⟩]⟩]
  cache := .empty

/-- A number for one weight, and no number for the other. -/
def halfReadable : List (String × Datum) := [("w0b0", .number (.int 5)), ("w0r0c0", .text "abc")]

theorem setWeights_allOrNothing_iff_slope :
    (halfReadable.map Prod.fst).Nodup ∧ (slope.setWeights halfReadable).1 ≠ .ok () ∧
      ((slope.setWeights halfReadable).2.weights = slope.weights ↔
        (∃ p ∈ halfReadable, p.1 ∉ slope.weightNames) ∨
          ∀ p ∈ halfReadable.takeWhile readable, ∀ w ∈ slope.weights, w.name = p.1 →
            p.2.toReal = .ok w.value) := by
  have hdistinct : (halfReadable.map Prod.fst).Nodup := by decide
  have hfails : (slope.setWeights halfReadable).1 = .error (.fault (.value none)) := by rfl
  obtain ⟨-, -, hunchanged⟩ := setWeights_allOrNothing_iff hdistinct
  exact ⟨hdistinct, by simp [hfails], hunchanged (by simp [hfails])⟩

/-- A call that fails at its second value has stored the first. -/
theorem setWeights_fails_after_storing :
    (slope.setWeights halfReadable).1 = .error (.fault (.value none)) ∧
      (slope.setWeights halfReadable).2.weights = [⟨"w0r0c0", .one⟩, ⟨"w0b0", .ofNat 5⟩] ∧
      (slope.setWeights halfReadable).2.weights ≠ slope.weights := by
  have hstored : (slope.setWeights halfReadable).2.weights =
      [⟨"w0r0c0", .one⟩, ⟨"w0b0", .ofNat 5⟩] := by rfl
  refine ⟨by rfl, hstored, ?_⟩
  rw [hstored]
  decide +kernel

end Network

end Gantry
