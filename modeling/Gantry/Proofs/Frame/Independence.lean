import Gantry.Proofs.Formula.Evaluation
import Gantry.Proofs.Frame.Range

/-!
Axes on their own. Every move is one call for all axes, which come one after
the other and are moved to where they are if they are to stay. Yet what an axis
does is what it would do alone: a frame that has only this axis, and is told
only what concerns it, goes through the same positions and deadbands. All that
another axis can do to it is to fail before its turn.
-/

namespace Gantry

namespace Drive

variable (d : Drive)

/-- A position within the limits is as near as it can be. -/
theorem clip_clip (position : Number) : d.clip (d.clip position) = d.clip position := by
  have hcases : d.clip position = d.low ∨ d.clip position = d.high ∨
      d.low.lt (d.clip position) = true := by
    unfold clip Number.larger Number.smaller
    split
    · split
      · exact .inr (.inl rfl)
      · exact .inr (.inr ‹_›)
    · split
      · exact .inr (.inl rfl)
      · exact .inl rfl
  have hhigh : d.high.lt (d.clip position) = false := Number.not_lt_of_le (d.clip_le position)
  obtain heq | heq | hlow := hcases
  · rw [heq, clip_low]
  · rw [heq] at hhigh ⊢
    simp [clip, Number.larger, Number.smaller, d.low_lt_high, hhigh]
  · generalize d.clip position = p at *
    simp [clip, Number.larger, Number.smaller, hlow, hhigh]

end Drive

namespace Axis

variable {a a' : Axis} {b : Backlash} {v : Value}

/-- An axis after a move, or as it was if that fails. -/
def moved (b : Backlash) (a : Axis) (v : Value) : Axis := (a.moveTo b v).toOption.getD a

/-- The same axis with another name. -/
def renamed (a : Axis) (name : Option String) : Axis := { a with drive := { a.drive with name } }

theorem moveTo_renamed (b : Backlash) (a : Axis) (name : Option String) (v : Value) :
    (a.renamed name).moveTo b v = (a.moveTo b v).map fun a' => a'.renamed name := by
  cases v with
  | none => rfl
  | some target =>
      have hdeadband (position : Number) :
          (a.renamed name).deadbandAt b position = a.deadbandAt b position := rfl
      have hclip : (a.renamed name).drive.clip target = a.drive.clip target := rfl
      have hposition : (a.renamed name).position = a.position := rfl
      simp only [moveTo, hclip, hposition, hdeadband]
      split
      · cases a.deadbandAt b (a.drive.clip target) <;> rfl
      · rfl

theorem moved_renamed (b : Backlash) (a : Axis) (name : Option String) (v : Value) :
    (a.renamed name).moved b v = (a.moved b v).renamed name := by
  rw [moved, moved, moveTo_renamed]
  cases a.moveTo b v <;> rfl

/-- An axis that is where its drive would put it. -/
def Settled (a : Axis) : Prop := ∀ p, a.position = some p → a.drive.clip p = p

theorem settled_of_moveTo (h : a.moveTo b v = .ok a') : a'.Settled := by
  obtain ⟨deadband, rfl, -⟩ := exists_eq_of_moveTo h
  rintro p hp
  obtain ⟨target, -, rfl⟩ := Option.map_eq_some_iff.1 hp
  exact a.drive.clip_clip target

/-- An axis that is moved to where it is stays as it is. -/
theorem Settled.moved_position (h : a.Settled) : a.moved b a.position = a := by
  obtain ⟨drive, position, deadband⟩ := a
  cases position with
  | none => rfl
  | some p =>
      have hclip : drive.clip p = p := h p rfl
      have hnan : p.isNaN = false := hclip ▸ Number.isNaN_of_le (drive.le_clip p)
      have hsame : p.same p = true := Number.same_self hnan
      simp [moved, moveTo, hclip, hsame, Except.toOption]

end Axis

namespace Frame

open Axis

variable {f g : Frame} {b : Backlash} {i : Nat} {c : Command}

/-! ### Moves -/

/-- What becomes of an axis whose turn comes. -/
theorem getElem?_moveAxes {axes : List Axis} {targets : List Value} {a : Axis} {v : Value}
    (hreach : (moveAxes b (axes.take i) (targets.take i)).1 = .ok ()) (ha : axes[i]? = some a)
    (hv : targets[i]? = some v) : (moveAxes b axes targets).2[i]? = some (a.moved b v) := by
  induction i generalizing axes targets with
  | zero =>
      obtain ⟨rest, rfl⟩ : ∃ rest, axes = a :: rest := by
        cases axes with
        | nil => cases ha
        | cons a' rest => exact ⟨rest, by simpa using ha⟩
      obtain ⟨vs, rfl⟩ : ∃ vs, targets = v :: vs := by
        cases targets with
        | nil => cases hv
        | cons v' vs => exact ⟨vs, by simpa using hv⟩
      cases hmove : a.moveTo b v <;> simp [moveAxes, moved, hmove, Except.toOption]
  | succ i ih =>
      cases axes with
      | nil => cases ha
      | cons a' rest =>
          cases targets with
          | nil => cases hv
          | cons v' vs =>
              simp only [List.take_succ_cons, moveAxes] at hreach ⊢
              cases hmove : a'.moveTo b v' with
              | error e => simp [hmove] at hreach
              | ok a'' =>
                  simp only [hmove] at hreach ⊢
                  exact ih hreach ha hv

theorem getElem?_axes_setPositions {targets : List Value} {a : Axis} {v : Value}
    (hlength : targets.length = f.axes.length)
    (hreach : (moveAxes f.backlash (f.axes.take i) (targets.take i)).1 = .ok ())
    (ha : f.axes[i]? = some a) (hv : targets[i]? = some v) :
    (f.setPositions targets).2.axes[i]? = some (a.moved f.backlash v) := by
  rw [setPositions, if_neg (not_not.2 hlength)]
  exact getElem?_moveAxes hreach ha hv

theorem backlash_setPositions (f : Frame) (targets : List Value) :
    (f.setPositions targets).2.backlash = f.backlash := by
  unfold setPositions
  split <;> rfl

theorem axes_setPositions_singleton {a : Axis} (h : g.axes = [a]) (v : Value) :
    (g.setPositions [v]).2.axes = [a.moved g.backlash v] := by
  simp only [setPositions, h, List.length_singleton, ne_eq, not_true_eq_false, if_false, moveAxes,
    moved]
  cases a.moveTo g.backlash v <;> rfl

/-! ### Commands and single axes -/

/-- A command that names a target for each of so many axes; walks concern all
axes together and are not meant. -/
def Command.Fits (n : Nat) : Command → Prop
  | .moveTo targets => targets.length = n
  | .setPositions targets => targets.length = n
  | .examples _ => False
  | _ => True

instance (n : Nat) (c : Command) : Decidable (c.Fits n) := by
  cases c <;> unfold Command.Fits <;> infer_instance

/-- What a command tells one axis, as a command for a frame of this axis alone. -/
def Command.only (i : Nat) : Command → Option Command
  | .home => some .home
  | .homeAxis axis => if axis.same (.int i) then some (.homeAxis (.int 0)) else none
  | .moveTo targets => (targets.getD i none).map fun v => .moveTo [some v]
  | .setPositions targets => some (.setPositions [targets.getD i none])
  | .clear => some .clear
  | .examples _ => none

/-- A command comes as far as an axis: those before it are moved without fail. -/
def Reaches (f : Frame) (i : Nat) (c : Command) : Prop := ∀ targets, f.aims c = some targets →
  (moveAxes f.backlash (f.axes.take i) (targets.take i)).1 = .ok ()

/-- A command moves all axes that it moves without fail. -/
def Succeeds (f : Frame) (c : Command) : Prop := ∀ targets, f.aims c = some targets →
  (f.setPositions targets).1 = .ok ()

theorem moveAxes_take {axes : List Axis} {targets : List Value}
    (h : (moveAxes b axes targets).1 = .ok ()) (i : Nat) :
    (moveAxes b (axes.take i) (targets.take i)).1 = .ok () := by
  induction axes, targets using moveAxes.induct b generalizing i with
  | case1 a as v vs e hfails => simp [moveAxes, hfails] at h
  | case2 a as v vs a' hmoved r rest hrest ih =>
      cases i with
      | zero => rfl
      | succ i =>
          simp only [moveAxes, hmoved] at h
          simp only [List.take_succ_cons, moveAxes, hmoved]
          exact ih h i
  | case3 axes targets hne =>
      cases axes with
      | nil => simp [moveAxes]
      | cons a as =>
          cases targets with
          | nil => simp [moveAxes]
          | cons v vs => exact (hne a as v vs rfl rfl).elim

theorem Succeeds.reaches (h : f.Succeeds c) (i : Nat) : f.Reaches i c := by
  intro targets haims
  have hmoves := h targets haims
  unfold setPositions at hmoves
  split at hmoves
  · cases hmoves
  · exact moveAxes_take (mapError_eq_ok_iff.1 hmoves) i

theorem getElem?_lowered (axis : Number) (axes : List Axis) (k i : Nat) :
    (lowered axis k axes)[i]? = axes[i]?.map fun a =>
      if axis.same (.int (k + i : Nat)) then some a.drive.low else a.position := by
  induction axes generalizing k i with
  | nil => rfl
  | cons a as ih =>
      cases i with
      | zero => simp [lowered]
      | succ i =>
          rw [lowered, List.getElem?_cons_succ, ih, List.getElem?_cons_succ]
          simp only [Nat.add_assoc, Nat.add_comm 1 i]

theorem length_lowered (axis : Number) (axes : List Axis) (k : Nat) :
    (lowered axis k axes).length = axes.length := by
  induction axes generalizing k with
  | nil => rfl
  | cons a as ih => simp [lowered, ih]

theorem resolve_eq_ok {old given : List Value} (h : given.length = old.length) :
    resolve old given = .ok (List.zipWith Option.or given old) := by
  induction given generalizing old with
  | nil => simp [resolve]
  | cons v vs ih =>
      cases old with
      | nil => simp at h
      | cons p ps =>
          have hrest : resolve ps vs = .ok (List.zipWith Option.or vs ps) := ih (by simpa using h)
          cases v <;> simp [resolve, hrest, Except.map]

/-- Only an axis of the frame can be the one that is homed. -/
theorem range_of_same {axis : Number} {n : Nat} (hi : i < n) (h : axis.same (.int i) = true) :
    ((Number.int 0).le axis && axis.lt (.int n)) = true := by
  obtain ⟨p, hp, hq⟩ := (Number.same_iff _ _).1 h
  rw [Bool.and_eq_true, Number.le_iff, Number.lt_iff, hp.trans hq.symm, ← Number.le_iff,
    ← Number.lt_iff]
  simp only [Number.le, Number.lt, Number.same, Bool.or_eq_true, decide_eq_true_eq]
  omega

/-! ### A frame with one of the axes -/

/-- A frame has one axis, which stands as an axis of another frame does. -/
structure Mirrors (i : Nat) (f g : Frame) : Prop where
  backlash : g.backlash = f.backlash
  axis : ∃ a name, f.axes[i]? = some a ∧ g.axes = [a.renamed name]

theorem getElem?_eq_some_getD {vs : List Value} (hi : i < vs.length) :
    vs[i]? = some (vs.getD i none) := by
  rw [List.getD_eq_getElem?_getD, List.getElem?_eq_getElem hi]
  rfl

/-- What a command tells a frame of one axis is what it tells this axis among
others: a target, or nothing, which leaves it where it is. -/
def AimsAlike (i : Nat) (f g : Frame) (a : Axis) (c : Command) : Prop :=
  (∃ targets v c', f.aims c = some targets ∧ targets.length = f.axes.length ∧
      targets[i]? = some v ∧ c.only i = some c' ∧ g.aims c' = some [v]) ∨
    c.only i = none ∧ ∀ targets, f.aims c = some targets →
      targets.length = f.axes.length ∧ targets[i]? = some a.position

theorem aimsAlike_homeAxis {a : Axis} {name : Option String} (ha : f.axes[i]? = some a)
    (hg : g.axes = [a.renamed name]) (axis : Number) : AimsAlike i f g a (.homeAxis axis) := by
  have hi : i < f.axes.length := (List.getElem?_eq_some_iff.1 ha).1
  have hlowered := getElem?_lowered axis f.axes 0 i
  rw [ha, Option.map_some, Nat.zero_add] at hlowered
  simp only [AimsAlike, aims, Command.only]
  cases hsame : axis.same (.int i) with
  | true =>
      rw [hsame, if_pos rfl] at hlowered
      refine .inl ⟨_, _, _, if_pos (range_of_same hi hsame), length_lowered .., hlowered,
        if_pos rfl, ?_⟩
      simp only [hg]
      rfl
  | false =>
      refine .inr ⟨if_neg (by simp), fun targets htargets => ?_⟩
      rw [hsame, if_neg (by simp)] at hlowered
      split at htargets
      · obtain rfl := Option.some.inj htargets
        exact ⟨length_lowered .., hlowered⟩
      · cases htargets

theorem aimsAlike_moveTo {a : Axis} (ha : f.axes[i]? = some a) {given : List Value}
    (hgiven : given.length = f.axes.length) : AimsAlike i f g a (.moveTo given) := by
  have hi : i < f.axes.length := (List.getElem?_eq_some_iff.1 ha).1
  have hposition : f.positions[i]? = some a.position := by simp [positions, ha]
  have hresolve : f.aims (.moveTo given) = some (List.zipWith Option.or given f.positions) := by
    rw [aims, resolve_eq_ok (by simpa [positions] using hgiven)]
    rfl
  have hlength : (List.zipWith Option.or given f.positions).length = f.axes.length := by
    simp [positions, hgiven]
  have htarget : (List.zipWith Option.or given f.positions)[i]? =
      some ((given.getD i none).or a.position) := by
    rw [List.getElem?_zipWith, getElem?_eq_some_getD (hgiven ▸ hi), hposition]
  simp only [AimsAlike, Command.only]
  cases hv : given.getD i none with
  | none =>
      refine .inr ⟨rfl, fun targets htargets => ?_⟩
      obtain rfl := Option.some.inj (hresolve.symm.trans htargets)
      exact ⟨hlength, by rw [htarget, hv, Option.none_or]⟩
  | some v =>
      refine .inl ⟨_, some v, .moveTo [some v], hresolve, hlength, ?_, rfl, rfl⟩
      rw [htarget, hv, Option.some_or]

theorem aims_only {a : Axis} {name : Option String} (ha : f.axes[i]? = some a)
    (hg : g.axes = [a.renamed name]) (hfits : c.Fits f.axes.length) (hclear : c ≠ .clear) :
    AimsAlike i f g a c := by
  have hi : i < f.axes.length := (List.getElem?_eq_some_iff.1 ha).1
  cases c with
  | home =>
      refine .inl ⟨f.lows, some a.drive.low, .home, rfl, by simp [lows], by simp [lows, ha], rfl,
        ?_⟩
      simp only [aims, lows, hg]
      rfl
  | homeAxis axis => exact aimsAlike_homeAxis ha hg axis
  | moveTo given => exact aimsAlike_moveTo ha hfits
  | setPositions given =>
      have hgiven : given.length = f.axes.length := hfits
      exact .inl ⟨given, given.getD i none, _, rfl, hfits, getElem?_eq_some_getD (hgiven ▸ hi),
        rfl, rfl⟩
  | clear => exact (hclear rfl).elim
  | examples survey => exact hfits.elim

/-- One command more, told to the frame and to its one axis. -/
theorem Mirrors.obey (h : Mirrors i f g) (hsettled : ∀ a ∈ f.axes, a.Settled)
    (hfits : c.Fits f.axes.length) (hreach : f.Reaches i c) :
    Mirrors i (f.obey c) ((c.only i).elim g g.obey) := by
  obtain ⟨hbacklash, a, name, ha, hg⟩ := h
  by_cases hclear : c = .clear
  · subst hclear
    refine ⟨hbacklash, { a with position := none, deadband := f.backlash.home }, name, ?_, ?_⟩
    · simp [Frame.obey, clear, ha]
    · simp [Command.only, Frame.obey, clear, hg, hbacklash, renamed]
  · obtain ⟨targets, v, c', haims, hlength, hv, honly, haims'⟩ | ⟨honly, htargets⟩ :=
      aims_only ha hg hfits hclear
    · rw [honly, obey_of_aims_eq_some haims, Option.elim_some, obey_of_aims_eq_some haims']
      refine ⟨by rw [backlash_setPositions, backlash_setPositions, hbacklash], _, name,
        getElem?_axes_setPositions hlength (hreach targets haims) ha hv, ?_⟩
      rw [axes_setPositions_singleton hg, hbacklash, moved_renamed]
    · rw [honly, Option.elim_none]
      obtain heq | ⟨targets, haims, heq⟩ | rfl | ⟨survey, rfl⟩ := obey_cases f c
      · rw [heq]
        exact ⟨hbacklash, a, name, ha, hg⟩
      · -- The axis is moved to where it is.
        obtain ⟨hlength, hv⟩ := htargets targets haims
        have hstay := (hsettled a (List.mem_of_getElem? ha)).moved_position (b := f.backlash)
        have hmoved := getElem?_axes_setPositions hlength (hreach targets haims) ha hv
        rw [hstay] at hmoved
        rw [heq]
        exact ⟨hbacklash.trans (backlash_setPositions f targets).symm, a, name, hmoved, hg⟩
      · exact (hclear rfl).elim
      · exact hfits.elim

/-! ### Histories -/

/-- Position and deadband of an axis, as the state lists them. -/
def standing (f : Frame) (i : Nat) : Option Value × Option Value :=
  (f.positions[i]?, f.deadbands[i]?)

/-- How an axis stands at first and after each of some commands, of which some
may say nothing. -/
def history (i : Nat) : Frame → List (Option Command) → List (Option Value × Option Value)
  | f, [] => [f.standing i]
  | f, c :: cs => f.standing i :: history i (c.elim f f.obey) cs

/-- Each of some commands comes as far as an axis. -/
def ReachesAll (i : Nat) : Frame → List Command → Prop
  | _, [] => True
  | f, c :: cs => f.Reaches i c ∧ ReachesAll i (f.obey c) cs

/-- Each of some commands moves axes without fail. -/
def SucceedsAll : Frame → List Command → Prop
  | _, [] => True
  | f, c :: cs => f.Succeeds c ∧ SucceedsAll (f.obey c) cs

theorem SucceedsAll.reachesAll {commands : List Command} (h : f.SucceedsAll commands) (i : Nat) :
    f.ReachesAll i commands := by
  induction commands generalizing f with
  | nil => trivial
  | cons c commands ih => exact ⟨h.1.reaches i, ih h.2⟩

theorem Mirrors.standing (h : Mirrors i f g) : g.standing 0 = f.standing i := by
  obtain ⟨hbacklash, a, name, ha, hg⟩ := h
  simp only [Frame.standing, positions, deadbands, hg, hbacklash]
  cases hactive : f.backlash.active <;> simp [ha, renamed]

theorem settled_obey (h : ∀ a ∈ f.axes, a.Settled) (hfits : c.Fits f.axes.length) :
    ∀ a ∈ (f.obey c).axes, a.Settled := by
  obtain heq | ⟨targets, -, heq⟩ | rfl | ⟨survey, rfl⟩ := obey_cases f c
  · rw [heq]
    exact h
  · rw [heq, setPositions]
    split
    · exact h
    · exact forall_moveAxes (fun a v a' _ hmove => settled_of_moveTo hmove) h targets
  · simp only [obey, clear, List.forall_mem_map]
    exact fun a _ p hp => by cases hp
  · exact hfits.elim

theorem length_axes_obey (hfits : c.Fits f.axes.length) :
    (f.obey c).axes.length = f.axes.length := by
  obtain heq | ⟨targets, -, heq⟩ | rfl | ⟨survey, rfl⟩ := obey_cases f c
  · rw [heq]
  · rw [heq, setPositions]
    split
    · rfl
    · simpa using congrArg List.length (drives_moveAxes f.backlash f.axes targets)
  · simp [obey, clear]
  · exact hfits.elim

theorem Mirrors.history_eq (h : Mirrors i f g) (hsettled : ∀ a ∈ f.axes, a.Settled)
    {commands : List Command} (hfits : ∀ c ∈ commands, c.Fits f.axes.length)
    (hreach : f.ReachesAll i commands) :
    f.history i (commands.map some) = g.history 0 (commands.map (Command.only i)) := by
  induction commands generalizing f g with
  | nil => simp only [List.map_nil, history, h.standing]
  | cons c commands ih =>
      rw [List.forall_mem_cons] at hfits
      simp only [List.map_cons, history, h.standing, Option.elim_some]
      have hnext := ih (h.obey hsettled hfits.1 hreach.1) (settled_obey hsettled hfits.1)
        (length_axes_obey hfits.1 ▸ hfits.2) hreach.2
      rw [hnext]

theorem getElem?_nameDrives (k i : Nat) (ds : List Drive) :
    (nameDrives k ds)[i]? = ds[i]?.map fun d => d.withName (k + i) := by
  induction ds generalizing k i with
  | nil => rfl
  | cons d ds ih =>
      cases i with
      | zero => rfl
      | succ i => rw [nameDrives, List.getElem?_cons_succ, ih, List.getElem?_cons_succ,
          Nat.add_assoc, Nat.add_comm 1 i]

theorem withName_eq (d : Drive) (k : Nat) :
    d.withName k = { d with name := (d.withName k).name } := by
  unfold Drive.withName
  cases d.name <;> rfl

variable {drives : List Drive} {d : Drive} {stream stream' : Random.Stream}

theorem mirrors_fresh (hd : drives[i]? = some d) :
    Mirrors i (fresh drives b stream) (fresh [d] b stream') := by
  refine ⟨rfl, ⟨d.withName i, none, b.home⟩, (d.withName 0).name, ?_, ?_⟩
  · simp [fresh, getElem?_nameDrives, hd]
  · have hrenamed : renamed ⟨d.withName i, none, b.home⟩ (d.withName 0).name =
        ⟨d.withName 0, none, b.home⟩ := by
      rw [renamed, withName_eq d i, withName_eq d 0]
    rw [hrenamed]
    rfl

theorem settled_fresh : ∀ a ∈ (fresh drives b stream).axes, a.Settled := by
  simp only [fresh, List.forall_mem_map]
  exact fun d _ p hp => by cases hp

theorem length_axes_fresh : (fresh drives b stream).axes.length = drives.length := by
  rw [fresh, List.length_map, length_nameDrives]

/-! ### Commands within the range -/

/-- A command without targets that are whole numbers too large. -/
def Command.Moderate : Command → Prop
  | .moveTo targets => Frame.Moderate targets
  | .setPositions targets => Frame.Moderate targets
  | _ => True

instance (c : Command) : Decidable c.Moderate := by
  cases c <;> unfold Command.Moderate <;> infer_instance

theorem backlash_obey (hfits : c.Fits f.axes.length) : (f.obey c).backlash = f.backlash := by
  obtain heq | ⟨targets, -, heq⟩ | rfl | ⟨survey, rfl⟩ := obey_cases f c
  · rw [heq]
  · rw [heq, backlash_setPositions]
  · rfl
  · exact hfits.elim

theorem moderate_lowered {axes : List Axis} (h : ∀ a ∈ axes, a.Ordinary b) (axis : Number)
    (k : Nat) : Moderate (lowered axis k axes) := by
  induction axes generalizing k with
  | nil => simp [Moderate, lowered]
  | cons a as ih =>
      rw [List.forall_mem_cons] at h
      refine List.forall_mem_cons.2 ⟨?_, ih h.2 (k + 1)⟩
      split
      · rintro p ⟨⟩
        exact h.1.low
      · exact h.1.position

theorem moderate_resolve {old given targets : List Value} (hold : Moderate old)
    (hgiven : Moderate given) (h : resolve old given = .ok targets) : Moderate targets := by
  induction old, given using resolve.induct generalizing targets with
  | case1 old =>
      obtain rfl := Except.ok.inj h
      exact hgiven
  | case2 old v vs ih =>
      rw [resolve] at h
      rw [Moderate, List.forall_mem_cons] at hgiven
      cases hrest : resolve old.tail vs with
      | error e => simp [hrest, Except.map] at h
      | ok rest =>
          obtain rfl : some v :: rest = targets := by simpa [hrest, Except.map] using h
          exact List.forall_mem_cons.2
            ⟨hgiven.1, ih (fun v hv => hold v (List.mem_of_mem_tail hv)) hgiven.2 hrest⟩
  | case3 p ps vs ih =>
      rw [resolve] at h
      rw [Moderate, List.forall_mem_cons] at hold hgiven
      cases hrest : resolve ps vs with
      | error e => simp [hrest, Except.map] at h
      | ok rest =>
          obtain rfl : p :: rest = targets := by simpa [hrest, Except.map] using h
          exact List.forall_mem_cons.2 ⟨hold.1, ih hold.2 hgiven.2 hrest⟩
  | case4 vs => cases h

theorem moderate_aims (haxes : ∀ a ∈ f.axes, a.Ordinary b) (hc : c.Moderate) {targets : List Value}
    (haims : f.aims c = some targets) : Moderate targets := by
  cases c with
  | home =>
      obtain rfl := Option.some.inj haims
      simp only [Moderate, lows, List.forall_mem_map]
      rintro a ha p ⟨⟩
      exact (haxes a ha).low
  | homeAxis axis =>
      simp only [aims] at haims
      split at haims
      · obtain rfl := Option.some.inj haims
        exact moderate_lowered haxes axis 0
      · cases haims
  | moveTo given =>
      simp only [aims] at haims
      have hpositions : Moderate f.positions := by
        simp only [Moderate, positions, List.forall_mem_map]
        exact fun a ha => (haxes a ha).position
      cases hresolve : resolve f.positions given with
      | error e => simp [hresolve, Except.toOption] at haims
      | ok resolved =>
          obtain rfl : resolved = targets := by simpa [hresolve, Except.toOption] using haims
          exact moderate_resolve hpositions hc hresolve
  | setPositions given =>
      obtain rfl := Option.some.inj haims
      exact hc
  | clear => cases haims
  | examples survey => cases haims

theorem ordinary_obey (hb : f.backlash.Ordinary) (haxes : ∀ a ∈ f.axes, a.Ordinary f.backlash)
    (hfits : c.Fits f.axes.length) (hc : c.Moderate) :
    ∀ a ∈ (f.obey c).axes, a.Ordinary f.backlash := by
  obtain heq | ⟨targets, haims, heq⟩ | rfl | ⟨survey, rfl⟩ := obey_cases f c
  · rw [heq]
    exact haxes
  · rw [heq, setPositions]
    split
    · exact haxes
    · exact (moveAxes_of_moderate hb haxes (moderate_aims haxes hc haims)).2
  · simp only [obey, clear, List.forall_mem_map]
    exact fun a ha => ⟨(haxes a ha).low, (haxes a ha).high, by simp, fun hactive => (hb hactive).2⟩
  · exact hfits.elim

/-- A command that fits has a target for each axis. -/
theorem length_aims (hfits : c.Fits f.axes.length) {targets : List Value}
    (haims : f.aims c = some targets) : targets.length = f.axes.length := by
  cases c with
  | home =>
      obtain rfl := Option.some.inj haims
      simp [lows]
  | homeAxis axis =>
      simp only [aims] at haims
      split at haims
      · obtain rfl := Option.some.inj haims
        exact length_lowered ..
      · cases haims
  | moveTo given =>
      have hgiven : given.length = f.axes.length := hfits
      rw [aims, resolve_eq_ok (by simpa [positions] using hgiven)] at haims
      obtain rfl := Option.some.inj haims
      simp [positions, hgiven]
  | setPositions given =>
      obtain rfl := Option.some.inj haims
      exact hfits
  | clear => cases haims
  | examples survey => cases haims

/-- Within the range no move fails. -/
theorem succeedsAll_of_moderate (hb : f.backlash.Ordinary)
    (haxes : ∀ a ∈ f.axes, a.Ordinary f.backlash) {commands : List Command}
    (hfits : ∀ c ∈ commands, c.Fits f.axes.length) (hc : ∀ c ∈ commands, c.Moderate) :
    f.SucceedsAll commands := by
  induction commands generalizing f with
  | nil => trivial
  | cons c commands ih =>
      rw [List.forall_mem_cons] at hfits hc
      have hbacklash := backlash_obey hfits.1
      refine ⟨fun targets haims => ?_, ih (hbacklash ▸ hb)
        (hbacklash ▸ ordinary_obey hb haxes hfits.1 hc.1) (length_axes_obey hfits.1 ▸ hfits.2) hc.2⟩
      have hmoves := (moveAxes_of_moderate hb haxes (moderate_aims haxes hc.1 haims)).1
      rw [setPositions, if_neg (not_not.2 (length_aims hfits.1 haims))]
      exact mapError_eq_ok_iff.2 hmoves

/-! ### Independence -/

/-- With drives whose limits are no whole numbers too large, every axis of a new
frame can be moved. -/
theorem ordinary_fresh (hb : b.Ordinary)
    (hdrives : ∀ d ∈ drives, d.low.Within wholeLimit ∧ d.high.Within wholeLimit) :
    ∀ a ∈ (fresh drives b stream).axes, a.Ordinary b := by
  simp only [fresh, List.forall_mem_map]
  intro d hd
  obtain ⟨k, hk⟩ := List.mem_iff_getElem?.1 hd
  rw [getElem?_nameDrives] at hk
  obtain ⟨d₀, hd₀, rfl⟩ := Option.map_eq_some_iff.1 hk
  obtain ⟨hlow, hhigh⟩ := hdrives d₀ (List.mem_of_getElem? hd₀)
  rw [withName_eq]
  exact ⟨hlow, hhigh, by simp, fun hactive => (hb hactive).2⟩

/-- An axis of a frame that has been made without a state goes through the
positions and deadbands that it would go through alone, told only what concerns
it, if every command comes as far as this axis. No command fails to move an axis,
this one or another, if no whole number is too large. -/
theorem history_eq_history_only {unseeded unseeded' : Random.Stream} {seed seed' : Datum}
    (hmake : make drives b unseeded seed none = .ok f) (hd : drives[i]? = some d)
    (hone : make [d] b unseeded' seed' none = .ok g) {commands : List Command}
    (hfits : ∀ c ∈ commands, c.Fits drives.length) :
    (f.ReachesAll i commands →
      f.history i (commands.map some) = g.history 0 (commands.map (Command.only i))) ∧
    (b.Ordinary → (∀ d ∈ drives, d.low.Within wholeLimit ∧ d.high.Within wholeLimit) →
      (∀ c ∈ commands, c.Moderate) → f.SucceedsAll commands ∧ f.ReachesAll i commands) := by
  obtain ⟨stream, rfl⟩ := make_none hmake
  obtain ⟨stream', rfl⟩ := make_none hone
  have hlength : (fresh drives b stream).axes.length = drives.length := length_axes_fresh
  rw [← hlength] at hfits
  refine ⟨(mirrors_fresh hd).history_eq settled_fresh hfits, fun hb hdrives hmoderate => ?_⟩
  have hsucceeds := succeedsAll_of_moderate hb (ordinary_fresh hb hdrives) hfits hmoderate
  exact ⟨hsucceeds, hsucceeds.reachesAll i⟩

/-- Everything homed, one axis moved while the other stays, and one forgotten. -/
def errand : List Command :=
  [.home, .moveTo [some (.int 3), none], .setPositions [none, some (.real .half)],
    .homeAxis (.int 0), .clear, .moveTo [some (.int 12), some (.int (-2))]]

theorem history_eq_history_only_pair : ∃ g,
    make [⟨.int (-5), .int 5, none, rfl⟩] pair.backlash default .null none = .ok g ∧
      (∀ c ∈ errand, c.Fits 2) ∧ pair.SucceedsAll errand ∧ pair.ReachesAll 1 errand ∧
      pair.history 1 (errand.map some) = g.history 0 (errand.map (Command.only 1)) := by
  have hmake : make [⟨.int 0, .int 10, none, rfl⟩, ⟨.int (-5), .int 5, none, rfl⟩]
      pair.backlash (.ofSeed 0) .null none = .ok pair := rfl
  have hone : make [⟨.int (-5), .int 5, none, rfl⟩] pair.backlash default .null none =
      .ok (fresh [⟨.int (-5), .int 5, none, rfl⟩] pair.backlash default) := rfl
  have hfits : ∀ c ∈ errand, c.Fits 2 := by decide
  obtain ⟨hhistory, hsucceeds⟩ := history_eq_history_only hmake (i := 1) rfl hone hfits
  have hordinary : pair.backlash.Ordinary :=
    fun _ => ⟨⟨.int 3, rfl, by decide⟩, .real .half, rfl, trivial⟩
  obtain ⟨hmoves, hreach⟩ := hsucceeds hordinary (by decide) (by decide)
  exact ⟨_, hone, hfits, hmoves, hreach, hhistory hreach⟩

/-- One axis with a limit beyond machine words, and one with small limits. -/
def farAndNear : List Drive :=
  [⟨.int 1, .int 1180591620717411303424, none, rfl⟩, ⟨.int 0, .int 20, none, rfl⟩]

/-- The first axis is homed, and then moved so far that the hyperbolic tangent
of the distance fails. -/
def outOfReach : List Command :=
  [.homeAxis (.int 0), .moveTo [some (.int 36893488147419103232), some (.int 0)]]

/-- An axis behind one whose move fails is not moved; alone it would be. -/
theorem not_history_eq_history_only : ∃ f g,
    make farAndNear pair.backlash default .null none = .ok f ∧
      make [⟨.int 0, .int 20, none, rfl⟩] pair.backlash default .null none = .ok g ∧
      (∀ c ∈ outOfReach, c.Fits farAndNear.length) ∧
      f.history 1 (outOfReach.map some) ≠ g.history 0 (outOfReach.map (Command.only 1)) :=
  ⟨_, _, rfl, rfl, by decide, by decide +kernel⟩

end Frame

end Gantry
