import Gantry.Proofs.Formula.Values
import Gantry.Proofs.Frame.Standstill
import Gantry.Proofs.Number.Sign

/-!
What a random walk gives. The walk starts at home, wherever the frame was, and
every further example is the frame after a move to the first sample that is far
enough on every axis. So the examples are as many as were asked for, unless as
many samples in a row as were allowed were too close on some axis.
-/

namespace Gantry

/-- Limits that are doubles, with a range that is one too. -/
def Drive.Samplable (d : Drive) : Prop := ∃ low ∈ d.low.toBinary64?, ∃ high ∈ d.high.toBinary64?,
  (high - low).isFinite = true

instance : DecidablePred Drive.Samplable := fun d => by
  unfold Drive.Samplable
  infer_instance

/-- A double within the limits. -/
def Drive.Admits (d : Drive) (x : Binary64) : Prop :=
  d.low.le (.real x) = true ∧ (Number.real x).le d.high = true

instance (d : Drive) : DecidablePred d.Admits := fun x => by
  unfold Drive.Admits
  infer_instance

/-- A lower limit that is kept as it is when it is converted to a double. -/
def Drive.Exact (d : Drive) : Prop := ∀ x ∈ d.low.toBinary64?, d.low.same (.real x) = true

instance : DecidablePred Drive.Exact := fun d => by
  unfold Drive.Exact
  infer_instance

/-! ### One move -/

namespace Drive

variable {d : Drive} {x y : Binary64}

theorem Samplable.isFinite (h : d.Samplable) :
    (∃ low ∈ d.low.toBinary64?, low.isFinite = true) ∧
      ∃ high ∈ d.high.toBinary64?, high.isFinite = true := by
  obtain ⟨low, hlow, high, hhigh, hrange⟩ := h
  obtain ⟨hhighFinite, hlowFinite⟩ := Binary64.isFinite_of_isFinite_sub hrange
  exact ⟨⟨low, hlow, hlowFinite⟩, high, hhigh, hhighFinite⟩

/-- Whatever is between finite limits is finite. -/
theorem Admits.isFinite (h : d.Samplable) (hx : d.Admits x) : x.isFinite = true := by
  obtain ⟨⟨low, hlow, hlowFinite⟩, high, hhigh, hhighFinite⟩ := h.isFinite
  have hge := Binary64.le_iff.1 (Number.le_toBinary64? hx.1 hlow rfl (.inr rfl))
  have hle := Binary64.le_iff.1 (Number.le_toBinary64? hx.2 rfl hhigh (.inl rfl))
  have hlowRank := Binary64.rank_lt_of_isFinite hlowFinite
  have hhighRank := Binary64.rank_lt_of_isFinite hhighFinite
  have hrank : x.rank = x.magnitude ∨ x.rank = -x.magnitude := by
    unfold Binary64.rank
    split <;> simp
  exact Binary64.isFinite_iff.2 (by omega)

theorem Admits.congr (hx : d.Admits x) (h : y.rank = x.rank) (hy : y.isNaN = false) :
    d.Admits y := by
  have hsame : (Number.real y).same (.real x) = true := by
    have hnum : x.isNaN = false := Number.isNaN_of_le hx.1
    simp [Number.same, Binary64.eqv, h, hnum, hy]
  exact ⟨(Number.le_of_same hsame).1.2 hx.1, (Number.le_of_same hsame).2.2 hx.2⟩

theorem Exact.admits (h : d.Exact) (hx : d.low.toBinary64? = some x) : d.Admits x := by
  have hself : d.low.le d.low = true := by
    rw [Number.le, Number.same_self d.isNaN_low, Bool.or_true]
  exact ⟨(Number.le_of_same (h x hx)).1.1 hself,
    (Number.le_of_same (h x hx)).2.1 (Number.le_of_lt d.low_lt_high)⟩

end Drive

/-- Deadbands, if there are any, that can be followed in doubles. -/
def Backlash.Convertible (b : Backlash) : Prop := b.active = true →
  (∃ x, b.scale.toReal = .ok x) ∧ ∃ x, b.home.toReal = .ok x

namespace Axis

variable {a : Axis} {b : Backlash} {x : Binary64}

/-- An axis on a walk, whose state is in doubles. -/
structure Underway (b : Backlash) (a : Axis) : Prop where
  position : ∃ x, a.position.toReal = .ok x ∧ x.isFinite = true
  deadband : b.active = true → ∃ x, a.deadband.toReal = .ok x

theorem exists_limitDeadband_real (z : Binary64) : ∃ w, limitDeadband (.real z) = .real w := by
  unfold limitDeadband Number.smaller Number.larger
  split <;> split <;> exact ⟨_, rfl⟩

/-- On a walk the deadband can always be followed. -/
theorem Underway.exists_deadbandAt (h : a.Underway b) (hb : b.Convertible)
    (hactive : b.active = true) :
    ∃ deadband y, a.deadbandAt b (.real x) = .ok deadband ∧ Value.toReal deadband = .ok y := by
  obtain ⟨⟨s, hs⟩, home, hhome⟩ := hb hactive
  obtain ⟨scale, hscale, hs⟩ := Value.toReal_eq_ok_iff.1 hs
  obtain ⟨c, hc⟩ := h.deadband hactive
  obtain ⟨d, hd, hc⟩ := Value.toReal_eq_ok_iff.1 hc
  obtain ⟨y, hy, -⟩ := h.position
  obtain ⟨p, hp, hy⟩ := Value.toReal_eq_ok_iff.1 hy
  have horigin : ∃ o, a.origin.toBinary64? = some o := by
    simp only [origin, hp]
    split
    · exact ⟨_, rfl⟩
    · exact ⟨y, hy⟩
  obtain ⟨o, ho⟩ := horigin
  unfold deadbandAt
  split
  · exact ⟨_, home, rfl, hhome⟩
  · have hdelta : Number.sub (.real x) a.origin = some (.real (x - o)) :=
      Number.combine_eq_real rfl ho (.inl rfl)
    have hscaled : scale.mul (.real (x - o)) = some (.real (s * (x - o))) :=
      Number.combine_eq_real hs rfl (.inr rfl)
    have hmoved : d.add (.real (s * (x - o)).tanh) = some (.real (c + (s * (x - o)).tanh)) :=
      Number.combine_eq_real hc rfl (.inr rfl)
    obtain ⟨w, hw⟩ := exists_limitDeadband_real (c + (s * (x - o)).tanh)
    refine ⟨some (.real w), w, ?_, rfl⟩
    simp [Value.combine, hdelta, hscale, hscaled, tanh, hd, hmoved, hw, Bind.bind, Except.bind,
      pure, Except.pure]

/-- On a walk every move to a sample succeeds, and ends there. -/
theorem Underway.exists_moveTo (h : a.Underway b) (hb : b.Convertible)
    (hd : a.drive.Samplable) (hx : a.drive.Admits x) :
    ∃ a' y, a.moveTo b (some (.real x)) = .ok a' ∧ a'.drive = a.drive ∧ a'.Underway b ∧
      a'.position.toReal = .ok y ∧ y.rank = x.rank ∧ a.drive.Admits y := by
  obtain ⟨⟨low, hlow, hlowFinite⟩, -⟩ := hd.isFinite
  -- Where the axis comes to, and how that is written as a double.
  obtain ⟨y, hy, hrank⟩ : ∃ y, (a.drive.clip (.real x)).toBinary64? = some y ∧
      y.rank = x.rank := by
    obtain hclip | ⟨hclip, hsame⟩ := a.drive.clip_cases hx.1 hx.2
    · exact ⟨x, by rw [hclip]; rfl, rfl⟩
    · exact ⟨low, by rw [hclip]; exact hlow, Number.rank_toBinary64?_of_same hsame hlow⟩
  have hyFinite := Binary64.isFinite_of_rank_eq hrank.symm (hx.isFinite hd)
  have hwithin := hx.congr hrank (Binary64.isNaN_eq_false_of_isFinite hyFinite)
  have hposition : Value.toReal (some (a.drive.clip (.real x))) = .ok y :=
    Value.toReal_eq_ok_iff.2 ⟨_, rfl, hy⟩
  simp only [Axis.moveTo]
  split
  · rename_i hmoves
    have hactive := (Bool.and_eq_true_iff.1 hmoves).1
    have hdeadband : ∃ deadband z, a.deadbandAt b (a.drive.clip (.real x)) = .ok deadband ∧
        Value.toReal deadband = .ok z := by
      obtain hclip | ⟨hclip, -⟩ := a.drive.clip_cases hx.1 hx.2
      · rw [hclip]
        exact h.exists_deadbandAt hb hactive
      · obtain ⟨-, home, hhome⟩ := hb hactive
        rw [hclip, deadbandAt, if_pos (Number.same_self a.drive.isNaN_low)]
        exact ⟨_, home, rfl, hhome⟩
    obtain ⟨deadband, z, hdeadband, hz⟩ := hdeadband
    rw [hdeadband]
    exact ⟨_, y, rfl, rfl, ⟨⟨y, hposition, hyFinite⟩, fun _ => ⟨z, hz⟩⟩, hposition, hrank, hwithin⟩
  · exact ⟨_, y, rfl, rfl, ⟨⟨y, hposition, hyFinite⟩, h.deadband⟩, hposition, hrank, hwithin⟩

/-- An axis can be moved to its lower limit wherever it is. -/
theorem exists_moveTo_low (b : Backlash) (a : Axis) : ∃ deadband,
    a.moveTo b (some a.drive.low) = .ok { a with position := some a.drive.low, deadband } ∧
      (b.active = false → deadband = a.deadband) := by
  have hat : a.deadbandAt b a.drive.low = .ok b.home := by
    rw [deadbandAt, if_pos (Number.same_self a.drive.isNaN_low)]
  simp only [Axis.moveTo, Drive.clip_low, hat]
  split
  · rename_i hmoves
    exact ⟨b.home, rfl, fun hb => by simp [hb] at hmoves⟩
  · exact ⟨a.deadband, rfl, fun _ => rfl⟩

theorem underway_homed (hb : b.Convertible) (hd : a.drive.Samplable) : (a.homed b).Underway b := by
  obtain ⟨⟨low, hlow, hfinite⟩, -⟩ := hd.isFinite
  refine ⟨⟨low, Value.toReal_eq_ok_iff.2 ⟨_, rfl, hlow⟩, hfinite⟩, fun hactive => ?_⟩
  simpa [homed, hactive] using (hb hactive).2

end Axis

namespace Frame

open Axis

variable {f : Frame} {b : Backlash} {sep : Number} {drives : List Drive} {axes : List Axis}
  {xs ys : List Binary64}

/-! ### Moves to samples -/

/-- Doubles within the limits of some drives, as far as there are drives. -/
def WithinLimits (drives : List Drive) (xs : List Binary64) : Prop :=
  ∀ p ∈ drives.zip xs, p.1.Admits p.2

instance (drives : List Drive) : DecidablePred (WithinLimits drives) := fun xs => by
  unfold WithinLimits
  infer_instance

theorem WithinLimits.isFinite (h : WithinLimits drives xs) (hdrives : ∀ d ∈ drives, d.Samplable)
    (hlength : xs.length = drives.length) : ∀ x ∈ xs, x.isFinite = true := by
  intro x hx
  obtain ⟨i, hi, rfl⟩ := List.mem_iff_getElem.1 hx
  have hmem : (drives[i], xs[i]) ∈ drives.zip xs :=
    List.mem_iff_getElem.2 ⟨i, by simpa using ⟨hlength ▸ hi, hi⟩, by simp⟩
  exact (h _ hmem).isFinite (hdrives _ (List.getElem_mem _))

/-- Every axis comes to its sample, however that is written. -/
theorem moveAxes_samples (hb : b.Convertible) (haxes : ∀ a ∈ axes, a.Underway b)
    (hdrives : ∀ a ∈ axes, a.drive.Samplable) (hlength : xs.length = axes.length)
    (hxs : WithinLimits (axes.map Axis.drive) xs) :
    ∃ axes' ys, moveAxes b axes (xs.map fun x => some (.real x)) = (.ok (), axes') ∧
      axes'.map Axis.drive = axes.map Axis.drive ∧ (∀ a ∈ axes', a.Underway b) ∧
      Value.toReals (axes'.map Axis.position) = .ok ys ∧
      List.Forall₂ (fun x y => Binary64.rank y = Binary64.rank x) xs ys ∧
      WithinLimits (axes.map Axis.drive) ys := by
  induction axes generalizing xs with
  | nil =>
    obtain rfl := List.length_eq_zero_iff.1 hlength
    exact ⟨[], [], rfl, rfl, by simp, rfl, .nil, by simp [WithinLimits]⟩
  | cons a axes ih =>
    cases xs with
    | nil => cases hlength
    | cons x xs =>
      rw [List.forall_mem_cons] at haxes hdrives
      rw [WithinLimits, List.map_cons, List.zip_cons_cons, List.forall_mem_cons] at hxs
      obtain ⟨a', y, hmove, hdrive, hunderway, hy, hrank, hwithin⟩ :=
        haxes.1.exists_moveTo hb hdrives.1 hxs.1
      obtain ⟨axes', ys, hmoves, hdrives', hunderways, hys, hranks, hwithins⟩ :=
        ih haxes.2 hdrives.2 (Nat.succ.inj hlength) hxs.2
      refine ⟨a' :: axes', y :: ys, by simp [moveAxes, hmove, hmoves], by simp [hdrive, hdrives'],
        List.forall_mem_cons.2 ⟨hunderway, hunderways⟩,
        Value.toReals_cons_eq_ok_iff.2 ⟨y, ys, hy, hys, rfl⟩, .cons hrank hranks, ?_⟩
      rw [WithinLimits, List.map_cons, List.zip_cons_cons, List.forall_mem_cons]
      exact ⟨hwithin, hwithins⟩

/-! ### Samples -/

/-- The stream after a position was sampled for every drive so many times. -/
def drawn (drives : List Drive) : Nat → Random.Stream → Random.Stream
  | 0, stream => stream
  | k + 1, stream => drawn drives k (sampleDrives drives stream).2

theorem drawn_add (drives : List Drive) (j k : Nat) (stream : Random.Stream) :
    drawn drives j (drawn drives k stream) = drawn drives (k + j) stream := by
  induction k generalizing stream with
  | zero => rw [Nat.zero_add, drawn]
  | succ k ih => rw [drawn, ih, Nat.succ_add, drawn]

/-- What is sampled next is within the limits. -/
def Fair (drives : List Drive) (stream : Random.Stream) : Prop :=
  ∀ xs ∈ (sampleDrives drives stream).1.toOption, WithinLimits drives xs

instance (drives : List Drive) : DecidablePred (Fair drives) := fun stream => by
  unfold Fair
  infer_instance

theorem exists_sampleDrives (h : ∀ d ∈ drives, d.Samplable) (stream : Random.Stream) :
    ∃ xs, (sampleDrives drives stream).1 = .ok xs ∧ xs.length = drives.length := by
  induction drives generalizing stream with
  | nil => exact ⟨[], rfl, rfl⟩
  | cons d drives ih =>
    rw [List.forall_mem_cons] at h
    obtain ⟨low, hlow, high, hhigh, hrange⟩ := h.1
    obtain ⟨xs, hxs, hlength⟩ := ih h.2 (stream.nextBetween low high).2
    refine ⟨(stream.nextBetween low high).1 :: xs, ?_, by simp [hlength]⟩
    simp [sampleDrives, Option.mem_def.1 hlow, Option.mem_def.1 hhigh, hrange, hxs, Except.map]

/-- Doubles that are far enough from others. -/
def Apart (sep : Number) (xs ys : List Binary64) : Prop :=
  ∀ p ∈ xs.zip ys, sep.le (.real (p.1 - p.2).abs) = true

theorem distances_eq {positions : List Value} (hys : Value.toReals positions = .ok ys) :
    distances xs positions = .ok ((xs.zip ys).map fun p => .real (p.1 - p.2).abs) := by
  induction xs generalizing positions ys with
  | nil => cases positions <;> rfl
  | cons x xs ih =>
    cases positions with
    | nil =>
      obtain rfl := Except.ok.inj hys
      rfl
    | cons v positions =>
      obtain ⟨y, ys, hy, hrest, rfl⟩ := Value.toReals_cons_eq_ok_iff.1 hys
      obtain ⟨p, rfl, hp⟩ := Value.toReal_eq_ok_iff.1 hy
      have hsub : Number.sub (.real x) p = some (.real (x - y)) :=
        Number.combine_eq_real rfl hp (.inl rfl)
      simp only [distances, Value.combine, hsub, ih hrest, bind, Except.bind, pure, Except.pure,
        List.zip_cons_cons, List.map_cons, Number.abs]

/-- Whether a sample is far enough can be told between finite numbers. -/
theorem exists_isFar (sep : Number) {positions : List Value}
    (hys : Value.toReals positions = .ok ys)
    (hxs : ∀ x ∈ xs, x.isFinite = true) (hfinite : ∀ y ∈ ys, y.isFinite = true) :
    ∃ far, isFar (some sep) xs positions = .ok far ∧ (far = true ↔ Apart sep xs ys) := by
  have hnum : ∀ p ∈ xs.zip ys, (Number.real (p.1 - p.2).abs).isNaN = false := by
    intro p hp
    obtain ⟨hx, hy⟩ := List.of_mem_zip hp
    change (p.1 - p.2).abs.isNaN = false
    rw [Binary64.isNaN_abs]
    exact Binary64.isNaN_sub_of_isFinite (hxs _ hx) (hfinite _ hy)
  unfold Apart
  simp only [isFar, distances_eq hys]
  cases hzip : xs.zip ys with
  | nil => exact ⟨true, rfl, by simp⟩
  | cons p ps =>
    rw [hzip, List.forall_mem_cons] at hnum
    have hleast := Number.le_foldl_smaller_iff (s := sep) hnum.1 (List.forall_mem_map.2 hnum.2)
    rw [← List.map_cons (f := fun p : Binary64 × Binary64 => Number.real (p.1 - p.2).abs),
      List.forall_mem_map] at hleast
    exact ⟨_, rfl, hleast⟩

/-- Sampling ends with a sample that is far enough, or after as many tries as
are allowed, all of them too close. -/
theorem findMove_cases {positions : List Value} {survey : Survey} {tries : Nat}
    {stream : Random.Stream} (hsep : survey.separation = some sep)
    (hdrives : ∀ d ∈ drives, d.Samplable) (hys : Value.toReals positions = .ok ys)
    (hfinite : ∀ y ∈ ys, y.isFinite = true)
    (hfair : ∀ k < tries, Fair drives (drawn drives k stream)) :
    (∃ xs, ∃ k < tries, findMove drives positions survey tries stream =
        (.ok xs, drawn drives (k + 1) stream) ∧
      xs.length = drives.length ∧ WithinLimits drives xs ∧ Apart sep xs ys) ∨
    findMove drives positions survey tries stream =
        (.error (.noMove survey.separation survey.maxTries), drawn drives tries stream) ∧
      ∀ k < tries, ∃ xs, (sampleDrives drives (drawn drives k stream)).1 = .ok xs ∧
        ¬Apart sep xs ys := by
  induction tries generalizing stream with
  | zero => exact .inr ⟨rfl, by simp⟩
  | succ tries ih =>
    obtain ⟨xs, hxs, hlength⟩ := exists_sampleDrives hdrives stream
    have hadmits : WithinLimits drives xs :=
      hfair 0 (Nat.succ_pos _) xs (by rw [drawn, hxs]; rfl)
    have hsplit : sampleDrives drives stream = (.ok xs, drawn drives 1 stream) :=
      Prod.ext hxs rfl
    simp only [findMove, hsplit, hsep]
    obtain ⟨far, hfar, hapart⟩ := exists_isFar sep hys
      (hadmits.isFinite hdrives hlength) hfinite
    rw [hfar]
    cases far with
    | true => exact .inl ⟨xs, 0, Nat.succ_pos _, rfl, hlength, hadmits, hapart.1 rfl⟩
    | false =>
      have hlater : ∀ k < tries, Fair drives (drawn drives k (drawn drives 1 stream)) := by
        intro k hk
        rw [drawn_add, Nat.add_comm]
        exact hfair (k + 1) (Nat.succ_lt_succ hk)
      obtain ⟨xs', k, hk, hfound, hmove⟩ | ⟨hnone, hall⟩ := ih hlater
      · refine .inl ⟨xs', k + 1, Nat.succ_lt_succ hk, ?_, hmove⟩
        rw [hfound, drawn_add, Nat.add_comm 1]
      · refine .inr ⟨by rw [hnone, drawn_add, Nat.add_comm 1, hsep], fun k hk => ?_⟩
        cases k with
        | zero => exact ⟨xs, hxs, fun h => Bool.false_ne_true (hapart.2 h)⟩
        | succ k =>
          have hclose := hall k (Nat.lt_of_succ_lt_succ hk)
          rwa [drawn_add, Nat.add_comm 1] at hclose

/-! ### A frame on its way -/

/-- A frame that can go on a walk: its limits are doubles, and so is what its
deadbands depend on. -/
structure Walkable (f : Frame) : Prop where
  drives : ∀ d ∈ f.drives, d.Samplable
  backlash : f.backlash.Convertible

/-- What a frame becomes on a walk. -/
structure Roams (f g : Frame) : Prop where
  backlash : g.backlash = f.backlash
  drives : g.drives = f.drives
  axes : ∀ a ∈ g.axes, a.Underway g.backlash

variable {g h : Frame} {survey : Survey} {zs : List Binary64} {m : Int}

theorem Walkable.roams_homed (hf : f.Walkable) : f.Roams f.homed := by
  refine ⟨rfl, by simp [Frame.drives, homed, Axis.homed], ?_⟩
  simp only [homed, List.forall_mem_map]
  exact fun a ha => underway_homed hf.backlash (hf.drives _ (List.mem_map_of_mem ha))

theorem Roams.isFinite (hg : f.Roams g) (hys : Value.toReals g.positions = .ok ys) :
    ∀ y ∈ ys, y.isFinite = true := by
  have haxes := hg.axes
  unfold positions at hys
  generalize g.axes = axes at haxes hys
  induction axes generalizing ys with
  | nil =>
    obtain rfl := Except.ok.inj hys
    simp
  | cons a axes ih =>
    rw [List.forall_mem_cons] at haxes
    obtain ⟨y, zs, hy, hzs, rfl⟩ := Value.toReals_cons_eq_ok_iff.1 hys
    obtain ⟨x, hx, hfinite⟩ := haxes.1.position
    obtain rfl := Except.ok.inj (hx.symm.trans hy)
    exact List.forall_mem_cons.2 ⟨hfinite, ih haxes.2 hzs⟩

/-- The state of a frame on a walk is in doubles. -/
theorem Roams.exists_toReals_state (hg : f.Roams g) : ∃ ys ds,
    Value.toReals g.positions = .ok ys ∧ Value.toReals g.state = .ok (ys ++ ds) := by
  have hpositions : ∀ v ∈ g.positions, ∃ x, v.toReal = .ok x := by
    simp only [positions, List.forall_mem_map]
    exact fun a ha => (hg.axes a ha).position.imp fun _ hx => hx.1
  have hdeadbands : ∀ v ∈ g.deadbands, ∃ x, v.toReal = .ok x := by
    unfold deadbands
    split
    · simp only [List.forall_mem_map]
      exact fun a ha => (hg.axes a ha).deadband ‹_›
    · simp
  obtain ⟨ys, hys⟩ := Value.exists_toReals hpositions
  obtain ⟨ds, hds⟩ := Value.exists_toReals hdeadbands
  exact ⟨ys, ds, hys, Value.toReals_append hys hds⟩

theorem exampleHere_reached (hxs : Value.toReals g.state = .ok xs) :
    g.exampleHere .reached = .ok ⟨xs, xs⟩ := by
  simp [exampleHere, Target.values, hxs, Bind.bind, Except.bind, pure, Except.pure]

/-- As many samples as are allowed, one after the other until the last that was
drawn, and all of them too close on some axis. -/
def Stranded (f : Frame) (sep : Number) (tries : Nat) (g : Frame) : Prop :=
  ∃ k ys, g.stream = drawn f.drives (k + tries) f.stream ∧
    Value.toReals g.positions = .ok ys ∧ ∀ j < tries, ∃ xs,
      (sampleDrives f.drives (drawn f.drives (k + j) f.stream)).1 = .ok xs ∧ ¬Apart sep xs ys

theorem Stranded.of_drawn {tries k : Nat} (h' : g.Stranded sep tries h)
    (hdrives : g.drives = f.drives) (hstream : g.stream = drawn f.drives k f.stream) :
    f.Stranded sep tries h := by
  obtain ⟨i, ys, hlast, hys, hclose⟩ := h'
  simp only [hdrives, hstream, drawn_add] at hlast hclose
  exact ⟨k + i, ys, by rw [hlast, Nat.add_assoc], hys, fun j hj => by
    rw [Nat.add_assoc]
    exact hclose j hj⟩

theorem Apart.congr (hxs : Apart sep xs ys)
    (hranks : List.Forall₂ (fun x z => Binary64.rank z = Binary64.rank x) xs zs) :
    Apart sep zs ys := by
  unfold Apart at *
  induction hranks generalizing ys with
  | nil => simp
  | cons hrank _ ih =>
    cases ys with
    | nil => simp
    | cons y ys =>
      rw [List.zip_cons_cons, List.forall_mem_cons] at hxs ⊢
      exact ⟨Binary64.abs_sub_congr hrank y ▸ hxs.1, ih hxs.2⟩

/-- One more move: to a sample that is far enough, unless none is found. -/
theorem Roams.wander_cases (hf : f.Walkable) (hg : f.Roams g)
    (hsep : survey.separation = some sep) (hm : survey.maxTries = some (.int m))
    (hys : Value.toReals g.positions = .ok ys)
    (hfair : ∀ k < m.toNat, Fair g.drives (drawn g.drives k g.stream)) :
    (∃ h, g.wander survey = (.error (.noMove survey.separation survey.maxTries), h) ∧
      g.Stranded sep m.toNat h) ∨
    ∃ h zs, g.wander survey = (.ok (), h) ∧ f.Roams h ∧ Value.toReals h.positions = .ok zs ∧
      Apart sep zs ys ∧ WithinLimits f.drives zs ∧
      ∃ k ≤ m.toNat, h.stream = drawn g.drives k g.stream := by
  have hdrives : ∀ d ∈ g.drives, d.Samplable := hg.drives ▸ hf.drives
  have hconvertible : g.backlash.Convertible := hg.backlash ▸ hf.backlash
  simp only [wander, hm, Value.toInt]
  obtain ⟨xs, k, hk, hfound, hlength, hwithin, hapart⟩ | ⟨hnone, hclose⟩ :=
    findMove_cases hsep hdrives hys (hg.isFinite hys) hfair
  · obtain ⟨axes, zs, hmove, hsame, hunderway, hzs, hranks, hlimits⟩ :=
      moveAxes_samples hconvertible hg.axes (fun a ha => hdrives _ (List.mem_map_of_mem ha))
        (by simpa [Frame.drives] using hlength) hwithin
    refine .inr ⟨{ g with axes, stream := drawn g.drives (k + 1) g.stream }, zs, ?_,
      ⟨hg.backlash, hsame.trans hg.drives, hunderway⟩, hzs, hapart.congr hranks,
      hg.drives ▸ hlimits, k + 1, hk, rfl⟩
    have htargets : (xs.map fun x => (some (.real x) : Value)).length = g.axes.length := by
      simpa [Frame.drives] using hlength
    simp [hfound, setPositions, htargets, hmove, Except.mapError]
  · rw [hnone, hm]
    refine .inl ⟨{ g with stream := drawn g.drives m.toNat g.stream }, rfl, 0, ys, ?_, hys, ?_⟩
    · rw [Nat.zero_add]
    · intro j hj
      rw [Nat.zero_add]
      exact hclose j hj

/-! ### Walks -/

/-- The positions that an example for so many axes begins with. -/
def placed (n : Nat) (e : Training.Example Binary64) : List Binary64 := e.input.take n

/-- The examples of a walk, from a state on: how they begin, what is between
them, and where the frame is in the end. -/
structure Tour (f : Frame) (sep : Number) (start : List Value)
    (es : List (Training.Example Binary64)) (g : Frame) : Prop where
  start : ∃ e ∈ es.head?, Value.toReals start = .ok e.input
  apart : es.IsChain fun e e' =>
    Apart sep (placed f.drives.length e') (placed f.drives.length e)
  within : ∀ e ∈ es.tail, WithinLimits f.drives (placed f.drives.length e)
  width : ∀ e ∈ es, e.input.length = f.width
  target : ∀ e ∈ es, e.target = e.input
  last : ∃ e ∈ es.getLast?, Value.toReals g.state = .ok e.input

/-- One example more at the beginning. -/
theorem Tour.cons {start later : List Value} {e e' : Training.Example Binary64}
    {es : List (Training.Example Binary64)} (h : f.Tour sep later (e' :: es) g)
    (hstart : Value.toReals start = .ok e.input) (htarget : e.target = e.input)
    (hwidth : e.input.length = f.width)
    (hapart : Apart sep (placed f.drives.length e') (placed f.drives.length e))
    (hwithin : WithinLimits f.drives (placed f.drives.length e')) :
    f.Tour sep start (e :: e' :: es) g where
  start := ⟨e, rfl, hstart⟩
  apart := .cons_cons hapart h.apart
  within := List.forall_mem_cons.2 ⟨hwithin, h.within⟩
  width := List.forall_mem_cons.2 ⟨hwidth, h.width⟩
  target := List.forall_mem_cons.2 ⟨htarget, h.target⟩
  last := by simpa using h.last

theorem Roams.width (hg : f.Roams g) : g.width = f.width := by
  have hlength : g.axes.length = f.axes.length := by
    simpa [Frame.drives] using congrArg List.length hg.drives
  rw [Frame.width, Frame.width, hlength, hg.backlash]

theorem Roams.length_input (hg : f.Roams g) (hxs : Value.toReals g.state = .ok xs) :
    xs.length = f.width := by
  rw [Value.length_of_toReals hxs, length_state, hg.width]

theorem Roams.placed (hg : f.Roams g) (hys : Value.toReals g.positions = .ok ys)
    (ds ts : List Binary64) : placed f.drives.length ⟨ys ++ ds, ts⟩ = ys := by
  have hlength : f.drives.length = ys.length := by
    rw [← hg.drives, Value.length_of_toReals hys, Frame.drives, positions, List.length_map,
      List.length_map]
  rw [Frame.placed, hlength, List.take_left]

/-- A walk from wherever a frame has come to. -/
theorem Roams.walkOn_cases (survey : Survey) (hf : f.Walkable) (hg : f.Roams g)
    (htarget : survey.target = .reached) (hsep : survey.separation = some sep)
    (hm : survey.maxTries = some (.int m)) (hxs : Value.toReals g.state = .ok xs) {n : Nat}
    (hfair : ∀ k < n * m.toNat, Fair g.drives (drawn g.drives k g.stream)) :
    (∃ h, walkOn survey n g = (.error (.noMove survey.separation survey.maxTries), h) ∧
      g.Stranded sep m.toNat h) ∨
    ∃ es h, walkOn survey n g = (.ok es, h) ∧ es.length = n ∧ f.Roams h ∧
      f.Tour sep g.state (⟨xs, xs⟩ :: es) h := by
  induction n generalizing g xs with
  | zero =>
    refine .inr ⟨[], g, rfl, rfl, hg, ?_⟩
    exact ⟨⟨_, rfl, hxs⟩, .singleton _, by simp, by simpa using hg.length_input hxs, by simp,
      _, rfl, hxs⟩
  | succ n ih =>
    obtain ⟨ys, ds, hys, hstate⟩ := hg.exists_toReals_state
    obtain rfl := Except.ok.inj (hxs.symm.trans hstate)
    rw [walkOn]
    obtain ⟨h, hwander, hstranded⟩ | ⟨h, zs, hwander, hh, hzs, hapart, hwithin, k, hk, hstream⟩ :=
      hg.wander_cases hf hsep hm hys fun k hk => hfair k (by rw [Nat.succ_mul]; omega)
    · rw [hwander]
      exact .inl ⟨h, rfl, hstranded⟩
    · obtain ⟨zs', ds', hzs', hstate'⟩ := hh.exists_toReals_state
      obtain rfl := Except.ok.inj (hzs.symm.trans hzs')
      rw [hwander]
      simp only [htarget, exampleHere_reached hstate']
      have hsame : h.drives = g.drives := hh.drives.trans hg.drives.symm
      -- The walk goes on with what is left of the stream.
      have hrest := ih hh hstate' fun j hj => by
        rw [hsame, hstream, drawn_add]
        exact hfair (k + j) (by rw [Nat.succ_mul]; omega)
      obtain ⟨h', hwalk, hstranded⟩ | ⟨es, h', hwalk, hlength, hh', htour⟩ := hrest
      · rw [hwalk]
        exact .inl ⟨h', rfl, hstranded.of_drawn hsame hstream⟩
      · rw [hwalk]
        refine .inr ⟨⟨zs ++ ds', zs ++ ds'⟩ :: es, h', rfl, by simp [hlength], hh',
          htour.cons hxs rfl (hg.length_input hxs) ?_ ?_⟩
        · rwa [hh.placed hzs, hg.placed hys]
        · rwa [hh.placed hzs]

/-! ### From home -/

/-- Homing moves every axis to its lower limit, whatever becomes of deadbands. -/
theorem exists_moveAxes_lows (b : Backlash) (axes : List Axis) : ∃ axes',
    moveAxes b axes (axes.map fun a => some a.drive.low) = (.ok (), axes') ∧
      axes'.length = axes.length ∧ axes'.map (Axis.homed b) = axes.map (Axis.homed b) := by
  induction axes with
  | nil => exact ⟨[], rfl, rfl, rfl⟩
  | cons a axes ih =>
    obtain ⟨deadband, hmove, hdeadband⟩ := exists_moveTo_low b a
    obtain ⟨axes', hmoves, hlength, hhomed⟩ := ih
    have hsame : Axis.homed b { a with position := some a.drive.low, deadband } = a.homed b := by
      cases hactive : b.active with
      | true => simp [Axis.homed, hactive]
      | false => simp [Axis.homed, hactive, hdeadband hactive]
    refine ⟨_ :: axes', ?_, by simp [hlength], by rw [List.map_cons, List.map_cons, hsame, hhomed]⟩
    simp [moveAxes, hmove, hmoves]

/-- A walk starts at home, whatever state the frame was in. -/
theorem startWalk_eq (f : Frame) : f.startWalk = (.ok (), f.homed) := by
  obtain ⟨axes, hmoves, -, hhomed⟩ := exists_moveAxes_lows f.backlash f.axes
  have hhome : f.home = (.ok (), { f with axes }) := by
    simp [home, setPositions, lows, hmoves, Except.mapError]
  have hstart : homed { f with axes } = f.homed := by
    simp [homed, hhomed]
  rw [startWalk, hhome]
  simp only [setState_homeState, hstart]

/-- Lower limits that are kept as doubles are within the limits as doubles. -/
theorem withinLimits_lows (h : ∀ a ∈ axes, a.drive.Exact)
    (hys : Value.toReals (axes.map fun a => some a.drive.low) = .ok ys) :
    WithinLimits (axes.map Axis.drive) ys := by
  induction axes generalizing ys with
  | nil => simp [WithinLimits]
  | cons a axes ih =>
    rw [List.forall_mem_cons] at h
    obtain ⟨y, zs, hy, hzs, rfl⟩ := Value.toReals_cons_eq_ok_iff.1 hys
    obtain ⟨p, hp, hy⟩ := Value.toReal_eq_ok_iff.1 hy
    obtain rfl := Option.some.inj hp
    rw [WithinLimits, List.map_cons, List.zip_cons_cons, List.forall_mem_cons]
    exact ⟨h.1.admits hy, ih h.2 hzs⟩

theorem sameVector_self (xs : List Binary64) : sameVector equalOrSame xs xs = true := by
  induction xs with
  | nil => rfl
  | cons x xs ih => simp [sameVector, equalOrSame, ih]

theorem countOf_int {count : Int} (h : 1 ≤ count) :
    countOf (some (.int count)) = .ok (.int count) := by
  have hlt : (Number.int count).lt (.int 1) = false := by
    rw [Number.lt, decide_eq_false_iff_not]
    omega
  simp only [countOf, hlt]
  rfl

/-- The check wants the right number of examples and a start at home. -/
theorem checkExamples_of_start {es : List (Training.Example Binary64)} {count : Int}
    {home : List Value} (hlength : (es.length : Int) = count)
    (hstart : ∃ e ∈ es.head?, Value.toReals home = .ok e.input) :
    checkExamples equalOrSame (.int count) home es = .ok () := by
  obtain ⟨e, he, hhome⟩ := hstart
  obtain ⟨rest, rfl⟩ := List.head?_eq_some_iff.1 he
  have hcount : (Number.int (e :: rest).length).same (.int count) = true := by
    simp only [Number.same, hlength, decide_true]
  simp only [checkExamples, hcount, hhome, sameVector_self, Bool.not_true, if_true]
  rfl

/-- Examples of a walk from home are as many as were asked for, begin at home,
keep their distance and end where the frame is, and the check accepts them.
There are none only if as many samples in a row as were allowed were too close. -/
theorem examples_cases (hf : f.Walkable) (sep : Number) (tries : Int) {count : Int}
    (hcount : 1 ≤ count)
    (hfair : ∀ k < (count - 1).toNat * tries.toNat, Fair f.drives (drawn f.drives k f.stream)) :
    let survey : Survey := ⟨some (.int count), .reached, some sep, some (.int tries)⟩
    (∃ g, f.examples survey = (.error (.noMove (some sep) (some (.int tries))), g) ∧
      f.Stranded sep tries.toNat g) ∨
    ∃ es g, f.examples survey = (.ok es, g) ∧ (es.length : Int) = count ∧
      f.Tour sep f.homeState es g ∧ f.checkedExamples survey = (.ok es, g) ∧
      ((∀ d ∈ f.drives, d.Exact) →
        ∀ e ∈ es, WithinLimits f.drives (placed f.drives.length e)) := by
  intro survey
  obtain ⟨n, rfl⟩ : ∃ n : Nat, count = (n + 1 : Nat) := ⟨(count - 1).toNat, by omega⟩
  have hroams := hf.roams_homed
  obtain ⟨ys, ds, hys, hstate⟩ := hroams.exists_toReals_state
  have hfair' : ∀ k < n * tries.toNat,
      Fair f.homed.drives (drawn f.homed.drives k f.homed.stream) := by
    have hstream : f.homed.stream = f.stream := rfl
    rw [hroams.drives, hstream]
    simpa using hfair
  have hexamples : f.examples survey =
      ((walkOn survey n f.homed).1.map (⟨ys ++ ds, ys ++ ds⟩ :: ·),
        (walkOn survey n f.homed).2) := by
    simp only [examples, survey, Value.toInt, Int.toNat_natCast, startWalk_eq,
      exampleHere_reached hstate]
  obtain ⟨g, hwalk, hstranded⟩ | ⟨es, g, hwalk, hlength, hg, htour⟩ :=
    hroams.walkOn_cases survey hf rfl rfl rfl hstate hfair'
  · rw [hwalk] at hexamples
    exact .inl ⟨g, hexamples, hstranded.of_drawn (k := 0) hroams.drives rfl⟩
  · rw [hwalk] at hexamples
    rw [state_homed] at htour
    have hnumber : ((⟨ys ++ ds, ys ++ ds⟩ :: es).length : Int) = (n + 1 : Nat) := by
      rw [List.length_cons, hlength]
    refine .inr ⟨_, g, hexamples, hnumber, htour, ?_, fun hexact => ?_⟩
    · have hcheck := checkExamples_of_start hnumber htour.start
      rw [← homeState_congr hg.backlash hg.drives] at hcheck
      simp only [checkedExamples, survey, countOf_int hcount]
      rw [hexamples]
      simp only [Except.map, hcheck]
    · refine List.forall_mem_cons.2 ⟨?_, htour.within⟩
      rw [hroams.placed hys]
      refine withinLimits_lows (fun a ha => hexact _ (List.mem_map_of_mem ha)) ?_
      simpa [positions, homed, Axis.homed, Function.comp_def] using hys

/-- An axis beyond its upper limit and one that is nowhere, without deadbands. -/
def scattered : Frame where
  axes := placeAxes pair.axes [some (.int 12), none] []
  backlash := ⟨false, none, none⟩
  stream := .ofSeed 7
  calibration := none

/-- Four examples at a distance of one and a half, and what becomes of a walk
with deadbands. -/
theorem examples_cases_scattered :
    (∃ es g, scattered.examples ⟨some (.int 4), .reached, some (.real (.ofRatio false 3 2)),
        some (.int 3)⟩ = (.ok es, g) ∧ (es.length : Int) = 4 ∧
      scattered.Tour (.real (.ofRatio false 3 2)) scattered.homeState es g) ∧
    ((∃ g, pair.examples ⟨some (.int 3), .reached, some (.int 1), some (.int 2)⟩ =
        (.error (.noMove (some (.int 1)) (some (.int 2))), g) ∧ pair.Stranded (.int 1) 2 g) ∨
      ∃ es g, pair.examples ⟨some (.int 3), .reached, some (.int 1), some (.int 2)⟩ = (.ok es, g) ∧
        (es.length : Int) = 3 ∧ pair.Tour (.int 1) pair.homeState es g ∧
        pair.checkedExamples ⟨some (.int 3), .reached, some (.int 1), some (.int 2)⟩ =
          (.ok es, g) ∧
        ∀ e ∈ es, WithinLimits pair.drives (placed 2 e)) := by
  have hscattered : scattered.Walkable := ⟨by decide +kernel, fun h => by cases h⟩
  have hpair : pair.Walkable := ⟨by decide +kernel, fun _ => ⟨⟨_, rfl⟩, _, rfl⟩⟩
  have hfour : (1 : Int) ≤ 4 := by decide
  have hthree : (1 : Int) ≤ 3 := by decide
  constructor
  · obtain ⟨g, hnone, -⟩ | ⟨es, g, hes, hlength, htour, -⟩ :=
      examples_cases hscattered (.real (.ofRatio false 3 2)) 3 hfour (by decide +kernel)
    · have hfound : (scattered.examples ⟨some (.int 4), .reached,
          some (.real (.ofRatio false 3 2)), some (.int 3)⟩).1.isOk = true := by decide +kernel
      rw [hnone] at hfound
      cases hfound
    · exact ⟨es, g, hes, hlength, htour⟩
  · obtain hstranded | ⟨es, g, hes, hlength, htour, hcheck, hwithin⟩ :=
      examples_cases hpair (.int 1) 2 hthree (by decide +kernel)
    · exact .inl hstranded
    · exact .inr ⟨es, g, hes, hlength, htour, hcheck, hwithin (by decide +kernel)⟩

/-- One axis, on which deadbands turn so sharply that a double cannot tell. -/
def steep : Frame where
  axes := pair.axes.take 1
  backlash := ⟨true, some (.int (10 ^ 400)), some (.real .half)⟩
  stream := .ofSeed 1
  calibration := none

/-- One axis, with a lower limit between two doubles. -/
def offGrid : Frame where
  axes := [⟨⟨.int 9007199254740993, .int 9007199254741093, some "X", rfl⟩, none, none⟩]
  backlash := ⟨false, some (.real .half), some (.real .half)⟩
  stream := .ofSeed 1
  calibration := none

/-- A walk can end with a number out of range although its samples are within
the limits, and an example at home can be below the lower limit. -/
theorem examples_overflow_steep_below_offGrid :
    let survey (n : Int) : Survey := ⟨some (.int n), .reached, some (.real .one), some (.int 1)⟩
    ((∀ k < 1, Fair steep.drives (drawn steep.drives k steep.stream)) ∧
      ∃ g, steep.examples (survey 2) = (.error (.fault .overflow), g)) ∧
    ∃ e g, offGrid.examples (survey 1) = (.ok [e], g) ∧
      g.state = offGrid.homeState ∧ g.positions = [some (.int 9007199254740993)] ∧
      e.input = [.ofNat 9007199254740992] ∧ ¬WithinLimits offGrid.drives e.input := by
  have hrun : (match (steep.examples ⟨some (.int 2), .reached, some (.real .one),
      some (.int 1)⟩).1 with
    | .error (.fault .overflow) => true
    | _ => false) = true := by decide +kernel
  refine ⟨⟨by decide +kernel, ?_⟩, ⟨[.ofNat 9007199254740992], [.ofNat 9007199254740992]⟩,
    offGrid.homed, ?_, state_homed offGrid, rfl, rfl, by decide +kernel⟩
  · generalize steep.examples _ = outcome at hrun ⊢
    obtain ⟨result, g⟩ := outcome
    simp only at hrun
    split at hrun
    · exact ⟨g, rfl⟩
    · cases hrun
  · have hlow : (Number.int 9007199254740993).toBinary64? = some (.ofNat 9007199254740992) := by
      decide +kernel
    have hinput : Value.toReals offGrid.homed.state = .ok [.ofNat 9007199254740992] :=
      Value.toReals_cons_eq_ok_iff.2 ⟨_, [], Value.toReal_eq_ok_iff.2 ⟨_, rfl, hlow⟩, rfl, rfl⟩
    simp only [examples, Value.toInt, startWalk_eq, exampleHere_reached hinput]
    rfl

end Frame

end Gantry
