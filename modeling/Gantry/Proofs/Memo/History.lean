import Gantry.Proofs.Memo.Optimization

/-!
Tables over time. A table is taken through a history of batches, some of which
may fail. What a batch has been answered with stays in the table through all
later batches, and what all entries have in common is kept if the formulas of
the batches have it.
-/

namespace Gantry.Memo

/-- A call of an optimizer, with formulas in order or under keys. -/
inductive Batch where
  | listed (items : List Item)
  | keyed (items : List (String × Item))

namespace Batch

def items : Batch → List Item
  | .listed items => items
  | .keyed items => items.map Prod.snd

/-- The formulas of a batch, as far as they can be read. -/
def formulas (b : Batch) : List Formula := b.items.filterMap fun i => i.formula.toOption

theorem mem_formulas {b : Batch} {e : Formula} :
    e ∈ b.formulas ↔ ∃ i ∈ b.items, i.formula = .ok e := by
  simp only [formulas, List.mem_filterMap]
  refine exists_congr fun i => and_congr_right fun _ => ?_
  cases i.formula <;> simp [Except.toOption]

end Batch

/-- The literals of all formulas of a history. -/
def literals (history : List Batch) : List Number :=
  history.flatMap fun b => b.formulas.flatMap Formula.literals

theorem mem_literals {history : List Batch} {b : Batch} {e : Formula} {n : Number}
    (hb : b ∈ history) (he : e ∈ b.formulas) (hn : n ∈ e.literals) : n ∈ literals history :=
  List.mem_flatMap.2 ⟨b, hb, List.mem_flatMap.2 ⟨e, he, hn⟩⟩

theorem Item.formulas_eq_ok_iff {items : List Item} {es : List Formula} :
    Item.formulas items = .ok es ↔ List.Forall₂ (fun i e => i.formula = .ok e) items es := by
  induction items generalizing es with
  | nil => cases es <;> simp [Item.formulas]
  | cons i is ih =>
      rw [List.forall₂_cons_left_iff]
      simp only [← ih, Item.formulas]
      cases i.formula <;> cases Item.formulas is <;> simp [eq_comm]

namespace Table

theorem mem_formulas_of_ok {b : Batch} {es : List Formula} (h : Item.formulas b.items = .ok es)
    {e : Formula} (he : e ∈ es) : e ∈ b.formulas := by
  obtain ⟨k, hk, rfl⟩ := List.getElem_of_mem he
  have hread := Item.formulas_eq_ok_iff.1 h
  have hk' : k < b.items.length := hread.length_eq ▸ hk
  exact Batch.mem_formulas.2 ⟨b.items[k], List.getElem_mem hk', hread.get hk' hk⟩

variable [Stack] {t u : Table} {p : Nat → Formula → Prop}

/-- The names the formulas of a batch are given, and the table it leaves. -/
def answer (t : Table) : Batch → Except Failure (List String) × Table
  | .listed items => t.optimize items
  | .keyed items => ((t.optimizeAll items).1.map (List.map Prod.snd), (t.optimizeAll items).2)

/-- The table after a history of batches. -/
def after (t : Table) : List Batch → Table
  | [] => t
  | b :: history => (t.answer b).2.after history

/-- The formulas of a batch with their names, if it goes through. -/
def given (t : Table) (b : Batch) : List (Formula × String) :=
  match Item.formulas b.items, (t.answer b).1 with
  | .ok es, .ok xs => es.zip xs
  | _, _ => []

/-- All formulas of a history that were given names, with these. -/
def answered (t : Table) : List Batch → List (Formula × String)
  | [] => []
  | b :: history => t.given b ++ (t.answer b).2.answered history

/-! ### One batch -/

/-- Keys have no part in how a batch is optimized. -/
theorem answer_eq (ht : t.Keyed) (b : Batch) : t.answer b = t.optimize b.items := by
  cases b with
  | listed items => rfl
  | keyed items =>
      obtain ⟨f, h⟩ | ⟨es, xs, u, hes, htrees, h⟩ := optimize_cases ht (items.map Prod.snd)
      · rw [answer, optimizeAll, Batch.items, h]
        rfl
      · have hnames : xs.length = items.length := by
          rw [(threaded_optimizeTrees ht htrees).length_eq,
            ← (Item.formulas_eq_ok_iff.1 hes).length_eq, List.length_map]
        have hzip : ((items.map Prod.fst).zip xs).map Prod.snd = xs :=
          List.map_snd_zip (by rw [List.length_map, hnames])
        rw [answer, optimizeAll, Batch.items, h]
        simp only [Except.map, hzip]

theorem extends_answer (ht : t.Keyed) (b : Batch) :
    t.Extends (t.answer b).2 ∧ (t.answer b).2.Keyed :=
  answer_eq ht b ▸ extends_optimize ht b.items

/-- All that can become of a batch. -/
theorem answer_cases (ht : t.Keyed) (b : Batch) :
    (∃ f, t.answer b = (.error f, t)) ∨
      ∃ es xs u, Item.formulas b.items = .ok es ∧ t.answer b = (.ok xs, u) ∧
        Threaded (fun t e x u => t.Keyed ∧ t.optimizeTree e = (.ok x, u)) t es xs u := by
  rw [answer_eq ht b]
  obtain ⟨f, h⟩ | ⟨es, xs, u, hes, htrees, h⟩ := optimize_cases ht b.items
  · exact .inl ⟨f, h⟩
  · exact .inr ⟨es, xs, u, hes, h, threaded_optimizeTrees ht htrees⟩

/-- A batch that goes through gives each of its formulas a name. -/
theorem given_eq_zip (ht : t.Keyed) {b : Batch} {xs : List String} (h : (t.answer b).1 = .ok xs) :
    ∃ es, Item.formulas b.items = .ok es ∧ t.given b = es.zip xs ∧ xs.length = es.length := by
  obtain ⟨f, hb⟩ | ⟨es, ys, u, hes, hb, hthread⟩ := answer_cases ht b
  · rw [hb] at h
    cases h
  · rw [hb] at h
    cases h
    exact ⟨es, hes, by simp only [given, hes, hb], hthread.length_eq⟩

theorem Hereditary.all_answer (hp : Hereditary t.stem p) (hkeyed : t.Keyed) (ht : t.All p)
    {b : Batch} (hb : ∀ e ∈ b.formulas, e.Everywhere (p 0)) : (t.answer b).2.All p := by
  obtain ⟨f, h⟩ | ⟨es, xs, u, hes, h, hthread⟩ := answer_cases hkeyed b
  · exact h ▸ ht
  · rw [h]
    exact all_optimizeTrees hthread hp ht fun e he =>
      hp.everywhere_mono (Nat.zero_le _) (hb e (mem_formulas_of_ok hes he))

/-! ### Histories -/

theorem extends_after (ht : t.Keyed) (history : List Batch) :
    t.Extends (t.after history) ∧ (t.after history).Keyed := by
  induction history generalizing t with
  | nil => exact ⟨.refl t, ht⟩
  | cons b history ih =>
      obtain ⟨htu, hu⟩ := extends_answer ht b
      obtain ⟨huv, hv⟩ := ih hu
      exact ⟨htu.trans huv, hv⟩

theorem Kept.after {P : Table → Prop} (hP : Kept P) (ht : t.Keyed) (h : P t)
    (history : List Batch) : P (t.after history) := by
  induction history generalizing t with
  | nil => exact h
  | cons b history ih =>
      obtain ⟨-, hu⟩ := extends_answer ht b
      refine ih hu ?_
      rw [answer_eq ht b]
      exact hP.optimize ht h b.items

theorem Hereditary.all_after (hp : Hereditary t.stem p) (hkeyed : t.Keyed) (ht : t.All p)
    {history : List Batch} (hhistory : ∀ b ∈ history, ∀ e ∈ b.formulas, e.Everywhere (p 0)) :
    (t.after history).All p := by
  induction history generalizing t with
  | nil => exact ht
  | cons b history ih =>
      obtain ⟨hb, hhistory⟩ := List.forall_mem_cons.1 hhistory
      obtain ⟨htu, hu⟩ := extends_answer hkeyed b
      exact ih (htu.stem ▸ hp) hu (hp.all_answer hkeyed ht hb) hhistory

/-- A formula that was given a name was optimized at some time, in a table that
has only grown since. -/
theorem exists_of_mem_answered (ht : t.Keyed) {history : List Batch} {e : Formula} {x : String}
    (h : (e, x) ∈ t.answered history) :
    (∃ b ∈ history, e ∈ b.formulas) ∧
      ∃ u v : Table, u.Keyed ∧ u.optimizeTree e = (.ok x, v) ∧ v.Extends (t.after history) := by
  induction history generalizing t with
  | nil => cases h
  | cons b history ih =>
      obtain ⟨-, hu⟩ := extends_answer ht b
      rcases List.mem_append.1 h with h | h
      · obtain ⟨f, hb⟩ | ⟨es, xs, u, hes, hb, hthread⟩ := answer_cases ht b
        · simp only [given, hb] at h
          cases hes : Item.formulas b.items <;> simp [hes] at h
        · simp only [given, hes, hb] at h
          refine ⟨⟨b, List.mem_cons_self, mem_formulas_of_ok hes (List.of_mem_zip h).1⟩, ?_⟩
          -- Each name of the batch comes from a step, after which the table only grows.
          have hsteps := hthread.forall₂ (.refl u) (S := fun x e =>
            ∃ v w : Table, v.Keyed ∧ v.optimizeTree e = (.ok x, w) ∧ w.Extends u)
            fun _ hstep hgrows => ⟨_, _, hstep.1, hstep.2, hgrows⟩
          obtain ⟨v, w, hv, hstep, hgrows⟩ :=
            (List.forall₂_iff_zip.1 hsteps.flip).2 h
          rw [hb] at hu
          have hlater : w.Extends (u.after history) := hgrows.trans (extends_after hu history).1
          rw [after, hb]
          exact ⟨v, w, hv, hstep, hlater⟩
      · obtain ⟨⟨c, hc, he⟩, hsteps⟩ := ih hu h
        exact ⟨⟨c, List.mem_cons_of_mem _ hc, he⟩, hsteps⟩

theorem exists_entry_of_mem_answered (ht : t.Keyed) {history : List Batch} {e : Formula}
    {x : String} (h : (e, x) ∈ t.answered history) :
    ∃ i a, (t.after history).entries[i]? = some a ∧ (t.after history).name i = x := by
  obtain ⟨-, u, v, hu, hstep, hgrows⟩ := exists_of_mem_answered ht h
  obtain ⟨i, a, ha, rfl⟩ := exists_entry_optimizeTree hu hstep
  exact ⟨i, a, hgrows.entry ha, hgrows.name i⟩

theorem Respects.answered {L : Number → Prop} {R : Formula → Formula → Prop}
    {history : List Batch} (hR : Respects (t.after history) L R) (ht : t.Keyed) {e : Formula}
    {x : String} (he : ∀ n ∈ e.literals, L n) (h : (e, x) ∈ t.answered history) :
    R (.variable x) e := by
  obtain ⟨-, u, v, hu, hstep, hgrows⟩ := exists_of_mem_answered ht h
  exact hR.optimizeTree hu he hstep hgrows

/-- The history of one formula. -/
theorem answered_single {item : Item} {e : Formula} {x : String} (hitem : item.formula = .ok e)
    (h : t.optimize [item] = (.ok [x], u)) :
    t.after [.listed [item]] = u ∧ t.answered [.listed [item]] = [(e, x)] ∧
      literals [.listed [item]] = e.literals := by
  have hitems : Item.formulas [item] = .ok [e] := by simp [Item.formulas, hitem]
  refine ⟨congrArg Prod.snd h, ?_, ?_⟩
  · simp [answered, given, answer, Batch.items, hitems, h]
  · simp [literals, Batch.formulas, Batch.items, hitem, Except.toOption]

/-! ### Histories of a new table -/

variable {stem : String} {history : List Batch}

theorem keyed_after (stem : String) (history : List Batch) :
    ((empty stem).after history).Keyed :=
  (extends_after (keyed_empty stem) history).2

theorem stem_after (stem : String) (history : List Batch) :
    ((empty stem).after history).stem = stem :=
  (extends_after (keyed_empty stem) history).1.stem

theorem ordered_after (h : ∀ b ∈ history, ∀ e ∈ b.formulas, Plain stem e) :
    ((empty stem).after history).Ordered := by
  have hall : ((empty stem).after history).All (Backward stem) :=
    (hereditary_backward stem).all_after (t := empty stem) (keyed_empty stem) (all_empty stem)
      fun b hb e he => everywhere_backward (h b hb e he) 0
  exact ordered_of_all (by rwa [stem_after])

theorem literalsIn_after {L : Number → Prop} (h : ∀ n ∈ literals history, L n) :
    ((empty stem).after history).LiteralsIn L := by
  have hall : ((empty stem).after history).All fun _ => OfLiterals L :=
    (hereditary_ofLiterals stem L).all_after (t := empty stem) (keyed_empty stem) (all_empty stem)
      fun b hb e he => everywhere_ofLiterals_iff.2 fun n hn => h n (mem_literals hb he hn)
  exact fun i a ha => everywhere_ofLiterals_iff.1 (hall ha)

theorem forall_literals_of_mem_answered {L : Number → Prop} (h : ∀ n ∈ literals history, L n)
    {e : Formula} {x : String} (he : (e, x) ∈ (empty stem).answered history) :
    ∀ n ∈ e.literals, L n := by
  obtain ⟨⟨b, hb, he⟩, -⟩ := exists_of_mem_answered (keyed_empty stem) he
  exact fun n hn => h n (mem_literals hb he hn)

end Table

end Gantry.Memo
