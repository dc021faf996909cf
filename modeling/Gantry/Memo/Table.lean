import Gantry.Formula.Basic
import Gantry.Text.Identifier

/-!
The memo table: the distinct subformulas seen so far, in the order of their
discovery. An entry is known by the table's stem and its number. Beside the
entries stands a dictionary from their keys to their names, in which formulas
are looked up.
-/

namespace Gantry.Memo

structure Table where
  stem : String
  entries : Array Formula
  /-- The dictionary: keys, each with the name it stands for. -/
  lookups : Array (Formula × String)
  deriving Inhabited

namespace Table

def empty (stem : String) : Table := ⟨stem, #[], #[]⟩

def size (t : Table) : Nat := t.entries.size

def name (t : Table) (i : Nat) : String := t.stem ++ toString i

def names (t : Table) : List String := (List.range t.size).map t.name

/-- What follows the characters of the stem. -/
def afterStem : List Char → List Char → Option (List Char)
  | [], cs => some cs
  | s :: ss, c :: cs => if s = c then afterStem ss cs else none
  | _ :: _, [] => none

/-- The number of the entry with a given name. -/
def index? (t : Table) (name : String) : Option Nat :=
  match afterStem t.stem.toList name.toList with
  | some (d :: ds) =>
    if (d :: ds).all Char.isDigit then
      let i := (d :: ds).foldl (fun n c => 10 * n + (c.toNat - 48)) 0
      if i < t.size ∧ t.name i = name then some i else none
    else none
  | _ => none

theorem of_index?_eq_some {t : Table} {x : String} {i : Nat} (h : t.index? x = some i) :
    i < t.size ∧ t.name i = x := by
  unfold index? at h
  split at h
  · simp only [Option.ite_none_right_eq_some] at h
    obtain ⟨-, hi, hsome⟩ := h
    exact Option.some.inj hsome ▸ hi
  · cases h

def contains (t : Table) (name : String) : Bool := (t.index? name).isSome

/-- The entry with a given name. -/
def entry? (t : Table) (name : String) : Option Formula := t.index? name >>= (t.entries[·]?)

/-- The name under which a key is known. -/
def find? (t : Table) (key : Formula) : Option String :=
  (t.lookups.find? fun entry => entry.1.same key).map Prod.snd

/-- Adds an entry and returns its name. -/
def memoize (t : Table) (e : Formula) : String × Table :=
  (t.name t.size,
    { t with entries := t.entries.push e, lookups := t.lookups.push (e.key, t.name t.size) })

/-- Takes a key out of a dictionary. -/
def forget (lookups : Array (Formula × String)) (key : Formula) : Array (Formula × String) :=
  lookups.eraseP fun entry => entry.1.same key

/-- Forgets all entries from number `n` on, and their keys one by one. -/
def truncate (t : Table) (n : Nat) : Table :=
  { t with
    entries := t.entries.take n
    lookups := ((t.entries.toList.drop n).map Formula.key).foldl forget t.lookups }

/-- The entries as text, each with its name. -/
def texts (t : Table) : List (String × Option Formula) :=
  (List.range t.size).map fun i => (t.name i, t.entries[i]?)

@[simp] theorem stem_memoize (t : Table) (e : Formula) : (t.memoize e).2.stem = t.stem := rfl

@[simp] theorem size_memoize (t : Table) (e : Formula) : (t.memoize e).2.size = t.size + 1 := by
  simp [memoize, size]

end Table

end Gantry.Memo
