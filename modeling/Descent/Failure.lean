import Descent.Stream

/-!
# Failures

A failure says where a parse stopped, what would have been accepted there, and whether it is fatal:
alternatives may be tried after a failure that is not fatal.  `Failure.merge` combines the failures
of two alternatives: the one further into the source wins, and at one place the expectations are
put together, those of the first alternative in front (`merge_of_eq`).
-/

namespace Descent

/-- Appends the descriptions that are not listed yet. -/
def addNew (listed : List String) : List String → List String
  | [] => listed
  | d :: ds => addNew (if d ∈ listed then listed else listed ++ [d]) ds

@[simp]
theorem addNew_nil (listed : List String) : addNew listed [] = listed := rfl

theorem addNew_cons (listed : List String) (d : String) (ds : List String) :
    addNew listed (d :: ds) = addNew (if d ∈ listed then listed else listed ++ [d]) ds := rfl

/-- A description is listed in the end if it was listed or is to be added. -/
theorem mem_addNew_iff (d : String) (listed ds : List String) :
    d ∈ addNew listed ds ↔ d ∈ listed ∨ d ∈ ds := by
  induction ds generalizing listed with
  | nil => simp
  | cons e ds ih =>
    rw [addNew_cons, ih]
    split
    · by_cases h : d = e <;> simp_all
    · simp [or_assoc]

/-- A failed parse. -/
structure Failure (src : Source) where
  position : Stream src
  /-- Descriptions of what would have been accepted, in the order they were recorded. -/
  expected : List String
  fatal : Bool
deriving DecidableEq

namespace Failure

variable {src : Source}

/-- A failure that names no expectation. -/
def unexpected (position : Stream src) : Failure src := ⟨position, [], false⟩

/-- A failure with one expectation. -/
def expecting (position : Stream src) (description : String) : Failure src :=
  ⟨position, [description], false⟩

/-- The byte offset of a failure. -/
def cursor (f : Failure src) : Nat := f.position.cursor

/-- Puts one description in place of all expectations. -/
def relabel (f : Failure src) (description : String) : Failure src :=
  { f with expected := [description] }

/-- Makes a failure fatal. -/
def escalate (f : Failure src) : Failure src := { f with fatal := true }

/-- Combines the failures of two alternatives.  At one place the flag of the first is kept. -/
def merge (f g : Failure src) : Failure src :=
  if f.cursor < g.cursor then g
  else if g.cursor < f.cursor then f
  else { f with expected := addNew f.expected g.expected }

theorem merge_of_lt {f g : Failure src} (h : f.cursor < g.cursor) : f.merge g = g := if_pos h

theorem merge_of_gt {f g : Failure src} (h : g.cursor < f.cursor) : f.merge g = f := by
  rw [merge, if_neg (by omega), if_pos h]

theorem merge_of_eq {f g : Failure src} (h : f.cursor = g.cursor) :
    f.merge g = { f with expected := addNew f.expected g.expected } := by
  rw [merge, if_neg (by omega), if_neg (by omega)]

/-- A merged failure lies at the further of the two places. -/
theorem cursor_merge (f g : Failure src) : (f.merge g).cursor = max f.cursor g.cursor := by
  rcases Nat.lt_trichotomy f.cursor g.cursor with h | h | h
  · rw [merge_of_lt h]
    omega
  · rw [merge_of_eq h]
    show f.cursor = _
    omega
  · rw [merge_of_gt h]
    omega

end Failure

end Descent
