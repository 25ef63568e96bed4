/-!
# Ranges of modification times

A range holds the times from its lower limit on and before its upper one. The range of all times
from 0 on stands for every document, those without a modification time included.
-/

namespace VersionedTree

/-- The times `t` with `lower ≤ t < upper`. -/
@[ext] structure TimeRange where
  lower : Int
  upper : Int
  lower_le_upper : lower ≤ upper := by decide
  deriving DecidableEq

namespace TimeRange

/-- The upper limit that stands for no limit. -/
def unlimited : Int := 9223372036854775807

/-- The range that covers every document. -/
def all : TimeRange := { lower := 0, upper := unlimited }

instance : Inhabited TimeRange := ⟨all⟩

def text (r : TimeRange) : String :=
  "LastModifiedRange[" ++ toString r.lower ++ ", "
    ++ (if r.upper = unlimited then "inf" else toString r.upper) ++ ")"

/-- Why a range cannot be made or split. -/
inductive Error where
  | inverted (lower upper : Int)
  | outside (boundary : Int) (range : TimeRange)
  | unsorted (range : TimeRange)
  | noParts (parts : Int)
  deriving DecidableEq

def Error.message : Error → String
  | .inverted lower upper =>
    "Lower limit " ++ toString lower ++ " cannot be higher than upper limit " ++ toString upper
  | .outside boundary range => "Boundary " ++ toString boundary ++ " is outside " ++ range.text
  | .unsorted range => "Boundaries must be sorted and within " ++ range.text
  | .noParts parts => "parts must be positive, got " ++ toString parts

/-- The range between two limits, which have to be in order. -/
def ofLimits (lower upper : Int) : Except Error TimeRange :=
  if h : lower ≤ upper then .ok ⟨lower, upper, h⟩ else .error (.inverted lower upper)

instance : Membership Int TimeRange where
  mem r t := r.lower ≤ t ∧ t < r.upper

theorem mem_def (t : Int) (r : TimeRange) : t ∈ r ↔ r.lower ≤ t ∧ t < r.upper := Iff.rfl

instance (t : Int) (r : TimeRange) : Decidable (t ∈ r) :=
  decidable_of_iff _ (mem_def t r).symm

/-- Is a document of this modification time in the range? One without a time is in none. -/
def contains (r : TimeRange) : Option Int → Bool
  | some t => t ∈ r
  | none => false

def coversAll (r : TimeRange) : Bool := r.lower = 0 && r.upper = unlimited

def isEmpty (r : TimeRange) : Bool := r.lower = r.upper

def overlaps (r s : TimeRange) : Bool :=
  !r.isEmpty && !s.isEmpty && (r.lower < s.upper && s.lower < r.upper)

/-- The two ranges that meet at a boundary inside the range. -/
def splitAt (r : TimeRange) (boundary : Int) : Except Error (TimeRange × TimeRange) :=
  if h : r.lower ≤ boundary ∧ boundary ≤ r.upper then
    .ok (⟨r.lower, boundary, h.1⟩, ⟨boundary, r.upper, h.2⟩)
  else .error (.outside boundary r)

/-- The adjacent ranges from `lower` to the upper limit of `r` that meet at the boundaries. -/
def cut (r : TimeRange) (lower : Int) (hl : lower ≤ r.upper) :
    List Int → Except Error (List TimeRange)
  | [] => .ok [⟨lower, r.upper, hl⟩]
  | boundary :: rest =>
    if h : lower ≤ boundary ∧ boundary ≤ r.upper then
      (⟨lower, boundary, h.1⟩ :: ·) <$> cut r boundary h.2 rest
    else .error (.unsorted r)

/-- The adjacent ranges that meet at ascending boundaries inside the range. -/
def splitAtBoundaries (r : TimeRange) (boundaries : List Int) : Except Error (List TimeRange) :=
  cut r r.lower r.lower_le_upper boundaries

/-- So many adjacent ranges of equal width; the last one takes the rest. -/
def split (r : TimeRange) (parts : Int) : Except Error (List TimeRange) :=
  if parts ≤ 0 then .error (.noParts parts)
  else
    let width := (r.upper - r.lower) / parts
    r.splitAtBoundaries <|
      (List.range (parts.toNat - 1)).map fun i => r.lower + width * (i + 1 : Nat)

end TimeRange

end VersionedTree
