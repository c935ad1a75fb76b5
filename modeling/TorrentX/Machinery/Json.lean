import Mathlib

/-!
# Machinery/Json — objects and their members

The values of a JSON document, as far as members of objects and strings are read.  A member that is
not there reads as null, and so does a member of what is no object.  Texts are of any type: two keys
are only ever compared.
-/

/-- A JSON value.  Numbers, booleans and arrays are `other`. -/
inductive Json (σ : Type*)
  | null
  | string (s : σ)
  | object (members : List (σ × Json σ))
  | other

namespace Json

/-- The members of an object. -/
abbrev Members (σ : Type*) := List (σ × Json σ)

variable {σ : Type*}

def isNull : Json σ → Bool
  | null => true
  | _ => false

/-- The string, or the default one. -/
def toText [Inhabited σ] : Json σ → σ
  | string s => s
  | _ => default

/-- The members, or none. -/
def toObject : Json σ → Members σ
  | object members => members
  | _ => []

/-! ## One member

An object has at most one member under a key: setting a member takes the place of another one under
its key, and leaves the others as they are. -/

variable [DecidableEq σ]

/-- The member under a key. -/
def member : Members σ → σ → Json σ
  | [], _ => null
  | (k, v) :: o, key => if k = key then v else member o key

/-- The object with one member set. -/
def insert (key : σ) (v : Json σ) (o : Members σ) : Members σ :=
  (key, v) :: o.filter (·.1 ≠ key)

@[simp] theorem member_insert_self (key : σ) (v : Json σ) (o : Members σ) :
    member (insert key v o) key = v :=
  if_pos rfl

theorem member_insert_of_ne {key key' : σ} (h : key' ≠ key) (v : Json σ) (o : Members σ) :
    member (insert key v o) key' = member o key' := by
  rw [insert, member, if_neg (Ne.symm h)]
  induction o with
  | nil => rfl
  | cons e o ih =>
    by_cases he : e.1 = key
    · have hne : e.1 ≠ key' := fun h' => h (h'.symm.trans he)
      rw [List.filter_cons_of_neg (by simpa using he), ih, member, if_neg hne]
    · rw [List.filter_cons_of_pos (by simpa using he), member, member, ih]

end Json
