import Arcturus.GoMaps
import Arcturus.JsonText
import Arcturus.StepRuns

/-!
How Go stores a JSON value in a variable. A null leaves a number, a string and a struct as
they are and makes a map and a pointer nil. A member of an object is stored in the field of
its name, else in one whose name differs only in case, else nowhere. A value of another kind
is an error, whose text is left out. How a number is read as a float64 and how a float64 is
written are parameters.
-/

namespace Arcturus.JsonDecode

open GoMaps JsonText JsonTokens StepRuns

/-- The reader fails for a number that is too large. -/
structure Floats where
  parseFloat : Number → Option ℚ
  formatFloat : ℚ → Number

section Interfaces

/-- Set a member of an object that is sorted by its keys. -/
def setMember (key : String) (v : Json) : List (String × Json) → List (String × Json)
  | [] => [(key, v)]
  | (k, w) :: ms =>
    if key < k then (key, v) :: (k, w) :: ms
    else if key = k then (key, v) :: ms
    else (k, w) :: setMember key v ms

variable (floats : Floats)

mutual

/-- The value that an empty interface takes, as it is written again: numbers are floats, and
an object is a map, in which the last of several members with one key stands. -/
def interfaceValue : Json → Option Json
  | .null => some .null
  | .bool b => some (.bool b)
  | .num n => (floats.parseFloat n).map fun f => .num (floats.formatFloat f)
  | .str s => some (.str s)
  | .arr vs => (interfaceElements vs).map .arr
  | .obj ms => (interfaceMembers ms []).map .obj

def interfaceElements : List Json → Option (List Json)
  | [] => some []
  | v :: vs => do return (← interfaceValue v) :: (← interfaceElements vs)

def interfaceMembers : List (String × Json) → List (String × Json) → Option (List (String × Json))
  | [], set => some set
  | (key, v) :: ms, set => do interfaceMembers ms (setMember key (← interfaceValue v) set)

end

end Interfaces

def minInt : ℤ := -9223372036854775808

def maxInt : ℤ := 9223372036854775807

/-- An `int` takes a number without point and exponent that fits sixty-four bits. -/
def intValue (v : Json) (old : ℤ) : Option ℤ :=
  match v with
  | .null => some old
  | .num n =>
    let i : ℤ := if n.neg then -n.int else n.int
    if n.frac = [] ∧ n.exp = none ∧ minInt ≤ i ∧ i ≤ maxInt then some i else none
  | _ => none

def floatValue (floats : Floats) (v : Json) (old : ℚ) : Option ℚ :=
  match v with
  | .null => some old
  | .num n => floats.parseFloat n
  | _ => none

def stringValue (v : Json) (old : String) : Option String :=
  match v with
  | .null => some old
  | .str s => some s
  | _ => none

/-- Upper case, also for the two letters beyond ASCII that have an ASCII letter as another
case. -/
def foldChar (c : Char) : Char :=
  if c = Char.ofNat 0x17f then 'S' else if c = Char.ofNat 0x212a then 'K' else c.toUpper

def foldName (name : String) : List Char := name.toList.map foldChar

section Structs
variable {σ : Type*}

/-- The name of a field and how it is set. -/
structure StructField (σ : Type*) where
  name : String
  set : Json → σ → Option σ

def findField (fields : List (StructField σ)) (name : String) : Option (StructField σ) :=
  (fields.find? fun f => f.name = name).or
    (fields.find? fun f => foldName f.name = foldName name)

def setField (fields : List (StructField σ)) (s : σ) (m : String × Json) : Option σ :=
  match findField fields m.1 with
  | none => some s
  | some f => f.set m.2 s

def structValue (fields : List (StructField σ)) (v : Json) (old : σ) : Option σ :=
  match v with
  | .null => some old
  | .obj ms => run (setField fields) old ms
  | _ => none

theorem findField_mem {fields : List (StructField σ)} {name : String} {f : StructField σ}
    (h : findField fields name = some f) : f ∈ fields := by
  rcases Option.or_eq_some_iff.mp h with hexact | ⟨-, hfolded⟩
  · exact List.mem_of_find?_eq_some hexact
  · exact List.mem_of_find?_eq_some hfolded

end Structs

section PointerMaps
variable {α : Type*} (decode : Json → Option α)

/-- An entry is made anew. -/
def setEntry (m : GoMap String (Option α)) (e : String × Json) : Option (GoMap String (Option α)) :=
  match e.2 with
  | .null => some (m.set e.1 none)
  | v => (decode v).map fun a => m.set e.1 (some a)

/-- A map of pointers keeps the entries that it has. -/
def pointerMapValue (v : Json) (old : GoMap String (Option α)) :
    Option (GoMap String (Option α)) :=
  match v with
  | .null => some GoMap.empty
  | .obj ms => run (setEntry decode) old ms
  | _ => none

/-- If the value is an object, none of its members is null. -/
def NoNullMember (v : Json) : Prop := ∀ ms key, v = .obj ms → (key, .null) ∉ ms

/-- A nil entry stems from a null. -/
theorem pointerMapValue_noNil {v : Json} {old m : GoMap String (Option α)}
    (h : pointerMapValue decode v old = some m) (hold : old.NoNil) (hv : NoNullMember v) :
    m.NoNil := by
  unfold pointerMapValue at h
  split at h
  · cases Option.some.inj h
    exact GoMap.noNil_empty
  · rename_i ms
    refine run_keeps_of_mem (P := fun e => e.2 ≠ .null) ?_ ?_ hold h
    · intro m e m' he hm hset
      unfold setEntry at hset
      split at hset
      · rename_i hnull
        exact absurd hnull he
      · obtain ⟨a, -, rfl⟩ := Option.map_eq_some_iff.mp hset
        exact hm.set e.1 (Option.some_ne_none a)
    · rintro ⟨key, w⟩ hmem hnull
      subst hnull
      exact hv ms key rfl hmem
  · simp at h

end PointerMaps

end Arcturus.JsonDecode
