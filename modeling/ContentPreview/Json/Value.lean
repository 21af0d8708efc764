/-!
# JSON values

JSON as data.  Objects are lists of fields in the order of the text, repeated
names included, since some readers refuse repetition and others let the last
field win.

Two kinds of token are kept although no typed reader accepts them, because
they may stand inside fields that a reader ignores: numbers that are not
integers, of which only their presence is noted, and strings in which an
escape names half of a surrogate pair, which stand for no text.

## Main definitions

* `Value` — a JSON value.
* `Fields.read` — the known fields of an object or list.
* `Fields.required`, `Fields.withDefault`, `Fields.nullable` — the three ways
  to take a field.
* `variant?` — a choice among names without data.
-/

namespace ContentPreview.Json

/-! ## Values -/

/-- A JSON value. -/
inductive Value where
  | null
  | bool (b : Bool)
  | integer (n : Int)
  /-- A number with a fraction, an exponent or a negative zero. -/
  | fractional
  /-- A string, or nothing where its escapes do not make up a text. -/
  | string (text : Option String)
  | list (items : List Value)
  | object (fields : List (Option String × Value))

namespace Value

/-- The string value of a text. -/
def ofText (text : String) : Value := string (some text)

/-- The integer value of a natural number. -/
def ofNat (n : Nat) : Value := integer (Int.ofNat n)

/-- The object with the given fields. -/
def ofFields (fields : List (String × Value)) : Value :=
  object (fields.map fun (name, value) => (some name, value))

/-- The text that the value is, or null. -/
def ofText? (text : Option String) : Value := text.elim null ofText

/-- The text of a string value. -/
def text? : Value → Option String
  | string text => text
  | _ => none

/-- The truth value of a boolean. -/
def bool? : Value → Option Bool
  | bool b => some b
  | _ => none

/-- The value of an integer below a bound, from zero. -/
def natBelow? (bound : Nat) : Value → Option Nat
  | integer n => if 0 ≤ n ∧ n < bound then some n.toNat else none
  | _ => none

/-- The value of an unsigned 64-bit integer. -/
def uint64? (v : Value) : Option UInt64 := (v.natBelow? UInt64.size).map UInt64.ofNat

/-- The value of a signed 32-bit integer. -/
def int32? : Value → Option Int32
  | integer n =>
    if Int32.minValue.toInt ≤ n ∧ n ≤ Int32.maxValue.toInt then some (Int32.ofInt n) else none
  | _ => none

/-- The items of a list. -/
def list? : Value → Option (List Value)
  | list items => some items
  | _ => none

end Value

/-! ## Fixed sets of fields

A structure with named fields is written as an object, and may also be given
as a list of its field values in order.  In an object a known name may occur
once, unknown names are ignored, and a field that has a default or may be
null can be left out.  In a list fields can be left out only at the end, and
only if they have a default.

Nested containers are counted: a reader is given the number of levels that it
may still enter, and entering one more than that is refused.
-/

/-- The number of containers that a reader may enter. -/
def depthLimit : Nat := 127

/-- The known fields of a structure. -/
structure Fields where
  /-- Whether the fields were given as a list. -/
  positional : Bool
  values : List (String × Value)

namespace Fields

/-- The fields of an object whose name is among `names`, if no name stands for
no text and none of them occurs twice. -/
def ofObject (names : List String) : List (Option String × Value) → Option (List (String × Value))
  | [] => some []
  | (none, _) :: _ => none
  | (some name, value) :: rest => do
    let known ← ofObject names rest
    if name ∈ names then
      if (known.lookup name).isSome then none else return (name, value) :: known
    else return known

/-- The known fields of a structure given as object or list. -/
def read (names : List String) : Value → Option Fields
  | .object fields => (ofObject names fields).map (⟨false, ·⟩)
  | .list items => if items.length ≤ names.length then some ⟨true, names.zip items⟩ else none
  | _ => none

/-- A field that has to be present. -/
def required {α : Type} (fields : Fields) (name : String) (decode : Value → Option α) : Option α :=
  (fields.values.lookup name).bind decode

/-- A field that has a value of its own when it is left out. -/
def withDefault {α : Type} (fields : Fields) (name : String) (fallback : α)
    (decode : Value → Option α) : Option α :=
  match fields.values.lookup name with
  | some value => decode value
  | none => some fallback

/-- A field that may be null, or left out of an object. -/
def nullable {α : Type} (fields : Fields) (name : String) (decode : Value → Option α) :
    Option (Option α) :=
  match fields.values.lookup name with
  | some .null => some none
  | some value => (decode value).map some
  | none => if fields.positional then none else some none

end Fields

/-- A choice among names without data: the name as a string, or an object with
the name as its only field and null below it. -/
def variant? {α : Type} (choices : List (String × α)) : Value → Option α
  | .string (some name) => choices.lookup name
  | .object [(some name, .null)] => choices.lookup name
  | _ => none

end ContentPreview.Json
