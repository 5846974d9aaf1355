import MercaMiner.Core.UInt256

/-!
# JSON Values

The values the JSON library hands to the parsers of replies.

Numbers keep the class the library's parser gives them: a non-negative
integer that fits 64 bits is unsigned, a negative one that fits is signed,
every other literal is a float. No modelled function reads the value of a
float. Strings are byte strings.

## Main definitions

* `Json`: A parsed value.
* `Json.find`: Looking up a member of an object.
* `Json.getBool`, `Json.getString`, `Json.getInt64`, `Json.getInt`: The
  library's conversions, which throw a type error on a value of another type.
* `Json.integer`: The integer a number denotes.
-/

namespace MercaMiner

inductive Json where
  | null
  | boolean (b : Bool)
  | numberUnsigned (n : UInt64)
  | numberInteger (n : Int64)
  | numberFloat
  | string (s : Text)
  | array (items : List Json)
  | object (members : List (Text × Json))

namespace Json

/-- Looking up a member. A value that is not an object has none. -/
def find (value : Json) (name : String) : Option Json :=
  match value with
  | object members => (members.find? fun m => m.1 == text name).map Prod.snd
  | _ => none

def isObject : Json → Bool
  | object _ => true
  | _ => false

def isNull : Json → Bool
  | null => true
  | _ => false

def isBoolean : Json → Bool
  | boolean _ => true
  | _ => false

def isString : Json → Bool
  | string _ => true
  | _ => false

/-- An integer of either class. -/
def isNumberInteger : Json → Bool
  | numberUnsigned _ => true
  | numberInteger _ => true
  | _ => false

def isNumberUnsigned : Json → Bool
  | numberUnsigned _ => true
  | _ => false

def getBool : Json → Option Bool
  | boolean b => some b
  | _ => none

def getString : Json → Option Text
  | string s => some s
  | _ => none

/-- A conversion to 64 bits. An unsigned number may turn negative. -/
def getInt64 : Json → Option Int64
  | numberUnsigned n => some n.toInt64
  | numberInteger n => some n
  | _ => none

/-- A conversion to 32 bits, which keeps the low ones. -/
def getInt : Json → Option Int32
  | numberUnsigned n => some n.toUInt32.toInt32
  | numberInteger n => some n.toInt32
  | _ => none

/-- The integer a number denotes, if it was written as one. -/
def integer : Json → Option Int
  | numberUnsigned n => some n.toNat
  | numberInteger n => some n.toInt
  | _ => none

end Json

end MercaMiner
