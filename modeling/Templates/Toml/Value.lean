import Templates.Text.Basic
/-!
# TOML values

The values of a TOML 1.0 document, and how its tables grow.  A table remembers how it came about (`Origin`), as that decides
who may still add to it: `addPair` adds a value under a dotted key, `openTable` and `openElement` start the table of a
header.  None of them lets a key be given twice.
-/
namespace Templates
namespace Toml

inductive Origin where
  /-- It is written in braces, and complete with them. -/
  | braces
  | header
  /-- A header leads through it. -/
  | implied
  /-- A dotted key leads through it. -/
  | dotted
  deriving DecidableEq, Repr

inductive Value where
  | string (text : Text)
  | integer (n : Int)
  /-- A number with a fraction or an exponent, as it is written. -/
  | float (written : Text)
  | boolean (b : Bool)
  /-- A date, a time of day or both, as it is written. -/
  | moment (written : Text)
  | array (items : List Value)
  | table (origin : Origin) (pairs : List (Text × Value))
  /-- The tables of one repeated header. -/
  | tables (elements : List (List (Text × Value)))

abbrev Pairs := List (Text × Value)

namespace Pairs

def get? (pairs : Pairs) (key : Text) : Option Value := (pairs.find? fun p => p.1 = key).map (·.2)

def set (key : Text) (v : Value) : Pairs → Pairs
  | [] => [(key, v)]
  | p :: rest => if p.1 = key then (key, v) :: rest else p :: set key v rest

def changeLast (f : Pairs → Option Pairs) : List Pairs → Option (List Pairs)
  | [] => none
  | [pairs] => (f pairs).map ([·])
  | pairs :: rest => (changeLast f rest).map (pairs :: ·)

/-- Adds a value under a dotted key, given as the way to it and its last part. -/
def addPair (key : Text) (v : Value) : List Text → Pairs → Option Pairs
  | [], pairs => if (pairs.get? key).isSome then none else some (pairs ++ [(key, v)])
  | k :: way, pairs => match pairs.get? k with
    | none => (addPair key v way []).map fun inner => pairs.set k (.table .dotted inner)
    | some (.table .dotted inner) =>
      (addPair key v way inner).map fun inner => pairs.set k (.table .dotted inner)
    | some (.table .implied inner) =>
      if way = [] then none
      else (addPair key v way inner).map fun inner => pairs.set k (.table .implied inner)
    | some (.tables elements) =>
      if way = [] then none
      else (changeLast (addPair key v way) elements).map fun elements => pairs.set k (.tables elements)
    | some _ => none

def changeAt (f : Option Value → Option Value) : List Text → Pairs → Option Pairs
  | [], _ => none
  | [k], pairs => (f (pairs.get? k)).map fun v => pairs.set k v
  | k :: way, pairs => match pairs.get? k with
    | none => (changeAt f way []).map fun inner => pairs.set k (.table .implied inner)
    | some (.table .braces _) => none
    | some (.table origin inner) => (changeAt f way inner).map fun inner => pairs.set k (.table origin inner)
    | some (.tables elements) =>
      (changeLast (changeAt f way) elements).map fun elements => pairs.set k (.tables elements)
    | some _ => none

def openTable (names : List Text) (pairs : Pairs) : Option Pairs :=
  changeAt (fun
    | none => some (.table .header [])
    | some (.table .implied inner) => some (.table .header inner)
    | some _ => none) names pairs

def openElement (names : List Text) (pairs : Pairs) : Option Pairs :=
  changeAt (fun
    | none => some (.tables [[]])
    | some (.tables elements) => some (.tables (elements ++ [[]]))
    | some _ => none) names pairs

/-- Adds a value under a dotted key to the table of a header, or to the whole document where there is no header yet. -/
def addBelow (header : List Text) (key : Text) (v : Value) (way : List Text) (pairs : Pairs) : Option Pairs :=
  if header = [] then addPair key v way pairs
  else changeAt (fun
    | some (.table origin inner) => (addPair key v way inner).map (.table origin)
    | some (.tables elements) => (changeLast (addPair key v way) elements).map .tables
    | _ => none) header pairs

end Pairs
end Toml
end Templates
