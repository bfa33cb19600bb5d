import Tether.Number.Double

/-!
# Native values as programs write them

A literal is a native value spelled out: programs give arguments as literals, and answers show
native values as literals. What a literal stands for depends on the native type at its place.
-/

namespace Tether

mutual

inductive Literal where
  | null
  | bool (b : Bool)
  | text (s : String)
  | int (i : Int)
  | number (x : Double)
  | bytes (data : List UInt8)
  | keptBytes (name : String)
  | list (elems : Literals)
  | some (value : Literal)
  | object (name : String)
  | fields (fields : LiteralFields)

inductive Literals where
  | nil
  | cons (value : Literal) (rest : Literals)

inductive LiteralFields where
  | nil
  | cons (name : String) (value : Literal) (rest : LiteralFields)

end

instance : Inhabited Literal := ⟨.null⟩

def Literals.toList : Literals → List Literal
  | nil => []
  | cons v rest => v :: rest.toList

def Literals.ofList : List Literal → Literals
  | [] => nil
  | v :: rest => cons v (ofList rest)

def LiteralFields.toList : LiteralFields → List (String × Literal)
  | nil => []
  | cons name v rest => (name, v) :: rest.toList

def LiteralFields.ofList : List (String × Literal) → LiteralFields
  | [] => nil
  | (name, v) :: rest => cons name v (ofList rest)

end Tether
