import Gantry.Formula.Text
import Gantry.Formula.Token

/-!
Formulas as nested calls of named operations, the notation in which compiled
evaluators are listed. Groups leave no trace in it. A tree with an unknown
operator or with too long a whole number has no listing.
-/

namespace Gantry

def UnaryOp.callName : UnaryOp → String
  | .neg => "_op_neg"
  | .pos => "_op_pos"

def BinaryOp.callName : BinaryOp → String
  | .add => "_op_add"
  | .sub => "_op_sub"
  | .mul => "_op_mul"
  | .div => "_op_div"
  | .pow => "_op_pow"

def functionName (f : String) : String := "_fn_" ++ f

def constantName (c : String) : String := "_const_" ++ c

namespace Formula

/-- A call with the listings of its arguments. -/
def listedCall (callee : String) (args : List String) : String :=
  callee ++ "(" ++ ", ".intercalate args ++ ")"

mutual

/-- The listing of a formula, variables being written by `ref`. -/
def listing (ref : String → String) : Formula → Except WriteFailure String
  | .number n => literal n
  | .constant c => .ok (constantName c)
  | .variable x => .ok (ref x)
  | .group e => e.listing ref
  | .unary op e => do
    let o ← known (UnaryOp.ofSymbol? op)
    let inside ← e.listing ref
    return listedCall o.callName [inside]
  | .binary op l r => do
    let o ← known (BinaryOp.ofSymbol? op)
    let left ← l.listing ref
    let right ← r.listing ref
    return listedCall o.callName [left, right]
  | .call f args => do
    let inside ← listingAll ref args
    return listedCall (functionName f) inside

def listingAll (ref : String → String) : List Formula → Except WriteFailure (List String)
  | [] => .ok []
  | e :: es => do
    let first ← e.listing ref
    let rest ← listingAll ref es
    return first :: rest

end

/-- Whether what a node is named by, if it is a constant or a call, is a word. -/
def isWorded : Formula → Bool
  | .constant name | .call name _ => name.toList.all isNamePart
  | _ => true

end Formula

end Gantry
