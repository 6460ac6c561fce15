/-
# Data trees as bytes

The binary form of a tree starts every node with the number of its kind.  What follows has either
a length in front or a form that shows its own end, so two different trees never have one binary
form; this is what allows trees to be hashed.
-/
import ScriptBundle.Data
import ScriptBundle.Bytes.Varint

namespace ScriptBundle.Data

mutual
/-- The binary form of a tree. -/
def toBinary : Data → Bytes
  | .int n => Varint.encode 0 ++ Varint.encode (Varint.zigZag n.val)
  | .bytes b => Varint.encode 1 ++ Varint.encode b.length ++ b
  | .list items => Varint.encode 2 ++ Varint.encode items.length ++ binaryAll items
  | .map pairs => Varint.encode 3 ++ Varint.encode pairs.length ++ binaryPairs pairs
  | .constr tag fields =>
    Varint.encode 4 ++ Varint.encode tag.toNat ++ Varint.encode fields.length ++ binaryAll fields

/-- The binary forms of trees, one after another. -/
def binaryAll : List Data → Bytes
  | [] => []
  | d :: rest => toBinary d ++ binaryAll rest

/-- The binary forms of pairs, each key before its value. -/
def binaryPairs : List (Data × Data) → Bytes
  | [] => []
  | (k, v) :: rest => toBinary k ++ toBinary v ++ binaryPairs rest
end

end ScriptBundle.Data
