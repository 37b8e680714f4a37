/-!
Maps as lists of pairs in the order in which their keys first came. Putting a key that is there
replaces its value and keeps its place.
-/

namespace TensorAsm.Ordered

variable {α β : Type} [BEq α]

def put (k : α) (v : β) : List (α × β) → List (α × β)
  | [] => [(k, v)]
  | (k', v') :: m => if k' == k then (k', v) :: m else (k', v') :: put k v m

def ofList (pairs : List (α × β)) : List (α × β) :=
  pairs.foldl (fun m p => put p.1 p.2 m) []

def get? (k : α) (m : List (α × β)) : Option β := m.lookup k

end TensorAsm.Ordered
