import TensorAsm.Circuit.Basic
/-!
The order in which operations are placed and lowered: producers before consumers, and among the
operations that are ready the one with the smallest id.
-/

namespace TensorAsm.Circuit

/-- How many producers each operation still waits for, and the ids of those that wait for none and
have not been taken, the smallest first. -/
structure Traversal where
  indegree : List (Int × Nat)
  ready : List Int

namespace Traversal

def enqueue (id : Int) : List Int → List Int
  | [] => [id]
  | x :: queue => if id ≤ x then id :: x :: queue else x :: enqueue id queue

/-- One that waits has one producer less to wait for, and is ready if that was the last. -/
def release (t : Traversal) (user : Int) : Traversal :=
  let indegree := t.indegree.map fun (id, n) => (id, if id = user then n - 1 else n)
  ⟨indegree, if (user, 0) ∈ indegree then enqueue user t.ready else t.ready⟩

/-- Takes ready operations until none is left. -/
def run (ops : List Operation) (users : List (Int × List Int)) :
    Nat → Traversal → List Operation × Traversal
  | 0, t => ([], t)
  | n + 1, t =>
    match t.ready with
    | [] => ([], t)
    | id :: ready =>
      let next := run ops users n (((users.lookup id).getD []).foldl release { t with ready })
      ((ops.find? (·.id = id)).toList ++ next.1, next.2)

end Traversal

namespace Graph

/-- The operations that produce inputs of an operation, each once. -/
def dependencies (g : Graph) (o : Operation) : List Int :=
  (o.inputs.filterMap fun t => (g.producer? t).map (·.id)).eraseDups

/-- For each operation those that wait for it. -/
def users (g : Graph) : List (Int × List Int) :=
  let waits := g.operations.map fun o => (o.id, g.dependencies o)
  g.operations.map fun p => (p.id, (waits.filter (p.id ∈ ·.2)).map (·.1))

def start (g : Graph) : Traversal :=
  let indegree := g.operations.map fun o => (o.id, (g.dependencies o).length)
  ⟨indegree, ((indegree.filter (·.2 = 0)).map (·.1)).foldr Traversal.enqueue []⟩

def order (g : Graph) : Except CircuitDefect (List Operation) :=
  let (done, last) := Traversal.run g.operations g.users g.operations.length g.start
  if done.length = g.operations.length then .ok done
  else
    let stuck := (last.indegree.filter (0 < ·.2)).map (·.1)
    .error (.cycle (stuck.mergeSort fun a b => decide (a ≤ b)))

end Graph

end TensorAsm.Circuit
