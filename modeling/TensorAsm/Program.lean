import TensorAsm.Emitter.Node
/-!
Programs: what the emitter has put out for a circuit and its witness, with the values it has
recorded.
-/

namespace TensorAsm

structure Cell where
  address : Int
  value : Int
  deriving DecidableEq, Repr

structure Program where
  name : String
  graph : Circuit.Graph
  witness : Witness
  plan : Lowering.Plan
  derived : Std.TreeMap Int Int
  modulus : Int
  memory : List Cell

namespace Program

variable [Platform]

def instructions (p : Program) : List Instruction := p.plan.instructions

def instructionCount (p : Program) : Nat := p.plan.blocks.foldr (fun b n => b.steps.length + n) 0

def dropWitness (p : Program) (tensor : String) : Except Fault Program :=
  if (Ordered.get? tensor p.witness).isSome then .ok { p with witness := p.witness.drop tensor }
  else .error .missingKey

def setWitness (p : Program) (tensor : String) (values : List Int) : Program :=
  { p with witness := Ordered.put tensor ⟨[values.length], values.toArray⟩ p.witness }

def dropDerived (p : Program) (address : Int) : Except Fault Program :=
  if p.derived.contains address then .ok { p with derived := p.derived.erase address }
  else .error .missingKey

def emittedEntry (p : Lowering.Plan) : Log.Entry :=
  Log.info "zkasm.emitter" <|
    "emitted " ++ natText p.steps.length ++ " instructions for " ++ natText p.blocks.length
      ++ " nodes (" ++ Numeral.write p.allocator.totalUsed ++ " cells, " ++ natText p.tables.length
      ++ " tables)"

def lower (name : String) (g : Circuit.Graph) (w : Witness) (layout : Layout) (lookupBits : Json)
    (m : Int) : Except Fault Program × List Log.Entry :=
  let (zero, d) := (Emitter.lowerGraph g w lookupBits m).run (Emitter.State.empty g layout)
  match zero with
  | .error f => (.error f, d.log)
  | .ok z =>
    let plan : Lowering.Plan := ⟨d.allocator, d.blocks, d.tables, z⟩
    (.ok ⟨name, g, w, plan, d.derived, m, []⟩, d.log ++ [emittedEntry plan])

end Program

end TensorAsm
