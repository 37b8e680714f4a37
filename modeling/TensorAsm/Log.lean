/-!
What a run notes down on its way: entries with a level and the part of the program they are from.
-/

namespace TensorAsm.Log

inductive Level where
  | debug | info
  deriving DecidableEq, Repr

def Level.name : Level → String
  | .debug => "DEBUG"
  | .info => "INFO"

structure Entry where
  level : Level
  origin : String
  message : String
  deriving DecidableEq, Repr

def debug (origin message : String) : Entry := ⟨.debug, origin, message⟩

def info (origin message : String) : Entry := ⟨.info, origin, message⟩

def Entry.text (e : Entry) : String := e.level.name ++ " " ++ e.origin ++ ": " ++ e.message

def Entry.shown (verbosity : Nat) (e : Entry) : Bool :=
  match e.level with
  | .debug => 2 ≤ verbosity
  | .info => 1 ≤ verbosity

end TensorAsm.Log
