/-!
# Errors

An error is a fault, and optionally the context in which it arose: the source,
the line, and the functions that were being compiled, outermost last.  All
wording is here.
-/

namespace Lowering

/-- What can be wrong with a call. -/
inductive CallFault where
  /-- No known function has this name. -/
  | undefined (name : String) (line : UInt32)
  /-- The call gives fewer arguments than the function takes. -/
  | tooFew (name : String) (line : UInt32) (expected actual : Nat)
deriving DecidableEq

namespace CallFault

/-- The line of the call. -/
def line : CallFault → UInt32
  | .undefined _ line => line
  | .tooFew _ line _ _ => line

def message : CallFault → String
  | .undefined name line =>
      "function '" ++ name ++ "' not defined (line " ++ line.toNat.repr ++ ")"
  | .tooFew name line expected actual =>
      "not enough args on line " ++ line.toNat.repr ++ ": '" ++ name
        ++ "' expects " ++ expected.repr ++ ", got " ++ actual.repr

end CallFault

/-- What can go wrong at all.  Only a `call` fault is about the program
itself. -/
inductive Fault where
  | call (fault : CallFault)
  | io (detail : String)
  | serialization (detail : String)
  | invalidConfig (detail : String)
deriving DecidableEq

namespace Fault

def message : Fault → String
  | .call fault => fault.message
  | .io detail => "I/O error: " ++ detail
  | .serialization detail => "serialization error: " ++ detail
  | .invalidConfig detail => "invalid configuration: " ++ detail

def isCompileFault : Fault → Bool
  | .call _ => true
  | _ => false

end Fault

structure Context where
  source : Option String := none
  line : Option UInt32 := none
  stack : List String := []
deriving DecidableEq

namespace Context

/-- Where it happened; a line is shown only behind the source that it counts
in. -/
def position (context : Context) : String :=
  match context.source, context.line with
  | none, _ => ""
  | some source, none => "at " ++ source
  | some source, some line => "at " ++ source ++ ":" ++ line.toNat.repr

/-- The frames, one to a line, each line ended; nothing at all when there are
none. -/
def trace (context : Context) : String :=
  match context.stack with
  | [] => ""
  | frames =>
      "\n" ++ String.join (frames.map fun frame => "  in " ++ frame ++ "\n")

def text (context : Context) : String :=
  context.position ++ context.trace

end Context

structure Error where
  fault : Fault
  context : Option Context := none
deriving DecidableEq

namespace Error

def message (error : Error) : String :=
  error.fault.message

def isCompileError (error : Error) : Bool :=
  error.fault.isCompileFault

/-- The line of the call at fault, or else the one that the context gives. -/
def line (error : Error) : Option UInt32 :=
  match error.fault with
  | .call fault => some fault.line
  | _ => error.context.bind Context.line

/-- Puts the context in place of the one that was there. -/
def withContext (error : Error) (context : Context) : Error :=
  { error with context := some context }

/-- Adds a frame behind those already there. -/
def inFrame (error : Error) (frame : String) : Error :=
  let context := error.context.getD {}
  error.withContext { context with stack := context.stack ++ [frame] }

/-- Names the source.  The line of the context stays, or else becomes the line
of the error. -/
def locate (error : Error) (source : String) : Error :=
  let context := error.context.getD {}
  error.withContext
    { context with source := some source, line := context.line.or error.line }

end Error

end Lowering
