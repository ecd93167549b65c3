/-!
# Programs

A program is a list of function definitions.  The body of a definition is a list
of calls, and the arguments of a call are expressions.  Literals keep their text
as it was written.

## Main results

* `Expr.same_iff` — the comparison of expressions decides their equality, lines
  included.
-/

namespace Lowering

/-- A name and the source line it was written on. -/
structure Ident where
  text : String
  line : UInt32 := 0
deriving DecidableEq

inductive Expr where
  | int (digits : String)
  | float (digits : String)
  | string (content : String)
  | name (ident : Ident)
  | array (values : List Expr)
  | branch (condition truthy falsy : Expr)
  | call (callee : Ident) (args : List Expr)

namespace Expr

/-- The seven kinds of expression. -/
inductive Kind where
  | int
  | float
  | string
  | name
  | array
  | branch
  | call
deriving DecidableEq

/-- The kinds in the order in which they are numbered. -/
def Kind.all : List Kind :=
  [.int, .float, .string, .name, .array, .branch, .call]

def Kind.label : Kind → String
  | .int => "int"
  | .float => "float"
  | .string => "string"
  | .name => "name"
  | .array => "array"
  | .branch => "branch"
  | .call => "call"

theorem Kind.mem_all (kind : Kind) : kind ∈ Kind.all := by
  cases kind <;> decide

def kind : Expr → Kind
  | .int _ => .int
  | .float _ => .float
  | .string _ => .string
  | .name _ => .name
  | .array _ => .array
  | .branch _ _ _ => .branch
  | .call _ _ => .call

/-! ## Equality -/

mutual

def same : Expr → Expr → Bool
  | .int a, .int b => a == b
  | .float a, .float b => a == b
  | .string a, .string b => a == b
  | .name a, .name b => a == b
  | .array as, .array bs => sameAll as bs
  | .branch c t f, .branch c' t' f' => same c c' && same t t' && same f f'
  | .call a as, .call b bs => a == b && sameAll as bs
  | _, _ => false

def sameAll : List Expr → List Expr → Bool
  | [], [] => true
  | a :: as, b :: bs => same a b && sameAll as bs
  | _, _ => false

end

mutual

theorem same_iff (a b : Expr) : same a b = true ↔ a = b := by
  match a with
  | .int _ => cases b <;> simp [same]
  | .float _ => cases b <;> simp [same]
  | .string _ => cases b <;> simp [same]
  | .name _ => cases b <;> simp [same]
  | .array as =>
      cases b with
      | array bs => simp [same, sameAll_iff as bs]
      | _ => simp [same]
  | .branch c t f =>
      cases b with
      | branch c' t' f' =>
          simp [same, same_iff c c', same_iff t t', same_iff f f', and_assoc]
      | _ => simp [same]
  | .call _ as =>
      cases b with
      | call _ bs => simp [same, sameAll_iff as bs]
      | _ => simp [same]

theorem sameAll_iff (as bs : List Expr) : sameAll as bs = true ↔ as = bs := by
  match as with
  | [] => cases bs <;> simp [sameAll]
  | a :: as =>
      cases bs with
      | nil => simp [sameAll]
      | cons b bs => simp [sameAll, same_iff a b, sameAll_iff as bs]

end

instance : DecidableEq Expr := fun a b => decidable_of_iff _ (same_iff a b)

end Expr

/-- A function applied to arguments: a statement, or an expression through
`Call.toExpr`. -/
structure Call where
  callee : Ident
  args : List Expr := []
deriving DecidableEq

def Call.toExpr (call : Call) : Expr :=
  .call call.callee call.args

structure Definition where
  name : Ident
  params : List Ident := []
  body : List Call := []
deriving DecidableEq

namespace Definition

/-- How many arguments a call has to give at least. -/
def arity (d : Definition) : Nat :=
  d.params.length

end Definition

abbrev Program := List Definition

end Lowering
