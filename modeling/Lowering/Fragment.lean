import Lowering.Text.Lines

/-!
# Runtime fragments

The runtime is six source files that become part of every unit.

## Main results

* `Fragments.text_set` — setting one fragment changes that one and no other.
* `Fragments.text_map` — a change of all texts is the same for each.
-/

namespace Lowering

inductive Fragment where
  | utilsHeader
  | valueHeader
  | utilsSource
  | valueSource
  | builtinsSource
  | entry
deriving DecidableEq

namespace Fragment

/-- All fragments, in the order in which they appear in a unit. -/
def all : List Fragment :=
  [.utilsHeader, .valueHeader, .utilsSource, .valueSource, .builtinsSource,
    .entry]

theorem mem_all (fragment : Fragment) : fragment ∈ all := by
  cases fragment <;> decide

def fileName : Fragment → String
  | .utilsHeader => "utils.h"
  | .valueHeader => "value.h"
  | .utilsSource => "utils.c"
  | .valueSource => "value.c"
  | .builtinsSource => "builtins.c"
  | .entry => "entry.c"

def isHeader : Fragment → Bool
  | .utilsHeader | .valueHeader => true
  | _ => false

/-- The file names of the headers, which need not be included in a unit. -/
def headers : List String :=
  (all.filter isHeader).map fileName

/-- The fragment that a file holds. -/
def ofFileName? (name : String) : Option Fragment :=
  all.find? fun fragment => fragment.fileName = name

end Fragment

/-- A text for each fragment. -/
structure Fragments where
  utilsHeader : Text := []
  valueHeader : Text := []
  utilsSource : Text := []
  valueSource : Text := []
  builtinsSource : Text := []
  entry : Text := []
deriving DecidableEq

namespace Fragments

def text (fragments : Fragments) : Fragment → Text
  | .utilsHeader => fragments.utilsHeader
  | .valueHeader => fragments.valueHeader
  | .utilsSource => fragments.utilsSource
  | .valueSource => fragments.valueSource
  | .builtinsSource => fragments.builtinsSource
  | .entry => fragments.entry

def set (fragments : Fragments) (fragment : Fragment) (text : Text) :
    Fragments :=
  match fragment with
  | .utilsHeader => { fragments with utilsHeader := text }
  | .valueHeader => { fragments with valueHeader := text }
  | .utilsSource => { fragments with utilsSource := text }
  | .valueSource => { fragments with valueSource := text }
  | .builtinsSource => { fragments with builtinsSource := text }
  | .entry => { fragments with entry := text }

/-- Changes every text in the same way. -/
def map (f : Text → Text) (fragments : Fragments) : Fragments where
  utilsHeader := f fragments.utilsHeader
  valueHeader := f fragments.valueHeader
  utilsSource := f fragments.utilsSource
  valueSource := f fragments.valueSource
  builtinsSource := f fragments.builtinsSource
  entry := f fragments.entry

@[simp] theorem text_map (f : Text → Text) (fragments : Fragments)
    (fragment : Fragment) :
    (fragments.map f).text fragment = f (fragments.text fragment) := by
  cases fragment <;> rfl

@[simp] theorem text_set (fragments : Fragments) (fragment other : Fragment)
    (text : Text) :
    (fragments.set fragment text).text other =
      if other = fragment then text else fragments.text other := by
  cases fragment <;> cases other <;> rfl

end Fragments

end Lowering
