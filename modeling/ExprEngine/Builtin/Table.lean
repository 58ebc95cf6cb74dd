/-!
# Built-in functions: names and argument counts

The functions that an expression can call without anyone defining them, in the order of their names,
each with the least and, if there is one, the greatest number of arguments.
-/

namespace ExprEngine

/-- A built-in function. -/
inductive Builtin where
  | abs | acos | ascii | asin | atan | char | cos | exp
  | getpid | isatty | ln | log10 | mod | pad | pow | rand
  | regmatch | replace | sin | sqrt | strcat | strchr | strcmp | strlen
  | strncmp | strrchr | strrep | strstr | substr | systype | tan | test
  | time | tolower | toupper | trunc | whatis
deriving DecidableEq

namespace Builtin

/-- All built-in functions, in the order of their names. -/
def all : List Builtin :=
  [.abs, .acos, .ascii, .asin, .atan, .char, .cos, .exp,
   .getpid, .isatty, .ln, .log10, .mod, .pad, .pow, .rand,
   .regmatch, .replace, .sin, .sqrt, .strcat, .strchr, .strcmp, .strlen,
   .strncmp, .strrchr, .strrep, .strstr, .substr, .systype, .tan, .test,
   .time, .tolower, .toupper, .trunc, .whatis]

/-- The name by which an expression calls the function. -/
def name : Builtin → String
  | .abs => "abs"
  | .acos => "acos"
  | .ascii => "ascii"
  | .asin => "asin"
  | .atan => "atan"
  | .char => "char"
  | .cos => "cos"
  | .exp => "exp"
  | .getpid => "getpid"
  | .isatty => "isatty"
  | .ln => "ln"
  | .log10 => "log10"
  | .mod => "mod"
  | .pad => "pad"
  | .pow => "pow"
  | .rand => "rand"
  | .regmatch => "regmatch"
  | .replace => "replace"
  | .sin => "sin"
  | .sqrt => "sqrt"
  | .strcat => "strcat"
  | .strchr => "strchr"
  | .strcmp => "strcmp"
  | .strlen => "strlen"
  | .strncmp => "strncmp"
  | .strrchr => "strrchr"
  | .strrep => "strrep"
  | .strstr => "strstr"
  | .substr => "substr"
  | .systype => "systype"
  | .tan => "tan"
  | .test => "test"
  | .time => "time"
  | .tolower => "tolower"
  | .toupper => "toupper"
  | .trunc => "trunc"
  | .whatis => "whatis"

/-- Least and greatest number of arguments; no greatest one where any number may follow. -/
def arity : Builtin → Nat × Option Nat
  | .getpid | .isatty | .systype | .time => (0, some 0)
  | .rand => (0, some 2)
  | .abs | .acos | .ascii | .asin | .atan | .char | .cos | .exp | .ln | .log10 | .sin
  | .sqrt | .strlen | .tan | .test | .trunc | .whatis => (1, some 1)
  | .tolower | .toupper => (1, some 2)
  | .pad | .strcat => (1, none)
  | .mod | .pow | .regmatch | .strcmp | .strrep => (2, some 2)
  | .strchr | .strrchr | .strstr | .substr => (2, some 3)
  | .replace | .strncmp => (3, some 3)

/-- The function of a name; case matters. -/
def find? (name : String) : Option Builtin :=
  all.find? (·.name == name)

/-- The function takes that many arguments. -/
def accepts (b : Builtin) (n : Nat) : Bool :=
  b.arity.1 ≤ n && b.arity.2.all (n ≤ ·)

theorem mem_all (b : Builtin) : b ∈ all := by
  cases b <;> decide

theorem find?_name (b : Builtin) : find? b.name = some b := by
  cases b <;> decide

theorem name_injective {a b : Builtin} (h : a.name = b.name) : a = b := by
  have ha := find?_name a
  rw [h, find?_name b] at ha
  exact (Option.some.inj ha).symm

end Builtin

end ExprEngine
