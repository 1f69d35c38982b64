/-!
# TOML values

The values of the format.  Numbers with a fraction and dates are told apart from other values but
not decoded: no setting uses them.
-/

set_option autoImplicit false

namespace Jmm

/-- A TOML value. -/
inductive Toml where
  | string (s : String)
  | integer (n : Int)
  | float
  | boolean (b : Bool)
  | datetime
  | array (items : List Toml)
  | table (entries : List (String × Toml))
deriving Inhabited

namespace Toml

/-- The value bound to a key. -/
def entry? (key : String) (entries : List (String × Toml)) : Option Toml :=
  (entries.find? fun e ↦ e.1 == key).map Prod.snd

end Toml
end Jmm
