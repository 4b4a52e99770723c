import PixelEffect.Json.Number

namespace PixelEffect

/-- A JSON value. Numbers are kept as they are written, and objects keep all their members in
order. -/
inductive Json
  | null
  | bool (b : Bool)
  | number (n : Numeral)
  | string (s : String)
  | array (items : List Json)
  | object (members : List (String × Json))

namespace Json

/-- A number, which has to be finite to be one in a JSON text. -/
def ofNumber {fmt : Float.Model.Format} (style : NumberStyle) (x : Ieee fmt) : Json :=
  if x.isFinite then number (style.numeral x) else null

def ofSingle (x : Single) : Json := ofNumber .jsonSingle x

def ofDouble (x : Double) : Json := ofNumber .jsonDouble x

def ofSingles (xs : List Single) : Json := array (xs.map ofSingle)

end Json

end PixelEffect
