import Telemetry.Json.Basic
import Telemetry.Real64.Text

/-!
Strings and numbers of JSON. A string is its UTF-8 bytes in either direction: only a quote, a
backslash and the control bytes are escaped, none of which occurs inside a longer character.
-/

namespace Telemetry.Json

/-- The bytes of a string. A UTF-16 unit of the first half of a pair has to be followed by one of
the second half, and that one stands nowhere else. -/
def pieceBytes? (done : List UInt8) : Quoted → Option (List UInt8)
  | [] => some done.reverse
  | .byte b :: ps => pieceBytes? (b :: done) ps
  | .unit u :: ps =>
    if u < 0xd800 ∨ 0xdfff < u then
      pieceBytes? ((String.utf8EncodeChar (Char.ofNat u.toNat)).reverse ++ done) ps
    else if 0xdbff < u then none
    else match ps with
      | .unit v :: qs =>
        if v < 0xdc00 ∨ 0xdfff < v then none
        else
          let code := 0x10000 + (u.toNat - 0xd800) * 0x400 + (v.toNat - 0xdc00)
          pieceBytes? ((String.utf8EncodeChar (Char.ofNat code)).reverse ++ done) qs
      | _ => none

/-- The text of a string, unless its bytes are no UTF-8 or it holds half a surrogate pair. -/
def Quoted.text? (s : Quoted) : Option String := do
  String.fromUTF8? ⟨(← pieceBytes? [] s).toArray⟩

def utf8 (s : String) : List UInt8 := s.toUTF8.data.toList

def hexDigits : List UInt8 := utf8 "0123456789abcdef"

def escape (b : UInt8) : List UInt8 :=
  if b == '"'.toUInt8 || b == '\\'.toUInt8 then ['\\'.toUInt8, b]
  else if 0x20 ≤ b then [b]
  else if b == 8 then utf8 "\\b"
  else if b == 9 then utf8 "\\t"
  else if b == 10 then utf8 "\\n"
  else if b == 12 then utf8 "\\f"
  else if b == 13 then utf8 "\\r"
  else utf8 "\\u00" ++ [hexDigits.getD (b.toNat / 16) 0, hexDigits.getD (b.toNat % 16) 0]

def writeText (s : String) : List UInt8 :=
  '"'.toUInt8 :: (utf8 s).flatMap escape ++ ['"'.toUInt8]

/-- Positional from `1e-5` up to `1e16`, whole numbers with `.0`; a half digit goes to the even
one. -/
def numberStyle : Real64.NumberStyle := ⟨.toEven, true, fun point => -5 < point && point ≤ 16⟩

/-- A number that is not finite has no text of its own and is written as null. -/
def writeReal (x : Real64) : List UInt8 :=
  if x.isFinite then (Real64.finiteText numberStyle x).map Char.toUInt8
  else utf8 "null"

def writeInt (n : Int) : List UInt8 := utf8 (toString n)

end Telemetry.Json
