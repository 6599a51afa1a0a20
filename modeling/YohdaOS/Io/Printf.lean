import Mathlib.Data.List.GetD
import YohdaOS.Io.Stdlib

/-!
# io.c

`vkprintf` puts its output into an array of 256 bytes.  A number, a string or a character goes to the
end of what is there, and the new end is found with `strlen`.  The pointer to the function that puts
it is a static variable, which a letter that is no conversion leaves as it is.
-/

namespace YohdaOS.Io

def PRINT_NORMAL : ℕ := 0x00

def PRINT_CHAR : ℕ := 0x01

def PRINT_FORMAT : ℕ := 0x02

def IO_STR_LEN : ℕ := 256

/-- The array `printable`. -/
def printableTable : List ℕ :=
  [0, 0, 0, 0, 0, 0, 0, 0,
   0, 0, 1, 0, 0, 0, 0, 0,
   0, 0, 0, 0, 0, 0, 0, 0,
   0, 0, 0, 0, 0, 0, 0, 0,
   1, 1, 1, 1, 1, 2, 1, 1,
   1, 1, 1, 1, 1, 1, 1, 1,
   1, 1, 1, 1, 1, 1, 1, 1,
   1, 1, 1, 1, 1, 1, 1, 1,
   1, 1, 1, 1, 1, 1, 1, 1,
   1, 1, 1, 1, 1, 1, 1, 1,
   1, 1, 1, 1, 1, 1, 1, 1,
   1, 1, 1, 1, 1, 1, 1, 1,
   1, 1, 1, 1, 1, 1, 1, 1,
   1, 1, 1, 1, 1, 1, 1, 1,
   1, 1, 1, 1, 1, 1, 1, 1,
   1, 1, 1, 1, 1, 1, 1, 0]

/-- `printable[c]`, where `char` is signed; `none` is an access outside the array. -/
def printable (c : BitVec 8) : Option ℕ := if c.toInt < 0 then none else printableTable[c.toNat]?

/-- What a call finds: the words of its arguments, and the string that each address points to. -/
structure Caller where
  arg : ℕ → BitVec 32
  str : BitVec 32 → List (BitVec 8)

/-- `struct pr_info`; `args` is the number of arguments that are taken. -/
structure PrInfo where
  args : ℕ
  len : ℕ
  buf : ℕ → BitVec 8

namespace PrInfo

/-- The bytes are copied into `buf` from `idx` on; `none` is an access outside it. -/
def put (pi : PrInfo) (idx : ℕ) (bytes : List (BitVec 8)) : Option PrInfo :=
  if bytes.length < 1 then some pi
  else if idx + bytes.length ≤ IO_STR_LEN then
    some { pi with
      buf := fun j => if idx ≤ j ∧ j < idx + bytes.length then bytes.getD (j - idx) 0 else pi.buf j }
  else none

/-- `strlen(pi->buf)`; `none` where it reads behind the array. -/
def strlen (pi : PrInfo) : Option ℕ :=
  (List.range IO_STR_LEN).find? fun j => decide (pi.buf j = 0)

/-- What the functions that put an argument have in common. -/
def parseArg (caller : Caller) (bytes : BitVec 32 → List (BitVec 8)) (pi : PrInfo) (idx : ℕ) :
    Option PrInfo := do
  let w := caller.arg pi.args
  let pi ← { pi with args := pi.args + 1 }.put idx (bytes w)
  let n ← pi.strlen
  some { pi with len := n }

end PrInfo

/-- The bytes that `parse_str` copies; `strlen` of NULL is 0. -/
def Caller.strBytes (caller : Caller) (w : BitVec 32) : List (BitVec 8) :=
  if w = 0 then [] else (caller.str w).take (Text.strlen (caller.str w))

/-- The values of `parse`. -/
inductive Parse where
  | int
  | char
  | str
  | hex
deriving DecidableEq, Repr

/-- The bytes that are put for an argument. -/
def Caller.bytes (caller : Caller) : Parse → BitVec 32 → List (BitVec 8)
  | .int, w => itoa w.toInt
  | .char, w => [w.setWidth 8]
  | .str, w => caller.strBytes w
  | .hex, w => itoh w

def parseInt (caller : Caller) : PrInfo → ℕ → Option PrInfo := PrInfo.parseArg caller (caller.bytes .int)

def parseChar (caller : Caller) : PrInfo → ℕ → Option PrInfo := PrInfo.parseArg caller (caller.bytes .char)

def parseStr (caller : Caller) : PrInfo → ℕ → Option PrInfo := PrInfo.parseArg caller (caller.bytes .str)

def parseHex (caller : Caller) : PrInfo → ℕ → Option PrInfo := PrInfo.parseArg caller (caller.bytes .hex)

def Parse.call (caller : Caller) : Parse → PrInfo → ℕ → Option PrInfo
  | .int => parseInt caller
  | .char => parseChar caller
  | .str => parseStr caller
  | .hex => parseHex caller

/-- The cases of the `switch`. -/
def Parse.ofLetter (c : BitVec 8) : Option Parse :=
  if c = 0x64 then some .int
  else if c = 0x63 then some .char
  else if c = 0x73 then some .str
  else if c = 0x78 ∨ c = 0x58 then some .hex
  else none

/-- The variables of `vkprintf`, and the static `parse`. -/
structure Printf where
  state : ℕ
  pi : PrInfo
  parse : Option Parse

namespace Printf

/-- The part of the loop that depends on `state`; the call of a null pointer fails. -/
def branch (caller : Caller) (v : Printf) (c : BitVec 8) (kind : ℕ) : Option Printf :=
  if v.state = PRINT_NORMAL then some { v with state := kind }
  else if v.state = PRINT_FORMAT then do
    let f ← (Parse.ofLetter c).or v.parse
    let pi ← f.call caller v.pi v.pi.len
    some ⟨PRINT_NORMAL, pi, some f⟩
  else some v

/-- One round of the loop. -/
def step (caller : Caller) (v : Printf) (c : BitVec 8) : Option Printf := do
  let kind ← printable c
  if kind = 0 then some v
  else
    let v ← v.branch caller c kind
    if v.state = PRINT_CHAR then do
      let pi ← v.pi.put v.pi.len [c]
      some { v with state := PRINT_NORMAL, pi := { pi with len := v.pi.len + 1 } }
    else some v

/-- The string that is handed to `vt_flush_with_buf`, where it ends in the array. -/
def text (v : Printf) : Option (List (BitVec 8)) := v.pi.strlen.map fun n => (List.range n).map v.pi.buf

end Printf

/-- `vkprintf`: the string it flushes, and the value that `parse` has afterwards.  It is `none` where
an access is outside of an array or the pointer is null. -/
def vkprintf (caller : Caller) (parse : Option Parse) (fmt : List (BitVec 8)) :
    Option (List (BitVec 8) × Option Parse) := do
  let v ← (cstr fmt).foldlM (Printf.step caller) ⟨PRINT_NORMAL, ⟨0, 0, fun _ => 0⟩, parse⟩
  let text ← v.text
  some (text, v.parse)

end YohdaOS.Io
