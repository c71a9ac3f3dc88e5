import Mathlib.Data.List.Basic

namespace Ltfs.Base64

/-- `base64_enc` -/
def base64Enc : List UInt8 :=
  "ABCDEFGHIJKLMNOPQRSTUVWXYZabcdefghijklmnopqrstuvwxyz0123456789+/".toList.map fun c => UInt8.ofNat c.toNat

def equalsSign : UInt8 := 61

/-- The decode map: `UCHAR_MAX` for what is not a digit -/
def base64Dec (c : UInt8) : UInt8 :=
  if c ∈ base64Enc then UInt8.ofNat (base64Enc.idxOf c) else 255

def isWhite (c : UInt8) : Bool :=
  c = 13 || c = 10 || c = 32 || c = 9

/-- How `base64_decode` fails: it returns 0, or it reads the byte before its input. -/
inductive Fault where
  | rejected
  | outside
  deriving DecidableEq, Repr

/-- The loop that checks for an out-of-place '=' and for invalid characters. The results are `nequal` and
`nbytes_real`. `prev` is the byte before the rest of the input, if there is one. -/
def checkLoop : Option UInt8 → List UInt8 → Nat → Nat → Except Fault (Nat × Nat)
  | _, [], nequal, nbytesReal => .ok (nequal, nbytesReal)
  | prev, c :: rest, nequal, nbytesReal =>
    if c = equalsSign ∧ rest = [equalsSign] then checkLoop (some c) rest 2 nbytesReal
    else if rest = [] ∧ c = equalsSign then
      match prev with
      | none => .error .outside
      | some p => checkLoop (some c) rest (if p ≠ equalsSign then 1 else nequal) nbytesReal
    else if isWhite c then checkLoop (some c) rest nequal (nbytesReal - 1)
    else if base64Dec c = 255 then .error .rejected
    else checkLoop (some c) rest nequal nbytesReal

/-- The bytes written for four characters -/
def quadBytes (q₀ q₁ q₂ q₃ : UInt8) : List UInt8 :=
  (q₀ <<< 2 ||| (q₁ &&& 0x30) >>> 4) ::
    if q₂ = 255 then []
    else ((q₁ &&& 0xF) <<< 4 ||| (q₂ &&& 0x3C) >>> 2) ::
      if q₃ = 255 then [] else [(q₂ &&& 0x3) <<< 6 ||| q₃]

/-- The loop that generates the output. `quad` holds the first `quad_count` members of `cur_quad`. A group of
which less than three bytes are written is the last one. -/
def outputLoop : List UInt8 → List UInt8 → List UInt8
  | _, [] => []
  | quad, c :: rest =>
    if isWhite c then outputLoop quad rest
    else
      match quad ++ [base64Dec c] with
      | [q₀, q₁, q₂, q₃] => quadBytes q₀ q₁ q₂ q₃ ++ outputLoop [] rest
      | quad => outputLoop quad rest

/-- `base64_decode`, with enough memory: the number of bytes and the bytes. The number 0 is what an error
returns. -/
def base64Decode (enc : List UInt8) : Except Fault (Nat × List UInt8) :=
  if enc = [] then .error .rejected
  else
    match checkLoop none enc 0 enc.length with
    | .error e => .error e
    | .ok (nequal, nbytesReal) =>
      if nbytesReal % 4 ≠ 0 then .error .rejected
      else
        let nout := 3 * (nbytesReal / 4) - nequal
        if nout = 0 then .error .rejected else .ok (nout, outputLoop [] enc)

end Ltfs.Base64
