import Mathlib.Data.List.Basic
import OpenMPI.Btl.Base
import OpenMPI.SocketRaw.Server

/-!
# The name and the size of a file

What `main` of `client.c` makes of its path, how `startOfTx` writes the name and the size of the file into a frame, and how the server
reads them out of it with `sscanf`.
-/

namespace OpenMPI.SocketRaw

open Btl (int32)

def bufferSize : ℕ := 1517

def ethHeaderLen : ℕ := 14

def rawHeaderLen : ℕ := 2

def slash : UInt8 := 47
def blank : UInt8 := 32

def ascii (s : List Char) : List UInt8 := s.map fun c => UInt8.ofNat c.toNat

def chars (s : List UInt8) : List Char := s.map fun b => Char.ofNat b.toNat

def cString (s : List UInt8) : List UInt8 := s.takeWhile (· ≠ 0)

def isspace (c : UInt8) : Bool := c = blank ∨ 9 ≤ c.toNat ∧ c.toNat ≤ 13

def isdigit (c : UInt8) : Bool := 48 ≤ c.toNat ∧ c.toNat ≤ 57

def printInt (i : ℤ) : List UInt8 :=
  ascii (if i < 0 then '-' :: Nat.toDigits 10 i.natAbs else Nat.toDigits 10 i.natAbs)

/-- `%d` of `sscanf`; what is too large is cut off as by `strtol`. -/
def scanInt (s : List UInt8) : Option ℤ :=
  let value (s : List UInt8) : Option ℕ :=
    match s.takeWhile isdigit with
    | [] => none
    | digits => some (Nat.ofDigitChars 10 (chars digits) 0)
  let s := s.dropWhile isspace
  if s.head? = some 45 then (value s.tail).map fun (n : ℕ) => int32 (max (-(n : ℤ)) (-2 ^ 63))
  else if s.head? = some 43 then (value s.tail).map fun (n : ℕ) => int32 (min (n : ℤ) (2 ^ 63 - 1))
  else (value s).map fun (n : ℕ) => int32 (min (n : ℤ) (2 ^ 63 - 1))

/-- `strtok` with `"/"`: a token, and the string after it. -/
def strtok (s : List UInt8) : Option (List UInt8 × List UInt8) :=
  let s := s.dropWhile (· = slash)
  if s = [] then none else some (s.takeWhile (· ≠ slash), (s.dropWhile (· ≠ slash)).tail)

def tokenLoop : (fuel : ℕ) → (parse : List UInt8) → (filename : Option (List UInt8)) → Option (List UInt8)
  | 0, _, filename => filename
  | fuel + 1, parse, filename =>
    match strtok parse with
    | none => filename
    | some (token, parse) => tokenLoop fuel parse (some token)

/-- The name of the file at a path; a path has to fit into its buffer. -/
def filenameOf (path : List UInt8) : Option (List UInt8) :=
  if path.length < bufferSize then tokenLoop path.length path none else none

/-- `startOfTx` in the memory after the Ethernet header: what is in the frame behind the header of the protocol, if there is room for it in
the buffer. -/
def startOfTx (data : Buffer) (filename : List UInt8) (filesize : ℤ) : Option (List UInt8) :=
  let filenameSize := filename.length + 1
  let size := printInt filesize
  let data := data.memcpy 0 [0xFF, 67]
  let data := data.memcpy rawHeaderLen (filename ++ [0])
  let data := data.memcpy (filenameSize + 1) [blank]
  let data := data.memcpy (rawHeaderLen + filenameSize) size
  if ethHeaderLen + rawHeaderLen + filenameSize + size.length ≤ bufferSize then
    some (data.bytes rawHeaderLen (filenameSize + size.length))
  else none

/-- What the client sends first for a path to a file of this size; `filesize` is an `int`. -/
def Client.inicioTx (data : Buffer) (path : List UInt8) (stSize : ℕ) : Option (List UInt8) :=
  (filenameOf path).bind fun filename => startOfTx data filename (int32 stSize)

/-- `sscanf` with `"%s %d"` from the frame, in the buffer that was blanked before: `filename` and `filesize` after it, unless the name is too
long for its array. -/
def Server.leerNombre (contenido : List UInt8) (filename : List UInt8) (filesize : ℤ) : Option (List UInt8 × ℤ) :=
  let s := (cString contenido).dropWhile isspace
  let token := s.takeWhile fun c => !isspace c
  if s = [] then some (filename, filesize)
  else if 256 ≤ token.length then none
  else some (token, (scanInt (s.dropWhile fun c => !isspace c)).getD filesize)

def Server.sscanf (contenido : List UInt8) (filesize : ℤ) : ℤ := ((leerNombre contenido [] filesize).map Prod.snd).getD filesize

end OpenMPI.SocketRaw
