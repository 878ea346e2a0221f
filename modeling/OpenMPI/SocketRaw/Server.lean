import Mathlib.Data.Int.Notation
import Mathlib.Data.Nat.Notation
import Mathlib.Logic.Function.Basic

/-!
# The server of the raw Ethernet copy

The loop of `server.c`: what it does with a frame of the client and when none comes.  Frames of other
programs leave nothing behind and are left out.
-/

namespace OpenMPI.SocketRaw

def chunk : ℕ := 1498

def cantChunks : ℕ := 8

/-- What is after the header in the shortest Ethernet frame. -/
def lengthAck : ℕ := 44

abbrev Buffer := ℕ → UInt8

namespace Buffer

def memcpy (b : Buffer) (offset : ℕ) (bytes : List UInt8) : Buffer := fun k =>
  if offset ≤ k ∧ k < offset + bytes.length then bytes.getD (k - offset) 0 else b k

def bytes (b : Buffer) (offset length : ℕ) : List UInt8 :=
  (List.range length).map fun k => b (offset + k)

end Buffer

/-- A frame of the client.  No code reads with which read of the file it was sent, from one on, and
which chunk of it is in it. -/
structure Trama where
  nroSecuencia : UInt8
  contenido : List UInt8
  lectura : ℕ
  indice : ℕ := 0
  deriving DecidableEq, Repr

/-- A frame of the server.  No code reads at which portion of the file the server was, from one on. -/
structure Ack where
  nroSecuencia : UInt8
  grilla : List UInt8
  porcion : ℕ
  deriving DecidableEq, Repr

/-- The variables of `server.c`.  `archivo` is what is in the file, and `salida` whether the program
has ended with an error.  No code reads the portion it is at, of which portion the chunk in each place
is, with its number in it, and what was written so far. -/
structure Server where
  filefd : Bool
  archivo : List UInt8
  filesize : ℤ
  bytesArchivo : ℕ
  totalEscrito : ℤ
  bufferWrite : Buffer
  grilla : List UInt8
  nroSecuenciaAnterior : UInt8
  ackCompleto : Bool
  primerPaquete : Bool
  salida : Bool := false
  porcion : ℕ := 0
  origen : ℕ → Option (ℕ × ℕ) := fun _ => none
  escrituras : List (ℕ × (ℕ → Option (ℕ × ℕ))) := []

def distancia (nroSecuencia nroSecuenciaAnterior : UInt8) : ℤ :=
  let dif : ℤ := nroSecuencia.toNat - nroSecuenciaAnterior.toNat
  if dif < 0 then 0xEF - nroSecuenciaAnterior.toNat + nroSecuencia.toNat else dif

namespace Server

def enviarAck (s : Server) (nroSecuencia : UInt8) : Ack := ⟨nroSecuencia, s.grilla, s.porcion⟩

/-- `write` of the buffer; without a file it goes elsewhere. -/
def write (s : Server) : Server :=
  { s with
    archivo := if s.filefd then s.archivo ++ s.bufferWrite.bytes 0 s.bytesArchivo else s.archivo
    escrituras := s.escrituras ++ [(s.porcion, s.origen)] }

def blanquear (s : Server) : Server :=
  { s with grilla := List.replicate cantChunks 0 ++ s.grilla.drop cantChunks }

/-- The start of a transmission; `sscanf` is what is read of its size. -/
def nombreArchivo (sscanf : List UInt8 → ℤ → ℤ) (f : Trama) (s : Server) : Server × List Ack :=
  let s := { s with
    bufferWrite := Buffer.memcpy (fun _ => 0) 0 f.contenido
    filesize := sscanf f.contenido s.filesize
    archivo := []
    filefd := true
    grilla := List.replicate lengthAck 0
    bytesArchivo := 0
    nroSecuenciaAnterior := 0
    totalEscrito := 0
    porcion := 1
    origen := fun _ => none
    escrituras := [] }
  (s, [s.enviarAck f.nroSecuencia])

def eof (f : Trama) (s : Server) : Server × List Ack :=
  let s := if s.grilla.take cantChunks ≠ List.replicate cantChunks 0 then
      { s.write with totalEscrito := s.totalEscrito + s.bytesArchivo }
    else s
  let s := { s.blanquear with filefd := false, nroSecuenciaAnterior := f.nroSecuencia }
  (s, [s.enviarAck f.nroSecuencia])

def checksum (md5sum : List UInt8 → List UInt8) (f : Trama) (s : Server) : Server × List Ack :=
  let digest := md5sum s.archivo
  let s := { s with
    grilla := digest ++ s.grilla.drop digest.length
    nroSecuenciaAnterior := f.nroSecuencia
    primerPaquete := false
    bufferWrite := fun _ => 0 }
  (s, [s.enviarAck f.nroSecuencia])

def avanzar (s : Server) : Server :=
  let anterior := s.nroSecuenciaAnterior + 8
  { s.write.blanquear with
    totalEscrito := s.totalEscrito + chunk * cantChunks
    bytesArchivo := 0
    ackCompleto := false
    nroSecuenciaAnterior := if 0xF0 - 8 ≤ anterior then anterior - (0xF0 - 8) else anterior
    porcion := s.porcion + 1
    origen := fun _ => none }

def completar (posicion : ℕ) (f : Trama) (s : Server) : Server :=
  if s.grilla.getD posicion 0 = 0 then
    { s with
      grilla := s.grilla.set posicion 0xFF
      bufferWrite := s.bufferWrite.memcpy (posicion * chunk) f.contenido
      bytesArchivo := s.bytesArchivo + f.contenido.length
      origen := Function.update s.origen posicion (some (f.lectura, f.indice)) }
  else s

/-- An ACK is sent when the portion is complete, and for its last chunk, if another came before, and
the last one of the file. -/
def responder (posicion : ℕ) (f : Trama) (s : Server) : Server × List Ack :=
  let completo := s.grilla.take cantChunks = List.replicate cantChunks 0xFF
  let mandarAck := completo ∨
    ((f.nroSecuencia.toNat + 1) % cantChunks = 0 ∧ s.primerPaquete = false) ∨
    s.filesize ≤ s.totalEscrito + (posicion + 1) * chunk
  ({ s with ackCompleto := s.ackCompleto || completo, primerPaquete := false },
    if mandarAck then [s.enviarAck s.nroSecuenciaAnterior] else [])

def contenidoArchivo (f : Trama) (s : Server) : Server × List Ack :=
  let posicion := f.nroSecuencia.toNat % cantChunks
  if distancia f.nroSecuencia s.nroSecuenciaAnterior < cantChunks then
    responder posicion f (s.completar posicion f)
  else if s.ackCompleto then responder posicion f (s.avanzar.completar posicion f)
  -- ERROR
  else ({ s with salida := true }, [])

def recibir (md5sum : List UInt8 → List UInt8) (sscanf : List UInt8 → ℤ → ℤ) (f : Trama)
    (s : Server) : Server × List Ack :=
  if f.nroSecuencia = 0xFF then s.nombreArchivo sscanf f
  else if f.nroSecuencia = 0xFE then s.eof f
  else if f.nroSecuencia = 0xFD then s.checksum md5sum f
  else s.contenidoArchivo f

def timeout (s : Server) : List Ack :=
  if s.primerPaquete then [] else [s.enviarAck s.nroSecuenciaAnterior]

end Server

end OpenMPI.SocketRaw
