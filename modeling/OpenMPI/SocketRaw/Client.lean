import OpenMPI.Lib.Channel
import OpenMPI.Lib.Run
import OpenMPI.SocketRaw.Server

/-!
# The client of the raw Ethernet copy

`main` and `esperar_ack` of `client.c` as reactions to what comes in.  Between two reactions the
program waits in `esperar_ack`, at one of four places.  A frame that could not be sent is lost on the
way like any other.
-/

namespace OpenMPI.SocketRaw

def limitePaquetesEntrantes : ℕ := 1000

inductive Fase
  | startOfTx
  | main
  | endOfTx
  | compareChecksum
  | fin
  deriving DecidableEq, Repr

inductive Entrante
  | ack (a : Ack)
  -- a frame that is no ACK
  | otro
  | timeout

/-- The variables of `client.c`.  `resto` is what was not read of the file so far, and `data` the frame
in the buffer they are sent from, with a whole chunk in it.  No code reads how often the file was
read. -/
structure Client where
  fase : Fase
  resto : List UInt8
  bufferRead : Buffer
  lengthRead : ℕ := 0
  nroSecuenciaEnviado : UInt8 := 0
  cantidadAck : ℕ := 1
  data : Trama
  cantidadPaquetesEntrantes : ℕ := 0
  lecturas : ℕ := 0

def Ack.valido (a : Ack) : Bool :=
  a.grilla.drop cantChunks = List.replicate (lengthAck - cantChunks) 0

namespace Client

def trama (c : Client) (i length : ℕ) : Trama :=
  ⟨c.nroSecuenciaEnviado + UInt8.ofNat i, c.bufferRead.bytes (i * chunk) length, c.lecturas, i⟩

def huecos (c : Client) (a : Ack) (cantidadAck : ℕ) : List Trama :=
  ((List.range cantidadAck).filter fun i => a.grilla.getD i 0 = 0).map fun i => c.trama i chunk

/-- `esperar_ack`, which either goes on or returns; a return ends the count of the frames. -/
def esperarAck (nroSecuencia cantidadAck : ℕ) (e : Entrante) (c : Client) :
    Client × List Trama × Option ℕ :=
  let entrantes := c.cantidadPaquetesEntrantes + 1
  match e with
  | .timeout => ({ c with cantidadPaquetesEntrantes := 0 }, [], some 3)
  | .otro =>
    if limitePaquetesEntrantes < entrantes then ({ c with cantidadPaquetesEntrantes := 0 }, [], some 2)
    else ({ c with cantidadPaquetesEntrantes := entrantes }, [], none)
  | .ack a =>
    if a.nroSecuencia.toNat = nroSecuencia then
      if nroSecuencia < 0xF0 ∧
          (a.grilla.take cantidadAck) ≠ List.replicate cantidadAck 0xFF then
        ({ c with
          cantidadPaquetesEntrantes := entrantes
          data := (c.huecos a cantidadAck).getLastD c.data }, c.huecos a cantidadAck, none)
      else ({ c with cantidadPaquetesEntrantes := 0 }, [], some 0)
    else
      ({ c with cantidadPaquetesEntrantes := 0 }, [],
        if nroSecuencia = 0 ∧ a.nroSecuencia = 0xEF then some 1
        else if nroSecuencia = a.nroSecuencia.toNat + cantChunks then some 1
        else some 4)

def tramas (c : Client) : ℕ → ℕ → ℕ → List Trama
  | 0, _, _ => []
  | n + 1, i, cantidadEnviada =>
    if 0 < cantidadEnviada then
      c.trama i (min chunk cantidadEnviada) :: c.tramas n (i + 1) (cantidadEnviada - chunk)
    else []

def enviarTramo (c : Client) : Client × List Trama :=
  let tramas := c.tramas cantChunks 0 c.lengthRead
  ({ c with
    cantidadAck := tramas.length
    data := c.trama (tramas.length - 1) chunk }, tramas)

/-- The next read of the file, and what is sent then: its chunks, or the end of the transmission. -/
def leer (c : Client) : Client × List Trama :=
  let leidos := c.resto.take (chunk * cantChunks)
  let c := { c with
    fase := .main
    resto := c.resto.drop (chunk * cantChunks)
    lengthRead := leidos.length
    bufferRead := c.bufferRead.memcpy 0 leidos
    lecturas := c.lecturas + 1 }
  if leidos.length = 0 then
    let fin : Trama := ⟨0xFE, [], c.lecturas, 0⟩
    ({ c with fase := .endOfTx, data := fin }, [fin])
  else c.enviarTramo

/-- `esperar_checksum`: only after too many other frames it is asked for again. -/
def esperarChecksum (e : Entrante) (c : Client) : Client × List Trama :=
  let entrantes := c.cantidadPaquetesEntrantes + 1
  match e with
  | .timeout => ({ c with cantidadPaquetesEntrantes := 0 }, [])
  | .otro =>
    if limitePaquetesEntrantes < entrantes then
      ({ c with cantidadPaquetesEntrantes := 0 }, [c.data])
    else ({ c with cantidadPaquetesEntrantes := entrantes }, [])
  | .ack a =>
    if a.nroSecuencia = 0xFD then ({ c with fase := .fin }, [])
    else ({ c with cantidadPaquetesEntrantes := 0 }, [])

/-- The number of the next portion: those from `0xF0` on are for control. -/
def siguiente (nroSecuenciaEnviado : UInt8) : UInt8 :=
  let nro := nroSecuenciaEnviado + 8
  if 0xF0 ≤ nro.toNat + cantChunks then 0 else nro

/-- What the client does with an incoming frame, or when none comes in time. -/
def recibir (e : Entrante) (c : Client) : Client × List Trama :=
  match c.fase with
  | .startOfTx =>
    match esperarAck 255 1 e c with
    | (c, tramas, none) => (c, tramas)
    | (c, _, some 0) => c.leer
    | (c, _, some _) => (c, [c.data])
  | .main =>
    match esperarAck c.nroSecuenciaEnviado.toNat c.cantidadAck e c with
    | (c, tramas, none) => (c, tramas)
    | (c, _, some 0) => { c with nroSecuenciaEnviado := siguiente c.nroSecuenciaEnviado }.leer
    | (c, _, some 1) | (c, _, some 3) =>
      -- the last chunk again
      (c, [{ c.data with contenido := c.data.contenido.take (min chunk c.lengthRead) }])
    | (c, _, some _) => c.enviarTramo
  | .endOfTx =>
    match esperarAck 254 1 e c with
    | (c, tramas, none) => (c, tramas)
    | (c, _, some 0) =>
      let pedido : Trama := ⟨0xFD, [], c.lecturas, 0⟩
      ({ c with fase := .compareChecksum, data := pedido }, [pedido])
    | (c, _, some _) => (c, [])
  | .compareChecksum => c.esperarChecksum e
  | .fin => (c, [])

end Client

end OpenMPI.SocketRaw

/-!
## A copy over raw Ethernet

The client, the server and the two directions of the wire between them.  Frames keep their order; any
of them may be lost, or come twice.
-/

namespace OpenMPI.SocketRaw

open Lib

/-- One copy: the file, the frame that starts it, what is in the client's buffer before the first read
and where the server is.  The end of an earlier copy leaves a server that waits for a number other
than that of a start. -/
structure Copy where
  archivo : List UInt8
  encabezado : List UInt8
  bufferRead : Buffer
  servidor : Server
  md5sum : List UInt8 → List UInt8
  sscanf : List UInt8 → ℤ → ℤ
  nroSecuenciaAnterior_ne : servidor.nroSecuenciaAnterior ≠ 0xFF
  sin_salida : servidor.salida = false
  sin_porcion : servidor.porcion = 0
  sin_escrituras : servidor.escrituras = []

structure Red where
  cliente : Client
  servidor : Server
  ida : List Trama := []
  vuelta : List Ack := []

inductive Evento
  | servidorRecibe
  | servidorTimeout
  | clienteRecibe
  | clienteOtro
  | clienteTimeout
  | pierdeTrama (k : ℕ)
  | duplicaTrama (k : ℕ)
  | pierdeAck (k : ℕ)
  | duplicaAck (k : ℕ)
  deriving DecidableEq, Repr

namespace Red

def reacciona (e : Entrante) (p : Red) : Red :=
  let (cliente, tramas) := p.cliente.recibir e
  { p with cliente, ida := p.ida ++ tramas }

/-- An ACK for `compareChecksum` may have anything after the grid. -/
def entrante (p : Red) (a : Ack) : Entrante :=
  if p.cliente.fase = .compareChecksum ∨ a.valido then .ack a else .otro

/-- One step, if there is a frame to receive, and the server has not ended. -/
def paso (K : Copy) (p : Red) : Evento → Option Red
  | .servidorRecibe =>
    match p.ida with
    | [] => none
    | f :: ida =>
      if p.servidor.salida then none
      else
        let (servidor, acks) := p.servidor.recibir K.md5sum K.sscanf f
        some { p with servidor, ida, vuelta := p.vuelta ++ acks }
  | .servidorTimeout =>
    if p.servidor.salida then none else some { p with vuelta := p.vuelta ++ p.servidor.timeout }
  | .clienteRecibe =>
    match p.vuelta with
    | [] => none
    | a :: vuelta => some (reacciona (p.entrante a) { p with vuelta })
  | .clienteOtro => some (p.reacciona .otro)
  | .clienteTimeout => some (p.reacciona .timeout)
  | .pierdeTrama k => some { p with ida := Channel.lose k p.ida }
  | .duplicaTrama k => some { p with ida := Channel.double k p.ida }
  | .pierdeAck k => some { p with vuelta := Channel.lose k p.vuelta }
  | .duplicaAck k => some { p with vuelta := Channel.double k p.vuelta }

def pasos (K : Copy) (p : Red) : List Evento → Option Red
  | [] => some p
  | e :: es => (p.paso K e).bind fun q => q.pasos K es

end Red

namespace Copy

def inicio (K : Copy) : Trama := ⟨0xFF, K.encabezado, 0, 0⟩

/-- The client has sent the start of the transmission. -/
def start (K : Copy) : Red where
  cliente :=
    { fase := .startOfTx, resto := K.archivo, bufferRead := K.bufferRead, data := K.inicio }
  servidor := K.servidor
  ida := [K.inicio]

def system (K : Copy) : System Red Evento where
  init p := p = K.start
  step p e q := p.paso K e = some q

def Complete (s : Server) : Prop := ∀ i < cantChunks, s.origen i = some (s.porcion, i)

/-- The server goes on to the next portion only with a chunk of the one after the portion it has
complete, writes no chunk as a part of another portion, and does not end with an error. -/
structure Agrees (p : Red) : Prop where
  no_error : p.servidor.salida = false
  advance : ∀ f ida, p.ida = f :: ida → f.nroSecuencia < 0xFD →
    cantChunks ≤ distancia f.nroSecuencia p.servidor.nroSecuenciaAnterior →
      Complete p.servidor ∧ p.servidor.ackCompleto = true ∧ f.lectura = p.servidor.porcion + 1
  unmixed : ∀ e ∈ p.servidor.escrituras, ∀ i o, e.2 i = some o → o = (e.1, i)

/-- The copy is the file when the client has the ACK for its end. -/
def Intact (K : Copy) (p : Red) : Prop :=
  p.cliente.fase = .compareChecksum ∨ p.cliente.fase = .fin → p.servidor.archivo = K.archivo

def Meeting (p : Red) (e : Evento) (x : Entrante) : Prop :=
  (e = .clienteRecibe ∧ ∃ a, p.vuelta.head? = some a ∧ x = p.entrante a) ∨
    (e = .clienteTimeout ∧ x = .timeout)

def LastHole (c : Client) (x : Entrante) : Prop :=
  ∃ a, x = .ack a ∧ a.nroSecuencia = c.nroSecuenciaEnviado ∧ a.grilla.getD (c.cantidadAck - 1) 0 = 0

/-- The last frame is sent again: no frame came, or the ACK of the portion before. -/
def Repeats (c : Client) (x : Entrante) : Prop :=
  x = .timeout ∨ ∃ a, x = .ack a ∧ a.nroSecuencia ≠ c.nroSecuenciaEnviado ∧
    (c.nroSecuenciaEnviado.toNat = 0 ∧ a.nroSecuencia = 0xEF ∨
      c.nroSecuenciaEnviado.toNat = a.nroSecuencia.toNat + cantChunks)

/-- The last chunk of the portion has all its bytes, or is neither sent for a hole nor again after
another chunk. -/
def Meets (p : Red) (e : Evento) : Prop :=
  ∀ x, Meeting p e x → p.cliente.fase = .main → p.cliente.lengthRead % chunk ≠ 0 →
    ¬LastHole p.cliente x ∧
    (Repeats p.cliente x → p.cliente.lengthRead < chunk ∨
      p.cliente.data.indice + 1 ≠ p.cliente.cantidadAck)

end Copy

end OpenMPI.SocketRaw
