import OpenMPI.SocketRaw.Client

/-!
# What the client sends and when it reads on

The numbers of the portions come round every 29 of them.  The client sends chunks of the portion it
read last, and reads the next one when it gets the ACK that has the whole portion
(`Client.Ok.recibir`).
-/

namespace OpenMPI.SocketRaw

open List Nat

variable {K : Copy} {c : Client} {f : Trama} {a : Ack} {r i : ℕ}

def primero (r : ℕ) : ℕ := (r - 1) % 29 * 8

theorem primero_lt (r : ℕ) : primero r < 232 := by
  unfold primero
  omega

theorem primero_succ (h : 1 ≤ r) :
    primero (r + 1) = if 232 ≤ primero r + 8 then 0 else primero r + 8 := by
  unfold primero
  split_ifs <;> omega

theorem primero_succ_ne (h : 1 ≤ r) : primero (r + 1) ≠ primero r := by
  rw [primero_succ h]
  split_ifs <;> omega

theorem siguiente_toNat {nro : UInt8} (hr : 1 ≤ r) (h : nro.toNat = primero r) :
    (Client.siguiente nro).toNat = primero (r + 1) := by
  have hlt := primero_lt r
  have hadd : (nro + 8).toNat = primero r + 8 := by
    rw [UInt8.toNat_add, h, show (8 : UInt8).toNat = 8 from rfl]
    omega
  have hc : cantChunks = 8 := rfl
  rw [primero_succ hr, Client.siguiente, hadd]
  rcases Nat.lt_or_ge (primero r + 8) 232 with hlast | hlast
  · rw [if_neg (by omega), if_neg (by omega), hadd]
  · rw [if_pos (by omega), if_pos hlast]
    rfl

theorem avanzar_toNat {nro : UInt8} (hr : 1 ≤ r) (h : nro.toNat = primero r) :
    (if 0xF0 - 8 ≤ nro + 8 then nro + 8 - (0xF0 - 8) else nro + 8).toNat = primero (r + 1) := by
  have hlt := primero_lt r
  have hadd : (nro + 8).toNat = primero r + 8 := by
    rw [UInt8.toNat_add, h, show (8 : UInt8).toNat = 8 from rfl]
    omega
  have hlimit : (0xF0 - 8 : UInt8).toNat = 232 := rfl
  rw [primero_succ hr]
  split_ifs with h1 h2 h2
  · rw [UInt8.toNat_sub_of_le _ _ h1, hadd, hlimit]
    have : primero r % 8 = 0 := by
      unfold primero
      omega
    omega
  · rw [UInt8.le_iff_toNat_le, hadd, hlimit] at h1
    omega
  · rw [UInt8.le_iff_toNat_le, hadd, hlimit] at h1
    omega
  · exact hadd

theorem distancia_same {nro anterior : UInt8} (h : nro.toNat = primero r + i)
    (ha : anterior.toNat = primero r) : distancia nro anterior = i := by
  unfold distancia
  dsimp only
  rw [h, ha]
  split_ifs <;> omega

theorem distancia_next {nro anterior : UInt8} (hr : 1 ≤ r) (h : nro.toNat = primero (r + 1) + i)
    (hi : i < cantChunks) (ha : anterior.toNat = primero r) :
    (cantChunks : ℤ) ≤ distancia nro anterior := by
  have hle : primero r ≤ 224 := by
    unfold primero
    omega
  have hc : cantChunks = 8 := rfl
  rw [primero_succ hr] at h
  unfold distancia
  dsimp only
  rw [h, ha]
  rcases Nat.lt_or_ge (primero r + 8) 232 with hlast | hlast
  · rw [if_neg (Nat.not_le.mpr hlast), if_neg (by omega)]
    omega
  · rw [if_pos hlast, if_pos (by omega)]
    omega

namespace Copy

def HasChunk (K : Copy) (r i : ℕ) : Prop :=
  1 ≤ r ∧ i < cantChunks ∧ (r - 1) * (chunk * cantChunks) + i * chunk < K.archivo.length

theorem HasChunk.first (h : K.HasChunk r i) {q : ℕ} (hq : 1 ≤ q) (hle : q ≤ r) : K.HasChunk q 0 := by
  obtain ⟨-, -, hlt⟩ := h
  refine ⟨hq, by decide, Nat.lt_of_le_of_lt ?_ hlt⟩
  have := Nat.mul_le_mul_right (chunk * cantChunks) (Nat.sub_le_sub_right hle 1)
  omega

theorem HasChunk.before (h : K.HasChunk (r + 1) i) (hr : 1 ≤ r) {j : ℕ} (hj : j < cantChunks) :
    K.HasChunk r j := by
  obtain ⟨-, -, hlt⟩ := h
  refine ⟨hr, hj, Nat.lt_of_le_of_lt ?_ hlt⟩
  have hc : cantChunks = 8 := rfl
  have hchunk : chunk = 1498 := rfl
  rw [hc] at hj ⊢
  rw [hchunk]
  omega

/-- What the client sends: the start of the transmission, a chunk of the file, or something after its
end. -/
inductive Sent (K : Copy) (f : Trama) : Prop
  | inicio (h : f = K.inicio)
  | chunk (h : K.HasChunk f.lectura f.indice)
      (hnro : f.nroSecuencia.toNat = primero f.lectura + f.indice)
  | fin (hpos : 1 ≤ f.lectura) (hend : ¬K.HasChunk f.lectura 0)
      (hnro : f.nroSecuencia = 0xFE ∨ f.nroSecuencia = 0xFD)

theorem Sent.ne_pedido (h : K.Sent f) (hhas : K.HasChunk f.lectura 0) : f.nroSecuencia ≠ 0xFD := by
  intro hnro
  rcases h with rfl | ⟨hf, hchunk⟩ | ⟨-, hend, -⟩
  · exact absurd hhas.1 (not_succ_le_zero 0)
  · have hlt := primero_lt f.lectura
    have hi := hf.2.1
    have hc : cantChunks = 8 := rfl
    rw [hnro] at hchunk
    have : (0xFD : UInt8).toNat = 253 := rfl
    omega
  · exact hend hhas

end Copy

namespace Client

/-- The client has read a portion of the file. -/
structure Filled (K : Copy) (c : Client) : Prop where
  has : K.HasChunk c.lecturas 0
  resto : c.resto = K.archivo.drop (c.lecturas * (chunk * cantChunks))
  lengthRead : c.lengthRead
    = min (chunk * cantChunks) (K.archivo.length - (c.lecturas - 1) * (chunk * cantChunks))
  bufferRead : ∀ k < c.lengthRead,
    K.archivo[(c.lecturas - 1) * (chunk * cantChunks) + k]? = some (c.bufferRead k)
  nro : c.nroSecuenciaEnviado.toNat = primero c.lecturas

structure Reads (K : Copy) (c : Client) : Prop extends Filled K c where
  cantidadAck : ∀ i, i < c.cantidadAck ↔ K.HasChunk c.lecturas i
  data : ∃ i, K.HasChunk c.lecturas i ∧ c.data = c.trama i chunk

/-- The client at each of the places where it waits. -/
inductive Ok (K : Copy) (c : Client) : Prop
  | startOfTx (h : c.fase = .startOfTx) (hlecturas : c.lecturas = 0) (hresto : c.resto = K.archivo)
      (hdata : c.data = K.inicio) (hnro : c.nroSecuenciaEnviado = 0)
  | main (h : c.fase = .main) (hreads : c.Reads K)
  | fin (h : c.fase = .endOfTx ∨ c.fase = .compareChecksum ∨ c.fase = .fin) (hpos : 1 ≤ c.lecturas)
      (hend : ¬K.HasChunk c.lecturas 0) (hsent : K.Sent c.data) (hdata : c.data.lectura = c.lecturas)

def Awaited (K : Copy) (c : Client) (a : Ack) : Prop :=
  (c.lecturas = 0 ∧ a.nroSecuencia = 0xFF) ∨
    (K.HasChunk c.lecturas 0 ∧ a.nroSecuencia.toNat = primero c.lecturas ∧
      ∀ i, K.HasChunk c.lecturas i → a.grilla.getD i 0 = 0xFF)

structure Reacts (K : Copy) (e : Entrante) (c c' : Client) (tramas : List Trama) : Prop where
  ok : c'.Ok K
  sent : ∀ f ∈ tramas, K.Sent f ∧ f.lectura = c'.lecturas
  lecturas : c'.lecturas = c.lecturas ∨
    c'.lecturas = c.lecturas + 1 ∧ (∃ a, e = .ack a ∧ Awaited K c a) ∧
      ∀ f ∈ tramas, f.nroSecuencia ≠ 0xFD
  fin : c'.fase = .compareChecksum ∨ c'.fase = .fin → c.fase = .compareChecksum ∨ c.fase = .fin ∨
    1 ≤ c.lecturas ∧ ∃ a, e = .ack a ∧ a.nroSecuencia = 0xFE

theorem esperarAck_cases (nro k : ℕ) (e : Entrante) (c : Client) :
    (∃ n, c.esperarAck nro k e = ({ c with cantidadPaquetesEntrantes := n }, [], none)) ∨
    (∃ a n, e = .ack a ∧ a.nroSecuencia.toNat = nro ∧ nro < 0xF0 ∧
      c.esperarAck nro k e = ({ c with
        cantidadPaquetesEntrantes := n
        data := (c.huecos a k).getLastD c.data }, c.huecos a k, none)) ∨
    (∃ retval, (retval = 0 ∨ retval = 2 → e = .timeout ∨ ∃ a, e = .ack a ∧ a.nroSecuencia.toNat ≠ nro ∧
        (nro = 0 ∧ a.nroSecuencia = 0xEF ∨ nro = a.nroSecuencia.toNat + cantChunks)) ∧
      c.esperarAck nro k e = ({ c with cantidadPaquetesEntrantes := 0 }, [], some (retval + 1))) ∨
    ∃ a, e = .ack a ∧ a.nroSecuencia.toNat = nro ∧
      (nro < 0xF0 → a.grilla.take k = replicate k 0xFF) ∧
      c.esperarAck nro k e = ({ c with cantidadPaquetesEntrantes := 0 }, [], some 0) := by
  cases e with
  | timeout => exact .inr (.inr (.inl ⟨2, fun _ => .inl rfl, rfl⟩))
  | otro =>
    simp only [esperarAck]
    split_ifs
    · exact .inr (.inr (.inl ⟨1, by omega, rfl⟩))
    · exact .inl ⟨_, rfl⟩
  | ack a =>
    simp only [esperarAck]
    split_ifs with hnro hgrilla h1 h2
    · exact .inr (.inl ⟨a, _, rfl, hnro, hgrilla.1, rfl⟩)
    · refine .inr (.inr (.inr ⟨a, rfl, hnro, fun hlt => ?_, rfl⟩))
      by_contra hne
      exact hgrilla ⟨hlt, hne⟩
    · exact .inr (.inr (.inl ⟨0, fun _ => .inr ⟨a, rfl, hnro, .inl h1⟩, rfl⟩))
    · exact .inr (.inr (.inl ⟨0, fun _ => .inr ⟨a, rfl, hnro, .inr h2⟩, rfl⟩))
    · exact .inr (.inr (.inl ⟨3, by omega, rfl⟩))

theorem mem_tramas (n i cantidadEnviada : ℕ) : f ∈ c.tramas n i cantidadEnviada ↔
    ∃ j < n, j * chunk < cantidadEnviada ∧
      f = c.trama (i + j) (min chunk (cantidadEnviada - j * chunk)) := by
  induction n generalizing i cantidadEnviada with
  | zero => simp [tramas]
  | succ n ih =>
    rw [tramas]
    split_ifs with hpos
    · rw [mem_cons, ih]
      constructor
      · rintro (rfl | ⟨j, hj, hlt, rfl⟩)
        · exact ⟨0, by omega, by omega, by simp⟩
        · refine ⟨j + 1, by omega, by rw [succ_mul]; omega, ?_⟩
          rw [succ_mul, sub_add_eq, Nat.sub_right_comm, Nat.add_right_comm, Nat.add_assoc]
      · rintro ⟨j, hj, hlt, rfl⟩
        rcases j with _ | j
        · simp
        · rw [succ_mul] at hlt
          refine .inr ⟨j, by omega, by omega, ?_⟩
          rw [succ_mul, sub_add_eq, Nat.sub_right_comm, Nat.add_right_comm, Nat.add_assoc]
    · simp only [not_mem_nil, false_iff]
      rintro ⟨j, -, hlt, -⟩
      omega

theorem lt_length_tramas (n i cantidadEnviada j : ℕ) :
    j < (c.tramas n i cantidadEnviada).length ↔ j < n ∧ j * chunk < cantidadEnviada := by
  induction n generalizing i cantidadEnviada j with
  | zero => simp [tramas]
  | succ n ih =>
    rw [tramas]
    split_ifs with hpos
    · rw [length_cons]
      rcases j with _ | j
      · simpa using hpos
      · rw [succ_lt_succ_iff, ih, succ_mul]
        omega
    · simp only [length_nil, Nat.not_lt_zero, false_iff]
      omega

theorem Filled.lt_iff (h : c.Filled K) : i < cantChunks ∧ i * chunk < c.lengthRead ↔
    K.HasChunk c.lecturas i := by
  have hc : cantChunks = 8 := rfl
  have hchunk : chunk = 1498 := rfl
  have hpos := h.has.1
  rw [h.lengthRead, Copy.HasChunk, hc, hchunk]
  omega

theorem sent_trama (hnro : c.nroSecuenciaEnviado.toNat = primero c.lecturas)
    (h : K.HasChunk c.lecturas i) (length : ℕ) (contenido : List UInt8) :
    K.Sent { c.trama i length with contenido } := by
  refine .chunk h ?_
  have hlt := primero_lt c.lecturas
  have hi := h.2.1
  have hc : cantChunks = 8 := rfl
  show (c.nroSecuenciaEnviado + UInt8.ofNat i).toNat = primero c.lecturas + i
  rw [UInt8.toNat_add, hnro, UInt8.toNat_ofNat']
  omega

theorem Filled.enviarTramo (h : c.Filled K) : c.enviarTramo.1.Reads K ∧
    ∀ f ∈ c.enviarTramo.2, K.Sent f ∧ f.lectura = c.lecturas := by
  have hlt (j : ℕ) : j < (c.tramas cantChunks 0 c.lengthRead).length ↔ K.HasChunk c.lecturas j := by
    rw [lt_length_tramas, h.lt_iff]
  constructor
  · refine ⟨⟨h.has, h.resto, h.lengthRead, h.bufferRead, h.nro⟩, hlt, _, (hlt _).mp ?_, rfl⟩
    have := (hlt 0).mpr h.has
    omega
  · intro f hf
    obtain ⟨j, hj, hsent, rfl⟩ := (mem_tramas _ _ _).mp hf
    rw [Nat.zero_add]
    exact ⟨sent_trama h.nro (h.lt_iff.mp ⟨hj, hsent⟩) 0 _, rfl⟩

theorem memcpy_apply {b : Buffer} {offset k : ℕ} {bytes : List UInt8} (h : k < bytes.length) :
    some (b.memcpy offset bytes (offset + k)) = bytes[k]? := by
  rw [Buffer.memcpy, if_pos (by omega), Nat.add_sub_cancel_left, getElem?_eq_getElem h,
    getD_eq_getElem?_getD, getElem?_eq_getElem h, Option.getD_some]

section

variable (hresto : c.resto = K.archivo.drop (c.lecturas * (chunk * cantChunks))) (hnro : c.nroSecuenciaEnviado.toNat = primero (c.lecturas + 1))

include hresto hnro

theorem leer_cases :
    (¬K.HasChunk (c.lecturas + 1) 0 ∧ c.leer.1.lecturas = c.lecturas + 1 ∧ c.leer.1.fase = .endOfTx ∧
      c.leer.1.data = ⟨0xFE, [], c.lecturas + 1, 0⟩ ∧ c.leer.2 = [⟨0xFE, [], c.lecturas + 1, 0⟩]) ∨
    ∃ d : Client, d.Filled K ∧ d.lecturas = c.lecturas + 1 ∧ d.fase = .main ∧ c.leer = d.enviarTramo := by
  have hleidos : (c.resto.take (chunk * cantChunks)).length
      = min (chunk * cantChunks) (K.archivo.length - c.lecturas * (chunk * cantChunks)) := by
    rw [hresto, length_take, length_drop]
  have hhas : (c.resto.take (chunk * cantChunks)).length = 0 ↔ ¬K.HasChunk (c.lecturas + 1) 0 := by
    rw [hleidos, Copy.HasChunk]
    simp only [chunk, cantChunks]
    omega
  unfold leer
  dsimp only
  split_ifs with hzero
  · exact .inl ⟨hhas.mp hzero, rfl, rfl, rfl, rfl⟩
  · have hfirst : K.HasChunk (c.lecturas + 1) 0 := by
      by_contra hno
      exact hzero (hhas.mpr hno)
    refine .inr ⟨_, ⟨hfirst, ?_, hleidos, fun k hk => ?_, hnro⟩, rfl, rfl, rfl⟩
    · show c.resto.drop (chunk * cantChunks) = _
      rw [hresto, drop_drop, succ_mul]
    · show _ = some (c.bufferRead.memcpy 0 (c.resto.take (chunk * cantChunks)) k)
      have hcopied := @memcpy_apply c.bufferRead 0 k _ hk
      have hlt : k < chunk * cantChunks := Nat.lt_of_lt_of_le hk (length_take_le _ _)
      rw [Nat.zero_add] at hcopied
      rw [hcopied, getElem?_take, if_pos hlt, hresto, getElem?_drop]
      rfl

theorem leer_ne_pedido :
    ∀ f ∈ c.leer.2, f.nroSecuencia ≠ 0xFD := by
  intro f hf
  rcases leer_cases hresto hnro with ⟨-, -, -, -, hsends⟩ | ⟨d, hfilled, -, -, hleer⟩
  · rw [hsends] at hf
    obtain rfl := mem_singleton.mp hf
    exact (by decide : (0xFE : UInt8) ≠ 0xFD)
  · rw [hleer] at hf
    exact (hfilled.enviarTramo.2 f hf).1.ne_pedido (by
      rw [(hfilled.enviarTramo.2 f hf).2]
      exact hfilled.has)

theorem leer_spec :
    c.leer.1.Ok K ∧ c.leer.1.lecturas = c.lecturas + 1 ∧
      (c.leer.1.fase = .main ∨ c.leer.1.fase = .endOfTx) ∧
      ∀ f ∈ c.leer.2, K.Sent f ∧ f.lectura = c.lecturas + 1 := by
  rcases leer_cases hresto hnro with ⟨hend, hlect, hfase, hdata, hsends⟩ |
    ⟨d, hfilled, hlect, hfase, hleer⟩
  · have hsent : K.Sent ⟨0xFE, [], c.lecturas + 1, 0⟩ := .fin (succ_pos _) hend (.inl rfl)
    refine ⟨.fin (.inl hfase) ?_ (hlect ▸ hend) (hdata ▸ hsent) ?_, hlect, .inr hfase, fun f hf => ?_⟩
    · rw [hlect]
      exact succ_pos _
    · rw [hdata, hlect]
    · rw [hsends] at hf
      obtain rfl := mem_singleton.mp hf
      exact ⟨hsent, rfl⟩
  · obtain ⟨hreads, hsent⟩ := hfilled.enviarTramo
    rw [hlect] at hsent
    rw [hleer]
    exact ⟨.main hfase hreads, hlect, .inl hfase, hsent⟩

end

theorem mem_huecos {k : ℕ} : f ∈ c.huecos a k ↔
    ∃ i < k, a.grilla.getD i 0 = 0 ∧ f = c.trama i chunk := by
  simp only [huecos, mem_map, mem_filter, mem_range, decide_eq_true_eq]
  constructor
  · rintro ⟨i, ⟨hi, hzero⟩, rfl⟩
    exact ⟨i, hi, hzero, rfl⟩
  · rintro ⟨i, hi, hzero, rfl⟩
    exact ⟨i, ⟨hi, hzero⟩, rfl⟩

theorem Reads.huecos (h : c.Reads K) (a : Ack) (n : ℕ) :
    ({ c with
      cantidadPaquetesEntrantes := n
      data := (c.huecos a c.cantidadAck).getLastD c.data }).Reads K ∧
      ∀ f ∈ c.huecos a c.cantidadAck, K.Sent f ∧ f.lectura = c.lecturas := by
  constructor
  · refine ⟨⟨h.has, h.resto, h.lengthRead, h.bufferRead, h.nro⟩, h.cantidadAck, ?_⟩
    rcases List.eq_nil_or_concat (c.huecos a c.cantidadAck) with hnil | ⟨l, f, hlast⟩
    · rw [hnil]
      exact h.data
    · obtain ⟨i, hi, -, hf⟩ := mem_huecos.mp (show f ∈ c.huecos a c.cantidadAck by simp [hlast])
      refine ⟨i, (h.cantidadAck i).mp hi, ?_⟩
      show (c.huecos a c.cantidadAck).getLastD c.data = _
      rw [hlast, concat_eq_append, getLastD_concat, hf]
      rfl
  · intro f hf
    obtain ⟨i, hi, -, rfl⟩ := mem_huecos.mp hf
    exact ⟨sent_trama h.nro ((h.cantidadAck i).mp hi) 0 _, rfl⟩

theorem grilla_of_take {l : List UInt8} {k : ℕ} (h : l.take k = replicate k 0xFF) (hi : i < k) :
    l.getD i 0 = 0xFF := by
  have hget : (l.take k)[i]? = some 0xFF := by
    rw [h, getElem?_replicate, if_pos hi]
  rw [getElem?_take, if_pos hi] at hget
  rw [getD_eq_getElem?_getD, hget, Option.getD_some]

theorem Reacts.stay {e : Entrante} {c' : Client} {tramas : List Trama} (hok : c'.Ok K)
    (hlecturas : c'.lecturas = c.lecturas) (hfase : c'.fase = c.fase)
    (hsent : ∀ f ∈ tramas, K.Sent f ∧ f.lectura = c.lecturas) : Reacts K e c c' tramas where
  ok := hok
  sent := by
    rw [hlecturas]
    exact hsent
  lecturas := .inl hlecturas
  fin h := by
    rw [hfase] at h
    exact h.imp_right .inl

theorem Reacts.quiet {e : Entrante} {c' : Client} (hok : c'.Ok K)
    (hlecturas : c'.lecturas = c.lecturas) (hfase : c'.fase = c.fase) : Reacts K e c c' [] :=
  .stay hok hlecturas hfase fun _ hf => nomatch hf

theorem Reacts.leer {d : Client} (hlecturas : d.lecturas = c.lecturas)
    (hresto : d.resto = K.archivo.drop (d.lecturas * (chunk * cantChunks)))
    (hnro : d.nroSecuenciaEnviado.toNat = primero (d.lecturas + 1)) (ha : Awaited K c a) :
    Reacts K (.ack a) c d.leer.1 d.leer.2 := by
  obtain ⟨hok, hlect, hfase, hsent⟩ := leer_spec hresto hnro
  refine ⟨hok, ?_, .inr ⟨?_, ⟨a, rfl, ha⟩, leer_ne_pedido hresto hnro⟩, fun h => ?_⟩
  · rw [hlect]
    exact hsent
  · rw [hlect, hlecturas]
  · rcases hfase with hfase | hfase <;> simp [hfase] at h

/-- What the client sends belongs to its last read, and it reads on when the ACK for that is there. -/
theorem Ok.recibir (h : c.Ok K) (e : Entrante) :
    Reacts K e c (c.recibir e).1 (c.recibir e).2 := by
  unfold Client.recibir
  rcases h with ⟨hfase, hlecturas, hresto, hdata, hnro⟩ | ⟨hfase, hreads⟩ |
    ⟨hfase, hpos, hend, hsent, hdata⟩
  · have hok (n : ℕ) : ({ c with cantidadPaquetesEntrantes := n }).Ok K :=
      .startOfTx hfase hlecturas hresto hdata hnro
    rw [hfase]
    dsimp only
    rcases esperarAck_cases 255 1 e c with ⟨n, h⟩ | ⟨a, n, -, -, hlt, -⟩ | ⟨retval, -, h⟩ |
      ⟨a, rfl, hack, -, h⟩
    · rw [h]
      exact .quiet (hok n) rfl rfl
    · omega
    · rw [h]
      refine .stay (hok 0) rfl rfl fun f hf => ?_
      obtain rfl := mem_singleton.mp hf
      exact ⟨.inicio hdata, by rw [hdata, hlecturas]; rfl⟩
    · rw [h]
      refine Reacts.leer rfl ?_ ?_ (.inl ⟨hlecturas, UInt8.toNat_inj.mp hack⟩)
      · simp [hresto, hlecturas]
      · simp only [hlecturas, hnro]
        rfl
  · have hok (n : ℕ) : ({ c with cantidadPaquetesEntrantes := n }).Ok K :=
      .main hfase ⟨⟨hreads.has, hreads.resto, hreads.lengthRead, hreads.bufferRead, hreads.nro⟩,
        hreads.cantidadAck, hreads.data⟩
    rw [hfase]
    dsimp only
    rcases esperarAck_cases c.nroSecuenciaEnviado.toNat c.cantidadAck e c with ⟨n, h⟩ |
      ⟨a, n, rfl, hack, hlt, h⟩ | ⟨retval, -, h⟩ | ⟨a, rfl, hack, hfull, h⟩
    · rw [h]
      exact .quiet (hok n) rfl rfl
    · rw [h]
      obtain ⟨hreads', hsent⟩ := hreads.huecos a n
      exact .stay (.main hfase hreads') rfl rfl hsent
    · rw [h]
      obtain ⟨i, hi, hdata⟩ := hreads.data
      have hlast : ∀ f ∈ [{ c.data with
          contenido := c.data.contenido.take (min chunk c.lengthRead) }],
          K.Sent f ∧ f.lectura = c.lecturas := by
        intro f hf
        obtain rfl := mem_singleton.mp hf
        rw [hdata]
        exact ⟨sent_trama hreads.nro hi 0 _, rfl⟩
      have hfilled : ({ c with cantidadPaquetesEntrantes := 0 }).Filled K :=
        ⟨hreads.has, hreads.resto, hreads.lengthRead, hreads.bufferRead, hreads.nro⟩
      obtain ⟨hreads', hsent⟩ := hfilled.enviarTramo
      have htramo : Reacts K e c ({ c with cantidadPaquetesEntrantes := 0 }).enviarTramo.1
          ({ c with cantidadPaquetesEntrantes := 0 }).enviarTramo.2 :=
        .stay (.main hfase hreads') rfl rfl hsent
      rcases retval with _ | _ | _ | retval
      · exact .stay (hok 0) rfl rfl hlast
      · exact htramo
      · exact .stay (hok 0) rfl rfl hlast
      · exact htramo
    · rw [h]
      refine Reacts.leer rfl hreads.resto (siguiente_toNat hreads.has.1 hreads.nro)
        (.inr ⟨hreads.has, hack.trans hreads.nro, fun i hi => ?_⟩)
      have hlt := primero_lt c.lecturas
      rw [hreads.nro] at hfull
      exact grilla_of_take (hfull (by omega)) ((hreads.cantidadAck i).mpr hi)
  · have hok (n : ℕ) : ({ c with cantidadPaquetesEntrantes := n }).Ok K :=
      .fin hfase hpos hend hsent hdata
    have hagain : ∀ f ∈ [c.data], K.Sent f ∧ f.lectura = c.lecturas := by
      intro f hf
      obtain rfl := mem_singleton.mp hf
      exact ⟨hsent, hdata⟩
    rcases hfase with hfase | hfase | hfase <;> rw [hfase] <;> dsimp only
    · rcases esperarAck_cases 254 1 e c with ⟨n, h⟩ | ⟨a, n, -, -, hlt, -⟩ | ⟨retval, -, h⟩ |
        ⟨a, rfl, hack, -, h⟩
      · rw [h]
        exact .quiet (hok n) rfl rfl
      · omega
      · rw [h]
        exact .quiet (hok 0) rfl rfl
      · rw [h]
        have hpedido : K.Sent ⟨0xFD, [], c.lecturas, 0⟩ := .fin hpos hend (.inr rfl)
        refine ⟨.fin (.inr (.inl rfl)) hpos hend hpedido rfl, fun f hf => ?_, .inl rfl, fun _ => ?_⟩
        · obtain rfl := mem_singleton.mp hf
          exact ⟨hpedido, rfl⟩
        · exact .inr (.inr ⟨hpos, a, rfl, UInt8.toNat_inj.mp hack⟩)
    · unfold esperarChecksum
      cases e with
      | timeout => exact .quiet (hok 0) rfl rfl
      | otro =>
        dsimp only
        split_ifs
        · exact .stay (hok 0) rfl rfl hagain
        · exact .quiet (hok _) rfl rfl
      | ack a =>
        dsimp only
        split_ifs
        · exact ⟨.fin (.inr (.inr rfl)) hpos hend hsent hdata, fun _ hf => (nomatch hf), .inl rfl,
            fun _ => .inl hfase⟩
        · exact .quiet (hok 0) rfl rfl
    · exact .quiet (hok c.cantidadPaquetesEntrantes) rfl rfl

end Client

end OpenMPI.SocketRaw
