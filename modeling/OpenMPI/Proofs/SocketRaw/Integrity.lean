import Mathlib.Algebra.BigOperators.Group.Finset.Piecewise
import OpenMPI.Proofs.SocketRaw.Window

/-!
# The copy is the file

As long as every chunk comes with the bytes it has in the file, the server writes one portion after
the other.  The client sends a short last chunk with all the bytes of a chunk when it fills a hole or
repeats its last frame, and then the copy is too long; without that it is the file (`Copy.intact`).
-/

namespace OpenMPI.SocketRaw

open Lib Channel Function Nat

variable {K : Copy} {c : Client} {s s' : Server} {f : Trama} {a : Ack} {p q : Red} {r i lo L : ℕ}

namespace Copy

def inicioDe (r i : ℕ) : ℕ := (r - 1) * (chunk * cantChunks) + i * chunk

def contenido (K : Copy) (r i : ℕ) : List UInt8 := (K.archivo.drop (inicioDe r i)).take chunk

theorem length_contenido (K : Copy) (r i : ℕ) :
    (K.contenido r i).length = min chunk (K.archivo.length - inicioDe r i) := by
  rw [contenido, List.length_take, List.length_drop]

def Right (K : Copy) (f : Trama) : Prop :=
  K.HasChunk f.lectura f.indice → f.contenido = K.contenido f.lectura f.indice

end Copy

namespace Client

theorem Filled.contenido (h : c.Filled K) (hi : K.HasChunk c.lecturas i) {n : ℕ}
    (hn : n = min chunk (c.lengthRead - i * chunk)) :
    c.bufferRead.bytes (i * chunk) n = K.contenido c.lecturas i := by
  obtain ⟨hlt, hread⟩ := h.lt_iff.mpr hi
  have hlen := h.lengthRead
  have hlength : n = (K.contenido c.lecturas i).length := by
    rw [Copy.length_contenido, Copy.inicioDe]
    simp only [chunk, cantChunks] at hn hlt hlen hread ⊢
    omega
  refine List.ext_getElem ?_ fun k hk hk' => ?_
  · rw [Buffer.bytes, List.length_map, List.length_range, hlength]
  · rw [← hlength] at hk'
    have hfile := h.bufferRead (i * chunk + k) (by omega)
    have hget : (K.contenido c.lecturas i)[k]? = some (c.bufferRead (i * chunk + k)) := by
      rw [Copy.contenido, List.getElem?_take, if_pos (by omega), List.getElem?_drop, Copy.inicioDe,
        add_assoc]
      exact hfile
    rw [List.getElem?_eq_getElem (hlength ▸ hk')] at hget
    rw [Option.some.inj hget]
    simp [Buffer.bytes]

theorem Filled.right (h : c.Filled K) {n : ℕ} (hn : n = min chunk (c.lengthRead - i * chunk)) :
    K.Right (c.trama i n) := fun hi => h.contenido hi hn

theorem Reads.whole (h : c.Reads K) (hi : K.HasChunk c.lecturas i)
    (hlast : c.lengthRead % chunk ≠ 0 → i + 1 ≠ c.cantidadAck) :
    chunk ≤ c.lengthRead - i * chunk := by
  obtain ⟨hlt, hread⟩ := h.lt_iff.mpr hi
  have hcant := (h.cantidadAck i).mpr hi
  by_contra hshort
  have hnext : ¬i + 1 < c.cantidadAck := by
    rw [h.cantidadAck, ← h.lt_iff]
    simp only [chunk] at hshort ⊢
    omega
  refine hlast ?_ (by omega)
  simp only [chunk] at hshort hread ⊢
  omega

theorem Filled.right_enviarTramo (h : c.Filled K) : ∀ f ∈ c.enviarTramo.2, K.Right f := by
  intro f hf
  obtain ⟨j, -, -, rfl⟩ := (mem_tramas _ _ _).mp hf
  rw [zero_add]
  exact h.right rfl

theorem right_of_end {g : Trama} (h : ¬K.HasChunk g.lectura 0) : K.Right g := fun hg =>
  absurd (hg.first hg.1 (le_rfl)) h

theorem right_leer (hresto : c.resto = K.archivo.drop (c.lecturas * (chunk * cantChunks)))
    (hnro : c.nroSecuenciaEnviado.toNat = primero (c.lecturas + 1)) :
    ∀ f ∈ c.leer.2, K.Right f := by
  rcases leer_cases hresto hnro with ⟨hend, -, -, -, hsends⟩ | ⟨d, hfilled, -, -, hleer⟩
  · intro f hf
    rw [hsends] at hf
    obtain rfl := List.mem_singleton.mp hf
    exact right_of_end hend
  · rw [hleer]
    exact hfilled.right_enviarTramo

theorem Reads.right_again (h : c.Reads K)
    (hlast : c.lengthRead % chunk ≠ 0 → c.lengthRead < chunk ∨ c.data.indice + 1 ≠ c.cantidadAck) :
    K.Right { c.data with contenido := c.data.contenido.take (min chunk c.lengthRead) } := by
  obtain ⟨i, hi, hdata⟩ := h.data
  rw [hdata] at hlast ⊢
  have htake : (c.trama i chunk).contenido.take (min chunk c.lengthRead)
      = c.bufferRead.bytes (i * chunk) (min chunk c.lengthRead) := by
    simp only [Client.trama, Buffer.bytes]
    rw [← List.map_take, List.take_range, Nat.min_right_comm, Nat.min_self]
  intro _
  show (c.trama i chunk).contenido.take (min chunk c.lengthRead) = _
  rw [htake]
  refine h.toFilled.contenido hi ?_
  rcases lt_or_ge c.lengthRead chunk with hlt | hge
  · obtain ⟨-, hread⟩ := h.lt_iff.mpr hi
    have hzero : i = 0 := by
      simp only [chunk] at hlt hread
      omega
    rw [hzero, Nat.zero_mul, Nat.sub_zero]
  · have := h.whole hi fun hshort => (hlast hshort).resolve_left (Nat.not_lt.mpr hge)
    omega

theorem Ok.right (h : c.Ok K) {e : Entrante}
    (hmeets : c.fase = .main → c.lengthRead % chunk ≠ 0 → ¬Copy.LastHole c e ∧
      (Copy.Repeats c e → c.lengthRead < chunk ∨ c.data.indice + 1 ≠ c.cantidadAck)) :
    ∀ f ∈ (c.recibir e).2, K.Right f := by
  have hreacts := h.recibir e
  unfold Client.recibir at hreacts ⊢
  rcases h with ⟨hfase, hlecturas, hresto, hdata, hnro⟩ | ⟨hfase, hreads⟩ |
    ⟨hfase, hpos, hend, hsent, hdata⟩
  · rw [hfase]
    dsimp only
    rcases esperarAck_cases 255 1 e c with ⟨n, h⟩ | ⟨a, n, -, -, hlt, -⟩ | ⟨retval, -, h⟩ |
      ⟨a, rfl, hack, -, h⟩ <;> try rw [h]
    · exact fun f hf => nomatch hf
    · omega
    · intro f hf
      obtain rfl := List.mem_singleton.mp hf
      intro hhas
      rw [hdata] at hhas
      exact absurd hhas.1 (not_succ_le_zero 0)
    · refine right_leer ?_ ?_
      · simp [hresto, hlecturas]
      · simp only [hlecturas, hnro]
        rfl
  · obtain hmeets := hmeets hfase
    rw [hfase]
    dsimp only
    rcases esperarAck_cases c.nroSecuenciaEnviado.toNat c.cantidadAck e c with ⟨n, h⟩ |
      ⟨a, n, rfl, hack, hlt, h⟩ | ⟨retval, hagain, h⟩ | ⟨a, rfl, hack, hfull, h⟩ <;> rw [h]
    · exact fun f hf => nomatch hf
    · intro f hf
      obtain ⟨i, hi, hzero, rfl⟩ := mem_huecos.mp hf
      refine hreads.toFilled.right ?_
      have := hreads.whole ((hreads.cantidadAck i).mp hi) fun hshort heq => ?_
      · omega
      · obtain ⟨hno, -⟩ := hmeets hshort
        refine hno ⟨a, rfl, UInt8.toNat_inj.mp hack, ?_⟩
        rwa [← heq, Nat.add_sub_cancel]
    · have hfilled : ({ c with cantidadPaquetesEntrantes := 0 }).Filled K :=
        ⟨hreads.has, hreads.resto, hreads.lengthRead, hreads.bufferRead, hreads.nro⟩
      have hlast (hr : retval = 0 ∨ retval = 2) : ∀ f ∈ [{ c.data with
          contenido := c.data.contenido.take (min chunk c.lengthRead) }], K.Right f := by
        refine List.forall_mem_singleton.mpr (hreads.right_again fun hshort => (hmeets hshort).2 ?_)
        refine (hagain hr).imp_right ?_
        rintro ⟨a, ha, hne, hbefore⟩
        exact ⟨a, ha, fun heq => hne (heq ▸ rfl), hbefore⟩
      rcases retval with _ | _ | _ | retval
      · exact hlast (.inl rfl)
      · exact hfilled.right_enviarTramo
      · exact hlast (.inr rfl)
      · exact hfilled.right_enviarTramo
    · exact right_leer hreads.resto (siguiente_toNat hreads.has.1 hreads.nro)
  · intro f hf
    have hlect := (hreacts.sent f hf).2
    rcases hreacts.lecturas with hsame | ⟨-, ⟨a, -, hawaited⟩, -⟩
    · refine right_of_end ?_
      rw [hlect, hsame]
      exact hend
    · rcases hawaited with ⟨hzero, -⟩ | ⟨hhas, -⟩
      · omega
      · exact absurd hhas hend

theorem Ok.pedido (h : c.Ok K) {e : Entrante} (hf : f ∈ (c.recibir e).2)
    (hnro : f.nroSecuencia = 0xFD) : (c.recibir e).1.fase = .compareChecksum := by
  have hreacts := h.recibir e
  obtain ⟨hsent, hlect⟩ := hreacts.sent f hf
  have hsame : (c.recibir e).1.lecturas = c.lecturas :=
    hreacts.lecturas.resolve_right fun ⟨_, _, hno⟩ => hno f hf hnro
  rw [hsame] at hlect
  rcases h with ⟨-, hlecturas, -⟩ | ⟨hfase, hreads⟩ | ⟨hfase, -⟩
  · rcases hsent with rfl | ⟨hchunk, -⟩ | ⟨hpos, -⟩
    · exact absurd hnro (by decide : ¬(0xFF : UInt8) = 0xFD)
    · have := hchunk.1
      omega
    · omega
  · exact absurd hnro (hsent.ne_pedido (hlect ▸ hreads.has))
  · unfold Client.recibir at hf ⊢
    rcases hfase with hfase | hfase | hfase <;> rw [hfase] at hf ⊢ <;> dsimp only at hf ⊢
    · rcases esperarAck_cases 254 1 e c with ⟨n, h⟩ | ⟨a, n, -, -, hlt, -⟩ | ⟨retval, -, h⟩ |
        ⟨a, rfl, hack, -, h⟩
      · rw [h] at hf
        cases hf
      · omega
      · rw [h] at hf
        cases hf
      · rw [h]
        rfl
    · unfold esperarChecksum at hf ⊢
      cases e with
      | timeout => cases hf
      | otro =>
        dsimp only at hf ⊢
        split_ifs
        · exact hfase
        · exact hfase
      | ack a =>
        dsimp only at hf ⊢
        split_ifs at hf <;> cases hf
    · cases hf

end Client

namespace Server

open Finset in
/-- What the server has of the portion it is at, and what it has written. -/
structure Holds (K : Copy) (s : Server) : Prop where
  filefd : s.filefd = true
  archivo : s.archivo = K.archivo.take (Copy.inicioDe s.porcion 0)
  bufferWrite : ∀ i, s.origen i ≠ none → ∀ k < chunk, Copy.inicioDe s.porcion i + k < K.archivo.length →
    K.archivo[Copy.inicioDe s.porcion i + k]? = some (s.bufferWrite (i * chunk + k))
  bytesArchivo : s.bytesArchivo
    = ∑ i ∈ range cantChunks, if s.origen i = none then 0 else (K.contenido s.porcion i).length

open Finset in
theorem sum_update {g : ℕ → ℕ} {o : ℕ → Option (ℕ × ℕ)} {v : ℕ × ℕ} {n : ℕ} (hi : i < n)
    (hnone : o i = none) :
    (∑ j ∈ range n, if Function.update o i (some v) j = none then 0 else g j)
      = (∑ j ∈ range n, if o j = none then 0 else g j) + g i := by
  rw [← add_sum_erase _ _ (mem_range.mpr hi), ← add_sum_erase (range n) _ (mem_range.mpr hi)]
  have hrest : (∑ j ∈ (range n).erase i, if Function.update o i (some v) j = none then 0 else g j)
      = ∑ j ∈ (range n).erase i, if o j = none then 0 else g j := by
    refine sum_congr rfl fun j hj => ?_
    rw [update_of_ne (ne_of_mem_erase hj)]
  rw [hrest, update_self, hnone]
  simp only [reduceCtorEq, if_true, if_false]
  omega

theorem memcpy_of_lt {b : Buffer} {offset k : ℕ} {bytes : List UInt8} (h : k < offset) :
    b.memcpy offset bytes k = b k := by
  rw [Buffer.memcpy, if_neg (by omega)]

theorem memcpy_of_ge {b : Buffer} {offset k : ℕ} {bytes : List UInt8}
    (h : offset + bytes.length ≤ k) : b.memcpy offset bytes k = b k := by
  rw [Buffer.memcpy, if_neg (by omega)]

theorem Holds.completar (h : s.Holds K) (hd : s.During K) (hf : K.HasChunk f.lectura f.indice)
    (hporcion : f.lectura = s.porcion) (hright : f.contenido = K.contenido f.lectura f.indice) :
    (s.completar f.indice f).Holds K := by
  have hplace := hd.grilla _ hf.2.1
  unfold Server.completar
  split_ifs with hzero
  · have hnone : s.origen f.indice = none := by
      by_contra hsome
      rw [if_neg hsome, hzero] at hplace
      cases hplace
    refine ⟨h.filefd, h.archivo, fun i hi k hk hlt => ?_, ?_⟩
    · show _ = some (s.bufferWrite.memcpy (f.indice * chunk) f.contenido (i * chunk + k))
      have hlength := K.length_contenido f.lectura f.indice
      rw [← hright] at hlength
      rcases lt_trichotomy i f.indice with hless | rfl | hmore
      · rw [memcpy_of_lt (by simp only [chunk] at hk ⊢; omega)]
        refine h.bufferWrite i ?_ k hk hlt
        simpa [update_of_ne (Nat.ne_of_lt hless)] using hi
      · have hcopied := @Client.memcpy_apply s.bufferWrite (f.indice * chunk) k f.contenido (by
          rw [hlength, hporcion]
          have : Copy.inicioDe s.porcion f.indice + k < K.archivo.length := hlt
          omega)
        rw [hcopied, hright, hporcion, Copy.contenido, List.getElem?_take, if_pos hk,
          List.getElem?_drop]
      · rw [memcpy_of_ge (by
          simp only [chunk] at hk hlength ⊢
          omega)]
        refine h.bufferWrite i ?_ k hk hlt
        simpa [update_of_ne (ne_of_gt hmore)] using hi
    · show s.bytesArchivo + f.contenido.length = _
      rw [h.bytesArchivo, hright, hporcion]
      exact (sum_update hf.2.1 hnone).symm
  · exact h

open Finset in
theorem sum_min_chunks (c total n : ℕ) :
    ∑ i ∈ range n, min c (total - i * c) = min (n * c) total := by
  induction n with
  | zero => simp
  | succ n ih =>
    rw [sum_range_succ, ih, succ_mul]
    omega

theorem Holds.write (h : s.Holds K) (hpos : 1 ≤ s.porcion)
    (hfull : ∀ i, K.HasChunk s.porcion i → s.origen i ≠ none) :
    s.write.archivo = K.archivo.take (Copy.inicioDe (s.porcion + 1) 0) := by
  have hstart : Copy.inicioDe (s.porcion + 1) 0 = Copy.inicioDe s.porcion 0 + cantChunks * chunk := by
    simp only [Copy.inicioDe, chunk, cantChunks]
    omega
  have hbytes : s.bytesArchivo
      = min (cantChunks * chunk) (K.archivo.length - Copy.inicioDe s.porcion 0) := by
    rw [h.bytesArchivo, ← sum_min_chunks]
    refine Finset.sum_congr rfl fun i hi => ?_
    have hplace : Copy.inicioDe s.porcion i = Copy.inicioDe s.porcion 0 + i * chunk := by
      simp [Copy.inicioDe]
    rw [K.length_contenido, hplace, sub_add_eq]
    split_ifs with hnone
    · have hno : ¬K.HasChunk s.porcion i := fun hhas => hfull i hhas hnone
      have hend : K.archivo.length ≤ Copy.inicioDe s.porcion 0 + i * chunk := by
        by_contra hlt
        refine hno ⟨hpos, Finset.mem_range.mp hi, ?_⟩
        rw [← hplace] at hlt
        exact Nat.not_le.mp hlt
      omega
    · rfl
  show (if s.filefd then _ else _) = _
  rw [h.filefd, if_pos rfl, h.archivo, hstart, List.take_add]
  congr 1
  refine List.ext_getElem ?_ fun k hk hk' => ?_
  · rw [Buffer.bytes, List.length_map, List.length_range, List.length_take, List.length_drop, hbytes]
  · have hlt : k < s.bytesArchivo := by simpa [Buffer.bytes] using hk
    have hi : k / chunk < cantChunks := by
      simp only [chunk, cantChunks] at hbytes ⊢
      omega
    have hsplit : k / chunk * chunk + k % chunk = k := by
      rw [mul_comm]
      exact div_add_mod k chunk
    have hplace : Copy.inicioDe s.porcion (k / chunk) + k % chunk = Copy.inicioDe s.porcion 0 + k := by
      rw [Copy.inicioDe, Copy.inicioDe, Nat.zero_mul, Nat.add_assoc, hsplit, Nat.add_zero]
    have hhas : K.HasChunk s.porcion (k / chunk) := by
      refine ⟨hpos, hi, ?_⟩
      show Copy.inicioDe s.porcion (k / chunk) < _
      omega
    have hget := h.bufferWrite _ (hfull _ hhas) (k % chunk) (mod_lt _ (by decide)) (by omega)
    rw [hsplit, hplace] at hget
    have hfile : ((K.archivo.drop (Copy.inicioDe s.porcion 0)).take (cantChunks * chunk))[k]?
        = some (s.bufferWrite k) := by
      rw [List.getElem?_take, if_pos (by omega), List.getElem?_drop]
      exact hget
    rw [List.getElem?_eq_getElem hk'] at hfile
    rw [Option.some.inj hfile]
    simp [Buffer.bytes]

theorem Holds.avanzar (h : s.Holds K) (hpos : 1 ≤ s.porcion)
    (hfull : ∀ i, K.HasChunk s.porcion i → s.origen i ≠ none) : s.avanzar.Holds K := by
  refine ⟨h.filefd, h.write hpos hfull, fun i hi => absurd rfl hi, ?_⟩
  show 0 = _
  exact (Finset.sum_eq_zero fun i _ => rfl).symm

theorem Holds.contenidoArchivo (h : s.Holds K) (hd : s.During K)
    (hcompleto : s.Full → s.ackCompleto = true) (hf : K.HasChunk f.lectura f.indice)
    (hnro : f.nroSecuencia.toNat = primero f.lectura + f.indice)
    (hnext : f.lectura = s.porcion ∨ f.lectura = s.porcion + 1 ∧ s.Full)
    (hright : f.contenido = K.contenido f.lectura f.indice) :
    (s.contenidoArchivo f).1.Holds K := by
  have hanswer {s : Server} (h : s.Holds K) (i : ℕ) : (Server.responder i f s).1.Holds K :=
    ⟨h.filefd, h.archivo, h.bufferWrite, h.bytesArchivo⟩
  unfold Server.contenidoArchivo
  rw [posicion_eq hf hnro]
  dsimp only
  rcases hnext with hsame | ⟨hsucc, hfull⟩
  · rw [hsame] at hnro
    rw [distancia_same hnro hd.anterior, if_pos (Int.ofNat_lt.mpr hf.2.1)]
    exact hanswer (h.completar hd hf hsame hright) _
  · rw [hsucc] at hnro
    rw [if_neg (Int.not_lt.mpr (distancia_next hd.porcion_pos hnro hf.2.1 hd.anterior)),
      if_pos (hcompleto hfull)]
    have hnew := h.avanzar hd.porcion_pos fun i hi => hfull i hi.2.1
    exact hanswer (hnew.completar hd.avanzar hf hsucc hright) _

end Server

namespace Copy

def Ended (s : Server) : Prop := 1 ≤ s.porcion ∧ 0xF0 ≤ s.nroSecuenciaAnterior.toNat

/-- What is on the wire and in the file, beside what the windows say. -/
structure Data (K : Copy) (p : Red) : Prop where
  right : ∀ f ∈ p.ida, K.Right f
  during : p.servidor.During K → p.servidor.Holds K
  after : Ended p.servidor → p.servidor.archivo = K.archivo ∧ p.servidor.filefd = false
  fin : ∀ a ∈ p.vuelta, 1 ≤ a.porcion → a.nroSecuencia = 0xFE → Ended p.servidor
  pedido : ∀ f ∈ p.ida, f.nroSecuencia = 0xFD → Ended p.servidor
  ends : p.cliente.fase = .compareChecksum ∨ p.cliente.fase = .fin → Ended p.servidor

theorem not_ended (hd : s.During K) : ¬Ended s := by
  rintro ⟨-, hanterior⟩
  have := primero_lt s.porcion
  rw [hd.anterior] at hanterior
  omega

theorem Data.takes (h : K.Data p) {ida : List Trama} (hida : p.ida = f :: ida) {acks : List Ack}
    (hno : ¬Ended p.servidor) (hd : s'.During K) (hholds : s'.Holds K)
    (hacks : ∀ a ∈ acks, a.nroSecuencia ≠ 0xFE) :
    K.Data { p with servidor := s', ida, vuelta := p.vuelta ++ acks } := by
  refine ⟨fun g hg => h.right g (hida ▸ List.mem_cons_of_mem f hg), fun _ => hholds,
    fun hended => absurd hended (not_ended hd), fun a ha hpos hnro => ?_, fun g hg hnro => ?_,
    fun hfase => absurd (h.ends hfase) hno⟩
  · rcases List.mem_append.mp ha with ha | ha
    · exact absurd (h.fin a ha hpos hnro) hno
    · exact absurd hnro (hacks a ha)
  · exact absurd (h.pedido g (hida ▸ List.mem_cons_of_mem f hg) hnro) hno

theorem Data.takes_inicio (h : K.Data p) (hinv : K.Inv p) {ida : List Trama} (hida : p.ida = f :: ida)
    (hf : f = K.inicio) :
    K.Data { p with
      servidor := (p.servidor.recibir K.md5sum K.sscanf f).1
      ida
      vuelta := p.vuelta ++ (p.servidor.recibir K.md5sum K.sscanf f).2 } := by
  have hno : ¬Ended p.servidor := by
    obtain ⟨lo, -, hordered, hstage⟩ := hinv.ida
    rw [hida] at hordered
    rcases hstage with ⟨hzero, -, -⟩ | ⟨hd, -⟩ | ⟨-, hlo, -⟩
    · rintro ⟨hpos, -⟩
      omega
    · exact not_ended hd
    · have := (hordered.between f List.mem_cons_self).1
      rw [hf] at this
      exact absurd (le_trans hlo this) (not_succ_le_zero 0)
  have hrecibir : p.servidor.recibir K.md5sum K.sscanf f = p.servidor.nombreArchivo K.sscanf f := by
    rw [hf]
    rfl
  rw [hrecibir]
  refine h.takes hida hno Server.during_nombreArchivo ⟨rfl, ?_, fun i hi => absurd rfl hi, ?_⟩
    fun a ha => ?_
  · show [] = K.archivo.take (inicioDe 1 0)
    rw [show inicioDe 1 0 = 0 by simp [inicioDe], List.take_zero]
  · exact (Finset.sum_eq_zero fun i _ => rfl).symm
  · obtain rfl := List.mem_singleton.mp ha
    rw [hf]
    exact (by decide : (0xFF : UInt8) ≠ 0xFE)

theorem Data.takes_chunk (h : K.Data p) (hinv : K.Inv p) {ida : List Trama} (hida : p.ida = f :: ida)
    (hf : K.HasChunk f.lectura f.indice)
    (hnro : f.nroSecuencia.toNat = primero f.lectura + f.indice) :
    K.Data { p with
      servidor := (p.servidor.recibir K.md5sum K.sscanf f).1
      ida
      vuelta := p.vuelta ++ (p.servidor.recibir K.md5sum K.sscanf f).2 } := by
  obtain ⟨hd, hcompleto, -, -, -, hnext⟩ := hinv.next_chunk hida hf
  obtain ⟨hhandled, -⟩ := hd.contenidoArchivo hcompleto hf hnro hnext
  have hright := h.right f (hida ▸ List.mem_cons_self) hf
  rw [recibir_chunk hf hnro]
  refine h.takes hida (not_ended hd) hhandled.during
    ((h.during hd).contenidoArchivo hd hcompleto hf hnro hnext hright) fun a ha => ?_
  rw [hhandled.acks a ha]
  intro hfin
  have hanterior := hhandled.during.anterior
  have hlt := primero_lt (p.servidor.contenidoArchivo f).1.porcion
  rw [show (p.servidor.contenidoArchivo f).1.nroSecuenciaAnterior = 0xFE from hfin] at hanterior
  have : (0xFE : UInt8).toNat = 254 := rfl
  omega

theorem archivo_eof (h : p.servidor.Holds K) (hinv : K.Inv p) {ida : List Trama}
    (hida : p.ida = f :: ida) (hd : p.servidor.During K) (hpos : 1 ≤ f.lectura)
    (hend : ¬K.HasChunk f.lectura 0) : (p.servidor.eof f).1.archivo = K.archivo := by
  obtain ⟨lo, hlo, hordered, hstage⟩ := hinv.ida
  rw [hida] at hordered
  obtain ⟨hle, hge⟩ := hordered.between f List.mem_cons_self
  have hlength : lengthAck = 44 := rfl
  have hnull : p.servidor.grilla.take cantChunks = List.replicate cantChunks 0 ↔
      ∀ i < cantChunks, p.servidor.origen i = none := by
    rw [Server.take_eq_replicate (by rw [hd.length]; decide)]
    refine forall₂_congr fun i hi => ?_
    rw [hd.grilla i hi]
    split_ifs with hnone <;> simp [hnone]
  rcases hstage with ⟨hzero, -, -⟩ | ⟨-, -, -, hahead, hfull, ⟨-, hhas⟩ | ⟨-, hone, hL, hnone⟩⟩ |
    ⟨-, -, -, hanterior, -⟩
  · have := hd.porcion_pos
    omega
  · have hlast : p.servidor.porcion + 1 = f.lectura ∧ p.cliente.lecturas = p.servidor.porcion + 1 := by
      have hlt : p.servidor.porcion < f.lectura := by
        by_contra hnlt
        exact hend (hhas.first hpos (by omega))
      omega
    have hsome : p.servidor.grilla.take cantChunks ≠ List.replicate cantChunks 0 := fun hzero =>
      hfull hlast.2 0 hhas (hnull.mp hzero 0 (by decide))
    have hwrite := h.write hd.porcion_pos (hfull hlast.2)
    have heof : (p.servidor.eof f).1.archivo = p.servidor.write.archivo := by
      unfold Server.eof
      rw [if_pos hsome]
      rfl
    rw [heof, hwrite]
    refine List.take_of_length_le ?_
    rw [hlast.1]
    by_contra hlt
    exact hend ⟨hpos, by decide, Nat.not_le.mp hlt⟩
  · have heof : (p.servidor.eof f).1.archivo = p.servidor.archivo := by
      unfold Server.eof
      rw [if_neg (not_not.mpr (hnull.mpr fun i _ => hnone i))]
      rfl
    have hempty : K.archivo.length ≤ 0 := by
      by_contra hlt
      refine hend ⟨hpos, by decide, ?_⟩
      have : f.lectura = 1 := by omega
      rw [this]
      exact Nat.not_le.mp hlt
    rw [heof, h.archivo, List.length_eq_zero_iff.mp (le_zero.mp hempty), List.take_nil]
  · exact absurd ⟨hd.porcion_pos, hanterior⟩ (not_ended hd)

theorem Data.takes_fin (h : K.Data p) (hinv : K.Inv p) {ida : List Trama} (hida : p.ida = f :: ida)
    (hpos : 1 ≤ f.lectura) (hend : ¬K.HasChunk f.lectura 0)
    (hnro : f.nroSecuencia = 0xFE ∨ f.nroSecuencia = 0xFD) :
    K.Data { p with
      servidor := (p.servidor.recibir K.md5sum K.sscanf f).1
      ida
      vuelta := p.vuelta ++ (p.servidor.recibir K.md5sum K.sscanf f).2 } := by
  have hends := @ends_recibir K p.servidor f hnro
  have hporcion : 1 ≤ p.servidor.porcion := by
    obtain ⟨lo, -, hordered, hstage⟩ := hinv.ida
    rw [hida] at hordered
    exact (hstage.origen (le_trans hpos (hordered.between f List.mem_cons_self).2)).1
  have hended : Ended (p.servidor.recibir K.md5sum K.sscanf f).1 := by
    refine ⟨hends.porcion ▸ hporcion, ?_⟩
    rw [hends.anterior]
    rcases hnro with hnro | hnro <;> rw [hnro] <;> decide
  refine ⟨fun g hg => h.right g (hida ▸ List.mem_cons_of_mem f hg),
    fun hd => absurd hended (not_ended hd), fun _ => ?_, fun _ _ _ _ => hended, fun _ _ _ => hended,
    fun _ => hended⟩
  have hopen : Ended p.servidor ∨ p.servidor.During K := by
    obtain ⟨lo, -, -, hstage⟩ := hinv.ida
    rcases hstage with ⟨hzero, -, -⟩ | ⟨hd, -⟩ | ⟨-, -, -, hanterior, -⟩
    · omega
    · exact .inr hd
    · exact .inl ⟨hporcion, hanterior⟩
  rcases hnro with hnro | hnro
  · rw [recibir_eof hnro]
    rcases hopen with hended | hd
    · obtain ⟨harchivo, hfilefd⟩ := h.after hended
      refine ⟨?_, rfl⟩
      unfold Server.eof
      dsimp only
      split_ifs
      · show (if p.servidor.filefd then _ else p.servidor.archivo) = _
        rw [hfilefd]
        exact harchivo
      · exact harchivo
    · exact ⟨archivo_eof (h.during hd) hinv hida hd hpos hend, rfl⟩
  · rw [recibir_checksum hnro]
    exact h.after (h.pedido f (hida ▸ List.mem_cons_self) hnro)

theorem Data.reacciona (h : K.Data p) (hinv : K.Inv p) {e : Entrante}
    (hmeets : p.cliente.fase = .main → p.cliente.lengthRead % chunk ≠ 0 → ¬LastHole p.cliente e ∧
      (Repeats p.cliente e → p.cliente.lengthRead < chunk ∨
        p.cliente.data.indice + 1 ≠ p.cliente.cantidadAck))
    (he : ∀ a, e = .ack a → a.nroSecuencia = 0xFE → 1 ≤ p.cliente.lecturas → Ended p.servidor) :
    K.Data (p.reacciona e) := by
  have hends : (p.reacciona e).cliente.fase = .compareChecksum ∨ (p.reacciona e).cliente.fase = .fin →
      Ended p.servidor := by
    intro hfase
    rcases (hinv.cliente.recibir e).fin hfase with hold | hold | ⟨hpos, a, ha, hnro⟩
    · exact h.ends (.inl hold)
    · exact h.ends (.inr hold)
    · exact he a ha hnro hpos
  refine ⟨fun f hf => ?_, h.during, h.after, h.fin, fun f hf hnro => ?_, hends⟩
  · rcases List.mem_append.mp hf with hf | hf
    · exact h.right f hf
    · exact hinv.cliente.right hmeets f hf
  · rcases List.mem_append.mp hf with hf | hf
    · exact h.pedido f hf hnro
    · exact hends (.inl (hinv.cliente.pedido hf hnro))

theorem Data.start (K : Copy) : K.Data K.start := by
  have hzero : ¬1 ≤ K.start.servidor.porcion := by
    rw [show K.start.servidor.porcion = 0 from K.sin_porcion]
    omega
  refine ⟨fun f hf hhas => ?_, fun hd => absurd hd.porcion_pos hzero, fun h => absurd h.1 hzero,
    fun a ha => (nomatch ha), fun f hf hnro => ?_, fun h => ?_⟩
  · obtain rfl := List.mem_singleton.mp hf
    exact absurd hhas.1 (not_succ_le_zero 0)
  · obtain rfl := List.mem_singleton.mp hf
    exact absurd hnro (by decide : ¬(0xFF : UInt8) = 0xFD)
  · rcases h with h | h <;> cases h

theorem Data.paso (h : K.Data p) (hinv : K.Inv p) {e : Evento} (hmeets : Meets p e)
    (hpaso : p.paso K e = some q) : K.Data q := by
  obtain ⟨visto, -, hvuelta, hpos, -⟩ := hinv.vuelta
  cases e with
  | servidorRecibe =>
    simp only [Red.paso] at hpaso
    split at hpaso
    · cases hpaso
    · rename_i f ida hida
      rw [hinv.no_salida, if_neg (by decide)] at hpaso
      cases hpaso
      rcases hinv.sent f (hida ▸ List.mem_cons_self) with hf | ⟨hf, hnro⟩ | ⟨hpos, hend, hnro⟩
      · exact h.takes_inicio hinv hida hf
      · exact h.takes_chunk hinv hida hf hnro
      · exact h.takes_fin hinv hida hpos hend hnro
  | servidorTimeout =>
    simp only [Red.paso] at hpaso
    rw [hinv.no_salida, if_neg (by decide)] at hpaso
    cases hpaso
    refine ⟨h.right, h.during, h.after, fun a ha hpos hnro => ?_, h.pedido, h.ends⟩
    rcases List.mem_append.mp ha with ha | ha
    · exact h.fin a ha hpos hnro
    · unfold Server.timeout at ha
      split_ifs at ha
      · cases ha
      · obtain rfl := List.mem_singleton.mp ha
        refine ⟨hpos, ?_⟩
        rw [show p.servidor.nroSecuenciaAnterior = 0xFE from hnro]
        decide
  | clienteRecibe =>
    simp only [Red.paso] at hpaso
    split at hpaso
    · cases hpaso
    · rename_i a vuelta hcons
      cases hpaso
      have hrest : K.Data { p with vuelta } :=
        ⟨h.right, h.during, h.after, fun b hb => h.fin b (hcons ▸ List.mem_cons_of_mem a hb), h.pedido,
          h.ends⟩
      refine hrest.reacciona (hinv.behind hcons)
        (hmeets (p.entrante a) (.inl ⟨rfl, a, by rw [hcons]; rfl, rfl⟩)) fun b hb hnro hL => ?_
      obtain rfl := entrante_eq hb
      rw [hcons] at hvuelta
      exact h.fin a (hcons ▸ List.mem_cons_self)
        (le_trans (hpos hL) (hvuelta.between a List.mem_cons_self).1) hnro
  | clienteOtro =>
    cases hpaso
    refine h.reacciona hinv (fun _ _ => ⟨?_, ?_⟩) fun a ha => by cases ha
    · rintro ⟨a, ha, -⟩
      cases ha
    · rintro (ha | ⟨a, ha, -⟩) <;> cases ha
  | clienteTimeout =>
    cases hpaso
    refine h.reacciona hinv (hmeets .timeout (.inr ⟨rfl, rfl⟩)) fun a ha => by cases ha
  | pierdeTrama k =>
    cases hpaso
    exact ⟨fun f hf => h.right f (mem_of_mem_lose hf), h.during, h.after, h.fin,
      fun f hf => h.pedido f (mem_of_mem_lose hf), h.ends⟩
  | duplicaTrama k =>
    cases hpaso
    exact ⟨fun f hf => h.right f (mem_of_mem_double hf), h.during, h.after, h.fin,
      fun f hf => h.pedido f (mem_of_mem_double hf), h.ends⟩
  | pierdeAck k =>
    cases hpaso
    exact ⟨h.right, h.during, h.after, fun a ha => h.fin a (mem_of_mem_lose ha), h.pedido, h.ends⟩
  | duplicaAck k =>
    cases hpaso
    exact ⟨h.right, h.during, h.after, fun a ha => h.fin a (mem_of_mem_double ha), h.pedido, h.ends⟩

theorem meets_of_whole (e : Evento) (h : p.cliente.fase = .main → p.cliente.lengthRead % chunk = 0) :
    Meets p e := fun _ _ hmain hrest => absurd (h hmain) hrest

theorem restricted_of_pasos {es : List Evento} (h : p.pasos K es = some q)
    (hmeets : ∀ n < es.length, ∀ r, p.pasos K (es.take n) = some r → ∀ e, Meets r e) :
    (K.system.restrict Meets).Run p es q := by
  induction es generalizing p with
  | nil =>
    obtain rfl : p = q := by simpa [Red.pasos] using h
    exact .nil p
  | cons e es ih =>
    rw [Red.pasos, Option.bind_eq_some_iff] at h
    obtain ⟨p', hpaso, hrest⟩ := h
    have hfirst : (K.system.restrict Meets).step p e p' :=
      ⟨hmeets 0 (succ_pos _) p rfl e, hpaso⟩
    refine (System.Run.single hfirst).append (ih hrest fun n hn r hr => ?_)
    refine hmeets (n + 1) (succ_lt_succ hn) r ?_
    rw [List.take_succ_cons, Red.pasos, hpaso]
    exact hr

end Copy

end OpenMPI.SocketRaw
