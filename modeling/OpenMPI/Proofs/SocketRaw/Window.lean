import OpenMPI.Proofs.SocketRaw.Client

/-!
# The windows of the client and of the server

The client reads the next portion of the file only when the server has its portion complete, and so is
at most one portion ahead.  The wire keeps the order, so what the server takes off it is of the
portion it is at or of the next one, and the ACKs the client gets are of its portion or of the one
before.  Their numbers differ, so the server goes on exactly when it should (`Copy.agrees`).
-/

namespace OpenMPI.SocketRaw

open Lib Channel List Function

variable {K : Copy} {c : Client} {s s' : Server} {f : Trama} {a : Ack} {p q : Red} {r i lo L : ℕ}

namespace Server

/-- The server has some chunks of the portion it is at, and its grid says which. -/
structure During (K : Copy) (s : Server) : Prop where
  porcion_pos : 1 ≤ s.porcion
  anterior : s.nroSecuenciaAnterior.toNat = primero s.porcion
  length : s.grilla.length = lengthAck
  grilla : ∀ i < cantChunks, s.grilla.getD i 0 = if s.origen i = none then 0 else 0xFF
  origen : ∀ i o, s.origen i = some o → o = (s.porcion, i) ∧ K.HasChunk s.porcion i

def Full (s : Server) : Prop := ∀ i < cantChunks, s.origen i ≠ none

theorem take_eq_replicate {l : List UInt8} {b : UInt8} {k : ℕ} (h : k ≤ l.length) :
    l.take k = replicate k b ↔ ∀ i < k, l.getD i 0 = b := by
  constructor
  · intro htake i hi
    have hget : (l.take k)[i]? = some b := by rw [htake, getElem?_replicate, if_pos hi]
    rw [getElem?_take, if_pos hi] at hget
    rw [getD_eq_getElem?_getD, hget, Option.getD_some]
  · intro hall
    refine eq_replicate_iff.mpr ⟨length_take_of_le h, fun x hx => ?_⟩
    obtain ⟨i, hi, rfl⟩ := mem_iff_getElem.mp hx
    rw [length_take_of_le h] at hi
    rw [getElem_take, ← hall i hi, getD_eq_getElem?_getD, getElem?_eq_getElem,
      Option.getD_some]

theorem During.full_iff (h : s.During K) :
    s.grilla.take cantChunks = replicate cantChunks 0xFF ↔ s.Full := by
  rw [take_eq_replicate (by rw [h.length]; decide), Full]
  refine forall₂_congr fun i hi => ?_
  rw [h.grilla i hi]
  split_ifs with hnone <;> simp [hnone]

/-- The chunk is in its place afterwards, and what was in a place stays there. -/
structure Took (f : Trama) (s s' : Server) : Prop where
  porcion : s'.porcion = s.porcion
  anterior : s'.nroSecuenciaAnterior = s.nroSecuenciaAnterior
  escrituras : s'.escrituras = s.escrituras
  salida : s'.salida = s.salida
  here : s'.origen f.indice ≠ none
  keeps : ∀ i, s.origen i ≠ none → s'.origen i ≠ none

theorem During.completar (h : s.During K) (hf : K.HasChunk f.lectura f.indice)
    (hporcion : f.lectura = s.porcion) :
    (s.completar f.indice f).During K ∧ Took f s (s.completar f.indice f) := by
  have hlt : f.indice < s.grilla.length := by
    have := hf.2.1
    rw [h.length]
    exact Nat.lt_of_lt_of_le this (by decide)
  have hplace := h.grilla _ hf.2.1
  unfold Server.completar
  split_ifs with hzero
  · refine ⟨⟨h.porcion_pos, h.anterior, ?_, fun i hi => ?_, fun i o ho => ?_⟩, rfl, rfl, rfl, rfl, ?_,
      fun i hi => ?_⟩
    · exact (length_set ..).trans h.length
    · show (s.grilla.set f.indice 0xFF).getD i 0 = if update s.origen _ _ i = none then 0 else _
      rw [getD_eq_getElem?_getD, getElem?_set]
      rcases eq_or_ne f.indice i with rfl | hne
      · simp [hlt]
      · rw [if_neg hne, update_of_ne hne.symm, ← getD_eq_getElem?_getD]
        exact h.grilla i hi
    · rcases eq_or_ne i f.indice with rfl | hne
      · simp only [update_self, Option.some.injEq] at ho
        subst ho
        exact ⟨by rw [hporcion], hporcion ▸ hf⟩
      · simp only [update_of_ne hne] at ho
        exact h.origen i o ho
    · simp
    · rcases eq_or_ne i f.indice with rfl | hne
      · simp
      · simpa [update_of_ne hne] using hi
  · refine ⟨h, rfl, rfl, rfl, rfl, fun hnone => ?_, fun i hi => hi⟩
    rw [if_pos hnone] at hplace
    exact hzero hplace

theorem During.responder (h : s.During K) (posicion : ℕ) (f : Trama) :
    (s.responder posicion f).1.During K ∧
      ((s.Full → (s.responder posicion f).1.ackCompleto = true) ∧
        ∀ a ∈ (s.responder posicion f).2, a = s.enviarAck s.nroSecuenciaAnterior) := by
  refine ⟨⟨h.porcion_pos, h.anterior, h.length, h.grilla, h.origen⟩, fun hfull => ?_, fun a ha => ?_⟩
  · have := h.full_iff.mpr hfull
    simp [Server.responder, this]
  · simp only [Server.responder] at ha
    split_ifs at ha
    · exact mem_singleton.mp ha
    · cases ha

theorem During.avanzar (h : s.During K) : s.avanzar.During K := by
  have hnone : s.avanzar.origen = fun _ => none := rfl
  refine ⟨Nat.succ_pos _, avanzar_toNat h.porcion_pos h.anterior, ?_, fun i hi => ?_, fun i o ho => ?_⟩
  · show (replicate cantChunks 0 ++ s.grilla.drop cantChunks).length = _
    rw [length_append, length_replicate, length_drop, h.length]
    decide
  · show (replicate cantChunks 0 ++ s.grilla.drop cantChunks).getD i 0 = _
    rw [hnone, getD_eq_getElem?_getD, getElem?_append_left (by simpa using hi),
      getElem?_replicate, if_pos hi]
    rfl
  · cases ho

theorem during_nombreArchivo : (s.nombreArchivo K.sscanf f).1.During K := by
  refine ⟨Nat.le_refl 1, rfl, length_replicate, fun i hi => ?_, fun i o ho => ?_⟩
  · show (replicate lengthAck (0 : UInt8)).getD i 0 = 0
    rw [getD_eq_getElem?_getD, getElem?_replicate]
    split_ifs <;> rfl
  · cases ho

theorem posicion_eq (hf : K.HasChunk f.lectura f.indice)
    (hnro : f.nroSecuencia.toNat = primero f.lectura + f.indice) :
    f.nroSecuencia.toNat % cantChunks = f.indice := by
  have hi := hf.2.1
  have hc : cantChunks = 8 := rfl
  rw [hc] at hi ⊢
  unfold primero at hnro
  omega

/-- What the server does with a chunk of its portion or of the next one. -/
structure Handled (K : Copy) (f : Trama) (s s' : Server) (acks : List Ack) : Prop where
  during : s'.During K
  full : s'.Full → s'.ackCompleto = true
  porcion : s'.porcion = f.lectura
  salida : s'.salida = s.salida
  here : s'.origen f.indice ≠ none
  keeps : f.lectura = s.porcion → ∀ i, s.origen i ≠ none → s'.origen i ≠ none
  acks : ∀ a ∈ acks, a = s'.enviarAck s'.nroSecuenciaAnterior

theorem During.answer (h : s.During K) (hf : K.HasChunk f.lectura f.indice)
    (hporcion : f.lectura = s.porcion) :
    Handled K f s (Server.responder f.indice f (s.completar f.indice f)).1
      (Server.responder f.indice f (s.completar f.indice f)).2 ∧
      (Server.responder f.indice f (s.completar f.indice f)).1.escrituras = s.escrituras := by
  obtain ⟨hduring, htook⟩ := h.completar hf hporcion
  obtain ⟨hafter, hfull, hacks⟩ := hduring.responder f.indice f
  exact ⟨⟨hafter, hfull, htook.porcion.trans hporcion.symm, htook.salida, htook.here,
    fun _ => htook.keeps, hacks⟩, htook.escrituras⟩

theorem During.contenidoArchivo (h : s.During K) (hcompleto : s.Full → s.ackCompleto = true)
    (hf : K.HasChunk f.lectura f.indice)
    (hnro : f.nroSecuencia.toNat = primero f.lectura + f.indice)
    (hnext : f.lectura = s.porcion ∨ f.lectura = s.porcion + 1 ∧ s.Full) :
    Handled K f s (s.contenidoArchivo f).1 (s.contenidoArchivo f).2 ∧
      ((s.contenidoArchivo f).1.escrituras = s.escrituras ∨
        (s.contenidoArchivo f).1.escrituras = s.escrituras ++ [(s.porcion, s.origen)]) := by
  unfold Server.contenidoArchivo
  rw [posicion_eq hf hnro]
  dsimp only
  rcases hnext with hsame | ⟨hsucc, hfull⟩
  · rw [hsame] at hnro
    rw [distancia_same hnro h.anterior, if_pos (Int.ofNat_lt.mpr hf.2.1)]
    obtain ⟨hanswer, hwrites⟩ := h.answer hf hsame
    exact ⟨hanswer, .inl hwrites⟩
  · rw [hsucc] at hnro
    rw [if_neg (Int.not_lt.mpr (distancia_next h.porcion_pos hnro hf.2.1 h.anterior)),
      if_pos (hcompleto hfull)]
    obtain ⟨hanswer, hwrites⟩ := h.avanzar.answer hf hsucc
    refine ⟨⟨hanswer.during, hanswer.full, hanswer.porcion, hanswer.salida, hanswer.here,
      fun hsame => ?_, hanswer.acks⟩, .inr hwrites⟩
    omega

end Server

namespace Copy

/-- Where the server is, when the client has read `L` times and the frames under way were sent after
the read `lo` or later. -/
inductive Stage (K : Copy) (s : Server) (L lo : ℕ) : Prop
  | before (hporcion : s.porcion = 0) (hL : L = 0) (hanterior : s.nroSecuenciaAnterior ≠ 0xFF)
  | during (h : s.During K) (hcompleto : s.Full → s.ackCompleto = true) (hle : s.porcion ≤ max 1 L)
      (hahead : L ≤ s.porcion + 1)
      (hfull : L = s.porcion + 1 → ∀ i, K.HasChunk s.porcion i → s.origen i ≠ none)
      (hlo : lo = s.porcion ∧ K.HasChunk s.porcion 0 ∨
        lo = 0 ∧ s.porcion = 1 ∧ L ≤ 1 ∧ ∀ i, s.origen i = none)
  | after (hporcion : 1 ≤ s.porcion) (hlo : 1 ≤ lo) (hend : ¬K.HasChunk lo 0)
      (hanterior : 0xF0 ≤ s.nroSecuenciaAnterior.toNat)
      (horigen : ∀ i o, s.origen i = some o → o = (s.porcion, i))

/-- An ACK of the copy has the number of its portion, and shows what the server has of it, or is for
the start or the end. -/
def Acked (s : Server) (a : Ack) : Prop :=
  (a.porcion = 0 → a.nroSecuencia ≠ 0xFF) ∧
  (1 ≤ a.porcion → 0xF0 ≤ a.nroSecuencia.toNat ∨ a.nroSecuencia.toNat = primero a.porcion ∧
    (a.porcion = s.porcion → ∀ i < cantChunks, a.grilla.getD i 0 = 0xFF → s.origen i ≠ none))

structure Inv (K : Copy) (p : Red) : Prop where
  cliente : p.cliente.Ok K
  sent : ∀ f ∈ p.ida, K.Sent f
  acked : ∀ a ∈ p.vuelta, Acked p.servidor a
  no_salida : p.servidor.salida = false
  unmixed : ∀ e ∈ p.servidor.escrituras, ∀ i o, e.2 i = some o → o = (e.1, i)
  ida : ∃ lo ≤ p.cliente.lecturas, Ordered Trama.lectura lo p.cliente.lecturas p.ida ∧
    K.Stage p.servidor p.cliente.lecturas lo
  vuelta : ∃ visto ≤ p.servidor.porcion, Ordered Ack.porcion visto p.servidor.porcion p.vuelta ∧
    (1 ≤ p.cliente.lecturas → 1 ≤ visto) ∧ p.cliente.lecturas ≤ visto + 1

theorem Stage.awaited (h : K.Stage s L lo) (hlo : lo ≤ L) (ha : Acked s a) (hhas : K.HasChunk L 0)
    (hnro : a.nroSecuencia.toNat = primero L) (hporcion : a.porcion ≤ s.porcion)
    (hpos : 1 ≤ a.porcion) (hahead : L ≤ a.porcion + 1) :
    s.porcion = L ∧ a.porcion = L ∧
      ∀ i, K.HasChunk L i → a.grilla.getD i 0 = 0xFF → s.origen i ≠ none := by
  have hlt := primero_lt L
  rcases h with ⟨hzero, -, -⟩ | ⟨h, -, hle, -⟩ | ⟨-, hlo', hend, -⟩
  · omega
  · rcases ha.2 hpos with hcontrol | ⟨hown, hgrilla⟩
    · omega
    · have hL := hhas.1
      have hsame : a.porcion = L := by
        by_contra hne
        obtain rfl : L = a.porcion + 1 := by omega
        exact primero_succ_ne hpos (hnro.symm.trans hown)
      have hs : s.porcion = L := by omega
      exact ⟨hs, hsame, fun i hi => hgrilla (by omega) i hi.2.1⟩
  · exact absurd (hhas.first hlo' hlo) hend

theorem Stage.reads_on (h : K.Stage s c.lecturas lo) (hlo : lo ≤ c.lecturas) (ha : Acked s a)
    (hawaited : Client.Awaited K c a) (hporcion : a.porcion ≤ s.porcion)
    (hpos : 1 ≤ c.lecturas → 1 ≤ a.porcion) (hahead : c.lecturas ≤ a.porcion + 1) :
    K.Stage s (c.lecturas + 1) lo ∧ c.lecturas ≤ a.porcion ∧ 1 ≤ a.porcion := by
  rcases hawaited with ⟨hzero, hstart⟩ | ⟨hhas, hnro, hgrilla⟩
  · have hpos : 1 ≤ a.porcion := by
      by_contra hne
      exact ha.1 (by omega) hstart
    refine ⟨?_, by omega, hpos⟩
    rcases h with ⟨hs, -, -⟩ | ⟨h, hcompleto, hle, -, -, hlo⟩ | ⟨hs, hlo', hend, hanterior, horigen⟩
    · omega
    · refine .during h hcompleto (by omega) (by omega) (fun heq => ?_) ?_
      · omega
      · exact hlo.imp_right fun ⟨h1, h2, _, h4⟩ => ⟨h1, h2, by omega, h4⟩
    · exact .after hs hlo' hend hanterior horigen
  · obtain ⟨hs, hsame, hplaces⟩ := h.awaited hlo ha hhas hnro hporcion (hpos hhas.1) hahead
    have hall : ∀ i, K.HasChunk c.lecturas i → s.origen i ≠ none := fun i hi =>
      hplaces i hi (hgrilla i hi)
    refine ⟨?_, by omega, hpos hhas.1⟩
    rcases h with ⟨hs, hL, -⟩ | ⟨h, hcompleto, hle, -, -, hlo⟩ | ⟨-, hlo', hend, -⟩
    · have := hhas.1
      omega
    · refine .during h hcompleto (by omega) (by omega) (fun _ => ?_) ?_
      · rw [hs]
        exact hall
      · exact hlo.imp_right fun ⟨_, _, _, hnone⟩ => absurd (hnone 0) (hall 0 hhas)
    · exact absurd (hhas.first hlo' hlo) hend

theorem Inv.reacciona (h : K.Inv p) {e : Entrante}
    (he : ∀ a, e = .ack a → Acked p.servidor a ∧ a.porcion ≤ p.servidor.porcion ∧
      Ordered Ack.porcion a.porcion p.servidor.porcion p.vuelta ∧
      (1 ≤ p.cliente.lecturas → 1 ≤ a.porcion) ∧ p.cliente.lecturas ≤ a.porcion + 1) :
    K.Inv (p.reacciona e) := by
  have hreacts := h.cliente.recibir e
  obtain ⟨lo, hlo, hordered, hstage⟩ := h.ida
  have hsent : ∀ f ∈ (p.reacciona e).ida, K.Sent f := by
    intro f hf
    rcases mem_append.mp hf with hf | hf
    · exact h.sent f hf
    · exact (hreacts.sent f hf).1
  rcases hreacts.lecturas with hsame | ⟨hsucc, ⟨a, rfl, hawaited⟩, -⟩
  · refine ⟨hreacts.ok, hsent, h.acked, h.no_salida, h.unmixed, ⟨lo, ?_, ?_, ?_⟩, ?_⟩
    · exact hsame ▸ hlo
    · show Ordered _ lo (p.cliente.recibir e).1.lecturas (p.ida ++ (p.cliente.recibir e).2)
      refine Ordered.append ?_ (hsame ▸ hlo) fun f hf => (hreacts.sent f hf).2
      rw [hsame]
      exact hordered
    · show K.Stage p.servidor (p.cliente.recibir e).1.lecturas lo
      rw [hsame]
      exact hstage
    · obtain ⟨visto, hvisto⟩ := h.vuelta
      refine ⟨visto, ?_⟩
      show visto ≤ p.servidor.porcion ∧ Ordered _ visto p.servidor.porcion p.vuelta ∧
        (1 ≤ (p.cliente.recibir e).1.lecturas → 1 ≤ visto) ∧ (p.cliente.recibir e).1.lecturas ≤ visto + 1
      rw [hsame]
      exact hvisto
  · obtain ⟨hacked, hporcion, hvuelta, hpos, hahead⟩ := he a rfl
    obtain ⟨hstage', hle, hone⟩ := hstage.reads_on hlo hacked hawaited hporcion hpos hahead
    have hida : Ordered Trama.lectura lo (p.cliente.recibir (.ack a)).1.lecturas
        (p.ida ++ (p.cliente.recibir (.ack a)).2) := by
      refine Ordered.append ?_ (by omega) fun f hf => (hreacts.sent f hf).2
      exact hordered.mono (Nat.le_refl lo) (by omega)
    refine ⟨hreacts.ok, hsent, h.acked, h.no_salida, h.unmixed, ⟨lo, ?_, hida, ?_⟩,
      ⟨a.porcion, hporcion, hvuelta, ?_, ?_⟩⟩
    · show lo ≤ (p.cliente.recibir (.ack a)).1.lecturas
      omega
    · show K.Stage p.servidor (p.cliente.recibir (.ack a)).1.lecturas lo
      rw [hsucc]
      exact hstage'
    · exact fun _ => hone
    · show (p.cliente.recibir (.ack a)).1.lecturas ≤ a.porcion + 1
      omega

theorem Acked.mono (ha : Acked s a) (hporcion : a.porcion ≤ s.porcion)
    (h : s.porcion < s'.porcion ∨
      s'.porcion = s.porcion ∧ ∀ i, s.origen i ≠ none → s'.origen i ≠ none) : Acked s' a := by
  refine ⟨ha.1, fun hpos => (ha.2 hpos).imp_right fun ⟨hnro, hgrilla⟩ => ⟨hnro, fun hsame i hi hff => ?_⟩⟩
  rcases h with hlt | ⟨heq, hkeeps⟩
  · omega
  · exact hkeeps i (hgrilla (by omega) i hi hff)

theorem Stage.acked (h : K.Stage s L lo) : Acked s (s.enviarAck s.nroSecuenciaAnterior) := by
  rcases h with ⟨hzero, -, hanterior⟩ | ⟨h, -⟩ | ⟨hs, -, -, hanterior⟩
  · exact ⟨fun _ => hanterior, fun hpos => absurd hpos (by simp [Server.enviarAck, hzero])⟩
  · refine ⟨fun hzero => ?_, fun _ => .inr ⟨h.anterior, fun _ i hi hff hnone => ?_⟩⟩
    · have := h.porcion_pos
      exact absurd hzero (by simp only [Server.enviarAck]; omega)
    · have := h.grilla i hi
      rw [if_pos hnone] at this
      exact absurd (hff.symm.trans this) (by decide)
  · refine ⟨fun hzero => ?_, fun _ => .inl hanterior⟩
    exact absurd hzero (by simp only [Server.enviarAck]; omega)

theorem Inv.takes (h : K.Inv p) {ida : List Trama} (hida : p.ida = f :: ida) {acks : List Ack}
    (hstage : K.Stage s' p.cliente.lecturas f.lectura) (hsalida : s'.salida = false)
    (hunmixed : ∀ e ∈ s'.escrituras, ∀ i o, e.2 i = some o → o = (e.1, i))
    (hkeeps : p.servidor.porcion < s'.porcion ∨ s'.porcion = p.servidor.porcion ∧
      ∀ i, p.servidor.origen i ≠ none → s'.origen i ≠ none)
    (hacks : ∀ a ∈ acks, Acked s' a ∧ a.porcion = s'.porcion) :
    K.Inv { p with servidor := s', ida, vuelta := p.vuelta ++ acks } := by
  obtain ⟨lo, hlo, hordered, -⟩ := h.ida
  obtain ⟨visto, hvisto, hvuelta, hpos, hahead⟩ := h.vuelta
  rw [hida] at hordered
  have hle : p.servidor.porcion ≤ s'.porcion := by omega
  refine ⟨h.cliente, fun g hg => h.sent g (hida ▸ mem_cons_of_mem f hg), fun a ha => ?_, hsalida,
    hunmixed, ⟨f.lectura, (hordered.between f mem_cons_self).2, hordered.tail, hstage⟩,
    ⟨visto, Nat.le_trans hvisto hle, ?_, hpos, hahead⟩⟩
  · rcases mem_append.mp ha with ha | ha
    · exact (h.acked a ha).mono (hvuelta.between a ha).2 hkeeps
    · exact (hacks a ha).1
  · exact (hvuelta.mono (Nat.le_refl visto) hle).append (Nat.le_trans hvisto hle) fun a ha => (hacks a ha).2

theorem Inv.takes_inicio (h : K.Inv p) {ida : List Trama} (hida : p.ida = f :: ida)
    (hf : f = K.inicio) :
    K.Inv { p with
      servidor := (p.servidor.recibir K.md5sum K.sscanf f).1
      ida
      vuelta := p.vuelta ++ (p.servidor.recibir K.md5sum K.sscanf f).2 } := by
  obtain ⟨lo, hlo, hordered, hstage⟩ := h.ida
  rw [hida] at hordered
  have hzero : lo = 0 := by
    have := (hordered.between f mem_cons_self).1
    rw [hf] at this
    exact Nat.le_zero.mp this
  have hbefore : p.cliente.lecturas ≤ 1 ∧ (p.servidor.porcion = 0 ∨
      p.servidor.porcion = 1 ∧ ∀ i, p.servidor.origen i = none) := by
    rcases hstage with ⟨hs, hL, -⟩ | ⟨hd, -, -, -, -, ⟨hsame, -⟩ | ⟨-, hs, hL, hnone⟩⟩ | ⟨-, hlo', -, -⟩
    · exact ⟨by omega, .inl hs⟩
    · have := hd.porcion_pos
      omega
    · exact ⟨hL, .inr ⟨hs, hnone⟩⟩
    · omega
  obtain ⟨hL, hs⟩ := hbefore
  have hrecibir : p.servidor.recibir K.md5sum K.sscanf f = p.servidor.nombreArchivo K.sscanf f := by
    rw [hf]
    rfl
  rw [hrecibir]
  have hduring := @Server.during_nombreArchivo K p.servidor f
  refine h.takes hida (.during hduring (fun hfull => ?_) (Nat.le_max_left 1 _) ?_ (fun heq => ?_)
    (.inr ?_)) h.no_salida ?_ ?_ fun a ha => ?_
  · exact absurd rfl (hfull 0 (by decide))
  · show p.cliente.lecturas ≤ 1 + 1
    omega
  · have : p.cliente.lecturas = 1 + 1 := heq
    omega
  · exact ⟨by rw [hf]; rfl, rfl, hL, fun _ => rfl⟩
  · exact fun e he => nomatch he
  · rcases hs with hs | ⟨hs, hnone⟩
    · exact .inl (by rw [hs]; exact Nat.one_pos)
    · exact .inr ⟨hs.symm, fun i hi => absurd (hnone i) hi⟩
  · obtain rfl := mem_singleton.mp ha
    refine ⟨⟨fun hzero => ?_, fun _ => .inl ?_⟩, rfl⟩
    · cases hzero
    · rw [hf]
      exact (by decide : 0xF0 ≤ (0xFF : UInt8).toNat)

theorem Inv.next_chunk (h : K.Inv p) {ida : List Trama} (hida : p.ida = f :: ida)
    (hf : K.HasChunk f.lectura f.indice) :
    p.servidor.During K ∧ (p.servidor.Full → p.servidor.ackCompleto = true) ∧
      p.cliente.lecturas ≤ p.servidor.porcion + 1 ∧
      (p.cliente.lecturas = p.servidor.porcion + 1 → ∀ i, K.HasChunk p.servidor.porcion i →
        p.servidor.origen i ≠ none) ∧
      f.lectura ≤ p.cliente.lecturas ∧
      (f.lectura = p.servidor.porcion ∨ f.lectura = p.servidor.porcion + 1 ∧ p.servidor.Full) := by
  obtain ⟨lo, hlo, hordered, hstage⟩ := h.ida
  rw [hida] at hordered
  obtain ⟨hle, hge⟩ := hordered.between f mem_cons_self
  have hpos := hf.1
  rcases hstage with ⟨-, hL, -⟩ | ⟨hd, hcompleto, -, hahead, hfull, hlo⟩ | ⟨-, hlo', hend, -⟩
  · omega
  · refine ⟨hd, hcompleto, hahead, hfull, hge, ?_⟩
    rcases Nat.lt_or_ge p.servidor.porcion f.lectura with hlt | hle'
    · obtain hsucc : f.lectura = p.servidor.porcion + 1 := by omega
      refine .inr ⟨hsucc, fun i hi => hfull (by omega) i ?_⟩
      rw [hsucc] at hf
      exact hf.before hd.porcion_pos hi
    · have := hd.porcion_pos
      exact .inl (by omega)
  · exact absurd (hf.first hlo' hle) hend

theorem recibir_chunk (hf : K.HasChunk f.lectura f.indice)
    (hnro : f.nroSecuencia.toNat = primero f.lectura + f.indice) :
    s.recibir K.md5sum K.sscanf f = s.contenidoArchivo f := by
  have hlt := primero_lt f.lectura
  have hi := hf.2.1
  have hc : cantChunks = 8 := rfl
  have hne (b : UInt8) (hb : 240 ≤ b.toNat) : f.nroSecuencia ≠ b := by
    rintro rfl
    omega
  rw [Server.recibir, if_neg (hne _ (by decide)), if_neg (hne _ (by decide)),
    if_neg (hne _ (by decide))]

theorem Inv.takes_chunk (h : K.Inv p) {ida : List Trama} (hida : p.ida = f :: ida)
    (hf : K.HasChunk f.lectura f.indice)
    (hnro : f.nroSecuencia.toNat = primero f.lectura + f.indice) :
    K.Inv { p with
      servidor := (p.servidor.recibir K.md5sum K.sscanf f).1
      ida
      vuelta := p.vuelta ++ (p.servidor.recibir K.md5sum K.sscanf f).2 } := by
  obtain ⟨hd, hcompleto, hahead, hfull, hge, hnext⟩ := h.next_chunk hida hf
  obtain ⟨hhandled, hwrites⟩ := hd.contenidoArchivo hcompleto hf hnro hnext
  rw [recibir_chunk hf hnro]
  have hporcion := hhandled.porcion
  have hstage : K.Stage (p.servidor.contenidoArchivo f).1 p.cliente.lecturas f.lectura := by
    refine .during hhandled.during hhandled.full (by omega) (by omega) (fun heq i hi => ?_)
      (.inl ⟨hporcion.symm, hporcion ▸ hf.first hf.1 (Nat.le_refl _)⟩)
    · rcases hnext with hsame | ⟨hsucc, -⟩
      · refine hhandled.keeps hsame i (hfull (by omega) i ?_)
        rwa [← hsame, ← hporcion]
      · omega
  refine h.takes hida hstage (hhandled.salida.trans h.no_salida) ?_ ?_ fun a ha => ?_
  · rcases hwrites with hwrites | hwrites <;> rw [hwrites]
    · exact h.unmixed
    · intro e he i o ho
      rcases mem_append.mp he with he | he
      · exact h.unmixed e he i o ho
      · obtain rfl := mem_singleton.mp he
        exact (hd.origen i o ho).1
  · rcases hnext with hsame | ⟨hsucc, -⟩
    · exact .inr ⟨hporcion.trans hsame, hhandled.keeps hsame⟩
    · exact .inl (by omega)
  · rw [hhandled.acks a ha]
    exact ⟨hstage.acked, rfl⟩

theorem Stage.origen (h : K.Stage s L lo) (hL : 1 ≤ L) :
    1 ≤ s.porcion ∧ ∀ i o, s.origen i = some o → o = (s.porcion, i) := by
  rcases h with ⟨-, hzero, -⟩ | ⟨hd, -⟩ | ⟨hs, -, -, -, horigen⟩
  · omega
  · exact ⟨hd.porcion_pos, fun i o ho => (hd.origen i o ho).1⟩
  · exact ⟨hs, horigen⟩

/-- What the server does at the end of the transmission and after it. -/
structure Ends (f : Trama) (s s' : Server) (acks : List Ack) : Prop where
  porcion : s'.porcion = s.porcion
  origen : s'.origen = s.origen
  salida : s'.salida = s.salida
  anterior : s'.nroSecuenciaAnterior = f.nroSecuencia
  escrituras : s'.escrituras = s.escrituras ∨ s'.escrituras = s.escrituras ++ [(s.porcion, s.origen)]
  acks : ∀ a ∈ acks, a = s'.enviarAck s'.nroSecuenciaAnterior

theorem recibir_eof (hnro : f.nroSecuencia = 0xFE) : s.recibir K.md5sum K.sscanf f = s.eof f := by
  unfold Server.recibir
  rw [hnro, if_neg (by decide), if_pos rfl]

theorem recibir_checksum (hnro : f.nroSecuencia = 0xFD) :
    s.recibir K.md5sum K.sscanf f = s.checksum K.md5sum f := by
  unfold Server.recibir
  rw [hnro, if_neg (by decide), if_neg (by decide), if_pos rfl]

theorem ends_recibir (hnro : f.nroSecuencia = 0xFE ∨ f.nroSecuencia = 0xFD) :
    Ends f s (s.recibir K.md5sum K.sscanf f).1 (s.recibir K.md5sum K.sscanf f).2 := by
  rcases hnro with hnro | hnro
  · rw [recibir_eof hnro]
    unfold Server.eof
    dsimp only
    split_ifs
    · exact ⟨rfl, rfl, rfl, rfl, .inr rfl, fun a ha => mem_singleton.mp ha⟩
    · exact ⟨rfl, rfl, rfl, rfl, .inl rfl, fun a ha => mem_singleton.mp ha⟩
  · rw [recibir_checksum hnro]
    exact ⟨rfl, rfl, rfl, rfl, .inl rfl, fun a ha => mem_singleton.mp ha⟩

theorem Inv.takes_fin (h : K.Inv p) {ida : List Trama} (hida : p.ida = f :: ida)
    (hpos : 1 ≤ f.lectura) (hend : ¬K.HasChunk f.lectura 0)
    (hnro : f.nroSecuencia = 0xFE ∨ f.nroSecuencia = 0xFD) :
    K.Inv { p with
      servidor := (p.servidor.recibir K.md5sum K.sscanf f).1
      ida
      vuelta := p.vuelta ++ (p.servidor.recibir K.md5sum K.sscanf f).2 } := by
  obtain ⟨lo, hlo, hordered, hstage⟩ := h.ida
  rw [hida] at hordered
  obtain ⟨-, hge⟩ := hordered.between f mem_cons_self
  obtain ⟨hporcion, horigen⟩ := hstage.origen (Nat.le_trans hpos hge)
  have hends := @ends_recibir K p.servidor f hnro
  have hafter : K.Stage (p.servidor.recibir K.md5sum K.sscanf f).1 p.cliente.lecturas f.lectura := by
    refine .after (hends.porcion ▸ hporcion) hpos hend ?_ ?_
    · rw [hends.anterior]
      rcases hnro with hnro | hnro <;> rw [hnro] <;> decide
    · rw [hends.porcion, hends.origen]
      exact horigen
  refine h.takes hida hafter (hends.salida.trans h.no_salida) ?_
    (.inr ⟨hends.porcion, fun i hi => by rwa [hends.origen]⟩) fun a ha => ?_
  · rcases hends.escrituras with hwrites | hwrites <;> rw [hwrites]
    · exact h.unmixed
    · intro e he i o ho
      rcases mem_append.mp he with he | he
      · exact h.unmixed e he i o ho
      · obtain rfl := mem_singleton.mp he
        exact horigen i o ho
  · rw [hends.acks a ha]
    exact ⟨hafter.acked, rfl⟩

theorem Inv.start (K : Copy) : K.Inv K.start := by
  refine ⟨.startOfTx rfl rfl rfl rfl rfl, fun f hf => .inicio (mem_singleton.mp hf),
    fun a ha => (nomatch ha), K.sin_salida, ?_, ⟨0, Nat.le_refl 0, ?_, ?_⟩,
    ⟨0, Nat.zero_le _, .nil, id, Nat.zero_le 1⟩⟩
  · intro e he
    rw [show K.start.servidor.escrituras = [] from K.sin_escrituras] at he
    cases he
  · refine ⟨pairwise_singleton .., fun f hf => ?_⟩
    obtain rfl := mem_singleton.mp hf
    exact ⟨Nat.le_refl 0, Nat.le_refl 0⟩
  · exact .before K.sin_porcion rfl K.nroSecuenciaAnterior_ne

theorem Inv.behind (h : K.Inv p) {vuelta : List Ack} (hcons : p.vuelta = a :: vuelta) :
    K.Inv { p with vuelta } := by
  obtain ⟨visto, -, hvuelta, hpos, hahead⟩ := h.vuelta
  rw [hcons] at hvuelta
  obtain ⟨hge, hle⟩ := hvuelta.between a mem_cons_self
  exact ⟨h.cliente, h.sent, fun b hb => h.acked b (hcons ▸ mem_cons_of_mem a hb), h.no_salida,
    h.unmixed, h.ida, ⟨a.porcion, hle, hvuelta.tail, fun hL => Nat.le_trans (hpos hL) hge,
      Nat.le_trans hahead (Nat.succ_le_succ hge)⟩⟩

theorem entrante_eq {b : Ack} (h : p.entrante a = .ack b) : a = b := by
  unfold Red.entrante at h
  split_ifs at h
  exact Entrante.ack.inj h

theorem Inv.paso (h : K.Inv p) {e : Evento} (hpaso : p.paso K e = some q) : K.Inv q := by
  obtain ⟨lo, hlo, hordered, hstage⟩ := h.ida
  obtain ⟨visto, hvisto, hvuelta, hpos, hahead⟩ := h.vuelta
  cases e with
  | servidorRecibe =>
    simp only [Red.paso] at hpaso
    split at hpaso
    · cases hpaso
    · rename_i f ida hida
      rw [h.no_salida, if_neg (by decide)] at hpaso
      cases hpaso
      rcases h.sent f (hida ▸ mem_cons_self) with hf | ⟨hf, hnro⟩ | ⟨hpos, hend, hnro⟩
      · exact h.takes_inicio hida hf
      · exact h.takes_chunk hida hf hnro
      · exact h.takes_fin hida hpos hend hnro
  | servidorTimeout =>
    simp only [Red.paso] at hpaso
    rw [h.no_salida, if_neg (by decide)] at hpaso
    cases hpaso
    have htimeout : ∀ a ∈ p.servidor.timeout, a = p.servidor.enviarAck p.servidor.nroSecuenciaAnterior := by
      intro a ha
      unfold Server.timeout at ha
      split_ifs at ha
      · cases ha
      · exact mem_singleton.mp ha
    refine ⟨h.cliente, h.sent, fun a ha => ?_, h.no_salida, h.unmixed, h.ida,
      ⟨visto, hvisto, hvuelta.append hvisto fun a ha => ?_, hpos, hahead⟩⟩
    · rcases mem_append.mp ha with ha | ha
      · exact h.acked a ha
      · rw [htimeout a ha]
        exact hstage.acked
    · rw [htimeout a ha]
      rfl
  | clienteRecibe =>
    simp only [Red.paso] at hpaso
    split at hpaso
    · cases hpaso
    · rename_i a vuelta hcons
      cases hpaso
      refine (h.behind hcons).reacciona fun b hb => ?_
      obtain rfl := entrante_eq hb
      rw [hcons] at hvuelta
      obtain ⟨hge, hle⟩ := hvuelta.between a mem_cons_self
      exact ⟨h.acked a (hcons ▸ mem_cons_self), hle, hvuelta.tail,
        fun hL => Nat.le_trans (hpos hL) hge, Nat.le_trans hahead (Nat.succ_le_succ hge)⟩
  | clienteOtro | clienteTimeout =>
    cases hpaso
    exact h.reacciona fun a ha => by cases ha
  | pierdeTrama k =>
    cases hpaso
    exact ⟨h.cliente, fun f hf => h.sent f (mem_of_mem_lose hf), h.acked, h.no_salida, h.unmixed,
      ⟨lo, hlo, hordered.lose k, hstage⟩, h.vuelta⟩
  | duplicaTrama k =>
    cases hpaso
    exact ⟨h.cliente, fun f hf => h.sent f (mem_of_mem_double hf), h.acked, h.no_salida, h.unmixed,
      ⟨lo, hlo, hordered.double k, hstage⟩, h.vuelta⟩
  | pierdeAck k =>
    cases hpaso
    exact ⟨h.cliente, h.sent, fun a ha => h.acked a (mem_of_mem_lose ha), h.no_salida, h.unmixed, h.ida,
      ⟨visto, hvisto, hvuelta.lose k, hpos, hahead⟩⟩
  | duplicaAck k =>
    cases hpaso
    exact ⟨h.cliente, h.sent, fun a ha => h.acked a (mem_of_mem_double ha), h.no_salida, h.unmixed,
      h.ida, ⟨visto, hvisto, hvuelta.double k, hpos, hahead⟩⟩

theorem inv_of_reachable (h : K.system.Reachable p) : K.Inv p := by
  refine h.invariant (fun p hp => ?_) fun p e q hinv hstep => hinv.paso hstep
  obtain rfl : p = K.start := hp
  exact Inv.start K

/-- In every state of a copy the server goes on to the next portion only with its portion complete
and with a chunk of the next one. -/
theorem agrees (h : K.system.Reachable p) : Agrees p := by
  have hinv := inv_of_reachable h
  refine ⟨hinv.no_salida, fun f ida hida hnro hdist => ?_, hinv.unmixed⟩
  rcases hinv.sent f (hida ▸ mem_cons_self) with rfl | ⟨hf, hnro'⟩ | ⟨-, -, hnro' | hnro'⟩
  · exact absurd hnro (by decide : ¬(0xFF : UInt8) < 0xFD)
  · obtain ⟨hd, hcompleto, -, -, -, hnext⟩ := hinv.next_chunk hida hf
    rcases hnext with hsame | ⟨hsucc, hfull⟩
    · rw [hsame] at hnro'
      rw [distancia_same hnro' hd.anterior] at hdist
      have := hf.2.1
      omega
    · refine ⟨fun i hi => ?_, hcompleto hfull, hsucc⟩
      obtain ⟨o, ho⟩ := Option.ne_none_iff_exists'.mp (hfull i hi)
      rw [ho, (hd.origen i o ho).1]
  · rw [hnro'] at hnro
    exact absurd hnro (by decide)
  · rw [hnro'] at hnro
    exact absurd hnro (by decide)

theorem run_of_pasos {es : List Evento} (h : p.pasos K es = some q) : K.system.Run p es q := by
  induction es generalizing p with
  | nil =>
    obtain rfl : p = q := by simpa [Red.pasos] using h
    exact .nil p
  | cons e es ih =>
    rw [Red.pasos, Option.bind_eq_some_iff] at h
    obtain ⟨p', hpaso, hrest⟩ := h
    have hfirst : K.system.step p e p' := hpaso
    exact (System.Run.single hfirst).append (ih hrest)

/-- A file of one byte `b` only, on a server that was just started; the name of the file is one letter,
and its size in five digits. -/
def ofSize (n : ℕ) (b : UInt8) (digits : List UInt8) : Copy where
  archivo := List.replicate n b
  encabezado := [0x61, 0x20] ++ digits
  bufferRead := fun _ => 0
  servidor :=
    { filefd := false, archivo := [], filesize := 0, bytesArchivo := 0, totalEscrito := 0
      bufferWrite := fun _ => 0, grilla := List.replicate lengthAck 0, nroSecuenciaAnterior := 0xEF
      ackCompleto := false, primerPaquete := true }
  md5sum := fun _ => List.replicate 16 0
  sscanf contenido _ := (contenido.drop 2).foldl (fun size digit => 10 * size + (digit.toNat - 48)) 0
  nroSecuenciaAnterior_ne := by decide
  sin_salida := rfl
  sin_porcion := rfl
  sin_escrituras := rfl

/-- The ninth chunk of a file brings the server to the second portion. -/
theorem agrees_ninth : ∃ p, (ofSize 11985 7 [49, 49, 57, 56, 53]).system.Reachable p ∧ Agrees p ∧
    p.servidor.porcion = 2 := by
  have hrun : ((ofSize 11985 7 [49, 49, 57, 56, 53]).start.pasos (ofSize 11985 7 [49, 49, 57, 56, 53])
      ([.servidorRecibe, .clienteRecibe] ++ List.replicate 8 .servidorRecibe ++
        [.clienteRecibe, .servidorRecibe])).map (·.servidor.porcion) = some 2 := by decide +kernel
  obtain ⟨p, hpasos, hporcion⟩ := Option.map_eq_some_iff.mp hrun
  have hreach : (ofSize 11985 7 [49, 49, 57, 56, 53]).system.Reachable p :=
    ⟨_, _, rfl, run_of_pasos hpasos⟩
  exact ⟨p, hreach, agrees hreach, hporcion⟩

end Copy

end OpenMPI.SocketRaw
