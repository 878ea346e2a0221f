import Mathlib.Algebra.BigOperators.Group.List.Basic
import OpenMPI.Osc.Eager

/-!
# One-sided requests fit their buffer if the datatype's description does

`ompi_ddt_pack_description_length` is the sum over all datatypes that one was made of
(`packDescriptionLength_eq`), as a `size_t`.  Only the data of a request is left out where it does not fit:
the header and the description are written in any case (`fits_sendreqSend_iff`).
-/

namespace OpenMPI.Ddt.Args

open List

theorem ownPackSize_eq (createType : Combiner) (i a : List ℤ) (d : List Datatype) :
    ownPackSize createType i.length a.length d.length = entryLength (.made createType i a d) % 2 ^ 64 := by
  rw [ownPackSize, entryLength]
  split
  · rfl
  · congr 1
    omega

mutual

theorem totalPackSize_eq : ∀ d : Datatype, totalPackSize d = ((nodes d).map entryLength).sum % 2 ^ 64
  | .predefined _ => rfl
  | .made createType i a d => by
    rw [totalPackSize, addPackSizes_eq, ownPackSize_eq, nodes, map_cons, sum_cons, Nat.mod_add_mod]
    rw [ownPackSize_eq]
    exact Nat.mod_lt _ (by decide)

theorem addPackSizes_eq : ∀ (ds : List Datatype) (size : ℕ), size < 2 ^ 64 →
    addPackSizes ds size = (size + ((nodesAll ds).map entryLength).sum) % 2 ^ 64
  | [], size, hsize => (Nat.mod_eq_of_lt hsize).symm
  | d :: ds, size, hsize => by
    rw [addPackSizes, nodesAll, map_append, sum_append]
    cases hd : d.isPredefined with
    | true =>
      obtain ⟨id, rfl⟩ : ∃ id, d = .predefined id := by
        cases d with
        | predefined id => exact ⟨id, rfl⟩
        | made => cases hd
      rw [if_pos rfl, addPackSizes_eq ds size hsize]
      simp [nodes]
    | false =>
      rw [if_neg (by simp), addPackSizes_eq ds _ (Nat.mod_lt _ (by decide)), totalPackSize_eq d]
      omega

end

theorem packDescriptionLength_eq (d : Datatype) : packDescriptionLength d = describedLength d % 2 ^ 64 := by
  rw [packDescriptionLength, describedLength]
  cases d with
  | predefined id => rfl
  | made createType i a d => exact totalPackSize_eq _

theorem describedLength_indexed (blocks : List (ℤ × ℤ)) (id : ℕ) :
    describedLength (typeIndexed blocks (.predefined id)) = 24 + 8 * blocks.length := by
  simp only [describedLength, typeIndexed, Datatype.isPredefined, nodes, nodesAll, entryLength, append_nil,
    map_cons, map_nil, sum_cons, sum_nil, length_cons, length_append, length_map,
    length_nil]
  rw [if_neg Bool.false_ne_true, if_neg (by decide)]
  omega

end OpenMPI.Ddt.Args

namespace OpenMPI.Osc.Eager

open Ddt.Args List

variable {c : Component} {buffer packs : Bool} {tag : ℤ} {isend : Status} {req : Sendreq}

/-- Exactly when the bytes of a request stay in the buffer.  Where it is sent, the header and the description
have to fit, and a sum that wraps around must not make too much data seem to. -/
theorem fits_sendreqSend_iff (c : Component) (buffer packs : Bool) (tag : ℤ) (isend : Status) (req : Sendreq) :
    Fits c (sendreqSend c buffer packs tag isend req) ↔
      buffer = false ∨ c.eagerSize < sizeofSendHeader ∨
        (sizeofSendHeader + describedLength req.targetDatatype % 2 ^ 64 ≤ c.eagerSize ∧
          (req.type = .get ∨
            sizeofSendHeader + describedLength req.targetDatatype % 2 ^ 64 + req.originBytesPacked < 2 ^ 64 ∨
            c.eagerSize <
              (sizeofSendHeader + describedLength req.targetDatatype % 2 ^ 64 + req.originBytesPacked) % 2 ^ 64)) := by
  rw [← packDescriptionLength_eq]
  have hsize := c.eagerSize_lt
  generalize hlen : packDescriptionLength req.targetDatatype = len
  cases buffer with
  | false => simp [sendreqSend, Fits]
  | true =>
    by_cases hheader : c.eagerSize < sizeofSendHeader
    · simp [sendreqSend, Fits, hheader]
    · have hsend : sizeofSendHeader ≤ c.eagerSize := Nat.not_lt.mp hheader
      simp only [sendreqSend, hlen, hheader, Bool.true_eq_false, if_false, false_or]
      split_ifs with hget hpayload hpacks <;> simp [Fits, Component.recvLength, hget] <;> omega

/-- A put to a type of 2048 blocks, with the default eager size. -/
theorem not_fits_indexed : ¬∀ (c : Component) (buffer packs : Bool) (tag : ℤ) (isend : Status) (req : Sendreq),
    Fits c (sendreqSend c buffer packs tag isend req) := by
  intro hall
  have hlen := describedLength_indexed (List.replicate 2048 (1, 2)) 6
  rw [length_replicate] at hlen
  generalize typeIndexed (List.replicate 2048 (1, 2)) (.predefined 6) = d at hlen
  have hfits := hall ⟨16 * 1024, by decide⟩ true true 1 .success ⟨.put, 0, 4, 0, 1, d, 0⟩
  have hwrite := hfits.1 (sizeofSendHeader, packDescriptionLength d) ?_
  · rw [packDescriptionLength_eq, hlen] at hwrite
    exact absurd hwrite (by decide)
  · rw [sendreqSend, if_neg (by decide), if_neg (by decide), if_neg (show ReqType.put ≠ .get by decide)]
    split <;> simp

end OpenMPI.Osc.Eager
