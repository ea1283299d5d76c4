import MemInfo.Common.Types
import MemInfo.Lib.Framing

/-! # Frames on the wire

A message is a size-prefixed buffer: four bytes with the length of the rest, and the rest.
Both sides refuse a length of more than 64 MiB.
-/

namespace MemInfo

open Lib

/-- `flatbuffers::GetPrefixedSize`: the first four bytes, the lowest first. -/
def getPrefixedSize : List Byte → ℕ
  | b₀ :: b₁ :: b₂ :: b₃ :: _ =>
    b₀.toNat + 2 ^ 8 * b₁.toNat + 2 ^ 16 * b₂.toNat + 2 ^ 24 * b₃.toNat
  | _ => 0

def wire : Framing Byte where
  header := 4
  limit := maxMessageSize
  size := getPrefixedSize
  header_pos := by decide
  size_append := by
    intro l m hl
    match l, hl with
    | _ :: _ :: _ :: _ :: _, _ => rfl

@[simp] theorem header_wire : wire.header = 4 := rfl

@[simp] theorem limit_wire : wire.limit = maxMessageSize := rfl

@[simp] theorem size_wire : wire.size = getPrefixedSize := rfl

theorem next_wire (s : List Byte) : wire.next s =
    if s.length < 4 then .more
    else if maxMessageSize < getPrefixedSize s then .refused
    else if 4 + getPrefixedSize s ≤ s.length then
      .frame (s.take (4 + getPrefixedSize s)) (s.drop (4 + getPrefixedSize s))
    else .more := rfl

theorem getPrefixedSize_pad {s : List Byte} (hs : s.length < 4) :
    getPrefixedSize (s ++ List.replicate (4 - s.length) 0) ≤ maxMessageSize := by
  have hb (b : Byte) : b.toNat < 256 := b.toNat_lt
  match s, hs with
  | [], _ => decide
  | [a], _ =>
    have := hb a
    simp [List.replicate, getPrefixedSize, maxMessageSize]
    omega
  | [a, b], _ =>
    have := hb a
    have := hb b
    simp [List.replicate, getPrefixedSize, maxMessageSize]
    omega
  | [a, b, c], _ =>
    have := hb a
    have := hb b
    have := hb c
    simp [getPrefixedSize, maxMessageSize]
    omega

theorem exists_isFrame_append {s : List Byte} (h : wire.next s = .more) :
    ∃ t, t ≠ [] ∧ wire.IsFrame (s ++ t) := by
  -- once there is a header, the rest may be anything
  have hfill {s : List Byte} (hlen : 4 ≤ s.length) (hle : getPrefixedSize s ≤ maxMessageSize)
      (hs : s.length ≤ 4 + getPrefixedSize s) :
      wire.IsFrame (s ++ List.replicate (4 + getPrefixedSize s - s.length) 0) := by
    have hsize : wire.size (s ++ List.replicate (4 + getPrefixedSize s - s.length) 0) =
        getPrefixedSize s := wire.size_append _ _ hlen
    refine ⟨?_, hsize.symm ▸ hle, ?_⟩
    · rw [List.length_append]
      exact Nat.le_add_right_of_le hlen
    · rw [hsize, List.length_append, List.length_replicate, header_wire]
      omega
  rcases Framing.next_eq_more_iff.mp h with hh | ⟨hh, hl, hs⟩
  · rw [header_wire] at hh
    obtain ⟨s', hs'⟩ : ∃ s', s' = s ++ List.replicate (4 - s.length) 0 := ⟨_, rfl⟩
    have hlen : s'.length = 4 := by
      rw [hs', List.length_append, List.length_replicate]
      omega
    refine ⟨List.replicate (4 - s.length) 0 ++
      List.replicate (4 + getPrefixedSize s' - s'.length) 0, ?_, ?_⟩
    · have : 0 < (List.replicate (4 - s.length) (0 : Byte)).length := by
        rw [List.length_replicate]
        omega
      exact List.append_ne_nil_of_left_ne_nil (List.length_pos_iff.mp this) _
    · rw [← List.append_assoc, ← hs']
      exact hfill (Nat.le_of_eq hlen.symm) (hs' ▸ getPrefixedSize_pad hh) (by omega)
  · rw [header_wire] at hh hs
    rw [size_wire] at hl hs
    refine ⟨_, ?_, hfill hh hl (Nat.le_of_lt hs)⟩
    apply List.length_pos_iff.mp
    rw [List.length_replicate]
    omega

inductive ReadResult where
  | data (bytes : List Byte)
  | eof
  | error
  deriving DecidableEq, Repr

section Clean

variable {α : Type} {decode : List Byte → Option α} {a b : List Byte}

/-- No frame of a stream is rejected by the verifier, and none is announced that is too long. -/
def Clean (decode : List Byte → Option α) (stream : List Byte) : Prop :=
  (∀ f ∈ wire.frames stream, decode f ≠ none) ∧ wire.next (wire.rest stream) = .more

theorem not_clean_iff : ¬ Clean decode a ↔
    (∃ f ∈ wire.frames a, decode f = none) ∨ wire.next (wire.rest a) = .refused := by
  rw [Clean, not_and_or, not_forall]
  apply or_congr
  · simp
  · rcases wire.next_rest a with h | h <;> simp [h]

theorem clean_nil : Clean decode [] := by
  have hmore : wire.next ([] : List Byte) = .more := Framing.next_nil
  simp [Clean, Framing.cut_more hmore, hmore]

theorem Clean.of_append (h : Clean decode (a ++ b)) : Clean decode a := by
  obtain ⟨hall, hmore⟩ := h
  obtain ⟨hframes, hrest⟩ := Framing.frames_append (F := wire) a b
  rw [hframes] at hall
  rw [hrest] at hmore
  constructor
  · exact fun f hf => hall f (List.mem_append_left _ hf)
  · rcases wire.next_rest a with hm | hr
    · exact hm
    · have hr' := Framing.next_append_refused hr b
      rw [(Framing.cut_refused hr').2, hr'] at hmore
      cases hmore

theorem Clean.append_iff (ha : Clean decode a) :
    Clean decode (a ++ b) ↔ Clean decode (wire.rest a ++ b) := by
  obtain ⟨hframes, hrest⟩ := Framing.frames_append (F := wire) a b
  rw [Clean, Clean, hframes, hrest]
  constructor
  · rintro ⟨hall, hmore⟩
    exact ⟨fun f hf => hall f (List.mem_append_right _ hf), hmore⟩
  · rintro ⟨hall, hmore⟩
    refine ⟨fun f hf => ?_, hmore⟩
    rcases List.mem_append.mp hf with hf | hf
    · exact ha.1 f hf
    · exact hall f hf

end Clean

end MemInfo
