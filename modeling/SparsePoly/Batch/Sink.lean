import SparsePoly.Batch.Line

/-!
# Sinks

A sink takes the output of a batch, byte by byte and in order. It may have room for a given number
of bytes only: then a text that does not fit fills what is left of the room and the rest of it is
lost. The theorems say what a write leaves in the sink, as the bytes written so far.
-/

namespace SparsePoly

/-- The bytes of a text. -/
def utf8 (text : String) : Bytes := text.toUTF8.data.toList

/-- A receiver of bytes. -/
structure Sink where
  /-- How many bytes it takes in all, if there is a limit. -/
  capacity : Option Nat
  /-- The bytes it has taken so far. -/
  taken : Array UInt8
deriving DecidableEq, Repr

namespace Sink

/-- An empty sink that takes everything. -/
def unbounded : Sink := ⟨none, #[]⟩

/-- An empty sink that takes at most `capacity` bytes. -/
def bounded (capacity : Nat) : Sink := ⟨some capacity, #[]⟩

/-- The bytes that the sink has taken so far. -/
def bytes (s : Sink) : Bytes := s.taken.toList

/-- The sink after offering it some bytes: it takes as many as it has room for. -/
def push (s : Sink) (offered : Bytes) : Sink :=
  match s.capacity with
  | none => { s with taken := s.taken ++ offered }
  | some capacity => { s with taken := s.taken ++ offered.take (capacity - s.taken.size) }

/-- Whether the sink has room for some bytes. -/
def hasRoom (s : Sink) (offered : Bytes) : Bool :=
  match s.capacity with
  | none => true
  | some capacity => s.taken.size + offered.length ≤ capacity

@[simp] theorem bytes_unbounded : unbounded.bytes = [] := rfl

@[simp] theorem bytes_bounded (capacity : Nat) : (bounded capacity).bytes = [] := rfl

theorem bytes_push_of_unbounded {s : Sink} (h : s.capacity = none) (offered : Bytes) :
    (s.push offered).bytes = s.bytes ++ offered := by
  simp [push, bytes, h]

theorem bytes_push_of_bounded {s : Sink} {capacity : Nat} (h : s.capacity = some capacity)
    (offered : Bytes) :
    (s.push offered).bytes = s.bytes ++ offered.take (capacity - s.bytes.length) := by
  simp [push, bytes, h]

@[simp] theorem capacity_push (s : Sink) (offered : Bytes) :
    (s.push offered).capacity = s.capacity := by
  unfold push
  split <;> rfl

/-! ### Room -/

variable {s t : Sink} {capacity : Nat} {offered first second : Bytes}

/-- A sink is given by its limit and the bytes it has taken. -/
theorem ext_bytes (hcapacity : s.capacity = t.capacity) (hbytes : s.bytes = t.bytes) : s = t := by
  obtain ⟨capacity, taken⟩ := s
  obtain ⟨capacity', taken'⟩ := t
  cases hcapacity
  cases Array.toList_inj.1 hbytes
  rfl

theorem hasRoom_of_unbounded (h : s.capacity = none) (offered : Bytes) :
    s.hasRoom offered = true := by
  rw [hasRoom, h]

theorem hasRoom_iff_of_bounded (h : s.capacity = some capacity) :
    s.hasRoom offered = true ↔ s.bytes.length + offered.length ≤ capacity := by
  simp [hasRoom, bytes, h]

/-- A text that there is room for is taken as a whole. -/
theorem bytes_push_of_hasRoom (h : s.hasRoom offered = true) :
    (s.push offered).bytes = s.bytes ++ offered := by
  cases hcapacity : s.capacity with
  | none => exact bytes_push_of_unbounded hcapacity offered
  | some capacity =>
    have hle := (hasRoom_iff_of_bounded hcapacity).1 h
    rw [bytes_push_of_bounded hcapacity, List.take_of_length_le (by omega)]

/-- A text is offered in two pieces as at once, where there is room for the first piece. -/
theorem push_push (h : s.hasRoom first = true) :
    (s.push first).push second = s.push (first ++ second) := by
  refine ext_bytes (by simp) ?_
  have hfirst := bytes_push_of_hasRoom h
  cases hcapacity : s.capacity with
  | none =>
    have hpushed : (s.push first).capacity = none := (s.capacity_push first).trans hcapacity
    rw [bytes_push_of_unbounded hpushed, hfirst, bytes_push_of_unbounded hcapacity,
      List.append_assoc]
  | some capacity =>
    have hpushed : (s.push first).capacity = some capacity :=
      (s.capacity_push first).trans hcapacity
    have hle := (hasRoom_iff_of_bounded hcapacity).1 h
    have hwhole : first.take (capacity - s.bytes.length) = first :=
      List.take_of_length_le (by omega)
    rw [bytes_push_of_bounded hpushed, hfirst, bytes_push_of_bounded hcapacity, List.take_append,
      hwhole, List.length_append, Nat.sub_sub, List.append_assoc]

theorem hasRoom_push (h : s.hasRoom first = true) :
    (s.push first).hasRoom second = s.hasRoom (first ++ second) := by
  cases hcapacity : s.capacity with
  | none =>
    have hpushed : (s.push first).capacity = none := (s.capacity_push first).trans hcapacity
    rw [hasRoom_of_unbounded hpushed, hasRoom_of_unbounded hcapacity]
  | some capacity =>
    have hpushed : (s.push first).capacity = some capacity :=
      (s.capacity_push first).trans hcapacity
    rw [Bool.eq_iff_iff, hasRoom_iff_of_bounded hpushed, hasRoom_iff_of_bounded hcapacity,
      bytes_push_of_hasRoom h, List.length_append, List.length_append, Nat.add_assoc]

/-- Without room for its first piece a text fills the sink with that piece alone. -/
theorem push_append_of_not_hasRoom (h : s.hasRoom first = false) (second : Bytes) :
    s.push (first ++ second) = s.push first ∧ s.hasRoom (first ++ second) = false := by
  cases hcapacity : s.capacity with
  | none =>
    rw [hasRoom_of_unbounded hcapacity] at h
    contradiction
  | some capacity =>
    have hlt : ¬ s.bytes.length + first.length ≤ capacity := fun hle =>
      Bool.false_ne_true (h.symm.trans ((hasRoom_iff_of_bounded hcapacity).2 hle))
    refine ⟨ext_bytes (by simp) ?_, ?_⟩
    · rw [bytes_push_of_bounded hcapacity, bytes_push_of_bounded hcapacity,
        List.take_append_of_le_length (by omega)]
    · rw [← Bool.not_eq_true, hasRoom_iff_of_bounded hcapacity, List.length_append]
      omega

/-- What a sink has taken stays in it. -/
theorem prefix_push (s : Sink) (offered : Bytes) : s.bytes <+: (s.push offered).bytes := by
  cases hcapacity : s.capacity with
  | none =>
    rw [bytes_push_of_unbounded hcapacity]
    exact List.prefix_append _ _
  | some capacity =>
    rw [bytes_push_of_bounded hcapacity]
    exact List.prefix_append _ _

/-- Nothing changes by offering nothing. -/
theorem push_nil (s : Sink) : s.push [] = s := by
  refine ext_bytes (s.capacity_push []) ?_
  cases hcapacity : s.capacity with
  | none => rw [bytes_push_of_unbounded hcapacity, List.append_nil]
  | some capacity => rw [bytes_push_of_bounded hcapacity, List.take_nil, List.append_nil]

end Sink

end SparsePoly
