import Mathlib

/-!
# Plain-old-data fields

A value of fixed width is copied to and from a byte stream, lowest byte first,
with nothing that says where it ends: the reader knows the width from the type
alone.  `Pod` packs the two copies with the two laws a reader relies on, and
`Pod.read` is the partial read of one field off the front of a stream.

## Main definitions

* `leBytes`, `leNat` — the little-endian bytes of a number, and back.
* `Pod` — a type with a fixed width and copies to and from bytes.
* `Pod.read` — one field off the front of a stream, `none` past its end.

## Main results

* `leNat_leBytes` — the bytes of a number are the number modulo their range.
* `Pod.read_write` — **a field that was written is read back, and the rest is left.**
-/

namespace EveIndustryPlanner

/-- A stream of bytes. -/
abbrev Bytes := List UInt8

/-! ### Little-endian numbers -/

/-- The `n` lowest bytes of `v`, lowest first. -/
def leBytes : ℕ → ℕ → Bytes
  | 0, _ => []
  | n + 1, v => UInt8.ofNat v :: leBytes n (v / 256)

/-- The number a list of bytes stands for, lowest first. -/
def leNat : Bytes → ℕ
  | [] => 0
  | b :: bs => b.toNat + 256 * leNat bs

@[simp] theorem length_leBytes (n v : ℕ) : (leBytes n v).length = n := by
  induction n generalizing v with
  | zero => rfl
  | succ n ih => simp [leBytes, ih]

/-- Nothing of `v` below the range of `n` bytes is lost. -/
theorem leNat_leBytes (n v : ℕ) : leNat (leBytes n v) = v % 256 ^ n := by
  induction n generalizing v with
  | zero => simp [leBytes, leNat, Nat.mod_one]
  | succ n ih =>
    -- the lowest byte is what the next higher ones leave of `v`
    have hb : (UInt8.ofNat v).toNat = v % 256 := by simp
    rw [leBytes, leNat, ih, hb, pow_succ', Nat.mod_mul]

theorem leNat_leBytes_of_lt {n v : ℕ} (h : v < 256 ^ n) : leNat (leBytes n v) = v := by
  rw [leNat_leBytes, Nat.mod_eq_of_lt h]

/-! ### Fields -/

/-- A type whose values are copied byte for byte. -/
class Pod (α : Type) where
  /-- The number of bytes of a value. -/
  size : ℕ
  /-- The bytes of a value. -/
  write : α → Bytes
  /-- The value of `size` bytes; junk on any other length. -/
  ofBytes : Bytes → α
  length_write : ∀ a, (write a).length = size
  ofBytes_write : ∀ a, ofBytes (write a) = a

namespace Pod

variable {α : Type} [Pod α]

attribute [simp] length_write ofBytes_write

/-- One field off the front of a stream. -/
def read (α : Type) [Pod α] (data : Bytes) : Option (α × Bytes) :=
  if size α ≤ data.length then some (ofBytes (data.take (size α)), data.drop (size α)) else none

/-- Any bytes of the right number are a field. -/
theorem read_append {bs : Bytes} (h : bs.length = size α) (rest : Bytes) :
    read α (bs ++ rest) = some (ofBytes bs, rest) := by
  have hle : size α ≤ (bs ++ rest).length := by simp [h]
  rw [read, if_pos hle, List.take_left' h, List.drop_left' h]

/-- **A field that was written is read back, and the rest is left.** -/
@[simp] theorem read_write (a : α) (rest : Bytes) : read α (write a ++ rest) = some (a, rest) := by
  rw [read_append (length_write a), ofBytes_write]

@[simp] theorem read_write_nil (a : α) : read α (write a) = some (a, []) := by
  simpa using read_write a []

/-- A read takes exactly the width of its type. -/
theorem length_of_read {data rest : Bytes} {a : α} (h : read α data = some (a, rest)) :
    data.length = size α + rest.length := by
  unfold read at h
  split at h
  · next hle =>
    obtain ⟨-, rfl⟩ := Prod.mk.injEq .. ▸ Option.some.inj h
    rw [List.length_drop]
    omega
  · exact absurd h (by simp)

/-- The same copies under another name for the values. -/
@[reducible] def ofEquiv {β : Type} (e : β ≃ α) : Pod β where
  size := size α
  write b := write (e b)
  ofBytes bs := e.symm (ofBytes bs)
  length_write b := length_write (e b)
  ofBytes_write b := by rw [ofBytes_write, e.symm_apply_apply]

end Pod

/-- A pair is its components, one after the other and unpadded. -/
instance {α β : Type} [Pod α] [Pod β] : Pod (α × β) where
  size := Pod.size α + Pod.size β
  write p := Pod.write p.1 ++ Pod.write p.2
  ofBytes bs := (Pod.ofBytes (bs.take (Pod.size α)), Pod.ofBytes (bs.drop (Pod.size α)))
  length_write p := by simp
  ofBytes_write p := by
    rw [List.take_left' (Pod.length_write p.1), List.drop_left' (Pod.length_write p.1),
      Pod.ofBytes_write, Pod.ofBytes_write]

/-! ### The machine integers -/

/-- Unsigned integers are ordered as numbers. -/
instance linearOrderUInt64 : LinearOrder UInt64 where
  le_refl := UInt64.le_refl
  le_trans _ _ _ := UInt64.le_trans
  le_antisymm _ _ := UInt64.le_antisymm
  le_total := UInt64.le_total
  lt_iff_le_not_ge a b := by
    rw [UInt64.lt_iff_toNat_lt, UInt64.le_iff_toNat_le, UInt64.le_iff_toNat_le]
    omega
  toDecidableLE := inferInstance
  toDecidableEq := inferInstance
  toDecidableLT := inferInstance

instance : Pod UInt8 where
  size := 1
  write a := leBytes 1 a.toNat
  ofBytes bs := UInt8.ofNat (leNat bs)
  length_write a := length_leBytes 1 _
  ofBytes_write a := by rw [leNat_leBytes_of_lt a.toNat_lt, UInt8.ofNat_toNat]

instance : Pod UInt32 where
  size := 4
  write a := leBytes 4 a.toNat
  ofBytes bs := UInt32.ofNat (leNat bs)
  length_write a := length_leBytes 4 _
  ofBytes_write a := by rw [leNat_leBytes_of_lt a.toNat_lt, UInt32.ofNat_toNat]

instance : Pod UInt64 where
  size := 8
  write a := leBytes 8 a.toNat
  ofBytes bs := UInt64.ofNat (leNat bs)
  length_write a := length_leBytes 8 _
  ofBytes_write a := by rw [leNat_leBytes_of_lt a.toNat_lt, UInt64.ofNat_toNat]

/-- Signed integers are copied as the unsigned ones of the same bits. -/
instance : Pod Int8 where
  size := 1
  write a := Pod.write a.toUInt8
  ofBytes bs := (Pod.ofBytes bs : UInt8).toInt8
  length_write a := Pod.length_write a.toUInt8
  ofBytes_write a := by simp

instance : Pod Int32 where
  size := 4
  write a := Pod.write a.toUInt32
  ofBytes bs := (Pod.ofBytes bs : UInt32).toInt32
  length_write a := Pod.length_write a.toUInt32
  ofBytes_write a := by simp

instance : Pod Int64 where
  size := 8
  write a := Pod.write a.toUInt64
  ofBytes bs := (Pod.ofBytes bs : UInt64).toInt64
  length_write a := Pod.length_write a.toUInt64
  ofBytes_write a := by simp

end EveIndustryPlanner
