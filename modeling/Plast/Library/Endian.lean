/-
# Words of 32 bits as bytes

The two byte orders in which a `u32` is stored.  `decode` cuts a byte list into
groups of four and reads each as little-endian, as `chunks_exact(4)` followed by
`u32::from_le_bytes` does; it undoes little-endian encoding
(`decode_encode_little`) and swaps the bytes of what was encoded big-endian
(`decode_encode_big`), so neither order loses anything (`encode_injective`).  Words keep
their places: elements `i` to `j` of a word list are bytes `4 * i` to `4 * j` of its
encoding (`extract_encode`), and these bytes of any list are read as elements `i` to `j`
of what the whole list is read as (`decode_extract`).
-/

import Mathlib.Data.List.Basic

namespace Endian

/-- The order in which a machine stores the bytes of a word. -/
inductive ByteOrder
  | little
  | big
  deriving DecidableEq, Repr

/-- `u32::to_le_bytes`. -/
def toLeBytes (x : UInt32) : List UInt8 :=
  [UInt8.ofNat x.toNat, UInt8.ofNat (x.toNat / 256), UInt8.ofNat (x.toNat / 65536),
    UInt8.ofNat (x.toNat / 16777216)]

/-- `u32::to_be_bytes`. -/
def toBeBytes (x : UInt32) : List UInt8 := (toLeBytes x).reverse

/-- `u32::from_le_bytes`. -/
def fromLeBytes (a b c d : UInt8) : UInt32 :=
  UInt32.ofNat (a.toNat + b.toNat * 256 + c.toNat * 65536 + d.toNat * 16777216)

/-- `u32::to_ne_bytes` on a machine with the given byte order. -/
def ByteOrder.toNeBytes : ByteOrder → UInt32 → List UInt8
  | .little => toLeBytes
  | .big => toBeBytes

/-- The bytes of a slice of words, as the machine stores it. -/
def ByteOrder.encode (order : ByteOrder) (xs : List UInt32) : List UInt8 :=
  xs.flatMap order.toNeBytes

/-- `u32::swap_bytes`. -/
def swapBytes (x : UInt32) : UInt32 :=
  fromLeBytes (UInt8.ofNat (x.toNat / 16777216)) (UInt8.ofNat (x.toNat / 65536))
    (UInt8.ofNat (x.toNat / 256)) (UInt8.ofNat x.toNat)

/-- `u32::from_le` on a machine with the given byte order: what it reads where a word was
stored as little-endian. -/
def ByteOrder.fromLe : ByteOrder → UInt32 → UInt32
  | .little, x => x
  | .big, x => swapBytes x

/-- Read every full group of four bytes as a little-endian word. -/
def decode : List UInt8 → List UInt32
  | a :: b :: c :: d :: rest => fromLeBytes a b c d :: decode rest
  | _ => []

@[simp] theorem length_toNeBytes (order : ByteOrder) (x : UInt32) :
    (order.toNeBytes x).length = 4 := by
  cases order <;> rfl

theorem fromLe_toLe (x : UInt32) :
    fromLeBytes (UInt8.ofNat x.toNat) (UInt8.ofNat (x.toNat / 256))
      (UInt8.ofNat (x.toNat / 65536)) (UInt8.ofNat (x.toNat / 16777216)) = x := by
  have hx := x.toNat_lt
  refine UInt32.toNat_inj.1 ?_
  simp only [fromLeBytes, UInt32.toNat_ofNat', UInt8.toNat_ofNat']
  omega

theorem toLeBytes_fromLeBytes (a b c d : UInt8) : toLeBytes (fromLeBytes a b c d) = [a, b, c, d] := by
  have ha := a.toNat_lt
  have hb := b.toNat_lt
  have hc := c.toNat_lt
  have hd := d.toNat_lt
  have hword : (fromLeBytes a b c d).toNat =
      a.toNat + b.toNat * 256 + c.toNat * 65536 + d.toNat * 16777216 := by
    rw [fromLeBytes, UInt32.toNat_ofNat']
    omega
  simp only [toLeBytes, hword, List.cons.injEq, and_true]
  refine ⟨?_, ?_, ?_, ?_⟩ <;> refine UInt8.toNat_inj.1 ?_ <;> rw [UInt8.toNat_ofNat'] <;> omega

/-- Swapped bytes are stored in the other order. -/
theorem toLeBytes_swapBytes (x : UInt32) : toLeBytes (swapBytes x) = toBeBytes x :=
  toLeBytes_fromLeBytes _ _ _ _

theorem toLeBytes_injective : Function.Injective toLeBytes := by
  intro x y h
  have hword := congrArg (fun
    | [a, b, c, d] => fromLeBytes a b c d
    | _ => 0) h
  exact (fromLe_toLe x).symm.trans (hword.trans (fromLe_toLe y))

/-- Swapping twice changes nothing. -/
@[simp] theorem swapBytes_swapBytes (x : UInt32) : swapBytes (swapBytes x) = x := by
  refine toLeBytes_injective ?_
  rw [toLeBytes_swapBytes, toBeBytes, toLeBytes_swapBytes, toBeBytes, List.reverse_reverse]

/-- A machine stores as little-endian what it reads from there. -/
theorem toNeBytes_fromLe (order : ByteOrder) (x : UInt32) :
    order.toNeBytes (order.fromLe x) = toLeBytes x := by
  cases order with
  | little => rfl
  | big =>
    change toBeBytes (swapBytes x) = toLeBytes x
    rw [toBeBytes, toLeBytes_swapBytes, toBeBytes, List.reverse_reverse]

@[simp] theorem length_encode (order : ByteOrder) (xs : List UInt32) :
    (order.encode xs).length = 4 * xs.length := by
  induction xs with
  | nil => rfl
  | cons x xs ih =>
    rw [ByteOrder.encode, List.flatMap_cons, List.length_append, length_toNeBytes]
    rw [ByteOrder.encode] at ih
    rw [ih, List.length_cons]
    omega

@[simp] theorem encode_append (order : ByteOrder) (xs ys : List UInt32) :
    order.encode (xs ++ ys) = order.encode xs ++ order.encode ys :=
  List.flatMap_append

theorem decode_toLeBytes_append (x : UInt32) (rest : List UInt8) :
    decode (toLeBytes x ++ rest) = x :: decode rest :=
  congrArg (· :: decode rest) (fromLe_toLe x)

/-- Cutting after a whole number of words. -/
theorem decode_append {bytes : List UInt8} (h : bytes.length % 4 = 0) (rest : List UInt8) :
    decode (bytes ++ rest) = decode bytes ++ decode rest := by
  induction bytes using decode.induct with
  | case1 a b c d tail ih =>
    have htail : tail.length % 4 = 0 := by
      simp only [List.length_cons] at h
      omega
    exact congrArg (fromLeBytes a b c d :: ·) (ih htail)
  | case2 bytes hshort =>
    rcases bytes with _ | ⟨a, _ | ⟨b, _ | ⟨c, _ | ⟨d, tail⟩⟩⟩⟩
    · rfl
    · simp at h
    · simp at h
    · simp at h
    · exact absurd rfl (hshort a b c d tail)

/-- Fewer than four bytes are no word. -/
theorem decode_of_lt {bytes : List UInt8} (h : bytes.length < 4) : decode bytes = [] := by
  unfold decode
  split
  · simp only [List.length_cons] at h
    omega
  · rfl

theorem length_lt_of_short {bytes : List UInt8}
    (h : ∀ a b c d rest, bytes = a :: b :: c :: d :: rest → False) : bytes.length < 4 := by
  rcases bytes with _ | ⟨a, _ | ⟨b, _ | ⟨c, _ | ⟨d, rest⟩⟩⟩⟩
  · simp
  · simp
  · simp
  · simp
  · exact absurd rfl (h a b c d rest)

@[simp] theorem length_decode (bytes : List UInt8) : (decode bytes).length = bytes.length / 4 := by
  induction bytes using decode.induct with
  | case1 a b c d rest ih =>
    rw [decode, List.length_cons, ih]
    simp only [List.length_cons]
    omega
  | case2 bytes hshort =>
    have hlt := length_lt_of_short hshort
    rw [decode_of_lt hlt, Nat.div_eq_of_lt hlt, List.length_nil]

theorem decode_drop (bytes : List UInt8) (i : ℕ) :
    decode (bytes.drop (4 * i)) = (decode bytes).drop i := by
  induction bytes using decode.induct generalizing i with
  | case1 a b c d rest ih =>
    cases i with
    | zero => rfl
    | succ i => exact ih i
  | case2 bytes hshort =>
    have hlt := length_lt_of_short hshort
    have hle : (bytes.drop (4 * i)).length ≤ bytes.length := by
      rw [List.length_drop]
      exact Nat.sub_le _ _
    rw [decode_of_lt hlt, decode_of_lt (by omega), List.drop_nil]

theorem decode_take (bytes : List UInt8) (i : ℕ) :
    decode (bytes.take (4 * i)) = (decode bytes).take i := by
  induction bytes using decode.induct generalizing i with
  | case1 a b c d rest ih =>
    cases i with
    | zero => rfl
    | succ i => exact congrArg (fromLeBytes a b c d :: ·) (ih i)
  | case2 bytes hshort =>
    have hlt := length_lt_of_short hshort
    have hle := List.length_take_le' (4 * i) bytes
    rw [decode_of_lt hlt, decode_of_lt (by omega), List.take_nil]

/-- A run of full groups is read as the words at its place. -/
theorem decode_extract (bytes : List UInt8) (i j : ℕ) :
    decode (bytes.extract (4 * i) (4 * j)) = (decode bytes).extract i j := by
  rw [List.extract_eq_take_drop, List.extract_eq_take_drop, ← Nat.mul_sub, decode_take,
    decode_drop]

/-- Little-endian words are read back as they were. -/
theorem decode_encode_little (xs : List UInt32) : decode (ByteOrder.little.encode xs) = xs := by
  induction xs with
  | nil => rfl
  | cons x xs ih => exact (decode_toLeBytes_append x _).trans (congrArg (x :: ·) ih)

/-- Big-endian words are read back with their bytes swapped. -/
theorem decode_encode_big (xs : List UInt32) :
    decode (ByteOrder.big.encode xs) = xs.map swapBytes := by
  induction xs with
  | nil => rfl
  | cons x xs ih => exact congrArg (swapBytes x :: ·) ih

/-- Different words are stored differently. -/
theorem encode_injective (order : ByteOrder) : Function.Injective order.encode := by
  intro xs ys h
  cases order with
  | little => rw [← decode_encode_little xs, h, decode_encode_little]
  | big =>
    have hswap := congrArg decode h
    rw [decode_encode_big, decode_encode_big] at hswap
    exact List.map_injective_iff.2 (Function.Involutive.injective swapBytes_swapBytes) hswap

theorem drop_encode (order : ByteOrder) (xs : List UInt32) (i : ℕ) :
    (order.encode xs).drop (4 * i) = order.encode (xs.drop i) := by
  induction xs generalizing i with
  | nil => rw [List.drop_nil]; exact List.drop_nil
  | cons x xs ih =>
    cases i with
    | zero => rfl
    | succ i => cases order <;> exact ih i

theorem take_encode (order : ByteOrder) (xs : List UInt32) (i : ℕ) :
    (order.encode xs).take (4 * i) = order.encode (xs.take i) := by
  induction xs generalizing i with
  | nil => rw [List.take_nil]; exact List.take_nil
  | cons x xs ih =>
    cases i with
    | zero => rfl
    | succ i =>
      have hstep : ∀ bytes rest : List UInt8, bytes.length = 4 →
          (bytes ++ rest).take (4 * i + 4) = bytes ++ rest.take (4 * i) := by
        intro bytes rest hbytes
        rw [Nat.add_comm, ← hbytes, List.take_length_add_append]
      exact (hstep _ _ (length_toNeBytes order x)).trans (congrArg (order.toNeBytes x ++ ·) (ih i))

/-- A run of words lies at four times its place. -/
theorem extract_encode (order : ByteOrder) (xs : List UInt32) (i j : ℕ) :
    (order.encode xs).extract (4 * i) (4 * j) = order.encode (xs.extract i j) := by
  rw [List.extract_eq_take_drop, List.extract_eq_take_drop, drop_encode, ← Nat.mul_sub,
    take_encode]

end Endian
