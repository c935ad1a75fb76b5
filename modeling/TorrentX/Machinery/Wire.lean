import Mathlib

/-!
# Machinery/Wire — fixed-width scalars in byte strings

A `Scalar` is a type in bijection with the bit vectors of a whole number of bytes.  `encode` and
`decode` spell it most significant byte first, and invert each other at the exact width
(`decode_encode`, `encode_decode`).

Reading goes through a cursor, the bytes not yet read, and faults when it would pass the end;
`load_drop` is the one fact a parser needs.  Writing goes into a `Buffer` of bounded capacity, and
consecutive writes are one write of the concatenation (`put_bind_put`, `foldlM_put`).
-/

/-- A byte string. -/
abbrev Bytes := List UInt8

namespace Wire

/-- The bytes of an ASCII text. -/
def text (s : String) : Bytes := s.toList.map Char.toUInt8

@[simp] theorem length_text (s : String) : (text s).length = s.length := by
  rw [text, List.length_map, String.length_toList]

/-! ## Numbers as bytes, most significant first -/

/-- The number a byte string spells, most significant byte first. -/
def ofBigEndian (bs : Bytes) : ℕ := bs.foldl (fun n b => n * 256 + b.toNat) 0

/-- The last `w` bytes of `n`, most significant first. -/
def toBigEndian : ℕ → ℕ → Bytes
  | 0, _ => []
  | w + 1, n => toBigEndian w (n / 256) ++ [UInt8.ofNat n]

@[simp] theorem ofBigEndian_nil : ofBigEndian [] = 0 := rfl

/-- The last byte counts once. -/
theorem ofBigEndian_concat (bs : Bytes) (b : UInt8) :
    ofBigEndian (bs ++ [b]) = ofBigEndian bs * 256 + b.toNat := by
  rw [ofBigEndian, List.foldl_append]
  rfl

@[simp] theorem length_toBigEndian (w n : ℕ) : (toBigEndian w n).length = w := by
  induction w generalizing n with
  | zero => rfl
  | succ w ih => rw [toBigEndian, List.length_append, ih, List.length_singleton]

/-- As many bytes as there are keep the number, fewer its remainder. -/
theorem ofBigEndian_toBigEndian (w n : ℕ) : ofBigEndian (toBigEndian w n) = n % 256 ^ w := by
  induction w generalizing n with
  | zero => simp [toBigEndian, Nat.mod_one]
  | succ w ih =>
    have hmod : n % 256 ^ (w + 1) = n % 256 + 256 * (n / 256 % 256 ^ w) := by
      rw [pow_succ', Nat.mod_mul]
    rw [toBigEndian, ofBigEndian_concat, ih, UInt8.toNat_ofNat', hmod]
    omega

/-- The number is below the power of its width. -/
theorem ofBigEndian_lt (bs : Bytes) : ofBigEndian bs < 256 ^ bs.length := by
  induction bs using List.reverseRecOn with
  | nil => simp
  | append_singleton bs b ih =>
    have hb : b.toNat < 256 := b.toNat_lt
    rw [ofBigEndian_concat, List.length_append, List.length_singleton, pow_succ]
    omega

/-- The bytes of the number are the bytes. -/
theorem toBigEndian_ofBigEndian (bs : Bytes) : toBigEndian bs.length (ofBigEndian bs) = bs := by
  induction bs using List.reverseRecOn with
  | nil => rfl
  | append_singleton bs b ih =>
    have hb : b.toNat < 256 := b.toNat_lt
    have hdiv : (ofBigEndian bs * 256 + b.toNat) / 256 = ofBigEndian bs := by omega
    have hmod : UInt8.ofNat (ofBigEndian bs * 256 + b.toNat) = b := by
      apply UInt8.toNat_inj.1
      rw [UInt8.toNat_ofNat']
      omega
    rw [ofBigEndian_concat, List.length_append, List.length_singleton, toBigEndian, hdiv, ih, hmod]

/-- The last `w` bytes of `n`, least significant first. -/
def toLittleEndian (w n : ℕ) : Bytes := (toBigEndian w n).reverse

@[simp] theorem length_toLittleEndian (w n : ℕ) : (toLittleEndian w n).length = w := by
  rw [toLittleEndian, List.length_reverse, length_toBigEndian]

/-! ## Scalars -/

/-- A type whose values are exactly the bit patterns of `width` bytes. -/
class Scalar (T : Type) where
  width : ℕ
  /-- The bit pattern of a value. -/
  bits : T ≃ BitVec (8 * width)

instance : Scalar UInt8 := ⟨1, ⟨UInt8.toBitVec, UInt8.ofBitVec, fun _ => rfl, fun _ => rfl⟩⟩

instance : Scalar UInt16 := ⟨2, ⟨UInt16.toBitVec, UInt16.ofBitVec, fun _ => rfl, fun _ => rfl⟩⟩

instance : Scalar UInt32 := ⟨4, ⟨UInt32.toBitVec, UInt32.ofBitVec, fun _ => rfl, fun _ => rfl⟩⟩

instance : Scalar Int32 := ⟨4, ⟨Int32.toBitVec, Int32.ofBitVec, fun _ => rfl, fun _ => rfl⟩⟩

instance : Scalar Int64 := ⟨8, ⟨Int64.toBitVec, Int64.ofBitVec, fun _ => rfl, fun _ => rfl⟩⟩

open Scalar (width bits)

@[simp] theorem width_uint16 : width UInt16 = 2 := rfl

@[simp] theorem width_uint32 : width UInt32 = 4 := rfl

@[simp] theorem width_int32 : width Int32 = 4 := rfl

@[simp] theorem width_int64 : width Int64 = 8 := rfl

section Codec

variable {T : Type} [Scalar T]

/-- The bytes of a scalar, most significant first. -/
def encode (x : T) : Bytes := toBigEndian (width T) (bits x).toNat

/-- The bytes of a scalar, least significant first. -/
def encodeLE (x : T) : Bytes := toLittleEndian (width T) (bits x).toNat

/-- The scalar a byte string spells, most significant byte first. -/
def decode (T : Type) [Scalar T] (bs : Bytes) : T := bits.symm (BitVec.ofNat _ (ofBigEndian bs))

@[simp] theorem length_encode (x : T) : (encode x).length = width T := length_toBigEndian _ _

@[simp] theorem length_encodeLE (x : T) : (encodeLE x).length = width T := length_toLittleEndian _ _

theorem encodeLE_eq_reverse (x : T) : encodeLE x = (encode x).reverse := rfl

private theorem two_pow_width (w : ℕ) : 2 ^ (8 * w) = 256 ^ w := by
  rw [pow_mul]
  norm_num

@[simp] theorem decode_encode (x : T) : decode T (encode x) = x := by
  have hlt : (bits x).toNat < 256 ^ width T := by
    rw [← two_pow_width]
    exact (bits x).isLt
  rw [decode, encode, ofBigEndian_toBigEndian, Nat.mod_eq_of_lt hlt, BitVec.ofNat_toNat,
    BitVec.setWidth_eq, Equiv.symm_apply_apply]

/-- **Bytes of the right width are spelled by what they decode to.** -/
theorem encode_decode {bs : Bytes} (h : bs.length = width T) : encode (decode T bs) = bs := by
  have hlt : ofBigEndian bs < 2 ^ (8 * width T) := by
    rw [two_pow_width, ← h]
    exact ofBigEndian_lt bs
  rw [encode, decode, Equiv.apply_symm_apply, BitVec.toNat_ofNat, Nat.mod_eq_of_lt hlt, ← h,
    toBigEndian_ofBigEndian]

/-- Different values have different bytes. -/
theorem encode_injective : Function.Injective (encode (T := T)) := fun x y h => by
  rw [← decode_encode x, ← decode_encode y, h]

end Codec

/-! ## Slices -/

/-- The bytes of `m` from `lo` up to but not including `hi`. -/
def slice (m : Bytes) (lo hi : ℕ) : Bytes := (m.drop lo).take (hi - lo)

/-- A slice inside the string has the length it says. -/
theorem length_slice {m : Bytes} {lo hi : ℕ} (h : hi ≤ m.length) :
    (slice m lo hi).length = hi - lo := by
  rw [slice, List.length_take, List.length_drop]
  omega

/-- A slice of a concatenation that starts after its first part. -/
theorem slice_append_of_le {a : Bytes} (b : Bytes) {lo : ℕ} (hi : ℕ) (h : a.length ≤ lo) :
    slice (a ++ b) lo hi = slice b (lo - a.length) (hi - a.length) := by
  rw [slice, slice, List.drop_append, List.drop_of_length_le h, List.nil_append]
  congr 1
  omega

/-- A slice of a concatenation that ends inside its first part. -/
theorem slice_append_of_length_le {a : Bytes} (b : Bytes) (lo : ℕ) {hi : ℕ} (h : hi ≤ a.length) :
    slice (a ++ b) lo hi = slice a lo hi := by
  rcases Nat.le_total lo a.length with hlo | hlo
  · rw [slice, slice, List.drop_append_of_le_length hlo, List.take_append_of_le_length]
    rw [List.length_drop]
    omega
  · rw [slice, slice, Nat.sub_eq_zero_of_le (h.trans hlo), List.take_zero, List.take_zero]

/-- The slice of a concatenation that is its first part. -/
theorem slice_append_left {a : Bytes} (b : Bytes) {hi : ℕ} (h : a.length = hi) :
    slice (a ++ b) 0 hi = a := by
  rw [slice, List.drop_zero, Nat.sub_zero, ← h, List.take_left]

theorem slice_self {a : Bytes} {hi : ℕ} (h : a.length = hi) : slice a 0 hi = a := by
  rw [slice, List.drop_zero, Nat.sub_zero, ← h, List.take_length]

/-- **A concatenation of parts of one width, cut at that width, is its parts.** -/
theorem map_slice_flatMap {β : Type*} (f : β → Bytes) {w : ℕ} (hf : ∀ x, (f x).length = w)
    (xs : List β) : (List.range xs.length).map (fun i => slice (xs.flatMap f) (w * i) (w * i + w))
      = xs.map f := by
  induction xs with
  | nil => rfl
  | cons x xs ih =>
    rw [List.length_cons, List.range_succ_eq_map, List.map_cons, List.map_map, List.flatMap_cons,
      List.map_cons, ← ih, Nat.mul_zero, Nat.zero_add, slice_append_left _ (hf x)]
    refine congrArg _ (List.map_congr_left fun i _ => ?_)
    have hle : (f x).length ≤ w * (i + 1) := by
      rw [hf, Nat.mul_succ]
      omega
    rw [Function.comp_apply, Nat.succ_eq_add_one, slice_append_of_le _ _ hle, hf, Nat.mul_succ]
    congr 1 <;> omega

/-! ## Reading through a cursor -/

section Read

variable {ε : Type} (pastEnd : ε)

/-- The next scalar and the cursor after it; a fault when too few bytes are left. -/
def load (T : Type) [Scalar T] (iter : Bytes) : Except ε (T × Bytes) :=
  if width T ≤ iter.length then .ok (decode T (iter.take (width T)), iter.drop (width T))
  else .error pastEnd

/-- **A scalar read in the middle of a message**, by the offsets it covers. -/
theorem load_drop {T : Type} [Scalar T] {m : Bytes} {lo : ℕ} (h : lo + width T ≤ m.length) :
    load pastEnd T (m.drop lo)
      = .ok (decode T (slice m lo (lo + width T)), m.drop (lo + width T)) := by
  have hle : width T ≤ (m.drop lo).length := by
    rw [List.length_drop]
    omega
  rw [load, if_pos hle, slice, Nat.add_sub_cancel_left, List.drop_drop]

end Read

/-! ## Writing into a bounded buffer

A writer that never goes back can be read as the text it writes.  What it has written before it
overran does not matter, since the overrun is the result. -/

/-- The bytes written so far into a buffer that holds at most `cap` of them. -/
@[ext]
structure Buffer (cap : ℕ) where
  bytes : Bytes
  length_le : bytes.length ≤ cap

namespace Buffer

variable {ε : Type} {overrun : ε} {cap : ℕ}

/-- The buffer before the first write. -/
def empty (cap : ℕ) : Buffer cap := ⟨[], Nat.zero_le _⟩

/-- The buffer with `bs` written at its end; a fault when they do not fit. -/
def put (overrun : ε) (b : Buffer cap) (bs : Bytes) : Except ε (Buffer cap) :=
  if h : (b.bytes ++ bs).length ≤ cap then .ok ⟨b.bytes ++ bs, h⟩ else .error overrun

theorem put_nil (b : Buffer cap) : b.put overrun [] = .ok b := by
  have h : (b.bytes ++ []).length ≤ cap := by simpa using b.length_le
  rw [put, dif_pos h]
  exact congrArg _ (Buffer.ext (List.append_nil _))

/-- **Two writes are one write.**  The second cannot succeed where the first overran. -/
theorem put_bind_put (b : Buffer cap) (xs ys : Bytes) :
    (b.put overrun xs >>= fun b => b.put overrun ys) = b.put overrun (xs ++ ys) := by
  by_cases hx : (b.bytes ++ xs).length ≤ cap
  · rw [put, dif_pos hx]
    change put overrun (⟨b.bytes ++ xs, hx⟩ : Buffer cap) ys = _
    by_cases hxy : (b.bytes ++ (xs ++ ys)).length ≤ cap
    · rw [put, put, dif_pos (by simpa using hxy), dif_pos hxy]
      exact congrArg _ (Buffer.ext (List.append_assoc ..))
    · rw [put, put, dif_neg (by simpa using hxy), dif_neg hxy]
  · have hxy : ¬ (b.bytes ++ (xs ++ ys)).length ≤ cap := by
      simp only [List.length_append] at hx ⊢
      omega
    rw [put, put, dif_neg hx, dif_neg hxy]
    rfl

/-- **A loop of writes is one write.** -/
theorem foldlM_put {β : Type} (f : β → Bytes) : ∀ (xs : List β) (b : Buffer cap),
    xs.foldlM (fun b x => b.put overrun (f x)) b = b.put overrun (xs.flatMap f)
  | [], b => by rw [List.foldlM_nil, List.flatMap_nil, put_nil]; rfl
  | x :: xs, b => by
    rw [List.foldlM_cons, List.flatMap_cons, ← put_bind_put]
    exact congrArg _ (funext fun b => foldlM_put f xs b)

/-- The bytes a sequence of writes from the start leaves, when they fit. -/
theorem put_empty {bs : Bytes} (h : bs.length ≤ cap) :
    (empty cap).put overrun bs = .ok ⟨bs, h⟩ := dif_pos h

theorem put_empty_error {bs : Bytes} (h : ¬ bs.length ≤ cap) :
    (empty cap).put overrun bs = .error overrun := dif_neg h

end Buffer

end Wire
