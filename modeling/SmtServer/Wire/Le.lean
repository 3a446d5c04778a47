import Mathlib.Data.Nat.Bitwise
import SmtServer.Lib.Outcome
import SmtServer.Lib.ByteString

/-!
# `error.rs`, `le.rs`, `types.rs` — reading and writing words

The byte-level layer of the wire format. Every reader goes through `ensure`, which checks the
range before it slices, so the two facts the rest of the development needs of a reader are
one equivalence — it returns `v` exactly when the spelling of `v` stands at the offset — and
that it never panics.

`usize` is 64 bits wide.
-/

namespace SmtServer
namespace Wire

open Lib Outcome

/-- `WireError`. -/
inductive WireError where
  | unexpectedEof (context : String) (needed actual : Nat)
  | lengthMismatch (context : String) (expected actual : Nat)
  | badMagic (context : String) (expected actual : List UInt8)
  | unsupportedVersion (version : UInt8)
  | integerOverflow (context : String)
  | invalidValue (context message : String)
  | invalidUtf8 (context : String) (offset len : UInt32)
  deriving Repr, DecidableEq

abbrev Result := Outcome WireError

def WireError.invalid (context message : String) : WireError := .invalidValue context message

/-- `Display`. -/
def WireError.display : WireError → String
  | .unexpectedEof context needed actual =>
    s!"unexpected end of input while reading {context}: needed {needed} bytes, got {actual}"
  | .lengthMismatch context expected actual =>
    s!"length mismatch for {context}: expected {expected} bytes, got {actual}"
  | .badMagic context expected actual =>
    s!"bad magic for {context}: expected {expected}, got {actual}"
  | .unsupportedVersion version => s!"unsupported SMT wire version {version}"
  | .integerOverflow context => s!"integer overflow while computing {context}"
  | .invalidValue context message => s!"invalid {context}: {message}"
  | .invalidUtf8 context offset len =>
    s!"invalid UTF-8 in {context} at blob offset {offset} with length {len}"

/-- `usize::BITS`. -/
def usizeBits : Nat := 64

/-! ## Checked arithmetic and readers -/

def checkedAdd (a b : Nat) (context : String) : Result Nat :=
  if a + b < 2 ^ usizeBits then ok (a + b) else err (.integerOverflow context)

def checkedMul (a b : Nat) (context : String) : Result Nat :=
  if a * b < 2 ^ usizeBits then ok (a * b) else err (.integerOverflow context)

def ensureRange (bytes : List UInt8) (offset len : Nat) (context : String) :
    Result (List UInt8) := do
  let stop ← checkedAdd offset len context
  if stop > bytes.length then err (.unexpectedEof context stop bytes.length)
  else slice bytes offset stop

def readU8 (bytes : List UInt8) (offset : Nat) (context : String) : Result UInt8 := do
  let s ← ensureRange bytes offset 1 context
  expect s[0]?

def readU16 (bytes : List UInt8) (offset : Nat) (context : String) : Result UInt16 := do
  let s ← ensureRange bytes offset 2 context
  pure (UInt16.ofNat (leNat s))

def readU32 (bytes : List UInt8) (offset : Nat) (context : String) : Result UInt32 := do
  let s ← ensureRange bytes offset 4 context
  pure (UInt32.ofNat (leNat s))

def readU64 (bytes : List UInt8) (offset : Nat) (context : String) : Result UInt64 := do
  let s ← ensureRange bytes offset 8 context
  pure (UInt64.ofNat (leNat s))

def exactSlice (bytes : List UInt8) (offset len : Nat) (context : String) :
    Result (List UInt8) :=
  ensureRange bytes offset len context

@[simp] theorem checkedAdd_eq_ok {a b c : Nat} {ctx : String} :
    checkedAdd a b ctx = ok c ↔ a + b < 2 ^ usizeBits ∧ a + b = c := by
  unfold checkedAdd
  split <;> simp_all

@[simp] theorem checkedMul_eq_ok {a b c : Nat} {ctx : String} :
    checkedMul a b ctx = ok c ↔ a * b < 2 ^ usizeBits ∧ a * b = c := by
  unfold checkedMul
  split <;> simp_all

@[simp] theorem safe_checkedAdd {a b : Nat} {ctx : String} : Safe (checkedAdd a b ctx) := by
  unfold checkedAdd
  split <;> simp

@[simp] theorem safe_checkedMul {a b : Nat} {ctx : String} : Safe (checkedMul a b ctx) := by
  unfold checkedMul
  split <;> simp

variable {b s : List UInt8} {off len : Nat} {ctx : String}

/-- The range check decides whether there are `len` bytes at the offset. -/
theorem ensureRange_eq_ok : ensureRange b off len ctx = ok s ↔
    off + len < 2 ^ usizeBits ∧ s.length = len ∧ Stands b off s := by
  simp only [ensureRange, bind_eq_ok, checkedAdd_eq_ok]
  constructor
  · rintro ⟨stop, ⟨hlt, rfl⟩, h⟩
    split at h
    · cases h
    · rename_i hle
      rw [slice_of_le (by omega) (by omega), show off + len - off = len by omega] at h
      obtain rfl := Outcome.ok.inj h
      exact ⟨hlt, by simp; omega, stands_take_drop (by omega)⟩
  · rintro ⟨hlt, rfl, hs⟩
    refine ⟨_, ⟨hlt, rfl⟩, ?_⟩
    have := hs.1
    rw [if_neg (by omega), slice_of_le (by omega) (by omega),
      show off + s.length - off = s.length by omega, hs.2]

@[simp] theorem safe_ensureRange : Safe (ensureRange b off len ctx) := by
  refine safe_checkedAdd.bind fun stop h => ?_
  obtain ⟨-, rfl⟩ := checkedAdd_eq_ok.mp h
  split
  · simp
  · rw [slice_of_le (by omega) (by omega)]
    simp

theorem exactSlice_eq_ok : exactSlice b off len ctx = ok s ↔
    off + len < 2 ^ usizeBits ∧ s.length = len ∧ Stands b off s := ensureRange_eq_ok

theorem readU8_eq_ok {v : UInt8} : readU8 b off ctx = ok v ↔
    off + 1 < 2 ^ usizeBits ∧ Stands b off [v] := by
  simp only [readU8, bind_eq_ok, ensureRange_eq_ok, expect_eq_ok]
  constructor
  · rintro ⟨s, ⟨hlt, hl, hs⟩, h⟩
    obtain ⟨x, rfl⟩ := List.length_eq_one_iff.mp hl
    simp only [List.getElem?_cons_zero, Option.some.injEq] at h
    exact ⟨hlt, h ▸ hs⟩
  · rintro ⟨hlt, hs⟩
    exact ⟨[v], ⟨hlt, rfl, hs⟩, rfl⟩

theorem readU16_eq_ok {v : UInt16} : readU16 b off ctx = ok v ↔
    off + 2 < 2 ^ usizeBits ∧ Stands b off (u16Bytes v) := by
  simp only [readU16, bind_eq_ok, ensureRange_eq_ok, pure_eq, Outcome.ok.injEq]
  constructor
  · rintro ⟨s, ⟨hlt, hl, hs⟩, h⟩
    exact ⟨hlt, (ofNat_leNat_u16 hl).mp h ▸ hs⟩
  · rintro ⟨hlt, hs⟩
    exact ⟨_, ⟨hlt, length_u16Bytes v, hs⟩, (ofNat_leNat_u16 (length_u16Bytes v)).mpr rfl⟩

theorem readU32_eq_ok {v : UInt32} : readU32 b off ctx = ok v ↔
    off + 4 < 2 ^ usizeBits ∧ Stands b off (u32Bytes v) := by
  simp only [readU32, bind_eq_ok, ensureRange_eq_ok, pure_eq, Outcome.ok.injEq]
  constructor
  · rintro ⟨s, ⟨hlt, hl, hs⟩, h⟩
    exact ⟨hlt, (ofNat_leNat_u32 hl).mp h ▸ hs⟩
  · rintro ⟨hlt, hs⟩
    exact ⟨_, ⟨hlt, length_u32Bytes v, hs⟩, (ofNat_leNat_u32 (length_u32Bytes v)).mpr rfl⟩

theorem readU64_eq_ok {v : UInt64} : readU64 b off ctx = ok v ↔
    off + 8 < 2 ^ usizeBits ∧ Stands b off (u64Bytes v) := by
  simp only [readU64, bind_eq_ok, ensureRange_eq_ok, pure_eq, Outcome.ok.injEq]
  constructor
  · rintro ⟨s, ⟨hlt, hl, hs⟩, h⟩
    exact ⟨hlt, (ofNat_leNat_u64 hl).mp h ▸ hs⟩
  · rintro ⟨hlt, hs⟩
    exact ⟨_, ⟨hlt, length_u64Bytes v, hs⟩, (ofNat_leNat_u64 (length_u64Bytes v)).mpr rfl⟩

@[simp] theorem safe_exactSlice : Safe (exactSlice b off len ctx) := safe_ensureRange

@[simp] theorem safe_readU8 : Safe (readU8 b off ctx) := by
  refine safe_ensureRange.bind fun s hs => ?_
  obtain ⟨-, hl, -⟩ := ensureRange_eq_ok.mp hs
  obtain ⟨x, rfl⟩ := List.length_eq_one_iff.mp hl
  simp

@[simp] theorem safe_readU16 : Safe (readU16 b off ctx) :=
  safe_ensureRange.bind fun _ _ => safe_ok _

@[simp] theorem safe_readU32 : Safe (readU32 b off ctx) :=
  safe_ensureRange.bind fun _ _ => safe_ok _

@[simp] theorem safe_readU64 : Safe (readU64 b off ctx) :=
  safe_ensureRange.bind fun _ _ => safe_ok _

/-! ## Sorts, node references, blob references -/

/-- `Sort`, a keyword in Lean: the sort encoded in bit 31 of a typed node reference. -/
inductive WireSort where
  | bv
  | bool
  deriving Repr, DecidableEq

/-- `{:?}`. -/
def WireSort.debug : WireSort → String
  | .bv => "Bv"
  | .bool => "Bool"

/-- A typed node reference. Bit 31 encodes the sort (`0 = BV`, `1 = Bool`) and bits 0-30
encode the node-array index. -/
structure NodeRef where
  raw : UInt32
  deriving Repr, DecidableEq

namespace NodeRef

def sortBit : UInt32 := 0x80000000
def indexMask : UInt32 := 0x7fffffff

def index (r : NodeRef) : UInt32 := r.raw &&& indexMask

def sort (r : NodeRef) : WireSort := if r.raw &&& sortBit = 0 then .bv else .bool

def isBool (r : NodeRef) : Bool := r.sort = .bool

/-- A reference as it is written. -/
def bytes (r : NodeRef) : List UInt8 := u32Bytes r.raw

@[simp] theorem length_bytes (r : NodeRef) : r.bytes.length = 4 := length_u32Bytes _

theorem length_flatMap_bytes (rs : List NodeRef) : (rs.flatMap bytes).length = 4 * rs.length :=
  length_flatMap_const length_bytes rs

end NodeRef

def WireSort.sortBit : WireSort → UInt32
  | .bv => 0
  | .bool => NodeRef.sortBit

namespace NodeRef

def new (sort : WireSort) (index : UInt32) : Result NodeRef := do
  ensure (index ≤ indexMask)
    (.invalid "node reference" s!"index {index} exceeds 31-bit node-reference range")
  pure ⟨sort.sortBit ||| index⟩

/-- The node a reference points to. -/
def idx (r : NodeRef) : Nat := r.index.toNat

theorem idx_eq (r : NodeRef) : r.idx = r.raw.toNat % 2 ^ 31 := by
  rw [idx, index, UInt32.toNat_and]
  exact Nat.and_two_pow_sub_one_eq_mod _ 31

theorem idx_lt (r : NodeRef) : r.idx < 2 ^ 31 := by
  rw [idx_eq]
  exact Nat.mod_lt _ (by decide)

theorem sort_eq (r : NodeRef) : r.sort = if r.raw.toNat < 2 ^ 31 then .bv else .bool := by
  have hlt := r.raw.toNat_lt
  have h : (r.raw &&& sortBit = 0) ↔ r.raw.toNat < 2 ^ 31 := by
    rw [← UInt32.toNat_inj, UInt32.toNat_and]
    show r.raw.toNat &&& 2 ^ 31 = 0 ↔ _
    rw [Nat.and_comm, Nat.two_pow_and, Nat.testBit_eq_decide_div_mod_eq]
    simp
    omega
  simp only [sort, h]

/-- A reference is its sort and its index. -/
theorem ext_iff' {r r' : NodeRef} : r = r' ↔ r.sort = r'.sort ∧ r.idx = r'.idx := by
  constructor
  · rintro rfl
    exact ⟨rfl, rfl⟩
  · rintro ⟨hs, hi⟩
    rw [idx_eq, idx_eq] at hi
    rw [sort_eq, sort_eq] at hs
    have h1 := r.raw.toNat_lt
    have h2 := r'.raw.toNat_lt
    have : r.raw.toNat = r'.raw.toNat := by
      split at hs <;> split at hs <;> simp_all <;> omega
    exact congrArg NodeRef.mk (UInt32.toNat_inj.mp this)

/-- The reference to node `i` at a sort, for an index that fits. -/
def mk' (sort : WireSort) (i : Nat) : NodeRef := ⟨sort.sortBit ||| UInt32.ofNat i⟩

theorem toNat_mk' {sort : WireSort} {i : Nat} (h : i < 2 ^ 31) :
    (mk' sort i).raw.toNat = (match sort with | .bv => 0 | .bool => 2 ^ 31) + i := by
  have hi : (UInt32.ofNat i).toNat = i := by
    rw [UInt32.toNat_ofNat']
    exact Nat.mod_eq_of_lt (by omega)
  cases sort with
  | bv => simp [mk', WireSort.sortBit, hi]
  | bool =>
    simp only [mk', WireSort.sortBit, UInt32.toNat_or, hi]
    have := (Nat.two_pow_add_eq_or_of_lt (i := 31) h 1).symm
    simpa [sortBit] using this

@[simp] theorem sort_mk' {sort : WireSort} {i : Nat} (h : i < 2 ^ 31) :
    (mk' sort i).sort = sort := by
  rw [sort_eq, toNat_mk' h]
  cases sort with
  | bv => rw [if_pos (by simpa using h)]
  | bool => rw [if_neg (by simp)]

@[simp] theorem idx_mk' {sort : WireSort} {i : Nat} (h : i < 2 ^ 31) :
    (mk' sort i).idx = i := by
  rw [idx_eq, toNat_mk' h]
  cases sort <;> simp <;> omega

theorem new_eq_ok {sort : WireSort} {index : UInt32} {r : NodeRef} :
    new sort index = ok r ↔ index.toNat < 2 ^ 31 ∧ r = mk' sort index.toNat := by
  have hmask : index ≤ indexMask ↔ index.toNat < 2 ^ 31 := by
    rw [UInt32.le_iff_toNat_le]
    show index.toNat ≤ 2 ^ 31 - 1 ↔ _
    omega
  simp only [new, bind_eq_ok, ensure_eq_ok, pure_eq, Outcome.ok.injEq, hmask, mk',
    UInt32.ofNat_toNat]
  constructor
  · rintro ⟨-, h, rfl⟩
    exact ⟨h, rfl⟩
  · rintro ⟨h, rfl⟩
    exact ⟨(), h, rfl⟩

end NodeRef

/-- A `(blob_offset, blob_len)` reference, encoded in node payloads and request name
lists. -/
structure BlobRef where
  offset : UInt32
  len : UInt32
  deriving Repr, DecidableEq

namespace BlobRef

/-- A name reference as requests write it. -/
def bytes (r : BlobRef) : List UInt8 := u32Bytes r.offset ++ u32Bytes r.len

@[simp] theorem length_bytes (r : BlobRef) : r.bytes.length = 8 := by simp [bytes]

theorem length_flatMap_bytes (rs : List BlobRef) : (rs.flatMap bytes).length = 8 * rs.length :=
  length_flatMap_const length_bytes rs

def fromPayload (payload : UInt64) : BlobRef where
  offset := (payload >>> 32).toUInt32
  len := payload.toUInt32

def toPayload (r : BlobRef) : UInt64 := (r.offset.toUInt64 <<< 32) ||| r.len.toUInt64

@[simp] theorem fromPayload_toPayload (r : BlobRef) : fromPayload r.toPayload = r := by
  have ho := r.offset.toNat_lt
  have hl := r.len.toNat_lt
  have hval : r.toPayload.toNat = 2 ^ 32 * r.offset.toNat + r.len.toNat := by
    simp only [toPayload, UInt64.toNat_or, UInt64.toNat_shiftLeft, UInt32.toNat_toUInt64]
    rw [show (32 : UInt64).toNat % 64 = 32 from rfl, Nat.shiftLeft_eq,
      Nat.mod_eq_of_lt (by omega), Nat.mul_comm,
      Nat.two_pow_add_eq_or_of_lt hl]
  cases r with
  | mk offset len =>
    simp only [fromPayload, BlobRef.mk.injEq]
    constructor
    · apply UInt32.toNat_inj.mp
      simp only [UInt64.toNat_toUInt32, UInt64.toNat_shiftRight, hval]
      rw [show (32 : UInt64).toNat % 64 = 32 from rfl, Nat.shiftRight_eq_div_pow]
      simp only at ho hl ⊢
      omega
    · apply UInt32.toNat_inj.mp
      simp only [UInt64.toNat_toUInt32, hval]
      simp only at ho hl ⊢
      omega

end BlobRef
end Wire
end SmtServer
