import Mathlib.Algebra.Order.BigOperators.Group.List
import SmtServer.Wire.Response

/-!
# When a block can be encoded, and how long it gets

The encoders of `response.rs` check scalars on the way and refuse lengths that do not fit a
`u32`. Here that is said in closed form: which blocks have an encoding at all, and how many
bytes it takes. `BinaryResponse::new` then accepts a payload exactly when it is short enough and
decodes under the status and the flags it is sent with.
-/

namespace Lib
namespace Cursor

open Outcome

variable {ε α : Type} {enc : α → Outcome ε (List UInt8)} {xs : List α} {b : List UInt8}

theorem exists_encodeAll : (∃ b, encodeAll enc xs = ok b) ↔ ∀ x ∈ xs, ∃ b, enc x = ok b := by
  induction xs with
  | nil => simp [encodeAll]
  | cons x xs ih =>
    simp only [encodeAll_cons_eq_ok, List.mem_cons, forall_eq_or_imp]
    rw [← ih]
    constructor
    · rintro ⟨b, s, t, hs, ht, rfl⟩
      exact ⟨⟨s, hs⟩, t, ht⟩
    · rintro ⟨⟨s, hs⟩, t, ht⟩
      exact ⟨_, s, t, hs, ht, rfl⟩

theorem length_encodeAll {size : α → Nat} (h : ∀ x ∈ xs, ∀ b, enc x = ok b → b.length = size x)
    (hb : encodeAll enc xs = ok b) : b.length = (xs.map size).sum := by
  induction xs generalizing b with
  | nil =>
    simp only [encodeAll, pure_eq, Outcome.ok.injEq] at hb
    simp [← hb]
  | cons x xs ih =>
    obtain ⟨s, t, hs, ht, rfl⟩ := encodeAll_cons_eq_ok.mp hb
    rw [List.length_append, h x (List.mem_cons_self ..) s hs,
      ih (fun y hy => h y (List.mem_cons_of_mem _ hy)) ht, List.map_cons, List.sum_cons]

theorem safe_encodeAll (h : ∀ x ∈ xs, Safe (enc x)) : Safe (encodeAll enc xs) := by
  induction xs with
  | nil => exact safe_ok _
  | cons x xs ih =>
    exact (h x (List.mem_cons_self ..)).bind fun _ _ =>
      (ih fun y hy => h y (List.mem_cons_of_mem _ hy)).bind fun _ _ => safe_ok _

end Cursor
end Lib

namespace SmtServer
namespace Wire

open Lib Outcome

/-! ## Sizes -/

def ScalarValue.size (s : ScalarValue) : Nat := 8 + s.bytes.length
def ModelEntry.size (e : ModelEntry) : Nat := 4 + e.value.size
def ModelBlock.size (m : ModelBlock) : Nat := 4 + (m.entries.map ModelEntry.size).sum
def UnsatCoreBlock.nameSize (name : String) : Nat := 4 + (utf8 name).length
def UnsatCoreBlock.size (c : UnsatCoreBlock) : Nat := 4 + (c.names.map nameSize).sum
def SimplifyBlock.size (s : SimplifyBlock) : Nat := 8 + s.expression.length
def OptimizationValueBlock.size (o : OptimizationValueBlock) : Nat :=
  o.optimum.size + (o.model.map ModelBlock.size).getD 0

/-- Every scalar of a model is in normal form for its width. -/
def ModelBlock.Spelled (m : ModelBlock) : Prop := ∀ e ∈ m.entries, e.value.validate = ok ()

namespace ScalarValue

theorem exists_encode {s : ScalarValue} : (∃ b, s.encode = ok b) ↔ s.validate = ok () := by
  simp [encode_eq_ok]

theorem length_encode_eq {s : ScalarValue} {b : List UInt8} (h : s.encode = ok b) :
    b.length = s.size := by
  obtain ⟨-, rfl⟩ := encode_eq_ok.mp h
  simp only [List.length_append, length_u32Bytes, size]

theorem safe_encode {s : ScalarValue} : Safe s.encode :=
  safe_validate.bind fun _ _ => safe_ensure.bind fun _ _ => safe_ok _

end ScalarValue

namespace ModelBlock

variable {m : ModelBlock} {b : List UInt8}

theorem exists_encode_entry {e : ModelEntry} :
    (∃ b, e.encode = ok b) ↔ e.value.validate = ok () := by
  rw [← ScalarValue.exists_encode]
  constructor
  · rintro ⟨b, hb⟩
    obtain ⟨s, hs, -⟩ := ModelEntry.encode_eq_ok.mp hb
    exact ⟨s, hs⟩
  · rintro ⟨s, hs⟩
    exact ⟨_, ModelEntry.encode_eq_ok.mpr ⟨s, hs, rfl⟩⟩

theorem exists_encode : (∃ b, m.encode = ok b) ↔ m.entries.length < 2 ^ 32 ∧ m.Spelled := by
  have hall : (∃ s, Cursor.encodeAll ModelEntry.encode m.entries = ok s) ↔ m.Spelled :=
    Cursor.exists_encodeAll.trans (forall₂_congr fun _ _ => exists_encode_entry)
  rw [← hall]
  constructor
  · rintro ⟨b, hb⟩
    obtain ⟨hlt, s, hs, -⟩ := encode_eq_ok.mp hb
    exact ⟨hlt, s, hs⟩
  · rintro ⟨hlt, s, hs⟩
    exact ⟨_, encode_eq_ok.mpr ⟨hlt, s, hs, rfl⟩⟩

theorem length_encode (h : m.encode = ok b) : b.length = m.size := by
  obtain ⟨-, s, hs, rfl⟩ := encode_eq_ok.mp h
  have hentry : ∀ e ∈ m.entries, ∀ t, e.encode = ok t → t.length = e.size := by
    intro e _ t ht
    obtain ⟨u, hu, rfl⟩ := ModelEntry.encode_eq_ok.mp ht
    simp [ModelEntry.size, ScalarValue.length_encode_eq hu]
  rw [List.length_append, Cursor.length_encodeAll hentry hs, length_u32Bytes, size]

theorem safe_encode : Safe m.encode :=
  safe_ensure.bind fun _ _ => (Cursor.safe_encodeAll fun _ _ =>
    ScalarValue.safe_encode.bind fun _ _ => safe_ok _).bind fun _ _ => safe_ok _

theorem length_entries_le_size (m : ModelBlock) : m.entries.length ≤ m.size := by
  have := List.length_le_sum_of_one_le (m.entries.map ModelEntry.size) fun n hn => by
    obtain ⟨e, -, rfl⟩ := List.mem_map.mp hn
    simp only [ModelEntry.size]
    omega
  rw [List.length_map] at this
  simp only [size]
  omega

/-- A model of spelled scalars that is short enough to be sent has an encoding. -/
theorem exists_encode_of_size (h : m.size < 2 ^ 32) : (∃ b, m.encode = ok b) ↔ m.Spelled := by
  have := m.length_entries_le_size
  rw [exists_encode, and_iff_right (by omega)]

end ModelBlock

namespace UnsatCoreBlock

variable {c : UnsatCoreBlock} {b : List UInt8}

theorem length_encodeName {n : String} (h : encodeName n = ok b) : b.length = nameSize n := by
  obtain ⟨-, rfl⟩ := encodeName_eq_ok.mp h
  simp [nameSize]

theorem length_encodeNames {s : List UInt8} (h : Cursor.encodeAll encodeName c.names = ok s) :
    s.length = (c.names.map nameSize).sum :=
  Cursor.length_encodeAll (fun _ _ _ => length_encodeName) h

theorem length_encode (h : c.encode = ok b) : b.length = c.size := by
  obtain ⟨-, s, hs, rfl, -⟩ := encode_eq_ok.mp h
  rw [List.length_append, length_encodeNames hs, length_u32Bytes, size]

theorem size_name_le {n : String} (h : n ∈ c.names) : (utf8 n).length ≤ c.size := by
  have := List.single_le_sum (fun _ _ => Nat.zero_le _) _ (List.mem_map_of_mem (f := nameSize) h)
  simp only [size, nameSize] at this ⊢
  omega

theorem length_names_le_size (c : UnsatCoreBlock) : c.names.length ≤ c.size := by
  have := List.length_le_sum_of_one_le (c.names.map nameSize) fun n hn => by
    obtain ⟨e, -, rfl⟩ := List.mem_map.mp hn
    simp only [nameSize]
    omega
  rw [List.length_map] at this
  simp only [size]
  omega

/-- A core that is short enough to be sent has an encoding. -/
theorem exists_encode (h : c.size < 2 ^ 32) : ∃ b, c.encode = ok b := by
  have hall : ∃ s, Cursor.encodeAll encodeName c.names = ok s := by
    refine Cursor.exists_encodeAll.mpr fun n hn => ⟨_, encodeName_eq_ok.mpr ⟨?_, rfl⟩⟩
    have := size_name_le hn
    omega
  obtain ⟨s, hs⟩ := hall
  have hn := c.length_names_le_size
  refine ⟨_, encode_eq_ok.mpr ⟨by omega, s, hs, rfl, ?_⟩⟩
  rw [List.length_append, length_encodeNames hs, length_u32Bytes]
  simp only [size, usize_eq] at h ⊢
  omega

/-- Below the size of memory the encoder returns, with bytes or an error. -/
theorem safe_encode (h : c.size < 2 ^ usizeBits) : Safe c.encode := by
  refine safe_ensure.bind fun _ _ => (Cursor.safe_encodeAll fun _ _ =>
    safe_ensure.bind fun _ _ => safe_ok _).bind fun s hs => ?_
  unfold vec
  rw [if_pos]
  · exact safe_ok _
  · rw [List.length_append, length_encodeNames hs, length_u32Bytes]
    exact h

end UnsatCoreBlock

namespace SimplifyBlock

variable {s : SimplifyBlock} {b : List UInt8}

theorem encode_eq_ok : s.encode = ok b ↔ s.validate = ok () ∧ s.expression.length < 2 ^ 32 ∧
    b = u32Bytes (UInt32.ofNat s.expression.length) ++ s.targetNode.bytes ++ s.expression := by
  simp only [encode, bind_eq_ok, ensure_eq_ok, exists_const, pure_eq, Outcome.ok.injEq]
  constructor
  · rintro ⟨_, hv, hlt, rfl⟩
    exact ⟨hv, hlt, rfl⟩
  · rintro ⟨hv, hlt, rfl⟩
    exact ⟨(), hv, hlt, rfl⟩

theorem length_encode (h : s.encode = ok b) : b.length = s.size := by
  obtain ⟨-, -, rfl⟩ := encode_eq_ok.mp h
  simp only [List.length_append, length_u32Bytes, NodeRef.length_bytes, size]

theorem safe_validate : Safe s.validate :=
  (safe_parseAndValidate _).bind fun _ _ => BinaryRequest.safe_validateNodeRef.bind fun _ _ =>
    safe_ok _

theorem safe_encode : Safe s.encode :=
  safe_validate.bind fun _ _ => safe_ensure.bind fun _ _ => safe_ok _

end SimplifyBlock

namespace OptimizationValueBlock

variable {o : OptimizationValueBlock} {b : List UInt8}

theorem encode_eq_ok : o.encode = ok b ↔
    ∃ s t, o.optimum.encode = ok s ∧ encodeModel o.model = ok t ∧ s ++ t = b := by
  simp only [encode, bind_eq_ok, pure_eq, Outcome.ok.injEq]
  constructor
  · rintro ⟨s, hs, t, ht, rfl⟩
    exact ⟨s, t, hs, ht, rfl⟩
  · rintro ⟨s, t, hs, ht, rfl⟩
    exact ⟨s, hs, t, ht, rfl⟩

theorem length_encode (h : o.encode = ok b) : b.length = o.size := by
  obtain ⟨s, t, hs, ht, rfl⟩ := encode_eq_ok.mp h
  rw [List.length_append, ScalarValue.length_encode_eq hs, size]
  cases hm : o.model with
  | none =>
    simp only [hm, encodeModel, pure_eq, Outcome.ok.injEq] at ht
    simp [← ht]
  | some m =>
    simp only [hm, encodeModel] at ht
    simp [ModelBlock.length_encode ht]

/-- A checked optimum that is short enough to be sent has an encoding unless its model has a
scalar that is none. -/
theorem exists_encode (hv : o.optimum.validate = ok ()) (h : o.size < 2 ^ 32) :
    (∃ b, o.encode = ok b) ↔ ∀ m, o.model = some m → m.Spelled := by
  obtain ⟨s, hs⟩ := ScalarValue.exists_encode.mpr hv
  have hopt : (∃ b, o.encode = ok b) ↔ ∃ t, encodeModel o.model = ok t := by
    constructor
    · rintro ⟨b, hb⟩
      obtain ⟨-, t, -, ht, -⟩ := encode_eq_ok.mp hb
      exact ⟨t, ht⟩
    · rintro ⟨t, ht⟩
      exact ⟨_, encode_eq_ok.mpr ⟨s, t, hs, ht, rfl⟩⟩
  rw [hopt]
  cases hm : o.model with
  | none => simp [encodeModel]
  | some m =>
    simp only [size, hm, Option.map_some, Option.getD_some] at h
    simp only [encodeModel, Option.some.injEq, forall_eq']
    exact ModelBlock.exists_encode_of_size (by omega)

theorem safe_encode : Safe o.encode := by
  refine ScalarValue.safe_encode.bind fun _ _ => Safe.bind ?_ fun _ _ => safe_ok _
  unfold encodeModel
  split
  · exact ModelBlock.safe_encode
  · exact safe_ok _

end OptimizationValueBlock

/-! ## `BinaryResponse::new` -/

namespace BinaryResponse

variable {id : UInt32} {status : Status} {flags : UInt8} {payload : List UInt8}
  {r : BinaryResponse}

/-- The response `new` builds. -/
def mk' (id : UInt32) (status : Status) (flags : UInt8) (payload : List UInt8) : BinaryResponse :=
  ⟨⟨id, status, flags, UInt32.ofNat payload.length⟩, payload⟩

theorem validate_mk' (h : payload.length < 2 ^ 32) :
    (mk' id status flags payload).validate = (mk' id status flags payload).validateStatus := by
  have hl : (UInt32.ofNat payload.length).toNat = payload.length := by
    rw [UInt32.toNat_ofNat']
    exact Nat.mod_eq_of_lt h
  simp only [validate, mk', hl, ensure, if_true, ok_bind]

theorem new_eq_ok : new id status flags payload = ok r ↔
    validateResponseFlags flags = ok () ∧ payload.length < 2 ^ 32 ∧
      (mk' id status flags payload).validateStatus = ok () ∧ r = mk' id status flags payload := by
  simp only [new, bind_eq_ok, ensure_eq_ok, exists_const, pure_eq, Outcome.ok.injEq]
  constructor
  · rintro ⟨_, hf, hlt, _, hv, rfl⟩
    exact ⟨hf, hlt, (validate_mk' hlt).symm.trans hv, rfl⟩
  · rintro ⟨hf, hlt, hv, rfl⟩
    exact ⟨(), hf, hlt, (), (validate_mk' hlt).trans hv, rfl⟩

theorem safe_new : Safe (new id status flags payload) :=
  safe_ensure.bind fun _ _ => safe_ensure.bind fun _ _ => safe_validate.bind fun _ _ => safe_ok _

/-- What `new` builds can be sent, and is read back as it was. -/
theorem parse_of_new (h : new id status flags payload = ok r) :
    ∃ b, r.encode = ok b ∧ parse b = ok r := by
  obtain ⟨hf, hlt, hv, rfl⟩ := new_eq_ok.mp h
  have henc : (mk' id status flags payload).encode =
      ok ((mk' id status flags payload).envelope.bytes ++ payload) := by
    simp only [encode, ResponseEnvelope.encode, (validate_mk' hlt).trans hv, ok_bind,
      ResponseEnvelope.encodedLen_eq_ok.mpr rfl, pure_eq]
    rw [show (mk' id status flags payload).envelope.flags = flags from rfl, hf]
    rfl
  exact ⟨_, henc, parse_eq_ok_iff.mpr henc⟩

section Payloads

variable {b : List UInt8}

/-- How a `SAT` payload is read, by what its flags announce. -/
def readSat (b : List UInt8) : (hasValue hasModel : Bool) → Result Unit
  | false, false => ensure (b = []) (.invalid "sat response" "payload without flags")
  | false, true => do
    let _ ← ModelBlock.decode b
    pure ()
  | true, hasModel => do
    let _ ← OptimizationValueBlock.decode b hasModel
    pure ()

theorem validateSat_mk' (hasValue hasModel : Bool)
    (hall : flags &&& ~~~(ResponseFlags.hasModel ||| ResponseFlags.hasValue) = 0)
    (hv : decide (flags &&& ResponseFlags.hasValue ≠ 0) = hasValue)
    (hm : decide (flags &&& ResponseFlags.hasModel ≠ 0) = hasModel) :
    (mk' id .sat flags b).validateSat = readSat b hasValue hasModel := by
  subst hv hm
  simp only [validateSat, mk', hall]
  rfl

theorem validateSat_nothing : (mk' id .sat 0 []).validateSat = ok () := by
  rw [validateSat_mk' false false (by decide) (by decide) (by decide)]
  rfl

theorem validateSat_model {m : ModelBlock} (h : ModelBlock.decode b = ok m) :
    (mk' id .sat ResponseFlags.hasModel b).validateSat = ok () := by
  rw [validateSat_mk' false true (by decide) (by decide) (by decide)]
  simp only [readSat, h, ok_bind, pure_eq]

theorem validateSat_value {o : OptimizationValueBlock}
    (h : OptimizationValueBlock.decode b o.model.isSome = ok o) :
    (mk' id .sat (if o.model.isSome then ResponseFlags.hasValue ||| ResponseFlags.hasModel
      else ResponseFlags.hasValue) b).validateSat = ok () := by
  cases hm : o.model.isSome with
  | true =>
    rw [hm] at h
    rw [if_pos rfl, validateSat_mk' true true (by decide) (by decide) (by decide)]
    simp only [readSat, h, ok_bind, pure_eq]
  | false =>
    rw [hm] at h
    rw [if_neg (by simp), validateSat_mk' true false (by decide) (by decide) (by decide)]
    simp only [readSat, h, ok_bind, pure_eq]

theorem validateUnsat_core {c : UnsatCoreBlock} (h : UnsatCoreBlock.decode b = ok c) :
    (mk' id .unsat ResponseFlags.hasCore b).validateUnsat = ok () := by
  simp [validateUnsat, mk', ResponseFlags.hasCore, h]

theorem validateSimplified_expr {s : SimplifyBlock} (h : SimplifyBlock.decode b = ok s) :
    (mk' id .simplified ResponseFlags.hasExpr b).validateSimplified = ok () := by
  simp [validateSimplified, mk', ensure, ResponseFlags.hasExpr, h]

end Payloads

/-- Sending the encoding of a block under a status and flags that announce it. -/
theorem send_eq_ok {enc : Result (List UInt8)} (hf : validateResponseFlags flags = ok ())
    (hv : ∀ b, enc = ok b → (mk' id status flags b).validateStatus = ok ()) :
    (enc >>= new id status flags) = ok r ↔
      ∃ b, enc = ok b ∧ b.length < 2 ^ 32 ∧ r = mk' id status flags b := by
  rw [bind_eq_ok]
  refine exists_congr fun b => and_congr_right fun hb => ?_
  rw [new_eq_ok]
  constructor
  · rintro ⟨-, hlt, -, rfl⟩
    exact ⟨hlt, rfl⟩
  · rintro ⟨hlt, rfl⟩
    exact ⟨hf, hlt, hv b hb, rfl⟩

theorem error_eq_ok {message : String} : error id message = ok r ↔
    (utf8 message).length < 2 ^ 32 ∧
      r = mk' id .error ResponseFlags.hasMessage (utf8 message) := by
  have hv : (mk' id .error ResponseFlags.hasMessage (utf8 message)).validateStatus = ok () := by
    have hs : utf8? (utf8 message) = some message := utf8?_eq_some.mpr rfl
    simp [validateStatus, validateError, mk', ensure, hs, ofOption]
  rw [error, new_eq_ok]
  constructor
  · rintro ⟨-, hlt, -, rfl⟩
    exact ⟨hlt, rfl⟩
  · rintro ⟨hlt, rfl⟩
    exact ⟨by decide, hlt, hv, rfl⟩

end BinaryResponse
end Wire
end SmtServer
