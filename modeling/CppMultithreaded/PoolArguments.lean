/-
**The arguments of a task of hw-6, with their types.**

`Submit` appends the bytes of the function pointer and of the arguments to a payload, one after the
other; `ExecuteTyped` reads objects of the same types from it, with one running offset, and applies the
function if nothing is left.  The braces of the tuple fix the order of the reads.  Elsewhere in the pool
an argument is the list of its bytes; here it is a value of a trivially copyable type.

Main definitions:

* `ProcessPool.TriviallyCopyable`, `ProcessPool.Args` — a type that is copied byte by byte, and the
  values of a list of such types;
* `ProcessPool.appendBytes`, `ProcessPool.submitPayload` — what `Submit` puts together;
* `ProcessPool.readAs`, `ProcessPool.readArgs`, `ProcessPool.executeTypedAs` — what `ExecuteTyped` does.

Main results:

* `ProcessPool.readArgs_appendArgs` — the arguments are read as they were appended;
* `ProcessPool.readArgs_cases` — the reads succeed exactly when there are enough bytes;
* `ProcessPool.submitPayload_eq`, `ProcessPool.executeTypedAs_eq` — without the types this is the payload
  of `Job.payload`, and the decoding of `readCall`;
* `ProcessPool.arguments_round_trip` — **the function is applied once to its arguments**, and to nothing
  for a payload of any other length.
-/

import Mathlib.Data.Prod.TProd
import CppMultithreaded.PoolMessage

set_option relaxedAutoImplicit false
set_option autoImplicit false

namespace ProcessPool

open ByteString (encode decode)

/-! ### Types -/

/-- A trivially copyable type: a value is copied as its `size` bytes. -/
structure TriviallyCopyable where
  carrier : Type
  size : ℕ
  bytes : carrier → List UInt8
  /-- The value that the bytes represent. -/
  ofBytes : List UInt8 → carrier
  length_bytes : ∀ v, (bytes v).length = size
  ofBytes_bytes : ∀ v, ofBytes (bytes v) = v

/-- The values of a list of types. -/
abbrev Args (ts : List TriviallyCopyable) : Type := List.TProd TriviallyCopyable.carrier ts

/-- The sizes of a list of types together. -/
def sizeSum (ts : List TriviallyCopyable) : ℕ := (ts.map TriviallyCopyable.size).sum

/-! ### Appending -/

/-- `AppendBytes`. -/
def appendBytes (t : TriviallyCopyable) (buffer : List UInt8) (value : t.carrier) : List UInt8 :=
  buffer ++ t.bytes value

/-- The arguments are appended one after the other. -/
def appendArgs : (ts : List TriviallyCopyable) → List UInt8 → Args ts → List UInt8
  | [], buffer, _ => buffer
  | t :: ts, buffer, (value, values) => appendArgs ts (appendBytes t buffer value) values

/-- The payload that `Submit` puts together. -/
def submitPayload (Fn : TriviallyCopyable) (ts : List TriviallyCopyable) (fn : Fn.carrier)
    (args : Args ts) : List UInt8 :=
  appendArgs ts (appendBytes Fn [] fn) args

/-- The bytes of the arguments. -/
def argBytes : (ts : List TriviallyCopyable) → Args ts → List (List UInt8)
  | [], _ => []
  | t :: ts, (value, values) => t.bytes value :: argBytes ts values

theorem appendArgs_eq (ts : List TriviallyCopyable) (buffer : List UInt8) (args : Args ts) :
    appendArgs ts buffer args = buffer ++ (argBytes ts args).flatten := by
  induction ts generalizing buffer with
  | nil => simp [appendArgs, argBytes]
  | cons t ts ih =>
      obtain ⟨value, values⟩ := args
      rw [appendArgs, ih, appendBytes, argBytes, List.flatten_cons, List.append_assoc]

theorem length_argBytes (ts : List TriviallyCopyable) (args : Args ts) :
    (argBytes ts args).map List.length = ts.map TriviallyCopyable.size := by
  induction ts with
  | nil => rfl
  | cons t ts ih =>
      obtain ⟨value, values⟩ := args
      rw [argBytes, List.map_cons, List.map_cons, ih, t.length_bytes]

/-! ### Reading -/

/-- `ReadValue`, for a type. -/
def readAs (t : TriviallyCopyable) (data : List UInt8) (offset : ℕ) :
    Except String (t.carrier × ℕ) :=
  (readValue t.size data offset).map fun (value, offset) => (t.ofBytes value, offset)

/-- The arguments are read one after the other, each from where the one before it ends. -/
def readArgs (data : List UInt8) : (ts : List TriviallyCopyable) → ℕ → Except String (Args ts × ℕ)
  | [], offset => .ok (PUnit.unit, offset)
  | t :: ts, offset =>
      (readAs t data offset).bind fun (value, offset) =>
        (readArgs data ts offset).map fun (values, offset) => ((value, values), offset)

/-- The function and the arguments that a payload holds. -/
def readCallAs (Fn : TriviallyCopyable) (ts : List TriviallyCopyable) (data : List UInt8) :
    Except String (Fn.carrier × Args ts) :=
  (readAs Fn data 0).bind fun (fn, offset) =>
    (readArgs data ts offset).bind fun (args, offset) =>
      if offset ≠ data.length then .error "payload has unexpected tail bytes" else .ok (fn, args)

/-- What `ExecuteTyped` leaves behind: the applications it has made, the output, and the text of the
exception. -/
structure Applied (Fn : TriviallyCopyable) (ts : List TriviallyCopyable) where
  calls : List (Fn.carrier × Args ts)
  output : List UInt8
  error : List UInt8

/-- `ExecuteTyped`, where `apply` says how an application ends. -/
def executeTypedAs (Fn : TriviallyCopyable) (ts : List TriviallyCopyable)
    (apply : Fn.carrier → Args ts → Outcome) (data : List UInt8) : Applied Fn ts :=
  match readCallAs Fn ts data with
  | .error what => ⟨[], [], text what⟩
  | .ok (fn, args) => ⟨[(fn, args)], (apply fn args).output, (apply fn args).error⟩

/-! ### Reading without the types -/

/-- The arguments that lists of bytes represent. -/
def ofArgs : (ts : List TriviallyCopyable) → List (List UInt8) → Args ts
  | [], _ => PUnit.unit
  | t :: ts, values => (t.ofBytes (values.headD []), ofArgs ts values.tail)

theorem ofArgs_argBytes (ts : List TriviallyCopyable) (args : Args ts) :
    ofArgs ts (argBytes ts args) = args := by
  induction ts with
  | nil => rfl
  | cons t ts ih =>
      obtain ⟨value, values⟩ := args
      rw [argBytes, ofArgs, List.headD_cons, List.tail_cons, ih, t.ofBytes_bytes]

/-- The types do not matter for where the objects are. -/
theorem readArgs_eq (data : List UInt8) (ts : List TriviallyCopyable) (offset : ℕ) :
    readArgs data ts offset =
      (readValues data (ts.map TriviallyCopyable.size) offset).map
        fun (values, offset) => (ofArgs ts values, offset) := by
  induction ts generalizing offset with
  | nil => rfl
  | cons t ts ih =>
      rw [readArgs, readAs, List.map_cons, readValues]
      cases hvalue : readValue t.size data offset with
      | error what => rfl
      | ok p =>
          simp only [Except.map, Except.bind, ih]
          cases readValues data (ts.map TriviallyCopyable.size) p.2 <;> rfl

/-- Without types the reads succeed exactly when there are enough bytes. -/
theorem readValues_cases {data : List UInt8} (sizes : List ℕ) {offset : ℕ}
    (h : offset ≤ data.length) :
    (offset + sizes.sum ≤ data.length ∧
      ∃ values, readValues data sizes offset = .ok (values, offset + sizes.sum)) ∨
    data.length < offset + sizes.sum ∧
      readValues data sizes offset = .error "invalid serialized payload" := by
  induction sizes generalizing offset with
  | nil => exact Or.inl ⟨h, [], rfl⟩
  | cons size sizes ih =>
      rw [List.sum_cons, readValues, readValue]
      by_cases hsize : offset + size > data.length
      · rw [if_pos hsize]
        exact Or.inr ⟨by omega, rfl⟩
      rw [if_neg hsize]
      rcases ih (not_lt.1 hsize) with ⟨hle, values, hvalues⟩ | ⟨hlt, hvalues⟩
      · refine Or.inl ⟨by omega, (data.drop offset).take size :: values, ?_⟩
        simp only [Except.bind, hvalues, Except.map, Nat.add_assoc]
      · refine Or.inr ⟨by omega, ?_⟩
        simp only [Except.bind, hvalues, Except.map]

/-- **The reads succeed exactly when there are enough bytes.** -/
theorem readArgs_cases {data : List UInt8} (ts : List TriviallyCopyable) {offset : ℕ}
    (h : offset ≤ data.length) :
    (offset + sizeSum ts ≤ data.length ∧
      ∃ args, readArgs data ts offset = .ok (args, offset + sizeSum ts)) ∨
    data.length < offset + sizeSum ts ∧
      readArgs data ts offset = .error "invalid serialized payload" := by
  rw [readArgs_eq]
  rcases readValues_cases (ts.map TriviallyCopyable.size) h with
    ⟨hle, values, hvalues⟩ | ⟨hlt, hvalues⟩
  · rw [hvalues]
    exact Or.inl ⟨hle, ofArgs ts values, rfl⟩
  · rw [hvalues]
    exact Or.inr ⟨hlt, rfl⟩

/-- The arguments are read as they were appended. -/
theorem readArgs_appendArgs (ts : List TriviallyCopyable) (before : List UInt8) (args : Args ts) :
    readArgs (appendArgs ts before args) ts before.length =
      .ok (args, (appendArgs ts before args).length) := by
  have hread := readValues_flatten before (argBytes ts args)
  rw [length_argBytes] at hread
  rw [readArgs_eq, appendArgs_eq, hread]
  simp only [Except.map, ofArgs_argBytes]

/-! ### Executing -/

variable {Fn : TriviallyCopyable} {ts : List TriviallyCopyable}

/-- What `Submit` has put together is taken apart again, and nothing is left over. -/
theorem readCallAs_submitPayload (fn : Fn.carrier) (args : Args ts) :
    readCallAs Fn ts (submitPayload Fn ts fn args) = .ok (fn, args) := by
  have hfn := readValue_append [] (Fn.bytes fn) (argBytes ts args).flatten
  have hargs := readArgs_appendArgs ts (Fn.bytes fn) args
  rw [Fn.length_bytes] at hfn hargs
  rw [appendArgs_eq] at hargs
  rw [readCallAs, submitPayload, appendArgs_eq, appendBytes, List.nil_append, readAs]
  simp only [List.nil_append, List.length_nil, Nat.zero_add] at hfn
  simp only [hfn, Except.map, Except.bind, hargs, Fn.ofBytes_bytes]
  rw [if_neg (not_not.2 rfl)]

/-- **A payload is taken apart exactly when its length is right.** -/
theorem readCallAs_cases (Fn : TriviallyCopyable) (ts : List TriviallyCopyable) (data : List UInt8) :
    (data.length = Fn.size + sizeSum ts ∧ ∃ call, readCallAs Fn ts data = .ok call) ∨
    data.length ≠ Fn.size + sizeSum ts ∧ ∃ what, readCallAs Fn ts data = .error what ∧
      text what ≠ [] := by
  rw [readCallAs, readAs, readValue, Nat.zero_add]
  by_cases hfn : Fn.size > data.length
  · rw [if_pos hfn]
    exact Or.inr ⟨by omega, _, rfl, by decide⟩
  rw [if_neg hfn]
  simp only [Except.map, Except.bind]
  rcases readArgs_cases ts (not_lt.1 hfn) with ⟨hle, args, hargs⟩ | ⟨hlt, hargs⟩
  · rw [hargs]
    by_cases hend : Fn.size + sizeSum ts = data.length
    · simp only [if_neg (not_not.2 hend)]
      exact Or.inl ⟨hend.symm, _, rfl⟩
    · simp only [if_pos hend]
      exact Or.inr ⟨Ne.symm hend, _, rfl, by decide⟩
  · rw [hargs]
    exact Or.inr ⟨by omega, _, rfl, by decide⟩

/-- **Serialising arguments.**  The payload of a call makes its function be applied once, to its
arguments; a function is applied exactly for the payloads of the right length; and all others make an
error, and nothing else. -/
structure Serialises (Fn : TriviallyCopyable) (ts : List TriviallyCopyable)
    (apply : Fn.carrier → Args ts → Outcome) : Prop where
  roundTrip : ∀ fn args, executeTypedAs Fn ts apply (submitPayload Fn ts fn args) =
    ⟨[(fn, args)], (apply fn args).output, (apply fn args).error⟩
  applies_iff : ∀ data, (∃ call, (executeTypedAs Fn ts apply data).calls = [call]) ↔
    data.length = Fn.size + sizeSum ts
  rejects : ∀ data, data.length ≠ Fn.size + sizeSum ts →
    (executeTypedAs Fn ts apply data).calls = [] ∧ (executeTypedAs Fn ts apply data).output = [] ∧
      (executeTypedAs Fn ts apply data).error ≠ []

theorem arguments_round_trip (Fn : TriviallyCopyable) (ts : List TriviallyCopyable)
    (apply : Fn.carrier → Args ts → Outcome) : Serialises Fn ts apply := by
  refine ⟨?_, ?_, ?_⟩
  · intro fn args
    rw [executeTypedAs, readCallAs_submitPayload]
  · intro data
    rcases readCallAs_cases Fn ts data with ⟨heq, call, hcall⟩ | ⟨hne, what, hwhat, -⟩
    · rw [executeTypedAs, hcall]
      exact iff_of_true ⟨call, rfl⟩ heq
    · rw [executeTypedAs, hwhat]
      refine iff_of_false ?_ hne
      rintro ⟨call, hcalls⟩
      simp at hcalls
  · intro data hne
    rcases readCallAs_cases Fn ts data with ⟨heq, -⟩ | ⟨-, what, hwhat, htext⟩
    · exact absurd heq hne
    · rw [executeTypedAs, hwhat]
      exact ⟨rfl, rfl, htext⟩

/-! ### Without the types -/

/-- The type of a pointer to a function. -/
def functionPointer : TriviallyCopyable where
  carrier := UInt64
  size := 8
  bytes fn := encode 8 fn.toNat
  ofBytes bytes := UInt64.ofNat (decode bytes)
  length_bytes fn := ByteString.length_encode 8 fn.toNat
  ofBytes_bytes fn := by
    have hlt := fn.toNat_lt
    rw [ByteString.decode_encode (show fn.toNat < 256 ^ 8 by omega), UInt64.ofNat_toNat]

/-- The payload of a job is what `Submit` puts together. -/
theorem submitPayload_eq (ts : List TriviallyCopyable) (fn : UInt64) (args : Args ts) :
    submitPayload functionPointer ts fn args = encode 8 fn.toNat ++ (argBytes ts args).flatten :=
  appendArgs_eq ts (encode 8 fn.toNat) args

/-- What is executed is what `executeTyped` executes on the bytes. -/
theorem executeTypedAs_eq (ts : List TriviallyCopyable) (apply : UInt64 → Args ts → Outcome)
    (data : List UInt8) :
    executeTypedAs functionPointer ts apply data =
      match readCall (ts.map TriviallyCopyable.size) data with
      | .error what => ⟨[], [], text what⟩
      | .ok (fn, args) =>
          ⟨[(UInt64.ofNat fn, ofArgs ts args)], (apply (UInt64.ofNat fn) (ofArgs ts args)).output,
            (apply (UInt64.ofNat fn) (ofArgs ts args)).error⟩ := by
  have hcall : readCallAs functionPointer ts data =
      (readCall (ts.map TriviallyCopyable.size) data).map
        fun (fn, args) => (UInt64.ofNat fn, ofArgs ts args) := by
    rw [readCallAs, readCall, readAs, show functionPointer.size = 8 from rfl]
    cases hfn : readValue 8 data 0 with
    | error what => rfl
    | ok p =>
        simp only [Except.map, Except.bind, readArgs_eq]
        cases hargs : readValues data (ts.map TriviallyCopyable.size) p.2 with
        | error what => rfl
        | ok q =>
            simp only
            split_ifs <;> rfl
  unfold executeTypedAs
  rw [hcall]
  cases readCall (ts.map TriviallyCopyable.size) data <;> rfl

end ProcessPool
