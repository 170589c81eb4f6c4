import Rdbms.Index.Basic
import Rdbms.Lib.Text

/-!
# Rows

`Record::write` and `Record::read`, and the casts between a field's text and its bytes. A row is
stored as its fields one after the other, each in the bytes of its column's type.
-/

namespace Rdbms

/-- `float`: its values, the casts `std::stof` and `std::to_string`, and its four bytes. -/
class FloatType where
  Value : Type
  [key : KeyType Value]
  stof : Bytes → Except Exn Value
  toString : Value → Bytes
  bytes : Value → Bytes
  ofBytes : Bytes → Value
  length_bytes : ∀ v, (bytes v).length = 4
  ofBytes_bytes : ∀ v, ofBytes (bytes v) = v

attribute [reducible, instance] FloatType.key

/-- A `float` that no text casts to, for tables without `FLOAT` columns. -/
@[reducible] def noFloats : FloatType where
  Value := Unit
  key := { ofOffset := fun _ => () }
  stof _ := .error (.invalidArgument "stof")
  toString _ := ascii "0.000000"
  bytes _ := [0, 0, 0, 0]
  ofBytes _ := ()
  length_bytes _ := rfl
  ofBytes_bytes _ := rfl

namespace DbEngine

/-- `Type`, with the `size` its constructors give it. -/
inductive FieldType
  | bool
  | int
  | float
  | varchar (size : UInt16)
deriving DecidableEq, Repr

/-- `Type::size`. -/
def FieldType.size : FieldType → Nat
  | bool => 1
  | int => 4
  | float => 4
  | varchar size => size.toNat

/-- `Attribute`. -/
structure Attribute where
  name : Bytes
  value : Bytes
deriving DecidableEq

/-- `Record::Status`. -/
inductive Status
  | deleted
  | ok
deriving DecidableEq, Repr

/-- `Record`. -/
structure Record where
  status : Status := .ok
  fields : List Bytes := []
deriving DecidableEq

/-! ## Casts -/

/-- `std::toupper`. -/
def toUpper (c : UInt8) : UInt8 := if 97 ≤ c ∧ c ≤ 122 then c - 32 else c

/-- The `valid_strings` of `stob`. -/
def validStrings : List Bytes :=
  ["YES", "Y", "SI", "S", "V", "VERDADERO", "T", "TRUE"].map ascii

/-- `stob`. -/
def stob (str : Bytes) : Bool := validStrings.contains (str.map toUpper)

/-- `std::stoi`. -/
def stoi (str : Bytes) : Except Exn Int :=
  match Decimal.readInt str with
  | none => .error (.invalidArgument "stoi")
  | some z => if -2 ^ 31 ≤ z ∧ z < 2 ^ 31 then .ok z else .error (.outOfRange "stoi")

/-- `std::string::resize`. -/
def resize (str : Bytes) (size : Nat) (fill : UInt8) : Bytes :=
  str.take size ++ List.replicate (size - str.length) fill

/-- The text of a `bool` in `Record::read`. -/
def boolText (value : Bool) : Bytes := ascii (if value then "true" else "false")

variable [FloatType]

/-- A `case` of the `switch` in `Record::write`: the bytes of a field. -/
def FieldType.encode (type : FieldType) (field : Bytes) : Except Exn Bytes :=
  match type with
  | bool => .ok [if stob field then 1 else 0]
  | int => (stoi field).map fun z => LittleEndian.encode 4 (z % 2 ^ 32).toNat
  | float => (FloatType.stof field).map FloatType.bytes
  | varchar size => .ok (resize field size.toNat 32)

/-- A `case` of the `switch` in `Record::read`: the text of a field. -/
def FieldType.decode (type : FieldType) (buffer : Bytes) : Bytes :=
  match type with
  | bool => boolText (LittleEndian.decode buffer ≠ 0)
  | int => Decimal.printInt (toInt32 (LittleEndian.decode buffer))
  | float => FloatType.toString (FloatType.ofBytes buffer)
  | varchar _ => buffer

/-! ## Reading and writing -/

/-- The sum of the sizes, accumulated in a `uint8_t`. -/
def recordSize (types : List FieldType) : Nat :=
  types.foldl (fun sum type => (sum + type.size) % 256) 0

/-- The loop of `Record::write` from a field on: the rest of the buffer. -/
def writeFields (bufferSize : Nat) : Nat → List FieldType → List Bytes → Except Exn Bytes
  | _, [], _ => .ok []
  | pos, type :: types, fields =>
    if bufferSize < pos + type.size then .error (.runtimeError "Buffer overflow detected")
    else match fields with
      | [] => .error (.outOfRange "vector::_M_range_check")
      | field :: fields => do
        let bytes ← type.encode field
        let rest ← writeFields bufferSize (pos + type.size) types fields
        return bytes ++ rest

/-- The loop of `Record::read` from a field on. -/
def readFields : List FieldType → Bytes → List Bytes
  | [], _ => []
  | type :: types, buffer =>
    type.decode (buffer.take type.size) :: readFields types (buffer.drop type.size)

/-- `Record::write`: the buffer it hands to the stream. -/
def Record.write (record : Record) (types : List FieldType) : Except Exn Bytes :=
  writeFields (recordSize types) 0 types record.fields

/-- A stream that is read: the bytes from its position on, `none` once it has failed. -/
abbrev InStream := Option Bytes

/-- `Record::read`. A read that fails leaves the record as it was. -/
def Record.read (record : Record) (file : InStream) (types : List FieldType) :
    InStream × Record :=
  match file with
  | none => (none, record)
  | some bytes =>
    if bytes.length < recordSize types then (none, record)
    else (some (bytes.drop (recordSize types)),
      { record with fields := readFields types (bytes.take (recordSize types)) })

/-! ## The row codec -/

omit [FloatType] in
/-- `std::stoi` gives a number of 32 bits. -/
theorem stoi_eq_ok {str : Bytes} {z : Int} (h : stoi str = .ok z) : -2 ^ 31 ≤ z ∧ z < 2 ^ 31 := by
  unfold stoi at h
  cases hread : Decimal.readInt str with
  | none =>
    rw [hread] at h
    cases h
  | some z' =>
    simp only [hread] at h
    split_ifs at h with hz
    cases h
    exact hz

omit [FloatType] in
/-- The text of an `int` casts back. -/
theorem stoi_printInt {z : Int} (h1 : -2 ^ 31 ≤ z) (h2 : z < 2 ^ 31) :
    stoi (Decimal.printInt z) = .ok z := by
  simp only [stoi, Decimal.readInt_printInt, if_pos (And.intro h1 h2)]

omit [FloatType] in
/-- The four bytes of an `int` give it back. -/
theorem toInt32_encode {z : Int} (h1 : -2 ^ 31 ≤ z) (h2 : z < 2 ^ 31) :
    toInt32 (LittleEndian.decode (LittleEndian.encode 4 (z % 2 ^ 32).toNat)) = z := by
  rw [LittleEndian.decode_encode, toInt32]
  omega

omit [FloatType] in
/-- `resize` gives the length that it is asked for. -/
theorem length_resize (str : Bytes) (size : Nat) (fill : UInt8) :
    (resize str size fill).length = size := by
  rw [resize, List.length_append, List.length_take, List.length_replicate]
  omega

omit [FloatType] in
/-- A text of the right size stays as it is. -/
theorem resize_of_length {str : Bytes} {size : Nat} (h : str.length = size) (fill : UInt8) :
    resize str size fill = str := by
  rw [resize, ← h, List.take_length, Nat.sub_self, List.replicate_zero, List.append_nil]

omit [FloatType] in
/-- What is printed for a `BOOL` is read back. -/
theorem stob_boolText (value : Bool) : stob (boolText value) = value := by
  cases value <;> decide

/-- The bytes of a field have its size. -/
theorem FieldType.length_encode {type : FieldType} {field bytes : Bytes}
    (h : type.encode field = .ok bytes) : bytes.length = type.size := by
  cases type with
  | bool =>
    cases h
    rfl
  | int =>
    simp only [encode] at h
    cases hz : stoi field with
    | error e =>
      rw [hz] at h
      cases h
    | ok z =>
      rw [hz] at h
      cases h
      exact LittleEndian.length_encode 4 _
  | float =>
    simp only [encode] at h
    cases hv : FloatType.stof field with
    | error e =>
      rw [hv] at h
      cases h
    | ok v =>
      rw [hv] at h
      cases h
      exact FloatType.length_bytes v
  | varchar size =>
    cases h
    exact length_resize _ _ _

/-- What a stored field reads back as. A text that the column's cast rejects is not stored. -/
def FieldType.norm (type : FieldType) (field : Bytes) : Bytes :=
  match type with
  | bool => boolText (stob field)
  | int => match stoi field with
    | .ok z => Decimal.printInt z
    | .error _ => field
  | float => match FloatType.stof field with
    | .ok v => FloatType.toString v
    | .error _ => field
  | varchar size => resize field size.toNat 32

/-- The field that is read is the normal form of the one that is written. -/
theorem FieldType.decode_encode {type : FieldType} {field bytes : Bytes}
    (h : type.encode field = .ok bytes) : type.decode bytes = type.norm field := by
  cases type with
  | bool =>
    cases h
    show boolText (LittleEndian.decode [if stob field then 1 else 0] ≠ 0) = boolText (stob field)
    cases stob field <;> rfl
  | int =>
    simp only [encode] at h
    cases hz : stoi field with
    | error e =>
      rw [hz] at h
      cases h
    | ok z =>
      rw [hz] at h
      cases h
      obtain ⟨h1, h2⟩ := stoi_eq_ok hz
      simp only [decode, norm, hz, toInt32_encode h1 h2]
  | float =>
    simp only [encode] at h
    cases hv : FloatType.stof field with
    | error e =>
      rw [hv] at h
      cases h
    | ok v =>
      rw [hv] at h
      cases h
      simp only [decode, norm, hv, FloatType.ofBytes_bytes]
  | varchar size =>
    cases h
    rfl

/-- A field that has been read back is in its normal form. -/
theorem FieldType.norm_norm {type : FieldType} (htype : type ≠ .float) (field : Bytes) :
    type.norm (type.norm field) = type.norm field := by
  cases type with
  | bool =>
    simp only [norm]
    rw [stob_boolText]
  | int =>
    simp only [norm]
    cases hz : stoi field with
    | error e => simp only [hz]
    | ok z =>
      obtain ⟨h1, h2⟩ := stoi_eq_ok hz
      simp only [stoi_printInt h1 h2]
  | float => exact absurd rfl htype
  | varchar size => exact resize_of_length (length_resize _ _ _) _

end DbEngine

end Rdbms
