import Mathlib.Data.List.Basic
import Mathlib.Algebra.BigOperators.Group.List.Basic
import Mathlib.Algebra.Ring.Nat

/-!
# Fixed-width rows and blocks

A `FieldCodec` stores a field in a number of symbols that its column fixes. A row is stored as its
fields one after the other, and a file of rows as blocks of one length, so that the block at a
position is found by counting.
-/

namespace Rdbms

/-- How the fields of a column are stored. `norm` is what a stored field reads back as. -/
structure FieldCodec (ι α β ε : Type) where
  width : ι → Nat
  encode : ι → α → Except ε (List β)
  decode : ι → List β → α
  norm : ι → α → α
  length_encode : ∀ {c x bs}, encode c x = .ok bs → bs.length = width c
  decode_encode : ∀ {c x bs}, encode c x = .ok bs → decode c bs = norm c x

namespace FieldCodec
variable {ι α β ε : Type} (C : FieldCodec ι α β ε) {cs : List ι} {xs : List α} {bs : List β}

/-- The symbols of a row. -/
def rowWidth (cs : List ι) : Nat := (cs.map C.width).sum

/-- The fields that a row of symbols holds. -/
def decodeRow : List ι → List β → List α
  | [], _ => []
  | c :: cs, bs => C.decode c (bs.take (C.width c)) :: decodeRow cs (bs.drop (C.width c))

/-- What a row reads back as: a field for each column. -/
def normRow (cs : List ι) (xs : List α) : List α := List.zipWith C.norm cs xs

/-- A row is stored as the symbols of its fields. Fields beyond the columns are left out. -/
inductive Encodes : List ι → List α → List β → Prop
  | nil {xs : List α} : Encodes [] xs []
  | cons {c : ι} {x : α} {cs : List ι} {xs : List α} {b bs : List β} : C.encode c x = .ok b →
      Encodes cs xs bs → Encodes (c :: cs) (x :: xs) (b ++ bs)

/-- A row has a field that its column takes, for each column. -/
inductive Accepts : List ι → List α → Prop
  | nil {xs : List α} : Accepts [] xs
  | cons {c : ι} {x : α} {cs : List ι} {xs : List α} : (∃ b, C.encode c x = .ok b) →
      Accepts cs xs → Accepts (c :: cs) (x :: xs)

variable {C}

/-- The width of a row is that of its first field and the others. -/
theorem rowWidth_cons (c : ι) (cs : List ι) :
    C.rowWidth (c :: cs) = C.width c + C.rowWidth cs := rfl

/-- A row has a field for each column. -/
theorem length_decodeRow (cs : List ι) (bs : List β) : (C.decodeRow cs bs).length = cs.length := by
  induction cs generalizing bs with
  | nil => rfl
  | cons c cs ih => rw [decodeRow, List.length_cons, List.length_cons, ih]

/-- A row has as many symbols as its columns ask for. -/
theorem Encodes.length (h : C.Encodes cs xs bs) : bs.length = C.rowWidth cs := by
  induction h with
  | nil => rfl
  | cons hb _ ih => rw [List.length_append, C.length_encode hb, ih, rowWidth_cons]

/-- The symbols of a row read back as the row's normal form, whatever follows them. -/
theorem Encodes.decodeRow (h : C.Encodes cs xs bs) (rest : List β) :
    C.decodeRow cs (bs ++ rest) = C.normRow cs xs := by
  induction h with
  | nil => rfl
  | cons hb _ ih =>
    have hlen := C.length_encode hb
    rw [FieldCodec.decodeRow, List.append_assoc, ← hlen, List.take_left, List.drop_left, ih,
      C.decode_encode hb]
    rfl

/-- A row that is accepted has bytes. -/
theorem Accepts.encodes (h : C.Accepts cs xs) : ∃ bs, C.Encodes cs xs bs := by
  induction h with
  | nil => exact ⟨[], .nil⟩
  | cons hb _ ih =>
    obtain ⟨b, hb⟩ := hb
    obtain ⟨bs, h⟩ := ih
    exact ⟨b ++ bs, .cons hb h⟩

/-- A row that has bytes is accepted. -/
theorem Encodes.accepts (h : C.Encodes cs xs bs) : C.Accepts cs xs := by
  induction h with
  | nil => exact .nil
  | cons hb _ ih => exact .cons ⟨_, hb⟩ ih

/-- A row reads back as a field for each column. -/
theorem Accepts.length_normRow (h : C.Accepts cs xs) : (C.normRow cs xs).length = cs.length := by
  induction h with
  | nil => rfl
  | cons _ _ ih => exact congrArg Nat.succ ih

/-- Each column takes the field that is there for it. -/
theorem Accepts.getElem? (h : C.Accepts cs xs) {i : Nat} {c : ι} (hc : cs[i]? = some c) :
    ∃ x b, xs[i]? = some x ∧ C.encode c x = .ok b := by
  induction h generalizing i with
  | nil => cases hc
  | @cons c' x cs xs hb _ ih =>
    cases i with
    | zero =>
      cases hc
      obtain ⟨b, hb⟩ := hb
      exact ⟨x, b, rfl, hb⟩
    | succ i => exact ih hc

/-- Rows are normalised once. -/
theorem normRow_normRow (hnorm : ∀ c ∈ cs, ∀ x, C.norm c (C.norm c x) = C.norm c x)
    (xs : List α) : C.normRow cs (C.normRow cs xs) = C.normRow cs xs := by
  induction cs generalizing xs with
  | nil => rfl
  | cons c cs ih =>
    cases xs with
    | nil => rfl
    | cons x xs =>
      have hrest := ih (fun c' hc' => hnorm c' (.tail c hc')) xs
      simp only [normRow, List.zipWith_cons_cons] at hrest ⊢
      rw [hnorm c (.head cs) x, hrest]

end FieldCodec

/-! ## Blocks -/

section
variable {β : Type} {w : Nat} {blocks : List (List β)}

/-- The length of blocks of one width. -/
theorem length_flatten_of_block (hw : ∀ b ∈ blocks, b.length = w) :
    blocks.flatten.length = blocks.length * w := by
  induction blocks with
  | nil => exact (Nat.zero_mul w).symm
  | cons b blocks ih =>
    rw [List.flatten_cons, List.length_append, hw b (.head blocks),
      ih fun b' hb' => hw b' (.tail b hb'), List.length_cons, Nat.succ_mul, Nat.add_comm]

/-- Going past `i` blocks. -/
theorem drop_flatten_of_block (hw : ∀ b ∈ blocks, b.length = w) (i : Nat) :
    blocks.flatten.drop (i * w) = (blocks.drop i).flatten := by
  induction i generalizing blocks with
  | zero => rw [Nat.zero_mul, List.drop_zero, List.drop_zero]
  | succ i ih =>
    cases blocks with
    | nil => rw [List.flatten_nil, List.drop_nil, List.drop_nil, List.flatten_nil]
    | cons b blocks =>
      have hb : b.length = w := hw b (.head blocks)
      have hi : (i + 1) * w = b.length + i * w := by rw [hb, Nat.succ_mul, Nat.add_comm]
      rw [hi, List.flatten_cons, ← List.drop_drop, List.drop_left, List.drop_succ_cons]
      exact ih fun b' hb' => hw b' (.tail b hb')

/-- What stands at the position of block `i`. -/
theorem drop_flatten_eq_append (hw : ∀ b ∈ blocks, b.length = w) {i : Nat}
    (hi : i < blocks.length) :
    blocks.flatten.drop (i * w) = blocks[i] ++ (blocks.drop (i + 1)).flatten := by
  rw [drop_flatten_of_block hw, List.drop_eq_getElem_cons hi, List.flatten_cons]

end

end Rdbms
