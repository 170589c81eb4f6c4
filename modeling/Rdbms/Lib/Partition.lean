import Mathlib.Data.List.Range
import Mathlib.Logic.Function.Basic
import Rdbms.Lib.Multimap

/-!
# Multimaps in buckets between separators

`n` buckets of entries with a separator between each two of them: the keys of a bucket lie between
the separators around it, both included, so that a key may stand in several neighbouring buckets.
The bucket that a key is routed to lies behind the separators up to the key, and it has every key
that occurs and is routed there. A lookup needs that bucket only. A range query starts at the bucket
behind the separators below the range, and the first bucket with a key above the range is the last
it needs.

A change of one key leaves the entries of the other keys and their order (`SameBut`).
-/

namespace Rdbms

/-- Buckets of entries with separators in between. -/
structure Partition (κ ν : Type*) [LinearOrder κ] (n : Nat) where
  sep : Nat → κ
  bucket : Nat → List (Entry κ ν)
  sep_mono : ∀ i j, i ≤ j → j + 1 < n → sep i ≤ sep j
  lower : ∀ q < n, ∀ e ∈ bucket q, ∀ i < q, sep i ≤ e.key
  upper : ∀ q < n, ∀ e ∈ bucket q, ∀ i, q ≤ i → i + 1 < n → e.key ≤ sep i
  routed : ∀ q < n, ∀ e ∈ bucket q, ∀ r < n, (∀ i < r, sep i ≤ e.key) →
    (∀ i, r ≤ i → i + 1 < n → ¬ sep i ≤ e.key) → ∃ e' ∈ bucket r, e'.key = e.key

/-- The values of the entries with a key from `b` to `e`. -/
def hits {κ ν : Type*} [LinearOrder κ] (b e : κ) (entries : List (Entry κ ν)) : List ν :=
  (entries.filter fun x => b ≤ x.key ∧ x.key ≤ e).flatMap (·.values)

/-! ## A change of one key -/

/-- From `x` to `y` only entries of the key `k` have come, gone or changed. -/
def SameBut {κ ν : Type*} (k : κ) (x y : List (Entry κ ν)) : Prop :=
  ∀ p : Entry κ ν → Bool, (∀ e, p e = true → e.key ≠ k) → y.filter p = x.filter p

namespace SameBut
variable {κ ν : Type*} {k : κ} {x y z x' y' : List (Entry κ ν)}

/-- A list differs from itself under no key. -/
theorem refl (k : κ) (x : List (Entry κ ν)) : SameBut k x x := fun _ _ => rfl

/-- Lists that agree but for a key agree so when they are joined. -/
theorem append (h : SameBut k x y) (h' : SameBut k x' y') : SameBut k (x ++ x') (y ++ y') := by
  intro p hp
  rw [List.filter_append, List.filter_append, h p hp, h' p hp]

/-- Lists of entries of one key agree but for that key. -/
theorem of_forall (hx : ∀ e ∈ x, e.key = k) (hy : ∀ e ∈ y, e.key = k) : SameBut k x y := by
  intro p hp
  rw [List.filter_eq_nil_iff.2 fun e he hpe => hp e hpe (hx e he),
    List.filter_eq_nil_iff.2 fun e he hpe => hp e hpe (hy e he)]

/-- Entries of the key in the middle of a list. -/
theorem middle (l1 l2 : List (Entry κ ν)) (hx : ∀ e ∈ x, e.key = k) (hy : ∀ e ∈ y, e.key = k) :
    SameBut k (l1 ++ (x ++ l2)) (l1 ++ (y ++ l2)) :=
  (refl k l1).append ((of_forall hx hy).append (refl k l2))

/-- No entry of another key has come. -/
theorem mem [DecidableEq κ] (h : SameBut k x y) {e : Entry κ ν} (he : e ∈ y) : e.key = k ∨ e ∈ x := by
  by_cases hk : e.key = k
  · exact .inl hk
  · have hfilter := h (fun a => decide (a.key ≠ k)) fun a ha => of_decide_eq_true ha
    have hmem : e ∈ y.filter fun a => decide (a.key ≠ k) :=
      List.mem_filter.2 ⟨he, decide_eq_true hk⟩
    rw [hfilter] at hmem
    exact .inr (List.mem_of_mem_filter hmem)

/-- The first entry of another key is the same. -/
theorem find? [DecidableEq κ] (h : SameBut k x y) {j : κ} (hj : j ≠ k) :
    y.find? (·.key = j) = x.find? (·.key = j) := by
  rw [← List.head?_filter, ← List.head?_filter, h]
  intro e he
  rwa [of_decide_eq_true he]

/-- All entries of the key have gone. -/
theorem eq_filter [DecidableEq κ] (h : SameBut k x y) (hno : ∀ e ∈ y, e.key ≠ k) :
    y = x.filter (·.key ≠ k) := by
  rw [← h _ fun e he => of_decide_eq_true he]
  exact (List.filter_eq_self.2 fun e he => decide_eq_true (hno e he)).symm

end SameBut

namespace Partition
variable {κ ν : Type*} [LinearOrder κ] {n q r : Nat} {P : Partition κ ν n} {b e k l : κ} {v : ν}

/-- The bucket behind the separators that satisfy `past`. -/
structure Route (P : Partition κ ν n) (past : κ → Prop) (q : Nat) : Prop where
  lt : q < n
  before : ∀ i < q, past (P.sep i)
  behind : ∀ i, q ≤ i → i + 1 < n → ¬ past (P.sep i)

/-- All entries of the buckets from `q` on. -/
def entriesFrom (P : Partition κ ν n) (q : Nat) : List (Entry κ ν) :=
  (List.range' q (n - q)).flatMap P.bucket

/-- Everything the buckets hold. -/
def pairs (P : Partition κ ν n) : List (κ × ν) := (P.entriesFrom 0).flatMap (·.pairs)

/-- The entries from a bucket on are those of the later buckets. -/
theorem mem_entriesFrom {x : Entry κ ν} : x ∈ P.entriesFrom q ↔ ∃ r, q ≤ r ∧ r < n ∧ x ∈ P.bucket r := by
  simp only [entriesFrom, List.mem_flatMap, List.mem_range'_1]
  exact exists_congr fun r => ⟨fun ⟨h, hx⟩ => ⟨h.1, by omega, hx⟩, fun ⟨h1, h2, hx⟩ => ⟨by omega, hx⟩⟩

/-- A bucket in front of the entries of the later ones. -/
theorem entriesFrom_of_lt (h : q < n) : P.entriesFrom q = P.bucket q ++ P.entriesFrom (q + 1) := by
  rw [entriesFrom, entriesFrom, show n - q = (n - (q + 1)) + 1 by omega, List.range'_succ,
    List.flatMap_cons]

/-! ## Lookup -/

/-- A key that occurs is in the bucket it is routed to. -/
theorem exists_of_route (hr : P.Route (· ≤ k) r) (hk : ∃ x ∈ P.entriesFrom 0, x.key = k) :
    ∃ x ∈ P.bucket r, x.key = k := by
  obtain ⟨x, hx, rfl⟩ := hk
  obtain ⟨q, -, hq, hx⟩ := mem_entriesFrom.1 hx
  exact P.routed q hq x hx r hr.lt hr.before hr.behind

/-- Where no key has two values, a key is in one bucket. -/
theorem eq_of_nodup {x y : Entry κ ν} (h : (P.pairs.map (·.1)).Nodup) (hq : q < n) (hr : r < n)
    (hx : x ∈ P.bucket q) (hy : y ∈ P.bucket r) (hk : y.key = x.key) : q = r := by
  by_contra hne
  let keys (p : Nat) : List κ := ((P.bucket p).flatMap (·.pairs)).map (·.1)
  have hmem {p : Nat} {e : Entry κ ν} (he : e ∈ P.bucket p) : e.key ∈ keys p :=
    List.mem_map.2 ⟨(_, _), List.mem_flatMap.2 ⟨e, he, Entry.mem_pairs.2 ⟨rfl, .head _⟩⟩, rfl⟩
  rw [pairs, entriesFrom, Nat.sub_zero, List.flatMap_assoc, List.map_flatMap, List.nodup_flatMap] at h
  have hsymm : Std.Symm (Function.onFun List.Disjoint keys) := ⟨fun _ _ h => List.disjoint_symm h⟩
  have hdisjoint : List.Disjoint (keys q) (keys r) := h.2.forall
    (List.mem_range'_1.2 ⟨q.zero_le, by omega⟩) (List.mem_range'_1.2 ⟨r.zero_le, by omega⟩) hne
  exact hdisjoint (hmem hx) (hk ▸ hmem hy)

/-- Where no key has two values, a key is in the bucket it is routed to. -/
theorem Route.of_nodup {x : Entry κ ν} (h : (P.pairs.map (·.1)).Nodup) (hr : P.Route (· ≤ x.key) r)
    (hq : q < n) (hx : x ∈ P.bucket q) : P.Route (· ≤ x.key) q := by
  obtain ⟨y, hy, hk⟩ := P.routed q hq x hx r hr.lt hr.before hr.behind
  rwa [eq_of_nodup h hq hr.lt hx hy hk]

/-! ## Ranges -/

/-- No entries, no hits. -/
@[simp] theorem hits_nil : hits b e ([] : List (Entry κ ν)) = [] := rfl

/-- The hits of two parts of the entries. -/
theorem hits_append {x y : List (Entry κ ν)} : hits b e (x ++ y) = hits b e x ++ hits b e y := by
  simp [hits]

/-- Entries outside of the range are not hit. -/
theorem hits_eq_nil {x : List (Entry κ ν)} (h : ∀ a ∈ x, ¬ (b ≤ a.key ∧ a.key ≤ e)) :
    hits b e x = [] := by
  rw [hits, List.filter_eq_nil_iff.2 (by simpa using h)]
  rfl

/-- Nothing in front of the bucket where a range starts belongs to the range. -/
theorem hits_from_route (hq : P.Route (· < b) q) : ∀ r ≤ q,
    hits b e (P.entriesFrom r) = hits b e (P.entriesFrom q) := by
  intro r hr
  induction hd : q - r generalizing r with
  | zero => rw [show r = q by omega]
  | succ d ih =>
    have hlt := hq.lt
    rw [entriesFrom_of_lt (by omega), hits_append, hits_eq_nil, List.nil_append]
    · exact ih (r + 1) (by omega) (by omega)
    · rintro a ha ⟨hb, -⟩
      have h1 := P.upper r (by omega) a ha r le_rfl (by omega)
      exact absurd hb (h1.trans_lt (hq.before r (by omega))).not_ge

/-- Nothing behind a bucket that has a key above a range belongs to the range. -/
theorem hits_eq_nil_of_above {x : Entry κ ν} (hq : q < n) (hx : x ∈ P.bucket q) (he : e < x.key) :
    hits b e (P.entriesFrom (q + 1)) = [] := by
  refine hits_eq_nil fun a ha => ?_
  obtain ⟨r, hqr, hr, ha⟩ := mem_entriesFrom.1 ha
  have h1 := P.upper q hq x hx q le_rfl (by omega)
  have h2 := P.lower r hr a ha q (by omega)
  exact fun h => absurd h.2 (he.trans_le (h1.trans h2)).not_ge

/-- What a range holds, as pairs. -/
theorem hits_eq_pairs {x : List (Entry κ ν)} :
    hits b e x = ((x.flatMap (·.pairs)).filter fun p => b ≤ p.1 ∧ p.1 ≤ e).map (·.2) := by
  induction x with
  | nil => rfl
  | cons a x ih =>
    rw [List.flatMap_cons, List.filter_append, List.map_append, ← ih]
    have hall : ∀ p ∈ a.pairs, p.1 = a.key := fun p hp => (Entry.mem_pairs.1 hp).1
    by_cases h : b ≤ a.key ∧ a.key ≤ e
    · have : a.pairs.filter (fun p => b ≤ p.1 ∧ p.1 ≤ e) = a.pairs :=
        List.filter_eq_self.2 fun p hp => by simpa [hall p hp] using h
      rw [this]
      simp [hits, h, Entry.pairs, Function.comp_def]
    · have : a.pairs.filter (fun p => b ≤ p.1 ∧ p.1 ≤ e) = [] :=
        List.filter_eq_nil_iff.2 fun p hp => by simpa [hall p hp] using h
      rw [this]
      simp [hits, h]

/-! ## Insertion -/

/-- There is one bucket behind the separators that satisfy `past`. -/
theorem Route.unique {past : κ → Prop} (hq : P.Route past q) (hr : P.Route past r) : q = r := by
  by_contra hne
  rcases lt_or_gt_of_ne hne with hlt | hgt
  · have := hr.lt
    exact hq.behind q le_rfl (by omega) (hr.before q hlt)
  · have := hq.lt
    exact hr.behind r le_rfl (by omega) (hq.before r hgt)

section
variable {es : List (Entry κ ν)}

/-- The keys of the buckets after the bucket `q` has got the key `k`. -/
theorem exists_update (hes : ∀ x, x ∈ es.map (·.key) ↔ x = k ∨ x ∈ (P.bucket q).map (·.key))
    {x : κ} : (∃ a ∈ Function.update P.bucket q es r, a.key = x) ↔
    r = q ∧ x = k ∨ ∃ a ∈ P.bucket r, a.key = x := by
  by_cases hr : r = q
  · subst hr
    simpa using hes x
  · simp [hr]

/-- The bucket that `k` is routed to gets the key. -/
def update (P : Partition κ ν n) (hq : P.Route (· ≤ k) q)
    (hes : ∀ x, x ∈ es.map (·.key) ↔ x = k ∨ x ∈ (P.bucket q).map (·.key)) : Partition κ ν n where
  sep := P.sep
  bucket := Function.update P.bucket q es
  sep_mono := P.sep_mono
  lower r hr a ha i hi := by
    rcases (exists_update hes).1 ⟨a, ha, rfl⟩ with ⟨rfl, hk⟩ | ⟨a', ha', hk⟩
    · exact hk ▸ hq.before i hi
    · exact hk ▸ P.lower r hr a' ha' i hi
  upper r hr a ha i hi hin := by
    rcases (exists_update hes).1 ⟨a, ha, rfl⟩ with ⟨rfl, hk⟩ | ⟨a', ha', hk⟩
    · exact hk ▸ (not_le.1 (hq.behind i hi hin)).le
    · exact hk ▸ P.upper r hr a' ha' i hi hin
  routed r hr a ha r' hr' hbefore hbehind := by
    refine (exists_update hes).2 ?_
    rcases (exists_update hes).1 ⟨a, ha, rfl⟩ with ⟨rfl, hk⟩ | ⟨a', ha', hk⟩
    · rw [hk] at hbefore hbehind
      exact .inl ⟨(Route.unique hq ⟨hr', hbefore, hbehind⟩).symm, hk⟩
    · rw [← hk] at hbefore hbehind ⊢
      exact .inr (P.routed r hr a' ha' r' hr' hbefore hbehind)

/-- The buckets around the bucket `q`. -/
theorem range'_split (h : q < n) :
    List.range' 0 n = List.range' 0 q ++ q :: List.range' (q + 1) (n - (q + 1)) := by
  rw [← List.range'_succ, show n - (q + 1) + 1 = n - q by omega]
  have := @List.range'_append 0 q (n - q) 1
  simpa [Nat.add_sub_cancel' h.le] using this.symm

/-- The bucket `q` grows by one pair. -/
theorem pairs_update (hq : P.Route (· ≤ k) q)
    (hes : ∀ x, x ∈ es.map (·.key) ↔ x = k ∨ x ∈ (P.bucket q).map (·.key))
    (hpairs : (es.flatMap (·.pairs)).Perm ((k, v) :: (P.bucket q).flatMap (·.pairs))) :
    (P.update hq hes).pairs.Perm ((k, v) :: P.pairs) := by
  have hother : ∀ l : List Nat, q ∉ l →
      l.flatMap (Function.update P.bucket q es) = l.flatMap P.bucket := fun l hl =>
    List.flatMap_congr fun r hr => Function.update_of_ne (ne_of_mem_of_not_mem hr hl) ..
  have h1 : q ∉ List.range' 0 q := by simp
  have h2 : q ∉ List.range' (q + 1) (n - (q + 1)) := by simp
  simp only [pairs, entriesFrom, update, Nat.sub_zero, range'_split hq.lt, List.flatMap_append,
    List.flatMap_cons, Function.update_self, hother _ h1, hother _ h2]
  exact ((hpairs.append_right _).append_left _).trans List.perm_middle

end

/-! ## Loading -/

section
variable {es : List (Entry κ ν)} {w : Nat} {sep : Nat → κ} {x y : Entry κ ν} {i j : Nat}

/-- The entries of a run of `w` of a list. -/
theorem mem_take_drop {α : Type*} {l : List α} {a : α} {q : Nat} :
    a ∈ (l.drop (w * q)).take w ↔ ∃ j, w * q ≤ j ∧ j < w * (q + 1) ∧ l[j]? = some a := by
  rw [List.mem_iff_getElem?]
  simp only [List.getElem?_take, List.getElem?_drop, Option.ite_none_right_eq_some]
  constructor
  · rintro ⟨i, hi, ha⟩
    exact ⟨w * q + i, by omega, by rw [Nat.mul_succ]; omega, ha⟩
  · rintro ⟨j, h1, h2, ha⟩
    rw [Nat.mul_succ] at h2
    exact ⟨j - w * q, by omega, by rwa [Nat.add_sub_cancel' h1]⟩

/-- A later entry has no smaller key. -/
theorem key_le_of_getElem? (hs : es.Pairwise (fun x y => x.key ≤ y.key)) (hij : i ≤ j)
    (hx : es[i]? = some x) (hy : es[j]? = some y) : x.key ≤ y.key := by
  obtain ⟨hi, rfl⟩ := List.getElem?_eq_some_iff.1 hx
  obtain ⟨hj, rfl⟩ := List.getElem?_eq_some_iff.1 hy
  rcases Nat.lt_or_eq_of_le hij with hlt | rfl
  · exact List.pairwise_iff_getElem.1 hs i j hi hj hlt
  · exact le_rfl

/-- Runs of `w` entries of a sorted list; a run is separated from the one before it by its first
key. -/
def ofSorted (es : List (Entry κ ν)) (sep : Nat → κ) (w n : Nat)
    (hs : es.Pairwise fun x y => x.key ≤ y.key)
    (hsep : ∀ i, i + 1 < n → ∃ x, es[w * (i + 1)]? = some x ∧ x.key = sep i) :
    Partition κ ν n where
  sep := sep
  bucket q := (es.drop (w * q)).take w
  sep_mono i j hij hj := by
    obtain ⟨x, hx, hxk⟩ := hsep i (by omega)
    obtain ⟨y, hy, hyk⟩ := hsep j hj
    exact hxk ▸ hyk ▸ key_le_of_getElem? hs (Nat.mul_le_mul_left w (by omega)) hx hy
  lower q hq a ha i hi := by
    obtain ⟨x, hx, hxk⟩ := hsep i (by omega)
    obtain ⟨j, hj, -, hja⟩ := mem_take_drop.1 ha
    have : w * (i + 1) ≤ w * q := Nat.mul_le_mul_left w hi
    exact hxk ▸ key_le_of_getElem? hs (by omega) hx hja
  upper q hq a ha i hi hin := by
    obtain ⟨x, hx, hxk⟩ := hsep i hin
    obtain ⟨j, -, hj, hja⟩ := mem_take_drop.1 ha
    have : w * (q + 1) ≤ w * (i + 1) := Nat.mul_le_mul_left w (by omega)
    exact hxk ▸ key_le_of_getElem? hs (by omega) hja hx
  routed q hq a ha r hr hbefore hbehind := by
    obtain ⟨j, hj1, hj2, hja⟩ := mem_take_drop.1 ha
    rcases lt_trichotomy q r with hqr | rfl | hrq
    · -- the first entry of the run `r` is not behind `a`, and its key is not above that of `a`
      obtain ⟨x, hx, hxk⟩ := hsep (r - 1) (by omega)
      rw [Nat.sub_add_cancel (by omega)] at hx
      have hle : w * (q + 1) ≤ w * r := Nat.mul_le_mul_left w hqr
      have hw : 0 < w := by
        by_contra h0
        rw [Nat.eq_zero_of_not_pos h0] at hj2
        omega
      refine ⟨x, mem_take_drop.2 ⟨w * r, le_rfl, Nat.mul_lt_mul_of_pos_left r.lt_succ_self hw, hx⟩, ?_⟩
      exact le_antisymm (hxk ▸ hbefore (r - 1) (by omega))
        (key_le_of_getElem? hs (by omega) hja hx)
    · exact ⟨a, ha, rfl⟩
    · obtain ⟨x, hx, hxk⟩ := hsep r (by omega)
      have hle : w * (r + 1) ≤ w * q := Nat.mul_le_mul_left w hrq
      exact absurd (hxk ▸ key_le_of_getElem? hs (by omega) hx hja)
        (hbehind r le_rfl (by omega))

/-- The runs in sequence. -/
theorem flatMap_take_drop {α : Type*} (l : List α) (w : Nat) : ∀ n,
    (List.range n).flatMap (fun q => (l.drop (w * q)).take w) = l.take (w * n)
  | 0 => by simp
  | n + 1 => by
    rw [List.range_succ, List.flatMap_append, flatMap_take_drop l w n, List.flatMap_singleton,
      Nat.mul_succ, List.take_add]

/-- Cutting a list into buckets keeps the pairs of the entries that are cut. -/
theorem pairs_ofSorted {hs : es.Pairwise fun x y => x.key ≤ y.key}
    {hsep : ∀ i, i + 1 < n → ∃ x, es[w * (i + 1)]? = some x ∧ x.key = sep i} :
    (ofSorted es sep w n hs hsep).pairs = (es.take (w * n)).flatMap (·.pairs) := by
  rw [pairs, entriesFrom, Nat.sub_zero, ← List.range_eq_range', ← flatMap_take_drop es w n]
  rfl

end

end Partition

end Rdbms
