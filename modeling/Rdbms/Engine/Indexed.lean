import Rdbms.Engine.Served

/-!
# Calls that make an index

`create_index` tells a new sequential index of the rows of the table, and one that knows none. It
takes an `INT` column and no other, except that on a `VARCHAR` column it does nothing, and an index
that it makes in another map answers no query.
-/

namespace Rdbms

namespace DbEngine

section
variable [FloatType] {e e' : DBEngine} {tableName name : Bytes} {table : HeapFile} {t : Table}
  {rows : List (List Bytes)} {si : SequentialIndex Int} {i fuel : Nat} {pairs : List (Int × Int)}
  {index : Index} {kind : DBEngine.IndexType}

/-! ## What an index is told -/

/-- A number of a stored row. -/
theorem Table.StoredIn.intAt (h : t.StoredIn table) (htype : t.schema.types[i]? = some .int)
    {n : Nat} (hn : n < t.rows.length) :
    (table.rowAt n).intAt i = ({ fields := t.rows[n] } : Record).intAt i := by
  obtain ⟨buffer, henc⟩ := (t.accepts _ (List.getElem_mem hn)).encodes
  have hwrite : ({ fields := t.rows[n] } : Record).write t.schema.types = .ok buffer :=
    Record.write_eq_ok.2 ⟨henc, Nat.lt_succ_of_le t.schema.fits⟩
  rw [HeapFile.rowAt, h.read (List.getElem?_eq_getElem hn)]
  exact intAt_norm hwrite htype

/-- A new index, and one that knows no row, is told of all rows, and another is left as it is. -/
theorem DBEngine.Knows.bulkInsert (h : DBEngine.Knows table i rows si) (hstored : t.StoredIn table)
    (htype : t.schema.types[i]? = some .int) {prevPos : Option Int}
    (hpaired : DBEngine.Paired table i prevPos pairs)
    (hfits : prevPos = none ∨ table.recordCount = 0 ∨ si.indexFile ≠ [])
    {sort : List (Int × Int) → List (Int × Int)} (hperm : (sort pairs).Perm pairs)
    (hsorted : (sort pairs).Pairwise fun a b => a.1 ≤ b.1) :
    DBEngine.Knows table i (if rows = [] then t.rows else rows) (si.bulkInsert sort pairs).2 ∧
      (rows = t.rows → (si.bulkInsert sort pairs).2 = si) := by
  have hlen : pairs.length = t.rows.length := hpaired.length.trans hstored.count
  by_cases hknown : rows = []
  · rw [if_pos hknown]
    have hsi := h.new hknown
    by_cases hnil : pairs = []
    · have hrows : t.rows = [] := List.length_eq_zero_iff.1 (hlen.symm.trans (hnil ▸ rfl))
      have hsame : (si.bulkInsert sort pairs).2 = si := by rw [SequentialIndex.bulkInsert, if_pos hnil]
      rw [hsame, hrows]
      exact ⟨hknown ▸ h, fun _ => rfl⟩
    · have hrows : t.rows ≠ [] := fun hrows => hnil (List.length_eq_zero_iff.1 (hlen.trans (hrows ▸ rfl)))
      have hfile : si.indexFile = [] := by rw [hsi]; rfl
      have haux : si.auxFile = [] := by rw [hsi]; rfl
      have hprev : prevPos = none := by
        rcases hfits with hprev | hcount | hne
        · exact hprev
        · exact absurd (List.length_eq_zero_iff.1 (hstored.count.symm.trans hcount)) hrows
        · exact absurd hfile hne
      obtain ⟨res, si', hbulk, hholds⟩ :=
        SequentialIndex.bulkInsert_holds hfile haux hnil hperm hsorted
      rw [hbulk]
      refine ⟨⟨?_, fun hrows' => absurd hrows' hrows⟩, fun heq => absurd (heq ▸ hknown) hrows⟩
      exact DBEngine.mirrors_of_paired hlen (fun n hn => hstored.intAt htype hn) (hprev ▸ hpaired) hholds
  · have hfile : si.indexFile ≠ [] := fun hfile => hknown (h.mirrors.rows_eq_nil hfile)
    rw [if_neg hknown, SequentialIndex.bulkInsert_of_ne hfile]
    exact ⟨h, fun _ => rfl⟩

/-! ## The maps -/

/-- Only the AVL indexes have changed. -/
theorem Table.HeldBy.withAvl (h : t.HeldBy e tableName table)
    {m : KeyedMap Index (IndexContainer AVLIndex)}
    (hmem : ∀ index, index ∈ m ↔ index = ⟨tableName, name⟩ ∨ index ∈ e.avlIndexes) :
    ({ t with avl := name :: t.avl } : Table).HeldBy { e with avlIndexes := m } tableName table where
  lookup := h.lookup
  stored := ⟨h.stored.names, h.stored.types, h.stored.primaryKey, h.stored.closed, h.stored.stores,
    h.stored.count⟩
  knows := h.knows
  noIndex := h.noIndex
  pk := h.pk
  avl name' := by
    rw [hmem, h.avl, List.mem_cons, Index.mk.injEq]
    exact or_congr_left (and_iff_right rfl)
  isam := h.isam

/-- Only an ISAM index has changed. -/
theorem Table.HeldBy.withIsam (h : t.HeldBy e tableName table) (isam : ISAM Int) :
    t.HeldBy { e with
      isamIndexes := (e.isamIndexes.emplace ⟨tableName, name⟩ (.int .create)).replace
        ⟨tableName, name⟩ (.int isam) } tableName table where
  lookup := h.lookup
  stored := h.stored
  knows := h.knows
  noIndex := h.noIndex
  pk := h.pk
  avl := h.avl
  isam name' idx hidx := by
    by_cases hname : name' = name
    · subst hname
      have hself := (KeyedMap.lookup_replace_self (m := e.isamIndexes.emplace ⟨tableName, name'⟩
        (.int .create)) (b := .int isam) (by simp [KeyedMap.lookup_emplace_self])).symm.trans hidx
      exact ⟨isam, (Option.some.inj hself).symm⟩
    · have hne : (⟨tableName, name'⟩ : Index) ≠ ⟨tableName, name⟩ := fun heq =>
        hname (Index.mk.inj heq).2
      refine h.isam name' idx ?_
      exact (KeyedMap.lookup_emplace_ne hne).symm.trans ((KeyedMap.lookup_replace_ne hne).symm.trans hidx)

/-- A sequential index has been told. -/
theorem Table.HeldBy.withSequential (h : t.HeldBy e tableName table)
    (htype : t.schema.type? name = some .int)
    (hknows : DBEngine.Knows table (t.schema.column name) (t.told name) si)
    (hpk : name = t.schema.primaryKey → si.pk = true) :
    (t.index name htype).HeldBy { e with
      sequentialIndexes := (e.sequentialIndexes.emplace ⟨tableName, name⟩
        (.int (.createFile false))).replace ⟨tableName, name⟩ (.int si) } tableName table := by
  let m := (e.sequentialIndexes.emplace ⟨tableName, name⟩ (.int (.createFile false))).replace
    ⟨tableName, name⟩ (.int si)
  have hself : m.lookup ⟨tableName, name⟩ = some (.int si) :=
    KeyedMap.lookup_replace_self (by simp [KeyedMap.lookup_emplace_self])
  have hother {name' : Bytes} (hname : name' ≠ name) :
      m.lookup ⟨tableName, name'⟩ = e.sequentialIndexes.lookup ⟨tableName, name'⟩ := by
    have hne : (⟨tableName, name'⟩ : Index) ≠ ⟨tableName, name⟩ := fun heq =>
      hname (Index.mk.inj heq).2
    exact (KeyedMap.lookup_replace_ne hne).trans (KeyedMap.lookup_emplace_ne hne)
  have htold : (t.index name htype).indexes.lookup name = some (t.told name) :=
    KeyedMap.lookup_replace_self (by simp [KeyedMap.lookup_emplace_self])
  have hknown {name' : Bytes} (hname : name' ≠ name) :
      (t.index name htype).indexes.lookup name' = t.indexes.lookup name' :=
    (KeyedMap.lookup_replace_ne hname).trans (KeyedMap.lookup_emplace_ne hname)
  exact {
    lookup := h.lookup
    stored := ⟨h.stored.names, h.stored.types, h.stored.primaryKey, h.stored.closed,
      h.stored.stores, h.stored.count⟩
    knows := by
      intro name' rows hrows
      by_cases hname : name' = name
      · subst hname
        cases htold.symm.trans hrows
        exact ⟨si, hself, hknows⟩
      · obtain ⟨si', hsi', hknows'⟩ := h.knows name' rows ((hknown hname).symm.trans hrows)
        exact ⟨si', (hother hname).trans hsi', hknows'⟩
    noIndex := by
      intro name' hnone
      have hname : name' ≠ name := by
        rintro rfl
        cases htold.symm.trans hnone
      exact (hother hname).trans (h.noIndex name' ((hknown hname).symm.trans hnone))
    pk := by
      intro si' hsi'
      by_cases hname : t.schema.primaryKey = name
      · have hsi : m.lookup ⟨tableName, name⟩ = some (.int si') := by
          rw [← hname]
          exact hsi'
        cases hself.symm.trans hsi
        exact hpk hname.symm
      · exact h.pk si' ((hother hname).symm.trans hsi')
    avl := h.avl
    isam := h.isam }

/-! ## The call -/

section
variable [Unspecified] [IntCast FloatType.Value]

omit [Unspecified] [IntCast FloatType.Value] in
/-- An index of another table. -/
theorem DBEngine.lookup_other {I : Type → Type} {m : KeyedMap Index (IndexContainer I)}
    {other other' : Bytes} (hne : other ≠ tableName) (new idx : IndexContainer I) :
    ((m.emplace ⟨tableName, name⟩ new).replace ⟨tableName, name⟩ idx).lookup ⟨other, other'⟩ =
      m.lookup ⟨other, other'⟩ := by
  have hindex : (⟨other, other'⟩ : Index) ≠ ⟨tableName, name⟩ := fun heq => hne (Index.mk.inj heq).1
  exact (KeyedMap.lookup_replace_ne hindex).trans (KeyedMap.lookup_emplace_ne hindex)

/-- When `create_index` is to tell the index of rows, no row has been read for an index before. -/
def DBEngine.IndexFits (e : DBEngine) (tableName : Bytes) (table : HeapFile) (name : Bytes) : Prop :=
  e.prevPos = none ∨ table.recordCount = 0 ∨ ∃ si,
    e.sequentialIndexes.lookup ⟨tableName, name⟩ = some (.int si) ∧ si.indexFile ≠ []

/-- What the call has loaded for an `INT` column. -/
theorem Table.HeldBy.createIndex_int (h : t.HeldBy e tableName table)
    (htype : t.schema.type? name = some .int) (kind : DBEngine.IndexType) :
    ∃ pairs e1, DBEngine.Paired table (t.schema.column name) e.prevPos pairs ∧
      (∀ other, DBEngine.SameTable other e e1) ∧ ∀ fuel, e.createIndex fuel tableName name kind =
        e1.bulkIndex fuel ⟨tableName, name⟩ kind .int pairs := by
  obtain ⟨pairs, e1, hpaired, hsame, htables, -, hcall⟩ := DBEngine.createIndex_of_readable h.lookup
    (h.stored.getType htype) (h.stored.getAttributeIdx (Schema.mem_of_type? htype))
    h.stored.readable kind
  rw [h.stored.load, h.setTable] at htables
  obtain ⟨havl, hisam, hsequential⟩ := hsame
  refine ⟨pairs, e1, hpaired, fun other => ?_, fun fuel => (hcall fuel).1⟩
  exact ⟨by rw [htables], fun _ => by rw [hsequential], fun _ => by rw [havl], fun _ => by rw [hisam]⟩

omit [IntCast FloatType.Value] in
/-- The sequential index after the call. -/
theorem Table.HeldBy.bulkInsert (h : t.HeldBy e tableName table)
    (htype : t.schema.type? name = some .int) {prevPos : Option Int}
    (hpaired : DBEngine.Paired table (t.schema.column name) prevPos pairs)
    (hfits : prevPos = none ∨ table.recordCount = 0 ∨ ∃ si,
      e.sequentialIndexes.lookup ⟨tableName, name⟩ = some (.int si) ∧ si.indexFile ≠ []) :
    ∃ si : SequentialIndex Int,
      (e.sequentialIndexes.lookup ⟨tableName, name⟩).getD (.int (.createFile false)) = .int si ∧
        DBEngine.Knows table (t.schema.column name) (t.told name)
          (si.bulkInsert (Unspecified.sort (·.1)) pairs).2 ∧
        (name = t.schema.primaryKey →
          (si.bulkInsert (Unspecified.sort (·.1)) pairs).2.pk = true) := by
  have hperm := Unspecified.sort_perm (·.1) pairs
  have hsorted := Unspecified.sort_sorted (·.1) pairs
  cases hrows : t.indexes.lookup name with
  | none =>
    have hentry := h.noIndex name hrows
    have hnew : DBEngine.Knows table (t.schema.column name) [] (.createFile false) :=
      ⟨DBEngine.mirrors_createFile false table _, fun _ => rfl⟩
    have hfits' : prevPos = none ∨ table.recordCount = 0 ∨
        (.createFile false : SequentialIndex Int).indexFile ≠ [] := by
      rcases hfits with hprev | hcount | ⟨si, hsi, -⟩
      · exact .inl hprev
      · exact .inr (.inl hcount)
      · cases hentry.symm.trans hsi
    obtain ⟨hknows, -⟩ := hnew.bulkInsert h.stored htype hpaired hfits' hperm hsorted
    have htold : t.told name = if ([] : List (List Bytes)) = [] then t.rows else [] := by
      rw [Table.told, Table.known, hrows, Option.getD_none]
    refine ⟨.createFile false, by rw [hentry, Option.getD_none], htold ▸ hknows, ?_⟩
    rintro rfl
    cases hrows.symm.trans t.primary
  | some known =>
    obtain ⟨si, hsi, hold⟩ := h.knows name known hrows
    have hfits' : prevPos = none ∨ table.recordCount = 0 ∨ si.indexFile ≠ [] := by
      rcases hfits with hprev | hcount | ⟨si', hsi', hne⟩
      · exact .inl hprev
      · exact .inr (.inl hcount)
      · cases hsi.symm.trans hsi'
        exact .inr (.inr hne)
    obtain ⟨hknows, hsame⟩ := hold.bulkInsert h.stored htype hpaired hfits' hperm hsorted
    have htold : t.told name = if known = [] then t.rows else known := by
      rw [Table.told, t.known_of_lookup hrows]
    refine ⟨si, by rw [hsi, Option.getD_some], htold ▸ hknows, ?_⟩
    rintro rfl
    cases hrows.symm.trans t.primary
    rw [hsame rfl]
    exact h.pk si hsi

/-- An index on an `INT` column. -/
theorem Table.HeldBy.createIndex_serves (h : t.HeldBy e tableName table)
    (htype : t.schema.type? name = some .int)
    (hfits : kind = .sequential → e.IndexFits tableName table name) :
    t.Serves e tableName (.createIndex name kind) := by
  obtain ⟨pairs, e1, hpaired, hsame, hcall⟩ := h.createIndex_int htype kind
  have h1 := h.frame (hsame tableName)
  have hlen : pairs.length = t.rows.length := hpaired.length.trans h.stored.count
  have hreturns {res : Except Exn Unit} {e2 : DBEngine}
      (hbulk : Returns (e1.bulkIndex · ⟨tableName, name⟩ kind .int pairs) (res, e2)) :
      Returns (DBEngine.perform · tableName e (.createIndex name kind))
        (res.map fun _ => .unit, e2) := (hbulk.congr hcall).map _
  by_cases havl : name ∈ t.avl
  · have hrefused := DBEngine.bulkIndex_refused ((h1.avl name).2 havl) kind pairs
    exact ⟨_, t, e1, table, hreturns (.of_eq hrefused), .createIndex (.refused kind htype havl), h1,
      fun other _ => hsame other⟩
  · have hno : (⟨tableName, name⟩ : Index) ∉ e1.avlIndexes := fun hmem => havl ((h1.avl name).1 hmem)
    cases kind with
    | avl =>
      obtain ⟨si, hret⟩ := DBEngine.bulkIndex_avl hno pairs
      have hmem : ∀ index, index ∈ (e1.avlIndexes.emplace ⟨tableName, name⟩
          (.int (.initIndex false))).replace ⟨tableName, name⟩ (.int si) ↔
            index = ⟨tableName, name⟩ ∨ index ∈ e1.avlIndexes := fun index => by
        rw [AList.mem_replace, KeyedMap.mem_emplace]
      refine ⟨_, _, _, table, hreturns hret, .createIndex (.avl htype havl), h1.withAvl hmem,
        fun other hne => (hsame other).trans ⟨rfl, fun _ => rfl, fun name' => ?_, fun _ => rfl⟩⟩
      rw [hmem]
      exact or_iff_right fun heq => hne (Index.mk.inj heq).1
    | sequential =>
      obtain ⟨si, hsi, hknows, hpk⟩ : ∃ si : SequentialIndex Int,
          (e1.sequentialIndexes.lookup ⟨tableName, name⟩).getD (.int (.createFile false)) = .int si ∧
          DBEngine.Knows table (t.schema.column name) (t.told name)
            (si.bulkInsert (Unspecified.sort (·.1)) pairs).2 ∧
          (name = t.schema.primaryKey →
            (si.bulkInsert (Unspecified.sort (·.1)) pairs).2.pk = true) := by
        refine h1.bulkInsert htype hpaired ?_
        rw [(hsame tableName).sequential]
        exact hfits rfl
      have hret := Returns.of_eq (DBEngine.bulkIndex_sequential_eq hno hsi pairs)
      refine ⟨_, _, _, table, hreturns hret, .createIndex (.sequential htype havl),
        h1.withSequential htype hknows hpk, fun other hne => (hsame other).trans ?_⟩
      exact ⟨rfl, fun _ => DBEngine.lookup_other hne _ _, fun _ => .rfl, fun _ => rfl⟩
    | isam =>
      obtain ⟨isam, hisam⟩ : ∃ isam : ISAM Int,
          (e1.isamIndexes.lookup ⟨tableName, name⟩).getD (.int .create) = .int isam := by
        cases hentry : e1.isamIndexes.lookup ⟨tableName, name⟩ with
        | none => exact ⟨.create, rfl⟩
        | some idx =>
          obtain ⟨isam, rfl⟩ := h1.isam name idx hentry
          exact ⟨isam, rfl⟩
      have hframe {isam' : ISAM Int} (other : Bytes) (hne : other ≠ tableName) :
          DBEngine.SameTable other e { e1 with
            isamIndexes := (e1.isamIndexes.emplace ⟨tableName, name⟩ (.int .create)).replace
              ⟨tableName, name⟩ (.int isam') } := by
        refine (hsame other).trans ⟨rfl, fun _ => rfl, fun _ => .rfl, fun _ => ?_⟩
        exact DBEngine.lookup_other hne _ _
      by_cases hmany : ISAM.maxRecords ≤ t.rows.length
      · obtain ⟨isam', hret⟩ := DBEngine.bulkIndex_isam hno hisam (hlen ▸ hmany)
        exact ⟨_, t, _, table, hreturns hret, .createIndex (.isam htype havl hmany), h1.withIsam isam',
          hframe⟩
      · have hfew : t.rows.length < ISAM.maxRecords := not_le.1 hmany
        have hret := Returns.of_eq (DBEngine.bulkIndex_isam_few hno hisam (hlen ▸ hfew))
        exact ⟨_, t, _, table, hreturns hret, .createIndex (.tooFew htype havl hfew), h1.withIsam isam,
          hframe⟩

/-- A call on a column that is not a `FLOAT`. -/
theorem Table.HeldBy.createIndex (h : t.HeldBy e tableName table)
    (hfloat : t.schema.type? name ≠ some .float)
    (hfits : kind = .sequential → e.IndexFits tableName table name) :
    t.Serves e tableName (.createIndex name kind) := by
  have hserves {res : Except Exn Unit}
      (hcall : ∀ fuel, e.createIndex fuel tableName name kind = some (res, e))
      (hindexes : t.Indexes name kind (res.map fun _ => .unit) t) :
      t.Serves e tableName (.createIndex name kind) :=
    ⟨_, t, e, table, (Returns.of_eq hcall).map _, .createIndex hindexes, h, fun _ _ => .refl _ _⟩
  have hat := DBEngine.tableAt_of_lookup h.lookup
  by_cases hname : name ∈ t.schema.names
  · obtain ⟨type, htype⟩ := Schema.exists_type? hname
    have hget := h.stored.getType htype
    cases type with
    | int => exact h.createIndex_serves htype hfits
    | float => exact absurd htype hfloat
    | bool =>
      have hcall : ∀ fuel, e.createIndex fuel tableName name kind =
          some (.error (.invalidArgument "Bool can't be indexed"), e) := fun fuel => by
        simp only [DBEngine.createIndex, hat, hget]
      exact hserves hcall (.bool kind htype)
    | varchar size =>
      have hcall : ∀ fuel, e.createIndex fuel tableName name kind = some (.ok (), e) := fun fuel => by
        simp only [DBEngine.createIndex, hat, hget]
      exact hserves hcall (.varchar kind htype)
  · have hcall : ∀ fuel, e.createIndex fuel tableName name kind =
        some (.error (.runtimeError "Attribute not found"), e) := fun fuel => by
      simp only [DBEngine.createIndex, hat, h.stored.getType_of_not_mem hname]
    exact hserves hcall (.noColumn kind hname)

end

end

end DbEngine

end Rdbms
