import Rdbms.Sequential.RawPos
import Rdbms.Engine.Reached
import Rdbms.Engine.Usable

/-!
# Removing a row

No call of `remove` succeeds on a table with an `INT` primary key. `IndexContainer::remove` takes
the first of the positions that the index reports, so it throws for a key that is not there, and
`-1` is never reported. For a key that is there, `HeapFile::remove` opens the data file for output
only: the file is truncated, no byte can be read from it, and the row that is written back has no
fields, so that `Record::write` throws.
-/

namespace Rdbms

namespace DbEngine

section
variable [FloatType] {e e' : DBEngine} {tableName : Bytes} {table : HeapFile} {fuel : Nat}
  {idx idx' : IndexContainer SequentialIndex} {index : Index} {key : Attribute}

/-! ## The heap file -/

/-- `remove` throws on a table with an `INT` column. -/
theorem HeapFile.remove_throws (hint : .int ∈ table.attributeTypes) (pos : Int) :
    ∃ ex, (table.remove pos).1 = .error ex := by
  obtain ⟨i, htype⟩ := List.mem_iff_getElem?.1 hint
  have htypes : table.attributeTypes ≠ [] := by
    rintro hnil
    rw [hnil] at htype
    cases htype
  obtain ⟨-, hopen⟩ := openStream_leftOpen table true
  have hrow : ∀ file : InStream, (∀ bytes, file = some bytes → bytes = []) →
      ¬ ({ (({} : Record).read file table.attributeTypes).2 with status := .deleted } :
        Record).Writable table.attributeTypes := by
    rintro file hfile ⟨buffer, hwrite⟩
    cases file with
    | none => exact Record.not_writable_of_fields htypes rfl ⟨buffer, hwrite⟩
    | some bytes =>
      obtain rfl := hfile bytes rfl
      have hwidth := (Record.write_eq_ok.1 hwrite).2
      have hfour := four_le_rowWidth htype
      have hsize : ([] : Bytes).length < recordSize table.attributeTypes := by
        rw [recordSize_of_lt hwidth]
        exact Nat.zero_lt_of_lt hfour
      rw [Record.read_of_short hsize] at hwrite
      exact Record.not_writable_of_fields htypes rfl ⟨buffer, hwrite⟩
  have hfile : ∀ bytes, seekg [] pos (if (table.openStream true).2 then some [] else none) =
      some bytes → bytes = [] := by
    intro bytes hseek
    unfold seekg at hseek
    split at hseek
    · cases hseek
    · split_ifs at hseek
      cases hseek
      exact List.drop_nil
  obtain ⟨ex, hex⟩ := Record.exists_error (hrow _ hfile)
  simp only [remove, hopen, hex]
  exact ⟨ex, rfl⟩

/-! ## Indexes -/

namespace IndexContainer

/-- The heap positions in the files of the index are not negative. -/
def Nonneg : IndexContainer SequentialIndex → Prop
  | .int si => si.Nonneg
  | .float si => si.Nonneg
  | .string si => si.Nonneg

/-- An alternative of the variant that an index is put into and got from. -/
def Lawful {κ : Type} [KeyType κ] (alt : Alternative κ) : Prop :=
  (∀ si : SequentialIndex κ, Nonneg (alt.make si) ↔ si.Nonneg) ∧
    ∀ (idx : IndexContainer SequentialIndex) si, alt.get? idx = some si → idx = alt.make si

/-- The `INT` indexes are put and got back. -/
theorem lawful_int : Lawful Alternative.int where
  left _ := Iff.rfl
  right idx si h := by
    cases idx with
    | int i =>
      cases h
      rfl
    | float i | string i => cases h

/-- So are the `FLOAT` ones. -/
theorem lawful_float : Lawful Alternative.float where
  left _ := Iff.rfl
  right idx si h := by
    cases idx with
    | float i =>
      cases h
      rfl
    | int i | string i => cases h

/-- A call on an index. -/
theorem call_nonneg {β κ : Type} [KeyType κ] {alt : Alternative κ} (halt : Lawful alt)
    (h : idx.Nonneg) {f : SequentialIndex κ → Option (Outcome (SequentialIndex κ) β)}
    (hf : ∀ si out, si.Nonneg → f si = some out → out.2.Nonneg) {res : Except Exn β}
    (hcall : idx.call alt f = some (res, idx')) : idx'.Nonneg := by
  unfold call at hcall
  cases hget : alt.get? idx with
  | none =>
    simp only [hget] at hcall
    cases hcall
    exact h
  | some si =>
    simp only [hget] at hcall
    obtain ⟨⟨r, si'⟩, hret, heq⟩ := Option.map_eq_some_iff.1 hcall
    cases heq
    rw [halt.2 idx si hget] at h
    exact (halt.1 si').2 (hf si _ ((halt.1 si).1 h) hret)

/-- A position that is not negative may be added. -/
theorem add_nonneg {κ : Type} [KeyType κ] {alt : Alternative κ} (halt : Lawful alt)
    (h : idx.Nonneg) {keyVal : κ} {pos : Int} (hpos : 0 ≤ pos) {res : Except Exn Bool}
    (hadd : idx.add fuel alt keyVal pos = some (res, idx')) : idx'.Nonneg := by
  refine call_nonneg halt h (fun si out hsi hret => ?_) hadd
  obtain ⟨out', hout, rfl⟩ := Option.map_eq_some_iff.1 hret
  exact hsi.add hpos hout

/-- The position that is taken. -/
theorem remove_nonneg {κ : Type} [KeyType κ] {alt : Alternative κ} (halt : Lawful alt)
    (h : idx.Nonneg) {keyVal : κ} {pos : Int}
    (hrem : idx.remove fuel alt keyVal = some (.ok pos, idx')) : 0 ≤ pos := by
  unfold remove call at hrem
  cases hget : alt.get? idx with
  | none =>
    simp only [hget] at hrem
    cases hrem
  | some si =>
    simp only [hget] at hrem
    obtain ⟨⟨r, si1⟩, hret, heq⟩ := Option.map_eq_some_iff.1 hrem
    obtain ⟨⟨records, si2⟩, hsi, hout⟩ := Option.map_eq_some_iff.1 hret
    cases hout
    obtain ⟨hfirst, -⟩ := Prod.mk.inj heq
    rw [halt.2 idx si hget] at h
    have hall := ((halt.1 si).1 h).remove hsi
    exact hall pos (List.mem_of_getElem? (HeapFile.vectorAt_eq_ok.1 hfirst))

end IndexContainer

namespace DBEngine

/-- The heap positions in all sequential indexes are not negative. -/
def Nonneg (e : DBEngine) : Prop := KeyedMap.All IndexContainer.Nonneg e.sequentialIndexes

/-- A new index has no positions. -/
theorem Nonneg.createTable (h : e.Nonneg) (primaryKey : Bytes) (types : List FieldType)
    (names : List Bytes) : (e.createTable tableName primaryKey types names).2.Nonneg := by
  unfold DBEngine.createTable
  split_ifs
  · exact h
  · simp only
    split
    · exact h
    · exact h.emplace (SequentialIndex.nonneg_createFile true)
    · exact h.emplace (SequentialIndex.nonneg_createFile true)
    · exact h.emplace (SequentialIndex.nonneg_createFile true)
    · exact h

/-- The index on the primary key gets a position that is not negative. -/
theorem Nonneg.addKey {type : FieldType} {pos : Int} {res : Except Exn Bool} (h : e.Nonneg)
    (hpos : 0 ≤ pos) (hadd : e.addKey fuel tableName type key pos = some (res, e')) :
    e'.Nonneg := by
  unfold DBEngine.addKey at hadd
  split at hadd
  · cases hadd
    exact h
  · next idx hidx =>
    split at hadd
    · cases hadd
      exact h
    · cases hadd
      exact h
    · next response hcast =>
      obtain ⟨⟨r, idx'⟩, hret, heq⟩ := Option.map_eq_some_iff.1 hadd
      cases heq
      have hidx' : idx'.Nonneg := by
        have hold := h _ _ hidx
        obtain ⟨z, rfl⟩ | ⟨v, rfl⟩ := keyCastAndExecute_some hcast
        · exact IndexContainer.add_nonneg IndexContainer.lawful_int hold hpos hret
        · exact IndexContainer.add_nonneg IndexContainer.lawful_float hold hpos hret
      exact h.replace hidx'

/-- `add` gives a row a position that is not negative. -/
theorem Nonneg.add {row : List Bytes} {res : Except Exn Bool} (h : e.Nonneg)
    (hadd : e.add fuel tableName row = some (res, e')) : e'.Nonneg := by
  have hpos : ∀ table : HeapFile, 0 ≤ table.nextPos := fun table => Int.natCast_nonneg _
  cases add_cases hadd with
  | noKey => exact h
  | atKey ex lookup getKey addKey => exact h.addKey (hpos _) addKey
  | atRow lookup getKey addKey add =>
    have hkey := h.addKey (hpos _) addKey
    exact hkey
  | done lookup getKey addKey add =>
    have hkey := h.addKey (hpos _) addKey
    exact hkey

/-! ### `create_index` -/

section
variable [Unspecified] {κ : Type} [KeyType κ] [IntCast κ] {alt : Alternative κ}

omit [IntCast κ] in
/-- Positions that are not negative may be loaded. -/
theorem bulkInto_nonneg {m m' : KeyedMap Index (IndexContainer SequentialIndex)}
    (halt : IndexContainer.Lawful alt) (h : KeyedMap.All IndexContainer.Nonneg m)
    {pairs : List (κ × Int)} (hpairs : ∀ p ∈ pairs, 0 ≤ p.2) {res : Except Exn Unit}
    (hret : bulkInto m index alt (some <| ·.bulkInsert (Unspecified.sort (·.1)) pairs) =
      some (res, m')) : KeyedMap.All IndexContainer.Nonneg m' := by
  unfold bulkInto at hret
  split at hret
  · cases hret
    exact h
  · next idx hidx =>
    obtain ⟨⟨r, idx'⟩, hcall, heq⟩ := Option.map_eq_some_iff.1 hret
    cases heq
    refine h.replace (IndexContainer.call_nonneg halt (h _ _ hidx) (fun si out hsi hout => ?_) hcall)
    cases hout
    exact hsi.bulkInsert (Unspecified.sort_perm _) hpairs

/-- An index is loaded with positions that are not negative. -/
theorem Nonneg.loadIndex {cast : Bytes → Except Exn κ} {recordSize : Nat} {res : Except Exn Unit}
    (halt : IndexContainer.Lawful alt) (h : e.Nonneg)
    (hprev : ∀ pos, e.prevPos = some pos → 0 ≤ pos)
    (hi : e.loadIndex fuel index .sequential alt cast recordSize = some (res, e')) :
    e'.Nonneg := by
  have hload : ∀ {selected r e1}, e.load index.table selected = (r, e1) →
      e1.Nonneg ∧ e1.prevPos = e.prevPos := by
    intro selected r e1 hl
    unfold DBEngine.load at hl
    split at hl <;> cases hl <;> exact ⟨h, rfl⟩
  unfold DBEngine.loadIndex at hi
  split at hi
  · next heq =>
    cases hi
    exact (hload heq).1
  · next records e1 heq =>
    obtain ⟨h1, hprev1⟩ := hload heq
    have hkeys := keyValues_nonneg cast recordSize records (hprev1 ▸ hprev)
    split at hi
    · cases hi
      exact h1
    · next keys prevPos hvalues =>
      have hpairs := hkeys.1 keys (by rw [hvalues])
      unfold bulkIndex at hi
      split_ifs at hi
      · cases hi
        exact h1
      · obtain ⟨⟨r, m⟩, hbulk, heq⟩ := Option.map_eq_some_iff.1 hi
        cases heq
        have hnew : IndexContainer.Nonneg (alt.make (.createFile false)) :=
          (halt.1 _).2 (SequentialIndex.nonneg_createFile false)
        exact bulkInto_nonneg halt (h1.emplace hnew) hpairs hbulk

/-- So `create_index` keeps the positions from being negative. -/
theorem Nonneg.createIndex [IntCast FloatType.Value] {columnName : Bytes} {res : Except Exn Unit}
    (h : e.Nonneg) (hprev : ∀ pos, e.prevPos = some pos → 0 ≤ pos)
    (hi : e.createIndex fuel tableName columnName .sequential = some (res, e')) : e'.Nonneg := by
  unfold DBEngine.createIndex at hi
  split at hi
  · cases hi
    exact h
  · simp only at hi
    split at hi
    · cases hi
      exact h
    · cases hi
      exact h
    · exact h.loadIndex IndexContainer.lawful_int hprev hi
    · exact h.loadIndex IndexContainer.lawful_float hprev hi
    · cases hi
      exact h

end

/-! ## The loop of `remove` -/

/-- The position that stays is not negative. -/
theorem removeKey_nonneg {indexes : List Index} (hnodup : indexes.Nodup)
    (h : ∀ index ∈ indexes, ∀ idx, e.sequentialIndexes.lookup index = some idx → idx.Nonneg)
    {rawPos pos : Int} (hraw : 0 ≤ rawPos)
    (hrem : removeKey fuel tableName key indexes e rawPos = some (.ok pos, e')) : 0 ≤ pos := by
  induction indexes generalizing e rawPos with
  | nil =>
    cases hrem
    exact hraw
  | cons index indexes ih =>
    obtain ⟨hnot, hnodup⟩ := List.nodup_cons.1 hnodup
    have htail : ∀ i ∈ indexes, ∀ idx, e.sequentialIndexes.lookup i = some idx → idx.Nonneg :=
      fun i hi => h i (.tail _ hi)
    unfold removeKey at hrem
    split at hrem
    · exact ih hnodup htail hraw hrem
    · next idx hidx =>
      split_ifs at hrem
      · exact ih hnodup htail hraw hrem
      · simp only at hrem
        split at hrem
        · cases hrem
        · exact ih hnodup htail hraw hrem
        · next response hcast =>
          obtain ⟨⟨res, idx'⟩, hresponse, hrem⟩ := Option.bind_eq_some_iff.1 hrem
          cases res with
          | error ex => cases hrem
          | ok pos1 =>
            have hpos1 : 0 ≤ pos1 := by
              have hold := h index (.head _) idx hidx
              obtain ⟨_, -, hcast⟩ := bind_eq_ok.1 hcast
              obtain ⟨_, -, hcast⟩ := bind_eq_ok.1 hcast
              obtain ⟨z, rfl⟩ | ⟨v, rfl⟩ := keyCastAndExecute_some hcast
              · exact IndexContainer.remove_nonneg IndexContainer.lawful_int hold hresponse
              · exact IndexContainer.remove_nonneg IndexContainer.lawful_float hold hresponse
            refine ih (e := e.setSequential index idx') hnodup (fun i hi idx1 hl => ?_) hpos1 hrem
            have hne : i ≠ index := fun heq => hnot (heq ▸ hi)
            exact htail i hi idx1 ((KeyedMap.lookup_replace_ne hne).symm.trans hl)

section
variable [Unspecified]

/-- A call of `remove` on a table with an `INT` column does not succeed, nor one on no table. -/
theorem Nonneg.remove_ne_ok (h : e.Nonneg)
    (hint : ∀ table, e.tablesRaw.lookup tableName = some table → .int ∈ table.attributeTypes)
    (key : Attribute) (removed : Bool) : e.remove fuel tableName key ≠ some (.ok removed, e') := by
  intro hrem
  unfold DBEngine.remove at hrem
  obtain ⟨⟨res, e1⟩, hkey, hrem⟩ := Option.bind_eq_some_iff.1 hrem
  cases res with
  | error ex => cases hrem
  | ok rawPos =>
    have hnodup := (Unspecified.order_perm e.sequentialIndexes.keys).nodup_iff.2
      (AList.keys_nodup e.sequentialIndexes)
    have hraw := removeKey_nonneg hnodup (fun index _ => h index) le_rfl hkey
    have htables := (removeKey_state hkey).1
    simp only [if_neg (show rawPos ≠ -1 by omega), tableAt] at hrem
    cases hlookup : e1.tablesRaw.lookup tableName with
    | none =>
      simp only [hlookup] at hrem
      cases hrem
    | some table =>
      obtain ⟨ex, hex⟩ := HeapFile.remove_throws (hint table (htables ▸ hlookup)) rawPos
      simp only [hlookup, hex] at hrem
      cases hrem

/-! ## Runs -/

variable [IntCast FloatType.Value]

/-- The states that `create_table`, `create_index` for a sequential index and `add` lead to, and the
rows that have been added, each with its table. -/
inductive Built : List (Bytes × List Bytes) → DBEngine → Prop
  | start : Built [] {}
  | createTable {log : List (Bytes × List Bytes)} {e : DBEngine} (tableName primaryKey : Bytes)
      (types : List FieldType) (attributeNames : List Bytes) (run : Built log e) :
      Built log (e.createTable tableName primaryKey types attributeNames).2
  | createIndex {log : List (Bytes × List Bytes)} {e e' : DBEngine} {fuel : Nat}
      {tableName columnName : Bytes} {res : Except Exn Unit} (run : Built log e)
      (createIndex : e.createIndex fuel tableName columnName .sequential = some (res, e')) :
      Built log e'
  | added {log : List (Bytes × List Bytes)} {e e' : DBEngine} {fuel : Nat} {tableName : Bytes}
      {row : List Bytes} (run : Built log e)
      (add : e.add fuel tableName row = some (.ok true, e')) : Built (log ++ [(tableName, row)]) e'
  | refused {log : List (Bytes × List Bytes)} {e e' : DBEngine} {fuel : Nat} {tableName : Bytes}
      {row : List Bytes} {ex : Exn} (run : Built log e)
      (add : e.add fuel tableName row = some (.error ex, e')) : Built log e'

/-- The rows of a table. -/
def live (log : List (Bytes × List Bytes)) (tableName : Bytes) : List (List Bytes) :=
  (log.filter (·.1 = tableName)).map (·.2)

variable {log : List (Bytes × List Bytes)}

/-- A run of successful calls is a run. -/
theorem Built.reached (h : Built log e) : Reached e := by
  induction h with
  | start => exact .start
  | createTable tableName primaryKey types attributeNames _ ih => exact ih.createTable _ _ _ _
  | @createIndex log e e' fuel tableName columnName res _ hi ih =>
    have hp : e.perform fuel tableName (.createIndex columnName .sequential) =
        some (res.map fun _ => .unit, e') := by
      rw [perform, hi]
      rfl
    exact ih.perform hp
  | @added log e e' fuel tableName row _ hadd ih =>
    have hp : e.perform fuel tableName (.add row) = some (.ok (.flag true), e') := by
      rw [perform, hadd]
      rfl
    exact ih.perform hp
  | @refused log e e' fuel tableName row ex _ hadd ih =>
    have hp : e.perform fuel tableName (.add row) = some (.error ex, e') := by
      rw [perform, hadd]
      rfl
    exact ih.perform hp

/-- No index holds a negative position after a run. -/
theorem Built.nonneg (h : Built log e) : e.Nonneg := by
  induction h with
  | start => exact KeyedMap.all_empty _
  | createTable _ _ _ _ _ ih => exact ih.createTable _ _ _
  | createIndex run hi ih => exact ih.createIndex run.reached.counted.prevPos hi
  | added _ hadd ih => exact ih.add hadd
  | refused _ hadd ih => exact ih.add hadd

/-- `remove` of a primary key removes exactly one row: with a row of this key it gives `true`,
afterwards `load` gives all other rows in the same order and `search` finds nothing, and without one
it gives `false` and nothing has changed. -/
structure RemovesOne (e : DBEngine) (tableName : Bytes) (table : HeapFile) (rows : List (List Bytes))
    (value : Bytes) (k : Int) : Prop where
  present : ∀ n (hn : n < rows.length), RowKey table rows[n] k →
    ∃ e', Returns (e.remove · tableName ⟨table.primaryKey, value⟩) (.ok true, e') ∧
      (e'.load tableName table.attributeNames).1 = .ok ((rows.eraseIdx n).map fun row =>
        ({ fields := row } : Record).norm table.attributeTypes) ∧
      ∃ e'', Returns (e'.search · tableName ⟨table.primaryKey, value⟩ (fun _ => true)
        table.attributeNames) (.ok [], e'')
  absent : (∀ row ∈ rows, ¬ RowKey table row k) →
    Returns (e.remove · tableName ⟨table.primaryKey, value⟩) (.ok false, e)

/-- No call removes exactly one row: whatever the state, the table and the key, there is a row of
this key and `remove` does not give `true`, or there is none and it does not give `false`. -/
theorem not_removesOne (h : Built log e) (hlookup : e.tablesRaw.lookup tableName = some table)
    (hint : table.getType table.primaryKey = .ok .int) (value : Bytes) (k : Int) :
    ¬ e.RemovesOne tableName table (live log tableName) value k := by
  have hno : ∀ removed e', ¬ Returns (e.remove · tableName ⟨table.primaryKey, value⟩)
      (.ok removed, e') := fun removed e' hret => by
    obtain ⟨fuel, hfuel⟩ := hret.exists
    refine h.nonneg.remove_ne_ok (fun table1 hl => ?_) _ removed hfuel
    cases hlookup.symm.trans hl
    obtain ⟨i, -, htype, -⟩ := HeapFile.getKey_of_int hint
    exact List.mem_of_getElem? htype
  rintro ⟨hpresent, habsent⟩
  refine hno false e (habsent fun row hrow hk => ?_)
  obtain ⟨n, hn, rfl⟩ := List.mem_iff_getElem.1 hrow
  obtain ⟨e', hret, -⟩ := hpresent n hn hk
  exact hno true e' hret

end

end DBEngine

end

section
attribute [local instance] noFloats firstChoice noFloatsCast

/-- A table with one row. -/
theorem not_removesOne_sample : ∃ e log table, DBEngine.Built log e ∧
    e.tablesRaw.lookup (ascii "t") = some table ∧
    ¬ e.RemovesOne (ascii "t") table (DBEngine.live log (ascii "t")) (ascii "7") 7 := by
  have h1 := DBEngine.Built.start.createTable (ascii "t") (ascii "id") [.int] [ascii "id"]
  have h2 : DBEngine.Built _ _ :=
    h1.added (rfl : DBEngine.add _ 5 (ascii "t") [ascii "7"] = some (.ok true, _))
  exact ⟨_, _, _, h2, rfl, DBEngine.not_removesOne h2 rfl rfl _ _⟩

/-- A key that is not there: `remove` throws. With the key of the only row, it throws and the file
has been truncated. -/
theorem remove_throws : ∃ e log table, DBEngine.Built log e ∧
    e.tablesRaw.lookup (ascii "t") = some table ∧
    DBEngine.live log (ascii "t") = [[ascii "7"]] ∧ table.data ≠ [] ∧
    (∃ ex e', Returns (e.remove · (ascii "t") ⟨ascii "id", ascii "8"⟩) (.error ex, e')) ∧
    (∃ ex e' table', Returns (e.remove · (ascii "t") ⟨ascii "id", ascii "7"⟩) (.error ex, e') ∧
      e'.tablesRaw.lookup (ascii "t") = some table' ∧ table'.data = []) ∧
    ¬ e.RemovesOne (ascii "t") table (DBEngine.live log (ascii "t")) (ascii "8") 8 ∧
    ¬ e.RemovesOne (ascii "t") table (DBEngine.live log (ascii "t")) (ascii "7") 7 := by
  have h1 := DBEngine.Built.start.createTable (ascii "t") (ascii "id") [.int] [ascii "id"]
  have h2 : DBEngine.Built _ _ :=
    h1.added (rfl : DBEngine.add _ 5 (ascii "t") [ascii "7"] = some (.ok true, _))
  refine ⟨_, _, _, h2, rfl, rfl, by decide, ⟨_, _, .of_add 5 fun _ => rfl⟩,
    ⟨_, _, _, .of_add 5 fun _ => rfl, rfl, rfl⟩, fun hone => ?_, fun hone => ?_⟩
  · have hret := hone.absent fun row hrow ⟨attr, hattr, hk⟩ => by
      obtain rfl := List.mem_singleton.1 hrow
      cases hattr
      exact absurd hk (by decide)
    cases hret.unique (.of_add 5 fun _ => rfl)
  · obtain ⟨e', hret, -⟩ := hone.present 0 (by decide) ⟨⟨ascii "id", ascii "7"⟩, rfl, rfl⟩
    cases hret.unique (.of_add 5 fun _ => rfl)

end

end DbEngine

end Rdbms
