import Rdbms.Sequential.Run

/-!
# Loading records one by one

`loadRecords` adds its records with `addNotRebuild`, which leaves the overflow file as long as it
gets, and rebuilds the files once at the end. It stops at the first record that cannot be added; the
ones before it stay, and the files are not rebuilt (`loadRecords_returns`).
-/

namespace Rdbms

namespace SequentialIndex
variable {κ : Type} [KeyType κ]

/-- `addNotRebuild`. -/
def addNotRebuild (si : SequentialIndex κ) (fuel : Nat) (data : κ) (rawPos : Int) :
    Option (Outcome (SequentialIndex κ) (List Int)) :=
  (si.add fuel data rawPos false).map fun
    | (.error _, si) => (.error (.runtimeError "Couldn't add not rebuild"), si)
    | (.ok records, si) => (.ok records, si)

/-- The loop of `loadRecords`. -/
def addAll (fuel : Nat) : SequentialIndex κ → List (κ × Int) →
    Option (Outcome (SequentialIndex κ) Unit)
  | si, [] => some (.ok (), si)
  | si, (data, rawPos) :: records => do
    match ← si.addNotRebuild fuel data rawPos with
    | (.error e, si) => some (.error e, si)
    | (.ok _, si) => addAll fuel si records

/-- `loadRecords`. -/
def loadRecords (si : SequentialIndex κ) (fuel : Nat) (records : List (κ × Int)) :
    Option (Outcome (SequentialIndex κ) (List Int)) := do
  match ← addAll fuel si records with
  | (.error _, si) => some (.error (.runtimeError "Couldn't load records"), si)
  | (.ok (), si) => (si.rebuild fuel).map (.ok [], ·)

variable {si si' : SequentialIndex κ} {c : List (SequentialIndexRecord κ)} {m : Multimap κ Int}
  {k : κ} {v : Int} {rebuild : Bool} {records : List Int}

/-! ## What `add` answers -/

/-- `add` has one exception only. -/
theorem addEnd_error_eq {fuel : Nat} {res : Outcome (SequentialIndex κ) Unit} {e : Exn}
    (h : addEnd fuel rebuild records res = some (.error e, si')) :
    e = .runtimeError "Couldn't add" := by
  obtain ⟨_ | u, si⟩ := res
  · cases h
    rfl
  · simp only [addEnd] at h
    split at h
    · obtain ⟨_, -, heq⟩ := Option.map_eq_some_iff.1 h
      cases heq
    · cases h

/-- `add` reports the positions that it is given. -/
theorem addEnd_ok_eq {fuel : Nat} {res : Outcome (SequentialIndex κ) Unit} {recs : List Int}
    (h : addEnd fuel rebuild records res = some (.ok recs, si')) : recs = records := by
  obtain ⟨_ | u, si⟩ := res
  · cases h
  · simp only [addEnd] at h
    split at h
    · obtain ⟨_, -, heq⟩ := Option.map_eq_some_iff.1 h
      cases heq
      rfl
    · cases h
      rfl

/-- `add` has one exception only. -/
theorem add_error_eq {e : Exn} (h : Returns (si.add · k v rebuild) (.error e, si')) :
    e = .runtimeError "Couldn't add" := by
  obtain ⟨fuel, hfuel⟩ := h.exists
  obtain ⟨bsr, -, hfuel⟩ := Option.bind_eq_some_iff.1 hfuel
  obtain ⟨res, -, hend⟩ := Option.bind_eq_some_iff.1 hfuel
  exact addEnd_error_eq hend

/-- The response has the position, twice for the first record. -/
theorem WellFormed.add_ok (h : si.WellFormed c)
    (hret : Returns (si.add · k v rebuild) (.ok records, si')) :
    records = if c = [] then [v, v] else [v] := by
  by_cases he : si.indexFile = []
  · obtain ⟨fuel, hfuel⟩ := hret.exists
    obtain ⟨bsr, hbsr, hfuel⟩ := Option.bind_eq_some_iff.1 hfuel
    obtain ⟨res, -, hend⟩ := Option.bind_eq_some_iff.1 hfuel
    rw [binarySearch_empty he] at hbsr
    cases hbsr
    rw [if_pos (h.linked.empty he)]
    exact addEnd_ok_eq hend
  · obtain ⟨bsr', hbs, hf⟩ := binarySearch_found (h.linked.searchable he) k
    obtain ⟨fuel, hfuel, hbs⟩ := (hret.and hbs).exists
    obtain ⟨bsr, hbsr, hfuel⟩ := Option.bind_eq_some_iff.1 hfuel
    obtain ⟨res, -, hend⟩ := Option.bind_eq_some_iff.1 hfuel
    cases hbs.symm.trans hbsr
    rw [if_neg hf.location_ne] at hend
    rw [if_neg fun hc => he (by rw [← h.index, hc]; rfl)]
    exact addEnd_ok_eq hend

/-- The keys of the map are those of the chain. -/
theorem Contents.mem_keys_iff (hm : si.Contents c m) : k ∈ m.keys ↔ ∃ r ∈ c, r.data = k := by
  rw [hm.keys_eq key_of_recordHolds, List.mem_map]

/-- The map has no keys when the chain has no records. -/
theorem Contents.keys_eq_nil_iff (hm : si.Contents c m) : m.keys = [] ↔ c = [] := by
  rw [hm.keys_eq key_of_recordHolds, List.map_eq_nil_iff]

/-- `add` with all that it answers: a primary key that is there is refused, and any other position
goes to its key. -/
theorem WellFormed.add_cases (h : si.WellFormed c) (hm : si.Contents c m) (v : Int)
    (hplace : ¬ si.HeaderMisplaced k) (rebuild : Bool) :
    ((si.pk = true ∧ k ∈ m.keys) ∧
      Returns (si.add · k v rebuild) (.error (.runtimeError "Couldn't add"), si)) ∨
    ¬ (si.pk = true ∧ k ∈ m.keys) ∧ ∃ si' c',
      Returns (si.add · k v rebuild) (.ok (if m.keys = [] then [v, v] else [v]), si') ∧
        si'.pk = si.pk ∧ si'.WellFormed c' ∧ si'.Contents c' (m.insert k v) := by
  obtain ⟨res, hret, hins⟩ := add_returns h hm v hplace rebuild
  cases hins with
  | refused hpk hk =>
    obtain rfl := add_error_eq hret
    exact .inl ⟨⟨hpk, hm.mem_keys_iff.2 hk⟩, hret⟩
  | @done records si' c' hnew hpk hwf' hm' =>
    refine .inr ⟨fun hk => ?_, si', c', ?_, hpk, hwf', hm'⟩
    · obtain ⟨r, hr, hrk⟩ := hm.mem_keys_iff.1 hk.2
      exact hnew hk.1 r hr hrk
    · rwa [if_congr hm.keys_eq_nil_iff rfl rfl, ← h.add_ok hret]

/-! ## A batch -/

/-- No header is misplaced in the loop of `loadRecords`. -/
def Placed : SequentialIndex κ → List (κ × Int) → Prop
  | _, [] => True
  | si, (k, v) :: records => ¬ si.HeaderMisplaced k ∧
      ∀ recs si', Returns (si.addNotRebuild · k v) (.ok recs, si') → Placed si' records

/-- An `add` that throws ends the loop. -/
theorem addAll_error {rest : List (κ × Int)} {e : Exn}
    (h : Returns (si.addNotRebuild · k v) (.error e, si')) :
    Returns (addAll · si ((k, v) :: rest)) (.error e, si') := by
  filter_upwards [h] with fuel hfuel
  rw [addAll, hfuel]
  rfl

/-- An `add` that succeeds leaves the rest to the loop. -/
theorem addAll_ok {rest : List (κ × Int)} {out : Outcome (SequentialIndex κ) Unit}
    (h : Returns (si.addNotRebuild · k v) (.ok records, si'))
    (hout : Returns (addAll · si' rest) out) : Returns (addAll · si ((k, v) :: rest)) out := by
  filter_upwards [h, hout] with fuel hfuel hrest
  rw [addAll, hfuel]
  exact hrest

/-- The loop of `loadRecords`. -/
theorem WellFormed.addAll_returns : ∀ {records : List (κ × Int)} {si : SequentialIndex κ}
    {c : List (SequentialIndexRecord κ)} {m : Multimap κ Int}, si.WellFormed c → si.Contents c m →
    si.Placed records → ∃ res si' c', Returns (addAll · si records) (res, si') ∧
      (res = .ok () ↔ (m.insertAll si.pk records).1 = true) ∧ si'.pk = si.pk ∧ si'.WellFormed c' ∧
      si'.Contents c' (m.insertAll si.pk records).2
  | [], si, c, m, h, hm, _ => ⟨.ok (), si, c, .of_eq fun _ => rfl, by simp [Multimap.insertAll], rfl, h, hm⟩
  | (k, v) :: rest, si, c, m, h, hm, ⟨hplace, hplaced⟩ => by
    rcases h.add_cases hm v hplace false with ⟨hk, hret⟩ | ⟨hk, si1, c1, hret, hpk, h1, hm1⟩
    · have hret' : Returns (si.addNotRebuild · k v)
        (.error (.runtimeError "Couldn't add not rebuild"), si) := hret.map _
      refine ⟨_, si, c, addAll_error hret', ?_, rfl, h, ?_⟩
      · simp [Multimap.insertAll, hk]
      · rwa [Multimap.insertAll, if_pos hk]
    · have hret' : Returns (si.addNotRebuild · k v)
        (.ok (if m.keys = [] then [v, v] else [v]), si1) := hret.map _
      obtain ⟨res, si', c', hrest, hres, hpk', h', hm'⟩ :=
        h1.addAll_returns hm1 (hplaced _ _ hret')
      rw [hpk] at hres hm'
      refine ⟨res, si', c', addAll_ok hret' hrest, ?_, hpk'.trans hpk, h', ?_⟩
      · rwa [Multimap.insertAll, if_neg hk]
      · rwa [Multimap.insertAll, if_neg hk]

/-- `loadRecords` adds the records in their order up to the first one that is refused, which makes it
throw; without one it rebuilds the files. -/
theorem WellFormed.loadRecords_returns (h : si.WellFormed c) (hm : si.Contents c m)
    {records : List (κ × Int)} (hplaced : si.Placed records) :
    ∃ si' c', Returns (si.loadRecords · records)
      (if (m.insertAll si.pk records).1 then .ok [] else
        .error (.runtimeError "Couldn't load records"), si') ∧ si'.pk = si.pk ∧ si'.WellFormed c' ∧
      si'.Contents c' (m.insertAll si.pk records).2 := by
  obtain ⟨res, si1, c1, hret, hres, hpk, h1, hm1⟩ := h.addAll_returns hm hplaced
  cases res with
  | error e =>
    have hnot : ¬ (m.insertAll si.pk records).1 = true := fun hc => by cases hres.2 hc
    refine ⟨si1, c1, ?_, hpk, h1, hm1⟩
    rw [if_neg hnot]
    filter_upwards [hret] with fuel hfuel
    rw [loadRecords, hfuel]
    rfl
  | ok u =>
    obtain ⟨si2, hrebuild, hpk', h2, hm2, -⟩ := rebuild_wellFormed h1.chain h1.sorted hm1
    refine ⟨si2, si2.indexFile, ?_, hpk'.trans hpk, h2, hm2⟩
    rw [if_pos (hres.1 rfl)]
    filter_upwards [hret, hrebuild] with fuel hfuel hfuel'
    rw [loadRecords, hfuel]
    show (si1.rebuild fuel).map ((.ok [] : Except Exn (List Int)), ·) = _
    rw [hfuel']
    rfl

end SequentialIndex

end Rdbms
