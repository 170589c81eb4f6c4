import Rdbms.Sequential.Insert
import Rdbms.Sequential.BulkInsert

/-!
# Primary keys

With `PK` set, `add` never links a duplicate, so every record has `dup_pos` `-1` and a lookup finds
one position at most (`Single`). This does not depend on the order of the keys: it also holds after
a header has gone to the overflow file (`HeaderMisplaced`), where the chain may be out of order and
keys may be lost. `bulk_insert` makes no such check.
-/

namespace Rdbms

namespace SequentialIndex
variable {κ : Type} [KeyType κ] {si si' : SequentialIndex κ} {k : κ} {l : Int × FilePos}
  {r : SequentialIndexRecord κ} {aux aux' : List (SequentialIndexRecord κ)} {p : Int}
  {bsr : BinarySearchResponse κ}

/-! ## The binary search on any index file -/

/-- What the binary search reports whatever the order of the keys. -/
structure Reported (si : SequentialIndex κ) (k : κ) (bsr : BinarySearchResponse κ) : Prop where
  sir : bsr.sir ∈ si.indexFile
  header : bsr.header = true → bsr.sih = si.header
  prev : bsr.location = .recPrev → bsr.header = false →
    bsr.sirPrev ∈ si.indexFile ∧ bsr.sirPrev.data < k
  next : bsr.location = .recNext → bsr.sir.data < k

/-- The bounds are in range, and the stream is good. -/
def InRange (si : SequentialIndex κ) (s : BinarySearchState κ) : Prop :=
  0 ≤ s.logicalLeft ∧ s.logicalLeft < si.indexFile.length ∧
    s.logicalRight ≤ si.indexFile.length ∧ s.file = .index

/-- What one round has read, at a middle inside the file. -/
theorem binarySearchRead_mem (hown : si.OwnIndex) {s : BinarySearchState κ} (hs : si.InRange s)
    (hle : s.logicalLeft ≤ s.logicalRight) :
    ∃ (m : Nat) (hm : m < si.indexFile.length), (s.logicalLeft + s.logicalRight) / 2 = (m : Int) ∧
      (si.binarySearchRead m s).sirCur = si.indexFile[m] ∧
      ((si.binarySearchRead m s).sirCur.currentPos = sequentialHeaderSize →
        (si.binarySearchRead m s).sih = si.header) ∧
      ((si.binarySearchRead m s).sirCur.currentPos ≠ sequentialHeaderSize →
        (si.binarySearchRead m s).sirPrev ∈ si.indexFile) ∧
      (si.binarySearchRead m s).file = .index := by
  obtain ⟨h0, hlt, hn, hfile⟩ := hs
  obtain ⟨m, hm⟩ : ∃ m : Nat, (s.logicalLeft + s.logicalRight) / 2 = (m : Int) :=
    ⟨((s.logicalLeft + s.logicalRight) / 2).toNat, by omega⟩
  have hmn : m < si.indexFile.length := by omega
  obtain ⟨hcur, hsih, hprev, -, hgood⟩ := binarySearchRead_spec hown hmn s hfile
  refine ⟨m, hmn, hm, hcur, fun hf => ?_, fun hf => ?_, hgood⟩
  · rw [hcur, hown m hmn, indexLayout_pos, sequentialHeaderSize] at hf
    exact hsih (by omega)
  · rw [hcur, hown m hmn, indexLayout_pos, sequentialHeaderSize] at hf
    obtain ⟨j, rfl⟩ := Nat.exists_eq_succ_of_ne_zero (show m ≠ 0 by omega)
    rw [hprev j rfl]
    exact List.getElem_mem _

/-- One round. -/
theorem binarySearchBody_reported (hown : si.OwnIndex) (s : BinarySearchState κ)
    (hs : si.InRange s) :
    (∃ bsr, Returns (fun _ => si.binarySearchBody k s) (.inr bsr) ∧
        bsr.file = .index ∧ (bsr.location = .emptyFile ∨ si.Reported k bsr)) ∨
      ∃ s', Returns (fun _ => si.binarySearchBody k s) (.inl s') ∧ si.InRange s' ∧
        (s'.logicalRight + 1 - s'.logicalLeft).toNat <
          (s.logicalRight + 1 - s.logicalLeft).toNat := by
  by_cases hle : s.logicalLeft ≤ s.logicalRight
  · obtain ⟨m, hmn, hm, hcur, hsih, hprev, hgood⟩ := binarySearchRead_mem hown hs hle
    obtain ⟨h0, hlt, hn, -⟩ := hs
    obtain ⟨hleft, hright⟩ := si.binarySearchRead_bounds m s
    obtain ⟨res, hbody, hround⟩ := binarySearchBody_round si k hle
    rw [hm] at hround
    generalize si.binarySearchRead m s = s1 at *
    have hret : Returns (fun _ => si.binarySearchBody k s) res := .of_eq fun _ => hbody
    have hmem : s1.sirCur ∈ si.indexFile := hcur ▸ List.getElem_mem hmn
    cases hround with
    | cur _ => exact .inl ⟨_, hret, hgood, .inr ⟨hmem, by simp, by simp, by simp⟩⟩
    | next hlt => exact .inl ⟨_, hret, hgood, .inr ⟨hmem, by simp, by simp, fun _ => hlt⟩⟩
    | first hfirst _ =>
      exact .inl ⟨_, hret, hgood, .inr ⟨hmem, fun _ => hsih hfirst, by simp, by simp⟩⟩
    | prev hfirst hlt _ =>
      exact .inl ⟨_, hret, hgood, .inr ⟨hmem, by simp, fun _ _ => ⟨hprev hfirst, hlt⟩, by simp⟩⟩
    | right _ hlast =>
      -- the middle is not the last record, so the new left bound is inside the file
      have hpos : s1.sirCur.currentPos + sequentialIndexSize = indexLayout.pos (m + 1) := by
        rw [hcur, hown m hmn]
        exact Layout.pos_succ.symm
      have hne : m + 1 ≠ si.indexFile.length := fun he => hlast (hpos.trans (congrArg _ he))
      refine .inr ⟨_, hret, ⟨?_, ?_, ?_, hgood⟩, ?_⟩
      · show (0 : Int) ≤ m + 1
        omega
      · show (m : Int) + 1 < _
        omega
      · show s1.logicalRight ≤ _
        omega
      · show (s1.logicalRight + 1 - ((m : Int) + 1)).toNat < _
        omega
    | left _ =>
      refine .inr ⟨_, hret, ⟨?_, ?_, ?_, hgood⟩, ?_⟩
      · show 0 ≤ s1.logicalLeft
        omega
      · show s1.logicalLeft < _
        omega
      · show (m : Int) - 1 ≤ _
        omega
      · show ((m : Int) - 1 + 1 - s1.logicalLeft).toNat < _
        omega
  · refine .inl ⟨{ sirPrev := s.sirPrev, sir := s.sirCur, sirNext := s.sirNext, file := s.file },
      .of_eq fun _ => ?_, hs.2.2.2, .inl rfl⟩
    rw [binarySearchBody, if_neg hle]

/-- The binary search comes back, and its stream is good. -/
theorem binarySearch_reported (hown : si.OwnIndex) (k : κ) :
    ∃ bsr, Returns (si.binarySearch · k) bsr ∧
      bsr.file = .index ∧ (bsr.location = .emptyFile ∨ si.Reported k bsr) := by
  by_cases hne : si.indexFile = []
  · exact ⟨_, .of_eq fun n => binarySearch_empty hne n, rfl, .inl rfl⟩
  · have hpos : (0 : Int) < si.indexFile.length :=
      Int.natCast_pos.2 (List.length_pos_of_ne_nil hne)
    obtain ⟨bsr, hret, hf⟩ := LoopReturns.of_measure (I := si.InRange)
      (Q := fun bsr => bsr.file = .index ∧ (bsr.location = .emptyFile ∨ si.Reported k bsr))
      (fun s => (s.logicalRight + 1 - s.logicalLeft).toNat)
      (fun s hs => binarySearchBody_reported hown s hs)
      { logicalLeft := 0, logicalRight := si.indexFile.length }
      ⟨le_rfl, hpos, le_rfl, rfl⟩
    refine ⟨bsr, hret.returns.congr fun n => ?_, hf⟩
    rw [binarySearch, if_neg hne]

/-! ## Runs through the overflow file -/

/-- The overflow records from a link on end at a link into the index file. -/
inductive Ends (aux : List (SequentialIndexRecord κ)) : Int × FilePos → Prop
  | index {l : Int × FilePos} : l.2 = .indexFile → Ends aux l
  | aux {l : Int × FilePos} {r : SequentialIndexRecord κ} : l.2 ≠ .indexFile →
      auxLayout.read aux l.1 = some r → Ends aux r.link → Ends aux l

section
omit [KeyType κ]

/-- A run ends in another file that has its records, relinked so that they end too. -/
theorem Ends.imp (h : Ends aux l) (himp : ∀ p r, auxLayout.read aux p = some r →
    Ends aux' r.link → ∃ r', auxLayout.read aux' p = some r' ∧ Ends aux' r'.link) :
    Ends aux' l := by
  induction h with
  | index hl => exact .index hl
  | aux hl hr _ ih =>
    obtain ⟨r', hr', hends⟩ := himp _ _ hr ih
    exact .aux hl hr' hends

/-- A run is still there when a record is appended. -/
theorem Ends.append (h : Ends aux l) (x : SequentialIndexRecord κ) : Ends (aux ++ [x]) l :=
  h.imp fun _ r hr hends => ⟨r, Layout.read_append hr, hends⟩

/-- The first record of a run. -/
theorem Ends.exists_read (h : Ends aux l) (hl : l.2 ≠ .indexFile) :
    ∃ r, auxLayout.read aux l.1 = some r ∧ Ends aux r.link := by
  cases h with
  | index hf => exact absurd hf hl
  | aux _ hr hends => exact ⟨_, hr, hends⟩

end

/-! ## Indexes without duplicates -/

/-- What is said of every record: its place, no duplicates, and a run behind it that ends. -/
structure Lone (aux : List (SequentialIndexRecord κ)) (p : Int) (file : FilePos)
    (r : SequentialIndexRecord κ) : Prop where
  loc : r.loc = (p, file)
  dupPos : r.dupPos = -1
  ends : Ends aux r.link

/-- An index in which no record has duplicates. -/
structure Single (si : SequentialIndex κ) : Prop where
  pk : si.pk = true
  index : ∀ p r, indexLayout.read si.indexFile p = some r → Lone si.auxFile p .indexFile r
  aux : ∀ p r, auxLayout.read si.auxFile p = some r → Lone si.auxFile p .auxFile r
  header : Ends si.auxFile si.header.link
  first : si.header.nextFile = .indexFile → si.header.nextPos = -1 ∨
    ∃ r, indexLayout.read si.indexFile si.header.nextPos = some r

namespace Single

omit [KeyType κ] in
/-- A new index has no records. -/
theorem createFile : (createFile true : SequentialIndex κ).Single where
  pk := rfl
  index _ _ h := nomatch Layout.mem_of_read h
  aux _ _ h := nomatch Layout.mem_of_read h
  header := .index rfl
  first _ := .inl rfl

section
omit [KeyType κ]

/-- The records of the index file store their own positions. -/
theorem ownIndex (h : si.Single) : si.OwnIndex := by
  intro i hi
  have hread : indexLayout.read si.indexFile (indexLayout.pos i) = some si.indexFile[i] := by
    rw [Layout.read_pos, List.getElem?_eq_getElem hi]
  exact congrArg Prod.fst (h.index _ _ hread).loc

/-- A record of the index file stands where it says. -/
theorem of_mem_index (h : si.Single) (hr : r ∈ si.indexFile) :
    indexLayout.read si.indexFile r.currentPos = some r ∧ Lone si.auxFile r.currentPos .indexFile r := by
  obtain ⟨p, hp⟩ := Layout.exists_read_of_mem (L := indexLayout) hr
  have hlone := h.index p r hp
  obtain rfl : r.currentPos = p := congrArg Prod.fst hlone.loc
  exact ⟨hp, hlone⟩

/-! ### Lookup -/

/-- A record without duplicates has one position. -/
theorem getAllRaw_returns (si : SequentialIndex κ) (hr : r.dupPos = -1) (records : List Int) :
    Returns (si.getAllRawCurrentRecords · r records) (records ++ [r.rawPos]) := by
  have hpositions : HasPositions duplicatesLayout si.duplicatesFile r r.rawPos [] :=
    ⟨rfl, [], Path.nil_iff.2 hr, rfl⟩
  exact Rdbms.getAllRaw_returns hpositions records

end

omit [KeyType κ] in
/-- A good stream reads the records of the overflow file. -/
theorem moveReadRecord_aux (hr : auxLayout.read si.auxFile p = some r)
    (x : SequentialIndexRecord κ) : si.moveReadRecord .aux p x = (r, .aux) :=
  moveReadRecord_aux_of_readLink (l := (p, .auxFile)) hr nofun x

omit [KeyType κ] in
/-- What is read from the overflow file over one of its records is again one of its records. -/
theorem moveReadRecord_aux_mem {file : Stream} (hfile : file.file = .aux) (hr : r ∈ si.auxFile) :
    (si.moveReadRecord file p r).1 ∈ si.auxFile := by
  simp only [moveReadRecord, hfile]
  exact moveReadRecord_mem hr

/-- The walk stops at a record that is not below the key, or that ends its run. -/
theorem searchAux_stops (si : SequentialIndex κ) (hdup : r.dupPos = -1)
    (hstop : ¬ (r.data < k ∧ r.nextFile ≠ .indexFile ∧ r.nextPos ≠ endOfFile)) :
    ∃ records, LoopReturns (si.searchAuxBody · k []) (r, .aux) (records, r) ∧
      records.length ≤ 1 := by
  by_cases heq : r.data = k
  · refine ⟨_, .done (((getAllRaw_returns si hdup []).map fun records =>
      Sum.inr (records, r)).congr fun fuel => ?_), Nat.le_refl 1⟩
    rw [searchAuxBody, if_pos heq.le, if_pos heq]
  · refine ⟨[], .done (.of_eq fun fuel => ?_), Nat.zero_le 1⟩
    by_cases hle : r.data ≤ k
    · have hend : r.nextFile = .indexFile ∨ r.nextPos = endOfFile := by
        by_contra hc
        rw [not_or] at hc
        exact hstop ⟨lt_of_le_of_ne hle heq, hc⟩
      rw [searchAuxBody, if_pos hle, if_neg heq, if_pos hend]
    · rw [searchAuxBody, if_neg hle]

/-- Along a run of the overflow file. -/
theorem searchAux_returns (h : si.Single) (hends : Ends si.auxFile l) :
    ∀ r, r.link = l → r.dupPos = -1 → ∃ records sir,
      LoopReturns (si.searchAuxBody · k []) (r, .aux) (records, sir) ∧ records.length ≤ 1 := by
  induction hends with
  | @index l hl =>
    rintro r rfl hdup
    obtain ⟨records, hret, hlen⟩ := searchAux_stops (k := k) si hdup fun hc => hc.2.1 hl
    exact ⟨records, r, hret, hlen⟩
  | @aux l r' hl hr _ ih =>
    rintro r rfl hdup
    by_cases hgo : r.data < k ∧ r.nextFile ≠ .indexFile ∧ r.nextPos ≠ endOfFile
    · obtain ⟨records, sir, hret, hlen⟩ := ih r' rfl (h.aux _ _ hr).dupPos
      refine ⟨records, sir, .step (.of_eq fun fuel => ?_) hret, hlen⟩
      have hnext : si.moveReadRecord .aux r.nextPos r = (r', .aux) := moveReadRecord_aux hr r
      rw [searchAuxBody, if_pos hgo.1.le, if_neg hgo.1.ne, if_neg (not_or.2 hgo.2), hnext]
    · obtain ⟨records, hret, hlen⟩ := searchAux_stops (k := k) si hdup hgo
      exact ⟨records, r, hret, hlen⟩

/-- The walk from a link that leads into the overflow file. -/
theorem walk_returns (h : si.Single) (hends : Ends si.auxFile l) (hl : l.2 ≠ .indexFile)
    (sir : SequentialIndexRecord κ) : ∃ records sir',
      Returns (searchAuxFile.walk si · k [] l.1 sir) (records, sir') ∧ records.length ≤ 1 := by
  obtain ⟨r, hr, hends'⟩ := hends.exists_read hl
  obtain ⟨records, sir', hret, hlen⟩ := h.searchAux_returns (k := k) hends' r rfl (h.aux _ _ hr).dupPos
  refine ⟨records, sir', hret.returns.congr fun fuel => ?_, hlen⟩
  have hfirst : si.moveReadRecord .aux l.1 sir = (r, .aux) := moveReadRecord_aux hr sir
  rw [searchAuxFile.walk, hfirst]

/-- `searchAuxFile` behind a record or the header. -/
theorem searchAuxFile_returns (h : si.Single) (hb : si.Reported k bsr) :
    ∃ records sir, Returns (si.searchAuxFile · k bsr []) (records, sir) ∧ records.length ≤ 1 := by
  have main : ∀ (l : Int × FilePos) (sir : SequentialIndexRecord κ), Ends si.auxFile l →
      ∃ records sir', Returns (fun fuel => if l.2 = .indexFile then some ([], sir)
        else searchAuxFile.walk si fuel k [] l.1 sir) (records, sir') ∧ records.length ≤ 1 := by
    intro l sir hends
    by_cases hl : l.2 = .indexFile
    · exact ⟨[], sir, .of_eq fun fuel => if_pos hl, Nat.zero_le 1⟩
    · obtain ⟨records, sir', hret, hlen⟩ := h.walk_returns hends hl sir
      exact ⟨records, sir', hret.congr fun fuel => if_neg hl, hlen⟩
  cases hheader : bsr.header with
  | true =>
    obtain ⟨records, sir, hret, hlen⟩ := main bsr.sih.link bsr.sir (hb.header hheader ▸ h.header)
    refine ⟨records, sir, hret.congr fun fuel => ?_, hlen⟩
    rw [searchAuxFile, if_pos hheader]
    rfl
  | false =>
    have hno : ¬ bsr.header = true := by rw [hheader]; exact Bool.false_ne_true
    by_cases hprev : bsr.location = .recPrev
    · obtain ⟨hmem, -⟩ := hb.prev hprev hheader
      obtain ⟨records, sir, hret, hlen⟩ :=
        main bsr.sirPrev.link bsr.sirPrev (h.of_mem_index hmem).2.ends
      refine ⟨records, sir, hret.congr fun fuel => ?_, hlen⟩
      rw [searchAuxFile, if_neg hno, if_pos hprev]
      rfl
    · obtain ⟨records, sir, hret, hlen⟩ := main bsr.sir.link bsr.sir (h.of_mem_index hb.sir).2.ends
      refine ⟨records, sir, hret.congr fun fuel => ?_, hlen⟩
      rw [searchAuxFile, if_neg hno, if_neg hprev]
      rfl

/-- A lookup finds one position at most. -/
theorem search (h : si.Single) (k : κ) :
    ∃ res, Returns (si.search · k) res ∧ res.length ≤ 1 := by
  obtain ⟨bsr, hret, -, hb⟩ := binarySearch_reported h.ownIndex k
  by_cases hempty : bsr.location = .emptyFile
  · exact ⟨[], search_of_empty hret hempty, Nat.zero_le 1⟩
  replace hb := hb.resolve_left hempty
  by_cases hcur : bsr.location = .recCur
  · exact ⟨_, search_of_cur hret hcur (getAllRaw_returns si (h.of_mem_index hb.sir).2.dupPos []),
      Nat.le_refl 1⟩
  · obtain ⟨records, sir, haux, hlen⟩ := h.searchAuxFile_returns hb
    exact ⟨records, search_of_gap hret hempty hcur (haux.map Prod.fst), hlen⟩

/-! ### Insertion -/

section
omit [KeyType κ]

/-- A record at the end of the overflow file that links to where a run ends. -/
theorem insertAuxFile (h : si.Single) (sir : SequentialIndexRecord κ) (hdup : sir.dupPos = -1)
    (hends : Ends si.auxFile l) :
    (si.insertAuxFile (sir.setNext l.1 l.2)).1.Single ∧
      ∃ x, auxLayout.read (si.insertAuxFile (sir.setNext l.1 l.2)).1.auxFile
        (auxLayout.endPos si.auxFile) = some x ∧ x.link = l := by
  have hlone : ∀ {p file} {r : SequentialIndexRecord κ}, Lone si.auxFile p file r →
      Lone (si.insertAuxFile (sir.setNext l.1 l.2)).1.auxFile p file r := fun hr =>
    ⟨hr.loc, hr.dupPos, hr.ends.append _⟩
  refine ⟨⟨h.pk, fun p r hr => hlone (h.index p r hr), fun p r hr => ?_, h.header.append _,
    h.first⟩, _, Layout.read_endPos_append, rfl⟩
  rcases Layout.read_append_inv hr with hr | ⟨rfl, rfl⟩
  · exact hlone (h.aux p r hr)
  · exact ⟨rfl, hdup, hends.append _⟩

/-- A header that links to a record of the overflow file. -/
theorem writeHeader (h : si.Single) {x : SequentialIndexRecord κ}
    (hx : auxLayout.read si.auxFile p = some x) :
    Single { si with header := ⟨p, .auxFile⟩ } where
  pk := h.pk
  index := h.index
  aux := h.aux
  header := .aux nofun hx (h.aux p x hx).ends
  first := nofun

/-- A record of the index file gets another link. -/
theorem relinkIndex (h : si.Single) (hends : Ends si.auxFile l) (hr : r ∈ si.indexFile) :
    Single { si with
      indexFile := indexLayout.write si.indexFile r.currentPos (r.setNext l.1 l.2) } where
  pk := h.pk
  index q y hy := by
    obtain ⟨hread, hlone⟩ := h.of_mem_index hr
    rw [Layout.read_write hread] at hy
    split_ifs at hy with hq
    · cases hy
      exact ⟨hq ▸ hlone.loc, hlone.dupPos, hends⟩
    · exact h.index q y hy
  aux := h.aux
  header := h.header
  first hf := by
    obtain hnil | ⟨y, hy⟩ := h.first hf
    · exact .inl hnil
    · obtain ⟨hread, -⟩ := h.of_mem_index hr
      refine .inr ?_
      rw [Layout.read_write hread]
      split_ifs
      · exact ⟨_, rfl⟩
      · exact ⟨y, hy⟩

/-- A record at the end of the index file. -/
theorem appendIndex (h : si.Single)
    (hr : Lone si.auxFile (indexLayout.endPos si.indexFile) .indexFile r) :
    Single { si with indexFile := si.indexFile ++ [r] } where
  pk := h.pk
  index q y hy := by
    rcases Layout.read_append_inv hy with hy | ⟨rfl, rfl⟩
    · exact h.index q y hy
    · exact hr
  aux := h.aux
  header := h.header
  first hf := (h.first hf).imp id fun ⟨y, hy⟩ => ⟨y, Layout.read_append hy⟩

/-- A record of the overflow file that links to another one, which links to where it did. -/
theorem relinkAux (h : si.Single) {x : SequentialIndexRecord κ} (hr : r ∈ si.auxFile)
    (hx : auxLayout.read si.auxFile p = some x) (hne : p ≠ r.currentPos) (hlink : x.link = r.link) :
    Single { si with
      auxFile := auxLayout.write si.auxFile r.currentPos (r.setNext p .auxFile) } := by
  obtain ⟨q, hq⟩ := Layout.exists_read_of_mem (L := auxLayout) hr
  have hlone := h.aux q r hq
  obtain rfl : r.currentPos = q := congrArg Prod.fst hlone.loc
  have hends : ∀ {l : Int × FilePos}, Ends si.auxFile l →
      Ends (auxLayout.write si.auxFile r.currentPos (r.setNext p .auxFile)) l := fun hl => by
    refine hl.imp fun q y hy hends => ?_
    rw [Layout.read_write hq]
    split_ifs with hqr
    · -- the record itself: its run now starts with `x`
      rw [hqr, hq] at hy
      cases hy
      refine ⟨_, rfl, .aux nofun (?_ : auxLayout.read _ p = some x) (hlink ▸ hends)⟩
      rw [Layout.read_write hq, if_neg hne, hx]
    · exact ⟨y, hy, hends⟩
  refine ⟨h.pk, fun q y hy => ?_, fun q y hy => ?_, hends h.header, h.first⟩
  · exact ⟨(h.index q y hy).loc, (h.index q y hy).dupPos, hends (h.index q y hy).ends⟩
  · have hy' : auxLayout.read (auxLayout.write si.auxFile r.currentPos (r.setNext p .auxFile)) q =
        some y := hy
    rw [Layout.read_write hq] at hy'
    split_ifs at hy' with hqr
    · cases hy'
      refine ⟨hqr ▸ hlone.loc, hlone.dupPos, .aux nofun (?_ : auxLayout.read _ p = some x)
        (hends (h.aux p x hx).ends)⟩
      rw [Layout.read_write hq, if_neg hne, hx]
    · exact ⟨(h.aux q y hy').loc, (h.aux q y hy').dupPos, hends (h.aux q y hy').ends⟩

end

/-- A header that has gone over the first record of the overflow file. -/
theorem overlay (h : si.Single) (header : SequentialIndexHeader) :
    Single { si with auxFile := si.auxFile.modifyHead (overlayHeader header) } := by
  have hread : ∀ q, auxLayout.read (si.auxFile.modifyHead (overlayHeader header)) q =
      (auxLayout.read si.auxFile q).map fun r =>
        if auxLayout.slot? q = some 0 then overlayHeader header r else r :=
    fun q => Layout.read_modifyHead _
  -- only the key and the position change
  have hkeep : ∀ (q : Int) (r : SequentialIndexRecord κ),
      (if auxLayout.slot? q = some 0 then overlayHeader header r else r).loc = r.loc ∧
      (if auxLayout.slot? q = some 0 then overlayHeader header r else r).dupPos = r.dupPos ∧
      (if auxLayout.slot? q = some 0 then overlayHeader header r else r).link = r.link := by
    intro q r
    split_ifs <;> exact ⟨rfl, rfl, rfl⟩
  have hends : ∀ {l : Int × FilePos}, Ends si.auxFile l →
      Ends (si.auxFile.modifyHead (overlayHeader header)) l := fun hl =>
    hl.imp fun q r hr hends => ⟨_, by rw [hread, hr]; rfl, (hkeep q r).2.2 ▸ hends⟩
  refine ⟨h.pk, fun q r hr => ?_, fun q r hr => ?_, hends h.header, h.first⟩
  · exact ⟨(h.index q r hr).loc, (h.index q r hr).dupPos, hends (h.index q r hr).ends⟩
  · obtain ⟨y, hy, rfl⟩ := Option.map_eq_some_iff.1 ((hread q).symm.trans hr)
    obtain ⟨hloc, hdup, hlink⟩ := hkeep q y
    have hlone := h.aux q y hy
    exact ⟨hloc.trans hlone.loc, hdup.trans hlone.dupPos, hlink ▸ hends hlone.ends⟩

/-- `insertAfterRecord` behind the header, on any stream. -/
theorem insertAfterHeader (h : si.Single) (file : Stream)
    (sirPrev : SequentialIndexRecord κ) {sir : SequentialIndexRecord κ} (hdup : sir.dupPos = -1) :
    (si.insertAfterRecord file sirPrev sir si.header true).Single := by
  obtain ⟨h1, x, hx, -⟩ := h.insertAuxFile sir hdup h.header
  simp only [SequentialIndex.insertAfterRecord, if_true, SequentialIndex.writeHeader]
  split_ifs
  · split
    · exact h1.writeHeader hx
    · exact h1.overlay _
  · exact h1

/-- `insertAfterRecord` behind a record of the index file. -/
theorem insertAfterIndex (h : si.Single) {sirPrev sir : SequentialIndexRecord κ}
    (hdup : sir.dupPos = -1) (hprev : sirPrev ∈ si.indexFile) (sih : SequentialIndexHeader) :
    (si.insertAfterRecord .index sirPrev sir sih false).Single := by
  obtain ⟨h1, x, hx, -⟩ := h.insertAuxFile sir hdup (h.of_mem_index hprev).2.ends
  have hends : Ends (si.insertAuxFile (sir.setNext sirPrev.link.1 sirPrev.link.2)).1.auxFile
      (auxLayout.endPos si.auxFile, .auxFile) := .aux nofun hx (h1.aux _ x hx).ends
  have hpos : 0 ≤ sirPrev.currentPos :=
    Layout.nonneg_of_read (L := indexLayout) (h.of_mem_index hprev).1
  have hwrite : si.insertAfterRecord .index sirPrev sir sih false =
      { (si.insertAuxFile (sir.setNext sirPrev.nextPos sirPrev.nextFile)).1 with
        indexFile := indexLayout.write si.indexFile sirPrev.currentPos
          (sirPrev.setNext (auxLayout.endPos si.auxFile) .auxFile) } :=
    congrArg Prod.fst (moveWriteRecord_index hpos _)
  rw [hwrite]
  exact h1.relinkIndex (r := sirPrev) hends hprev

/-- `insertAfterRecord` behind a record of the overflow file; the link to the new record is written
if the stream is good. -/
theorem insertAfterAux (h : si.Single) {file : Stream} (hfile : file.file = .aux)
    {sirPrev sir : SequentialIndexRecord κ} (hdup : sir.dupPos = -1) (hprev : sirPrev ∈ si.auxFile)
    (sih : SequentialIndexHeader) : (si.insertAfterRecord file sirPrev sir sih false).Single := by
  obtain ⟨p, hp⟩ := Layout.exists_read_of_mem (L := auxLayout) hprev
  have hlone := h.aux p sirPrev hp
  obtain rfl : sirPrev.currentPos = p := congrArg Prod.fst hlone.loc
  obtain ⟨h1, x, hx, hlink⟩ := h.insertAuxFile sir hdup hlone.ends
  have hne : auxLayout.endPos si.auxFile ≠ sirPrev.currentPos := fun he => by
    rw [← he, Layout.read_endPos] at hp
    cases hp
  simp only [SequentialIndex.insertAfterRecord, Bool.false_eq_true, if_false, moveWriteRecord, hfile]
  split_ifs
  · exact h1.relinkAux (r := sirPrev) (List.mem_append_left _ hprev) hx hne hlink
  · exact h1

omit [KeyType κ] in
/-- No duplicate is linked. -/
theorem insertDuplicateUnlessPk (h : si.Single) (file : Stream)
    (sir sirDup : SequentialIndexRecord κ) :
    (si.insertDuplicateUnlessPk file sir sirDup).2.Single := by
  rw [SequentialIndex.insertDuplicateUnlessPk, if_pos h.pk]
  exact h

/-- The walk of `insertAux`: the record behind is one of the overflow file, except that the walk
may start behind a record that the new one does not follow directly. -/
theorem insertAuxLoop (h : si.Single) {sir : SequentialIndexRecord κ} (hdup : sir.dupPos = -1)
    (sih : SequentialIndexHeader) {n : Nat}
    {s : SequentialIndexRecord κ × SequentialIndexRecord κ × Stream}
    {out : Outcome (SequentialIndex κ) Unit} (hfile : s.2.2.file = .aux) (hcur : s.2.1 ∈ si.auxFile)
    (hprev : s.1 ∈ si.auxFile ∨ s.1.data < sir.data ∧ ¬ sir.data < s.2.1.data)
    (hloop : loop (si.insertAuxBody sir sih) n s = some out) : out.2.Single := by
  refine insertAuxLoop_of_inv
    (I := fun prev cur file => file.file = .aux ∧ cur ∈ si.auxFile ∧
      (prev ∈ si.auxFile ∨ prev.data < sir.data ∧ ¬ sir.data < cur.data))
    (Q := fun out => out.2.Single) ?_ ?_ ?_ ?_ ⟨hfile, hcur, hprev⟩ hloop
  · rintro prev cur file ⟨hfile, hcur, -⟩
    exact ⟨hfile, moveReadRecord_aux_mem hfile hcur, .inl hcur⟩
  · intro prev cur file _
    exact h.insertDuplicateUnlessPk _ _ _
  · rintro prev cur file ⟨hfile, hcur, -⟩
    exact h.insertAfterAux hfile hdup hcur sih
  · rintro prev cur file ⟨hfile, -, hprev⟩ hlt
    exact h.insertAfterAux hfile hdup (hprev.resolve_right fun hp => hp.2 hlt) sih

/-- `insertAux` behind the header. -/
theorem insertAuxHeader (h : si.Single) {file : Stream} {sirInit sir : SequentialIndexRecord κ}
    (hdup : sir.dupPos = -1) (hheader : bsr.header = true) (hsih : bsr.sih = si.header)
    (hfile : si.header.nextFile ≠ .indexFile) {n : Nat} {out : Outcome (SequentialIndex κ) Unit}
    (hi : si.insertAux n file sirInit sir bsr = some out) : out.2.Single := by
  obtain ⟨y, hy, -⟩ := h.header.exists_read hfile
  have hcur : si.moveReadRecord .aux si.header.nextPos default = (y, .aux) :=
    moveReadRecord_aux hy default
  have hmem : y ∈ si.auxFile := Layout.mem_of_read hy
  simp only [insertAux, hheader, if_true, hsih, hcur] at hi
  split_ifs at hi
  · cases hi
    exact h.insertAfterHeader .aux sirInit hdup
  · cases hi
    exact h.insertDuplicateUnlessPk _ _ _
  · cases hi
    exact h.insertAfterAux rfl hdup hmem si.header
  · exact h.insertAuxLoop hdup si.header rfl (moveReadRecord_aux_mem rfl hmem) (.inl hmem) hi

/-- `insertAux` behind a record of the index file that is below the new key. -/
theorem insertAuxIndex (h : si.Single) {sirInit sir : SequentialIndexRecord κ}
    (hdup : sir.dupPos = -1) (hheader : bsr.header = false) (hinit : sirInit ∈ si.indexFile)
    (hlt : sirInit.data < sir.data) (hfile : sirInit.nextFile ≠ .indexFile) {n : Nat}
    {out : Outcome (SequentialIndex κ) Unit}
    (hi : si.insertAux n .index sirInit sir bsr = some out) : out.2.Single := by
  obtain ⟨y, hy, -⟩ := (h.of_mem_index hinit).2.ends.exists_read hfile
  have hcur : si.moveReadRecord .aux sirInit.nextPos default = (y, .aux) :=
    moveReadRecord_aux hy default
  simp only [insertAux, hheader, Bool.false_eq_true, if_false, hcur] at hi
  split_ifs at hi with hbetween
  · cases hi
    exact h.insertAfterIndex hdup hinit bsr.sih
  · exact h.insertAuxLoop hdup bsr.sih rfl (Layout.mem_of_read hy)
      (.inr ⟨hlt, fun hc => hbetween ⟨hlt, hc⟩⟩) hi

/-- The first record of the index file, also over one that is there. -/
theorem addFirst (h : si.Single) {sir : SequentialIndexRecord κ} (hdup : sir.dupPos = -1) :
    (si.addFirst .index sir).Single := by
  have hread : ∀ q, indexLayout.read (si.addFirst .index sir).indexFile q =
      if q = indexLayout.pos 0 then
        some ((sir.setCurrent sequentialHeaderSize .indexFile).setNext endOfFile .indexFile)
      else indexLayout.read si.indexFile q := fun q => Layout.read_write_of_le (Nat.zero_le _)
  refine ⟨h.pk, fun q y hy => ?_, h.aux, .index rfl,
    fun _ => .inr ⟨_, (hread _).trans (if_pos rfl)⟩⟩
  rw [hread] at hy
  split_ifs at hy with hq
  · cases hy
    exact ⟨Prod.ext hq.symm rfl, hdup, .index rfl⟩
  · exact h.index q y hy

/-- The branches of `add`. -/
theorem addAt (h : si.Single) {sir : SequentialIndexRecord κ} (hdup : sir.dupPos = -1)
    (hgood : bsr.file = .index) (hb : bsr.location = .emptyFile ∨ si.Reported sir.data bsr)
    {n : Nat} {out : Outcome (SequentialIndex κ) Unit} (ha : si.addAt n sir bsr = some out) :
    out.2.Single := by
  by_cases hempty : bsr.location = .emptyFile
  · rw [SequentialIndex.addAt, hempty, hgood] at ha
    cases ha
    exact h.addFirst hdup
  replace hb := hb.resolve_left hempty
  cases hheader : bsr.header with
  | true =>
    have hsih := hb.header hheader
    simp only [SequentialIndex.addAt, hgood, hheader, hsih, true_and, if_true] at ha
    split_ifs at ha with hfile
    · cases ha
      exact h.insertAfterHeader .index bsr.sirPrev hdup
    · exact h.insertAuxHeader hdup hheader hsih hfile ha
  | false =>
    simp only [SequentialIndex.addAt, hgood, hheader, Bool.false_eq_true, false_and, if_false] at ha
    split_ifs at ha with h1 h2 h3 h4
    · cases ha
      exact h.insertAfterIndex hdup (hb.prev h1.1 hheader).1 bsr.sih
    · obtain ⟨hmem, hlt⟩ := hb.prev h2 hheader
      exact h.insertAuxIndex hdup hheader hmem hlt (fun hf => h1 ⟨h2, hf⟩) ha
    · cases ha
      exact h.insertDuplicateUnlessPk _ _ _
    · cases ha
      exact h.insertAfterIndex hdup hb.sir bsr.sih
    · have hnext : bsr.location = .recNext := by
        cases hl : bsr.location with
        | emptyFile => exact absurd hl hempty
        | recPrev => exact absurd hl h2
        | recCur => exact absurd hl h3
        | recNext => rfl
      exact h.insertAuxIndex hdup hheader hb.sir (hb.next hnext) h4 ha

/-! ### Rebuild and loading -/

/-- What `rebuild` has written: records without duplicates, each in its place. -/
def Rebuilt (s : RebuildState κ) : Prop :=
  s.sir.dupPos = -1 ∧ ∀ p r, indexLayout.read s.newIndexFile p = some r →
    r.loc = (p, .indexFile) ∧ r.dupPos = -1 ∧ r.nextFile = .indexFile

omit [KeyType κ] in
/-- A record that is read from either file, or left by the read. -/
theorem dupPos_moveReadRecord (h : si.Single) (file : Stream) (p : Int) (hr : r.dupPos = -1) :
    (si.moveReadRecord file p r).1.dupPos = -1 := by
  simp only [moveReadRecord, Rdbms.moveReadRecord]
  split
  · split
    · next hread => exact (h.index p _ hread).dupPos
    · exact hr
  · split
    · next hread => exact (h.aux p _ hread).dupPos
    · exact hr

omit [KeyType κ] in
/-- The next record of the chain. -/
theorem dupPos_moveReadNext (h : si.Single) (files : Streams) (p : Int) (nextFile : FilePos)
    (hr : r.dupPos = -1) : (si.moveReadNext files p nextFile r).1.dupPos = -1 := by
  simp only [moveReadNext]
  split_ifs
  · exact h.dupPos_moveReadRecord _ p hr
  · exact h.dupPos_moveReadRecord _ p hr

/-- One round of `rebuild`. -/
theorem rebuildBody (h : si.Single) {n : Nat} {s : RebuildState κ}
    {res : RebuildState κ ⊕ RebuildState κ} (hs : Rebuilt s)
    (hbody : si.rebuildBody n s = some res) :
    (∀ s', res = .inl s' → Rebuilt s') ∧ ∀ s', res = .inr s' → Rebuilt s' ∧ s'.newIndexFile ≠ [] := by
  obtain ⟨hdup, hnew⟩ := hs
  have hdups : si.rebuildDuplicates n s = some s := by
    rw [rebuildDuplicates, if_neg (not_not.2 hdup)]
  rw [SequentialIndex.rebuildBody, hdups, Option.map_some, Option.some.injEq] at hbody
  have hfile : ∀ (sir : SequentialIndexRecord κ),
      sir.loc = (indexLayout.endPos s.newIndexFile, .indexFile) → sir.dupPos = -1 →
      sir.nextFile = .indexFile → ∀ p r, indexLayout.read (s.newIndexFile ++ [sir]) p = some r →
      r.loc = (p, .indexFile) ∧ r.dupPos = -1 ∧ r.nextFile = .indexFile := by
    intro sir h1 h2 h3 p r hr
    rcases Layout.read_append_inv hr with hr | ⟨rfl, rfl⟩
    · exact hnew p r hr
    · exact ⟨h1, h2, h3⟩
  subst hbody
  simp only [rebuildRecord]
  by_cases hend : s.sir.nextPos = endOfFile
  · rw [if_pos hend]
    refine ⟨by simp, fun s' hs' => ?_⟩
    cases hs'
    exact ⟨⟨hdup, hfile _ rfl hdup rfl⟩, by simp⟩
  · rw [if_neg hend]
    refine ⟨fun s' hs' => ?_, by simp⟩
    cases hs'
    exact ⟨h.dupPos_moveReadNext _ _ _ hdup, hfile _ rfl hdup rfl⟩

/-- The record that the header links to. -/
theorem dupPos_first (h : si.Single) (hne : si.header.nextPos ≠ endOfFile) :
    (si.moveReadNext {} si.header.nextPos si.header.nextFile default).1.dupPos = -1 := by
  by_cases hfile : si.header.nextFile = .indexFile
  · obtain ⟨r, hr⟩ := (h.first hfile).resolve_left hne
    have hread : si.moveReadRecord .index si.header.nextPos default = (r, .index) :=
      moveReadRecord_index_of_readLink (l := (_, .indexFile)) hr rfl default
    simp only [moveReadNext, if_pos hfile, hread]
    exact (h.index _ _ hr).dupPos
  · obtain ⟨r, hr, -⟩ := h.header.exists_read hfile
    have hread : si.moveReadRecord .aux si.header.nextPos default = (r, .aux) :=
      moveReadRecord_aux hr default
    simp only [moveReadNext, if_neg hfile, hread]
    exact (h.aux _ _ hr).dupPos

/-- The files that `rebuild` writes. -/
theorem rebuild (h : si.Single) {n : Nat} (hr : si.rebuild n = some si') : si'.Single := by
  unfold SequentialIndex.rebuild at hr
  by_cases hne : si.header.nextPos ≠ endOfFile
  · rw [if_pos hne] at hr
    obtain ⟨s, hloop, rfl⟩ := Option.map_eq_some_iff.1 hr
    have hdone : Rebuilt s ∧ s.newIndexFile ≠ [] :=
      loop_of_inv (I := Rebuilt) (Q := fun s => Rebuilt s ∧ s.newIndexFile ≠ [])
        (fun _ s' hs hbody => (h.rebuildBody hs hbody).1 s' rfl)
        (fun _ s' hs hbody => (h.rebuildBody hs hbody).2 s' rfl)
        ⟨h.dupPos_first hne, fun _ _ hp => absurd hp Layout.read_nil⟩ hloop
    obtain ⟨⟨-, hnew⟩, hnil⟩ := hdone
    refine ⟨h.pk, fun p r hp => ?_, fun _ _ hp => absurd hp Layout.read_nil, .index rfl,
      fun _ => .inr ⟨s.newIndexFile.head hnil, ?_⟩⟩
    · obtain ⟨hloc, hdup, hfile⟩ := hnew p r hp
      exact ⟨hloc, hdup, .index hfile⟩
    · show indexLayout.read s.newIndexFile (indexLayout.pos 0) = _
      rw [Layout.read_pos, ← List.head?_eq_getElem?, List.head?_eq_some_head hnil]
  · rw [if_neg hne] at hr
    cases hr
    exact ⟨h.pk, fun _ _ hp => absurd hp Layout.read_nil, fun _ _ hp => absurd hp Layout.read_nil,
      .index rfl, fun _ => .inl rfl⟩

/-- The end of `add`. -/
theorem addEnd (h : si.Single) {n : Nat} {records : List Int} {res : Except Exn Unit}
    {out : Outcome (SequentialIndex κ) (List Int)}
    (he : SequentialIndex.addEnd n true records (res, si) = some out) : out.2.Single := by
  cases res with
  | error e =>
    cases he
    exact h
  | ok u =>
    simp only [SequentialIndex.addEnd] at he
    split_ifs at he
    · obtain ⟨s, hs, rfl⟩ := Option.map_eq_some_iff.1 he
      exact h.rebuild hs
    · cases he
      exact h

/-- `add`. -/
theorem add (h : si.Single) {v : Int} {out : Outcome (SequentialIndex κ) (List Int)}
    (ha : Returns (si.add · k v) out) : out.2.Single := by
  obtain ⟨bsr, hret, hgood, hb⟩ := binarySearch_reported h.ownIndex k
  obtain ⟨n, ha, hbsr⟩ := (ha.and hret).exists
  obtain ⟨bsr', hbsr', ha⟩ := Option.bind_eq_some_iff.1 ha
  obtain rfl := Option.some.inj (hbsr.symm.trans hbsr')
  obtain ⟨⟨res, s1⟩, hat, hend⟩ := Option.bind_eq_some_iff.1 ha
  have h1 : s1.Single := h.addAt rfl hgood hb hat
  exact h1.addEnd hend

/-- What the loop of `bulk_insert` keeps: the last record stands at the end of the index file. -/
structure Loading (s : BulkState κ) : Prop where
  single : s.si.Single
  prev : s.sirPrev ∈ s.si.indexFile
  last : s.sirPrev.currentPos + sequentialIndexSize = indexLayout.endPos s.si.indexFile

omit [KeyType κ] in
/-- The end of the index file moves on by a record. -/
theorem endPos_append (f : List (SequentialIndexRecord κ)) :
    indexLayout.endPos f + sequentialIndexSize = indexLayout.endPos (f ++ [r]) := by
  rw [Layout.endPos, Layout.endPos, List.length_append, List.length_singleton, Layout.pos_succ]
  rfl

/-- A pair with a new key. -/
theorem Loading.next {s : BulkState κ} (h : Loading s) {record : κ × Int}
    (hne : record.1 ≠ s.sirPrev.data) :
    Loading (bulkNext s record) ∧ (bulkNext s record).sirPrev.data = record.1 := by
  obtain ⟨si, sirPrev, sirCur⟩ := s
  obtain ⟨hsingle, hprev, hlast⟩ := h
  obtain ⟨hread, -⟩ := hsingle.of_mem_index hprev
  let cur := ((bulkRecord sirCur record).setCurrent (sirPrev.currentPos + sequentialIndexSize)
    .indexFile).setNext endOfFile .indexFile
  let prev := sirPrev.setNext (sirPrev.currentPos + sequentialIndexSize) .indexFile
  have hend : sirPrev.currentPos + sequentialIndexSize =
      indexLayout.endPos (indexLayout.write si.indexFile sirPrev.currentPos prev) := by
    rw [hlast, Layout.endPos, Layout.endPos, Layout.length_write hread]
  have hwrite : indexLayout.write (indexLayout.write si.indexFile sirPrev.currentPos prev)
      (sirPrev.currentPos + sequentialIndexSize) cur =
      indexLayout.write si.indexFile sirPrev.currentPos prev ++ [cur] := by
    rw [hend, Layout.write_endPos]
  have hpos : 0 ≤ sirPrev.currentPos := Layout.nonneg_of_read (L := indexLayout) hread
  have hpos' : 0 ≤ cur.currentPos := by
    show 0 ≤ sirPrev.currentPos + sequentialIndexSize
    rw [sequentialIndexSize]
    omega
  have hnext : bulkNext ⟨si, sirPrev, sirCur⟩ record = ⟨{ si with
      indexFile := indexLayout.write si.indexFile sirPrev.currentPos prev ++ [cur] }, cur, cur⟩ := by
    have hround : bulkNext ⟨si, sirPrev, sirCur⟩ record =
        ⟨((si.moveWriteRecord .index sirPrev.currentPos prev).1.moveWriteRecord .index cur.currentPos
          cur).1, cur, cur⟩ := if_neg hne
    rw [hround, moveWriteRecord_index hpos, moveWriteRecord_index hpos', ← hwrite]
    rfl
  have h1 := hsingle.relinkIndex (l := (sirPrev.currentPos + sequentialIndexSize, .indexFile))
    (.index rfl) hprev
  have hlone : Lone si.auxFile (indexLayout.endPos
      (indexLayout.write si.indexFile sirPrev.currentPos prev)) .indexFile cur :=
    ⟨Prod.ext hend rfl, rfl, .index rfl⟩
  rw [hnext]
  refine ⟨⟨h1.appendIndex hlone, List.mem_append_right _ (List.mem_singleton_self _), ?_⟩, rfl⟩
  show sirPrev.currentPos + sequentialIndexSize + sequentialIndexSize = _
  rw [hend, endPos_append]

/-- Pairs with different keys, in order. -/
theorem Loading.foldl : ∀ {records : List (κ × Int)} {s : BulkState κ}, Loading s →
    (∀ p ∈ records, p.1 ≠ s.sirPrev.data) → (records.map (·.1)).Nodup →
    (records.foldl bulkNext s).si.Single
  | [], _, h, _, _ => h.single
  | record :: records, s, h, hne, hnd => by
    obtain ⟨hnext, hdata⟩ := h.next (hne record (.head _))
    rw [List.map_cons, List.nodup_cons] at hnd
    refine hnext.foldl (fun p hp he => ?_) hnd.2
    exact hnd.1 (List.mem_map.2 ⟨p, hp, he.trans hdata⟩)

/-- The first pair. -/
theorem bulkFirst (h : si.Single) (hfile : si.indexFile = []) (record : κ × Int) :
    Loading ((si.writeHeader .index ⟨sequentialHeaderSize, .indexFile⟩).bulkFirst record) ∧
      ((si.writeHeader .index ⟨sequentialHeaderSize, .indexFile⟩).bulkFirst record).sirPrev.data =
        record.1 := by
  have hwrite : ∀ x : SequentialIndexRecord κ,
      indexLayout.write si.indexFile sequentialHeaderSize x = [x] := fun x => by
    rw [hfile]
    rfl
  have hdup : (bulkRecord default record).dupPos = -1 := rfl
  refine ⟨⟨h.addFirst hdup, ?_, ?_⟩, rfl⟩
  · show _ ∈ indexLayout.write si.indexFile sequentialHeaderSize _
    rw [hwrite]
    exact List.mem_singleton_self _
  · show _ = indexLayout.endPos (indexLayout.write si.indexFile sequentialHeaderSize _)
    rw [hwrite]
    rfl

/-- `bulk_insert` of pairs with different keys. -/
theorem bulkInsert (h : si.Single) {sort : List (κ × Int) → List (κ × Int)}
    (hsort : ∀ l, (sort l).Perm l) {records : List (κ × Int)}
    (hrecords : si.indexFile = [] → (records.map (·.1)).Nodup) :
    (si.bulkInsert sort records).2.Single := by
  unfold SequentialIndex.bulkInsert
  split_ifs with hnil hfile
  · exact h
  · have hnd : ((sort records).map (·.1)).Nodup :=
      (((hsort records).map _).nodup_iff).2 (hrecords hfile)
    have hne : sort records ≠ [] := fun he => hnil (List.perm_nil.1 (he ▸ (hsort records).symm))
    generalize sort records = sorted at hnd hne ⊢
    cases sorted with
    | nil => exact absurd rfl hne
    | cons record sorted =>
      rw [List.map_cons, List.nodup_cons] at hnd
      obtain ⟨hloaded, hdata⟩ := h.bulkFirst hfile record
      refine hloaded.foldl (fun p hp he => ?_) hnd.2
      exact hnd.1 (List.mem_map.2 ⟨p, hp, he.trans hdata⟩)
  · exact h

end Single

/-! ## Runs -/

/-- A run of `add` and `bulk_insert` calls on a fresh index with `PK = true`; `ok` holds of the index
and the batch before each `bulk_insert`. -/
inductive PkRun (sort : List (κ × Int) → List (κ × Int))
    (ok : SequentialIndex κ → List (κ × Int) → Prop) : SequentialIndex κ → Prop
  | start : PkRun sort ok (createFile true)
  | add {si si' : SequentialIndex κ} {k : κ} {v : Int} {res : Except Exn _} :
      PkRun sort ok si → Returns (si.add · k v) (res, si') → PkRun sort ok si'
  | bulkInsert {si si' : SequentialIndex κ} {records : List (κ × Int)} {res : Except Exn _} :
      PkRun sort ok si → ok si records → si.bulkInsert sort records = (res, si') →
      PkRun sort ok si'

/-- A load into an index without records has each key once. -/
def LoadsOnce (si : SequentialIndex κ) (records : List (κ × Int)) : Prop :=
  si.indexFile = [] → (records.map (·.1)).Nodup

/-- After every run in which no load repeats a key, a lookup comes back with one position at
most. -/
theorem search_of_pkRun {sort : List (κ × Int) → List (κ × Int)} (hsort : ∀ l, (sort l).Perm l)
    (h : PkRun sort LoadsOnce si) (k : κ) : ∃ res, Returns (si.search · k) res ∧ res.length ≤ 1 := by
  have hsingle : si.Single := by
    induction h with
    | start => exact .createFile
    | add _ hret ih => exact ih.add hret
    | bulkInsert _ hok hret ih =>
      have := ih.bulkInsert hsort hok
      rwa [hret] at this
  exact hsingle.search k

/-- A batch as the last call of a run. -/
theorem PkRun.load {sort : List (κ × Int) → List (κ × Int)}
    {ok : SequentialIndex κ → List (κ × Int) → Prop} (h : PkRun sort ok si)
    (records : List (κ × Int)) (hok : ok si records) :
    PkRun sort ok (si.bulkInsert sort records).2 :=
  h.bulkInsert hok rfl

/-- Two pairs with one key are loaded, and the key has two positions. -/
theorem search_of_repeated : ∃ si : SequentialIndex Int, PkRun id (fun _ _ => True) si ∧
    Returns (si.search · 5) [1, 2] :=
  ⟨_, PkRun.start.load [(5, 1), (5, 2)] trivial, .of_add 5 fun _ => rfl⟩

/-- Two pairs are loaded, then one of the keys is added again. -/
theorem search_of_pkRun_sample : ∃ si : SequentialIndex Int, PkRun id LoadsOnce si ∧
    ∃ res, Returns (si.search · 5) res ∧ res.length ≤ 1 := by
  have hloads : (createFile true : SequentialIndex Int).LoadsOnce [(5, 1), (7, 2)] :=
    fun _ => by decide
  have r1 : PkRun id LoadsOnce _ := PkRun.start.load [(5, 1), (7, 2)] hloads
  have r2 := r1.add (k := 7) (v := 3) (.of_add 5 fun _ => rfl)
  exact ⟨_, r2, search_of_pkRun (fun l => .refl l) r2 5⟩

end SequentialIndex

end Rdbms
