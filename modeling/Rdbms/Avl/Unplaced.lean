import Rdbms.Avl.Model

/-!
# The positions in the nodes

A node has its own offset in it, which `insertDuplicate` reads and nothing else. What `remove` does
is the same, whatever these offsets are: each function of it leaves files that are equal but for the
offsets (`unplaced`) from files that are.
-/

namespace Rdbms

/-- Calls with results that are equal under `u`, and what follows them. -/
theorem map_bind_congr {α β γ δ : Type*} {x y : Option α} {u : α → δ} {f g : α → Option β}
    {v : β → γ} (h : x.map u = y.map u)
    (hfg : ∀ a b, u a = u b → (f a).map v = (g b).map v) :
    (x.bind f).map v = (y.bind g).map v := by
  cases x with
  | none =>
    cases y with
    | none => rfl
    | some b => cases h
  | some a =>
    cases y with
    | none => cases h
    | some b => exact hfg a b (Option.some.inj h)

/-- The same call, and what follows it. -/
theorem map_bind_congr_self {α β γ : Type*} {x : Option α} {f g : α → Option β} {v : β → γ}
    (hfg : ∀ a, (f a).map v = (g a).map v) : (x.bind f).map v = (x.bind g).map v :=
  map_bind_congr rfl fun a b (hab : id a = id b) => (hfg a).trans (by rw [show a = b from hab])

/-- Branches with results that are equal under `v`. -/
theorem map_ite_congr {β γ : Type*} {c : Prop} [Decidable c] {x x' y y' : Option β} {v : β → γ}
    (hx : x.map v = x'.map v) (hy : y.map v = y'.map v) :
    (if c then x else y).map v = (if c then x' else y').map v := by
  by_cases hc : c
  · rwa [if_pos hc, if_pos hc]
  · rwa [if_neg hc, if_neg hc]

/-- What follows two calls, when it does not see what `u` leaves out. -/
theorem bind_congr_of_map {α β δ : Type*} {x y : Option α} {u : α → δ} {f g : α → Option β}
    (h : x.map u = y.map u) (hfg : ∀ a b, u a = u b → f a = g b) : x.bind f = y.bind g := by
  have hbind := map_bind_congr (v := id) h fun a b hab => congrArg (Option.map id) (hfg a b hab)
  simpa only [Option.map_id, id_eq] using hbind

/-- The node without its position. -/
def AVLIndexNode.unplaced {κ : Type} (n : AVLIndexNode κ) : AVLIndexNode κ := { n with currentPos := 0 }

/-- Nodes that are equal but for their positions. -/
theorem AVLIndexNode.exists_eq_of_unplaced {κ : Type} {n m : AVLIndexNode κ}
    (h : n.unplaced = m.unplaced) : ∃ x, m = { n with currentPos := x } := by
  refine ⟨m.currentPos, ?_⟩
  cases n
  cases m
  simp only [unplaced, AVLIndexNode.mk.injEq] at h ⊢
  simp [h]

namespace AVLIndex
variable {κ : Type} {si si' : AVLIndex κ} {p : Int}

/-- The index without the positions in its nodes. -/
def unplaced (si : AVLIndex κ) : AVLIndex κ := { si with nodes := si.nodes.map (·.unplaced) }

/-- The positions are read with the nodes. -/
theorem read_unplaced (si : AVLIndex κ) (p : Int) :
    si.unplaced.read p = (si.read p).map (·.unplaced) := by
  simp only [read, unplaced, Layout.read]
  cases avlLayout.slot? p <;> simp

/-- Files that are equal but for the positions give nodes that are. -/
theorem read_congr (h : si.unplaced = si'.unplaced) (p : Int) :
    (si.read p).map (·.unplaced) = (si'.read p).map (·.unplaced) := by
  rw [← read_unplaced, ← read_unplaced, h]

/-- The positions are written with the nodes. -/
theorem write_unplaced (si : AVLIndex κ) (p : Int) (n : AVLIndexNode κ) :
    si.unplaced.write p n.unplaced = (si.write p n).map (·.unplaced) := by
  simp only [write, unplaced, Layout.write, List.length_map]
  cases avlLayout.slot? p with
  | none => rfl
  | some i =>
    simp only
    split_ifs <;> simp

/-- A write keeps files equal but for the positions. -/
theorem write_congr (h : si.unplaced = si'.unplaced) (p : Int) (n : AVLIndexNode κ) :
    (si.write p n).map (·.unplaced) = (si'.write p n).map (·.unplaced) := by
  rw [← write_unplaced, ← write_unplaced, h]

/-- There are no positions in the header. -/
theorem header_congr (h : si.unplaced = si'.unplaced) : si.header = si'.header :=
  congrArg (·.header) h

/-- A new header keeps the files equal but for the positions. -/
theorem writeHeader_congr (h : si.unplaced = si'.unplaced) (header : AVLIndexHeader) :
    (si.writeHeader header).unplaced = (si'.writeHeader header).unplaced := by
  have hpk := congrArg (·.pk) h
  have hnodes := congrArg (·.nodes) h
  have hdup := congrArg (·.duplicatesFile) h
  simp only [unplaced] at hpk hnodes hdup
  simp only [unplaced, writeHeader, hpk, hnodes, hdup]

/-! ## Balance -/

/-- `height` does not see the positions. -/
theorem height_congr (h : si.unplaced = si'.unplaced) (p : Int) : si.height p = si'.height p := by
  have hread := congrArg (Option.map (·.height)) (read_congr h p)
  rw [Option.map_map, Option.map_map] at hread
  exact if_congr Iff.rfl rfl hread

/-- `updateHeigth` does not see the positions. -/
theorem updateHeigth_congr (h : si.unplaced = si'.unplaced) (p : Int) :
    (si.updateHeigth p).map (·.unplaced) = (si'.updateHeigth p).map (·.unplaced) := by
  unfold updateHeigth
  refine map_ite_congr (congrArg some h) ?_
  refine map_bind_congr (read_congr h p) fun n m hnm => ?_
  obtain ⟨x, rfl⟩ := AVLIndexNode.exists_eq_of_unplaced hnm
  simp only [height_congr h]
  refine map_bind_congr_self fun hLeft => ?_
  exact map_bind_congr_self fun hRigth => write_congr h p _

/-- `balancingFactor` does not see the positions. -/
theorem balancingFactor_congr (h : si.unplaced = si'.unplaced) (p : Int) :
    si.balancingFactor p = si'.balancingFactor p := by
  unfold balancingFactor
  split_ifs
  · rfl
  · refine bind_congr_of_map (read_congr h p) fun n m hnm => ?_
    obtain ⟨x, rfl⟩ := AVLIndexNode.exists_eq_of_unplaced hnm
    simp only [height_congr h]

/-- `isBalanced` does not see the positions. -/
theorem isBalanced_congr (h : si.unplaced = si'.unplaced) (p : Int) :
    si.isBalanced p = si'.isBalanced p := by
  rw [isBalanced, isBalanced, balancingFactor_congr h]

/-- The two writes of a rotation, and the heights. -/
theorem rotate_congr (h : si.unplaced = si'.unplaced) (p q : Int) (a b : AVLIndexNode κ) :
    ((si.write p a).bind fun s => (s.write q b).bind fun s =>
      (s.updateHeigth q).bind (·.updateHeigth p)).map (·.unplaced) =
    ((si'.write p a).bind fun s => (s.write q b).bind fun s =>
      (s.updateHeigth q).bind (·.updateHeigth p)).map (·.unplaced) := by
  refine map_bind_congr (write_congr h p a) fun s1 s1' h1 => ?_
  refine map_bind_congr (write_congr h1 q b) fun s2 s2' h2 => ?_
  exact map_bind_congr (updateHeigth_congr h2 q) fun s3 s3' h3 => updateHeigth_congr h3 p

/-- `leftRotation` does not see the positions. -/
theorem leftRotation_congr (h : si.unplaced = si'.unplaced) (p : Int) :
    (si.leftRotation p).map (·.unplaced) = (si'.leftRotation p).map (·.unplaced) := by
  unfold leftRotation
  refine map_bind_congr (read_congr h p) fun a a' ha => ?_
  obtain ⟨x, rfl⟩ := AVLIndexNode.exists_eq_of_unplaced ha
  refine map_bind_congr (read_congr h _) fun b b' hb => ?_
  obtain ⟨y, rfl⟩ := AVLIndexNode.exists_eq_of_unplaced hb
  exact rotate_congr h p _ _ _

/-- `rightRotation` does not see the positions. -/
theorem rightRotation_congr (h : si.unplaced = si'.unplaced) (p : Int) :
    (si.rightRotation p).map (·.unplaced) = (si'.rightRotation p).map (·.unplaced) := by
  unfold rightRotation
  refine map_bind_congr (read_congr h p) fun a a' ha => ?_
  obtain ⟨x, rfl⟩ := AVLIndexNode.exists_eq_of_unplaced ha
  refine map_bind_congr (read_congr h _) fun b b' hb => ?_
  obtain ⟨y, rfl⟩ := AVLIndexNode.exists_eq_of_unplaced hb
  exact rotate_congr h p _ _ _

/-- `balance` does not see the positions. -/
theorem balance_congr (h : si.unplaced = si'.unplaced) (p : Int) :
    (si.balance p).map (·.unplaced) = (si'.balance p).map (·.unplaced) := by
  unfold balance
  refine map_ite_congr (congrArg some h) ?_
  refine map_bind_congr (read_congr h p) fun n m hnm => ?_
  obtain ⟨x, rfl⟩ := AVLIndexNode.exists_eq_of_unplaced hnm
  simp only [balancingFactor_congr h]
  refine map_bind_congr_self fun balance => ?_
  refine map_ite_congr ?_ (map_ite_congr ?_ (congrArg some h))
  · refine map_bind_congr_self fun left => map_ite_congr ?_ (rightRotation_congr h p)
    exact map_bind_congr (leftRotation_congr h _) fun s s' hs => rightRotation_congr hs p
  · refine map_bind_congr_self fun right => map_ite_congr ?_ (leftRotation_congr h p)
    exact map_bind_congr (rightRotation_congr h _) fun s s' hs => leftRotation_congr hs p

/-- `updateBalance` does not see the positions. -/
theorem updateBalance_congr (h : si.unplaced = si'.unplaced) (p : Int) :
    (si.updateBalance p).map (·.unplaced) = (si'.updateBalance p).map (·.unplaced) := by
  refine map_bind_congr (updateHeigth_congr h p) fun s s' hs => ?_
  rw [isBalanced_congr hs]
  refine map_bind_congr_self fun balanced => ?_
  cases balanced
  · exact balance_congr hs p
  · exact congrArg some hs

/-! ## Deletion -/

variable [KeyType κ]

omit [KeyType κ] in
/-- `maxNode` does not see the positions. -/
theorem maxNode_congr (h : si.unplaced = si'.unplaced) (fuel : Nat) (p : Int) :
    si.maxNode fuel p = si'.maxNode fuel p := by
  induction fuel generalizing p with
  | zero => rfl
  | succ fuel ih =>
    unfold maxNode
    split_ifs
    · rfl
    · refine bind_congr_of_map (read_congr h p) fun n m hnm => ?_
      obtain ⟨x, rfl⟩ := AVLIndexNode.exists_eq_of_unplaced hnm
      simp only [ih]

/-- `fixValue` does not see the positions. -/
theorem fixValue_congr (h : si.unplaced = si'.unplaced) (fuel : Nat) (p : Int) (item : κ)
    (n : AVLIndexNode κ) (x : Int) : (si.fixValue fuel p item n).map (·.unplaced) =
      (si'.fixValue fuel p item { n with currentPos := x }).map (·.unplaced) := by
  induction fuel generalizing p with
  | zero => rfl
  | succ fuel ih =>
    unfold fixValue
    refine map_ite_congr (congrArg some h) ?_
    refine map_bind_congr (read_congr h p) fun c c' hc => ?_
    obtain ⟨y, rfl⟩ := AVLIndexNode.exists_eq_of_unplaced hc
    exact map_ite_congr (ih _) (map_ite_congr (ih _) (write_congr h p _))

omit [KeyType κ] in
/-- Unlinking a node does not see the positions. -/
theorem eraseNode_congr (h : si.unplaced = si'.unplaced) (c p : Int) (n : AVLIndexNode κ) (x : Int)
    (child : Int) : (si.eraseNode c p n child).map (·.unplaced) =
      (si'.eraseNode c p { n with currentPos := x } child).map (·.unplaced) := by
  have hend {s s' : AVLIndex κ} (hs : s.unplaced = s'.unplaced) :
      ((s.write c { n with nextDelete := s.header.lastDelete, currentPos := c }).bind fun s =>
        some (s.writeHeader { s.header with lastDelete := c })).map (·.unplaced) =
      ((s'.write c { n with nextDelete := s'.header.lastDelete, currentPos := c }).bind fun s =>
        some (s.writeHeader { s.header with lastDelete := c })).map (·.unplaced) := by
    rw [header_congr hs]
    refine map_bind_congr (write_congr hs c _) fun s1 s1' h1 => ?_
    rw [header_congr h1]
    exact congrArg some (writeHeader_congr h1 _)
  unfold eraseNode
  split_ifs
  · refine map_bind_congr (read_congr h p) fun a a' ha => ?_
    obtain ⟨y, rfl⟩ := AVLIndexNode.exists_eq_of_unplaced ha
    simp only
    split_ifs <;> exact map_bind_congr (write_congr h p _) fun s s' hs => hend hs
  · exact hend h

/-- What `erase` leaves behind, without positions. -/
def Erased.unplaced (res : Erased κ) : Erased κ := (res.1, res.2.1.unplaced, res.2.2.unplaced)

omit [KeyType κ] in
/-- The end of `erase` does not see the positions. -/
theorem eraseEnd_congr {res res' : Erased κ} (h : Erased.unplaced res = Erased.unplaced res')
    (c : Int) : (eraseEnd c res).map Erased.unplaced = (eraseEnd c res').map Erased.unplaced := by
  obtain ⟨removed, n, s⟩ := res
  obtain ⟨removed', n', s'⟩ := res'
  obtain ⟨rfl, hn, hs⟩ : removed = removed' ∧ n.unplaced = n'.unplaced ∧ s.unplaced = s'.unplaced := by
    simpa [Erased.unplaced] using h
  cases removed
  · exact congrArg some h
  · have hup := congrArg (Option.map fun s => (true, n.unplaced, s)) (updateBalance_congr hs c)
    rw [Option.map_map, Option.map_map] at hup
    rw [eraseEnd, eraseEnd, Option.map_map, Option.map_map]
    refine hup.trans ?_
    rw [hn]
    rfl

omit [KeyType κ] in
/-- The same, as a result of `erase`. -/
theorem eraseEnd_ok_congr {res res' : Erased κ} (h : Erased.unplaced res = Erased.unplaced res')
    (c : Int) : ((eraseEnd c res).map (Except.ok (ε := Exn))).map (·.map Erased.unplaced) =
      ((eraseEnd c res').map Except.ok).map (·.map Erased.unplaced) := by
  have hend := congrArg (Option.map (Except.ok (ε := Exn))) (eraseEnd_congr h c)
  rw [Option.map_map, Option.map_map] at hend ⊢
  exact hend

omit [KeyType κ] in
/-- What follows a call of `erase` that comes back without an exception. -/
theorem match_congr {a b : Except Exn (Erased κ)}
    {f g : Erased κ → Option (Except Exn (Erased κ))}
    (hab : a.map Erased.unplaced = b.map Erased.unplaced)
    (hfg : ∀ res res', Erased.unplaced res = Erased.unplaced res' →
      (f res).map (Except.map Erased.unplaced) = (g res').map (Except.map Erased.unplaced)) :
    (match a with
      | Except.error e => some (Except.error e)
      | Except.ok res => f res).map (Except.map Erased.unplaced) =
    (match b with
      | Except.error e => some (Except.error e)
      | Except.ok res => g res).map (Except.map Erased.unplaced) := by
  cases a with
  | error e =>
    cases b with
    | error e' => exact congrArg some hab
    | ok res' => cases hab
  | ok res =>
    cases b with
    | error e' => cases hab
    | ok res' => exact hfg res res' (Except.ok.inj hab)

/-- `erase`. -/
theorem erase_congr (fuel : Nat) : ∀ {si si' : AVLIndex κ}, si.unplaced = si'.unplaced →
    ∀ (c p : Int) (d : AVLIndexNode κ) (x : Int) (item : κ),
      (erase fuel si c p d item).map (·.map Erased.unplaced) =
        (erase fuel si' c p { d with currentPos := x } item).map (·.map Erased.unplaced) := by
  induction fuel with
  | zero => exact fun _ _ _ _ _ _ => rfl
  | succ fuel ih =>
    intro si si' h c p d x item
    unfold erase
    refine map_ite_congr ?_ ?_
    · simp only [Option.map_some, Except.map, Erased.unplaced, AVLIndexNode.unplaced, h]
    · refine map_bind_congr (read_congr h c) fun n n' hn => ?_
      obtain ⟨y, rfl⟩ := AVLIndexNode.exists_eq_of_unplaced hn
      simp only
      have hleaf (child : Int) :
          ((si.eraseNode c p n child).bind fun si => (eraseEnd c (true, n, si)).map .ok).map
            (Except.map (ε := Exn) Erased.unplaced) =
          ((si'.eraseNode c p { n with currentPos := y } child).bind fun si =>
            (eraseEnd c (true, { n with currentPos := y }, si)).map .ok).map
              (Except.map Erased.unplaced) := by
        refine map_bind_congr (eraseNode_congr h c p n y child) fun s s' hs => ?_
        refine eraseEnd_ok_congr ?_ c
        simp only [Erased.unplaced, AVLIndexNode.unplaced, hs]
      have hbelow (p : Int) := map_bind_congr (ih h p c n y item) fun a b hab =>
        match_congr hab fun res res' hres => eraseEnd_ok_congr hres c
      refine map_ite_congr (hbelow _) (map_ite_congr (hbelow _) ?_)
      -- at most one child, then two
      refine map_ite_congr (hleaf _) (map_ite_congr (hleaf _) (map_ite_congr (hleaf _) ?_))
      rw [maxNode_congr h]
      refine map_bind_congr_self fun r => ?_
      cases r with
      | error e => rfl
      | ok newPos =>
        refine map_bind_congr (read_congr h newPos) fun m m' hm => ?_
        obtain ⟨z, rfl⟩ := AVLIndexNode.exists_eq_of_unplaced hm
        rw [header_congr h]
        have hfix (res res' : Erased κ) (hres : Erased.unplaced res = Erased.unplaced res') :
            ((res.2.2.fixValue fuel c n.data m).bind fun s =>
              (eraseEnd c (true, n, s)).map .ok).map (Except.map (ε := Exn) Erased.unplaced) =
            ((res'.2.2.fixValue fuel c n.data { m with currentPos := z }).bind fun s =>
              (eraseEnd c (true, { n with currentPos := y }, s)).map .ok).map
                (Except.map Erased.unplaced) := by
          have hs : res.2.2.unplaced = res'.2.2.unplaced := congrArg (·.2.2) hres
          refine map_bind_congr (fixValue_congr hs fuel c n.data m z) fun s s' hs' => ?_
          refine eraseEnd_ok_congr ?_ c
          simp only [Erased.unplaced, AVLIndexNode.unplaced, hs']
        refine map_bind_congr (ih h _ _ n y m.data) fun a b hab => ?_
        have hmatch := match_congr hab hfix
        cases a <;> cases b <;> exact hmatch

end AVLIndex

end Rdbms
