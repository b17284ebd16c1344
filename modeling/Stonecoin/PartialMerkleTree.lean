/-
`CPartialMerkleTree` (`merkleblock.h`, `merkleblock.cpp`): a merkle tree cut down to what is
needed to prove that some of its leaves are in it.

The tree is walked depth first.  The builder stores a bit for each node it visits, set when a
match is below it, and the hash of each node where it stops; the extractor takes the same walk,
guided by the bits, and computes the root.  Both compute the nodes of the padded tree of
`MerkleTrees`, at the same places.

Reading beyond the bits or the hashes, or a loop that does not end, would be `none`.

  * `partialMerkleTree_roundTrip`: what was built, written and read gives the root and the
        matches.
-/
import Stonecoin.Merkle
import Stonecoin.Streams
import Stonecoin.CheckBlock

namespace Stonecoin

open Readers MerkleTrees

structure CPartialMerkleTree where
  nTransactions : ℕ
  vBits : List Bool
  vHash : List UInt256
  fBad : Bool
deriving DecidableEq, Repr

def calcTreeWidth (nTransactions height : ℕ) : ℕ :=
  (nTransactions + 1 <<< height - 1) >>> height

def heightLoop (nTransactions : ℕ) : ℕ → ℕ → Option ℕ
  | 0, _ => none
  | fuel + 1, nHeight =>
    if 1 < calcTreeWidth nTransactions nHeight then heightLoop nTransactions fuel (nHeight + 1)
    else some nHeight

/-- The height of the tree; a count of 32 bits needs at most 32 steps. -/
def treeHeight (nTransactions : ℕ) : Option ℕ := heightLoop nTransactions 33 0

section

variable (hash : UInt256 → UInt256 → UInt256)

/-! ### Building -/

def calcHash (vTxid : List UInt256) : ℕ → ℕ → UInt256
  | 0, pos => vTxid.getD pos 0
  | height + 1, pos =>
    let left := calcHash vTxid height (pos * 2)
    let right := if pos * 2 + 1 < calcTreeWidth vTxid.length height then
        calcHash vTxid height (pos * 2 + 1)
      else left
    hash left right

def fParentOfMatch (nTransactions : ℕ) (vMatch : List Bool) (height pos : ℕ) : Bool :=
  (List.range' (pos <<< height) (1 <<< height)).any fun p =>
    decide (p < nTransactions) && vMatch.getD p false

/-- `TraverseAndBuild`: the bits and the hashes that are stored. -/
def traverseAndBuild (vTxid : List UInt256) (vMatch : List Bool) :
    ℕ → ℕ → List Bool × List UInt256
  | 0, pos => ([fParentOfMatch vTxid.length vMatch 0 pos], [calcHash hash vTxid 0 pos])
  | height + 1, pos =>
    if !fParentOfMatch vTxid.length vMatch (height + 1) pos then
      ([false], [calcHash hash vTxid (height + 1) pos])
    else
      let left := traverseAndBuild vTxid vMatch height (pos * 2)
      let right := if pos * 2 + 1 < calcTreeWidth vTxid.length height then
          traverseAndBuild vTxid vMatch height (pos * 2 + 1)
        else ([], [])
      (true :: (left.1 ++ right.1), left.2 ++ right.2)

def CPartialMerkleTree.build (vTxid : List UInt256) (vMatch : List Bool) :
    Option CPartialMerkleTree :=
  (treeHeight vTxid.length).map fun nHeight =>
    let r := traverseAndBuild hash vTxid vMatch nHeight 0
    { nTransactions := vTxid.length, vBits := r.1, vHash := r.2, fBad := false }

/-! ### Extracting -/

/-- The variables of the extraction. -/
structure ExtractState where
  fBad : Bool
  nBitsUsed : ℕ
  nHashUsed : ℕ
  vMatch : List UInt256
  /-- The places of the leaves that matched, which the code does not keep. -/
  places : List ℕ

def ExtractState.bad (s : ExtractState) : ExtractState := { s with fBad := true }

namespace CPartialMerkleTree

variable (t : CPartialMerkleTree)

/-- The next bit, or a failure. -/
def readBit (s : ExtractState)
    (k : Bool → ExtractState → Option (UInt256 × ExtractState)) :
    Option (UInt256 × ExtractState) :=
  -- overflowed the bits array
  if t.vBits.length ≤ s.nBitsUsed then some (0, s.bad)
  else
    match t.vBits[s.nBitsUsed]? with
    | none => none
    | some b => k b { s with nBitsUsed := s.nBitsUsed + 1 }

def useHash (s : ExtractState) (matched : Option ℕ) : Option (UInt256 × ExtractState) :=
  -- overflowed the hash array
  if t.vHash.length ≤ s.nHashUsed then some (0, s.bad)
  else
    match t.vHash[s.nHashUsed]? with
    | none => none
    | some h =>
      match matched with
      | none => some (h, { s with nHashUsed := s.nHashUsed + 1 })
      | some pos =>
        some (h, { s with nHashUsed := s.nHashUsed + 1, vMatch := s.vMatch ++ [h],
                          places := s.places ++ [pos] })

def traverseAndExtract : ℕ → ℕ → ExtractState → Option (UInt256 × ExtractState)
  | 0, pos, s => t.readBit s fun fParentOfMatch s =>
    t.useHash s (if fParentOfMatch then some pos else none)
  | height + 1, pos, s => t.readBit s fun fParentOfMatch s =>
    if !fParentOfMatch then t.useHash s none
    else
      match traverseAndExtract height (pos * 2) s with
      | none => none
      | some (left, s) =>
        if pos * 2 + 1 < calcTreeWidth t.nTransactions height then
          match traverseAndExtract height (pos * 2 + 1) s with
          | none => none
          | some (right, s) =>
            -- the branches should never be identical
            some (hash left right, if right = left then s.bad else s)
        else some (hash left left, s)

/-- What `ExtractMatches` returns, with the places of the matches. -/
structure Extracted where
  root : UInt256
  vMatch : List UInt256
  places : List ℕ
deriving DecidableEq, Repr

def extractMatches : Option Extracted :=
  if t.nTransactions = 0 then some ⟨0, [], []⟩
  else if MAX_BLOCK_SIZE / 60 < t.nTransactions then some ⟨0, [], []⟩
  else if t.nTransactions < t.vHash.length then some ⟨0, [], []⟩
  else if t.vBits.length < t.vHash.length then some ⟨0, [], []⟩
  else
    match treeHeight t.nTransactions with
    | none => none
    | some nHeight =>
      match t.traverseAndExtract hash nHeight 0 ⟨t.fBad, 0, 0, [], []⟩ with
      | none => none
      | some (hashMerkleRoot, s) =>
        if s.fBad then some ⟨0, s.vMatch, s.places⟩
        -- the bits behind are padding
        else if (s.nBitsUsed + 7) / 8 ≠ (t.vBits.length + 7) / 8 then some ⟨0, s.vMatch, s.places⟩
        else if s.nHashUsed ≠ t.vHash.length then some ⟨0, s.vMatch, s.places⟩
        else some ⟨hashMerkleRoot, s.vMatch, s.places⟩

end CPartialMerkleTree

end

/-! ### The stream -/

/-- The bits packed into bytes: `vBytes[p / 8] |= vBits[p] << (p % 8)`. -/
def packBits (vBits : List Bool) : List UInt8 :=
  (List.range ((vBits.length + 7) / 8)).map fun i =>
    UInt8.ofNat (packByte fun j => vBits.getD (8 * i + j) false)

def unpackBits (vBytes : List UInt8) : List Bool :=
  (List.range (vBytes.length * 8)).map fun p =>
    decide ((vBytes.getD (p / 8) 0).toNat &&& 1 <<< (p % 8) ≠ 0)

namespace CPartialMerkleTree

/-- `SerializationOp`, writing. -/
def serialize (t : CPartialMerkleTree) : List UInt8 :=
  writeLE 4 t.nTransactions ++ (writeVector writeHash t.vHash ++
    writeVector (fun b => [b]) (packBits t.vBits))

/-- `SerializationOp`, reading. -/
def unserialize : Reader UInt8 CPartialMerkleTree := do
  let nTransactions ← readNum 4
  let vHash ← readVector readHash
  let vBytes ← readVector next
  return { nTransactions := nTransactions, vBits := unpackBits vBytes, vHash := vHash,
           fBad := false }

end CPartialMerkleTree

/-! ### Places -/

theorem calcTreeWidth_lt {n q height : ℕ} : q < calcTreeWidth n height ↔ q * 2 ^ height < n := by
  have hpos : 0 < 2 ^ height := Nat.two_pow_pos height
  unfold calcTreeWidth
  rw [Nat.shiftRight_eq_div_pow, Nat.one_shiftLeft, Nat.lt_iff_add_one_le,
    Nat.le_div_iff_mul_le hpos, Nat.succ_mul]
  omega

theorem heightLoop_eq {n : ℕ} : ∀ {fuel h : ℕ}, h ≤ Nat.clog 2 n → Nat.clog 2 n < h + fuel →
    heightLoop n fuel h = some (Nat.clog 2 n) := by
  intro fuel
  induction fuel with
  | zero => exact fun h1 h2 => absurd h2 (by omega)
  | succ fuel ih =>
    intro h h1 h2
    have hlt : 1 < calcTreeWidth n h ↔ h < Nat.clog 2 n := by
      rw [calcTreeWidth_lt, one_mul, Nat.lt_clog_iff_pow_lt one_lt_two]
    rw [heightLoop]
    split
    next hw => exact ih (hlt.mp hw) (by omega)
    next hw =>
      obtain rfl : h = Nat.clog 2 n := le_antisymm h1 (Nat.not_lt.mp fun hc => hw (hlt.mpr hc))
      rfl

theorem treeHeight_eq {n : ℕ} (h : n ≤ 2 ^ 32) : treeHeight n = some (Nat.clog 2 n) := by
  have hclog : Nat.clog 2 n ≤ 32 := Nat.clog_le_of_le_pow h
  exact heightLoop_eq (Nat.zero_le _) (by omega)

section

variable {hash : UInt256 → UInt256 → UInt256} {vTxid : List UInt256}

theorem calcHash_eq_node : ∀ {height pos : ℕ},
    calcHash hash vTxid height pos = node hash (leafAt vTxid) vTxid.length height pos := by
  intro height
  induction height with
  | zero => exact fun {pos} => rfl
  | succ height ih =>
    intro pos
    rw [calcHash, node, ih, ih, Nat.mul_comm pos 2]
    simp only [calcTreeWidth_lt]

theorem node_ne_node (hbind : Binding hash (leafAt vTxid) vTxid.length) (hnodup : vTxid.Nodup)
    {height i j : ℕ} (hk : height ≤ Nat.clog 2 vTxid.length) (hi : i * 2 ^ height < vTxid.length)
    (hj : j * 2 ^ height < vTxid.length) (hij : i ≠ j) :
    node hash (leafAt vTxid) vTxid.length height i ≠
      node hash (leafAt vTxid) vTxid.length height j := by
  intro heq
  have hleaf := hbind.first_leaf hk hi hj heq
  rw [leafAt_of_lt hi, leafAt_of_lt hj, hnodup.getElem_inj_iff] at hleaf
  exact hij (Nat.eq_of_mul_eq_mul_right (Nat.two_pow_pos height) hleaf)

/-! ### The matches below a node -/

def placesIn (n : ℕ) (vMatch : List Bool) (height pos : ℕ) : List ℕ :=
  (List.range' (pos * 2 ^ height) (2 ^ height)).filter fun p =>
    decide (p < n) && vMatch.getD p false

theorem fParentOfMatch_eq {n : ℕ} {vMatch : List Bool} {height pos : ℕ} :
    fParentOfMatch n vMatch height pos = !(placesIn n vMatch height pos).isEmpty := by
  unfold fParentOfMatch placesIn
  rw [Nat.shiftLeft_eq, Nat.one_shiftLeft]
  generalize List.range' (pos * 2 ^ height) (2 ^ height) = l
  induction l with
  | nil => rfl
  | cons a l ih =>
    rw [List.any_cons, List.filter_cons, ih]
    cases (decide (a < n) && vMatch.getD a false) with
    | true => rfl
    | false => rfl

theorem placesIn_succ {n : ℕ} {vMatch : List Bool} {height pos : ℕ} :
    placesIn n vMatch (height + 1) pos =
      placesIn n vMatch height (2 * pos) ++ placesIn n vMatch height (2 * pos + 1) := by
  unfold placesIn
  rw [← List.filter_append, left_place, right_place, pow_succ, Nat.mul_two,
    List.range'_append_1]

theorem placesIn_eq_nil {n : ℕ} {vMatch : List Bool} {height pos : ℕ}
    (h : n ≤ pos * 2 ^ height) : placesIn n vMatch height pos = [] := by
  unfold placesIn
  rw [List.filter_eq_nil_iff]
  intro p hp
  have hle := (List.mem_range'_1.mp hp).1
  simp only [Bool.and_eq_true, decide_eq_true_eq, not_and]
  intro hlt
  omega

/-! ### The walk of the extractor -/

theorem getElem?_of_drop {β : Type} {l : List β} {n : ℕ} {b : β} {rest : List β}
    (h : l.drop n = b :: rest) : n < l.length ∧ l[n]? = some b ∧ l.drop (n + 1) = rest := by
  have hget : l[n]? = some b := by
    have h0 := congrArg (·[0]?) h
    simpa [List.getElem?_drop] using h0
  refine ⟨(List.getElem?_eq_some_iff.mp hget).1, hget, ?_⟩
  rw [← List.drop_drop, h]
  rfl

namespace CPartialMerkleTree

variable {t : CPartialMerkleTree} {s : ExtractState}

theorem readBit_of_drop {b : Bool} {rest : List Bool}
    {k : Bool → ExtractState → Option (UInt256 × ExtractState)}
    (h : t.vBits.drop s.nBitsUsed = b :: rest) :
    t.readBit s k = k b { s with nBitsUsed := s.nBitsUsed + 1 } := by
  obtain ⟨hlt, hget, -⟩ := getElem?_of_drop h
  unfold readBit
  rw [if_neg (Nat.not_le.mpr hlt), hget]

theorem useHash_of_drop {x : UInt256} {rest : List UInt256} {matched : Option ℕ}
    (h : t.vHash.drop s.nHashUsed = x :: rest) :
    t.useHash s matched = some (x, { s with
      nHashUsed := s.nHashUsed + 1, vMatch := s.vMatch ++ matched.toList.map fun _ => x,
      places := s.places ++ matched.toList }) := by
  obtain ⟨hlt, hget, -⟩ := getElem?_of_drop h
  unfold useHash
  rw [if_neg (Nat.not_le.mpr hlt), hget]
  cases matched with
  | none => simp
  | some pos => simp

end CPartialMerkleTree

/-- The state after the walk below a node. -/
def ExtractState.after (s : ExtractState) (leaf : ℕ → UInt256) (nBits nHash : ℕ)
    (places : List ℕ) : ExtractState where
  fBad := s.fBad
  nBitsUsed := s.nBitsUsed + nBits
  nHashUsed := s.nHashUsed + nHash
  vMatch := s.vMatch ++ places.map leaf
  places := s.places ++ places

theorem ExtractState.after_after (s : ExtractState) (leaf : ℕ → UInt256) (a b c d : ℕ)
    (p q : List ℕ) :
    (s.after leaf a b p).after leaf c d q = s.after leaf (a + c) (b + d) (p ++ q) := by
  simp [ExtractState.after, Nat.add_assoc]

theorem ExtractState.after_bit (s : ExtractState) (leaf : ℕ → UInt256) :
    { s with nBitsUsed := s.nBitsUsed + 1 } = s.after leaf 1 0 [] := by
  simp [ExtractState.after]

theorem drop_add_of_drop {β : Type} {l a b : List β} {n : ℕ} (h : l.drop n = a ++ b) :
    l.drop (n + a.length) = b := by
  rw [← List.drop_drop, h, List.drop_left]

theorem extract_build {t : CPartialMerkleTree} {vMatch : List Bool}
    (hbind : Binding hash (leafAt vTxid) vTxid.length) (hnodup : vTxid.Nodup)
    (ht : t.nTransactions = vTxid.length) :
    ∀ {height pos : ℕ} {s : ExtractState} {bits : List Bool} {hashes : List UInt256},
    height ≤ Nat.clog 2 vTxid.length → pos * 2 ^ height < vTxid.length →
    t.vBits.drop s.nBitsUsed = (traverseAndBuild hash vTxid vMatch height pos).1 ++ bits →
    t.vHash.drop s.nHashUsed = (traverseAndBuild hash vTxid vMatch height pos).2 ++ hashes →
    t.traverseAndExtract hash height pos s =
      some (node hash (leafAt vTxid) vTxid.length height pos,
        s.after (leafAt vTxid) (traverseAndBuild hash vTxid vMatch height pos).1.length
          (traverseAndBuild hash vTxid vMatch height pos).2.length
          (placesIn vTxid.length vMatch height pos)) := by
  intro height
  induction height with
  | zero =>
    intro pos s bits hashes _ hpos hb hh
    rw [pow_zero, mul_one] at hpos
    have hplaces : placesIn vTxid.length vMatch 0 pos =
        (if fParentOfMatch vTxid.length vMatch 0 pos then some pos else none).toList := by
      rw [fParentOfMatch_eq]
      unfold placesIn
      simp only [pow_zero, mul_one, List.range'_one, List.filter_cons, List.filter_nil]
      split <;> rfl
    have hleaf : node hash (leafAt vTxid) vTxid.length 0 pos = calcHash hash vTxid 0 pos :=
      calcHash_eq_node.symm
    rw [CPartialMerkleTree.traverseAndExtract, CPartialMerkleTree.readBit_of_drop hb,
      CPartialMerkleTree.useHash_of_drop (s := { s with nBitsUsed := s.nBitsUsed + 1 }) hh,
      hplaces, hleaf]
    cases fParentOfMatch vTxid.length vMatch 0 pos with
    | true => rfl
    | false => rfl
  | succ height ih =>
    intro pos s bits hashes hk hpos hb hh
    have hparent : fParentOfMatch vTxid.length vMatch (height + 1) pos =
      !(placesIn vTxid.length vMatch (height + 1) pos).isEmpty := fParentOfMatch_eq
    have hleft : pos * 2 * 2 ^ height < vTxid.length := by
      rwa [Nat.mul_comm pos 2, left_place]
    have hk' : height ≤ Nat.clog 2 vTxid.length := Nat.le_of_succ_le hk
    rw [CPartialMerkleTree.traverseAndExtract]
    cases hmatch : fParentOfMatch vTxid.length vMatch (height + 1) pos with
    | false =>
      have hbuild : traverseAndBuild hash vTxid vMatch (height + 1) pos =
          ([false], [calcHash hash vTxid (height + 1) pos]) := by
        rw [traverseAndBuild, hmatch]
        rfl
      have hplaces : placesIn vTxid.length vMatch (height + 1) pos = [] := by
        rw [hmatch] at hparent
        simpa using hparent
      rw [hbuild] at hb hh ⊢
      rw [CPartialMerkleTree.readBit_of_drop hb]
      show t.useHash { s with nBitsUsed := s.nBitsUsed + 1 } none = _
      rw [CPartialMerkleTree.useHash_of_drop (s := { s with nBitsUsed := s.nBitsUsed + 1 }) hh,
        hplaces, calcHash_eq_node]
      rfl
    | true =>
      rw [Nat.mul_comm pos 2] at hleft
      by_cases hright : (2 * pos + 1) * 2 ^ height < vTxid.length
      · -- both children
        have hwidth : 2 * pos + 1 < calcTreeWidth vTxid.length height :=
          calcTreeWidth_lt.mpr hright
        have hbuild : traverseAndBuild hash vTxid vMatch (height + 1) pos =
            (true :: ((traverseAndBuild hash vTxid vMatch height (2 * pos)).1 ++
                (traverseAndBuild hash vTxid vMatch height (2 * pos + 1)).1),
              (traverseAndBuild hash vTxid vMatch height (2 * pos)).2 ++
                (traverseAndBuild hash vTxid vMatch height (2 * pos + 1)).2) := by
          rw [traverseAndBuild, hmatch, Nat.mul_comm pos 2, if_pos hwidth]
          rfl
        rw [hbuild] at hb hh ⊢
        rw [List.cons_append, List.append_assoc] at hb
        rw [List.append_assoc] at hh
        rw [CPartialMerkleTree.readBit_of_drop hb, s.after_bit (leafAt vTxid)]
        have hb' := (getElem?_of_drop hb).2.2
        have hl := ih (s := s.after (leafAt vTxid) 1 0 []) hk' hleft hb' hh
        have hr := ih (s := (s.after (leafAt vTxid) 1 0 []).after (leafAt vTxid) _ _
          (placesIn vTxid.length vMatch height (2 * pos))) hk' hright
          (drop_add_of_drop hb') (drop_add_of_drop hh)
        have hne := node_ne_node hbind hnodup hk' hright hleft (Nat.succ_ne_self _)
        simp only [Bool.not_true, Bool.false_eq_true, if_false, Nat.mul_comm pos 2, hl, ht,
          if_pos hwidth, hr, if_neg hne]
        rw [ExtractState.after_after, ExtractState.after_after, placesIn_succ, node_succ,
          right_of_lt hright]
        simp [Nat.add_comm]
      · -- the right child is the left one again
        have hwidth : ¬ 2 * pos + 1 < calcTreeWidth vTxid.length height :=
          fun hc => hright (calcTreeWidth_lt.mp hc)
        have hbuild : traverseAndBuild hash vTxid vMatch (height + 1) pos =
            (true :: (traverseAndBuild hash vTxid vMatch height (2 * pos)).1,
              (traverseAndBuild hash vTxid vMatch height (2 * pos)).2) := by
          rw [traverseAndBuild, hmatch, Nat.mul_comm pos 2, if_neg hwidth]
          simp
        rw [hbuild] at hb hh ⊢
        rw [List.cons_append] at hb
        rw [CPartialMerkleTree.readBit_of_drop hb, s.after_bit (leafAt vTxid)]
        have hl := ih (s := s.after (leafAt vTxid) 1 0 []) hk' hleft (getElem?_of_drop hb).2.2 hh
        have hge := Nat.not_lt.mp hright
        simp only [Bool.not_true, Bool.false_eq_true, if_false, Nat.mul_comm pos 2, hl, ht,
          if_neg hwidth]
        rw [ExtractState.after_after, placesIn_succ, placesIn_eq_nil hge, node_succ,
          right_of_le hge]
        simp [Nat.add_comm]

/-! ### The sizes of what is built -/

theorem length_build {vMatch : List Bool} : ∀ {height pos : ℕ},
    pos * 2 ^ height < vTxid.length →
    (traverseAndBuild hash vTxid vMatch height pos).2.length ≤
      (traverseAndBuild hash vTxid vMatch height pos).1.length ∧
    (traverseAndBuild hash vTxid vMatch height pos).2.length ≤ 2 ^ height ∧
    pos * 2 ^ height + (traverseAndBuild hash vTxid vMatch height pos).2.length ≤
      vTxid.length := by
  intro height
  induction height with
  | zero =>
    intro pos h
    exact ⟨le_rfl, le_rfl, h⟩
  | succ height ih =>
    intro pos h
    have hpos : 0 < 2 ^ (height + 1) := Nat.two_pow_pos _
    rw [traverseAndBuild]
    split
    · exact ⟨le_rfl, hpos, h⟩
    · have hl := @ih (pos * 2) (by rwa [Nat.mul_comm pos 2, left_place])
      have hlplace : pos * 2 * 2 ^ height = pos * 2 ^ (height + 1) := by
        rw [Nat.mul_comm pos 2, left_place]
      have hrplace : (pos * 2 + 1) * 2 ^ height = pos * 2 ^ (height + 1) + 2 ^ height := by
        rw [Nat.mul_comm pos 2, right_place]
      have hpow : 2 ^ (height + 1) = 2 ^ height * 2 := pow_succ 2 height
      dsimp only
      split
      next hwidth =>
        have hr := ih (calcTreeWidth_lt.mp hwidth)
        simp only [List.length_cons, List.length_append]
        omega
      next =>
        simp only [List.length_cons, List.length_append, List.length_nil]
        omega

theorem length_bits_le {vMatch : List Bool} : ∀ {height pos : ℕ},
    (traverseAndBuild hash vTxid vMatch height pos).1.length ≤ 2 ^ (height + 1) - 1 := by
  intro height
  induction height with
  | zero => exact fun {pos} => le_rfl
  | succ height ih =>
    intro pos
    have hpow : 2 ^ (height + 2) = 2 * 2 ^ (height + 1) := by
      rw [pow_succ, Nat.mul_comm]
    have hpos : 0 < 2 ^ (height + 1) := Nat.two_pow_pos _
    rw [traverseAndBuild]
    split
    · show 1 ≤ _
      omega
    · dsimp only
      have hl := @ih (pos * 2)
      have hr := @ih (pos * 2 + 1)
      split
      · simp only [List.length_cons, List.length_append]
        omega
      · simp only [List.length_cons, List.length_append, List.length_nil]
        omega

end

/-! ### Bits in bytes -/

theorem length_packBits (vBits : List Bool) :
    (packBits vBits).length = (vBits.length + 7) / 8 := by
  simp [packBits]

theorem length_unpackBits (vBytes : List UInt8) :
    (unpackBits vBytes).length = vBytes.length * 8 := by
  simp [unpackBits]

theorem unpackBits_packBits (vBits : List Bool) : unpackBits (packBits vBits) =
    vBits ++ List.replicate ((vBits.length + 7) / 8 * 8 - vBits.length) false := by
  apply List.ext_getElem
  · rw [length_unpackBits, length_packBits, List.length_append, List.length_replicate]
    omega
  · intro p hp hp'
    have hlt := hp
    rw [length_unpackBits, length_packBits] at hlt
    have hbyte : (packBits vBits).getD (p / 8) 0 =
        UInt8.ofNat (packByte fun j => vBits.getD (8 * (p / 8) + j) false) := by
      have hlast : p / 8 < (vBits.length + 7) / 8 := by omega
      simp [packBits, List.getD, hlast]
    have hsplit : 8 * (p / 8) + p % 8 = p := Nat.div_add_mod p 8
    have hbit := bit_packByte (fun j => vBits.getD (8 * (p / 8) + j) false)
      (Nat.mod_lt p (show 0 < 8 by decide))
    rw [hsplit] at hbit
    have hget : (unpackBits (packBits vBits))[p] = vBits.getD p false := by
      rw [← hbit]
      simp only [unpackBits, List.getElem_map, List.getElem_range, hbyte]
    refine hget.trans ?_
    by_cases hlt : p < vBits.length
    · rw [List.getElem_append_left hlt]
      simp [List.getD, hlt]
    · rw [List.getElem_append_right (Nat.not_lt.mp hlt), List.getElem_replicate]
      simp [List.getD, Nat.not_lt.mp hlt]

theorem reads_partialMerkleTree {t : CPartialMerkleTree} (hn : t.nTransactions < 256 ^ 4)
    (hh : t.vHash.length ≤ MAX_SIZE) (hb : t.vBits.length ≤ MAX_SIZE) :
    Reads CPartialMerkleTree.unserialize t.serialize
      { t with vBits := unpackBits (packBits t.vBits), fBad := false } := by
  have hbytes : (packBits t.vBits).length ≤ MAX_SIZE := by
    rw [length_packBits]
    omega
  have hvector : Reads (readVector next) (writeVector (fun b => [b]) (packBits t.vBits)) _ :=
    reads_vector hbytes fun b _ => Reads.next b
  have hbits := hvector.map fun vBytes => (⟨t.nTransactions, unpackBits vBytes, t.vHash,
    false⟩ : CPartialMerkleTree)
  exact (reads_num hn).bind ((reads_vector hh fun h _ => reads_hash h).bind hbits)

/-! ### The round trip -/

theorem map_places : ∀ {vTxid : List UInt256} {vMatch : List Bool},
    vMatch.length = vTxid.length →
    ((List.range vTxid.length).filter fun p => vMatch.getD p false).map (leafAt vTxid) =
      ((vTxid.zip vMatch).filter Prod.snd).map Prod.fst := by
  intro vTxid
  induction vTxid with
  | nil => exact fun _ => rfl
  | cons x vTxid ih =>
    intro vMatch hlen
    cases vMatch with
    | nil => cases hlen
    | cons f vMatch =>
      have htail : ((List.range vTxid.length).map Nat.succ).filter
          (fun p => (f :: vMatch).getD p false) =
          ((List.range vTxid.length).filter fun p => vMatch.getD p false).map Nat.succ := by
        rw [List.filter_map]
        rfl
      have hmap : (((List.range vTxid.length).filter fun p => vMatch.getD p false).map
          Nat.succ).map (leafAt (x :: vTxid)) =
          ((List.range vTxid.length).filter fun p => vMatch.getD p false).map (leafAt vTxid) := by
        rw [List.map_map]
        rfl
      rw [List.length_cons, List.range_succ_eq_map, List.zip_cons_cons, List.filter_cons,
        List.filter_cons, htail]
      cases f with
      | true =>
        show leafAt (x :: vTxid) 0 :: List.map (leafAt (x :: vTxid)) _ = x :: _
        rw [hmap, ih (Nat.succ.inj hlen)]
        rfl
      | false => exact hmap.trans (ih (Nat.succ.inj hlen))

theorem placesIn_root {n : ℕ} {vMatch : List Bool} :
    placesIn n vMatch (Nat.clog 2 n) 0 =
      (List.range n).filter fun p => vMatch.getD p false := by
  have hcover : n ≤ 2 ^ Nat.clog 2 n := Nat.le_pow_clog one_lt_two n
  obtain ⟨d, hd⟩ := Nat.exists_eq_add_of_le hcover
  unfold placesIn
  rw [Nat.zero_mul, hd, ← List.range'_append_1, List.filter_append, Nat.zero_add,
    List.range_eq_range']
  have hnil : (List.range' n d).filter (fun p => decide (p < n) && vMatch.getD p false) = [] := by
    rw [List.filter_eq_nil_iff]
    intro p hp
    have hge := (List.mem_range'_1.mp hp).1
    simp [Nat.not_lt.mpr hge]
  rw [hnil, List.append_nil]
  apply List.filter_congr
  intro p hp
  have hlt : p < n := by simpa using (List.mem_range'_1.mp hp).2
  rw [decide_eq_true hlt, Bool.true_and]

theorem extractMatches_build {hash : UInt256 → UInt256 → UInt256} {vTxid : List UInt256}
    {vMatch : List Bool} {r : List Bool × List UInt256}
    (hr : traverseAndBuild hash vTxid vMatch (Nat.clog 2 vTxid.length) 0 = r)
    (hpos : 0 < vTxid.length) (hmax : vTxid.length ≤ MAX_BLOCK_SIZE / 60) (hnodup : vTxid.Nodup)
    (hbind : Binding hash (leafAt vTxid) vTxid.length) :
    CPartialMerkleTree.extractMatches hash
        ⟨vTxid.length, unpackBits (packBits r.1), r.2, false⟩ =
      some ⟨root hash (leafAt vTxid) vTxid.length,
        (placesIn vTxid.length vMatch (Nat.clog 2 vTxid.length) 0).map (leafAt vTxid),
        placesIn vTxid.length vMatch (Nat.clog 2 vTxid.length) 0⟩ := by
  have hheight := treeHeight_eq (n := vTxid.length)
    (hmax.trans (show MAX_BLOCK_SIZE / 60 ≤ 2 ^ 32 by decide))
  have hsizes := @length_build hash vTxid vMatch (Nat.clog 2 vTxid.length) 0 (by simpa using hpos)
  rw [hr, Nat.zero_mul, Nat.zero_add] at hsizes
  have hbits := unpackBits_packBits r.1
  have hlen : (unpackBits (packBits r.1)).length = (r.1.length + 7) / 8 * 8 := by
    rw [length_unpackBits, length_packBits]
  have hext := @extract_build _ _ ⟨vTxid.length, unpackBits (packBits r.1), r.2, false⟩
    vMatch hbind hnodup rfl _ _ ⟨false, 0, 0, [], []⟩ _ _ le_rfl
    (show 0 * 2 ^ Nat.clog 2 vTxid.length < _ by simpa using hpos)
    (by rw [hr]; exact hbits) (by rw [hr]; exact (List.append_nil _).symm)
  rw [hr] at hext
  unfold CPartialMerkleTree.extractMatches
  rw [if_neg hpos.ne', if_neg (Nat.not_lt.mpr hmax), if_neg (Nat.not_lt.mpr hsizes.2.2),
    if_neg (by dsimp only; omega)]
  simp only [hheight, hext]
  simp only [ExtractState.after, Bool.false_eq_true, if_false, Nat.zero_add, List.nil_append,
    hlen, ne_eq, not_true_eq_false]
  rw [if_neg (by omega)]
  rfl

/-- **Partial merkle trees round-trip.**  A tree that was built for a list of different ids,
written and read gives the merkle root of the list and the matched ids in their order, when no
node of the tree is the hash of another pair than its children. -/
theorem partialMerkleTree_roundTrip {hash : UInt256 → UInt256 → UInt256} {vTxid : List UInt256}
    {vMatch : List Bool} (hne : vTxid ≠ []) (hmax : vTxid.length ≤ MAX_BLOCK_SIZE / 60)
    (hlen : vMatch.length = vTxid.length) (hnodup : vTxid.Nodup)
    (hbind : Binding hash (leafAt vTxid) vTxid.length) :
    ∃ t t' places, CPartialMerkleTree.build hash vTxid vMatch = some t ∧
      Reads CPartialMerkleTree.unserialize t.serialize t' ∧
      t'.extractMatches hash = some ⟨(computeMerkleRoot hash vTxid).1,
        ((vTxid.zip vMatch).filter Prod.snd).map Prod.fst, places⟩ := by
  have hpos : 0 < vTxid.length := List.length_pos_iff.mpr hne
  have hmax' : vTxid.length ≤ 16666 := hmax
  have hclog : Nat.clog 2 vTxid.length ≤ 15 :=
    Nat.clog_le_of_le_pow (hmax'.trans (by decide))
  have hroot := (computeMerkleRoot_eq hash hne (hmax'.trans (by decide))).1
  obtain ⟨r, hr⟩ : ∃ r, traverseAndBuild hash vTxid vMatch (Nat.clog 2 vTxid.length) 0 = r :=
    ⟨_, rfl⟩
  have hsizes := @length_build hash vTxid vMatch (Nat.clog 2 vTxid.length) 0 (by simpa using hpos)
  have hbits := @length_bits_le hash vTxid vMatch (Nat.clog 2 vTxid.length) 0
  rw [hr] at hsizes hbits
  have hpow : 2 ^ (Nat.clog 2 vTxid.length + 1) ≤ 2 ^ 16 :=
    Nat.pow_le_pow_right two_pos (by omega)
  have h16 : (2 : ℕ) ^ 16 = 65536 := rfl
  have hMAX : MAX_SIZE = 33554432 := rfl
  refine ⟨⟨vTxid.length, r.1, r.2, false⟩, ⟨vTxid.length, unpackBits (packBits r.1), r.2, false⟩,
    placesIn vTxid.length vMatch (Nat.clog 2 vTxid.length) 0, ?_, ?_, ?_⟩
  · rw [CPartialMerkleTree.build, treeHeight_eq (hmax'.trans (by decide)), Option.map_some, hr]
  · refine reads_partialMerkleTree (t := ⟨vTxid.length, r.1, r.2, false⟩) ?_ ?_ ?_
    · exact lt_of_le_of_lt hmax' (by decide)
    · show r.2.length ≤ MAX_SIZE
      omega
    · show r.1.length ≤ MAX_SIZE
      omega
  · rw [extractMatches_build hr hpos hmax hnodup hbind, hroot, ← map_places hlen, placesIn_root]

/-- A hash for the tree over 1, 2 and 3: no other pairs have the hashes of its nodes. -/
def treeHash123 (a b : UInt256) : UInt256 :=
  if a = 1 ∧ b = 2 then 4
  else if a = 3 ∧ b = 3 then 5
  else if a = 4 ∧ b = 5 then 6
  else 0

theorem treeHash123_inv (x y : UInt256) : (treeHash123 x y = 4 → x = 1 ∧ y = 2) ∧
    (treeHash123 x y = 5 → x = 3 ∧ y = 3) ∧ (treeHash123 x y = 6 → x = 4 ∧ y = 5) := by
  unfold treeHash123
  split_ifs with h1 h2 h3
  · simp [h1]
  · simp [h2]
  · simp [h3]
  · simp

theorem binding_123 : Binding treeHash123 (leafAt [1, 2, 3]) 3 := by
  intro k i hk hi x y h
  have hclog : Nat.clog 2 3 ≤ 2 := Nat.clog_le_of_le_pow (by decide)
  have hplaces : k = 0 ∧ i = 0 ∨ k = 0 ∧ i = 1 ∨ k = 1 ∧ i = 0 := by
    have hk2 : k = 0 ∨ k = 1 := by omega
    rcases hk2 with rfl | rfl <;> omega
  rcases hplaces with ⟨rfl, rfl⟩ | ⟨rfl, rfl⟩ | ⟨rfl, rfl⟩
  · have hnode : node treeHash123 (leafAt [1, 2, 3]) 3 1 0 = 4 := by decide +kernel
    exact (treeHash123_inv x y).1 (h.trans hnode)
  · have hnode : node treeHash123 (leafAt [1, 2, 3]) 3 1 1 = 5 := by decide +kernel
    exact (treeHash123_inv x y).2.1 (h.trans hnode)
  · have hnode : node treeHash123 (leafAt [1, 2, 3]) 3 2 0 = 6 := by decide +kernel
    exact (treeHash123_inv x y).2.2 (h.trans hnode)

/-- The second and the third of three ids are proved to be in the tree. -/
theorem partialMerkleTree_roundTrip_123 : ∃ t t' places,
    CPartialMerkleTree.build treeHash123 [1, 2, 3] [false, true, true] = some t ∧
      Reads CPartialMerkleTree.unserialize t.serialize t' ∧
      t'.extractMatches treeHash123 = some ⟨6, [2, 3], places⟩ := by
  have h := @partialMerkleTree_roundTrip treeHash123 [1, 2, 3] [false, true, true] (by decide)
    (by decide) rfl (by decide) binding_123
  have hroot : (computeMerkleRoot treeHash123 [1, 2, 3]).1 = 6 := by decide +kernel
  rwa [hroot] at h

end Stonecoin
