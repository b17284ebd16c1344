/-
New headers and received blocks keep the invariant of the block index.

`ReceivedBlockTransactions` links a block and, with the queue, every block that waits for
it.  Each turn of the loop takes one block from the queue; the blocks that waited for it
move from `mapBlocksUnlinked` to the queue, so that together they get fewer by one.
-/
import Stonecoin.IndexInvariant

namespace Stonecoin

namespace ChainState

open ParentTree

variable {verdict : BlockPtr → ConnectVerdict} {s s' : ChainState} {t b p q : BlockPtr}
  {queue : List BlockPtr}

/-! ### New headers -/

structure Grown (s s' : ChainState) (b p : BlockPtr) : Prop where
  fresh : b ∉ s.tree.mapBlockIndex
  parent_mem : p ∈ s.tree.mapBlockIndex
  index : s'.tree.mapBlockIndex = b :: s.tree.mapBlockIndex
  pprev_self : s'.tree.pprev b = some p
  pprev : ∀ c, c ≠ b → s'.tree.pprev c = s.tree.pprev c
  line_self : s'.line b = b :: s.line p
  line : ∀ c, c ≠ b → s'.line c = s.line c
  work : ∀ c, c ≠ b → s'.tree.nChainWork c = s.tree.nChainWork c
  node_self : s'.node b = { CBlockIndex.null with
    nStatus := { CBlockIndex.null.nStatus with valid := BLOCK_VALID_TREE } }
  node : ∀ c, c ≠ b → s'.node c = s.node c
  vChain : s'.vChain = s.vChain
  candidates : s'.setBlockIndexCandidates = s.setBlockIndexCandidates
  unlinked : s'.mapBlocksUnlinked = s.mapBlocksUnlinked

theorem addToBlockIndex_grown (proof : ℕ) (hb : b ∉ s.tree.mapBlockIndex)
    (hp : p ∈ s.tree.mapBlockIndex) :
    Grown s (s.addToBlockIndex b p proof) b p ∧
      (s.addToBlockIndex b p proof).tree.nChainWork b
        = (s.tree.nChainWork p + proof) % 2 ^ 256 := by
  unfold addToBlockIndex
  rw [dif_pos hb, dif_pos hp]
  constructor
  · constructor
    · exact hb
    · exact hp
    · rfl
    · show Function.update s.tree.pprev b (some p) b = some p
      rw [Function.update_self]
    · exact fun c hc => Function.update_of_ne hc _ _
    · exact s.tree.line_insert_self hb hp
    · exact fun c hc => s.tree.line_insert_of_ne hb hp hc
    · exact fun c hc => Function.update_of_ne hc _ _
    · show Function.update s.node b _ b = _
      rw [Function.update_self]
      rfl
    · exact fun c hc => Function.update_of_ne hc _ _
    · rfl
    · rfl
    · rfl
  · show Function.update s.tree.nChainWork b _ b = _
    rw [Function.update_self]

variable {c : BlockPtr}

theorem Grown.not_mem_line (h : Grown s s' b p) (hc : c ∈ s.tree.mapBlockIndex) :
    b ∉ s.line c :=
  fun hb => h.fresh (BlockTree.mem_of_mem_line hc hb)

theorem Grown.ne (h : Grown s s' b p) (hc : c ∈ s.tree.mapBlockIndex) : c ≠ b :=
  fun he => h.fresh (he ▸ hc)

theorem Grown.mem_index (h : Grown s s' b p) :
    c ∈ s'.tree.mapBlockIndex ↔ c = b ∨ c ∈ s.tree.mapBlockIndex := by
  rw [h.index, List.mem_cons]

theorem Grown.chainSum (h : Grown s s' b p) (hc : c ∈ s.tree.mapBlockIndex) :
    s'.chainSum c = s.chainSum c := by
  unfold ChainState.chainSum
  rw [h.line c (h.ne hc)]
  congr 1
  apply List.map_congr_left
  intro a ha
  rw [h.node a fun he => h.not_mem_line hc (he ▸ ha)]

theorem Grown.counts (h : Grown s s' b p) (hc : Counts s) : Counts s' := by
  have hnTx : (s'.node b).nTx = 0 := by rw [h.node_self]; rfl
  have hchain : (s'.node b).nChainTx = 0 := by rw [h.node_self]; rfl
  constructor
  all_goals
    intro c hmem
    rcases h.mem_index.mp hmem with rfl | hidx
  · rw [h.node_self]
    decide
  · rw [h.node c (h.ne hidx)]
    exact hc.haveData c hidx
  · exact Nat.le_of_eq (by rw [h.node_self])
  · rw [h.node c (h.ne hidx)]
    exact hc.validTree c hidx
  · exact fun hn => absurd hnTx hn
  · rw [h.node c (h.ne hidx)]
    exact hc.validTx c hidx
  · -- the new entry has no transactions yet
    have hsum := hc.sum_lt p h.parent_mem
    rw [← h.chainSum h.parent_mem] at hsum
    unfold ChainState.chainSum at hsum ⊢
    rw [h.line p (h.ne h.parent_mem)] at hsum
    rw [h.line_self, List.map_cons, List.sum_cons, hnTx, Nat.zero_add]
    exact hsum
  · rw [h.chainSum hidx]
    exact hc.sum_lt c hidx
  · exact fun hn => absurd hchain hn
  · rw [h.chainSum hidx, h.node c (h.ne hidx)]
    exact hc.sum_eq c hidx
  · exact fun hn => absurd hchain hn
  · rw [h.node c (h.ne hidx)]
    exact hc.tx c hidx
  · exact fun hn => absurd hchain hn
  · rw [h.node c (h.ne hidx), h.pprev c (h.ne hidx)]
    intro hl q hq
    rw [h.node q (h.ne (s.tree.indexed c q hq).2)]
    exact hc.parent c hidx hl q hq

theorem Grown.linking (h : Grown s s' b p) (hl : Linking [] s) : Linking [] s' := by
  refine ⟨h.counts hl.toCounts, fun q hq => (by cases hq), fun q c hqc => ?_,
    fun c hmem hn hc => ?_, ?_⟩
  · rw [h.unlinked] at hqc
    obtain ⟨hidx, hp, hn, h0⟩ := hl.unlinked q c hqc
    have hq := (s.tree.indexed c q hp).2
    rw [h.pprev c (h.ne hidx), h.node c (h.ne hidx), h.node q (h.ne hq)]
    exact ⟨h.mem_index.mpr (.inr hidx), hp, hn, h0⟩
  · rcases h.mem_index.mp hmem with rfl | hidx
    · rw [h.node_self] at hn
      exact absurd rfl hn
    · rw [h.node c (h.ne hidx)] at hn hc
      rw [h.unlinked]
      exact hl.complete c hidx hn hc
  · rw [h.unlinked]
    exact hl.nodup

theorem Grown.less (h : Grown s s' b p) {a : BlockPtr} (ha : a ≠ b) (hc : c ≠ b) :
    s'.less a c = s.less a c := by
  unfold ChainState.less
  rw [h.work a ha, h.work c hc, h.node a ha, h.node c hc]

theorem Grown.failed (h : Grown s s' b p) (hc : c ≠ b) :
    s'.failed c = s.failed c := by
  unfold ChainState.failed
  rw [h.node c hc]

theorem Grown.ranking (h : Grown s s' b p) (hr : Ranking verdict s t)
    (hwork : s.tree.nChainWork p < s'.tree.nChainWork b) : Ranking verdict s' t := by
  have htb := h.ne hr.tip_mem
  constructor
  · obtain ⟨g, hg⟩ := hr.root
    refine ⟨g, fun c hc => ?_⟩
    rcases h.mem_index.mp hc with rfl | hidx
    · show g ∈ s'.line c
      rw [h.line_self]
      exact List.mem_cons_of_mem c (hg p h.parent_mem)
    · show g ∈ s'.line c
      rw [h.line c (h.ne hidx)]
      exact hg c hidx
  · intro c q hq
    rcases eq_or_ne c b with rfl | hcb
    · rw [h.pprev_self] at hq
      obtain rfl := Option.some.inj hq
      rw [h.work p (h.ne h.parent_mem)]
      exact hwork
    · rw [h.pprev c hcb] at hq
      rw [h.work c hcb, h.work q (h.ne (s.tree.indexed c q hq).2)]
      exact hr.work c q hq
  · show s'.vChain = (s'.line t).reverse.map some
    rw [h.vChain, h.line t htb]
    exact hr.active
  · exact h.mem_index.mpr (.inr hr.tip_mem)
  · constructor
    · intro a ha
      rw [h.line t htb] at ha
      have hab : a ≠ b := fun he => h.not_mem_line hr.tip_mem (he ▸ ha)
      rw [h.failed hab, h.node a hab]
      exact hr.tip_ok.1 a ha
    · intro a ha
      rw [h.line t htb] at ha
      exact hr.tip_ok.2 a ha
  · rw [h.node t htb]
    exact hr.tip_linked
  · intro c hc hf
    rcases h.mem_index.mp hc with rfl | hidx
    · unfold ChainState.failed at hf
      rw [h.node_self] at hf
      cases hf
    · rw [h.failed (h.ne hidx)] at hf
      obtain ⟨a, ha, hv⟩ := hr.failedLine c hidx hf
      refine ⟨a, by rw [h.line c (h.ne hidx)]; exact ha, ?_⟩
      rw [h.node a fun he => h.not_mem_line hidx (he ▸ ha)]
      exact hv
  · intro c hc
    rw [h.candidates] at hc
    obtain ⟨hidx, hl, hle⟩ := hr.sound c hc
    rw [h.node c (h.ne hidx), h.less (h.ne hidx) htb]
    exact ⟨h.mem_index.mpr (.inr hidx), hl, hle⟩
  · intro c hc hl hf hle
    rcases h.mem_index.mp hc with rfl | hidx
    · rw [h.node_self] at hl
      exact absurd rfl hl
    · rw [h.node c (h.ne hidx)] at hl
      rw [h.failed (h.ne hidx)] at hf
      rw [h.less (h.ne hidx) htb] at hle
      rw [h.candidates]
      exact hr.complete c hidx hl hf hle

theorem IndexOk.header {proof : ℕ} (h : IndexOk verdict s) (hb : b ∉ s.tree.mapBlockIndex)
    (hp : p ∈ s.tree.mapBlockIndex) (hproof : 0 < proof)
    (hwork : s.tree.nChainWork p + proof < 2 ^ 256) :
    IndexOk verdict (s.addToBlockIndex b p proof) := by
  obtain ⟨t, hl, hr⟩ := h
  obtain ⟨hg, hw⟩ := addToBlockIndex_grown proof hb hp
  refine ⟨t, hg.linking hl, hg.ranking hr ?_⟩
  rw [hw, Nat.mod_eq_of_lt hwork]
  omega

/-! ### One turn of the loop -/

theorem chainSum_root (hp : s.tree.pprev b = none) : s.chainSum b = (s.node b).nTx := by
  unfold chainSum
  rw [show s.line b = [b] from line_root s.tree.graded hp]
  rfl

theorem chainSum_child (hp : s.tree.pprev b = some p) :
    s.chainSum b = (s.node b).nTx + s.chainSum p := by
  unfold chainSum
  rw [show s.line b = b :: s.line p from line_child s.tree.graded hp]
  rfl

structure LinkedBlock (s s' : ChainState) (q t : BlockPtr) : Prop where
  tree : s'.tree = s.tree
  vChain : s'.vChain = s.vChain
  unlinked : s'.mapBlocksUnlinked = s.mapBlocksUnlinked
  nChainTx_self : (s'.node q).nChainTx = (s.prevChainTx q + (s.node q).nTx) % 2 ^ 32
  nTx : ∀ c, (s'.node c).nTx = (s.node c).nTx
  nStatus : ∀ c, (s'.node c).nStatus = (s.node c).nStatus
  node : ∀ c, c ≠ q → s'.node c = s.node c
  candidate : ∀ c, c ∈ s'.setBlockIndexCandidates ↔
    c ∈ s.setBlockIndexCandidates ∨ c = q ∧ ¬ s'.less q t = true

theorem linkBlock_spec (ht : s.tip = some t) (q : BlockPtr) :
    LinkedBlock s (s.linkBlock q) q t := by
  let s₁ : ChainState := { s.modify q fun e =>
      { e with
        nChainTx := (s.prevChainTx q + e.nTx) % 2 ^ 32
        nSequenceId := s.nBlockSequenceId } with
    nBlockSequenceId := (s.nBlockSequenceId + 1) % 2 ^ 32 }
  have hlink : s.linkBlock q = if !s₁.less q t then s₁.insertCandidate q else s₁ := by
    unfold linkBlock
    dsimp only
    rw [show ({ s.modify q fun e =>
      { e with
        nChainTx := (s.prevChainTx q + e.nTx) % 2 ^ 32
        nSequenceId := s.nBlockSequenceId } with
    nBlockSequenceId := (s.nBlockSequenceId + 1) % 2 ^ 32 } : ChainState).tip = some t from ht]
  have hself : s₁.node q = { s.node q with
      nChainTx := (s.prevChainTx q + (s.node q).nTx) % 2 ^ 32
      nSequenceId := s.nBlockSequenceId } := by
    show Function.update s.node q _ q = _
    rw [Function.update_self]
  have hne : ∀ c, c ≠ q → s₁.node c = s.node c := fun c hc => Function.update_of_ne hc _ _
  have hkeep : ∀ f : CBlockIndex → ℕ × BlockStatus, (∀ e n i, f { e with
      nChainTx := n, nSequenceId := i } = f e) → ∀ c, f (s₁.node c) = f (s.node c) := by
    intro f hf c
    rcases eq_or_ne c q with rfl | hc
    · rw [hself, hf]
    · rw [hne c hc]
  have hboth := hkeep (fun e => (e.nTx, e.nStatus)) fun _ _ _ => rfl
  -- inserting a candidate changes nothing else
  have hins : ∀ c, c ∈ (s₁.insertCandidate q).setBlockIndexCandidates ↔
      c = q ∨ c ∈ s.setBlockIndexCandidates := fun c => List.mem_insert_iff
  rw [hlink]
  rcases hl : s₁.less q t with - | -
  · rw [if_pos (by rfl)]
    refine ⟨rfl, rfl, rfl, ?_, fun c => congrArg Prod.fst (hboth c),
      fun c => congrArg Prod.snd (hboth c), hne, fun c => ?_⟩
    · exact congrArg CBlockIndex.nChainTx hself
    · rw [hins, show (s₁.insertCandidate q).less q t = s₁.less q t from rfl, hl]
      simp [or_comm]
  · rw [if_neg (by simp)]
    refine ⟨rfl, rfl, rfl, ?_, fun c => congrArg Prod.fst (hboth c),
      fun c => congrArg Prod.snd (hboth c), hne, fun c => ?_⟩
    · exact congrArg CBlockIndex.nChainTx hself
    · rw [hl]
      simp [s₁, modify]

theorem LinkedBlock.line (h : LinkedBlock s s' q t) (c : BlockPtr) : s'.line c = s.line c := by
  show s'.tree.line c = s.tree.line c
  rw [h.tree]

theorem LinkedBlock.chainSum (h : LinkedBlock s s' q t) (c : BlockPtr) :
    s'.chainSum c = s.chainSum c := by
  unfold ChainState.chainSum
  rw [h.line]
  congr 1
  exact List.map_congr_left fun a _ => h.nTx a

theorem LinkedBlock.nChainTx (h : LinkedBlock s s' q t) (hl : Linking (q :: queue) s) :
    (s'.node q).nChainTx = s.chainSum q ∧ (s'.node q).nChainTx ≠ 0 := by
  obtain ⟨hidx, hn, -, hp⟩ := hl.waiting q List.mem_cons_self
  have hsum : s.prevChainTx q + (s.node q).nTx = s.chainSum q := by
    unfold prevChainTx
    rcases hpp : s.tree.pprev q with - | p
    · rw [chainSum_root hpp, Nat.zero_add]
    · rw [chainSum_child hpp, Nat.add_comm]
      dsimp only
      rw [hl.sum_eq p (s.tree.indexed q p hpp).2 (hp p hpp)]
  rw [h.nChainTx_self, hsum, Nat.mod_eq_of_lt (hl.sum_lt q hidx)]
  exact ⟨rfl, by omega⟩

theorem LinkedBlock.counts (h : LinkedBlock s s' q t) (hl : Linking (q :: queue) s) :
    Counts s' := by
  obtain ⟨hsum, hne⟩ := h.nChainTx hl
  obtain ⟨hidx, hn, -, hp⟩ := hl.waiting q List.mem_cons_self
  have hup : ∀ p, (s.node p).nChainTx ≠ 0 → (s'.node p).nChainTx ≠ 0 := by
    intro p hp0
    rcases eq_or_ne p q with rfl | hpq
    · exact hne
    · rwa [h.node p hpq]
  constructor
  all_goals
    simp only [h.tree, h.nTx, h.nStatus, h.chainSum]
  · exact hl.haveData
  · exact hl.validTree
  · exact hl.validTx
  · exact hl.sum_lt
  · intro b hb hl'
    rcases eq_or_ne b q with rfl | hbq
    · exact hsum
    · rw [h.node b hbq] at hl' ⊢
      exact hl.sum_eq b hb hl'
  · intro b hb hl'
    rcases eq_or_ne b q with rfl | hbq
    · exact hn
    · rw [h.node b hbq] at hl'
      exact hl.tx b hb hl'
  · intro b hb hl' p hpp
    apply hup
    rcases eq_or_ne b q with rfl | hbq
    · exact hp p hpp
    · rw [h.node b hbq] at hl'
      exact hl.parent b hb hl' p hpp

def setUnlinked (s : ChainState) (u : List (BlockPtr × BlockPtr)) : ChainState :=
  { s with mapBlocksUnlinked := u }

theorem Counts.setUnlinked (h : Counts s) (u : List (BlockPtr × BlockPtr)) :
    Counts (s.setUnlinked u) :=
  ⟨h.haveData, h.validTree, h.validTx, h.sum_lt, h.sum_eq, h.tx, h.parent⟩

theorem Ranking.setUnlinked (h : Ranking verdict s t) (u : List (BlockPtr × BlockPtr)) :
    Ranking verdict (s.setUnlinked u) t :=
  ⟨h.root, h.work, h.active, h.tip_mem, h.tip_ok, h.tip_linked, h.failedLine, h.sound,
    h.complete⟩

theorem filter_key_perm (u : List (BlockPtr × BlockPtr)) (q : BlockPtr) :
    (u.filter (fun r => r.1 = q) ++ u.filter fun r => r.1 ≠ q).Perm u := by
  have hnot : (fun r : BlockPtr × BlockPtr => decide (r.1 ≠ q)) = fun r => !decide (r.1 = q) := by
    funext r
    exact decide_not
  rw [hnot]
  exact List.filter_append_perm _ u

theorem LinkedBlock.linking (h : LinkedBlock s s' q t) (hl : Linking (q :: queue) s) :
    Linking (queue ++ (s.mapBlocksUnlinked.filter fun r => r.1 = q).map Prod.snd)
      (s'.setUnlinked (s.mapBlocksUnlinked.filter fun r => r.1 ≠ q)) := by
  obtain ⟨-, hne⟩ := h.nChainTx hl
  have hnodup := hl.nodup
  rw [List.cons_append, List.nodup_cons] at hnodup
  -- `q` is neither further on in the queue nor still waiting
  have hqueue : ∀ c ∈ queue, c ≠ q := by
    rintro c hc rfl
    exact hnodup.1 (List.mem_append_left _ hc)
  have hwait : ∀ p c, (p, c) ∈ s.mapBlocksUnlinked → c ≠ q := by
    rintro p c hc rfl
    exact hnodup.1 (List.mem_append_right _ (List.mem_map.mpr ⟨(p, c), hc, rfl⟩))
  have hup : ∀ p, (s.node p).nChainTx ≠ 0 → (s'.node p).nChainTx ≠ 0 := by
    intro p hp0
    rcases eq_or_ne p q with rfl | hpq
    · exact hne
    · rwa [h.node p hpq]
  refine ⟨(h.counts hl).setUnlinked _, fun c hc => ?_, fun p c hpc => ?_, fun c hc hn h0 => ?_, ?_⟩
  · show c ∈ s'.tree.mapBlockIndex ∧ (s'.node c).nTx ≠ 0 ∧ (s'.node c).nChainTx = 0 ∧
      ∀ p, s'.tree.pprev c = some p → (s'.node p).nChainTx ≠ 0
    rw [h.tree, h.nTx]
    rcases List.mem_append.mp hc with hc | hc
    · obtain ⟨hidx, hn, h0, hp⟩ := hl.waiting c (List.mem_cons_of_mem q hc)
      rw [h.node c (hqueue c hc)]
      exact ⟨hidx, hn, h0, fun p hpp => hup p (hp p hpp)⟩
    · -- a block that waited for `q`
      obtain ⟨⟨p, c'⟩, hmem, rfl⟩ := List.mem_map.mp hc
      obtain ⟨hr, hkey⟩ := List.mem_filter.mp hmem
      obtain rfl : p = q := of_decide_eq_true hkey
      obtain ⟨hidx, hpp, hn, h0⟩ := hl.unlinked p c' hr
      dsimp only
      rw [h.node c' (hwait p c' hr)]
      refine ⟨hidx, hn, ?_, fun p' hp' => ?_⟩
      · by_contra hlink
        exact hl.parent c' hidx hlink p hpp h0
      · rw [hpp] at hp'
        obtain rfl := Option.some.inj hp'
        exact hne
  · obtain ⟨hr, hkey⟩ := List.mem_filter.mp hpc
    obtain ⟨hidx, hpp, hn, h0⟩ := hl.unlinked p c hr
    show c ∈ s'.tree.mapBlockIndex ∧ s'.tree.pprev c = some p ∧ (s'.node c).nTx ≠ 0 ∧
      (s'.node p).nChainTx = 0
    rw [h.tree, h.nTx, h.node p (of_decide_eq_true hkey)]
    exact ⟨hidx, hpp, hn, h0⟩
  · have hc' : c ∈ s.tree.mapBlockIndex := h.tree ▸ hc
    have hn' : (s.node c).nTx ≠ 0 := h.nTx c ▸ hn
    have hcq : c ≠ q := fun he => hne (he ▸ h0)
    have h0' : (s.node c).nChainTx = 0 := h.node c hcq ▸ h0
    rcases hl.complete c hc' hn' h0' with hq | ⟨p, hp⟩
    · rcases List.mem_cons.mp hq with rfl | hq
      · exact absurd rfl hcq
      · exact .inl (List.mem_append_left _ hq)
    · by_cases hpq : p = q
      · left
        apply List.mem_append_right
        exact List.mem_map.mpr ⟨(p, c), List.mem_filter.mpr ⟨hp, decide_eq_true hpq⟩, rfl⟩
      · exact .inr ⟨p, List.mem_filter.mpr ⟨hp, decide_eq_true hpq⟩⟩
  · show (queue ++ (s.mapBlocksUnlinked.filter fun r => r.1 = q).map Prod.snd ++
      (s.mapBlocksUnlinked.filter fun r => r.1 ≠ q).map Prod.snd).Nodup
    rw [List.append_assoc, ← List.map_append]
    exact (List.Perm.append_left queue
      ((filter_key_perm s.mapBlocksUnlinked q).map Prod.snd)).nodup_iff.mpr hnodup.2

theorem LinkedBlock.ranking (h : LinkedBlock s s' q t) (hl : Linking (q :: queue) s)
    (hr : Ranking verdict s t) : Ranking verdict s' t := by
  obtain ⟨-, hne⟩ := h.nChainTx hl
  obtain ⟨hidx, -, h0, -⟩ := hl.waiting q List.mem_cons_self
  have htq : t ≠ q := fun he => hr.tip_linked (he ▸ h0)
  have hless : ∀ a c, a ≠ q → c ≠ q → s'.less a c = s.less a c := by
    intro a c ha hc
    unfold less
    rw [h.tree, h.node a ha, h.node c hc]
  have hfailed : ∀ c, s'.failed c = s.failed c := by
    intro c
    unfold failed
    rw [h.nStatus]
  constructor
  · exact h.tree ▸ hr.root
  · exact h.tree ▸ hr.work
  · show s'.vChain = (s'.line t).reverse.map some
    rw [h.vChain, h.line]
    exact hr.active
  · exact h.tree ▸ hr.tip_mem
  · constructor
    · intro a ha
      rw [h.line] at ha
      rw [hfailed, h.nStatus]
      exact hr.tip_ok.1 a ha
    · intro a ha
      rw [h.line] at ha
      exact hr.tip_ok.2 a ha
  · rw [h.node t htq]
    exact hr.tip_linked
  · intro c hc hf
    rw [h.tree] at hc
    rw [hfailed] at hf
    obtain ⟨a, ha, hv⟩ := hr.failedLine c hc hf
    refine ⟨a, ?_, ?_⟩
    · rw [h.line]
      exact ha
    · rw [h.nStatus]
      exact hv
  · intro c hc
    rw [h.tree]
    rcases (h.candidate c).mp hc with hc | ⟨rfl, hle⟩
    · obtain ⟨hci, hlink, hle⟩ := hr.sound c hc
      have hcq : c ≠ q := fun he => hlink (he ▸ h0)
      rw [h.node c hcq, hless c t hcq htq]
      exact ⟨hci, hlink, hle⟩
    · exact ⟨hidx, hne, hle⟩
  · intro c hc hlink hf hle
    rw [h.tree] at hc
    rw [hfailed] at hf
    apply (h.candidate c).mpr
    rcases eq_or_ne c q with rfl | hcq
    · exact .inr ⟨rfl, hle⟩
    · rw [h.node c hcq] at hlink
      rw [hless c t hcq htq] at hle
      exact .inl (hr.complete c hc hlink hf hle)

/-! ### The loop -/

theorem linkLoop_spec : ∀ (fuel : ℕ) (queue : List BlockPtr) (s : ChainState),
    queue.length + s.mapBlocksUnlinked.length ≤ fuel → Linking queue s → Ranking verdict s t →
      Linking [] (linkLoop fuel queue s) ∧ Ranking verdict (linkLoop fuel queue s) t := by
  intro fuel
  induction fuel with
  | zero =>
    intro queue s hlen hl hr
    obtain rfl : queue = [] := List.length_eq_zero_iff.mp (by omega)
    exact ⟨hl, hr⟩
  | succ fuel ih =>
    intro queue s hlen hl hr
    rcases queue with - | ⟨q, queue⟩
    · exact ⟨hl, hr⟩
    have h := linkBlock_spec hr.active.tip_eq q
    have hperm := (filter_key_perm s.mapBlocksUnlinked q).length_eq
    rw [List.length_append] at hperm
    rw [List.length_cons] at hlen
    show Linking [] (linkLoop fuel
        (queue ++ ((s.linkBlock q).mapBlocksUnlinked.filter fun r => r.1 = q).map Prod.snd)
        ((s.linkBlock q).setUnlinked
          ((s.linkBlock q).mapBlocksUnlinked.filter fun r => r.1 ≠ q))) ∧
      Ranking verdict (linkLoop fuel
        (queue ++ ((s.linkBlock q).mapBlocksUnlinked.filter fun r => r.1 = q).map Prod.snd)
        ((s.linkBlock q).setUnlinked
          ((s.linkBlock q).mapBlocksUnlinked.filter fun r => r.1 ≠ q))) t
    rw [h.unlinked]
    apply ih _ _ _ (h.linking hl) ((h.ranking hl hr).setUnlinked _)
    show (queue ++ (s.mapBlocksUnlinked.filter fun r => r.1 = q).map Prod.snd).length +
      (s.mapBlocksUnlinked.filter fun r => r.1 ≠ q).length ≤ fuel
    rw [List.length_append, List.length_map]
    omega

/-! ### Received blocks -/

theorem setReceived_node_self (s : ChainState) (b : BlockPtr) (nTx : ℕ) :
    (s.setReceived b nTx).node b = { s.node b with
      nTx := nTx
      nChainTx := 0
      nStatus := ({ (s.node b).nStatus with haveData := true }).raiseValidity
        BLOCK_VALID_TRANSACTIONS } := by
  show Function.update s.node b _ b = _
  rw [Function.update_self]

variable {nTx : ℕ}

theorem setReceived_node (hc : c ≠ b) :
    (s.setReceived b nTx).node c = s.node c := Function.update_of_ne hc _ _

/-- A block that is received: it is indexed, has no data yet and no failure bit, and the
counts stay below `2 ^ 32`. -/
structure Receivable (s : ChainState) (b : BlockPtr) (nTx : ℕ) : Prop where
  mem : b ∈ s.tree.mapBlockIndex
  noData : (s.node b).nStatus.haveData = false
  notFailed : s.failed b = false
  pos : 0 < nTx
  sum_lt : ∀ c ∈ s.tree.mapBlockIndex, b ∈ s.line c → (s.setReceived b nTx).chainSum c < 2 ^ 32

theorem Receivable.nChainTx (h : Receivable s b nTx) (hl : Linking [] s) :
    (s.node b).nTx = 0 ∧ (s.node b).nChainTx = 0 := by
  have hn : (s.node b).nTx = 0 := by
    by_contra hne
    have hd := (hl.haveData b h.mem).mpr hne
    rw [h.noData] at hd
    cases hd
  refine ⟨hn, ?_⟩
  by_contra hne
  exact hl.tx b h.mem hne hn

theorem Receivable.status (h : Receivable s b nTx) :
    ((s.setReceived b nTx).node b).nStatus = { (s.node b).nStatus with
      haveData := true
      valid := max (s.node b).nStatus.valid BLOCK_VALID_TRANSACTIONS } := by
  rw [setReceived_node_self]
  have hf : ({ (s.node b).nStatus with haveData := true } : BlockStatus).failed = false :=
    h.notFailed
  dsimp only [BlockStatus.raiseValidity]
  rw [hf]
  split
  next hc => cases hc
  next =>
    split
    next hlt => rw [Nat.max_eq_right (Nat.le_of_lt hlt)]
    next hle => rw [Nat.max_eq_left (Nat.le_of_not_lt hle)]

theorem Receivable.not_mem_line (h : Receivable s b nTx) (hl : Linking [] s)
    (hc : c ∈ s.tree.mapBlockIndex) (hlink : (s.node c).nChainTx ≠ 0) :
    b ∉ s.line c :=
  fun hb => hl.linked_line hc hlink b hb (h.nChainTx hl).2

theorem Receivable.chainSum (hb : b ∉ s.line c) :
    (s.setReceived b nTx).chainSum c = s.chainSum c := by
  unfold ChainState.chainSum
  rw [show (s.setReceived b nTx).line c = s.line c from rfl]
  congr 1
  apply List.map_congr_left
  intro a ha
  have hab : a ≠ b := fun he => hb (he ▸ ha)
  rw [setReceived_node hab]

theorem Receivable.counts (h : Receivable s b nTx) (hl : Linking [] s) :
    Counts (s.setReceived b nTx) := by
  have h0 := (h.nChainTx hl).2
  have hself : ((s.setReceived b nTx).node b).nChainTx = 0 := by rw [setReceived_node_self]
  have hself' : ((s.setReceived b nTx).node b).nTx = nTx := by rw [setReceived_node_self]
  have hchain : ∀ c, ((s.setReceived b nTx).node c).nChainTx = (s.node c).nChainTx := by
    intro c
    rcases eq_or_ne c b with rfl | hcb
    · rw [hself, h0]
    · rw [setReceived_node hcb]
  have hpos := h.pos
  constructor
  · intro c hc
    rcases eq_or_ne c b with rfl | hcb
    · rw [h.status, hself']
      simp only [true_iff]
      omega
    · rw [setReceived_node hcb]
      exact hl.haveData c hc
  · intro c hc
    rcases eq_or_ne c b with rfl | hcb
    · rw [h.status]
      exact Nat.le_trans (hl.validTree c hc) (Nat.le_max_left _ _)
    · rw [setReceived_node hcb]
      exact hl.validTree c hc
  · intro c hc hn
    rcases eq_or_ne c b with rfl | hcb
    · rw [h.status]
      exact Nat.le_max_right _ _
    · rw [setReceived_node hcb] at hn ⊢
      exact hl.validTx c hc hn
  · intro c hc
    by_cases hb : b ∈ s.line c
    · exact h.sum_lt c hc hb
    · rw [Receivable.chainSum hb]
      exact hl.sum_lt c hc
  · intro c hc hlink
    rw [hchain] at hlink ⊢
    rw [Receivable.chainSum (h.not_mem_line hl hc hlink)]
    exact hl.sum_eq c hc hlink
  · intro c hc hlink
    rw [hchain] at hlink
    rcases eq_or_ne c b with rfl | hcb
    · exact absurd h0 hlink
    · rw [setReceived_node hcb]
      exact hl.tx c hc hlink
  · intro c hc hlink p hp
    rw [hchain] at hlink ⊢
    exact hl.parent c hc hlink p hp

theorem Receivable.node_nChainTx (h : Receivable s b nTx) (hl : Linking [] s) (c : BlockPtr) :
    ((s.setReceived b nTx).node c).nChainTx = (s.node c).nChainTx := by
  rcases eq_or_ne c b with rfl | hcb
  · rw [setReceived_node_self, (h.nChainTx hl).2]
  · rw [setReceived_node hcb]

theorem Receivable.unlinked (h : Receivable s b nTx) (hl : Linking [] s) {p : BlockPtr}
    (hpc : (p, c) ∈ s.mapBlocksUnlinked) : c ≠ b ∧ c ∈ s.tree.mapBlockIndex ∧
      s.tree.pprev c = some p ∧ ((s.setReceived b nTx).node c).nTx ≠ 0 ∧
      ((s.setReceived b nTx).node p).nChainTx = 0 := by
  obtain ⟨hidx, hp, hn, h0⟩ := hl.unlinked p c hpc
  have hcb : c ≠ b := fun he => hn (he ▸ (h.nChainTx hl).1)
  rw [setReceived_node hcb, h.node_nChainTx hl]
  exact ⟨hcb, hidx, hp, hn, h0⟩

theorem Receivable.notWaiting (h : Receivable s b nTx) (hl : Linking [] s) :
    b ∉ s.mapBlocksUnlinked.map Prod.snd := by
  intro hb
  obtain ⟨⟨p, c⟩, hpc, rfl⟩ := List.mem_map.mp hb
  exact (h.unlinked hl hpc).1 rfl

theorem Receivable.complete (h : Receivable s b nTx) (hl : Linking [] s)
    (hc : c ∈ s.tree.mapBlockIndex) (hcb : c ≠ b) (hn : ((s.setReceived b nTx).node c).nTx ≠ 0)
    (h0 : ((s.setReceived b nTx).node c).nChainTx = 0) :
    ∃ p, (p, c) ∈ s.mapBlocksUnlinked := by
  rw [h.node_nChainTx hl] at h0
  rw [setReceived_node hcb] at hn
  rcases hl.complete c hc hn h0 with hq | hp
  · cases hq
  · exact hp

theorem Receivable.linking (h : Receivable s b nTx) (hl : Linking [] s)
    (hp : ∀ p, s.tree.pprev b = some p → (s.node p).nChainTx ≠ 0) :
    Linking [b] (s.setReceived b nTx) := by
  have hpos := h.pos
  refine ⟨h.counts hl, fun q hq => ?_, fun p c hpc => (h.unlinked hl hpc).2,
    fun c hc hn h0 => ?_, ?_⟩
  · obtain rfl := List.mem_singleton.mp hq
    refine ⟨h.mem, ?_, ?_, fun p hpp => ?_⟩
    · rw [setReceived_node_self]
      show nTx ≠ 0
      omega
    · rw [setReceived_node_self]
    · rw [h.node_nChainTx hl]
      exact hp p hpp
  · rcases eq_or_ne c b with rfl | hcb
    · exact .inl List.mem_cons_self
    · exact .inr (h.complete hl hc hcb hn h0)
  · rw [List.singleton_append, List.nodup_cons]
    exact ⟨h.notWaiting hl, hl.nodup⟩

theorem Receivable.insertUnlinked (h : Receivable s b nTx) (hl : Linking [] s)
    (hp : s.tree.pprev b = some p) (h0 : (s.node p).nChainTx = 0) :
    Linking [] ((s.setReceived b nTx).setUnlinked (s.mapBlocksUnlinked ++ [(p, b)])) := by
  have hpos := h.pos
  refine ⟨(h.counts hl).setUnlinked _, fun q hq => (by cases hq), fun q c hqc => ?_,
    fun c hc hn h0 => ?_, ?_⟩
  · rcases List.mem_append.mp hqc with hqc | hqc
    · exact (h.unlinked hl hqc).2
    · obtain ⟨rfl, rfl⟩ := Prod.mk.inj (List.mem_singleton.mp hqc)
      refine ⟨h.mem, hp, ?_, (h.node_nChainTx hl q).trans h0⟩
      show ((s.setReceived c nTx).node c).nTx ≠ 0
      rw [setReceived_node_self]
      show nTx ≠ 0
      omega
  · right
    rcases eq_or_ne c b with rfl | hcb
    · exact ⟨p, List.mem_append_right _ (List.mem_singleton_self _)⟩
    · obtain ⟨q, hq⟩ := h.complete hl hc hcb hn h0
      exact ⟨q, List.mem_append_left _ hq⟩
  · show ((s.mapBlocksUnlinked ++ [(p, b)]).map Prod.snd).Nodup
    rw [List.map_append]
    apply List.Nodup.append hl.nodup (List.nodup_singleton b)
    intro c hc hcb
    obtain rfl := List.mem_singleton.mp hcb
    exact h.notWaiting hl hc

theorem Receivable.ranking (h : Receivable s b nTx) (hl : Linking [] s) (hr : Ranking verdict s t) :
    Ranking verdict (s.setReceived b nTx) t := by
  have hbits : ∀ c, ((s.setReceived b nTx).node c).nStatus.failedValid
      = (s.node c).nStatus.failedValid ∧ (s.setReceived b nTx).failed c = s.failed c := by
    intro c
    unfold failed
    rcases eq_or_ne c b with rfl | hcb
    · rw [h.status]
      exact ⟨rfl, rfl⟩
    · rw [setReceived_node hcb]
      exact ⟨rfl, rfl⟩
  have hless : ∀ a c, (s.setReceived b nTx).less a c = s.less a c := by
    have hseq : ∀ c, ((s.setReceived b nTx).node c).nSequenceId = (s.node c).nSequenceId := by
      intro c
      rcases eq_or_ne c b with rfl | hcb
      · rw [setReceived_node_self]
      · rw [setReceived_node hcb]
    intro a c
    unfold less
    rw [hseq, hseq]
    rfl
  constructor
  · exact hr.root
  · exact hr.work
  · exact hr.active
  · exact hr.tip_mem
  · refine ⟨fun a ha => ?_, hr.tip_ok.2⟩
    have hab : a ≠ b := fun he => h.not_mem_line hl hr.tip_mem hr.tip_linked (he ▸ ha)
    rw [(hbits a).2, setReceived_node hab]
    exact hr.tip_ok.1 a ha
  · rw [h.node_nChainTx hl]
    exact hr.tip_linked
  · intro c hc hf
    rw [(hbits c).2] at hf
    obtain ⟨a, ha, hv⟩ := hr.failedLine c hc hf
    exact ⟨a, ha, (hbits a).1.trans hv⟩
  · intro c hc
    rw [h.node_nChainTx hl, hless]
    exact hr.sound c hc
  · intro c hc hlink hf hle
    rw [h.node_nChainTx hl] at hlink
    rw [(hbits c).2] at hf
    rw [hless] at hle
    exact hr.complete c hc hlink hf hle

theorem IndexOk.received (h : IndexOk verdict s) (hb : Receivable s b nTx)
    (hp : ∀ p, s.tree.pprev b = some p → (s.node p).nChainTx ≠ 0 ∨ s.failed p = false) :
    IndexOk verdict (s.receivedBlockTransactions b nTx) := by
  obtain ⟨t, hl, hr⟩ := h
  have hr' := hb.ranking hl hr
  have hloop : (∀ p, s.tree.pprev b = some p → (s.node p).nChainTx ≠ 0) →
      IndexOk verdict (linkLoop (s.mapBlocksUnlinked.length + 1) [b] (s.setReceived b nTx)) := by
    intro hlink
    refine ⟨t, linkLoop_spec _ [b] _ ?_ (hb.linking hl hlink) hr'⟩
    show [b].length + s.mapBlocksUnlinked.length ≤ s.mapBlocksUnlinked.length + 1
    rw [List.length_singleton]
    omega
  unfold receivedBlockTransactions
  dsimp only
  rw [show (s.setReceived b nTx).tree = s.tree from rfl]
  rcases hpp : s.tree.pprev b with - | p
  · apply hloop
    intro p hp'
    rw [hpp] at hp'
    cases hp'
  · dsimp only
    have hpb : p ≠ b := by
      rintro rfl
      have hc := s.tree.graded.child p p hpp
      omega
    rw [setReceived_node hpb]
    by_cases hlink : (s.node p).nChainTx = 0
    · -- the parent is valid, so the block waits for it
      have hvalid : (s.node p).isValid BLOCK_VALID_TREE = true := by
        rcases hp p hpp with hne | hf
        · exact absurd hlink hne
        · unfold CBlockIndex.isValid
          rw [show (s.node p).nStatus.failed = false from hf, if_neg (by simp)]
          exact decide_eq_true (hl.validTree p (s.tree.indexed b p hpp).2)
      rw [if_neg (by simpa using hlink), hvalid, if_pos rfl]
      have hins : (s.setReceived b nTx).insertUnlinked b
          = (s.setReceived b nTx).setUnlinked (s.mapBlocksUnlinked ++ [(p, b)]) := by
        unfold ChainState.insertUnlinked
        rw [show (s.setReceived b nTx).tree.pprev b = some p from hpp]
        rfl
      rw [hins]
      exact ⟨t, hb.insertUnlinked hl hpp hlink, hr'.setUnlinked _⟩
    · rw [if_pos hlink]
      apply hloop
      intro p' hp'
      rw [hpp] at hp'
      obtain rfl := Option.some.inj hp'
      exact hlink

end ChainState

end Stonecoin
