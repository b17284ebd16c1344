/-
The transactions of a new block: the loop of `CreateNewBlock` (`miner.cpp`).

A `txiter` is the hash of the entry.  Priorities and scores are doubles: the priorities are
arbitrary numbers, and what the two heaps have on the top and the order of the index by score are
parameters.  `none` is a failed assertion, or an iterator that points nowhere.

  * `createNewBlock_selects`: what the loop has chosen in the end.
-/
import Mathlib.Data.Rat.Lemmas
import Stonecoin.AncestorLimits
import Stonecoin.Dependencies
import Stonecoin.Loops
import Stonecoin.MemPoolRemoval
import Stonecoin.SequenceLocks

namespace Stonecoin

def MAX_STANDARD_TX_SIGOPS : ℕ := MAX_BLOCK_SIGOPS / 5

/-- `CFeeRate::GetFee`, of the satoshis per kilobyte.  The product is unsigned. -/
def getFee (nSatoshisPerK : ℤ) (nSize : ℕ) : ℤ :=
  let nFee := nSatoshisPerK * nSize % 2 ^ 64 / 1000
  if nFee = 0 ∧ 0 < nSatoshisPerK then nSatoshisPerK else nFee

def allowFree (dPriority : ℚ) : Bool := COIN * 144 / 250 < dPriority

namespace BlockAssembly

structure Heap (α : Type) where
  pop : List α → Option (α × List α)
  perm : ∀ l a l', pop l = some (a, l') → (a :: l').Perm l
  isSome : ∀ l, l ≠ [] → (pop l).isSome

/-- The three arguments, as `GetArg` gives them. -/
structure BlockArgs where
  blockmaxsize : ℤ
  blockprioritysize : ℤ
  blockminsize : ℤ

namespace BlockArgs

variable (args : BlockArgs)

def toUInt32 (n : ℤ) : ℕ := (n % 2 ^ 32).toNat

def nBlockMaxSize : ℕ := max 1000 (min (MAX_BLOCK_SIZE - 1000) (toUInt32 args.blockmaxsize))

def nBlockPrioritySize : ℕ := min args.nBlockMaxSize (toUInt32 args.blockprioritysize)

def nBlockMinSize : ℕ := min args.nBlockMaxSize (toUInt32 args.blockminsize)

end BlockArgs

/-- What the loop reads: the pool, the arguments, the height and the cutoff of the next block.  The
pool has been checked: `CheckTransaction` and `AcceptToMemoryPool` limit the sizes and the
signature operations. -/
structure MinerEnv where
  pool : CTxMemPool
  order : EntryOrder
  args : BlockArgs
  nHeight : ℤ
  nLockTimeCutoff : ℤ
  minRelayTxFee : ℤ
  sigOpCount : UInt256 → ℕ
  priority : UInt256 → ℚ
  mapTx : List UInt256
  byScore : List UInt256
  priorityHeap : Heap (ℚ × UInt256)
  scoreHeap : Heap UInt256
  consistent : pool.Consistent
  acyclic : ∀ h, ¬ Relation.TransGen pool.Spends h h
  sizes : ∀ h e, pool.mapTx.lookup h = some e → e.nTxSize ≤ MAX_BLOCK_SIZE
  sigOps : ∀ h, sigOpCount h ≤ MAX_STANDARD_TX_SIGOPS
  mapTx_perm : mapTx.Perm pool.mapTx.keys
  byScore_perm : byScore.Perm pool.mapTx.keys

/-- What is in the block, with the three lists of the template without their first elements. -/
structure Template where
  inBlock : Finset UInt256
  nBlockSize : ℕ
  nBlockTx : ℕ
  nBlockSigOps : ℕ
  nFees : ℤ
  vtx : List CTransaction
  vTxFees : List ℤ
  vTxSigOps : List ℕ

/-- The variables of the loop; `mi` is what is left of the index by score. -/
structure Selection where
  vecPriority : List (ℚ × UInt256)
  waitPriMap : AList fun _ : UInt256 => ℚ
  waitSet : Finset UInt256
  clearedTxs : List UInt256
  mi : List UInt256
  actualPriority : ℚ
  fPriorityBlock : Bool
  lastFewTxs : ℕ
  block : Template

variable (env : MinerEnv)

def start : Selection where
  vecPriority :=
    if 0 < env.args.nBlockPrioritySize then env.mapTx.map fun h => (env.priority h, h) else []
  waitPriMap := ∅
  waitSet := ∅
  clearedTxs := []
  mi := env.byScore
  actualPriority := -1
  fPriorityBlock := 0 < env.args.nBlockPrioritySize
  lastFewTxs := 0
  block := ⟨∅, 1000, 0, 100, 0, [], [], []⟩

def Template.add (b : Template) (iter : UInt256) (e : CTxMemPoolEntry) (nTxSize nTxSigOps : ℕ) :
    Template where
  vtx := b.vtx ++ [e.tx]
  vTxFees := b.vTxFees ++ [e.nFee]
  vTxSigOps := b.vTxSigOps ++ [nTxSigOps]
  nBlockSize := b.nBlockSize + nTxSize
  nBlockTx := b.nBlockTx + 1
  nBlockSigOps := (b.nBlockSigOps + nTxSigOps) % 2 ^ 32
  nFees := b.nFees + e.nFee
  inBlock := insert iter b.inBlock

namespace Selection

variable (s : Selection)

/-- The next transaction, and whether it comes from the priority queue. -/
def choose : Option (UInt256 × Bool × Selection) :=
  if s.fPriorityBlock && !s.vecPriority.isEmpty then
    (env.priorityHeap.pop s.vecPriority).map fun r =>
      (r.1.2, true, { s with vecPriority := r.2, actualPriority := r.1.1 })
  else if s.clearedTxs.isEmpty then
    s.mi.head?.map fun iter => (iter, false, { s with mi := s.mi.tail })
  else
    (env.scoreHeap.pop s.clearedTxs).map fun r => (r.1, false, { s with clearedTxs := r.2 })

/-- An orphan is put off.  `insert` does not replace. -/
def postpone (iter : UInt256) (priorityTx : Bool) : Selection :=
  if priorityTx then
    { s with
      waitPriMap :=
        if iter ∈ s.waitPriMap then s.waitPriMap else s.waitPriMap.insert iter s.actualPriority }
  else { s with waitSet := insert iter s.waitSet }

/-- The part of the block for high priorities is over. -/
def leavePriority (nTxSize : ℕ) : Selection :=
  if s.fPriorityBlock && (env.args.nBlockPrioritySize ≤ s.block.nBlockSize + nTxSize ||
      !allowFree s.actualPriority) then
    { s with fPriorityBlock := false, waitPriMap := ∅ }
  else s

/-- A child of the transaction that was added need not wait for it. -/
def release (child : UInt256) : Selection :=
  if s.fPriorityBlock then
    (s.waitPriMap.lookup child).elim s fun dPriority =>
      { s with
        vecPriority := s.vecPriority ++ [(dPriority, child)]
        waitPriMap := s.waitPriMap.erase child }
  else if child ∈ s.waitSet then
    { s with clearedTxs := s.clearedTxs ++ [child], waitSet := s.waitSet.erase child }
  else s

/-- The tests of a transaction whose parents are in the block. -/
def consider (iter : UInt256) (e : CTxMemPoolEntry) (priorityTx : Bool) (nTxSize : ℕ) :
    Selection ⊕ Option Selection :=
  if !priorityTx && (decide (e.getModifiedFee < getFee env.minRelayTxFee nTxSize) &&
      decide (env.args.nBlockMinSize ≤ s.block.nBlockSize)) then .inr (some s)
  else if env.args.nBlockMaxSize ≤ s.block.nBlockSize + nTxSize then
    if env.args.nBlockMaxSize - 100 < s.block.nBlockSize ∨ 50 < s.lastFewTxs then .inr (some s)
    else if env.args.nBlockMaxSize - 1000 < s.block.nBlockSize then
      .inl { s with lastFewTxs := s.lastFewTxs + 1 }
    else .inl s
  else if !isFinalTx e.tx env.nHeight env.nLockTimeCutoff then .inl s
  else if MAX_BLOCK_SIGOPS ≤ (s.block.nBlockSigOps + env.sigOpCount iter) % 2 ^ 32 then
    if MAX_BLOCK_SIGOPS - 2 < s.block.nBlockSigOps then .inr (some s) else .inl s
  else
    match env.pool.getMemPoolChildren iter with
    | none => .inr none
    | some children =>
      .inl ((env.order.visit children).foldl Selection.release
        { s with block := s.block.add iter e nTxSize (env.sigOpCount iter) })

/-- What is done with the transaction that was chosen. -/
def visit (iter : UInt256) (priorityTx : Bool) : Selection ⊕ Option Selection :=
  if iter ∈ s.block.inBlock then .inl s
  else
    match env.pool.mapTx.lookup iter, env.pool.getMemPoolParents iter with
    | some e, some parents =>
      if (env.order.visit parents).any fun parent => parent ∉ s.block.inBlock then
        .inl (s.postpone iter priorityTx)
      else
        (s.leavePriority env (e.nTxSize % 2 ^ 32)).consider env iter e priorityTx
          (e.nTxSize % 2 ^ 32)
    | _, _ => .inr none

def pass : Selection ⊕ Option Selection :=
  if s.mi.isEmpty && s.clearedTxs.isEmpty then .inr (some s)
  else
    match s.choose env with
    | none => .inr none
    | some (iter, priorityTx, s) => s.visit env iter priorityTx

end Selection

def Selects (s : Selection) : Prop := Loops.Ends (Selection.pass env) (start env) (some s)

/-! ### What is chosen -/

/-- **What the block promises.** -/
structure Sound (b : Template) : Prop where
  distinct : (b.vtx.map CTransaction.hash).Nodup
  pooled : ∀ tx ∈ b.vtx, env.pool.txOf tx.hash = some tx
  final : ∀ tx ∈ b.vtx, isFinalTx tx env.nHeight env.nLockTimeCutoff = true
  parents : Dependencies.Ordered env.pool.Spends (b.vtx.map CTransaction.hash)
  size : b.vtx = [] ∨
    1000 + (b.vtx.map fun tx => env.pool.txSize tx.hash).sum < env.args.nBlockMaxSize
  sigOps : 100 + (b.vtx.map fun tx => env.sigOpCount tx.hash).sum < MAX_BLOCK_SIGOPS
  fees : b.nFees = b.vTxFees.sum
  each : b.vTxFees = b.vtx.map fun tx => ((env.pool.mapTx.lookup tx.hash).map
    CTxMemPoolEntry.nFee).getD 0

/-- All transactions of the pool are final, pay the minimum fee and fit into the block. -/
structure AllFit : Prop where
  final : ∀ h e, env.pool.mapTx.lookup h = some e →
    isFinalTx e.tx env.nHeight env.nLockTimeCutoff = true
  fee : ∀ h e, env.pool.mapTx.lookup h = some e →
    getFee env.minRelayTxFee e.nTxSize ≤ e.getModifiedFee
  size : 1000 + ∑ h ∈ env.pool.hashes, env.pool.txSize h < env.args.nBlockMaxSize
  sigOps : 100 + ∑ h ∈ env.pool.hashes, env.sigOpCount h < MAX_BLOCK_SIGOPS

structure Counted (b : Template) : Prop where
  inBlock : b.inBlock = (b.vtx.map CTransaction.hash).toFinset
  distinct : (b.vtx.map CTransaction.hash).Nodup
  pooled : ∀ tx ∈ b.vtx, env.pool.txOf tx.hash = some tx
  final : ∀ tx ∈ b.vtx, isFinalTx tx env.nHeight env.nLockTimeCutoff = true
  parents : Dependencies.Ordered env.pool.Spends (b.vtx.map CTransaction.hash)
  size : b.nBlockSize = 1000 + (b.vtx.map fun tx => env.pool.txSize tx.hash).sum
  sizeLt : b.vtx = [] ∨ b.nBlockSize < env.args.nBlockMaxSize
  sigOps : b.nBlockSigOps = 100 + (b.vtx.map fun tx => env.sigOpCount tx.hash).sum
  sigOpsLt : b.nBlockSigOps < MAX_BLOCK_SIGOPS
  fees : b.nFees = b.vTxFees.sum
  each : b.vTxFees = b.vtx.map fun tx => ((env.pool.mapTx.lookup tx.hash).map
    CTxMemPoolEntry.nFee).getD 0
  eachSigOps : b.vTxSigOps = b.vtx.map fun tx => env.sigOpCount tx.hash
  count : b.nBlockTx = b.vtx.length

/-- A transaction passes the tests. -/
structure Fits (b : Template) (iter : UInt256) (e : CTxMemPoolEntry) : Prop where
  fee : getFee env.minRelayTxFee e.nTxSize ≤ e.getModifiedFee
  final : isFinalTx e.tx env.nHeight env.nLockTimeCutoff = true
  size : b.nBlockSize + e.nTxSize < env.args.nBlockMaxSize
  sigOps : b.nBlockSigOps + env.sigOpCount iter < MAX_BLOCK_SIGOPS

/-- When a transaction is added. -/
structure Addable (b : Template) (iter : UInt256) (e : CTxMemPoolEntry) : Prop where
  new : iter ∉ b.inBlock
  entry : env.pool.mapTx.lookup iter = some e
  parents : ∀ p, env.pool.Spends p iter → p ∈ b.inBlock
  final : isFinalTx e.tx env.nHeight env.nLockTimeCutoff = true
  size : b.nBlockSize + e.nTxSize < env.args.nBlockMaxSize
  sigOps : b.nBlockSigOps + env.sigOpCount iter < MAX_BLOCK_SIGOPS

variable {env}

theorem counted_start : Counted env (start env).block where
  inBlock := rfl
  distinct := List.nodup_nil
  pooled := fun _ h => absurd h List.not_mem_nil
  final := fun _ h => absurd h List.not_mem_nil
  parents := Dependencies.ordered_nil
  size := rfl
  sizeLt := Or.inl rfl
  sigOps := rfl
  sigOpsLt := show 100 < MAX_BLOCK_SIGOPS by decide
  fees := rfl
  each := rfl
  eachSigOps := rfl
  count := rfl

variable {e : CTxMemPoolEntry}

theorem nTxSize_mod {h : UInt256} (he : env.pool.mapTx.lookup h = some e) :
    e.nTxSize % 2 ^ 32 = e.nTxSize := by
  refine Nat.mod_eq_of_lt ((env.sizes h e he).trans_lt ?_)
  decide

theorem sigOps_mod {n : ℕ} (hn : n < MAX_BLOCK_SIGOPS) (h : UInt256) :
    (n + env.sigOpCount h) % 2 ^ 32 = n + env.sigOpCount h := by
  have hle := env.sigOps h
  have hmax : MAX_BLOCK_SIGOPS = 20000 := rfl
  have hstandard : MAX_STANDARD_TX_SIGOPS = 4000 := rfl
  exact Nat.mod_eq_of_lt (by omega)

variable {b : Template} {iter : UInt256}

theorem Counted.add (h : Counted env b) (ha : Addable env b iter e) :
    Counted env (b.add iter e (e.nTxSize % 2 ^ 32) (env.sigOpCount iter)) := by
  have hhash : e.tx.hash = iter := env.consistent.keyed iter e ha.entry
  have hmem : ∀ p, p ∈ b.inBlock ↔ p ∈ b.vtx.map CTransaction.hash := by
    intro p
    rw [h.inBlock, List.mem_toFinset]
  have hsize : env.pool.txSize iter = e.nTxSize := by
    rw [CTxMemPool.txSize, ha.entry, Option.map_some, Option.getD_some]
  have hmap : (b.vtx ++ [e.tx]).map CTransaction.hash =
      b.vtx.map CTransaction.hash ++ [iter] := by
    rw [List.map_append, List.map_singleton, hhash]
  rw [nTxSize_mod ha.entry]
  constructor
  case inBlock =>
    show insert iter b.inBlock = ((b.vtx ++ [e.tx]).map CTransaction.hash).toFinset
    rw [hmap, h.inBlock]
    ext p
    simp
  case distinct =>
    show ((b.vtx ++ [e.tx]).map CTransaction.hash).Nodup
    rw [hmap]
    exact List.nodup_append.mpr ⟨h.distinct, List.nodup_singleton _, by
      rintro p hp q hq rfl
      rw [List.mem_singleton.mp hq] at hp
      exact ha.new ((hmem _).mpr hp)⟩
  case pooled =>
    intro tx htx
    rcases List.mem_append.mp htx with htx | htx
    · exact h.pooled tx htx
    · rw [List.mem_singleton.mp htx, hhash]
      exact CTxMemPool.txOf_eq_some.mpr ⟨e, ha.entry, rfl⟩
  case final =>
    intro tx htx
    rcases List.mem_append.mp htx with htx | htx
    · exact h.final tx htx
    · rw [List.mem_singleton.mp htx]
      exact ha.final
  case parents =>
    show Dependencies.Ordered _ ((b.vtx ++ [e.tx]).map CTransaction.hash)
    rw [hmap]
    exact h.parents.append fun p hp => (hmem p).mp (ha.parents p hp)
  case size =>
    show b.nBlockSize + e.nTxSize = 1000 + ((b.vtx ++ [e.tx]).map _).sum
    rw [h.size, List.map_append, List.sum_append, List.map_singleton, List.sum_singleton, hhash,
      hsize, Nat.add_assoc]
  case sizeLt => exact Or.inr ha.size
  case sigOps =>
    show (b.nBlockSigOps + env.sigOpCount iter) % 2 ^ 32 = 100 + ((b.vtx ++ [e.tx]).map _).sum
    rw [sigOps_mod h.sigOpsLt, h.sigOps, List.map_append, List.sum_append, List.map_singleton,
      List.sum_singleton, hhash, Nat.add_assoc]
  case sigOpsLt =>
    show (b.nBlockSigOps + env.sigOpCount iter) % 2 ^ 32 < MAX_BLOCK_SIGOPS
    rw [sigOps_mod h.sigOpsLt]
    exact ha.sigOps
  case fees =>
    show b.nFees + e.nFee = (b.vTxFees ++ [e.nFee]).sum
    rw [h.fees, List.sum_append, List.sum_singleton]
  case each =>
    show b.vTxFees ++ [e.nFee] = (b.vtx ++ [e.tx]).map _
    rw [h.each, List.map_append, List.map_singleton, hhash, ha.entry]
    rfl
  case eachSigOps =>
    show b.vTxSigOps ++ [env.sigOpCount iter] = (b.vtx ++ [e.tx]).map _
    rw [h.eachSigOps, List.map_append, List.map_singleton, hhash]
  case count =>
    show b.nBlockTx + 1 = (b.vtx ++ [e.tx]).length
    rw [h.count, List.length_append]
    rfl

theorem Counted.sound (h : Counted env b) : Sound env b where
  distinct := h.distinct
  pooled := h.pooled
  final := h.final
  parents := h.parents
  size := h.sizeLt.imp_right fun hlt => h.size ▸ hlt
  sigOps := h.sigOps ▸ h.sigOpsLt
  fees := h.fees
  each := h.each

/-! ### One pass -/

/-- How a transaction is chosen. -/
inductive Drawn (s : Selection) : UInt256 → Bool → Selection → Prop
  | priority {p : ℚ} {iter : UInt256} {rest : List (ℚ × UInt256)} (hmode : s.fPriorityBlock = true)
      (hperm : ((p, iter) :: rest).Perm s.vecPriority) :
      Drawn s iter true { s with vecPriority := rest, actualPriority := p }
  | score {iter : UInt256} {rest : List UInt256}
      (hmode : s.fPriorityBlock = false ∨ s.vecPriority = []) (hmi : s.mi = iter :: rest) :
      Drawn s iter false { s with mi := rest }
  | cleared {iter : UInt256} {rest : List UInt256}
      (hmode : s.fPriorityBlock = false ∨ s.vecPriority = [])
      (hperm : (iter :: rest).Perm s.clearedTxs) :
      Drawn s iter false { s with clearedTxs := rest }

theorem choose_drawn (env : MinerEnv) {s : Selection}
    (h : (s.mi.isEmpty && s.clearedTxs.isEmpty) = false) :
    ∃ iter priorityTx s₁, s.choose env = some (iter, priorityTx, s₁) ∧ Drawn s iter priorityTx s₁ := by
  rw [Selection.choose]
  by_cases hmode : (s.fPriorityBlock && !s.vecPriority.isEmpty) = true
  · rw [if_pos hmode]
    rw [Bool.and_eq_true, Bool.not_eq_true', List.isEmpty_eq_false_iff] at hmode
    obtain ⟨⟨⟨p, iter⟩, rest⟩, hpop⟩ :=
      Option.isSome_iff_exists.mp (env.priorityHeap.isSome _ hmode.2)
    rw [hpop]
    exact ⟨iter, true, _, rfl, .priority hmode.1 (env.priorityHeap.perm _ _ _ hpop)⟩
  · rw [if_neg hmode]
    have hmode' : s.fPriorityBlock = false ∨ s.vecPriority = [] := by
      simpa [Bool.and_eq_true, ← Bool.not_eq_true, or_iff_not_imp_left] using hmode
    by_cases hcleared : s.clearedTxs.isEmpty = true
    · rw [if_pos hcleared]
      cases hmi : s.mi with
      | nil =>
        rw [hmi, hcleared] at h
        cases h
      | cons iter rest => exact ⟨iter, false, _, rfl, .score hmode' hmi⟩
    · rw [if_neg hcleared]
      have hne : s.clearedTxs ≠ [] := fun hnil => hcleared (by rw [hnil]; rfl)
      obtain ⟨⟨iter, rest⟩, hpop⟩ := Option.isSome_iff_exists.mp (env.scoreHeap.isSome _ hne)
      rw [hpop]
      exact ⟨iter, false, _, rfl, .cleared hmode' (env.scoreHeap.perm _ _ _ hpop)⟩

variable {s₁ : Selection} {priorityTx : Bool}

theorem Drawn.block {s : Selection} (h : Drawn s iter priorityTx s₁) : s₁.block = s.block := by
  cases h <;> rfl

@[simp] theorem postpone_block (s : Selection) (iter : UInt256) (priorityTx : Bool) :
    (s.postpone iter priorityTx).block = s.block := by
  rw [Selection.postpone]
  split <;> rfl

@[simp] theorem leavePriority_block (s : Selection) (nTxSize : ℕ) :
    (s.leavePriority env nTxSize).block = s.block := by
  rw [Selection.leavePriority]
  split <;> rfl

@[simp] theorem release_block (s : Selection) (child : UInt256) :
    (s.release child).block = s.block := by
  rw [Selection.release]
  split
  · cases s.waitPriMap.lookup child <;> rfl
  · split <;> rfl

@[simp] theorem foldl_release_block (children : List UInt256) (s : Selection) :
    (children.foldl Selection.release s).block = s.block := by
  induction children generalizing s with
  | nil => rfl
  | cons child children ih => rw [List.foldl_cons, ih, release_block]

/-- What becomes of a transaction whose parents are in the block: it is passed, or it ends the
loop, or it is added. -/
inductive Considered (env : MinerEnv) (s : Selection) (iter : UInt256) (e : CTxMemPoolEntry) :
    Selection ⊕ Option Selection → Prop
  | passed (lastFewTxs : ℕ) (hfits : ¬ Fits env s.block iter e) :
      Considered env s iter e (.inl { s with lastFewTxs := lastFewTxs })
  | ended (hfits : ¬ Fits env s.block iter e) : Considered env s iter e (.inr (some s))
  | added {children : Finset UInt256}
      (hchildren : ∀ c, c ∈ children ↔ env.pool.Spends iter c) (ha : Addable env s.block iter e) :
      Considered env s iter e (.inl ((env.order.visit children).foldl Selection.release
        { s with block := s.block.add iter e (e.nTxSize % 2 ^ 32) (env.sigOpCount iter) }))

theorem parents_of_mem (env : MinerEnv) (h : iter ∈ env.pool.mapTx) :
    ∃ parents, env.pool.getMemPoolParents iter = some parents ∧
      ∀ p, p ∈ parents ↔ env.pool.Spends p iter := by
  obtain ⟨links, hlinks⟩ :=
    Option.isSome_iff_exists.mp (AList.lookup_isSome.mpr ((env.consistent.linked iter).mpr h))
  refine ⟨links.parents, ?_, env.consistent.parents iter links hlinks⟩
  rw [CTxMemPool.getMemPoolParents, hlinks]
  rfl

theorem children_of_mem (env : MinerEnv) (h : iter ∈ env.pool.mapTx) :
    ∃ children, env.pool.getMemPoolChildren iter = some children ∧
      ∀ c, c ∈ children ↔ env.pool.Spends iter c := by
  obtain ⟨links, hlinks⟩ :=
    Option.isSome_iff_exists.mp (AList.lookup_isSome.mpr ((env.consistent.linked iter).mpr h))
  refine ⟨links.children, ?_, env.consistent.children iter links hlinks⟩
  rw [CTxMemPool.getMemPoolChildren, hlinks]
  rfl

theorem consider_cases {s : Selection} (priorityTx : Bool)
    (hsigOps : s.block.nBlockSigOps < MAX_BLOCK_SIGOPS) (hnew : iter ∉ s.block.inBlock)
    (he : env.pool.mapTx.lookup iter = some e)
    (hparents : ∀ p, env.pool.Spends p iter → p ∈ s.block.inBlock) :
    Considered env s iter e (s.consider env iter e priorityTx (e.nTxSize % 2 ^ 32)) := by
  rw [Selection.consider, sigOps_mod hsigOps, nTxSize_mod he]
  split
  next hfee =>
    rw [Bool.and_eq_true, Bool.and_eq_true, decide_eq_true_eq] at hfee
    exact .ended fun hfits => absurd hfits.fee (Int.not_le.mpr hfee.2.1)
  split
  next hsize =>
    have hfull : ¬ Fits env s.block iter e := fun hfits => absurd hfits.size (Nat.not_lt.mpr hsize)
    split
    · exact .ended hfull
    · split
      · exact .passed _ hfull
      · exact .passed s.lastFewTxs hfull
  next hsize =>
  split
  next hfinal =>
    exact .passed s.lastFewTxs fun hfits => by
      rw [hfits.final] at hfinal
      cases hfinal
  next hfinal =>
  split
  next hmany =>
    have hfull : ¬ Fits env s.block iter e := fun hfits => absurd hfits.sigOps (Nat.not_lt.mpr hmany)
    split
    · exact .ended hfull
    · exact .passed s.lastFewTxs hfull
  next hmany =>
  obtain ⟨children, hget, hchildren⟩ :=
    children_of_mem env (AList.lookup_isSome.mp (by rw [he]; rfl))
  rw [hget]
  have hadded := Considered.added hchildren (⟨hnew, he, hparents, by simpa using hfinal,
    Nat.not_le.mp hsize, Nat.not_le.mp hmany⟩ : Addable env s.block iter e)
  rwa [nTxSize_mod he] at hadded

/-- What becomes of a transaction that was chosen. -/
inductive Visited (env : MinerEnv) (s : Selection) (iter : UInt256) (priorityTx : Bool) :
    Selection ⊕ Option Selection → Prop
  | known (h : iter ∈ s.block.inBlock) : Visited env s iter priorityTx (.inl s)
  | orphan {p : UInt256} (hnew : iter ∉ s.block.inBlock) (hp : env.pool.Spends p iter)
      (hout : p ∉ s.block.inBlock) : Visited env s iter priorityTx (.inl (s.postpone iter priorityTx))
  | considered {e : CTxMemPoolEntry} (hnew : iter ∉ s.block.inBlock)
      (he : env.pool.mapTx.lookup iter = some e)
      {r : Selection ⊕ Option Selection}
      (hr : Considered env (s.leavePriority env (e.nTxSize % 2 ^ 32)) iter e r) :
      Visited env s iter priorityTx r

theorem visit_cases {s : Selection} (priorityTx : Bool) (h : iter ∈ env.pool.mapTx)
    (hsigOps : s.block.nBlockSigOps < MAX_BLOCK_SIGOPS) :
    Visited env s iter priorityTx (s.visit env iter priorityTx) := by
  obtain ⟨e, he⟩ := Option.isSome_iff_exists.mp (AList.lookup_isSome.mpr h)
  obtain ⟨parents, hget, hparents⟩ := parents_of_mem env h
  rw [Selection.visit]
  split
  next hin => exact .known hin
  next hnew =>
    rw [he, hget]
    dsimp only
    split
    next horphan =>
      obtain ⟨p, hp, hout⟩ := List.any_eq_true.mp horphan
      rw [EntryOrder.mem_visit, hparents] at hp
      exact .orphan hnew hp (by simpa using hout)
    next hall =>
      refine .considered hnew he (consider_cases priorityTx (by rwa [leavePriority_block])
        (by rwa [leavePriority_block]) he fun p hp => ?_)
      rw [leavePriority_block]
      by_contra hout
      refine hall (List.any_eq_true.mpr ⟨p, ?_, by simpa using hout⟩)
      rw [EntryOrder.mem_visit, hparents]
      exact hp

/-- What is still to be chosen is in the pool. -/
structure Inside (env : MinerEnv) (s : Selection) : Prop where
  priority : ∀ q ∈ s.vecPriority, q.2 ∈ env.pool.mapTx
  cleared : ∀ h ∈ s.clearedTxs, h ∈ env.pool.mapTx
  score : ∀ h ∈ s.mi, h ∈ env.pool.mapTx

theorem Drawn.inside {s : Selection} (h : Drawn s iter priorityTx s₁) (hs : Inside env s) :
    iter ∈ env.pool.mapTx ∧ Inside env s₁ := by
  cases h with
  | priority _ hperm =>
    exact ⟨hs.priority _ (hperm.mem_iff.mp List.mem_cons_self),
      fun q hq => hs.priority q (hperm.mem_iff.mp (List.mem_cons_of_mem _ hq)), hs.cleared,
      hs.score⟩
  | score _ hmi =>
    exact ⟨hs.score _ (hmi ▸ List.mem_cons_self), hs.priority, hs.cleared,
      fun h hh => hs.score h (hmi ▸ List.mem_cons_of_mem _ hh)⟩
  | cleared _ hperm =>
    exact ⟨hs.cleared _ (hperm.mem_iff.mp List.mem_cons_self), hs.priority,
      fun h hh => hs.cleared h (hperm.mem_iff.mp (List.mem_cons_of_mem _ hh)), hs.score⟩

theorem Inside.postpone {s : Selection} (h : Inside env s) (iter : UInt256) (priorityTx : Bool) :
    Inside env (s.postpone iter priorityTx) := by
  rw [Selection.postpone]
  split
  · exact ⟨h.priority, h.cleared, h.score⟩
  · exact ⟨h.priority, h.cleared, h.score⟩

theorem Inside.leavePriority {s : Selection} (h : Inside env s) (nTxSize : ℕ) :
    Inside env (s.leavePriority env nTxSize) := by
  rw [Selection.leavePriority]
  split
  · exact ⟨h.priority, h.cleared, h.score⟩
  · exact h

theorem Inside.release {s : Selection} (h : Inside env s) {child : UInt256}
    (hchild : child ∈ env.pool.mapTx) : Inside env (s.release child) := by
  rw [Selection.release]
  split
  · cases s.waitPriMap.lookup child with
    | none => exact h
    | some dPriority =>
      refine ⟨fun q hq => ?_, h.cleared, h.score⟩
      rcases List.mem_append.mp hq with hq | hq
      · exact h.priority q hq
      · rwa [List.mem_singleton.mp hq]
  · split
    · refine ⟨h.priority, fun x hx => ?_, h.score⟩
      rcases List.mem_append.mp hx with hx | hx
      · exact h.cleared x hx
      · rwa [List.mem_singleton.mp hx]
    · exact h

theorem Inside.releaseAll {children : List UInt256} : ∀ {s : Selection}, Inside env s →
    (∀ c ∈ children, c ∈ env.pool.mapTx) → Inside env (children.foldl Selection.release s) := by
  induction children with
  | nil =>
    intro s h _
    exact h
  | cons child children ih =>
    intro s h hchildren
    exact ih (h.release (hchildren child List.mem_cons_self))
      fun c hc => hchildren c (List.mem_cons_of_mem child hc)

theorem inside_start (env : MinerEnv) : Inside env (start env) := by
  refine ⟨fun q hq => ?_, fun h hh => absurd hh List.not_mem_nil, fun h hh => ?_⟩
  · rw [start] at hq
    split at hq
    · obtain ⟨h, hh, rfl⟩ := List.mem_map.mp hq
      exact AList.mem_keys.mpr (env.mapTx_perm.mem_iff.mp hh)
    · cases hq
  · exact AList.mem_keys.mpr (env.byScore_perm.mem_iff.mp hh)

/-! ### The loop ends -/

def missing (env : MinerEnv) (s : Selection) : ℕ := (env.pool.hashes \ s.block.inBlock).card

/-- What the loop can still choose from. -/
def queued (s : Selection) : ℕ := s.vecPriority.length + s.clearedTxs.length + s.mi.length

theorem Drawn.queued {s : Selection} (h : Drawn s iter priorityTx s₁) : queued s₁ < queued s := by
  cases h with
  | priority _ hperm =>
    have hlength := hperm.length_eq
    simp only [BlockAssembly.queued, List.length_cons] at hlength ⊢
    omega
  | score _ hmi => simp [BlockAssembly.queued, hmi]
  | cleared _ hperm =>
    have hlength := hperm.length_eq
    simp only [BlockAssembly.queued, List.length_cons] at hlength ⊢
    omega

@[simp] theorem queued_postpone (s : Selection) (iter : UInt256) (priorityTx : Bool) :
    queued (s.postpone iter priorityTx) = queued s := by
  rw [Selection.postpone]
  split <;> rfl

@[simp] theorem queued_leavePriority (s : Selection) (nTxSize : ℕ) :
    queued (s.leavePriority env nTxSize) = queued s := by
  rw [Selection.leavePriority]
  split <;> rfl

theorem missing_add {s s' : Selection} (ha : Addable env s.block iter e)
    (hblock : s'.block = s.block.add iter e (e.nTxSize % 2 ^ 32) (env.sigOpCount iter)) :
    missing env s' < missing env s := by
  have hin : iter ∈ env.pool.hashes :=
    CTxMemPool.mem_hashes.mpr (AList.lookup_isSome.mp (by rw [ha.entry]; rfl))
  refine Finset.card_lt_card ?_
  rw [hblock]
  show env.pool.hashes \ insert iter s.block.inBlock ⊂ env.pool.hashes \ s.block.inBlock
  refine Finset.ssubset_iff_subset_ne.mpr ⟨?_, fun heq => ?_⟩
  · exact Finset.sdiff_subset_sdiff (Finset.Subset.refl _) (Finset.subset_insert _ _)
  · have hmem : iter ∈ env.pool.hashes \ s.block.inBlock :=
      Finset.mem_sdiff.mpr ⟨hin, ha.new⟩
    rw [← heq] at hmem
    exact (Finset.mem_sdiff.mp hmem).2 (Finset.mem_insert_self _ _)

/-- What the passes keep. -/
structure Kept (env : MinerEnv) (s : Selection) : Prop where
  inside : Inside env s
  counted : Counted env s.block

theorem pass_cases {s : Selection} (h : Kept env s) :
    (s.mi = [] ∧ s.clearedTxs = [] ∧ s.pass env = .inr (some s)) ∨
      ∃ iter priorityTx s₁, Drawn s iter priorityTx s₁ ∧ iter ∈ env.pool.mapTx ∧ Kept env s₁ ∧
        Visited env s₁ iter priorityTx (s.pass env) := by
  rw [Selection.pass]
  by_cases hleft : (s.mi.isEmpty && s.clearedTxs.isEmpty) = true
  · rw [if_pos hleft]
    rw [Bool.and_eq_true, List.isEmpty_iff, List.isEmpty_iff] at hleft
    exact Or.inl ⟨hleft.1, hleft.2, rfl⟩
  · obtain ⟨iter, priorityTx, s₁, hchoose, hdrawn⟩ :=
      choose_drawn env (Bool.eq_false_iff.mpr hleft)
    obtain ⟨hin, hs₁⟩ := hdrawn.inside h.inside
    have hcounted : Counted env s₁.block := hdrawn.block ▸ h.counted
    rw [if_neg hleft, hchoose]
    exact Or.inr ⟨iter, priorityTx, s₁, hdrawn, hin, ⟨hs₁, hcounted⟩,
      visit_cases priorityTx hin hcounted.sigOpsLt⟩

theorem pass_next {s s' : Selection} (h : Kept env s) (hpass : s.pass env = .inl s') :
    Kept env s' ∧
      (missing env s' < missing env s ∨ missing env s' = missing env s ∧ queued s' < queued s) := by
  rcases pass_cases h with ⟨-, -, hend⟩ | ⟨iter, priorityTx, s₁, hdrawn, -, hs₁, hvisited⟩
  · rw [hpass] at hend
    cases hend
  · have hblock := hdrawn.block
    have hqueued := hdrawn.queued
    have hmissing : ∀ {s₂ : Selection}, s₂.block = s.block → missing env s₂ = missing env s := by
      intro s₂ heq
      rw [missing, missing, heq]
    rw [hpass] at hvisited
    cases hvisited with
    | known _ => exact ⟨hs₁, Or.inr ⟨hmissing hblock, hqueued⟩⟩
    | orphan _ _ _ =>
      refine ⟨⟨hs₁.inside.postpone iter priorityTx, ?_⟩, Or.inr ⟨hmissing ?_, ?_⟩⟩
      · rw [postpone_block]
        exact hs₁.counted
      · rw [postpone_block, hblock]
      · rwa [queued_postpone]
    | @considered e _ he _ hr =>
      have hleave := hs₁.inside.leavePriority (e.nTxSize % 2 ^ 32)
      have hleaveBlock : (s₁.leavePriority env (e.nTxSize % 2 ^ 32)).block = s.block := by
        rw [leavePriority_block, hblock]
      cases hr with
      | passed lastFewTxs _ =>
        refine ⟨⟨⟨hleave.priority, hleave.cleared, hleave.score⟩, ?_⟩, Or.inr ⟨hmissing ?_, ?_⟩⟩
        · exact hleaveBlock ▸ h.counted
        · exact hleaveBlock
        · show queued (s₁.leavePriority env (e.nTxSize % 2 ^ 32)) < queued s
          rwa [queued_leavePriority]
      | @added children hchildren ha =>
        rw [hleaveBlock] at ha
        refine ⟨⟨Inside.releaseAll ⟨hleave.priority, hleave.cleared, hleave.score⟩ fun c hc => ?_, ?_⟩,
          Or.inl (missing_add ha ?_)⟩
        · rw [EntryOrder.mem_visit, hchildren] at hc
          exact hc.mem_right
        · rw [foldl_release_block, hleaveBlock]
          exact h.counted.add ha
        · rw [foldl_release_block, hleaveBlock]

theorem pass_stop {s : Selection} {r : Option Selection} (h : Kept env s)
    (hpass : s.pass env = .inr r) : ∃ s', r = some s' ∧ Counted env s'.block := by
  rcases pass_cases h with ⟨-, -, hend⟩ | ⟨iter, priorityTx, s₁, -, -, hs₁, hvisited⟩
  · exact ⟨s, Sum.inr.inj (hpass.symm.trans hend), h.counted⟩
  · rw [hpass] at hvisited
    cases hvisited with
    | considered _ _ hr =>
      cases hr with
      | ended _ =>
        refine ⟨_, rfl, ?_⟩
        rw [leavePriority_block]
        exact hs₁.counted

theorem kept_start (env : MinerEnv) : Kept env (start env) := ⟨inside_start env, counted_start⟩

/-! ### Nothing is forgotten -/

/-- A parent of the transaction is not in the block. -/
def Lacks (env : MinerEnv) (s : Selection) (h : UInt256) : Prop :=
  ∃ p, env.pool.Spends p h ∧ p ∉ s.block.inBlock

/-- Where the transactions of the pool are, with one that was just chosen.  What waits does so for
a reason. -/
structure Covered (env : MinerEnv) (drawn : List UInt256) (reason : UInt256 → Prop)
    (s : Selection) : Prop where
  scored : ∀ h ∈ env.pool.mapTx, h ∈ s.block.inBlock ∨ h ∈ s.mi ∨
    s.fPriorityBlock = false ∧ (h ∈ drawn ∨ h ∈ s.clearedTxs ∨ h ∈ s.waitSet ∧ reason h)
  ranked : s.fPriorityBlock = true → ∀ h ∈ env.pool.mapTx, h ∈ s.block.inBlock ∨ h ∈ drawn ∨
    h ∈ s.vecPriority.map Prod.snd ∨ h ∈ s.waitPriMap ∧ reason h

theorem wellFounded_spends (env : MinerEnv) : WellFounded env.pool.Spends :=
  Dependencies.wellFounded_of_acyclic (Finset.finite_toSet env.pool.hashes)
    (fun _ _ h => ⟨CTxMemPool.mem_hashes.mpr h.1, CTxMemPool.mem_hashes.mpr h.mem_right⟩)
    env.acyclic

theorem all_inBlock {s : Selection}
    (h : ∀ x ∈ env.pool.mapTx, x ∈ s.block.inBlock ∨ Lacks env s x) :
    ∀ x ∈ env.pool.mapTx, x ∈ s.block.inBlock := by
  have hwaits : ∀ x, x ∈ env.pool.mapTx ∧ x ∉ s.block.inBlock →
      ∃ p, env.pool.Spends p x ∧ p ∈ env.pool.mapTx ∧ p ∉ s.block.inBlock := by
    intro x hx
    obtain ⟨p, hp, hout⟩ := (h x hx.1).resolve_left hx.2
    exact ⟨p, hp, hp.1, hout⟩
  intro x hx
  by_contra hout
  exact Dependencies.all_of_waiting (wellFounded_spends env) hwaits x ⟨hx, hout⟩

theorem covered_start (env : MinerEnv) : Covered env [] (Lacks env (start env)) (start env) := by
  refine ⟨fun h hh => Or.inr (Or.inl ?_), fun hmode h hh => Or.inr (Or.inr (Or.inl ?_))⟩
  · exact env.byScore_perm.mem_iff.mpr (AList.mem_keys.mp hh)
  · have hpos : 0 < env.args.nBlockPrioritySize := by simpa [start] using hmode
    show h ∈ (if 0 < env.args.nBlockPrioritySize then _ else []).map Prod.snd
    rw [if_pos hpos, List.map_map]
    exact List.mem_map.mpr ⟨h, env.mapTx_perm.mem_iff.mpr (AList.mem_keys.mp hh), rfl⟩

theorem Covered.used_up {s : Selection} (h : Covered env [] (Lacks env s) s)
    (hmode : s.fPriorityBlock = true) (hempty : s.vecPriority = []) :
    ∀ x ∈ env.pool.mapTx, x ∈ s.block.inBlock := by
  refine all_inBlock fun x hx => ?_
  rcases h.ranked hmode x hx with hin | hin | hin | ⟨-, hlacks⟩
  · exact Or.inl hin
  · cases hin
  · rw [hempty] at hin
    cases hin
  · exact Or.inr hlacks

/-- **A transaction is chosen.**  Out of the index by score it is chosen in the part for high
priorities only when all is in the block. -/
theorem Covered.drawn {s : Selection} (h : Covered env [] (Lacks env s) s)
    (hdrawn : Drawn s iter priorityTx s₁) :
    Covered env [iter] (Lacks env s₁) s₁ ∧
      (priorityTx = s₁.fPriorityBlock ∨ ∀ x ∈ env.pool.mapTx, x ∈ s₁.block.inBlock) := by
  cases hdrawn with
  | @priority p iter rest hmode hperm =>
    refine ⟨⟨fun x hx => ?_, fun _ x hx => ?_⟩, Or.inl hmode.symm⟩
    · rcases h.scored x hx with hin | hin | ⟨hscore, -⟩
      · exact Or.inl hin
      · exact Or.inr (Or.inl hin)
      · rw [hmode] at hscore
        cases hscore
    · rcases h.ranked hmode x hx with hin | hin | hin | hin
      · exact Or.inl hin
      · cases hin
      · rw [← (hperm.map Prod.snd).mem_iff, List.map_cons, List.mem_cons] at hin
        rcases hin with rfl | hin
        · exact Or.inr (Or.inl List.mem_cons_self)
        · exact Or.inr (Or.inr (Or.inl hin))
      · exact Or.inr (Or.inr (Or.inr hin))
  | @score iter rest hmode hmi =>
    rcases Bool.eq_false_or_eq_true s.fPriorityBlock with hscore | hscore
    · have hall := h.used_up hscore (hmode.resolve_left (by rw [hscore]; decide))
      exact ⟨⟨fun x hx => Or.inl (hall x hx), fun _ x hx => Or.inl (hall x hx)⟩, Or.inr hall⟩
    · refine ⟨⟨fun x hx => ?_, fun hpriority => ?_⟩, Or.inl hscore.symm⟩
      · rcases h.scored x hx with hin | hin | ⟨-, hin | hin⟩
        · exact Or.inl hin
        · rw [hmi, List.mem_cons] at hin
          rcases hin with rfl | hin
          · exact Or.inr (Or.inr ⟨hscore, Or.inl List.mem_cons_self⟩)
          · exact Or.inr (Or.inl hin)
        · cases hin
        · exact Or.inr (Or.inr ⟨hscore, Or.inr hin⟩)
      · exact absurd (hscore.symm.trans hpriority) (by decide)
  | @cleared iter rest hmode hperm =>
    rcases Bool.eq_false_or_eq_true s.fPriorityBlock with hscore | hscore
    · have hall := h.used_up hscore (hmode.resolve_left (by rw [hscore]; decide))
      exact ⟨⟨fun x hx => Or.inl (hall x hx), fun _ x hx => Or.inl (hall x hx)⟩, Or.inr hall⟩
    · refine ⟨⟨fun x hx => ?_, fun hpriority => ?_⟩, Or.inl hscore.symm⟩
      · rcases h.scored x hx with hin | hin | ⟨-, hin | hin | hin⟩
        · exact Or.inl hin
        · exact Or.inr (Or.inl hin)
        · cases hin
        · rw [← hperm.mem_iff, List.mem_cons] at hin
          rcases hin with rfl | hin
          · exact Or.inr (Or.inr ⟨hscore, Or.inl List.mem_cons_self⟩)
          · exact Or.inr (Or.inr ⟨hscore, Or.inr (Or.inl hin)⟩)
        · exact Or.inr (Or.inr ⟨hscore, Or.inr (Or.inr hin)⟩)
      · exact absurd (hscore.symm.trans hpriority) (by decide)

variable {reason : UInt256 → Prop}

theorem Covered.known {s : Selection} (h : Covered env [iter] reason s)
    (hin : iter ∈ s.block.inBlock) : Covered env [] reason s := by
  refine ⟨fun x hx => ?_, fun hmode x hx => ?_⟩
  · rcases h.scored x hx with hx | hx | ⟨hmode, hx | hx⟩
    · exact Or.inl hx
    · exact Or.inr (Or.inl hx)
    · exact Or.inl (List.mem_singleton.mp hx ▸ hin)
    · exact Or.inr (Or.inr ⟨hmode, Or.inr hx⟩)
  · rcases h.ranked hmode x hx with hx | hx | hx
    · exact Or.inl hx
    · exact Or.inl (List.mem_singleton.mp hx ▸ hin)
    · exact Or.inr (Or.inr hx)

theorem Covered.postpone {s : Selection} (h : Covered env [iter] (Lacks env s) s)
    (hlacks : Lacks env s iter) (hmode : priorityTx = s.fPriorityBlock) :
    Covered env [] (Lacks env (s.postpone iter priorityTx)) (s.postpone iter priorityTx) := by
  have hreason : Lacks env (s.postpone iter priorityTx) = Lacks env s := by
    funext x
    rw [Lacks, Lacks, postpone_block]
  rw [hreason, Selection.postpone]
  rcases Bool.eq_false_or_eq_true s.fPriorityBlock with hscore | hscore
  · rw [if_pos (hmode.trans hscore)]
    refine ⟨fun x hx => ?_, fun _ x hx => ?_⟩
    · rcases h.scored x hx with hx | hx | ⟨hno, -⟩
      · exact Or.inl hx
      · exact Or.inr (Or.inl hx)
      · rw [hscore] at hno
        cases hno
    · have hmem : ∀ y, y = iter ∨ y ∈ s.waitPriMap →
          y ∈ (if iter ∈ s.waitPriMap then s.waitPriMap
            else s.waitPriMap.insert iter s.actualPriority) := by
        intro y hy
        split
        next hin => exact hy.elim (fun heq => heq ▸ hin) id
        next => exact AList.mem_insert _ |>.mpr hy
      rcases h.ranked hscore x hx with hx | hx | hx | ⟨hx, hreason⟩
      · exact Or.inl hx
      · obtain rfl := List.mem_singleton.mp hx
        exact Or.inr (Or.inr (Or.inr ⟨hmem _ (Or.inl rfl), hlacks⟩))
      · exact Or.inr (Or.inr (Or.inl hx))
      · exact Or.inr (Or.inr (Or.inr ⟨hmem x (Or.inr hx), hreason⟩))
  · rw [if_neg (by rw [hmode, hscore]; decide)]
    refine ⟨fun x hx => ?_, fun hpriority => ?_⟩
    · rcases h.scored x hx with hx | hx | ⟨-, hx | hx | ⟨hx, hreason⟩⟩
      · exact Or.inl hx
      · exact Or.inr (Or.inl hx)
      · obtain rfl := List.mem_singleton.mp hx
        exact Or.inr (Or.inr ⟨hscore, Or.inr (Or.inr ⟨Finset.mem_insert_self _ _, hlacks⟩)⟩)
      · exact Or.inr (Or.inr ⟨hscore, Or.inr (Or.inl hx)⟩)
      · exact Or.inr (Or.inr ⟨hscore, Or.inr (Or.inr ⟨Finset.mem_insert_of_mem hx, hreason⟩)⟩)
    · exact absurd (hscore.symm.trans hpriority) (by decide)

theorem Covered.leavePriority {s : Selection} {drawn : List UInt256}
    (h : Covered env drawn reason s) (nTxSize : ℕ) :
    Covered env drawn reason (s.leavePriority env nTxSize) := by
  rw [Selection.leavePriority]
  split
  next hleave =>
    rw [Bool.and_eq_true] at hleave
    refine ⟨fun x hx => ?_, fun hmode => by cases hmode⟩
    rcases h.scored x hx with hx | hx | ⟨hno, -⟩
    · exact Or.inl hx
    · exact Or.inr (Or.inl hx)
    · rw [hleave.1] at hno
      cases hno
  next => exact h

theorem Covered.release {s : Selection} {child : UInt256}
    (h : Covered env [] (fun x => x = child ∨ reason x) s) :
    Covered env [] reason (s.release child) := by
  rw [Selection.release]
  rcases Bool.eq_false_or_eq_true s.fPriorityBlock with hscore | hscore
  · rw [if_pos hscore]
    have hscored : ∀ x ∈ env.pool.mapTx, x ∈ s.block.inBlock ∨ x ∈ s.mi := by
      intro x hx
      rcases h.scored x hx with hx | hx | ⟨hno, -⟩
      · exact Or.inl hx
      · exact Or.inr hx
      · exact absurd (hno.symm.trans hscore) (by decide)
    cases hlookup : s.waitPriMap.lookup child with
    | none =>
      refine ⟨fun x hx => (hscored x hx).imp_right Or.inl, fun _ x hx => ?_⟩
      rcases h.ranked hscore x hx with hx | hx | hx | ⟨hx, rfl | hreason⟩
      · exact Or.inl hx
      · cases hx
      · exact Or.inr (Or.inr (Or.inl hx))
      · exact absurd hx (AList.lookup_eq_none.mp hlookup)
      · exact Or.inr (Or.inr (Or.inr ⟨hx, hreason⟩))
    | some dPriority =>
      refine ⟨fun x hx => (hscored x hx).imp_right Or.inl, fun _ x hx => ?_⟩
      show _ ∨ _ ∨ x ∈ (s.vecPriority ++ [(dPriority, child)]).map Prod.snd ∨ _
      rw [List.map_append, List.map_singleton, List.mem_append, List.mem_singleton]
      by_cases hchild : x = child
      · exact Or.inr (Or.inr (Or.inl (Or.inr hchild)))
      · rcases h.ranked hscore x hx with hx | hx | hx | ⟨hx, heq | hreason⟩
        · exact Or.inl hx
        · cases hx
        · exact Or.inr (Or.inr (Or.inl (Or.inl hx)))
        · exact absurd heq hchild
        · exact Or.inr (Or.inr (Or.inr ⟨AList.mem_erase.mpr ⟨hchild, hx⟩, hreason⟩))
  · rw [if_neg (by rw [hscore]; decide)]
    have hranked : ¬ s.fPriorityBlock = true := by rw [hscore]; decide
    split
    next hwaits =>
      refine ⟨fun x hx => ?_, fun hmode => absurd hmode hranked⟩
      rcases h.scored x hx with hx | hx | ⟨-, hx | hx | ⟨hx, hreason⟩⟩
      · exact Or.inl hx
      · exact Or.inr (Or.inl hx)
      · cases hx
      · exact Or.inr (Or.inr ⟨hscore, Or.inr (Or.inl (List.mem_append_left _ hx))⟩)
      · by_cases hchild : x = child
        · exact Or.inr (Or.inr ⟨hscore, Or.inr (Or.inl
            (List.mem_append_right _ (List.mem_singleton.mpr hchild)))⟩)
        · exact Or.inr (Or.inr ⟨hscore, Or.inr (Or.inr
            ⟨Finset.mem_erase.mpr ⟨hchild, hx⟩, hreason.resolve_left hchild⟩)⟩)
    next hgone =>
      refine ⟨fun x hx => ?_, fun hmode => absurd hmode hranked⟩
      rcases h.scored x hx with hx | hx | ⟨-, hx | hx | ⟨hx, rfl | hreason⟩⟩
      · exact Or.inl hx
      · exact Or.inr (Or.inl hx)
      · cases hx
      · exact Or.inr (Or.inr ⟨hscore, Or.inr (Or.inl hx)⟩)
      · exact absurd hx hgone
      · exact Or.inr (Or.inr ⟨hscore, Or.inr (Or.inr ⟨hx, hreason⟩)⟩)

theorem Covered.releaseAll : ∀ {children : List UInt256} {s : Selection},
    Covered env [] (fun x => x ∈ children ∨ reason x) s →
      Covered env [] reason (children.foldl Selection.release s) := by
  intro children
  induction children with
  | nil =>
    intro s h
    have hreason : (fun x => x ∈ ([] : List UInt256) ∨ reason x) = reason := by
      funext x
      simp
    rwa [hreason] at h
  | cons child children ih =>
    intro s h
    refine ih (Covered.release ?_)
    have hreason : (fun x => x ∈ child :: children ∨ reason x) =
        fun x => x = child ∨ x ∈ children ∨ reason x := by
      funext x
      rw [List.mem_cons, or_assoc]
    rwa [hreason] at h

theorem Covered.add {s : Selection} (h : Covered env [iter] (Lacks env s) s) (e : CTxMemPoolEntry)
    {children : List UInt256} (hchildren : ∀ c, env.pool.Spends iter c → c ∈ children)
    (nTxSize nTxSigOps : ℕ) :
    Covered env []
      (fun x => x ∈ children ∨
        Lacks env { s with block := s.block.add iter e nTxSize nTxSigOps } x)
      { s with block := s.block.add iter e nTxSize nTxSigOps } := by
  have hin : ∀ {x}, x ∈ s.block.inBlock ∨ x = iter → x ∈ insert iter s.block.inBlock := by
    rintro x (hx | rfl)
    · exact Finset.mem_insert_of_mem hx
    · exact Finset.mem_insert_self _ _
  have hreason : ∀ {x}, Lacks env s x → x ∈ children ∨
      Lacks env { s with block := s.block.add iter e nTxSize nTxSigOps } x := by
    rintro x ⟨p, hp, hout⟩
    by_cases hiter : p = iter
    · exact Or.inl (hchildren x (hiter ▸ hp))
    · refine Or.inr ⟨p, hp, ?_⟩
      show p ∉ insert iter s.block.inBlock
      rw [Finset.mem_insert]
      exact fun hmem => hmem.elim hiter hout
  refine ⟨fun x hx => ?_, fun hmode x hx => ?_⟩
  · rcases h.scored x hx with hx | hx | ⟨hscore, hx | hx | ⟨hx, hlacks⟩⟩
    · exact Or.inl (hin (Or.inl hx))
    · exact Or.inr (Or.inl hx)
    · exact Or.inl (hin (Or.inr (List.mem_singleton.mp hx)))
    · exact Or.inr (Or.inr ⟨hscore, Or.inr (Or.inl hx)⟩)
    · exact Or.inr (Or.inr ⟨hscore, Or.inr (Or.inr ⟨hx, hreason hlacks⟩)⟩)
  · rcases h.ranked hmode x hx with hx | hx | hx | ⟨hx, hlacks⟩
    · exact Or.inl (hin (Or.inl hx))
    · exact Or.inl (hin (Or.inr (List.mem_singleton.mp hx)))
    · exact Or.inr (Or.inr (Or.inl hx))
    · exact Or.inr (Or.inr (Or.inr ⟨hx, hreason hlacks⟩))

theorem Counted.sum_add_le (h : Counted env b) (hin : iter ∈ env.pool.mapTx)
    (hnew : iter ∉ b.inBlock) (f : UInt256 → ℕ) :
    (b.vtx.map fun tx => f tx.hash).sum + f iter ≤ ∑ h ∈ env.pool.hashes, f h := by
  have hlist : (b.vtx.map fun tx => f tx.hash).sum = ∑ h ∈ b.inBlock, f h := by
    rw [h.inBlock, List.sum_toFinset f h.distinct, List.map_map]
    rfl
  have hsub : insert iter b.inBlock ⊆ env.pool.hashes := by
    intro p hp
    rw [CTxMemPool.mem_hashes]
    rcases Finset.mem_insert.mp hp with rfl | hp
    · exact hin
    · rw [h.inBlock, List.mem_toFinset] at hp
      obtain ⟨tx, htx, rfl⟩ := List.mem_map.mp hp
      obtain ⟨e, he, -⟩ := CTxMemPool.txOf_eq_some.mp (h.pooled tx htx)
      exact AList.lookup_isSome.mp (by rw [he]; rfl)
  rw [hlist, Nat.add_comm, ← Finset.sum_insert hnew]
  exact Finset.sum_le_sum_of_subset hsub

theorem AllFit.fits (hall : AllFit env) (h : Counted env b)
    (he : env.pool.mapTx.lookup iter = some e) (hnew : iter ∉ b.inBlock) :
    Fits env b iter e := by
  have hin : iter ∈ env.pool.mapTx := AList.lookup_isSome.mp (by rw [he]; rfl)
  have hsize := h.sum_add_le hin hnew env.pool.txSize
  have hsigOps := h.sum_add_le hin hnew env.sigOpCount
  have hsizeLt := hall.size
  have hsigOpsLt := hall.sigOps
  have hentry : env.pool.txSize iter = e.nTxSize := by
    rw [CTxMemPool.txSize, he, Option.map_some, Option.getD_some]
  rw [hentry] at hsize
  refine ⟨hall.fee iter e he, hall.final iter e he, ?_, ?_⟩
  · rw [h.size]
    omega
  · rw [h.sigOps]
    omega

theorem covered_pass (hall : AllFit env) {s s' : Selection} (hkept : Kept env s)
    (h : Covered env [] (Lacks env s) s) (hpass : s.pass env = .inl s') :
    Covered env [] (Lacks env s') s' := by
  rcases pass_cases hkept with ⟨-, -, hend⟩ | ⟨iter, priorityTx, s₁, hdrawn, hin, hs₁, hvisited⟩
  · rw [hpass] at hend
    cases hend
  · obtain ⟨hcovered, hmode⟩ := h.drawn hdrawn
    rw [hpass] at hvisited
    cases hvisited with
    | known hblock => exact hcovered.known hblock
    | @orphan p hnew hp hout =>
      -- it is not one that is chosen when all is in the block
      exact hcovered.postpone ⟨p, hp, hout⟩ (hmode.resolve_right fun hblock => hnew (hblock iter hin))
    | @considered e hnew he _ hr =>
      have hfits : Fits env (s₁.leavePriority env (e.nTxSize % 2 ^ 32)).block iter e := by
        rw [leavePriority_block]
        exact hall.fits hs₁.counted he hnew
      have hlacks : Lacks env (s₁.leavePriority env (e.nTxSize % 2 ^ 32)) = Lacks env s₁ := by
        funext x
        rw [Lacks, Lacks, leavePriority_block]
      cases hr with
      | passed _ hnot => exact absurd hfits hnot
      | @added children hchildren ha =>
        have hleave := hcovered.leavePriority (e.nTxSize % 2 ^ 32)
        rw [← hlacks] at hleave
        have hvisit : ∀ c, env.pool.Spends iter c → c ∈ env.order.visit children := fun c hc =>
          (env.order.mem_visit children c).mpr ((hchildren c).mpr hc)
        have hreleased :=
          (hleave.add e hvisit (e.nTxSize % 2 ^ 32) (env.sigOpCount iter)).releaseAll
        refine (congrArg (Covered env [] · _) ?_).mpr hreleased
        funext x
        rw [Lacks, Lacks, foldl_release_block]

theorem covered_stop (hall : AllFit env) {s : Selection} {r : Option Selection}
    (hkept : Kept env s) (h : Covered env [] (Lacks env s) s) (hpass : s.pass env = .inr r) :
    ∀ s', r = some s' → ∀ x ∈ env.pool.mapTx, x ∈ s'.block.inBlock := by
  rcases pass_cases hkept with ⟨hmi, hcleared, hend⟩ |
    ⟨iter, priorityTx, s₁, hdrawn, hin, hs₁, hvisited⟩
  · rintro s' rfl
    obtain rfl := Option.some.inj (Sum.inr.inj (hpass.symm.trans hend))
    refine all_inBlock fun x hx => ?_
    rcases h.scored x hx with hx | hx | ⟨-, hx | hx | ⟨-, hlacks⟩⟩
    · exact Or.inl hx
    · rw [hmi] at hx
      cases hx
    · cases hx
    · rw [hcleared] at hx
      cases hx
    · exact Or.inr hlacks
  · rintro s' -
    rw [hpass] at hvisited
    cases hvisited with
    | @considered e hnew he _ hr =>
      cases hr with
      | ended hnot =>
        refine absurd ?_ hnot
        rw [leavePriority_block]
        exact hall.fits hs₁.counted he hnew

/-- **The loop of `CreateNewBlock`** ends; what it has chosen is sound, and where everything fits
it has chosen everything. -/
theorem createNewBlock_selects (env : MinerEnv) : ∃ s, Selects env s ∧ Sound env s.block ∧
    (AllFit env → ∀ h ∈ env.pool.mapTx, h ∈ s.block.vtx.map CTransaction.hash) := by
  obtain ⟨r, hr⟩ := Loops.ends_of_lex (missing env) queued (fun _ _ h hpass => pass_next h hpass)
    (kept_start env)
  obtain ⟨s, rfl, hs⟩ := hr.post (fun _ _ h hpass => (pass_next h hpass).1)
    (fun _ _ h hpass => pass_stop h hpass) (kept_start env)
  refine ⟨s, hr, hs.sound, fun hall h hh => ?_⟩
  have hin := hr.post (I := fun s => Kept env s ∧ Covered env [] (Lacks env s) s)
    (fun _ _ h hpass => ⟨(pass_next h.1 hpass).1, covered_pass hall h.1 h.2 hpass⟩)
    (fun _ _ h hpass => covered_stop hall h.1 h.2 hpass) ⟨kept_start env, covered_start env⟩
    s rfl h hh
  rwa [hs.inBlock, List.mem_toFinset] at hin

/-! ### Two pools -/

/-- The first element. -/
def Heap.front (α : Type) : Heap α where
  pop := fun l => l.head?.map fun a => (a, l.tail)
  perm := by
    intro l a l' h
    cases l with
    | nil => cases h
    | cons b l =>
      obtain ⟨rfl, rfl⟩ := Prod.mk.inj (Option.some.inj h)
      exact List.Perm.refl _
  isSome := by
    intro l hl
    cases l with
    | nil => exact absurd rfl hl
    | cons b l => rfl

theorem acyclic_of_not_spends {pool : CTxMemPool} (h : ∀ p c, ¬ pool.Spends p c) (x : UInt256) :
    ¬ Relation.TransGen pool.Spends x x := by
  intro hcycle
  obtain ⟨_, -, hstep⟩ := Relation.TransGen.tail'_iff.mp hcycle
  exact h _ _ hstep

/-- A miner with these transactions. -/
def envOf (pool : CTxMemPool) (args : BlockArgs) (consistent : pool.Consistent)
    (hspends : ∀ p c, ¬ pool.Spends p c)
    (sizes : ∀ h e, pool.mapTx.lookup h = some e → e.nTxSize ≤ MAX_BLOCK_SIZE) : MinerEnv where
  pool := pool
  order := .byNumber
  args := args
  nHeight := 10
  nLockTimeCutoff := 1500000000
  minRelayTxFee := 0
  sigOpCount := fun _ => 1
  priority := fun _ => 0
  mapTx := pool.mapTx.keys
  byScore := pool.mapTx.keys
  priorityHeap := Heap.front _
  scoreHeap := Heap.front _
  consistent := consistent
  acyclic := acyclic_of_not_spends hspends
  sizes := sizes
  sigOps := fun _ => by decide
  mapTx_perm := List.Perm.refl _
  byScore_perm := List.Perm.refl _

/-- The smallest block size, and no transactions. -/
def emptyEnv : MinerEnv :=
  envOf .empty ⟨0, 0, 0⟩ CTxMemPool.consistent_empty
    (fun p c h => absurd h.mem_right (by simp [CTxMemPool.empty]))
    fun h e he => absurd he (by simp [CTxMemPool.empty])

/-- The empty block of the smallest size: with the 1000 it is not below the limit. -/
theorem smallest_block : ∃ s, Selects emptyEnv s ∧
    ¬ 1000 + (s.block.vtx.map fun tx => emptyEnv.pool.txSize tx.hash).sum <
      emptyEnv.args.nBlockMaxSize :=
  ⟨start emptyEnv, .stop rfl, by decide⟩

theorem lookup_parentPool {h : UInt256} (he : CTxMemPool.parentPool.mapTx.lookup h = some e) :
    h = 1 ∧ e = CTxMemPool.withDelta .empty 1 (.of (CTxMemPool.spendingTx 1 7 1) 100) := by
  have hadd := CTxMemPool.parentPool_added.1
  by_cases hh : h = 1
  · subst hh
    exact ⟨rfl, (Option.some.inj (hadd.newTx.symm.trans he)).symm⟩
  · rw [hadd.oldTx h hh] at he
    simp [CTxMemPool.empty] at he

theorem not_spends_parentPool (p c : UInt256) : ¬ CTxMemPool.parentPool.Spends p c := by
  rintro ⟨hp, tx, htx, i, hi, rfl⟩
  obtain ⟨e, he, rfl⟩ := CTxMemPool.txOf_eq_some.mp htx
  obtain ⟨-, rfl⟩ := lookup_parentPool he
  rw [CTxMemPool.parentPool_added.1.mem_iff] at hp
  rw [CTxMemPool.withDelta_tx] at hi
  obtain rfl := List.mem_singleton.mp hi
  rcases hp with hp | hp
  · exact absurd hp (by decide)
  · simp [CTxMemPool.empty] at hp

/-- The defaults, and one transaction. -/
def parentEnv : MinerEnv :=
  envOf CTxMemPool.parentPool ⟨750000, 10000, 0⟩ CTxMemPool.parentPool_added.2
    not_spends_parentPool fun h e he => by
      rw [(lookup_parentPool he).2, CTxMemPool.withDelta_nTxSize]
      decide

theorem allFit_parentEnv : AllFit parentEnv := by
  have hhashes : parentEnv.pool.hashes = {1} := CTxMemPool.parentPool_added.1.hashes_eq
  have hsize : parentEnv.pool.txSize 1 = (CTxMemPool.spendingTx 1 7 1).getSerializeSize :=
    CTxMemPool.parentPool_added.1.txSize_new
  constructor
  case final =>
    intro h e he
    obtain ⟨-, rfl⟩ := lookup_parentPool he
    rw [CTxMemPool.withDelta_tx]
    rfl
  case fee =>
    intro h e he
    obtain ⟨-, rfl⟩ := lookup_parentPool he
    rw [CTxMemPool.withDelta_nTxSize]
    decide
  case size =>
    rw [hhashes, Finset.sum_singleton, hsize]
    decide
  case sigOps =>
    rw [hhashes, Finset.sum_singleton]
    decide

/-- The one transaction of the pool is chosen. -/
theorem createNewBlock_selects_parent : ∃ s, Selects parentEnv s ∧ Sound parentEnv s.block ∧
    (1 : UInt256) ∈ s.block.vtx.map CTransaction.hash := by
  obtain ⟨s, hs, hsound, hall⟩ := createNewBlock_selects parentEnv
  exact ⟨s, hs, hsound, hall allFit_parentEnv 1 (CTxMemPool.parentPool_added.1.mem_iff.mpr
    (Or.inl rfl))⟩

end BlockAssembly

end Stonecoin
