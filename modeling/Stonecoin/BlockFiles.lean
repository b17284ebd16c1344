/-
The block files: where `FindBlockPos` puts a block, and which files `FindFilesToPrune` gives
up.

A record `CBlockFileInfo` says how far a file is used and which heights it holds.  The entries
of the block index say where the data of a block is.  The two are updated by different
functions; `FilesConsistent` is what they keep between them:

  * blocks with data do not overlap, and end within the used part of their file;
  * the record of a file bounds the heights of its blocks;
  * no block lies in a file above `nLastBlockFile`.

A file is only given up when its record has no height among the last `MIN_BLOCKS_TO_KEEP`,
so no such block is (`files_of_run`).  Files at `nLastBlockFile` and above are left alone,
which is why a record that pruning has reset is never appended to.

Left out are the sets of dirty entries, the file operations, `fCheckForPruning` and
`mapBlocksUnlinked`; whether there is disk space is an input.  `nBlocks` does not wrap: a
block takes eight bytes at least, and a file fewer than 2^27.
-/
import Stonecoin.Runs
import Stonecoin.Script
import Mathlib.Data.List.GetD
import Mathlib.Algebra.Order.Ring.Nat

namespace Stonecoin

open Runs

def MAX_BLOCKFILE_SIZE : ℕ := 0x8000000
def BLOCKFILE_CHUNK_SIZE : ℕ := 0x1000000
def UNDOFILE_CHUNK_SIZE : ℕ := 0x100000
def MIN_BLOCKS_TO_KEEP : ℕ := 288

/-! ### Records and entries -/

structure CBlockFileInfo where
  nBlocks : ℕ
  nSize : ℕ
  nUndoSize : ℕ
  nHeightFirst : ℕ
  nHeightLast : ℕ
  nTimeFirst : ℕ
  nTimeLast : ℕ
deriving DecidableEq, Repr

namespace CBlockFileInfo

def null : CBlockFileInfo := ⟨0, 0, 0, 0, 0, 0, 0⟩

/-- `AddBlock`: updates statistics, but not `nSize`. -/
def addBlock (info : CBlockFileInfo) (nHeightIn nTimeIn : ℕ) : CBlockFileInfo :=
  { info with
    nHeightFirst :=
      if info.nBlocks = 0 ∨ info.nHeightFirst > nHeightIn then nHeightIn else info.nHeightFirst
    nTimeFirst := if info.nBlocks = 0 ∨ info.nTimeFirst > nTimeIn then nTimeIn else info.nTimeFirst
    nBlocks := info.nBlocks + 1
    nHeightLast := if nHeightIn > info.nHeightLast then nHeightIn else info.nHeightLast
    nTimeLast := if nTimeIn > info.nTimeLast then nTimeIn else info.nTimeLast }

end CBlockFileInfo

structure CDiskBlockPos where
  nFile : ℕ
  nPos : ℕ
deriving DecidableEq, Repr

/-- The part of a `CBlockIndex` that is about files, with the size that the block was stored
with. -/
structure BlockFileEntry where
  nHeight : ℕ
  /-- `BLOCK_HAVE_DATA`. -/
  haveData : Bool
  /-- `BLOCK_HAVE_UNDO`. -/
  haveUndo : Bool
  nFile : ℕ
  nDataPos : ℕ
  nUndoPos : ℕ
  nAddSize : ℕ
deriving DecidableEq, Repr

def BlockFileEntry.prune (fileNumber : ℕ) (pindex : BlockFileEntry) : BlockFileEntry :=
  if pindex.nFile = fileNumber then
    { pindex with haveData := false, haveUndo := false, nFile := 0, nDataPos := 0, nUndoPos := 0 }
  else pindex

/-- The block files as the node knows them.  A block that is not in `mapBlockIndex` is an
entry without data. -/
structure BlockFiles where
  vinfoBlockFile : List CBlockFileInfo
  nLastBlockFile : ℕ
  mapBlockIndex : UInt256 → BlockFileEntry

namespace BlockFiles

def info (s : BlockFiles) (nFile : ℕ) : CBlockFileInfo :=
  s.vinfoBlockFile.getD nFile .null

def growTo (vinfo : List CBlockFileInfo) (nFile : ℕ) : List CBlockFileInfo :=
  vinfo ++ List.replicate (nFile + 1 - vinfo.length) .null

/-! ### Finding a position -/

/-- The `while` loop of `FindBlockPos` over the records from `nFile` on: leaves files that
are too full.  Behind the last record stands a new one, which any block fits. -/
def leaveFull (nAddSize : ℕ) : ℕ → List CBlockFileInfo → ℕ
  | nFile, [] => nFile
  | nFile, info :: rest =>
    if (info.nSize + nAddSize) % 2 ^ 32 ≥ MAX_BLOCKFILE_SIZE then
      leaveFull nAddSize (nFile + 1) rest
    else nFile

def chunks (nSize nChunk : ℕ) : ℕ := (nSize + nChunk - 1) % 2 ^ 32 / nChunk

/-- `FindBlockPos`, with `fKnown` off.  There is no position when space has to be allocated
and `CheckDiskSpace` fails. -/
def findBlockPos (s : BlockFiles) (nAddSize nHeight nTime : ℕ) (fDiskSpace : Bool) :
    Option CDiskBlockPos × BlockFiles :=
  let vinfo := growTo s.vinfoBlockFile s.nLastBlockFile
  let nFile := leaveFull nAddSize s.nLastBlockFile (vinfo.drop s.nLastBlockFile)
  let vinfo := growTo vinfo nFile
  let nPos := (vinfo.getD nFile .null).nSize
  let nSize := (nPos + nAddSize) % 2 ^ 32
  let vinfo := vinfo.modify nFile fun info => { info.addBlock nHeight nTime with nSize := nSize }
  let s := { s with vinfoBlockFile := vinfo, nLastBlockFile := nFile }
  if chunks nSize BLOCKFILE_CHUNK_SIZE > chunks nPos BLOCKFILE_CHUNK_SIZE ∧ !fDiskSpace then
    (none, s)
  else (some ⟨nFile, nPos⟩, s)

def receivedBlockTransactions (s : BlockFiles) (hash : UInt256) (nAddSize : ℕ)
    (pos : CDiskBlockPos) : BlockFiles :=
  let pindexNew := { s.mapBlockIndex hash with
    nFile := pos.nFile, nDataPos := pos.nPos, nUndoPos := 0, haveData := true,
    nAddSize := nAddSize }
  { s with mapBlockIndex := Function.update s.mapBlockIndex hash pindexNew }

/-- `FindUndoPos` for the undo data of a block, and what `ConnectBlock` writes to its entry. -/
def findUndoPos (s : BlockFiles) (hash : UInt256) (nAddSize : ℕ) (fDiskSpace : Bool) :
    BlockFiles :=
  let pindex := s.mapBlockIndex hash
  let nPos := (s.info pindex.nFile).nUndoSize
  let nNewSize := (nPos + nAddSize) % 2 ^ 32
  let s := { s with vinfoBlockFile := s.vinfoBlockFile.modify pindex.nFile fun info =>
    { info with nUndoSize := nNewSize } }
  if chunks nNewSize UNDOFILE_CHUNK_SIZE > chunks nPos UNDOFILE_CHUNK_SIZE ∧ !fDiskSpace then s
  else
    let pindexNew := { pindex with nUndoPos := nPos, haveUndo := true }
    { s with mapBlockIndex := Function.update s.mapBlockIndex hash pindexNew }

/-! ### Pruning -/

def calculateCurrentUsage (s : BlockFiles) : ℕ :=
  (s.vinfoBlockFile.map fun file => (file.nSize + file.nUndoSize) % 2 ^ 32).sum % 2 ^ 64

/-- The difference of two unsigned numbers of a width. -/
def wrapSub (width a b : ℕ) : ℕ := (a + 2 ^ width - b) % 2 ^ width

def pruneOneBlockFile (s : BlockFiles) (fileNumber : ℕ) : BlockFiles :=
  { s with
    mapBlockIndex := fun hash => (s.mapBlockIndex hash).prune fileNumber
    vinfoBlockFile := s.vinfoBlockFile.modify fileNumber fun _ => .null }

/-- The loop of `FindFilesToPrune` over the file numbers, with the files that were pruned. -/
def pruneLoop (nPruneTarget nBuffer nLastBlockWeCanPrune : ℕ) :
    List ℕ → ℕ → BlockFiles → BlockFiles × List ℕ
  | [], _, s => (s, [])
  | fileNumber :: rest, nCurrentUsage, s =>
    let nBytesToPrune := ((s.info fileNumber).nSize + (s.info fileNumber).nUndoSize) % 2 ^ 32
    if (s.info fileNumber).nSize = 0 then
      pruneLoop nPruneTarget nBuffer nLastBlockWeCanPrune rest nCurrentUsage s
    -- below the target: `break`
    else if (nCurrentUsage + nBuffer) % 2 ^ 64 < nPruneTarget then (s, [])
    -- the file could have a block within the last ones: keep scanning
    else if (s.info fileNumber).nHeightLast > nLastBlockWeCanPrune then
      pruneLoop nPruneTarget nBuffer nLastBlockWeCanPrune rest nCurrentUsage s
    else
      let r := pruneLoop nPruneTarget nBuffer nLastBlockWeCanPrune rest
        (wrapSub 64 nCurrentUsage nBytesToPrune) (s.pruneOneBlockFile fileNumber)
      (r.1, fileNumber :: r.2)

/-- `FindFilesToPrune`, for the height of the tip.  The limit is an unsigned subtraction. -/
def findFilesToPrune (s : BlockFiles) (tip : Option ℕ) (nPruneTarget nPruneAfterHeight : ℕ) :
    BlockFiles × List ℕ :=
  match tip with
  | none => (s, [])
  | some nHeight =>
    if nPruneTarget = 0 then (s, [])
    else if nHeight ≤ nPruneAfterHeight then (s, [])
    else
      let nLastBlockWeCanPrune := wrapSub 32 nHeight MIN_BLOCKS_TO_KEEP
      let nCurrentUsage := s.calculateCurrentUsage
      let nBuffer := BLOCKFILE_CHUNK_SIZE + UNDOFILE_CHUNK_SIZE
      if (nCurrentUsage + nBuffer) % 2 ^ 64 ≥ nPruneTarget then
        pruneLoop nPruneTarget nBuffer nLastBlockWeCanPrune (List.range s.nLastBlockFile)
          nCurrentUsage s
      else (s, [])

/-! ### Runs -/

/-- What happens to the files. -/
inductive Event where
  /-- `FindBlockPos` for a block, which is then stored at the position returned, or not. -/
  | findBlockPos (hash : UInt256) (nAddSize nTime : ℕ) (fDiskSpace fStored : Bool)
  | findUndoPos (hash : UInt256) (nAddSize : ℕ) (fDiskSpace : Bool)
  | findFilesToPrune (tip : Option ℕ) (nPruneTarget nPruneAfterHeight : ℕ)
deriving DecidableEq, Repr

/-- Sizes are below `MAX_BLOCKFILE_SIZE`, and pruning starts behind `MIN_BLOCKS_TO_KEEP`. -/
def guard (_ : BlockFiles) : Event → Prop
  | .findBlockPos _ nAddSize _ _ _ => nAddSize < MAX_BLOCKFILE_SIZE
  | .findUndoPos _ _ _ => True
  | .findFilesToPrune _ _ nPruneAfterHeight => MIN_BLOCKS_TO_KEEP ≤ nPruneAfterHeight

/-- A block is stored only if there is a position for it. -/
def stored (hash : UInt256) (nAddSize : ℕ) (fStored : Bool) :
    Option CDiskBlockPos × BlockFiles → BlockFiles
  | (none, s) => s
  | (some pos, s) => if fStored then s.receivedBlockTransactions hash nAddSize pos else s

def step (s : BlockFiles) : Event → BlockFiles
  | .findBlockPos hash nAddSize nTime fDiskSpace fStored =>
    stored hash nAddSize fStored
      (s.findBlockPos nAddSize (s.mapBlockIndex hash).nHeight nTime fDiskSpace)
  | .findUndoPos hash nAddSize fDiskSpace => s.findUndoPos hash nAddSize fDiskSpace
  | .findFilesToPrune tip nPruneTarget nPruneAfterHeight =>
    (s.findFilesToPrune tip nPruneTarget nPruneAfterHeight).1

def start (nHeight : UInt256 → ℕ) : BlockFiles where
  vinfoBlockFile := []
  nLastBlockFile := 0
  mapBlockIndex hash := ⟨nHeight hash, false, false, 0, 0, 0, 0⟩

/-! ### The records -/

variable {s s' s'' : BlockFiles}

theorem getD_growTo (vinfo : List CBlockFileInfo) (nFile f : ℕ) :
    (growTo vinfo nFile).getD f .null = vinfo.getD f .null := by
  rcases Nat.lt_or_ge f vinfo.length with h | h
  · exact List.getD_append _ _ _ _ h
  · rw [growTo, List.getD_append_right _ _ _ _ h, List.getD_eq_default _ _ h]
    simp [List.getD]

theorem lt_length_growTo (vinfo : List CBlockFileInfo) (nFile : ℕ) :
    nFile < (growTo vinfo nFile).length := by
  rw [growTo, List.length_append, List.length_replicate]
  omega

theorem getD_modify (vinfo : List CBlockFileInfo) (g : CBlockFileInfo → CBlockFileInfo)
    (nFile f : ℕ) (h : nFile < vinfo.length) :
    (vinfo.modify nFile g).getD f .null =
      if f = nFile then g (vinfo.getD nFile .null) else vinfo.getD f .null := by
  rw [List.getD_eq_getElem?_getD, List.getElem?_modify]
  split_ifs with hf hf' hf'
  · subst hf
    simp [h]
  · omega
  · omega
  · simp

theorem leaveFull_fits {nAddSize : ℕ} (hadd : nAddSize < MAX_BLOCKFILE_SIZE) :
    ∀ (vinfo : List CBlockFileInfo) (nFile : ℕ), nFile ≤ leaveFull nAddSize nFile vinfo ∧
      ((vinfo.getD (leaveFull nAddSize nFile vinfo - nFile) .null).nSize + nAddSize) % 2 ^ 32 <
        MAX_BLOCKFILE_SIZE
  | [], nFile => by
    have hcap : MAX_BLOCKFILE_SIZE < 2 ^ 32 := by decide
    refine ⟨Nat.le_refl _, ?_⟩
    show (0 + nAddSize) % 2 ^ 32 < _
    rw [Nat.zero_add]
    omega
  | info :: rest, nFile => by
    rw [leaveFull]
    split_ifs with hfull
    · obtain ⟨hle, hfits⟩ := leaveFull_fits hadd rest (nFile + 1)
      refine ⟨by omega, ?_⟩
      obtain ⟨d, hd⟩ := Nat.exists_eq_add_of_le hle
      rw [hd, Nat.add_sub_cancel_left] at hfits
      rwa [hd, show nFile + 1 + d - nFile = d + 1 by omega, List.getD_cons_succ]
    · refine ⟨Nat.le_refl _, ?_⟩
      rw [Nat.sub_self, List.getD_cons_zero]
      omega

/-! ### What a position is -/

/-- `FindBlockPos` went to a file: the record there has the block appended, no other record
has changed, and a position returned is the end of the file before. -/
structure Appended (nAddSize nHeight nTime nFile : ℕ) (s s' : BlockFiles) : Prop where
  index : s'.mapBlockIndex = s.mapBlockIndex
  last : s'.nLastBlockFile = nFile
  le_last : s.nLastBlockFile ≤ nFile
  known : nFile < s'.vinfoBlockFile.length
  info : s'.info nFile =
    { (s.info nFile).addBlock nHeight nTime with nSize := (s.info nFile).nSize + nAddSize }
  other : ∀ f, f ≠ nFile → s'.info f = s.info f
  fits : (s.info nFile).nSize + nAddSize < MAX_BLOCKFILE_SIZE

theorem findBlockPos_appended {nAddSize : ℕ} (nHeight nTime : ℕ) (fDiskSpace : Bool)
    (hsize : ∀ f, (s.info f).nSize < MAX_BLOCKFILE_SIZE) (hadd : nAddSize < MAX_BLOCKFILE_SIZE) :
    ∃ nFile, Appended nAddSize nHeight nTime nFile s
        (s.findBlockPos nAddSize nHeight nTime fDiskSpace).2 ∧
      ∀ pos, (s.findBlockPos nAddSize nHeight nTime fDiskSpace).1 = some pos →
        pos = ⟨nFile, (s.info nFile).nSize⟩ := by
  set grown := growTo s.vinfoBlockFile s.nLastBlockFile with hgrown
  obtain ⟨hle, hfits⟩ := leaveFull_fits hadd (grown.drop s.nLastBlockFile) s.nLastBlockFile
  set nFile := leaveFull nAddSize s.nLastBlockFile (grown.drop s.nLastBlockFile) with hnFile
  have hrecord : ∀ f, (growTo grown nFile).getD f .null = s.info f := by
    intro f
    rw [getD_growTo, hgrown, getD_growTo]
    rfl
  have hcap : MAX_BLOCKFILE_SIZE + MAX_BLOCKFILE_SIZE < 2 ^ 32 := by decide
  have hlt := hsize nFile
  have hroom : ((s.info nFile).nSize + nAddSize) % 2 ^ 32 = (s.info nFile).nSize + nAddSize :=
    Nat.mod_eq_of_lt (by omega)
  have hsum : (s.info nFile).nSize + nAddSize < MAX_BLOCKFILE_SIZE := by
    rw [← hroom]
    rw [List.getD_eq_getElem?_getD, List.getElem?_drop, Nat.add_sub_cancel' hle,
      ← List.getD_eq_getElem?_getD, hgrown, getD_growTo] at hfits
    exact hfits
  have hlength := lt_length_growTo grown nFile
  refine ⟨nFile, ?_, ?_⟩
  · have hstate : (s.findBlockPos nAddSize nHeight nTime fDiskSpace).2 =
        { s with
          vinfoBlockFile := (growTo grown nFile).modify nFile fun info =>
            { info.addBlock nHeight nTime with nSize := (s.info nFile).nSize + nAddSize }
          nLastBlockFile := nFile } := by
      simp only [findBlockPos, ← hgrown, ← hnFile, hrecord, hroom]
      split_ifs <;> rfl
    rw [hstate]
    refine ⟨rfl, rfl, hle, by simpa using hlength, ?_, fun f hf => ?_, hsum⟩
    · show List.getD _ nFile _ = _
      rw [getD_modify _ _ _ _ hlength, if_pos rfl, hrecord]
    · show List.getD _ f _ = _
      rw [getD_modify _ _ _ _ hlength, if_neg hf, hrecord]
  · intro pos hpos
    simp only [findBlockPos, ← hgrown, ← hnFile, hrecord] at hpos
    split_ifs at hpos
    exact (Option.some.inj hpos).symm

/-! ### Consistency -/

/-- **Records and entries fit together.** -/
structure FilesConsistent (s : BlockFiles) : Prop where
  /-- The last file has a record, once there is one. -/
  known : s.vinfoBlockFile = [] ∧ s.nLastBlockFile = 0 ∨
    s.nLastBlockFile < s.vinfoBlockFile.length
  size : ∀ f, (s.info f).nSize < MAX_BLOCKFILE_SIZE
  /-- A block with data ends within the used part of its file. -/
  fits : ∀ h, (s.mapBlockIndex h).haveData = true →
    (s.mapBlockIndex h).nDataPos + (s.mapBlockIndex h).nAddSize ≤
      (s.info (s.mapBlockIndex h).nFile).nSize
  /-- Two blocks with data in one file do not overlap. -/
  apart : ∀ h h', h ≠ h' → (s.mapBlockIndex h).haveData = true →
    (s.mapBlockIndex h').haveData = true → (s.mapBlockIndex h).nFile = (s.mapBlockIndex h').nFile →
      (s.mapBlockIndex h).nDataPos + (s.mapBlockIndex h).nAddSize ≤ (s.mapBlockIndex h').nDataPos ∨
        (s.mapBlockIndex h').nDataPos + (s.mapBlockIndex h').nAddSize ≤
          (s.mapBlockIndex h).nDataPos
  /-- The record of a file bounds the heights of its blocks. -/
  heights : ∀ h, (s.mapBlockIndex h).haveData = true →
    (s.info (s.mapBlockIndex h).nFile).nBlocks ≠ 0 ∧
      (s.info (s.mapBlockIndex h).nFile).nHeightFirst ≤ (s.mapBlockIndex h).nHeight ∧
      (s.mapBlockIndex h).nHeight ≤ (s.info (s.mapBlockIndex h).nFile).nHeightLast
  file : ∀ h, (s.mapBlockIndex h).haveData = true →
    (s.mapBlockIndex h).nFile ≤ s.nLastBlockFile

theorem consistent_start (nHeight : UInt256 → ℕ) : FilesConsistent (start nHeight) where
  known := .inl ⟨rfl, rfl⟩
  size f := by
    show ((List.getD [] f CBlockFileInfo.null).nSize) < _
    simp only [List.getD_nil]
    decide
  fits h hdata := by simp [start] at hdata
  apart h h' _ hdata := by simp [start] at hdata
  heights h hdata := by simp [start] at hdata
  file h hdata := by simp [start] at hdata

namespace FilesConsistent

theorem heights_addBlock {info : CBlockFileInfo} {nHeight : ℕ} (nHeightIn nTimeIn : ℕ)
    (h : info.nBlocks ≠ 0 ∧ info.nHeightFirst ≤ nHeight ∧ nHeight ≤ info.nHeightLast) :
    (info.addBlock nHeightIn nTimeIn).nHeightFirst ≤ nHeight ∧
      nHeight ≤ (info.addBlock nHeightIn nTimeIn).nHeightLast := by
  obtain ⟨hblocks, hfirst, hlast⟩ := h
  simp only [CBlockFileInfo.addBlock, hblocks, false_or]
  constructor
  · split_ifs <;> omega
  · split_ifs <;> omega

theorem heights_added (info : CBlockFileInfo) (nHeightIn nTimeIn : ℕ) :
    (info.addBlock nHeightIn nTimeIn).nHeightFirst ≤ nHeightIn ∧
      nHeightIn ≤ (info.addBlock nHeightIn nTimeIn).nHeightLast := by
  simp only [CBlockFileInfo.addBlock]
  constructor
  · split_ifs <;> omega
  · split_ifs <;> omega

theorem appended {nAddSize nHeight nTime nFile : ℕ} (hs : FilesConsistent s)
    (h : Appended nAddSize nHeight nTime nFile s s') : FilesConsistent s' := by
  have hsize : ∀ f, (s.info f).nSize ≤ (s'.info f).nSize := by
    intro f
    by_cases hf : f = nFile
    · subst hf
      rw [h.info]
      exact Nat.le_add_right _ _
    · exact (congrArg _ (h.other f hf)).ge
  constructor
  · rw [h.last]
    exact .inr h.known
  · intro f
    by_cases hf : f = nFile
    · subst hf
      rw [h.info]
      exact h.fits
    · rw [h.other f hf]
      exact hs.size f
  · rw [h.index]
    exact fun b hb => (hs.fits b hb).trans (hsize _)
  · rw [h.index]
    exact hs.apart
  · rw [h.index]
    intro b hb
    have hold := hs.heights b hb
    by_cases hf : (s.mapBlockIndex b).nFile = nFile
    · rw [hf] at hold ⊢
      rw [h.info]
      exact ⟨Nat.succ_ne_zero _, heights_addBlock nHeight nTime hold⟩
    · rw [h.other _ hf]
      exact hold
  · rw [h.index, h.last]
    exact fun b hb => (hs.file b hb).trans h.le_last

theorem received {nAddSize nTime nFile : ℕ} {hash : UInt256} (hs : FilesConsistent s)
    (h : Appended nAddSize (s.mapBlockIndex hash).nHeight nTime nFile s s') :
    FilesConsistent
      (s'.receivedBlockTransactions hash nAddSize ⟨nFile, (s.info nFile).nSize⟩) := by
  have hs' := hs.appended h
  -- any other block with data in the file ends before the new one starts
  have hbefore : ∀ b, (s'.mapBlockIndex b).haveData = true → (s'.mapBlockIndex b).nFile = nFile →
      (s'.mapBlockIndex b).nDataPos + (s'.mapBlockIndex b).nAddSize ≤ (s.info nFile).nSize := by
    rw [h.index]
    rintro b hb rfl
    exact hs.fits b hb
  have hnew : (s'.receivedBlockTransactions hash nAddSize
      ⟨nFile, (s.info nFile).nSize⟩).mapBlockIndex hash = { s.mapBlockIndex hash with
        nFile := nFile, nDataPos := (s.info nFile).nSize, nUndoPos := 0, haveData := true,
        nAddSize := nAddSize } := by
    rw [receivedBlockTransactions, h.index]
    exact Function.update_self _ _ _
  have hother : ∀ b, b ≠ hash → (s'.receivedBlockTransactions hash nAddSize
      ⟨nFile, (s.info nFile).nSize⟩).mapBlockIndex b = s'.mapBlockIndex b :=
    fun b hb => Function.update_of_ne hb _ _
  refine ⟨hs'.known, hs'.size, fun b hb => ?_, fun b b' hne hb hb' hfile => ?_, fun b hb => ?_,
    fun b hb => ?_⟩
  · by_cases hash_eq : b = hash
    · subst hash_eq
      rw [hnew]
      show (s.info nFile).nSize + nAddSize ≤ (s'.info nFile).nSize
      exact (congrArg CBlockFileInfo.nSize h.info).ge
    · rw [hother b hash_eq] at hb ⊢
      exact hs'.fits b hb
  · by_cases hash_eq : b = hash
    · subst hash_eq
      rw [hother b' hne.symm] at hb' hfile ⊢
      rw [hnew] at hfile ⊢
      exact .inr (hbefore b' hb' hfile.symm)
    · rw [hother b hash_eq] at hb hfile ⊢
      by_cases hash_eq' : b' = hash
      · subst hash_eq'
        rw [hnew] at hfile ⊢
        exact .inl (hbefore b hb hfile)
      · rw [hother b' hash_eq'] at hb' hfile ⊢
        exact hs'.apart b b' hne hb hb' hfile
  · by_cases hash_eq : b = hash
    · subst hash_eq
      rw [hnew]
      show (s'.info nFile).nBlocks ≠ 0 ∧ (s'.info nFile).nHeightFirst ≤ (s.mapBlockIndex b).nHeight ∧
        (s.mapBlockIndex b).nHeight ≤ (s'.info nFile).nHeightLast
      rw [h.info]
      exact ⟨Nat.succ_ne_zero _, heights_added (s.info nFile) _ nTime⟩
    · rw [hother b hash_eq] at hb ⊢
      exact hs'.heights b hb
  · by_cases hash_eq : b = hash
    · subst hash_eq
      rw [hnew]
      exact h.last.ge
    · rw [hother b hash_eq] at hb ⊢
      exact hs'.file b hb

theorem of_same (hs : FilesConsistent s) (hlast : s'.nLastBlockFile = s.nLastBlockFile)
    (hlen : s'.vinfoBlockFile.length = s.vinfoBlockFile.length)
    (hinfo : ∀ f, ∃ n, s'.info f = { s.info f with nUndoSize := n })
    (hindex : ∀ h, ∃ n b, s'.mapBlockIndex h =
      { s.mapBlockIndex h with nUndoPos := n, haveUndo := b }) : FilesConsistent s' := by
  have hsize : ∀ f, (s'.info f).nSize = (s.info f).nSize := by
    intro f
    obtain ⟨n, hn⟩ := hinfo f
    rw [hn]
  have hentry : ∀ h, (s'.mapBlockIndex h).haveData = (s.mapBlockIndex h).haveData ∧
      (s'.mapBlockIndex h).nFile = (s.mapBlockIndex h).nFile ∧
      (s'.mapBlockIndex h).nDataPos = (s.mapBlockIndex h).nDataPos ∧
      (s'.mapBlockIndex h).nAddSize = (s.mapBlockIndex h).nAddSize ∧
      (s'.mapBlockIndex h).nHeight = (s.mapBlockIndex h).nHeight := by
    intro h
    obtain ⟨n, b, hb⟩ := hindex h
    rw [hb]
    exact ⟨rfl, rfl, rfl, rfl, rfl⟩
  refine ⟨?_, fun f => by rw [hsize]; exact hs.size f, fun h hdata => ?_,
    fun h h' hne hdata hdata' hfile => ?_, fun h hdata => ?_, fun h hdata => ?_⟩
  · rw [hlast, hlen]
    refine hs.known.imp (fun hnil => ⟨?_, hnil.2⟩) id
    rw [← List.length_eq_zero_iff, hlen, hnil.1]
    rfl
  · obtain ⟨e₁, e₂, e₃, e₄, -⟩ := hentry h
    rw [e₁] at hdata
    rw [e₂, e₃, e₄, hsize]
    exact hs.fits h hdata
  · obtain ⟨e₁, e₂, e₃, e₄, -⟩ := hentry h
    obtain ⟨e₁', e₂', e₃', e₄', -⟩ := hentry h'
    rw [e₁] at hdata
    rw [e₁'] at hdata'
    rw [e₂, e₂'] at hfile
    rw [e₃, e₄, e₃', e₄']
    exact hs.apart h h' hne hdata hdata' hfile
  · obtain ⟨e₁, e₂, -, -, e₅⟩ := hentry h
    rw [e₁] at hdata
    rw [e₂, e₅]
    obtain ⟨n, hn⟩ := hinfo (s.mapBlockIndex h).nFile
    rw [hn]
    exact hs.heights h hdata
  · obtain ⟨e₁, e₂, -⟩ := hentry h
    rw [e₁] at hdata
    rw [e₂, hlast]
    exact hs.file h hdata

theorem undo (hs : FilesConsistent s) (hash : UInt256) (nAddSize : ℕ) (fDiskSpace : Bool) :
    FilesConsistent (s.findUndoPos hash nAddSize fDiskSpace) := by
  have hinfo : ∀ nFile size f, ∃ n, List.getD (s.vinfoBlockFile.modify nFile
      fun info => { info with nUndoSize := size }) f .null = { s.info f with nUndoSize := n } := by
    intro nFile size f
    rw [List.getD_eq_getElem?_getD, List.getElem?_modify]
    show ∃ n, _ = { s.vinfoBlockFile.getD f .null with nUndoSize := n }
    rw [List.getD_eq_getElem?_getD]
    cases s.vinfoBlockFile[f]? with
    | none => exact ⟨_, rfl⟩
    | some info =>
      by_cases hf : nFile = f
      · exact ⟨size, by simp [hf]⟩
      · exact ⟨info.nUndoSize, by simp [hf]⟩
  have hsame : ∀ h, ∃ n b, s.mapBlockIndex h =
      { s.mapBlockIndex h with nUndoPos := n, haveUndo := b } :=
    fun h => ⟨_, _, rfl⟩
  simp only [findUndoPos]
  split_ifs
  · exact hs.of_same rfl (by simp) (hinfo _ _) hsame
  · refine hs.of_same rfl (by simp) (hinfo _ _) fun h => ?_
    by_cases hh : h = hash
    · subst hh
      exact ⟨_, _, Function.update_self _ _ _⟩
    · obtain ⟨n, b, hb⟩ := hsame h
      exact ⟨n, b, (Function.update_of_ne hh _ _).trans hb⟩

end FilesConsistent

/-! ### Pruning -/

/-- What giving up files below number `nLast`, without a block above a height, does. -/
structure Pruned (nHeight nLast : ℕ) (s s' : BlockFiles) : Prop where
  last : s'.nLastBlockFile = s.nLastBlockFile
  /-- Other files are not touched, in their records or their blocks. -/
  info : ∀ f, nLast ≤ f → s'.info f = s.info f
  file : ∀ h, nLast ≤ (s.mapBlockIndex h).nFile → s'.mapBlockIndex h = s.mapBlockIndex h
  /-- A block that still has its data is where it was. -/
  kept : ∀ h, (s'.mapBlockIndex h).haveData = true → s'.mapBlockIndex h = s.mapBlockIndex h
  height : ∀ h, (s'.mapBlockIndex h).nHeight = (s.mapBlockIndex h).nHeight
  /-- A block that has lost its data is not above the height. -/
  lost : ∀ h, (s.mapBlockIndex h).haveData = true → (s'.mapBlockIndex h).haveData = false →
    (s.mapBlockIndex h).nHeight ≤ nHeight

namespace Pruned

variable {nHeight nLast : ℕ}

theorem refl (s : BlockFiles) : Pruned nHeight nLast s s where
  last := rfl
  info _ _ := rfl
  file _ _ := rfl
  kept _ _ := rfl
  height _ := rfl
  lost h hdata hlost := by simp [hdata] at hlost

theorem trans (h : Pruned nHeight nLast s s') (h' : Pruned nHeight nLast s' s'') :
    Pruned nHeight nLast s s'' where
  last := h'.last.trans h.last
  info f hf := (h'.info f hf).trans (h.info f hf)
  file b hb := by
    have hsame := h.file b hb
    rw [h'.file b (by rwa [hsame]), hsame]
  kept b hb := by
    have hsame := h'.kept b hb
    rw [hsame, h.kept b (by rwa [← hsame])]
  height b := (h'.height b).trans (h.height b)
  lost b hdata hlost := by
    cases hmid : (s'.mapBlockIndex b).haveData with
    | false => exact h.lost b hdata hmid
    | true =>
      rw [← h.height b]
      exact h'.lost b hmid hlost

theorem mono {nHeight' : ℕ} (h : Pruned nHeight nLast s s') (hle : nHeight ≤ nHeight') :
    Pruned nHeight' nLast s s' :=
  ⟨h.last, h.info, h.file, h.kept, h.height, fun b hdata hlost => (h.lost b hdata hlost).trans hle⟩

end Pruned

theorem pruneOneBlockFile_pruned {fileNumber nHeight : ℕ} (hs : FilesConsistent s)
    (hfile : fileNumber < s.nLastBlockFile) (hheight : (s.info fileNumber).nHeightLast ≤ nHeight) :
    FilesConsistent (s.pruneOneBlockFile fileNumber) ∧
      Pruned nHeight s.nLastBlockFile s (s.pruneOneBlockFile fileNumber) := by
  have hlength : fileNumber < s.vinfoBlockFile.length := by
    rcases hs.known with ⟨-, hzero⟩ | hlt <;> omega
  have hinfo : ∀ f, (s.pruneOneBlockFile fileNumber).info f =
      if f = fileNumber then CBlockFileInfo.null else s.info f :=
    fun f => getD_modify _ _ _ _ hlength
  have hin : ∀ h, (s.mapBlockIndex h).nFile = fileNumber →
      ((s.pruneOneBlockFile fileNumber).mapBlockIndex h).haveData = false ∧
        ((s.pruneOneBlockFile fileNumber).mapBlockIndex h).nHeight =
          (s.mapBlockIndex h).nHeight := by
    intro h hh
    show ((s.mapBlockIndex h).prune fileNumber).haveData = false ∧
      ((s.mapBlockIndex h).prune fileNumber).nHeight = _
    rw [BlockFileEntry.prune, if_pos hh]
    exact ⟨rfl, rfl⟩
  have hout : ∀ h, (s.mapBlockIndex h).nFile ≠ fileNumber →
      (s.pruneOneBlockFile fileNumber).mapBlockIndex h = s.mapBlockIndex h :=
    fun h hh => if_neg hh
  have hkept : ∀ h, ((s.pruneOneBlockFile fileNumber).mapBlockIndex h).haveData = true →
      (s.mapBlockIndex h).nFile ≠ fileNumber := by
    intro h hdata hh
    rw [(hin h hh).1] at hdata
    exact absurd hdata (by simp)
  refine ⟨⟨?_, fun f => ?_, fun h hdata => ?_, fun h h' hne hdata hdata' hsame => ?_,
    fun h hdata => ?_, fun h hdata => ?_⟩, ⟨rfl, fun f hf => ?_, fun h hh => ?_, fun h hdata => ?_,
    fun h => ?_, fun h hdata hlost => ?_⟩⟩
  · refine .inr ?_
    show s.nLastBlockFile < (s.vinfoBlockFile.modify fileNumber _).length
    rw [List.length_modify]
    rcases hs.known with ⟨-, hzero⟩ | hlt <;> omega
  · rw [hinfo]
    split_ifs
    · decide
    · exact hs.size f
  · have hne := hkept h hdata
    rw [hout h hne] at hdata ⊢
    rw [hinfo, if_neg hne]
    exact hs.fits h hdata
  · have hh := hout h (hkept h hdata)
    have hh' := hout h' (hkept h' hdata')
    rw [hh] at hdata hsame ⊢
    rw [hh'] at hdata' hsame ⊢
    exact hs.apart h h' hne hdata hdata' hsame
  · have hne := hkept h hdata
    rw [hout h hne] at hdata ⊢
    rw [hinfo, if_neg hne]
    exact hs.heights h hdata
  · have hh := hout h (hkept h hdata)
    rw [hh] at hdata ⊢
    exact hs.file h hdata
  · rw [hinfo, if_neg (by omega)]
  · exact hout h (by omega)
  · exact hout h (hkept h hdata)
  · by_cases hh : (s.mapBlockIndex h).nFile = fileNumber
    · exact (hin h hh).2
    · rw [hout h hh]
  · by_cases hh : (s.mapBlockIndex h).nFile = fileNumber
    · have hbound := (hs.heights h hdata).2.2
      rw [hh] at hbound
      exact hbound.trans hheight
    · rw [hout h hh, hdata] at hlost
      exact absurd hlost (by simp)

theorem pruneLoop_pruned (nPruneTarget nBuffer nLastBlockWeCanPrune : ℕ) :
    ∀ (files : List ℕ) (nCurrentUsage : ℕ) (s : BlockFiles), FilesConsistent s →
      (∀ f ∈ files, f < s.nLastBlockFile) →
      FilesConsistent (pruneLoop nPruneTarget nBuffer nLastBlockWeCanPrune files nCurrentUsage s).1 ∧
        Pruned nLastBlockWeCanPrune s.nLastBlockFile s
          (pruneLoop nPruneTarget nBuffer nLastBlockWeCanPrune files nCurrentUsage s).1 ∧
        ∀ f ∈ (pruneLoop nPruneTarget nBuffer nLastBlockWeCanPrune files nCurrentUsage s).2,
          f < s.nLastBlockFile
  | [], _, s, hs, _ => ⟨hs, .refl s, by simp [pruneLoop]⟩
  | fileNumber :: rest, nCurrentUsage, s, hs, hfiles => by
    have hrest : ∀ f ∈ rest, f < s.nLastBlockFile := fun f hf => hfiles f (by simp [hf])
    rw [pruneLoop]
    split_ifs with hempty hbelow hkeep
    · exact pruneLoop_pruned _ _ _ rest nCurrentUsage s hs hrest
    · exact ⟨hs, .refl s, by simp⟩
    · exact pruneLoop_pruned _ _ _ rest nCurrentUsage s hs hrest
    · obtain ⟨hs', hpruned⟩ := pruneOneBlockFile_pruned hs (hfiles fileNumber (by simp))
        (not_lt.mp hkeep)
      obtain ⟨hs'', hloop, hset⟩ := pruneLoop_pruned nPruneTarget nBuffer nLastBlockWeCanPrune rest
        (wrapSub 64 nCurrentUsage
          (((s.info fileNumber).nSize + (s.info fileNumber).nUndoSize) % 2 ^ 32))
        (s.pruneOneBlockFile fileNumber) hs' hrest
      refine ⟨hs'', hpruned.trans hloop, fun f hf => ?_⟩
      rcases List.mem_cons.mp hf with rfl | hf
      · exact hfiles f (by simp)
      · exact hset f hf

theorem wrapSub_le {width a b : ℕ} (h : b ≤ a) : wrapSub width a b ≤ a - b := by
  rw [wrapSub, Nat.sub_add_comm h, Nat.add_mod_right]
  exact Nat.mod_le _ _

theorem findFilesToPrune_pruned {nPruneTarget nPruneAfterHeight : ℕ} (hs : FilesConsistent s)
    (hafter : MIN_BLOCKS_TO_KEEP ≤ nPruneAfterHeight) (tip : Option ℕ) :
    FilesConsistent (s.findFilesToPrune tip nPruneTarget nPruneAfterHeight).1 ∧
      Pruned (tip.getD 0 - MIN_BLOCKS_TO_KEEP) s.nLastBlockFile s
        (s.findFilesToPrune tip nPruneTarget nPruneAfterHeight).1 ∧
      ∀ f ∈ (s.findFilesToPrune tip nPruneTarget nPruneAfterHeight).2, f < s.nLastBlockFile := by
  cases tip with
  | none => exact ⟨hs, .refl s, by simp [findFilesToPrune]⟩
  | some nHeight =>
    rw [Option.getD_some, findFilesToPrune]
    by_cases htarget : nPruneTarget = 0
    · rw [if_pos htarget]
      exact ⟨hs, .refl s, by simp⟩
    by_cases hlow : nHeight ≤ nPruneAfterHeight
    · rw [if_neg htarget, if_pos hlow]
      exact ⟨hs, .refl s, by simp⟩
    rw [if_neg htarget, if_neg hlow]
    dsimp only
    generalize s.calculateCurrentUsage + (BLOCKFILE_CHUNK_SIZE + UNDOFILE_CHUNK_SIZE) = nUsage
    split_ifs with husage
    · obtain ⟨hs', hpruned, hset⟩ := pruneLoop_pruned nPruneTarget
        (BLOCKFILE_CHUNK_SIZE + UNDOFILE_CHUNK_SIZE)
        (wrapSub 32 nHeight MIN_BLOCKS_TO_KEEP) (List.range s.nLastBlockFile)
        s.calculateCurrentUsage s hs (by simp)
      -- the subtraction does not wrap
      have hmin : MIN_BLOCKS_TO_KEEP ≤ nHeight := by omega
      exact ⟨hs', hpruned.mono (wrapSub_le hmin), hset⟩
    · exact ⟨hs, .refl s, by simp⟩

/-! ### Whole runs -/

theorem consistent_step {event : Event} (hs : FilesConsistent s)
    (h : Guarded guard step s event s') : FilesConsistent s' := by
  obtain ⟨hguard, rfl⟩ := h
  cases event with
  | findBlockPos hash nAddSize nTime fDiskSpace fStored =>
    have hadd : nAddSize < MAX_BLOCKFILE_SIZE := hguard
    obtain ⟨nFile, happended, hpos⟩ := findBlockPos_appended (s.mapBlockIndex hash).nHeight nTime
      fDiskSpace hs.size hadd
    show FilesConsistent (stored hash nAddSize fStored (s.findBlockPos _ _ _ _))
    generalize s.findBlockPos nAddSize (s.mapBlockIndex hash).nHeight nTime fDiskSpace = found
      at happended hpos ⊢
    obtain ⟨pos, s'⟩ := found
    cases pos with
    | none => exact hs.appended happended
    | some pos =>
      obtain rfl := hpos pos rfl
      cases fStored with
      | true => exact hs.received happended
      | false => exact hs.appended happended
  | findUndoPos hash nAddSize fDiskSpace => exact hs.undo hash nAddSize fDiskSpace
  | findFilesToPrune tip nPruneTarget nPruneAfterHeight =>
    have hafter : MIN_BLOCKS_TO_KEEP ≤ nPruneAfterHeight := hguard
    show FilesConsistent (s.findFilesToPrune tip nPruneTarget nPruneAfterHeight).1
    exact (findFilesToPrune_pruned hs hafter tip).1

/-- **Block files never overlap, and pruning keeps recent blocks.**  In every state of a run
records and entries fit together; and a call of `FindFilesToPrune` there takes no data from a
block within `MIN_BLOCKS_TO_KEEP` of the tip, on any branch, and leaves the files from
`nLastBlockFile` on alone. -/
theorem files_of_run {nHeight : UInt256 → ℕ} {es : List Event} {s : BlockFiles}
    (h : Run (Guarded guard step) (start nHeight) es s) :
    FilesConsistent s ∧ ∀ tip nPruneTarget nPruneAfterHeight,
      MIN_BLOCKS_TO_KEEP ≤ nPruneAfterHeight →
      Pruned (tip - MIN_BLOCKS_TO_KEEP) s.nLastBlockFile s
          (s.findFilesToPrune (some tip) nPruneTarget nPruneAfterHeight).1 ∧
        ∀ f ∈ (s.findFilesToPrune (some tip) nPruneTarget nPruneAfterHeight).2,
          f < s.nLastBlockFile := by
  have hs : FilesConsistent s :=
    h.invariant (fun _ _ _ hs hstep => consistent_step hs hstep) (consistent_start nHeight)
  exact ⟨hs, fun tip nPruneTarget nPruneAfterHeight hafter =>
    (findFilesToPrune_pruned hs hafter (some tip)).2⟩

def twoFiles : BlockFiles :=
  step (step (start fun h => if h = 1 then 0 else 400) (.findBlockPos 1 0x7000000 0 true true))
    (.findBlockPos 2 0x7000000 0 true true)

/-- Under a tip at height 400 the first file is given up, and the block in it is old enough. -/
theorem files_of_run_two :
    (twoFiles.findFilesToPrune (some 400) 1 288).2 = [0] ∧ FilesConsistent twoFiles ∧
      Pruned (400 - MIN_BLOCKS_TO_KEEP) twoFiles.nLastBlockFile twoFiles
        (twoFiles.findFilesToPrune (some 400) 1 288).1 := by
  have hrun : Run (Guarded guard step) (start fun h => if h = 1 then 0 else 400)
      [.findBlockPos 1 0x7000000 0 true true, .findBlockPos 2 0x7000000 0 true true] twoFiles := by
    refine .cons ⟨?_, rfl⟩ (.cons ⟨?_, rfl⟩ (.nil _))
    · show 0x7000000 < MAX_BLOCKFILE_SIZE
      decide
    · show 0x7000000 < MAX_BLOCKFILE_SIZE
      decide
  obtain ⟨hs, hprune⟩ := files_of_run hrun
  exact ⟨by decide +kernel, hs, (hprune 400 1 288 (by decide)).1⟩

end BlockFiles

end Stonecoin
