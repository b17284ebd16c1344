/-
Locators and the fork points they lead to (`GetLocator` in `chain.cpp`,
`FindForkInGlobalIndex` in `main.cpp`), on chains that any calls of `SetTip` have made.

  * `fork_points`: all of this for two blocks of a tree.
-/
import Stonecoin.CheckBlockIndex

namespace Stonecoin

open ParentTree

/-- The hashes are the keys of `mapBlockIndex`: blocks that are indexed have different
ones. -/
def BlockTree.HashKeys {H : Type} (t : BlockTree) (getBlockHash : BlockPtr → H) : Prop :=
  ∀ a ∈ t.mapBlockIndex, ∀ b ∈ t.mapBlockIndex, getBlockHash a = getBlockHash b → a = b

namespace ChainState

variable {H : Type}

/-- `CChain::operator[]`. -/
def entry (s : ChainState) (nHeight : ℤ) : Option BlockPtr :=
  if nHeight < 0 ∨ (s.vChain.length : ℤ) ≤ nHeight then none
  else s.vChain[nHeight.toNat]?.join

def genesis (s : ChainState) : Option BlockPtr := s.vChain.head?.join

/-- The loop of `CChain::GetLocator`, with the number of blocks it may still add.  Heights
are below `2 ^ 31`, and so is every `nStep` that is subtracted. -/
def getLocatorLoop (s : ChainState) (getBlockHash : BlockPtr → H) :
    ℕ → Option BlockPtr → ℕ → List H → Option (List H)
  | _, none, _, vHave => some vHave
  | 0, some _, _, _ => none
  | fuel + 1, some pindex, nStep, vHave =>
    let vHave := vHave ++ [getBlockHash pindex]
    -- stop when the genesis block has been added
    if s.tree.nHeight pindex = 0 then some vHave
    else
      -- `std::max(pindex->nHeight - nStep, 0)`
      let nHeight := s.tree.nHeight pindex - nStep
      let pindex :=
        if s.contains pindex then s.entry nHeight else s.tree.getAncestor pindex nHeight
      getLocatorLoop s getBlockHash fuel pindex (if 10 < vHave.length then nStep * 2 else nStep) vHave

def getLocator (s : ChainState) (getBlockHash : BlockPtr → H) (pindex : Option BlockPtr) :
    Option (List H) :=
  let pindex := if pindex = none then s.tip else pindex
  s.getLocatorLoop getBlockHash (pindex.elim 0 fun b => s.tree.nHeight b + 1) pindex 1 []

def findForkInGlobalIndex [DecidableEq H] (s : ChainState) (getBlockHash : BlockPtr → H) :
    List H → Option BlockPtr
  | [] => s.genesis
  | hash :: vHave =>
    match s.tree.mapBlockIndex.find? (getBlockHash · = hash) with
    | none => findForkInGlobalIndex s getBlockHash vHave
    | some pindex =>
      if s.contains pindex then some pindex else findForkInGlobalIndex s getBlockHash vHave

def setTips (s : ChainState) (tips : List (Option BlockPtr)) : ChainState :=
  tips.foldl setTip { s with vChain := [] }

/-! ### Chains made by `SetTip` -/

/-- The chain is empty, or the line of a block. -/
def Settled (s : ChainState) : Prop := s.vChain = [] ∨ ∃ t, s.Active t

variable {s : ChainState}

theorem setTip_tree (s : ChainState) (tip : Option BlockPtr) : (s.setTip tip).tree = s.tree := by
  cases tip <;> rfl

theorem Settled.below (h : s.Settled) {a c : BlockPtr} (ha : s.contains a = true)
    (hc : c ∈ s.line a) : s.contains c = true := by
  rcases h with hempty | ⟨t, ht⟩
  · rw [contains, hempty] at ha
    simp at ha
  · exact ht.contains_iff.mpr (BlockTree.mem_line_trans hc (ht.contains_iff.mp ha))

theorem Settled.active_setTip (h : s.Settled) (b : BlockPtr) : (s.setTip (some b)).Active b :=
  setTip_active (fun _ ha _ hc => h.below ha hc) b

theorem Settled.setTip (h : s.Settled) (tip : Option BlockPtr) : (s.setTip tip).Settled := by
  rcases tip with - | b
  · exact .inl rfl
  · exact .inr ⟨b, h.active_setTip b⟩

theorem settled_foldl : ∀ (tips : List (Option BlockPtr)) (s : ChainState), s.Settled →
    (tips.foldl ChainState.setTip s).Settled ∧ (tips.foldl ChainState.setTip s).tree = s.tree := by
  intro tips
  induction tips with
  | nil => exact fun _ h => ⟨h, rfl⟩
  | cons tip tips ih =>
    intro s h
    obtain ⟨hsettled, htree⟩ := ih _ (h.setTip tip)
    exact ⟨hsettled, htree.trans (setTip_tree s tip)⟩

theorem settled_setTips (s : ChainState) (tips : List (Option BlockPtr)) :
    (s.setTips tips).Settled :=
  (settled_foldl tips _ (.inl rfl)).1

theorem setTips_tree (s : ChainState) (tips : List (Option BlockPtr)) :
    (s.setTips tips).tree = s.tree :=
  (settled_foldl tips _ (.inl rfl)).2

theorem Active.entry_iff {t b : BlockPtr} (h : s.Active t) {n : ℤ} :
    s.entry n = some b ↔ b ∈ s.line t ∧ (s.tree.nHeight b : ℤ) = n := by
  rw [entry]
  split
  next hout =>
    constructor
    · intro he
      cases he
    · rintro ⟨hb, rfl⟩
      have hle := height_le_of_mem s.tree.graded hb
      rw [h.length_eq] at hout
      omega
  next hin =>
    obtain ⟨k, rfl⟩ := Int.eq_ofNat_of_zero_le (show 0 ≤ n by omega)
    rw [Int.toNat_natCast, Option.join_eq_some_iff, h.getElem?_eq, Int.ofNat_inj]

/-! ### Locators -/

theorem Settled.lookup (h : s.Settled) (w : BlockPtr) {n : ℕ} (hn : n ≤ s.tree.nHeight w) :
    ∃ a ∈ s.line w, s.tree.nHeight a = n ∧
      (if s.contains w then s.entry n else s.tree.getAncestor w n) = some a := by
  obtain ⟨a, ha, rfl⟩ := exists_mem_line s.tree.graded (b := w) hn
  refine ⟨a, ha, rfl, ?_⟩
  split
  next hw =>
    rcases h with hempty | ⟨t, ht⟩
    · rw [contains, hempty] at hw
      simp at hw
    · exact ht.entry_iff.mpr ⟨BlockTree.mem_line_trans ha (ht.contains_iff.mp hw), rfl⟩
  next => exact BlockTree.getAncestor_eq_some.mpr ⟨ha, rfl⟩

/-- Blocks of the line of `w`, each above the next, from `w` down to a root. -/
structure Descends (s : ChainState) (w : BlockPtr) (blocks : List BlockPtr) : Prop where
  head : blocks.head? = some w
  mem : ∀ x ∈ blocks, x ∈ s.line w
  lower : blocks.Pairwise fun x y => s.tree.nHeight y < s.tree.nHeight x
  last : ∃ g, blocks.getLast? = some g ∧ s.tree.nHeight g = 0

theorem Settled.getLocatorLoop (h : s.Settled) (getBlockHash : BlockPtr → H) :
    ∀ (fuel : ℕ) (w : BlockPtr) (nStep : ℕ) (vHave : List H), s.tree.nHeight w < fuel →
      0 < nStep → ∃ blocks, Descends s w blocks ∧
        s.getLocatorLoop getBlockHash fuel (some w) nStep vHave =
          some (vHave ++ blocks.map getBlockHash) := by
  intro fuel
  induction fuel with
  | zero =>
    intro w nStep vHave hw
    omega
  | succ fuel ih =>
    intro w nStep vHave hw hstep
    rw [ChainState.getLocatorLoop]
    split
    next hzero =>
      refine ⟨[w], ⟨rfl, ?_, List.pairwise_singleton .., w, rfl, hzero⟩, rfl⟩
      intro x hx
      rw [List.mem_singleton.mp hx]
      exact s.tree.mem_line_self w
    next hpos =>
      obtain ⟨a, ha, hheight, hlookup⟩ := h.lookup w (Nat.sub_le (s.tree.nHeight w) nStep)
      dsimp only
      rw [hlookup]
      obtain ⟨blocks, hblocks, hrun⟩ := ih a
        (if 10 < (vHave ++ [getBlockHash w]).length then nStep * 2 else nStep)
        (vHave ++ [getBlockHash w]) (by omega) (by split <;> omega)
      refine ⟨w :: blocks, ⟨rfl, ?_, ?_, ?_⟩, ?_⟩
      · intro x hx
        rcases List.mem_cons.mp hx with rfl | hx
        · exact s.tree.mem_line_self x
        · exact BlockTree.mem_line_trans (hblocks.mem x hx) ha
      · -- what follows is on the line of a lower block
        refine List.pairwise_cons.mpr ⟨fun x hx => ?_, hblocks.lower⟩
        have hle := height_le_of_mem s.tree.graded (hblocks.mem x hx)
        omega
      · obtain ⟨g, hg, hroot⟩ := hblocks.last
        exact ⟨g, by rw [List.getLast?_cons, hg]; rfl, hroot⟩
      · rw [hrun, List.map_cons, List.append_assoc]
        rfl

theorem Settled.getLocator_spec (h : s.Settled) (getBlockHash : BlockPtr → H) (a : BlockPtr) :
    ∃ blocks, Descends s a blocks ∧
      s.getLocator getBlockHash (some a) = some (blocks.map getBlockHash) :=
  h.getLocatorLoop getBlockHash _ a 1 [] (Nat.lt_succ_self _) Nat.one_pos

theorem find_getBlockHash [DecidableEq H] {getBlockHash : BlockPtr → H} {x : BlockPtr}
    (hkeys : s.tree.HashKeys getBlockHash) (hx : x ∈ s.tree.mapBlockIndex) :
    s.tree.mapBlockIndex.find? (getBlockHash · = getBlockHash x) = some x := by
  rcases hfind : s.tree.mapBlockIndex.find? (getBlockHash · = getBlockHash x) with - | y
  · have hne := List.find?_eq_none.mp hfind x hx
    simp at hne
  · have hy : getBlockHash y = getBlockHash x := by simpa using List.find?_some hfind
    rw [hkeys y (List.mem_of_find?_eq_some hfind) x hx hy]

theorem findForkInGlobalIndex_spec [DecidableEq H] {getBlockHash : BlockPtr → H}
    (hkeys : s.tree.HashKeys getBlockHash) :
    ∀ blocks : List BlockPtr, (∀ x ∈ blocks, x ∈ s.tree.mapBlockIndex) →
      (∃ x ∈ blocks, s.contains x = true) →
      s.findForkInGlobalIndex getBlockHash (blocks.map getBlockHash) =
        blocks.find? s.contains := by
  intro blocks
  induction blocks with
  | nil =>
    rintro - ⟨x, hx, -⟩
    cases hx
  | cons y blocks ih =>
    rintro hmem ⟨x, hx, hcontains⟩
    rw [List.map_cons, findForkInGlobalIndex, find_getBlockHash hkeys (hmem y List.mem_cons_self),
      List.find?_cons]
    dsimp only
    rcases hy : s.contains y with - | -
    · rw [if_neg (by simp)]
      apply ih fun z hz => hmem z (List.mem_cons_of_mem _ hz)
      rcases List.mem_cons.mp hx with rfl | hx
      · rw [hcontains] at hy
        cases hy
      · exact ⟨x, hx, hcontains⟩
    · rw [if_pos rfl]

theorem Descends.find?_highest {w f : BlockPtr} {blocks : List BlockPtr}
    (h : Descends s w blocks) {P : BlockPtr → Bool} (hfind : blocks.find? P = some f) :
    ∀ x ∈ blocks, P x = true → s.tree.nHeight x ≤ s.tree.nHeight f := by
  intro x hx hPx
  obtain ⟨-, pre, post, rfl, hpre⟩ := List.find?_eq_some_iff_append.mp hfind
  rcases List.mem_append.mp hx with hx | hx
  · have hne := hpre x hx
    rw [hPx] at hne
    cases hne
  · rcases List.mem_cons.mp hx with rfl | hx
    · exact Nat.le_refl _
    · have hlower := (List.pairwise_append.mp h.lower).2.1
      exact Nat.le_of_lt (List.rel_of_pairwise_cons hlower hx)

/-- **Locators lead to the fork point.**  Any calls of `SetTip` have been made before the
last one, and before the locator is taken. -/
theorem fork_points [DecidableEq H] {getBlockHash : BlockPtr → H} (s : ChainState)
    (hroot : OneRoot s.tree) (hkeys : s.tree.HashKeys getBlockHash) {a t : BlockPtr}
    (ha : a ∈ s.tree.mapBlockIndex) (ht : t ∈ s.tree.mapBlockIndex)
    (tips tips' : List (Option BlockPtr)) :
    let chain := (s.setTips tips).setTip (some t)
    (∀ (n : ℤ) (x : BlockPtr),
        chain.entry n = some x ↔ x ∈ s.line t ∧ (s.tree.nHeight x : ℤ) = n) ∧
      (∀ x, chain.contains x = true ↔ x ∈ s.line t) ∧
      (∃ f ∈ s.line a, f ∈ s.line t ∧ chain.findFork a = some f ∧
        ∀ x ∈ s.line a, x ∈ s.line t → s.tree.nHeight x ≤ s.tree.nHeight f) ∧
      ∃ blocks, Descends s a blocks ∧
        (s.setTips tips').getLocator getBlockHash (some a) = some (blocks.map getBlockHash) ∧
        ∃ f ∈ blocks, f ∈ s.line a ∧ f ∈ s.line t ∧
          chain.findForkInGlobalIndex getBlockHash (blocks.map getBlockHash) = some f ∧
          ∀ x ∈ blocks, x ∈ s.line t → s.tree.nHeight x ≤ s.tree.nHeight f := by
  intro chain
  have htree : chain.tree = s.tree := (setTip_tree _ _).trans (setTips_tree s tips)
  have hchain : chain.Active t := (settled_setTips s tips).active_setTip t
  have hline : ∀ x, chain.line x = s.line x := fun x => by rw [line, htree]
  have hcontains : ∀ x, chain.contains x = true ↔ x ∈ s.line t := by
    intro x
    rw [hchain.contains_iff, hline]
  obtain ⟨g, hg⟩ := hroot
  refine ⟨fun n x => ?_, hcontains, ?_, ?_⟩
  · rw [hchain.entry_iff, hline, htree]
  · obtain ⟨f, hf, hfork, hft, hall⟩ := hchain.findFork (b := a)
      ⟨g, by rw [hline]; exact hg a ha, by rw [hline]; exact hg t ht⟩
    rw [hline] at hf hft
    refine ⟨f, hf, hft, hfork, fun x hx hxt => ?_⟩
    have hxf := hall x (by rw [hline]; exact hx) (by rw [hline]; exact hxt)
    rw [hline] at hxf
    exact height_le_of_mem s.tree.graded hxf
  · obtain ⟨blocks, hblocks, hlocator⟩ :=
      (settled_setTips s tips').getLocator_spec getBlockHash a
    have htree' := setTips_tree s tips'
    have hdesc : Descends s a blocks := by
      constructor
      · exact hblocks.head
      · intro x hx
        have := hblocks.mem x hx
        rwa [line, htree'] at this
      · have := hblocks.lower
        rwa [htree'] at this
      · have := hblocks.last
        rwa [htree'] at this
    -- the last block of the locator is the root, which is on every line
    have hlast : ∃ x ∈ blocks, chain.contains x = true := by
      obtain ⟨r, hr, hzero⟩ := hdesc.last
      have hmem := List.mem_of_getLast? hr
      refine ⟨r, hmem, (hcontains r).mpr ?_⟩
      have hgr := hg r (BlockTree.mem_of_mem_line ha (hdesc.mem r hmem))
      have hle := height_le_of_mem s.tree.graded hgr
      rw [← eq_of_mem_of_height s.tree.graded hgr (by omega)]
      exact hg t ht
    have hfind := findForkInGlobalIndex_spec (s := chain) (by rw [htree]; exact hkeys) blocks
      (fun x hx => by rw [htree]; exact BlockTree.mem_of_mem_line ha (hdesc.mem x hx)) hlast
    obtain ⟨x, hx, hxc⟩ := hlast
    obtain ⟨f, hf⟩ := Option.isSome_iff_exists.mp (List.find?_isSome.mpr ⟨x, hx, hxc⟩)
    have hmem := List.mem_of_find?_eq_some hf
    exact ⟨blocks, hdesc, hlocator, f, hmem, hdesc.mem f hmem,
      (hcontains f).mp (List.find?_some hf), hfind.trans hf, fun y hy hyt =>
        hdesc.find?_highest hf y hy ((hcontains y).mpr hyt)⟩

theorem fork_points_forkState : ∃ (blocks : List BlockPtr) (f : BlockPtr),
    (forkState.setTips [some ⟨1⟩, some ⟨2⟩]).getLocator BlockPtr.addr (some ⟨2⟩) =
        some (blocks.map BlockPtr.addr) ∧
      ((forkState.setTips []).setTip (some ⟨1⟩)).findForkInGlobalIndex BlockPtr.addr
        (blocks.map BlockPtr.addr) = some f ∧ f ∈ forkState.line ⟨1⟩ ∧ f ∈ forkState.line ⟨2⟩ := by
  have hkeys : forkState.tree.HashKeys BlockPtr.addr := fun a _ b _ h => congrArg BlockPtr.mk h
  obtain ⟨-, -, -, blocks, -, hlocator, f, -, hf₂, hf₁, hfork, -⟩ := fork_points forkState
    ⟨⟨0⟩, by decide +kernel⟩ hkeys (a := ⟨2⟩) (t := ⟨1⟩) (by decide +kernel) (by decide +kernel)
    [] [some ⟨1⟩, some ⟨2⟩]
  exact ⟨blocks, f, hlocator, hfork, hf₁, hf₂⟩

end ChainState

end Stonecoin
