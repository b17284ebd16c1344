/-
What `CRateCheckBuffer` answers: it is a window over the last five timestamps, also when it is
written to a file and read back between them.

`GetMaxTimestamp` starts from 0, so it is never negative, and `GetRate` has an answer of its own
for objects of one time.

  * `sliding_window`: the queries, after any calls.
-/
import Stonecoin.ObjectRates
import Stonecoin.Streams
import Mathlib.Data.List.OfFn
import Mathlib.Order.Bounds.Basic

namespace Stonecoin

namespace CRateCheckBuffer

open Readers

/-! ### Serialization -/

/-- `SerializationOp`, when it writes. -/
def serialize (b : CRateCheckBuffer) : List UInt8 :=
  writeVector (writeInt 8) (List.ofFn b.vecTimestamps) ++
    (writeInt 4 (b.nDataStart : ℕ) ++ (writeInt 4 (b.nDataEnd : ℕ) ++ writeBool b.fBufferEmpty))

/-- The members that have been read.  They are not checked; those that are no ring are left out
of the model. -/
def ofMembers (vecTimestamps : List ℤ) (nDataStart nDataEnd : ℤ) (fBufferEmpty : Bool) :
    Option CRateCheckBuffer :=
  if h : vecTimestamps.length = RATE_BUFFER_SIZE ∧
      (0 ≤ nDataStart ∧ nDataStart < RATE_BUFFER_SIZE) ∧
      0 ≤ nDataEnd ∧ nDataEnd < RATE_BUFFER_SIZE then
    some ⟨fun i => vecTimestamps.getD i 0, ⟨nDataStart.toNat, by omega⟩,
      ⟨nDataEnd.toNat, by omega⟩, fBufferEmpty⟩
  else none

/-- `SerializationOp`, when it reads. -/
def unserialize : Reader UInt8 CRateCheckBuffer := do
  let vecTimestamps ← readVector (readInt 8)
  let nDataStart ← readInt 4
  let nDataEnd ← readInt 4
  let fBufferEmpty ← readBool
  (ofMembers vecTimestamps nDataStart nDataEnd fBufferEmpty).elim failure pure

def IsTyped (b : CRateCheckBuffer) : Prop := ∀ i, IsInt 8 (b.vecTimestamps i)

theorem ofMembers_members (b : CRateCheckBuffer) :
    ofMembers (List.ofFn b.vecTimestamps) (b.nDataStart : ℕ) (b.nDataEnd : ℕ) b.fBufferEmpty =
      some b := by
  have hlt : ∀ i : Fin RATE_BUFFER_SIZE, 0 ≤ ((i : ℕ) : ℤ) ∧ ((i : ℕ) : ℤ) < RATE_BUFFER_SIZE :=
    fun i => ⟨Int.natCast_nonneg i, Int.ofNat_lt.mpr i.isLt⟩
  have hvec : (fun i : Fin RATE_BUFFER_SIZE => (List.ofFn b.vecTimestamps).getD i 0) =
      b.vecTimestamps := by
    funext i
    rw [List.getD_eq_getElem?_getD, List.getElem?_ofFn, dif_pos i.isLt]
    rfl
  rw [ofMembers, dif_pos ⟨List.length_ofFn, hlt _, hlt _⟩, hvec]
  simp

theorem reads_unserialize {b : CRateCheckBuffer} (h : b.IsTyped) :
    Reads unserialize b.serialize b := by
  have hindex : ∀ i : Fin RATE_BUFFER_SIZE, IsInt 4 (i : ℕ) := by decide
  have hvec : Reads (readVector (readInt 8)) (writeVector (writeInt 8) (List.ofFn b.vecTimestamps))
      (List.ofFn b.vecTimestamps) := by
    apply reads_vector
    · rw [List.length_ofFn]
      decide
    · intro t ht
      obtain ⟨i, rfl⟩ := List.mem_ofFn.mp ht
      exact reads_int (h i)
  apply hvec.bind
  apply (reads_int (hindex b.nDataStart)).bind
  apply (reads_int (hindex b.nDataEnd)).bind
  have hlast : Reads (Option.elim (ofMembers (List.ofFn b.vecTimestamps) (b.nDataStart : ℕ)
      (b.nDataEnd : ℕ) b.fBufferEmpty) failure pure : Reader UInt8 CRateCheckBuffer) [] b := by
    rw [ofMembers_members]
    exact .pure b
  have hbind := (reads_bool b.fBufferEmpty).bind (f := fun fBufferEmpty => Option.elim (ofMembers
    (List.ofFn b.vecTimestamps) (b.nDataStart : ℕ) (b.nDataEnd : ℕ) fBufferEmpty) failure pure) hlast
  rwa [List.append_nil] at hbind

/-! ### The window -/

/-- The timestamps that are remembered of those that were added. -/
def lastTimestamps (ts : List ℤ) : List ℤ := ts.drop (ts.length - RATE_BUFFER_SIZE)

theorem length_lastTimestamps (ts : List ℤ) :
    (lastTimestamps ts).length = min ts.length RATE_BUFFER_SIZE := by
  rw [lastTimestamps, List.length_drop]
  omega

theorem lastTimestamps_concat (ts : List ℤ) (t : ℤ) : lastTimestamps (ts ++ [t]) =
    (if (lastTimestamps ts).length = RATE_BUFFER_SIZE then (lastTimestamps ts).tail
      else lastTimestamps ts) ++ [t] := by
  rw [length_lastTimestamps, lastTimestamps, lastTimestamps, List.length_append,
    List.length_singleton]
  split_ifs with hfull
  · -- one more is dropped
    have hnext : ts.length + 1 - RATE_BUFFER_SIZE = ts.length - RATE_BUFFER_SIZE + 1 := by omega
    have hsize : 0 < RATE_BUFFER_SIZE := by decide
    have hle : ts.length - RATE_BUFFER_SIZE + 1 ≤ ts.length := by omega
    rw [hnext, List.tail_drop, List.drop_append_of_le_length hle]
  · have hnone : ts.length + 1 - RATE_BUFFER_SIZE = 0 := by omega
    have hnone' : ts.length - RATE_BUFFER_SIZE = 0 := by omega
    rw [hnone, hnone', List.drop_zero, List.drop_zero]

/-- The buffer after these timestamps. -/
structure Holds (ts : List ℤ) (b : CRateCheckBuffer) : Prop where
  data : b.data = lastTimestamps ts
  start : b.fBufferEmpty = true → b.nDataStart = b.nDataEnd
  typed : b.IsTyped

theorem holds_empty : Holds [] empty := by
  refine ⟨rfl, fun _ => rfl, fun i => ?_⟩
  show IsInt 8 0
  decide

theorem Holds.addTimestamp {ts : List ℤ} {b : CRateCheckBuffer} (h : Holds ts b) {t : ℤ}
    (ht : IsInt 8 t) : Holds (ts ++ [t]) (b.addTimestamp t) := by
  refine ⟨?_, (fun hempty => by cases hempty), fun i => ?_⟩
  · rw [data_addTimestamp h.start, lastTimestamps_concat, h.data]
  · show IsInt 8 (Function.update b.vecTimestamps b.nDataEnd t i)
    rcases eq_or_ne i b.nDataEnd with rfl | hne
    · rwa [Function.update_self]
    · rw [Function.update_of_ne hne]
      exact h.typed i

/-! ### Calls -/

/-- A timestamp comes, or the buffer is written and a new one reads it. -/
inductive Call
  | addTimestamp (nTimestamp : ℤ)
  | reload

def added : List Call → List ℤ
  | [] => []
  | .addTimestamp t :: calls => t :: added calls
  | .reload :: calls => added calls

def step (b : CRateCheckBuffer) : Call → Option CRateCheckBuffer
  | .addTimestamp t => some (b.addTimestamp t)
  | .reload => (unserialize b.serialize).map Prod.fst

theorem Holds.reload {ts : List ℤ} {b : CRateCheckBuffer} (h : Holds ts b) :
    b.step .reload = some b := by
  have hread := reads_unserialize h.typed []
  rw [List.append_nil] at hread
  rw [step, hread]
  rfl

theorem Holds.run : ∀ {calls : List Call} {ts : List ℤ} {b : CRateCheckBuffer}, Holds ts b →
    (∀ t ∈ added calls, IsInt 8 t) →
    ∃ b', calls.foldlM step b = some b' ∧ Holds (ts ++ added calls) b' := by
  intro calls
  induction calls with
  | nil =>
    intro ts b h _
    refine ⟨b, rfl, ?_⟩
    rwa [added, List.append_nil]
  | cons call calls ih =>
    intro ts b h htyped
    cases call with
    | addTimestamp t =>
      have hnext := h.addTimestamp (htyped t List.mem_cons_self)
      obtain ⟨b', hrun, hholds⟩ := ih hnext fun t' ht' => htyped t' (List.mem_cons_of_mem t ht')
      refine ⟨b', ?_, ?_⟩
      · rw [List.foldlM_cons]
        exact hrun
      · rwa [List.append_assoc] at hholds
    | reload =>
      obtain ⟨b', hrun, hholds⟩ := ih h htyped
      refine ⟨b', ?_, hholds⟩
      rw [List.foldlM_cons, h.reload]
      exact hrun

/-! ### The queries -/

theorem isLeast_foldl {α : Type} [LinearOrder α] : ∀ (l : List α) (best : α),
    IsLeast (insert best {t | t ∈ l}) (l.foldl (fun best t => if t < best then t else best) best) := by
  intro l
  induction l with
  | nil =>
    intro best
    simp
  | cons x l ih =>
    intro best
    obtain ⟨hmem, hle⟩ := ih (if x < best then x else best)
    have hbest : (if x < best then x else best) ≤ best ∧ (if x < best then x else best) ≤ x := by
      split_ifs with hlt
      · exact ⟨hlt.le, le_rfl⟩
      · exact ⟨le_rfl, not_lt.mp hlt⟩
    have hfirst := hle (Set.mem_insert _ _)
    constructor
    · rcases hmem with heq | hmem
      · rw [List.foldl_cons, heq]
        split_ifs
        · exact Or.inr List.mem_cons_self
        · exact Or.inl rfl
      · exact Or.inr (List.mem_cons_of_mem x hmem)
    · rintro t (rfl | ht)
      · exact hfirst.trans hbest.1
      · rcases List.mem_cons.mp ht with rfl | ht
        · exact hfirst.trans hbest.2
        · exact hle (Or.inr ht)

variable {ts : List ℤ} {b : CRateCheckBuffer}

theorem Holds.getCount (h : Holds ts b) : b.getCount = min ts.length RATE_BUFFER_SIZE := by
  rw [← length_data, h.data, length_lastTimestamps]

theorem Holds.isLeast (h : Holds ts b) (htyped : ∀ t ∈ ts, IsInt 8 t) (hne : ts ≠ []) :
    IsLeast {t | t ∈ lastTimestamps ts} b.getMinTimestamp := by
  obtain ⟨hmem, hle⟩ := isLeast_foldl (lastTimestamps ts) (2 ^ 63 - 1)
  rw [← h.data] at hmem hle
  refine ⟨?_, fun t ht => hle (Or.inr (by rw [h.data]; exact ht))⟩
  rcases hmem with hstart | hmem
  · -- nothing is less, so the last timestamp is the greatest `int64_t`
    have hlast : ts.getLast hne ∈ lastTimestamps ts := by
      have hlength := length_lastTimestamps ts
      have hpos := List.length_pos_iff.mpr hne
      have hnil : lastTimestamps ts ≠ [] := by
        have hsize : 0 < RATE_BUFFER_SIZE := by decide
        rw [← List.length_pos_iff]
        omega
      rw [← List.getLast_drop hnil]
      exact List.getLast_mem hnil
    have hge := hle (Or.inr (by rw [h.data]; exact hlast))
    have hlt := (htyped _ (List.getLast_mem hne)).2
    rw [hstart] at hge
    have heq : b.getMinTimestamp = ts.getLast hne := by
      refine hstart.trans ?_
      norm_num at hlt hge ⊢
      omega
    rw [heq]
    exact hlast
  · rw [← h.data]
    exact hmem

theorem Holds.getMaxTimestamp (h : Holds ts b) :
    IsGreatest (insert 0 {t | t ∈ lastTimestamps ts}) b.getMaxTimestamp := by
  have hdual := @isLeast_foldl ℤᵒᵈ _ (lastTimestamps ts) (0 : ℤ)
  rw [← h.data] at hdual ⊢
  exact hdual

theorem Holds.isGreatest (h : Holds ts b) (hpos : ∃ t ∈ lastTimestamps ts, 0 ≤ t) :
    IsGreatest {t | t ∈ lastTimestamps ts} b.getMaxTimestamp := by
  obtain ⟨hmem, hge⟩ := h.getMaxTimestamp
  refine ⟨?_, fun t ht => hge (Or.inr ht)⟩
  rcases hmem with hzero | hmem
  · obtain ⟨t, ht, hnn⟩ := hpos
    have hle := hge (Or.inr ht)
    rw [hzero] at hle ⊢
    rwa [← le_antisymm hle hnn]
  · exact hmem

/-- `GetRate`; no answer is defined where the difference is no `int64_t`. -/
def getRateInt64 (b : CRateCheckBuffer) : Option ℚ :=
  if 2 ≤ b.getCount ∧ b.getMinTimestamp ≠ b.getMaxTimestamp ∧
      ¬ IsInt 8 (b.getMaxTimestamp - b.getMinTimestamp) then none
  else some b.getRate

/-- **The buffer is a sliding window** over the last five timestamps. -/
theorem sliding_window (calls : List Call) (htyped : ∀ t ∈ added calls, IsInt 8 t)
    (hne : added calls ≠ []) :
    ∃ b, calls.foldlM step empty = some b ∧
      b.getCount = min (added calls).length RATE_BUFFER_SIZE ∧
      IsLeast {t | t ∈ lastTimestamps (added calls)} b.getMinTimestamp ∧
      ((∃ t ∈ lastTimestamps (added calls), 0 ≤ t) →
        IsGreatest {t | t ∈ lastTimestamps (added calls)} b.getMaxTimestamp) ∧
      (2 ≤ b.getCount → b.getMinTimestamp = b.getMaxTimestamp →
        b.getRateInt64 = some (10 ^ 10)) ∧
      (2 ≤ b.getCount → b.getMinTimestamp ≠ b.getMaxTimestamp →
        IsInt 8 (b.getMaxTimestamp - b.getMinTimestamp) →
        b.getRateInt64 =
          some (b.getCount / ((b.getMaxTimestamp - b.getMinTimestamp : ℤ) : ℚ))) := by
  obtain ⟨b, hrun, hholds⟩ := holds_empty.run htyped
  rw [List.nil_append] at hholds
  refine ⟨b, hrun, hholds.getCount, hholds.isLeast htyped hne, hholds.isGreatest, ?_, ?_⟩
  · intro hcount heq
    rw [getRateInt64, if_neg fun hover => hover.2.1 heq, getRate, if_neg (by omega), if_pos heq]
  · intro hcount hdiff hfits
    rw [getRateInt64, if_neg fun hover => hover.2.2 hfits, getRate, if_neg (by omega),
      if_neg hdiff]

/-- Two timestamps, with a file between them. -/
theorem sliding_window_two :
    ∃ b, [Call.addTimestamp 1, .reload, .addTimestamp 2].foldlM step empty = some b ∧
      b.getCount = 2 ∧ IsGreatest {t : ℤ | t ∈ [1, 2]} b.getMaxTimestamp := by
  obtain ⟨b, hrun, hcount, -, hmax, -⟩ :=
    sliding_window [.addTimestamp 1, .reload, .addTimestamp 2] (by decide) (by decide)
  exact ⟨b, hrun, hcount, hmax ⟨1, by decide, by decide⟩⟩

/-- **One time for two objects**: the rate is no quotient.  And before 1970 the maximum is 0. -/
theorem same_time :
    (∃ b, [Call.addTimestamp 1, .addTimestamp 1].foldlM step empty = some b ∧ b.getCount = 2 ∧
      b.getRateInt64 = some (10 ^ 10) ∧
      b.getRateInt64 ≠ some (2 / ((b.getMaxTimestamp - b.getMinTimestamp : ℤ) : ℚ))) ∧
    ∃ b, [Call.addTimestamp (-1)].foldlM step empty = some b ∧ b.getMaxTimestamp = 0 ∧
      lastTimestamps [-1] = [-1] := by
  refine ⟨⟨_, rfl, by decide, by decide +kernel, by decide +kernel⟩, ⟨_, rfl, by decide, by decide⟩⟩

end CRateCheckBuffer

end Stonecoin
