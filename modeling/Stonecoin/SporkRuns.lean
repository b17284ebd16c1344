/-
Runs of the spork manager.

  * `sporks_authentic_iff`: the active sporks are signed ones in every state of a run exactly
                             when each message the node takes is cut as a signed one;
  * `sporks_converge_iff`: the order of the messages does not matter exactly when the newest
                             sporks of an id have one value.

The signature is over three decimals written one after another, so the same signature fits
every spork whose decimals make up the same string.
-/
import Stonecoin.Sporks
import Stonecoin.LastWriter
import Mathlib.Algebra.Order.Group.Int
import Mathlib.Data.List.Induction

namespace Stonecoin

open LastWriter

variable {S H : Type} [DecidableEq H]

namespace CSporkManager

/-! ### Authenticity -/

/-- What happens to the manager: a message, or a call of `UpdateSpork` here. -/
inductive SporkEvent (S : Type) where
  | processSpork (env : SporkEnv) (strCommand : SporkCommand S)
  | updateSpork (env : SporkEnv) (nSporkID nValue : ℤ)

def step (keys : SporkKeys S H) (m : CSporkManager S H) : SporkEvent S → CSporkManager S H
  | .processSpork env strCommand => (processSpork keys env strCommand m).1
  | .updateSpork env nSporkID nValue => (updateSpork keys env nSporkID nValue m).2.1

/-- The state after some events. -/
def run (keys : SporkKeys S H) (es : List (SporkEvent S)) : CSporkManager S H :=
  es.foldl (step keys) init

/-- Id, value and signing time of a spork. -/
def triple (spork : CSporkMessage S) : ℤ × ℤ × ℤ :=
  (spork.nSporkID, spork.nValue, spork.nTimeSigned)

/-- What is signed for a triple. -/
def messageOf (t : ℤ × ℤ × ℤ) : String := strMessage t.1 t.2.1 t.2.2

/-- No signature verifies on a string other than those of the signed triples. -/
def SignsOnly (keys : SporkKeys S H) (signed : List (ℤ × ℤ × ℤ)) : Prop :=
  ∀ vchSig strMessage, keys.verifyMessage vchSig strMessage = true →
    ∃ t ∈ signed, strMessage = messageOf t

def UpdatesIn (signed : List (ℤ × ℤ × ℤ)) (es : List (SporkEvent S)) : Prop :=
  ∀ env nSporkID nValue, .updateSpork env nSporkID nValue ∈ es →
    (nSporkID, nValue, env.getTime) ∈ signed

/-- Every active spork is a signed one, under its id. -/
def Authentic (signed : List (ℤ × ℤ × ℤ)) (m : CSporkManager S H) : Prop :=
  ∀ nSporkID spork, m.mapSporksActive.lookup nSporkID = some spork →
    spork.nSporkID = nSporkID ∧ triple spork ∈ signed

/-- If the string of the spork was signed, then for a triple whose id and signing time are as
long as those of the spork. -/
def CutAsSigned (signed : List (ℤ × ℤ × ℤ)) (spork : CSporkMessage S) : Prop :=
  (∃ t ∈ signed, messageOf t = messageOf (triple spork)) →
    ∃ t ∈ signed, messageOf t = messageOf (triple spork) ∧
      (lexicalCast t.1).length = (lexicalCast spork.nSporkID).length ∧
      (lexicalCast t.2.2).length = (lexicalCast spork.nTimeSigned).length

variable {spork : CSporkMessage S}

omit [DecidableEq H] in
theorem CutAsSigned.mem {keys : SporkKeys S H} {signed : List (ℤ × ℤ × ℤ)} (hsigned : SignsOnly keys signed) (h : CutAsSigned signed spork)
    (hsig : spork.checkSignature keys = true) : triple spork ∈ signed := by
  obtain ⟨s, hs, hmessage⟩ := hsigned _ _ hsig
  obtain ⟨⟨i, v, t⟩, ht, hm, hid, htime⟩ := h ⟨s, hs, hmessage.symm⟩
  obtain ⟨rfl, rfl, rfl⟩ := strMessage_inj_of_lengths hm hid htime
  exact ht

theorem cutAsSigned_of_mem {signed : List (ℤ × ℤ × ℤ)}
    (h : triple spork ∈ signed) : CutAsSigned signed spork :=
  fun _ => ⟨triple spork, h, rfl, rfl, rfl⟩

variable {keys : SporkKeys S H} {signed : List (ℤ × ℤ × ℤ)} {m : CSporkManager S H}

omit [DecidableEq H] in
theorem Authentic.insert (h : Authentic signed m)
    (hs : triple spork ∈ signed) (m' : CSporkManager S H)
    (hm' : m'.mapSporksActive = m.mapSporksActive.insert spork.nSporkID spork) :
    Authentic signed m' := by
  intro nSporkID spork' hl
  rw [hm'] at hl
  rcases eq_or_ne nSporkID spork.nSporkID with rfl | hne
  · rw [AList.lookup_insert] at hl
    obtain rfl := Option.some.inj hl
    exact ⟨rfl, hs⟩
  · rw [AList.lookup_insert_ne hne] at hl
    exact h nSporkID spork' hl

omit [DecidableEq H] in
theorem checkSignature_of_takes {env : SporkEnv}
    (h : takes keys env spork m = true) : spork.checkSignature keys = true := by
  unfold takes at h
  exact (Bool.and_eq_true _ _ ▸ h).2

theorem Authentic.step (hsigned : SignsOnly keys signed) {e : SporkEvent S}
    (h : Authentic signed m)
    (hupd : ∀ env nSporkID nValue, e = .updateSpork env nSporkID nValue →
      (nSporkID, nValue, env.getTime) ∈ signed)
    (hcut : ∀ env spork, e = .processSpork env (.SPORK spork) → takes keys env spork m = true →
      CutAsSigned signed spork) : Authentic signed (m.step keys e) := by
  rcases e with ⟨env, spork | _⟩ | ⟨env, nSporkID, nValue⟩
  · show Authentic signed (processSpork keys env (.SPORK spork) m).1
    have hp := processSpork_spork keys env m spork
    split_ifs at hp with htakes
    · exact h.insert ((hcut env spork rfl htakes).mem hsigned (checkSignature_of_takes htakes)) _ hp
    · intro nSporkID spork' hl
      rw [hp] at hl
      exact h nSporkID spork' hl
  · show Authentic signed (processSpork keys env .GETSPORKS m).1
    rw [processSpork_getsporks]
    exact h
  · show Authentic signed (updateSpork keys env nSporkID nValue m).2.1
    unfold updateSpork CSporkMessage.sign
    cases keys.signMessage (strMessage nSporkID nValue env.getTime) with
    | none => exact h
    | some vchSig =>
      have hin : triple ⟨nSporkID, nValue, env.getTime, vchSig⟩ ∈ signed :=
        hupd env nSporkID nValue rfl
      exact h.insert hin _ rfl

theorem authentic_run (hsigned : SignsOnly keys signed) {es : List (SporkEvent S)}
    (hupd : UpdatesIn signed es)
    (hcut : ∀ pre env spork post, es = pre ++ .processSpork env (.SPORK spork) :: post →
      takes keys env spork (run keys pre) = true → CutAsSigned signed spork) :
    Authentic signed (run keys es) := by
  induction es using List.reverseRecOn with
  | nil =>
    intro nSporkID spork hl
    exact absurd hl (by simp [run, init])
  | append_singleton es e ih =>
    have hes : Authentic signed (run keys es) := by
      apply ih
      · intro env nSporkID nValue hmem
        exact hupd env nSporkID nValue (List.mem_append_left _ hmem)
      · rintro pre env spork post rfl
        apply hcut pre env spork (post ++ [e])
        rw [List.append_assoc, List.cons_append]
    show Authentic signed ((es ++ [e]).foldl (CSporkManager.step keys) init)
    rw [List.foldl_append]
    show Authentic signed ((run keys es).step keys e)
    apply hes.step hsigned
    · rintro env nSporkID nValue rfl
      exact hupd env nSporkID nValue (List.mem_append_right _ List.mem_cons_self)
    · rintro env spork rfl htakes
      exact hcut es env spork [] rfl htakes

/-- **Spork authenticity.**  In every state of a run the active sporks are signed ones, if and
only if every spork the node takes is cut as a signed one. -/
theorem sporks_authentic_iff (hsigned : SignsOnly keys signed) {es : List (SporkEvent S)}
    (hupd : UpdatesIn signed es) :
    (∀ pre post, es = pre ++ post → Authentic signed (run keys pre)) ↔
      ∀ pre env spork post, es = pre ++ .processSpork env (.SPORK spork) :: post →
        takes keys env spork (run keys pre) = true → CutAsSigned signed spork := by
  refine ⟨fun h => ?_, fun h => ?_⟩
  · intro pre env spork post hes htakes
    -- the state right after the message holds it
    have hnext := h (pre ++ [SporkEvent.processSpork env (.SPORK spork)]) post (by rw [hes]; simp)
    have hlookup : (run keys (pre ++ [SporkEvent.processSpork env (.SPORK spork)])).mapSporksActive.lookup
        spork.nSporkID = some spork := by
      show ((pre ++ [SporkEvent.processSpork env (.SPORK spork)]).foldl (CSporkManager.step keys)
        init).mapSporksActive.lookup spork.nSporkID = some spork
      rw [List.foldl_append]
      show (processSpork keys env (.SPORK spork) (run keys pre)).1.mapSporksActive.lookup
        spork.nSporkID = some spork
      rw [processSpork_spork keys, if_pos htakes, AList.lookup_insert]
    exact cutAsSigned_of_mem (hnext _ _ hlookup).2
  · rintro pre post rfl
    apply authentic_run hsigned
    · intro env nSporkID nValue hmem
      exact hupd env nSporkID nValue (List.mem_append_left _ hmem)
    · rintro pre' env spork post' rfl
      apply h pre' env spork (post' ++ post)
      rw [List.append_assoc, List.cons_append]

/-- Superblocks, switched on at their time: id, value and signing time. -/
def superblocksOn : ℤ × ℤ × ℤ := (SPORK_9_SUPERBLOCKS_ENABLED, 1519862401, 1519862500)

/-- A network in which a signature verifies on this message only. -/
def oneSigned : SporkKeys (List UInt8) (ℤ × ℤ × ℤ) where
  getHash nSporkID nValue nTimeSigned := (nSporkID, nValue, nTimeSigned)
  verifyMessage vchSig strMessage :=
    decide (vchSig = [31]) && decide (strMessage = messageOf superblocksOn)
  signMessage strMessage := if strMessage = messageOf superblocksOn then some [31] else none

theorem oneSigned_signsOnly : SignsOnly oneSigned [superblocksOn] := by
  intro vchSig strMessage h
  have hs := (Bool.and_eq_true _ _ ▸ h : decide (vchSig = [31]) = true ∧
    decide (strMessage = messageOf superblocksOn) = true).2
  exact ⟨superblocksOn, List.mem_cons_self, of_decide_eq_true hs⟩

/-- A synced node at the signing time. -/
def sporkEnv : SporkEnv := ⟨false, true, 1519862500⟩

/-- The last digit of the value has become the first of the signing time. -/
def relabelled : CSporkMessage (List UInt8) :=
  ⟨SPORK_9_SUPERBLOCKS_ENABLED, 151986240, 11519862500, [31]⟩

theorem sporks_authentic_iff_one :
    (∀ pre post, [SporkEvent.updateSpork sporkEnv SPORK_9_SUPERBLOCKS_ENABLED 1519862401] =
        pre ++ post → Authentic [superblocksOn] (run oneSigned pre)) ↔
      ∀ pre env spork post,
        [SporkEvent.updateSpork sporkEnv SPORK_9_SUPERBLOCKS_ENABLED 1519862401] =
          pre ++ .processSpork env (.SPORK spork) :: post →
        takes oneSigned env spork (run oneSigned pre) = true →
        CutAsSigned [superblocksOn] spork := by
  apply sporks_authentic_iff oneSigned_signsOnly
  intro env nSporkID nValue h
  cases List.mem_singleton.mp h
  exact List.mem_cons_self

/-- A signature for one value and time makes another value active, signed in the year 2335. -/
theorem relabelled_spork_active :
    SignsOnly oneSigned [superblocksOn] ∧
      (run oneSigned [.processSpork sporkEnv (.SPORK relabelled)]).mapSporksActive.lookup
        SPORK_9_SUPERBLOCKS_ENABLED = some relabelled ∧
      ¬ Authentic [superblocksOn]
        (run oneSigned [.processSpork sporkEnv (.SPORK relabelled)]) := by
  have hactive : (run oneSigned
      [.processSpork sporkEnv (.SPORK relabelled)]).mapSporksActive.lookup
        SPORK_9_SUPERBLOCKS_ENABLED = some relabelled := by
    decide +kernel
  refine ⟨oneSigned_signsOnly, hactive, fun h => ?_⟩
  exact absurd (h _ _ hactive).2 (by decide)

/-! ### Convergence -/

/-- The node reads these messages, each with the clock of its time. -/
def deliver (keys : SporkKeys S H) (ws : List (ℤ × CSporkMessage S)) : CSporkManager S H :=
  ws.foldl (fun m w => (processSpork keys ⟨false, true, w.1⟩ (.SPORK w.2) m).1) init

/-- Every message of a set is delivered, once or more often, and no other. -/
def Delivers (sporks : List (CSporkMessage S)) (ws : List (ℤ × CSporkMessage S)) : Prop :=
  ∀ spork, spork ∈ ws.map Prod.snd ↔ spork ∈ sporks

/-- The same values, and the same answers at equal clock times. -/
def SameSporks (m m' : CSporkManager S H) : Prop :=
  ∀ nSporkID,
    (m.mapSporksActive.lookup nSporkID).map CSporkMessage.nValue =
      (m'.mapSporksActive.lookup nSporkID).map CSporkMessage.nValue ∧
    m.getSporkValue nSporkID = m'.getSporkValue nSporkID ∧
    ∀ getTime, m.isSporkActive getTime nSporkID = m'.isSporkActive getTime nSporkID

/-- No spork of the same id was signed later. -/
def IsNewest (sporks : List (CSporkMessage S)) (spork : CSporkMessage S) : Prop :=
  spork ∈ sporks ∧ ∀ spork' ∈ sporks, spork'.nSporkID = spork.nSporkID →
    spork'.nTimeSigned ≤ spork.nTimeSigned

def stamped (spork : CSporkMessage S) : ℤ × ℤ := (spork.nTimeSigned, spork.nValue)

def writes (nSporkID : ℤ) (ws : List (ℤ × CSporkMessage S)) : List (ℤ × ℤ) :=
  (ws.filter fun w => decide (w.2.nSporkID = nSporkID)).map fun w => stamped w.2

theorem lookup_processSpork (hsig : spork.checkSignature keys = true)
    (getTime nSporkID : ℤ) :
    ((processSpork keys ⟨false, true, getTime⟩ (.SPORK spork) m).1.mapSporksActive.lookup
        nSporkID).map stamped =
      if spork.nSporkID = nSporkID then
        keepFirst ((m.mapSporksActive.lookup nSporkID).map stamped) (stamped spork)
      else (m.mapSporksActive.lookup nSporkID).map stamped := by
  have htakes : takes keys ⟨false, true, getTime⟩ spork m =
      !m.seen spork.nSporkID spork.nTimeSigned := by
    simp [takes, hsig]
  rw [processSpork_spork, htakes]
  rcases eq_or_ne spork.nSporkID nSporkID with rfl | hne
  · rw [if_pos rfl]
    cases hl : m.mapSporksActive.lookup spork.nSporkID with
    | none =>
      have hseen : m.seen spork.nSporkID spork.nTimeSigned = false := by simp [seen, hl]
      rw [hseen, Bool.not_false, if_pos rfl, AList.lookup_insert]
      rfl
    | some old =>
      show _ = if old.nTimeSigned < spork.nTimeSigned then some (stamped spork)
        else some (stamped old)
      rcases lt_or_ge old.nTimeSigned spork.nTimeSigned with hlt | hge
      · have hseen : m.seen spork.nSporkID spork.nTimeSigned = false := by simp [seen, hl, hlt]
        rw [hseen, Bool.not_false, if_pos rfl, AList.lookup_insert, if_pos hlt]
        rfl
      · have hseen : m.seen spork.nSporkID spork.nTimeSigned = true := by simp [seen, hl, hge]
        rw [hseen, if_neg (by decide), hl, if_neg (not_lt.mpr hge)]
        rfl
  · rw [if_neg hne]
    split_ifs
    · rw [AList.lookup_insert_ne hne.symm]
    · rfl

theorem lookup_deliver (nSporkID : ℤ) {ws : List (ℤ × CSporkMessage S)}
    (hsig : ∀ w ∈ ws, w.2.checkSignature keys = true) :
    ((deliver keys ws).mapSporksActive.lookup nSporkID).map stamped =
      (writes nSporkID ws).foldl keepFirst none := by
  induction ws using List.reverseRecOn with
  | nil => simp [deliver, init, writes]
  | append_singleton ws w ih =>
    have hw := hsig w (List.mem_append_right _ List.mem_cons_self)
    have ih := ih fun x hx => hsig x (List.mem_append_left _ hx)
    unfold deliver at ih ⊢
    rw [List.foldl_append]
    show ((processSpork keys ⟨false, true, w.1⟩ (.SPORK w.2) _).1.mapSporksActive.lookup
      nSporkID).map stamped = _
    rw [lookup_processSpork hw, ih]
    unfold writes
    rw [List.filter_append, List.map_append, List.foldl_append]
    split_ifs with hid
    · simp [hid]
    · simp [hid]

variable {sporks : List (CSporkMessage S)}

theorem mem_writes {nSporkID : ℤ} {ws : List (ℤ × CSporkMessage S)} (h : Delivers sporks ws) (x : ℤ × ℤ) :
    x ∈ writes nSporkID ws ↔
      ∃ spork ∈ sporks, spork.nSporkID = nSporkID ∧ stamped spork = x := by
  simp only [writes, List.mem_map, List.mem_filter, decide_eq_true_eq]
  refine ⟨?_, ?_⟩
  · rintro ⟨w, ⟨hw, hid⟩, rfl⟩
    exact ⟨w.2, (h w.2).mp (List.mem_map_of_mem hw), hid, rfl⟩
  · rintro ⟨spork, hs, hid, rfl⟩
    obtain ⟨w, hw, rfl⟩ := List.mem_map.mp ((h spork).mpr hs)
    exact ⟨w, ⟨hw, hid⟩, rfl⟩

theorem exists_newest_of_latest {nSporkID : ℤ} {ws : List (ℤ × CSporkMessage S)} (h : Delivers sporks ws) {x : ℤ × ℤ}
    (hx : Latest x (writes nSporkID ws)) :
    ∃ spork, IsNewest sporks spork ∧ spork.nSporkID = nSporkID ∧ stamped spork = x := by
  obtain ⟨spork, hs, hid, rfl⟩ := (mem_writes h x).mp hx.1
  refine ⟨spork, ⟨hs, fun spork' hs' hid' => ?_⟩, hid, rfl⟩
  exact hx.2 (stamped spork') ((mem_writes h _).mpr ⟨spork', hs', hid'.trans hid, rfl⟩)

theorem lookup_deliver_first {x : CSporkMessage S}
    (hx : IsNewest sporks x) (hsig : ∀ spork ∈ sporks, spork.checkSignature keys = true) :
    ((deliver keys ((x :: sporks).map fun spork => (0, spork))).mapSporksActive.lookup
      x.nSporkID).map stamped = some (stamped x) := by
  have hall : ∀ w ∈ (x :: sporks).map fun spork => ((0 : ℤ), spork),
      w.2.checkSignature keys = true := by
    intro w hw
    obtain ⟨spork, hs, rfl⟩ := List.mem_map.mp hw
    rcases List.mem_cons.mp hs with rfl | hs
    · exact hsig _ hx.1
    · exact hsig _ hs
  rw [lookup_deliver x.nSporkID hall]
  have hwrites : writes x.nSporkID ((x :: sporks).map fun spork => ((0 : ℤ), spork)) =
      stamped x :: writes x.nSporkID (sporks.map fun spork => ((0 : ℤ), spork)) := by
    simp [writes]
  rw [hwrites, List.foldl_cons]
  show (writes x.nSporkID _).foldl keepFirst (some (stamped x)) = _
  apply keepFirst_foldl_first
  intro u hu
  have hd : Delivers sporks (sporks.map fun spork => ((0 : ℤ), spork)) := by
    intro spork
    rw [List.map_map]
    show spork ∈ sporks.map id ↔ _
    rw [List.map_id]
  obtain ⟨spork, hs, hid, rfl⟩ := (mem_writes hd u).mp hu
  exact hx.2 spork hs hid

theorem delivers_cons {x : CSporkMessage S} (hx : x ∈ sporks) :
    Delivers sporks ((x :: sporks).map fun spork => ((0 : ℤ), spork)) := by
  intro spork
  rw [List.map_map]
  show spork ∈ (x :: sporks).map id ↔ _
  rw [List.map_id, List.mem_cons]
  exact ⟨fun h => h.elim (fun he => he ▸ hx) (fun hs => hs), .inr⟩

/-- **Spork convergence.**  All nodes that get the same signed messages, each at least once and
in any order, agree, if and only if the newest sporks of each id have one value. -/
theorem sporks_converge_iff {sporks : List (CSporkMessage S)}
    (hsig : ∀ spork ∈ sporks, spork.checkSignature keys = true) :
    (∀ us vs, Delivers sporks us → Delivers sporks vs →
        SameSporks (deliver keys us) (deliver keys vs)) ↔
      ∀ x y, IsNewest sporks x → IsNewest sporks y → x.nSporkID = y.nSporkID →
        x.nValue = y.nValue := by
  refine ⟨fun h x y hx hy hid => ?_, fun h us vs hus hvs nSporkID => ?_⟩
  · -- one node gets `x` first, the other `y`
    have hsame := (h _ _ (delivers_cons hx.1) (delivers_cons hy.1) x.nSporkID).1
    have hfst := congrArg (Option.map Prod.snd) (lookup_deliver_first hx hsig)
    have hsnd := congrArg (Option.map Prod.snd) (lookup_deliver_first hy hsig)
    rw [Option.map_map] at hfst hsnd
    rw [← hid] at hsnd
    exact Option.some.inj (hfst.symm.trans (hsame.trans hsnd))
  · have hall : ∀ {ws : List (ℤ × CSporkMessage S)}, Delivers sporks ws →
        ∀ w ∈ ws, w.2.checkSignature keys = true :=
      fun hws w hw => hsig _ ((hws w.2).mp (List.mem_map_of_mem hw))
    have hvalue : ((deliver keys us).mapSporksActive.lookup nSporkID).map CSporkMessage.nValue =
        ((deliver keys vs).mapSporksActive.lookup nSporkID).map CSporkMessage.nValue := by
      have hmem : ∀ x, x ∈ writes nSporkID us ↔ x ∈ writes nSporkID vs := fun x =>
        (mem_writes hus x).trans (mem_writes hvs x).symm
      have hfold := keepFirst_foldl_eq hmem (by
        intro v w hv hw
        obtain ⟨x, hx, hidx, rfl⟩ := exists_newest_of_latest hus hv
        obtain ⟨y, hy, hidy, rfl⟩ := exists_newest_of_latest hus hw
        exact h x y hx hy (hidx.trans hidy.symm))
      rw [← lookup_deliver nSporkID (hall hus), ← lookup_deliver nSporkID (hall hvs),
        Option.map_map, Option.map_map] at hfold
      exact hfold
    exact ⟨hvalue, getSporkValue_congr hvalue, isSporkActive_congr hvalue⟩

/-- A network in which every signature verifies. -/
def allSigned : SporkKeys (List UInt8) (ℤ × ℤ × ℤ) where
  getHash nSporkID nValue nTimeSigned := (nSporkID, nValue, nTimeSigned)
  verifyMessage _ _ := true
  signMessage _ := some [31]

/-- Superblocks, switched on and off within one second. -/
def onAndOff : List (CSporkMessage (List UInt8)) :=
  [⟨SPORK_9_SUPERBLOCKS_ENABLED, 0, 1519862500, [31]⟩,
   ⟨SPORK_9_SUPERBLOCKS_ENABLED, 4070908800, 1519862500, [31]⟩]

theorem sporks_converge_iff_two :
    (∀ us vs, Delivers onAndOff us → Delivers onAndOff vs →
        SameSporks (deliver allSigned us) (deliver allSigned vs)) ↔
      ∀ x y, IsNewest onAndOff x → IsNewest onAndOff y → x.nSporkID = y.nSporkID →
        x.nValue = y.nValue :=
  sporks_converge_iff fun _ _ => rfl

/-- Two nodes that got both messages disagree on superblocks. -/
theorem sporks_of_one_second_diverge :
    (∀ spork ∈ onAndOff, spork.checkSignature allSigned = true) ∧
      Delivers onAndOff (onAndOff.map fun spork => (0, spork)) ∧
      Delivers onAndOff (onAndOff.reverse.map fun spork => (0, spork)) ∧
      (deliver allSigned (onAndOff.map fun spork => (0, spork))).isSporkActive 1519862501
        SPORK_9_SUPERBLOCKS_ENABLED = true ∧
      (deliver allSigned (onAndOff.reverse.map fun spork => (0, spork))).isSporkActive 1519862501
        SPORK_9_SUPERBLOCKS_ENABLED = false := by
  refine ⟨fun _ _ => rfl, ?_, ?_, by decide +kernel, by decide +kernel⟩
  · intro spork
    simp [onAndOff]
  · intro spork
    simp [onAndOff, or_comm]

end CSporkManager

end Stonecoin
