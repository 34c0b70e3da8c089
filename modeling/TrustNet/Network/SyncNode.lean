import TrustNet.Network.HashRequest
import TrustNet.Network.Platform

/-!
# Synchronising with a peer (`syncNode`)

`syncNode` runs when a peer connects. As long as the peer has the better chain it suspends
block production, asks for blocks and waits for a signal of the handlers; in the end it
announces the uncles of the next candidate and starts block production. The answers of
the peer, the tips that the engine has in between and the results of its calls are the
inputs. The exits of the loop return before production is started again, and the end of
the loop starts it without a look at what was before.
-/

namespace TrustNet
set_option autoImplicit false

/-- Block production: the flag, and the goroutine of the producer. -/
structure Production where
  isRunning : Bool
  producer : Option Nat
  fits : isRunning = producer.isSome

/-- `Start`, with a new goroutine; it returns an error if production is running. -/
def Production.start (k : Nat) (p : Production) : Production × Option String :=
  if p.isRunning then (p, some "block production already running") else (⟨true, some k, rfl⟩, none)

/-- `Suspend`; it returns an error if production is not running. -/
def Production.suspend (p : Production) : Production × Option String :=
  if p.isRunning then (⟨false, none, rfl⟩, none) else (p, some "block production already suspended")

/-- What `syncNode` reads of the handshake message of a peer. -/
structure PeerStatus where
  totalWeight : UInt64
  tipNumeric : UInt64

/-- `isSyncNeeded`. -/
def isSyncNeeded (best : Block) (status : PeerStatus) : Bool :=
  decide (status.totalWeight > best.wt) ||
    (decide (status.totalWeight = best.wt) && decide (status.tipNumeric < best.numeric))

/-- The signals of the handlers. -/
inductive ChanSignal where
  | error | next | abort | retry | done
  deriving DecidableEq

/-- What a round of the loop meets: the last hash that the handlers have set since, the error of `Send`, the signal
(`none`: the channel is closed), and the best block after it. -/
structure SyncRound where
  handled : Option Byte64
  sendError : Option String
  signal : Option ChanSignal
  best : Option Block

/-- The messages of `syncNode`. -/
inductive SyncMsg where
  | getBlockHashesRequest (msg : GetBlockHashesRequestMsg)
  | newBlock (spec : BlockSpec)

/-- What `syncNode` changes: block production, the last hash of the peer, and the messages to it. The marks of the
peer (`AddTx`) are not read here. -/
structure Syncing where
  production : Production
  lastHash : Option Byte64
  messages : List SyncMsg

/-- How `syncNode` ends: no sync was needed, an exit of the loop or of the announcement with what it returns, the end of
the function, or a nil pointer. -/
inductive SyncExit where
  | unneeded
  | stopped (e : Option PeerError)
  | completed
  | panic

/-- The number of blocks that a request asks for. -/
def syncBatch : UInt64 := 10

/-- A round of the loop: how the function ends, or the best block to go on with. -/
def syncRound (s : Syncing) (r : SyncRound) : Syncing × (SyncExit ⊕ Block) :=
  let s := { s with
    production := if s.production.isRunning then s.production.suspend.1 else s.production
    lastHash := r.handled.or s.lastHash }
  match s.lastHash with
  | none => (s, .inl .panic)
  | some parentHash =>
    let s := { s with messages := s.messages ++ [.getBlockHashesRequest ⟨parentHash, syncBatch⟩] }
    match r.sendError with
    | some e => (s, .inl (.stopped (some (.syncFailed e))))
    | none =>
      -- a closed channel gives the zero value, which is the error
      match r.signal.getD .error with
      | .error => (s, .inl (.stopped (some (.syncFailed "error processing sync protocol"))))
      | .abort => (s, .inl (.stopped (some (.syncFailed "sync protocol aborted"))))
      | .done => (s, .inl (.stopped none))
      | .next | .retry =>
        match r.best with
        | none => (s, .inl .panic)
        | some best => (s, .inr best)

/-- The loop over the uncles of the next candidate: the first error of `Block`. -/
def announceUncles (fetch : Byte64 → Except Err Block) : List Byte64 → Syncing → Syncing × Option Err
  | [], s => (s, none)
  | uncle :: uncles, s =>
    match fetch uncle with
    | .error e => (s, some e)
    | .ok block => announceUncles fetch uncles { s with messages := s.messages ++ [.newBlock block.toBlockSpec] }

/-- The results of the engine and of the runtime at the end: the candidate of `NewCandidateBlock`, `Block`, and the
goroutine of a new producer. -/
structure SyncEnd where
  candidate : Option Block
  fetch : Byte64 → Except Err Block
  producer : Nat

/-- After the loop. -/
def resumeProduction (last : SyncEnd) (s : Syncing) : Syncing × SyncExit :=
  match last.candidate with
  | none => (s, .panic)
  | some candidate =>
    match announceUncles last.fetch candidate.uncles s with
    | (s, some e) => (s, .stopped (some (.engine e)))
    | (s, none) =>
      ({ s with production := if s.production.isRunning then s.production else (s.production.start last.producer).1 },
        .completed)

/-- The loop and what follows; `none` if it still waits for the peer after these rounds. -/
def syncRounds (status : PeerStatus) (last : SyncEnd) : List SyncRound → Syncing → Option (Syncing × SyncExit)
  | [], _ => none
  | r :: rounds, s =>
    match syncRound s r with
    | (s, .inl ends) => some (s, ends)
    | (s, .inr best) =>
      if isSyncNeeded best status then syncRounds status last rounds s else some (resumeProduction last s)

/-- `syncNode`. -/
def syncNode (best : Block) (status : PeerStatus) (rounds : List SyncRound) (last : SyncEnd) (p : Production) :
    Option (Syncing × SyncExit) :=
  let s := ⟨p, best.hash, []⟩
  if isSyncNeeded best status then syncRounds status last rounds s else some (s, .unneeded)

/-! ## Production -/

/-- The peer was asked and the handlers signal the next batch or a retry. -/
def SyncRound.goesOn (r : SyncRound) : Bool :=
  r.sendError.isNone && (r.signal == some .next || r.signal == some .retry)

/-- All rounds go on up to one after which the tip of the node is not behind the peer any more. -/
def catchesUp (status : PeerStatus) : List SyncRound → Bool
  | [] => false
  | r :: rounds =>
    r.goesOn && match r.best with
      | none => false
      | some best => !isSyncNeeded best status || catchesUp status rounds

/-- The engine has a candidate, and every uncle of it. -/
def SyncEnd.announces (last : SyncEnd) : Bool :=
  last.candidate.any fun candidate => candidate.uncles.all fun uncle => (last.fetch uncle).isOk

section Exits

variable {s s' : Syncing} {status : PeerStatus} {last : SyncEnd}

/-- Production is off after every round. -/
theorem syncRound_off (s : Syncing) (r : SyncRound) : (syncRound s r).1.production.isRunning = false := by
  have off : (if s.production.isRunning then s.production.suspend.1 else s.production).isRunning = false := by
    cases running : s.production.isRunning with
    | false => simpa using running
    | true => simp [Production.suspend, running]
  unfold syncRound
  generalize (if s.production.isRunning then s.production.suspend.1 else s.production) = production at off ⊢
  simp only
  repeat' split
  all_goals exact off

/-- A round ends the function or hands over the best block, as its inputs say. -/
theorem syncRound_result (s : Syncing) (r : SyncRound) :
    (syncRound s r).2 = .inl .panic ∨ (∃ e, (syncRound s r).2 = .inl (.stopped e) ∧ r.goesOn = false) ∨
      ∃ best, (syncRound s r).2 = .inr best ∧ r.goesOn = true ∧ r.best = some best := by
  obtain ⟨handled, sendError, signal, best⟩ := r
  unfold syncRound SyncRound.goesOn
  cases handled.or s.lastHash with
  | none => exact Or.inl rfl
  | some hash =>
    cases sendError with
    | some e => exact Or.inr (Or.inl ⟨_, rfl, rfl⟩)
    | none =>
      cases signal with
      | none => exact Or.inr (Or.inl ⟨_, rfl, rfl⟩)
      | some signal =>
        cases signal with
        | error | abort | done => exact Or.inr (Or.inl ⟨_, rfl, rfl⟩)
        | next | retry =>
          cases best with
          | none => exact Or.inl rfl
          | some best => exact Or.inr (Or.inr ⟨best, rfl, rfl, rfl⟩)

theorem announceUncles_production (fetch : Byte64 → Except Err Block) (uncles : List Byte64) (s : Syncing) :
    (announceUncles fetch uncles s).1.production = s.production ∧
      (announceUncles fetch uncles s).2.isNone = uncles.all fun uncle => (fetch uncle).isOk := by
  induction uncles generalizing s with
  | nil => exact ⟨rfl, rfl⟩
  | cons uncle uncles ih =>
    rw [announceUncles, List.all_cons]
    cases fetch uncle with
    | error e => exact ⟨rfl, rfl⟩
    | ok block => exact ih _

/-- The end of the function starts production if it can announce the uncles. -/
theorem resumeProduction_isRunning (last : SyncEnd) (off : s.production.isRunning = false)
    (alive : (resumeProduction last s).2 ≠ .panic) :
    (resumeProduction last s).1.production.isRunning = last.announces := by
  unfold resumeProduction SyncEnd.announces at *
  cases found : last.candidate with
  | none =>
    rw [found] at alive
    exact absurd rfl alive
  | some candidate =>
    obtain ⟨kept, failed⟩ := announceUncles_production last.fetch candidate.uncles s
    simp only [Option.any_some]
    rw [← failed]
    generalize announceUncles last.fetch candidate.uncles s = result at kept ⊢
    obtain ⟨s₁, _ | e⟩ := result
    · simp only at kept
      simp [kept, off, Production.start]
    · simp only at kept
      simp [kept, off]

/-- **The loop and what follows it.** Production is running after it exactly if the node catches up and can announce the
uncles of its next candidate. -/
theorem syncRounds_isRunning (rounds : List SyncRound) {ends : SyncExit}
    (returns : syncRounds status last rounds s = some (s', ends)) (alive : ends ≠ .panic) :
    s'.production.isRunning = (catchesUp status rounds && last.announces) := by
  induction rounds generalizing s with
  | nil => cases returns
  | cons r rounds ih =>
    have off := syncRound_off s r
    have result := syncRound_result s r
    rw [syncRounds] at returns
    rw [catchesUp]
    generalize syncRound s r = outcome at off result returns
    obtain ⟨s₁, sum⟩ := outcome
    rcases result with panics | ⟨e, stops, ended⟩ | ⟨best, found, on, tip⟩
    · simp only at panics
      subst panics
      cases returns
      exact absurd rfl alive
    · simp only at stops
      subst stops
      cases returns
      rw [ended]
      exact off
    · simp only at found
      subst found
      rw [on, tip]
      cases needed : isSyncNeeded best status with
      | true =>
        simp only [needed, if_true] at returns
        simpa [needed] using ih returns
      | false =>
        simp only [needed, Bool.false_eq_true, if_false] at returns
        have after := resumeProduction_isRunning last off
        rw [Option.some.inj returns] at after
        simpa [needed] using after alive

/-- **What `syncNode` does to block production.** When it returns, production is running if and only if it was before,
exactly if no sync was needed, or production was running and the node catches up and can announce the uncles of its
next candidate, or production was not running and one of these fails. -/
theorem sync_restores_production (best : Block) (status : PeerStatus) (rounds : List SyncRound) (last : SyncEnd)
    (p : Production) {ends : SyncExit} (returns : syncNode best status rounds last p = some (s', ends))
    (alive : ends ≠ .panic) :
    s'.production.isRunning = p.isRunning ↔
      isSyncNeeded best status = false ∨ p.isRunning = (catchesUp status rounds && last.announces) := by
  unfold syncNode at returns
  cases needed : isSyncNeeded best status with
  | true =>
    rw [needed, if_pos rfl] at returns
    rw [syncRounds_isRunning rounds returns alive]
    constructor
    · exact fun same => Or.inr same.symm
    · rintro (unneeded | same)
      · cases unneeded
      · exact same.symm
  | false =>
    rw [needed, if_neg Bool.false_ne_true] at returns
    cases returns
    exact ⟨fun _ => Or.inl rfl, fun _ => rfl⟩

namespace Worked

/-- A tip of the given weight. -/
def tipOfWeight (weight : UInt64) : Block := { newBlock null weight 0 1 0 [] none 1 with hash := some null }

/-- A candidate without uncles. -/
def noUncles : SyncEnd := ⟨some (tipOfWeight 3), fun _ => .ok (tipOfWeight 3), 7⟩

/-- A producer in goroutine 5, and no producer. -/
def producerOn : Production := ⟨true, some 5, rfl⟩

def producerOff : Production := ⟨false, none, rfl⟩

/-- **Production is lost, and is started unasked.** The peer has weight 2 and the node has weight 1: an abort leaves a
node that was producing without a producer, and a batch that brings the node to weight 3 leaves a node that was not
producing with one. -/
theorem sync_changes_production :
    (∃ s e, syncNode (tipOfWeight 1) ⟨2, 0⟩ [⟨none, none, some .abort, none⟩] noUncles producerOn =
        some (s, .stopped e) ∧ producerOn.isRunning = true ∧ s.production.isRunning = false) ∧
      ∃ s, syncNode (tipOfWeight 1) ⟨2, 0⟩ [⟨none, none, some .next, some (tipOfWeight 3)⟩] noUncles producerOff =
        some (s, .completed) ∧ producerOff.isRunning = false ∧ s.production.isRunning = true :=
  ⟨⟨_, _, rfl, rfl, rfl⟩, ⟨_, rfl, rfl, rfl⟩⟩

end Worked

/-- A node that was producing is producing after two batches. -/
theorem sync_restores_production_batches :
    ∃ s, syncNode (Worked.tipOfWeight 1) ⟨2, 0⟩ [⟨none, none, some .next, some (Worked.tipOfWeight 1)⟩,
        ⟨some null, none, some .next, some (Worked.tipOfWeight 3)⟩] Worked.noUncles Worked.producerOn =
        some (s, .completed) ∧ s.production.isRunning = Worked.producerOn.isRunning := by
  let request := SyncMsg.getBlockHashesRequest ⟨null, syncBatch⟩
  have returns : syncNode (Worked.tipOfWeight 1) ⟨2, 0⟩ [⟨none, none, some .next, some (Worked.tipOfWeight 1)⟩,
      ⟨some null, none, some .next, some (Worked.tipOfWeight 3)⟩] Worked.noUncles Worked.producerOn =
      some (⟨⟨true, some 7, rfl⟩, some null, [request, request]⟩, .completed) := rfl
  have restored := sync_restores_production _ _ _ _ _ returns SyncExit.noConfusion
  exact ⟨_, returns, restored.mpr (Or.inr rfl)⟩

end Exits

/-! ## The goroutines -/

/-- The block production of a platform with no `Start` or `Suspend` on its way. -/
structure Platform.Produces (p : Platform) (q : Production) : Prop where
  flag : p.isRunning = q.isRunning
  threads : ∀ k, (∃ s, p.threads k = some (.producer s)) ↔ q.producer = some k

section Goroutines

variable {p : Platform} {q : Production} {i k : Nat}

theorem Production.producer_eq_none (off : q.isRunning = false) : q.producer = none := by
  have fits := q.fits
  rw [off] at fits
  exact Option.isNone_iff_eq_none.mp (by simpa using fits.symm)

/-- `Start`, in one go, starts production. -/
theorem Platform.Produces.start (produces : p.Produces q) (free : p.threads i = none) (new : p.threads k = none)
    (other : i ≠ k) : (((p.start i).launch i k).running i).Produces (q.start k).1 := by
  have flag := produces.flag
  cases on : q.isRunning with
  | true =>
    rw [on] at flag
    have same : ((p.start i).launch i k).running i = p := by
      simp [Platform.start, Platform.launch, Platform.running, free, flag]
    rw [same, Production.start, if_pos on]
    exact produces
  | false =>
    rw [on] at flag
    have off := Production.producer_eq_none on
    rw [Production.start, if_neg (by simp [on])]
    have threads : (((p.start i).launch i k).running i).threads =
        Function.update p.threads k (some (.producer Producer.fresh)) := by
      funext j
      by_cases atCall : j = i
      · subst atCall
        simp [Platform.start, Platform.launch, Platform.running, Platform.setThread, free, new, flag, other.symm, other]
      · by_cases atNew : j = k <;>
          simp [Platform.start, Platform.launch, Platform.running, Platform.setThread, free, new, flag, other.symm,
            atCall, atNew]
    constructor
    · simp [Platform.start, Platform.launch, Platform.running, Platform.setThread, free, new, flag, other.symm]
    · intro j
      rw [threads]
      by_cases atNew : j = k
      · subst atNew
        simp
      · rw [Function.update_of_ne atNew, produces.threads j, off]
        simp [Ne.symm atNew]

/-- `Suspend`, in one go, ends production, once the producer comes to its `select`. -/
theorem Platform.Produces.suspend (produces : p.Produces q) (free : p.threads i = none)
    (selecting : q.isRunning = true → ∃ newBlock txCount,
      p.threads k = some (.producer ⟨newBlock, txCount, .selecting⟩)) :
    (((p.suspend i).shutdown i k).suspended i).Produces q.suspend.1 := by
  have flag := produces.flag
  cases on : q.isRunning with
  | false =>
    rw [on] at flag
    have same : ((p.suspend i).shutdown i k).suspended i = p := by
      simp [Platform.suspend, Platform.shutdown, Platform.suspended, free, flag]
    rw [same, Production.suspend, if_neg (by simp [on])]
    exact produces
  | true =>
    rw [on] at flag
    obtain ⟨newBlock, txCount, found⟩ := selecting on
    have other : k ≠ i := by
      rintro rfl
      rw [free] at found
      cases found
    rw [Production.suspend, if_pos on]
    have threads : (((p.suspend i).shutdown i k).suspended i).threads = Function.update p.threads k none := by
      funext j
      by_cases atCall : j = i
      · subst atCall
        simp [Platform.suspend, Platform.shutdown, Platform.suspended, Platform.setThread, free, found, flag, other,
          other.symm]
      · by_cases atOld : j = k <;>
          simp [Platform.suspend, Platform.shutdown, Platform.suspended, Platform.setThread, free, found, flag, other,
            atCall, atOld]
    constructor
    · simp [Platform.suspend, Platform.shutdown, Platform.suspended, Platform.setThread, free, found, flag, other]
    · intro j
      rw [threads]
      by_cases atOld : j = k
      · subst atOld
        simp
      · have only := (produces.threads k).mp ⟨_, found⟩
        rw [Function.update_of_ne atOld, produces.threads j, only]
        simp [Ne.symm atOld]

end Goroutines

end TrustNet
