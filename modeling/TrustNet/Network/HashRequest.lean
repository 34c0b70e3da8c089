import TrustNet.Consensus.Lineage

/-!
# Requests for block hashes (`handleGetBlockHashesRequestMsg`)

A peer asks for the hashes after a block, at most as many as it names. The number is
unsigned in the message and an `int` for `Descendents`, which caps it from above only and
allocates its result with it, so a number from 2^63 on is negative there and the
allocation panics. For all other numbers the loop of `Descendents` ends: the main list
goes down, where it cannot come back to the block that it started from, and every other
block counts.
-/

namespace TrustNet
set_option autoImplicit false

/-- `GetBlockHashesRequestMsg`. -/
structure GetBlockHashesRequestMsg where
  parentHash : Byte64
  maxBlocks : UInt64

/-- The messages that a request is answered with: `GetBlockHashesResponseMsg` and `GetBlockHashesRewindMsg`. -/
inductive HashesMsg where
  | response (hashes : List Byte64)
  | rewind (hash : Byte64)
  deriving DecidableEq

/-- The hashes of a reply. -/
def HashesMsg.hashes : HashesMsg → List Byte64
  | .response hashes => hashes
  | .rewind _ => []

/-- The errors of the handlers of a peer: `ErrorSyncFailed`, an error of `Send`, or one of the engine. -/
inductive PeerError where
  | syncFailed (msg : String)
  | send (msg : String)
  | engine (e : Err)
  deriving DecidableEq

/-- `int(n)`, on 64 bits. -/
def toInt (n : UInt64) : Int := n.toBitVec.toInt

/-- The size that `Descendents` allocates its result with. -/
def descendentsLimit (max : Int) : Int := min max maxBlocks

/-- `handleGetBlockHashesRequestMsg`, on what `Decode` returned, and with the error of `Send`: the message sent and the
error. `none` is a panic, or a call that does not end. -/
def handleGetBlockHashesRequestMsg {σ : Type} [Database σ] (db : σ) (msg : Except String GetBlockHashesRequestMsg)
    (send : HashesMsg → Option String) : Option (Option HashesMsg × Option PeerError) :=
  match msg with
  | .error e => some (none, some (.syncFailed e))
  | .ok request =>
    match descendents db request.parentHash (toInt request.maxBlocks) with
    | none => none
    | some (blocks, _) =>
      if blocks.length < 1 then
        some (some (.rewind null), (send (.rewind null)).map .send)
      else
        match blocks.mapM (·.hash) with
        | none => none
        | some hashes => some (some (.response hashes), (send (.response hashes)).map .send)

/-! ## The limit -/

theorem toInt_of_small {n : UInt64} (small : n.toNat < 2 ^ 63) : toInt n = n.toNat := by
  unfold toInt
  rw [BitVec.toInt_eq_toNat_of_lt (by rw [UInt64.toNat_toBitVec]; omega), UInt64.toNat_toBitVec]

theorem toInt_of_large {n : UInt64} (large : 2 ^ 63 ≤ n.toNat) : toInt n < 0 := by
  have below := n.toNat_lt
  unfold toInt
  rw [BitVec.toInt_eq_toNat_cond, UInt64.toNat_toBitVec, if_neg (by omega)]
  omega

theorem descendentsLimit_toNat {n : UInt64} (small : n.toNat < 2 ^ 63) :
    0 ≤ descendentsLimit (toInt n) ∧ (descendentsLimit (toInt n)).toNat = min n.toNat 100 := by
  rw [descendentsLimit, maxBlocks, toInt_of_small small]
  omega

/-! ## The loop -/

section Loop

variable {d : Disk} {rank : Byte64 → Nat} {parent : Byte64} {max : Nat}

/-- The list that was found so far. -/
structure Batched (max : Nat) (found : List Block) (count : Nat) : Prop where
  length : found.length = count
  fits : count ≤ max
  hashed : ∀ b ∈ found, b.hash.isSome

/-- What the loop returns. -/
def BatchEnds (max : Nat) (result : Option (List Block × Option Err)) : Prop :=
  ∃ blocks e, result = some (blocks, e) ∧ blocks.length ≤ max ∧ ∀ b ∈ blocks, b.hash.isSome

theorem Batched.ends {found : List Block} {count : Nat} (listed : Batched max found count) (e : Option Err) :
    BatchEnds max (some (found, e)) :=
  ⟨found, e, rfl, listed.length.trans_le listed.fits, listed.hashed⟩

theorem mapM_getBlock_listed {us : List Byte64} {blocks : List Block} (found : us.mapM (getBlock d) = some blocks) :
    blocks.length = us.length ∧ ∀ b ∈ blocks, b.hash.isSome := by
  induction us generalizing blocks with
  | nil =>
    cases found
    exact ⟨rfl, by simp⟩
  | cons u us ih =>
    simp only [List.mapM_cons, Option.bind_eq_bind, Option.bind_eq_some_iff, Option.pure_def, Option.some.injEq] at found
    obtain ⟨b, block, rest, found, rfl⟩ := found
    obtain ⟨length, hashed⟩ := ih found
    refine ⟨by rw [List.length_cons, List.length_cons, length], List.forall_mem_cons.mpr ⟨?_, hashed⟩⟩
    rw [getBlock_hash block]
    rfl

/-- One round: it ends the loop, or goes on with a longer list. A round that adds nothing is at the parent. -/
theorem descendentsFrom_round (n : ChainNode) (fuel : Nat) {found : List Block} {count : Nat}
    (listed : Batched max found count) :
    BatchEnds max (descendentsFrom d parent max (fuel + 1) (some n) found count) ∨
      ∃ found' count', Batched max found' count' ∧ count ≤ count' ∧ (n.hash ≠ parent → count < count') ∧
        descendentsFrom d parent max (fuel + 1) (some n) found count =
          descendentsFrom d parent max fuel (findMainListChild d n none) found' count' := by
  rw [descendentsFrom]
  split
  · exact Or.inl (listed.ends none)
  · cases block : getBlock d n.hash with
    | none => exact Or.inl (listed.ends _)
    | some b =>
      simp only
      split
      · exact Or.inl (listed.ends none)
      · rename_i room
        cases uncles : b.uncles.mapM (getBlock d) with
        | none => exact Or.inl (listed.ends _)
        | some us =>
          obtain ⟨length, hashed⟩ := mapM_getBlock_listed uncles
          have hash := getBlock_hash block
          refine Or.inr ⟨_, _, ⟨?_, ?_, ?_⟩, ?_, ?_, rfl⟩
          · simp only [List.length_append, listed.length]
          · split
            · rw [List.length_nil]
              omega
            · rw [List.length_singleton]
              omega
          · intro b' member
            rcases List.mem_append.mp member with before | own
            · exact (List.mem_append.mp before).elim (listed.hashed b') (hashed b')
            · split at own
              · cases own
              · rw [List.mem_singleton.mp own, hash]
                rfl
          · omega
          · intro ne
            rw [if_neg (by rw [hash]; simpa using ne), List.length_singleton]
            omega

/-- **The loop ends**, below the parent. -/
theorem descendentsFrom_ends (lineage : Lineage rank d) (fuel : Nat) {node : Option ChainNode} {found : List Block}
    {count : Nat} (after : ∀ n, node = some n → rank parent < rank n.hash ∧ n.Before rank)
    (listed : Batched max found count) (enough : max ≤ fuel + count) :
    BatchEnds max (descendentsFrom d parent max fuel node found count) := by
  induction fuel generalizing node found count with
  | zero =>
    cases node with
    | none => exact listed.ends none
    | some n =>
      rw [descendentsFrom, if_pos (by omega)]
      exact listed.ends none
  | succ fuel ih =>
    cases node with
    | none => exact listed.ends none
    | some n =>
      obtain ⟨below, before⟩ := after n rfl
      rcases descendentsFrom_round n fuel listed with ends | ⟨found', count', listed', -, more, eq⟩
      · exact ends
      · have apart : n.hash ≠ parent := by
          intro same
          rw [same] at below
          exact lt_irrefl _ below
        rw [eq]
        refine ih (fun cn child => ?_) listed' (by have := more apart; omega)
        obtain ⟨later, beforeC⟩ := lineage.child_after before child
        exact ⟨below.trans later, beforeC⟩

/-- `Descendents` returns, and keeps to its limit. -/
theorem descendents_ends (lineage : Lineage rank d) (parent : Byte64) {max : Int} (limit : 0 ≤ descendentsLimit max) :
    BatchEnds (descendentsLimit max).toNat (descendents d parent max) := by
  have none' : Batched (descendentsLimit max).toNat [] 0 := ⟨rfl, Nat.zero_le _, by simp⟩
  unfold descendents
  rw [descendentsLimit] at *
  simp only [if_neg (Int.not_lt.mpr limit)]
  cases stored : getChainNode d parent with
  | none => exact none'.ends _
  | some n =>
    simp only
    split
    · exact none'.ends _
    · rcases descendentsFrom_round n _ none' with ends | ⟨found', count', listed', -, -, eq⟩
      · exact ends
      · rw [eq]
        refine descendentsFrom_ends lineage _ (fun cn child => ?_) listed' (Nat.le_add_right _ _)
        have after := lineage.child_after (lineage.before stored) child
        rw [lineage.keyed stored] at after
        exact after

end Loop

/-! ## The handler -/

section Handler

theorem mapM_hash {blocks : List Block} (hashed : ∀ b ∈ blocks, b.hash.isSome) :
    ∃ hashes, blocks.mapM (·.hash) = some hashes ∧ hashes.length = blocks.length := by
  induction blocks with
  | nil => exact ⟨[], rfl, rfl⟩
  | cons b blocks ih =>
    obtain ⟨h, hash⟩ := Option.isSome_iff_exists.mp (hashed b List.mem_cons_self)
    obtain ⟨hashes, eq, length⟩ := ih fun b member => hashed b (List.mem_cons_of_mem _ member)
    exact ⟨h :: hashes, by simp [hash, eq], by simp [length]⟩

/-- A request for 2^63 blocks or more ends in a panic, on every database. -/
theorem large_request_panics (d : Disk) {request : GetBlockHashesRequestMsg} (large : 2 ^ 63 ≤ request.maxBlocks.toNat)
    (send : HashesMsg → Option String) : handleGetBlockHashesRequestMsg d (.ok request) send = none := by
  have negative := toInt_of_large large
  have panics : descendents d request.parentHash (toInt request.maxBlocks) = none := by
    unfold descendents
    exact if_pos (by unfold maxBlocks; omega)
  simp [handleGetBlockHashesRequestMsg, panics]

variable [Sha512] {P : System → Action → Prop} {g : Byte64} {s : System}

/-- A request for fewer blocks is answered. -/
theorem small_request_answered (reached : Reached P g s) {request : GetBlockHashesRequestMsg}
    (small : request.maxBlocks.toNat < 2 ^ 63) (send : HashesMsg → Option String) :
    ∃ reply e, handleGetBlockHashesRequestMsg s.db (.ok request) send = some (some reply, e) ∧
      reply.hashes.length ≤ min request.maxBlocks.toNat 100 := by
  obtain ⟨rank, lineage⟩ := reached.lineage
  obtain ⟨limit, size⟩ := descendentsLimit_toNat small
  obtain ⟨blocks, e, eq, length, hashed⟩ := descendents_ends lineage request.parentHash limit
  obtain ⟨hashes, mapped, same⟩ := mapM_hash hashed
  rw [size, ← same] at length
  unfold handleGetBlockHashesRequestMsg
  simp only [eq, mapped]
  split
  · exact ⟨_, _, rfl, Nat.zero_le _⟩
  · exact ⟨_, _, rfl, length⟩

/-- **Requests for fewer than 2^63 blocks are answered, and all others are not**, in every state that a node can reach:
exactly then the result is allocated with a size that is not negative, and there is a reply, which holds at most the
smaller of the number asked for and 100. -/
theorem hash_request_answered (reached : Reached P g s) (request : GetBlockHashesRequestMsg)
    (send : HashesMsg → Option String) :
    (0 ≤ descendentsLimit (toInt request.maxBlocks) ∧
      ∃ reply e, handleGetBlockHashesRequestMsg s.db (.ok request) send = some (some reply, e) ∧
        reply.hashes.length ≤ min request.maxBlocks.toNat 100) ↔ request.maxBlocks.toNat < 2 ^ 63 := by
  constructor
  · rintro ⟨-, reply, e, answered, -⟩
    by_contra large
    rw [large_request_panics s.db (Nat.le_of_not_lt large) send] at answered
    cases answered
  · intro small
    exact ⟨(descendentsLimit_toNat small).1, small_request_answered reached small send⟩

end Handler

section Worked

attribute [local instance] workedSha512

theorem hash_request_answered_reorganise :
    let s := (System.boot 1 1 [7]).run Worked.reorganise
    let request : GetBlockHashesRequestMsg := ⟨digest genesisDigest, 5⟩
    ∃ hashes, handleGetBlockHashesRequestMsg s.db (.ok request) (fun _ => none) = some (some (.response hashes), none) ∧
      hashes = [digest rightDigest, digest rightChildDigest] ∧ hashes.length ≤ min 5 100 := by
  intro s request
  have reached : Reached RebaseOk (genesisHash 1 1) s := Worked.reorganise_reached.1
  have run : handleGetBlockHashesRequestMsg s.db (.ok request) (fun _ => none) =
      some (some (.response [digest rightDigest, digest rightChildDigest]), none) := by decide +kernel
  obtain ⟨-, reply, e, eq, length⟩ := (hash_request_answered reached request fun _ => none).mpr (by decide)
  rw [run] at eq
  cases eq
  exact ⟨_, run, rfl, length⟩

/-- A node that has just started crashes when it is asked for 2^63 blocks after genesis. -/
theorem Worked.huge_request_panics :
    let s := System.boot 1 1 [7]
    let request : GetBlockHashesRequestMsg := ⟨digest genesisDigest, 9223372036854775808⟩
    Reached (fun _ _ => True) (genesisHash 1 1) s ∧ descendentsLimit (toInt request.maxBlocks) = -9223372036854775808 ∧
      handleGetBlockHashesRequestMsg s.db (.ok request) (fun _ => none) = none := by
  intro s request
  refine ⟨⟨1, 1, [7], [], Worked.started, rfl, Transition.along_true _ _, rfl⟩, by decide, ?_⟩
  exact large_request_panics s.db (by decide) fun _ => none

end Worked

end TrustNet
