import TrustNet.Common.TimeBound
import TrustNet.Consensus.Block

/-!
# The nonce search against the clock

`computeHash` of `Block.lean` takes the number of hashes that its search completes. In the
source the search is the method of a `RunTimeBound`, so there are two goroutines, and the search
is not stopped when the time is over. `computeHashTimed` is `computeHash` in these terms, with
any interleaving of the two. What it returns, and the block if there is a hash, is what
`computeHash` says for some number of tries, and every number can come about. After a timeout
the search goes on, with the nonce of the block.
-/

namespace TrustNet
set_option autoImplicit false

/-! ## The two goroutines -/

/-- Where the loop is: at its head, before the hash, before the check. -/
inductive SearchPoint where
  | head
  | hashing
  | checking

/-- The variables of the loop: `b.NONCE`, `nonce`, `hash` and `isPoWDone`. -/
structure Search where
  blockNonce : UInt64
  nonce : UInt64
  hash : Byte64
  isPoWDone : Bool
  point : SearchPoint

/-- `ERR_HASH_INCORRECT` and `ERR_HASH_TIMEOUT`. -/
inductive SearchError where
  | hashIncorrect (msg : String)
  | hashTimeout (msg : String)

def Search.start (nonce : UInt64) : Search := ⟨nonce, nonce, null, false, .head⟩

section Model

variable [Sha512]

/-- The next access of the loop. -/
def Search.step (data : Bytes) (pow : Option PowApprover) (ts delta : UInt64) (isNetworkBlock : Bool) (s : Search) :
    Search × Option (Option SearchError) :=
  match s.point with
  | .head =>
    if s.isPoWDone then (s, some none)
    else ({ s with blockNonce := s.nonce, nonce := s.nonce + 1, point := .hashing }, none)
  | .hashing => ({ s with hash := sum512 (data ++ uint64Bytes s.blockNonce), point := .checking }, none)
  | .checking =>
    let isPoWDone := match pow with
      | some approve => approve s.hash.bytes ts delta
      | none => true
    let s := { s with isPoWDone, point := .head }
    if !isPoWDone && isNetworkBlock then (s, some (some (.hashIncorrect "invalid hash on network block"))) else (s, none)

variable {σ : Type} [Database σ]

/-- `computeHash`, after the events of its two goroutines: the block and the result, when it has returned. -/
def Block.computeHashTimed (b : Block) (db : σ) (order : List Entry) (events : List TimeBoundEvent) :
    σ × Option (Block × Option Byte64) :=
  match b.commitState db order with
  | (db, b) =>
    let state := (b.worldState.map (·.rootHash)).getD b.state
    let t := (TimeBound.start (Search.start b.nonce)).run
      (Search.step (b.preimage state) b.pow b.ts b.delta b.isNetworkBlock) (.hashTimeout "compute hash timeout") events
    let s := t.worker.vars
    (db, match t.caller with
      | .returned none => some ({ b with nonce := s.blockNonce, hash := some s.hash }, some s.hash)
      | .returned (some _) => some ({ b with nonce := s.blockNonce }, none)
      | _ => none)

end Model

/-! ## The search -/

section Search

variable [Sha512] (data : Bytes) (pow : Option PowApprover) (ts delta : UInt64) (isNetworkBlock : Bool)

/-- The search from nonce `first` is under way: `k` nonces were rejected, and with more tries it goes on as `searchNonce`
does. -/
inductive Search.Going (first : UInt64) : Search → Prop where
  | head (k : Nat) (last nonce : UInt64) (hash : Byte64)
      (rest : ∀ t, searchNonce data pow ts delta isNetworkBlock (k + t) first first =
        searchNonce data pow ts delta isNetworkBlock t last nonce) : Going first ⟨last, nonce, hash, false, .head⟩
  | hashing (k : Nat) (last nonce : UInt64) (hash : Byte64)
      (rest : ∀ t, searchNonce data pow ts delta isNetworkBlock (k + t) first first =
        searchNonce data pow ts delta isNetworkBlock t last nonce) : Going first ⟨nonce, nonce + 1, hash, false, .hashing⟩
  | checking (k : Nat) (last nonce : UInt64)
      (rest : ∀ t, searchNonce data pow ts delta isNetworkBlock (k + t) first first =
        searchNonce data pow ts delta isNetworkBlock t last nonce) :
      Going first ⟨nonce, nonce + 1, sum512 (data ++ uint64Bytes nonce), false, .checking⟩
  | found (k : Nat) (nonce : UInt64) (hash : Byte64)
      (found : searchNonce data pow ts delta isNetworkBlock k first first = (nonce, some hash)) :
      Going first ⟨nonce, nonce + 1, hash, true, .head⟩

/-- The search has ended as `searchNonce` does. -/
def Search.Gone (first : UInt64) (s : Search) (result : Option SearchError) : Prop :=
  ∃ k, searchNonce data pow ts delta isNetworkBlock k first first =
    (s.blockNonce, match result with
      | none => some s.hash
      | some _ => none)

/-- A try that is approved, one that fails for a network block, and one after which the search goes on. -/
theorem searchNonce_succ (t : Nat) (last nonce : UInt64) :
    let hash := sum512 (data ++ uint64Bytes nonce)
    let approved := match pow with
      | some approve => approve hash.bytes ts delta
      | none => true
    searchNonce data pow ts delta isNetworkBlock (t + 1) last nonce =
      if approved then (nonce, some hash)
      else if isNetworkBlock then (nonce, none)
      else searchNonce data pow ts delta isNetworkBlock t nonce (nonce + 1) := rfl

variable {data pow ts delta isNetworkBlock} {first : UInt64} {s s' : Search}

/-- One access keeps the search under way, or ends it. -/
theorem Search.Going.step (going : s.Going data pow ts delta isNetworkBlock first) :
    (∀ {s'}, s.step data pow ts delta isNetworkBlock = (s', none) → s'.Going data pow ts delta isNetworkBlock first) ∧
      ∀ {s' result}, s.step data pow ts delta isNetworkBlock = (s', some result) →
        s'.Gone data pow ts delta isNetworkBlock first result := by
  cases going with
  | head k last nonce hash rest =>
    refine ⟨fun eq => ?_, fun eq => ?_⟩
    · cases eq
      exact .hashing k last nonce hash rest
    · cases eq
  | hashing k last nonce hash rest =>
    refine ⟨fun eq => ?_, fun eq => ?_⟩
    · cases eq
      exact .checking k last nonce rest
    · cases eq
  | checking k last nonce rest =>
    have tries : ∀ t, _ := fun t => (rest (t + 1)).trans (searchNonce_succ data pow ts delta isNetworkBlock t last nonce)
    simp only [Search.step] at tries ⊢
    generalize (match pow with
      | some approve => approve (sum512 (data ++ uint64Bytes nonce)).bytes ts delta
      | none => true) = approved at tries ⊢
    cases approved with
    | true =>
      refine ⟨fun eq => ?_, fun eq => ?_⟩
      · cases eq
        exact .found (k + 1) nonce _ (tries 0)
      · cases eq
    | false =>
      cases isNetworkBlock with
      | true =>
        refine ⟨fun eq => ?_, fun eq => ?_⟩
        · cases eq
        · cases eq
          exact ⟨k + 1, tries 0⟩
      | false =>
        refine ⟨fun eq => ?_, fun eq => ?_⟩
        · cases eq
          refine .head (k + 1) nonce (nonce + 1) _ fun t => ?_
          rw [Nat.add_assoc, Nat.add_comm 1 t]
          exact tries t
        · cases eq
  | found k nonce hash found =>
    refine ⟨fun eq => ?_, fun eq => ?_⟩
    · cases eq
    · cases eq
      exact ⟨k, found⟩

/-- Every run of the search under a time bound. -/
theorem search_bounded (data : Bytes) (pow : Option PowApprover) (ts delta : UInt64) (isNetworkBlock : Bool) (first : UInt64)
    (timeoutError : SearchError) (events : List TimeBoundEvent) :
    TimeBound.Bounded (Search.Going data pow ts delta isNetworkBlock first) (Search.Gone data pow ts delta isNetworkBlock first)
      timeoutError
      ((TimeBound.start (Search.start first)).run (Search.step data pow ts delta isNetworkBlock) timeoutError events) := by
  refine TimeBound.bounded_run (fun going eq => going.step.1 eq) (fun going eq => going.step.2 eq) ?_ events
  exact .head 0 first first null fun t => by rw [Nat.zero_add]

/-- Events with which the search makes `tries` tries, at most, and the caller returns what comes of them. -/
theorem search_completes (data : Bytes) (pow : Option PowApprover) (ts delta : UInt64) (isNetworkBlock : Bool)
    (timeoutError : SearchError) (tries : Nat) (last nonce : UInt64) (hash : Byte64) :
    ∃ (events : List TimeBoundEvent) (err : Option SearchError),
      let t := TimeBound.run (Search.step data pow ts delta isNetworkBlock) timeoutError
        (TimeBound.start ⟨last, nonce, hash, false, .head⟩) events
      t.caller = .returned err ∧ searchNonce data pow ts delta isNetworkBlock tries last nonce =
        (t.worker.vars.blockNonce, match err with
          | none => some t.worker.vars.hash
          | some _ => none) := by
  induction tries generalizing last nonce hash with
  | zero => exact ⟨[.expire, .leave], some timeoutError, rfl, rfl⟩
  | succ tries ih =>
    have tried := searchNonce_succ data pow ts delta isNetworkBlock tries last nonce
    dsimp only at tried ⊢
    generalize verdict : (match pow with
      | some approve => approve (sum512 (data ++ uint64Bytes nonce)).bytes ts delta
      | none => true) = approved at tried
    rw [tried]
    cases approved with
    | true =>
      refine ⟨[.work, .work, .work, .work, .assign, .done, .leave], none, ?_⟩
      simp [Transition.run, TimeBound.start, TimeBound.next, Search.step, verdict, Worker.vars]
    | false =>
      cases isNetworkBlock with
      | true =>
        refine ⟨[.work, .work, .work, .assign, .done, .leave], some (.hashIncorrect "invalid hash on network block"), ?_⟩
        simp [Transition.run, TimeBound.start, TimeBound.next, Search.step, verdict, Worker.vars]
      | false =>
        obtain ⟨events, err, found⟩ := ih nonce (nonce + 1) (sum512 (data ++ uint64Bytes nonce))
        refine ⟨.work :: .work :: .work :: events, err, ?_⟩
        simpa [Transition.run_cons, TimeBound.start, TimeBound.next, Search.step, verdict] using found

end Search

/-! ## `computeHash` -/

section Timed

variable [Sha512] {σ : Type} [Database σ]

/-- **The search against the clock.** In every interleaving of the two goroutines `computeHash` returns what it does for
some number of tries, and so is the block, up to the nonce if there is no hash. Every number of tries can come about. After
the return nothing changes but the nonce, and not even that if there is a hash. -/
theorem computeHash_timed (b : Block) (db : σ) (order : List Entry) :
    (∀ events db' b' h, b.computeHashTimed db order events = (db', some (b', h)) →
      ∃ tries nonce, b.computeHash db order tries = (db', { b' with nonce }, h) ∧ (h.isSome = true → nonce = b'.nonce)) ∧
    (∀ tries, ∃ events, b.computeHashTimed db order events =
      ((b.computeHash db order tries).1, some (b.computeHash db order tries).2)) ∧
    ∀ events db' b' h, b.computeHashTimed db order events = (db', some (b', h)) → ∀ more,
      ∃ nonce, b.computeHashTimed db order (events ++ more) = (db', some ({ b' with nonce }, h)) ∧
        (h.isSome = true → nonce = b'.nonce) := by
  unfold Block.computeHashTimed Block.computeHash
  generalize b.commitState db order = committed
  obtain ⟨db₁, b₁⟩ := committed
  dsimp only
  generalize b₁.preimage ((b₁.worldState.map (·.rootHash)).getD b₁.state) = data
  generalize timeout : SearchError.hashTimeout "compute hash timeout" = timeoutError
  have bounded := search_bounded data b₁.pow b₁.ts b₁.delta b₁.isNetworkBlock b₁.nonce timeoutError
  refine ⟨fun events db' b' h eq => ?_, fun tries => ?_, fun events db' b' h eq more => ?_⟩
  · have bounded := bounded events
    generalize TimeBound.run (Search.step data b₁.pow b₁.ts b₁.delta b₁.isNetworkBlock) timeoutError
      (TimeBound.start (Search.start b₁.nonce)) events = t at bounded eq
    rw [Prod.mk.injEq] at eq
    obtain ⟨rfl, eq⟩ := eq
    split at eq
    · rename_i returned
      cases eq
      rcases bounded.returned returned with timedOut | ⟨⟨tries, found⟩, -⟩
      · cases timedOut
      · refine ⟨tries, t.worker.vars.blockNonce, ?_, fun _ => rfl⟩
        rw [found]
    · cases eq
      exact ⟨0, b₁.nonce, rfl, nofun⟩
    · cases eq
  · obtain ⟨events, err, returned, found⟩ :=
      search_completes data b₁.pow b₁.ts b₁.delta b₁.isNetworkBlock timeoutError tries b₁.nonce b₁.nonce null
    change (TimeBound.run (Search.step data b₁.pow b₁.ts b₁.delta b₁.isNetworkBlock) timeoutError
      (TimeBound.start (Search.start b₁.nonce)) events).caller = _ at returned
    refine ⟨events, ?_⟩
    rw [found, returned]
    cases err with
    | none => rfl
    | some e => rfl
  · have bounded := bounded events
    unfold TimeBound.run at eq bounded ⊢
    rw [Transition.run_append]
    generalize Transition.run (TimeBound.next (Search.step data b₁.pow b₁.ts b₁.delta b₁.isNetworkBlock) timeoutError)
      (TimeBound.start (Search.start b₁.nonce)) events = t at bounded eq ⊢
    rw [Prod.mk.injEq] at eq
    obtain ⟨rfl, eq⟩ := eq
    split at eq
    · rename_i returned
      cases eq
      rcases bounded.returned returned with timedOut | ⟨-, ended⟩
      · cases timedOut
      · have later : (t.run (Search.step data b₁.pow b₁.ts b₁.delta b₁.isNetworkBlock) timeoutError more).Over t.worker.vars :=
          ended.run more
        rw [TimeBound.returned_run returned more, later.vars]
        exact ⟨_, rfl, fun _ => rfl⟩
    · rename_i e returned
      cases eq
      rw [TimeBound.returned_run returned more]
      exact ⟨_, rfl, nofun⟩
    · cases eq

end Timed

end TrustNet
