import TrustNet.Consensus.Steps

/-!
# The blocks in hand

A block comes into the hands of the application from the network or as a candidate.
From then on it keeps its parent, depth, weight and uncles: calls change its overlay,
its state, nonce and hash, and `AddTransaction` appends a transaction that the index
does not have.
-/

namespace TrustNet
set_option autoImplicit false

/-- A call worked on the block and left its wire fields, apart from state and nonce. -/
structure WorkedOn (b b' : Block) : Prop where
  wire : ∃ state nonce, b'.toBlockSpec = { b.toBlockSpec with state, nonce }
  network : b'.isNetworkBlock = b.isNetworkBlock

variable [Sha512]

/-- How block `j` came to be in hand after a call. -/
inductive HandAfter (s : System) (a : Action) (j : Nat) (b' : Block) : Prop where
  | decoded (spec : BlockSpec) (call : a = .decode j spec) (wire : b'.toBlockSpec = spec)
      (network : b'.isNetworkBlock = true)
  | candidate (now : UInt64) (c : BlockChainConsensus) (d' : Disk) (call : a = .candidate j now)
      (engine : s.engine = some c) (made : newCandidateBlock c s.db now = (d', some b'))
  | filled (b : Block) (tx : Transaction) (block : s.blocks j = some b) (call : a = .addTransaction j tx)
      (unknown : hasTransaction s.db tx.id = none) (wire : b'.toBlockSpec = { b.toBlockSpec with txs := b.txs ++ [tx] })
      (network : b'.isNetworkBlock = b.isNetworkBlock)
  | worked (b : Block) (block : s.blocks j = some b) (same : WorkedOn b b')

omit [Sha512] in
theorem WorkedOn.refl (b : Block) : WorkedOn b b := ⟨⟨b.state, b.nonce, rfl⟩, rfl⟩

theorem Hashed.workedOn {d d₁ : Disk} {b child : Block} {ws₀ ws : MptWorldState} {order : List Entry}
    {inputs : List Bytes} (hashed : Hashed d b ws₀ order inputs d₁ child ws) : WorkedOn b child := by
  refine ⟨hashed.body_spec, ?_⟩
  obtain ⟨_, _, _, _, _, rfl⟩ := hashed.body
  rfl

section Cases

variable {s : System} {a : Action} {i j : Nat} {b b' : Block}

theorem HandAfter.kept (block : s.blocks j = some b') : HandAfter s a j b' := .worked b' block (WorkedOn.refl b')

/-- A call that put `b` into hand. -/
theorem HandAfter.of_setBlock {d : Disk} (put : HandAfter s a i b)
    (found : (({ s with db := d } : System).setBlock i (some b)).blocks j = some b') : HandAfter s a j b' := by
  by_cases eq : j = i
  · subst eq
    simp only [System.setBlock, Function.update_self, Option.some.injEq] at found
    exact found ▸ put
  · simp only [System.setBlock, Function.update_of_ne eq] at found
    exact .kept found

/-- A call that worked on `b` and did not submit it. -/
theorem HandAfter.of_finish {b₀ : Block} {d : Disk} {outcome : Outcome} (block : s.blocks i = some b₀)
    (same : WorkedOn b₀ b) (found : (s.finish i d b outcome).1.blocks j = some b') : HandAfter s a j b' := by
  cases outcome with
  | ok => exact HandAfter.of_setBlock (.worked b₀ block same) found
  | error e => exact HandAfter.of_setBlock (.worked b₀ block same) found
  | panic => cases found

theorem HandAfter.of_submitted {b₀ : Block} {c : BlockChainConsensus} {d : Disk} {outcome : Outcome}
    (block : s.blocks i = some b₀) (same : WorkedOn b₀ b)
    (found : (s.submitted i c d b outcome).1.blocks j = some b') : HandAfter s a j b' := by
  rcases submitted_block found with ⟨-, old⟩ | ⟨rfl, rfl, -⟩
  · exact .kept old
  · exact .worked b₀ block same

end Cases

omit [Sha512] in
theorem lookup_workedOn (b : Block) (d : Disk) (key : Bytes) : WorkedOn b (b.lookup d key).1 := by
  obtain ⟨vars, eq⟩ := lookup_vars b d key
  rw [eq]
  exact ⟨⟨b.state, b.nonce, rfl⟩, rfl⟩

/-- `AddTransaction` leaves the block, or appends a transaction that the index does not have. -/
theorem addTransaction_cases (b : Block) (d : Disk) (tx : Transaction) :
    (b.addTransaction d tx).1 = b ∨ (hasTransaction d tx.id = none ∧ (b.addTransaction d tx).2 = .ok ∧
      (b.addTransaction d tx).1 = { b with transactions := insert tx.id b.transactions, txs := b.txs ++ [tx] }) := by
  unfold Block.addTransaction
  split
  · exact Or.inl rfl
  · split
    · exact Or.inl rfl
    · rename_i unknown
      split
      · exact Or.inl rfl
      · exact Or.inr ⟨by simpa using unknown, rfl, rfl⟩

section Hands

variable {s : System} {j : Nat} {b' : Block}

theorem hand_after_decode (ready : SystemReady s) {i : Nat} {spec : BlockSpec}
    (found : (s.next (.decode i spec)).blocks j = some b') : HandAfter s (.decode i spec) j b' := by
  unfold System.next at found
  simp only [System.step] at found
  split at found
  · exact .kept found
  · rcases decodeNetworkBlockSpec_cases ready.log spec with
      ⟨b', e, -, eq⟩ | ⟨parent, eq, -, -⟩ | ⟨parent, d', t, miners, valid, rebased, eq⟩
    · rw [eq] at found
      exact .kept found
    · rw [eq] at found
      exact .kept found
    · rw [eq] at found
      by_cases same : j = i
      · subst same
        simp only [System.setBlock, Function.update_self, Option.some.injEq] at found
        subst found
        exact .decoded spec rfl rfl rfl
      · simp only [System.setBlock, Function.update_of_ne same] at found
        exact .kept found

theorem hand_after_candidate {i : Nat} {now : UInt64}
    (found : (s.next (.candidate i now)).blocks j = some b') : HandAfter s (.candidate i now) j b' := by
  unfold System.next at found
  simp only [System.step] at found
  split at found
  · exact .kept found
  · rename_i c engine
    by_cases same : j = i
    · subst same
      simp only [System.setBlock, Function.update_self] at found
      exact .candidate now c _ rfl engine (Prod.ext rfl found)
    · simp only [System.setBlock, Function.update_of_ne same] at found
      exact .kept found

theorem hand_after_update {i : Nat} {key value : Bytes}
    (found : (s.next (.update i key value)).blocks j = some b') : HandAfter s (.update i key value) j b' := by
  unfold System.next at found
  simp only [System.step, System.onBlock] at found
  split at found
  · rename_i c b _ block
    have same : WorkedOn b (b.update key value) := ⟨⟨b.state, b.nonce, rfl⟩, rfl⟩
    exact .of_finish block same found
  · exact .kept found

theorem hand_after_delete {i : Nat} {key : Bytes}
    (found : (s.next (.delete i key)).blocks j = some b') : HandAfter s (.delete i key) j b' := by
  unfold System.next at found
  simp only [System.step, System.onBlock] at found
  split at found
  · rename_i c b _ block
    have same : WorkedOn b (b.delete key) := ⟨⟨b.state, b.nonce, rfl⟩, rfl⟩
    exact .of_finish block same found
  · exact .kept found

theorem hand_after_lookup {i : Nat} {key : Bytes}
    (found : (s.next (.lookup i key)).blocks j = some b') : HandAfter s (.lookup i key) j b' := by
  unfold System.next at found
  simp only [System.step, System.onBlock] at found
  split at found
  · rename_i c b _ block
    have same := lookup_workedOn b s.db key
    generalize b.lookup s.db key = result at same found
    obtain ⟨b₁, reply⟩ := result
    cases reply with
    | value v => exact .of_finish block same found
    | error e => exact .of_finish block same found
    | panic => cases found
  · exact .kept found

theorem hand_after_addTransaction {i : Nat} {tx : Transaction}
    (found : (s.next (.addTransaction i tx)).blocks j = some b') : HandAfter s (.addTransaction i tx) j b' := by
  unfold System.next at found
  simp only [System.step, System.onBlock] at found
  split at found
  · rename_i c b _ block
    rcases addTransaction_cases b s.db tx with same | ⟨unknown, ok, filled⟩
    · rw [same] at found
      exact .of_finish block (.refl b) found
    · rw [ok, filled] at found
      by_cases same : j = i
      · subst same
        simp only [System.finish, System.setBlock, Function.update_self, Option.some.injEq] at found
        subst found
        exact .filled b tx block rfl unknown rfl rfl
      · simp only [System.finish, System.setBlock, Function.update_of_ne same] at found
        exact .kept found
  · exact .kept found

theorem hand_after_checkPoW (ready : SystemReady s) {i : Nat} {apprvr : PowApprover} {order : List Entry} {tries : Nat}
    (found : (s.next (.checkPoW i apprvr order tries)).blocks j = some b') : HandAfter s (.checkPoW i apprvr order tries) j b' := by
  unfold System.next at found
  simp only [System.step, System.onBlock] at found
  split at found
  · rename_i c b _ block
    split at found
    · obtain ⟨ws₀, state, ok⟩ := ready.blocks i b block
      rcases checkNetworkBlockPoW_cases ready.log state ok apprvr order tries with
        ⟨e, eq⟩ | ⟨d₁, child, ws, outcome, hashed, -, eq⟩
      · rw [eq] at found
        exact .of_finish block (.refl b) found
      · rw [eq] at found
        exact .of_finish block hashed.workedOn found
    · exact .kept found
  · exact .kept found

theorem hand_after_accept (ready : SystemReady s) {i : Nat} {order : List Entry} {tries : Nat}
    (found : (s.next (.accept i order tries)).blocks j = some b') : HandAfter s (.accept i order tries) j b' := by
  unfold System.next at found
  simp only [System.step, System.onBlock] at found
  split at found
  · rename_i c b engine block
    split at found
    · obtain ⟨ws₀, state, ok⟩ := ready.blocks i b block
      rcases acceptNetworkBlock_cases ready.log state ok (ready.engine c engine).1 order tries with
        ⟨e, miners, -, eq⟩ | ⟨parent, d₁, child, ws, valid, hashed, ⟨e, -, eq⟩ | ⟨root, c', d', outcome, result, eq⟩⟩
      · rw [eq] at found
        have same : WorkedOn b { b with uncleMiners := miners } := ⟨⟨b.state, b.nonce, rfl⟩, rfl⟩
        exact .of_submitted block same found
      · rw [eq] at found
        exact .of_submitted block hashed.workedOn found
      · rw [eq] at found
        exact .of_submitted block hashed.workedOn found
    · exact .kept found
  · exact .kept found

theorem hand_after_mine (ready : SystemReady s) {i : Nat} {apprvr : Option PowApprover} {order : List Entry} {tries : Nat}
    (found : (s.next (.mine i apprvr order tries)).blocks j = some b') : HandAfter s (.mine i apprvr order tries) j b' := by
  unfold System.next at found
  simp only [System.step, System.onBlock] at found
  split at found
  · rename_i c b engine block
    split at found
    · rename_i own
      obtain ⟨ws₀, state, ok⟩ := ready.blocks i b block
      rcases mineCandidateBlock_cases ready.log state ok (ready.engine c engine).1 own.1 apprvr order tries with
        ⟨e, miners, pow, -, eq⟩ | ⟨parent, d₁, child, ws, valid, hashed, ⟨e, -, eq⟩ | ⟨root, c', d', outcome, result, eq⟩⟩
      · rw [eq] at found
        have same : WorkedOn b { b with uncleMiners := miners, pow } := ⟨⟨b.state, b.nonce, rfl⟩, rfl⟩
        exact .of_submitted block same found
      · rw [eq] at found
        exact .of_submitted block hashed.workedOn found
      · rw [eq] at found
        exact .of_submitted block hashed.workedOn found
    · exact .kept found
  · exact .kept found

theorem hand_after_block {h : Byte64}
    (found : (s.next (.block h)).blocks j = some b') : HandAfter s (.block h) j b' := by
  unfold System.next at found
  simp only [System.step] at found
  split at found
  · exact .kept found
  · split at found
    · exact .kept found
    · exact .kept found

theorem hand_after_bestBlock
    (found : (s.next .bestBlock).blocks j = some b') : HandAfter s .bestBlock j b' := by
  unfold System.next at found
  simp only [System.step] at found
  split at found
  · exact .kept found
  · exact .kept found

theorem hand_after_restart {genesisTime now : UInt64} {minerId : Bytes}
    (found : (s.next (.restart genesisTime now minerId)).blocks j = some b') : HandAfter s (.restart genesisTime now minerId) j b' := by
  unfold System.next at found
  simp [System.step, System.restart] at found

end Hands

/-- **How a block came to be in hand.** -/
theorem hand_after {s : System} (ready : SystemReady s) {a : Action} {j : Nat} {b' : Block}
    (found : (s.next a).blocks j = some b') : HandAfter s a j b' := by
  cases a with
  | decode i spec => exact hand_after_decode ready found
  | candidate i now => exact hand_after_candidate found
  | update i key value => exact hand_after_update found
  | delete i key => exact hand_after_delete found
  | lookup i key => exact hand_after_lookup found
  | addTransaction i tx => exact hand_after_addTransaction found
  | checkPoW i apprvr order tries => exact hand_after_checkPoW ready found
  | accept i order tries => exact hand_after_accept ready found
  | mine i apprvr order tries => exact hand_after_mine ready found
  | block h => exact hand_after_block found
  | bestBlock => exact hand_after_bestBlock found
  | restart genesisTime now minerId => exact hand_after_restart found

end TrustNet
