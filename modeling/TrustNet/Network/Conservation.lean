import TrustNet.Network.Knowledge

/-!
# The supply is conserved by whole calls

Every block that a platform stores was in the hands of its producer or of a handler, with
the rewards in its overlay. So the state of each block has the supply of its parent's state
and the rewards, on every fork. A block with rewards has something to write, so its state
is there when it is made the tip, and the engine never falls behind its tip.

`payments` is what the goroutines know of the rewards in their blocks, and `Supplied` is
what holds of a platform between two events.
-/

namespace TrustNet
set_option autoImplicit false
open ParentTree (Anc)

/-! ## Payments -/

section Payments

variable [Sha512] [Outside] {cfg : Config} {g : Byte64} {s : System} {k : Nat} {b : Block} {p : Platform} {e : Event}

omit [Outside] in
/-- `CheckNetworkBlockPoW`. -/
theorem check_paidOut {apprvr : PowApprover} {order : List Entry} {tries : Nat} (reached : Reached RebaseOk g s)
    (block : s.blocks k = some b) (paid : Paid s.db b) (outcome : (s.step (.checkPoW k apprvr order tries)).2 = some .ok)
    (sound : HashSound (Known (s.next (.checkPoW k apprvr order tries)).db)) :
    ∃ b', (s.next (.checkPoW k apprvr order tries)).blocks k = some b' ∧
      PaidOut (s.next (.checkPoW k apprvr order tries)).db b' := by
  obtain ⟨ws₀, inputs, d₁, child, ws, state, perm, hashed, next⟩ := check_hashed reached block outcome
  rw [next] at sound ⊢
  exact ⟨child, Function.update_self _ _ _, hashed.paidOut (Or.inl paid) state perm sound⟩

/-- What goroutines know of the rewards in their blocks. -/
def payments (cfg : Config) : Knowledge where
  opened d b := ∃ ws T, Opened d b ws T ∧ b.vars = ∅ ∧ b.miner = cfg.trustee.myAddress ∧ ∀ uncle ∈ b.uncleMiners, uncle ≠ []
  filled d _ b := Paid d b
  full d b := Paid d b
  decoded d b := ∃ ws T, Opened d b ws T ∧ b.vars = ∅
  verified d _ b := Paid d b
  checked d b := PaidOut d b

theorem payments_lasts (cfg : Config) : (payments cfg).Lasts where
  opened := by
    rintro d d' b later ⟨ws, T, opened, rest⟩
    exact ⟨ws, T, opened.later later, rest⟩
  filled later paid := Paid.later paid later
  full later paid := Paid.later paid later
  decoded := by
    rintro d d' b later ⟨ws, T, opened, rest⟩
    exact ⟨ws, T, opened.later later, rest⟩
  verified later paid := Paid.later paid later
  checked later paidOut := PaidOut.later paidOut later

end Payments

/-! ## Events -/

section Events

variable [Sha512] [Outside] {cfg : Config} {g : Byte64} {p p' : Platform} {e : Event}

/-- What holds of a platform between two events. -/
structure Supplied (cfg : Config) (g : Byte64) (p : Platform) : Prop where
  reached : Reached RebaseOk g p.sys
  miner : ∀ c, p.sys.engine = some c → c.minerId = cfg.trustee.myAddress
  genesis : ∃ spec ws, getSpec p.sys.db g = some spec ∧ spec.state = ws.rootHash ∧ Holds p.sys.db ws (PathMap.single [])
  minted : ∀ h spec, getSpec p.sys.db h = some spec → h ≠ g → Minted p.sys.db spec
  hands : ∀ k t, p.threads k = some t → t.Suits (payments cfg) p.sys.db (p.sys.blocks k)

theorem Supplied.hand {k : Nat} {order : List Entry} {a : Action} (supplied : Supplied cfg g p)
    (submits : Submits cfg p e k order a) (b : Block) (block : p.sys.blocks k = some b) :
    Paid p.sys.db b ∨ PaidOut p.sys.db b := by
  cases submits with
  | mine _ _ tries q thread phase =>
    have suits := supplied.hands k _ thread
    simp only [Thread.Suits, phase, Phase.Suits, block, Option.some.injEq] at suits
    obtain ⟨b', rfl, paid⟩ := suits
    exact Or.inl paid
  | accept _ _ tries thread =>
    have suits := supplied.hands k _ thread
    simp only [Thread.Suits, Stage.Suits, block, Option.some.injEq] at suits
    obtain ⟨b', rfl, paidOut⟩ := suits
    exact Or.inr paidOut

/-- The engine after an event, and what is stored. -/
theorem Supplied.stored (supplied : Supplied cfg g p) (e : Event)
    (sound : HashSound (Known (Platform.step cfg p e).sys.db)) :
    Leads RebaseOk p.sys (Platform.step cfg p e).sys ∧
      (∀ c, (Platform.step cfg p e).sys.engine = some c → c.minerId = cfg.trustee.myAddress) ∧
      ∀ h spec, getSpec (Platform.step cfg p e).sys.db h = some spec → h ≠ g →
        Minted (Platform.step cfg p e).sys.db spec := by
  have ready := supplied.reached.ready
  have finish : Leads RebaseOk p.sys (Platform.step cfg p e).sys →
      (∀ h spec, getSpec (Platform.step cfg p e).sys.db h = some spec → getSpec p.sys.db h = some spec ∨
        Minted (Platform.step cfg p e).sys.db spec) →
      ∀ h spec, getSpec (Platform.step cfg p e).sys.db h = some spec → h ≠ g →
        Minted (Platform.step cfg p e).sys.db spec := by
    intro leads origins h spec found ne
    have later := leads.later supplied.reached sound
    rcases origins h spec found with old | new
    · exact (supplied.minted h spec old ne).kept later.grow later.specs
    · exact new
  rcases step_leads supplied.reached e with quiet | ⟨k, order, a, submits, next⟩
  · obtain ⟨leads, records, miner⟩ := quiet.quiet ready supplied.miner
    refine ⟨leads, miner, finish leads fun h spec found => Or.inl ?_⟩
    rw [← records.spec]
    exact found
  · have submit := submits.submit ready
    have hand := supplied.hand submits
    rw [next] at sound ⊢
    have leads : Leads RebaseOk p.sys (p.sys.next a) := by
      refine .call ?_
      have fine := submit.rebases hand sound
      unfold RebaseOk rebaseFails
      split
      · rename_i msg outcome
        exact absurd outcome (fine msg)
      · simp
    rw [next] at finish
    refine ⟨leads, submit.miner supplied.miner, finish leads fun h spec found => ?_⟩
    exact submit.minted hand sound (leads.later supplied.reached sound).specs found

/-- The calls of an event keep the rewards. -/
theorem Supplied.payments_kept (supplied : Supplied cfg g p) (works : Outside.Works)
    (spares : ∀ tx, (cfg.txProcessor tx).Spares IsAccount) (later : Later p.sys.db p'.sys.db)
    (sound : HashSound (Known p'.sys.db)) : (payments cfg).Kept cfg p e p' := by
  have sound₀ : HashSound (Known p.sys.db) := sound.of_suffix later.grow
  constructor
  case candidate =>
    intro k now b next made
    rw [next] at made sound ⊢
    exact candidate_opened supplied.reached supplied.miner (fun h spec found other => (supplied.minted h spec found other).1)
      made sound
  case rewarded =>
    rintro k order nonce now b b₁ reward - - ⟨ws, T, opened, empty, miner, named⟩ built
    exact (opened.reward works sound₀ empty named miner built).addTransaction reward
  case approved =>
    intro tx b b₁ paid processed
    exact Paid.script paid sound₀ (spares tx) processed
  case rejected =>
    intro k q tx b b₁ _ _ _ _ paid processed
    exact Paid.script paid sound₀ (spares tx) processed
  case added =>
    intro k q tx b _ _ _ _ paid
    exact ⟨Paid.addTransaction paid tx, Paid.addTransaction paid tx⟩
  case sent => exact fun paid _ => paid
  case received =>
    intro k spec next outcome
    rw [next] at sound ⊢
    obtain ⟨b, ws, T, block, opened⟩ := decode_opened supplied.reached outcome sound
    exact ⟨b, block, ws, T, opened⟩
  case verified =>
    rintro b b₁ ⟨ws, T, opened, empty⟩ passed
    exact opened.verify sound₀ empty passed
  case replayed =>
    intro tx rest b b₁ paid processed
    exact Paid.script paid sound₀ (spares tx) processed
  case checked =>
    intro k order tries b next block paid outcome
    rw [next] at sound ⊢
    exact check_paidOut supplied.reached block paid outcome sound

/-- **One event.** -/
theorem Supplied.step (supplied : Supplied cfg g p) (works : Outside.Works)
    (spares : ∀ tx, (cfg.txProcessor tx).Spares IsAccount) (e : Event)
    (sound : HashSound (Known (Platform.step cfg p e).sys.db)) : Supplied cfg g (Platform.step cfg p e) := by
  obtain ⟨leads, miner, minted⟩ := supplied.stored e sound
  have later := leads.later supplied.reached sound
  have genesis : ∃ spec ws, getSpec (Platform.step cfg p e).sys.db g = some spec ∧ spec.state = ws.rootHash ∧
      Holds (Platform.step cfg p e).sys.db ws (PathMap.single []) := by
    obtain ⟨spec, ws, found, root, holds⟩ := supplied.genesis
    exact ⟨spec, ws, later.specs g spec found, root, holds.of_suffix later.grow⟩
  exact ⟨leads.reached supplied.reached, miner, genesis, minted,
    Knowledge.step (payments_lasts cfg) (supplied.payments_kept works spares later sound) supplied.hands later⟩

theorem supplied_boot {now : UInt64} (started : (Platform.boot cfg now).sys.engine.isSome) :
    Supplied cfg (genesisHash genesisTimeStamp now) (Platform.boot cfg now) := by
  obtain ⟨-, booted⟩ := boot_of_started started
  have sys : (Platform.boot cfg now).sys = _ := booted
  refine ⟨⟨_, _, _, [], started, rfl, trivial, rfl⟩, fun c engine => ?_, ?_, fun h spec found other => ?_, ?_⟩
  · rw [sys] at engine
    cases engine
    rfl
  · rw [sys]
    exact ⟨_, freshState, by rw [bootDisk_getSpec, if_pos rfl], rfl, holds_fresh _⟩
  · rw [sys, bootDisk_getSpec, if_neg other] at found
    cases found
  · intro k t thread
    cases thread

/-- **Every run.** -/
theorem Platform.Reached.supplied (works : Outside.Works) (spares : ∀ tx, (cfg.txProcessor tx).Spares IsAccount)
    (reached : Platform.Reached cfg (fun _ _ => True) (fun _ _ => True) g p) (sound : HashSound (Known p.sys.db)) :
    Supplied cfg g p := by
  refine reached.invariant_sound (Supplied cfg g) (fun _ _ _ => trivial) sound (fun now started genesis => ?_)
    fun p e supplied _ _ sound => supplied.step works spares e sound
  rw [← genesis]
  exact supplied_boot started

end Events

/-! ## The main list -/

section Supply

variable [Sha512] [Outside] {cfg : Config} {g : Byte64} {p : Platform}

/-- What a block adds to the supply. Genesis adds nothing. -/
def blockReward (d : Disk) (g h : Byte64) : UInt64 :=
  if h = g then 0 else ((getSpec d h).map fun spec => rewards spec.uncles.length).getD 0

/-- A block and its parent. -/
theorem Supplied.block (supplied : Supplied cfg g p) (sound : HashSound (Known p.sys.db)) {h : Byte64} {spec : BlockSpec}
    (found : getSpec p.sys.db h = some spec) (other : h ≠ g) :
    ∃ parent, getSpec p.sys.db spec.phash = some parent ∧
      supply p.sys.db spec.state = supply p.sys.db parent.state + rewards spec.uncles.length := by
  have log := supplied.reached.ready.log
  obtain ⟨-, parent, ws₀, ws, T₀, T, stored, holds₀, root₀, holds, root, sum⟩ := supplied.minted h spec found other
  refine ⟨parent, stored, ?_⟩
  rw [root, root₀, holds.supply log sound, holds₀.supply log sound, sum]

theorem Supplied.genesis_supply (supplied : Supplied cfg g p) (sound : HashSound (Known p.sys.db)) {spec : BlockSpec}
    (found : getSpec p.sys.db g = some spec) : supply p.sys.db spec.state = 0 := by
  obtain ⟨spec', ws, stored, root, holds⟩ := supplied.genesis
  rw [found, Option.some.injEq] at stored
  subst stored
  rw [root, holds.supply supplied.reached.ready.log sound, versionOf_single]
  exact finsum_eq_zero_of_forall_eq_zero fun _ => bytesToUint64_nil

/-- The supply of a block is the sum of the rewards on the way from genesis to it. -/
theorem Supplied.branch (supplied : Supplied cfg g p) (sound : HashSound (Known p.sys.db)) {h : Byte64} {spec : BlockSpec}
    (found : getSpec p.sys.db h = some spec) :
    {x | Anc (parentOf p.sys.db g) h x}.Finite ∧
      supply p.sys.db spec.state = ∑ᶠ x ∈ {x | Anc (parentOf p.sys.db g) h x}, blockReward p.sys.db g x := by
  obtain ⟨m, canonical, -⟩ := supplied.reached.onTip
  obtain ⟨rank, ranked, -⟩ := canonical.chain.tree.ranked
  induction level : rank h using Nat.strong_induction_on generalizing h spec with
  | _ level ih =>
    by_cases root : h = g
    · subst root
      have alone : {x | Anc (parentOf p.sys.db h) h x} = {h} := by
        ext x
        refine ⟨fun up => ?_, fun eq => eq ▸ Anc.refl⟩
        rcases up.cases_head with same | ⟨y, edge, -⟩
        · exact same.symm
        · simp [parentOf] at edge
      rw [alone, finsum_mem_singleton, blockReward, if_pos rfl]
      exact ⟨Set.finite_singleton h, supplied.genesis_supply sound found⟩
    · obtain ⟨parent, stored, sum⟩ := supplied.block sound found root
      have edge : parentOf p.sys.db g h = some spec.phash := by
        rw [canonical.parentOf_eq, if_neg root, found, Option.map_some]
      obtain ⟨finite, below⟩ := ih _ (level ▸ ranked _ _ edge) stored rfl
      have branch : {x | Anc (parentOf p.sys.db g) h x} = insert h {x | Anc (parentOf p.sys.db g) spec.phash x} := by
        ext x
        constructor
        · intro up
          rcases up.cases_head with same | ⟨y, first, rest⟩
          · exact Or.inl same.symm
          · rw [edge, Option.some.injEq] at first
            subst first
            exact Or.inr rest
        · rintro (rfl | up)
          · exact Anc.refl
          · exact Anc.head edge up
      have fresh : h ∉ {x | Anc (parentOf p.sys.db g) spec.phash x} := ranked.not_anc_child edge
      rw [branch]
      refine ⟨finite.insert h, ?_⟩
      rw [finsum_mem_insert _ fresh finite, ← below, sum, add_comm, blockReward, if_neg root, found]
      rfl

/-- The state of every block but genesis has the supply of its parent's state and the rewards of the block, on every
fork. The supply at the tip is the sum of the rewards of the main list. -/
structure SupplyConserved (g : Byte64) (p : Platform) : Prop where
  blocks : ∀ h spec, getSpec p.sys.db h = some spec → h ≠ g → ∃ parent, getSpec p.sys.db spec.phash = some parent ∧
    supply p.sys.db spec.state = supply p.sys.db parent.state + (1000000 + 200000 * UInt64.ofNat spec.uncles.length)
  tip : ∃ tip spec, getDagTip p.sys.db = some tip ∧ getSpec p.sys.db tip = some spec ∧
    (∀ c, p.sys.engine = some c → c.tip.toBlockSpec = spec) ∧
    supply p.sys.db spec.state = ∑ᶠ h ∈ {h | Flagged p.sys.db h}, blockReward p.sys.db g h

/-- **The supply is conserved** by whole calls, on a platform whose application leaves the accounts alone. -/
theorem Platform.Reached.supplyConserved (works : Outside.Works) (spares : ∀ tx, (cfg.txProcessor tx).Spares IsAccount)
    (reached : Platform.Reached cfg (fun _ _ => True) (fun _ _ => True) g p) (sound : HashSound (Known p.sys.db)) :
    SupplyConserved g p := by
  have supplied := reached.supplied works spares sound
  obtain ⟨m, canonical, synced⟩ := supplied.reached.onTip
  have stored : (getSpec p.sys.db m).isSome := by
    rw [← canonical.stored_iff]
    exact canonical.chain.main.1
  obtain ⟨spec, stored⟩ := Option.isSome_iff_exists.mp stored
  refine ⟨fun h spec found other => supplied.block sound found other, m, spec, canonical.tip, stored,
    fun c engine => ?_, ?_⟩
  · have own := (synced c engine).spec
    rw [stored, Option.some.injEq] at own
    exact own.symm
  · have main : {h | Flagged p.sys.db h} = {h | Anc (parentOf p.sys.db g) m h} :=
      Set.ext fun h => canonical.chain.main.2 h
    rw [main]
    exact (supplied.branch sound stored).2

end Supply

section Worked

attribute [local instance] Plain.sha512 Plain.outside

/-- The application of the worked runs writes k, which is no account. -/
theorem Worked.txProcessor_spares (tx : Transaction) : (Plain.txProcessor tx).Spares IsAccount := by
  have other : ¬ IsAccount [107] := by
    rintro ⟨address, eq⟩
    cases address with
    | nil => cases eq
    | cons byte bytes => simp [bytesToHexString] at eq
  unfold Plain.txProcessor
  split
  · exact ⟨other, trivial⟩
  · exact ⟨other, trivial⟩
  · trivial

end Worked

end TrustNet
