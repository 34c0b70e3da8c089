import Mathlib.Algebra.BigOperators.Group.Finset.Piecewise
import Mathlib.Algebra.BigOperators.Ring.Finset
import Mathlib.Algebra.Order.BigOperators.Group.Finset
import TrustNet.Protocol.Flooding

/-!
# Flooding: everyone gets a page

A node that has a message has sent it to each of its peers, or is about to, unless the
peer is marked; and a peer is marked only with a message that it has or that is on its way
to it. So when all is quiet, everyone who is connected to the originator has the message,
whatever the marks that were dropped from full sets. It does get quiet: a node takes up a
message once, and every goroutine has a bounded number of steps.
-/

namespace TrustNet.Pager
set_option autoImplicit false

variable {V : Type} {T : Topology V} {n n' : Network V} {e : Event V}

/-! ## Marks -/

theorem pop_subset (order : List Byte16) (known : Finset Byte16) : pop order known ⊆ known := by
  unfold pop
  split
  · exact Finset.erase_subset _ _
  · exact Finset.Subset.refl _

/-- A full set drops marks, and no other mark comes in. -/
theorem mem_of_mem_addTx {order : List Byte16} {known : Finset Byte16} {tx x : Byte16} (member : x ∈ addTx order known tx) :
    x = tx ∨ x ∈ known := by
  rcases Finset.mem_insert.mp member with eq | member
  · exact Or.inl eq
  · refine Or.inr ?_
    split at member
    · exact pop_subset _ _ (pop_subset _ _ (pop_subset _ _ member))
    · exact member

theorem mem_of_mem_markPeer [DecidableEq V] {order : List Byte16} {v w v' w' : V} {tx x : Byte16}
    (member : x ∈ (n.markPeer order v w tx).known v' w') : (w' = w ∧ x = tx) ∨ x ∈ n.known v' w' := by
  rw [Network.markPeer_known] at member
  split at member
  · rename_i target
    rw [target.1, target.2]
    exact (mem_of_mem_addTx member).imp (fun eq => ⟨rfl, eq⟩) fun old => old
  · exact Or.inr member

/-! ## What a node still owes its peers -/

/-- The node broadcast the message, or received it. -/
def Network.Has (n : Network V) (v : V) (id : Byte16) : Prop := (v, id) ∈ n.origins ∨ id ∈ n.myHistory v

/-- The node has the message, or it is on its way to it. -/
def Network.Reaches (n : Network V) (w : V) (id : Byte16) : Prop :=
  n.Has w id ∨ ∃ p ∈ n.flight, p.dst = w ∧ p.msg.msgId = id

/-- A goroutine that has still to send to `w`, or to look which peers to send to. -/
def Thread.Owes (w : V) : Thread V → Prop
  | .unseen .. | .marked .. | .paged .. => True
  | .sending _ rest _ => w ∈ rest

/-- A message spreads: who has it has sent it on, or is about to. -/
structure Spreads (T : Topology V) (n : Network V) : Prop where
  marks : ∀ v w id, id ∈ n.known v w → n.Reaches w id
  packets : ∀ p ∈ n.flight, n.Has p.src p.msg.msgId
  senders : ∀ v k sender msg, n.threads v k = some (.unseen sender msg) → n.Has sender msg.msgId
  about : ∀ v k t, n.threads v k = some t → n.Has v t.msgId
  owed : ∀ v w id, n.Has v id → w ∈ T.peers v →
    n.Reaches w id ∨ ∃ k t, n.threads v k = some t ∧ t.msgId = id ∧ t.Owes w
  paged : ∀ v id, id ∈ n.myHistory v →
    (v, id) ∈ n.pages.map Page.key ∨ ∃ k t, n.threads v k = some t ∧ t.msgId = id ∧ t.Unpaged

theorem Spreads.fresh (T : Topology V) : Spreads T Network.fresh where
  marks v w id member := by simp [Network.fresh] at member
  packets p member := by simp [Network.fresh] at member
  senders v k sender msg here := by simp [Network.fresh] at here
  about v k t here := by simp [Network.fresh] at here
  owed v w id has := by simp [Network.Has, Network.origins, Network.fresh] at has
  paged v id member := by simp [Network.fresh] at member

section Steps

variable [DecidableEq V]

/-- Goroutine `k` of `v` goes on with its message: it may mark peers that the message reaches and send it, and what it
owed and has not done it still owes. -/
theorem Spreads.goesOn (spreads : Spreads T n) {v : V} {k : Nat} {before : Thread V} {after : Option (Thread V)}
    (here : n.threads v k = some before) (origins : n'.origins = n.origins) (histories : n'.myHistory = n.myHistory)
    (sent : ∀ p ∈ n.flight, p ∈ n'.flight) (flight : ∀ p ∈ n'.flight, p ∈ n.flight ∨ (p.src = v ∧ p.msg.msgId = before.msgId))
    (known : ∀ v' w id, id ∈ n'.known v' w → id ∈ n.known v' w ∨ n'.Reaches w id)
    (threads : ∀ v' k', n'.threads v' k' = if v' = v ∧ k' = k then after else n.threads v' k')
    (pages : ∀ key ∈ n.pages.map Page.key, key ∈ n'.pages.map Page.key)
    (same : ∀ t, after = some t → t.msgId = before.msgId ∧ ∀ sender msg, t ≠ .unseen sender msg)
    (owes : ∀ w ∈ T.peers v, before.Owes w → n'.Reaches w before.msgId ∨ ∃ t, after = some t ∧ t.Owes w)
    (pays : before.Unpaged → (v, before.msgId) ∈ n'.pages.map Page.key ∨ ∃ t, after = some t ∧ t.Unpaged) :
    Spreads T n' := by
  have has : ∀ {w id}, n'.Has w id ↔ n.Has w id := by
    intro w id
    unfold Network.Has
    rw [origins, histories]
  have reaches : ∀ {w id}, n.Reaches w id → n'.Reaches w id := by
    rintro w id (have' | ⟨p, member, dst⟩)
    · exact Or.inl (has.mpr have')
    · exact Or.inr ⟨p, sent p member, dst⟩
  have own := spreads.about v k before here
  -- a goroutine before the step is there after it, or it is this one
  have kept : ∀ {v' k' t}, n.threads v' k' = some t → n'.threads v' k' = some t ∨ (v' = v ∧ k' = k ∧ t = before) := by
    intro v' k' t old
    rw [threads]
    split
    · rename_i target
      obtain ⟨rfl, rfl⟩ := target
      exact Or.inr ⟨rfl, rfl, Option.some.inj (old.symm.trans here)⟩
    · exact Or.inl old
  have slot : n'.threads v k = after := by rw [threads, if_pos ⟨rfl, rfl⟩]
  refine ⟨fun v' w id member => ?_, fun p member => ?_, fun v' k' sender msg now => ?_, fun v' k' t now => ?_,
    fun v' w id have' peer => ?_, fun v' id member => ?_⟩
  · exact (known v' w id member).elim (fun old => reaches (spreads.marks v' w id old)) fun new => new
  · rw [has]
    rcases flight p member with old | ⟨src, msgId⟩
    · exact spreads.packets p old
    · rw [src, msgId]
      exact own
  · rw [threads] at now
    split at now
    · exact absurd rfl ((same _ now).2 sender msg)
    · exact has.mpr (spreads.senders v' k' sender msg now)
  · rw [has]
    rw [threads] at now
    split at now
    · rename_i target
      rw [target.1, (same t now).1]
      exact own
    · exact spreads.about v' k' t now
  · rcases spreads.owed v' w id (has.mp have') peer with reached | ⟨k', t, old, msgId, still⟩
    · exact Or.inl (reaches reached)
    · rcases kept old with stays | ⟨rfl, rfl, rfl⟩
      · exact Or.inr ⟨k', t, stays, msgId, still⟩
      · subst msgId
        rcases owes w peer still with reached | ⟨t', eq, still'⟩
        · exact Or.inl reached
        · exact Or.inr ⟨_, t', slot.trans eq, (same t' eq).1, still'⟩
  · rw [histories] at member
    rcases spreads.paged v' id member with done | ⟨k', t, old, msgId, unpaged⟩
    · exact Or.inl (pages _ done)
    · rcases kept old with stays | ⟨rfl, rfl, rfl⟩
      · exact Or.inr ⟨k', t, stays, msgId, unpaged⟩
      · subst msgId
        rcases pays unpaged with done | ⟨t', eq, unpaged'⟩
        · exact Or.inl done
        · exact Or.inr ⟨_, t', slot.trans eq, (same t' eq).1, unpaged'⟩

omit [DecidableEq V] in
/-- Peers that `Broadcast` does not list have the message, or it is on its way to them. -/
theorem Spreads.listed (spreads : Spreads T n) {v w : V} (msg : BroadcastTextMsg) (peer : w ∈ T.peers v) :
    n.Reaches w msg.msgId ∨ (n.broadcast T v msg).Owes w := by
  by_cases marked : msg.msgId ∈ n.known v w
  · exact Or.inl (spreads.marks v w msg.msgId marked)
  · exact Or.inr (Finset.mem_filter.mpr ⟨peer, marked⟩)

/-- The application broadcasts a message. -/
theorem Spreads.broadcast (spreads : Spreads T n) {v : V} {k : Nat} (msg : BroadcastTextMsg) (free : n.threads v k = none) :
    Spreads T ({ n with originated := (v, msg) :: n.originated }.setThread v k (some (n.broadcast T v msg))) := by
  have listed : ∀ w ∈ T.peers v, n.Reaches w msg.msgId ∨ (n.broadcast T v msg).Owes w := fun w peer => spreads.listed msg peer
  generalize started : n.broadcast T v msg = t₀ at listed
  have id₀ : t₀.msgId = msg.msgId := by rw [← started]; rfl
  have notUnseen : ∀ sender m, t₀ ≠ .unseen sender m := by
    rw [← started]
    intro sender m eq
    cases eq
  generalize after : Network.setThread _ v k _ = n'
  have origins : n'.origins = (v, msg.msgId) :: n.origins := by rw [← after]; rfl
  have histories : n'.myHistory = n.myHistory := by rw [← after]; rfl
  have marks : n'.known = n.known := by rw [← after]; rfl
  have packets : n'.flight = n.flight := by rw [← after]; rfl
  have pages : n'.pages = n.pages := by rw [← after]; rfl
  have threads : ∀ v' k', n'.threads v' k' = if v' = v ∧ k' = k then some t₀ else n.threads v' k' := by
    intro v' k'
    rw [← after]
    exact Network.setThread_threads _ _ _ _ _ _
  have has : ∀ {w id}, n.Has w id → n'.Has w id := by
    intro w id have'
    unfold Network.Has
    rw [origins, histories]
    exact have'.imp (List.mem_cons_of_mem _) fun seen => seen
  have reaches : ∀ {w id}, n.Reaches w id → n'.Reaches w id := by
    intro w id reached
    unfold Network.Reaches
    rw [packets]
    exact reached.imp has fun coming => coming
  have kept : ∀ {v' k' t}, n.threads v' k' = some t → n'.threads v' k' = some t := by
    intro v' k' t old
    rw [threads, if_neg]
    · exact old
    · rintro ⟨rfl, rfl⟩
      rw [free] at old
      cases old
  have slot : n'.threads v k = some t₀ := by rw [threads, if_pos ⟨rfl, rfl⟩]
  refine ⟨fun v' w id member => ?_, fun p member => ?_, fun v' k' sender m now => ?_, fun v' k' t now => ?_,
    fun v' w id have' peer => ?_, fun v' id member => ?_⟩
  · rw [marks] at member
    exact reaches (spreads.marks v' w id member)
  · rw [packets] at member
    exact has (spreads.packets p member)
  · rw [threads] at now
    split at now
    · exact absurd (Option.some.inj now) (notUnseen sender m)
    · exact has (spreads.senders v' k' sender m now)
  · rw [threads] at now
    split at now
    · rename_i target
      cases now
      rw [target.1, id₀]
      refine Or.inl ?_
      rw [origins]
      exact List.mem_cons_self
    · exact has (spreads.about v' k' t now)
  · by_cases old : n.Has v' id
    · rcases spreads.owed v' w id old peer with reached | ⟨k', t, before, msgId, still⟩
      · exact Or.inl (reaches reached)
      · exact Or.inr ⟨k', t, kept before, msgId, still⟩
    · -- only the new message is new to anyone
      have new : v' = v ∧ id = msg.msgId := by
        unfold Network.Has at have' old
        rw [origins, histories, List.mem_cons] at have'
        rcases have' with (eq | member) | seen
        · exact Prod.mk.inj eq
        · exact absurd (Or.inl member) old
        · exact absurd (Or.inr seen) old
      obtain ⟨rfl, rfl⟩ := new
      rcases listed w peer with reached | owes
      · exact Or.inl (reaches reached)
      · exact Or.inr ⟨k, t₀, slot, id₀, owes⟩
  · rw [histories] at member
    rw [pages]
    exact (spreads.paged v' id member).imp (fun done => done)
      fun ⟨k', t, old, msgId, unpaged⟩ => ⟨k', t, kept old, msgId, unpaged⟩

omit [DecidableEq V] in
/-- A message is read. -/
theorem Spreads.receive (spreads : Spreads T n) {i : Nat} {p : Packet V} (found : n.flight[i]? = some p)
    (flight : n'.flight = n.flight.eraseIdx i) (origins : n'.origins = n.origins) (marks : n'.known = n.known)
    (pages : n'.pages = n.pages)
    (histories : ∀ v id, id ∈ n'.myHistory v ↔ (v = p.dst ∧ id = p.msg.msgId) ∨ id ∈ n.myHistory v)
    (threads : ∀ v k t, n.threads v k = some t → n'.threads v k = some t)
    (others : ∀ v k t, n'.threads v k = some t → n.threads v k = some t ∨ (v = p.dst ∧ t = .unseen p.src p.msg))
    (handled : p.msg.msgId ∈ n.myHistory p.dst ∨ ∃ k, n'.threads p.dst k = some (.unseen p.src p.msg)) :
    Spreads T n' := by
  have has : ∀ {w id}, n.Has w id → n'.Has w id := by
    intro w id have'
    unfold Network.Has
    rw [origins, histories]
    exact have'.imp (fun own => own) Or.inr
  have taken : n'.Has p.dst p.msg.msgId := Or.inr ((histories _ _).mpr (Or.inl ⟨rfl, rfl⟩))
  have reaches : ∀ {w id}, n.Reaches w id → n'.Reaches w id := by
    rintro w id (have' | ⟨q, member, dst, msgId⟩)
    · exact Or.inl (has have')
    · by_cases this : q = p
      · subst this dst msgId
        exact Or.inl taken
      · refine Or.inr ⟨q, ?_, dst, msgId⟩
        obtain ⟨j, at'⟩ := List.mem_iff_getElem?.mp member
        rw [flight, List.mem_eraseIdx_iff_getElem?]
        refine ⟨j, ?_, at'⟩
        rintro rfl
        exact this (Option.some.inj (at'.symm.trans found))
  refine ⟨fun v w id member => ?_, fun q member => ?_, fun v k sender m now => ?_, fun v k t now => ?_,
    fun v w id have' peer => ?_, fun v id member => ?_⟩
  · rw [marks] at member
    exact reaches (spreads.marks v w id member)
  · rw [flight] at member
    exact has (spreads.packets q (List.mem_of_mem_eraseIdx member))
  · rcases others v k _ now with old | ⟨-, eq⟩
    · exact has (spreads.senders v k sender m old)
    · cases eq
      exact has (spreads.packets p (List.mem_of_getElem? found))
  · rcases others v k t now with old | ⟨rfl, rfl⟩
    · exact has (spreads.about v k t old)
    · exact taken
  · by_cases old : n.Has v id
    · rcases spreads.owed v w id old peer with reached | ⟨k, t, before, msgId, still⟩
      · exact Or.inl (reaches reached)
      · exact Or.inr ⟨k, t, threads v k t before, msgId, still⟩
    · have new : v = p.dst ∧ id = p.msg.msgId := by
        unfold Network.Has at have' old
        rw [origins, histories] at have'
        rcases have' with own | here | seen
        · exact absurd (Or.inl own) old
        · exact here
        · exact absurd (Or.inr seen) old
      obtain ⟨rfl, rfl⟩ := new
      rcases handled with seen | ⟨k, now⟩
      · exact absurd (Or.inr seen) old
      · exact Or.inr ⟨k, _, now, rfl, trivial⟩
  · rw [pages]
    by_cases old : id ∈ n.myHistory v
    · rcases spreads.paged v id old with done | ⟨k, t, before, msgId, unpaged⟩
      · exact Or.inl done
      · exact Or.inr ⟨k, t, threads v k t before, msgId, unpaged⟩
    · obtain ⟨rfl, rfl⟩ := ((histories v id).mp member).resolve_right old
      rcases handled with seen | ⟨k, now⟩
      · exact absurd seen old
      · exact Or.inr ⟨k, _, now, rfl, trivial⟩

theorem Spreads.moves (spreads : Spreads T n) (moves : Network.Moves T n e n') : Spreads T n' := by
  cases moves with
  | broadcast v k msg free => exact spreads.broadcast msg free
  | discard i k p found seen =>
    refine spreads.receive found rfl rfl rfl rfl (fun v id => ?_) (fun _ _ _ old => old) (fun _ _ _ old => Or.inl old)
      (Or.inl seen)
    refine ⟨Or.inr, ?_⟩
    rintro (⟨rfl, rfl⟩ | old)
    · exact seen
    · exact old
  | accept i k p found new free =>
    refine spreads.receive found rfl rfl rfl rfl (fun v id => ?_) (fun v k' t old => ?_) (fun v k' t now => ?_)
      (Or.inr ⟨k, by simp⟩)
    · by_cases node : v = p.dst
      · subst node
        simp [Network.setThread]
      · simp [Network.setThread, node]
    · rw [Network.setThread_threads, if_neg]
      · exact old
      · rintro ⟨rfl, rfl⟩
        rw [free] at old
        cases old
    · rw [Network.setThread_threads] at now
      split at now
      · rename_i target
        exact Or.inr ⟨target.1, (Option.some.inj now).symm⟩
      · exact Or.inl now
  | mark v k order sender msg here =>
    refine spreads.goesOn here rfl rfl (fun _ old => old) (fun _ old => Or.inl old) (fun v' w id member => ?_)
      (Network.setThread_threads _ _ · _ · _) (fun _ old => old) (fun t eq => ?_) (fun w peer _ => Or.inr ⟨_, rfl, trivial⟩)
      fun _ => Or.inr ⟨_, rfl, trivial⟩
    · refine (mem_of_mem_markPeer member).symm.imp (fun old => old) ?_
      rintro ⟨rfl, rfl⟩
      exact Or.inl (spreads.senders v k _ msg here)
    · cases eq
      exact ⟨rfl, fun _ _ eq => by cases eq⟩
  | page v k sender msg here =>
    refine spreads.goesOn here rfl rfl (fun _ old => old) (fun _ old => Or.inl old) (fun _ _ _ old => Or.inl old)
      (Network.setThread_threads _ _ · _ · _) (fun _ old => List.mem_cons_of_mem _ old) (fun t eq => ?_)
      (fun w peer _ => Or.inr ⟨_, rfl, trivial⟩) fun _ => Or.inl List.mem_cons_self
    cases eq
    exact ⟨rfl, fun _ _ eq => by cases eq⟩
  | forward v k msg here =>
    refine spreads.goesOn here rfl rfl (fun _ old => old) (fun _ old => Or.inl old) (fun _ _ _ old => Or.inl old)
      (Network.setThread_threads _ _ · _ · _) (fun _ old => old) (fun t eq => ?_) (fun w peer _ => ?_) fun unpaged => unpaged.elim
    · cases eq
      exact ⟨rfl, fun _ _ eq => by cases eq⟩
    · exact (spreads.listed msg peer).imp (fun reached => reached) fun owes => ⟨_, rfl, owes⟩
  | send v k w order msg rest count here listed =>
    have coming : ∀ {n' : Network V}, n'.flight = n.flight ++ [Packet.mk v w msg] → n'.Reaches w msg.msgId := fun eq =>
      Or.inr ⟨⟨v, w, msg⟩, by rw [eq]; simp, rfl, rfl⟩
    refine spreads.goesOn here rfl rfl (fun p old => List.mem_append_left _ old) (fun p now => ?_) (fun v' w' id member => ?_)
      (Network.setThread_threads _ _ · _ · _) (fun _ old => old) (fun t eq => ?_) (fun w' peer owes => ?_)
      fun unpaged => unpaged.elim
    · rcases List.mem_append.mp now with old | new
      · exact Or.inl old
      · rw [List.mem_singleton.mp new]
        exact Or.inr ⟨rfl, rfl⟩
    · rcases mem_of_mem_markPeer member with ⟨rfl, rfl⟩ | old
      · exact Or.inr (coming rfl)
      · exact Or.inl old
    · cases eq
      exact ⟨rfl, fun _ _ eq => by cases eq⟩
    · by_cases this : w' = w
      · subst this
        exact Or.inl (coming rfl)
      · exact Or.inr ⟨_, rfl, Finset.mem_erase.mpr ⟨this, owes⟩⟩
  | done v k msg count here =>
    refine spreads.goesOn here rfl rfl (fun _ old => old) (fun _ old => Or.inl old) (fun _ _ _ old => Or.inl old)
      (Network.setThread_threads _ _ · _ · _) (fun _ old => old) (fun t eq => by cases eq) (fun w peer owes => ?_)
      fun unpaged => unpaged.elim
    exact absurd owes (Finset.notMem_empty w)

theorem spreads_run (T : Topology V) (events : List (Event V)) :
    Spreads T (Transition.run (Network.next T) Network.fresh events) :=
  Network.keeps_of_moves (T := T) (Spreads T) (P := fun _ _ => True) (fun _ _ _ spreads _ moves => spreads.moves moves)
    (Spreads.fresh T) (Transition.along_true _ _)

/-- Nothing is in flight, and no goroutine is at work. -/
structure Network.Quiet (n : Network V) : Prop where
  flight : n.flight = []
  threads : ∀ v k, n.threads v k = none

/-- **Everyone gets a page.** When all is quiet, a message was paged exactly once at every node that is connected to its
originator, except at nodes that broadcast a message with this id themselves. -/
theorem flooding_delivers (T : Topology V) (events : List (Event V)) :
    let n := Transition.run (Network.next T) Network.fresh events
    n.Quiet → ∀ q ∈ n.originated, ∀ w, Relation.ReflTransGen (fun v w => w ∈ T.peers v) q.1 w →
      (w, q.2.msgId) ∉ n.origins → (n.pages.map Page.key).count (w, q.2.msgId) = 1 := by
  intro n quiet q member w path foreign
  have spreads : Spreads T n := spreads_run T events
  have once : Once n := Network.keeps_of_moves (T := T) Once (P := fun _ _ => True)
    (fun _ _ _ once _ moves => once.moves moves) Once.fresh (Transition.along_true _ _)
  have idle : ∀ {v k} {t : Thread V}, n.threads v k ≠ some t := by
    intro v k t here
    rw [quiet.threads] at here
    cases here
  have has : ∀ w, Relation.ReflTransGen (fun v w => w ∈ T.peers v) q.1 w → n.Has w q.2.msgId := by
    intro w path
    induction path with
    | refl => exact Or.inl (List.mem_map.mpr ⟨q, member, rfl⟩)
    | @tail v w _ peer ih =>
      rcases spreads.owed v w q.2.msgId ih peer with (has | ⟨p, flying, -⟩) | ⟨k, t, here, -⟩
      · exact has
      · rw [quiet.flight] at flying
        cases flying
      · exact absurd here idle
  have seen := (has w path).resolve_left foreign
  rcases spreads.paged w q.2.msgId seen with done | ⟨k, t, here, -⟩
  · exact List.count_eq_one_of_mem once.nodup done
  · exact absurd here idle

end Steps

section Worked

/-- Two nodes. -/
def Worked.pair : Topology Bool := ⟨fun v => {!v}, by decide, by decide⟩

/-- One pages the other, and all comes to its end. -/
def Worked.pairPaging : List (Event Bool) :=
  [.broadcast true 0 Worked.page, .send true 0 false [], .done true 0, .receive 0 0, .mark false 0 [], .page false 0,
    .forward false 0, .done false 0]

theorem flooding_delivers_pair :
    let n := Transition.run (Network.next Worked.pair) Network.fresh Worked.pairPaging
    n.Quiet ∧ (n.pages.map Page.key).count (false, Worked.page.msgId) = 1 := by
  intro n
  have quiet : n.Quiet := ⟨by decide +kernel, fun v k => by cases v <;> cases k <;> rfl⟩
  have sent : (true, Worked.page) ∈ n.originated ∧ (false, Worked.page.msgId) ∉ n.origins := by decide +kernel
  exact ⟨quiet, flooding_delivers Worked.pair Worked.pairPaging quiet _ sent.1 false (.single (by decide)) sent.2⟩

end Worked

/-! ## The flood ends -/

section Price

/-- The steps that a goroutine of `v` has still to do, with the reading of what it sends. -/
def Thread.price (T : Topology V) (v : V) : Thread V → Nat
  | .unseen .. => 2 * (T.peers v).card + 4
  | .marked .. => 2 * (T.peers v).card + 3
  | .paged .. => 2 * (T.peers v).card + 2
  | .sending _ rest _ => 2 * rest.card + 1

/-- The price of a slot. -/
def priceOf (T : Topology V) (n : Network V) (slot : V × Nat) : Nat :=
  ((n.threads slot.1 slot.2).map (Thread.price T slot.1)).getD 0

theorem priceOf_of_some {v : V} {k : Nat} {t : Thread V} (here : n.threads v k = some t) :
    priceOf T n (v, k) = t.price T v := by
  simp [priceOf, here]

theorem priceOf_of_none {v : V} {k : Nat} (free : n.threads v k = none) : priceOf T n (v, k) = 0 := by
  simp [priceOf, free]

theorem price_broadcast (T : Topology V) (n : Network V) (v : V) (msg : BroadcastTextMsg) :
    (n.broadcast T v msg).price T v ≤ 2 * (T.peers v).card + 1 := by
  have fewer : (peerNodesWithMsgNotSeen (T.peers v) (n.known v) msg.msgId).card ≤ (T.peers v).card :=
    Finset.card_filter_le _ _
  simp only [Network.broadcast, Thread.price]
  omega

/-- The slots hold all goroutines. -/
def Network.Within (n : Network V) (slots : Finset (V × Nat)) : Prop := ∀ v k, n.threads v k ≠ none → (v, k) ∈ slots

variable [DecidableEq V]

/-- What a step of one goroutine does to the price of all. -/
theorem Network.Within.setThread {slots : Finset (V × Nat)} (within : n.Within slots) {v : V} {k : Nat}
    {after : Option (Thread V)} (threads : ∀ v' k', n'.threads v' k' = if v' = v ∧ k' = k then after else n.threads v' k') :
    n'.Within (insert (v, k) slots) ∧
      ∑ slot ∈ insert (v, k) slots, priceOf T n' slot + priceOf T n (v, k) =
        ∑ slot ∈ slots, priceOf T n slot + (after.map (Thread.price T v)).getD 0 := by
  have others : ∀ slot ≠ (v, k), priceOf T n' slot = priceOf T n slot := by
    intro slot ne
    unfold priceOf
    rw [threads, if_neg]
    rintro ⟨first, second⟩
    exact ne (Prod.ext first second)
  have own : priceOf T n' (v, k) = (after.map (Thread.price T v)).getD 0 := by
    unfold priceOf
    rw [threads, if_pos ⟨rfl, rfl⟩]
  have grown : ∑ slot ∈ insert (v, k) slots, priceOf T n slot = ∑ slot ∈ slots, priceOf T n slot := by
    by_cases listed : (v, k) ∈ slots
    · rw [Finset.insert_eq_of_mem listed]
    · have free : n.threads v k = none := by
        by_contra busy
        exact listed (within v k busy)
      rw [Finset.sum_insert listed, priceOf_of_none free, Nat.zero_add]
  constructor
  · intro v' k' busy
    rw [threads] at busy
    split at busy
    · rename_i target
      rw [target.1, target.2]
      exact Finset.mem_insert_self _ _
    · exact Finset.mem_insert_of_mem (within v' k' busy)
  · have split : ∀ f : V × Nat → Nat, f (v, k) + ∑ slot ∈ (insert (v, k) slots).erase (v, k), f slot =
        ∑ slot ∈ insert (v, k) slots, f slot := fun f => Finset.add_sum_erase _ f (Finset.mem_insert_self (v, k) slots)
    have rest : ∑ slot ∈ (insert (v, k) slots).erase (v, k), priceOf T n' slot =
        ∑ slot ∈ (insert (v, k) slots).erase (v, k), priceOf T n slot :=
      Finset.sum_congr rfl fun slot member => others slot (Finset.ne_of_mem_erase member)
    have old := split (priceOf T n)
    have new := split (priceOf T n')
    omega

end Price

/-! ## Where the messages come from, and that they go on -/

section Progress

/-- What is in flight, in the hands of a goroutine or in a history was broadcast. -/
structure Broadcasted (n : Network V) : Prop where
  flight : ∀ p ∈ n.flight, p.msg.msgId ∈ n.originated.map (·.2.msgId)
  threads : ∀ v k t, n.threads v k = some t → t.msgId ∈ n.originated.map (·.2.msgId)
  history : ∀ v, ∀ id ∈ n.myHistory v, id ∈ n.originated.map (·.2.msgId)

theorem Broadcasted.fresh : Broadcasted (Network.fresh : Network V) where
  flight p member := by simp [Network.fresh] at member
  threads v k t here := by simp [Network.fresh] at here
  history v id member := by simp [Network.fresh] at member

variable [DecidableEq V]

/-- A goroutine goes on with its message. -/
theorem Broadcasted.goesOn (old : Broadcasted n) {v : V} {k : Nat} {before : Thread V} {after : Option (Thread V)}
    (here : n.threads v k = some before) (originated : n'.originated = n.originated) (histories : n'.myHistory = n.myHistory)
    (flight : ∀ p ∈ n'.flight, p ∈ n.flight ∨ p.msg.msgId = before.msgId)
    (threads : ∀ v' k', n'.threads v' k' = if v' = v ∧ k' = k then after else n.threads v' k')
    (same : ∀ t, after = some t → t.msgId = before.msgId) : Broadcasted n' := by
  have own := old.threads v k before here
  refine ⟨fun p member => ?_, fun v' k' t now => ?_, fun v' id member => ?_⟩
  · rw [originated]
    rcases flight p member with before' | eq
    · exact old.flight p before'
    · rw [eq]
      exact own
  · rw [originated]
    rw [threads] at now
    split at now
    · rw [same t now]
      exact own
    · exact old.threads v' k' t now
  · rw [originated]
    rw [histories] at member
    exact old.history v' id member

theorem Broadcasted.moves (old : Broadcasted n) (moves : Network.Moves T n e n') : Broadcasted n' := by
  cases moves with
  | broadcast v k msg free =>
    refine ⟨fun p member => List.mem_cons_of_mem _ (old.flight p member), fun v' k' t now => ?_,
      fun v' id member => List.mem_cons_of_mem _ (old.history v' id member)⟩
    rw [Network.setThread_threads] at now
    split at now
    · cases now
      exact List.mem_cons_self
    · exact List.mem_cons_of_mem _ (old.threads v' k' t now)
  | discard i k p found seen =>
    exact ⟨fun q member => old.flight q (List.mem_of_mem_eraseIdx member), old.threads, old.history⟩
  | accept i k p found new free =>
    have own := old.flight p (List.mem_of_getElem? found)
    refine ⟨fun q member => old.flight q (List.mem_of_mem_eraseIdx member), fun v' k' t now => ?_, fun v' id member => ?_⟩
    · rw [Network.setThread_threads] at now
      split at now
      · cases now
        exact own
      · exact old.threads v' k' t now
    · by_cases node : v' = p.dst
      · subst node
        simp only [Network.setThread, Function.update_self, Finset.mem_insert] at member
        rcases member with rfl | member
        · exact own
        · exact old.history _ id member
      · simp only [Network.setThread, Function.update_of_ne node] at member
        exact old.history v' id member
  | mark v k order sender msg here =>
    exact old.goesOn here rfl rfl (fun _ before => Or.inl before) (Network.setThread_threads _ _ · _ · _)
      fun t eq => by cases eq; rfl
  | page v k sender msg here =>
    exact old.goesOn here rfl rfl (fun _ before => Or.inl before) (Network.setThread_threads _ _ · _ · _)
      fun t eq => by cases eq; rfl
  | forward v k msg here =>
    exact old.goesOn here rfl rfl (fun _ before => Or.inl before) (Network.setThread_threads _ _ · _ · _)
      fun t eq => by cases eq; rfl
  | send v k w order msg rest count here listed =>
    refine old.goesOn here rfl rfl (fun p now => ?_) (Network.setThread_threads _ _ · _ · _) fun t eq => by cases eq; rfl
    rcases List.mem_append.mp now with before | new
    · exact Or.inl before
    · rw [List.mem_singleton.mp new]
      exact Or.inr rfl
  | done v k msg count here =>
    exact old.goesOn here rfl rfl (fun _ before => Or.inl before) (Network.setThread_threads _ _ · _ · _)
      fun t eq => by cases eq

/-- A goroutine can go on. -/
theorem Network.moves_of_thread (T : Topology V) {v : V} {k : Nat} {t : Thread V} (here : n.threads v k = some t) :
    ∃ e, (∀ v k msg, e ≠ .broadcast v k msg) ∧ Network.Moves T n e (Network.next T n e) := by
  cases t with
  | unseen sender msg =>
    refine ⟨.mark v k [], fun _ _ _ eq => (by cases eq), ?_⟩
    simp only [Network.next, here]
    exact .mark v k [] sender msg here
  | marked sender msg =>
    refine ⟨.page v k, fun _ _ _ eq => (by cases eq), ?_⟩
    simp only [Network.next, here]
    exact .page v k sender msg here
  | paged msg =>
    refine ⟨.forward v k, fun _ _ _ eq => (by cases eq), ?_⟩
    simp only [Network.next, here]
    exact .forward v k msg here
  | sending msg rest count =>
    rcases rest.eq_empty_or_nonempty with rfl | ⟨w, listed⟩
    · refine ⟨.done v k, fun _ _ _ eq => (by cases eq), ?_⟩
      simp only [Network.next, here, if_true]
      exact .done v k msg count here
    · refine ⟨.send v k w [], fun _ _ _ eq => (by cases eq), ?_⟩
      simp only [Network.next, here, if_pos listed]
      exact .send v k w [] msg rest count here listed

/-- A message can be read, by a goroutine that is free. -/
theorem Network.moves_of_packet (T : Topology V) {p : Packet V} {rest : List (Packet V)} {k : Nat}
    (flight : n.flight = p :: rest) (free : n.threads p.dst k = none) :
    Network.Moves T n (.receive 0 k) (Network.next T n (.receive 0 k)) := by
  have found : n.flight[0]? = some p := by rw [flight]; rfl
  by_cases seen : p.msg.msgId ∈ n.myHistory p.dst
  · have moves := Network.Moves.discard (T := T) 0 k p found seen
    simpa [Network.next, found, free, Network.handleBroadcastMsg, haveISeenIt, seen] using moves
  · have moves := Network.Moves.accept (T := T) 0 k p found seen free
    simpa [Network.next, found, free, Network.handleBroadcastMsg, haveISeenIt, seen] using moves

/-- Until all is quiet, a goroutine can go on, or a message can be read. -/
theorem Network.Within.progress (T : Topology V) {slots : Finset (V × Nat)} (within : n.Within slots) (busy : ¬ n.Quiet) :
    ∃ e, (∀ v k msg, e ≠ .broadcast v k msg) ∧ Network.Moves T n e (Network.next T n e) := by
  by_contra stuck
  refine busy ⟨?_, fun v k => ?_⟩
  · cases flight : n.flight with
    | nil => rfl
    | cons p rest =>
      obtain ⟨k, fresh⟩ := Infinite.exists_notMem_finset (slots.image Prod.snd)
      have free : n.threads p.dst k = none := by
        by_contra here
        exact fresh (Finset.mem_image_of_mem Prod.snd (within p.dst k here))
      exact absurd ⟨_, fun _ _ _ eq => (by cases eq), Network.moves_of_packet T flight free⟩ stuck
  · cases here : n.threads v k with
    | none => rfl
    | some t => exact absurd (Network.moves_of_thread T here) stuck

end Progress

/-! ## The bound -/

section Bound

variable [Fintype V]

/-- What the nodes have paid for: the messages that they took up, and those that they broadcast. -/
def Network.paid (T : Topology V) (n : Network V) : Nat :=
  ∑ v, (n.myHistory v).card * (2 * (T.peers v).card + 4) + (n.originated.map fun q => 2 * (T.peers q.1).card + 2).sum

/-- The steps that were made and those that are left are paid for. -/
def Spent (T : Topology V) (steps : Nat) (n : Network V) : Prop :=
  ∃ slots, n.Within slots ∧ steps + n.flight.length + ∑ slot ∈ slots, priceOf T n slot ≤ n.paid T

theorem Spent.fresh (T : Topology V) : Spent T 0 Network.fresh :=
  ⟨∅, fun v k busy => absurd rfl busy, by simp [Network.fresh]⟩

variable [DecidableEq V]

/-- A goroutine makes a step. -/
theorem Spent.setThread {steps : Nat} (spent : Spent T steps n) {v : V} {k : Nat} {after : Option (Thread V)}
    (threads : ∀ v' k', n'.threads v' k' = if v' = v ∧ k' = k then after else n.threads v' k')
    (price : n'.flight.length + (after.map (Thread.price T v)).getD 0 + n.paid T + 1 ≤
      n.flight.length + priceOf T n (v, k) + n'.paid T) : Spent T (steps + 1) n' := by
  obtain ⟨slots, within, bound⟩ := spent
  obtain ⟨within', sum⟩ := within.setThread (T := T) threads
  exact ⟨_, within', by omega⟩

/-- A message that is taken up is paid for. -/
theorem sum_taken (T : Topology V) {w : V} {id : Byte16} (new : id ∉ n.myHistory w) :
    ∑ v, (Function.update n.myHistory w (insert id (n.myHistory w)) v).card * (2 * (T.peers v).card + 4) =
      ∑ v, (n.myHistory v).card * (2 * (T.peers v).card + 4) + (2 * (T.peers w).card + 4) := by
  have split : ∀ f : V → Nat, f w + ∑ v ∈ Finset.univ.erase w, f v = ∑ v, f v := fun f =>
    Finset.add_sum_erase _ f (Finset.mem_univ w)
  have others : ∀ v ∈ Finset.univ.erase w,
      (Function.update n.myHistory w (insert id (n.myHistory w)) v).card * (2 * (T.peers v).card + 4) =
        (n.myHistory v).card * (2 * (T.peers v).card + 4) := by
    intro v member
    rw [Function.update_of_ne (Finset.ne_of_mem_erase member)]
  rw [← split, ← split fun v => (n.myHistory v).card * (2 * (T.peers v).card + 4), Finset.sum_congr rfl others,
    Function.update_self, Finset.card_insert_of_notMem new, Nat.succ_mul]
  omega

/-- **Every step is paid for.** -/
theorem Spent.moves {steps : Nat} (spent : Spent T steps n) (moves : Network.Moves T n e n') : Spent T (steps + 1) n' := by
  cases moves with
  | broadcast v k msg free =>
    have price := price_broadcast T n v msg
    refine spent.setThread (Network.setThread_threads _ _ · _ · _) ?_
    rw [priceOf_of_none free]
    simp only [Network.paid, Network.setThread, List.map_cons, List.sum_cons, Option.map_some, Option.getD_some]
    omega
  | discard i k p found seen =>
    obtain ⟨slots, within, bound⟩ := spent
    refine ⟨slots, within, ?_⟩
    have taken := List.length_eraseIdx_of_lt (List.getElem?_eq_some_iff.mp found).1
    have some' := (List.getElem?_eq_some_iff.mp found).1
    change steps + 1 + (n.flight.eraseIdx i).length + ∑ slot ∈ slots, priceOf T n slot ≤ n.paid T
    omega
  | accept i k p found new free =>
    have taken := List.length_eraseIdx_of_lt (List.getElem?_eq_some_iff.mp found).1
    have some' := (List.getElem?_eq_some_iff.mp found).1
    refine spent.setThread (Network.setThread_threads _ _ · _ · _) ?_
    rw [priceOf_of_none free]
    simp only [Network.paid, Network.setThread, Option.map_some, Option.getD_some, Thread.price, sum_taken T new]
    omega
  | mark v k order sender msg here =>
    refine spent.setThread (Network.setThread_threads _ _ · _ · _) ?_
    rw [priceOf_of_some here]
    simp only [Network.paid, Network.setThread, Network.markPeer, Option.map_some, Option.getD_some, Thread.price]
    omega
  | page v k sender msg here =>
    refine spent.setThread (Network.setThread_threads _ _ · _ · _) ?_
    rw [priceOf_of_some here]
    simp only [Network.paid, Network.setThread, Option.map_some, Option.getD_some, Thread.price]
    omega
  | forward v k msg here =>
    have price := price_broadcast T n v msg
    refine spent.setThread (Network.setThread_threads _ _ · _ · _) ?_
    rw [priceOf_of_some here]
    simp only [Network.paid, Network.setThread, Option.map_some, Option.getD_some, Thread.price] at price ⊢
    omega
  | send v k w order msg rest count here listed =>
    have fewer := Finset.card_erase_add_one listed
    refine spent.setThread (Network.setThread_threads _ _ · _ · _) ?_
    rw [priceOf_of_some here]
    simp only [Network.paid, Network.setThread, Network.markPeer, Option.map_some, Option.getD_some, Thread.price,
      List.length_append, List.length_singleton]
    omega
  | done v k msg count here =>
    refine spent.setThread (Network.setThread_threads _ _ · _ · _) ?_
    rw [priceOf_of_some here]
    simp only [Network.paid, Network.setThread, Option.map_none, Option.getD_none, Thread.price, Finset.card_empty]
    omega

/-- **A flood ends.** In a run in which every event does something there are no more events than the messages that were
broadcast account for: two for every peer and four more for each message and node, and for each broadcast two for
every peer of the originator and two more. And as long as not all is quiet, something goes on without a new broadcast. -/
theorem flooding_ends (T : Topology V) {events : List (Event V)}
    (moving : Transition.Along (Network.next T) (fun n e => Network.Moves T n e (Network.next T n e)) Network.fresh events) :
    let n := Transition.run (Network.next T) Network.fresh events
    events.length ≤ n.originated.length * ∑ v, (2 * (T.peers v).card + 4) +
        (n.originated.map fun q => 2 * (T.peers q.1).card + 2).sum ∧
      (¬ n.Quiet → ∃ e, (∀ v k msg, e ≠ .broadcast v k msg) ∧ Network.Moves T n e (Network.next T n e)) := by
  intro n
  have bound : Broadcasted n ∧ Spent T events.length n := by
    have step : ∀ (events : List (Event V)) {n : Network V} {steps : Nat},
        Transition.Along (Network.next T) (fun n e => Network.Moves T n e (Network.next T n e)) n events →
        Broadcasted n → Spent T steps n → Broadcasted (Transition.run (Network.next T) n events) ∧
          Spent T (steps + events.length) (Transition.run (Network.next T) n events) := by
      intro events
      induction events with
      | nil => exact fun _ named spent => ⟨named, spent⟩
      | cons e events ih =>
        intro n steps along named spent
        have rest := ih along.2 (named.moves along.1) (spent.moves along.1)
        rw [List.length_cons, Nat.add_comm events.length, ← Nat.add_assoc]
        exact rest
    have ends := step events moving Broadcasted.fresh (Spent.fresh T)
    rwa [Nat.zero_add] at ends
  obtain ⟨named, slots, within, spent⟩ := bound
  refine ⟨?_, within.progress T⟩
  have few : ∀ v, (n.myHistory v).card ≤ n.originated.length := by
    intro v
    have subset : n.myHistory v ⊆ (n.originated.map (·.2.msgId)).toFinset := fun id member =>
      List.mem_toFinset.mpr (named.history v id member)
    calc (n.myHistory v).card ≤ (n.originated.map (·.2.msgId)).toFinset.card := Finset.card_le_card subset
      _ ≤ (n.originated.map (·.2.msgId)).length := List.toFinset_card_le _
      _ = n.originated.length := List.length_map _
  have total : ∑ v, (n.myHistory v).card * (2 * (T.peers v).card + 4) ≤
      n.originated.length * ∑ v, (2 * (T.peers v).card + 4) := by
    rw [Finset.mul_sum]
    exact Finset.sum_le_sum fun v _ => Nat.mul_le_mul_right _ (few v)
  unfold Network.paid at spent
  omega

end Bound

section Worked

/-- A broadcast between two nodes: it may take 16 events, and has not come to its end after two. -/
theorem flooding_ends_pair :
    let events : List (Event Bool) := [.broadcast true 0 Worked.page, .send true 0 false []]
    let n := Transition.run (Network.next Worked.pair) Network.fresh events
    events.length ≤ 16 ∧ ∃ e, (∀ v k msg, e ≠ .broadcast v k msg) ∧
      Network.Moves Worked.pair n e (Network.next Worked.pair n e) := by
  intro events n
  have moving : Transition.Along (Network.next Worked.pair)
      (fun n e => Network.Moves Worked.pair n e (Network.next Worked.pair n e)) Network.fresh events :=
    ⟨.broadcast true 0 Worked.page rfl, .send true 0 false [] Worked.page {false} 0 rfl (by decide), trivial⟩
  have ends := flooding_ends Worked.pair moving
  exact ⟨ends.1.trans (by decide), ends.2 fun quiet => by cases quiet.flight⟩

end Worked

end TrustNet.Pager
