import Mathlib.Data.Fintype.Basic
import TrustNet.Protocol.Pager

/-!
# Flooding: who gets a page, and how often

The history answers each message id once, so the callback of a node is called at most
once for an id. It does not hold the messages that the node broadcast itself: a node that
gets its own message back pages it. What keeps a message from its originator are the
marks of the originator's neighbours, and a neighbour marks the originator only if the
originator's own copy is the first that it reads.
-/

namespace TrustNet.Pager
set_option autoImplicit false

variable {V : Type} {T : Topology V} {n n' : Network V} {e : Event V}

/-! ## At most once -/

/-- A handler that has not called the callback. -/
def Thread.Unpaged : Thread V → Prop
  | .unseen .. | .marked .. => True
  | .paged .. | .sending .. => False

/-- A message that was paged, or will be, is in the history, and is paged by one goroutine. -/
structure Once (n : Network V) : Prop where
  paged : ∀ v id, (v, id) ∈ n.pages.map Page.key → id ∈ n.myHistory v
  waiting : ∀ v k t, n.threads v k = some t → t.Unpaged →
    t.msgId ∈ n.myHistory v ∧ (v, t.msgId) ∉ n.pages.map Page.key
  single : ∀ v j k t t', n.threads v j = some t → n.threads v k = some t' → t.Unpaged → t'.Unpaged →
    t.msgId = t'.msgId → j = k
  nodup : (n.pages.map Page.key).Nodup

theorem Once.fresh : Once (Network.fresh : Network V) where
  paged v id member := by simp [Network.fresh] at member
  waiting v k t here := by simp [Network.fresh] at here
  single v j k t t' here := by simp [Network.fresh] at here
  nodup := List.nodup_nil

section Moves

variable [DecidableEq V]

/-- A goroutine goes on with the same message, or stops waiting; what is paged stays as it is. -/
theorem Once.goesOn (once : Once n) {v : V} {k : Nat} {t : Option (Thread V)}
    (histories : n'.myHistory = n.myHistory) (pages : n'.pages = n.pages)
    (threads : ∀ v' k', n'.threads v' k' = if v' = v ∧ k' = k then t else n.threads v' k')
    (same : ∀ after, t = some after → after.Unpaged →
      ∃ before, n.threads v k = some before ∧ before.Unpaged ∧ before.msgId = after.msgId) : Once n' := by
  -- every waiting goroutine was there before, waiting with the same message
  have before : ∀ v' k' after, n'.threads v' k' = some after → after.Unpaged →
      ∃ before, n.threads v' k' = some before ∧ before.Unpaged ∧ before.msgId = after.msgId := by
    intro v' k' after here unpaged
    rw [threads] at here
    split at here
    · rename_i target
      obtain ⟨rfl, rfl⟩ := target
      exact same after here unpaged
    · exact ⟨after, here, unpaged, rfl⟩
  constructor
  · rw [histories, pages]
    exact once.paged
  · intro v' k' after here unpaged
    obtain ⟨t₀, here₀, unpaged₀, id⟩ := before v' k' after here unpaged
    rw [histories, pages, ← id]
    exact once.waiting v' k' t₀ here₀ unpaged₀
  · intro v' j k' after after' here here' unpaged unpaged' ids
    obtain ⟨t₀, here₀, unpaged₀, id⟩ := before v' j after here unpaged
    obtain ⟨t₁, here₁, unpaged₁, id'⟩ := before v' k' after' here' unpaged'
    exact once.single v' j k' t₀ t₁ here₀ here₁ unpaged₀ unpaged₁ (by rw [id, id', ids])
  · rw [pages]
    exact once.nodup

theorem Once.moves (once : Once n) (moves : Network.Moves T n e n') : Once n' := by
  cases moves with
  | broadcast v k msg free =>
    exact once.goesOn rfl rfl (Network.setThread_threads _ _ · _ · _) fun after eq unpaged => by
      cases eq
      exact unpaged.elim
  | discard i k p found seen => exact ⟨once.paged, once.waiting, once.single, once.nodup⟩
  | accept i k p found new free =>
    -- the other goroutines wait with messages that were in the history before
    have old : ∀ v' k' t, n.threads v' k' = some t → t.Unpaged → v' = p.dst → t.msgId ≠ p.msg.msgId := by
      rintro v' k' t here unpaged rfl eq
      exact new (eq ▸ (once.waiting _ k' t here unpaged).1)
    have grows : ∀ v id, id ∈ n.myHistory v →
        id ∈ Function.update n.myHistory p.dst (insert p.msg.msgId (n.myHistory p.dst)) v := by
      intro v id member
      by_cases node : v = p.dst
      · subst node
        simp [member]
      · simpa [node] using member
    constructor
    · intro v id member
      exact grows v id (once.paged v id member)
    · intro v' k' t here unpaged
      rw [Network.setThread_threads] at here
      split at here
      · rename_i target
        obtain ⟨rfl, rfl⟩ := target
        cases here
        exact ⟨by simp [Thread.msgId, Network.setThread], fun member => new (once.paged _ _ member)⟩
      · obtain ⟨member, absent⟩ := once.waiting v' k' t here unpaged
        exact ⟨grows v' _ member, absent⟩
    · intro v' j k' t t' here here' unpaged unpaged' ids
      rw [Network.setThread_threads] at here here'
      split at here <;> split at here'
      · rename_i first second
        rw [first.2, second.2]
      · rename_i first second
        cases here
        exact absurd ids.symm (old v' k' t' here' unpaged' first.1)
      · rename_i first second
        cases here'
        exact absurd ids (old v' j t here unpaged second.1)
      · exact once.single v' j k' t t' here here' unpaged unpaged' ids
    · exact once.nodup
  | mark v k order sender msg here =>
    exact once.goesOn rfl rfl (Network.setThread_threads _ _ · _ · _) fun after eq unpaged => by
      cases eq
      exact ⟨_, here, trivial, rfl⟩
  | page v k sender msg here =>
    obtain ⟨member, absent⟩ := once.waiting v k _ here trivial
    constructor
    · intro v' id paged
      rcases List.mem_cons.mp paged with eq | paged
      · cases eq
        exact member
      · exact once.paged v' id paged
    · intro v' k' t here' unpaged
      rw [Network.setThread_threads] at here'
      split at here'
      · cases here'
        exact unpaged.elim
      · rename_i other
        obtain ⟨member', absent'⟩ := once.waiting v' k' t here' unpaged
        refine ⟨member', fun paged => ?_⟩
        rcases List.mem_cons.mp paged with eq | paged
        · obtain ⟨rfl, ids⟩ := Prod.mk.inj eq
          exact other ⟨rfl, once.single v' k' k t _ here' here unpaged trivial ids⟩
        · exact absent' paged
    · intro v' j k' t t' here₁ here₂ unpaged unpaged' ids
      rw [Network.setThread_threads] at here₁ here₂
      split at here₁
      · cases here₁
        exact unpaged.elim
      · split at here₂
        · cases here₂
          exact unpaged'.elim
        · exact once.single v' j k' t t' here₁ here₂ unpaged unpaged' ids
    · exact List.nodup_cons.mpr ⟨absent, once.nodup⟩
  | forward v k msg here =>
    exact once.goesOn rfl rfl (Network.setThread_threads _ _ · _ · _) fun after eq unpaged => by
      cases eq
      exact unpaged.elim
  | send v k w order msg rest count here listed =>
    exact once.goesOn rfl rfl (Network.setThread_threads _ _ · _ · _) fun after eq unpaged => by
      cases eq
      exact unpaged.elim
  | done v k msg count here =>
    exact once.goesOn rfl rfl (Network.setThread_threads _ _ · _ · _) fun after eq unpaged => by cases eq

end Moves

/-! ## Not back to the originator -/

/-- The originators, with the ids of their messages. -/
def Network.origins (n : Network V) : List (V × Byte16) := n.originated.map fun q => (q.1, q.2.msgId)

/-- The ids are distinct, and are not more than a set of marks holds. -/
structure Distinct (n : Network V) : Prop where
  nodup : (n.originated.map (·.2.msgId)).Nodup
  few : n.originated.length ≤ maxKnownTxs

theorem Distinct.unique (distinct : Distinct n) {o o' : V} {id : Byte16} (here : (o, id) ∈ n.origins)
    (there : (o', id) ∈ n.origins) : o = o' := by
  obtain ⟨q, member, eq⟩ := List.mem_map.mp here
  obtain ⟨q', member', eq'⟩ := List.mem_map.mp there
  have same := List.inj_on_of_nodup_map distinct.nodup member member'
    (by rw [(Prod.mk.inj eq).2, (Prod.mk.inj eq').2])
  rw [← (Prod.mk.inj eq).1, ← (Prod.mk.inj eq').1, same]

theorem exists_origin {id : Byte16} : id ∈ n.originated.map (·.2.msgId) ↔ ∃ o, (o, id) ∈ n.origins := by
  simp [Network.origins]

/-- A node whose peer is the originator reads the originator's copy of a message before any other. -/
def OriginatorFirst (T : Topology V) (n : Network V) : Event V → Prop
  | .receive i _ => ∀ p ∈ n.flight[i]?, p.msg.msgId ∉ n.myHistory p.dst →
      ∀ q ∈ n.origins, q.2 = p.msg.msgId → p.dst ∈ T.peers q.1 → p.src = q.1
  | _ => True

/-- What a goroutine of `v` rests on: before the mark no peer is marked, after it the originator is, if it is a peer,
and the peers that are left are neither marked nor the originator. -/
def Rests (T : Topology V) (n : Network V) (v : V) : Thread V → Prop
  | .unseen sender msg => msg.msgId ∈ n.myHistory v ∧ (∀ w, msg.msgId ∉ n.known v w) ∧
      ∀ o, (o, msg.msgId) ∈ n.origins → v ∈ T.peers o → sender = o
  | .marked _ msg | .paged msg => msg.msgId ∈ n.myHistory v ∧
      ∀ o, (o, msg.msgId) ∈ n.origins → v ∈ T.peers o → msg.msgId ∈ n.known v o
  | .sending msg rest _ => ((v, msg.msgId) ∈ n.origins ∨ msg.msgId ∈ n.myHistory v) ∧
      ∀ w ∈ rest, (w, msg.msgId) ∉ n.origins ∧ msg.msgId ∉ n.known v w

/-- No message is on its way to its originator. -/
structure Guarded (T : Topology V) (n : Network V) : Prop where
  history : ∀ v id, id ∈ n.myHistory v → (∃ o, (o, id) ∈ n.origins) ∧ (v, id) ∉ n.origins
  flight : ∀ p ∈ n.flight, (∃ o, (o, p.msg.msgId) ∈ n.origins) ∧ (p.dst, p.msg.msgId) ∉ n.origins
  known : ∀ v w id, id ∈ n.known v w → (v, id) ∈ n.origins ∨ id ∈ n.myHistory v
  threads : ∀ v k t, n.threads v k = some t → Rests T n v t
  single : ∀ v j k t t', n.threads v j = some t → n.threads v k = some t' → t.msgId = t'.msgId → j = k

theorem Guarded.fresh (T : Topology V) : Guarded T Network.fresh where
  history v id member := by simp [Network.fresh] at member
  flight p member := by simp [Network.fresh] at member
  known v w id member := by simp [Network.fresh] at member
  threads v k t here := by simp [Network.fresh] at here
  single v j k t t' here := by simp [Network.fresh] at here

/-- What a goroutine rests on is about its node and its message only. -/
theorem Rests.congr {v : V} {t : Thread V} (rests : Rests T n v t)
    (origins : ∀ o, (o, t.msgId) ∈ n'.origins ↔ (o, t.msgId) ∈ n.origins)
    (history : t.msgId ∈ n'.myHistory v ↔ t.msgId ∈ n.myHistory v)
    (known : ∀ w, t.msgId ∈ n'.known v w ↔ t.msgId ∈ n.known v w) : Rests T n' v t := by
  cases t <;> simp only [Thread.msgId] at origins history known <;>
    simpa only [Rests, origins, history, known] using rests

/-- A goroutine is about a message that is its node's own or in its history. -/
theorem Rests.about {v : V} {t : Thread V} (rests : Rests T n v t) :
    (v, t.msgId) ∈ n.origins ∨ t.msgId ∈ n.myHistory v := by
  cases t with
  | unseen sender msg => exact Or.inr rests.1
  | marked sender msg => exact Or.inr rests.1
  | paged msg => exact Or.inr rests.1
  | sending msg rest count => exact rests.1

theorem Guarded.exists_origin_of (guarded : Guarded T n) {v : V} {id : Byte16}
    (about : (v, id) ∈ n.origins ∨ id ∈ n.myHistory v) : ∃ o, (o, id) ∈ n.origins := by
  rcases about with own | seen
  · exact ⟨v, own⟩
  · exact (guarded.history v id seen).1

/-- A set of marks that lacks a message has space for it. -/
theorem Guarded.space (guarded : Guarded T n) (distinct : Distinct n) {v w : V} {id : Byte16}
    (about : (v, id) ∈ n.origins ∨ id ∈ n.myHistory v) (absent : id ∉ n.known v w) : (n.known v w).card < maxKnownTxs := by
  have all : insert id (n.known v w) ⊆ (n.originated.map (·.2.msgId)).toFinset := by
    intro x member
    rw [List.mem_toFinset, exists_origin]
    rcases Finset.mem_insert.mp member with rfl | member
    · exact guarded.exists_origin_of about
    · exact guarded.exists_origin_of (guarded.known v w x member)
  have bound := (Finset.card_le_card all).trans (List.toFinset_card_le _)
  rw [Finset.card_insert_of_notMem absent, List.length_map] at bound
  have few := distinct.few
  omega

section Steps

variable [DecidableEq V]

/-- A goroutine goes on with its message, and only marks and sends that message. -/
theorem Guarded.goesOn (guarded : Guarded T n) {v : V} {k : Nat} {before : Thread V} {after : Option (Thread V)}
    (here : n.threads v k = some before) (origins : n'.origins = n.origins) (histories : n'.myHistory = n.myHistory)
    (flight : ∀ p ∈ n'.flight, p ∈ n.flight ∨ (p.msg.msgId = before.msgId ∧ (p.dst, before.msgId) ∉ n.origins))
    (known : ∀ v' w id, ¬ (v' = v ∧ id = before.msgId) → (id ∈ n'.known v' w ↔ id ∈ n.known v' w))
    (threads : ∀ v' k', n'.threads v' k' = if v' = v ∧ k' = k then after else n.threads v' k')
    (rests : ∀ t, after = some t → t.msgId = before.msgId ∧ Rests T n' v t) : Guarded T n' := by
  have about := (guarded.threads v k before here).about
  -- the goroutines of the node after the step, by their messages before it
  have olds : ∀ v' k' t, n'.threads v' k' = some t → ∃ t₀, n.threads v' k' = some t₀ ∧ t₀.msgId = t.msgId := by
    intro v' k' t here'
    rw [threads] at here'
    split at here'
    · rename_i target
      obtain ⟨rfl, rfl⟩ := target
      exact ⟨before, here, (rests t here').1.symm⟩
    · exact ⟨t, here', rfl⟩
  constructor
  · rw [origins, histories]
    exact guarded.history
  · intro p member
    rw [origins]
    rcases flight p member with old | ⟨id, absent⟩
    · exact guarded.flight p old
    · rw [id]
      exact ⟨guarded.exists_origin_of about, absent⟩
  · intro v' w id member
    rw [origins, histories]
    by_cases target : v' = v ∧ id = before.msgId
    · rw [target.1, target.2]
      exact about
    · exact guarded.known v' w id ((known v' w id target).mp member)
  · intro v' k' t here'
    rw [threads] at here'
    split at here'
    · rename_i target
      rw [target.1]
      exact (rests t here').2
    · rename_i other
      have apart : ¬ (v' = v ∧ t.msgId = before.msgId) := by
        rintro ⟨rfl, ids⟩
        exact other ⟨rfl, guarded.single v' k' k t before here' here ids⟩
      refine (guarded.threads v' k' t here').congr (fun o => by rw [origins]) (by rw [histories]) fun w => ?_
      exact known v' w t.msgId apart
  · intro v' j k' t t' here₁ here₂ ids
    obtain ⟨t₁, old₁, id₁⟩ := olds v' j t here₁
    obtain ⟨t₂, old₂, id₂⟩ := olds v' k' t' here₂
    exact guarded.single v' j k' t₁ t₂ old₁ old₂ (by rw [id₁, id₂, ids])

/-- The marks after `AddTx` for a message that the peer was not marked with. -/
theorem Guarded.mem_markPeer (guarded : Guarded T n) (distinct : Distinct n) (order : List Byte16) {v w : V}
    {id : Byte16} (about : (v, id) ∈ n.origins ∨ id ∈ n.myHistory v) (absent : id ∉ n.known v w) (v' w' : V)
    (x : Byte16) :
    x ∈ (n.markPeer order v w id).known v' w' ↔ (v' = v ∧ w' = w ∧ x = id) ∨ x ∈ n.known v' w' := by
  rw [Network.markPeer_known, addTx_of_lt order id (guarded.space distinct about absent)]
  split
  · rename_i target
    rw [Finset.mem_insert, target.1, target.2]
    simp
  · rename_i other
    constructor
    · exact Or.inr
    · rintro (⟨rfl, rfl, rfl⟩ | member)
      · exact absurd ⟨rfl, rfl⟩ other
      · exact member

/-- A new message, broadcast by `v`. -/
theorem Guarded.broadcast (guarded : Guarded T n) {v : V} {k : Nat} {msg : BroadcastTextMsg}
    (new : msg.msgId ∉ n.originated.map (·.2.msgId)) :
    Guarded T ({ n with originated := (v, msg) :: n.originated }.setThread v k (some (n.broadcast T v msg))) := by
  rw [exists_origin] at new
  generalize after : Network.setThread _ v k _ = n'
  have origins : n'.origins = (v, msg.msgId) :: n.origins := by rw [← after]; rfl
  have histories : n'.myHistory = n.myHistory := by rw [← after]; rfl
  have marks : n'.known = n.known := by rw [← after]; rfl
  have packets : n'.flight = n.flight := by rw [← after]; rfl
  have threads : ∀ v' k', n'.threads v' k' =
      if v' = v ∧ k' = k then some (n.broadcast T v msg) else n.threads v' k' := by
    intro v' k'
    rw [← after]
    exact Network.setThread_threads _ _ _ _ _ _
  -- nothing of the network before is about the new message
  have old : ∀ {id : Byte16}, (∃ o, (o, id) ∈ n.origins) → ∀ o, (o, id) ∈ n'.origins ↔ (o, id) ∈ n.origins := by
    intro id exists_ o
    rw [origins, List.mem_cons]
    refine ⟨fun member => member.resolve_left fun eq => new ?_, Or.inr⟩
    rw [← (Prod.mk.inj eq).2]
    exact exists_
  have known : ∀ {v' : V} {k' : Nat} {t : Thread V}, n.threads v' k' = some t → ∃ o, (o, t.msgId) ∈ n.origins :=
    fun here => guarded.exists_origin_of (guarded.threads _ _ _ here).about
  constructor
  · intro v' id member
    rw [histories] at member
    obtain ⟨⟨o, origin⟩, absent⟩ := guarded.history v' id member
    exact ⟨⟨o, (old ⟨o, origin⟩ o).mpr origin⟩, fun own => absent ((old ⟨o, origin⟩ v').mp own)⟩
  · intro p member
    rw [packets] at member
    obtain ⟨⟨o, origin⟩, absent⟩ := guarded.flight p member
    exact ⟨⟨o, (old ⟨o, origin⟩ o).mpr origin⟩, fun own => absent ((old ⟨o, origin⟩ p.dst).mp own)⟩
  · intro v' w id member
    rw [marks] at member
    rw [histories, origins]
    exact (guarded.known v' w id member).imp (List.mem_cons_of_mem _) (fun seen => seen)
  · intro v' k' t here
    rw [threads] at here
    split at here
    · rename_i target
      rw [target.1]
      cases here
      refine ⟨Or.inl (by rw [origins]; exact List.mem_cons_self), fun w listed => ?_⟩
      obtain ⟨peer, unmarked⟩ := Finset.mem_filter.mp listed
      refine ⟨fun own => ?_, by rw [marks]; exact unmarked⟩
      rw [origins] at own
      rcases List.mem_cons.mp own with eq | own
      · exact T.loopless v ((Prod.mk.inj eq).1 ▸ peer)
      · exact new ⟨w, own⟩
    · exact (guarded.threads v' k' t here).congr (old (known here)) (by rw [histories]) (fun w => by rw [marks])
  · intro v' j k' t t' here₁ here₂ ids
    rw [threads] at here₁ here₂
    split at here₁ <;> split at here₂
    · rename_i first second
      rw [first.2, second.2]
    · cases here₁
      exact absurd (known here₂) (ids ▸ new)
    · cases here₂
      exact absurd (known here₁) (ids ▸ new)
    · exact guarded.single v' j k' t t' here₁ here₂ ids

/-- A message that is read for the first time. -/
theorem Guarded.accept (guarded : Guarded T n) {i k : Nat} {p : Packet V} (found : n.flight[i]? = some p)
    (new : p.msg.msgId ∉ n.myHistory p.dst) (first : OriginatorFirst T n (.receive i k)) :
    Guarded T ({ n with
      flight := n.flight.eraseIdx i
      myHistory := Function.update n.myHistory p.dst (insert p.msg.msgId (n.myHistory p.dst)) }.setThread
        p.dst k (some (.unseen p.src p.msg))) := by
  generalize after : Network.setThread _ p.dst k _ = n'
  have origins : n'.origins = n.origins := by rw [← after]; rfl
  have marks : n'.known = n.known := by rw [← after]; rfl
  have packets : n'.flight = n.flight.eraseIdx i := by rw [← after]; rfl
  have histories : ∀ v id, id ∈ n'.myHistory v ↔ (v = p.dst ∧ id = p.msg.msgId) ∨ id ∈ n.myHistory v := by
    intro v id
    rw [← after]
    by_cases node : v = p.dst
    · subst node
      simp [Network.setThread]
    · simp [Network.setThread, node]
  have threads : ∀ v' k', n'.threads v' k' =
      if v' = p.dst ∧ k' = k then some (.unseen p.src p.msg) else n.threads v' k' := by
    intro v' k'
    rw [← after]
    exact Network.setThread_threads _ _ _ _ _ _
  obtain ⟨origin, foreign⟩ := guarded.flight p (List.mem_of_getElem? found)
  have untouched : ¬ ((p.dst, p.msg.msgId) ∈ n.origins ∨ p.msg.msgId ∈ n.myHistory p.dst) := not_or.mpr ⟨foreign, new⟩
  have apart : ∀ {v' : V} {k' : Nat} {t : Thread V}, n.threads v' k' = some t →
      ¬ (v' = p.dst ∧ t.msgId = p.msg.msgId) := by
    rintro v' k' t here ⟨rfl, ids⟩
    exact untouched (ids ▸ (guarded.threads _ _ _ here).about)
  constructor
  · intro v id member
    rw [origins]
    rcases (histories v id).mp member with ⟨rfl, rfl⟩ | member
    · exact ⟨origin, foreign⟩
    · exact guarded.history v id member
  · intro q member
    rw [packets] at member
    rw [origins]
    exact guarded.flight q (List.mem_of_mem_eraseIdx member)
  · intro v w id member
    rw [marks] at member
    rw [origins, histories]
    exact (guarded.known v w id member).imp (fun own => own) Or.inr
  · intro v' k' t here
    rw [threads] at here
    split at here
    · rename_i target
      rw [target.1]
      cases here
      refine ⟨(histories _ _).mpr (Or.inl ⟨rfl, rfl⟩), fun w marked => ?_, fun o own peer => ?_⟩
      · rw [marks] at marked
        exact untouched (guarded.known p.dst w _ marked)
      · rw [origins] at own
        exact first p found new (o, p.msg.msgId) own rfl peer
    · refine (guarded.threads v' k' t here).congr (fun o => by rw [origins]) ?_ (fun w => by rw [marks])
      rw [histories, or_iff_right (apart here)]
  · intro v' j k' t t' here₁ here₂ ids
    rw [threads] at here₁ here₂
    split at here₁ <;> split at here₂
    · rename_i one two
      rw [one.2, two.2]
    · rename_i one two
      cases here₁
      exact absurd ⟨one.1, ids.symm⟩ (apart here₂)
    · rename_i one two
      cases here₂
      exact absurd ⟨two.1, ids⟩ (apart here₁)
    · exact guarded.single v' j k' t t' here₁ here₂ ids

theorem Guarded.moves (guarded : Guarded T n) (distinct : Distinct n) (first : OriginatorFirst T n e)
    (moves : Network.Moves T n e n') (new : Distinct n') : Guarded T n' := by
  cases moves with
  | broadcast v k msg free => exact guarded.broadcast (List.nodup_cons.mp new.nodup).1
  | discard i k p found seen =>
    exact ⟨guarded.history, fun q member => guarded.flight q (List.mem_of_mem_eraseIdx member), guarded.known,
      guarded.threads, guarded.single⟩
  | accept i k p found unread free => exact guarded.accept found unread first
  | mark v k order sender msg here =>
    obtain ⟨seen, unmarked, fromOrigin⟩ := guarded.threads v k _ here
    have marks := guarded.mem_markPeer distinct order (Or.inr seen) (unmarked sender)
    refine guarded.goesOn here rfl rfl (fun p member => Or.inl member) ?_ (Network.setThread_threads _ _ · _ · _) ?_
    · intro v' w id other
      refine (marks v' w id).trans (or_iff_right ?_)
      rintro ⟨node, -, eq⟩
      exact other ⟨node, eq⟩
    · rintro t ⟨⟩
      refine ⟨rfl, seen, fun o own peer => (marks v o _).mpr (Or.inl ⟨rfl, ?_, rfl⟩)⟩
      exact (fromOrigin o own peer).symm
  | page v k sender msg here =>
    refine guarded.goesOn here rfl rfl (fun p member => Or.inl member) (fun _ _ _ _ => Iff.rfl)
      (Network.setThread_threads _ _ · _ · _) ?_
    rintro t ⟨⟩
    exact ⟨rfl, guarded.threads v k _ here⟩
  | forward v k msg here =>
    obtain ⟨seen, marked⟩ := guarded.threads v k _ here
    refine guarded.goesOn here rfl rfl (fun p member => Or.inl member) (fun _ _ _ _ => Iff.rfl)
      (Network.setThread_threads _ _ · _ · _) ?_
    rintro t ⟨⟩
    refine ⟨rfl, Or.inr seen, fun w listed => ?_⟩
    obtain ⟨peer, unmarked⟩ := Finset.mem_filter.mp listed
    -- an originator among the peers is marked, and is not listed
    exact ⟨fun own => unmarked (marked w own (T.symm v w peer)), unmarked⟩
  | send v k w order msg rest count here listed =>
    obtain ⟨about, left⟩ := guarded.threads v k _ here
    obtain ⟨foreign, unmarked⟩ := left w listed
    have marks := guarded.mem_markPeer distinct order about unmarked
    refine guarded.goesOn here rfl rfl ?_ ?_ (Network.setThread_threads _ _ · _ · _) ?_
    · intro p member
      rcases List.mem_append.mp member with old | last
      · exact Or.inl old
      · rw [List.mem_singleton.mp last]
        exact Or.inr ⟨rfl, foreign⟩
    · intro v' w' id other
      refine (marks v' w' id).trans (or_iff_right ?_)
      rintro ⟨node, -, eq⟩
      exact other ⟨node, eq⟩
    · rintro t ⟨⟩
      refine ⟨rfl, about, fun w' kept => ?_⟩
      obtain ⟨ne, member⟩ := Finset.mem_erase.mp kept
      obtain ⟨foreign', unmarked'⟩ := left w' member
      refine ⟨foreign', fun marked => ?_⟩
      rcases (marks v w' _).mp marked with ⟨-, eq, -⟩ | marked
      · exact ne eq
      · exact unmarked' marked
  | done v k msg count here =>
    refine guarded.goesOn here rfl rfl (fun p member => Or.inl member) (fun _ _ _ _ => Iff.rfl)
      (Network.setThread_threads _ _ · _ · _) ?_
    rintro t ⟨⟩

/-- What was broadcast stays recorded, so the messages before an event were distinct too. -/
theorem Distinct.before (moves : Network.Moves T n e n') (distinct : Distinct n') : Distinct n := by
  cases moves with
  | broadcast v k msg free =>
    exact ⟨(List.nodup_cons.mp distinct.nodup).2, (Nat.le_succ _).trans distinct.few⟩
  | discard => exact ⟨distinct.nodup, distinct.few⟩
  | accept => exact ⟨distinct.nodup, distinct.few⟩
  | mark => exact ⟨distinct.nodup, distinct.few⟩
  | page => exact ⟨distinct.nodup, distinct.few⟩
  | forward => exact ⟨distinct.nodup, distinct.few⟩
  | send => exact ⟨distinct.nodup, distinct.few⟩
  | done => exact ⟨distinct.nodup, distinct.few⟩

/-- **Flooding.** However the goroutines and the messages are scheduled, the callback of a node is called at most once
for a message id; and if the originator's neighbours read the originator's copy of a message first, it is never called
at the originator. -/
theorem flooding_safe (T : Topology V) (events : List (Event V))
    (distinct : Distinct (Transition.run (Network.next T) Network.fresh events)) :
    let n := Transition.run (Network.next T) Network.fresh events
    (∀ v id, (n.pages.map Page.key).count (v, id) ≤ 1) ∧
      (Transition.Along (Network.next T) (OriginatorFirst T) Network.fresh events →
        ∀ q ∈ n.originated, (q.1, q.2.msgId) ∉ n.pages.map Page.key) := by
  intro n
  have once : Once n := Network.keeps_of_moves (T := T) Once (P := fun _ _ => True)
    (fun _ _ _ once _ moves => once.moves moves) Once.fresh (Transition.along_true _ _)
  refine ⟨fun v id => List.nodup_iff_count_le_one.mp once.nodup (v, id), fun along q member paged => ?_⟩
  have guarded : Distinct n → Guarded T n := by
    refine Network.keeps_of_moves (fun n => Distinct n → Guarded T n) ?_ (fun _ => Guarded.fresh T) along
    intro n e n' guarded first moves new
    have before := new.before moves
    exact (guarded before).moves before first moves new
  have own : (q.1, q.2.msgId) ∈ n.origins := List.mem_map.mpr ⟨q, member, rfl⟩
  exact ((guarded distinct).history q.1 q.2.msgId (once.paged _ _ paged)).2 own

end Steps

instance (n : Network V) : Decidable (Distinct n) :=
  decidable_of_iff ((n.originated.map (·.2.msgId)).Nodup ∧ n.originated.length ≤ maxKnownTxs)
    ⟨fun both => ⟨both.1, both.2⟩, fun distinct => ⟨distinct.nodup, distinct.few⟩⟩

instance [DecidableEq V] (T : Topology V) (n : Network V) (e : Event V) : Decidable (OriginatorFirst T n e) :=
  match e with
  | .receive i _ => inferInstanceAs (Decidable (∀ p ∈ n.flight[i]?, _))
  | .broadcast .. | .mark .. | .page .. | .forward .. | .send .. | .done .. => instDecidableTrue

namespace Worked

/-- Three nodes, connected pairwise. -/
def triangle : Topology (Fin 3) := ⟨fun v => Finset.univ.erase v, by decide, by decide⟩

def page : BroadcastTextMsg := ⟨⟨List.replicate 16 1, rfl⟩, "hello"⟩

/-- Node 0 broadcasts to the others. -/
def paging : List (Event (Fin 3)) := [.broadcast 0 0 page, .send 0 0 1 [], .send 0 0 2 [], .done 0 0]

/-- The handler of message `i` in flight, at `v`, up to the peers that it forwards to. -/
def handling (v : Fin 3) (i : Nat) : List (Event (Fin 3)) := [.receive i 0, .mark v 0 [], .page v 0, .forward v 0]

/-- **A node pages its own message.** Node 1 forwards the message of node 0 to node 2, which reads it before the copy of
node 0, marks node 1 only and forwards the message to node 0. -/
theorem own_message_paged :
    let n := Transition.run (Network.next triangle) Network.fresh
      (paging ++ handling 1 0 ++ [.send 1 0 2 []] ++ handling 2 1 ++ [.send 2 0 0 []] ++ handling 0 1)
    Distinct n ∧ (0, page) ∈ n.originated ∧ (0, page.msgId) ∈ n.pages.map Page.key := by
  decide +kernel

end Worked

/-- With the copies of node 0 read first, the others page its message once, and node 0 does not. -/
theorem flooding_safe_triangle :
    let n := Transition.run (Network.next Worked.triangle) Network.fresh
      (Worked.paging ++ Worked.handling 1 0 ++ [.send 1 0 2 []] ++ Worked.handling 2 0 ++ [.send 2 0 1 []])
    Distinct n ∧ (0, Worked.page) ∈ n.originated ∧ (n.pages.map Page.key).count (2, Worked.page.msgId) ≤ 1 ∧
      (0, Worked.page.msgId) ∉ n.pages.map Page.key := by
  intro n
  have distinct : Distinct n := by decide +kernel
  have here : (0, Worked.page) ∈ n.originated := by decide +kernel
  obtain ⟨once, never⟩ := flooding_safe Worked.triangle _ distinct
  exact ⟨distinct, here, once 2 _, never (by decide +kernel) (0, Worked.page) here⟩

end TrustNet.Pager
