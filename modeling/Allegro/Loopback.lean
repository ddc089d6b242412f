import Allegro.Agreement
import Allegro.Counters

/-!
# A node on a loopback channel

`crates/consensus/src/loopback.rs`: the in-process channel of a single node. Its
sender hands every message to the node's own receiver, whoever the recipients are,
and drops what does not fit. The channel behind it has to have room for a message.

`Solo` is a node whose block channel is a loopback: the relay's transport is its
sender, and the block receiver takes its messages from the other end.

Results:
1. `sends_eq_offers`: the relay puts a block into the channel if it is stored as an own
   block and there is room.
2. `returned_step`: each step takes such a block from the store over the channel to the
   received blocks, and its counter with it.
3. `own_blocks_come_back`: what a solo node has broadcast is what it has received, then
   what is under way.
4. `solo_simulated`: a run of a solo node is a run of a network of one.
5. `solo_records_bound`: a solo node records every block as its digest names it,
   whatever its engine asks for.
-/

namespace Allegro

open Run Node Machine

/-! ## The channel -/

/-- What a send comes to: `Feedback::Ok`, a rejected submission, or `Feedback::Closed`. -/
inductive SendResult
  | ok
  | rejected
  | closed
deriving DecidableEq

/-- Both ends of `loopback_channel`. The messages under way come from the node's own
key. -/
structure Loopback where
  selfKey : PublicKey
  queue : Fifo (PublicKey × Bytes)
  receiverDropped : Bool

namespace Loopback

/-- The ends of a channel with room for `capacity` messages. -/
def fresh (selfKey : PublicKey) (capacity : Nat) : Loopback where
  selfKey := selfKey
  queue := Fifo.empty capacity
  receiverDropped := false

/-- The most permits that tokio's semaphore hands out, `usize::MAX >> 3`. -/
def MAX_PERMITS : Nat := 2 ^ 61 - 1

/-- `loopback_channel`. `none` is the panic of tokio's `mpsc::channel`. -/
def new (selfKey : PublicKey) (capacity : Nat) : Option Loopback :=
  if 0 < capacity ∧ capacity ≤ MAX_PERMITS then some (fresh selfKey capacity) else none

/-- `LoopbackSender::check`: there is no rate limit, and one recipient. -/
def check (ch : Loopback) (_recipients : Recipients) : Option (List PublicKey) := some [ch.selfKey]

/-- `LoopbackCheckedSender::send`. -/
def send (ch : Loopback) (message : Bytes) : Loopback × SendResult :=
  if ch.receiverDropped then (ch, .closed)
  else
    match ch.queue.trySend (ch.selfKey, message) with
    | some queue => ({ ch with queue := queue }, .ok)
    | none => (ch, .rejected)

/-- `LoopbackReceiver::recv`, if a message is there. -/
def recv (ch : Loopback) : Option ((PublicKey × Bytes) × Loopback) :=
  ch.queue.next.map fun (msg, queue) => (msg, { ch with queue := queue })

/-- Whether a send would be accepted, whatever the message. -/
def accepts (ch : Loopback) : Bool := (ch.send []).2 = .ok

/-- The sending end, as the transport of the relay. -/
def transport (ch : Loopback) : Transport where
  check := fun recipients => (ch.check recipients).isSome
  accepted := ch.accepts

theorem accepts_iff {ch : Loopback} (hopen : ch.receiverDropped = false) :
    ch.accepts = true ↔ ch.queue.items.length < ch.queue.cap := by
  simp only [accepts, send, hopen, Bool.false_eq_true, if_false, decide_eq_true_iff]
  cases hsend : ch.queue.trySend (ch.selfKey, []) with
  | some queue => exact ⟨fun _ => (Fifo.trySend_eq_some hsend).1, fun _ => rfl⟩
  | none =>
    have hfull := Fifo.trySend_eq_none.mp hsend
    refine ⟨?_, fun hroom => absurd hroom (Nat.not_lt.mpr hfull)⟩
    rintro ⟨⟩

/-- The messages under way. -/
def underWay (ch : Loopback) : List Bytes := ch.queue.items.map Prod.snd

theorem send_of_accepts {ch : Loopback} (h : ch.accepts = true) (message : Bytes) :
    (ch.send message).1.underWay = ch.underWay ++ [message] ∧
      (ch.send message).1.queue.cap = ch.queue.cap ∧
      (ch.send message).1.receiverDropped = ch.receiverDropped := by
  have hok : (ch.send []).2 = .ok := of_decide_eq_true h
  unfold send at hok ⊢
  split at hok
  · cases hok
  · next hopen =>
    rw [if_neg hopen]
    split at hok
    · next queue hsend =>
      obtain ⟨hroom, -, -⟩ := Fifo.trySend_eq_some hsend
      cases hmsg : ch.queue.trySend (ch.selfKey, message) with
      | none => exact absurd hroom (Nat.not_lt.mpr (Fifo.trySend_eq_none.mp hmsg))
      | some queue' =>
        obtain ⟨-, hitems, hcap⟩ := Fifo.trySend_eq_some hmsg
        refine ⟨?_, hcap, rfl⟩
        show queue'.items.map Prod.snd = _
        rw [hitems, List.map_append]
        rfl
    · cases hok

theorem recv_eq_some {ch : Loopback} (msg : PublicKey × Bytes) (ch' : Loopback)
    (h : ch.recv = some (msg, ch')) :
    ch.underWay = msg.2 :: ch'.underWay ∧ ch'.queue.cap = ch.queue.cap ∧
      ch'.receiverDropped = ch.receiverDropped := by
  obtain ⟨⟨msg', queue⟩, hnext, heq⟩ := Option.map_eq_some_iff.mp h
  cases heq
  obtain ⟨hitems, hcap⟩ := Fifo.next_eq_some hnext
  refine ⟨?_, hcap, rfl⟩
  rw [underWay, hitems]
  rfl

theorem underWay_length_le (ch : Loopback) : ch.underWay.length ≤ ch.queue.cap := by
  rw [underWay, List.length_map]
  exact ch.queue.bounded

end Loopback

/-! ## The node -/

/-- A node whose block channel is a loopback. -/
structure Solo where
  node : Node
  channel : Loopback

namespace Solo

variable {ρ : Type}

/-- A step of one of the node's tasks, except for those on the block channel: the relay
broadcasts a block, and the receiver takes a message. Receiving never fails. -/
inductive Event (ρ : Type)
  | task (e : Node.Event ρ)
  | broadcast (digest : Digest) (plan : Plan)
  | deliver

/-- Whether a step of a node is one on the block channel. -/
def onBlockChannel : Node.Event ρ → Bool
  | .blockMessage _ => true
  | .blockChannelError => true
  | .broadcast _ _ _ => true
  | _ => false

/-- What the relay hands to the channel, if it is accepted. -/
def sends (s : Solo) (digest : Digest) (plan : Plan) : List Bytes :=
  s.node.toApp.sends (.broadcast digest plan s.channel.transport)

def step (B : PayloadBuilder ρ) (s : Solo) : Event ρ → Solo
  | .task e => if onBlockChannel e then s else { s with node := s.node.step B e }
  | .broadcast digest plan =>
    { node := s.node.step B (.broadcast digest plan s.channel.transport)
      channel := (s.sends digest plan).foldl (fun ch message => (ch.send message).1) s.channel }
  | .deliver =>
    match s.channel.recv with
    | none => s
    | some ((_, data), channel) => ⟨s.node.step B (.blockMessage data), channel⟩

/-- The own block that the relay puts into the channel: one that is stored, if there is
room. -/
def offers (s : Solo) : Event ρ → List (Digest × Bytes)
  | .broadcast digest _ =>
    match s.node.pendingBlocks.value.lookup digest with
    | some bytes =>
      if s.channel.queue.items.length < s.channel.queue.cap then [(digest, bytes)] else []
    | none => []
  | _ => []

/-- The environment's answers in the step meet `P`. -/
def Answers (P : ρ → Prop) (e : Event ρ) : Prop :=
  ∀ e', e = .task e' → ∀ env, e'.env = some env → P env

/-- A node and its channel, before the first step. -/
def start (n : Node) (selfKey : PublicKey) (capacity : Nat) : Solo where
  node := n
  channel := .fresh selfKey capacity

/-- The own blocks that have come back to the node, and those on their way, all as they
were broadcast. The last one that came back under a digest is the one that is kept, and
nobody else's is. -/
structure Returned (received underWay : List (Digest × Bytes)) (s : Solo) : Prop where
  stored : s.node.receivedBlocks.value =
    received.foldl (fun store block => store.insert block.1 block.2) ∅
  queued : s.channel.underWay = underWay.map fun block => wireMessage block.1 block.2
  counted : ∃ m, s.node.metrics = some m ∧
    m.blocksBroadcast = .ofNat (received ++ underWay).length ∧
    m.blocksReceived = .ofNat received.length

theorem sends_cases (s : Solo) (digest : Digest) (plan : Plan) :
    s.sends digest plan = [] ∨
      s.channel.accepts = true ∧ ∃ message, s.sends digest plan = [message] := by
  simp only [sends, App.sends]
  split
  · next submission _ =>
    by_cases haccepts : s.channel.accepts = true
    · exact .inr ⟨haccepts, submission.message, if_pos haccepts⟩
    · exact .inl (if_neg haccepts)
  · exact .inl rfl

theorem channel_broadcast (B : PayloadBuilder ρ) (s : Solo) (digest : Digest) (plan : Plan) :
    (s.step B (.broadcast digest plan)).channel.underWay =
        s.channel.underWay ++ s.sends digest plan ∧
      (s.step B (.broadcast digest plan)).channel.queue.cap = s.channel.queue.cap ∧
      (s.step B (.broadcast digest plan)).channel.receiverDropped = s.channel.receiverDropped := by
  show ((s.sends digest plan).foldl _ s.channel).underWay = _ ∧
    ((s.sends digest plan).foldl _ s.channel).queue.cap = _ ∧
    ((s.sends digest plan).foldl _ s.channel).receiverDropped = _
  rcases s.sends_cases digest plan with hnone | ⟨haccepts, message, hone⟩
  · rw [hnone]
    exact ⟨(List.append_nil _).symm, rfl, rfl⟩
  · rw [hone]
    exact Loopback.send_of_accepts haccepts message

/-! ## Own blocks -/

variable {B : PayloadBuilder ρ} {s : Solo} {received underWay : List (Digest × Bytes)}

/-- The stores of the node are healthy, its receiver is there, and the channel has room for
`capacity` messages. -/
structure Open (capacity : Nat) (s : Solo) : Prop where
  healthy : s.node.Healthy
  receiver : s.channel.receiverDropped = false
  capacity : s.channel.queue.cap = capacity

theorem open_step {capacity : Nat} (e : Event ρ) (h : s.Open capacity) :
    (s.step B e).Open capacity := by
  cases e with
  | task e =>
    simp only [step]
    split
    · exact h
    · exact ⟨healthy_step e h.healthy, h.receiver, h.capacity⟩
  | broadcast digest plan =>
    obtain ⟨-, hcap, hdropped⟩ := channel_broadcast B s digest plan
    exact ⟨healthy_step _ h.healthy, hdropped.trans h.receiver, hcap.trans h.capacity⟩
  | deliver =>
    simp only [step]
    cases hrecv : s.channel.recv with
    | none => exact h
    | some p =>
      obtain ⟨-, hcap, hdropped⟩ := Loopback.recv_eq_some p.1 p.2 hrecv
      exact ⟨healthy_step _ h.healthy, hdropped.trans h.receiver, hcap.trans h.capacity⟩

theorem sends_eq_offers {capacity : Nat} (h : s.Open capacity) (digest : Digest) (plan : Plan) :
    s.sends digest plan =
      (s.offers (.broadcast digest plan : Event ρ)).map fun block =>
        wireMessage block.1 block.2 := by
  have hread : s.node.pendingBlocks.read = some s.node.pendingBlocks.value :=
    Lock.read_eq_some.mpr ⟨h.healthy.pendingBlocks, rfl⟩
  simp only [sends, App.sends, offers, BlockRelay.broadcast, hread, Option.map_some]
  cases s.node.pendingBlocks.value.lookup digest with
  | none => rfl
  | some bytes =>
    have hcheck : s.channel.transport.check plan.recipients = true := rfl
    simp only [hcheck, if_true]
    by_cases hroom : s.channel.queue.items.length < s.channel.queue.cap
    · have haccepted : s.channel.transport.accepted = true :=
        (Loopback.accepts_iff h.receiver).mpr hroom
      simp only [haccepted, if_true, if_pos hroom, List.map_cons, List.map_nil]
    · have hrejected : s.channel.transport.accepted ≠ true :=
        fun haccepted => hroom ((Loopback.accepts_iff h.receiver).mp haccepted)
      simp only [if_neg hrejected, if_neg hroom, List.map_nil]

/-- The tasks off the block channel leave the received blocks and both counters alone. -/
theorem returned_task {e : Node.Event ρ} (hl : s.node.Healthy) (hoff : onBlockChannel e = false)
    (h : s.Returned received underWay) :
    Returned received underWay { s with node := s.node.step B e } := by
  obtain ⟨m, hm, hbroadcast, hreceived⟩ := h.counted
  have hne : ∀ data, e ≠ .blockMessage data := by
    rintro data rfl
    cases hoff
  refine ⟨?_, h.queued, ?_⟩
  · show (s.node.step B e).receivedBlocks.value = _
    rw [receivedBlocks_step hne, h.stored]
  · rcases toApp_step (B := B) s.node e with hsame | ⟨ae, hae, hs⟩
    · exact ⟨m, (congrArg (·.metrics) hsame).trans hm, hbroadcast, hreceived⟩
    · obtain ⟨m', hm', hcounted⟩ := CountersLemmas.counted_step ae hl hm
      have hnone : s.node.toApp.sends ae = [] ∧ ae.blocks = [] := by
        cases hae with
        | blockMessage | broadcast => cases hoff
        | enqueue | recv | built | validated | blockChannelError | report => exact ⟨rfl, rfl⟩
      have hb := hcounted.broadcast
      have hr := hcounted.received
      rw [hnone.1] at hb
      rw [hnone.2] at hr
      exact ⟨m', (congrArg (·.metrics) hs).trans hm', hb.trans hbroadcast, hr.trans hreceived⟩

/-- The relay puts a block behind those under way, and counts it. -/
theorem returned_broadcast {capacity : Nat} (ho : s.Open capacity) (digest : Digest) (plan : Plan)
    (h : s.Returned received underWay) :
    (s.step B (.broadcast digest plan)).Returned received
      (underWay ++ s.offers (.broadcast digest plan : Event ρ)) := by
  obtain ⟨m, hm, hbroadcast, hreceived⟩ := h.counted
  have hsends := sends_eq_offers (ρ := ρ) ho digest plan
  refine ⟨?_, ?_, ?_⟩
  · show (s.node.step B (.broadcast digest plan s.channel.transport)).receivedBlocks.value = _
    rw [receivedBlocks_step (by rintro data ⟨⟩), h.stored]
  · rw [(channel_broadcast B s digest plan).1, h.queued, hsends, List.map_append]
  · obtain ⟨m', hm', hcounted⟩ := CountersLemmas.counted_step
      (.broadcast digest plan s.channel.transport) ho.healthy hm
    have hb : m'.blocksBroadcast = bump (s.sends digest plan).length m.blocksBroadcast :=
      hcounted.broadcast
    refine ⟨m', hm', ?_, hcounted.received.trans hreceived⟩
    rw [hb, hbroadcast, bump_ofNat, hsends, List.length_map, ← List.length_append,
      List.append_assoc]

/-- The receiver stores the block that is first on the way, and counts it. -/
theorem returned_deliver {capacity : Nat} (ho : s.Open capacity)
    (h : s.Returned received underWay) :
    ∃ received' underWay', received' ++ underWay' = received ++ underWay ∧
      (s.step B .deliver).Returned received' underWay' := by
  simp only [step]
  cases hrecv : s.channel.recv with
  | none => exact ⟨received, underWay, rfl, h⟩
  | some p =>
    obtain ⟨hunder, -, -⟩ := Loopback.recv_eq_some p.1 p.2 hrecv
    have hmessages := h.queued
    rw [hunder] at hmessages
    cases underWay with
    | nil => cases hmessages
    | cons block rest =>
      obtain ⟨hdata, hrest⟩ := List.cons.inj hmessages
      obtain ⟨m, hm, hbroadcast, hreceived⟩ := h.counted
      obtain ⟨m', hm', hcounted⟩ := CountersLemmas.counted_step
        (.blockMessage p.1.2) ho.healthy hm
      have hone : (App.Event.blocks (.blockMessage p.1.2)).length = 1 := by
        rw [hdata, App.Event.blocks, parse_wireMessage]
        rfl
      have hr := hcounted.received
      rw [hone, hreceived, bump_ofNat] at hr
      refine ⟨received ++ [block], rest, List.append_assoc _ _ _, ?_, hrest, m', hm', ?_, ?_⟩
      · show (receiveBlock s.node.toActor p.1.2).receivedBlocks.value = _
        rw [hdata, receiveBlock, parse_wireMessage, List.foldl_concat, ← h.stored]
        simp only [ho.healthy.receivedBlocks, Bool.false_eq_true, if_false]
        exact Lock.modify_value ho.healthy.receivedBlocks _
      · rw [List.append_assoc]
        exact hcounted.broadcast.trans hbroadcast
      · rw [List.length_append]
        exact hr

/-- One step: what comes into the channel goes behind what is under way, and what is
received is taken from the front. -/
theorem returned_step {capacity : Nat} (e : Event ρ) (ho : s.Open capacity)
    (h : s.Returned received underWay) :
    ∃ received' underWay', received' ++ underWay' = received ++ underWay ++ s.offers e ∧
      (s.step B e).Returned received' underWay' := by
  cases e with
  | task e =>
    refine ⟨received, underWay, (List.append_nil _).symm, ?_⟩
    simp only [step]
    split
    · exact h
    · next hoff => exact returned_task ho.healthy (Bool.eq_false_iff.mpr hoff) h
  | broadcast digest plan =>
    exact ⟨received, _, (List.append_assoc _ _ _).symm, returned_broadcast ho digest plan h⟩
  | deliver =>
    rw [show s.offers (.deliver : Event ρ) = [] from rfl, List.append_nil]
    exact returned_deliver ho h

end Solo

/-- In every run of a node over a loopback channel, with any payload builder and whatever
its engine asks for: the own blocks that it has been asked to broadcast while the channel
had room are, in this order, those that it has received and those under way, which are no
more than the channel holds. Its store of received blocks has those that were received and
no others, as they were broadcast, and its counters have their numbers, modulo 2^64. -/
theorem own_blocks_come_back {ρ : Type} (B : PayloadBuilder ρ) (validators : ValidatorSet)
    (g : GenesisInfo) (senders : Nat) (selfKey : PublicKey) (capacity : Nat) (channel : Loopback)
    (hchannel : Loopback.new selfKey capacity = some channel) (es : List (Solo.Event ρ)) :
    let start : Solo := ⟨Node.new validators (some {}) g senders, channel⟩
    ∃ received underWay, trace (Solo.step B) Solo.offers start es = received ++ underWay ∧
      (run (Solo.step B) start es).Returned received underWay ∧ underWay.length ≤ capacity := by
  intro start
  obtain rfl : Loopback.fresh selfKey capacity = channel :=
    (Option.ite_some_none_eq_some.mp hchannel).2
  have hopen : ∀ es, (run (Solo.step B) start es).Open capacity :=
    run_invariant (fun _ e h => Solo.open_step e h)
      ⟨App.healthy_new validators (some {}) g, rfl, rfl⟩
  obtain ⟨received, underWay, hoffers, hreturned⟩ :=
    trace_invariant (Solo.step B) start
      (P := fun es s => ∃ received underWay,
        trace (Solo.step B) Solo.offers start es = received ++ underWay ∧
          s.Returned received underWay)
      ⟨[], [], rfl, rfl, rfl, {}, rfl, rfl, rfl⟩ (fun es e ih => by
        obtain ⟨received, underWay, hoffers, h⟩ := ih
        obtain ⟨received', underWay', hsplit, h'⟩ := Solo.returned_step (B := B) e (hopen es) h
        exact ⟨received', underWay', by rw [trace_concat, hoffers, hsplit], h'⟩) es
  refine ⟨received, underWay, hoffers, hreturned, ?_⟩
  have hbound := (run (Solo.step B) start es).channel.underWay_length_le
  rwa [hreturned.queued, List.length_map, (hopen es).capacity] at hbound

/-- Block `one` is built and broadcast, once more while the channel is full, and again after
it was received. -/
def rebroadcastRun : List (Solo.Event (Reth sampleAlloy)) :=
  [.task (.enqueue (.propose (samplePropose .EMPTY 1))), .task (.recv 11000), .task .buildFcu,
    .task (.built (sampleReth .one)), .broadcast SampleHeader.one.digest (.propose ⟨0, 1⟩),
    .broadcast SampleHeader.one.digest (.forward ⟨0, 1⟩ (.one sampleKey)), .deliver,
    .broadcast SampleHeader.one.digest (.propose ⟨0, 1⟩)]

theorem two_of_three_come_back :
    ∃ received underWay,
      [(SampleHeader.one.digest, [2]), (SampleHeader.one.digest, [2])] = received ++ underWay ∧
        (run (Solo.step (createEnginePayloadBuilder sampleAlloy))
          ⟨Node.new sampleValidators (some {}) sampleGenesisInfo 1, Loopback.fresh sampleKey 1⟩
          rebroadcastRun).Returned received underWay ∧
        underWay.length ≤ 1 := by
  have hoffers : trace (Solo.step (createEnginePayloadBuilder sampleAlloy)) Solo.offers
      ⟨Node.new sampleValidators (some {}) sampleGenesisInfo 1, Loopback.fresh sampleKey 1⟩
      rebroadcastRun =
        [(SampleHeader.one.digest, [2]), (SampleHeader.one.digest, [2])] := by decide
  rw [← hoffers]
  exact own_blocks_come_back (createEnginePayloadBuilder sampleAlloy) sampleValidators
    sampleGenesisInfo 1 sampleKey 1 (Loopback.fresh sampleKey 1) rfl rebroadcastRun

/-! ## A network of one -/

namespace LoopbackLemmas

variable {A : Alloy}

/-- The node is the party of the network, and what is under way was sent. -/
structure Simulated (s : Solo) (t : Net Unit Node Bytes) : Prop where
  party : t.party () = s.node
  wire : ∀ message ∈ s.channel.underWay, message ∈ t.wire

/-- A step of the node that the network allows is simulated by that step, if no more comes
under way than the node sends. -/
theorem Simulated.fire {s s' : Solo} {t : Net Unit Node Bytes} {e : Node.Event (Reth A)}
    (h : Simulated s t) (hreceives : ∀ data, (machine A).receives e = some data → data ∈ t.wire)
    (hnode : s'.node = s.node.prodStep A e)
    (hunder : ∀ message ∈ s'.channel.underWay,
      message ∈ s.channel.underWay ∨ message ∈ (machine A).sends s.node e) :
    Simulated s' (run (machine A).netStep t [((), e)]) := by
  have hfire : (machine A).netStep t ((), e) = (machine A).fire t () e := by
    rcases (machine A).netStep_cases t (((), e) : Unit × Node.Event (Reth A)) with
      ⟨hfire, -⟩ | ⟨-, hsome⟩
    · exact hfire
    · obtain ⟨data, hdata⟩ := Option.isSome_iff_exists.mp hsome
      simp only [Machine.netStep, hdata, if_pos (hreceives data hdata)]
  show Simulated s' ((machine A).netStep t ((), e))
  rw [hfire]
  constructor
  · rw [hnode, ← h.party]
    simp only [Machine.fire, Function.update_self]
    rfl
  · intro message hmem
    rcases hunder message hmem with hold | hnew
    · exact List.mem_append_left _ (h.wire message hold)
    · refine List.mem_append_right _ ?_
      rw [h.party]
      exact hnew

theorem receives_of_not_onBlockChannel {e : Node.Event (Reth A)}
    (h : Solo.onBlockChannel e = false) : (machine A).receives e = none := by
  cases e with
  | blockMessage data => cases h
  | _ => rfl

/-- A step of a solo node is a step of a network of one, or none. -/
theorem solo_simulated {P : Reth A → Prop} (s : Solo) (t : Net Unit Node Bytes)
    (e : Solo.Event (Reth A)) (he : Solo.Answers P e) (h : Simulated s t) :
    ∃ ies : List (Unit × Node.Event (Reth A)),
      (∀ ie ∈ ies, ∀ reth, ie.2.env = some reth → P reth) ∧
      Simulated (s.step (createEnginePayloadBuilder A) e) (run (machine A).netStep t ies) := by
  have hnone : ∃ ies : List (Unit × Node.Event (Reth A)),
      (∀ ie ∈ ies, ∀ reth, ie.2.env = some reth → P reth) ∧
      Simulated s (run (machine A).netStep t ies) := ⟨[], fun _ hie => (nomatch hie), h⟩
  cases e with
  | task e =>
    cases hchannel : Solo.onBlockChannel e with
    | true =>
      simp only [Solo.step, if_pos hchannel]
      exact hnone
    | false =>
      refine ⟨[((), e)], fun ie hie => ?_, h.fire ?_ ?_ ?_⟩
      · obtain rfl := List.mem_singleton.mp hie
        exact he e rfl
      · intro data hdata
        rw [receives_of_not_onBlockChannel hchannel] at hdata
        cases hdata
      · simp only [Solo.step, hchannel, Bool.false_eq_true, if_false]
      · simp only [Solo.step, hchannel, Bool.false_eq_true, if_false]
        exact fun _ hmem => .inl hmem
  | broadcast digest plan =>
    refine ⟨[((), .broadcast digest plan s.channel.transport)], fun ie hie => ?_, h.fire ?_ rfl ?_⟩
    · obtain rfl := List.mem_singleton.mp hie
      exact fun _ henv => (nomatch henv)
    · exact fun _ hdata => (nomatch hdata)
    · intro message hmem
      rw [(Solo.channel_broadcast _ s digest plan).1] at hmem
      exact List.mem_append.mp hmem
  | deliver =>
    simp only [Solo.step]
    cases hrecv : s.channel.recv with
    | none => exact hnone
    | some p =>
      obtain ⟨hunder, -⟩ := Loopback.recv_eq_some p.1 p.2 hrecv
      refine ⟨[((), .blockMessage p.1.2)], fun ie hie => ?_, h.fire ?_ rfl ?_⟩
      · obtain rfl := List.mem_singleton.mp hie
        exact fun _ henv => (nomatch henv)
      · intro data hdata
        cases hdata
        exact h.wire _ (hunder ▸ List.mem_cons_self)
      · intro message hmem
        rw [hunder]
        exact .inl (List.mem_cons_of_mem _ hmem)

end LoopbackLemmas

open LoopbackLemmas

/-- In every run of a production node over a loopback channel, whatever its engine asks
for: every record except that of genesis is what the header its digest names says, and
every block that was received is the one its digest names. Nobody else has to be
honest, for there is nobody else. -/
theorem solo_records_bound {A : Alloy} (hr : A.RoundTrips) (c : Config A) (selfKey : PublicKey)
    (capacity : Nat) (es : List (Solo.Event (Reth A)))
    (hreth : ∀ e ∈ es, Solo.Answers Reth.KeepsTimestamp e) :
    let n := (run (Solo.step (createEnginePayloadBuilder A))
      (Solo.start (Node.start c) selfKey capacity) es).node
    (∀ d i, d ≠ Digest.EMPTY → n.info d = some i → ∃ h, A.hashSlow h = d.get ∧ HeaderInfo A h i) ∧
      ∀ d bytes, n.receivedBlocks.value.lookup d = some bytes → A.Encodes bytes d.get := by
  intro n
  have hstart : Simulated (Solo.start (Node.start c) selfKey capacity)
      (netStart fun _ : Unit => c) := ⟨rfl, fun _ hmem => (nomatch hmem)⟩
  obtain ⟨ies, hies, hsim⟩ := simulated_run (solo_simulated (A := A)) hstart hreth
  have hrecords := honestRecords_run hr (fun _ : Unit => c) hies ()
  rw [hsim.party] at hrecords
  exact ⟨hrecords.records, hrecords.stores.received⟩

/-- A solo node builds block `one`, broadcasts it and receives it. -/
def soloRun : List (Solo.Event (Reth sampleAlloy)) :=
  [.task (.enqueue (.propose (samplePropose .EMPTY 1))), .task (.recv 11000), .task .buildFcu,
    .task (.built (sampleReth .one)), .broadcast SampleHeader.one.digest (.propose ⟨0, 1⟩), .deliver]

theorem soloRun_keepsTimestamp : ∀ e ∈ soloRun, Solo.Answers Reth.KeepsTimestamp e := by
  intro e he e' heq reth hr
  simp only [soloRun, List.mem_cons, List.not_mem_nil, or_false] at he
  rcases he with rfl | rfl | rfl | rfl | rfl | rfl <;> cases heq <;> cases hr
  exact sampleReth_keepsTimestamp .one

theorem own_block_received :
    let n := (run (Solo.step (createEnginePayloadBuilder sampleAlloy))
      (Solo.start (Node.start sampleConfig) sampleKey 1024) soloRun).node
    n.receivedBlocks.value.lookup SampleHeader.one.digest = some [2] ∧
      (∀ d i, d ≠ Digest.EMPTY → n.info d = some i →
        ∃ h, sampleAlloy.hashSlow h = d.get ∧ HeaderInfo sampleAlloy h i) ∧
      ∀ d bytes, n.receivedBlocks.value.lookup d = some bytes → sampleAlloy.Encodes bytes d.get :=
  ⟨by decide, solo_records_bound sampleAlloy_roundTrips sampleConfig sampleKey 1024 soloRun
    soloRun_keepsTimestamp⟩

end Allegro
