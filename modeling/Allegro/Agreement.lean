import Allegro.HonestStores

/-!
# Honest nodes keep the same books

A proposer takes a record from its request and its builder's report. Every other
node takes the record of the same digest from the bytes that reach it. In a
network of honest nodes both are read off one header: the bytes on the wire are
the blocks their digests name, and the seconds a proposer asks for are those of
the header that reth builds.

Results:
1. `honestRecords_step`, `honestMessage_sends`: a node keeps its books in order
   on honest messages, and sends only honest messages.
2. `records_agree`: any two nodes, at any two points of any run, agree on the
   record of a digest other than `EMPTY`.
-/

namespace Allegro

open Run Node

/-- The record is what the header says. -/
def HeaderInfo (A : Alloy) (h : A.Header) (i : BlockInfo) : Prop :=
  ReadOff A h i ∧ i.timestamp = A.timestamp h

/-- The stores are honest, and every record except that of genesis is what the
header its digest names says. -/
structure HonestRecords (A : Alloy) (n : Node) : Prop where
  stores : HonestStores A n
  records : ∀ d i, d ≠ Digest.EMPTY → n.info d = some i →
    ∃ h, A.hashSlow h = d.get ∧ HeaderInfo A h i

namespace AgreementLemmas

variable {A : Alloy} {n : Node} {e : Node.Event (Reth A)}

theorem honestRecords_start (c : Config A) : HonestRecords A (Node.start c) where
  stores := honestStores_start c
  records := fun _ _ hd hi => absurd (App.info_new hi).1 hd

theorem honestRecords_step (hr : A.RoundTrips) (h : HonestRecords A n)
    (hreth : ∀ reth, e.env = some reth → reth.KeepsTimestamp)
    (hmsg : ∀ data, (machine A).receives e = some data → HonestMessage A data) :
    HonestRecords A (n.prodStep A e) where
  stores := by
    refine honestStores_step h.stores fun data he => hmsg data ?_
    rw [he]
    rfl
  records := by
    intro d i hd hi
    rcases Node.info_step_cases hi with hold | hrec
    · exact h.records d i hd hold
    · obtain ⟨hdr, hhash, hread, htime⟩ := header_of_records hr h.stores hrec
      refine ⟨hdr, hhash, hread, ?_⟩
      rcases htime with htime | ⟨reth, fcs, attrs, block, henv, hjob, rfl, htime⟩
      · exact htime
      · -- the proposer's seconds: requested, and kept by reth
        rw [htime]
        exact (hreth reth henv fcs attrs block hjob).symm

/-- The relay sends blocks of `pending_blocks` under their digests. -/
theorem honestMessage_sends (h : HonestRecords A n) {data : Bytes}
    (hmem : data ∈ (machine A).sends n e) : HonestMessage A data := by
  obtain ⟨digest, bytes, hlookup, rfl⟩ := mem_machine_sends hmem
  intro d bytes' hp
  rw [parse_wireMessage] at hp
  cases hp
  exact h.stores.pending digest bytes hlookup

end AgreementLemmas

open AgreementLemmas

/-- The start of a network of production nodes. -/
def netStart {A : Alloy} {ι : Type} (cfg : ι → Config A) : Net ι Node Bytes where
  party := fun i => Node.start (cfg i)
  wire := []

section Network

variable {A : Alloy} {ι : Type} [DecidableEq ι]

theorem honestRecords_run (hr : A.RoundTrips) (cfg : ι → Config A)
    {es : List (ι × Node.Event (Reth A))}
    (hreth : ∀ ie ∈ es, ∀ reth, ie.2.env = some reth → reth.KeepsTimestamp) (i : ι) :
    HonestRecords A ((run (machine A).netStep (netStart cfg) es).party i) := by
  have hinv : Machine.Inv (HonestRecords A) (HonestMessage A)
      (run (machine A).netStep (netStart cfg) es) := Machine.invariant
    (C := fun _ e => ∀ reth, e.env = some reth → reth.KeepsTimestamp)
    (fun n e hn hC hmsg => honestRecords_step hr hn hC hmsg)
    (fun n e hn _ data hmem => honestMessage_sends hn hmem)
    ⟨fun i => honestRecords_start (cfg i), fun _ h => (nomatch h)⟩
    (along_of_forall (D := fun ie : ι × Node.Event (Reth A) =>
      ∀ reth, ie.2.env = some reth → reth.KeepsTimestamp) hreth)
  exact hinv.party i

/-- In a network of any number of production nodes, whatever the order of their
steps and whichever of the messages sent are delivered, to whom and how often:
the records two nodes keep for a digest other than `EMPTY`, at any two points of
the run, agree on number, hash and both timestamps. -/
theorem records_agree (hA : A.CollisionFree) (hr : A.RoundTrips) (cfg : ι → Config A)
    (es : List (ι × Node.Event (Reth A)))
    (hreth : ∀ ie ∈ es, ∀ reth, ie.2.env = some reth → reth.KeepsTimestamp)
    {es₁ es₂ : List (ι × Node.Event (Reth A))} (h₁ : es₁ <+: es) (h₂ : es₂ <+: es) {i j : ι}
    {d : Digest} {x y : BlockInfo} (hd : d ≠ Digest.EMPTY)
    (hx : ((run (machine A).netStep (netStart cfg) es₁).party i).info d = some x)
    (hy : ((run (machine A).netStep (netStart cfg) es₂).party j).info d = some y) :
    x.number = y.number ∧ x.hash = y.hash ∧ x.timestamp = y.timestamp ∧
      x.timestampMillis = y.timestampMillis := by
  have hreth₁ := fun ie hie => hreth ie (h₁.subset hie)
  have hreth₂ := fun ie hie => hreth ie (h₂.subset hie)
  obtain ⟨h, hh, ⟨hnum, hhash, hmillis⟩, htime⟩ :=
    (honestRecords_run hr cfg hreth₁ i).records d x hd hx
  obtain ⟨h', hh', ⟨hnum', hhash', hmillis'⟩, htime'⟩ :=
    (honestRecords_run hr cfg hreth₂ j).records d y hd hy
  obtain rfl : h = h' := hA (hh.trans hh'.symm)
  exact ⟨hnum.trans hnum'.symm, hhash.trans hhash'.symm, htime.trans htime'.symm,
    hmillis.trans hmillis'.symm⟩

end Network

/-! ## A network of two -/

/-- `true` proposes block `one` and broadcasts it, `false` verifies it. -/
def relayRun : List (Bool × Node.Event (Reth sampleAlloy)) :=
  [(true, .enqueue (.propose (samplePropose .EMPTY 1))), (true, .recv 11000), (true, .buildFcu),
    (true, .built (sampleReth .one)),
    (true, .broadcast SampleHeader.one.digest (.propose ⟨0, 1⟩) ⟨fun _ => true, true⟩),
    (false, .blockMessage (wireMessage SampleHeader.one.digest [2])),
    (false, .enqueue (.verify (sampleVerify .EMPTY SampleHeader.one.digest 1))), (false, .recv 0),
    (false, .validated (sampleReth .one))]

theorem relayRun_keepsTimestamp :
    ∀ ie ∈ relayRun, ∀ reth, ie.2.env = some reth → reth.KeepsTimestamp := by
  intro ie hie reth hr
  simp only [relayRun, List.mem_cons, List.not_mem_nil, or_false] at hie
  rcases hie with rfl | rfl | rfl | rfl | rfl | rfl | rfl | rfl | rfl <;> cases hr
  · exact sampleReth_keepsTimestamp .one
  · exact sampleReth_keepsTimestamp .one

theorem proposer_and_verifier_agree :
    ∃ x y : BlockInfo,
      ((run (machine sampleAlloy).netStep (netStart fun _ => sampleConfig)
        (relayRun.take 5)).party true).info SampleHeader.one.digest = some x ∧
      ((run (machine sampleAlloy).netStep (netStart fun _ => sampleConfig)
        relayRun).party false).info SampleHeader.one.digest = some y ∧
      x.number = y.number ∧ x.hash = y.hash ∧ x.timestamp = y.timestamp ∧
      x.timestampMillis = y.timestampMillis := by
  have hx : ((run (machine sampleAlloy).netStep (netStart fun _ => sampleConfig)
      (relayRun.take 5)).party true).info SampleHeader.one.digest =
        some ⟨1, SampleHeader.one.hash, 1, sampleKey, 11, 11000⟩ := by decide
  have hy : ((run (machine sampleAlloy).netStep (netStart fun _ => sampleConfig)
      relayRun).party false).info SampleHeader.one.digest =
        some ⟨1, SampleHeader.one.hash, 1, sampleKey, 11, 11000⟩ := by decide
  exact ⟨_, _, hx, hy, records_agree sampleAlloy_collisionFree sampleAlloy_roundTrips
    (fun _ => sampleConfig) relayRun relayRun_keepsTimestamp ⟨_, List.take_append_drop 5 relayRun⟩
    (List.prefix_refl _) (by decide) hx hy⟩

end Allegro
