import Didux.Backend.Proposal

set_option autoImplicit false

namespace Didux.Backend

open Sport Backend.Snapshot Plain

def listed (codec : Codec) (header : Header) : Option (List Address) :=
  (extractSportExtra codec header).map fun extra => extra.fullnodes

def Sealer.written {codec : Codec} (sealer : Sealer codec) (caches : Caches) (header : Header) : Option (List Address) :=
  (sealer.prepare caches header 0).toOption.bind fun prepared => listed codec prepared.1

namespace HeaderChain

variable {codec : Codec}

theorem at_fullnodes (chain : HeaderChain codec) (config : Config) (n : Nat) (s t : Snapshot) (first : chain.At config n s)
    (second : chain.At config n t) : s.fullnodes = t.fullnodes := by
  rw [Snapshot.fullnodes, at_members chain config n s t first second, Snapshot.fullnodes]

theorem written_on_chain (lawful : codec.RoundTrips) (distinct : Function.Injective codec.text) (chain : HeaderChain codec)
    (config : Config) (apart : ∀ n header, chain.header n = some header → chain.Apart header) (positive : config.epoch ≠ 0)
    (accepted : chain.Accepted config) (short : chain.rest.length + 1 < 2 ^ 64) (sealer : Sealer codec)
    (serving : chain.Serving config sealer.node) (complete : chain.Complete sealer.node) (caches : Caches)
    (left : chain.Left config caches) (ready : sealer.coreStarted = true → sealer.balances.isSome) (n : Nat) (header : Header)
    (here : chain.header (n + 1) = some header) :
    ∃ snap, chain.At config n snap ∧ sealer.written caches header = some snap.fullnodes := by
  have small : n + 1 < 2 ^ 64 := by
    have bound := (List.getElem?_eq_some_iff.mp here).1
    rw [List.length_cons] at bound
    omega
  obtain ⟨parent, before, link⟩ := chained_parent chain.genesis chain.rest chain.links n header here
  obtain ⟨first, made⟩ := genesis_snapshot_some chain config sealer.node complete
  obtain ⟨s, reached⟩ := accepted_at lawful distinct chain config apart positive accepted first made n parent (by omega) before
  obtain ⟨prepared, next, snap, ran, there, -, -, -, -, -, -, extra⟩ := prepare_on_chain lawful distinct chain config apart sealer serving
    complete caches (left_sound lawful distinct chain config apart caches left) ready n parent header small before
    (header_number chain (n + 1) header here) link s reached 0
  refine ⟨snap, there, ?_⟩
  rw [Sealer.written, ran, Except.toOption, Option.bind_some, listed, extra, Option.map_some]

-- VerifyHeader does not look at the list: on a chain of accepted headers the lists are the members at each parent exactly
-- if each of them is what Prepare writes there.
theorem header_lists_authentic_iff (lawful : codec.RoundTrips) (distinct : Function.Injective codec.text) (chain : HeaderChain codec)
    (config : Config) (apart : ∀ n header, chain.header n = some header → chain.Apart header) (positive : config.epoch ≠ 0)
    (accepted : chain.Accepted config) (short : chain.rest.length + 1 < 2 ^ 64) (sealer : Sealer codec)
    (serving : chain.Serving config sealer.node) (complete : chain.Complete sealer.node) (caches : Caches)
    (left : chain.Left config caches) (ready : sealer.coreStarted = true → sealer.balances.isSome) :
    (∀ n header s, chain.header (n + 1) = some header → chain.At config n s → listed codec header = some s.fullnodes) ↔
      ∀ n header, chain.header (n + 1) = some header → listed codec header = sealer.written caches header := by
  constructor
  · intro authentic n header here
    obtain ⟨snap, there, written⟩ := written_on_chain lawful distinct chain config apart positive accepted short sealer serving complete
      caches left ready n header here
    rw [written, authentic n header snap here there]
  · intro honest n header s here reached
    obtain ⟨snap, there, written⟩ := written_on_chain lawful distinct chain config apart positive accepted short sealer serving complete
      caches left ready n header here
    rw [honest n header here, written, at_fullnodes chain config n snap s there reached]

end HeaderChain

namespace Plain

def grandchild : Header := sealedOn (childOf 1 [1]) 2 [1, 2] [1, 2]

theorem trio_links : chained unary (genesis [1]) [childOf 1 [1], grandchild] :=
  ⟨(duo_links 1 [1]).1, (duo_links 1 [1]).2.1, rfl, by decide +kernel, trivial⟩

def trio : HeaderChain unary := ⟨genesis [1], [childOf 1 [1], grandchild], genesis_start, trio_links⟩

def trioSealer : Sealer unary := { duoSealer 1 [1] with node := holder trio }

theorem trio_apart (n : Nat) (header : Header) (here : trio.header n = some header) : trio.Apart header :=
  unary_apart trio (by decide) (by decide +kernel) n header here

end Plain

-- The vote of the first block has passed, and the list of the second names the new member.
theorem header_lists_authentic_iff_member :
    ∃ s, trio.At ⟨1, 30000, 0⟩ 1 s ∧ s.fullnodes = [1, 2] ∧ listed unary grandchild = some s.fullnodes := by
  have lawful : unary.RoundTrips := round_trips
  have complete : trio.Complete (holder trio) := holder_complete trio (by decide +kernel)
  have accepted : trio.Accepted ⟨1, 30000, 0⟩ := holder_accepted trio trio_apart (by decide +kernel)
  obtain ⟨first, made⟩ := HeaderChain.genesis_snapshot_some trio ⟨1, 30000, 0⟩ _ complete
  obtain ⟨s, reached⟩ := HeaderChain.accepted_at lawful unary_injective trio ⟨1, 30000, 0⟩ trio_apart (by decide) accepted first
    made 1 (childOf 1 [1]) (by decide) rfl
  have authentic := (HeaderChain.header_lists_authentic_iff lawful unary_injective trio ⟨1, 30000, 0⟩ trio_apart (by decide)
    accepted (by decide) trioSealer (holder_serving trio trio_apart) complete ⟨∅, ∅⟩ (Runs.reached_start _ _ _ rfl)
    (fun _ => rfl)).mpr
  have honest : ∀ header ∈ trio.rest, listed unary header = trioSealer.written ⟨∅, ∅⟩ header := by decide +kernel
  have names := authentic (fun n header here => honest header (List.mem_of_getElem? (i := n) here)) 1 grandchild s rfl reached
  exact ⟨s, reached, Option.some.inj (names.symm.trans (by decide +kernel)), names⟩

-- The list names a stranger, and the header is accepted.
theorem forged_list_accepted : (duo 1 [9]).Accepted ⟨1, 30000, 0⟩ ∧
    ∃ s, (duo 1 [9]).At ⟨1, 30000, 0⟩ 0 s ∧ (duo 1 [9]).header 1 = some (childOf 1 [9]) ∧
      listed unary (childOf 1 [9]) ≠ some s.fullnodes := by
  refine ⟨holder_accepted _ (duo_apart 1 [9]) (by decide +kernel), ?_⟩
  obtain ⟨s, made⟩ := HeaderChain.genesis_snapshot_some (duo 1 [9]) ⟨1, 30000, 0⟩ _ (duo_complete 1 [9])
  refine ⟨s, ⟨s, s, made, rfl, Same.refl s⟩, rfl, ?_⟩
  have members : ((duo 1 [9]).genesisSnapshot ⟨1, 30000, 0⟩).map (fun first => first.fullnodes) = some [1] := by decide +kernel
  rw [made, Option.map_some] at members
  rw [members]
  decide +kernel

end Didux.Backend
