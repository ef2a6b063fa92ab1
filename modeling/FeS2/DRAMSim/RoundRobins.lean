import FeS2.Library.RoundRobin
import FeS2.DRAMSim.Safety

/-!
The round robins of the command queue come to an end, and while any queue has a command
that could go, the search for one finds it.
-/

namespace FeS2.DRAMSim.CommandQueue
variable {c : SystemConfiguration} {now : Nat} {states : BankStates} {cq : CommandQueue}

/-! Searching in circles -/

section circle
variable {β : Type} {next : Nat × Nat → Nat × Nat} {visit : Nat × Nat → Option β}
  {E : Nat × Nat → Prop} {turn : Nat × Nat → Nat} {n fuel : Nat} {pos stop : Nat × Nat}

/-- `next` goes round the `n` positions that `E` holds of, in the order of `turn`. -/
structure Circle (n : Nat) (E : Nat × Nat → Prop) (next : Nat × Nat → Nat × Nat)
    (turn : Nat × Nat → Nat) : Prop where
  exists_next : ∀ pos, E pos → E (next pos)
  turn_lt : ∀ pos, E pos → turn pos < n
  turn_next : ∀ pos, E pos → turn (next pos) = RoundRobin.next n (turn pos)
  injective : ∀ pos pos', E pos → E pos' → turn pos = turn pos' → pos = pos'

/-- How many positions come before the search stops. -/
def round (n : Nat) (turn : Nat × Nat → Nat) (pos stop : Nat × Nat) : Nat :=
  RoundRobin.ahead n (RoundRobin.next n (turn pos)) (turn stop) + 1

theorem Circle.round_le (h : Circle n E next turn) (pos : Nat × Nat) (hstop : E stop) :
    round n turn pos stop ≤ n := RoundRobin.ahead_lt (h.turn_lt stop hstop)

/-- Beyond the last position of the round is one position less to go. -/
theorem Circle.round_next (h : Circle n E next turn) (hpos : E pos) (hstop : E stop)
    (hne : next pos ≠ stop) :
    round n turn (next pos) stop + 1 = round n turn pos stop := by
  have hnext := h.exists_next pos hpos
  have hturn : turn (next pos) ≠ turn stop := fun heq =>
    hne (h.injective _ _ hnext hstop heq)
  unfold round
  rw [RoundRobin.ahead_next (h.turn_lt stop hstop) (h.turn_lt _ hnext) hturn,
    h.turn_next pos hpos]

theorem Circle.round_last (h : Circle n E next turn) (hpos : E pos) (hlast : next pos = stop) :
    round n turn pos stop = 1 := by
  unfold round
  rw [← h.turn_next pos hpos, hlast, RoundRobin.ahead_self]

/-- The search ends by the end of the round. -/
theorem Circle.search_eq (h : Circle n E next turn) (hpos : E pos) (hstop : E stop)
    (hfuel : round n turn pos stop ≤ fuel) :
    search next (fun p => p == stop) visit fuel pos =
      search next (fun p => p == stop) visit (round n turn pos stop) pos := by
  induction fuel generalizing pos with
  | zero => exact absurd hfuel (Nat.not_succ_le_zero _)
  | succ fuel ih =>
      by_cases hlast : next pos = stop
      · rw [h.round_last hpos hlast, search, search]
        simp only [hlast, beq_self_eq_true, if_true]
      · have hround := h.round_next hpos hstop hlast
        have hgo : ¬ ((next pos == stop) = true) := by simpa using hlast
        rw [← hround, search, search, if_neg hgo, if_neg hgo,
          ih (h.exists_next pos hpos) (by omega)]

/-- When it finds nothing, it has been at each position of the round. -/
theorem Circle.search_none (h : Circle n E next turn) (hpos : E pos) (hstop : E stop)
    (hfuel : round n turn pos stop ≤ fuel)
    (hnone : (search next (fun p => p == stop) visit fuel pos).1 = none) :
    ∀ v, E v → RoundRobin.ahead n (turn pos) (turn v) < round n turn pos stop → visit v = none := by
  induction fuel generalizing pos with
  | zero => exact absurd hfuel (Nat.not_succ_le_zero _)
  | succ fuel ih =>
      rw [search] at hnone
      cases hvisit : visit pos with
      | some found =>
          rw [hvisit] at hnone
          cases hnone
      | none =>
          rw [hvisit] at hnone
          intro v hv hahead
          by_cases hself : turn pos = turn v
          · rw [← h.injective pos v hpos hv hself]
            exact hvisit
          · have hturn := RoundRobin.ahead_next (h.turn_lt v hv) (h.turn_lt pos hpos) hself
            by_cases hlast : next pos = stop
            · rw [h.round_last hpos hlast] at hahead
              omega
            · have hround := h.round_next hpos hstop hlast
              have hgo : ¬ ((next pos == stop) = true) := by simpa using hlast
              simp only [if_neg hgo] at hnone
              refine ih (h.exists_next pos hpos) (by omega) hnone v hv ?_
              rw [h.turn_next pos hpos]
              omega

/-- A round that starts where it stops is the whole circle. -/
theorem Circle.whole (h : Circle n E next turn) (hpos : E pos) {v : Nat × Nat} (hv : E v) :
    RoundRobin.ahead n (turn pos) (turn v) < round n turn pos pos := by
  unfold round
  rw [RoundRobin.ahead_next_self (h.turn_lt pos hpos)]
  exact RoundRobin.ahead_lt (h.turn_lt v hv)

end circle

/-! The two round robins -/

def turnOf (c : SystemConfiguration) (pos : Nat × Nat) : Nat :=
  match c.schedulingPolicy with
  | .RankThenBankRoundRobin => pos.2 * c.numRanks + pos.1
  | .BankThenRankRoundRobin => pos.1 * c.numBanks + pos.2

theorem circle_advance : Circle (c.numRanks * c.numBanks) (OnBoard c) (advance c) (turnOf c) where
  exists_next := onBoard_advance
  turn_lt pos h := by
    obtain ⟨hrank, hbank⟩ := h
    unfold turnOf
    split
    · calc pos.2 * c.numRanks + pos.1
          < pos.2 * c.numRanks + c.numRanks := Nat.add_lt_add_left hrank _
        _ = (pos.2 + 1) * c.numRanks := (Nat.succ_mul _ _).symm
        _ ≤ c.numBanks * c.numRanks := Nat.mul_le_mul_right _ hbank
        _ = c.numRanks * c.numBanks := Nat.mul_comm _ _
    · calc pos.1 * c.numBanks + pos.2
          < pos.1 * c.numBanks + c.numBanks := Nat.add_lt_add_left hbank _
        _ = (pos.1 + 1) * c.numBanks := (Nat.succ_mul _ _).symm
        _ ≤ c.numRanks * c.numBanks := Nat.mul_le_mul_right _ hrank
  turn_next pos h := by
    unfold turnOf advance
    cases c.schedulingPolicy with
    | RankThenBankRoundRobin =>
        rw [← RoundRobin.next_pair h.1 h.2]
        simp only
        split
        · split
          · simp
          · simp
        · rfl
    | BankThenRankRoundRobin =>
        rw [Nat.mul_comm c.numRanks, ← RoundRobin.next_pair h.2 h.1]
        simp only
        split
        · split
          · simp
          · simp
        · rfl
  injective pos pos' h h' heq := by
    unfold turnOf at heq
    split at heq
    · obtain ⟨hrank, hbank⟩ := RoundRobin.pair_injective h.1 h'.1 heq
      exact Prod.ext hrank hbank
    · obtain ⟨hbank, hrank⟩ := RoundRobin.pair_injective h.2 h'.2 heq
      exact Prod.ext hrank hbank

/-- With one queue per rank the search for a command goes round the ranks. -/
theorem circle_ranks (bank : Nat) (hqueues : c.queuingStructure = .PerRank) :
    Circle c.numRanks (fun pos => pos.1 < c.numRanks ∧ pos.2 = bank) (nextQueue c) Prod.fst where
  exists_next pos h := by
    unfold nextQueue
    rw [hqueues]
    simp only
    split <;> omega
  turn_lt pos h := h.1
  turn_next pos h := by
    unfold nextQueue RoundRobin.next
    rw [hqueues]
    simp only
    split <;> split <;> omega
  injective pos pos' h h' heq := Prod.ext heq (h.2.trans h'.2.symm)

/-! What could go -/

/-- The command of place `i` of a queue could be sent, and nothing before it must go first. -/
def CouldGo (c : SystemConfiguration) (now : Nat) (states : BankStates) (cq : CommandQueue)
    (rank slot i : Nat) (packet : BusPacket) : Prop :=
  let q := cq.queues rank slot
  ¬ (rank = cq.refreshRank ∧ cq.refreshWaiting) ∧ q[i]? = some packet ∧
    isIssuable c now states cq packet ∧
    match c.rowBufferPolicy, c.queuingStructure with
    | .ClosePage, .PerRank => pairedBefore q i packet = false
    | .ClosePage, .PerRankPerBank => i = 0
    | .OpenPage, _ => dependencyFound c q i packet = false

theorem firstIssuable_none {blocked : List BusPacket → Nat → BusPacket → Bool}
    {q : List BusPacket} {i : Nat} {packet : BusPacket}
    (h : firstIssuable c now states cq blocked q = none) (hq : q[i]? = some packet)
    (hissuable : isIssuable c now states cq packet) : blocked q i packet = true := by
  unfold firstIssuable at h
  rw [Option.map_eq_none_iff, List.find?_eq_none] at h
  have hmem := h (packet, i) (List.mk_mem_zipIdx_iff_getElem?.mpr hq)
  simpa [hissuable] using hmem

theorem fromQueue_none {rank slot i : Nat} {packet : BusPacket}
    (h : fromQueue c now states rank slot cq = none) :
    ¬ CouldGo c now states cq rank slot i packet := by
  rintro ⟨hrefresh, hq, hissuable, hfree⟩
  unfold fromQueue at h
  rw [if_neg hrefresh] at h
  cases hpolicy : c.rowBufferPolicy with
  | ClosePage =>
      cases hqueues : c.queuingStructure with
      | PerRank =>
          simp only [hpolicy, hqueues, Option.map_eq_none_iff] at h hfree
          rw [firstIssuable_none h hq hissuable] at hfree
          cases hfree
      | PerRankPerBank =>
          simp only [hpolicy, hqueues] at h hfree
          subst hfree
          cases hlist : cq.queues rank slot with
          | nil =>
              rw [hlist] at hq
              cases hq
          | cons first rest =>
              rw [hlist] at hq h
              obtain rfl := Option.some.inj hq
              simp only [hissuable, if_true, reduceCtorEq] at h
  | OpenPage =>
      simp only [hpolicy, Option.map_eq_none_iff] at h hfree
      rw [firstIssuable_none h hq hissuable] at hfree
      cases hfree

/-- The bank could be closed: no command waits for its row, or the row has been served often
enough. -/
def CouldClose (c : SystemConfiguration) (now : Nat) (states : BankStates) (cq : CommandQueue)
    (pos : Nat × Nat) : Prop :=
  let b := states pos.1 pos.2
  b.currentBankState = .RowActive ∧ b.nextPrecharge ≤ now ∧
    ((cq.queues pos.1 (slot c pos.2)).any (toOpenRow c states pos.1 pos.2) = false ∨
      cq.rowAccessCounters pos.1 pos.2 = c.totalRowAccesses)

theorem closeBank_none {pos : Nat × Nat} (h : closeBank c now states cq pos = none) :
    ¬ CouldClose c now states cq pos := by
  rintro ⟨hopen, hnext, hunused⟩
  unfold closeBank at h
  rw [if_pos hopen, if_pos ⟨hunused, hnext⟩] at h
  cases h

theorem ranks_le (hbanks : 0 < c.numBanks) : c.numRanks ≤ c.numRanks * c.numBanks :=
  Nat.le_mul_of_pos_right _ hbanks

/-- The search for a command ends within one visit of each queue. -/
theorem searchCommand_ends (hrange : cq.InRange c) {fuel : Nat}
    (hfuel : c.numRanks * c.numBanks ≤ fuel) :
    search (nextQueue c) (fun pos => pos == (cq.nextRank, cq.nextBank))
      (fun pos => fromQueue c now states pos.1 (slot c pos.2) cq) fuel
      (cq.nextRank, cq.nextBank) = searchCommand c now states cq := by
  have hbanks : 0 < c.numBanks := Nat.zero_lt_of_lt hrange.next.2
  unfold searchCommand
  cases hqueues : c.queuingStructure with
  | PerRank =>
      have hcircle := circle_ranks cq.nextBank hqueues
      have hstart : cq.nextRank < c.numRanks ∧ cq.nextBank = cq.nextBank := ⟨hrange.next.1, rfl⟩
      have hround := @Circle.round_le _ _ _ _ (cq.nextRank, cq.nextBank) hcircle
        (cq.nextRank, cq.nextBank) hstart
      rw [hcircle.search_eq hstart hstart (hround.trans ((ranks_le hbanks).trans hfuel)),
        hcircle.search_eq hstart hstart (hround.trans (ranks_le hbanks))]
  | PerRankPerBank =>
      have hnext : nextQueue c = advance c := by
        funext pos
        rw [nextQueue, hqueues]
      have hcircle := circle_advance (c := c)
      have hstart : OnBoard c (cq.nextRank, cq.nextBank) := hrange.next
      have hround := hcircle.round_le (cq.nextRank, cq.nextBank) hstart
      rw [hnext, hcircle.search_eq hstart hstart (hround.trans hfuel),
        hcircle.search_eq hstart hstart hround]

/-- When it finds no command, none could go. -/
theorem searchCommand_none (hrange : cq.InRange c)
    (hnone : (searchCommand c now states cq).1 = none) {rank bank i : Nat} {packet : BusPacket}
    (hrank : rank < c.numRanks) (hbank : bank < c.numBanks) :
    ¬ CouldGo c now states cq rank (slot c bank) i packet := by
  have hbanks : 0 < c.numBanks := Nat.zero_lt_of_lt hrange.next.2
  unfold searchCommand at hnone
  cases hqueues : c.queuingStructure with
  | PerRank =>
      have hcircle := circle_ranks cq.nextBank hqueues
      have hstart : cq.nextRank < c.numRanks ∧ cq.nextBank = cq.nextBank := ⟨hrange.next.1, rfl⟩
      have hround := @Circle.round_le _ _ _ _ (cq.nextRank, cq.nextBank) hcircle
        (cq.nextRank, cq.nextBank) hstart
      have hvisit := hcircle.search_none hstart hstart (hround.trans (ranks_le hbanks)) hnone
        (rank, cq.nextBank) ⟨hrank, rfl⟩
        (@Circle.whole _ _ _ _ (cq.nextRank, cq.nextBank) hcircle hstart _ ⟨hrank, rfl⟩)
      have hslot : slot c bank = slot c cq.nextBank := by
        rw [slot, slot, hqueues]
      rw [hslot]
      exact fromQueue_none hvisit
  | PerRankPerBank =>
      have hnext : nextQueue c = advance c := by
        funext pos
        rw [nextQueue, hqueues]
      have hcircle := circle_advance (c := c)
      have hstart : OnBoard c (cq.nextRank, cq.nextBank) := hrange.next
      rw [hnext] at hnone
      exact fromQueue_none (hcircle.search_none hstart hstart (hcircle.round_le _ hstart) hnone
        (rank, bank) ⟨hrank, hbank⟩ (hcircle.whole hstart ⟨hrank, hbank⟩))

theorem onBoard_startPRE (hrange : cq.InRange c) : OnBoard c (startPRE c cq) := by
  obtain ⟨hrank, hbank⟩ := hrange.nextPRE
  unfold startPRE OnBoard
  split
  · exact ⟨hrank, hbank⟩
  · constructor <;> omega

/-- The search for a bank to close ends, also where it does not end where it has begun. -/
theorem searchPrecharge_ends (hrange : cq.InRange c) {fuel : Nat}
    (hfuel : c.numRanks * c.numBanks ≤ fuel) :
    search (advance c) (fun pos => pos == startPRE c cq) (closeBank c now states cq) fuel
      (cq.nextRankPRE, cq.nextBankPRE) = searchPrecharge c now states cq := by
  have hcircle := circle_advance (c := c)
  have hstart : OnBoard c (cq.nextRankPRE, cq.nextBankPRE) := hrange.nextPRE
  have hstop := onBoard_startPRE hrange
  have hround := hcircle.round_le (cq.nextRankPRE, cq.nextBankPRE) hstop
  unfold searchPrecharge
  rw [hcircle.search_eq hstart hstop (hround.trans hfuel), hcircle.search_eq hstart hstop hround]

/-- When it ends where it has begun and finds no bank, none could be closed. -/
theorem searchPrecharge_none (hrange : cq.InRange c)
    (hstart : startPRE c cq = (cq.nextRankPRE, cq.nextBankPRE))
    (hnone : (searchPrecharge c now states cq).1 = none) {pos : Nat × Nat} (hpos : OnBoard c pos) :
    ¬ CouldClose c now states cq pos := by
  have hcircle := circle_advance (c := c)
  have hfirst : OnBoard c (cq.nextRankPRE, cq.nextBankPRE) := hrange.nextPRE
  unfold searchPrecharge at hnone
  rw [hstart] at hnone
  exact closeBank_none (hcircle.search_none hfirst hfirst (hcircle.round_le _ hfirst) hnone pos hpos
    (hcircle.whole hfirst hpos))

/-- What a cycle without a command has left undone. -/
theorem pop_none (hrange : cq.InRange c) (hnone : (pop c now states cq).1 = none) :
    (∀ rank < c.numRanks, ∀ bank < c.numBanks, ∀ i packet,
      ¬ CouldGo c now states (countdown cq) rank (slot c bank) i packet) ∧
    (c.rowBufferPolicy = .OpenPage → startPRE c cq = (cq.nextRankPRE, cq.nextBankPRE) →
      ∀ pos, OnBoard c pos → ¬ CouldClose c now states cq pos) := by
  have hcount : (countdown cq).InRange c := ⟨hrange.next, hrange.nextPRE, hrange.refresh⟩
  unfold pop at hnone
  simp only at hnone
  split at hnone
  · cases hnone
  · split at hnone
    · cases hnone
    · rename_i pos hcommand
      have hpos : OnBoard c pos := by
        have hstart : OnBoard c (cq.nextRank, cq.nextBank) := hrange.next
        have hexists : OnBoard c (searchCommand c now states (countdown cq)).2 :=
          search_invariant onBoard_nextQueue hstart
        rwa [hcommand] at hexists
      refine ⟨fun rank hrank bank hbank i packet => searchCommand_none hcount
        (congrArg Prod.fst hcommand) hrank hbank, fun hpolicy hstart p hp => ?_⟩
      rw [hpolicy] at hnone
      simp only at hnone
      split at hnone
      · cases hnone
      · rename_i posPRE hprecharge
        have hafter : InRange c { countdown cq with nextRank := pos.1, nextBank := pos.2 } :=
          ⟨hpos, hrange.nextPRE, hrange.refresh⟩
        exact searchPrecharge_none hafter hstart (congrArg Prod.fst hprecharge) hp

/-- The round robins end within one visit of each position, and a cycle without a command is
one in which no command could go and, where the search for it ends where it has begun, no
bank could be closed. -/
structure Complete (c : SystemConfiguration) (now : Nat) (states : BankStates)
    (cq : CommandQueue) : Prop where
  commandEnds : ∀ fuel ≥ c.numRanks * c.numBanks,
    search (nextQueue c) (fun pos => pos == (cq.nextRank, cq.nextBank))
      (fun pos => fromQueue c now states pos.1 (slot c pos.2) cq) fuel
      (cq.nextRank, cq.nextBank) = searchCommand c now states cq
  prechargeEnds : ∀ fuel ≥ c.numRanks * c.numBanks,
    search (advance c) (fun pos => pos == startPRE c cq) (closeBank c now states cq) fuel
      (cq.nextRankPRE, cq.nextBankPRE) = searchPrecharge c now states cq
  command : (pop c now states cq).1 = none → ∀ rank < c.numRanks, ∀ bank < c.numBanks,
    ∀ i packet, ¬ CouldGo c now states (countdown cq) rank (slot c bank) i packet
  precharge : (pop c now states cq).1 = none → c.rowBufferPolicy = .OpenPage →
    startPRE c cq = (cq.nextRankPRE, cq.nextBankPRE) →
      ∀ pos, OnBoard c pos → ¬ CouldClose c now states cq pos

theorem InRange.complete (hrange : cq.InRange c) : Complete c now states cq where
  commandEnds _ hfuel := searchCommand_ends hrange hfuel
  prechargeEnds _ hfuel := searchPrecharge_ends hrange hfuel
  command hnone := (pop_none hrange hnone).1
  precharge hnone := (pop_none hrange hnone).2

/-- In every run the scheduler leaves no command that could go. -/
theorem scheduler_complete (hc : c.Valid) (events : List MemorySystem.Event)
    (hevents : ∀ e ∈ events, e.Proper) :
    ∃ s, events.foldlM (MemorySystem.step c) (MemorySystem.init c) = .ok s ∧
      ∀ now states, Complete c now states s.memoryController.commandQueue := by
  obtain ⟨s, hok, hrange⟩ := run_invariant hc
    (I := fun s => s.memoryController.commandQueue.InRange c)
    (Safe.init (T := 0) hc).supplied.inRange (fun _ _ h => h) (fun _ _ h => h)
    (fun onWrite onRead s done a b s' _ _ hcycle => by
      have hqueue := (answerRead_rest (c := c) (s := s') onRead).2.1
      change (MemorySystem.answerRead c onRead s').memoryController.commandQueue.InRange c
      rw [hqueue]
      exact hcycle.safeAfter.supplied.inRange) hevents
  exact ⟨s, hok, fun now states => hrange.complete⟩

theorem scheduler_complete_ddr2 :
    ∃ s, List.foldlM (MemorySystem.step .DDR2_micron_16M_8b_x8_sg3E)
        (MemorySystem.init .DDR2_micron_16M_8b_x8_sg3E)
        [.request ⟨.DATA_READ, 0x40⟩, .cycle [] []] = .ok s ∧
      ∀ now states, Complete .DDR2_micron_16M_8b_x8_sg3E now states
        s.memoryController.commandQueue :=
  scheduler_complete SystemConfiguration.valid_ddr2 _ (by decide)

end FeS2.DRAMSim.CommandQueue
