import FeS2.Library.ExceptRun
import FeS2.DRAMSim.CommandSupply
import FeS2.DRAMSim.WriteBus

/-!
The simulator never takes an error exit: no rank refuses a command or a change of its
power state, the buses do not collide and the command queue does not overflow. So it
is in every run, whatever is asked of the memory and whenever.
-/

namespace FeS2.DRAMSim
open CountdownLine MemoryController CommandQueue
variable {c : SystemConfiguration} {T now i : Nat} {s s' : MemorySystem}

/-- The state before cycle `T`. -/
structure Safe (c : SystemConfiguration) (T : Nat) (s : MemorySystem) : Prop where
  rank : ∀ i < c.numRanks, RankAgrees c T s.memoryController.outgoingCmdPacket i
    (s.memoryController.bankStates i) (s.memoryController.powerDown i) (s.ranks i)
  command : ∀ packet ∈ s.memoryController.outgoingCmdPacket, packet.rank < c.numRanks ∧
    Rank.Allowed c T packet (s.ranks packet.rank).bankStates ∧ s.memoryController.cmdCyclesLeft = 1
  writes : WritesFlow c T s.memoryController.bankStates s.memoryController.outgoingDataPacket
    s.memoryController.dataCyclesLeft s.memoryController.writeData
  supplied : Supplied c s.memoryController.commandQueue
  refreshRank : s.memoryController.refreshRank < c.numRanks
  types : ∀ tr ∈ s.memoryController.transactionQueue, tr.transactionType ≠ .RETURN_DATA
  pendingTypes : ∀ tr ∈ s.pendingTransactions, tr.transactionType ≠ .RETURN_DATA

theorem SystemConfiguration.Valid.ranks_pos (hc : c.Valid) : 0 < c.numRanks := by
  obtain ⟨k, _, hranks⟩ := hc.ranks
  rw [hranks]
  exact Nat.two_pow_pos k

theorem SystemConfiguration.Valid.banks_pos (hc : c.Valid) : 0 < c.numBanks := by
  obtain ⟨k, _, hbanks⟩ := hc.banks
  rw [hbanks]
  exact Nat.two_pow_pos k

theorem Safe.init (hc : c.Valid) : Safe c T (MemorySystem.init c) where
  rank _ _ := RankAgrees.init
  command _ h := nomatch h
  writes := WritesFlow.init
  supplied := Supplied.init hc.ranks_pos hc.banks_pos
  refreshRank := hc.ranks_pos
  types _ h := nomatch h
  pendingTypes _ h := nomatch h

/-! Up to the delivery of the command -/

/-- What the ranks hand over is data. -/
theorem foldlM_receiveFromBus {packets : List BusPacket} {mc : MemoryController}
    (h : ∀ packet ∈ packets, packet.busPacketType = .DATA) :
    packets.foldlM receiveFromBus mc = .ok { mc with
      returnTransaction := mc.returnTransaction ++
        packets.map fun packet => ⟨.RETURN_DATA, packet.physicalAddress⟩ } := by
  induction packets generalizing mc with
  | nil => simp [pure, Except.pure]
  | cons packet packets ih =>
      have hdata := h packet (List.mem_cons_self ..)
      rw [List.foldlM_cons, receiveFromBus, if_neg (not_not.mpr hdata)]
      change packets.foldlM receiveFromBus _ = _
      rw [ih fun p hp => h p (List.mem_cons_of_mem _ hp)]
      simp

/-- The data that the ranks hand over in a cycle. -/
def handedOver (c : SystemConfiguration) (s : MemorySystem) : List BusPacket :=
  (List.range c.numRanks).filterMap fun i => ((s.ranks i).update c).1

def afterRanks (c : SystemConfiguration) (s : MemorySystem) : MemorySystem :=
  { s with
    ranks := fun i => ((s.ranks i).update c).2
    memoryController :=
      { s.memoryController with
        returnTransaction := s.memoryController.returnTransaction ++
          (handedOver c s).map fun packet => ⟨.RETURN_DATA, packet.physicalAddress⟩ } }

theorem Safe.updateRanks (hc : c.Valid) (h : Safe c T s) :
    MemorySystem.updateRanks c s = .ok (afterRanks c s) := by
  unfold MemorySystem.updateRanks
  have hdata : ∀ packet ∈ handedOver c s, packet.busPacketType = .DATA := by
    intro packet hpacket
    obtain ⟨i, hi, heq⟩ := List.mem_filterMap.mp hpacket
    have hrank := h.rank i (List.mem_range.mp hi)
    refine hrank.data packet ?_
    rw [← (hrank.flowing.update hc.burst).2.1]
    exact List.mem_append_left _ (Option.mem_toList.mpr heq)
  change (List.foldlM receiveFromBus s.memoryController (handedOver c s) >>= _) = _
  rw [foldlM_receiveFromBus hdata]
  rfl

/-- A transaction that waited outside is taken in. -/
def acceptedNow (c : SystemConfiguration) (s : MemorySystem) : List Transaction :=
  if willAcceptTransaction c s.memoryController then s.pendingTransactions.take 1 else []

/-- The state when the ranks have gone a cycle on and the controller has counted down
its bank states. -/
def prepared (c : SystemConfiguration) (s : MemorySystem) : MemorySystem :=
  { afterRanks c s with
    pendingTransactions := s.pendingTransactions.drop (acceptedNow c s).length
    memoryController :=
      { (afterRanks c s).memoryController with
        bankStates := fun i j => updateBankState c (s.memoryController.bankStates i j)
        transactionQueue := s.memoryController.transactionQueue ++ acceptedNow c s
        accepted := s.memoryController.accepted ++ acceptedNow c s } }

theorem prepared_eq :
    MemorySystem.updateBankStates c (MemorySystem.acceptPending c (afterRanks c s)) =
      prepared c s := by
  have hpending : (afterRanks c s).pendingTransactions = s.pendingTransactions := rfl
  unfold prepared acceptedNow
  cases hq : s.pendingTransactions with
  | nil =>
      simp only [MemorySystem.acceptPending, hpending, hq, List.take_nil, ite_self,
        List.append_nil, List.drop_nil]
      rw [← hq]
      rfl
  | cons tr rest =>
      have haccepts : willAcceptTransaction c (afterRanks c s).memoryController =
          willAcceptTransaction c s.memoryController := rfl
      simp only [MemorySystem.acceptPending, hpending, hq, haccepts]
      by_cases haccept : willAcceptTransaction c s.memoryController
      · simp only [if_pos haccept, addTransaction, haccepts, List.take_succ_cons, List.take_zero,
          List.length_singleton, List.drop_succ_cons, List.drop_zero]
        rfl
      · simp only [if_neg haccept, List.append_nil, List.length_nil, List.drop_zero]
        rw [← hq]
        rfl

/-- The command on the command bus arrives. -/
def delivered (c : SystemConfiguration) (s : MemorySystem) (left : Nat) : MemorySystem :=
  { s with
    ranks := fun i => Rank.deliver c s.currentClockCycle s.memoryController.outgoingCmdPacket i
      (s.ranks i)
    memoryController :=
      { s.memoryController with outgoingCmdPacket := none, cmdCyclesLeft := left } }

theorem deliverCommand_eq (h : ∀ packet ∈ s.memoryController.outgoingCmdPacket,
      s.memoryController.cmdCyclesLeft = 1 ∧
        Rank.Allowed c s.currentClockCycle packet (s.ranks packet.rank).bankStates) :
    ∃ left, MemorySystem.deliverCommand c s = .ok (delivered c s left) := by
  cases hcommand : s.memoryController.outgoingCmdPacket with
  | none =>
      refine ⟨s.memoryController.cmdCyclesLeft, ?_⟩
      simp only [MemorySystem.deliverCommand, delivered, hcommand, Rank.deliver]
      rw [← hcommand]
  | some packet =>
      obtain ⟨hleft, hallowed⟩ := h packet hcommand
      refine ⟨0, ?_⟩
      have hranks : Function.update s.ranks packet.rank
          (Rank.received c s.currentClockCycle packet (s.ranks packet.rank)) =
          fun i => Rank.deliver c s.currentClockCycle (some packet) i (s.ranks i) := by
        funext i
        rw [Function.update_apply]
        unfold Rank.deliver
        by_cases hi : i = packet.rank
        · subst hi
          rw [if_pos rfl]
          exact (if_pos rfl).symm
        · rw [if_neg hi]
          exact (if_neg (Ne.symm hi)).symm
      simp only [MemorySystem.deliverCommand, hcommand, hleft]
      rw [if_pos (by rfl), Rank.receiveFromBus_eq hallowed, delivered, hcommand, ← hranks]
      rfl

/-- The state when the buses have delivered what was due: `done` are the writes that are
over, `requests` what was asked for on that. -/
def arrived (c : SystemConfiguration) (s : MemorySystem) (done : List BusPacket)
    (requests : List Transaction) (cmdLeft : Nat) (out : Option BusPacket) (left : Nat) :
    MemorySystem :=
  { s with
    ranks := fun i => Rank.deliver c s.currentClockCycle s.memoryController.outgoingCmdPacket i
      ((s.ranks i).update c).2
    pendingTransactions := s.pendingTransactions.drop (acceptedNow c s).length
    writesDone := s.writesDone ++ done.map BusPacket.physicalAddress
    memoryController :=
      { s.memoryController with
        bankStates := fun i j => updateBankState c (s.memoryController.bankStates i j)
        transactionQueue := s.memoryController.transactionQueue ++ acceptedNow c s ++ requests
        accepted := s.memoryController.accepted ++ acceptedNow c s ++ requests
        outgoingCmdPacket := none
        cmdCyclesLeft := cmdLeft
        outgoingDataPacket := out
        dataCyclesLeft := left
        writeData := (tick s.memoryController.writeData).2
        returnTransaction := s.memoryController.returnTransaction ++
          (handedOver c s).map fun packet => ⟨.RETURN_DATA, packet.physicalAddress⟩ } }

theorem Safe.arrivals (hc : c.Valid) (h : Safe c T s) (hclock : s.currentClockCycle = T)
    {onWrite : List Transaction} (hwrite : ∀ tr ∈ onWrite, tr.transactionType ≠ .RETURN_DATA) :
    ∃ s₂ s₃ done requests cmdLeft out left,
      MemorySystem.updateRanks c s = .ok (afterRanks c s) ∧
      MemorySystem.deliverCommand c (MemorySystem.updateBankStates c
        (MemorySystem.acceptPending c (afterRanks c s))) = .ok s₂ ∧
      MemorySystem.deliverData c onWrite s₂ = .ok s₃ ∧
      MemorySystem.sendWriteData c s₃ = .ok (arrived c s done requests cmdLeft out left) ∧
      Safe c (T + 1) (arrived c s done requests cmdLeft out left) ∧
      (∀ e ∈ (tick s.memoryController.writeData).2, e.2 < c.WL) ∧
      done ++ (out.toList ++ (tick s.memoryController.writeData).2.map Prod.fst) =
        s.memoryController.outgoingDataPacket.toList ++
          s.memoryController.writeData.map Prod.fst := by
  subst hclock
  have hallowed : ∀ packet ∈ (prepared c s).memoryController.outgoingCmdPacket,
      (prepared c s).memoryController.cmdCyclesLeft = 1 ∧
        Rank.Allowed c s.currentClockCycle packet
          ((prepared c s).ranks packet.rank).bankStates := by
    intro packet hpacket
    obtain ⟨_, hallowed, hleft⟩ := h.command packet hpacket
    refine ⟨hleft, ?_⟩
    change Rank.Allowed c s.currentClockCycle packet ((s.ranks packet.rank).update c).2.bankStates
    rwa [update_bankStates]
  obtain ⟨cmdLeft, hcommand⟩ := deliverCommand_eq hallowed
  obtain ⟨s₃, done, requests, out, left, hrequests, hdata, hsend, hwrites, hlimit, horder⟩ :=
    WritesFlow.cycle (T := s.currentClockCycle) (s := delivered c (prepared c s) cmdLeft) hc onWrite
      rfl h.writes.countdown
  rw [prepared_eq]
  refine ⟨_, s₃, done, requests, cmdLeft, out, left, h.updateRanks hc, hcommand, hdata, hsend,
    ⟨?_, (fun _ h => nomatch h), hwrites, h.supplied, h.refreshRank, ?_, ?_⟩, hlimit, horder⟩
  · intro i hi
    exact (h.rank i hi).update hc
  · have haccepted : ∀ tr ∈ acceptedNow c s, tr.transactionType ≠ .RETURN_DATA := by
      unfold acceptedNow
      split
      · exact fun tr htr => h.pendingTypes tr (List.mem_of_mem_take htr)
      · exact fun _ h => nomatch h
    intro tr htr
    rcases List.mem_append.mp htr with htr | htr
    · rcases List.mem_append.mp htr with htr | htr
      · exact h.types tr htr
      · exact haccepted tr htr
    · exact hwrite tr (hrequests tr htr)
  · exact fun tr htr => h.pendingTypes tr (List.mem_of_mem_drop htr)

/-! The command of the cycle -/

theorem Safe.startRefresh (h : Safe c T s) : Safe c T (MemorySystem.startRefresh c s) := by
  have hranks (w : Bool) (k : Nat) : ∀ i < c.numRanks,
      RankAgrees c T s.memoryController.outgoingCmdPacket i (s.memoryController.bankStates i)
        (s.memoryController.powerDown i)
        (Function.update s.ranks k { s.ranks k with refreshWaiting := w } i) := by
    intro i hi
    rw [Function.update_apply]
    split
    · rename_i hik
      subst hik
      exact (h.rank i hi).refreshWaiting w
    · exact h.rank i hi
  have hcommand (w : Bool) (k : Nat) : ∀ packet ∈ s.memoryController.outgoingCmdPacket,
      packet.rank < c.numRanks ∧ Rank.Allowed c T packet
        (Function.update s.ranks k { s.ranks k with refreshWaiting := w } packet.rank).bankStates ∧
        s.memoryController.cmdCyclesLeft = 1 := by
    intro packet hpacket
    rw [Function.update_apply]
    split
    · rename_i hik
      rw [← hik]
      exact h.command packet hpacket
    · exact h.command packet hpacket
  unfold MemorySystem.startRefresh
  simp only
  split
  · refine ⟨hranks true _, hcommand true _, h.writes, h.supplied.needRefresh h.refreshRank, ?_,
      h.types, h.pendingTypes⟩
    have hrank := h.refreshRank
    simp only
    split <;> omega
  · split
    · exact ⟨hranks true _, hcommand true _, h.writes, h.supplied, h.refreshRank, h.types,
        h.pendingTypes⟩
    · exact h

/-- What `startRefresh` leaves alone. -/
theorem startRefresh_rest :
    (MemorySystem.startRefresh c s).memoryController.outgoingCmdPacket =
        s.memoryController.outgoingCmdPacket ∧
      (MemorySystem.startRefresh c s).memoryController.writeData = s.memoryController.writeData ∧
      (MemorySystem.startRefresh c s).currentClockCycle = s.currentClockCycle ∧
      (MemorySystem.startRefresh c s).memoryController.bankStates =
        s.memoryController.bankStates ∧
      (MemorySystem.startRefresh c s).memoryController.commandQueue.tFAWCountdown =
        s.memoryController.commandQueue.tFAWCountdown ∧
      (MemorySystem.startRefresh c s).memoryController.commandQueue.queues =
        s.memoryController.commandQueue.queues ∧
      (MemorySystem.startRefresh c s).issued = s.issued := by
  unfold MemorySystem.startRefresh
  simp only
  split
  · exact ⟨rfl, rfl, rfl, rfl, rfl, rfl, rfl⟩
  · split <;> exact ⟨rfl, rfl, rfl, rfl, rfl, rfl, rfl⟩

/-- The state after the command of the cycle. -/
def issuedNow (c : SystemConfiguration) (s : MemorySystem) : MemorySystem :=
  let now := s.currentClockCycle
  let mc := s.memoryController
  let cq := (pop c now mc.bankStates mc.commandQueue).2
  match (pop c now mc.bankStates mc.commandQueue).1 with
  | none => { s with memoryController := { mc with commandQueue := cq } }
  | some packet =>
      { s with
        issued := s.issued ++ [(now, packet)]
        memoryController :=
          { mc with
            commandQueue := cq
            bankStates := fun i j => commandAfter c now packet i j (mc.bankStates i j)
            writeData :=
              if isWrite packet then
                mc.writeData ++ [({ packet with busPacketType := .DATA }, c.WL)]
              else mc.writeData
            outgoingCmdPacket := some packet
            cmdCyclesLeft := c.tCMD } }

/-- A rank with a command on its way is neither idle nor powered down. -/
def Occupied (c : SystemConfiguration) (s : MemorySystem) : Prop :=
  ∀ packet ∈ s.memoryController.outgoingCmdPacket, ∃ j < c.numBanks,
    (s.memoryController.bankStates packet.rank j).currentBankState ≠ .Idle ∧
      (s.memoryController.bankStates packet.rank j).currentBankState ≠ .PowerDown

/-- What is popped may be sent. -/
theorem Safe.legal (hc : c.Valid) (h : Safe c T s) (now : Nat) (packet : BusPacket)
    (hpop : (pop c now s.memoryController.bankStates s.memoryController.commandQueue).1 =
      some packet) :
    packet.rank < c.numRanks ∧ packet.bank < c.numBanks ∧ packet.busPacketType ≠ .DATA ∧
      Legal c now packet (s.memoryController.bankStates packet.rank) := by
  refine h.supplied.legal (fun i hi hzero => (h.rank i hi).poweredUp ?_) hpop
  rw [← Bool.not_eq_true]
  exact fun hdown => hzero ((h.rank i hi).poweredDown hdown 0 hc.banks_pos).1

theorem Safe.issueCommand (hc : c.Valid) (h : Safe c (s.currentClockCycle + 1) s)
    (hfree : s.memoryController.outgoingCmdPacket = none)
    (hlimit : ∀ e ∈ s.memoryController.writeData, e.2 < c.WL) :
    MemorySystem.issueCommand c s = .ok (issuedNow c s) ∧
      Safe c (s.currentClockCycle + 1) (issuedNow c s) ∧ Occupied c (issuedNow c s) := by
  have hsupplied := h.supplied.pop s.currentClockCycle s.memoryController.bankStates
  have hlegal := h.legal hc s.currentClockCycle
  unfold MemorySystem.issueCommand issuedNow
  simp only
  generalize hpop : pop c s.currentClockCycle s.memoryController.bankStates
    s.memoryController.commandQueue = popped at hsupplied hlegal ⊢
  obtain ⟨_ | packet, cq⟩ := popped
  · refine ⟨rfl, ⟨h.rank, h.command, h.writes, hsupplied, h.refreshRank, h.types,
      h.pendingTypes⟩, ?_⟩
    simp only [Occupied, hfree]
    exact fun _ h => nomatch h
  · obtain ⟨hrank, _, hdata, hlegal⟩ := hlegal packet rfl
    have hbefore (i : Nat) (hi : i < c.numRanks) := hfree ▸ h.rank i hi
    obtain ⟨hallowed, hown⟩ :=
      (hbefore packet.rank hrank).issue_own hc hc.banks_pos hlegal
    refine ⟨?_, ⟨fun i hi => ?_, ?_, h.writes.issue hc hlimit hrank hlegal, hsupplied,
      h.refreshRank, h.types, h.pendingTypes⟩, ?_⟩
    · simp only [applyCommand_eq hdata, hfree]
      rfl
    · by_cases hi' : i = packet.rank
      · subst hi'
        exact hown
      · exact (hbefore i hi).issue_other hi'
    · intro p hp
      obtain rfl := Option.some.inj hp
      exact ⟨hrank, hallowed, hc.command⟩
    · intro p hp
      obtain rfl := Option.some.inj hp
      exact hlegal.busy hc.banks_pos

/-! The rest of the cycle -/

/-- The state with another command queue, and what has gone there. -/
def withQueues (s : MemorySystem) (cq : CommandQueue) (q pending : List Transaction) :
    MemorySystem :=
  { s with
    memoryController :=
      { s.memoryController with
        commandQueue := cq
        transactionQueue := q
        pendingReadTransactions := pending } }

theorem Safe.schedule (hc : c.Valid) (h : Safe c T s) :
    ∃ cq q pending, MemorySystem.schedule c s = .ok (withQueues s cq q pending) ∧
      Schedules c s.memoryController.commandQueue s.memoryController.transactionQueue
        s.memoryController.pendingReadTransactions cq q pending ∧
      Safe c T (withQueues s cq q pending) := by
  obtain ⟨cq, q, pending, hok, hsupplied, htypes, hschedules⟩ :=
    h.supplied.scheduleFrom hc s.memoryController.transactionQueue.length 0 h.types
  refine ⟨cq, q, pending, ?_, hschedules, ⟨h.rank, h.command, h.writes, hsupplied, h.refreshRank,
    htypes, h.pendingTypes⟩⟩
  unfold MemorySystem.schedule scheduleTransactions
  rw [hok]
  rfl

/-- A bank before and after a change of its power state. -/
def SameTimes (b b' : BankState) : Prop :=
  b'.nextRead = b.nextRead ∧ b'.nextWrite = b.nextWrite ∧ b'.nextPrecharge = b.nextPrecharge ∧
    (b'.currentBankState = .RowActive → b' = b)

theorem SameTimes.trans {b b' b'' : BankState} (h : SameTimes b b') (h' : SameTimes b' b'') :
    SameTimes b b'' := by
  obtain ⟨hread, hwrite, hprecharge, hactive⟩ := h
  obtain ⟨hread', hwrite', hprecharge', hactive'⟩ := h'
  refine ⟨hread'.trans hread, hwrite'.trans hwrite, hprecharge'.trans hprecharge, fun h => ?_⟩
  have heq := hactive' h
  rw [heq]
  exact hactive (heq ▸ h)

/-- Nothing has changed but what belongs to the power state. -/
structure SameButPower (c : SystemConfiguration) (s s' : MemorySystem) : Prop where
  controller : s'.memoryController = { s.memoryController with
    bankStates := s'.memoryController.bankStates
    powerDown := s'.memoryController.powerDown }
  system : s' = { s with ranks := s'.ranks, memoryController := s'.memoryController }
  reads : ∀ i, (s'.ranks i).reads = (s.ranks i).reads
  banks : ∀ i j, SameTimes (s.memoryController.bankStates i j) (s'.memoryController.bankStates i j)
  opened : ∀ i, ∀ j < c.numBanks,
    (s.memoryController.bankStates i j).currentBankState = .RowActive →
      s'.memoryController.bankStates i j = s.memoryController.bankStates i j
  unused : c.useLowPower = false → s' = s

theorem SameButPower.refl : SameButPower c s s :=
  ⟨rfl, rfl, fun _ => rfl, fun _ _ => ⟨rfl, rfl, rfl, fun _ => rfl⟩,
    fun _ _ _ _ => rfl, fun _ => rfl⟩

theorem SameButPower.trans {s'' : MemorySystem} (h : SameButPower c s s')
    (h' : SameButPower c s' s'') : SameButPower c s s'' := by
  refine ⟨?_, ?_, fun i => (h'.reads i).trans (h.reads i),
    fun i j => (h.banks i j).trans (h'.banks i j), fun i j hj hopen => ?_,
    fun hc => (h'.unused hc).trans (h.unused hc)⟩
  · rw [h'.controller, h.controller]
  · rw [h'.system, h.system]
  · have hsame := h.opened i j hj hopen
    exact (h'.opened i j hj (hsame ▸ hopen)).trans hsame

/-- Rank `i` changes its power state. -/
def withPower (s : MemorySystem) (i : Nat) (r : Rank) (down : Bool) (f : BankState → BankState) :
    MemorySystem :=
  { s with
    ranks := Function.update s.ranks i r
    memoryController :=
      { s.memoryController with
        powerDown := Function.update s.memoryController.powerDown i down
        bankStates := MemorySystem.setRank i f s.memoryController.bankStates } }

theorem withPower_same {r : Rank} {down : Bool} {f : BankState → BankState}
    (hlow : ¬ c.useLowPower = false) (hr : r.reads = (s.ranks i).reads)
    (hf : ∀ b, SameTimes b (f b))
    (hclosed : ∀ j < c.numBanks,
      (s.memoryController.bankStates i j).currentBankState ≠ .RowActive) :
    SameButPower c s (withPower s i r down f) := by
  refine ⟨rfl, rfl, fun k => ?_, fun k j => ?_, fun k j hj hopen => ?_, fun h => absurd h hlow⟩
  · simp only [withPower, Function.update_apply]
    split
    · rename_i hk
      rw [hk]
      exact hr
    · rfl
  · simp only [withPower, MemorySystem.setRank, Function.update_apply]
    split
    · rename_i hk
      rw [hk]
      exact hf _
    · exact ⟨rfl, rfl, rfl, fun _ => rfl⟩
  · have hk : k ≠ i := by
      rintro rfl
      exact hclosed j hj hopen
    simp only [withPower, MemorySystem.setRank, Function.update_of_ne hk]

theorem Safe.powered (h : Safe c T s) (hoccupied : Occupied c s)
    (hother : ∀ packet ∈ s.memoryController.outgoingCmdPacket, packet.rank ≠ i)
    {r : Rank} {down : Bool} {f : BankState → BankState} (hlow : ¬ c.useLowPower = false)
    (hreads : r.reads = (s.ranks i).reads) (hf : ∀ b, (f b).currentBankState ≠ .RowActive)
    (htimes : ∀ b, SameTimes b (f b))
    (hclosed : ∀ j < c.numBanks,
      (s.memoryController.bankStates i j).currentBankState ≠ .RowActive)
    (hr : RankAgrees c T none i (fun j => f (s.memoryController.bankStates i j)) down r) :
    Safe c T (withPower s i r down f) ∧ Occupied c (withPower s i r down f) ∧
      SameButPower c s (withPower s i r down f) := by
  have hstates (k : Nat) (hk : k ≠ i) :
      (withPower s i r down f).memoryController.bankStates k = s.memoryController.bankStates k :=
    Function.update_of_ne hk _ _
  have hstatesSelf : (withPower s i r down f).memoryController.bankStates i =
      fun j => f (s.memoryController.bankStates i j) := Function.update_self ..
  have hranks (k : Nat) (hk : k ≠ i) : (withPower s i r down f).ranks k = s.ranks k :=
    Function.update_of_ne hk _ _
  refine ⟨⟨?_, ?_, h.writes.mono ?_, h.supplied, h.refreshRank, h.types, h.pendingTypes⟩, ?_,
    withPower_same hlow hreads htimes hclosed⟩
  · intro k hk
    by_cases hki : k = i
    · subst hki
      rw [hstatesSelf]
      refine (RankAgrees.elsewhere hother).mpr ?_
      simp only [withPower, Function.update_self]
      exact hr
    · rw [hstates k hki, hranks k hki]
      simp only [withPower, Function.update_of_ne hki]
      exact h.rank k hk
  · intro packet hpacket
    rw [hranks _ (hother packet hpacket)]
    exact h.command packet hpacket
  · intro k hk j hj hactive
    by_cases hki : k = i
    · subst hki
      rw [hstatesSelf] at hactive
      exact absurd hactive (hf _)
    · rw [hstates k hki] at hactive ⊢
      exact ⟨hactive, Nat.le_refl _⟩
  · intro packet hpacket
    rw [hstates _ (hother packet hpacket)]
    exact hoccupied packet hpacket

theorem Safe.powerRank (h : Safe c T s) (hoccupied : Occupied c s)
    (hi : i < c.numRanks) :
    ∃ s', MemorySystem.powerRank c s i = .ok s' ∧ Safe c T s' ∧ Occupied c s' ∧
      SameButPower c s s' := by
  have hrank := h.rank i hi
  have hsame : ∃ s', (.ok s : Except Fault MemorySystem) = .ok s' ∧ Safe c T s' ∧
      Occupied c s' ∧ SameButPower c s s' := ⟨s, rfl, h, hoccupied, .refl⟩
  unfold MemorySystem.powerRank
  simp only
  split
  · exact hsame
  · rename_i hlow
    split
    · split
      · rename_i hidle
        have hother : ∀ packet ∈ s.memoryController.outgoingCmdPacket, packet.rank ≠ i := by
          rintro packet hpacket rfl
          obtain ⟨j, hj, hbusy, _⟩ := hoccupied packet hpacket
          exact hbusy (hidle j hj)
        obtain ⟨r, hok, hreads, hr⟩ := ((RankAgrees.elsewhere hother).mp hrank).powerDown
          s.currentClockCycle hidle
        rw [hok]
        exact ⟨_, rfl, h.powered hoccupied hother hlow hreads (fun _ h => nomatch h)
          (fun _ => ⟨rfl, rfl, rfl, (fun h => nomatch h)⟩)
          (fun j hj => by rw [hidle j hj]; decide) hr⟩
      · exact hsame
    · split
      · rename_i hup
        obtain ⟨hnext, hdown⟩ := hup
        have hother : ∀ packet ∈ s.memoryController.outgoingCmdPacket, packet.rank ≠ i := by
          rintro packet hpacket rfl
          obtain ⟨j, hj, _, hbusy⟩ := hoccupied packet hpacket
          exact hbusy (hrank.poweredDown hdown j hj).1
        obtain ⟨r, hok, hreads, hr⟩ :=
          (hdown ▸ (RankAgrees.elsewhere hother).mp hrank).powerUp hnext
        rw [hok]
        exact ⟨_, rfl, h.powered hoccupied hother hlow hreads (fun _ h => nomatch h)
          (fun _ => ⟨rfl, rfl, rfl, (fun h => nomatch h)⟩)
          (fun j hj => by rw [(hrank.poweredDown hdown j hj).1]; decide) hr⟩
      · exact hsame

theorem Safe.powerRanks (h : Safe c T s) (hoccupied : Occupied c s) :
    ∃ s', MemorySystem.powerRanks c s = .ok s' ∧ Safe c T s' ∧ SameButPower c s s' := by
  have hstep : ∀ i ∈ List.range c.numRanks, ∀ s₁,
      Safe c T s₁ ∧ Occupied c s₁ ∧ SameButPower c s s₁ →
        ∃ s₂, MemorySystem.powerRank c s₁ i = .ok s₂ ∧
          Safe c T s₂ ∧ Occupied c s₂ ∧ SameButPower c s s₂ := by
    rintro i hi s₁ ⟨hsafe, hoccupied, hsame⟩
    obtain ⟨s₂, hok, hsafe, hoccupied, hnext⟩ :=
      hsafe.powerRank hoccupied (List.mem_range.mp hi)
    exact ⟨s₂, hok, hsafe, hoccupied, hsame.trans hnext⟩
  obtain ⟨s', hok, hsafe, _, hsame⟩ := ExceptRun.foldlM_total hstep ⟨h, hoccupied, .refl⟩
  exact ⟨s', hok, hsafe, hsame⟩

/-- What `answerRead` leaves alone. -/
theorem answerRead_rest (onRead : List Transaction) :
    (MemorySystem.answerRead c onRead s).memoryController.bankStates =
        s.memoryController.bankStates ∧
      (MemorySystem.answerRead c onRead s).memoryController.commandQueue =
        s.memoryController.commandQueue ∧
      (MemorySystem.answerRead c onRead s).issued = s.issued ∧
      (MemorySystem.answerRead c onRead s).currentClockCycle = s.currentClockCycle := by
  unfold MemorySystem.answerRead
  simp only
  split
  · exact ⟨rfl, rfl, rfl, rfl⟩
  · split
    · exact ⟨rfl, rfl, rfl, rfl⟩
    · obtain ⟨q, _, hcallback⟩ := callback_eq (c := c) onRead s.memoryController
      rw [hcallback]
      exact ⟨rfl, rfl, rfl, rfl⟩

theorem Safe.answerRead {onRead : List Transaction} (h : Safe c T s)
    (hread : ∀ tr ∈ onRead, tr.transactionType ≠ .RETURN_DATA) :
    Safe c T (MemorySystem.answerRead c onRead s) := by
  unfold MemorySystem.answerRead
  simp only
  split
  · exact h
  · split
    · exact ⟨h.rank, h.command, h.writes, h.supplied, h.refreshRank, h.types, h.pendingTypes⟩
    · obtain ⟨q, hq, hcallback⟩ := callback_eq (c := c) onRead s.memoryController
      rw [hcallback]
      refine ⟨h.rank, h.command, h.writes, h.supplied, h.refreshRank, ?_, h.pendingTypes⟩
      intro tr htr
      rcases List.mem_append.mp htr with htr | htr
      · exact h.types tr htr
      · exact hread tr (hq tr htr)

theorem Safe.stepClock (h : Safe c T s) : Safe c T (MemorySystem.stepClock s) :=
  ⟨h.rank, h.command, h.writes, h.supplied, h.refreshRank, h.types, h.pendingTypes⟩

/-- A cycle, part by part: `a` is the state when the buses have delivered what was due,
`done` the writes that are over then, and `b` the state behind the command of the cycle and
what was scheduled. -/
structure Cycle (c : SystemConfiguration) (onWrite onRead : List Transaction) (s : MemorySystem)
    (done : List BusPacket) (a b s' : MemorySystem) : Prop where
  arrived : ∃ requests cmdLeft out left, a = arrived c s done requests cmdLeft out left ∧
    done ++ (out.toList ++ (tick s.memoryController.writeData).2.map Prod.fst) =
      s.memoryController.outgoingDataPacket.toList ++ s.memoryController.writeData.map Prod.fst
  safe : Safe c (s.currentClockCycle + 1) a
  free : a.memoryController.outgoingCmdPacket = none
  scheduled : ∃ cq q pending,
    b = withQueues (issuedNow c (MemorySystem.startRefresh c a)) cq q pending ∧
      Schedules c (issuedNow c (MemorySystem.startRefresh c a)).memoryController.commandQueue
        (issuedNow c (MemorySystem.startRefresh c a)).memoryController.transactionQueue
        (issuedNow c (MemorySystem.startRefresh c a)).memoryController.pendingReadTransactions
        cq q pending
  power : SameButPower c b s'
  safeAfter : Safe c (s.currentClockCycle + 1) s'
  update : MemorySystem.update c onWrite onRead s =
    .ok (MemorySystem.stepClock (MemorySystem.answerRead c onRead s'))

theorem issuedNow_clock : (issuedNow c s).currentClockCycle = s.currentClockCycle := by
  unfold issuedNow
  simp only
  split <;> rfl

theorem Safe.cycle (hc : c.Valid) (h : Safe c s.currentClockCycle s)
    {onWrite : List Transaction} (hwrite : ∀ tr ∈ onWrite, tr.transactionType ≠ .RETURN_DATA)
    (onRead : List Transaction) : ∃ done a b s', Cycle c onWrite onRead s done a b s' := by
  obtain ⟨s₂, s₃, done, requests, cmdLeft, out, left, hranks, hcommand, hdata, hsend, hsafe, hlimit,
    horder⟩ := h.arrivals hc rfl hwrite
  have hfree : (FeS2.DRAMSim.arrived c s done requests cmdLeft out
      left).memoryController.outgoingCmdPacket = none := rfl
  generalize ha : FeS2.DRAMSim.arrived c s done requests cmdLeft out left = a at *
  have hclock : a.currentClockCycle = s.currentClockCycle := by
    rw [← ha]
    rfl
  obtain ⟨hrefreshFree, hrefreshLine, hrefreshClock, _⟩ := startRefresh_rest (c := c) (s := a)
  have hrefreshed : Safe c ((MemorySystem.startRefresh c a).currentClockCycle + 1)
      (MemorySystem.startRefresh c a) := by
    rw [hrefreshClock, hclock]
    exact hsafe.startRefresh
  obtain ⟨hissue, hissued, hoccupied⟩ := hrefreshed.issueCommand hc (hrefreshFree.trans hfree) (by
    rw [hrefreshLine, ← ha]
    exact hlimit)
  obtain ⟨cq, q, pending, hschedule, hschedules, hscheduled⟩ := hissued.schedule hc
  obtain ⟨s', hpower, hpowered, hsame⟩ := hscheduled.powerRanks hoccupied
  rw [hrefreshClock, hclock] at hpowered
  refine ⟨done, a, _, s', ⟨⟨requests, cmdLeft, out, left, ha.symm, horder⟩, hsafe, hfree,
    ⟨cq, q, pending, rfl, hschedules⟩, hsame, hpowered, ?_⟩⟩
  unfold MemorySystem.update
  rw [hranks]
  change (MemorySystem.deliverCommand c _ >>= _) = _
  rw [hcommand]
  change (MemorySystem.deliverData c onWrite _ >>= _) = _
  rw [hdata]
  change (MemorySystem.sendWriteData c _ >>= _) = _
  rw [hsend]
  change (MemorySystem.issueCommand c _ >>= _) = _
  rw [hissue]
  change (MemorySystem.schedule c _ >>= _) = _
  rw [hschedule]
  change (MemorySystem.powerRanks c _ >>= _) = _
  rw [hpower]
  rfl

/-! The command of a cycle -/

/-- The bank states that the command of the cycle meets. -/
def counted (c : SystemConfiguration) (s : MemorySystem) : BankStates :=
  fun i j => updateBankState c (s.memoryController.bankStates i j)

/-- The bank states behind a command. -/
def commanded (c : SystemConfiguration) (now : Nat) (popped : Option BusPacket)
    (states : BankStates) : BankStates :=
  match popped with
  | none => states
  | some packet => fun i j => commandAfter c now packet i j (states i j)

/-- What a cycle does to the commands, the bank states and the command queue: `cq` is the
queue that the command leaves. -/
structure CommandCycle (c : SystemConfiguration) (s : MemorySystem) (cq : CommandQueue)
    (popped : Option BusPacket) (s' : MemorySystem) : Prop where
  queues : cq.queues = s.memoryController.commandQueue.queues
  windows : cq.tFAWCountdown = s.memoryController.commandQueue.tFAWCountdown
  pops : (pop c s.currentClockCycle (counted c s) cq).1 = popped
  agrees : ∀ i < c.numRanks, ∀ j < c.numBanks,
    ∃ k, Agrees c (s.currentClockCycle + 1) (counted c s i j) k
  legal : ∀ packet ∈ popped, packet.rank < c.numRanks ∧ packet.bank < c.numBanks ∧
    packet.busPacketType ≠ .DATA ∧ Legal c s.currentClockCycle packet (counted c s packet.rank)
  issued : s'.issued = s.issued ++ popped.toList.map fun packet => (s.currentClockCycle, packet)
  schedules : ∃ q pending q' pending',
    Schedules c (pop c s.currentClockCycle (counted c s) cq).2 q pending
      s'.memoryController.commandQueue q' pending'
  times : ∀ i j, SameTimes (commanded c s.currentClockCycle popped (counted c s) i j)
    (s'.memoryController.bankStates i j)
  opened : ∀ i, ∀ j < c.numBanks,
    (commanded c s.currentClockCycle popped (counted c s) i j).currentBankState = .RowActive →
      s'.memoryController.bankStates i j =
        commanded c s.currentClockCycle popped (counted c s) i j
  unused : c.useLowPower = false →
    s'.memoryController.bankStates = commanded c s.currentClockCycle popped (counted c s)

theorem Cycle.commands (hc : c.Valid) {onWrite onRead : List Transaction} {done : List BusPacket}
    {a b : MemorySystem} (h : Cycle c onWrite onRead s done a b s') :
    ∃ cq popped, CommandCycle c s cq popped
      (MemorySystem.stepClock (MemorySystem.answerRead c onRead s')) := by
  obtain ⟨requests, cmdLeft, out, left, ha, _⟩ := h.arrived
  obtain ⟨cq, q, pending, hb, hschedules⟩ := h.scheduled
  obtain ⟨hbanks, hqueue, hissued, _⟩ := answerRead_rest (c := c) (s := s') onRead
  obtain ⟨_, _, hclock, hstates, hwindows, hqueues, hbefore⟩ := startRefresh_rest (c := c) (s := a)
  have hsafe := h.safe.startRefresh
  have hnow : (MemorySystem.startRefresh c a).currentClockCycle = s.currentClockCycle := by
    rw [hclock, ha]
    rfl
  have hcounted : (MemorySystem.startRefresh c a).memoryController.bankStates = counted c s := by
    rw [hstates, ha]
    rfl
  have harrived : a.memoryController.commandQueue = s.memoryController.commandQueue ∧
      a.issued = s.issued := by
    rw [ha]
    exact ⟨rfl, rfl⟩
  rw [harrived.1] at hwindows hqueues
  rw [harrived.2] at hbefore
  have hlegal := hsafe.legal hc s.currentClockCycle
  have hagrees (i : Nat) (hi : i < c.numRanks) (j : Nat) (hj : j < c.numBanks) :=
    (hsafe.rank i hi).agrees j hj
  rw [hcounted] at hlegal hagrees
  have hpower := h.power
  have hqueueAfter : s'.memoryController.commandQueue = cq := by
    rw [hpower.controller, hb]
    rfl
  have hissuedAfter : s'.issued = (issuedNow c (MemorySystem.startRefresh c a)).issued := by
    rw [hpower.system, hb]
    rfl
  have hstatesAfter : b.memoryController.bankStates =
      (issuedNow c (MemorySystem.startRefresh c a)).memoryController.bankStates := by
    rw [hb]
    rfl
  have hnext : (issuedNow c (MemorySystem.startRefresh c a)).issued = s.issued ++
        ((pop c s.currentClockCycle (counted c s)
          (MemorySystem.startRefresh c a).memoryController.commandQueue).1.toList.map
            fun packet => (s.currentClockCycle, packet)) ∧
      (issuedNow c (MemorySystem.startRefresh c a)).memoryController.bankStates =
        commanded c s.currentClockCycle (pop c s.currentClockCycle (counted c s)
          (MemorySystem.startRefresh c a).memoryController.commandQueue).1 (counted c s) ∧
      (issuedNow c (MemorySystem.startRefresh c a)).memoryController.commandQueue =
        (pop c s.currentClockCycle (counted c s)
          (MemorySystem.startRefresh c a).memoryController.commandQueue).2 := by
    unfold issuedNow
    simp only [hnow, hcounted]
    split
    · rename_i hpop
      rw [hpop]
      exact ⟨by simp [hbefore], rfl, rfl⟩
    · rename_i packet hpop
      rw [hpop]
      exact ⟨by simp [hbefore], rfl, rfl⟩
  obtain ⟨hissuedNext, hstatesNext, hqueueNext⟩ := hnext
  refine ⟨(MemorySystem.startRefresh c a).memoryController.commandQueue, _,
    ⟨hqueues, hwindows, rfl, fun i hi j hj => ⟨_, hagrees i hi j hj⟩, hlegal,
      ?_, ?_, ?_, ?_, ?_⟩⟩
  · change (MemorySystem.answerRead c onRead s').issued = _
    rw [hissued, hissuedAfter, hissuedNext]
  · rw [hqueueNext] at hschedules
    change ∃ q pending q' pending', Schedules c _ q pending
      (MemorySystem.answerRead c onRead s').memoryController.commandQueue q' pending'
    rw [hqueue, hqueueAfter]
    exact ⟨_, _, q, pending, hschedules⟩
  · intro i j
    change SameTimes _ ((MemorySystem.answerRead c onRead s').memoryController.bankStates i j)
    rw [hbanks, ← hstatesNext, ← hstatesAfter]
    exact hpower.banks i j
  · intro i j hj
    change _ → (MemorySystem.answerRead c onRead s').memoryController.bankStates i j = _
    rw [hbanks, ← hstatesNext, ← hstatesAfter]
    exact hpower.opened i j hj
  · intro hlow
    change (MemorySystem.answerRead c onRead s').memoryController.bankStates = _
    rw [hbanks, ← hstatesNext, ← hstatesAfter, hpower.unused hlow]

/-! Runs -/

/-- The transactions that an event may bring. -/
def MemorySystem.Event.transactions : MemorySystem.Event → List Transaction
  | .request tr => [tr]
  | .add _ _ => []
  | .cycle onWrite onRead => onWrite ++ onRead

/-- Nobody outside the memory makes transactions that return data. -/
def MemorySystem.Event.Proper (e : MemorySystem.Event) : Prop :=
  ∀ tr ∈ e.transactions, tr.transactionType ≠ .RETURN_DATA

instance (e : MemorySystem.Event) : Decidable e.Proper :=
  inferInstanceAs (Decidable (∀ tr ∈ e.transactions, _))

/-- The state with one more transaction in the queue. -/
def withTransaction (s : MemorySystem) (tr : Transaction) : MemorySystem :=
  { s with
    memoryController :=
      { s.memoryController with
        transactionQueue := s.memoryController.transactionQueue ++ [tr]
        accepted := s.memoryController.accepted ++ [tr] } }

theorem addTransaction_eq (tr : Transaction) : (MemorySystem.addTransaction c tr s).2 =
    if willAcceptTransaction c s.memoryController then withTransaction s tr else s := by
  simp only [MemorySystem.addTransaction, MemoryController.addTransaction]
  split <;> rfl

theorem Safe.withTransaction (h : Safe c T s) {tr : Transaction}
    (htype : tr.transactionType ≠ .RETURN_DATA) : Safe c T (withTransaction s tr) := by
  refine ⟨h.rank, h.command, h.writes, h.supplied, h.refreshRank, fun tr' htr' => ?_,
    h.pendingTypes⟩
  rcases List.mem_append.mp htr' with htr' | htr'
  · exact h.types tr' htr'
  · rw [List.mem_singleton.mp htr']
    exact htype

theorem Safe.addTransaction (h : Safe c T s) {tr : Transaction}
    (htype : tr.transactionType ≠ .RETURN_DATA) :
    Safe c T (MemorySystem.addTransaction c tr s).2 := by
  rw [addTransaction_eq]
  split
  · exact h.withTransaction htype
  · exact h

theorem Safe.addTransactionOf (h : Safe c T s) (w : Bool) (addr : Nat) :
    Safe c T (MemorySystem.addTransactionOf c w addr s) := by
  have htype : (if w then TransactionType.DATA_WRITE else .DATA_READ) ≠ .RETURN_DATA := by
    cases w <;> decide
  unfold MemorySystem.addTransactionOf
  simp only
  split
  · exact h.addTransaction htype
  · refine ⟨h.rank, h.command, h.writes, h.supplied, h.refreshRank, h.types, fun tr htr => ?_⟩
    rcases List.mem_append.mp htr with htr | htr
    · exact h.pendingTypes tr htr
    · rw [List.mem_singleton.mp htr]
      exact htype

theorem addTransactionOf_clock (w : Bool) (addr : Nat) :
    (MemorySystem.addTransactionOf c w addr s).currentClockCycle = s.currentClockCycle := by
  unfold MemorySystem.addTransactionOf
  simp only
  split <;> rfl

theorem Cycle.clock {onWrite onRead : List Transaction} {done : List BusPacket}
    {a b : MemorySystem} (h : Cycle c onWrite onRead s done a b s') :
    (MemorySystem.stepClock (MemorySystem.answerRead c onRead s')).currentClockCycle =
      s.currentClockCycle + 1 := by
  obtain ⟨_, _, _, _, ha, _⟩ := h.arrived
  obtain ⟨_, _, _, hb, _⟩ := h.scheduled
  have hs' : s'.currentClockCycle = b.currentClockCycle := by rw [h.power.system]
  change (MemorySystem.answerRead c onRead s').currentClockCycle + 1 = _
  rw [(answerRead_rest onRead).2.2.2, hs', hb]
  change (issuedNow c (MemorySystem.startRefresh c a)).currentClockCycle + 1 = _
  rw [issuedNow_clock, startRefresh_rest.2.2.1, ha]
  rfl

theorem Safe.step (hc : c.Valid) (h : Safe c s.currentClockCycle s) {e : MemorySystem.Event}
    (he : e.Proper) :
    ∃ s', MemorySystem.step c s e = .ok s' ∧ Safe c s'.currentClockCycle s' := by
  cases e with
  | request tr => exact ⟨_, rfl, h.addTransaction (he tr (List.mem_singleton_self tr))⟩
  | add w addr =>
      refine ⟨_, rfl, ?_⟩
      rw [addTransactionOf_clock]
      exact h.addTransactionOf w addr
  | cycle onWrite onRead =>
      obtain ⟨done, a, b, s', hcycle⟩ :=
        h.cycle hc (fun tr htr => he tr (List.mem_append_left _ htr)) onRead
      refine ⟨_, hcycle.update, ?_⟩
      rw [hcycle.clock]
      exact (hcycle.safeAfter.answerRead fun tr htr =>
        he tr (List.mem_append_right _ htr)).stepClock

/-- The invariant rule for runs of the memory: an invariant is kept when transactions come
and, from a safe state, by each cycle. -/
theorem run_invariant (hc : c.Valid) {I : MemorySystem → Prop} (hinit : I (MemorySystem.init c))
    (hcome : ∀ s tr, I s → I (withTransaction s tr))
    (hwait : ∀ s waiting, I s → I { s with pendingTransactions := waiting })
    (hcycle : ∀ onWrite onRead s done a b s', Safe c s.currentClockCycle s → I s →
      Cycle c onWrite onRead s done a b s' →
        I (MemorySystem.stepClock (MemorySystem.answerRead c onRead s')))
    {events : List MemorySystem.Event} (hevents : ∀ e ∈ events, e.Proper) :
    ∃ s, events.foldlM (MemorySystem.step c) (MemorySystem.init c) = .ok s ∧ I s := by
  have hadd (tr : Transaction) (s : MemorySystem) (h : I s) :
      I (MemorySystem.addTransaction c tr s).2 := by
    rw [addTransaction_eq]
    split
    · exact hcome s tr h
    · exact h
  obtain ⟨s, hok, _, h⟩ := ExceptRun.foldlM_total
    (I := fun s => Safe c s.currentClockCycle s ∧ I s) (fun e he s hs => by
      obtain ⟨s', hok, hsafe⟩ := hs.1.step hc (hevents e he)
      refine ⟨s', hok, hsafe, ?_⟩
      cases e with
      | request tr => exact Except.ok.inj hok ▸ hadd tr s hs.2
      | add w addr =>
          rw [← Except.ok.inj hok]
          unfold MemorySystem.addTransactionOf
          simp only
          split
          · exact hadd _ s hs.2
          · exact hwait s _ hs.2
      | cycle onWrite onRead =>
          obtain ⟨done, a, b, s₁, hstep⟩ := hs.1.cycle hc
            (fun tr htr => hevents _ he tr (List.mem_append_left _ htr)) onRead
          rw [← Except.ok.inj (hstep.update.symm.trans hok)]
          exact hcycle onWrite onRead s done a b s₁ hs.1 hs.2 hstep)
    ⟨Safe.init hc, hinit⟩
  exact ⟨s, hok, h⟩

end FeS2.DRAMSim
