import Mathlib.Algebra.BigOperators.Group.Finset.Piecewise
import FeS2.Library.Tally
import FeS2.DRAMSim.Safety

/-!
Every read and every write that the controller takes is answered once. What it has taken
of an address and not answered yet waits as a transaction or is somewhere on the way of its
command: in a queue, on the command bus, as data of a rank or on a data bus.
-/

namespace FeS2.DRAMSim
open CountdownLine MemoryController CommandQueue Rank
variable {c : SystemConfiguration} {T now a : Nat} {s s' : MemorySystem} {packet : BusPacket}
  {p : BusPacket → Bool} {queues queues' : Nat → Nat → List BusPacket} {tr : Transaction}

/-- The transaction is of this type and for the address `a`. -/
def asks (type : TransactionType) (a : Nat) (tr : Transaction) : Bool :=
  tr.transactionType == type && tr.address == a

def readsFrom (a : Nat) (packet : BusPacket) : Bool := isRead packet && packet.physicalAddress == a

def writesTo (a : Nat) (packet : BusPacket) : Bool :=
  decide (isWrite packet) && packet.physicalAddress == a

/-- The data are those of the address `a`. -/
def dataOf (a : Nat) (packet : BusPacket) : Bool := packet.physicalAddress == a

def returns (a : Nat) (tr : Transaction) : Bool := tr.address == a

/-! Commands in the queues -/

/-- How many commands in the queues `p` holds of. -/
def inQueues (c : SystemConfiguration) (p : BusPacket → Bool)
    (queues : Nat → Nat → List BusPacket) : Nat :=
  ∑ i ∈ Finset.range c.numRanks, ∑ k ∈ Finset.range c.numBanks, (queues i k).countP p

/-- One queue changes. -/
theorem inQueues_agree (p : BusPacket → Bool) {rank slot : Nat} (hrank : rank < c.numRanks)
    (hslot : slot < c.numBanks)
    (h : ∀ i k, ¬ (i = rank ∧ k = slot) → queues' i k = queues i k) :
    inQueues c p queues' + (queues rank slot).countP p =
      inQueues c p queues + (queues' rank slot).countP p := by
  have hinner := @Tally.sum_agree ℕ _ _ (fun k => (queues rank k).countP p)
    (fun k => (queues' rank k).countP p) slot (Finset.mem_range.mpr hslot) fun k _ hk => by
      rw [h rank k fun hplace => hk hplace.2]
  have houter := @Tally.sum_agree ℕ _ _
    (fun i => ∑ k ∈ Finset.range c.numBanks, (queues i k).countP p)
    (fun i => ∑ k ∈ Finset.range c.numBanks, (queues' i k).countP p) rank
    (Finset.mem_range.mpr hrank) fun i _ hi => by
      refine Finset.sum_congr rfl fun k _ => ?_
      rw [h i k fun hplace => hi hplace.1]
  unfold inQueues
  omega

theorem slot_lt {bank : Nat} (h : bank < c.numBanks) : slot c bank < c.numBanks := by
  unfold slot
  split <;> omega

/-- Counts the accesses, of some kind. -/
def OfAccesses (p : BusPacket → Bool) : Prop :=
  ∀ packet, p packet → packet.busPacketType ≠ .ACTIVATE ∧ packet.busPacketType ≠ .PRECHARGE ∧
    packet.busPacketType ≠ .REFRESH

theorem ofAccesses_readsFrom : OfAccesses (readsFrom a) := by
  rintro ⟨type, address, column, row, rank, bank⟩ h
  unfold readsFrom isRead at h
  cases type <;> simp at h ⊢

theorem ofAccesses_writesTo : OfAccesses (writesTo a) := by
  rintro ⟨type, address, column, row, rank, bank⟩ h
  unfold writesTo isWrite at h
  cases type <;> simp at h ⊢

theorem removed_count (hp : OfAccesses p) {q q' : List BusPacket} (h : Removed packet q q') :
    q.countP p = [packet].countP p + q'.countP p := by
  cases h with
  | alone before after =>
      simp only [List.countP_append, List.countP_cons, List.countP_nil]
      omega
  | withActivate before after hact =>
      rename_i act
      have hno : ¬ p act := fun h => (hp act h).1 hact
      simp only [List.countP_append, List.countP_cons, List.countP_nil, if_neg hno]
      omega

/-- What `pop` hands out has left the queues. -/
theorem inQueues_pop (hp : OfAccesses p) (now : Nat) (states : BankStates) {cq : CommandQueue}
    (h : Supplied c cq) :
    inQueues c p cq.queues =
      (pop c now states cq).1.toList.countP p + inQueues c p (pop c now states cq).2.queues := by
  have hpops := pop_spec c now states cq
  cases hpopped : (pop c now states cq).1 with
  | none =>
      rw [hpops.nothing hpopped]
      exact (Nat.zero_add _).symm
  | some packet =>
      have hnone (hno : ¬ p packet) : (some packet).toList.countP p = 0 := by
        simp [hno]
      cases hpops.origin packet hpopped with
      | queued rank slot q hissuable hremoved hqueues =>
          obtain ⟨hqueued, hrank, hslot⟩ := h.queued rank slot packet hremoved.mem
          have hagree := @inQueues_agree c cq.queues (pop c now states cq).2.queues p _ _
            (hrank ▸ hqueued.rank) (hslot ▸ slot_lt hqueued.bank) fun i k hplace => by
              rw [hqueues, update_queue, if_neg hplace]
              rfl
          have hself : (pop c now states cq).2.queues rank slot = q := by
            rw [hqueues, update_queue, if_pos ⟨rfl, rfl⟩]
          have hcount : (cq.queues rank slot).countP p = _ := removed_count hp hremoved
          rw [hself] at hagree
          change _ = [packet].countP p + _
          omega
      | precharge rank bank hpolicy hrange hpacket hopen hnext hqueues =>
          rw [hqueues, hnone fun h => (hp packet h).2.1 (by rw [hpacket])]
          exact (Nat.zero_add _).symm
      | refresh hpacket hwaiting hclosed hpowered hqueues =>
          rw [hqueues, hnone fun h => (hp packet h).2.2 (by rw [hpacket])]
          exact (Nat.zero_add _).symm

/-- A transaction brings one access to the queues. -/
theorem inQueues_breaksUp (hc : c.Valid) (hp : OfAccesses p) {cq cq' : CommandQueue}
    {q q' pending pending' : List Transaction} (h : BreaksUp c tr cq q pending cq' q' pending') :
    ∃ type, columnCommand c tr.transactionType = .ok type ∧
      inQueues c p cq'.queues = inQueues c p cq.queues + [commandOf c tr type].countP p := by
  obtain ⟨type, hcolumn, hqueues⟩ := h.queued
  obtain ⟨hrank, hbank⟩ := addressMapping_lt hc tr.address
  refine ⟨type, hcolumn, ?_⟩
  have hagree := @inQueues_agree c cq.queues cq'.queues p (commandOf c tr type).rank
    (slot c (commandOf c tr type).bank) hrank (slot_lt hbank) fun i k hplace => by
      rw [hqueues, if_neg hplace]
  have hact : ¬ p (commandOf c tr .ACTIVATE) := fun h => (hp _ h).1 rfl
  rw [hqueues, if_pos ⟨rfl, rfl⟩, List.countP_append, List.countP_cons, if_neg hact] at hagree
  omega

theorem count_commandOf {type : BusPacketType} (htype : tr.transactionType ≠ .RETURN_DATA)
    (hcolumn : columnCommand c tr.transactionType = .ok type) :
    [commandOf c tr type].countP (readsFrom a) = [tr].countP (asks .DATA_READ a) ∧
      [commandOf c tr type].countP (writesTo a) = [tr].countP (asks .DATA_WRITE a) := by
  obtain ⟨type', hcolumn', _, _, _, hread, hwrite⟩ := columnCommand_spec (c := c) htype
  obtain rfl : type' = type := Except.ok.inj (hcolumn'.symm.trans hcolumn)
  have hreads : readsFrom a (commandOf c tr type') = asks .DATA_READ a tr := by
    change ((type' == .READ || type' == .READ_P) && tr.address == a) = _
    unfold asks
    rw [Bool.eq_iff_iff]
    simp [hread]
  have hwrites : writesTo a (commandOf c tr type') = asks .DATA_WRITE a tr := by
    change (decide (type' = .WRITE ∨ type' = .WRITE_P) && tr.address == a) = _
    unfold asks
    rw [Bool.eq_iff_iff]
    simp [hwrite]
  simp only [List.countP_cons, List.countP_nil, hreads, hwrites, and_self]

/-- Breaking up transactions moves them from the transaction queue to where commands
wait. -/
theorem count_schedules (hc : c.Valid) (a : Nat) {cq cq' : CommandQueue}
    {q q' pending pending' : List Transaction} (h : Schedules c cq q pending cq' q' pending') :
    q.countP (asks .DATA_READ a) + pending.countP (returns a) =
        q'.countP (asks .DATA_READ a) + pending'.countP (returns a) ∧
      pending'.countP (returns a) + inQueues c (readsFrom a) cq.queues =
        pending.countP (returns a) + inQueues c (readsFrom a) cq'.queues ∧
      q.countP (asks .DATA_WRITE a) + inQueues c (writesTo a) cq.queues =
        q'.countP (asks .DATA_WRITE a) + inQueues c (writesTo a) cq'.queues := by
  induction h with
  | nothing => exact ⟨rfl, rfl, rfl⟩
  | @more tr cq cq' cq'' q q' q'' pending pending' pending'' htype hfirst hrest ih =>
      obtain ⟨hreads, hpending, hwrites⟩ := ih
      obtain ⟨type, hcolumn, hreadQueues⟩ :=
        inQueues_breaksUp hc (ofAccesses_readsFrom (a := a)) hfirst
      obtain ⟨type', hcolumn', hwriteQueues⟩ :=
        inQueues_breaksUp hc (ofAccesses_writesTo (a := a)) hfirst
      obtain ⟨hread, _⟩ := count_commandOf (a := a) htype hcolumn
      obtain ⟨_, hwrite⟩ := count_commandOf (a := a) htype hcolumn'
      have hwaits (p : Transaction → Bool) : q.countP p = [tr].countP p + q'.countP p :=
        (hfirst.waits.countP_eq p).trans (@List.countP_append _ p [tr] q')
      have hwaitR := hwaits (asks .DATA_READ a)
      have hwaitW := hwaits (asks .DATA_WRITE a)
      have hmore : pending'.countP (returns a) =
          pending.countP (returns a) + [tr].countP (asks .DATA_READ a) := by
        rw [hfirst.pending]
        split
        · rename_i hr
          simp [asks, returns, hr]
        · rename_i hr
          simp [asks, hr]
      omega

/-! The books -/

/-- What has been taken of the address `a` has been answered or is under way. -/
structure Kept (c : SystemConfiguration) (a : Nat) (s : MemorySystem) : Prop where
  reads : s.memoryController.accepted.countP (asks .DATA_READ a) =
    s.readsReturned.count a + s.memoryController.transactionQueue.countP (asks .DATA_READ a) +
      s.memoryController.pendingReadTransactions.countP (returns a)
  pending : s.memoryController.pendingReadTransactions.countP (returns a) =
    inQueues c (readsFrom a) s.memoryController.commandQueue.queues +
      s.memoryController.outgoingCmdPacket.toList.countP (readsFrom a) +
      ∑ i ∈ Finset.range c.numRanks, (s.ranks i).reads.countP (dataOf a) +
      s.memoryController.returnTransaction.countP (returns a)
  writes : s.memoryController.accepted.countP (asks .DATA_WRITE a) =
    s.writesDone.count a + s.memoryController.transactionQueue.countP (asks .DATA_WRITE a) +
      inQueues c (writesTo a) s.memoryController.commandQueue.queues +
      s.memoryController.outgoingDataPacket.toList.countP (dataOf a) +
      (s.memoryController.writeData.map Prod.fst).countP (dataOf a)

theorem Kept.init : Kept c a (MemorySystem.init c) := by
  constructor <;> simp [MemorySystem.init, MemoryController.init, inQueues, Rank.reads]

theorem Kept.withTransaction (h : Kept c a s) : Kept c a (withTransaction s tr) := by
  obtain ⟨hreads, hpending, hwrites⟩ := h
  constructor <;> simp only [FeS2.DRAMSim.withTransaction, List.countP_append] <;> omega

theorem count_handedOver : ((handedOver c s).map fun packet =>
      (⟨.RETURN_DATA, packet.physicalAddress⟩ : Transaction)).countP (returns a) =
    ∑ i ∈ Finset.range c.numRanks, ((s.ranks i).update c).1.toList.countP (dataOf a) := by
  unfold handedOver
  rw [List.countP_map]
  induction c.numRanks with
  | zero => rfl
  | succ n ih =>
      rw [List.range_succ, List.filterMap_append, List.countP_append, Finset.sum_range_succ, ih]
      cases hdata : ((s.ranks n).update c).1 with
      | none => simp [hdata]
      | some packet =>
          simp [hdata]
          rfl

theorem count_deliver (command : Option BusPacket) (i : Nat) (r : Rank) :
    (deliver c T command i r).reads.countP (dataOf a) = r.reads.countP (dataOf a) +
      command.toList.countP fun packet => packet.rank == i && readsFrom a packet := by
  unfold deliver
  cases command with
  | none => rfl
  | some packet =>
      by_cases hi : packet.rank = i
      · by_cases hread : isRead packet
        · simp [hi, received, Rank.reads, hread, readsFrom, dataOf, List.countP_append]
          omega
        · simp [hi, received, Rank.reads, hread, readsFrom]
      · simp [hi]

theorem sum_commands {command : Option BusPacket}
    (h : ∀ packet ∈ command, packet.rank < c.numRanks) :
    (∑ i ∈ Finset.range c.numRanks,
      command.toList.countP fun packet => packet.rank == i && p packet) =
    command.toList.countP p := by
  cases command with
  | none => exact Finset.sum_const_zero
  | some packet =>
      by_cases hp : p packet
      · simp only [Option.toList_some, List.countP_singleton, hp, Bool.and_true, beq_iff_eq]
        rw [Finset.sum_ite_eq, if_pos (Finset.mem_range.mpr (h packet rfl)), if_pos trivial]
      · simp [hp]

theorem Kept.arrived (hc : c.Valid) (hsafe : Safe c T s) (h : Kept c a s) {done : List BusPacket}
    {requests : List Transaction} {cmdLeft left : Nat} {out : Option BusPacket}
    (horder : done ++ (out.toList ++ (tick s.memoryController.writeData).2.map Prod.fst) =
      s.memoryController.outgoingDataPacket.toList ++ s.memoryController.writeData.map Prod.fst) :
    Kept c a (arrived c s done requests cmdLeft out left) := by
  obtain ⟨hreads, hpending, hwrites⟩ := h
  have hcommands := sum_commands (p := readsFrom a) fun packet hpacket =>
    (hsafe.command packet hpacket).1
  have hranks : ∑ i ∈ Finset.range c.numRanks, ((s.ranks i).update c).1.toList.countP (dataOf a) +
      ∑ i ∈ Finset.range c.numRanks, ((s.ranks i).update c).2.reads.countP (dataOf a) =
      ∑ i ∈ Finset.range c.numRanks, (s.ranks i).reads.countP (dataOf a) := by
    rw [← Finset.sum_add_distrib]
    refine Finset.sum_congr rfl fun i hi => ?_
    have hflowing := ((hsafe.rank i (Finset.mem_range.mp hi)).flowing.update hc.burst).2.1
    rw [← hflowing, List.countP_append]
  have hdone : (done.map BusPacket.physicalAddress).count a = done.countP (dataOf a) := by
    rw [List.count, List.countP_map]
    rfl
  refine ⟨?_, ?_, ?_⟩
  · simp only [FeS2.DRAMSim.arrived, List.countP_append]
    omega
  · simp only [FeS2.DRAMSim.arrived, List.countP_append, count_handedOver, count_deliver,
      Finset.sum_add_distrib, hcommands, Option.toList_none, List.countP_nil]
    omega
  · simp only [FeS2.DRAMSim.arrived, List.countP_append, List.count_append, hdone]
    have hcount := congrArg (List.countP (dataOf a)) horder
    simp only [List.countP_append] at hcount
    omega

/-- The reads that wait in the ranks are all that counts of these. -/
theorem Kept.of_reads (h : Kept c a s) {ranks : Nat → Rank}
    (hreads : ∀ i, (ranks i).reads = (s.ranks i).reads) : Kept c a { s with ranks := ranks } := by
  obtain ⟨hr, hpending, hw⟩ := h
  refine ⟨hr, ?_, hw⟩
  simp only [hreads]
  exact hpending

theorem Kept.startRefresh (h : Kept c a s) : Kept c a (MemorySystem.startRefresh c s) := by
  have hreads (k i : Nat) (w : Bool) :
      (Function.update s.ranks k { s.ranks k with refreshWaiting := w } i).reads =
        (s.ranks i).reads := by
    rw [Function.update_apply]
    split
    · rename_i hik
      rw [hik]
      rfl
    · rfl
  unfold MemorySystem.startRefresh
  simp only
  split
  · have hkept := h.of_reads fun i => hreads s.memoryController.refreshRank i true
    exact ⟨hkept.reads, hkept.pending, hkept.writes⟩
  · split
    · exact h.of_reads fun i => hreads s.memoryController.refreshRank i true
    · exact h

theorem Kept.issuedNow (hsafe : Safe c T s)
    (hfree : s.memoryController.outgoingCmdPacket = none) (h : Kept c a s) :
    Kept c a (issuedNow c s) := by
  obtain ⟨hreads, hpending, hwrites⟩ := h
  have hr := inQueues_pop (ofAccesses_readsFrom (a := a)) s.currentClockCycle
    s.memoryController.bankStates hsafe.supplied
  have hw := inQueues_pop (ofAccesses_writesTo (a := a)) s.currentClockCycle
    s.memoryController.bankStates hsafe.supplied
  rw [hfree, Option.toList_none, List.countP_nil] at hpending
  unfold FeS2.DRAMSim.issuedNow
  simp only
  generalize pop c s.currentClockCycle s.memoryController.bankStates
    s.memoryController.commandQueue = popped at hr hw ⊢
  obtain ⟨_ | packet, cq⟩ := popped
  · simp only [Option.toList_none, List.countP_nil] at hr hw
    refine ⟨hreads, ?_, ?_⟩
    · simp only [hfree, Option.toList_none, List.countP_nil]
      omega
    · simp only
      omega
  · simp only at hr hw
    refine ⟨hreads, ?_, ?_⟩
    · simp only
      omega
    · have hline : ((if isWrite packet then s.memoryController.writeData ++
            [({ packet with busPacketType := .DATA }, c.WL)]
          else s.memoryController.writeData).map Prod.fst).countP (dataOf a) =
          (s.memoryController.writeData.map Prod.fst).countP (dataOf a) +
            (some packet).toList.countP (writesTo a) := by
        by_cases hwrite : isWrite packet
        · simp [hwrite, writesTo, dataOf, List.countP_append]
        · simp [hwrite, writesTo]
      simp only [hline]
      omega

theorem Kept.withQueues (hc : c.Valid) (h : Kept c a s) {cq : CommandQueue}
    {q pending : List Transaction}
    (hschedules : Schedules c s.memoryController.commandQueue s.memoryController.transactionQueue
      s.memoryController.pendingReadTransactions cq q pending) :
    Kept c a (withQueues s cq q pending) := by
  obtain ⟨hreads, hpending, hwrites⟩ := h
  obtain ⟨hr, hp, hw⟩ := count_schedules hc a hschedules
  constructor <;> simp only [FeS2.DRAMSim.withQueues] <;> omega

theorem Kept.power (h : Kept c a s) (hsame : SameButPower c s s') : Kept c a s' := by
  rw [hsame.system, hsame.controller]
  have hkept := h.of_reads hsame.reads
  exact ⟨hkept.reads, hkept.pending, hkept.writes⟩

theorem count_eraseIdx {α : Type} {q : List α} {i : Nat} {x : α} (p : α → Bool)
    (hi : q[i]? = some x) :
    q.countP p = [x].countP p + (q.eraseIdx i).countP p := by
  obtain ⟨hlt, rfl⟩ := List.getElem?_eq_some_iff.mp hi
  exact ((List.getElem_cons_eraseIdx_perm hlt).symm.countP_eq p).trans
    (@List.countP_append _ p [_] _)

/-- What has come back is always waited for, so it answers a read. -/
theorem Kept.answerRead (h : ∀ a, Kept c a s) (onRead : List Transaction) :
    Kept c a (MemorySystem.answerRead c onRead s) := by
  obtain ⟨hreads, hpending, hwrites⟩ := h a
  unfold MemorySystem.answerRead
  simp only
  split
  · exact h a
  · rename_i tr rest hreturn
    split
    · rename_i hnone
      have hzero : s.memoryController.pendingReadTransactions.countP (returns tr.address) = 0 := by
        rw [List.countP_eq_zero]
        intro p hp
        rw [List.findIdx?_eq_none_iff] at hnone
        simp only [returns, hnone p hp, Bool.false_eq_true, not_false_eq_true]
      have hcame := (h tr.address).pending
      rw [hreturn, List.countP_cons_of_pos (by simp [returns])] at hcame
      omega
    · rename_i i hfound
      obtain ⟨hlt, hsame, _⟩ := List.findIdx?_eq_some_iff_getElem.mp hfound
      have herase := count_eraseIdx (returns a) (List.getElem?_eq_getElem hlt)
      have haddress : [s.memoryController.pendingReadTransactions[i]].countP (returns a) =
          [tr].countP (returns a) := by
        simp only [List.countP_singleton, returns, beq_iff_eq.mp hsame]
        rfl
      have hback : s.memoryController.returnTransaction.countP (returns a) =
          [tr].countP (returns a) + rest.countP (returns a) := by
        rw [hreturn]
        exact @List.countP_append _ (returns a) [tr] rest
      have hanswer : [tr.address].count a = [tr].countP (returns a) := rfl
      obtain ⟨q, _, hcallback⟩ := callback_eq (c := c) onRead s.memoryController
      rw [hcallback]
      constructor <;> simp only [List.countP_append, List.count_append] <;> omega

theorem Kept.cycle {onWrite onRead : List Transaction} {done : List BusPacket}
    {b d : MemorySystem} (hc : c.Valid) (hsafe : Safe c T s) (h : ∀ a, Kept c a s)
    (hcycle : Cycle c onWrite onRead s done b d s') (a : Nat) :
    Kept c a (MemorySystem.stepClock (MemorySystem.answerRead c onRead s')) := by
  obtain ⟨requests, cmdLeft, out, left, hb, horder⟩ := hcycle.arrived
  obtain ⟨cq, q, pending, hd, hschedules⟩ := hcycle.scheduled
  have harrived (a : Nat) : Kept c a b := hb ▸ (h a).arrived hc hsafe horder
  have hissued (a : Nat) : Kept c a (FeS2.DRAMSim.issuedNow c (MemorySystem.startRefresh c b)) :=
    (harrived a).startRefresh.issuedNow hcycle.safe.startRefresh
      (startRefresh_rest.1.trans hcycle.free)
  have hscheduled (a : Nat) : Kept c a d := hd ▸ (hissued a).withQueues hc hschedules
  have hanswered := Kept.answerRead (fun a => (hscheduled a).power hcycle.power) onRead (a := a)
  exact ⟨hanswered.reads, hanswered.pending, hanswered.writes⟩

/-- Nothing of what the controller has taken is on its way. -/
structure Quiet (c : SystemConfiguration) (s : MemorySystem) : Prop where
  transactions : s.memoryController.transactionQueue = []
  commands : ∀ i < c.numRanks, ∀ k < c.numBanks, s.memoryController.commandQueue.queues i k = []
  command : s.memoryController.outgoingCmdPacket = none
  reads : ∀ i < c.numRanks, (s.ranks i).reads = []
  returned : s.memoryController.returnTransaction = []
  data : s.memoryController.outgoingDataPacket = none
  writes : s.memoryController.writeData = []

theorem Kept.quiet (h : Kept c a s) (hquiet : Quiet c s) :
    s.memoryController.accepted.countP (asks .DATA_READ a) = s.readsReturned.count a ∧
      s.memoryController.accepted.countP (asks .DATA_WRITE a) = s.writesDone.count a := by
  have hqueues (p : BusPacket → Bool) :
      inQueues c p s.memoryController.commandQueue.queues = 0 := by
    refine Finset.sum_eq_zero fun i hi => Finset.sum_eq_zero fun k hk => ?_
    rw [hquiet.commands i (Finset.mem_range.mp hi) k (Finset.mem_range.mp hk)]
    rfl
  have hranks : ∑ i ∈ Finset.range c.numRanks, (s.ranks i).reads.countP (dataOf a) = 0 := by
    refine Finset.sum_eq_zero fun i hi => ?_
    rw [hquiet.reads i (Finset.mem_range.mp hi)]
    rfl
  obtain ⟨hreads, hpending, hwrites⟩ := h
  simp only [hquiet.transactions, hquiet.command, hquiet.returned, hquiet.data, hquiet.writes,
    hqueues, hranks, Option.toList_none, List.map_nil, List.countP_nil] at hreads hpending hwrites
  omega

/-- In every run, whatever the memory takes of an address is answered once or still on its
way, and is answered once when nothing is on its way. -/
theorem accesses_conserved (hc : c.Valid) (events : List MemorySystem.Event)
    (hevents : ∀ e ∈ events, e.Proper) :
    ∃ s, events.foldlM (MemorySystem.step c) (MemorySystem.init c) = .ok s ∧
      ∀ a, Kept c a s ∧ (Quiet c s →
        s.memoryController.accepted.countP (asks .DATA_READ a) = s.readsReturned.count a ∧
          s.memoryController.accepted.countP (asks .DATA_WRITE a) = s.writesDone.count a) := by
  obtain ⟨s, hok, hkept⟩ := run_invariant hc (I := fun s => ∀ a, Kept c a s)
    (fun a => Kept.init) (fun s tr h a => (h a).withTransaction)
    (fun s waiting h a => ⟨(h a).reads, (h a).pending, (h a).writes⟩)
    (fun onWrite onRead s done b d s' hsafe h hcycle => Kept.cycle hc hsafe h hcycle) hevents
  exact ⟨s, hok, fun a => ⟨hkept a, (hkept a).quiet⟩⟩

theorem accesses_conserved_ddr2 :
    ∃ s, List.foldlM (MemorySystem.step .DDR2_micron_16M_8b_x8_sg3E)
        (MemorySystem.init .DDR2_micron_16M_8b_x8_sg3E)
        [.request ⟨.DATA_READ, 0x40⟩, .add true 0x40, .cycle [] []] = .ok s ∧
      ∀ a, Kept .DDR2_micron_16M_8b_x8_sg3E a s ∧ (Quiet .DDR2_micron_16M_8b_x8_sg3E s →
        s.memoryController.accepted.countP (asks .DATA_READ a) = s.readsReturned.count a ∧
          s.memoryController.accepted.countP (asks .DATA_WRITE a) = s.writesDone.count a) :=
  accesses_conserved SystemConfiguration.valid_ddr2 _ (by decide)

end FeS2.DRAMSim
