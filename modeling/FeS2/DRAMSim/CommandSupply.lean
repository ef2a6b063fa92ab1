import Mathlib.Data.List.Perm.Basic
import FeS2.DRAMSim.AddressMapping
import FeS2.DRAMSim.Popping
import FeS2.DRAMSim.RankAgreement

/-!
The commands that wait in the command queue: they name banks that exist, their accesses
are those of the page policy, and no queue holds more than it may. So what is popped is
what a rank allows.
-/

namespace FeS2.DRAMSim
open MemoryController CommandQueue
variable {c : SystemConfiguration} {now : Nat} {states : BankStates} {cq cq' : CommandQueue}
  {packet : BusPacket} {mc : MemoryController}

/-- A command as the controller queues it. -/
structure Queueable (c : SystemConfiguration) (packet : BusPacket) : Prop where
  rank : packet.rank < c.numRanks
  bank : packet.bank < c.numBanks
  policy : ByPolicy c packet
  type : packet.busPacketType ≠ .PRECHARGE

structure Supplied (c : SystemConfiguration) (cq : CommandQueue) : Prop where
  depth : ∀ i k, (cq.queues i k).length ≤ c.cmdQueueDepth
  queued : ∀ i k, ∀ packet ∈ cq.queues i k,
    Queueable c packet ∧ packet.rank = i ∧ slot c packet.bank = k
  inRange : cq.InRange c

theorem Supplied.init (hranks : 0 < c.numRanks) (hbanks : 0 < c.numBanks) :
    Supplied c {} where
  depth _ _ := Nat.zero_le _
  queued _ _ _ h := nomatch h
  inRange := ⟨⟨hranks, hbanks⟩, ⟨hranks, hbanks⟩, (fun h => nomatch h)⟩

theorem Supplied.needRefresh {rank : Nat} (h : Supplied c cq) (hrank : rank < c.numRanks) :
    Supplied c (cq.needRefresh rank) :=
  ⟨h.depth, h.queued, ⟨h.inRange.next, h.inRange.nextPRE, fun _ => hrank⟩⟩

theorem update_queue {queues : Nat → Nat → List BusPacket} {q : List BusPacket}
    {rank slot : Nat} (i k : Nat) :
    Function.update queues rank (Function.update (queues rank) slot q) i k =
      if i = rank ∧ k = slot then q else queues i k := by
  rw [Function.update_apply]
  by_cases hi : i = rank
  · subst hi
    rw [if_pos rfl, Function.update_apply]
    simp
  · rw [if_neg hi, if_neg fun h => hi h.1]

theorem setQueue_queues {q : List BusPacket} {rank slot : Nat} (i k : Nat) :
    (setQueue rank slot q cq).queues i k =
      if i = rank ∧ k = slot then q else cq.queues i k :=
  update_queue i k

/-! Commands leave -/

theorem origin_sublist {queues : Nat → Nat → List BusPacket}
    (h : Origin c now states cq packet queues) (i k : Nat) :
    (queues i k).Sublist (cq.queues i k) := by
  cases h with
  | precharge rank bank hpolicy hrange hpacket hopen hnext hqueues => rw [hqueues]
  | refresh hpacket hwaiting hclosed hpowered hqueues => rw [hqueues]
  | queued rank slot q hissuable hremoved hqueues =>
      rw [hqueues, update_queue]
      split
      · rename_i hplace
        obtain ⟨rfl, rfl⟩ := hplace
        exact hremoved.sublist
      · exact List.Sublist.refl _

theorem Supplied.pop (h : Supplied c cq) (now : Nat) (states : BankStates) :
    Supplied c (pop c now states cq).2 := by
  have hpops := pop_spec c now states cq
  have hsublist (i k : Nat) : ((CommandQueue.pop c now states cq).2.queues i k).Sublist
      (cq.queues i k) := by
    cases hpopped : (CommandQueue.pop c now states cq).1 with
    | none => rw [hpops.nothing hpopped]
    | some packet => exact origin_sublist (hpops.origin packet hpopped) i k
  refine ⟨?_, ?_, hpops.inRange h.inRange⟩
  · intro i k
    exact (hsublist i k).length_le.trans (h.depth i k)
  · intro i k packet hpacket
    exact h.queued i k packet ((hsublist i k).subset hpacket)

theorem issuable_of_isIssuable (h : isIssuable c now states cq packet)
    (hqueued : Queueable c packet) : Legal c now packet (states packet.rank) := by
  obtain ⟨type, address, column, row, rank, bank⟩ := packet
  unfold Legal Issuable
  unfold isIssuable at h
  have htype := hqueued.type
  have hbank := hqueued.bank
  have hpolicy := hqueued.policy
  cases type <;> grind

/-- What is popped may be sent to its rank. -/
theorem Supplied.legal (h : Supplied c cq)
    (hpowered : ∀ i < c.numRanks, (states i 0).currentBankState ≠ .PowerDown →
      ∀ j < c.numBanks, (states i j).currentBankState ≠ .PowerDown)
    (hpacket : (CommandQueue.pop c now states cq).1 = some packet) :
    packet.rank < c.numRanks ∧ packet.bank < c.numBanks ∧ packet.busPacketType ≠ .DATA ∧
      Legal c now packet (states packet.rank) := by
  have hrange : (countdown cq).InRange c :=
    ⟨h.inRange.next, h.inRange.nextPRE, h.inRange.refresh⟩
  cases (pop_spec c now states cq).origin packet hpacket with
  | queued rank slot q hissuable hremoved hqueues =>
      have hqueued := (h.queued rank slot packet hremoved.mem).1
      refine ⟨hqueued.rank, hqueued.bank, ?_, issuable_of_isIssuable hissuable hqueued⟩
      intro hdata
      unfold isIssuable at hissuable
      rw [hdata] at hissuable
      cases hissuable
  | precharge rank bank hpolicy hexists hpacket hopen hnext hqueues =>
      subst hpacket
      obtain ⟨hrank, hbank⟩ := hexists hrange
      refine ⟨hrank, hbank, (fun h => nomatch h), hbank, ?_, hopen, hnext, hpolicy⟩
      rintro (h | h) <;> cases h
  | refresh hpacket hwaiting hclosed hzero hqueues =>
      subst hpacket
      have hrank := h.inRange.refresh hwaiting
      refine ⟨hrank, Nat.zero_lt_of_lt h.inRange.next.2, (fun h => nomatch h), fun j hj => ?_⟩
      exact ⟨(hclosed j hj).1, hpowered _ hrank hzero j hj, (hclosed j hj).2⟩

/-! Commands join -/

theorem Supplied.enqueue (h : Supplied c cq) (hpacket : Queueable c packet)
    (hroom : (cq.queues packet.rank (slot c packet.bank)).length < c.cmdQueueDepth) :
    CommandQueue.enqueue c packet cq = .ok (setQueue packet.rank (slot c packet.bank)
        (cq.queues packet.rank (slot c packet.bank) ++ [packet]) cq) ∧
      Supplied c (setQueue packet.rank (slot c packet.bank)
        (cq.queues packet.rank (slot c packet.bank) ++ [packet]) cq) := by
  have hlength : (cq.queues packet.rank (slot c packet.bank) ++ [packet]).length ≤
      c.cmdQueueDepth := by
    rw [List.length_append, List.length_singleton]
    exact hroom
  refine ⟨if_neg (Nat.not_lt.mpr hlength), ⟨fun i k => ?_, fun i k => ?_, ?_⟩⟩
  · rw [setQueue_queues]
    split
    · exact hlength
    · exact h.depth i k
  · rw [setQueue_queues]
    split
    · rename_i hplace
      obtain ⟨rfl, rfl⟩ := hplace
      intro p hp
      rcases List.mem_append.mp hp with hp | hp
      · exact h.queued _ _ p hp
      · rw [List.mem_singleton.mp hp]
        exact ⟨hpacket, rfl, rfl⟩
    · exact h.queued i k
  · exact ⟨h.inRange.next, h.inRange.nextPRE, h.inRange.refresh⟩

theorem room_of_hasRoomFor (hc : c.Valid) (h : Supplied c cq) {n rank bank : Nat}
    (hroom : cq.hasRoomFor c n rank bank) :
    (cq.queues rank (slot c bank)).length + n ≤ c.cmdQueueDepth := by
  have hdepth := hc.depth
  have hlength := h.depth rank (slot c bank)
  unfold hasRoomFor at hroom
  rw [decide_eq_true_eq] at hroom
  omega

/-- The command of a transaction. -/
def commandOf (c : SystemConfiguration) (tr : Transaction) (type : BusPacketType) : BusPacket :=
  let (rank, bank, row, column) := addressMapping c tr.address
  ⟨type, tr.address, column, row, rank, bank⟩

theorem commandOf_queueable (hc : c.Valid) (tr : Transaction) (type : BusPacketType)
    (htype : type ≠ .PRECHARGE)
    (hpolicy : type = .READ_P ∨ type = .WRITE_P → c.rowBufferPolicy = .ClosePage) :
    Queueable c (commandOf c tr type) := by
  obtain ⟨hrank, hbank⟩ := addressMapping_lt hc tr.address
  exact ⟨hrank, hbank, hpolicy, htype⟩

theorem columnCommand_spec {ttype : TransactionType} (htype : ttype ≠ .RETURN_DATA) :
    ∃ type, columnCommand c ttype = .ok type ∧ type ≠ .PRECHARGE ∧ type ≠ .ACTIVATE ∧
      (type = .READ_P ∨ type = .WRITE_P → c.rowBufferPolicy = .ClosePage) ∧
      (ttype = .DATA_READ ↔ type = .READ ∨ type = .READ_P) ∧
      (ttype = .DATA_WRITE ↔ type = .WRITE ∨ type = .WRITE_P) := by
  unfold columnCommand
  cases ttype <;> cases c.rowBufferPolicy <;> simp at htype ⊢

/-- What one transaction leaving the transaction queue does. -/
structure BreaksUp (c : SystemConfiguration) (tr : Transaction) (cq : CommandQueue)
    (q pending : List Transaction) (cq' : CommandQueue) (q' pending' : List Transaction) :
    Prop where
  waits : q.Perm (tr :: q')
  pending : pending' = if tr.transactionType = .DATA_READ then pending ++ [tr] else pending
  queued : ∃ type, columnCommand c tr.transactionType = .ok type ∧ ∀ i k, cq'.queues i k =
    if i = (commandOf c tr type).rank ∧ k = slot c (commandOf c tr type).bank then
      cq.queues i k ++ [commandOf c tr .ACTIVATE, commandOf c tr type]
    else cq.queues i k
  windows : cq'.tFAWCountdown = cq.tFAWCountdown

/-- A transaction that finds room becomes an activate and an access in the queue. -/
theorem Supplied.breakUp (hc : c.Valid) (h : Supplied c mc.commandQueue) {i : Nat}
    {tr : Transaction} (htr : mc.transactionQueue[i]? = some tr)
    (htype : tr.transactionType ≠ .RETURN_DATA)
    (hroom : mc.commandQueue.hasRoomFor c 2 (commandOf c tr .ACTIVATE).rank
      (commandOf c tr .ACTIVATE).bank) :
    ∃ cq' q' pending', MemoryController.breakUp c i tr mc = .ok { mc with
        commandQueue := cq', transactionQueue := q', pendingReadTransactions := pending' } ∧
      Supplied c cq' ∧ BreaksUp c tr mc.commandQueue mc.transactionQueue
        mc.pendingReadTransactions cq' q' pending' := by
  obtain ⟨type, hcolumn, hprecharge, _, hpolicy, _⟩ := columnCommand_spec (c := c) htype
  have hact := commandOf_queueable hc tr .ACTIVATE (by decide) (by simp)
  have haccess := commandOf_queueable hc tr type hprecharge hpolicy
  have hroom := room_of_hasRoomFor hc h hroom
  obtain ⟨hfirst, hsupplied⟩ := h.enqueue hact (by omega)
  obtain ⟨hsecond, hsupplied⟩ := hsupplied.enqueue haccess (by
    rw [setQueue_queues, if_pos ⟨rfl, rfl⟩, List.length_append, List.length_singleton]
    omega)
  refine ⟨_, mc.transactionQueue.eraseIdx i, _, ?_, hsupplied, ⟨?_, rfl,
    ⟨type, hcolumn, fun j k => ?_⟩, rfl⟩⟩
  · change (CommandQueue.enqueue c (commandOf c tr .ACTIVATE) mc.commandQueue >>= _) = _
    rw [hfirst, hcolumn]
    change (CommandQueue.enqueue c (commandOf c tr type) _ >>= _) = _
    rw [hsecond]
    rfl
  · obtain ⟨hi, rfl⟩ := List.getElem?_eq_some_iff.mp htr
    exact (List.getElem_cons_eraseIdx_perm hi).symm
  · rw [setQueue_queues]
    by_cases hplace : j = (commandOf c tr type).rank ∧ k = slot c (commandOf c tr type).bank
    · obtain ⟨rfl, rfl⟩ := hplace
      rw [if_pos ⟨rfl, rfl⟩, if_pos ⟨rfl, rfl⟩, setQueue_queues, if_pos ⟨rfl, rfl⟩,
        List.append_assoc]
      rfl
    · rw [if_neg hplace, if_neg hplace, setQueue_queues]
      exact if_neg hplace

/-- What any number of transactions do one after the other. -/
inductive Schedules (c : SystemConfiguration) :
    CommandQueue → List Transaction → List Transaction →
      CommandQueue → List Transaction → List Transaction → Prop
  | nothing {cq : CommandQueue} {q pending : List Transaction} :
      Schedules c cq q pending cq q pending
  | more {tr : Transaction} {cq cq' cq'' : CommandQueue}
      {q q' q'' pending pending' pending'' : List Transaction}
      (htype : tr.transactionType ≠ .RETURN_DATA)
      (hfirst : BreaksUp c tr cq q pending cq' q' pending')
      (hrest : Schedules c cq' q' pending' cq'' q'' pending'') :
      Schedules c cq q pending cq'' q'' pending''

theorem Supplied.scheduleFrom (hc : c.Valid) (fuel i : Nat) (h : Supplied c mc.commandQueue)
    (htypes : ∀ tr ∈ mc.transactionQueue, tr.transactionType ≠ .RETURN_DATA) :
    ∃ cq' q' pending', MemoryController.scheduleFrom c fuel i mc = .ok { mc with
        commandQueue := cq', transactionQueue := q', pendingReadTransactions := pending' } ∧
      Supplied c cq' ∧ (∀ tr ∈ q', tr.transactionType ≠ .RETURN_DATA) ∧
      Schedules c mc.commandQueue mc.transactionQueue mc.pendingReadTransactions
        cq' q' pending' := by
  induction fuel generalizing i mc with
  | zero => exact ⟨_, _, _, rfl, h, htypes, .nothing⟩
  | succ fuel ih =>
      unfold MemoryController.scheduleFrom
      split
      · exact ⟨_, _, _, rfl, h, htypes, .nothing⟩
      · rename_i tr htr
        have htype := htypes tr (List.mem_of_getElem? htr)
        obtain ⟨hrank, hbank⟩ := addressMapping_lt hc tr.address
        have hexists : ¬ (c.numRanks ≤ (addressMapping c tr.address).1 ∨
            c.numBanks ≤ (addressMapping c tr.address).2.1) := by omega
        simp only [if_neg hexists]
        split
        · rename_i hroom
          obtain ⟨cq', q', pending', hok, hsupplied, hbreaks⟩ := h.breakUp hc htr htype hroom
          rw [hok]
          obtain ⟨cq'', q'', pending'', hok, hsupplied, htypes, hrest⟩ := @ih
            { mc with
              commandQueue := cq', transactionQueue := q', pendingReadTransactions := pending' }
            (i + 1) hsupplied
            (fun tr' htr' => htypes tr' (hbreaks.waits.mem_iff.mpr (List.mem_cons_of_mem _ htr')))
          exact ⟨cq'', q'', pending'', hok, hsupplied, htypes, .more htype hbreaks hrest⟩
        · exact ih (i + 1) h htypes

end FeS2.DRAMSim
