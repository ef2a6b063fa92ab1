import FeS2.DRAMSim.CommandQueue

/-!
What the command queue hands out: a command of one of its queues that may be issued, a
precharge of an open bank, or the refresh that is due, for a rank whose banks are all
closed. Nothing else changes in the queues, except that an activate may go with the
access behind it.
-/

namespace FeS2.DRAMSim.CommandQueue
variable {c : SystemConfiguration} {now : Nat} {states : BankStates} {cq cq' : CommandQueue}
  {packet : BusPacket} {rank bank : Nat} {q : List BusPacket}

/-- A queue before and after a command has left it. -/
inductive Removed (packet : BusPacket) : List BusPacket → List BusPacket → Prop
  | alone (before after : List BusPacket) :
      Removed packet (before ++ packet :: after) (before ++ after)
  | withActivate (before after : List BusPacket) {act : BusPacket}
      (hact : act.busPacketType = .ACTIVATE) :
      Removed packet (before ++ act :: packet :: after) (before ++ after)

theorem Removed.mem {q q' : List BusPacket} (h : Removed packet q q') : packet ∈ q := by
  cases h with
  | alone before after => simp
  | withActivate before after hact => simp

theorem Removed.sublist {q q' : List BusPacket} (h : Removed packet q q') : q'.Sublist q := by
  cases h with
  | alone before after => exact (List.sublist_cons_self _ _).append_left _
  | withActivate before after hact =>
      exact ((List.sublist_cons_self _ _).trans (List.sublist_cons_self _ _)).append_left _

theorem removed_eraseIdx {i : Nat} (h : q[i]? = some packet) :
    Removed packet q (q.eraseIdx i) := by
  obtain ⟨hi, rfl⟩ := List.getElem?_eq_some_iff.mp h
  have hremoved := @Removed.alone q[i] (q.take i) (q.drop (i + 1))
  rwa [← List.drop_eq_getElem_cons hi, List.take_append_drop,
    ← List.eraseIdx_eq_take_drop_succ] at hremoved

theorem removed_eraseIdx_activate {i : Nat} {act : BusPacket} (h : q[i + 1]? = some packet)
    (hbefore : q[i]? = some act) (hact : act.busPacketType = .ACTIVATE) :
    Removed packet q ((q.eraseIdx (i + 1)).eraseIdx i) := by
  obtain ⟨hi, rfl⟩ := List.getElem?_eq_some_iff.mp h
  obtain ⟨hi', rfl⟩ := List.getElem?_eq_some_iff.mp hbefore
  have herase : (q.eraseIdx (i + 1)).eraseIdx i = q.take i ++ q.drop (i + 2) := by
    rw [List.eraseIdx_eq_take_drop_succ, List.eraseIdx_eq_take_drop_succ,
      List.take_append_of_le_length (by simp; omega), List.take_take,
      Nat.min_eq_left (Nat.le_succ i), List.drop_append_of_le_length (by simp; omega),
      List.drop_take, Nat.sub_self, List.take_zero, List.nil_append]
  have hremoved := @Removed.withActivate q[i + 1] (q.take i) (q.drop (i + 2)) q[i] hact
  rwa [← List.drop_eq_getElem_cons hi, ← List.drop_eq_getElem_cons hi',
    List.take_append_drop, ← herase] at hremoved

/-- The positions and the rank to refresh exist. -/
structure InRange (c : SystemConfiguration) (cq : CommandQueue) : Prop where
  next : cq.nextRank < c.numRanks ∧ cq.nextBank < c.numBanks
  nextPRE : cq.nextRankPRE < c.numRanks ∧ cq.nextBankPRE < c.numBanks
  refresh : cq.refreshWaiting → cq.refreshRank < c.numRanks

/-- Where a command comes from. -/
inductive Origin (c : SystemConfiguration) (now : Nat) (states : BankStates)
    (cq : CommandQueue) (packet : BusPacket) (queues : Nat → Nat → List BusPacket) : Prop
  | queued (rank slot : Nat) (q : List BusPacket) (hissuable : isIssuable c now states cq packet)
      (hremoved : Removed packet (cq.queues rank slot) q)
      (hqueues : queues = Function.update cq.queues rank
        (Function.update (cq.queues rank) slot q))
  | precharge (rank bank : Nat) (hpolicy : c.rowBufferPolicy = .OpenPage)
      (hrange : cq.InRange c → rank < c.numRanks ∧ bank < c.numBanks)
      (hpacket : packet = ⟨.PRECHARGE, 0, 0, 0, rank, bank⟩)
      (hopen : (states rank bank).currentBankState = .RowActive)
      (hnext : (states rank bank).nextPrecharge ≤ now) (hqueues : queues = cq.queues)
  | refresh (hpacket : packet = ⟨.REFRESH, 0, 0, 0, cq.refreshRank, 0⟩)
      (hwaiting : cq.refreshWaiting)
      (hclosed : ∀ bank < c.numBanks,
        (states cq.refreshRank bank).currentBankState ≠ .RowActive ∧
          (states cq.refreshRank bank).nextActivate ≤ now)
      (hpowered : (states cq.refreshRank 0).currentBankState ≠ .PowerDown)
      (hqueues : queues = cq.queues)

/-- A command on its way out, and the queue it leaves. -/
structure Leaves (c : SystemConfiguration) (now : Nat) (states : BankStates)
    (cq : CommandQueue) (e : BusPacket × CommandQueue) : Prop where
  origin : Origin c now states cq e.1 e.2.queues
  windows : e.2.tFAWCountdown = cq.tFAWCountdown
  inRange : cq.InRange c → e.2.InRange c

theorem leaves_take {slot i : Nat} (h : (cq.queues rank slot)[i]? = some packet)
    (hissuable : isIssuable c now states cq packet) :
    Leaves c now states cq (packet, take rank slot i cq) where
  origin := .queued rank slot _ hissuable (removed_eraseIdx h) rfl
  windows := rfl
  inRange h := ⟨h.next, h.nextPRE, h.refresh⟩

theorem activateBefore_iff {i : Nat} : activateBefore q i ↔
    ∃ act, q[i - 1]? = some act ∧ 0 < i ∧ act.busPacketType = .ACTIVATE := by
  unfold activateBefore
  split
  · rename_i act hact
    simp [hact]
  · rename_i hnone
    simp [hnone]

theorem leaves_takeWithActivate {slot i : Nat} (h : (cq.queues rank slot)[i]? = some packet)
    (hissuable : isIssuable c now states cq packet) :
    Leaves c now states cq (packet, takeWithActivate c rank slot i packet cq) := by
  unfold takeWithActivate
  split
  · rename_i hpair
    obtain ⟨act, hact, hi, htype⟩ := activateBefore_iff.mp hpair
    obtain ⟨i, rfl⟩ := Nat.exists_eq_add_one.mpr hi
    refine ⟨.queued rank slot _ hissuable (removed_eraseIdx_activate h hact htype) ?_, rfl,
      fun h => ⟨h.next, h.nextPRE, h.refresh⟩⟩
    simp [take, setQueue, setCounter]
  · exact leaves_take h hissuable

theorem leaves_sendRefresh {e : BusPacket × CommandQueue} (hwaiting : cq.refreshWaiting)
    (hready : notReadyToRefresh c now states cq.refreshRank = none)
    (h : sendRefresh states cq = some e) : Leaves c now states cq e := by
  unfold sendRefresh at h
  split at h
  · rename_i hpowered
    obtain rfl := Option.some.inj h
    refine ⟨.refresh rfl hwaiting ?_ hpowered rfl, rfl,
      fun h => ⟨h.next, h.nextPRE, (fun h => nomatch h)⟩⟩
    intro bank hbank
    have hbank := List.find?_eq_none.mp hready bank (List.mem_range.mpr hbank)
    simpa only [decide_eq_true_eq, not_or, Nat.not_lt] using hbank
  · cases h

theorem leaves_accessOpenRow {e : BusPacket × CommandQueue}
    (h : accessOpenRow c now states bank cq = some e) : Leaves c now states cq e := by
  unfold accessOpenRow at h
  simp only at h
  split at h
  · cases h
  · split at h
    · cases h
    · rename_i hq
      split at h
      · rename_i hissuable
        obtain rfl := Option.some.inj h
        exact leaves_take hq hissuable.2
      · cases h

theorem leaves_sendPrecharge (hpolicy : c.rowBufferPolicy = .OpenPage)
    (hrange : cq.InRange c → rank < c.numRanks ∧ bank < c.numBanks)
    (hopen : (states rank bank).currentBankState = .RowActive)
    (hnext : (states rank bank).nextPrecharge ≤ now) :
    Leaves c now states cq (sendPrecharge rank bank cq) where
  origin := .precharge rank bank hpolicy hrange rfl hopen hnext rfl
  windows := rfl
  inRange h := ⟨h.next, h.nextPRE, h.refresh⟩

theorem notReadyToRefresh_lt (h : notReadyToRefresh c now states rank = some bank) :
    bank < c.numBanks :=
  List.mem_range.mp (List.mem_of_find?_eq_some h)

theorem leaves_refresh {e : BusPacket × CommandQueue}
    (h : refresh c now states cq = some e) : Leaves c now states cq e := by
  unfold refresh at h
  split at h
  · rename_i hwaiting
    split at h
    · unfold refreshClosePage at h
      split at h
      · rename_i hready
        exact leaves_sendRefresh hwaiting hready h
      · split at h
        · exact leaves_accessOpenRow h
        · cases h
    · rename_i hpolicy
      unfold refreshOpenPage at h
      split at h
      · rename_i hready
        exact leaves_sendRefresh hwaiting hready h
      · rename_i bank hbank
        simp only at h
        split at h
        · rename_i hopen
          split at h
          · exact leaves_accessOpenRow h
          · split at h
            · rename_i hnext
              obtain rfl := Option.some.inj h
              exact leaves_sendPrecharge hpolicy
                (fun hrange => ⟨hrange.refresh hwaiting, notReadyToRefresh_lt hbank⟩) hopen hnext
            · cases h
        · cases h
  · cases h

theorem firstIssuable_some {blocked : List BusPacket → Nat → BusPacket → Bool} {i : Nat}
    (h : firstIssuable c now states cq blocked q = some (i, packet)) :
    q[i]? = some packet ∧ isIssuable c now states cq packet := by
  unfold firstIssuable at h
  obtain ⟨e, he, heq⟩ := Option.map_eq_some_iff.mp h
  obtain ⟨rfl, rfl⟩ := Prod.mk.inj heq
  have hfound := List.find?_some he
  rw [Bool.and_eq_true] at hfound
  exact ⟨List.mk_mem_zipIdx_iff_getElem?.mp (List.mem_of_find?_eq_some he), hfound.1⟩

theorem leaves_fromQueue {slot : Nat} {e : BusPacket × CommandQueue}
    (h : fromQueue c now states rank slot cq = some e) : Leaves c now states cq e := by
  unfold fromQueue at h
  simp only at h
  split at h
  · cases h
  · split at h
    · obtain ⟨⟨i, packet⟩, he, rfl⟩ := Option.map_eq_some_iff.mp h
      obtain ⟨hq, hissuable⟩ := firstIssuable_some he
      exact leaves_take hq hissuable
    · split at h
      · cases h
      · rename_i hq
        split at h
        · rename_i hissuable
          obtain rfl := Option.some.inj h
          exact leaves_take (by rw [hq]; rfl) hissuable
        · cases h
    · obtain ⟨⟨i, packet⟩, he, rfl⟩ := Option.map_eq_some_iff.mp h
      obtain ⟨hq, hissuable⟩ := firstIssuable_some he
      exact leaves_takeWithActivate hq hissuable

/-! The searches -/

variable {β : Type} {next : Nat × Nat → Nat × Nat} {stop : Nat × Nat → Bool}
  {visit : Nat × Nat → Option β} {fuel : Nat} {pos : Nat × Nat}

theorem search_invariant {P : Nat × Nat → Prop} (hnext : ∀ pos, P pos → P (next pos))
    (hpos : P pos) : P (search next stop visit fuel pos).2 := by
  induction fuel generalizing pos with
  | zero => exact hpos
  | succ fuel ih =>
      unfold search
      split
      · exact hpos
      · split
        · exact hnext pos hpos
        · exact ih (hnext pos hpos)

theorem search_found {found : β} (h : (search next stop visit fuel pos).1 = some found) :
    visit (search next stop visit fuel pos).2 = some found := by
  induction fuel generalizing pos with
  | zero => cases h
  | succ fuel ih =>
      unfold search at h ⊢
      split at h
      · rename_i hvisit
        rw [hvisit]
        exact h
      · split at h
        · cases h
        · rename_i hstop
          rw [if_neg hstop]
          exact ih h

def OnBoard (c : SystemConfiguration) (pos : Nat × Nat) : Prop :=
  pos.1 < c.numRanks ∧ pos.2 < c.numBanks

theorem onBoard_advance (pos : Nat × Nat) (h : OnBoard c pos) : OnBoard c (advance c pos) := by
  unfold OnBoard advance at *
  split <;> grind

theorem onBoard_nextQueue (pos : Nat × Nat) (h : OnBoard c pos) : OnBoard c (nextQueue c pos) := by
  unfold nextQueue
  split
  · unfold OnBoard at *
    grind
  · exact onBoard_advance pos h

theorem closeBank_some {e : BusPacket × CommandQueue}
    (h : closeBank c now states cq pos = some e) :
    (states pos.1 pos.2).currentBankState = .RowActive ∧
      (states pos.1 pos.2).nextPrecharge ≤ now ∧ e = sendPrecharge pos.1 pos.2 cq := by
  unfold closeBank at h
  simp only at h
  split at h
  · rename_i hopen
    split at h
    · rename_i hclose
      exact ⟨hopen, hclose.2, (Option.some.inj h).symm⟩
    · cases h
  · cases h

theorem searchPrecharge_some {e : BusPacket × CommandQueue}
    (h : searchPrecharge c now states cq = (some e, pos)) :
    (states pos.1 pos.2).currentBankState = .RowActive ∧
      (states pos.1 pos.2).nextPrecharge ≤ now ∧ e = sendPrecharge pos.1 pos.2 cq := by
  unfold searchPrecharge at h
  have hfound := search_found (congrArg Prod.fst h)
  rw [h] at hfound
  exact closeBank_some hfound

theorem InRange.sent (h : cq.InRange c) : (sent c packet cq).InRange c := by
  have hpos := onBoard_advance (cq.nextRank, cq.nextBank) h.next
  unfold CommandQueue.sent
  simp only
  split <;> split
  all_goals first
    | exact ⟨h.next, h.nextPRE, h.refresh⟩
    | exact ⟨hpos, h.nextPRE, h.refresh⟩

@[simp] theorem sent_queues : (sent c packet cq).queues = cq.queues := by
  unfold sent
  simp only
  split <;> split <;> rfl

theorem sent_tFAWCountdown : (sent c packet cq).tFAWCountdown =
    if packet.busPacketType = .ACTIVATE then
      Function.update cq.tFAWCountdown packet.rank (cq.tFAWCountdown packet.rank ++ [c.tFAW])
    else cq.tFAWCountdown := by
  unfold sent
  simp only
  split <;> split <;> rfl

/-- What a cycle does to the command queue. -/
structure Pops (c : SystemConfiguration) (now : Nat) (states : BankStates) (cq : CommandQueue)
    (popped : Option BusPacket) (cq' : CommandQueue) : Prop where
  origin : ∀ packet ∈ popped, Origin c now states (countdown cq) packet cq'.queues
  nothing : popped = none → cq'.queues = cq.queues
  windows : cq'.tFAWCountdown =
    match popped with
    | none => (countdown cq).tFAWCountdown
    | some packet =>
        if packet.busPacketType = .ACTIVATE then
          Function.update (countdown cq).tFAWCountdown packet.rank
            ((countdown cq).tFAWCountdown packet.rank ++ [c.tFAW])
        else (countdown cq).tFAWCountdown
  inRange : cq.InRange c → cq'.InRange c

theorem Leaves.pops {e : BusPacket × CommandQueue} (h : Leaves c now states (countdown cq) e)
    {cq' : CommandQueue} (hqueues : cq'.queues = e.2.queues)
    (hwindows : cq'.tFAWCountdown = e.2.tFAWCountdown)
    (hrange : e.2.InRange c → cq.InRange c → cq'.InRange c) :
    Pops c now states cq (some e.1) (CommandQueue.sent c e.1 cq') where
  origin packet hpacket := by
    obtain rfl := Option.some.inj hpacket
    rw [sent_queues, hqueues]
    exact h.origin
  nothing hnone := nomatch hnone
  windows := by rw [sent_tFAWCountdown, hwindows, h.windows]
  inRange hr := (hrange (h.inRange ⟨hr.next, hr.nextPRE, hr.refresh⟩) hr).sent

theorem pop_spec (c : SystemConfiguration) (now : Nat) (states : BankStates)
    (cq : CommandQueue) :
    Pops c now states cq (pop c now states cq).1 (pop c now states cq).2 := by
  have hnext (hr : cq.InRange c) : OnBoard c (searchCommand c now states (countdown cq)).2 :=
    search_invariant onBoard_nextQueue hr.next
  have hnextPRE (cq' : CommandQueue) (hr : cq'.InRange c) :
      OnBoard c (searchPrecharge c now states cq').2 :=
    search_invariant onBoard_advance hr.nextPRE
  unfold pop
  simp only
  split
  · rename_i hrefresh
    exact (leaves_refresh hrefresh).pops rfl rfl fun h _ => h
  · split
    · rename_i packet cq' pos hcommand
      have hleaves : Leaves c now states (countdown cq) (packet, cq') := by
        have hfound := search_found (congrArg Prod.fst hcommand)
        exact leaves_fromQueue hfound
      rw [hcommand] at hnext
      exact hleaves.pops rfl rfl fun h hr => ⟨hnext hr, h.nextPRE, h.refresh⟩
    · rename_i pos hcommand
      rw [hcommand] at hnext
      split
      · exact ⟨(fun _ h => nomatch h), fun _ => rfl, rfl,
          fun hr => ⟨hnext hr, hr.nextPRE, hr.refresh⟩⟩
      · rename_i hpolicy
        split
        · rename_i packet cq' posPRE hprecharge
          obtain ⟨hopen, hready, he⟩ := searchPrecharge_some hprecharge
          have hexists (hr : cq.InRange c) : OnBoard c posPRE := by
            have hpos := hnextPRE { countdown cq with nextRank := pos.1, nextBank := pos.2 }
              ⟨hnext hr, hr.nextPRE, hr.refresh⟩
            rwa [hprecharge] at hpos
          obtain ⟨rfl, rfl⟩ := Prod.mk.inj he
          have hleaves : Leaves c now states (countdown cq) _ :=
            leaves_sendPrecharge hpolicy
              (fun hr => hexists ⟨hr.next, hr.nextPRE, hr.refresh⟩) hopen hready
          exact hleaves.pops rfl rfl fun h hr => ⟨hnext hr, hexists hr, h.refresh⟩
        · rename_i posPRE hprecharge
          have hexists (hr : cq.InRange c) : OnBoard c posPRE := by
            have hpos := hnextPRE { countdown cq with nextRank := pos.1, nextBank := pos.2 }
              ⟨hnext hr, hr.nextPRE, hr.refresh⟩
            rwa [hprecharge] at hpos
          exact ⟨(fun _ h => nomatch h), fun _ => rfl, rfl,
            fun hr => ⟨hnext hr, hexists hr, hr.refresh⟩⟩

end FeS2.DRAMSim.CommandQueue
