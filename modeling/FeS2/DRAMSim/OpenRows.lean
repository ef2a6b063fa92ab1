import FeS2.DRAMSim.Safety

/-!
The devices as their data sheet has them, without times: a bank has a row open or none.
What the controller issues is always something they can do, and each access finds the row
open that its address lies in.
-/

namespace FeS2.DRAMSim
open MemoryController CommandQueue
variable {c : SystemConfiguration} {T now i j : Nat} {s s' : MemorySystem} {packet : BusPacket}
  {b k : BankState} {states : BankStates}

/-- The open row of each bank. -/
abbrev Devices := Nat → Nat → Option Nat

namespace Devices

def closed : Devices := fun _ _ => none

def setRow (rank bank : Nat) (row : Option Nat) (d : Devices) : Devices := fun i j =>
  if i = rank ∧ j = bank then row else d i j

/-- What a command does, if it may come. -/
def command (c : SystemConfiguration) (d : Devices) (packet : BusPacket) : Option Devices :=
  let open_ := d packet.rank packet.bank
  match packet.busPacketType with
  | .ACTIVATE =>
      if open_ = none then some (setRow packet.rank packet.bank (some packet.row) d) else none
  | .READ | .WRITE => if open_ = some packet.row then some d else none
  | .READ_P | .WRITE_P =>
      if open_ = some packet.row then some (setRow packet.rank packet.bank none d) else none
  | .PRECHARGE => if open_ = none then none else some (setRow packet.rank packet.bank none d)
  | .REFRESH => if ∀ j < c.numBanks, d packet.rank j = none then some d else none
  | .DATA => none

end Devices

/-- The row that the controller takes to be open. A row that is being closed is closed. -/
def openRow (b : BankState) : Option Nat :=
  if b.currentBankState = .RowActive ∧ b.stateChangeCountdown = 0 then some b.openRowAddress
  else none

theorem openRow_eq_some (h : b.currentBankState = .RowActive) (hzero : b.stateChangeCountdown = 0) :
    openRow b = some b.openRowAddress := if_pos ⟨h, hzero⟩

theorem openRow_eq_none (h : b.currentBankState ≠ .RowActive) : openRow b = none :=
  if_neg fun hopen => h hopen.1

theorem openRow_countdown (hagrees : Agrees c T b k) :
    openRow (updateBankState c b) = openRow b := by
  have hclosing := hagrees.closing
  unfold openRow updateBankState implicitChange
  grind

/-- A bank that a command finds as it must is not on the way to another state. -/
theorem MemoryController.Agrees.settled (hagrees : Agrees c (now + 1) b k)
    (hissuable : Issuable c now packet b) :
    b.stateChangeCountdown = 0 ∧
      (packet.busPacketType = .ACTIVATE → b.currentBankState = .Idle) := by
  have hclosing := hagrees.closing
  have hidle := hagrees.idle
  have hrefreshing := hagrees.refreshing
  unfold Issuable at hissuable
  grind

theorem openRow_other_rank (hi : i ≠ packet.rank) :
    openRow (commandAfter c now packet i j b) = openRow b := by
  rw [commandAfter, if_neg hi]
  unfold openRow columnAfter afterRead afterWrite MemoryController.afterColumn
  grind

theorem openRow_other_bank (hrefresh : packet.busPacketType ≠ .REFRESH) (hj : j ≠ packet.bank) :
    openRow (commandAfter c now packet packet.rank j b) = openRow b := by
  rw [commandAfter, if_pos rfl]
  obtain ⟨type, address, column, row, rank, bank⟩ := packet
  unfold openRow columnAfter afterRead afterWrite MemoryController.afterColumn
  cases type with
  | REFRESH => exact absurd rfl hrefresh
  | READ | READ_P | WRITE | WRITE_P | ACTIVATE | PRECHARGE | DATA => grind

/-- The devices do what the controller reckons with. -/
theorem command_openRow (hc : c.Valid)
    (hagrees : ∀ j < c.numBanks, ∃ k, Agrees c (now + 1) (states packet.rank j) k)
    (hlegal : Legal c now packet (states packet.rank)) {d : Devices}
    (h : ∀ i < c.numRanks, ∀ j < c.numBanks, d i j = openRow (states i j))
    (hrank : packet.rank < c.numRanks) (hdata : packet.busPacketType ≠ .DATA) :
    ∃ d', d.command c packet = some d' ∧ ∀ i < c.numRanks, ∀ j < c.numBanks,
      d' i j = openRow (commandAfter c now packet i j (states i j)) := by
  have hpre : 0 < c.readToPreDelay ∧ 0 < c.writeToPreDelay := by
    have hburst := hc.burst
    unfold SystemConfiguration.readToPreDelay SystemConfiguration.writeToPreDelay
    omega
  have hother : ∀ i < c.numRanks, i ≠ packet.rank → ∀ j < c.numBanks,
      d i j = openRow (commandAfter c now packet i j (states i j)) := by
    intro i hi hne j hj
    rw [openRow_other_rank hne]
    exact h i hi j hj
  by_cases hrefresh : packet.busPacketType = .REFRESH
  · rw [Legal, if_pos hrefresh] at hlegal
    have hclosed : ∀ j < c.numBanks, d packet.rank j = none := by
      intro j hj
      rw [h _ hrank j hj]
      exact openRow_eq_none (hlegal j hj).1
    refine ⟨d, by simp only [Devices.command, hrefresh]; exact if_pos hclosed, fun i hi j hj => ?_⟩
    by_cases hne : i = packet.rank
    · subst hne
      rw [hclosed j hj, commandAfter, if_pos rfl, hrefresh]
      have hbusy : CurrentBankState.Refreshing ≠ .RowActive := by decide
      exact (openRow_eq_none hbusy).symm
    · exact hother i hi hne j hj
  · rw [Legal, if_neg hrefresh] at hlegal
    obtain ⟨hbank, hpolicy, hissuable⟩ := hlegal
    obtain ⟨k, hk⟩ := hagrees _ hbank
    obtain ⟨hzero, hidle⟩ := hk.settled hissuable
    have hown := h _ hrank _ hbank
    have hset (row : Option Nat)
        (hrow : openRow (commandAfter c now packet packet.rank packet.bank
          (states packet.rank packet.bank)) = row) :
        ∀ i < c.numRanks, ∀ j < c.numBanks, d.setRow packet.rank packet.bank row i j =
          openRow (commandAfter c now packet i j (states i j)) := by
      intro i hi j hj
      unfold Devices.setRow
      by_cases hne : i = packet.rank
      · subst hne
        by_cases hj' : j = packet.bank
        · subst hj'
          rw [if_pos ⟨rfl, rfl⟩, hrow]
        · rw [if_neg fun h => hj' h.2, openRow_other_bank hrefresh hj']
          exact h _ hrank j hj
      · rw [if_neg fun h => hne h.1]
        exact hother i hi hne j hj
    have hkeep (hrow : openRow (commandAfter c now packet packet.rank packet.bank
          (states packet.rank packet.bank)) = d packet.rank packet.bank) :
        ∀ i < c.numRanks, ∀ j < c.numBanks,
          d i j = openRow (commandAfter c now packet i j (states i j)) := by
      intro i hi j hj
      rw [← hset _ hrow i hi j hj]
      unfold Devices.setRow
      split
      · rename_i hplace
        rw [hplace.1, hplace.2]
      · rfl
    rw [commandAfter, if_pos rfl] at hset hkeep
    unfold Issuable at hissuable
    cases htype : packet.busPacketType with
    | REFRESH => exact absurd htype hrefresh
    | DATA => exact absurd htype hdata
    | ACTIVATE =>
        rw [openRow_eq_none (by rw [hidle htype]; decide)] at hown
        simp only [htype, if_true, ownAfter] at hset
        exact ⟨_, by simp only [Devices.command, htype, hown, if_true],
          hset _ (openRow_eq_some rfl hzero)⟩
    | READ | WRITE =>
        simp only [htype] at hissuable
        rw [openRow_eq_some hissuable.1 hzero, ← hissuable.2.2] at hown
        simp only [htype, if_true, columnAfter, ownAfter] at hkeep
        refine ⟨_, by simp only [Devices.command, htype, hown, if_true], hkeep ?_⟩
        rw [hown, hissuable.2.2]
        simp only [openRow, afterRead, afterWrite, MemoryController.afterColumn]
        grind
    | READ_P | WRITE_P =>
        simp only [htype] at hissuable
        rw [openRow_eq_some hissuable.1 hzero, ← hissuable.2.2] at hown
        simp only [htype, if_true, columnAfter, ownAfter] at hset
        refine ⟨_, by simp only [Devices.command, htype, hown, if_true], hset none ?_⟩
        simp only [openRow, afterRead, afterWrite, MemoryController.afterColumn]
        grind
    | PRECHARGE =>
        simp only [htype] at hissuable
        rw [openRow_eq_some hissuable.1 hzero] at hown
        simp only [htype, if_true, columnAfter, ownAfter] at hset
        exact ⟨_, by simp only [Devices.command, htype, hown, reduceCtorEq, if_false],
          hset none (openRow_eq_none (show CurrentBankState.Precharging ≠ .RowActive by decide))⟩

/-! Runs -/

/-- The command goes where its address lies. -/
def AtHome (c : SystemConfiguration) (packet : BusPacket) : Prop :=
  addressMapping c packet.physicalAddress = (packet.rank, packet.bank, packet.row, packet.column)

theorem atHome_commandOf (tr : Transaction) (type : BusPacketType) :
    AtHome c (commandOf c tr type) := rfl

/-- The commands so far, and those to come, for the devices. -/
structure Driven (c : SystemConfiguration) (issued : List (Nat × BusPacket)) (states : BankStates)
    (cq : CommandQueue) : Prop where
  devices : ∃ d, (issued.map Prod.snd).foldlM (Devices.command c) Devices.closed = some d ∧
    ∀ i < c.numRanks, ∀ j < c.numBanks, d i j = openRow (states i j)
  queued : ∀ i k, ∀ packet ∈ cq.queues i k, AtHome c packet
  issued : ∀ e ∈ issued, e.2.busPacketType ≠ .PRECHARGE → e.2.busPacketType ≠ .REFRESH →
    AtHome c e.2

theorem Driven.init : Driven c [] (fun _ _ => {}) {} where
  devices := ⟨Devices.closed, rfl, fun _ _ _ _ => rfl⟩
  queued _ _ _ h := nomatch h
  issued _ h := nomatch h

theorem atHome_schedules {cq cq' : CommandQueue} {q q' pending pending' : List Transaction}
    (h : Schedules c cq q pending cq' q' pending')
    (hqueued : ∀ i k, ∀ packet ∈ cq.queues i k, AtHome c packet) :
    ∀ i k, ∀ packet ∈ cq'.queues i k, AtHome c packet := by
  induction h with
  | nothing => exact hqueued
  | @more tr cq cq' _ _ _ _ _ _ _ htype hfirst hrest ih =>
      refine ih fun i k packet hpacket => ?_
      obtain ⟨type, _, hqueues⟩ := hfirst.queued
      rw [hqueues] at hpacket
      split at hpacket
      · rcases List.mem_append.mp hpacket with hpacket | hpacket
        · exact hqueued i k packet hpacket
        · simp only [List.mem_cons, List.not_mem_nil, or_false] at hpacket
          rcases hpacket with rfl | rfl
          · exact atHome_commandOf tr _
          · exact atHome_commandOf tr type
      · exact hqueued i k packet hpacket

/-- What is popped is from a queue, or goes to no address. -/
theorem atHome_popped {cq : CommandQueue}
    (hqueued : ∀ i k, ∀ packet ∈ cq.queues i k, AtHome c packet)
    (hpop : (pop c now states cq).1 = some packet) :
    packet.busPacketType ≠ .PRECHARGE → packet.busPacketType ≠ .REFRESH → AtHome c packet := by
  intro hprecharge hrefresh
  cases (pop_spec c now states cq).origin packet hpop with
  | queued rank slot q hissuable hremoved hqueues => exact hqueued rank slot packet hremoved.mem
  | precharge rank bank hpolicy hrange hpacket hopen hnext hqueues =>
      exact absurd (congrArg BusPacket.busPacketType hpacket) hprecharge
  | refresh hpacket hwaiting hready hpowered hqueues =>
      exact absurd (congrArg BusPacket.busPacketType hpacket) hrefresh

theorem atHome_left {cq : CommandQueue}
    (hqueued : ∀ i k, ∀ packet ∈ cq.queues i k, AtHome c packet) :
    ∀ i k, ∀ packet ∈ (pop c now states cq).2.queues i k, AtHome c packet := by
  have hpops := pop_spec c now states cq
  intro i k packet hpacket
  cases hpopped : (pop c now states cq).1 with
  | none => exact hqueued i k packet (hpops.nothing hpopped ▸ hpacket)
  | some popped =>
      exact hqueued i k packet ((origin_sublist (hpops.origin popped hpopped) i k).subset hpacket)

theorem Driven.cycle (hc : c.Valid) {cq : CommandQueue} {popped : Option BusPacket}
    (h : Driven c s.issued s.memoryController.bankStates s.memoryController.commandQueue)
    (hagrees : ∀ i < c.numRanks, ∀ j < c.numBanks,
      ∃ k, Agrees c s.currentClockCycle (s.memoryController.bankStates i j) k)
    (hcycle : CommandCycle c s cq popped s') :
    Driven c s'.issued s'.memoryController.bankStates s'.memoryController.commandQueue := by
  obtain ⟨d, hrun, hopen⟩ := h.devices
  have hqueued : ∀ i k, ∀ packet ∈ cq.queues i k, AtHome c packet := hcycle.queues ▸ h.queued
  have hcounted : ∀ i < c.numRanks, ∀ j < c.numBanks, d i j = openRow (counted c s i j) := by
    intro i hi j hj
    obtain ⟨k, hk⟩ := hagrees i hi j hj
    rw [counted, openRow_countdown hk]
    exact hopen i hi j hj
  have hcommanded : ∃ d', (s'.issued.map Prod.snd).foldlM (Devices.command c) Devices.closed =
      some d' ∧ ∀ i < c.numRanks, ∀ j < c.numBanks,
        d' i j = openRow (commanded c s.currentClockCycle popped (counted c s) i j) := by
    have hlegal := hcycle.legal
    rw [hcycle.issued, List.map_append, List.foldlM_append, hrun]
    cases popped with
    | none => exact ⟨d, rfl, hcounted⟩
    | some packet =>
        obtain ⟨hrank, _, hdata, hlegal⟩ := hlegal packet rfl
        obtain ⟨d', hcommand, hopen'⟩ :=
          command_openRow hc (hcycle.agrees _ hrank) hlegal hcounted hrank hdata
        refine ⟨d', ?_, hopen'⟩
        change (Devices.command c d packet >>= some) = some d'
        rw [hcommand]
        rfl
  obtain ⟨d', hrun', hopen'⟩ := hcommanded
  refine ⟨⟨d', hrun', fun i hi j hj => ?_⟩, ?_, ?_⟩
  · rw [hopen' i hi j hj]
    obtain ⟨_, _, _, hactive⟩ := hcycle.times i j
    by_cases hbefore : (commanded c s.currentClockCycle popped (counted c s) i j).currentBankState =
        .RowActive
    · rw [hcycle.opened i j hj hbefore]
    · rw [openRow_eq_none hbefore, openRow_eq_none fun hafter => hbefore (hactive hafter ▸ hafter)]
  · obtain ⟨q, pending, q', pending', hschedules⟩ := hcycle.schedules
    exact atHome_schedules hschedules (atHome_left hqueued)
  · rw [hcycle.issued]
    intro e he
    rcases List.mem_append.mp he with he | he
    · exact h.issued e he
    · obtain ⟨packet, hpacket, rfl⟩ := List.mem_map.mp he
      rw [Option.mem_toList] at hpacket
      exact atHome_popped hqueued (hcycle.pops.trans hpacket)

/-- In every run the devices can do all that the controller issues, and each activate and
each access goes where its address lies. -/
theorem devices_driven (hc : c.Valid) (events : List MemorySystem.Event)
    (hevents : ∀ e ∈ events, e.Proper) :
    ∃ s d, events.foldlM (MemorySystem.step c) (MemorySystem.init c) = .ok s ∧
      (s.issued.map Prod.snd).foldlM (Devices.command c) Devices.closed = some d ∧
      ∀ e ∈ s.issued, e.2.busPacketType ≠ .PRECHARGE → e.2.busPacketType ≠ .REFRESH →
        AtHome c e.2 := by
  obtain ⟨s, hok, h⟩ := run_invariant hc
    (I := fun s => Driven c s.issued s.memoryController.bankStates s.memoryController.commandQueue)
    Driven.init (fun _ _ h => h) (fun _ _ h => h)
    (fun onWrite onRead s done a d s' hsafe h hcycle => by
      obtain ⟨cq, popped, hcommands⟩ := hcycle.commands hc
      exact h.cycle hc (fun i hi j hj => ⟨_, (hsafe.rank i hi).agrees j hj⟩) hcommands) hevents
  obtain ⟨d, hrun, _⟩ := h.devices
  exact ⟨s, d, hok, hrun, h.issued⟩

theorem devices_driven_ddr2 :
    ∃ s d, List.foldlM (MemorySystem.step .DDR2_micron_16M_8b_x8_sg3E)
        (MemorySystem.init .DDR2_micron_16M_8b_x8_sg3E)
        [.request ⟨.DATA_READ, 0x40⟩, .cycle [] [], .cycle [] []] = .ok s ∧
      (s.issued.map Prod.snd).foldlM (Devices.command .DDR2_micron_16M_8b_x8_sg3E)
        Devices.closed = some d ∧
      ∀ e ∈ s.issued, e.2.busPacketType ≠ .PRECHARGE → e.2.busPacketType ≠ .REFRESH →
        AtHome .DDR2_micron_16M_8b_x8_sg3E e.2 :=
  devices_driven SystemConfiguration.valid_ddr2 _ (by decide)

end FeS2.DRAMSim
