import FeS2.DRAMSim.Safety

/-!
The commands on the command bus keep the times that the devices need between them:
within a bank, between the banks of a rank and between ranks that share the data bus.
A rank that has been powered down may be activated early again, so the times before an
activate and a refresh are kept where the low power mode is off.
-/

namespace FeS2.DRAMSim
open MemoryController
variable {c : SystemConfiguration} {T now i j : Nat} {s s' : MemorySystem} {packet : BusPacket}
  {b k : BankState} {e : Nat × BusPacket}

/-- The row is opened late enough for the ranks to take turns on the data bus. -/
structure SystemConfiguration.Timely (c : SystemConfiguration) : Prop where
  turnaround : c.AL + c.BL / 2 + c.tRTRS ≤ c.tRCD
  burst : c.AL + c.tCCD ≤ c.tRCD + 1
  recovery : c.tWTR ≤ c.tWR + c.tRP

theorem SystemConfiguration.timely_ddr2 : DDR2_micron_16M_8b_x8_sg3E.Timely where
  turnaround := by decide
  burst := by decide
  recovery := by decide

/-- From a command to a read of bank `j` of rank `i`. -/
def toRead (c : SystemConfiguration) (packet : BusPacket) (i j : Nat) : Nat :=
  if packet.rank = i then
    match packet.busPacketType with
    | .READ | .READ_P => c.burstDelay
    | .WRITE | .WRITE_P => c.writeToReadDelayB
    | .ACTIVATE => if packet.bank = j then c.tRCD - c.AL else 0
    | _ => 0
  else
    match packet.busPacketType with
    | .READ | .READ_P => c.BL / 2 + c.tRTRS
    | .WRITE | .WRITE_P => c.writeToReadDelayR
    | _ => 0

/-- From a command to a write. -/
def toWrite (c : SystemConfiguration) (packet : BusPacket) (i j : Nat) : Nat :=
  match packet.busPacketType with
  | .READ | .READ_P => c.readToWriteDelay
  | .WRITE | .WRITE_P => if packet.rank = i then c.burstDelay else c.BL / 2 + c.tRTRS
  | .ACTIVATE => if packet.rank = i ∧ packet.bank = j then c.tRCD - c.AL else 0
  | _ => 0

/-- From a command to a precharge. -/
def toPrecharge (c : SystemConfiguration) (packet : BusPacket) (i j : Nat) : Nat :=
  if packet.rank = i ∧ packet.bank = j then
    match packet.busPacketType with
    | .ACTIVATE => c.tRAS
    | .READ => c.readToPreDelay
    | .WRITE => c.writeToPreDelay
    | _ => 0
  else 0

/-- From a command to an activate. -/
def toActivate (c : SystemConfiguration) (packet : BusPacket) (i j : Nat) : Nat :=
  if packet.rank = i then
    match packet.busPacketType with
    | .REFRESH => c.tRFC
    | .ACTIVATE => if packet.bank = j then c.tRC else c.tRRD
    | .PRECHARGE => if packet.bank = j then c.tRP else 0
    | .READ_P => if packet.bank = j then c.readAutopreDelay else 0
    | .WRITE_P => if packet.bank = j then c.writeAutopreDelay else 0
    | _ => 0
  else 0

/-- The least time from a command to a later one. A refresh waits as an activate of any
bank of its rank would. -/
def minGap (c : SystemConfiguration) (packet later : BusPacket) : Nat :=
  match later.busPacketType with
  | .READ | .READ_P => toRead c packet later.rank later.bank
  | .WRITE | .WRITE_P => toWrite c packet later.rank later.bank
  | .PRECHARGE => toPrecharge c packet later.rank later.bank
  | .ACTIVATE => toActivate c packet later.rank later.bank
  | .REFRESH => toActivate c packet later.rank packet.bank
  | .DATA => 0

/-- Before the command of cycle `now`, what the controller's state of bank `j` of rank `i`
says of the time since `e`. -/
structure Waits (c : SystemConfiguration) (now : Nat) (e : Nat × BusPacket) (i j : Nat)
    (b : BankState) : Prop where
  past : e.1 < now
  read : e.1 + toRead c e.2 i j ≤ max b.nextRead (now + (c.tRCD - c.AL))
  openRead : b.currentBankState = .RowActive → b.stateChangeCountdown = 0 →
    e.1 + toRead c e.2 i j ≤ max b.nextRead now
  openWrite : b.currentBankState = .RowActive → b.stateChangeCountdown = 0 →
    e.1 + toWrite c e.2 i j ≤ max b.nextWrite now
  precharge : e.1 + toPrecharge c e.2 i j ≤ max b.nextPrecharge now
  activate : c.useLowPower = false → e.1 + toActivate c e.2 i j ≤ max b.nextActivate now

/-- What the delays come to. -/
theorem SystemConfiguration.Timely.delays (hc : c.Valid) (ht : c.Timely) :
    c.burstDelay ≤ c.tRCD - c.AL + 1 ∧ c.BL / 2 + c.tRTRS ≤ c.tRCD - c.AL ∧
      c.readToWriteDelay ≤ c.tRCD - c.AL + 1 ∧ c.writeToReadDelayR ≤ c.tRCD - c.AL ∧
      c.writeToReadDelayB ≤ c.writeAutopreDelay ∧ 0 < c.readToPreDelay ∧
      0 < c.writeToPreDelay ∧ 0 < c.tRP ∧ 0 < c.tRFC := by
  have hburst := hc.burst
  have hlatency := hc.latency
  have hturn := ht.turnaround
  have hcolumn := ht.burst
  have hrecovery := ht.recovery
  have hprecharge := hc.precharge
  have hrefresh := hc.refresh
  unfold SystemConfiguration.burstDelay SystemConfiguration.readToWriteDelay
    SystemConfiguration.writeToReadDelayR SystemConfiguration.writeToReadDelayB
    SystemConfiguration.writeAutopreDelay SystemConfiguration.readToPreDelay
    SystemConfiguration.writeToPreDelay SystemConfiguration.WL
  omega

theorem toWrite_le (hc : c.Valid) (ht : c.Timely) (packet : BusPacket) (i j : Nat) :
    toWrite c packet i j ≤ c.tRCD - c.AL + 1 := by
  obtain ⟨hburst, hturn, hread, _⟩ := ht.delays hc
  unfold toWrite
  grind

/-- Only a write of the same rank keeps a read away for longer than an activate does. -/
theorem toRead_le (hc : c.Valid) (ht : c.Timely) (packet : BusPacket) (i j : Nat) :
    toRead c packet i j ≤ c.tRCD - c.AL + 1 ∨
      packet.rank = i ∧ isWrite packet ∧ toRead c packet i j = c.writeToReadDelayB := by
  obtain ⟨hburst, hturn, _, hwrite, _⟩ := ht.delays hc
  unfold toRead isWrite
  grind

/-- A bank that the command finds as it must. -/
def Ready (c : SystemConfiguration) (now : Nat) (packet : BusPacket) (i j : Nat) (b : BankState) :
    Prop :=
  i = packet.rank →
    if packet.busPacketType = .REFRESH then b.nextActivate ≤ now
    else j = packet.bank → Issuable c now packet b

/-- The times of a bank only grow, unless the command closes the row behind its access. -/
theorem commandAfter_times (hready : Ready c now packet i j b) :
    (b.nextRead ≤ (commandAfter c now packet i j b).nextRead ∨ b.nextRead ≤ now ∨
        now + c.writeAutopreDelay ≤ (commandAfter c now packet i j b).nextRead) ∧
      b.nextPrecharge ≤ (commandAfter c now packet i j b).nextPrecharge ∧
      max b.nextActivate now ≤ max (commandAfter c now packet i j b).nextActivate now := by
  obtain ⟨type, address, column, row, rank, bank⟩ := packet
  unfold Ready Issuable at hready
  unfold commandAfter
  cases type <;>
    simp only [columnAfter, ownAfter, afterRead, afterWrite, MemoryController.afterColumn] <;>
    grind

/-- A bank is open after a command when it was before or is the one opened. -/
theorem commandAfter_open (hread : 0 < c.readToPreDelay) (hwrite : 0 < c.writeToPreDelay)
    (hopen : (commandAfter c now packet i j b).currentBankState = .RowActive)
    (hclosing : (commandAfter c now packet i j b).stateChangeCountdown = 0) :
    b.currentBankState = .RowActive ∧ b.stateChangeCountdown = 0 ∧
        b.nextRead ≤ (commandAfter c now packet i j b).nextRead ∧
        b.nextWrite ≤ (commandAfter c now packet i j b).nextWrite ∨
      b.nextRead ≤ (commandAfter c now packet i j b).nextRead ∧
        now + (c.tRCD - c.AL) ≤ (commandAfter c now packet i j b).nextRead ∧
        now + (c.tRCD - c.AL) ≤ (commandAfter c now packet i j b).nextWrite := by
  revert hopen hclosing
  obtain ⟨type, address, column, row, rank, bank⟩ := packet
  unfold commandAfter
  cases type <;>
    simp only [columnAfter, ownAfter, afterRead, afterWrite, MemoryController.afterColumn] <;>
    grind

/-- A command takes nothing from the time that an earlier one asks for. -/
theorem Waits.issue_before (hc : c.Valid) (ht : c.Timely) (h : Waits c now e i j b)
    (hready : Ready c now packet i j b) :
    Waits c (now + 1) e i j (commandAfter c now packet i j b) := by
  obtain ⟨hburst, _, _, _, hrecovery, hread, hwrite, _⟩ := ht.delays hc
  obtain ⟨hreads, hprecharges, hactivates⟩ := commandAfter_times hready
  have hopens := @commandAfter_open c now i j packet b hread hwrite
  have hpast := h.past
  refine ⟨Nat.lt_succ_of_lt hpast, ?_, fun hopen hclosing => ?_, fun hopen hclosing => ?_, ?_,
    fun hpower => ?_⟩
  · have hbefore := h.read
    rcases toRead_le hc ht e.2 i j with hle | ⟨_, _, heq⟩
    · omega
    · omega
  · rcases hopens hopen hclosing with ⟨hopen, hclosing, hle, _⟩ | ⟨hle, hopened, _⟩
    · have hbefore := h.openRead hopen hclosing
      omega
    · have hbefore := h.read
      omega
  · rcases hopens hopen hclosing with ⟨hopen, hclosing, _, hle⟩ | ⟨_, _, hopened⟩
    · have hbefore := h.openWrite hopen hclosing
      omega
    · have hle := toWrite_le hc ht e.2 i j
      omega
  · have hbefore := h.precharge
    omega
  · have hbefore := h.activate hpower
    omega

/-- A command asks for the time that is needed behind it. -/
theorem Waits.issue_self (hc : c.Valid) (ht : c.Timely) :
    Waits c (now + 1) (now, packet) i j (commandAfter c now packet i j b) := by
  obtain ⟨hburst, hturn, hreadWrite, hother, hrecovery, hread, hwrite, _⟩ := ht.delays hc
  have hself := Nat.lt_succ_self now
  obtain ⟨type, address, column, row, rank, bank⟩ := packet
  unfold commandAfter
  cases type <;>
    simp only [columnAfter, ownAfter, afterRead, afterWrite, MemoryController.afterColumn] <;>
    constructor <;> simp only [toRead, toWrite, toPrecharge, toActivate] <;> grind

/-- The controller's countdown of a cycle opens no bank. -/
theorem Waits.countdown (hagrees : Agrees c T b k) (h : Waits c now e i j b) :
    Waits c now e i j (updateBankState c b) := by
  obtain ⟨hread, hwrite, hactivate, hprecharge, _⟩ := updateBankState_next (c := c) b
  have hopen : (updateBankState c b).currentBankState = .RowActive →
      (updateBankState c b).stateChangeCountdown = 0 →
        b.currentBankState = .RowActive ∧ b.stateChangeCountdown = 0 := by
    have hclosing := hagrees.closing
    unfold updateBankState implicitChange
    grind
  refine ⟨h.past, hread ▸ h.read, fun hactive hzero => ?_, fun hactive hzero => ?_,
    hprecharge ▸ h.precharge, hactivate ▸ h.activate⟩
  · obtain ⟨hactive, hzero⟩ := hopen hactive hzero
    exact hread ▸ h.openRead hactive hzero
  · obtain ⟨hactive, hzero⟩ := hopen hactive hzero
    exact hwrite ▸ h.openWrite hactive hzero

/-- A command that the controller may send comes late enough. -/
theorem Waits.spaced {banks : Nat → BankState} (hagrees : Agrees c (now + 1) (banks packet.bank) k)
    (h : ∀ j < c.numBanks, Waits c now e packet.rank j (banks j))
    (hbank : packet.bank < c.numBanks) (hbefore : e.2.bank < c.numBanks)
    (hlegal : Legal c now packet banks)
    (hpower : c.useLowPower = true →
      packet.busPacketType ≠ .ACTIVATE ∧ packet.busPacketType ≠ .REFRESH) :
    e.1 + minGap c e.2 packet ≤ now := by
  have hself := h _ hbank
  have hrefresh := h _ hbefore
  have hlt := hself.past
  have hclosing := hagrees.closing
  obtain ⟨past, read, openRead, openWrite, precharge, activate⟩ := hself
  have hactivate := hrefresh.activate
  unfold Legal at hlegal
  unfold minGap
  cases htype : packet.busPacketType with
  | REFRESH =>
      rw [htype, if_pos rfl] at hlegal
      have hlow : c.useLowPower = false := by
        rw [← Bool.not_eq_true]
        exact fun h => (hpower h).2 htype
      have hnext := (hlegal _ hbefore).2.2
      have hle := hactivate hlow
      simp only
      omega
  | ACTIVATE =>
      rw [htype, if_neg (by decide)] at hlegal
      have hlow : c.useLowPower = false := by
        rw [← Bool.not_eq_true]
        exact fun h => (hpower h).1 htype
      have hissuable := hlegal.2.2
      simp only [Issuable, htype] at hissuable
      have hle := activate hlow
      simp only
      omega
  | READ | READ_P | WRITE | WRITE_P =>
      rw [htype, if_neg (by decide)] at hlegal
      have hissuable := hlegal.2.2
      simp only [Issuable, htype] at hissuable
      have hzero : (banks packet.bank).stateChangeCountdown = 0 := by
        by_contra hpos
        have hlate := hclosing hissuable.1 (Nat.pos_of_ne_zero hpos)
        omega
      have hread := openRead hissuable.1 hzero
      have hwrite := openWrite hissuable.1 hzero
      simp only
      omega
  | PRECHARGE =>
      rw [htype, if_neg (by decide)] at hlegal
      have hissuable := hlegal.2.2
      simp only [Issuable, htype] at hissuable
      simp only
      omega
  | DATA => exact Nat.le_of_lt hlt

/-! Runs -/

/-- Two commands are far enough from each other. -/
def Spaced (c : SystemConfiguration) (e e' : Nat × BusPacket) : Prop :=
  (c.useLowPower = true →
    e'.2.busPacketType ≠ .ACTIVATE ∧ e'.2.busPacketType ≠ .REFRESH) →
    e.1 + minGap c e.2 e'.2 ≤ e'.1

/-- Before the command of cycle `now`, the commands so far. -/
structure Timed (c : SystemConfiguration) (now : Nat) (issued : List (Nat × BusPacket))
    (states : BankStates) : Prop where
  bank : ∀ e ∈ issued, e.2.bank < c.numBanks
  waits : ∀ e ∈ issued, ∀ i < c.numRanks, ∀ j < c.numBanks, Waits c now e i j (states i j)
  spaced : issued.Pairwise (Spaced c)

theorem Timed.init : Timed c now [] (fun _ _ => {}) where
  bank _ h := nomatch h
  waits _ h := nomatch h
  spaced := List.Pairwise.nil

theorem Timed.idle {states : BankStates} {issued : List (Nat × BusPacket)}
    (h : Timed c now issued states) : Timed c (now + 1) issued states := by
  refine ⟨h.bank, fun e he i hi j hj => ?_, h.spaced⟩
  obtain ⟨past, read, openRead, openWrite, precharge, activate⟩ := h.waits e he i hi j hj
  have hmax (n : Nat) : max n now ≤ max n (now + 1) := by omega
  refine ⟨Nat.lt_succ_of_lt past, by omega, fun hopen hzero => ?_, fun hopen hzero => ?_,
    precharge.trans (hmax _), fun hpower => (activate hpower).trans (hmax _)⟩
  · exact (openRead hopen hzero).trans (hmax _)
  · exact (openWrite hopen hzero).trans (hmax _)

theorem Timed.issue (hc : c.Valid) (ht : c.Timely) {states : BankStates}
    {issued : List (Nat × BusPacket)} (h : Timed c now issued states)
    (hagrees : ∀ i < c.numRanks, ∀ j < c.numBanks, ∃ k, Agrees c (now + 1) (states i j) k)
    (hrank : packet.rank < c.numRanks) (hbank : packet.bank < c.numBanks)
    (hlegal : Legal c now packet (states packet.rank)) :
    Timed c (now + 1) (issued ++ [(now, packet)])
      (fun i j => commandAfter c now packet i j (states i j)) := by
  refine ⟨fun e he => ?_, fun e he i hi j hj => ?_, ?_⟩
  · rcases List.mem_append.mp he with he | he
    · exact h.bank e he
    · rw [List.mem_singleton.mp he]
      exact hbank
  · rcases List.mem_append.mp he with he | he
    · refine (h.waits e he i hi j hj).issue_before hc ht ?_
      rintro rfl
      unfold Legal at hlegal
      split
      · rename_i hrefresh
        rw [if_pos hrefresh] at hlegal
        exact (hlegal j hj).2.2
      · rename_i hrefresh
        rw [if_neg hrefresh] at hlegal
        rintro rfl
        exact hlegal.2.2
    · rw [List.mem_singleton.mp he]
      exact Waits.issue_self hc ht
  · refine List.pairwise_append.mpr ⟨h.spaced, List.pairwise_singleton _ _, ?_⟩
    intro e he e' he'
    rw [List.mem_singleton.mp he']
    obtain ⟨k, hk⟩ := hagrees _ hrank _ hbank
    exact fun hpower => Waits.spaced hk (h.waits e he _ hrank) hbank (h.bank e he) hlegal hpower

theorem Timed.cycle (hc : c.Valid) (ht : c.Timely) {cq : CommandQueue} {popped : Option BusPacket}
    (h : Timed c s.currentClockCycle s.issued s.memoryController.bankStates)
    (hagrees : ∀ i < c.numRanks, ∀ j < c.numBanks,
      ∃ k, Agrees c s.currentClockCycle (s.memoryController.bankStates i j) k)
    (hcycle : CommandCycle c s cq popped s') :
    Timed c (s.currentClockCycle + 1) s'.issued s'.memoryController.bankStates := by
  have hcounted : Timed c s.currentClockCycle s.issued (counted c s) := by
    refine ⟨h.bank, fun e he i hi j hj => ?_, h.spaced⟩
    obtain ⟨k, hk⟩ := hagrees i hi j hj
    exact (h.waits e he i hi j hj).countdown hk
  have hissued : Timed c (s.currentClockCycle + 1) s'.issued
      (commanded c s.currentClockCycle popped (counted c s)) := by
    rw [hcycle.issued]
    have hlegal := hcycle.legal
    cases popped with
    | none =>
        rw [Option.toList_none, List.map_nil, List.append_nil]
        exact hcounted.idle
    | some packet =>
        obtain ⟨hrank, hbank, _, hlegal⟩ := hlegal packet rfl
        exact hcounted.issue hc ht hcycle.agrees hrank hbank hlegal
  refine ⟨hissued.bank, fun e he i hi j hj => ?_, hissued.spaced⟩
  obtain ⟨past, read, openRead, openWrite, precharge, activate⟩ := hissued.waits e he i hi j hj
  obtain ⟨hread, hwrite, hprecharge, hactive⟩ := hcycle.times i j
  refine ⟨past, hread ▸ read, fun hopen => ?_, fun hopen => ?_, hprecharge ▸ precharge,
    fun hlow => ?_⟩
  · have hsame := hactive hopen
    rw [hsame] at hopen ⊢
    exact openRead hopen
  · have hsame := hactive hopen
    rw [hsame] at hopen ⊢
    exact openWrite hopen
  · rw [hcycle.unused hlow]
    exact activate hlow

/-- In every run the commands on the command bus keep the times of the devices. -/
theorem commands_spaced (hc : c.Valid) (ht : c.Timely) (events : List MemorySystem.Event)
    (hevents : ∀ e ∈ events, e.Proper) :
    ∃ s, events.foldlM (MemorySystem.step c) (MemorySystem.init c) = .ok s ∧
      s.issued.Pairwise (Spaced c) := by
  obtain ⟨s, hok, h⟩ := run_invariant hc
    (I := fun s => Timed c s.currentClockCycle s.issued s.memoryController.bankStates)
    Timed.init (fun _ _ h => h) (fun _ _ h => h)
    (fun onWrite onRead s done a d s' hsafe h hcycle => by
      rw [hcycle.clock]
      obtain ⟨cq, popped, hcommands⟩ := hcycle.commands hc
      exact Timed.cycle hc ht h (fun i hi j hj => ⟨_, (hsafe.rank i hi).agrees j hj⟩) hcommands)
    hevents
  exact ⟨s, hok, h.spaced⟩

theorem commands_spaced_ddr2 :
    ∃ s, List.foldlM (MemorySystem.step .DDR2_micron_16M_8b_x8_sg3E)
        (MemorySystem.init .DDR2_micron_16M_8b_x8_sg3E)
        [.request ⟨.DATA_READ, 0x40⟩, .cycle [] [], .cycle [] []] = .ok s ∧
      s.issued.Pairwise (Spaced .DDR2_micron_16M_8b_x8_sg3E) :=
  commands_spaced SystemConfiguration.valid_ddr2 SystemConfiguration.timely_ddr2 _ (by decide)

end FeS2.DRAMSim
