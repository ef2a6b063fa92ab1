import FeS2.DRAMSim.MemoryController

/-!
The controller and the ranks keep bank states of their own. A rank sees a command one
cycle after the controller has reckoned with it, and what the controller then takes a
bank to be bounds what the rank takes it to be, so the rank allows the command.
-/

namespace FeS2.DRAMSim

/-- What the loop of the simulator needs of its parameters. -/
structure SystemConfiguration.Valid (c : SystemConfiguration) : Prop where
  ranks : ∃ k < 32, c.numRanks = 2 ^ k
  banks : ∃ k < 32, c.numBanks = 2 ^ k
  command : c.tCMD = 1
  burst : 1 ≤ c.BL / 2
  latency : 2 ≤ c.RL
  precharge : 1 ≤ c.tRP
  refresh : 1 ≤ c.tRFC
  autopre : c.readToPreDelay ≤ c.readAutopreDelay
  posted : c.AL + c.BL / 2 ≤ c.tRCD + 1
  depth : c.cmdQueueDepth < 2 ^ 32

theorem SystemConfiguration.valid_ddr2 : DDR2_micron_16M_8b_x8_sg3E.Valid where
  ranks := ⟨1, by decide, rfl⟩
  banks := ⟨3, by decide, rfl⟩
  command := rfl
  burst := by decide
  latency := by decide
  precharge := by decide
  refresh := by decide
  autopre := by decide
  posted := by decide
  depth := by decide

namespace Rank
variable {c : SystemConfiguration} {now : Nat} {packet : BusPacket} {r : Rank}

/-- What a rank asks of its banks when it gets a command. -/
def Allowed (c : SystemConfiguration) (now : Nat) (packet : BusPacket)
    (banks : Nat → BankState) : Prop :=
  let b := banks packet.bank
  match packet.busPacketType with
  | .READ | .READ_P =>
      b.currentBankState = .RowActive ∧ b.nextRead ≤ now ∧ packet.row = b.openRowAddress
  | .WRITE | .WRITE_P =>
      b.currentBankState = .RowActive ∧ b.nextWrite ≤ now ∧ packet.row = b.openRowAddress
  | .ACTIVATE => b.currentBankState = .Idle ∧ b.nextActivate ≤ now
  | .PRECHARGE => b.currentBankState = .RowActive ∧ b.nextPrecharge ≤ now
  | .REFRESH => ∀ i < c.numBanks, (banks i).currentBankState = .Idle
  | .DATA => True

/-- What a command makes of the state of bank `i`. -/
def bankAfter (c : SystemConfiguration) (now : Nat) (packet : BusPacket) (i : Nat)
    (b : BankState) : BankState :=
  match packet.busPacketType with
  | .READ =>
      afterColumn now c.burstDelay c.readToWriteDelay
        (if i = packet.bank then
          { b with nextPrecharge := max b.nextPrecharge (now + c.readToPreDelay) }
        else b)
  | .READ_P =>
      afterColumn now c.burstDelay c.readToWriteDelay
        (if i = packet.bank then
          { b with
            currentBankState := .Idle
            nextActivate := max b.nextActivate (now + c.readAutopreDelay) }
        else b)
  | .WRITE =>
      afterColumn now c.writeToReadDelayB c.burstDelay
        (if i = packet.bank then
          { b with nextPrecharge := max b.nextPrecharge (now + c.writeToPreDelay) }
        else b)
  | .WRITE_P =>
      if i = packet.bank then
        afterColumn now c.writeToReadDelayB c.burstDelay
          { b with
            currentBankState := .Idle
            nextActivate := max b.nextActivate (now + c.writeToPreDelay) }
      else b
  | .ACTIVATE =>
      if i = packet.bank then
        { b with
          currentBankState := .RowActive
          nextActivate := now + c.tRC
          openRowAddress := packet.row
          nextWrite := now + (c.tRCD - c.AL)
          nextRead := now + (c.tRCD - c.AL)
          nextPrecharge := now + c.tRAS }
      else { b with nextActivate := max b.nextActivate (now + c.tRRD) }
  | .PRECHARGE =>
      if i = packet.bank then
        { b with
          currentBankState := .Idle
          nextActivate := max b.nextActivate (now + c.tRP) }
      else b
  | .REFRESH => { b with nextActivate := now + c.tRFC }
  | .DATA => b

def isRead (packet : BusPacket) : Bool :=
  packet.busPacketType == .READ || packet.busPacketType == .READ_P

/-- The rank after a command it allows. -/
def received (c : SystemConfiguration) (now : Nat) (packet : BusPacket) (r : Rank) : Rank :=
  { r with
    bankStates := fun i => bankAfter c now packet i (r.bankStates i)
    refreshWaiting := r.refreshWaiting && packet.busPacketType != .REFRESH
    readReturn :=
      if isRead packet then r.readReturn ++ [({ packet with busPacketType := .DATA }, c.RL)]
      else r.readReturn }

theorem not_bankRefuses {next row : Nat} {b : BankState}
    (h : b.currentBankState = .RowActive ∧ next ≤ now ∧ row = b.openRowAddress) :
    ¬ BankRefuses now next row b := by
  rintro (hopen | hnext | hrow)
  · exact hopen h.1
  · exact Nat.not_lt.mpr h.2.1 hnext
  · exact hrow h.2.2

theorem receiveFromBus_eq (h : Allowed c now packet r.bankStates) :
    receiveFromBus c now packet r = .ok (received c now packet r) := by
  obtain ⟨type, address, column, row, rank, bank⟩ := packet
  have hupdate (own : BankState) (i : Nat) : Function.update r.bankStates bank own i =
      if i = bank then own else r.bankStates i := Function.update_apply _ _ _ _
  cases type with
  | READ | READ_P | WRITE | WRITE_P =>
      simp only [receiveFromBus, receiveRead, receiveReadP, receiveWrite, receiveWriteP,
        if_neg (not_bankRefuses h)]
      refine congrArg Except.ok (Rank.ext (funext fun i => ?_) rfl ?_ rfl rfl rfl)
      · simp only [returnLater, received, bankAfter, hupdate]
        split
        · rename_i hi
          rw [hi]
        · rfl
      · exact (Bool.and_true _).symm
  | ACTIVATE | PRECHARGE =>
      have hok := not_or.mpr ⟨not_not.mpr h.1, Nat.not_lt.mpr h.2⟩
      simp only [receiveFromBus, receiveActivate, receivePrecharge, if_neg hok]
      refine congrArg Except.ok (Rank.ext (funext fun i => ?_) rfl ?_ rfl rfl rfl)
      · simp only [received, bankAfter, hupdate, ne_eq, ite_not]
        split
        · rename_i hi
          rw [hi]
        · rfl
      · exact (Bool.and_true _).symm
  | REFRESH =>
      have hok : ¬ ∃ i < c.numBanks, (r.bankStates i).currentBankState ≠ .Idle := by
        rintro ⟨i, hi, hbank⟩
        exact hbank (h i hi)
      simp only [receiveFromBus, receiveRefresh, if_neg hok]
      exact congrArg Except.ok (Rank.ext rfl rfl (Bool.and_false _).symm rfl rfl rfl)
  | DATA =>
      exact congrArg Except.ok (Rank.ext rfl rfl (Bool.and_true _).symm rfl rfl rfl)

end Rank

namespace MemoryController
variable {c : SystemConfiguration} {now T i j : Nat} {packet : BusPacket} {states : BankStates}
  {b b' k k' : BankState}

/-- What the loops after a column access make of a bank of rank `i`. -/
def columnAfter (c : SystemConfiguration) (now : Nat) (packet : BusPacket) (i : Nat)
    (b : BankState) : BankState :=
  match packet.busPacketType with
  | .READ | .READ_P => afterRead c now packet.rank (fun _ _ => b) i 0
  | .WRITE | .WRITE_P => afterWrite c now packet.rank (fun _ _ => b) i 0
  | _ => b

/-- What a command makes of its own bank, the loops left out. -/
def ownAfter (c : SystemConfiguration) (now : Nat) (packet : BusPacket) (b : BankState) :
    BankState :=
  match packet.busPacketType with
  | .READ =>
      { b with
        nextPrecharge := max (now + c.readToPreDelay) b.nextPrecharge
        lastCommand := .READ }
  | .READ_P =>
      { b with
        nextActivate := max (now + c.readAutopreDelay) b.nextActivate
        lastCommand := .READ_P
        stateChangeCountdown := c.readToPreDelay }
  | .WRITE =>
      { b with
        nextPrecharge := max (now + c.writeToPreDelay) b.nextPrecharge
        lastCommand := .WRITE }
  | .WRITE_P =>
      { b with
        nextActivate := max (now + c.writeAutopreDelay) b.nextActivate
        lastCommand := .WRITE_P
        stateChangeCountdown := c.writeToPreDelay }
  | .ACTIVATE =>
      { b with
        currentBankState := .RowActive
        lastCommand := .ACTIVATE
        openRowAddress := packet.row
        nextActivate := max (now + c.tRC) b.nextActivate
        nextPrecharge := max (now + c.tRAS) b.nextPrecharge
        nextRead := max (now + (c.tRCD - c.AL)) b.nextRead
        nextWrite := max (now + (c.tRCD - c.AL)) b.nextWrite }
  | .PRECHARGE =>
      { b with
        currentBankState := .Precharging
        lastCommand := .PRECHARGE
        stateChangeCountdown := c.tRP
        nextActivate := max (now + c.tRP) b.nextActivate }
  | .REFRESH | .DATA => b

/-- What a command makes of bank `j` of rank `i`. -/
def commandAfter (c : SystemConfiguration) (now : Nat) (packet : BusPacket) (i j : Nat)
    (b : BankState) : BankState :=
  if i = packet.rank then
    match packet.busPacketType with
    | .REFRESH =>
        { b with
          nextActivate := now + c.tRFC
          currentBankState := .Refreshing
          lastCommand := .REFRESH
          stateChangeCountdown := c.tRFC }
    | .READ_P | .WRITE_P =>
        if j = packet.bank then
          let b := columnAfter c now packet i (ownAfter c now packet b)
          { b with nextRead := b.nextActivate, nextWrite := b.nextActivate }
        else columnAfter c now packet i b
    | .ACTIVATE =>
        if j = packet.bank then ownAfter c now packet b
        else { b with nextActivate := max (now + c.tRRD) b.nextActivate }
    | _ => columnAfter c now packet i (if j = packet.bank then ownAfter c now packet b else b)
  else columnAfter c now packet i b

theorem setBank_apply {rank bank : Nat} : setBank rank bank b states i j =
    if i = rank then if j = bank then b else states rank j else states i j := by
  unfold setBank
  rw [Function.update_apply]
  split
  · rw [Function.update_apply]
  · rfl

theorem applyCommand_eq (h : packet.busPacketType ≠ .DATA) :
    applyCommand c now packet states =
      .ok fun i j => commandAfter c now packet i j (states i j) := by
  obtain ⟨type, address, column, row, rank, bank⟩ := packet
  cases type with
  | DATA => exact absurd rfl h
  | READ | READ_P | WRITE | WRITE_P | PRECHARGE =>
      refine congrArg Except.ok (funext fun i => funext fun j => ?_)
      simp only [commandAfter, columnAfter, ownAfter, closeColumn, afterRead, afterWrite,
        afterColumn, setBank_apply]
      grind
  | ACTIVATE | REFRESH =>
      refine congrArg Except.ok (funext fun i => funext fun j => ?_)
      simp only [commandAfter, columnAfter, ownAfter, Function.update_apply]
      by_cases hi : i = rank
      · subst hi
        grind
      · simp only [if_neg hi]

/-- The controller's state `b` of a bank and the state `k` that its rank gives it when
what is on the command bus has arrived, before the controller's countdown of cycle `T`. -/
structure Agrees (c : SystemConfiguration) (T : Nat) (b k : BankState) : Prop where
  activate : k.nextActivate ≤ b.nextActivate + 1
  idle : b.currentBankState = .Idle → b.stateChangeCountdown = 0
  precharging : b.currentBankState = .Precharging →
    b.lastCommand = .PRECHARGE ∧ 0 < b.stateChangeCountdown
  refreshing : b.currentBankState = .Refreshing →
    b.lastCommand = .REFRESH ∧ 0 < b.stateChangeCountdown ∧
      T + b.stateChangeCountdown ≤ b.nextActivate + 1
  closing : b.currentBankState = .RowActive → 0 < b.stateChangeCountdown →
    (b.lastCommand = .READ_P ∨ b.lastCommand = .WRITE_P) ∧ c.rowBufferPolicy = .ClosePage ∧
      T + b.stateChangeCountdown ≤ b.nextRead + 1 ∧
      T + b.stateChangeCountdown ≤ b.nextWrite + 1
  powerDown : b.currentBankState = .PowerDown → b.stateChangeCountdown = 0 ∧
    k.currentBankState = .PowerDown ∧ k.nextPowerUp = b.nextPowerUp
  active : b.currentBankState = .RowActive → b.stateChangeCountdown = 0 →
    k.currentBankState = .RowActive ∧ k.openRowAddress = b.openRowAddress ∧
      k.nextRead ≤ b.nextRead + 1 ∧ k.nextWrite ≤ b.nextWrite + 1 ∧
      k.nextPrecharge ≤ b.nextPrecharge + 1
  closed : b.currentBankState ≠ .PowerDown →
    (b.currentBankState = .RowActive → 0 < b.stateChangeCountdown) →
    k.currentBankState = .Idle

theorem Agrees.init : Agrees c T {} {} := by
  constructor <;> simp

/-- The countdown of a cycle. -/
theorem Agrees.update (hc : c.Valid) (h : Agrees c T b k) :
    Agrees c (T + 1) (updateBankState c b) k := by
  have hprecharge := hc.precharge
  obtain ⟨hactivate, hidle, hprecharging, hrefreshing, hclosing, hpower, hactive, hclosed⟩ := h
  unfold updateBankState implicitChange
  constructor <;> grind

/-- What makes the controller issue a command other than a refresh. -/
def Issuable (c : SystemConfiguration) (now : Nat) (packet : BusPacket) (b : BankState) : Prop :=
  match packet.busPacketType with
  | .READ | .READ_P =>
      b.currentBankState = .RowActive ∧ b.nextRead ≤ now ∧ packet.row = b.openRowAddress
  | .WRITE | .WRITE_P =>
      b.currentBankState = .RowActive ∧ b.nextWrite ≤ now ∧ packet.row = b.openRowAddress
  | .ACTIVATE =>
      (b.currentBankState = .Idle ∨ b.currentBankState = .Refreshing) ∧ b.nextActivate ≤ now
  | .PRECHARGE =>
      b.currentBankState = .RowActive ∧ b.nextPrecharge ≤ now ∧ c.rowBufferPolicy = .OpenPage
  | .REFRESH | .DATA => False

/-- The accesses that close their row are those of the closed-page policy. -/
def ByPolicy (c : SystemConfiguration) (packet : BusPacket) : Prop :=
  packet.busPacketType = .READ_P ∨ packet.busPacketType = .WRITE_P →
    c.rowBufferPolicy = .ClosePage

theorem Agrees.other_rank (h : Agrees c T b k) (hi : i ≠ packet.rank) :
    Agrees c T (commandAfter c now packet i j b) k := by
  rw [commandAfter, if_neg hi]
  obtain ⟨hactivate, hidle, hprecharging, hrefreshing, hclosing, hpower, hactive, hclosed⟩ := h
  unfold columnAfter afterRead afterWrite afterColumn
  constructor <;> grind

theorem Agrees.other_bank (h : Agrees c T b k) (hrefresh : packet.busPacketType ≠ .REFRESH)
    (hj : j ≠ packet.bank) :
    Agrees c T (commandAfter c now packet packet.rank j b)
      (Rank.bankAfter c (now + 1) packet j k) := by
  rw [commandAfter, if_pos rfl]
  obtain ⟨type, address, column, row, rank, bank⟩ := packet
  obtain ⟨hactivate, hidle, hprecharging, hrefreshing, hclosing, hpower, hactive, hclosed⟩ := h
  cases type with
  | REFRESH => exact absurd rfl hrefresh
  | READ | READ_P | WRITE | WRITE_P | ACTIVATE | PRECHARGE | DATA =>
      simp only [columnAfter, afterRead, afterWrite, afterColumn, Rank.bankAfter,
        Rank.afterColumn, if_neg hj]
      constructor <;> grind

theorem Agrees.own_bank (hc : c.Valid) (h : Agrees c (now + 1) b k)
    (hpolicy : ByPolicy c packet) (hb : Issuable c now packet b) :
    Agrees c (now + 1) (commandAfter c now packet packet.rank packet.bank b)
      (Rank.bankAfter c (now + 1) packet packet.bank k) := by
  rw [commandAfter, if_pos rfl]
  obtain ⟨type, address, column, row, rank, bank⟩ := packet
  have hautopre := hc.autopre
  have hburst := hc.burst
  have hprecharge := hc.precharge
  obtain ⟨hactivate, hidle, hprecharging, hrefreshing, hclosing, hpower, hactive, hclosed⟩ := h
  cases type with
  | REFRESH | DATA => exact absurd hb id
  | READ | WRITE | ACTIVATE | PRECHARGE =>
      simp only [Issuable] at hb
      simp only [columnAfter, ownAfter, afterRead, afterWrite, afterColumn, Rank.bankAfter,
        Rank.afterColumn, if_true]
      constructor <;> grind
  | READ_P | WRITE_P =>
      simp only [Issuable] at hb
      have hclose := hpolicy (by simp)
      have hread : 0 < c.readToPreDelay := by
        unfold SystemConfiguration.readToPreDelay
        omega
      have hwrite : 0 < c.writeToPreDelay ∧ c.writeToPreDelay ≤ c.writeAutopreDelay := by
        unfold SystemConfiguration.writeToPreDelay SystemConfiguration.writeAutopreDelay
        omega
      simp only [columnAfter, ownAfter, afterRead, afterWrite, afterColumn, Rank.bankAfter,
        Rank.afterColumn, if_true]
      constructor <;> grind

theorem Agrees.refresh (hc : c.Valid) (h : Agrees c (now + 1) b k)
    (hrefresh : packet.busPacketType = .REFRESH) (hopen : b.currentBankState ≠ .RowActive)
    (hpowered : b.currentBankState ≠ .PowerDown) :
    Agrees c (now + 1) (commandAfter c now packet packet.rank j b)
      (Rank.bankAfter c (now + 1) packet j k) := by
  have hpos := hc.refresh
  rw [commandAfter, if_pos rfl, hrefresh, Rank.bankAfter, hrefresh]
  obtain ⟨hactivate, hidle, hprecharging, hrefreshing, hclosing, hpower, hactive, hclosed⟩ := h
  constructor <;> grind

/-- The rank allows what the controller issues. -/
theorem Agrees.allowed {banks : Nat → BankState} (h : Agrees c (now + 1) b (banks packet.bank))
    (hb : Issuable c now packet b) : Rank.Allowed c (now + 1) packet banks := by
  obtain ⟨type, address, column, row, rank, bank⟩ := packet
  obtain ⟨hactivate, hidle, hprecharging, hrefreshing, hclosing, hpower, hactive, hclosed⟩ := h
  simp only [Rank.Allowed, Issuable] at hb ⊢
  cases type <;> grind

end MemoryController

end FeS2.DRAMSim
