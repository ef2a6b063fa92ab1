import FeS2.DRAMSim.BankAgreement
import FeS2.DRAMSim.DataBus

/-!
What the controller knows of a rank, with the command on its way there taken as
arrived: the states of its banks, its power state, and when its data bus is free.
-/

namespace FeS2.DRAMSim
open CountdownLine MemoryController
variable {c : SystemConfiguration} {T now i j : Nat} {command : Option BusPacket}
  {packet : BusPacket} {banks : Nat → BankState} {down : Bool} {r : Rank}

namespace Rank

/-- The banks of rank `i` once the command on the command bus has arrived in cycle `T`. -/
def banksAfter (c : SystemConfiguration) (T : Nat) (command : Option BusPacket) (i : Nat)
    (r : Rank) : Nat → BankState :=
  match command with
  | none => r.bankStates
  | some packet =>
      if packet.rank = i then fun j => bankAfter c T packet j (r.bankStates j)
      else r.bankStates

/-- The reads of rank `i`, with the one on the command bus, which comes a cycle later. -/
def lineAfter (c : SystemConfiguration) (command : Option BusPacket) (i : Nat) (r : Rank) :
    List (BusPacket × Nat) :=
  match command with
  | none => r.readReturn
  | some packet =>
      if packet.rank = i ∧ isRead packet then
        r.readReturn ++ [({ packet with busPacketType := .DATA }, c.RL + 1)]
      else r.readReturn

/-- The rank in cycle `T`, after the command for it has arrived. -/
def deliver (c : SystemConfiguration) (T : Nat) (command : Option BusPacket) (i : Nat)
    (r : Rank) : Rank :=
  match command with
  | none => r
  | some packet => if packet.rank = i then received c T packet r else r

end Rank

open Rank

/-- Before cycle `T`, what the controller knows of rank `i`. -/
structure RankAgrees (c : SystemConfiguration) (T : Nat) (command : Option BusPacket) (i : Nat)
    (banks : Nat → BankState) (down : Bool) (r : Rank) : Prop where
  agrees : ∀ j < c.numBanks, Agrees c T (banks j) (banksAfter c T command i r j)
  clear : Clear (c.BL / 2) r.busy (lineAfter c command i r)
  held : r.outgoingDataPacket.isSome → 0 < r.dataCyclesLeft
  limit : ∀ e ∈ lineAfter c command i r, e.2 ≤ c.RL + 1
  short : r.busy ≤ c.BL / 2
  data : ∀ packet ∈ r.reads, packet.busPacketType = .DATA
  reads : ∀ j < c.numBanks,
    Before (c.BL / 2) r.busy (lineAfter c command i r) T ((banks j).nextRead + 2 + c.RL)
  power : r.isPowerDown = down
  poweredDown : down = true → ∀ j < c.numBanks, (banks j).currentBankState = .PowerDown ∧
    (banks j).nextPowerUp = (banks 0).nextPowerUp
  poweredUp : down = false → ∀ j < c.numBanks, (banks j).currentBankState ≠ .PowerDown

theorem RankAgrees.init : RankAgrees c T none i (fun _ => {}) false {} where
  agrees _ _ := Agrees.init
  clear := Clear.nil
  held h := nomatch h
  limit _ h := nomatch h
  short := Nat.zero_le _
  data _ h := nomatch h
  reads _ _ := Before.nil
  power := rfl
  poweredDown h := nomatch h
  poweredUp _ _ _ h := nomatch h

theorem RankAgrees.refreshWaiting (h : RankAgrees c T command i banks down r) (w : Bool) :
    RankAgrees c T command i banks down { r with refreshWaiting := w } :=
  ⟨h.agrees, h.clear, h.held, h.limit, h.short, h.data, h.reads, h.power, h.poweredDown,
    h.poweredUp⟩

/-! A cycle, up to the arrival of the command -/

theorem RankAgrees.flowing (h : RankAgrees c T command i banks down r) : r.Flowing c := by
  refine ⟨?_, h.held, h.data⟩
  have hclear := h.clear
  unfold lineAfter at hclear
  split at hclear
  · exact hclear
  · split at hclear
    · exact hclear.of_append
    · exact hclear

theorem update_bankStates : (r.update c).2.bankStates = r.bankStates := by
  unfold Rank.update startData finishData
  simp only
  split <;> split <;> (try split) <;> rfl

theorem update_isPowerDown : (r.update c).2.isPowerDown = r.isPowerDown := by
  unfold Rank.update startData finishData
  simp only
  split <;> split <;> (try split) <;> rfl

theorem updateBankState_next (b : BankState) :
    (updateBankState c b).nextRead = b.nextRead ∧ (updateBankState c b).nextWrite = b.nextWrite ∧
      (updateBankState c b).nextActivate = b.nextActivate ∧
      (updateBankState c b).nextPrecharge = b.nextPrecharge ∧
      (updateBankState c b).nextPowerUp = b.nextPowerUp := by
  unfold updateBankState implicitChange
  grind

theorem banksAfter_eq : (deliver c T command i r).bankStates = banksAfter c T command i r := by
  unfold deliver banksAfter
  split
  · rfl
  · split <;> rfl

/-- The command that has arrived adds its read to the line, and else leaves all but the
banks alone. -/
theorem deliver_spec (hc : c.Valid) (hpos : ∀ e ∈ r.readReturn, 0 < e.2) (r' : Rank)
    (hline : r'.readReturn = (tick r.readReturn).2) :
    (deliver c T command i r').readReturn = (tick (lineAfter c command i r)).2 ∧
      (tick (lineAfter c command i r)).1 = (tick r.readReturn).1 := by
  have hRL : 0 < c.RL := Nat.lt_of_lt_of_le (by decide) hc.latency
  unfold deliver lineAfter
  split
  · exact ⟨hline, rfl⟩
  · rename_i packet
    by_cases hi : packet.rank = i
    · by_cases hread : isRead packet
      · rw [if_pos hi, if_pos ⟨hi, hread⟩, tick_append hpos hRL, ← hline]
        simp only [received, if_pos hread, and_self]
      · rw [if_pos hi, if_neg (fun h => hread h.2), ← hline]
        simp only [received, if_neg hread, and_self]
    · rw [if_neg hi, if_neg (fun h => hi h.1)]
      exact ⟨hline, rfl⟩

theorem deliver_rest : (deliver c T command i r).outgoingDataPacket = r.outgoingDataPacket ∧
    (deliver c T command i r).dataCyclesLeft = r.dataCyclesLeft ∧
    (deliver c T command i r).isPowerDown = r.isPowerDown := by
  unfold deliver
  split
  · exact ⟨rfl, rfl, rfl⟩
  · split <;> exact ⟨rfl, rfl, rfl⟩

theorem deliver_data (h : ∀ packet ∈ r.reads, packet.busPacketType = .DATA) :
    ∀ packet ∈ (deliver c T command i r).reads, packet.busPacketType = .DATA := by
  unfold deliver
  split
  · exact h
  · split
    · intro packet hpacket
      simp only [reads, received] at hpacket h
      split at hpacket
      · simp only [List.map_append, List.map_cons, List.map_nil, ← List.append_assoc] at hpacket
        rcases List.mem_append.mp hpacket with hpacket | hpacket
        · exact h packet hpacket
        · rw [List.mem_singleton.mp hpacket]
      · exact h packet hpacket
    · exact h

theorem RankAgrees.update (hc : c.Valid) (h : RankAgrees c T command i banks down r) :
    RankAgrees c (T + 1) none i (fun j => updateBankState c (banks j)) down
      (deliver c T command i (r.update c).2) := by
  obtain ⟨hflowing, hreads, hbusy, hline⟩ := h.flowing.update hc.burst
  obtain ⟨hline, hdue⟩ := @deliver_spec c T i command r hc h.flowing.clear.pos _ hline
  obtain ⟨hout, hleft, hpower⟩ := @deliver_rest c T i command (r.update c).2
  have hbusy : (deliver c T command i (r.update c).2).busy =
      busyAfter (c.BL / 2) r.busy (lineAfter c command i r) := by
    rw [busy, hout, hleft, busyAfter, hdue]
    exact hbusy
  have hbanks : banksAfter c (T + 1) none i (deliver c T command i (r.update c).2) =
      banksAfter c T command i r := by
    change (deliver c T command i (r.update c).2).bankStates = _
    rw [banksAfter_eq]
    unfold banksAfter
    rw [update_bankStates]
  refine ⟨?_, ?_, ?_, ?_, ?_, deliver_data hflowing.data, ?_, ?_, ?_, ?_⟩
  · intro j hj
    rw [hbanks]
    exact (h.agrees j hj).update hc
  · rw [hbusy]
    change Clear _ _ (deliver c T command i (r.update c).2).readReturn
    rw [hline]
    exact h.clear.tick hc.burst
  · rw [hout, hleft]
    exact hflowing.held
  · change ∀ e ∈ (deliver c T command i (r.update c).2).readReturn, _
    rw [hline]
    intro e he
    have hle := h.limit _ (mem_tick h.clear.pos he)
    exact Nat.le_of_lt hle
  · rw [hbusy]
    exact busyAfter_le h.short
  · intro j hj
    rw [hbusy, (updateBankState_next (banks j)).1]
    change Before _ _ (deliver c T command i (r.update c).2).readReturn _ _
    rw [hline]
    exact (h.reads j hj).tick h.clear.pos
  · rw [hpower, update_isPowerDown]
    exact h.power
  · intro hdown j hj
    obtain ⟨hstate, hnext⟩ := h.poweredDown hdown j hj
    have hzero := (h.agrees j hj).powerDown hstate
    have hsame : updateBankState c (banks j) = banks j := by
      rw [updateBankState, hzero.1]
      rfl
    rw [hsame, (updateBankState_next (banks 0)).2.2.2.2]
    exact ⟨hstate, hnext⟩
  · intro hdown j hj
    have hstate := h.poweredUp hdown j hj
    unfold updateBankState implicitChange
    grind

/-! A command on its way -/

theorem commandAfter_other_rank (now j : Nat) (hi : i ≠ packet.rank) (b : BankState) :
    b.nextRead ≤ (commandAfter c now packet i j b).nextRead ∧
      (commandAfter c now packet i j b).currentBankState = b.currentBankState ∧
      (commandAfter c now packet i j b).nextPowerUp = b.nextPowerUp := by
  rw [commandAfter, if_neg hi]
  unfold columnAfter afterRead afterWrite MemoryController.afterColumn
  grind

theorem RankAgrees.issue_other (h : RankAgrees c T none i banks down r) (hi : i ≠ packet.rank) :
    RankAgrees c T (some packet) i (fun j => commandAfter c now packet i j (banks j)) down r := by
  have hline : lineAfter c (some packet) i r = lineAfter c none i r :=
    if_neg fun h => hi h.1.symm
  have hbanks : banksAfter c T (some packet) i r = banksAfter c T none i r :=
    if_neg fun h => hi h.symm
  refine ⟨?_, hline ▸ h.clear, h.held, hline ▸ h.limit, h.short, h.data, ?_, h.power, ?_, ?_⟩
  · intro j hj
    rw [hbanks]
    exact (h.agrees j hj).other_rank hi
  · intro j hj
    rw [hline]
    have hread := (commandAfter_other_rank (c := c) now j hi (banks j)).1
    exact (h.reads j hj).mono (by omega)
  · intro hdown j hj
    obtain ⟨_, hstate, hnext⟩ := commandAfter_other_rank (c := c) now j hi (banks j)
    obtain ⟨_, _, hzero⟩ := commandAfter_other_rank (c := c) now 0 hi (banks 0)
    rw [hstate, hnext, hzero]
    exact h.poweredDown hdown j hj
  · intro hdown j hj
    obtain ⟨_, hstate, _⟩ := commandAfter_other_rank (c := c) now j hi (banks j)
    rw [hstate]
    exact h.poweredUp hdown j hj

/-- What the controller may send to a rank. -/
def Legal (c : SystemConfiguration) (now : Nat) (packet : BusPacket) (banks : Nat → BankState) :
    Prop :=
  if packet.busPacketType = .REFRESH then
    ∀ j < c.numBanks, (banks j).currentBankState ≠ .RowActive ∧
      (banks j).currentBankState ≠ .PowerDown ∧ (banks j).nextActivate ≤ now
  else
    packet.bank < c.numBanks ∧ ByPolicy c packet ∧ Issuable c now packet (banks packet.bank)

/-- A read leaves room on the line behind it, and no command takes room away. -/
theorem nextRead_commandAfter (hc : c.Valid) (now : Nat) (packet : BusPacket) (b : BankState)
    (j : Nat) :
    (isRead packet → now + c.BL / 2 ≤ (commandAfter c now packet packet.rank j b).nextRead) ∧
      (b.nextRead ≤ (commandAfter c now packet packet.rank j b).nextRead ∨
        now + c.BL / 2 ≤ (commandAfter c now packet packet.rank j b).nextRead) := by
  have hautopre := hc.autopre
  have hread : c.BL / 2 ≤ c.readToPreDelay := by
    unfold SystemConfiguration.readToPreDelay
    omega
  have hwrite : c.BL / 2 ≤ c.writeAutopreDelay := by
    unfold SystemConfiguration.writeAutopreDelay
    omega
  have hburst : c.BL / 2 ≤ c.burstDelay := Nat.le_max_right _ _
  rw [commandAfter, if_pos rfl]
  obtain ⟨type, address, column, row, rank, bank⟩ := packet
  cases type <;>
    simp only [isRead, columnAfter, ownAfter, afterRead, afterWrite,
      MemoryController.afterColumn] <;> grind

theorem Legal.not_powerDown (hc : 0 < c.numBanks) (h : Legal c now packet banks) :
    ∃ j < c.numBanks, (banks j).currentBankState ≠ .PowerDown := by
  unfold Legal at h
  split at h
  · exact ⟨0, hc, (h 0 hc).2.1⟩
  · refine ⟨packet.bank, h.1, ?_⟩
    have hissuable := h.2.2
    unfold Issuable at hissuable
    grind

theorem commandAfter_powered (b : BankState) (h : b.currentBankState ≠ .PowerDown) :
    (commandAfter c now packet i j b).currentBankState ≠ .PowerDown := by
  unfold commandAfter columnAfter ownAfter afterRead afterWrite MemoryController.afterColumn
  grind

/-- A command leaves its rank something to do. -/
theorem Legal.busy (hc : 0 < c.numBanks) (h : Legal c now packet banks) :
    ∃ j < c.numBanks,
      (commandAfter c now packet packet.rank j (banks j)).currentBankState ≠ .Idle ∧
        (commandAfter c now packet packet.rank j (banks j)).currentBankState ≠ .PowerDown := by
  unfold Legal at h
  split at h
  · rename_i hrefresh
    refine ⟨0, hc, ?_⟩
    simp only [commandAfter, if_true, hrefresh]
    exact ⟨by decide, by decide⟩
  · obtain ⟨hbank, _, hissuable⟩ := h
    refine ⟨packet.bank, hbank, ?_⟩
    unfold Issuable at hissuable
    unfold commandAfter columnAfter ownAfter afterRead afterWrite MemoryController.afterColumn
    grind

/-- The rank allows what the controller sends, and they agree again when it is there. -/
theorem RankAgrees.issue_own (hc : c.Valid) (hbanks : 0 < c.numBanks)
    (h : RankAgrees c (now + 1) none packet.rank banks down r) (hlegal : Legal c now packet banks) :
    Allowed c (now + 1) packet r.bankStates ∧
      RankAgrees c (now + 1) (some packet) packet.rank
        (fun j => commandAfter c now packet packet.rank j (banks j)) down r := by
  have hdown : down = false := by
    rw [← Bool.not_eq_true]
    intro hdown
    obtain ⟨j, hj, hpower⟩ := hlegal.not_powerDown hbanks
    exact hpower (h.poweredDown hdown j hj).1
  have hagrees : ∀ j < c.numBanks, Agrees c (now + 1)
      (commandAfter c now packet packet.rank j (banks j))
      (bankAfter c (now + 1) packet j (r.bankStates j)) := by
    intro j hj
    unfold Legal at hlegal
    split at hlegal
    · rename_i hrefresh
      obtain ⟨hopen, hpower, _⟩ := hlegal j hj
      exact (h.agrees j hj).refresh hc hrefresh hopen hpower
    · rename_i hrefresh
      by_cases hbank : j = packet.bank
      · subst hbank
        exact (h.agrees _ hj).own_bank hc hlegal.2.1 hlegal.2.2
      · exact (h.agrees j hj).other_bank hrefresh hbank
  have hallowed : Allowed c (now + 1) packet r.bankStates := by
    unfold Legal at hlegal
    split at hlegal
    · rename_i hrefresh
      simp only [Allowed, hrefresh]
      intro j hj
      obtain ⟨hopen, hpower, _⟩ := hlegal j hj
      exact (h.agrees j hj).closed hpower fun hactive => absurd hactive hopen
    · exact (h.agrees _ hlegal.1).allowed hlegal.2.2
  have hbanksAfter : banksAfter c (now + 1) (some packet) packet.rank r =
      fun j => bankAfter c (now + 1) packet j (r.bankStates j) := if_pos rfl
  have hmore (j : Nat) (hj : j < c.numBanks) :
      Before (c.BL / 2) r.busy r.readReturn (now + 1)
        ((commandAfter c now packet packet.rank j (banks j)).nextRead + 2 + c.RL) := by
    rcases (nextRead_commandAfter hc now packet (banks j) j).2 with hle | hle
    · exact (h.reads j hj).mono (by omega)
    · exact Before.of_limit h.limit h.short (by omega)
  refine ⟨hallowed, ?_⟩
  by_cases hread : isRead packet
  · have hline : lineAfter c (some packet) packet.rank r =
        r.readReturn ++ [({ packet with busPacketType := .DATA }, c.RL + 1)] :=
      if_pos ⟨rfl, hread⟩
    have hroom (j : Nat) := (nextRead_commandAfter hc now packet (banks j) j).1 hread
    have hnext : packet.bank < c.numBanks ∧ (banks packet.bank).nextRead ≤ now := by
      unfold Legal at hlegal
      unfold isRead at hread
      unfold Issuable at hlegal
      grind
    refine ⟨fun j hj => hbanksAfter ▸ hagrees j hj, ?_, h.held, ?_, h.short, h.data, ?_, h.power,
      fun h => absurd hdown (by rw [h]; decide), ?_⟩
    · rw [hline]
      exact h.clear.push (h.reads _ hnext.1) (Nat.succ_pos _) (by omega)
    · rw [hline]
      intro e he
      rcases List.mem_append.mp he with he | he
      · exact h.limit e he
      · rw [List.mem_singleton.mp he]
    · intro j hj
      rw [hline]
      have hroom := hroom j
      exact (hmore j hj).push (Nat.le_refl _) (by omega)
    · intro hdown j hj
      exact commandAfter_powered _ (h.poweredUp hdown j hj)
  · have hline : lineAfter c (some packet) packet.rank r = r.readReturn :=
      if_neg fun h => hread h.2
    refine ⟨fun j hj => hbanksAfter ▸ hagrees j hj, hline ▸ h.clear, h.held, hline ▸ h.limit,
      h.short, h.data, ?_, h.power, fun h => absurd hdown (by rw [h]; decide), ?_⟩
    · intro j hj
      rw [hline]
      exact hmore j hj
    · intro hdown j hj
      exact commandAfter_powered _ (h.poweredUp hdown j hj)

/-! Power -/

theorem RankAgrees.elsewhere (hother : ∀ packet ∈ command, packet.rank ≠ i) :
    RankAgrees c T command i banks down r ↔ RankAgrees c T none i banks down r := by
  cases command with
  | none => exact Iff.rfl
  | some packet =>
      have hi := hother packet rfl
      have hbanks : banksAfter c T (some packet) i r = banksAfter c T none i r := if_neg hi
      have hline : lineAfter c (some packet) i r = lineAfter c none i r := if_neg fun h => hi h.1
      constructor
      · intro h
        exact ⟨hbanks ▸ h.agrees, hline ▸ h.clear, h.held, hline ▸ h.limit, h.short, h.data,
          hline ▸ h.reads, h.power, h.poweredDown, h.poweredUp⟩
      · intro h
        exact ⟨hbanks ▸ h.agrees, hline ▸ h.clear, h.held, hline ▸ h.limit, h.short, h.data,
          hline ▸ h.reads, h.power, h.poweredDown, h.poweredUp⟩

theorem RankAgrees.powerDown (h : RankAgrees c T none i banks down r) (now : Nat)
    (hidle : ∀ j < c.numBanks, (banks j).currentBankState = .Idle) :
    ∃ r', r.powerDown c now = .ok r' ∧ r'.reads = r.reads ∧
      RankAgrees c T none i
        (fun j => { banks j with currentBankState := .PowerDown, nextPowerUp := now + c.tCKE })
        true r' := by
  have hall : ¬ ∃ j < c.numBanks, (r.bankStates j).currentBankState ≠ .Idle := by
    rintro ⟨j, hj, hbank⟩
    refine hbank ((h.agrees j hj).closed ?_ ?_)
    · rw [hidle j hj]
      decide
    · rw [hidle j hj]
      exact fun h => nomatch h
  refine ⟨_, if_neg hall, rfl, ⟨fun j hj => ?_, h.clear, h.held, h.limit, h.short, h.data, h.reads,
    rfl, fun _ _ _ => ⟨rfl, rfl⟩, (fun h => nomatch h)⟩⟩
  have hagrees := h.agrees j hj
  have hzero := hagrees.idle (hidle j hj)
  have hactivate := hagrees.activate
  constructor <;> simp [hzero, banksAfter]
  exact hactivate

theorem RankAgrees.powerUp (h : RankAgrees c T none i banks true r)
    (hnext : (banks 0).nextPowerUp ≤ now) :
    ∃ r', r.powerUp c now = .ok r' ∧ r'.reads = r.reads ∧
      RankAgrees c T none i
        (fun j => { banks j with currentBankState := .Idle, nextActivate := now + c.tXP })
        false r' := by
  have hpower : ¬ r.isPowerDown = false := by
    rw [h.power]
    decide
  have hdown (j : Nat) (hj : j < c.numBanks) :=
    (h.agrees j hj).powerDown (h.poweredDown rfl j hj).1
  have hall : ¬ ∃ j < c.numBanks, now < (r.bankStates j).nextPowerUp := by
    rintro ⟨j, hj, hlt⟩
    have hsame := (h.poweredDown rfl j hj).2
    have hbank : (r.bankStates j).nextPowerUp = (banks j).nextPowerUp := (hdown j hj).2.2
    omega
  refine ⟨_, (if_neg hpower).trans (if_neg hall), rfl, ⟨fun j hj => ?_, h.clear, h.held,
    h.limit, h.short, h.data, h.reads, rfl, (fun h => nomatch h),
    (fun _ _ _ h => nomatch h)⟩⟩
  have hzero := (hdown j hj).1
  constructor <;> simp [hzero, banksAfter]

end FeS2.DRAMSim
