import FeS2.DRAMSim.RankAgreement

/-!
The data of a write follow its command by the write latency. A write is only issued
when the data bus of the controller will be free then, whatever rank it goes to.
-/

namespace FeS2.DRAMSim
open CountdownLine MemoryController
variable {c : SystemConfiguration} {T now : Nat} {states : BankStates} {out : Option BusPacket}
  {left : Nat} {line : List (BusPacket × Nat)} {packet : BusPacket} {s : MemorySystem}

/-- Before cycle `T`, the line of write data and when the banks may be written next. -/
structure WritesFlow (c : SystemConfiguration) (T : Nat) (states : BankStates)
    (out : Option BusPacket) (left : Nat) (line : List (BusPacket × Nat)) : Prop where
  clear : Clear (c.BL / 2) (busyFor out left) line
  held : out.isSome → 0 < left
  limit : ∀ e ∈ line, e.2 ≤ c.WL
  short : busyFor out left ≤ c.BL / 2
  data : ∀ packet ∈ out.toList ++ line.map Prod.fst, packet.busPacketType = .DATA
  writes : ∀ i < c.numRanks, ∀ j < c.numBanks, (states i j).currentBankState = .RowActive →
    Before (c.BL / 2) (busyFor out left) line T ((states i j).nextWrite + 1 + c.WL)

theorem WritesFlow.init : WritesFlow c T states none left [] where
  clear := Clear.nil
  held h := nomatch h
  limit _ h := nomatch h
  short := Nat.zero_le _
  data _ h := nomatch h
  writes _ _ _ _ _ := Before.nil

/-- Other bank states do when they open no banks and let none be written earlier. -/
theorem WritesFlow.mono {states' : BankStates} (h : WritesFlow c T states out left line)
    (hstates : ∀ i < c.numRanks, ∀ j < c.numBanks,
      (states' i j).currentBankState = .RowActive →
        (states i j).currentBankState = .RowActive ∧
          (states i j).nextWrite ≤ (states' i j).nextWrite) :
    WritesFlow c T states' out left line := by
  refine ⟨h.clear, h.held, h.limit, h.short, h.data, fun i hi j hj hactive => ?_⟩
  obtain ⟨hactive, hle⟩ := hstates i hi j hj hactive
  exact (h.writes i hi j hj hactive).mono (by omega)

theorem WritesFlow.countdown (h : WritesFlow c T states out left line) :
    WritesFlow c T (fun i j => updateBankState c (states i j)) out left line := by
  refine h.mono fun i _ j _ hactive => ?_
  rw [(updateBankState_next (states i j)).2.1]
  refine ⟨?_, Nat.le_refl _⟩
  unfold updateBankState implicitChange at hactive
  grind

/-! The bus -/

theorem callback_eq (requests : List Transaction) (mc : MemoryController) :
    ∃ q : List Transaction, (∀ tr ∈ q, tr ∈ requests) ∧ MemorySystem.callback c requests mc =
      { mc with
        transactionQueue := mc.transactionQueue ++ q
        accepted := mc.accepted ++ q } := by
  induction requests generalizing mc with
  | nil => exact ⟨[], (fun _ h => nomatch h), by simp [MemorySystem.callback]⟩
  | cons tr requests ih =>
      obtain ⟨q, hq, heq⟩ := ih (addTransaction c tr mc).2
      have hcons : MemorySystem.callback c (tr :: requests) mc =
          MemorySystem.callback c requests (addTransaction c tr mc).2 := rfl
      rw [hcons, heq]
      unfold addTransaction
      split
      · refine ⟨tr :: q, ?_, by simp⟩
        intro tr' htr
        rcases List.mem_cons.mp htr with rfl | htr
        · exact List.mem_cons_self ..
        · exact List.mem_cons_of_mem _ (hq tr' htr)
      · exact ⟨q, fun tr' htr => List.mem_cons_of_mem _ (hq tr' htr), rfl⟩

theorem deliverData_none {onWrite : List Transaction}
    (h : s.memoryController.outgoingDataPacket = none) :
    MemorySystem.deliverData c onWrite s = .ok s := by
  simp only [MemorySystem.deliverData, h]

theorem deliverData_spec (onWrite : List Transaction) {mc : MemoryController}
    (hmc : s.memoryController = mc)
    (held : mc.outgoingDataPacket.isSome → 0 < mc.dataCyclesLeft)
    (hdata : ∀ packet ∈ mc.outgoingDataPacket, packet.busPacketType = .DATA) :
    ∃ done q out left, (∀ tr ∈ q, tr ∈ onWrite) ∧
      MemorySystem.deliverData c onWrite s = .ok { s with
        writesDone := s.writesDone ++ done.map BusPacket.physicalAddress
        memoryController := { mc with
          transactionQueue := mc.transactionQueue ++ q
          accepted := mc.accepted ++ q
          outgoingDataPacket := out
          dataCyclesLeft := left } } ∧
      busyFor out left = busyFor mc.outgoingDataPacket mc.dataCyclesLeft - 1 ∧
      (out.isSome → 0 < left) ∧ done ++ out.toList = mc.outgoingDataPacket.toList ∧
      (busyFor mc.outgoingDataPacket mc.dataCyclesLeft ≤ 1 → out = none) := by
  subst hmc
  cases hbus : s.memoryController.outgoingDataPacket with
  | none =>
      refine ⟨[], [], none, s.memoryController.dataCyclesLeft, (fun _ h => nomatch h), ?_, rfl,
        (fun h => nomatch h), rfl, fun _ => rfl⟩
      rw [deliverData_none hbus]
      simp only [List.map_nil, List.append_nil]
      rw [← hbus]
  | some packet =>
      unfold MemorySystem.deliverData
      rw [hbus] at held
      have hpos := held rfl
      by_cases hlast : s.memoryController.dataCyclesLeft - 1 = 0
      · obtain ⟨q, hq, hcallback⟩ := callback_eq (c := c) onWrite
          { s.memoryController with
            outgoingDataPacket := some packet
            dataCyclesLeft := s.memoryController.dataCyclesLeft - 1 }
        simp only at hcallback
        have hreceive : (s.ranks packet.rank).receiveFromBus c s.currentClockCycle packet =
            .ok (s.ranks packet.rank) := by
          rw [Rank.receiveFromBus, hdata packet hbus]
        refine ⟨[packet], q, none, s.memoryController.dataCyclesLeft - 1, hq, ?_, ?_,
          (fun h => nomatch h), rfl, fun _ => rfl⟩
        · simp only [hbus, decrement_of_pos hpos]
          rw [if_pos hlast, hreceive, hcallback]
          simp only [bind, Except.bind, pure, Except.pure, Function.update_eq_self]
          rfl
        · simp [busyFor]
          omega
      · refine ⟨[], [], some packet, s.memoryController.dataCyclesLeft - 1,
          (fun _ h => nomatch h), ?_, rfl, fun _ => Nat.pos_of_ne_zero hlast, rfl, ?_⟩
        · simp only [hbus, decrement_of_pos hpos, if_neg hlast, List.map_nil, List.append_nil]
        · simp [busyFor]
          omega

theorem sendWriteData_eq (hpos : ∀ e ∈ s.memoryController.writeData, 0 < e.2)
    (hfree : (tick s.memoryController.writeData).1.isSome →
      s.memoryController.outgoingDataPacket = none) :
    MemorySystem.sendWriteData c s = .ok { s with
      memoryController := { s.memoryController with
        outgoingDataPacket :=
          (tick s.memoryController.writeData).1.or s.memoryController.outgoingDataPacket
        dataCyclesLeft :=
          if (tick s.memoryController.writeData).1.isSome then c.BL / 2
          else s.memoryController.dataCyclesLeft
        writeData := (tick s.memoryController.writeData).2 } } := by
  unfold MemorySystem.sendWriteData
  unfold tick at hfree ⊢
  simp only [Rank.map_decrement hpos]
  generalize s.memoryController.writeData.map (fun e => (e.1, e.2 - 1)) = line at hfree ⊢
  rcases line with _ | ⟨⟨packet, _ | n⟩, rest⟩
  · rfl
  · simp only [hfree rfl]
    rfl
  · rfl

/-- The bus and the line of write data in cycle `T`. -/
theorem WritesFlow.cycle (hc : c.Valid) (onWrite : List Transaction) {mc : MemoryController}
    (hmc : s.memoryController = mc)
    (h : WritesFlow c T mc.bankStates mc.outgoingDataPacket mc.dataCyclesLeft mc.writeData) :
    ∃ s₁ done q out left, (∀ tr ∈ q, tr ∈ onWrite) ∧
      MemorySystem.deliverData c onWrite s = .ok s₁ ∧
      MemorySystem.sendWriteData c s₁ = .ok { s with
        writesDone := s.writesDone ++ done.map BusPacket.physicalAddress
        memoryController := { mc with
          transactionQueue := mc.transactionQueue ++ q
          accepted := mc.accepted ++ q
          outgoingDataPacket := out
          dataCyclesLeft := left
          writeData := (tick mc.writeData).2 } } ∧
      WritesFlow c (T + 1) mc.bankStates out left (tick mc.writeData).2 ∧
      (∀ e ∈ (tick mc.writeData).2, e.2 < c.WL) ∧
      done ++ (out.toList ++ (tick mc.writeData).2.map Prod.fst) =
        mc.outgoingDataPacket.toList ++ mc.writeData.map Prod.fst := by
  obtain ⟨done, q, out, left, hq, hdeliver, hbusy, hheld, hdone, hfree⟩ :=
    deliverData_spec onWrite hmc h.held
      fun packet hpacket => h.data packet (List.mem_append_left _ (Option.mem_toList.mpr hpacket))
  have hdue := sendWriteData_eq (c := c) (s := { s with
      writesDone := s.writesDone ++ done.map BusPacket.physicalAddress
      memoryController := { mc with
        transactionQueue := mc.transactionQueue ++ q
        accepted := mc.accepted ++ q
        outgoingDataPacket := out
        dataCyclesLeft := left } }) h.clear.pos fun hsome => by
    obtain ⟨packet, hpacket⟩ := Option.isSome_iff_exists.mp hsome
    exact hfree (h.clear.free_of_due hpacket)
  have hvalues := tick_values h.clear.pos
  have hbusyAfter : busyFor ((tick mc.writeData).1.or out)
      (if (tick mc.writeData).1.isSome then c.BL / 2 else left) =
        busyAfter (c.BL / 2) (busyFor mc.outgoingDataPacket mc.dataCyclesLeft) mc.writeData := by
    unfold busyAfter
    cases htick : (tick mc.writeData).1 with
    | none => exact hbusy
    | some packet => rfl
  have horder : done ++ (((tick mc.writeData).1.or out).toList ++
      (tick mc.writeData).2.map Prod.fst) =
        mc.outgoingDataPacket.toList ++ mc.writeData.map Prod.fst := by
    rw [← hdone, ← hvalues]
    cases htick : (tick mc.writeData).1 with
    | none => simp
    | some packet =>
        rw [hfree (h.clear.free_of_due htick)]
        simp
  refine ⟨_, done, q, _, _, hq, hdeliver, hdue, ⟨?_, ?_, ?_, ?_, ?_, ?_⟩, ?_, horder⟩
  · rw [hbusyAfter]
    exact h.clear.tick hc.burst
  · intro hsome
    cases htick : (tick mc.writeData).1 with
    | none =>
        rw [htick] at hsome
        exact hheld hsome
    | some packet => exact hc.burst
  · intro e he
    exact Nat.le_of_lt (h.limit _ (mem_tick h.clear.pos he))
  · rw [hbusyAfter]
    exact busyAfter_le h.short
  · intro packet hpacket
    exact h.data packet (horder ▸ List.mem_append_right _ hpacket)
  · intro i hi j hj hactive
    rw [hbusyAfter]
    exact (h.writes i hi j hj hactive).tick h.clear.pos
  · intro e he
    exact h.limit _ (mem_tick h.clear.pos he)

def isWrite (packet : BusPacket) : Prop :=
  packet.busPacketType = .WRITE ∨ packet.busPacketType = .WRITE_P

instance : Decidable (isWrite packet) := inferInstanceAs (Decidable (_ ∨ _))

/-- A write leaves room on the line behind it, and a command that opens a bank leaves
time for what is on the line. -/
theorem nextWrite_commandAfter (hc : c.Valid) (b : BankState) (i j : Nat)
    (hactive : (commandAfter c now packet i j b).currentBankState = .RowActive) :
    (isWrite packet → now + c.BL / 2 ≤ (commandAfter c now packet i j b).nextWrite) ∧
      (b.currentBankState = .RowActive ∧
          b.nextWrite ≤ (commandAfter c now packet i j b).nextWrite ∨
        now + c.BL / 2 ≤ (commandAfter c now packet i j b).nextWrite + 1) := by
  have hautopre := hc.autopre
  have hposted := hc.posted
  have hread : c.BL / 2 ≤ c.readToPreDelay := by
    unfold SystemConfiguration.readToPreDelay
    omega
  have hwrite : c.BL / 2 ≤ c.writeAutopreDelay := by
    unfold SystemConfiguration.writeAutopreDelay
    omega
  have hburst : c.BL / 2 ≤ c.burstDelay := Nat.le_max_right _ _
  revert hactive
  unfold commandAfter
  obtain ⟨type, address, column, row, rank, bank⟩ := packet
  cases type <;>
    simp only [isWrite, columnAfter, ownAfter, afterRead, afterWrite,
      MemoryController.afterColumn] <;> grind

theorem WritesFlow.issue (hc : c.Valid)
    (h : WritesFlow c (now + 1) states out left line) (hlimit : ∀ e ∈ line, e.2 < c.WL)
    (hrank : packet.rank < c.numRanks) (hlegal : Legal c now packet (states packet.rank)) :
    WritesFlow c (now + 1) (fun i j => commandAfter c now packet i j (states i j)) out left
      (if isWrite packet then line ++ [({ packet with busPacketType := .DATA }, c.WL)]
      else line) := by
  have hlatency := hc.latency
  have hWL : 0 < c.WL := by
    unfold SystemConfiguration.WL
    omega
  have hmore (i : Nat) (hi : i < c.numRanks) (j : Nat) (hj : j < c.numBanks)
      (hactive : (commandAfter c now packet i j (states i j)).currentBankState = .RowActive) :
      Before (c.BL / 2) (busyFor out left) line (now + 1)
        ((commandAfter c now packet i j (states i j)).nextWrite + 1 + c.WL) := by
    rcases (nextWrite_commandAfter hc _ i j hactive).2 with ⟨hbefore, hle⟩ | hle
    · exact (h.writes i hi j hj hbefore).mono (by omega)
    · refine Before.of_limit (n := c.WL - 1) (fun e he => ?_) h.short (by omega)
      have hlt := hlimit e he
      omega
  by_cases hwrite : isWrite packet
  · rw [if_pos hwrite]
    have hnext : packet.bank < c.numBanks ∧
        (states packet.rank packet.bank).currentBankState = .RowActive ∧
        (states packet.rank packet.bank).nextWrite ≤ now := by
      unfold isWrite at hwrite
      unfold Legal Issuable at hlegal
      grind
    have hroom := h.writes _ hrank _ hnext.1 hnext.2.1
    refine ⟨h.clear.push hroom hWL (by omega), h.held, ?_, h.short, ?_, ?_⟩
    · intro e he
      rcases List.mem_append.mp he with he | he
      · exact h.limit e he
      · rw [List.mem_singleton.mp he]
    · intro p hp
      rw [List.map_append, ← List.append_assoc] at hp
      rcases List.mem_append.mp hp with hp | hp
      · exact h.data p hp
      · rw [List.mem_singleton.mp hp]
    · intro i hi j hj hactive
      have hleave := (nextWrite_commandAfter hc _ i j hactive).1 hwrite
      exact (hmore i hi j hj hactive).push (Nat.le_refl _) (by omega)
  · rw [if_neg hwrite]
    exact ⟨h.clear, h.held, h.limit, h.short, h.data, hmore⟩

end FeS2.DRAMSim
