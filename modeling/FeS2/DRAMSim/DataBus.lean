import FeS2.Library.CountdownLine
import FeS2.DRAMSim.MemoryController

/-!
The data of reads and writes wait on lines of countdowns for their bus. On a clear line
no data find the bus taken, so none are lost and none collide.
-/

namespace FeS2.DRAMSim
open CountdownLine
variable {c : SystemConfiguration} {r : Rank}

/-- How long a data bus is held. -/
def busyFor (outgoingDataPacket : Option BusPacket) (dataCyclesLeft : Nat) : Nat :=
  match outgoingDataPacket with
  | none => 0
  | some _ => dataCyclesLeft

namespace Rank

def busy (r : Rank) : Nat := busyFor r.outgoingDataPacket r.dataCyclesLeft

/-- The reads of the rank whose data the controller has not got yet, oldest first. -/
def reads (r : Rank) : List BusPacket :=
  r.outgoingDataPacket.toList ++ r.readReturn.map Prod.fst

/-- The rank's data bus is held by the packet on it, and the line before it is clear. -/
structure Flowing (c : SystemConfiguration) (r : Rank) : Prop where
  clear : Clear (c.BL / 2) r.busy r.readReturn
  held : r.outgoingDataPacket.isSome → 0 < r.dataCyclesLeft
  data : ∀ packet ∈ r.reads, packet.busPacketType = .DATA

theorem map_decrement {line : List (BusPacket × Nat)} (h : ∀ e ∈ line, 0 < e.2) :
    line.map (fun e => (e.1, decrement e.2)) = line.map fun e => (e.1, e.2 - 1) := by
  refine List.map_congr_left fun e he => ?_
  rw [decrement_of_pos (h e he)]

theorem startData_eq (h : ∀ e ∈ r.readReturn, 0 < e.2) : startData c r =
    match tick r.readReturn with
    | (some packet, rest) =>
        { r with
          readReturn := rest
          outgoingDataPacket := some packet
          dataCyclesLeft := c.BL / 2 }
    | (none, rest) => { r with readReturn := rest } := by
  unfold startData tick
  rw [map_decrement h]
  generalize r.readReturn.map (fun e => (e.1, e.2 - 1)) = line
  rcases line with _ | ⟨⟨packet, _ | n⟩, rest⟩
  · rfl
  · rfl
  · rfl

/-- The packet on the bus leaves it in its last cycle. -/
theorem finishData_spec (h : r.outgoingDataPacket.isSome → 0 < r.dataCyclesLeft) :
    (finishData r).2.busy = r.busy - 1 ∧
      ((finishData r).2.outgoingDataPacket.isSome → 0 < (finishData r).2.dataCyclesLeft) ∧
      (finishData r).1.toList ++ (finishData r).2.outgoingDataPacket.toList =
        r.outgoingDataPacket.toList ∧
      (r.busy ≤ 1 → (finishData r).2.outgoingDataPacket = none) := by
  unfold finishData busy busyFor
  cases hbus : r.outgoingDataPacket with
  | none => simp [hbus]
  | some packet =>
      rw [hbus] at h
      have hpos := h rfl
      simp only [decrement_of_pos hpos]
      by_cases hlast : r.dataCyclesLeft - 1 = 0
      · simp [hlast]
      · simp only [hlast, if_false]
        refine ⟨trivial, fun _ => Nat.pos_of_ne_zero hlast, rfl, ?_⟩
        omega

theorem finishData_readReturn : (finishData r).2.readReturn = r.readReturn := by
  unfold finishData
  simp only
  split
  · rfl
  · split <;> rfl

/-- A cycle of a rank loses no data. -/
theorem Flowing.update (hc : 1 ≤ c.BL / 2) (h : r.Flowing c) :
    (r.update c).2.Flowing c ∧ (r.update c).1.toList ++ (r.update c).2.reads = r.reads ∧
      (r.update c).2.busy = busyAfter (c.BL / 2) r.busy r.readReturn ∧
      (r.update c).2.readReturn = (tick r.readReturn).2 := by
  obtain ⟨hbusy, hheld, hpackets, hfree⟩ := finishData_spec h.held
  have hline := finishData_readReturn (r := r)
  have hpos : ∀ e ∈ (finishData r).2.readReturn, 0 < e.2 := by
    rw [hline]
    exact h.clear.pos
  have hclear := h.clear.tick hc
  have hdata := h.data
  have hreads : (r.update c).1.toList ++ (r.update c).2.reads = r.reads ∧
      (r.update c).2.busy = busyAfter (c.BL / 2) r.busy r.readReturn ∧
      (r.update c).2.readReturn = (tick r.readReturn).2 ∧
      ((r.update c).2.outgoingDataPacket.isSome → 0 < (r.update c).2.dataCyclesLeft) := by
    have hvalues := tick_values h.clear.pos
    unfold Rank.update busyAfter reads
    rw [startData_eq hpos, hline]
    split
    · rename_i packet rest htick
      have hnone := hfree (h.clear.free_of_due (congrArg Prod.fst htick))
      rw [htick] at hvalues ⊢
      refine ⟨?_, rfl, rfl, fun _ => hc⟩
      rw [hnone, Option.toList_none, List.append_nil] at hpackets
      rw [← hvalues, ← hpackets]
    · rename_i rest htick
      rw [htick] at hvalues ⊢
      refine ⟨?_, hbusy, rfl, hheld⟩
      rw [← hvalues, ← hpackets]
      simp
  obtain ⟨hreads, hbusy', hline', hheld'⟩ := hreads
  refine ⟨⟨?_, hheld', ?_⟩, hreads, hbusy', hline'⟩
  · rw [hbusy', hline']
    exact hclear
  · intro packet hpacket
    exact h.data packet (hreads ▸ List.mem_append_right _ hpacket)

end Rank

end FeS2.DRAMSim
