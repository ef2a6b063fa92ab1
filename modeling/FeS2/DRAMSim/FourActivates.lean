import FeS2.Library.RateWindow
import FeS2.DRAMSim.Safety

/-!
Of a rank at most four banks are activated in any `tFAW` cycles.
-/

namespace FeS2.DRAMSim
open RateWindow CommandQueue
variable {c : SystemConfiguration} {T now i : Nat} {s s' : MemorySystem} {packet : BusPacket}
  {issued : List (Nat × BusPacket)}

/-- The cycles in which a bank of rank `i` was activated. -/
def activates (i : Nat) (issued : List (Nat × BusPacket)) : List Nat :=
  (issued.filter fun e => e.2.busPacketType == .ACTIVATE && e.2.rank == i).map Prod.fst

/-- Before the command of cycle `now`, the windows that are kept of the activates. -/
structure Windowed (c : SystemConfiguration) (now : Nat) (issued : List (Nat × BusPacket))
    (windows : Nat → List Nat) : Prop where
  past : ∀ e ∈ issued, e.1 < now
  windows : ∀ i, Open c.tFAW now (activates i issued) (windows i)
  far : ∀ i, Far 4 c.tFAW (activates i issued)

theorem Windowed.init : Windowed c now [] fun _ => [] where
  past _ h := nomatch h
  windows _ := Open.nil
  far _ := Far.nil

theorem activates_concat (i : Nat) :
    activates i (issued ++ [(now, packet)]) =
      if packet.busPacketType = .ACTIVATE ∧ packet.rank = i then activates i issued ++ [now]
      else activates i issued := by
  unfold activates
  rw [List.filter_append, List.map_append]
  by_cases h : packet.busPacketType = .ACTIVATE ∧ packet.rank = i
  · simp [h.1, h.2]
  · rw [if_neg h]
    rw [List.filter_singleton]
    have hfalse : (packet.busPacketType == .ACTIVATE && packet.rank == i) = false := by
      rw [← Bool.not_eq_true]
      simpa using h
    simp [hfalse]

theorem countdown_windows {cq : CommandQueue}
    (h : ∀ i, Open c.tFAW now (activates i issued) (cq.tFAWCountdown i)) (i : Nat) :
    (countdown cq).tFAWCountdown i = close (cq.tFAWCountdown i) := by
  have hmap : (cq.tFAWCountdown i).map decrement = (cq.tFAWCountdown i).map (· - 1) :=
    List.map_congr_left fun w hw => decrement_of_pos ((h i).pos w hw)
  unfold close
  rw [← hmap]
  rfl

theorem mem_activates {t : Nat} (h : t ∈ activates i issued) : ∃ e ∈ issued, e.1 = t := by
  obtain ⟨e, he, rfl⟩ := List.mem_map.mp h
  exact ⟨e, List.mem_of_mem_filter he, rfl⟩

/-- What a cycle does to the windows. -/
theorem Windowed.pop (hfaw : 0 < c.tFAW) (states : BankStates) {cq : CommandQueue}
    (h : Windowed c now issued cq.tFAWCountdown) :
    Windowed c (now + 1)
      (match (pop c now states cq).1 with
        | none => issued
        | some packet => issued ++ [(now, packet)])
      (pop c now states cq).2.tFAWCountdown := by
  have hpops := pop_spec c now states cq
  have hclosed (i : Nat) : Open c.tFAW (now + 1) (activates i issued)
      ((countdown cq).tFAWCountdown i) := by
    rw [countdown_windows h.windows]
    exact (h.windows i).close
  have hpast : ∀ e ∈ issued, e.1 < now + 1 := fun e he => Nat.lt_succ_of_lt (h.past e he)
  generalize CommandQueue.pop c now states cq = popped at hpops ⊢
  obtain ⟨_ | packet, cq'⟩ := popped
  · have hwindows : cq'.tFAWCountdown = (countdown cq).tFAWCountdown := hpops.windows
    simp only [hwindows]
    exact ⟨hpast, hclosed, h.far⟩
  · have hwindows : cq'.tFAWCountdown = if packet.busPacketType = .ACTIVATE then
        Function.update (countdown cq).tFAWCountdown packet.rank
          ((countdown cq).tFAWCountdown packet.rank ++ [c.tFAW])
        else (countdown cq).tFAWCountdown := hpops.windows
    have hroom : packet.busPacketType = .ACTIVATE →
        ((countdown cq).tFAWCountdown packet.rank).length < 4 := by
      intro hact
      cases hpops.origin packet rfl with
      | queued rank slot q hissuable hremoved hqueues =>
          unfold isIssuable at hissuable
          rw [hact] at hissuable
          exact (of_decide_eq_true hissuable).2.2
      | precharge rank bank hpolicy hrange hpacket hopen hnext hqueues =>
          rw [hpacket] at hact
          cases hact
      | refresh hpacket hwaiting hready hpowered hqueues =>
          rw [hpacket] at hact
          cases hact
    refine ⟨fun e he => ?_, fun i => ?_, fun i => ?_⟩
    · rcases List.mem_append.mp he with he | he
      · exact hpast e he
      · rw [List.mem_singleton.mp he]
        exact Nat.lt_succ_self now
    · rw [hwindows, activates_concat]
      by_cases hact : packet.busPacketType = .ACTIVATE
      · rw [if_pos hact, Function.update_apply]
        by_cases hi : packet.rank = i
        · subst hi
          rw [if_pos ⟨hact, rfl⟩, if_pos rfl]
          refine (hclosed _).push (fun t ht => ?_) hfaw
          obtain ⟨e, he, rfl⟩ := mem_activates ht
          exact h.past e he
        · rw [if_neg fun hboth => hi hboth.2, if_neg (Ne.symm hi)]
          exact hclosed i
      · rw [if_neg hact, if_neg fun hboth => hact hboth.1]
        exact hclosed i
    · rw [activates_concat]
      split
      · rename_i hboth
        obtain ⟨hact, rfl⟩ := hboth
        exact (h.far _).push (hclosed _) (hroom hact)
      · exact h.far i

theorem schedules_windows {cq cq' : CommandQueue} {q q' pending pending' : List Transaction}
    (h : Schedules c cq q pending cq' q' pending') : cq'.tFAWCountdown = cq.tFAWCountdown := by
  induction h with
  | nothing => rfl
  | more htype hfirst hrest ih => exact ih.trans hfirst.windows

theorem Windowed.cycle (hfaw : 0 < c.tFAW) {cq : CommandQueue} {popped : Option BusPacket}
    (h : Windowed c s.currentClockCycle s.issued s.memoryController.commandQueue.tFAWCountdown)
    (hcycle : CommandCycle c s cq popped s') :
    Windowed c (s.currentClockCycle + 1) s'.issued
      s'.memoryController.commandQueue.tFAWCountdown := by
  rw [← hcycle.windows] at h
  have hpop := h.pop hfaw (counted c s)
  obtain ⟨q, pending, q', pending', hschedules⟩ := hcycle.schedules
  rw [hcycle.pops] at hpop
  rw [hcycle.issued, schedules_windows hschedules]
  cases popped with
  | none =>
      rw [Option.toList_none, List.map_nil, List.append_nil]
      exact hpop
  | some packet => exact hpop

/-- In every run, of any five activates of a rank the last is at least `tFAW` cycles behind
the first. -/
theorem five_activates (hc : c.Valid) (hfaw : 0 < c.tFAW) (events : List MemorySystem.Event)
    (hevents : ∀ e ∈ events, e.Proper) :
    ∃ s, events.foldlM (MemorySystem.step c) (MemorySystem.init c) = .ok s ∧
      ∀ i k t t', (activates i s.issued)[k]? = some t → (activates i s.issued)[k + 4]? = some t' →
        t + c.tFAW ≤ t' := by
  obtain ⟨s, hok, h⟩ := run_invariant hc
    (I := fun s => Windowed c s.currentClockCycle s.issued
      s.memoryController.commandQueue.tFAWCountdown)
    Windowed.init (fun _ _ h => h) (fun _ _ h => h)
    (fun onWrite onRead s done a d s' _ h hcycle => by
      rw [hcycle.clock]
      obtain ⟨cq, popped, hcommands⟩ := hcycle.commands hc
      exact Windowed.cycle hfaw h hcommands) hevents
  exact ⟨s, hok, h.far⟩

theorem five_activates_ddr2 :
    ∃ s, List.foldlM (MemorySystem.step .DDR2_micron_16M_8b_x8_sg3E)
        (MemorySystem.init .DDR2_micron_16M_8b_x8_sg3E)
        [.request ⟨.DATA_READ, 0x40⟩, .cycle [] [], .cycle [] []] = .ok s ∧
      ∀ i k t t', (activates i s.issued)[k]? = some t → (activates i s.issued)[k + 4]? = some t' →
        t + SystemConfiguration.DDR2_micron_16M_8b_x8_sg3E.tFAW ≤ t' :=
  five_activates SystemConfiguration.valid_ddr2 (by decide) _ (by decide)

end FeS2.DRAMSim
