import Mathlib.Data.List.AList
import FeS2.Common.Address
import FeS2.Library.EventSystem

/-!
The timers of a cache controller. The earliest one is kept beside the map and searched again when
it is asked for; until then the two variables are left as they were. A failed assertion is `none`.
-/

namespace FeS2.Ruby
open Common EventSystem

/-- `Time`, which is `int64`. -/
abbrev Ticks := Int64

/-- `Map<Address, Time>`; the keys are in the order of the hash table. -/
abbrev TimerMap := AList fun _ : Address => Ticks

structure TimerTable (Consumer : Type) where
  m_map : TimerMap
  m_next_valid : Bool
  m_next_time : Ticks
  m_next_address : Address
  m_consumer_ptr : Option Consumer

/-- The loop of `updateNext`. -/
def searchMinimum (m : TimerMap) : Address × Ticks → List Address → Option (Address × Ticks)
  | best, [] => some best
  | best, address :: addresses =>
      (m.lookup address).bind fun time =>
        searchMinimum m (if time < best.2 then (address, time) else best) addresses

namespace TimerTable
variable {Consumer : Type}

def init : TimerTable Consumer where
  m_map := ∅
  m_next_valid := false
  m_next_time := 0
  m_next_address := { m_address := 0 }
  m_consumer_ptr := none

def setConsumer (c : Consumer) (t : TimerTable Consumer) : Option (TimerTable Consumer) :=
  if t.m_consumer_ptr.isNone then some { t with m_consumer_ptr := some c } else none

def updateNext (t : TimerTable Consumer) : Option (TimerTable Consumer) :=
  match t.m_map.keys with
  | [] => if t.m_next_valid then none else some t
  | address :: addresses =>
      (t.m_map.lookup address).bind fun time =>
        (searchMinimum t.m_map (address, time) addresses).map fun best =>
          { t with m_next_valid := true, m_next_time := best.2, m_next_address := best.1 }

/-- `isReady` and `readyAddress` begin with it. -/
def ensureNext (t : TimerTable Consumer) : Option (TimerTable Consumer) :=
  (if t.m_next_valid then some t else t.updateNext).bind fun t =>
    if t.m_next_valid then some t else none

def isReady (now : Ticks) (t : TimerTable Consumer) : Option (Bool × TimerTable Consumer) :=
  if t.m_map.keys.length = 0 then some (false, t)
  else t.ensureNext.map fun t => (decide (t.m_next_time ≤ now), t)

def readyAddress (now : Ticks) (t : TimerTable Consumer) :
    Option (Address × TimerTable Consumer) :=
  (t.isReady now).bind fun (ready, t) =>
    if ready then t.ensureNext.map fun t => (t.m_next_address, t) else none

def isSet (address : Address) (t : TimerTable Consumer) : Bool := (t.m_map.lookup address).isSome

/-- With the wake-up that the event queue is asked for. -/
def set (now : Ticks) (address : Address) (relativeLatency : Ticks) (t : TimerTable Consumer) :
    Option (TimerTable Consumer × Consumer × Ticks) :=
  if address.IsLine ∧ 0 < relativeLatency ∧ t.isSet address = false then
    t.m_consumer_ptr.map fun c =>
      let readyTime := now + relativeLatency
      let t := { t with m_map := t.m_map.insert address readyTime, m_next_valid := false }
      (if readyTime ≤ t.m_next_time then { t with m_next_valid := false } else t, c, readyTime)
  else none

def unset (address : Address) (t : TimerTable Consumer) : Option (TimerTable Consumer) :=
  if address.IsLine ∧ t.isSet address = true then
    let t := { t with m_map := t.m_map.erase address }
    some (if address = t.m_next_address then { t with m_next_valid := false } else t)
  else none

end TimerTable

/-- A table, and the time of the event queue. -/
structure Timers (Consumer : Type) where
  now : Ticks
  table : TimerTable Consumer

namespace Timers
variable {Consumer : Type}

inductive Action (Consumer : Type)
  | advance (time : Ticks)
  | setConsumer (c : Consumer)
  | set (address : Address) (relativeLatency : Ticks)
  | unset (address : Address)
  | isReady
  | readyAddress
  /-- The hash table has its keys in another order. -/
  | rehash (m : TimerMap)

def init : Timers Consumer where
  now := 1
  table := .init

/-- Time does not go back. -/
def step (s : Timers Consumer) : Action Consumer → Option (Timers Consumer)
  | .advance time => if s.now ≤ time then some { s with now := time } else none
  | .setConsumer c => (s.table.setConsumer c).map fun table => { s with table := table }
  | .set address latency =>
      (s.table.set s.now address latency).map fun r => { s with table := r.1 }
  | .unset address => (s.table.unset address).map fun table => { s with table := table }
  | .isReady => (s.table.isReady s.now).map fun r => { s with table := r.2 }
  | .readyAddress => (s.table.readyAddress s.now).map fun r => { s with table := r.2 }
  | .rehash m =>
      if m.entries.Perm s.table.m_map.entries then
        some { s with table := { s.table with m_map := m } }
      else none

end Timers

/-! What the table is for -/

/-- A stored timer that no other one comes before. -/
structure TimerMap.Earliest (m : TimerMap) (address : Address) (time : Ticks) : Prop where
  stored : m.lookup address = some time
  least : ∀ other t, m.lookup other = some t → time ≤ t

/-- Some stored timer's time has been reached. -/
def TimerMap.Reached (m : TimerMap) (now : Ticks) : Prop :=
  ∃ address time, m.lookup address = some time ∧ time ≤ now

/-- The variables beside the map are right where they are said to be valid. -/
def TimerTable.Agrees {Consumer : Type} (t : TimerTable Consumer) : Prop :=
  t.m_next_valid = true → TimerMap.Earliest t.m_map t.m_next_address t.m_next_time

structure Timers.Right {Consumer : Type} (s : Timers Consumer) : Prop where
  agrees : s.table.Agrees
  isReady : ∃ ready table, s.table.isReady s.now = some (ready, table) ∧
    (ready = true ↔ TimerMap.Reached s.table.m_map s.now) ∧ table.Agrees ∧
    (s.table.m_map.keys ≠ [] → table.m_next_valid = true)
  readyAddress : TimerMap.Reached s.table.m_map s.now → ∃ address table time,
    s.table.readyAddress s.now = some (address, table) ∧
      TimerMap.Earliest s.table.m_map address time ∧ table.Agrees

theorem searchMinimum_eq {m : TimerMap} (best : Address × Ticks) {addresses : List Address}
    (hbest : m.lookup best.1 = some best.2) (hkeys : ∀ a ∈ addresses, a ∈ m) :
    ∃ r, searchMinimum m best addresses = some r ∧ m.lookup r.1 = some r.2 ∧ r.2 ≤ best.2 ∧
      ∀ a ∈ addresses, ∀ time, m.lookup a = some time → r.2 ≤ time := by
  induction addresses generalizing best with
  | nil => exact ⟨best, rfl, hbest, Int64.le_refl _, nofun⟩
  | cons address addresses ih =>
      obtain ⟨time, htime⟩ :=
        Option.isSome_iff_exists.mp (AList.lookup_isSome.mpr (hkeys address List.mem_cons_self))
      have hrest : ∀ a ∈ addresses, a ∈ m := fun a ha => hkeys a (List.mem_cons_of_mem _ ha)
      rw [searchMinimum, htime, Option.bind_some]
      split
      · next hlt =>
          obtain ⟨r, hr, hlookup, hle, hleast⟩ := ih (address, time) htime hrest
          refine ⟨r, hr, hlookup, Int64.le_trans hle (Int64.le_of_lt hlt),
            List.forall_mem_cons.mpr ⟨fun t ht => ?_, hleast⟩⟩
          obtain rfl := Option.some.inj (htime.symm.trans ht)
          exact hle
      · next hle' =>
          obtain ⟨r, hr, hlookup, hle, hleast⟩ := ih best hbest hrest
          refine ⟨r, hr, hlookup, hle, List.forall_mem_cons.mpr ⟨fun t ht => ?_, hleast⟩⟩
          obtain rfl := Option.some.inj (htime.symm.trans ht)
          exact Int64.le_trans hle (Int64.not_lt.mp hle')

namespace TimerMap.Earliest
variable {m m' : TimerMap} {address : Address} {time : Ticks}

theorem congr (h : m.Earliest address time) (heq : ∀ a, AList.lookup a m' = AList.lookup a m) :
    TimerMap.Earliest m' address time where
  stored := (heq address).trans h.stored
  least other t ht := h.least other t ((heq other).symm.trans ht)

/-- Another timer may go. -/
theorem erase (h : m.Earliest address time) {other : Address} (hne : address ≠ other) :
    TimerMap.Earliest (AList.erase other m) address time where
  stored := (AList.lookup_erase_ne hne).trans h.stored
  least a t ht := by
    by_cases heq : a = other
    · rw [heq, AList.lookup_erase] at ht
      cases ht
    · rw [AList.lookup_erase_ne heq] at ht
      exact h.least a t ht

theorem reached (h : m.Earliest address time) {now : Ticks} :
    time ≤ now ↔ TimerMap.Reached m now := by
  constructor
  · exact fun hle => ⟨address, time, h.stored, hle⟩
  · rintro ⟨other, t, ht, hle⟩
    exact Int64.le_trans (h.least other t ht) hle

end TimerMap.Earliest

theorem TimerMap.not_reached_nil {m : TimerMap} (h : AList.keys m = []) (now : Ticks) :
    ¬ TimerMap.Reached m now := by
  rintro ⟨address, time, htime, -⟩
  have hmem : address ∈ AList.keys m := AList.mem_keys.mp (AList.lookup_isSome.mp (htime ▸ rfl))
  rw [h] at hmem
  cases hmem

namespace TimerTable
variable {Consumer : Type} {t : TimerTable Consumer}

theorem updateNext_eq (hkeys : t.m_map.keys ≠ []) :
    ∃ t', t.updateNext = some t' ∧ t'.m_map = t.m_map ∧ t'.m_next_valid = true ∧ t'.Agrees := by
  have hmem : ∀ a, a ∈ t.m_map ↔ a ∈ t.m_map.keys := fun a => (AList.mem_keys).symm
  rw [updateNext]
  cases hks : t.m_map.keys with
  | nil => exact absurd hks hkeys
  | cons address addresses =>
      rw [hks] at hmem
      obtain ⟨time, htime⟩ := Option.isSome_iff_exists.mp
        (AList.lookup_isSome.mpr ((hmem address).mpr List.mem_cons_self))
      obtain ⟨r, hr, hlookup, hle, hleast⟩ := searchMinimum_eq (address, time) htime
        fun a ha => (hmem a).mpr (List.mem_cons_of_mem _ ha)
      dsimp only
      rw [htime, Option.bind_some, hr]
      refine ⟨_, rfl, rfl, rfl, fun _ => ⟨hlookup, fun other t' ht' => ?_⟩⟩
      have hother := (hmem other).mp (AList.lookup_isSome.mp (ht' ▸ rfl))
      cases List.mem_cons.mp hother with
      | inl heq =>
          rw [heq, htime] at ht'
          exact Option.some.inj ht' ▸ hle
      | inr hother => exact hleast other hother t' ht'

theorem ensureNext_eq (h : t.Agrees) (hkeys : t.m_map.keys ≠ []) :
    ∃ t', t.ensureNext = some t' ∧ t'.m_map = t.m_map ∧ t'.m_next_valid = true ∧ t'.Agrees := by
  rw [ensureNext]
  cases hvalid : t.m_next_valid with
  | true =>
      refine ⟨t, ?_, rfl, hvalid, h⟩
      rw [if_pos rfl, Option.bind_some, hvalid, if_pos rfl]
  | false =>
      obtain ⟨t', ht', hmap, hvalid', hagrees⟩ := updateNext_eq hkeys
      refine ⟨t', ?_, hmap, hvalid', hagrees⟩
      rw [if_neg (by decide), ht', Option.bind_some, hvalid', if_pos rfl]

theorem isReady_eq (h : t.Agrees) (now : Ticks) :
    ∃ ready t', t.isReady now = some (ready, t') ∧
      (ready = true ↔ TimerMap.Reached t.m_map now) ∧ t'.Agrees ∧ t'.m_map = t.m_map ∧
      (t.m_map.keys ≠ [] → t'.m_next_valid = true) := by
  rw [isReady]
  by_cases hkeys : t.m_map.keys = []
  · rw [if_pos (List.length_eq_zero_iff.mpr hkeys)]
    have hnone := TimerMap.not_reached_nil hkeys now
    exact ⟨false, t, rfl, iff_of_false (by decide) hnone, h, rfl, fun hne => absurd hkeys hne⟩
  · obtain ⟨t', ht', hmap, hvalid, hagrees⟩ := ensureNext_eq h hkeys
    rw [if_neg fun hlen => hkeys (List.length_eq_zero_iff.mp hlen), ht']
    refine ⟨_, t', rfl, ?_, hagrees, hmap, fun _ => hvalid⟩
    rw [decide_eq_true_iff, ← hmap]
    exact (hagrees hvalid).reached

theorem readyAddress_eq (h : t.Agrees) {now : Ticks} (hreached : TimerMap.Reached t.m_map now) :
    ∃ address t' time, t.readyAddress now = some (address, t') ∧
      TimerMap.Earliest t.m_map address time ∧ t'.Agrees ∧ t'.m_map = t.m_map := by
  have hkeys : t.m_map.keys ≠ [] := fun hnil => TimerMap.not_reached_nil hnil now hreached
  obtain ⟨ready, t1, hready, hiff, hagrees, hmap, hvalid⟩ := isReady_eq h now
  obtain rfl := hiff.mpr hreached
  have hensure : t1.ensureNext = some t1 := by
    rw [ensureNext, hvalid hkeys, if_pos rfl, Option.bind_some, hvalid hkeys, if_pos rfl]
  refine ⟨t1.m_next_address, t1, t1.m_next_time, ?_, hmap ▸ hagrees (hvalid hkeys), hagrees, hmap⟩
  rw [readyAddress, hready, Option.bind_some]
  dsimp only
  rw [if_pos rfl, hensure]
  rfl

/-- `readyAddress` asserts that the table is ready. -/
theorem readyAddress_agrees (h : t.Agrees) {now : Ticks} {address : Address}
    {t' : TimerTable Consumer} (ht : t.readyAddress now = some (address, t')) : t'.Agrees := by
  obtain ⟨ready, t1, hready, hiff, -⟩ := isReady_eq h now
  cases ready with
  | true =>
      obtain ⟨a, t2, time, heq, hearliest, hagrees, hmap⟩ := readyAddress_eq h (hiff.mp rfl)
      cases ht.symm.trans heq
      exact hagrees
  | false =>
      rw [readyAddress, hready] at ht
      cases ht

theorem set_agrees {now latency : Ticks} {address : Address}
    {r : TimerTable Consumer × Consumer × Ticks}
    (hr : t.set now address latency = some r) : r.1.Agrees := by
  rw [set] at hr
  split at hr
  · obtain ⟨c, -, rfl⟩ := Option.map_eq_some_iff.mp hr
    intro hvalid
    dsimp only at hvalid
    split at hvalid
    · cases hvalid
    · cases hvalid
  · cases hr

theorem unset_agrees (h : t.Agrees) {address : Address} {t' : TimerTable Consumer}
    (ht : t.unset address = some t') : t'.Agrees := by
  rw [unset] at ht
  split at ht
  · obtain rfl := Option.some.inj ht
    intro hvalid
    dsimp only at hvalid ⊢
    split at hvalid
    · cases hvalid
    · next hne =>
        rw [if_neg hne]
        exact (h hvalid).erase (Ne.symm hne)
  · cases ht

end TimerTable

namespace Timers
variable {Consumer : Type} {s s' : Timers Consumer}

theorem step_agrees {action : Action Consumer} (h : s.table.Agrees)
    (hs : s.step action = some s') : s'.table.Agrees := by
  cases action with
  | advance time =>
      obtain ⟨-, heq⟩ := Option.ite_none_right_eq_some.mp hs
      cases heq
      exact h
  | setConsumer c =>
      obtain ⟨table, htable, rfl⟩ := Option.map_eq_some_iff.mp hs
      obtain ⟨-, heq⟩ := Option.ite_none_right_eq_some.mp htable
      cases heq
      exact h
  | set address latency =>
      obtain ⟨r, hr, rfl⟩ := Option.map_eq_some_iff.mp hs
      exact TimerTable.set_agrees hr
  | unset address =>
      obtain ⟨table, htable, rfl⟩ := Option.map_eq_some_iff.mp hs
      exact TimerTable.unset_agrees h htable
  | isReady =>
      obtain ⟨r, hr, rfl⟩ := Option.map_eq_some_iff.mp hs
      obtain ⟨ready, table, heq, -, hagrees, -⟩ := TimerTable.isReady_eq h s.now
      cases hr.symm.trans heq
      exact hagrees
  | readyAddress =>
      obtain ⟨r, hr, rfl⟩ := Option.map_eq_some_iff.mp hs
      exact TimerTable.readyAddress_agrees h hr
  | rehash m =>
      obtain ⟨hperm, heq⟩ := Option.ite_none_right_eq_some.mp hs
      cases heq
      intro hvalid
      exact (h hvalid).congr fun a => AList.perm_lookup hperm

theorem run_agrees {actions : List (Action Consumer)} (hs : run step init actions = some s) :
    s.table.Agrees :=
  run_invariant (C := fun _ _ => True) (fun _ _ _ h _ hstep => step_agrees h hstep)
    (fun hvalid => by cases hvalid) (along_true step init actions) hs

/-- After any run the table answers for the earliest timer. -/
theorem answers_earliest {actions : List (Action Consumer)} (hs : run step init actions = some s) :
    s.Right := by
  have h := run_agrees hs
  refine ⟨h, ?_, fun hreached => ?_⟩
  · obtain ⟨ready, table, heq, hiff, hagrees, -, hvalid⟩ := TimerTable.isReady_eq h s.now
    exact ⟨ready, table, heq, hiff, hagrees, hvalid⟩
  · obtain ⟨address, table, time, heq, hearliest, hagrees, -⟩ :=
      TimerTable.readyAddress_eq h hreached
    exact ⟨address, table, time, heq, hearliest, hagrees⟩

/-- The earlier timer is removed after it was cached. -/
theorem answers_earliest_unset : ∃ s : Timers Unit,
    run step init [.setConsumer (), .set ⟨64⟩ 5, .set ⟨128⟩ 9, .isReady, .unset ⟨64⟩,
      .advance 10, .isReady, .readyAddress] = some s ∧ s.Right := by
  have hrun : (run step (init : Timers Unit) [.setConsumer (), .set ⟨64⟩ 5, .set ⟨128⟩ 9, .isReady,
      .unset ⟨64⟩, .advance 10, .isReady, .readyAddress]).isSome := by decide
  obtain ⟨s, hs⟩ := Option.isSome_iff_exists.mp hrun
  exact ⟨s, hs, answers_earliest hs⟩

end Timers
end FeS2.Ruby
