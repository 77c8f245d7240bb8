import Dcn.Client.Session
import Dcn.Foundation.Runs

/-! The link table of a router (dnet/router.c).

router_link makes room for one more pointer, builds a state at a UID of its own
and puts it into the table. dnet_state comes to the session only after the
connection is made; whether it was, it returns, and the table takes the state
either way. router_run later starts a thread on every entry. Allocation succeeds.
-/

set_option autoImplicit false

namespace Dcn

structure DnetState where
  servIp : String
  port : UInt16
  session : Option Session

structure LinkCall where
  servIp : String
  port : UInt16
  connects : Bool

def dnetState (call : LinkCall) (myUid : UInt64) : Int × DnetState :=
  if call.connects then (0, ⟨call.servIp, call.port, some (dcnNewSession myUid)⟩)
  else (-1, ⟨call.servIp, call.port, none⟩)

structure Router where
  states : List (Option DnetState)
  statesN : Nat
  statesCap : Nat
  uids : UInt64
  isRunning : Bool

def routerInit (rand : UInt64) : Router := ⟨[], 0, 0, rand, false⟩

/-- alc_realloc keeps what fits and leaves the rest unwritten. -/
def reallocSlots (states : List (Option DnetState)) (newCap : Nat) : List (Option DnetState) :=
  states.take newCap ++ List.replicate (newCap - states.length) none

def Router.reserve (router : Router) : Router :=
  if router.statesN = router.statesCap then
    let newCap := if router.statesCap = 0 then 1 else router.statesCap * 2
    { router with states := reallocSlots router.states newCap, statesCap := newCap }
  else router

/-- The router left, and what dnet_state made of the new state; none where the
call is refused. -/
def routerLink (router : Router) (call : LinkCall) : Router × Option (Int × DnetState) :=
  if router.isRunning then (router, none)
  else
    let router := router.reserve
    let built := dnetState call router.uids
    ({ router with
      states := router.states.set router.statesN (some built.2)
      statesN := router.statesN + 1
      uids := router.uids + 1 }, some built)

structure Linking where
  router : Router
  built : List (Int × DnetState)

namespace Linking

def start (rand : UInt64) : Linking := ⟨routerInit rand, []⟩

def step (l : Linking) (call : LinkCall) : Linking :=
  let (router, built) := routerLink l.router call
  ⟨router, l.built ++ built.toList⟩

def table (l : Linking) : List (Option DnetState) := l.router.states.take l.router.statesN

structure Working (l : Linking) : Prop where
  links : l.table = (l.built.filter (·.1 = 0)).map fun built => some built.2
  sessions : ∀ state, some state ∈ l.table → state.session.isSome
  distinct : (l.table.filterMap fun slot => (slot.bind (·.session)).map (·.cliUid)).Nodup
  bounded : l.router.statesN ≤ l.router.statesCap
  allocated : l.router.statesCap = l.router.states.length

/-- What router_link makes of the table, whatever dnet_state returns: every
state built so far, each at the next UID. -/
structure Filled (rand : UInt64) (l : Linking) : Prop where
  stopped : l.router.isRunning = false
  table : l.table = l.built.map fun built => some built.2
  number : l.router.statesN = l.built.length
  bounded : l.router.statesN ≤ l.router.statesCap
  allocated : l.router.statesCap = l.router.states.length
  uids : l.router.uids = rand + .ofNat l.built.length
  built : ∀ k built, l.built[k]? = some built → ∃ call, built = dnetState call (rand + .ofNat k)

section Reserve

variable {router : Router}

theorem length_reallocSlots (states : List (Option DnetState)) {newCap : Nat} (room : states.length ≤ newCap) :
    (reallocSlots states newCap).length = newCap := by
  rw [reallocSlots, List.length_append, List.length_take, List.length_replicate]
  omega

theorem reserve_spec (bounded : router.statesN ≤ router.statesCap)
    (allocated : router.statesCap = router.states.length) :
    router.reserve.statesN = router.statesN ∧ router.reserve.uids = router.uids ∧
      router.reserve.isRunning = router.isRunning ∧ router.reserve.statesN < router.reserve.statesCap ∧
      router.reserve.statesCap = router.reserve.states.length ∧
      router.reserve.states.take router.statesN = router.states.take router.statesN := by
  unfold Router.reserve
  split
  · next full =>
    have room : router.states.length ≤ if router.statesCap = 0 then 1 else router.statesCap * 2 := by
      split <;> omega
    have more : router.statesN < if router.statesCap = 0 then 1 else router.statesCap * 2 := by
      split <;> omega
    refine ⟨rfl, rfl, rfl, more, (length_reallocSlots router.states room).symm, ?_⟩
    dsimp only
    rw [reallocSlots, List.take_of_length_le room, List.take_append_of_le_length (by omega)]
  · next free => exact ⟨rfl, rfl, rfl, by omega, allocated, rfl⟩

end Reserve

section Steps

variable {rand : UInt64} {l : Linking}

theorem filled_start (rand : UInt64) : Filled rand (start rand) where
  stopped := rfl
  table := rfl
  number := rfl
  bounded := Nat.le_refl 0
  allocated := rfl
  uids := by simp [start, routerInit]
  built := by simp [start]

theorem built_step (filled : Filled rand l) (call : LinkCall) :
    (l.step call).built = l.built ++ [dnetState call (rand + .ofNat l.built.length)] := by
  obtain ⟨_, uids, _⟩ := reserve_spec filled.bounded filled.allocated
  simp [step, routerLink, filled.stopped, uids, filled.uids]

theorem Filled.step (filled : Filled rand l) (call : LinkCall) : Filled rand (l.step call) := by
  obtain ⟨number, uids, stopped, room, allocated, kept⟩ := reserve_spec filled.bounded filled.allocated
  have built := built_step filled call
  have router : (l.step call).router = { l.router.reserve with
      states := l.router.reserve.states.set l.router.reserve.statesN (some (dnetState call l.router.reserve.uids).2)
      statesN := l.router.reserve.statesN + 1
      uids := l.router.reserve.uids + 1 } := by
    simp [Linking.step, routerLink, filled.stopped]
  have here : l.router.reserve.statesN < l.router.reserve.states.length := by omega
  refine ⟨?_, ?_, ?_, ?_, ?_, ?_, ?_⟩
  · rw [router, ← filled.stopped, ← stopped]
  · rw [Linking.table, router, built, List.map_append, ← filled.table, Linking.table, List.take_add_one,
      List.take_set_of_le (Nat.le_refl _), List.getElem?_set_self here, number, kept, uids, filled.uids]
    rfl
  · rw [router, built, List.length_append, List.length_singleton, ← filled.number, ← number]
  · rw [router]
    exact room
  · rw [router, List.length_set]
    exact allocated
  · rw [router, built, List.length_append, List.length_singleton, uids, filled.uids, UInt64.ofNat_add, ← UInt64.add_assoc]
    rfl
  · intro k e entry
    rw [built] at entry
    by_cases old : k < l.built.length
    · rw [List.getElem?_append_left old] at entry
      exact filled.built k e entry
    · rw [List.getElem?_append_right (Nat.le_of_not_lt old)] at entry
      obtain ⟨last, same⟩ := List.getElem?_eq_some_iff.mp entry
      have here : k = l.built.length := by
        rw [List.length_singleton] at last
        omega
      subst here
      refine ⟨call, ?_⟩
      simpa using same.symm

end Steps

section Numbers

theorem numbers_nodup_iff (rand : UInt64) (n : Nat) :
    ((List.range n).map fun k => rand + .ofNat k).Nodup ↔ n ≤ 2 ^ 64 := by
  constructor
  · intro distinct
    by_contra many
    have injective := List.inj_on_of_nodup_map distinct
    have same : rand + UInt64.ofNat 0 = rand + UInt64.ofNat (2 ^ 64) := by
      congr 1
    exact absurd (injective (List.mem_range.mpr (by omega)) (List.mem_range.mpr (by omega)) same) (by decide)
  · intro few
    refine List.Nodup.map_on ?_ List.nodup_range
    intro i first j second same
    have first := List.mem_range.mp first
    have second := List.mem_range.mp second
    have numbers := congrArg UInt64.toNat ((UInt64.add_right_inj rand).mp same)
    rw [UInt64.toNat_ofNat', UInt64.toNat_ofNat'] at numbers
    omega

theorem filterMap_places {α β : Type} {l : List α} {f : α → Option β} {g : Nat → β}
    (each : ∀ k a, l[k]? = some a → f a = some (g k)) : l.filterMap f = (List.range l.length).map g := by
  induction l generalizing g with
  | nil => rfl
  | cons a rest ih =>
    have later : rest.filterMap f = (List.range rest.length).map fun k => g (k + 1) :=
      ih fun k b place => each (k + 1) b place
    rw [List.filterMap_cons, each 0 a rfl, later, List.length_cons, List.range_succ_eq_map, List.map_cons, List.map_map]
    rfl

end Numbers

section Exactly

variable {rand : UInt64} {l : Linking}

theorem dnetState_zero {call : LinkCall} {myUid : UInt64} (success : (dnetState call myUid).1 = 0) :
    (dnetState call myUid).2.session = some (dcnNewSession myUid) := by
  unfold dnetState at *
  split at success
  · next connects => rw [if_pos connects]
  · cases success

theorem uids_of_connected (filled : Filled rand l) (connected : ∀ built ∈ l.built, built.1 = 0) :
    (l.table.filterMap fun slot => (slot.bind (·.session)).map (·.cliUid)) =
      (List.range l.built.length).map fun k => rand + .ofNat k := by
  rw [filled.table, List.filterMap_map]
  apply filterMap_places
  intro k built place
  obtain ⟨call, rfl⟩ := filled.built k built place
  have session := dnetState_zero (connected _ (List.mem_of_getElem? place))
  simp only [Function.comp_apply, Option.bind_some, session, Option.map_some]
  rfl

/-- The table holds the working links exactly where every state it has was
connected, and not more than there are UIDs. -/
theorem working_iff (filled : Filled rand l) :
    l.Working ↔ (∀ built ∈ l.built, built.1 = 0) ∧ l.built.length ≤ 2 ^ 64 := by
  constructor
  · intro working
    have connected : ∀ built ∈ l.built, built.1 = 0 := by
      have lengths := congrArg List.length working.links
      rw [filled.table, List.length_map, List.length_map] at lengths
      have all := List.filter_eq_self.mp (List.filter_sublist.eq_of_length lengths.symm)
      intro built member
      simpa using all built member
    refine ⟨connected, ?_⟩
    have distinct := working.distinct
    rwa [uids_of_connected filled connected, numbers_nodup_iff] at distinct
  · rintro ⟨connected, few⟩
    have all : l.built.filter (·.1 = 0) = l.built := by
      rw [List.filter_eq_self]
      simpa using connected
    refine ⟨?_, ?_, ?_, filled.bounded, filled.allocated⟩
    · rw [all, filled.table]
    · intro state entry
      rw [filled.table] at entry
      obtain ⟨built, member, same⟩ := List.mem_map.mp entry
      obtain ⟨k, place⟩ := List.mem_iff_getElem?.mp member
      obtain ⟨call, rfl⟩ := filled.built k built place
      cases same
      rw [dnetState_zero (connected _ member)]
      rfl
    · rw [uids_of_connected filled connected]
      exact (numbers_nodup_iff rand _).mpr few

theorem dnetState_zero_iff (call : LinkCall) (myUid : UInt64) :
    (dnetState call myUid).1 = 0 ↔ call.connects = true := by
  unfold dnetState
  split <;> simp [*]

theorem working_step_iff (filled : Filled rand l) (working : l.Working) (call : LinkCall) :
    (l.step call).Working ↔ call.connects = true ∧ l.built.length < 2 ^ 64 := by
  obtain ⟨connected, _⟩ := (working_iff filled).mp working
  rw [working_iff (filled.step call), built_step filled call, List.length_append, List.length_singleton,
    List.forall_mem_append, List.forall_mem_singleton, dnetState_zero_iff]
  constructor
  · rintro ⟨⟨_, connects⟩, few⟩
    exact ⟨connects, few⟩
  · rintro ⟨connects, few⟩
    exact ⟨⟨connected, connects⟩, few⟩

theorem along_iff (calls : List LinkCall) (filled : Filled rand l) (few : l.built.length ≤ 2 ^ 64) :
    Runs.Along step (fun l call => call.connects = true ∧ l.built.length < 2 ^ 64) l calls ↔
      (∀ call ∈ calls, call.connects = true) ∧ l.built.length + calls.length ≤ 2 ^ 64 := by
  induction calls generalizing l with
  | nil => simpa using few
  | cons call rest ih =>
    have length : (l.step call).built.length = l.built.length + 1 := by
      rw [built_step filled call, List.length_append, List.length_singleton]
    rw [Runs.along_cons, List.forall_mem_cons, List.length_cons]
    constructor
    · rintro ⟨⟨connects, room⟩, later⟩
      obtain ⟨others, total⟩ := (ih (filled.step call) (by omega)).mp later
      exact ⟨⟨connects, others⟩, by omega⟩
    · rintro ⟨⟨connects, others⟩, total⟩
      exact ⟨⟨connects, by omega⟩, (ih (filled.step call) (by omega)).mpr ⟨others, by omega⟩⟩

end Exactly

/-- The table has exactly the working links after each of the calls where every
attempt to connect succeeds and there are no more calls than UIDs. -/
theorem working_throughout_iff (rand : UInt64) (calls : List LinkCall) :
    Runs.Throughout step Working (start rand) calls ↔
      (∀ call ∈ calls, call.connects = true) ∧ calls.length ≤ 2 ^ 64 := by
  have none : (start rand).Working := (working_iff (filled_start rand)).mpr ⟨by simp [start], by simp [start]⟩
  rw [Runs.throughout_iff_along_all (Filled rand) (fun _ call filled => filled.step call)
    (fun _ call filled working => working_step_iff filled working call) (filled_start rand) none,
    along_iff calls (filled_start rand) (by simp [start])]
  simp [start]

def oneOfTwo : List LinkCall := [⟨"10.0.0.1", 9000, false⟩, ⟨"10.0.0.2", 9000, true⟩]

theorem failed_link_stays : ¬ Runs.Throughout step Working (start 1) oneOfTwo := by
  intro working
  have links := congrArg List.length working.last.links
  exact absurd links (by decide)

end Linking

end Dcn
